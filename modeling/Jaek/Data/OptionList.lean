import Mathlib

/-!
# Partial functions along a list

`mapM` in `Option` fails as soon as one element fails. `exists_mapM_iff` turns a statement about its
result into a statement about every element.
-/

namespace Jaek

variable {α β : Type*} {f : α → Option β} {R : α → β → Prop}

theorem mapM_cons_eq_some {a : α} {xs : List α} {ys : List β} :
    (a :: xs).mapM f = some ys ↔ ∃ b bs, f a = some b ∧ xs.mapM f = some bs ∧ ys = b :: bs := by
  rw [List.mapM_cons]
  constructor
  · intro h
    obtain ⟨b, hb, h⟩ := Option.bind_eq_some_iff.mp h
    obtain ⟨bs, hbs, h⟩ := Option.bind_eq_some_iff.mp h
    exact ⟨b, bs, hb, hbs, (Option.some.inj h).symm⟩
  · rintro ⟨b, bs, hb, hbs, rfl⟩
    rw [hb, hbs]
    rfl

theorem mapM_eq_some_iff {xs : List α} {ys : List β} :
    xs.mapM f = some ys ↔ List.Forall₂ (fun a b => f a = some b) xs ys := by
  induction xs generalizing ys with
  | nil => simp [eq_comm]
  | cons a xs ih => simp only [mapM_cons_eq_some, List.forall₂_cons_left_iff, ih]

theorem exists_of_mem_mapM {xs : List α} {ys : List β} (h : xs.mapM f = some ys) {b : β} (hb : b ∈ ys) :
    ∃ a ∈ xs, f a = some b := by
  have hrel := mapM_eq_some_iff.mp h
  clear h
  induction hrel with
  | nil => cases hb
  | cons hab _ ih =>
    rcases List.mem_cons.mp hb with rfl | hb
    · exact ⟨_, List.mem_cons_self, hab⟩
    · obtain ⟨a, ha, hab⟩ := ih hb
      exact ⟨a, List.mem_cons_of_mem _ ha, hab⟩

theorem exists_forall₂_iff {xs : List α} :
    (∃ ys, List.Forall₂ R xs ys) ↔ ∀ a ∈ xs, ∃ b, R a b := by
  induction xs with
  | nil => simp
  | cons a xs ih =>
    rw [List.forall_mem_cons, ← ih]
    constructor
    · rintro ⟨ys, h⟩
      obtain ⟨b, bs, hb, hbs, rfl⟩ := List.forall₂_cons_left_iff.mp h
      exact ⟨⟨b, hb⟩, bs, hbs⟩
    · rintro ⟨⟨b, hb⟩, bs, hbs⟩
      exact ⟨b :: bs, .cons hb hbs⟩

theorem forall₂_and {S : α → β → Prop} {xs : List α} {ys : List β} :
    List.Forall₂ R xs ys ∧ List.Forall₂ S xs ys ↔ List.Forall₂ (fun a b => R a b ∧ S a b) xs ys := by
  constructor
  · rintro ⟨hR, hS⟩
    induction hR with
    | nil => exact .nil
    | cons hab _ ih =>
      cases hS with
      | cons hab' hS => exact .cons ⟨hab, hab'⟩ (ih hS)
  · intro h
    exact ⟨h.imp fun _ _ hab => hab.1, h.imp fun _ _ hab => hab.2⟩

/-- A list is mapped, with related results, when each of its elements is. -/
theorem exists_mapM_iff {xs : List α} :
    (∃ ys, xs.mapM f = some ys ∧ List.Forall₂ R xs ys) ↔ ∀ a ∈ xs, ∃ b, f a = some b ∧ R a b := by
  rw [← exists_forall₂_iff]
  simp only [mapM_eq_some_iff, forall₂_and]

end Jaek
