import Mathlib

/-!
# Gen/kill transfers

Values are finite sets, and a node takes some elements out and puts others in. Seen from a start value
`top`, each element is on its own: it leaves the membership it has in `top` at most once. `Versus top` is
the order of moving away from `top`, in which such transfers are monotone.
-/

/-- Finite sets, ordered by how far they are from `top`. -/
def Versus {P : Type*} (_top : Finset P) : Type _ := Finset P

namespace Versus

variable {P : Type*}

/-- `a` is further from `top` than `b`. -/
def Le (top a b : Finset P) : Prop := ∀ p, (p ∈ top → p ∈ a → p ∈ b) ∧ (p ∉ top → p ∈ b → p ∈ a)

instance {top : Finset P} : Preorder (Versus top) where
  le := Le top
  le_refl _ _ := ⟨fun _ => id, fun _ => id⟩
  le_trans _ _ _ hab hbc p :=
    ⟨fun ht ha => (hbc p).1 ht ((hab p).1 ht ha), fun ht hc => (hab p).2 ht ((hbc p).2 ht hc)⟩

variable {top : Finset P}

theorem le_top (a : Finset P) : Le top a top := fun _ => ⟨fun ht _ => ht, fun ht h => absurd h ht⟩

variable [DecidableEq P]

instance : DecidableEq (Versus top) := inferInstanceAs (DecidableEq (Finset P))

/-- A gen/kill transfer is monotone. -/
theorem transfer_le {a b : Finset P} (h : Le top a b) (kill gen : Finset P) :
    Le top ((a \ kill) ∪ gen) ((b \ kill) ∪ gen) := by
  intro p
  have hp := h p
  constructor
  · intro ht ha
    rcases Finset.mem_union.mp ha with ha | ha
    · have ha := Finset.mem_sdiff.mp ha
      exact Finset.mem_union_left _ (Finset.mem_sdiff.mpr ⟨hp.1 ht ha.1, ha.2⟩)
    · exact Finset.mem_union_right _ ha
  · intro ht hb
    rcases Finset.mem_union.mp hb with hb | hb
    · have hb := Finset.mem_sdiff.mp hb
      exact Finset.mem_union_left _ (Finset.mem_sdiff.mpr ⟨hp.2 ht hb.1, hb.2⟩)
    · exact Finset.mem_union_right _ hb

theorem inter_le {a a' b b' : Finset P} (ha : Le top a a') (hb : Le top b b') :
    Le top (a ∩ b) (a' ∩ b') := by
  intro p
  constructor
  · intro ht h
    have h := Finset.mem_inter.mp h
    exact Finset.mem_inter.mpr ⟨(ha p).1 ht h.1, (hb p).1 ht h.2⟩
  · intro ht h
    have h := Finset.mem_inter.mp h
    exact Finset.mem_inter.mpr ⟨(ha p).2 ht h.1, (hb p).2 ht h.2⟩

theorem union_le {a a' b b' : Finset P} (ha : Le top a a') (hb : Le top b b') :
    Le top (a ∪ b) (a' ∪ b') := by
  intro p
  constructor
  · intro ht h
    rcases Finset.mem_union.mp h with h | h
    · exact Finset.mem_union_left _ ((ha p).1 ht h)
    · exact Finset.mem_union_right _ ((hb p).1 ht h)
  · intro ht h
    rcases Finset.mem_union.mp h with h | h
    · exact Finset.mem_union_left _ ((ha p).2 ht h)
    · exact Finset.mem_union_right _ ((hb p).2 ht h)

variable (top) in
/-- How many elements have not moved yet. -/
def rank (all a : Finset P) : ℕ := (all.filter fun p => p ∈ a ↔ p ∈ top).card

theorem rank_le (all a : Finset P) : rank top all a ≤ all.card :=
  Finset.card_filter_le _ _

/-- A value that moves further has a smaller rank. -/
theorem rank_lt {all a b : Finset P} (h : Le top a b) (hne : a ≠ b) (ha : a ⊆ all)
    (hb : b ⊆ all) : rank top all a < rank top all b := by
  have hsubset : (all.filter fun p => p ∈ a ↔ p ∈ top) ⊆
      all.filter fun p => p ∈ b ↔ p ∈ top := by
    intro p hp
    rw [Finset.mem_filter] at hp ⊢
    refine ⟨hp.1, ?_⟩
    by_cases ht : p ∈ top
    · exact iff_of_true ((h p).1 ht (hp.2.mpr ht)) ht
    · exact iff_of_false (fun hpb => ht (hp.2.mp ((h p).2 ht hpb))) ht
  refine Finset.card_lt_card ((Finset.ssubset_iff_of_subset hsubset).mpr ?_)
  obtain ⟨p, hp⟩ : ∃ p, ¬ (p ∈ a ↔ p ∈ b) := by
    by_contra hall
    push Not at hall
    exact hne (Finset.ext hall)
  by_cases ht : p ∈ top
  · have hpb : p ∈ b := by
      by_contra hpb
      exact hp (iff_of_false (fun hpa => hpb ((h p).1 ht hpa)) hpb)
    have hpa : p ∉ a := fun hpa => hp (iff_of_true hpa hpb)
    refine ⟨p, Finset.mem_filter.mpr ⟨hb hpb, iff_of_true hpb ht⟩, fun hmem => hpa ?_⟩
    exact (Finset.mem_filter.mp hmem).2.mpr ht
  · have hpa : p ∈ a := by
      by_contra hpa
      exact hp (iff_of_false hpa fun hpb => hpa ((h p).2 ht hpb))
    have hpb : p ∉ b := fun hpb => hp (iff_of_true hpa hpb)
    refine ⟨p, Finset.mem_filter.mpr ⟨ha hpa, iff_of_false hpb ht⟩, fun hmem => ht ?_⟩
    exact (Finset.mem_filter.mp hmem).2.mp hpa

end Versus
