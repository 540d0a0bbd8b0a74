import Mathlib

/-!
# Depth-first visits

A visit goes to a node, does something there, and visits the nodes the edges lead to; nodes that have
been seen are left out. The depth is bounded by `fuel`. Where the edges stay in a finite set, the nodes of
it that have not been seen bound the depth, so there is always enough.
-/

namespace DepthFirst

variable {α σ : Type*} [DecidableEq α] (next : α → List α) (act : σ → α → σ)

/-- Visit a node, with the nodes seen so far and what has been done there. -/
def visit : ℕ → List α × σ → α → Option (List α × σ)
  | 0, _, _ => none
  | fuel + 1, (visited, s), a =>
    if a ∈ visited then some (visited, s) else (next a).foldlM (visit fuel) (a :: visited, act s a)

variable {next act} {fuel : ℕ} {a : α} {visited visited' : List α} {s s' : σ}

/-- What holds at the start and is kept by the action at every node holds at the end. -/
theorem visit_invariant {I : σ → Prop} (hact : ∀ s a, I s → I (act s a))
    (h : visit next act fuel (visited, s) a = some (visited', s')) (hs : I s) : I s' := by
  induction fuel generalizing visited s visited' s' a with
  | zero => cases h
  | succ fuel ih =>
    have hall : ∀ (as : List α) {p p' : List α × σ}, as.foldlM (visit next act fuel) p = some p' →
        I p.2 → I p'.2 := by
      intro as
      induction as with
      | nil =>
        intro p p' h hp
        cases h
        exact hp
      | cons b as ihas =>
        intro p p' h hp
        obtain ⟨p₁, h₁, h⟩ := Option.bind_eq_some_iff.mp h
        exact ihas h (ih h₁ hp)
    rw [visit] at h
    split_ifs at h with hmem
    · cases h
      exact hs
    · exact hall _ h (hact s a hs)

/-- Within a set that the edges do not leave, a visit returns, and forgets nothing. -/
theorem visit_returns {U : Finset α} (hU : ∀ a ∈ U, ∀ b ∈ next a, b ∈ U) (ha : a ∈ U)
    (hfuel : (U.filter (· ∉ visited)).card < fuel) :
    ∃ p, visit next act fuel (visited, s) a = some p ∧ visited ⊆ p.1 := by
  induction fuel generalizing visited s a with
  | zero => omega
  | succ fuel ih =>
    rw [visit]
    split_ifs with hmem
    · exact ⟨_, rfl, List.Subset.refl _⟩
    · have hall : ∀ (as : List α) (p : List α × σ), (∀ b ∈ as, b ∈ U) →
          (U.filter (· ∉ p.1)).card < fuel →
          ∃ p', as.foldlM (visit next act fuel) p = some p' ∧ p.1 ⊆ p'.1 := by
        intro as
        induction as with
        | nil => exact fun p _ _ => ⟨p, rfl, List.Subset.refl _⟩
        | cons b as ihas =>
          rintro ⟨visited₁, s₁⟩ hmemU hcard
          change (U.filter (· ∉ visited₁)).card < fuel at hcard
          obtain ⟨p₁, hp₁, hsub₁⟩ := ih (s := s₁) (hmemU b List.mem_cons_self) hcard
          have hfewer : (U.filter (· ∉ p₁.1)).card ≤ (U.filter (· ∉ visited₁)).card :=
            Finset.card_le_card (Finset.monotone_filter_right U fun c _ hc hmem => hc (hsub₁ hmem))
          obtain ⟨p₂, hp₂, hsub₂⟩ := ihas p₁ (fun c hc => hmemU c (List.mem_cons_of_mem _ hc)) (by omega)
          exact ⟨p₂, by rw [List.foldlM_cons, hp₁]; exact hp₂, List.Subset.trans hsub₁ hsub₂⟩
      have hless : (U.filter (· ∉ a :: visited)).card < (U.filter (· ∉ visited)).card := by
        apply Finset.card_lt_card
        refine Finset.ssubset_iff_subset_ne.mpr ⟨?_, fun heq => ?_⟩
        · exact Finset.monotone_filter_right U fun c _ hc hmem => hc (List.mem_cons_of_mem _ hmem)
        · have hmemF : a ∈ U.filter (· ∉ visited) := Finset.mem_filter.mpr ⟨ha, hmem⟩
          rw [← heq, Finset.mem_filter] at hmemF
          exact hmemF.2 List.mem_cons_self
      obtain ⟨p, hp, hsub⟩ := hall (next a) (a :: visited, act s a) (hU a ha)
        (Nat.lt_of_lt_of_le hless (Nat.le_of_lt_succ hfuel))
      exact ⟨p, hp, List.Subset.trans (List.subset_cons_self a visited) hsub⟩

end DepthFirst
