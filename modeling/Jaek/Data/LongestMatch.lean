import Mathlib.Data.List.Basic

/-!
# The longest match

A scanner takes the rule that matches most of the text it stands in front of, the first one if there are
several. `among` makes this choice, from the lengths that the rules match.
-/

namespace LongestMatch

variable {ρ : Type*}

/-- Of two matches the longer one, or the first one. -/
def longer (best : Option (ρ × ℕ)) (rule : ρ) (length : Option ℕ) : Option (ρ × ℕ) :=
  match best, length with
  | best, none => best
  | none, some n => some (rule, n)
  | some (rule', n'), some n => if n' < n then some (rule, n) else some (rule', n')

/-- The rule with the longest match, with its length. -/
def among (length : ρ → Option ℕ) (rules : List ρ) : Option (ρ × ℕ) :=
  rules.foldl (fun best rule => longer best rule (length rule)) none

variable {length : ρ → Option ℕ} {rules : List ρ} {rule : ρ} {n : ℕ}

/-- A match that is kept is the one before or the new one. -/
theorem longer_cases {best : Option (ρ × ℕ)} {k : Option ℕ} {r : ρ}
    (h : longer best r k = some (rule, n)) : best = some (rule, n) ∨ rule = r ∧ k = some n := by
  unfold longer at h
  split at h
  · exact .inl h
  · cases h
    exact .inr ⟨rfl, rfl⟩
  · split_ifs at h
    · cases h
      exact .inr ⟨rfl, rfl⟩
    · exact .inl h

/-- The rule that is taken matches what is said. -/
theorem length_of_among (length : ρ → Option ℕ) {rules : List ρ} {rule : ρ} {n : ℕ}
    (h : among length rules = some (rule, n)) : length rule = some n := by
  have hfold : ∀ (rs : List ρ) (best : Option (ρ × ℕ)),
      rs.foldl (fun best r => longer best r (length r)) best = some (rule, n) →
      best = some (rule, n) ∨ length rule = some n := by
    intro rs
    induction rs with
    | nil => exact fun best h => .inl h
    | cons r rs ih =>
      intro best h
      rcases ih _ h with hbest | hmatch
      · rcases longer_cases hbest with hbest | ⟨rfl, hr⟩
        · exact .inl hbest
        · exact .inr hr
      · exact .inr hmatch
  rcases hfold rules none h with hnone | hmatch
  · cases hnone
  · exact hmatch

theorem longer_lt {best : Option (ρ × ℕ)} {k : Option ℕ} (hbest : ∀ b ∈ best, b.2 < n)
    (hk : ∀ m ∈ k, m < n) : ∀ b ∈ longer best rule k, b.2 < n := by
  rintro ⟨r, m⟩ hb
  rcases longer_cases hb with hbest' | ⟨-, hm⟩
  · exact hbest _ hbest'
  · exact hk m hm

theorem foldl_longer_lt {rs : List ρ} {best : Option (ρ × ℕ)} (hbest : ∀ b ∈ best, b.2 < n)
    (hrs : ∀ r ∈ rs, ∀ k ∈ length r, k < n) :
    ∀ b ∈ rs.foldl (fun best r => longer best r (length r)) best, b.2 < n := by
  induction rs generalizing best with
  | nil => exact hbest
  | cons r rs ih =>
    rw [List.forall_mem_cons] at hrs
    exact ih (longer_lt hbest hrs.1) hrs.2

theorem foldl_longer_of_le {rs : List ρ} (hrs : ∀ r ∈ rs, ∀ k ∈ length r, k ≤ n) :
    rs.foldl (fun best r => longer best r (length r)) (some (rule, n)) = some (rule, n) := by
  induction rs with
  | nil => rfl
  | cons r rs ih =>
    rw [List.forall_mem_cons] at hrs
    rw [List.foldl_cons]
    cases hm : length r with
    | none => exact ih hrs.2
    | some k =>
      have hle : ¬n < k := Nat.not_lt.mpr (hrs.1 k hm)
      rw [longer, if_neg hle]
      exact ih hrs.2

/-- A rule is taken when those before it match less and those behind it not more. -/
theorem among_eq (before after : List ρ) (hsplit : rules = before ++ rule :: after)
    (h : length rule = some n) (hbefore : ∀ r ∈ before, ∀ k ∈ length r, k < n)
    (hafter : ∀ r ∈ after, ∀ k ∈ length r, k ≤ n) : among length rules = some (rule, n) := by
  rw [among, hsplit, List.foldl_append, List.foldl_cons, h]
  have hlt : ∀ b ∈ before.foldl (fun best r => longer best r (length r)) none, b.2 < n :=
    foldl_longer_lt (by simp) hbefore
  cases hbest : before.foldl (fun best r => longer best r (length r)) none with
  | none => exact foldl_longer_of_le hafter
  | some b =>
    rw [longer, if_pos (hlt b hbest)]
    exact foldl_longer_of_le hafter

end LongestMatch
