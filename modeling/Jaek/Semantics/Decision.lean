import Mathlib

/-!
# Tests

A test runs from a state, leaves a trace and answers yes or no; it may also trap, and its runs may be cut off.
`and`, `or` and `not` answer in short circuit: what the first test decides, the second is not asked.

Two tests agree in two states if each run of one has a run of the other with the same trace and the same
answer, where a run that is cut off need only be the beginning of one. Agreement is kept by `and`, `or` and
`not`.
-/

namespace Decision

/-- What a test comes to. -/
inductive Answer (σ : Type*)
  | yes (s : σ)
  | no (s : σ)
  | trap
  | cut

/-- The runs of a test: from a state, with a trace, to an answer. -/
abbrev Test (σ τ : Type*) := σ → List τ → Answer σ → Prop

variable {σ τ : Type*} {T T' U U' : Test σ τ} {R : σ → σ → Prop} {s s' s₁ s₁' : σ} {tr : List τ}
  {a a' : Answer σ}

/-! ## Short circuit -/

/-- The other answer. -/
def Answer.not : Answer σ → Answer σ
  | .yes s => .no s
  | .no s => .yes s
  | .trap => .trap
  | .cut => .cut

/-- Negating twice changes nothing. -/
@[simp] theorem Answer.not_not (a : Answer σ) : a.not.not = a := by cases a <;> rfl

/-- The test with the other answers. -/
def Test.not (T : Test σ τ) : Test σ τ := fun s tr a => T s tr a.not

/-- The second test is run where the first one says yes. -/
inductive Test.and (T U : Test σ τ) : Test σ τ
  | no {s s₁ : σ} {tr : List τ} : T s tr (.no s₁) → Test.and T U s tr (.no s₁)
  | trap {s : σ} {tr : List τ} : T s tr .trap → Test.and T U s tr .trap
  | cut {s : σ} {tr : List τ} : T s tr .cut → Test.and T U s tr .cut
  | yes {s s₁ : σ} {tr tr' : List τ} {a : Answer σ} : T s tr (.yes s₁) → U s₁ tr' a →
      Test.and T U s (tr ++ tr') a

/-- The second test is run where the first one says no. -/
def Test.or (T U : Test σ τ) : Test σ τ := (T.not.and U.not).not

/-- Runs of the test may be cut off before the first step. -/
def Test.Cuts (T : Test σ τ) : Prop := ∀ s, T s [] .cut

/-- A negated test can be cut off where the test can. -/
theorem Test.Cuts.not (h : T.Cuts) : T.not.Cuts := h

/-- Two tests in a row can be cut off in the first. -/
theorem Test.Cuts.and (h : T.Cuts) (U : Test σ τ) : (T.and U).Cuts := fun s => .cut (h s)

/-- So can two of which one has to say yes. -/
theorem Test.Cuts.or (h : T.Cuts) (U : Test σ τ) : (T.or U).Cuts := h.not.and U.not

/-! ## Agreement -/

/-- The same answer, with related states. -/
inductive Answer.Rel (R : σ → σ → Prop) : Answer σ → Answer σ → Prop
  | yes {s s' : σ} : R s s' → Rel R (.yes s) (.yes s')
  | no {s s' : σ} : R s s' → Rel R (.no s) (.no s')
  | trap : Rel R .trap .trap
  | cut : Rel R .cut .cut

/-- Negated answers are related as the answers are. -/
theorem Answer.Rel.not (h : a.Rel R a') : a.not.Rel R a'.not := by
  cases h with
  | yes h => exact .no h
  | no h => exact .yes h
  | trap => exact .trap
  | cut => exact .cut

/-- An answer is related to itself. -/
theorem Answer.Rel.refl (hR : ∀ s, R s s) (a : Answer σ) : a.Rel R a := by
  cases a with
  | yes s => exact .yes (hR s)
  | no s => exact .no (hR s)
  | trap => exact .trap
  | cut => exact .cut

/-- Related answers are related both ways. -/
theorem Answer.Rel.symm (hR : ∀ {s s'}, R s s' → R s' s) (h : a.Rel R a') : a'.Rel R a := by
  cases h with
  | yes h => exact .yes (hR h)
  | no h => exact .no (hR h)
  | trap => exact .trap
  | cut => exact .cut

/-- Relations of answers compose. -/
theorem Answer.Rel.trans {a'' : Answer σ} (hR : ∀ {s s' s''}, R s s' → R s' s'' → R s s'')
    (h : a.Rel R a') (h' : a'.Rel R a'') : a.Rel R a'' := by
  cases h with
  | yes h => cases h' with | yes h' => exact .yes (hR h h')
  | no h => cases h' with | no h' => exact .no (hR h h')
  | trap => exact h'
  | cut => exact h'

/-- Each run of one test from its state is answered by a run of the other from the other state. -/
structure Agree (R : σ → σ → Prop) (T U : Test σ τ) (s s' : σ) : Prop where
  forth : ∀ {tr : List τ} {a : Answer σ}, T s tr a → ∃ a', U s' tr a' ∧ (a = .cut ∨ a.Rel R a')
  back : ∀ {tr : List τ} {a' : Answer σ}, U s' tr a' → ∃ a, T s tr a ∧ (a' = .cut ∨ a.Rel R a')

/-- The opposite tests agree too. -/
theorem Agree.not (h : Agree R T U s s') : Agree R T.not U.not s s' where
  forth {tr a} hrun := by
    obtain ⟨a', hrun', hcut | hrel⟩ := h.forth hrun
    · exact ⟨a'.not, by rwa [Test.not, Answer.not_not], .inl (by rw [← a.not_not, hcut]; rfl)⟩
    · exact ⟨a'.not, by rwa [Test.not, Answer.not_not], .inr (by simpa using hrel.not)⟩
  back {tr a'} hrun := by
    obtain ⟨a, hrun', hcut | hrel⟩ := h.back hrun
    · exact ⟨a.not, by rwa [Test.not, Answer.not_not], .inl (by rw [← a'.not_not, hcut]; rfl)⟩
    · exact ⟨a.not, by rwa [Test.not, Answer.not_not], .inr (by simpa using hrel.not)⟩

/-- A third test that agrees with the second agrees with the first. -/
theorem Agree.trans {V : Test σ τ} {s'' : σ} (hR : ∀ {s s' s''}, R s s' → R s' s'' → R s s'')
    (h : Agree R T U s s') (h' : Agree R U V s' s'') : Agree R T V s s'' where
  forth {tr a} hrun := by
    obtain ⟨a', hU, hcut | hrel⟩ := h.forth hrun
    · obtain ⟨a'', hV, -⟩ := h'.forth hU
      exact ⟨a'', hV, .inl hcut⟩
    · obtain ⟨a'', hV, rfl | hrel'⟩ := h'.forth hU
      · cases hrel
        exact ⟨a'', hV, .inl rfl⟩
      · exact ⟨a'', hV, .inr (hrel.trans hR hrel')⟩
  back {tr a''} hrun := by
    obtain ⟨a', hU, hcut | hrel'⟩ := h'.back hrun
    · obtain ⟨a, hT, -⟩ := h.back hU
      exact ⟨a, hT, .inl hcut⟩
    · obtain ⟨a, hT, rfl | hrel⟩ := h.back hU
      · cases hrel'
        exact ⟨a, hT, .inl rfl⟩
      · exact ⟨a, hT, .inr (hrel.trans hR hrel')⟩

/-- A run of the first test is a run of both as far as it goes. -/
theorem Test.and_of_left (hU : U.Cuts) (h : T s tr a) : ∃ a', (T.and U) s tr a' := by
  cases a with
  | yes s₁ =>
    have hboth := Test.and.yes h (hU s₁)
    rw [List.append_nil] at hboth
    exact ⟨_, hboth⟩
  | no s₁ => exact ⟨_, .no h⟩
  | trap => exact ⟨_, .trap h⟩
  | cut => exact ⟨_, .cut h⟩

/-- Both tests agree if the first ones do, and the second ones do where the first ones say yes. -/
theorem Agree.and (hcuts : T'.Cuts) (hcuts' : U'.Cuts) (h : Agree R T U s s')
    (h' : ∀ tr s₁ s₁', T s tr (.yes s₁) → U s' tr (.yes s₁') → R s₁ s₁' → Agree R T' U' s₁ s₁') :
    Agree R (T.and T') (U.and U') s s' where
  forth {tr a} hrun := by
    -- what the first test decides, the first of the others decides as well
    cases hrun with
    | no hT =>
      obtain ⟨a', hU, hcut | hrel⟩ := h.forth hT
      · cases hcut
      · cases hrel with
        | no hR => exact ⟨_, .no hU, .inr (.no hR)⟩
    | trap hT =>
      obtain ⟨a', hU, hcut | hrel⟩ := h.forth hT
      · cases hcut
      · cases hrel
        exact ⟨_, .trap hU, .inr .trap⟩
    | cut hT =>
      obtain ⟨a', hU, -⟩ := h.forth hT
      obtain ⟨a', hU⟩ := Test.and_of_left hcuts' hU
      exact ⟨a', hU, .inl rfl⟩
    | yes hT hT' =>
      obtain ⟨a', hU, hcut | hrel⟩ := h.forth hT
      · cases hcut
      · cases hrel with
        | yes hR =>
          obtain ⟨a', hU', hrel⟩ := (h' _ _ _ hT hU hR).forth hT'
          exact ⟨a', .yes hU hU', hrel⟩
  back {tr a'} hrun := by
    cases hrun with
    | no hU =>
      obtain ⟨a, hT, hcut | hrel⟩ := h.back hU
      · cases hcut
      · cases hrel with
        | no hR => exact ⟨_, .no hT, .inr (.no hR)⟩
    | trap hU =>
      obtain ⟨a, hT, hcut | hrel⟩ := h.back hU
      · cases hcut
      · cases hrel
        exact ⟨_, .trap hT, .inr .trap⟩
    | cut hU =>
      obtain ⟨a, hT, -⟩ := h.back hU
      obtain ⟨a, hT⟩ := Test.and_of_left hcuts hT
      exact ⟨a, hT, .inl rfl⟩
    | yes hU hU' =>
      obtain ⟨a, hT, hcut | hrel⟩ := h.back hU
      · cases hcut
      · cases hrel with
        | yes hR =>
          obtain ⟨a, hT', hrel⟩ := (h' _ _ _ hT hU hR).back hU'
          exact ⟨a, .yes hT hT', hrel⟩

/-- Either test agrees if the first ones do, and the second ones do where the first ones say no. -/
theorem Agree.or (hcuts : T'.Cuts) (hcuts' : U'.Cuts) (h : Agree R T U s s')
    (h' : ∀ tr s₁ s₁', T s tr (.no s₁) → U s' tr (.no s₁') → R s₁ s₁' → Agree R T' U' s₁ s₁') :
    Agree R (T.or T') (U.or U') s s' :=
  (h.not.and hcuts.not hcuts'.not fun tr s₁ s₁' hT hU hR => (h' tr s₁ s₁' hT hU hR).not).not

end Decision
