import Mathlib

/-!
# Labelled transition systems with silent steps

A transition either shows a label or is silent. The behaviour of a state is its set of finite
label sequences (`Lts.traces`). `IsSimulation.run` lifts a step-by-step simulation to whole runs,
and `IsBisimulation.traces_eq` turns a bisimulation into equality of behaviours.
-/

/-- A labelled transition system. The label `none` is a silent step. -/
structure Lts (σ ε : Type*) where
  step : σ → Option ε → σ → Prop

namespace Lts

variable {σ τ ε : Type*}

/-- `A.Run s tr s'`: the system can go from `s` to `s'` showing exactly the labels `tr`. -/
inductive Run (A : Lts σ ε) : σ → List ε → σ → Prop
  | refl (s : σ) : Run A s [] s
  | silent {s s' s'' : σ} {tr : List ε} : A.step s none s' → Run A s' tr s'' → Run A s tr s''
  | event {s s' s'' : σ} {e : ε} {tr : List ε} :
      A.step s (some e) s' → Run A s' tr s'' → Run A s (e :: tr) s''

/-- The finite label sequences the system can show from `s`. -/
def traces (A : Lts σ ε) (s : σ) : Set (List ε) := {tr | ∃ s', A.Run s tr s'}

/-- `s'` is reachable from `s` by some run. -/
def Reachable (A : Lts σ ε) (s s' : σ) : Prop := ∃ tr, A.Run s tr s'

variable {A : Lts σ ε} {B : Lts τ ε}

theorem Run.single {s s' : σ} {a : Option ε} (h : A.step s a s') : A.Run s a.toList s' := by
  cases a with
  | none => exact .silent h (.refl _)
  | some e => exact .event h (.refl _)

theorem Run.trans {s s' s'' : σ} {tr tr' : List ε} (h : A.Run s tr s') (h' : A.Run s' tr' s'') :
    A.Run s (tr ++ tr') s'' := by
  induction h with
  | refl => exact h'
  | silent hs _ ih => exact .silent hs (ih h')
  | event hs _ ih => exact .event hs (ih h')

theorem Reachable.refl (s : σ) : A.Reachable s s := ⟨[], .refl s⟩

theorem Reachable.trans {s s' s'' : σ} (h : A.Reachable s s') (h' : A.Reachable s' s'') :
    A.Reachable s s'' := by
  obtain ⟨tr, h⟩ := h
  obtain ⟨tr', h'⟩ := h'
  exact ⟨tr ++ tr', h.trans h'⟩

theorem Reachable.snoc {s s' s'' : σ} {a : Option ε} (h : A.Reachable s s')
    (hs : A.step s' a s'') : A.Reachable s s'' :=
  h.trans ⟨_, .single hs⟩

/-- What holds of a state and is kept by every step holds of every state reached from it. -/
theorem Run.invariant {I : σ → Prop} (hstep : ∀ s a s', I s → A.step s a s' → I s')
    {s s' : σ} {tr : List ε} (h : A.Run s tr s') (hs : I s) : I s' := by
  induction h with
  | refl => exact hs
  | silent h _ ih => exact ih (hstep _ _ _ hs h)
  | event h _ ih => exact ih (hstep _ _ _ hs h)

/-- `R` is a weak simulation: every step of `A` is matched by a run of `B` with its label. -/
def IsSimulation (A : Lts σ ε) (B : Lts τ ε) (R : σ → τ → Prop) : Prop :=
  ∀ s t a s', R s t → A.step s a s' → ∃ t', B.Run t a.toList t' ∧ R s' t'

/-- A simulation in both directions. -/
def IsBisimulation (A : Lts σ ε) (B : Lts τ ε) (R : σ → τ → Prop) : Prop :=
  IsSimulation A B R ∧ IsSimulation B A (fun t s => R s t)

/-- A simulation matches whole runs. -/
theorem IsSimulation.run {R : σ → τ → Prop} (h : IsSimulation A B R) {s s' : σ} {t : τ}
    {tr : List ε} (hrun : A.Run s tr s') (hR : R s t) : ∃ t', B.Run t tr t' ∧ R s' t' := by
  induction hrun generalizing t with
  | refl => exact ⟨t, .refl t, hR⟩
  | silent hs _ ih =>
    obtain ⟨t₁, hrun₁, hR₁⟩ := h _ _ _ _ hR hs
    obtain ⟨t₂, hrun₂, hR₂⟩ := ih hR₁
    exact ⟨t₂, hrun₁.trans hrun₂, hR₂⟩
  | event hs _ ih =>
    obtain ⟨t₁, hrun₁, hR₁⟩ := h _ _ _ _ hR hs
    obtain ⟨t₂, hrun₂, hR₂⟩ := ih hR₁
    exact ⟨t₂, hrun₁.trans hrun₂, hR₂⟩

theorem IsSimulation.traces_subset {R : σ → τ → Prop} (h : IsSimulation A B R) {s : σ} {t : τ}
    (hR : R s t) : A.traces s ⊆ B.traces t := by
  rintro tr ⟨s', hrun⟩
  obtain ⟨t', hrun', -⟩ := h.run hrun hR
  exact ⟨t', hrun'⟩

/-- Bisimilar states have the same behaviour. -/
theorem IsBisimulation.traces_eq {R : σ → τ → Prop} (h : IsBisimulation A B R) {s : σ} {t : τ}
    (hR : R s t) : A.traces s = B.traces t :=
  Set.Subset.antisymm (h.1.traces_subset hR) (h.2.traces_subset hR)

/-! ## Hidden labels -/

/-- The system with the labels outside `p` silent. -/
def hide (A : Lts σ ε) (p : ε → Bool) : Lts σ ε :=
  ⟨fun s a s' => ∃ a', A.step s a' s' ∧ a = a'.filter p⟩

theorem hide_step {p : ε → Bool} {s s' : σ} {a : Option ε} (h : A.step s a s') :
    (A.hide p).step s (a.filter p) s' := ⟨a, h, rfl⟩

/-- If every step of `B` is matched by a run of `A` that keeps `R`, or `A` is stuck, then so is every run. -/
theorem run_or_stuck {R : σ → τ → Prop} {T : σ → Prop}
    (h : ∀ s t a t', R s t → B.step t a t' → (∃ s', A.Run s a.toList s' ∧ R s' t') ∨ T s) {s : σ} {t t' : τ}
    {tr : List ε} (hrun : B.Run t tr t') (hR : R s t) :
    (∃ s', A.Run s tr s' ∧ R s' t') ∨ ∃ tr₀ s', tr₀ <+: tr ∧ A.Run s tr₀ s' ∧ T s' := by
  induction hrun generalizing s with
  | refl => exact .inl ⟨s, .refl s, hR⟩
  | silent hstep _ ih =>
    rcases h _ _ _ _ hR hstep with ⟨s₁, hrun₁, hR₁⟩ | hstuck
    · rcases ih hR₁ with ⟨s₂, hrun₂, hR₂⟩ | ⟨tr₀, s₂, hpre, hrun₂, hstuck⟩
      · exact .inl ⟨s₂, hrun₁.trans hrun₂, hR₂⟩
      · exact .inr ⟨tr₀, s₂, hpre, hrun₁.trans hrun₂, hstuck⟩
    · exact .inr ⟨[], s, List.nil_prefix, .refl s, hstuck⟩
  | event hstep _ ih =>
    rcases h _ _ _ _ hR hstep with ⟨s₁, hrun₁, hR₁⟩ | hstuck
    · rcases ih hR₁ with ⟨s₂, hrun₂, hR₂⟩ | ⟨tr₀, s₂, hpre, hrun₂, hstuck⟩
      · exact .inl ⟨s₂, hrun₁.trans hrun₂, hR₂⟩
      · exact .inr ⟨_ :: tr₀, s₂, List.cons_prefix_cons.mpr ⟨rfl, hpre⟩, hrun₁.trans hrun₂, hstuck⟩
    · exact .inr ⟨[], s, List.nil_prefix, .refl s, hstuck⟩

end Lts

/-- A relation along which a number falls, as long as an invariant holds, has no infinite run. -/
theorem no_infinite_run {σ : Type*} {step : σ → σ → Prop} {I : σ → Prop} (measure : σ → ℕ)
    (hstep : ∀ s s', I s → step s s' → I s' ∧ measure s' < measure s) {s : σ} (hs : I s) :
    ¬ ∃ run : ℕ → σ, run 0 = s ∧ ∀ i, step (run i) (run (i + 1)) := by
  intro ⟨run, hstart, hrun⟩
  have hinv : ∀ i, I (run i) := by
    intro i
    induction i with
    | zero => rwa [hstart]
    | succ i ih => exact (hstep _ _ ih (hrun i)).1
  have hanti : StrictAnti (measure ∘ run) :=
    strictAnti_nat_of_succ_lt fun i => (hstep _ _ (hinv i) (hrun i)).2
  exact not_strictAnti_of_wellFoundedLT _ hanti
