import Mathlib

/-!
# Runs that end without an error

Inversion rules for computations in `Except`, and the rule for a loop that carries a state.
-/

namespace Except

universe u

variable {ε : Type*} {α β σ : Type u}

theorem bind_eq_ok {x : Except ε α} {f : α → Except ε β} {b : β} :
    (x >>= f) = .ok b ↔ ∃ a, x = .ok a ∧ f a = .ok b := by
  cases x with
  | error e =>
    constructor
    · intro h
      cases h
    · rintro ⟨a, h, -⟩
      cases h
  | ok a =>
    constructor
    · intro h
      exact ⟨a, rfl, h⟩
    · rintro ⟨a', h, hf⟩
      cases h
      exact hf

theorem forM_eq_ok {f : α → Except ε PUnit} {xs : List α} :
    xs.forM f = .ok ⟨⟩ ↔ ∀ x ∈ xs, f x = .ok ⟨⟩ := by
  induction xs with
  | nil =>
    constructor
    · intro _ x hx
      cases hx
    · intro _
      rfl
  | cons x xs ih =>
    rw [List.forM, bind_eq_ok, List.forall_mem_cons, ← ih]
    constructor
    · rintro ⟨⟨⟩, hx, hxs⟩
      exact ⟨hx, hxs⟩
    · rintro ⟨hx, hxs⟩
      exact ⟨⟨⟩, hx, hxs⟩

/-- What every step of a loop keeps holds at its end. The property may speak of the items done. -/
theorem foldlM_ok (done : List α) {f : σ → α → Except ε σ} {I : List α → σ → Prop} {xs : List α}
    {s s' : σ} (hstep : ∀ done x s s', I done s → f s x = .ok s' → I (done ++ [x]) s')
    (h : xs.foldlM f s = .ok s') (hI : I done s) : I (done ++ xs) s' := by
  induction xs generalizing s done with
  | nil =>
    cases h
    simpa using hI
  | cons x xs ih =>
    rw [List.foldlM_cons, bind_eq_ok] at h
    obtain ⟨s₁, hx, hxs⟩ := h
    have hrest := ih (done ++ [x]) hxs (hstep done x s s₁ hI hx)
    simpa using hrest

end Except
