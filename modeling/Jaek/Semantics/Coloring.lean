import Mathlib

/-!
# Greedy colouring

The vertices of a list take turns. A vertex gets a colour of a palette that none of its neighbours
has, and stays as it is only when its neighbours have them all. Whatever the order of the list, no two
neighbours get one colour (`GreedyRun.proper`).
-/

namespace Jaek

variable {V C : Type*}

/-- No two neighbours have one colour. A vertex may have none. -/
def Proper (G : SimpleGraph V) (color : V → Option C) : Prop :=
  ∀ u v c, G.Adj u v → color u = some c → color v ≠ some c

variable [DecidableEq V] {G : SimpleGraph V} {palette : List C} {color color' : V → Option C}

theorem Proper.update (h : Proper G color) {u : V} {c : C} (hfree : ∀ v, G.Adj u v → color v ≠ some c) :
    Proper G (Function.update color u (some c)) := by
  intro a b k hadj ha hb
  by_cases hau : a = u
  · subst hau
    rw [Function.update_self, Option.some.injEq] at ha
    rw [Function.update_of_ne hadj.ne'] at hb
    exact hfree b hadj (by rw [hb, ha])
  · rw [Function.update_of_ne hau] at ha
    by_cases hbu : b = u
    · subst hbu
      rw [Function.update_self, Option.some.injEq] at hb
      exact hfree a hadj.symm (by rw [ha, hb])
    · rw [Function.update_of_ne hbu] at hb
      exact h a b k hadj ha hb

/-- The turn of a vertex. -/
inductive GreedyStep (G : SimpleGraph V) (palette : List C) (u : V) (color : V → Option C) :
    (V → Option C) → Prop
  | color {c : C} : c ∈ palette → (∀ v, G.Adj u v → color v ≠ some c) →
      GreedyStep G palette u color (Function.update color u (some c))
  | spill : (∀ c ∈ palette, ∃ v, G.Adj u v ∧ color v = some c) → GreedyStep G palette u color color

/-- The turns of the vertices of a list. -/
inductive GreedyRun (G : SimpleGraph V) (palette : List C) :
    List V → (V → Option C) → (V → Option C) → Prop
  | nil (color : V → Option C) : GreedyRun G palette [] color color
  | cons {u : V} {us : List V} {color color' color'' : V → Option C} :
      GreedyStep G palette u color color' → GreedyRun G palette us color' color'' →
      GreedyRun G palette (u :: us) color color''

theorem GreedyStep.proper {u : V} (h : GreedyStep G palette u color color') (hproper : Proper G color) :
    Proper G color' := by
  cases h with
  | color _ hfree => exact hproper.update hfree
  | spill _ => exact hproper

theorem GreedyStep.of_ne {u v : V} (h : GreedyStep G palette u color color') (hv : v ≠ u) :
    color' v = color v := by
  cases h with
  | color _ _ => exact Function.update_of_ne hv _ _
  | spill _ => rfl

/-- A colour is one of the palette or was there before. -/
theorem GreedyStep.mem_palette {u v : V} {c : C} (h : GreedyStep G palette u color color')
    (hc : color' v = some c) : c ∈ palette ∨ color v = some c := by
  cases h with
  | color hmem _ =>
    by_cases hv : v = u
    · rw [hv, Function.update_self, Option.some.injEq] at hc
      rw [← hc]
      exact .inl hmem
    · rw [Function.update_of_ne hv] at hc
      exact .inr hc
  | spill _ => exact .inr hc

/-- The run keeps a colouring proper. -/
theorem GreedyRun.proper {us : List V} (h : GreedyRun G palette us color color')
    (hproper : Proper G color) : Proper G color' := by
  induction h with
  | nil => exact hproper
  | cons hs _ ih => exact ih (hs.proper hproper)

theorem GreedyRun.of_not_mem {us : List V} {v : V} (h : GreedyRun G palette us color color')
    (hv : v ∉ us) : color' v = color v := by
  induction h with
  | nil => rfl
  | cons hs _ ih =>
    rw [List.mem_cons, not_or] at hv
    rw [ih hv.2, hs.of_ne hv.1]

theorem GreedyRun.mem_palette {us : List V} {v : V} {c : C} (h : GreedyRun G palette us color color')
    (hc : color' v = some c) : c ∈ palette ∨ color v = some c := by
  induction h with
  | nil => exact .inr hc
  | cons hs _ ih =>
    rcases ih hc with hmem | hbefore
    · exact .inl hmem
    · exact hs.mem_palette hbefore

end Jaek
