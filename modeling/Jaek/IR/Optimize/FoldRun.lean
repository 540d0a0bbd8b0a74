import Jaek.Assembly.TileCorrect
import Jaek.IR.Optimize.FoldUnit

/-!
# Folding against running

`ConstantFolder` computes an operator at compile time, the instructions behind an operator's tile at
run time. `agrees_iff` compares them for each operator on all pairs of words. They differ where
`IDIV` faults: the quotient of the least word by minus one is folded although it does not fit, and
a remainder by zero throws.
-/

namespace Jaek

namespace ConstantFolder

/-- The operands on which `IDIV` does not fit its quotient. -/
def Overflows (o : OpType) (n1 n2 : Word) : Prop :=
  (o = .DIV ∨ o = .MOD) ∧ n1 = BitVec.intMin 64 ∧ n2 = -1

/-- In every state with the operands in its registers, the instructions of the operator's tile leave
`v` in the output register. -/
def RunsTo (o : OpType) (n1 n2 v : Word) : Prop :=
  ∀ (L : String → Word) (k : ℕ) (x y : String) (s : State), x ≠ freshName (k + 1) →
    y ≠ freshName (k + 1) → s.abs x = n1 → s.abs y = n2 →
    ∃ s', run L (LIROp.operation o (.abstract x) (.abstract y) (k + 1)).2 s = some (.next s') ∧
      s'.value (freshRegister (k + 1)) = v

/-- In every state with the operands in its registers, the instructions of the operator's tile
fault. -/
def Faults (o : OpType) (n1 n2 : Word) : Prop :=
  ∀ (L : String → Word) (k : ℕ) (x y : String) (s : State), s.abs x = n1 → s.abs y = n2 →
    run L (LIROp.operation o (.abstract x) (.abstract y) (k + 1)).2 s = none

/-- What is folded is `calculate`'s value and the value at run time; where the instructions fault,
the folder leaves the operator as it is. -/
structure Agrees (o : OpType) (n1 n2 : Word) : Prop where
  folded : ∀ v, applyExpr (.op o (.const n1) (.const n2)) = some (.const v) →
    v = calculate n1 n2 o ∧ RunsTo o n1 n2 v
  left : Faults o n1 n2 →
    applyExpr (.op o (.const n1) (.const n2)) = some (.op o (.const n1) (.const n2))

variable {o : OpType} {n1 n2 v : Word}

/-- Folding an operator on two constants, spelled out. -/
theorem applyExpr_consts : applyExpr (.op o (.const n1) (.const n2)) =
    if o = .DIV ∧ n2 = 0 then some (.op o (.const n1) (.const n2))
    else (calculateOrThrow n1 n2 o).map .const := by
  rw [applyExpr_op_const rfl rfl, calculateOrThrow_eq]

/-- A folded operator has `calculate`'s value and a divisor other than zero. -/
theorem calculate_of_folded
    (h : applyExpr (.op o (.const n1) (.const n2)) = some (.const v)) :
    v = calculate n1 n2 o ∧ ¬((o = .DIV ∨ o = .MOD) ∧ n2 = 0) := by
  rw [applyExpr_consts] at h
  split_ifs at h with hdiv
  · simp at h
  · by_cases hzero : (o = .DIV ∨ o = .MOD) ∧ n2 = 0
    · obtain ⟨rfl | rfl, rfl⟩ := hzero
      · exact (hdiv ⟨rfl, rfl⟩).elim
      · simp [calculateOrThrow] at h
    · rw [calculateOrThrow_some hzero] at h
      exact ⟨by simpa [eq_comm] using h, hzero⟩

/-- Where `IDIV` does not fault, the instructions compute the folded value. -/
theorem runsTo_calculate (hzero : ¬((o = .DIV ∨ o = .MOD) ∧ n2 = 0))
    (hover : ¬Overflows o n1 n2) : RunsTo o n1 n2 (calculate n1 n2 o) := by
  rintro L k x y s hx hy rfl rfl
  have heval : o.eval (s.abs x) (s.abs y) = some (calculate (s.abs x) (s.abs y) o) := by
    rw [← calculateOrThrow_eq, calculateOrThrow_some hzero]
  obtain ⟨s', hrun, hval, -⟩ := run_operation L hx hy heval fun ho =>
    ⟨fun h0 => hzero ⟨ho, h0⟩, fun h => hover ⟨ho, h⟩⟩
  exact ⟨s', hrun, hval⟩

/-- A division whose `IDIV` faults has no outcome. -/
theorem run_divide_fault (L : String → Word) {result : x86Name} {x y : String} {s : State}
    {out : Register}
    (h : idiv (if (s.abs x).msb then -1 else 0) (s.abs x) (s.abs y) = none) :
    run L (LIROp.divide result (.abstract x) (.abstract y) out) s = none := by
  let s₁ := s.set (.x86 .RAX) (s.abs x)
  have hmov : exec L (.MOV (.registerDest (.x86 .RAX)) (.registerSrc (.abstract x))) s =
      some s₁ := rfl
  let s₂ := s₁.set (.x86 .RDX) (if (s.abs x).msb then -1 else 0)
  have hcqo : exec L .CQO s₁ = some s₂ := rfl
  have hidiv : exec L (.DIV (.abstract y)) s₂ = none := by
    have harg : idiv (s₂.phys .RDX) (s₂.phys .RAX) (s₂.value (.abstract y)) = none := h
    rw [exec, harg]
    rfl
  rw [LIROp.divide, run_cons hmov, run_cons hcqo, run, hidiv, Option.bind_none]
  simp

theorem faults_of_idiv (ho : o = .DIV ∨ o = .MOD)
    (h : idiv (if n1.msb then -1 else 0) n1 n2 = none) : Faults o n1 n2 := by
  rintro L k x y s rfl rfl
  obtain rfl | rfl := ho
  · exact run_divide_fault L h
  · exact run_divide_fault L h

theorem faults_zero (ho : o = .DIV ∨ o = .MOD) : Faults o n1 0 :=
  faults_of_idiv ho (by rw [idiv, if_pos rfl])

theorem faults_of_overflows (h : Overflows o n1 n2) : Faults o n1 n2 := by
  obtain ⟨ho, rfl, rfl⟩ := h
  exact faults_of_idiv ho (by decide)

theorem RunsTo.not_faults (h : RunsTo o n1 n2 v) : ¬Faults o n1 n2 := by
  intro hfault
  let s : State := ⟨fun x => if x = "x" then n1 else n2, fun _ => 0, ⟨false, false, false, false⟩,
    fun _ => 0⟩
  obtain ⟨s', hrun, -⟩ := h (fun _ => 0) 0 "x" "y" s (by decide) (by decide) rfl rfl
  rw [hfault (fun _ => 0) 0 "x" "y" s rfl rfl] at hrun
  cases hrun

/-- Compile time and run time agree except on the quotient that does not fit, and on the remainder
by zero. -/
theorem agrees_iff (o : OpType) (n1 n2 : Word) :
    Agrees o n1 n2 ↔ ¬Overflows o n1 n2 ∧ ¬(o = .MOD ∧ n2 = 0) := by
  constructor
  · intro h
    constructor
    · intro hover
      have hfault := faults_of_overflows hover
      have hleft := h.left hfault
      obtain ⟨ho, rfl, rfl⟩ := hover
      have hne : (-1 : Word) ≠ 0 := by decide
      rw [applyExpr_consts, if_neg fun h => hne h.2,
        calculateOrThrow_some fun h => hne h.2] at hleft
      simp at hleft
    · rintro ⟨rfl, rfl⟩
      have hleft := h.left (faults_zero (.inr rfl))
      simp [applyExpr_consts, calculateOrThrow] at hleft
  · rintro ⟨hover, hmod⟩
    refine ⟨fun v hv => ?_, fun hfault => ?_⟩
    · obtain ⟨rfl, hzero⟩ := calculate_of_folded hv
      exact ⟨rfl, runsTo_calculate hzero hover⟩
    · by_cases hzero : (o = .DIV ∨ o = .MOD) ∧ n2 = 0
      · obtain ⟨rfl | rfl, rfl⟩ := hzero
        · rw [applyExpr_consts, if_pos ⟨rfl, rfl⟩]
        · exact (hmod ⟨rfl, rfl⟩).elim
      · exact ((runsTo_calculate hzero hover).not_faults hfault).elim

theorem not_agrees_intMin : ¬Agrees .DIV (BitVec.intMin 64) (-1) := fun h => by
  have hleft := h.left (faults_of_overflows ⟨.inl rfl, rfl, rfl⟩)
  have hfold : applyExpr (.op .DIV (.const (BitVec.intMin 64)) (.const (-1))) =
      some (.const (BitVec.intMin 64)) := by decide
  rw [hfold] at hleft
  cases hleft

end ConstantFolder

end Jaek
