import Jaek.Data.OptionList
import Jaek.IR.Optimize.ConstantFolder
import Jaek.Lowered.LIR

/-!
# Constant folding of a compilation unit

`ConstantFolder.apply` with the traversal it inherits from `ir.optimize.IROptimizer`. Every function
here returns `none` where the source throws: Kotlin's `/` and `%` throw on a zero divisor, and
`highMul` ends in `longValueExact`. `applyOp` keeps a division by zero away from `calculate`, but
not a remainder.

`apply_iff` says what follows: the folder returns, and what it returns means what it was given,
exactly when no remainder of the unit has a dividend that folds to a constant and a divisor that
folds to zero.
-/

namespace Jaek

/-- A word array in the data section. -/
structure IRData where
  name : String
  data : List Word
deriving DecidableEq, Repr

/-- A function, with its lowered body. -/
structure LIRFuncDecl where
  name : String
  body : List FlatStmt
deriving DecidableEq, Repr

/-- A compilation unit. Its data are passed on as they are. -/
structure LIRCompUnit where
  name : String
  functions : List LIRFuncDecl
  globals : List IRData
deriving DecidableEq, Repr

namespace ConstantFolder

/-- `BigInteger.longValueExact`, which throws on a number of more than 64 bits. -/
def longValueExact (n : ℤ) : Option Word :=
  if -2 ^ 63 ≤ n ∧ n < 2 ^ 63 then some (BitVec.ofInt 64 n) else none

/-- A call of `calculate`, or the `ArithmeticException` of `/`, `%` and `highMul`. -/
def calculateOrThrow (n1 n2 : Word) (op : OpType) : Option Word :=
  match op with
  | .HMUL => longValueExact ((n1.toInt * n2.toInt) >>> (64 : ℕ))
  | .DIV | .MOD => if n2 = 0 then none else some (calculate n1 n2 op)
  | _ => some (calculate n1 n2 op)

/-- `applyExpr` with `applyOp` and `applyMem` inlined. Where `applyOp` calls `super.applyOp`, the
operands are folded a second time, with the same result. -/
def applyExpr : LIRExpr → Option LIRExpr
  | .const value => some (.const value)
  | .name l => some (.name l)
  | .temp x => some (.temp x)
  | .mem address => do return .mem (← applyExpr address)
  | .op o l r => do
      let left ← applyExpr l
      let right ← applyExpr r
      match left, right with
      | .const n1, .const n2 =>
          if o = .DIV ∧ n2 = 0 then return .op o left right
          else return .const (← calculateOrThrow n1 n2 o)
      | _, _ => return .op o left right

/-- Folding the expressions of a jump or a return. -/
def applyEndBlock : EndBlock → Option EndBlock
  | .jump address => some (.jump address)
  | .cjump guard t f => do return .cjump (← applyExpr guard) t f
  | .trueJump guard t => do return .trueJump (← applyExpr guard) t
  | .ret valList => do return .ret (← valList.mapM applyExpr)

/-- Folding the expressions of a statement. -/
def applyFlatStmt : FlatStmt → Option FlatStmt
  | .endBlock e => do return .endBlock (← applyEndBlock e)
  | .callStmt target n_returns args => do return .callStmt target n_returns (← args.mapM applyExpr)
  | .label l => some (.label l)
  | .move dest expr => do return .move (← applyExpr dest) (← applyExpr expr)

/-- Folding a body. -/
def applySeq (block : List FlatStmt) : Option (List FlatStmt) := block.mapM applyFlatStmt

/-- Folding a function. -/
def applyFuncDecl (node : LIRFuncDecl) : Option LIRFuncDecl := do
  return ⟨node.name, ← applySeq node.body⟩

/-- `apply`: folding every function of the unit. -/
def apply (node : LIRCompUnit) : Option LIRCompUnit := do
  return ⟨node.name, ← node.functions.mapM applyFuncDecl, node.globals⟩

end ConstantFolder

/-! ## Equal meaning -/

universe u

/-- The same value or the same trap in every state. -/
def LIRExpr.Same (e e' : LIRExpr) : Prop :=
  ∀ (M : Type u) (S : Storage M) (s : Store M), e'.eval S s = e.eval S s

/-- Jumps and returns that differ by equal expressions only. -/
inductive EndBlock.Same : EndBlock → EndBlock → Prop
  | jump (l : String) : Same (.jump l) (.jump l)
  | cjump {g g' : LIRExpr} (t : String) (f : Option String) :
      LIRExpr.Same.{u} g g' → Same (.cjump g t f) (.cjump g' t f)
  | trueJump {g g' : LIRExpr} (t : String) :
      LIRExpr.Same.{u} g g' → Same (.trueJump g t) (.trueJump g' t)
  | ret {vals vals' : List LIRExpr} :
      List.Forall₂ LIRExpr.Same.{u} vals vals' → Same (.ret vals) (.ret vals')

/-- The same place to write to. -/
inductive SameDest : LIRExpr → LIRExpr → Prop
  | temp (x : String) : SameDest (.temp x) (.temp x)
  | mem {a a' : LIRExpr} : LIRExpr.Same.{u} a a' → SameDest (.mem a) (.mem a')
  | value {e e' : LIRExpr} : (∀ x, e ≠ .temp x) → (∀ a, e ≠ .mem a) → (∀ x, e' ≠ .temp x) →
      (∀ a, e' ≠ .mem a) → LIRExpr.Same.{u} e e' → SameDest e e'

/-- Statements that differ by equal expressions only. -/
inductive FlatStmt.Same : FlatStmt → FlatStmt → Prop
  | endBlock {e e' : EndBlock} : EndBlock.Same.{u} e e' → Same (.endBlock e) (.endBlock e')
  | callStmt (f : String) (n : ℕ) {args args' : List LIRExpr} :
      List.Forall₂ LIRExpr.Same.{u} args args' → Same (.callStmt f n args) (.callStmt f n args')
  | label (l : String) : Same (.label l) (.label l)
  | move {d d' e e' : LIRExpr} :
      SameDest.{u} d d' → LIRExpr.Same.{u} e e' → Same (.move d e) (.move d' e')

/-- A unit whose functions differ from those of another by equal expressions only, and behave as
they do. -/
structure LIRCompUnit.Preserved (node node' : LIRCompUnit) : Prop where
  name : node'.name = node.name
  globals : node'.globals = node.globals
  functions : List.Forall₂ (fun f f' => f'.name = f.name ∧
    List.Forall₂ FlatStmt.Same.{u} f.body f'.body ∧
      ∀ (M : Type u) (S : Storage M) (s : Store M),
        (flat S f'.body).traces (.running f'.body s) = (flat S f.body).traces (.running f.body s))
    node.functions node'.functions

/-! ## Remainders that throw -/

/-- The value of an expression made of constants and operators only, when it does not trap. -/
def LIRExpr.constValue : LIRExpr → Option Word
  | .const value => some value
  | .name _ => none
  | .temp _ => none
  | .mem _ => none
  | .op o l r => do o.eval (← l.constValue) (← r.constValue)

/-- No remainder of the expression has constant operands and divisor zero. -/
def LIRExpr.NoZeroMod : LIRExpr → Prop
  | .const _ => True
  | .name _ => True
  | .temp _ => True
  | .mem address => address.NoZeroMod
  | .op o l r => l.NoZeroMod ∧ r.NoZeroMod ∧
      ¬(o = .MOD ∧ l.constValue.isSome ∧ r.constValue = some 0)

namespace ConstantFolder

/-- What folding an expression gives: the same meaning, and a constant just for a constant value. -/
structure Folded (e e' : LIRExpr) : Prop where
  same : LIRExpr.Same.{u} e e'
  const : ∀ v, e' = .const v ↔ e.constValue = some v

/-- An expression without a value of its own that is no constant may stay. -/
theorem Folded.refl_of_ne {e : LIRExpr} (hconst : ∀ v, e ≠ .const v) (hvalue : e.constValue = none) :
    Folded.{u} e e :=
  ⟨fun _ _ _ => rfl, fun v => iff_of_false (hconst v) (by simp [hvalue])⟩

/-! ## The two words of a product -/

/-- The product of two words, before it is reduced. -/
theorem toInt_mul_bounds (n1 n2 : Word) :
    -2 ^ 126 ≤ n1.toInt * n2.toInt ∧ n1.toInt * n2.toInt ≤ 2 ^ 126 := by
  have h1 : |n1.toInt| ≤ 2 ^ 63 := abs_le.mpr ⟨BitVec.le_toInt n1, (BitVec.toInt_lt).le⟩
  have h2 : |n2.toInt| ≤ 2 ^ 63 := abs_le.mpr ⟨BitVec.le_toInt n2, (BitVec.toInt_lt).le⟩
  have hprod : |n1.toInt * n2.toInt| ≤ 2 ^ 63 * 2 ^ 63 := by
    rw [abs_mul]
    exact mul_le_mul h1 h2 (abs_nonneg _) (by norm_num)
  exact abs_le.mp (hprod.trans_eq (by norm_num))

/-- The high word of a product fits. -/
theorem longValueExact_highMul (n1 n2 : Word) :
    longValueExact ((n1.toInt * n2.toInt) >>> (64 : ℕ)) = some (highMul n1 n2) := by
  obtain ⟨hlo, hhi⟩ := toInt_mul_bounds n1 n2
  rw [Int.shiftRight_eq_div_pow, longValueExact, if_pos, highMul]
  · rfl
  · generalize n1.toInt * n2.toInt = n at hlo hhi
    norm_num at hlo hhi ⊢
    omega

/-- The high word, as a number: the product rounded down to a multiple of `2 ^ 64`. -/
theorem highMul_toInt (n1 n2 : Word) :
    (highMul n1 n2).toInt = n1.toInt * n2.toInt / 2 ^ 64 := by
  obtain ⟨hlo, hhi⟩ := toInt_mul_bounds n1 n2
  rw [highMul, BitVec.toInt_ofInt]
  apply Int.bmod_eq_of_le <;> norm_num <;> omega

/-- The low word, as an unsigned number: what that rounding drops. -/
theorem lowMul_toNat (n1 n2 : Word) :
    ((lowMul n1 n2).toNat : ℤ) = n1.toInt * n2.toInt % 2 ^ 64 := by
  have hprod : lowMul n1 n2 = BitVec.ofInt 64 (n1.toInt * n2.toInt) := by
    rw [BitVec.ofInt_mul, BitVec.ofInt_toInt, BitVec.ofInt_toInt, lowMul_eq]
  rw [hprod, BitVec.toNat_ofInt]
  exact Int.toNat_of_nonneg (Int.emod_nonneg _ (by norm_num))

/-- `lowMul` is the signed product modulo `2 ^ 64`, and `highMul` returns what is left of it. -/
theorem splitMul_exact (n1 n2 : Word) :
    (lowMul n1 n2).toInt = (n1.toInt * n2.toInt).bmod (2 ^ 64) ∧
      ∃ high, calculateOrThrow n1 n2 .HMUL = some high ∧
        high.toInt * 2 ^ 64 + (lowMul n1 n2).toNat = n1.toInt * n2.toInt := by
  constructor
  · rw [lowMul_eq, BitVec.toInt_mul]
  · refine ⟨highMul n1 n2, longValueExact_highMul n1 n2, ?_⟩
    rw [highMul_toInt, lowMul_toNat]
    exact Int.ediv_mul_add_emod _ _

/-- The smallest word has no absolute value; its square is still split exactly. -/
example : highMul (BitVec.intMin 64) (BitVec.intMin 64) = 2 ^ 62 ∧
    lowMul (BitVec.intMin 64) (BitVec.intMin 64) = 0 := by
  decide +kernel

/-! ## Folding an operator -/

/-- Where `calculate` does not throw, it computes the operator, and it throws where the operator
traps. -/
theorem calculateOrThrow_eq (n1 n2 : Word) (op : OpType) :
    calculateOrThrow n1 n2 op = op.eval n1 n2 := by
  cases op with
  | MUL => simp [calculateOrThrow, calculate, lowMul_eq, OpType.eval]
  | HMUL => exact longValueExact_highMul n1 n2
  | DIV => rfl
  | MOD => rfl
  | _ => simp [calculateOrThrow, OpType.eval, calculate, boolWord]

/-- Only division and remainder throw. -/
theorem calculateOrThrow_some {n1 n2 : Word} {op : OpType}
    (h : ¬((op = .DIV ∨ op = .MOD) ∧ n2 = 0)) :
    calculateOrThrow n1 n2 op = some (calculate n1 n2 op) := by
  cases op with
  | HMUL => exact longValueExact_highMul n1 n2
  | DIV => rw [calculateOrThrow, if_neg fun h0 => h ⟨.inl rfl, h0⟩]
  | MOD => rw [calculateOrThrow, if_neg fun h0 => h ⟨.inr rfl, h0⟩]
  | _ => rfl

/-- The folder on an operator whose folded operands are not both constants. -/
theorem applyExpr_op_of_none {o : OpType} {l r l' r' : LIRExpr} (hl : applyExpr l = some l')
    (hr : applyExpr r = some r') (hne : ∀ n1 n2, ¬(l' = .const n1 ∧ r' = .const n2)) :
    applyExpr (.op o l r) = some (.op o l' r') := by
  rw [applyExpr, hl, hr]
  cases l' with
  | const n1 =>
    cases r' with
    | const n2 => exact absurd ⟨rfl, rfl⟩ (hne n1 n2)
    | _ => rfl
  | _ => rfl

/-- The folder on an operator whose folded operands are constants. -/
theorem applyExpr_op_const {o : OpType} {l r : LIRExpr} {n1 n2 : Word}
    (hl : applyExpr l = some (.const n1)) (hr : applyExpr r = some (.const n2)) :
    applyExpr (.op o l r) =
      if o = .DIV ∧ n2 = 0 then some (.op o (.const n1) (.const n2))
      else (o.eval n1 n2).map .const := by
  rw [applyExpr, hl, hr, ← calculateOrThrow_eq]
  by_cases hdiv : o = .DIV ∧ n2 = 0
  · rw [if_pos hdiv]
    exact if_pos hdiv
  · rw [if_neg hdiv]
    apply (if_neg hdiv).trans
    cases calculateOrThrow n1 n2 o with
    | none => rfl
    | some v => rfl

/-- Loads from addresses of the same value. -/
theorem Same.mem {a a' : LIRExpr} (h : LIRExpr.Same.{u} a a') :
    LIRExpr.Same.{u} (.mem a) (.mem a') := fun M S s => by
  rw [LIRExpr.eval, LIRExpr.eval, h M S s]

/-- Operators on operands of the same value. -/
theorem Same.op {l l' r r' : LIRExpr} (o : OpType) (hl : LIRExpr.Same.{u} l l')
    (hr : LIRExpr.Same.{u} r r') : LIRExpr.Same.{u} (.op o l r) (.op o l' r') := fun M S s => by
  rw [LIRExpr.eval, LIRExpr.eval, hl M S s, hr M S s]

/-- Operators other than division and remainder by zero do not trap. -/
theorem eval_isSome {o : OpType} {n1 n2 : Word} (h : ¬((o = .DIV ∨ o = .MOD) ∧ n2 = 0)) :
    ∃ v, o.eval n1 n2 = some v :=
  ⟨calculate n1 n2 o, by rw [← calculateOrThrow_eq, calculateOrThrow_some h]⟩

/-- Without a remainder by a constant zero, folding an expression does not throw, and the result means the
same in every store. -/
theorem applyExpr_folded {e : LIRExpr} (h : e.NoZeroMod) :
    ∃ e', applyExpr e = some e' ∧ Folded.{u} e e' := by
  induction e with
  | const value => exact ⟨_, rfl, fun _ _ _ => rfl, fun v => by simp [LIRExpr.constValue]⟩
  | temp x => exact ⟨_, rfl, .refl_of_ne (by simp) rfl⟩
  | name l => exact ⟨_, rfl, .refl_of_ne (by simp) rfl⟩
  | mem address ih =>
    obtain ⟨a', ha, hfold⟩ := ih h
    exact ⟨.mem a', by rw [applyExpr, ha]; rfl, Same.mem hfold.same,
      fun v => by simp [LIRExpr.constValue]⟩
  | op o l r ihl ihr =>
    obtain ⟨hl, hr, hmod⟩ := h
    obtain ⟨l', hl', hfl⟩ := ihl hl
    obtain ⟨r', hr', hfr⟩ := ihr hr
    have hsame := Same.op o hfl.same hfr.same
    -- an operator is folded where both of its folded operands are constants
    by_cases hboth : ∃ n1 n2, l' = .const n1 ∧ r' = .const n2
    · obtain ⟨n1, n2, rfl, rfl⟩ := hboth
      have h1 := (hfl.const n1).mp rfl
      have h2 := (hfr.const n2).mp rfl
      have hvalue : (LIRExpr.op o l r).constValue = o.eval n1 n2 := by
        rw [LIRExpr.constValue, h1, h2]
        rfl
      rw [applyExpr_op_const hl' hr']
      by_cases hdiv : o = .DIV ∧ n2 = 0
      · rw [if_pos hdiv]
        refine ⟨_, rfl, hsame, fun v => iff_of_false (by simp) ?_⟩
        rw [hvalue, hdiv.1, hdiv.2]
        simp [OpType.eval]
      · -- what is left of the operators that trap is the remainder, which `NoZeroMod` excludes
        obtain ⟨v, hv⟩ : ∃ v, o.eval n1 n2 = some v := by
          apply eval_isSome
          rintro ⟨hop | hop, rfl⟩
          · exact hdiv ⟨hop, rfl⟩
          · exact hmod ⟨hop, by simp [h1], h2⟩
        rw [if_neg hdiv, hv]
        refine ⟨_, rfl, fun M S s => ?_, fun w => by rw [hvalue, hv]; simp⟩
        rw [← hsame M S s]
        exact hv.symm
    · refine ⟨_, applyExpr_op_of_none hl' hr' fun n1 n2 hc => hboth ⟨n1, n2, hc⟩, hsame,
        fun v => iff_of_false (by simp) fun hv => ?_⟩
      obtain ⟨n1, h1, hv⟩ := Option.bind_eq_some_iff.mp hv
      obtain ⟨n2, h2, -⟩ := Option.bind_eq_some_iff.mp hv
      exact hboth ⟨n1, n2, (hfl.const n1).mpr h1, (hfr.const n2).mpr h2⟩

/-- A remainder by zero of constants throws. -/
theorem noZeroMod_of_applyExpr {e e' : LIRExpr} (h : applyExpr e = some e') : e.NoZeroMod := by
  induction e generalizing e' with
  | const value => trivial
  | temp x => trivial
  | name l => trivial
  | mem address ih =>
    obtain ⟨a', ha, -⟩ := Option.bind_eq_some_iff.mp h
    exact ih ha
  | op o l r ihl ihr =>
    obtain ⟨l', hl', h'⟩ := Option.bind_eq_some_iff.mp h
    obtain ⟨r', hr', -⟩ := Option.bind_eq_some_iff.mp h'
    refine ⟨ihl hl', ihr hr', ?_⟩
    rintro ⟨rfl, hsome, hzero⟩
    obtain ⟨n1, h1⟩ := Option.isSome_iff_exists.mp hsome
    obtain ⟨l'', hl'', hfl⟩ := applyExpr_folded.{0} (ihl hl')
    obtain ⟨r'', hr'', hfr⟩ := applyExpr_folded.{0} (ihr hr')
    rw [(hfl.const n1).mpr h1] at hl''
    rw [(hfr.const 0).mpr hzero] at hr''
    rw [applyExpr_op_const hl'' hr''] at h
    simp [OpType.eval] at h

/-- With one it throws or changes the meaning, so the condition is exact. -/
theorem applyExpr_iff {e : LIRExpr} :
    (∃ e', applyExpr e = some e' ∧ LIRExpr.Same.{u} e e') ↔ e.NoZeroMod := by
  constructor
  · rintro ⟨e', h, -⟩
    exact noZeroMod_of_applyExpr h
  · intro h
    obtain ⟨e', he', hfold⟩ := applyExpr_folded h
    exact ⟨e', he', hfold.same⟩

/-- An operator is not folded to a temp or a load. -/
theorem ne_of_applyExpr_op {o : OpType} {l r e' : LIRExpr}
    (h : applyExpr (.op o l r) = some e') : (∀ x, e' ≠ .temp x) ∧ ∀ a, e' ≠ .mem a := by
  obtain ⟨l', hl', h'⟩ := Option.bind_eq_some_iff.mp h
  obtain ⟨r', hr', -⟩ := Option.bind_eq_some_iff.mp h'
  by_cases hboth : ∃ n1 n2, l' = .const n1 ∧ r' = .const n2
  · obtain ⟨n1, n2, rfl, rfl⟩ := hboth
    rw [applyExpr_op_const hl' hr'] at h
    split_ifs at h
    · rw [← Option.some.inj h]
      simp
    · obtain ⟨v, -, rfl⟩ := Option.map_eq_some_iff.mp h
      simp
  · rw [applyExpr_op_of_none hl' hr' fun n1 n2 hc => hboth ⟨n1, n2, hc⟩] at h
    rw [← Option.some.inj h]
    simp

/-- Folding a destination leaves the place to write to. -/
theorem sameDest_of_applyExpr {d d' : LIRExpr} (h : applyExpr d = some d') : SameDest.{u} d d' := by
  have hsafe := noZeroMod_of_applyExpr h
  have hsame : LIRExpr.Same.{u} d d' := by
    obtain ⟨d'', hd'', hfold⟩ := applyExpr_folded hsafe
    rw [h] at hd''
    rw [Option.some.inj hd'']
    exact hfold.same
  cases d with
  | const value =>
    rw [← Option.some.inj h]
    exact .value (by simp) (by simp) (by simp) (by simp) fun _ _ _ => rfl
  | temp x =>
    rw [← Option.some.inj h]
    exact .temp x
  | name l =>
    rw [← Option.some.inj h]
    exact .value (by simp) (by simp) (by simp) (by simp) fun _ _ _ => rfl
  | mem address =>
    obtain ⟨a', ha, hd'⟩ := Option.bind_eq_some_iff.mp h
    have hsafe : address.NoZeroMod := hsafe
    obtain ⟨a'', ha'', hfold⟩ := applyExpr_folded hsafe
    rw [ha] at ha''
    rw [← Option.some.inj hd']
    exact .mem (by rw [Option.some.inj ha'']; exact hfold.same)
  | op o l r =>
    obtain ⟨htemp, hmem⟩ := ne_of_applyExpr_op h
    exact .value (by simp) (by simp) htemp hmem hsame

/-! ## Statements -/

/-- The condition over a list of expressions. -/
theorem mapM_applyExpr_iff {es : List LIRExpr} :
    (∃ es', es.mapM applyExpr = some es' ∧ List.Forall₂ LIRExpr.Same.{u} es es') ↔
      ∀ e ∈ es, e.NoZeroMod := by
  rw [exists_mapM_iff]
  simp only [applyExpr_iff]

/-- Over the end of a block. -/
theorem applyEndBlock_iff {e : EndBlock} :
    (∃ e', applyEndBlock e = some e' ∧ EndBlock.Same.{u} e e') ↔ ∀ x ∈ e.exprs, x.NoZeroMod := by
  cases e with
  | jump l => simp [applyEndBlock, EndBlock.exprs, EndBlock.Same.jump]
  | cjump g t f =>
    rw [EndBlock.exprs, List.forall_mem_singleton, ← applyExpr_iff.{u}]
    constructor
    · rintro ⟨e', h, hsame⟩
      obtain ⟨g', hg, h⟩ := Option.bind_eq_some_iff.mp h
      rw [← Option.some.inj h] at hsame
      cases hsame with
      | cjump _ _ hsame => exact ⟨g', hg, hsame⟩
    · rintro ⟨g', hg, hsame⟩
      exact ⟨.cjump g' t f, by rw [applyEndBlock, hg]; rfl, .cjump t f hsame⟩
  | trueJump g t =>
    rw [EndBlock.exprs, List.forall_mem_singleton, ← applyExpr_iff.{u}]
    constructor
    · rintro ⟨e', h, hsame⟩
      obtain ⟨g', hg, h⟩ := Option.bind_eq_some_iff.mp h
      rw [← Option.some.inj h] at hsame
      cases hsame with
      | trueJump _ hsame => exact ⟨g', hg, hsame⟩
    · rintro ⟨g', hg, hsame⟩
      exact ⟨.trueJump g' t, by rw [applyEndBlock, hg]; rfl, .trueJump t hsame⟩
  | ret vals =>
    rw [EndBlock.exprs, ← mapM_applyExpr_iff.{u}]
    constructor
    · rintro ⟨e', h, hsame⟩
      obtain ⟨vals', hvals, h⟩ := Option.bind_eq_some_iff.mp h
      rw [← Option.some.inj h] at hsame
      cases hsame with
      | ret hsame => exact ⟨vals', hvals, hsame⟩
    · rintro ⟨vals', hvals, hsame⟩
      exact ⟨.ret vals', by rw [applyEndBlock, hvals]; rfl, .ret hsame⟩

/-- Over a statement. -/
theorem applyFlatStmt_iff {st : FlatStmt} :
    (∃ st', applyFlatStmt st = some st' ∧ FlatStmt.Same.{u} st st') ↔
      ∀ x ∈ st.exprs, x.NoZeroMod := by
  cases st with
  | endBlock e =>
    rw [FlatStmt.exprs, ← applyEndBlock_iff.{u}]
    constructor
    · rintro ⟨st', h, hsame⟩
      obtain ⟨e', he, h⟩ := Option.bind_eq_some_iff.mp h
      rw [← Option.some.inj h] at hsame
      cases hsame with
      | endBlock hsame => exact ⟨e', he, hsame⟩
    · rintro ⟨e', he, hsame⟩
      exact ⟨.endBlock e', by rw [applyFlatStmt, he]; rfl, .endBlock hsame⟩
  | callStmt f n args =>
    rw [FlatStmt.exprs, ← mapM_applyExpr_iff.{u}]
    constructor
    · rintro ⟨st', h, hsame⟩
      obtain ⟨args', hargs, h⟩ := Option.bind_eq_some_iff.mp h
      rw [← Option.some.inj h] at hsame
      cases hsame with
      | callStmt _ _ hsame => exact ⟨args', hargs, hsame⟩
    · rintro ⟨args', hargs, hsame⟩
      exact ⟨.callStmt f n args', by rw [applyFlatStmt, hargs]; rfl, .callStmt f n hsame⟩
  | label l => simp [applyFlatStmt, FlatStmt.exprs, FlatStmt.Same.label]
  | move d e =>
    rw [FlatStmt.exprs, List.forall_mem_cons, List.forall_mem_singleton]
    constructor
    · rintro ⟨st', h, -⟩
      obtain ⟨d', hd, h⟩ := Option.bind_eq_some_iff.mp h
      obtain ⟨e', he, -⟩ := Option.bind_eq_some_iff.mp h
      exact ⟨noZeroMod_of_applyExpr hd, noZeroMod_of_applyExpr he⟩
    · rintro ⟨hd, he⟩
      obtain ⟨d', hd', -⟩ := applyExpr_folded.{u} hd
      obtain ⟨e', he', hfold⟩ := applyExpr_folded.{u} he
      exact ⟨.move d' e', by rw [applyFlatStmt, hd', he']; rfl,
        .move (sameDest_of_applyExpr hd') hfold.same⟩

/-- Over a body. -/
theorem applySeq_iff {block : List FlatStmt} :
    (∃ block', applySeq block = some block' ∧ List.Forall₂ FlatStmt.Same.{u} block block') ↔
      ∀ st ∈ block, ∀ x ∈ st.exprs, x.NoZeroMod := by
  simp only [applySeq, exists_mapM_iff, applyFlatStmt_iff]

end ConstantFolder

/-! ## Behaviour -/

section Traces

variable {M : Type u} {S : Storage M} {s s' : Store M}

/-- Lists of expressions that mean the same have the same values. -/
theorem evalList_same {es es' : List LIRExpr} (h : List.Forall₂ LIRExpr.Same.{u} es es') :
    evalList S s es' = evalList S s es := by
  induction h with
  | nil => rfl
  | cons hsame _ ih =>
    rw [evalList, evalList] at ih
    rw [evalList, evalList, List.mapM_cons, List.mapM_cons, ih, hsame M S s]

/-- An end of a block that means the same goes to the same place. -/
theorem EndBlock.Same.next_eq {e e' : EndBlock} (h : EndBlock.Same.{u} e e') :
    e'.next S s = e.next S s := by
  cases h with
  | jump l => rfl
  | cjump t f hsame => rw [EndBlock.next, EndBlock.next, hsame M S s]
  | trueJump t hsame => rw [EndBlock.next, EndBlock.next, hsame M S s]
  | ret hsame => rfl

/-- Meaning the same is symmetric. -/
theorem FlatStmt.Same.symm {st st' : FlatStmt} (h : FlatStmt.Same.{u} st st') :
    FlatStmt.Same.{u} st' st := by
  have hflip {es es' : List LIRExpr} (h : List.Forall₂ LIRExpr.Same.{u} es es') :
      List.Forall₂ LIRExpr.Same.{u} es' es := h.flip.imp fun _ _ hsame M S s => (hsame M S s).symm
  cases h with
  | endBlock hsame =>
    apply Same.endBlock
    cases hsame with
    | jump l => exact .jump l
    | cjump t f hsame => exact .cjump t f fun M S s => (hsame M S s).symm
    | trueJump t hsame => exact .trueJump t fun M S s => (hsame M S s).symm
    | ret hsame => exact .ret (hflip hsame)
  | callStmt f n hsame => exact .callStmt f n (hflip hsame)
  | label l => exact .label l
  | move hdest hsame =>
    refine .move ?_ fun M S s => (hsame M S s).symm
    cases hdest with
    | temp x => exact .temp x
    | mem ha => exact .mem fun M S s => (ha M S s).symm
    | value ht hm ht' hm' hsame => exact .value ht' hm' ht hm fun M S s => (hsame M S s).symm

/-- A statement that means the same takes the same step. -/
theorem FlatStmt.Same.exec {st st' : FlatStmt} (h : FlatStmt.Same.{u} st st') {ev : Event M}
    (hexec : Exec S st s ev s') : Exec S st' s ev s' := by
  cases h with
  | endBlock hsame => exact hexec.ne_endBlock.elim
  | label l => exact hexec.ne_label.elim
  | callStmt f n hsame =>
    cases hexec with
    | call hargs hlen => exact .call (by rwa [evalList_same hsame]) hlen
  | move hdest hsame =>
    cases hexec with
    | moveTemp he =>
      cases hdest with
      | temp x => exact .moveTemp (by rwa [hsame M S s])
      | value htemp => exact (htemp _ rfl).elim
    | moveMem hp he hw =>
      cases hdest with
      | mem ha => exact .moveMem (by rwa [ha M S s]) (by rwa [hsame M S s]) hw
      | value _ hmem => exact (hmem _ rfl).elim

/-- Bodies of the same statements find the same statements behind a label. -/
theorem findLabel_same {body body' rest : List FlatStmt}
    (h : List.Forall₂ FlatStmt.Same.{u} body body') {l : String}
    (hfind : findLabel body l = some rest) :
    ∃ rest', findLabel body' l = some rest' ∧ List.Forall₂ FlatStmt.Same.{u} rest rest' := by
  induction h with
  | nil => simp [findLabel] at hfind
  | cons hsame htail ih =>
    cases hsame with
    | label l' =>
      rw [findLabel] at hfind ⊢
      split_ifs at hfind ⊢ with hl
      · rw [← Option.some.inj hfind]
        exact ⟨_, rfl, htail⟩
      · exact ih hfind
    | endBlock _ => exact ih hfind
    | callStmt _ _ _ => exact ih hfind
    | move _ _ => exact ih hfind

/-- Configurations with the same statements left. -/
inductive Config.Same : Config M → Config M → Prop
  | running {rest rest' : List FlatStmt} (s : Store M) :
      List.Forall₂ FlatStmt.Same.{u} rest rest' → Same (.running rest s) (.running rest' s)
  | returned : Same .returned .returned

/-- Bodies of statements that mean the same simulate each other. -/
theorem isSimulation_same {body body' : List FlatStmt}
    (h : List.Forall₂ FlatStmt.Same.{u} body body') :
    Lts.IsSimulation (flat S body) (flat S body') Config.Same := by
  intro c d a c' hR hstep
  cases hstep with
  | exec hexec =>
    cases hR with
    | running s hrest =>
      obtain ⟨st', rest', hst, htail, rfl⟩ := List.forall₂_cons_left_iff.mp hrest
      exact ⟨_, .single (.exec (hst.exec hexec)), .running _ htail⟩
  | label =>
    cases hR with
    | running s hrest =>
      obtain ⟨st', rest', hst, htail, rfl⟩ := List.forall₂_cons_left_iff.mp hrest
      cases hst with
      | label l => exact ⟨_, .single .label, .running _ htail⟩
  | @control e rest rest₁ s₁ d hnext hgoto =>
    cases hR with
    | running s hrest =>
      obtain ⟨st', rest', hst, htail, rfl⟩ := List.forall₂_cons_left_iff.mp hrest
      cases hst with
      | endBlock hend =>
        rw [← hend.next_eq] at hnext
        cases d with
        | none =>
          rw [← Option.some.inj hgoto]
          exact ⟨_, .single (.control hnext rfl), .running _ htail⟩
        | some l =>
          obtain ⟨rest'', hfind, hrest''⟩ := findLabel_same h hgoto
          exact ⟨_, .single (.control hnext hfind), .running _ hrest''⟩
  | ret hvals =>
    cases hR with
    | running s hrest =>
      obtain ⟨st', rest', hst, htail, rfl⟩ := List.forall₂_cons_left_iff.mp hrest
      cases hst with
      | endBlock hend =>
        cases hend with
        | ret hsame => exact ⟨_, .single (.ret (by rwa [evalList_same hsame])), .returned⟩

/-- So they have the same traces. -/
theorem traces_same {body body' : List FlatStmt} (h : List.Forall₂ FlatStmt.Same.{u} body body') :
    (flat S body').traces (.running body' s) = (flat S body).traces (.running body s) := by
  have hflip : List.Forall₂ FlatStmt.Same.{u} body' body := h.flip.imp fun _ _ hsame => hsame.symm
  exact Set.Subset.antisymm ((isSimulation_same hflip).traces_subset (.running s hflip))
    ((isSimulation_same h).traces_subset (.running s h))

end Traces

namespace ConstantFolder

/-- The folder returns a unit that means what it was given exactly when no remainder of constants
divides by zero. -/
theorem apply_iff (node : LIRCompUnit) :
    (∃ node', apply node = some node' ∧ LIRCompUnit.Preserved.{u} node node') ↔
      ∀ f ∈ node.functions, ∀ st ∈ f.body, ∀ e ∈ st.exprs, e.NoZeroMod := by
  have hfunc (f : LIRFuncDecl) : (∃ f', applyFuncDecl f = some f' ∧ f'.name = f.name ∧
      List.Forall₂ FlatStmt.Same.{u} f.body f'.body ∧
        ∀ (M : Type u) (S : Storage M) (s : Store M),
          (flat S f'.body).traces (.running f'.body s) = (flat S f.body).traces (.running f.body s)) ↔
      ∀ st ∈ f.body, ∀ e ∈ st.exprs, e.NoZeroMod := by
    rw [← applySeq_iff.{u}]
    constructor
    · rintro ⟨f', hf', -, hsame, -⟩
      obtain ⟨body', hbody, hf'⟩ := Option.bind_eq_some_iff.mp hf'
      rw [← Option.some.inj hf'] at hsame
      exact ⟨body', hbody, hsame⟩
    · rintro ⟨body', hbody, hsame⟩
      exact ⟨⟨f.name, body'⟩, by rw [applyFuncDecl, hbody]; rfl, rfl, hsame,
        fun M S s => traces_same hsame⟩
  simp only [← hfunc]
  rw [← exists_mapM_iff]
  constructor
  · rintro ⟨node', hnode, hpres⟩
    obtain ⟨functions, hfs, hnode⟩ := Option.bind_eq_some_iff.mp hnode
    rw [← Option.some.inj hnode] at hpres
    exact ⟨functions, hfs, hpres.functions⟩
  · rintro ⟨functions, hfs, hsame⟩
    exact ⟨⟨node.name, functions, node.globals⟩, by rw [apply, hfs]; rfl, rfl, rfl, hsame⟩

/-- `a % 0` under a branch that is never taken. -/
def zeroModUnit : LIRCompUnit :=
  ⟨"main.eta", [⟨"_Imain_paai", [.endBlock (.cjump (.const 0) "t" (some "f")), .label "t",
    .move (.temp "x") (.op .MOD (.const 1) (.const 0)), .label "f", .endBlock (.ret [])]⟩], []⟩

/-- Folding `1 % 0` throws, so the unit is not folded at all. -/
theorem zeroModUnit_throws :
    ¬∃ node', apply zeroModUnit = some node' ∧ LIRCompUnit.Preserved.{0} zeroModUnit node' := by
  rintro ⟨node', h, -⟩
  have hthrows : apply zeroModUnit = none := by decide
  rw [hthrows] at h
  cases h

end ConstantFolder

end Jaek
