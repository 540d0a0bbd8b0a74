import Jaek.Lowered.OpType

/-!
# Folding constants

`ConstantFolder.calculate`. `calculate_eq` says that it computes the meaning of the operators wherever its
callers use it, which is never on a division by zero.
-/

namespace Jaek

namespace ConstantFolder

def lowMul (n1 n2 : Word) : Word :=
  let sgn1 : Word := if 0 ≤ n1.toInt then 1 else -1
  let sgn2 : Word := if 0 ≤ n2.toInt then 1 else -1
  let n1H := (n1 * sgn1) >>> 32
  let n1L := ((n1 * sgn1) <<< 32) >>> 32
  let n2H := (n2 * sgn2) >>> 32
  let n2L := ((n2 * sgn2) <<< 32) >>> 32
  ((n1L * n2L) + ((n1H * n2L) <<< 32) + ((n2H * n1L) <<< 32)) * sgn1 * sgn2

/-- `calculate`. Kotlin's shifts take the count modulo 64. -/
def calculate (n1 n2 : Word) : OpType → Word
  | .ADD => n1 + n2
  | .SUB => n1 - n2
  | .MUL => lowMul n1 n2
  | .HMUL => highMul n1 n2
  | .DIV => n1.sdiv n2
  | .MOD => n1.srem n2
  | .AND => n1 &&& n2
  | .OR => n1 ||| n2
  | .XOR => n1 ^^^ n2
  | .LSHIFT => n1 <<< (n2.toNat % 64)
  | .RSHIFT => n1 >>> (n2.toNat % 64)
  | .ARSHIFT => n1.sshiftRight (n2.toNat % 64)
  | .EQ => if n1 = n2 then 1 else 0
  | .NEQ => if n1 ≠ n2 then 1 else 0
  | .LT => if n1.slt n2 then 1 else 0
  | .ULT => if n1.ult n2 then 1 else 0
  | .GT => if n2.slt n1 then 1 else 0
  | .LEQ => if n1.sle n2 then 1 else 0
  | .GEQ => if n2.sle n1 then 1 else 0

/-- A word is its halves. -/
theorem halves (a : Word) : a = (a >>> 32) * BitVec.twoPow 64 32 + ((a <<< 32) >>> 32) := by
  rw [BitVec.mul_twoPow_eq_shiftLeft]
  apply BitVec.eq_of_toNat_eq
  have hlt := a.isLt
  rw [BitVec.toNat_add, BitVec.toNat_shiftLeft, BitVec.toNat_ushiftRight, BitVec.toNat_ushiftRight,
    BitVec.toNat_shiftLeft, Nat.shiftRight_eq_div_pow, Nat.shiftLeft_eq, Nat.shiftRight_eq_div_pow,
    Nat.shiftLeft_eq]
  norm_num at hlt ⊢
  omega

/-- The product of the upper halves falls out of the word. -/
theorem mul_halves (a b : Word) :
    ((a <<< 32) >>> 32) * ((b <<< 32) >>> 32) + (((a >>> 32) * ((b <<< 32) >>> 32)) <<< 32) +
      (((b >>> 32) * ((a <<< 32) >>> 32)) <<< 32) = a * b := by
  have hzero : BitVec.twoPow 64 32 * BitVec.twoPow 64 32 = 0 := by
    rw [BitVec.mul_twoPow_eq_shiftLeft]
    decide
  conv_rhs => rw [halves a, halves b]
  generalize (a <<< 32) >>> 32 = al, (b <<< 32) >>> 32 = bl
  rw [← BitVec.mul_twoPow_eq_shiftLeft, ← BitVec.mul_twoPow_eq_shiftLeft]
  linear_combination (-((a >>> 32) * (b >>> 32))) * hzero

theorem lowMul_eq (n1 n2 : Word) : lowMul n1 n2 = n1 * n2 := by
  rw [lowMul, mul_halves]
  split_ifs <;> ring

/-- Folding computes what the operator means. -/
theorem calculate_eq {op : OpType} {n1 n2 : Word} (h : n2 ≠ 0) :
    op.eval n1 n2 = some (calculate n1 n2 op) := by
  cases op with
  | MUL => rw [calculate, lowMul_eq, OpType.eval]
  | DIV => rw [OpType.eval, if_neg h, calculate]
  | MOD => rw [OpType.eval, if_neg h, calculate]
  | _ => simp [OpType.eval, calculate, boolWord]

end ConstantFolder

end Jaek
