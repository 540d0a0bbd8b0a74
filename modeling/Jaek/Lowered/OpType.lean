import Mathlib

/-!
# Binary operators of the intermediate representations

`OpType` is `IRBinOp.OpType`. `OpType.eval` is the meaning `IRSimulator` gives the operators:
64-bit words with wrap-around, signed comparison except for `ULT`, shift counts taken modulo 64.
Division and remainder by zero trap (`none`).
-/

namespace Jaek

/-- A 64-bit machine word, read as signed where an operator says so. -/
abbrev Word := BitVec 64

/-- The operators of `IRBinOp`, in the order the source declares them. -/
inductive OpType
  | ADD | SUB | MUL | HMUL | DIV | MOD | AND | OR | XOR | LSHIFT | RSHIFT | ARSHIFT
  | EQ | NEQ | LT | ULT | GT | LEQ | GEQ
deriving DecidableEq, Repr

/-- A comparison result as a word. -/
def boolWord (b : Bool) : Word := if b then 1 else 0

/-- The high word of the signed 128-bit product. -/
def highMul (n1 n2 : Word) : Word := BitVec.ofInt 64 ((n1.toInt * n2.toInt) / 2 ^ 64)

/-- The value of an operator on two words; `none` is a trap. -/
def OpType.eval (op : OpType) (n1 n2 : Word) : Option Word :=
  match op with
  | ADD => some (n1 + n2)
  | SUB => some (n1 - n2)
  | MUL => some (n1 * n2)
  | HMUL => some (highMul n1 n2)
  | DIV => if n2 = 0 then none else some (n1.sdiv n2)
  | MOD => if n2 = 0 then none else some (n1.srem n2)
  | AND => some (n1 &&& n2)
  | OR => some (n1 ||| n2)
  | XOR => some (n1 ^^^ n2)
  | LSHIFT => some (n1 <<< (n2.toNat % 64))
  | RSHIFT => some (n1 >>> (n2.toNat % 64))
  | ARSHIFT => some (n1.sshiftRight (n2.toNat % 64))
  | EQ => some (boolWord (n1 = n2))
  | NEQ => some (boolWord (n1 ≠ n2))
  | LT => some (boolWord (n1.slt n2))
  | ULT => some (boolWord (n1.ult n2))
  | GT => some (boolWord (n2.slt n1))
  | LEQ => some (boolWord (n1.sle n2))
  | GEQ => some (boolWord (n2.sle n1))

@[simp] theorem boolWord_true : boolWord true = 1 := rfl

@[simp] theorem boolWord_false : boolWord false = 0 := rfl

theorem boolWord_eq_zero (b : Bool) : boolWord b = 0 ↔ b = false := by
  cases b <;> simp [boolWord]

end Jaek
