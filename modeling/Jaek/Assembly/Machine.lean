import Jaek.Assembly.Instruction
import Jaek.Semantics.Bytes

/-!
# What the instructions do

A `State` holds the abstract and the machine registers, the flags and a byte memory. `exec` runs one
straight-line instruction, `run` a list of them up to a taken jump. Only `JumpSet` looks at the size
of a register: it writes the low byte.

Operands are full 64-bit values. Where the manual leaves a flag undefined it keeps its value, and
`DIV`, which is printed as `idiv`, faults on a zero divisor and on a quotient that does not fit.
-/

namespace Jaek

/-- The flags the jumps look at. -/
structure Flags where
  ZF : Bool
  SF : Bool
  OF : Bool
  CF : Bool
deriving DecidableEq

/-- The registers, the flags and the memory. -/
structure State where
  abs : String → Word
  phys : x86Name → Word
  flags : Flags
  mem : Bytes

namespace Flags

/-- The flags of a difference. -/
def sub (a b : Word) : Flags where
  ZF := a = b
  SF := (a - b).msb
  OF := a.msb ≠ b.msb ∧ (a - b).msb ≠ a.msb
  CF := a.ult b

/-- The flags of a sum. -/
def add (a b : Word) : Flags where
  ZF := a + b = 0
  SF := (a + b).msb
  OF := a.msb = b.msb ∧ (a + b).msb ≠ a.msb
  CF := (a + b).ult a

/-- The flags of a bitwise result. -/
def logic (r : Word) : Flags where
  ZF := r = 0
  SF := r.msb
  OF := false
  CF := false

/-- The flags of a shift, with the bit shifted out last. -/
def shift (r : Word) (out : Bool) (f : Flags) : Flags :=
  { f with ZF := r = 0, SF := r.msb, CF := out }

/-- The flags of a product. -/
def mul (a b : Word) (f : Flags) : Flags :=
  { f with OF := (a * b).toInt ≠ a.toInt * b.toInt, CF := (a * b).toInt ≠ a.toInt * b.toInt }

end Flags

/-- Whether a jump is taken. -/
def Jump.taken (f : Flags) : Jump → Bool
  | JMP => true
  | JE | JZ => f.ZF
  | JNE | JNZ => !f.ZF
  | JL => f.SF != f.OF
  | JLE => f.ZF || f.SF != f.OF
  | JG => !f.ZF && f.SF == f.OF
  | JGE => f.SF == f.OF
  | JB => f.CF

/-- The bit a `SETcc` writes. -/
def JumpSet.bit (f : Flags) : JumpSet → Bool
  | SETZ => f.ZF
  | SETNZ => !f.ZF
  | SETL => f.SF != f.OF
  | SETLE => f.ZF || f.SF != f.OF
  | SETB => f.CF
  | SETG => !f.ZF && f.SF == f.OF
  | SETGE => f.SF == f.OF

/-- What the index of an address is multiplied by. -/
def Shift.factor : Shift → Word
  | ONE => 1
  | TWO => 2
  | FOUR => 4
  | EIGHT => 8

namespace State

/-- The 64-bit value of a register. -/
def value (s : State) : Register → Word
  | .abstract name _ => s.abs name
  | .x86 name _ => s.phys name

/-- Write all 64 bits of a register. -/
def set (s : State) (r : Register) (v : Word) : State :=
  match r with
  | .abstract name _ => { s with abs := Function.update s.abs name v }
  | .x86 name _ => { s with phys := Function.update s.phys name v }

/-- Write the low byte of a register. -/
def setLow (s : State) (r : Register) (b : Bool) : State :=
  s.set r ((s.value r &&& 0xFFFFFFFFFFFFFF00) ||| boolWord b)

/-- The address of a memory operand, where `L` gives the addresses of labels. -/
def address (L : String → Word) (s : State) : Memory → Word
  | .registerMem base index offset shift =>
    base.elim 0 s.value + index.elim 0 s.value * shift.factor + offset
  | .labelMem label => L label

/-- The value of a source. -/
def source (L : String → Word) (s : State) : Source → Word
  | .memorySrc m => s.mem.load (s.address L m)
  | .registerSrc r => s.value r
  | .constSrc c => c

/-- The value of a destination, for an instruction that reads it first. -/
def read (L : String → Word) (s : State) : Destination → Word
  | .memoryDest m => s.mem.load (s.address L m)
  | .registerDest r => s.value r

/-- A write to a destination. -/
def write (L : String → Word) (s : State) (d : Destination) (v : Word) : State :=
  match d with
  | .memoryDest m => { s with mem := s.mem.store (s.address L m) v }
  | .registerDest r => s.set r v

/-- The state with other flags. -/
def setFlags (s : State) (f : Flags) : State := { s with flags := f }

/-- Decrement the stack pointer and store a word on top of the stack. -/
def push (s : State) (v : Word) : State :=
  let s := s.set (.x86 .RSP) (s.phys .RSP - 8)
  { s with mem := s.mem.store (s.phys .RSP) v }

/-- Load a word from the top of the stack and increment the stack pointer. -/
def pop (s : State) : Word × State :=
  (s.mem.load (s.phys .RSP), s.set (.x86 .RSP) (s.phys .RSP + 8))

end State

/-- The result of an arithmetic instruction and its flags. -/
def Arith.eval (op : Arith) (a b : Word) (f : Flags) : Word × Flags :=
  match op with
  | ADD => (a + b, .add a b)
  | SUB => (a - b, .sub a b)
  | MUL => (a * b, .mul a b f)

/-- The result of a logic instruction and its flags. A shift by zero keeps the flags. -/
def Logic.eval (op : Logic) (a b : Word) (f : Flags) : Word × Flags :=
  let n := b.toNat % 64
  match op with
  | AND => (a &&& b, .logic (a &&& b))
  | OR => (a ||| b, .logic (a ||| b))
  | XOR => (a ^^^ b, .logic (a ^^^ b))
  | SHL => (a <<< n, if n = 0 then f else .shift (a <<< n) (a.getLsbD (64 - n)) f)
  | SHR => (a >>> n, if n = 0 then f else .shift (a >>> n) (a.getLsbD (n - 1)) f)
  | SAR => (a.sshiftRight n,
      if n = 0 then f else .shift (a.sshiftRight n) (a.getLsbD (n - 1)) f)

/-- Quotient and remainder of the signed 128-bit number `hi:lo`, truncated towards zero. -/
def idiv (hi lo divisor : Word) : Option (Word × Word) :=
  let n := hi.toInt * 2 ^ 64 + lo.toNat
  let q := n.tdiv divisor.toInt
  if divisor = 0 then none
  else if -2 ^ 63 ≤ q ∧ q < 2 ^ 63 then
    some (BitVec.ofInt 64 q, BitVec.ofInt 64 (n.tmod divisor.toInt))
  else none

/-- The effect of an instruction that does not transfer control; `none` is a fault. -/
def exec (L : String → Word) (insn : Instruction) (s : State) : Option State :=
  match insn with
  | .COMMENT _ | .NOP | .label _ _ => some s
  | .MOV dest src => some (s.write L dest (s.source L src))
  | .arith op dest src =>
    let r := op.eval (s.read L dest) (s.source L src) s.flags
    some ((s.write L dest r.1).setFlags r.2)
  | .LEA dest src => some (s.write L dest (s.address L src))
  | .INC dest =>
    let a := s.read L dest
    some ((s.write L dest (a + 1)).setFlags { Flags.add a 1 with CF := s.flags.CF })
  | .DEC dest =>
    let a := s.read L dest
    some ((s.write L dest (a - 1)).setFlags { Flags.sub a 1 with CF := s.flags.CF })
  | .logic op dest src =>
    let r := op.eval (s.read L dest) (s.source L src) s.flags
    some ((s.write L dest r.1).setFlags r.2)
  | .CMP dest src => some (s.setFlags (.sub (s.read L dest) (s.source L src)))
  | .TEST reg1 reg2 => some (s.setFlags (.logic (s.value reg1 &&& s.value reg2)))
  | .jumpSet op reg => some (s.setLow reg (op.bit s.flags))
  | .CQO => some (s.set (.x86 .RDX) (if (s.phys .RAX).msb then -1 else 0))
  | .PUSH arg => some (s.push (s.value arg))
  | .PAD => some (s.push 204)
  | .POP dest => some (s.pop.2.set dest s.pop.1)
  | .ENTER bytes =>
    -- The size is an operand of 16 bits.
    if bytes.toNat < 2 ^ 16 then
      let s := s.push (s.phys .RBP)
      let s := s.set (.x86 .RBP) (s.phys .RSP)
      some (s.set (.x86 .RSP) (s.phys .RSP - bytes))
    else none
  | .LEAVE =>
    let s := s.set (.x86 .RSP) (s.phys .RBP)
    some (s.pop.2.set (.x86 .RBP) s.pop.1)
  | .DIV divisor => do
    let (q, r) ← idiv (s.phys .RDX) (s.phys .RAX) (s.value divisor)
    some ((s.set (.x86 .RAX) q).set (.x86 .RDX) r)
  | .IMULSingle factor =>
    let a := s.phys .RAX
    let b := s.value factor
    some (((s.set (.x86 .RAX) (a * b)).set (.x86 .RDX) (highMul a b)).setFlags
      (.mul a b s.flags))
  | .jump _ _ | .CALL _ | .RET | .CALLERSAVEPUSH | .CALLERSAVEPOP => none

/-- Where a list of instructions leads: behind its end, or to a label. -/
inductive Outcome
  | next (s : State)
  | jump (l : String) (s : State)

/-- Run a list of instructions up to its end or a taken jump. -/
def run (L : String → Word) : List Instruction → State → Option Outcome
  | [], s => some (.next s)
  | .jump op loc :: insns, s => if op.taken s.flags then some (.jump loc s) else run L insns s
  | insn :: insns, s => (exec L insn s).bind (run L insns)

/-! ## Registers -/

namespace State

@[simp] theorem value_set_self (s : State) (r : Register) (v : Word) : (s.set r v).value r = v := by
  cases r <;> simp [set, value]

@[simp] theorem mem_set (s : State) (r : Register) (v : Word) : (s.set r v).mem = s.mem := by
  cases r <;> rfl

@[simp] theorem flags_set (s : State) (r : Register) (v : Word) : (s.set r v).flags = s.flags := by
  cases r <;> rfl

@[simp] theorem abs_set_x86 (s : State) (x : x86Name) (n : ℕ) (v : Word) :
    (s.set (.x86 x n) v).abs = s.abs := rfl

@[simp] theorem phys_set_x86 (s : State) (x : x86Name) (n : ℕ) (v : Word) :
    (s.set (.x86 x n) v).phys = Function.update s.phys x v := rfl

@[simp] theorem abs_set_abstract (s : State) (x : String) (n : ℕ) (v : Word) :
    (s.set (.abstract x n) v).abs = Function.update s.abs x v := rfl

@[simp] theorem phys_set_abstract (s : State) (x : String) (n : ℕ) (v : Word) :
    (s.set (.abstract x n) v).phys = s.phys := rfl

@[simp] theorem value_setFlags (s : State) (f : Flags) : (s.setFlags f).value = s.value := by
  funext r
  cases r <;> rfl

@[simp] theorem flags_setFlags (s : State) (f : Flags) : (s.setFlags f).flags = f := rfl

@[simp] theorem abs_setFlags (s : State) (f : Flags) : (s.setFlags f).abs = s.abs := rfl

@[simp] theorem phys_setFlags (s : State) (f : Flags) : (s.setFlags f).phys = s.phys := rfl

@[simp] theorem mem_setFlags (s : State) (f : Flags) : (s.setFlags f).mem = s.mem := rfl

end State

/-! ## Runs -/

section Run

variable {L : String → Word} {insn : Instruction} {insns rest : List Instruction} {s s' : State}

/-- An instruction that has an effect does not jump. -/
theorem run_cons (h : exec L insn s = some s') : run L (insn :: insns) s = run L insns s' := by
  cases insn
  case jump => simp [exec] at h
  all_goals rw [run, h, Option.bind_some]; simp

/-- Code in front is run first. -/
theorem run_append (h : run L insns s = some (.next s')) :
    run L (insns ++ rest) s = run L rest s' := by
  induction insns generalizing s with
  | nil =>
    simp only [run, Option.some.injEq, Outcome.next.injEq] at h
    rw [List.nil_append, h]
  | cons insn insns ih =>
    by_cases hjump : ∃ op loc, insn = .jump op loc
    · obtain ⟨op, loc, rfl⟩ := hjump
      rw [run] at h
      rw [List.cons_append, run]
      by_cases htaken : op.taken s.flags
      · simp [htaken] at h
      · rw [if_neg htaken] at h ⊢
        exact ih h
    · have hrun : ∀ l, run L (insn :: l) s = (exec L insn s).bind (run L l) := by
        intro l
        rw [run]
        intro op loc heq
        exact hjump ⟨op, loc, heq⟩
      rw [hrun] at h
      rw [List.cons_append, hrun]
      obtain ⟨s₁, hexec, h⟩ := Option.bind_eq_some_iff.mp h
      rw [hexec, Option.bind_some]
      exact ih h

end Run

/-! ## Comparisons -/

namespace Flags

variable (a b : Word)

/-- Numbers of the same sign differ by less than overflows, so the sign shows the borrow. -/
theorem msb_sub_of_msb_eq (h : a.msb = b.msb) : (a - b).msb = a.ult b := by
  rw [BitVec.msb_eq_decide, BitVec.msb_eq_decide, decide_eq_decide] at h
  rw [BitVec.msb_eq_decide, BitVec.ult, decide_eq_decide]
  bv_omega

/-- Of two numbers of different sign the negative one is smaller. -/
theorem slt_of_msb_ne (h : a.msb ≠ b.msb) : a.slt b = a.msb := by
  cases ha : a.msb
  · have hb : b.msb = true := by simpa [ha] using h
    have h1 := BitVec.toInt_nonneg_of_msb_false ha
    have h2 := BitVec.toInt_neg_of_msb_true hb
    rw [BitVec.slt, decide_eq_false (by omega)]
  · have hb : b.msb = false := by simpa [ha] using h
    have h1 := BitVec.toInt_neg_of_msb_true ha
    have h2 := BitVec.toInt_nonneg_of_msb_false hb
    rw [BitVec.slt, decide_eq_true (by omega)]

/-- Sign and overflow together tell which of two signed numbers is smaller. -/
theorem sub_SF_bne_OF : ((sub a b).SF != (sub a b).OF) = a.slt b := by
  by_cases h : a.msb = b.msb
  · rw [BitVec.slt_eq_ult_of_msb_eq h, ← msb_sub_of_msb_eq a b h]
    simp [sub, h]
  · rw [slt_of_msb_ne a b h]
    cases hs : (a - b).msb <;> cases ha : a.msb <;> simp_all [sub]

/-- Equal sign and overflow flags of a subtraction say that it is not less. -/
theorem sub_SF_beq_OF : ((sub a b).SF == (sub a b).OF) = b.sle a := by
  have h := sub_SF_bne_OF a b
  rw [BitVec.sle_eq_not_slt, ← h, bne, Bool.not_not]

/-- `JL` after a comparison. -/
theorem taken_sub_JL : Jump.JL.taken (sub a b) = a.slt b := sub_SF_bne_OF a b

/-- `JGE` after a comparison. -/
theorem taken_sub_JGE : Jump.JGE.taken (sub a b) = b.sle a := sub_SF_beq_OF a b

/-- `JLE` after a comparison. -/
theorem taken_sub_JLE : Jump.JLE.taken (sub a b) = a.sle b := by
  rw [Jump.taken, sub_SF_bne_OF, BitVec.sle_eq_slt_or_eq, Bool.or_comm]
  rfl

/-- `JG` after a comparison. -/
theorem taken_sub_JG : Jump.JG.taken (sub a b) = b.slt a := by
  have h : ((sub a b).ZF || (sub a b).SF != (sub a b).OF) = a.sle b := taken_sub_JLE a b
  show (!(sub a b).ZF && (sub a b).SF == (sub a b).OF) = b.slt a
  have hnot : b.slt a = !a.sle b := by rw [BitVec.sle_eq_not_slt, Bool.not_not]
  rw [hnot, ← h, Bool.not_or, bne, Bool.not_not]

end Flags

/-! ## Division -/

/-- Division of a sign-extended word is signed division, unless it overflows. -/
theorem idiv_signExtend {a b : Word} (hb : b ≠ 0) (hover : ¬ (a = BitVec.intMin 64 ∧ b = -1)) :
    idiv (if a.msb then -1 else 0) a b = some (a.sdiv b, a.srem b) := by
  have hn : (if a.msb then (-1 : Word) else 0).toInt * 2 ^ 64 + a.toNat = a.toInt := by
    have hneg : (-1 : Word).toInt = -1 := by decide
    rw [BitVec.toInt_eq_msb_cond a]
    cases a.msb
    · simp
    · rw [if_pos rfl, if_pos rfl, hneg]
      omega
  have hq : (a.toInt.tdiv b.toInt) = (a.sdiv b).toInt := by
    rw [BitVec.toInt_sdiv_of_ne_or_ne]
    by_contra h
    rw [not_or, not_not, not_not] at h
    exact hover h
  have hr : (a.toInt.tmod b.toInt) = (a.srem b).toInt := BitVec.toInt_srem a b |>.symm
  have hlo := BitVec.le_toInt (a.sdiv b)
  have hhi := BitVec.toInt_lt (x := a.sdiv b)
  rw [idiv, hn, if_neg hb, hq, hr, if_pos ⟨hlo, hhi⟩, BitVec.ofInt_toInt, BitVec.ofInt_toInt]

end Jaek
