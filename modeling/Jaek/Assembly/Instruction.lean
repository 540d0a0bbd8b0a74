import Jaek.Lowered.OpType

/-!
# Abstract and x86 instructions

Registers, operands and instructions of `assembly/x86`, with the register sets `use`, `def` and
`involved` of each instruction. The sets are lists in the order in which the source builds them.

A number in an instruction is a Kotlin `Long`, here a `Word`. The memory operand and the label of a
`LEA`, a jump or a call stand without the wrapper classes `MemorySrc`, `Location` and `Label`.
-/

namespace Jaek

/-- The machine registers. -/
inductive x86Name
  | RAX | RBX | RCX | RDX | RSP | RBP | RDI | RSI | R8 | R9 | R10 | R11 | R12 | R13 | R14 | R15
deriving DecidableEq, Repr

/-- A register with its size in bits. -/
inductive Register
  | abstract (name : String) (size : ℕ := 64)
  | x86 (name : x86Name) (size : ℕ := 64)
deriving DecidableEq, Repr

open x86Name

/-- The registers a callee has to restore. -/
def Register.calleeSaved : List Register :=
  [x86 RBX, x86 R12, x86 R13, x86 R14, x86 R15]

/-- The registers a call may change. -/
def Register.callerSaved : List Register :=
  [x86 RAX, x86 RCX, x86 RDX, x86 RDI, x86 RSI, x86 R8, x86 R9, x86 R10, x86 R11]

def Register.isAbstract : Register → Bool
  | abstract _ _ => true
  | x86 _ _ => false

/-- The factor of an index register. -/
inductive Shift
  | ONE | TWO | FOUR | EIGHT
deriving DecidableEq, Repr

/-- A memory operand. -/
inductive Memory
  | registerMem (base index : Option Register) (offset : Word) (shift : Shift)
  | labelMem (label : String)
deriving DecidableEq, Repr

inductive Destination
  | memoryDest (m : Memory)
  | registerDest (r : Register)
deriving DecidableEq, Repr

inductive Source
  | memorySrc (m : Memory)
  | registerSrc (r : Register)
  | constSrc (c : Word)
deriving DecidableEq, Repr

/-- The arithmetic instructions on a destination and a source. -/
inductive Arith
  | ADD | SUB | MUL
deriving DecidableEq, Repr

inductive Logic
  | AND | OR | XOR | SHL | SHR | SAR
deriving DecidableEq, Repr

/-- The instructions that set a byte from the flags. -/
inductive JumpSet
  | SETZ | SETNZ | SETL | SETLE | SETB | SETG | SETGE
deriving DecidableEq, Repr

inductive Jump
  | JMP | JE | JNE | JL | JLE | JG | JGE | JB | JZ | JNZ
deriving DecidableEq, Repr

inductive Instruction
  | COMMENT (str : String)
  | MOV (dest : Destination) (src : Source)
  | arith (op : Arith) (dest : Destination) (src : Source)
  | LEA (dest : Destination) (src : Memory)
  | INC (dest : Destination)
  | DEC (dest : Destination)
  | logic (op : Logic) (dest : Destination) (src : Source)
  | CMP (dest : Destination) (src : Source)
  | TEST (reg1 reg2 : Register)
  | jumpSet (op : JumpSet) (reg : Register)
  | jump (op : Jump) (loc : String)
  | CQO
  | PUSH (arg : Register)
  | PAD
  | CALLERSAVEPUSH
  | CALLERSAVEPOP
  | POP (dest : Register)
  | CALL (label : String)
  | ENTER (bytes : Word)
  | LEAVE
  | RET
  | NOP
  | DIV (divisor : Register)
  | IMULSingle (factor : Register)
  | label (name : String) (isTopLevel : Bool)

/-! ## Register sets -/

def Memory.involved : Memory → List Register
  | registerMem base index _ _ => base.toList ++ index.toList
  | labelMem _ => []

def Destination.use : Destination → List Register
  | memoryDest m => m.involved
  | registerDest r => [r]

def Destination.def : Destination → List Register
  | memoryDest _ => []
  | registerDest r => [r]

def Source.use : Source → List Register
  | memorySrc m => m.involved
  | registerSrc r => [r]
  | constSrc _ => []

namespace Instruction

/-- The registers whose values an instruction reads. -/
def use : Instruction → List Register
  | MOV (.memoryDest m) src => src.use ++ m.involved
  | MOV (.registerDest _) src => src.use
  | arith _ dest src => dest.use ++ src.use
  | LEA dest src => dest.use ++ src.involved
  | INC dest => dest.use
  | DEC dest => dest.use
  | logic _ dest src => dest.use ++ src.use
  | CMP dest src => dest.use ++ src.use
  | TEST reg1 reg2 => [reg1, reg2]
  | CQO => [.x86 RAX]
  | PUSH arg => [arg, .x86 RSP]
  | PAD => [.x86 RSP]
  | POP _ => [.x86 RSP]
  | CALL _ => [.x86 RSP, .x86 RDI, .x86 RSI, .x86 RDX, .x86 RCX, .x86 R8, .x86 R9]
  | ENTER _ => [.x86 RSP, .x86 RBP]
  | LEAVE => [.x86 RSP, .x86 RBP]
  | RET => [.x86 RSP, .x86 RBX, .x86 R12, .x86 R13, .x86 R14, .x86 R15, .x86 RAX, .x86 RDX]
  | DIV divisor => [divisor, .x86 RAX]
  | IMULSingle factor => [factor, .x86 RAX]
  | COMMENT _ | jumpSet _ _ | jump _ _ | CALLERSAVEPUSH | CALLERSAVEPOP | NOP | label _ _ => []

/-- The registers an instruction writes. -/
def «def» : Instruction → List Register
  | MOV dest _ => dest.def
  | arith _ dest _ => dest.def
  | LEA dest _ => dest.def
  | INC dest => dest.def
  | DEC dest => dest.def
  | logic _ dest _ => dest.def
  | jumpSet _ reg => [reg]
  | CQO => [.x86 RDX, .x86 RAX]
  | PUSH _ => [.x86 RSP]
  | PAD => [.x86 RSP]
  | POP dest => [dest, .x86 RSP]
  | CALL _ => [.x86 RSP, .x86 RAX, .x86 RCX, .x86 RDX, .x86 RDI, .x86 RSI, .x86 R8, .x86 R9,
      .x86 R10, .x86 R11]
  | ENTER _ => [.x86 RSP, .x86 RBP]
  | LEAVE => [.x86 RSP, .x86 RBP]
  | RET => [.x86 RSP]
  | DIV _ => [.x86 RAX, .x86 RDX]
  | IMULSingle _ => [.x86 RAX, .x86 RDX]
  | COMMENT _ | CMP _ _ | TEST _ _ | jump _ _ | CALLERSAVEPUSH | CALLERSAVEPOP | NOP
  | label _ _ => []

/-- The abstract registers an instruction mentions. -/
def involved (insn : Instruction) : List Register :=
  (match insn with
    | MOV dest src => dest.use ++ src.use
    | arith _ dest src => dest.use ++ src.use
    | LEA dest src => dest.use ++ src.involved
    | INC dest => dest.use
    | DEC dest => dest.use
    | logic _ dest src => dest.use ++ src.use
    | CMP dest src => dest.use ++ src.use
    | TEST reg1 reg2 => [reg1, reg2]
    | jumpSet _ reg => [reg]
    | PUSH arg => [arg]
    | POP dest => [dest]
    | DIV divisor => [divisor]
    | IMULSingle factor => [factor]
    | COMMENT _ | jump _ _ | CQO | PAD | CALLERSAVEPUSH | CALLERSAVEPOP | CALL _ | ENTER _ | LEAVE
    | RET | NOP | label _ _ => []).filter Register.isAbstract

end Instruction

end Jaek
