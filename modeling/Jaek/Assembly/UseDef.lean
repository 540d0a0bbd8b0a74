import Jaek.Assembly.Machine
import Jaek.Assembly.LVA.LiveVariableAnalysis

/-!
# Which instructions declare what they read and write

Liveness and register allocation look at an instruction through `use` and `def` only. `step` is every
instruction as one transition: `exec` where the operands are full registers, `execByte` where the
destination is the low byte of a register, and a call with what the System V convention lets it see and
change. `Footprint` says that a transition reads nothing outside a list of registers, apart from memory
and flags, and writes the registers of another.

`footprint_step_iff` has the instructions whose lists are right: all but the `SETcc`, which keep the upper
bytes of a register they do not list as used, byte moves, for the same reason, and `DIV`, which reads `RDX`.
-/

namespace Jaek

open x86Name

/-! ## Byte operands -/

/-- The printed name of a register whose size is not 64 is that of its low byte. -/
def Register.isByte : Register → Bool
  | .abstract _ size => size ≠ 64
  | .x86 _ size => size ≠ 64

namespace Flags

/-- The flags of a subtraction of bytes. -/
def byteSub (a b : BitVec 8) : Flags where
  ZF := a = b
  SF := (a - b).msb
  OF := a.msb ≠ b.msb ∧ (a - b).msb ≠ a.msb
  CF := a.ult b

/-- The flags of an addition of bytes. -/
def byteAdd (a b : BitVec 8) : Flags where
  ZF := a + b = 0
  SF := (a + b).msb
  OF := a.msb = b.msb ∧ (a + b).msb ≠ a.msb
  CF := (a + b).ult a

/-- The flags of a logical operation on bytes. -/
def byteLogic (r : BitVec 8) : Flags where
  ZF := r = 0
  SF := r.msb
  OF := false
  CF := false

/-- The flags of a shift of a byte, with the bit that is shifted out. -/
def byteShift (r : BitVec 8) (out : Bool) (f : Flags) : Flags :=
  { f with ZF := r = 0, SF := r.msb, CF := out }

end Flags

namespace State

/-- The low byte of a register. -/
def low (s : State) (r : Register) : BitVec 8 := (s.value r).setWidth 8

/-- Write the low byte of a register, which keeps the others. -/
def setByte (s : State) (r : Register) (b : BitVec 8) : State :=
  s.set r ((s.value r &&& 0xFFFFFFFFFFFFFF00) ||| b.setWidth 64)

/-- Write the low two bytes of `RAX`. -/
def setAX (s : State) (v : BitVec 16) : State :=
  s.set (.x86 RAX) ((s.phys RAX &&& 0xFFFFFFFFFFFF0000) ||| v.setWidth 64)

end State

/-- There is no two-operand multiplication of bytes. -/
def Arith.evalByte (op : Arith) (a b : BitVec 8) : Option (BitVec 8 × Flags) :=
  match op with
  | ADD => some (a + b, .byteAdd a b)
  | SUB => some (a - b, .byteSub a b)
  | MUL => none

/-- A logical operation on bytes, and its flags. -/
def Logic.evalByte (op : Logic) (a b : BitVec 8) (f : Flags) : BitVec 8 × Flags :=
  let n := b.toNat % 32
  match op with
  | AND => (a &&& b, .byteLogic (a &&& b))
  | OR => (a ||| b, .byteLogic (a ||| b))
  | XOR => (a ^^^ b, .byteLogic (a ^^^ b))
  | SHL => (a <<< n, if n = 0 then f else .byteShift (a <<< n) (a.getLsbD (8 - n)) f)
  | SHR => (a >>> n, if n = 0 then f else .byteShift (a >>> n) (a.getLsbD (n - 1)) f)
  | SAR => (a.sshiftRight n,
      if n = 0 then f else .byteShift (a.sshiftRight n) (a.getLsbD (n - 1)) f)

/-- Divide `AX`: the quotient goes to its low byte and the remainder to the byte above. -/
def idivByte (ax : BitVec 16) (divisor : BitVec 8) : Option (BitVec 16) :=
  let q := ax.toInt.tdiv divisor.toInt
  if divisor = 0 then none
  else if -2 ^ 7 ≤ q ∧ q < 2 ^ 7 then
    some (BitVec.ofInt 8 (ax.toInt.tmod divisor.toInt) ++ BitVec.ofInt 8 q)
  else none

/-- The instruction writes, or compares, the low byte of a register. -/
def Instruction.isByte : Instruction → Bool
  | MOV (.registerDest r) _ | arith _ (.registerDest r) _ | LEA (.registerDest r) _
  | INC (.registerDest r) | DEC (.registerDest r) | logic _ (.registerDest r) _
  | CMP (.registerDest r) _ | TEST r _ | PUSH r | POP r | DIV r | IMULSingle r => r.isByte
  | _ => false

/-- The instructions on bytes; `none` is a fault, or an instruction that has no such form. -/
def execByte (L : String → Word) (insn : Instruction) (s : State) : Option State :=
  match insn with
  | .MOV (.registerDest r) src => some (s.setByte r ((s.source L src).setWidth 8))
  | .arith op (.registerDest r) src =>
    (op.evalByte (s.low r) ((s.source L src).setWidth 8)).map fun p => (s.setByte r p.1).setFlags p.2
  | .INC (.registerDest r) =>
    some ((s.setByte r (s.low r + 1)).setFlags { Flags.byteAdd (s.low r) 1 with CF := s.flags.CF })
  | .DEC (.registerDest r) =>
    some ((s.setByte r (s.low r - 1)).setFlags { Flags.byteSub (s.low r) 1 with CF := s.flags.CF })
  | .logic op (.registerDest r) src =>
    let p := op.evalByte (s.low r) ((s.source L src).setWidth 8) s.flags
    some ((s.setByte r p.1).setFlags p.2)
  | .CMP (.registerDest r) src => some (s.setFlags (.byteSub (s.low r) ((s.source L src).setWidth 8)))
  | .TEST reg1 reg2 => some (s.setFlags (.byteLogic (s.low reg1 &&& s.low reg2)))
  | .DIV divisor => (idivByte ((s.phys RAX).setWidth 16) (s.low divisor)).map s.setAX
  | .IMULSingle factor =>
    let a := (s.phys RAX).setWidth 8
    let p := (a.signExtend 16 * (s.low factor).signExtend 16 : BitVec 16)
    let wide : Bool := p ≠ (p.setWidth 8).signExtend 16
    some ((s.setAX p).setFlags { s.flags with OF := wide, CF := wide })
  | _ => none

/-! ## All instructions -/

/-- What the convention passes to a callee: memory, the stack pointer and the argument registers. -/
structure Passed where
  mem : Bytes
  flags : Flags
  rsp : Word
  args : List Word

/-- What it leaves behind. The registers it has to restore are not among these. -/
structure Returned where
  mem : Bytes
  flags : Flags
  regs : Register → Word

/-- The registers of the first six arguments. -/
def argRegs : List x86Name := [RDI, RSI, RDX, RCX, R8, R9]

/-- A call under the System V convention. The callee pops its return address. -/
def State.call (callee : String → Passed → Option Returned) (label : String) (s : State) :
    Option State :=
  (callee label ⟨s.mem, s.flags, s.phys RSP, argRegs.map s.phys⟩).map fun ret =>
    { Register.callerSaved.foldl (fun s r => s.set r (ret.regs r)) s with
      mem := ret.mem
      flags := ret.flags }

/-- What an instruction does to registers, memory and flags. The placeholders of saved registers are no
instructions of the machine. -/
def step (callee : String → Passed → Option Returned) (L : String → Word) (insn : Instruction)
    (s : State) : Option State :=
  match insn with
  | .jump _ _ => some s
  | .RET => some s.pop.2
  | .CALL label => s.call callee label
  | .CALLERSAVEPUSH | .CALLERSAVEPOP => none
  | insn => if insn.isByte then execByte L insn s else exec L insn s

/-- The two states have the same memory, flags and values of some registers. -/
structure Agree (use : List Register) (s s' : State) : Prop where
  mem : s.mem = s'.mem
  flags : s.flags = s'.flags
  value : ∀ r ∈ use, s.value r = s'.value r

/-- From states that agree on `use` the transition writes the same memory and the same values of `def`; it
changes no other register. -/
structure Footprint (use «def» : List Register) (f : State → Option State) : Prop where
  equal : ∀ s s' t, Agree use s s' → f s = some t → ∃ t', f s' = some t' ∧ t.mem = t'.mem ∧
    ∀ r, r.regName ∈ names «def» → t.value r = t'.value r
  frame : ∀ s t, f s = some t → ∀ r, r.regName ∉ names «def» → t.value r = s.value r

/-- The instructions that list as used every register whose value, or part of it, stays in a register
they define or goes into one. -/
def Instruction.Declared : Instruction → Prop
  | jumpSet _ _ => False
  | DIV divisor => divisor.regName = .x86 RDX
  | IMULSingle factor => factor.isByte → factor.regName = .x86 RDX
  | MOV (.registerDest r) src => r.isByte → r.regName ∈ names src.use
  | _ => True

/-! ## Footprints from effects -/

/-- What a transition writes: registers in order, memory and flags. -/
structure Effect where
  regs : List (Register × Word)
  mem : Bytes
  flags : Flags

/-- What an effect leaves behind. -/
def Effect.apply (e : Effect) (s : State) : State :=
  { e.regs.foldl (fun s w => s.set w.1 w.2) s with
    mem := e.mem
    flags := e.flags }

/-- A write changes the registers of the same name, of any size. -/
theorem State.value_set (s : State) (r r' : Register) (v : Word) :
    (s.set r v).value r' = if r'.regName = r.regName then v else s.value r' := by
  cases r <;> cases r' <;> simp [set, value, Register.regName, Function.update_apply]

/-- Registers of one name have one value. -/
theorem value_eq_of_regName {r r' : Register} (h : r.regName = r'.regName) (s : State) :
    s.value r = s.value r' := by
  cases r <;> cases r' <;> simp_all [Register.regName, State.value]

/-- More registers have more names. -/
theorem names_subset {rs rs' : List Register} (h : rs ⊆ rs') : names rs ⊆ names rs' :=
  fun _ hn => List.mem_toFinset.mpr (List.map_subset _ h (List.mem_toFinset.mp hn))

/-- A register that is used has the same value in states that agree. -/
theorem Agree.value_eq {use : List Register} {s s' : State} (h : Agree use s s') {r : Register}
    (hr : r.regName ∈ names use) : s.value r = s'.value r := by
  obtain ⟨r', hr', hname⟩ := mem_names.mp hr
  rw [← value_eq_of_regName hname s, ← value_eq_of_regName hname s', h.value r' hr']

namespace Effect

variable {e : Effect} {s s' : State} {r : Register}

/-- A register that is not written keeps its value. -/
theorem value_apply (hr : r.regName ∉ names (e.regs.map Prod.fst)) :
    (e.apply s).value r = s.value r := by
  have hfold : ∀ (ws : List (Register × Word)) (s : State), r.regName ∉ names (ws.map Prod.fst) →
      (ws.foldl (fun s w => s.set w.1 w.2) s).value r = s.value r := by
    intro ws
    induction ws with
    | nil => exact fun _ _ => rfl
    | cons w ws ih =>
      intro s hr
      simp only [names, List.map_cons, List.toFinset_cons, Finset.mem_insert, not_or] at hr
      rw [List.foldl_cons, ih _ hr.2, State.value_set, if_neg hr.1]
  exact hfold e.regs s hr

/-- A register that is written, or has one value in both states, has one value after the effect. -/
theorem value_apply_congr (hr : r.regName ∈ names (e.regs.map Prod.fst) ∨ s.value r = s'.value r) :
    (e.apply s).value r = (e.apply s').value r := by
  have hfold : ∀ (ws : List (Register × Word)) (s s' : State),
      r.regName ∈ names (ws.map Prod.fst) ∨ s.value r = s'.value r →
      (ws.foldl (fun s w => s.set w.1 w.2) s).value r =
        (ws.foldl (fun s w => s.set w.1 w.2) s').value r := by
    intro ws
    induction ws with
    | nil => exact fun s s' h => h.resolve_left (by simp [names])
    | cons w ws ih =>
      intro s s' h
      simp only [names, List.map_cons, List.toFinset_cons, Finset.mem_insert] at h
      rw [List.foldl_cons, List.foldl_cons]
      apply ih
      rw [State.value_set, State.value_set]
      split_ifs with hw
      · exact .inr rfl
      · rcases h with (h | h) | h
        · exact absurd h hw
        · exact .inl h
        · exact .inr h
  exact hfold e.regs s s' hr

end Effect

/-- A transition whose effect depends only on `use` and is on the registers `regs`: these are in `def`, and
have those of `def` that are not in `use`. -/
theorem Footprint.of_effect {use «def» : List Register} {f : State → Option State} (regs : List Register)
    (effect : State → Option Effect) (hf : ∀ s, f s = (effect s).map (·.apply s))
    (hagree : ∀ s s', Agree use s s' → effect s = effect s')
    (hregs : ∀ s e, effect s = some e → e.regs.map Prod.fst = regs)
    (hdef : names regs ⊆ names «def») (hcover : names «def» ⊆ names regs ∪ names use) :
    Footprint use «def» f := by
  constructor
  · intro s s' t h hs
    rw [hf, Option.map_eq_some_iff] at hs
    obtain ⟨e, he, rfl⟩ := hs
    refine ⟨e.apply s', ?_, rfl, fun r hr => ?_⟩
    · rw [hf, ← hagree s s' h, he]
      rfl
    · apply Effect.value_apply_congr
      rw [hregs s e he]
      rcases Finset.mem_union.mp (hcover hr) with hr | hr
      · exact .inl hr
      · exact .inr (h.value_eq hr)
  · intro s t hs r hr
    rw [hf, Option.map_eq_some_iff] at hs
    obtain ⟨e, he, rfl⟩ := hs
    apply Effect.value_apply
    rw [hregs s e he]
    exact fun hmem => hr (hdef hmem)

section Operands

variable {L : String → Word} {use : List Register} {s s' : State}

/-- So has an address over such registers. -/
theorem Agree.address (h : Agree use s s') {m : Memory} (hm : m.involved ⊆ use) :
    s.address L m = s'.address L m := by
  cases m with
  | labelMem => rfl
  | registerMem base index offset shift =>
    have hbase : base.elim 0 s.value = base.elim 0 s'.value := by
      cases base with
      | none => rfl
      | some r => exact h.value r (hm (by simp [Memory.involved]))
    have hindex : index.elim 0 s.value = index.elim 0 s'.value := by
      cases index with
      | none => rfl
      | some r => exact h.value r (hm (by simp [Memory.involved]))
    simp only [State.address, hbase, hindex]

/-- So has a source. -/
theorem Agree.source (h : Agree use s s') {src : Source} (hsrc : src.use ⊆ use) :
    s.source L src = s'.source L src := by
  cases src with
  | memorySrc m => rw [State.source, State.source, h.mem, h.address hsrc]
  | registerSrc r => exact h.value r (hsrc (List.mem_singleton_self r))
  | constSrc c => rfl

/-- So has what a destination holds. -/
theorem Agree.read (h : Agree use s s') {dest : Destination} (hdest : dest.use ⊆ use) :
    s.read L dest = s'.read L dest := by
  cases dest with
  | memoryDest m => rw [State.read, State.read, h.mem, h.address hdest]
  | registerDest r => exact h.value r (hdest (List.mem_singleton_self r))

/-- Writing a value, and flags, that depend on `use` only. -/
theorem Footprint.write {dest : Destination} {f : State → Option State} (v : State → Word)
    (flags : State → Flags) (hf : ∀ s, f s = some ((s.write L dest (v s)).setFlags (flags s)))
    (hv : ∀ s s', Agree use s s' → v s = v s') (hflags : ∀ s s', Agree use s s' → flags s = flags s')
    (hdest : ∀ m, dest = .memoryDest m → m.involved ⊆ use) : Footprint use dest.def f := by
  cases dest with
  | memoryDest m =>
    refine .of_effect [] (fun s => some ⟨[], s.mem.store (s.address L m) (v s), flags s⟩) hf ?_
      (by rintro s e ⟨⟩; rfl) (Finset.empty_subset _) (Finset.empty_subset _)
    intro s s' h
    rw [h.mem, h.address (hdest m rfl), hv s s' h, hflags s s' h]
  | registerDest r =>
    refine .of_effect [r] (fun s => some ⟨[(r, v s)], s.mem, flags s⟩) (fun s => (hf s).trans ?_) ?_
      (by rintro s e ⟨⟩; rfl) subset_rfl Finset.subset_union_left
    · cases r <;> rfl
    · intro s s' h
      rw [h.mem, hv s s' h, hflags s s' h]

end Operands

/-! ## The instructions -/

section Instructions

variable {callee : String → Passed → Option Returned} {L : String → Word}

/-- A write leaves the flags alone. -/
theorem State.setFlags_write (s : State) (dest : Destination) (v : Word) :
    (s.write L dest v).setFlags s.flags = s.write L dest v := by
  rcases dest with m | ⟨⟨⟩⟩ <;> rfl

/-- An instruction that always traps. -/
theorem Footprint.none {use «def» : List Register} : Footprint use «def» fun _ => none :=
  .of_effect «def» (fun _ => .none) (fun _ => rfl) (fun _ _ _ => rfl) (fun _ _ h => nomatch h) subset_rfl
    Finset.subset_union_left

/-- An instruction that does nothing. -/
theorem Footprint.some {use : List Register} : Footprint use [] fun s => some s :=
  .of_effect [] (fun s => .some ⟨[], s.mem, s.flags⟩) (fun _ => rfl) (fun s s' h => by rw [h.mem, h.flags])
    (by rintro s e ⟨⟩; rfl) subset_rfl Finset.subset_union_left

/-- An instruction that sets the flags from what it uses. -/
theorem Footprint.setFlags {use : List Register} {f : State → Option State} (flags : State → Flags)
    (hf : ∀ s, f s = Option.some (s.setFlags (flags s)))
    (hflags : ∀ s s', Agree use s s' → flags s = flags s') : Footprint use [] f :=
  .of_effect [] (fun s => .some ⟨[], s.mem, flags s⟩) hf (fun s s' h => by rw [h.mem, hflags s s' h])
    (by rintro s e ⟨⟩; rfl) subset_rfl Finset.subset_union_left

/-- Instructions with full operands, the `SETcc` and `DIV` apart. -/
theorem footprint_exec {insn : Instruction} (hset : ∀ op reg, insn ≠ .jumpSet op reg)
    (hdiv : ∀ r, insn = .DIV r → r.regName = .x86 RDX) :
    Footprint insn.use insn.def (exec L insn) := by
  cases insn with
  | COMMENT | NOP | label => exact .some
  | jump | CALL | RET | CALLERSAVEPUSH | CALLERSAVEPOP => exact .none
  | jumpSet op reg => exact absurd rfl (hset op reg)
  | MOV dest src =>
    have hsrc : src.use ⊆ (Instruction.MOV dest src).use := by
      cases dest <;> simp [Instruction.use]
    refine .write (L := L) (fun s => s.source L src) State.flags (fun s => ?_)
      (fun s s' h => h.source hsrc) (fun s s' h => h.flags) ?_
    · rw [exec, State.setFlags_write]
    · rintro m rfl
      simp [Instruction.use]
  | arith op dest src =>
    have heval : ∀ s s', Agree (dest.use ++ src.use) s s' →
        op.eval (s.read L dest) (s.source L src) s.flags =
          op.eval (s'.read L dest) (s'.source L src) s'.flags := by
      intro s s' h
      rw [h.read (List.subset_append_left _ _), h.source (List.subset_append_right _ _), h.flags]
    refine .write (L := L) _ _ (fun s => rfl) (fun s s' h => by rw [heval s s' h])
      (fun s s' h => by rw [heval s s' h]) ?_
    rintro m rfl
    exact List.subset_append_left _ _
  | logic op dest src =>
    have heval : ∀ s s', Agree (dest.use ++ src.use) s s' →
        op.eval (s.read L dest) (s.source L src) s.flags =
          op.eval (s'.read L dest) (s'.source L src) s'.flags := by
      intro s s' h
      rw [h.read (List.subset_append_left _ _), h.source (List.subset_append_right _ _), h.flags]
    refine .write (L := L) _ _ (fun s => rfl) (fun s s' h => by rw [heval s s' h])
      (fun s s' h => by rw [heval s s' h]) ?_
    rintro m rfl
    exact List.subset_append_left _ _
  | LEA dest src =>
    refine .write (L := L) (fun s => s.address L src) State.flags (fun s => ?_)
      (fun s s' h => h.address (List.subset_append_right _ _)) (fun s s' h => h.flags) ?_
    · rw [exec, State.setFlags_write]
    · rintro m rfl
      exact List.subset_append_left _ _
  | INC dest =>
    have hread : ∀ s s', Agree dest.use s s' → s.read L dest = s'.read L dest :=
      fun s s' h => h.read (List.Subset.refl _)
    refine .write (L := L) _ _ (fun s => rfl) (fun s s' h => by rw [hread s s' h])
      (fun s s' h => by rw [hread s s' h, h.flags]) ?_
    rintro m rfl
    exact List.Subset.refl _
  | DEC dest =>
    have hread : ∀ s s', Agree dest.use s s' → s.read L dest = s'.read L dest :=
      fun s s' h => h.read (List.Subset.refl _)
    refine .write (L := L) _ _ (fun s => rfl) (fun s s' h => by rw [hread s s' h])
      (fun s s' h => by rw [hread s s' h, h.flags]) ?_
    rintro m rfl
    exact List.Subset.refl _
  | CMP dest src =>
    refine .setFlags _ (fun s => rfl) fun s s' h => ?_
    rw [h.read (List.subset_append_left _ _), h.source (List.subset_append_right _ _)]
  | TEST reg1 reg2 =>
    refine .setFlags _ (fun s => rfl) fun s s' h => ?_
    rw [h.value reg1 (by simp [Instruction.use]), h.value reg2 (by simp [Instruction.use])]
  | CQO =>
    refine .of_effect [.x86 RDX]
      (fun s => some ⟨[(.x86 RDX, if (s.phys RAX).msb then -1 else 0)], s.mem, s.flags⟩)
      (fun s => rfl) ?_ (by rintro s e ⟨⟩; rfl) (by decide) (by decide)
    intro s s' h
    have hrax : s.phys RAX = s'.phys RAX := h.value (.x86 RAX) (by simp [Instruction.use])
    rw [h.mem, h.flags, hrax]
  | PUSH arg =>
    refine .of_effect [.x86 RSP] (fun s => some ⟨[(.x86 RSP, s.phys RSP - 8)],
      s.mem.store (s.phys RSP - 8) (s.value arg), s.flags⟩) (fun s => ?_) ?_
      (by rintro s e ⟨⟩; rfl) subset_rfl Finset.subset_union_left
    · simp [exec, State.push, Effect.apply, State.set]
    · intro s s' h
      have hrsp : s.phys RSP = s'.phys RSP := h.value (.x86 RSP) (by simp [Instruction.use])
      rw [h.mem, h.flags, hrsp, h.value arg (by simp [Instruction.use])]
  | PAD =>
    refine .of_effect [.x86 RSP] (fun s => some ⟨[(.x86 RSP, s.phys RSP - 8)],
      s.mem.store (s.phys RSP - 8) 204, s.flags⟩) (fun s => ?_) ?_
      (by rintro s e ⟨⟩; rfl) (by decide) (by decide)
    · simp [exec, State.push, Effect.apply, State.set]
    · intro s s' h
      have hrsp : s.phys RSP = s'.phys RSP := h.value (.x86 RSP) (by simp [Instruction.use])
      rw [h.mem, h.flags, hrsp]
  | POP dest =>
    refine .of_effect [.x86 RSP, dest] (fun s => some ⟨[(.x86 RSP, s.phys RSP + 8),
      (dest, s.mem.load (s.phys RSP))], s.mem, s.flags⟩) (fun s => ?_) ?_
      (by rintro s e ⟨⟩; rfl) (names_subset (by simp [Instruction.def]))
      ((names_subset (by simp [Instruction.def])).trans Finset.subset_union_left)
    · cases dest <;> rfl
    · intro s s' h
      have hrsp : s.phys RSP = s'.phys RSP := h.value (.x86 RSP) (by simp [Instruction.use])
      rw [h.mem, h.flags, hrsp]
  | ENTER bytes =>
    refine .of_effect [.x86 RSP, .x86 RBP, .x86 RSP] (fun s => if bytes.toNat < 2 ^ 16 then
      some ⟨[(.x86 RSP, s.phys RSP - 8), (.x86 RBP, s.phys RSP - 8), (.x86 RSP, s.phys RSP - 8 - bytes)],
        s.mem.store (s.phys RSP - 8) (s.phys RBP), s.flags⟩ else none)
      (fun s => ?_) ?_ ?_ (names_subset (by simp [Instruction.def]))
      ((names_subset (by simp [Instruction.def])).trans Finset.subset_union_left)
    · rw [exec]
      split_ifs
      · simp [State.push, Effect.apply, State.set]
      · rfl
    · intro s s' h
      have hrsp : s.phys RSP = s'.phys RSP := h.value (.x86 RSP) (by simp [Instruction.use])
      have hrbp : s.phys RBP = s'.phys RBP := h.value (.x86 RBP) (by simp [Instruction.use])
      rw [h.mem, h.flags, hrsp, hrbp]
    · intro s e he
      split_ifs at he
      cases he
      rfl
  | LEAVE =>
    refine .of_effect [.x86 RSP, .x86 RBP] (fun s => some ⟨[(.x86 RSP, s.phys RBP + 8),
      (.x86 RBP, s.mem.load (s.phys RBP))], s.mem, s.flags⟩)
      (fun s => ?_) ?_ (by rintro s e ⟨⟩; rfl) (by decide) ?_
    · simp [exec, State.pop, Effect.apply, State.set]
    · intro s s' h
      have hrbp : s.phys RBP = s'.phys RBP := h.value (.x86 RBP) (by simp [Instruction.use])
      rw [h.mem, h.flags, hrbp]
    · decide
  | DIV divisor =>
    refine .of_effect [.x86 RAX, .x86 RDX] (fun s => (idiv (s.phys RDX) (s.phys RAX) (s.value divisor)).map
      fun p => ⟨[(.x86 RAX, p.1), (.x86 RDX, p.2)], s.mem, s.flags⟩) (fun s => ?_) ?_ ?_
      subset_rfl Finset.subset_union_left
    · rw [exec]
      cases idiv (s.phys RDX) (s.phys RAX) (s.value divisor) <;> rfl
    · intro s s' h
      have hrax : s.phys RAX = s'.phys RAX := h.value (.x86 RAX) (by simp [Instruction.use])
      have hdivisor := h.value divisor (by simp [Instruction.use])
      -- the divisor is `RDX` itself, the one case in which it is listed
      have hrdx : s.phys RDX = s'.phys RDX := by
        have hname : divisor.regName = (Register.x86 RDX).regName := hdiv divisor rfl
        exact h.value_eq (r := .x86 RDX) (mem_names.mpr ⟨divisor, by simp [Instruction.use], hname⟩)
      rw [h.mem, h.flags, hrax, hrdx, hdivisor]
    · rintro s e he
      obtain ⟨p, -, rfl⟩ := Option.map_eq_some_iff.mp he
      rfl
  | IMULSingle factor =>
    refine .of_effect [.x86 RAX, .x86 RDX] (fun s => some ⟨[(.x86 RAX, s.phys RAX * s.value factor),
      (.x86 RDX, highMul (s.phys RAX) (s.value factor))], s.mem,
      .mul (s.phys RAX) (s.value factor) s.flags⟩) (fun s => rfl) ?_ (by rintro s e ⟨⟩; rfl)
      subset_rfl Finset.subset_union_left
    intro s s' h
    have hrax : s.phys RAX = s'.phys RAX := h.value (.x86 RAX) (by simp [Instruction.use])
    rw [h.mem, h.flags, hrax, h.value factor (by simp [Instruction.use])]

/-- Writing the low byte of a register that is in `use`. -/
theorem Footprint.writeByte {use : List Register} {f : State → Option State} {r : Register}
    (b : State → Option (BitVec 8 × Flags))
    (hf : ∀ s, f s = (b s).map fun p => (s.setByte r p.1).setFlags p.2)
    (hb : ∀ s s', Agree use s s' → b s = b s') (hr : r.regName ∈ names use) : Footprint use [r] f := by
  refine .of_effect [r] (fun s => (b s).map fun p =>
    ⟨[(r, (s.value r &&& 0xFFFFFFFFFFFFFF00) ||| p.1.setWidth 64)], s.mem, p.2⟩) (fun s => ?_) ?_ ?_
    subset_rfl Finset.subset_union_left
  · rw [hf, Option.map_map]
    cases r <;> rfl
  · intro s s' h
    rw [hb s s' h, h.mem, h.value_eq hr]
  · rintro s e he
    obtain ⟨p, -, rfl⟩ := Option.map_eq_some_iff.mp he
    rfl

/-- Where `RDX` is an operand, an instruction that writes the low bytes of `RAX` only may list both. -/
theorem Footprint.writeAX {use : List Register} {f : State → Option State}
    (v : State → Option (BitVec 16 × Flags))
    (hf : ∀ s, f s = (v s).map fun p => (s.setAX p.1).setFlags p.2)
    (hv : ∀ s s', Agree use s s' → v s = v s') (hrax : .x86 RAX ∈ names use) (hrdx : .x86 RDX ∈ names use) :
    Footprint use [.x86 RAX, .x86 RDX] f := by
  refine .of_effect [.x86 RAX] (fun s => (v s).map fun p =>
    ⟨[(.x86 RAX, (s.phys RAX &&& 0xFFFFFFFFFFFF0000) ||| p.1.setWidth 64)], s.mem, p.2⟩)
    (fun s => ?_) ?_ ?_ (names_subset (by simp)) ?_
  · rw [hf, Option.map_map]
    rfl
  · intro s s' h
    have hphys : s.phys RAX = s'.phys RAX := h.value_eq (r := .x86 RAX) hrax
    rw [hv s s' h, h.mem, hphys]
  · rintro s e he
    obtain ⟨p, -, rfl⟩ := Option.map_eq_some_iff.mp he
    rfl
  · refine Finset.Subset.trans ?_ Finset.subset_union_right
    simpa [names, Finset.insert_subset_iff, Register.regName] using
      ⟨mem_names.mp hrax, mem_names.mp hrdx⟩

/-- The low bytes of a register that is used agree. -/
theorem Agree.low {use : List Register} {s s' : State} (h : Agree use s s') {r : Register}
    (hr : r ∈ use) : s.low r = s'.low r := by
  rw [State.low, State.low, h.value r hr]

/-- Instructions with byte operands. -/
theorem footprint_execByte {insn : Instruction} (hinsn : insn.Declared) (hbyte : insn.isByte) :
    Footprint insn.use insn.def (execByte L insn) := by
  have hself : ∀ (r : Register) (rs : List Register), r.regName ∈ names (r :: rs) :=
    fun r rs => mem_names.mpr ⟨r, List.mem_cons_self, rfl⟩
  -- Only destinations in registers can be bytes; the others are not byte instructions, or always trap.
  cases insn with
  | COMMENT | jumpSet | jump | CQO | PAD | CALLERSAVEPUSH | CALLERSAVEPOP | CALL | ENTER | LEAVE | RET
  | NOP | label => simp [Instruction.isByte] at hbyte
  | PUSH | POP => exact .none
  | LEA dest src => cases dest <;> exact .none
  | MOV dest src =>
    cases dest with
    | memoryDest => simp [Instruction.isByte] at hbyte
    | registerDest r =>
      refine .writeByte (fun s => some ((s.source L src).setWidth 8, s.flags)) (fun s => ?_) ?_
        (hinsn hbyte)
      · cases r <;> rfl
      · intro s s' h
        rw [h.source (List.Subset.refl _), h.flags]
  | arith op dest src =>
    cases dest with
    | memoryDest => simp [Instruction.isByte] at hbyte
    | registerDest r =>
      refine .writeByte (fun s => op.evalByte (s.low r) ((s.source L src).setWidth 8)) (fun s => rfl) ?_
        (hself r _)
      intro s s' h
      rw [h.low List.mem_cons_self, h.source (List.subset_append_right _ _)]
  | INC dest =>
    cases dest with
    | memoryDest => simp [Instruction.isByte] at hbyte
    | registerDest r =>
      refine .writeByte (fun s => some (s.low r + 1, { Flags.byteAdd (s.low r) 1 with CF := s.flags.CF }))
        (fun s => rfl) ?_ (hself r _)
      intro s s' h
      rw [h.low List.mem_cons_self, h.flags]
  | DEC dest =>
    cases dest with
    | memoryDest => simp [Instruction.isByte] at hbyte
    | registerDest r =>
      refine .writeByte (fun s => some (s.low r - 1, { Flags.byteSub (s.low r) 1 with CF := s.flags.CF }))
        (fun s => rfl) ?_ (hself r _)
      intro s s' h
      rw [h.low List.mem_cons_self, h.flags]
  | logic op dest src =>
    cases dest with
    | memoryDest => simp [Instruction.isByte] at hbyte
    | registerDest r =>
      refine .writeByte (fun s => some (op.evalByte (s.low r) ((s.source L src).setWidth 8) s.flags))
        (fun s => rfl) ?_ (hself r _)
      intro s s' h
      rw [h.low List.mem_cons_self, h.source (List.subset_append_right _ _), h.flags]
  | CMP dest src =>
    cases dest with
    | memoryDest => simp [Instruction.isByte] at hbyte
    | registerDest r =>
      refine .setFlags _ (fun s => rfl) fun s s' h => ?_
      rw [h.low List.mem_cons_self, h.source (List.subset_append_right _ _)]
  | TEST reg1 reg2 =>
    refine .setFlags _ (fun s => rfl) fun s s' h => ?_
    rw [h.low (r := reg1) (by simp [Instruction.use]), h.low (r := reg2) (by simp [Instruction.use])]
  | DIV divisor =>
    refine .writeAX (fun s => (idivByte ((s.phys RAX).setWidth 16) (s.low divisor)).map (·, s.flags))
      (fun s => ?_) ?_ (by simp [names, Instruction.use, Register.regName])
      (mem_names.mpr ⟨divisor, List.mem_cons_self, hinsn⟩)
    · rw [Option.map_map]
      rfl
    · intro s s' h
      have hrax : s.phys RAX = s'.phys RAX := h.value (.x86 RAX) (by simp [Instruction.use])
      rw [hrax, h.low List.mem_cons_self, h.flags]
  | IMULSingle factor =>
    let product (s : State) : BitVec 16 := ((s.phys RAX).setWidth 8).signExtend 16 * (s.low factor).signExtend 16
    let wide (s : State) : Bool := product s ≠ ((product s).setWidth 8).signExtend 16
    refine .writeAX (fun s => some (product s, { s.flags with OF := wide s, CF := wide s })) (fun s => rfl) ?_
      (by simp [names, Instruction.use, Register.regName])
      (mem_names.mpr ⟨factor, List.mem_cons_self, hinsn hbyte⟩)
    intro s s' h
    have hrax : s.phys RAX = s'.phys RAX := h.value (.x86 RAX) (by simp [Instruction.use])
    have hproduct : product s = product s' := by
      simp only [product]
      rw [hrax, h.low List.mem_cons_self]
    simp only [wide, hproduct, h.flags]

/-- A call. -/
theorem footprint_call (label : String) :
    Footprint (Instruction.use (.CALL label)) (Instruction.def (.CALL label))
      (State.call callee label) := by
  refine .of_effect Register.callerSaved (fun s =>
    (callee label ⟨s.mem, s.flags, s.phys RSP, argRegs.map s.phys⟩).map fun ret =>
      ⟨Register.callerSaved.map fun r => (r, ret.regs r), ret.mem, ret.flags⟩) (fun s => ?_) ?_ ?_
    (names_subset ?_) ?_
  · rw [State.call, Option.map_map]
    rfl
  · intro s s' h
    have hrsp : s.phys RSP = s'.phys RSP := h.value (.x86 RSP) (by simp [Instruction.use])
    have hargs : argRegs.map s.phys = argRegs.map s'.phys := by
      refine List.map_congr_left fun n hn => ?_
      refine h.value (.x86 n) ?_
      fin_cases hn <;> simp [Instruction.use]
    rw [h.mem, h.flags, hrsp, hargs]
  · rintro s e he
    obtain ⟨ret, -, rfl⟩ := Option.map_eq_some_iff.mp he
    simp [Function.comp_def]
  · simp [Register.callerSaved, Instruction.def]
  · rw [Instruction.def, Instruction.use]
    decide

/-- The instructions that declare their registers rightly. -/
theorem footprint_step {insn : Instruction} (hinsn : insn.Declared) :
    Footprint insn.use insn.def (step callee L insn) := by
  have hplain : step callee L insn = (fun s => if insn.isByte then execByte L insn s else exec L insn s) →
      Footprint insn.use insn.def (step callee L insn) := by
    intro hstep
    rw [hstep]
    by_cases hbyte : insn.isByte
    · simp only [hbyte, if_true]
      exact footprint_execByte hinsn hbyte
    · simp only [hbyte]
      apply footprint_exec
      · rintro op reg rfl
        exact hinsn
      · rintro r rfl
        exact hinsn
  cases insn with
  | jump => exact .some
  | CALL label => exact footprint_call label
  | CALLERSAVEPUSH | CALLERSAVEPOP => exact .none
  | RET =>
    refine .of_effect [.x86 RSP] (fun s => some ⟨[(.x86 RSP, s.phys RSP + 8)], s.mem, s.flags⟩)
      (fun s => rfl) ?_ (by rintro s e ⟨⟩; rfl) (by decide) (by decide)
    intro s s' h
    have hrsp : s.phys RSP = s'.phys RSP := h.value (.x86 RSP) (by simp [Instruction.use])
    rw [h.mem, h.flags, hrsp]
  | _ => exact hplain rfl

/-! ## The others -/

/-- All registers hold `v`, but `r` holds `w`. -/
def allBut (v : Word) (r : Register) (w : Word) : State :=
  State.set { abs := fun _ => v, phys := fun _ => v, flags := ⟨false, false, false, false⟩, mem := fun _ => 0 } r w

/-- The state with one register apart from the others. -/
theorem value_allBut (v w : Word) (r r' : Register) :
    (allBut v r w).value r' = if r'.regName = r.regName then w else v := by
  rw [allBut, State.value_set]
  cases r' <;> rfl

/-- States that differ in a register that is not used agree. -/
theorem agree_allBut {use : List Register} {r : Register} (hr : r.regName ∉ names use) (v w w' : Word) :
    Agree use (allBut v r w) (allBut v r w') := by
  refine ⟨by cases r <;> rfl, by cases r <;> rfl, fun r' hr' => ?_⟩
  have hne : r'.regName ≠ r.regName := fun h => hr (mem_names.mpr ⟨r', hr', h⟩)
  rw [value_allBut, value_allBut, if_neg hne, if_neg hne]

/-- A byte that is written keeps bit 8 of its register. -/
theorem value_setByte_bit (s : State) (r : Register) (b : BitVec 8) :
    ((s.setByte r b).value r).getLsbD 8 = (s.value r).getLsbD 8 := by
  rw [State.setByte, State.value_set_self]
  simp

/-- Writing the low byte leaves the bits above it. -/
theorem value_setLow_bit (s : State) (r : Register) (b : Bool) :
    ((s.setLow r b).value r).getLsbD 8 = (s.value r).getLsbD 8 := by
  rw [State.setLow, State.value_set_self]
  cases b <;> simp [boolWord]

/-- A transition that keeps bit 8 of a register it defines has to use it. -/
theorem mem_use_of_keeps_bit {use «def» : List Register} {f : State → Option State} {r : Register}
    (h : Footprint use «def» f) (hr : r ∈ «def»)
    (hkeep : ∀ s, ∃ t, f s = some t ∧ (t.value r).getLsbD 8 = (s.value r).getLsbD 8) :
    r.regName ∈ names use := by
  by_contra hnot
  obtain ⟨t, ht, hbit⟩ := hkeep (allBut 0 r 0)
  obtain ⟨t', ht', hbit'⟩ := hkeep (allBut 0 r 256)
  obtain ⟨t'', ht'', -, hvalue⟩ := h.equal _ _ _ (agree_allBut hnot 0 0 256) ht
  cases ht'.symm.trans ht''
  rw [hvalue r (mem_names.mpr ⟨r, hr, rfl⟩), hbit', value_allBut, value_allBut] at hbit
  simp at hbit

/-- An instruction that keeps `RDX` where all other registers hold 1, and defines it, has to use it. -/
theorem mem_use_of_keeps_rdx {use «def» : List Register} {f : State → Option State}
    (h : Footprint use «def» f) (hr : .x86 RDX ∈ «def»)
    (hkeep : ∀ w, ∃ t, f (allBut 1 (.x86 RDX) w) = some t ∧ t.phys RDX = w) :
    .x86 RDX ∈ names use := by
  by_contra hnot
  obtain ⟨t, ht, hw⟩ := hkeep 0
  obtain ⟨t', ht', hw'⟩ := hkeep 1
  obtain ⟨t'', ht'', -, hvalue⟩ := h.equal _ _ _ (agree_allBut (r := .x86 RDX) hnot 1 0 1) ht
  cases ht'.symm.trans ht''
  have hrdx : t.phys RDX = t'.phys RDX := hvalue (.x86 RDX) (mem_names.mpr ⟨_, hr, rfl⟩)
  rw [hw, hw'] at hrdx
  exact absurd hrdx (by decide)

/-- A register that is not `RDX` holds 1 in these states. -/
theorem value_of_ne_rdx {r : Register} (hr : r.regName ≠ .x86 RDX) (w : Word) :
    (allBut 1 (.x86 RDX) w).value r = 1 := by
  rw [value_allBut, if_neg]
  exact hr

/-- An instruction with right sets uses each register it reads or keeps. -/
theorem declared_of_footprint {insn : Instruction} (h : Footprint insn.use insn.def (step callee L insn)) :
    insn.Declared := by
  cases insn with
  | jumpSet op reg =>
    -- the upper bytes of a set byte stay, so they would have to be read
    have hmem := mem_use_of_keeps_bit h (List.mem_singleton_self reg)
      fun s => ⟨_, rfl, value_setLow_bit s reg _⟩
    simp [Instruction.use, names] at hmem
  | MOV dest src =>
    cases dest with
    | memoryDest => exact trivial
    | registerDest r =>
      intro hbyte
      exact mem_use_of_keeps_bit h (List.mem_singleton_self r)
        fun s => ⟨s.setByte r ((s.source L src).setWidth 8), if_pos hbyte, value_setByte_bit s r _⟩
  | DIV divisor =>
    by_contra hne
    have hdivisor := value_of_ne_rdx hne
    have hnot : .x86 RDX ∉ names (Instruction.DIV divisor).use := by
      simpa [names, Instruction.use, Register.regName] using fun h => hne h.symm
    by_cases hbyte : divisor.isByte
    · -- the byte division leaves `RDX` alone
      refine hnot (mem_use_of_keeps_rdx h (by simp [Instruction.def]) fun w => ?_)
      have hstep : step callee L (.DIV divisor) (allBut 1 (.x86 RDX) w) =
          (idivByte 1 1).map (allBut 1 (.x86 RDX) w).setAX := by
        refine (if_pos hbyte).trans ?_
        rw [execByte, State.low, hdivisor]
        rfl
      exact ⟨_, hstep.trans rfl, by simp [State.setAX, State.set, allBut]⟩
    · -- with 1 in `RDX` the quotient does not fit
      have hstep : ∀ w, step callee L (.DIV divisor) (allBut 1 (.x86 RDX) w) =
          (idiv w 1 1).map fun p =>
            ((allBut 1 (.x86 RDX) w).set (.x86 RAX) p.1).set (.x86 RDX) p.2 := by
        intro w
        refine (if_neg hbyte).trans ?_
        rw [exec, hdivisor]
        have hrdx : (allBut 1 (.x86 RDX) w).phys RDX = w := by simp [State.set, allBut]
        have hrax : (allBut 1 (.x86 RDX) w).phys RAX = 1 := by simp [State.set, allBut]
        rw [hrdx, hrax]
        cases idiv w 1 1 <;> rfl
      have hone : idiv 0 1 1 = some (1, 0) := by decide
      have htwo : idiv 1 1 1 = none := by decide
      obtain ⟨t', ht', -⟩ := h.equal _ _ _ (agree_allBut (r := .x86 RDX) hnot 1 0 1)
        ((hstep 0).trans (by rw [hone]; rfl))
      rw [hstep 1, htwo] at ht'
      cases ht'
  | IMULSingle factor =>
    intro hbyte
    have hmem := mem_use_of_keeps_rdx h (by simp [Instruction.def]) fun w => ⟨_, if_pos hbyte, ?_⟩
    · simpa [names, Instruction.use, Register.regName, eq_comm] using hmem
    · simp [State.setAX, State.set, allBut, State.setFlags]
  | _ => exact trivial

end Instructions

/-- An instruction declares a right set of used and of defined registers exactly when it is `Declared`. -/
theorem footprint_step_iff (callee : String → Passed → Option Returned) (L : String → Word)
    (insn : Instruction) : Footprint insn.use insn.def (step callee L insn) ↔ insn.Declared :=
  ⟨declared_of_footprint, footprint_step⟩

/-- `setz al` with `RAX` 0 and with `RAX` 256: it lists no register as used, and leaves 256 apart. -/
theorem footprint_setz : ¬ ∀ (callee : String → Passed → Option Returned) (L : String → Word)
    (insn : Instruction), Footprint insn.use insn.def (step callee L insn) := by
  intro h
  have hset := h (fun _ _ => none) (fun _ => 0) (.jumpSet .SETZ (.x86 RAX 8))
  have hagree : Agree [] (allBut 0 (.x86 RAX 8) 0) (allBut 0 (.x86 RAX 8) 256) := ⟨rfl, rfl, by simp⟩
  obtain ⟨t', ht', -, hvalue⟩ := hset.equal _ _ _ hagree rfl
  cases ht'
  exact absurd (hvalue (.x86 RAX 8) (by decide)) (by decide)

end Jaek
