import Jaek.Assembly.Program

/-!
# Replacing the registers of an instruction

`replaceInsnRegisters` of `RegisterAllocator`, which puts a machine register for every register of an
instruction. Which one is left to the allocators: here it is a parameter, as the method is abstract there.

Where the new registers hold what the old ones held, and the loaded words are the same, the new instruction
writes what the old one did, under the new names (`writes_renamed`). It faults when the old one does.
-/

namespace Jaek

open x86Name

namespace RegisterAllocator

variable (replaceRegister : Register → ℕ → Option Register)

/-- A register that may be missing. -/
def replaceOptional : Option Register → Option (Option Register)
  | none => some none
  | some r => (replaceRegister r 64).map some

/-- The registers of an address, replaced. -/
def replaceMemRegister : Memory → Option Memory
  | .labelMem label => some (.labelMem label)
  | .registerMem base index offset shift => do
    let base ← replaceOptional replaceRegister base
    let index ← replaceOptional replaceRegister index
    return .registerMem base index offset shift

/-- The registers of a source, replaced. -/
def replaceSrcRegister : Source → Option Source
  | .constSrc c => some (.constSrc c)
  | .memorySrc m => (replaceMemRegister replaceRegister m).map .memorySrc
  | .registerSrc r => (replaceRegister r 64).map .registerSrc

/-- The registers of a destination, replaced. -/
def replaceDestRegister : Destination → Option Destination
  | .memoryDest m => (replaceMemRegister replaceRegister m).map .memoryDest
  | .registerDest r => (replaceRegister r 64).map .registerDest

/-- The two operands of an instruction. -/
def replaceOperands (insn : Destination → Source → Instruction) (dest : Destination) (src : Source) :
    Option Instruction := do
  let dest ← replaceDestRegister replaceRegister dest
  let src ← replaceSrcRegister replaceRegister src
  return insn dest src

/-- `replaceInsnRegisters`. -/
def replaceInsnRegisters : Instruction → Option Instruction
  | .arith op dest src => replaceOperands replaceRegister (.arith op) dest src
  | .LEA dest src => do
    let dest ← replaceDestRegister replaceRegister dest
    let src ← replaceMemRegister replaceRegister src
    return .LEA dest src
  | .CMP dest src => replaceOperands replaceRegister .CMP dest src
  | .logic op dest src => replaceOperands replaceRegister (.logic op) dest src
  | .MOV dest src => replaceOperands replaceRegister .MOV dest src
  | .POP dest => (replaceRegister dest 64).map .POP
  | .PUSH arg => (replaceRegister arg 64).map .PUSH
  | .TEST reg1 reg2 => do
    let reg1 ← replaceRegister reg1 64
    let reg2 ← replaceRegister reg2 64
    return .TEST reg1 reg2
  -- the 8-bit version of the register
  | .jumpSet op reg => (replaceRegister reg 8).map (.jumpSet op)
  | .DIV divisor => (replaceRegister divisor 64).map .DIV
  | .IMULSingle factor => (replaceRegister factor 64).map .IMULSingle
  | .DEC dest => (replaceDestRegister replaceRegister dest).map .DEC
  | .INC dest => (replaceDestRegister replaceRegister dest).map .INC
  | .CALL label => some (.CALL label)
  | .COMMENT str => some (.COMMENT str)
  | .CQO => some .CQO
  | .ENTER bytes => some (.ENTER bytes)
  | .label name isTopLevel => some (.label name isTopLevel)
  | .LEAVE => some .LEAVE
  | .NOP => some .NOP
  | .RET => some .RET
  | .jump op loc => some (.jump op loc)
  | .PAD => some .PAD
  | .CALLERSAVEPUSH => some .CALLERSAVEPUSH
  | .CALLERSAVEPOP => some .CALLERSAVEPOP

/-- `g` says what the registers are replaced by, by name. Machine registers stay, and no operand is narrowed. -/
structure Renames (g : RegName → RegName) : Prop where
  name : ∀ r size r', replaceRegister r size = some r' → r'.regName = g r.regName
  machine : ∀ n, g (.x86 n) = .x86 n
  wide : ∀ r r', replaceRegister r 64 = some r' → ¬ r.isByte → ¬ r'.isByte

variable {replaceRegister} {g : RegName → RegName} {L : String → Word} {s t : State}

section Operands

variable (h : Renames replaceRegister g)

include h

/-- A renamed register has the value of the old one. -/
theorem value_renamed {r r' : Register} {size : ℕ} (hr : replaceRegister r size = some r')
    (hget : t.get (g r.regName) = s.get r.regName) : t.value r' = s.value r := by
  rw [State.value_eq_get, h.name r size r' hr, hget, State.value_eq_get]

/-- So has an optional one. -/
theorem optional_renamed {o o' : Option Register} (ho : replaceOptional replaceRegister o = some o')
    (hget : ∀ r ∈ o, t.get (g r.regName) = s.get r.regName) :
    o'.elim 0 t.value = o.elim 0 s.value := by
  cases o with
  | none =>
    cases ho
    rfl
  | some r =>
    obtain ⟨r', hr, rfl⟩ := Option.map_eq_some_iff.mp ho
    exact value_renamed h hr (hget r rfl)

/-- A renamed address is the same. -/
theorem address_renamed {m m' : Memory} (hm : replaceMemRegister replaceRegister m = some m')
    (hget : ∀ r ∈ m.involved, t.get (g r.regName) = s.get r.regName) : t.address L m' = s.address L m := by
  cases m with
  | labelMem label =>
    cases hm
    rfl
  | registerMem base index offset shift =>
    obtain ⟨base', hbase, hm⟩ := Option.bind_eq_some_iff.mp hm
    obtain ⟨index', hindex, hm⟩ := Option.bind_eq_some_iff.mp hm
    cases hm
    have hb := optional_renamed (s := s) (t := t) h hbase
      fun r hr => hget r (List.mem_append_left _ (Option.mem_toList.mpr hr))
    have hi := optional_renamed (s := s) (t := t) h hindex
      fun r hr => hget r (List.mem_append_right _ (Option.mem_toList.mpr hr))
    rw [State.address, State.address, hb, hi]

/-- A renamed source has the same value. -/
theorem source_renamed {src src' : Source} (hsrc : replaceSrcRegister replaceRegister src = some src')
    (hget : ∀ r ∈ src.use, t.get (g r.regName) = s.get r.regName)
    (hload : ∀ a ∈ src.loads L s, t.mem.load a = s.mem.load a) : t.source L src' = s.source L src := by
  cases src with
  | constSrc c =>
    cases hsrc
    rfl
  | memorySrc m =>
    obtain ⟨m', hm, rfl⟩ := Option.map_eq_some_iff.mp hsrc
    rw [State.source, State.source, address_renamed h hm hget, hload _ (List.mem_singleton_self _)]
  | registerSrc r =>
    obtain ⟨r', hr, rfl⟩ := Option.map_eq_some_iff.mp hsrc
    exact value_renamed h hr (hget r (List.mem_singleton_self r))

/-- A renamed destination holds the same value. -/
theorem read_renamed {dest dest' : Destination}
    (hdest : replaceDestRegister replaceRegister dest = some dest')
    (hget : ∀ r ∈ dest.use, t.get (g r.regName) = s.get r.regName)
    (hload : ∀ a ∈ dest.loads L s, t.mem.load a = s.mem.load a) : t.read L dest' = s.read L dest := by
  cases dest with
  | memoryDest m =>
    obtain ⟨m', hm, rfl⟩ := Option.map_eq_some_iff.mp hdest
    rw [State.read, State.read, address_renamed h hm hget, hload _ (List.mem_singleton_self _)]
  | registerDest r =>
    obtain ⟨r', hr, rfl⟩ := Option.map_eq_some_iff.mp hdest
    exact value_renamed h hr (hget r (List.mem_singleton_self r))

/-- A destination is written under its new name, or at its address. -/
theorem dest_renamed {dest dest' : Destination}
    (hdest : replaceDestRegister replaceRegister dest = some dest')
    (hget : ∀ m, dest = .memoryDest m → ∀ r ∈ m.involved, t.get (g r.regName) = s.get r.regName)
    (v : Word) (f : Flags) : dest'.writes L t v f = (dest.writes L s v f).rename g := by
  cases dest with
  | memoryDest m =>
    obtain ⟨m', hm, rfl⟩ := Option.map_eq_some_iff.mp hdest
    rw [Destination.writes, address_renamed h hm (hget m rfl)]
    rfl
  | registerDest r =>
    obtain ⟨r', hr, rfl⟩ := Option.map_eq_some_iff.mp hdest
    rw [Destination.writes, h.name r 64 r' hr]
    rfl

/-- A destination that is read before it is written. -/
theorem updated_renamed {dest dest' : Destination}
    (hdest : replaceDestRegister replaceRegister dest = some dest')
    (hget : ∀ r ∈ dest.use, t.get (g r.regName) = s.get r.regName)
    (hload : ∀ a ∈ dest.loads L s, t.mem.load a = s.mem.load a) :
    t.read L dest' = s.read L dest ∧
      ∀ v f, dest'.writes L t v f = (dest.writes L s v f).rename g := by
  refine ⟨read_renamed h hdest hget hload, dest_renamed h hdest ?_⟩
  rintro m rfl
  exact hget

/-- The operands of an instruction that reads both. -/
theorem operands_renamed {insn : Destination → Source → Instruction} {insn' : Instruction}
    {dest : Destination} {src : Source}
    (hinsn : replaceOperands replaceRegister insn dest src = some insn')
    (hget : ∀ r ∈ dest.use ++ src.use, t.get (g r.regName) = s.get r.regName)
    (hload : ∀ a ∈ dest.loads L s ++ src.loads L s, t.mem.load a = s.mem.load a) :
    ∃ dest' src', insn' = insn dest' src' ∧ t.read L dest' = s.read L dest ∧
      t.source L src' = s.source L src ∧ ∀ v f, dest'.writes L t v f = (dest.writes L s v f).rename g := by
  obtain ⟨dest', hdest, hinsn⟩ := Option.bind_eq_some_iff.mp hinsn
  obtain ⟨src', hsrc, hinsn⟩ := Option.bind_eq_some_iff.mp hinsn
  rw [List.forall_mem_append] at hget hload
  obtain ⟨hread, hwrites⟩ := updated_renamed h hdest hget.1 hload.1
  exact ⟨dest', src', (Option.some.inj hinsn).symm, hread, source_renamed h hsrc hget.2 hload.2, hwrites⟩

end Operands

/-- The replacement writes what the instruction writes, under the new names. -/
theorem writes_renamed (h : Renames replaceRegister g) {insn insn' : Instruction}
    (hinsn : replaceInsnRegisters replaceRegister insn = some insn')
    (hget : ∀ r ∈ insn.reads, t.get (g r.regName) = s.get r.regName)
    (hload : ∀ a ∈ insn.loads L s, t.mem.load a = s.mem.load a) (hflags : t.flags = s.flags) :
    insn'.writes L t = (insn.writes L s).map (Writes.rename g) := by
  -- Machine registers keep their name, so an instruction reads the same values of them.
  have hphys : ∀ n, .x86 n ∈ insn.reads → t.phys n = s.phys n := by
    intro n hn
    have hn := hget (.x86 n) hn
    rwa [Register.regName, h.machine] at hn
  cases insn with
  | MOV dest src =>
    obtain ⟨dest', hdest, hinsn⟩ := Option.bind_eq_some_iff.mp hinsn
    obtain ⟨src', hsrc, hinsn⟩ := Option.bind_eq_some_iff.mp hinsn
    cases hinsn
    have huse : src.use ⊆ (Instruction.MOV dest src).reads := by
      cases dest with
      | memoryDest m => exact List.subset_append_left _ _
      | registerDest r => exact List.Subset.refl _
    rw [Instruction.writes, source_renamed h hsrc (fun r hr => hget r (huse hr)) hload, hflags,
      dest_renamed (s := s) h hdest]
    · rfl
    · rintro m rfl r hr
      exact hget r (List.mem_append_right _ hr)
  | LEA dest src =>
    obtain ⟨dest', hdest, hinsn⟩ := Option.bind_eq_some_iff.mp hinsn
    obtain ⟨src', hsrc, hinsn⟩ := Option.bind_eq_some_iff.mp hinsn
    cases hinsn
    rw [Instruction.writes, address_renamed h hsrc fun r hr => hget r (List.mem_append_right _ hr), hflags,
      dest_renamed (s := s) h hdest]
    · rfl
    · rintro m rfl r hr
      exact hget r (List.mem_append_left _ hr)
  | arith op dest src =>
    obtain ⟨dest', src', rfl, hread, hsource, hwrites⟩ := operands_renamed h hinsn hget hload
    simp only [Instruction.writes, hread, hsource, hwrites, hflags, Option.map_some]
  | logic op dest src =>
    obtain ⟨dest', src', rfl, hread, hsource, hwrites⟩ := operands_renamed h hinsn hget hload
    simp only [Instruction.writes, hread, hsource, hwrites, hflags, Option.map_some]
  | CMP dest src =>
    obtain ⟨dest', src', rfl, hread, hsource, -⟩ := operands_renamed h hinsn hget hload
    rw [Instruction.writes, hread, hsource]
    rfl
  | INC dest =>
    obtain ⟨dest', hdest, rfl⟩ := Option.map_eq_some_iff.mp hinsn
    obtain ⟨hread, hwrites⟩ := updated_renamed h hdest hget hload
    simp only [Instruction.writes, hread, hwrites, hflags, Option.map_some]
  | DEC dest =>
    obtain ⟨dest', hdest, rfl⟩ := Option.map_eq_some_iff.mp hinsn
    obtain ⟨hread, hwrites⟩ := updated_renamed h hdest hget hload
    simp only [Instruction.writes, hread, hwrites, hflags, Option.map_some]
  | TEST reg1 reg2 =>
    obtain ⟨reg1', hreg1, hinsn⟩ := Option.bind_eq_some_iff.mp hinsn
    obtain ⟨reg2', hreg2, hinsn⟩ := Option.bind_eq_some_iff.mp hinsn
    cases hinsn
    have h1 := value_renamed h hreg1 (hget reg1 List.mem_cons_self)
    have h2 := value_renamed h hreg2 (hget reg2 (List.mem_cons_of_mem _ List.mem_cons_self))
    rw [Instruction.writes, h1, h2]
    rfl
  | jumpSet op reg =>
    obtain ⟨reg', hreg, rfl⟩ := Option.map_eq_some_iff.mp hinsn
    rw [Instruction.writes, value_renamed h hreg (hget reg (List.mem_singleton_self _)), hflags,
      h.name reg 8 reg' hreg]
    rfl
  | PUSH arg =>
    obtain ⟨arg', harg, rfl⟩ := Option.map_eq_some_iff.mp hinsn
    have hvalue := value_renamed h harg (hget arg List.mem_cons_self)
    have hrsp := hphys RSP (List.mem_cons_of_mem _ List.mem_cons_self)
    simp only [Instruction.writes, Writes.rename, hvalue, hrsp, hflags, h.machine, Option.map_some,
      List.map_cons, List.map_nil]
  | POP dest =>
    obtain ⟨dest', hdest, rfl⟩ := Option.map_eq_some_iff.mp hinsn
    have hrsp := hphys RSP List.mem_cons_self
    have hload := hload _ (List.mem_singleton_self _)
    simp only [Instruction.writes, Writes.rename, hrsp, hload, hflags, h.machine, h.name _ _ _ hdest,
      Option.map_some, List.map_cons, List.map_nil]
  | DIV divisor =>
    obtain ⟨divisor', hdivisor, rfl⟩ := Option.map_eq_some_iff.mp hinsn
    have hvalue := value_renamed h hdivisor (hget divisor List.mem_cons_self)
    have hrax := hphys RAX (by simp [Instruction.reads])
    have hrdx := hphys RDX (by simp [Instruction.reads])
    rw [Instruction.writes, Instruction.writes, hvalue, hrax, hrdx, hflags, Option.map_map]
    simp only [Function.comp_def, Writes.rename, h.machine, List.map_cons, List.map_nil]
  | IMULSingle factor =>
    obtain ⟨factor', hfactor, rfl⟩ := Option.map_eq_some_iff.mp hinsn
    have hvalue := value_renamed h hfactor (hget factor List.mem_cons_self)
    have hrax := hphys RAX (by simp [Instruction.reads, Instruction.use])
    simp only [Instruction.writes, Writes.rename, hvalue, hrax, hflags, h.machine, Option.map_some,
      List.map_cons, List.map_nil]
  | CQO =>
    cases hinsn
    have hrax := hphys RAX (by simp [Instruction.reads, Instruction.use])
    simp only [Instruction.writes, Writes.rename, hrax, hflags, h.machine, Option.map_some, List.map_cons,
      List.map_nil]
  | PAD =>
    cases hinsn
    have hrsp := hphys RSP (by simp [Instruction.reads, Instruction.use])
    simp only [Instruction.writes, Writes.rename, hrsp, hflags, h.machine, Option.map_some, List.map_cons,
      List.map_nil]
  | ENTER bytes =>
    cases hinsn
    have hrsp := hphys RSP (by simp [Instruction.reads, Instruction.use])
    have hrbp := hphys RBP (by simp [Instruction.reads, Instruction.use])
    simp only [Instruction.writes]
    split_ifs
    · simp only [Writes.rename, hrsp, hrbp, hflags, h.machine, Option.map_some, List.map_cons, List.map_nil]
    · rfl
  | LEAVE =>
    cases hinsn
    have hrbp := hphys RBP (by simp [Instruction.reads, Instruction.use])
    have hload := hload _ (List.mem_singleton_self _)
    simp only [Instruction.writes, Writes.rename, hrbp, hload, hflags, h.machine, Option.map_some,
      List.map_cons, List.map_nil]
  | COMMENT | NOP | label =>
    cases hinsn
    rw [Instruction.writes, hflags]
    rfl
  | jump | CALL | RET | CALLERSAVEPUSH | CALLERSAVEPOP =>
    cases hinsn
    rfl

/-- A destination that is no byte register stays none. -/
theorem narrow_renamed (h : Renames replaceRegister g) {dest dest' : Destination}
    (hdest : replaceDestRegister replaceRegister dest = some dest')
    (hwide : ∀ r, dest = .registerDest r → ¬ r.isByte) : ∀ r, dest' = .registerDest r → ¬ r.isByte := by
  intro r' heq
  cases dest with
  | memoryDest m =>
    obtain ⟨m', -, rfl⟩ := Option.map_eq_some_iff.mp hdest
    cases heq
  | registerDest r =>
    obtain ⟨r'', hr, rfl⟩ := Option.map_eq_some_iff.mp hdest
    cases heq
    exact h.wide r _ hr (hwide r rfl)

/-- The replacement of an instruction on full registers is one. -/
theorem isByte_renamed (h : Renames replaceRegister g) {insn insn' : Instruction}
    (hinsn : replaceInsnRegisters replaceRegister insn = some insn') (hbyte : ¬ insn.isByte) :
    ¬ insn'.isByte := by
  -- the instructions that write, or compare, a destination
  have hdest : ∀ (make : Destination → Instruction) (dest : Destination),
      (∀ r, (make (.registerDest r)).isByte = r.isByte) → (∀ m, (make (.memoryDest m)).isByte = false) →
      (∀ r, dest = .registerDest r → ¬ r.isByte) → ¬ (make dest).isByte := by
    intro make dest hreg hmem hwide
    cases dest with
    | memoryDest m => simp [hmem]
    | registerDest r => simpa [hreg] using hwide r rfl
  cases insn with
  | MOV dest src | CMP dest src | arith op dest src | logic op dest src | LEA dest src =>
    obtain ⟨dest', hd, hinsn⟩ := Option.bind_eq_some_iff.mp hinsn
    obtain ⟨src', -, hinsn⟩ := Option.bind_eq_some_iff.mp hinsn
    cases hinsn
    apply hdest (fun dest => _) dest' (fun _ => rfl) (fun _ => rfl)
    refine narrow_renamed h hd ?_
    rintro r rfl
    exact hbyte
  | INC dest | DEC dest =>
    obtain ⟨dest', hd, rfl⟩ := Option.map_eq_some_iff.mp hinsn
    apply hdest (fun dest => _) dest' (fun _ => rfl) (fun _ => rfl)
    refine narrow_renamed h hd ?_
    rintro r rfl
    exact hbyte
  | TEST reg1 reg2 =>
    obtain ⟨reg1', hreg1, hinsn⟩ := Option.bind_eq_some_iff.mp hinsn
    obtain ⟨reg2', hreg2, hinsn⟩ := Option.bind_eq_some_iff.mp hinsn
    cases hinsn
    exact h.wide _ _ hreg1 hbyte
  | PUSH r | POP r | DIV r | IMULSingle r =>
    obtain ⟨r', hr, rfl⟩ := Option.map_eq_some_iff.mp hinsn
    exact h.wide _ _ hr hbyte
  | jumpSet op reg =>
    obtain ⟨reg', -, rfl⟩ := Option.map_eq_some_iff.mp hinsn
    exact Bool.false_ne_true
  | _ =>
    cases hinsn
    exact hbyte

/-- The replacement hands over to the next instruction when the instruction does, and is a label only when it
is that label. -/
theorem falls_renamed {insn insn' : Instruction}
    (hinsn : replaceInsnRegisters replaceRegister insn = some insn') :
    insn'.falls = insn.falls ∧ ∀ l top, insn' = .label l top → insn = .label l top := by
  cases insn with
  | MOV dest src | CMP dest src | arith op dest src | logic op dest src | LEA dest src | TEST dest src =>
    obtain ⟨dest', -, hinsn⟩ := Option.bind_eq_some_iff.mp hinsn
    obtain ⟨src', -, hinsn⟩ := Option.bind_eq_some_iff.mp hinsn
    cases hinsn
    exact ⟨rfl, fun l top h => by cases h⟩
  | INC r | DEC r | PUSH r | POP r | DIV r | IMULSingle r | jumpSet op r =>
    obtain ⟨r', -, rfl⟩ := Option.map_eq_some_iff.mp hinsn
    exact ⟨rfl, fun l top h => by cases h⟩
  | _ =>
    cases hinsn
    exact ⟨rfl, fun l top h => h⟩

/-- Where every register is replaced by a machine register, no abstract one is left. -/
theorem involved_replaced (h : ∀ r size r', replaceRegister r size = some r' → r'.isAbstract = false)
    {insn insn' : Instruction} (hinsn : replaceInsnRegisters replaceRegister insn = some insn') :
    insn'.involved = [] := by
  -- an operand behind the replacement names machine registers only; the three kinds in turn
  have hmem : ∀ {m m' : Memory}, replaceMemRegister replaceRegister m = some m' →
      ∀ r ∈ m'.involved, r.isAbstract = false := by
    have hopt : ∀ {o o' : Option Register}, replaceOptional replaceRegister o = some o' →
        ∀ r ∈ o', r.isAbstract = false := by
      intro o o' ho r hr
      cases o with
      | none =>
        cases ho
        cases hr
      | some q =>
        obtain ⟨q', hq, rfl⟩ := Option.map_eq_some_iff.mp ho
        cases hr
        exact h q 64 _ hq
    intro m m' hm r hr
    cases m with
    | labelMem =>
      cases hm
      cases hr
    | registerMem base index offset shift =>
      obtain ⟨base', hbase, hm⟩ := Option.bind_eq_some_iff.mp hm
      obtain ⟨index', hindex, hm⟩ := Option.bind_eq_some_iff.mp hm
      cases hm
      rcases List.mem_append.mp hr with hr | hr
      · exact hopt hbase r (Option.mem_toList.mp hr)
      · exact hopt hindex r (Option.mem_toList.mp hr)
  have hdest : ∀ {dest dest' : Destination}, replaceDestRegister replaceRegister dest = some dest' →
      ∀ r ∈ dest'.use, r.isAbstract = false := by
    intro dest dest' hd r hr
    cases dest with
    | memoryDest m =>
      obtain ⟨m', hm, rfl⟩ := Option.map_eq_some_iff.mp hd
      exact hmem hm r hr
    | registerDest q =>
      obtain ⟨q', hq, rfl⟩ := Option.map_eq_some_iff.mp hd
      exact List.mem_singleton.mp hr ▸ h q 64 q' hq
  have hsrc : ∀ {src src' : Source}, replaceSrcRegister replaceRegister src = some src' →
      ∀ r ∈ src'.use, r.isAbstract = false := by
    intro src src' hs r hr
    cases src with
    | constSrc =>
      cases hs
      cases hr
    | memorySrc m =>
      obtain ⟨m', hm, rfl⟩ := Option.map_eq_some_iff.mp hs
      exact hmem hm r hr
    | registerSrc q =>
      obtain ⟨q', hq, rfl⟩ := Option.map_eq_some_iff.mp hs
      exact List.mem_singleton.mp hr ▸ h q 64 q' hq
  have hfilter : ∀ {rs : List Register}, (∀ r ∈ rs, r.isAbstract = false) → rs.filter Register.isAbstract = [] :=
    fun hrs => List.filter_eq_nil_iff.mpr fun r hr => by simp [hrs r hr]
  -- a body that `replace` rewrites is one whose operands it rewrites
  cases insn with
  | MOV dest src | CMP dest src | arith op dest src | logic op dest src =>
    obtain ⟨dest', hd, hinsn⟩ := Option.bind_eq_some_iff.mp hinsn
    obtain ⟨src', hs, hinsn⟩ := Option.bind_eq_some_iff.mp hinsn
    cases hinsn
    exact hfilter (List.forall_mem_append.mpr ⟨hdest hd, hsrc hs⟩)
  | LEA dest src =>
    obtain ⟨dest', hd, hinsn⟩ := Option.bind_eq_some_iff.mp hinsn
    obtain ⟨src', hs, hinsn⟩ := Option.bind_eq_some_iff.mp hinsn
    cases hinsn
    exact hfilter (List.forall_mem_append.mpr ⟨hdest hd, hmem hs⟩)
  | INC dest | DEC dest =>
    obtain ⟨dest', hd, rfl⟩ := Option.map_eq_some_iff.mp hinsn
    exact hfilter (hdest hd)
  | TEST reg1 reg2 =>
    obtain ⟨reg1', h1, hinsn⟩ := Option.bind_eq_some_iff.mp hinsn
    obtain ⟨reg2', h2, hinsn⟩ := Option.bind_eq_some_iff.mp hinsn
    cases hinsn
    refine hfilter (List.forall_mem_cons.mpr ⟨h _ _ _ h1, List.forall_mem_singleton.mpr (h _ _ _ h2)⟩)
  | POP r | PUSH r | jumpSet op r | DIV r | IMULSingle r =>
    obtain ⟨r', hr, rfl⟩ := Option.map_eq_some_iff.mp hinsn
    exact hfilter (List.forall_mem_singleton.mpr (h _ _ _ hr))
  | _ =>
    cases hinsn
    rfl

/-- A placeholder comes from a placeholder. -/
theorem placeholder_replaced {insn insn' p : Instruction}
    (hinsn : replaceInsnRegisters replaceRegister insn = some insn')
    (hp : p = .CALLERSAVEPUSH ∨ p = .CALLERSAVEPOP) (h : insn' = p) : insn = p := by
  cases insn with
  | MOV dest src | CMP dest src | arith op dest src | logic op dest src | LEA dest src | TEST dest src =>
    obtain ⟨dest', -, hinsn⟩ := Option.bind_eq_some_iff.mp hinsn
    obtain ⟨src', -, hinsn⟩ := Option.bind_eq_some_iff.mp hinsn
    cases hinsn
    subst h
    rcases hp with hp | hp <;> cases hp
  | INC dest | DEC dest | POP dest | PUSH dest | DIV dest | IMULSingle dest | jumpSet op dest =>
    obtain ⟨dest', -, rfl⟩ := Option.map_eq_some_iff.mp hinsn
    subst h
    rcases hp with hp | hp <;> cases hp
  | _ =>
    cases hinsn
    exact h

/-- Where each abstract register has a replacement, the instruction has. -/
theorem replaceInsnRegisters_isSome {insn : Instruction}
    (habs : ∀ r ∈ insn.involved, ∀ size, ∃ r', replaceRegister r size = some r')
    (hx86 : ∀ n size size', ∃ r', replaceRegister (.x86 n size) size' = some r') :
    ∃ insn', replaceInsnRegisters replaceRegister insn = some insn' := by
  -- an operand is replaced if its abstract registers are involved
  let Known (r : Register) : Prop := r.isAbstract → r ∈ insn.involved
  have hreg : ∀ r size, Known r → ∃ r', replaceRegister r size = some r' := by
    intro r size hr
    cases r with
    | abstract x n => exact habs _ (hr rfl) size
    | x86 n m => exact hx86 n m size
  have hoptional : ∀ o : Option Register, (∀ r ∈ o, Known r) → ∃ o', replaceOptional replaceRegister o = some o' := by
    intro o ho
    cases o with
    | none => exact ⟨none, rfl⟩
    | some r =>
      obtain ⟨r', hr⟩ := hreg r 64 (ho r rfl)
      exact ⟨some r', by rw [replaceOptional, hr]; rfl⟩
  have hmem : ∀ m : Memory, (∀ r ∈ m.involved, Known r) → ∃ m', replaceMemRegister replaceRegister m = some m' := by
    intro m hm
    cases m with
    | labelMem l => exact ⟨_, rfl⟩
    | registerMem base index offset shift =>
      obtain ⟨base', hbase⟩ := hoptional base fun r hr => hm r (List.mem_append_left _ (Option.mem_toList.mpr hr))
      obtain ⟨index', hindex⟩ := hoptional index fun r hr => hm r (List.mem_append_right _ (Option.mem_toList.mpr hr))
      exact ⟨_, by rw [replaceMemRegister, hbase, Option.bind_eq_bind, Option.bind_some, hindex]; rfl⟩
  have hsrc : ∀ src : Source, (∀ r ∈ src.use, Known r) → ∃ src', replaceSrcRegister replaceRegister src = some src' := by
    intro src hs
    cases src with
    | constSrc c => exact ⟨_, rfl⟩
    | memorySrc m =>
      obtain ⟨m', hm⟩ := hmem m hs
      exact ⟨_, by rw [replaceSrcRegister, hm]; rfl⟩
    | registerSrc r =>
      obtain ⟨r', hr⟩ := hreg r 64 (hs r (List.mem_singleton_self r))
      exact ⟨_, by rw [replaceSrcRegister, hr]; rfl⟩
  have hdest : ∀ dest : Destination, (∀ r ∈ dest.use, Known r) →
      ∃ dest', replaceDestRegister replaceRegister dest = some dest' := by
    intro dest hd
    cases dest with
    | memoryDest m =>
      obtain ⟨m', hm⟩ := hmem m hd
      exact ⟨_, by rw [replaceDestRegister, hm]; rfl⟩
    | registerDest r =>
      obtain ⟨r', hr⟩ := hreg r 64 (hd r (List.mem_singleton_self r))
      exact ⟨_, by rw [replaceDestRegister, hr]; rfl⟩
  have hoperands : ∀ make dest src, (∀ r ∈ dest.use ++ src.use, Known r) →
      ∃ insn', replaceOperands replaceRegister make dest src = some insn' := by
    intro make dest src h
    rw [List.forall_mem_append] at h
    obtain ⟨dest', hd⟩ := hdest dest h.1
    obtain ⟨src', hs⟩ := hsrc src h.2
    exact ⟨_, by rw [replaceOperands, hd, Option.bind_eq_bind, Option.bind_some, hs]; rfl⟩
  cases insn with
  | MOV dest src | CMP dest src | arith op dest src | logic op dest src =>
    exact hoperands _ dest src fun r hr habs => List.mem_filter.mpr ⟨hr, habs⟩
  | LEA dest src =>
    obtain ⟨dest', hd⟩ := hdest dest fun r hr habs => List.mem_filter.mpr ⟨List.mem_append_left _ hr, habs⟩
    obtain ⟨src', hs⟩ := hmem src fun r hr habs => List.mem_filter.mpr ⟨List.mem_append_right _ hr, habs⟩
    exact ⟨_, by rw [replaceInsnRegisters, hd, Option.bind_eq_bind, Option.bind_some, hs]; rfl⟩
  | INC dest | DEC dest =>
    obtain ⟨dest', hd⟩ := hdest dest fun r hr habs => List.mem_filter.mpr ⟨hr, habs⟩
    exact ⟨_, by rw [replaceInsnRegisters, hd]; rfl⟩
  | TEST reg1 reg2 =>
    obtain ⟨r1, h1⟩ := hreg reg1 64 fun habs => List.mem_filter.mpr ⟨List.mem_cons_self, habs⟩
    obtain ⟨r2, h2⟩ := hreg reg2 64 fun habs =>
      List.mem_filter.mpr ⟨List.mem_cons_of_mem _ List.mem_cons_self, habs⟩
    exact ⟨_, by rw [replaceInsnRegisters, h1, Option.bind_eq_bind, Option.bind_some, h2]; rfl⟩
  | PUSH r | POP r | DIV r | IMULSingle r | jumpSet op r =>
    obtain ⟨r', hr⟩ := hreg r _ fun habs => List.mem_filter.mpr ⟨List.mem_singleton_self r, habs⟩
    exact ⟨_, by rw [replaceInsnRegisters, hr]; rfl⟩
  | _ => exact ⟨_, rfl⟩

end RegisterAllocator

end Jaek
