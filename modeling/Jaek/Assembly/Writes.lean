import Jaek.Assembly.UseDef

/-!
# What an instruction writes

`Instruction.writes` is `exec` told apart from the state it starts in: the values that go to registers, by
name, the words that go to memory, and the flags. It depends on the registers in `reads`, the words at the
addresses in `loads` and the flags only (`writes_congr`), whatever the registers are called. The register
allocators change the names, so that their correctness is a statement about the writes of an instruction and
those of its replacement.
-/

namespace Jaek

open x86Name

namespace State

/-- The value of a register, by name. -/
def get (s : State) : RegName → Word
  | .abstract name => s.abs name
  | .x86 name => s.phys name

def put (s : State) (n : RegName) (v : Word) : State :=
  match n with
  | .abstract name => { s with abs := Function.update s.abs name v }
  | .x86 name => { s with phys := Function.update s.phys name v }

theorem value_eq_get (s : State) (r : Register) : s.value r = s.get r.regName := by
  cases r <;> rfl

theorem get_put (s : State) (n n' : RegName) (v : Word) :
    (s.put n v).get n' = if n' = n then v else s.get n' := by
  cases n <;> cases n' <;> simp [get, put, Function.update_apply]

end State

/-- Registers in the order in which they are written, words of memory with their addresses, and flags. -/
structure Writes where
  regs : List (RegName × Word)
  words : List (Word × Word)
  flags : Flags

namespace Writes

def apply (w : Writes) (s : State) : State :=
  { w.regs.foldl (fun s p => s.put p.1 p.2) s with
    mem := w.words.foldl (fun m p => m.store p.1 p.2) s.mem
    flags := w.flags }

/-- The same values in registers of other names. -/
def rename (g : RegName → RegName) (w : Writes) : Writes :=
  { w with regs := w.regs.map fun p => (g p.1, p.2) }

end Writes

namespace Writes

variable {w : Writes} {s t : State} {n : RegName}

theorem get_apply : (w.apply s).get n = (w.regs.foldl (fun s p => s.put p.1 p.2) s).get n := by
  cases n <;> rfl

theorem get_apply_of_not_mem (h : n ∉ w.regs.map Prod.fst) : (w.apply s).get n = s.get n := by
  have hfold : ∀ (regs : List (RegName × Word)) (s : State), n ∉ regs.map Prod.fst →
      (regs.foldl (fun s p => s.put p.1 p.2) s).get n = s.get n := by
    intro regs
    induction regs with
    | nil => exact fun _ _ => rfl
    | cons p regs ih =>
      intro s h
      rw [List.map_cons, List.mem_cons, not_or] at h
      rw [List.foldl_cons, ih _ h.2, State.get_put, if_neg h.1]
  rw [get_apply, hfold w.regs s h]

/-- Registers that hold the same under their new names do so after the writes, and so do those written, where
no two are given one name. -/
theorem get_apply_rename {g : RegName → RegName} {M N : Set RegName} (hinj : Set.InjOn g M) (hN : N ⊆ M)
    (hregs : ∀ p ∈ w.regs, p.1 ∈ M) (h : ∀ n ∈ N, t.get (g n) = s.get n) (hn : n ∈ M)
    (hmem : n ∈ N ∨ n ∈ w.regs.map Prod.fst) : ((w.rename g).apply t).get (g n) = (w.apply s).get n := by
  have hfold : ∀ (regs : List (RegName × Word)) (N : Set RegName) (s t : State), N ⊆ M →
      (∀ p ∈ regs, p.1 ∈ M) → (∀ n ∈ N, t.get (g n) = s.get n) → n ∈ N ∨ n ∈ regs.map Prod.fst →
      ((regs.map fun p => (g p.1, p.2)).foldl (fun s p => s.put p.1 p.2) t).get (g n) =
        (regs.foldl (fun s p => s.put p.1 p.2) s).get n := by
    intro regs
    induction regs with
    | nil => exact fun N s t _ _ h hmem => h n (hmem.resolve_right List.not_mem_nil)
    | cons p regs ih =>
      intro N s t hN hregs h hmem
      rw [List.forall_mem_cons] at hregs
      rw [List.map_cons, List.foldl_cons, List.foldl_cons]
      refine ih (insert p.1 N) _ _ (Set.insert_subset hregs.1 hN) hregs.2 ?_ ?_
      · intro n' hn'
        rw [State.get_put, State.get_put]
        by_cases heq : n' = p.1
        · rw [if_pos heq, if_pos (congrArg g heq)]
        · have hn' := hn'.resolve_left heq
          rw [if_neg heq, if_neg fun hg => heq (hinj (hN hn') hregs.1 hg), h n' hn']
      · rw [List.map_cons, List.mem_cons] at hmem
        rcases hmem with hmem | rfl | hmem
        · exact .inl (.inr hmem)
        · exact .inl (.inl rfl)
        · exact .inr hmem
  rw [get_apply, get_apply]
  exact hfold w.regs N s t hN hregs h hmem

end Writes

/-! ## The writes of an instruction -/

/-- A value goes to a destination. -/
def Destination.writes (L : String → Word) (s : State) (v : Word) (f : Flags) : Destination → Writes
  | memoryDest m => ⟨[], [(s.address L m, v)], f⟩
  | registerDest r => ⟨[(r.regName, v)], [], f⟩

/-- What an instruction that does not transfer control writes; `none` is a fault. -/
def Instruction.writes (L : String → Word) (s : State) : Instruction → Option Writes
  | COMMENT _ | NOP | label _ _ => some ⟨[], [], s.flags⟩
  | MOV dest src => some (dest.writes L s (s.source L src) s.flags)
  | arith op dest src =>
    let r := op.eval (s.read L dest) (s.source L src) s.flags
    some (dest.writes L s r.1 r.2)
  | LEA dest src => some (dest.writes L s (s.address L src) s.flags)
  | INC dest =>
    let a := s.read L dest
    some (dest.writes L s (a + 1) { Flags.add a 1 with CF := s.flags.CF })
  | DEC dest =>
    let a := s.read L dest
    some (dest.writes L s (a - 1) { Flags.sub a 1 with CF := s.flags.CF })
  | logic op dest src =>
    let r := op.eval (s.read L dest) (s.source L src) s.flags
    some (dest.writes L s r.1 r.2)
  | CMP dest src => some ⟨[], [], .sub (s.read L dest) (s.source L src)⟩
  | TEST reg1 reg2 => some ⟨[], [], .logic (s.value reg1 &&& s.value reg2)⟩
  | jumpSet op reg =>
    some ⟨[(reg.regName, (s.value reg &&& 0xFFFFFFFFFFFFFF00) ||| boolWord (op.bit s.flags))], [], s.flags⟩
  | CQO => some ⟨[(.x86 RDX, if (s.phys RAX).msb then -1 else 0)], [], s.flags⟩
  | PUSH arg => some ⟨[(.x86 RSP, s.phys RSP - 8)], [(s.phys RSP - 8, s.value arg)], s.flags⟩
  | PAD => some ⟨[(.x86 RSP, s.phys RSP - 8)], [(s.phys RSP - 8, 204)], s.flags⟩
  | POP dest => some ⟨[(.x86 RSP, s.phys RSP + 8), (dest.regName, s.mem.load (s.phys RSP))], [], s.flags⟩
  | ENTER bytes =>
    if bytes.toNat < 2 ^ 16 then
      some ⟨[(.x86 RSP, s.phys RSP - 8), (.x86 RBP, s.phys RSP - 8), (.x86 RSP, s.phys RSP - 8 - bytes)],
        [(s.phys RSP - 8, s.phys RBP)], s.flags⟩
    else none
  | LEAVE =>
    some ⟨[(.x86 RSP, s.phys RBP), (.x86 RSP, s.phys RBP + 8), (.x86 RBP, s.mem.load (s.phys RBP))], [],
      s.flags⟩
  | DIV divisor =>
    (idiv (s.phys RDX) (s.phys RAX) (s.value divisor)).map fun p =>
      ⟨[(.x86 RAX, p.1), (.x86 RDX, p.2)], [], s.flags⟩
  | IMULSingle factor =>
    let a := s.phys RAX
    let b := s.value factor
    some ⟨[(.x86 RAX, a * b), (.x86 RDX, highMul a b)], [], .mul a b s.flags⟩
  | jump _ _ | CALL _ | RET | CALLERSAVEPUSH | CALLERSAVEPOP => none

/-- The registers whose values, or parts of them, go into what an instruction writes. -/
def Instruction.reads : Instruction → List Register
  | jumpSet _ reg => [reg]
  | DIV divisor => [divisor, .x86 RAX, .x86 RDX]
  | insn => insn.use

/-- The addresses of the words an instruction loads. -/
def Source.loads (L : String → Word) (s : State) : Source → List Word
  | memorySrc m => [s.address L m]
  | _ => []

def Destination.loads (L : String → Word) (s : State) : Destination → List Word
  | memoryDest m => [s.address L m]
  | _ => []

def Instruction.loads (L : String → Word) (s : State) : Instruction → List Word
  | MOV _ src => src.loads L s
  | arith _ dest src => dest.loads L s ++ src.loads L s
  | INC dest => dest.loads L s
  | DEC dest => dest.loads L s
  | logic _ dest src => dest.loads L s ++ src.loads L s
  | CMP dest src => dest.loads L s ++ src.loads L s
  | POP _ => [s.phys RSP]
  | LEAVE => [s.phys RBP]
  | _ => []

section Exec

variable {L : String → Word} {s : State}

theorem write_eq_apply (dest : Destination) (v : Word) (f : Flags) :
    (s.write L dest v).setFlags f = (dest.writes L s v f).apply s := by
  cases dest with
  | memoryDest m => rfl
  | registerDest r => cases r <;> rfl

/-- An instruction without jumps does what its writes say. -/
theorem exec_eq_writes (insn : Instruction) :
    exec L insn s = (insn.writes L s).map fun w => w.apply s := by
  have hwrite : ∀ (dest : Destination) (v : Word), s.write L dest v = (dest.writes L s v s.flags).apply s := by
    intro dest v
    rw [← write_eq_apply]
    cases dest with
    | memoryDest m => rfl
    | registerDest r => cases r <;> rfl
  cases insn with
  | MOV dest src => exact congrArg some (hwrite dest _)
  | LEA dest src => exact congrArg some (hwrite dest _)
  | arith op dest src => exact congrArg some (write_eq_apply dest _ _)
  | INC dest => exact congrArg some (write_eq_apply dest _ _)
  | DEC dest => exact congrArg some (write_eq_apply dest _ _)
  | logic op dest src => exact congrArg some (write_eq_apply dest _ _)
  | jumpSet op reg => cases reg <;> rfl
  | POP dest => cases dest <;> rfl
  | DIV divisor =>
    rw [exec, Instruction.writes, Option.map_map]
    cases idiv (s.phys RDX) (s.phys RAX) (s.value divisor) <;> rfl
  | ENTER bytes =>
    rw [exec, Instruction.writes]
    split_ifs <;> rfl
  | _ => rfl

/-- Only the registers of `def` are written. -/
theorem writes_def {insn : Instruction} {w : Writes} (h : insn.writes L s = some w) {p : RegName × Word}
    (hp : p ∈ w.regs) : p.1 ∈ names insn.def := by
  have hdest : ∀ (dest : Destination) (v : Word) (f : Flags), p ∈ (dest.writes L s v f).regs →
      p.1 ∈ names dest.def := by
    intro dest v f hp
    cases dest with
    | memoryDest m => cases hp
    | registerDest r =>
      rw [List.mem_singleton.mp hp]
      exact mem_names.mpr ⟨r, List.mem_singleton_self r, rfl⟩
  cases insn with
  | MOV dest src | LEA dest src | arith op dest src | logic op dest src | INC dest | DEC dest =>
    cases h
    exact hdest dest _ _ hp
  | DIV divisor =>
    obtain ⟨q, -, rfl⟩ := Option.map_eq_some_iff.mp h
    simp only [List.mem_cons, List.not_mem_nil, or_false] at hp
    rcases hp with rfl | rfl <;> simp [names, Instruction.def, Register.regName]
  | COMMENT | NOP | label | CMP | TEST =>
    cases h
    cases hp
  | jump | CALL | RET | CALLERSAVEPUSH | CALLERSAVEPOP => cases h
  | ENTER bytes =>
    rw [Instruction.writes] at h
    split_ifs at h
    cases h
    fin_cases hp <;> simp [names, Instruction.def, Register.regName]
  | _ =>
    cases h
    fin_cases hp <;> simp [names, Instruction.def, Register.regName]

/-- An abstract register that an instruction reads or defines is involved in it. -/
theorem mem_involved {insn : Instruction} {r : Register} (h : r ∈ insn.reads ∨ r ∈ insn.def)
    (hr : r.isAbstract) : r ∈ insn.involved := by
  have hx86 : ∀ n, r ≠ .x86 n := by
    rintro n rfl
    cases hr
  have hdest : ∀ dest : Destination, r ∈ dest.def → r ∈ dest.use := by
    intro dest h
    cases dest with
    | memoryDest m => cases h
    | registerDest r' => exact h
  refine List.mem_filter.mpr ⟨?_, hr⟩
  cases insn with
  | MOV dest src =>
    cases dest with
    | memoryDest m =>
      rw [Instruction.def, Destination.def] at h
      exact List.mem_append.mpr (List.mem_append.mp (h.resolve_right List.not_mem_nil)).symm
    | registerDest r' => exact List.mem_append.mpr h.symm
  | LEA dest src | arith op dest src | logic op dest src =>
    exact h.elim id fun h => List.mem_append_left _ (hdest dest h)
  | CMP dest src | TEST reg1 reg2 => exact h.resolve_right List.not_mem_nil
  | INC dest | DEC dest => exact h.elim id (hdest dest)
  | jumpSet op reg => exact h.elim id id
  | PUSH | POP | DIV | IMULSingle =>
    simpa [Instruction.reads, Instruction.use, Instruction.def, hx86] using h
  | _ => simp [Instruction.reads, Instruction.use, Instruction.def, hx86] at h

end Exec

end Jaek
