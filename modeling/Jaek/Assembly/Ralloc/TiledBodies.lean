import Jaek.Assembly.Displacement
import Jaek.Assembly.Ralloc.TrivialSimulation

/-!
# Trivial allocation of tiled bodies

The allocator asserts that no instruction has more than three abstract registers, and assumes that nobody uses
its three registers before it does. The tiles keep both promises: each of their instructions is `LEAVE`, `RET`
or `Ordinary` (`optimalTile_ordinary`), so that every tiled body has code, and the code has no abstract
registers left. That code runs as the body does as long as the frame fits the size of `ENTER`, that is, up to
8190 abstract registers (`allocateRegisters_tiled_iff`).
-/

namespace Jaek

namespace TrivialRegisterAllocator

open x86Name

/-! ## Ordinary instructions -/

/-- The registers of the tiles, the byte of a `SETcc` apart. -/
def Tame (r : Register) : Prop := ¬ r.isByte ∧ ∀ n ∈ RBP :: defaults, r.regName ≠ .x86 n

/-- Abstract registers are tame. -/
theorem tame_abstract (x : String) : Tame (.abstract x) := ⟨Bool.false_ne_true, fun _ _ h => by cases h⟩

/-- So are the registers that the tiles make up. -/
theorem tame_fresh (k : ℕ) : Tame (freshRegister k) := tame_abstract _

/-- So are machine registers, other than the base pointer and the three that the allocator uses. -/
theorem tame_x86 {n : x86Name} (hn : n ∉ RBP :: defaults) : Tame (.x86 n) := by
  refine ⟨Bool.false_ne_true, fun m hm h => hn ?_⟩
  cases h
  exact hm

/-- Every instruction can be given machine registers. -/
def AllOrdinary (insns : List Instruction) : Prop := ∀ insn ∈ insns, Ordinary insn

section Ordinary

variable {insn : Instruction} {insns insns' : List Instruction} {dest : Destination} {src : Source} {r r' : Register}

/-- There are no more registers to replace than the instruction involves. -/
theorem length_encountered_le : (encountered insn).length ≤ insn.involved.length := by
  have hfold : ∀ rs acc : List Register, (rs.foldl addNew acc).length ≤ acc.length + rs.length := by
    intro rs
    induction rs with
    | nil => exact fun _ => le_rfl
    | cons r rs ih =>
      intro acc
      refine (ih _).trans ?_
      have hadd : (addNew acc r).length ≤ acc.length + 1 := by
        unfold addNew
        split <;> simp
      rw [List.length_cons]
      omega
  exact (hfold insn.involved []).trans_eq (Nat.zero_add _)

/-- An instruction with at most three registers, all tame, can be given machine registers. -/
theorem Ordinary.of_tame (hfew : insn.involved.length ≤ 3) (hwide : ¬ insn.isByte)
    (htame : ∀ r ∈ insn.reads ++ insn.def, ∀ n ∈ RBP :: defaults, r.regName ≠ .x86 n) : Ordinary insn where
  few := length_encountered_le.trans hfew
  wide := hwide
  clear r hr n hn := htame r hr n (.tail _ hn)
  base h := by
    obtain ⟨r, hr, hname⟩ := mem_names.mp h
    exact htame r (List.mem_append_right _ hr) RBP List.mem_cons_self hname

/-- Instructions in a row. -/
theorem allOrdinary_append : AllOrdinary (insns ++ insns') ↔ AllOrdinary insns ∧ AllOrdinary insns' :=
  List.forall_mem_append

/-- One instruction and the rest. -/
theorem allOrdinary_cons : AllOrdinary (insn :: insns) ↔ Ordinary insn ∧ AllOrdinary insns :=
  List.forall_mem_cons

/-- What a destination defines is among what it uses. -/
theorem Destination.def_subset_use (dest : Destination) : dest.def ⊆ dest.use := by
  cases dest with
  | memoryDest => exact List.nil_subset _
  | registerDest r => exact List.Subset.refl _

/-- An instruction with two operands, of which the first may be written. -/
theorem ordinary_operands (hfew : dest.use.length + src.use.length ≤ 3)
    (htame : ∀ r ∈ dest.use ++ src.use, Tame r) :
    Ordinary (.MOV dest src) ∧ (∀ op, Ordinary (.arith op dest src)) ∧ (∀ op, Ordinary (.logic op dest src)) ∧
      Ordinary (.CMP dest src) := by
  have hfew : ((dest.use ++ src.use).filter Register.isAbstract).length ≤ 3 :=
    (List.length_filter_le _ _).trans (List.length_append.trans_le hfew)
  have hwide : ∀ r, dest = .registerDest r → ¬ r.isByte := by
    rintro r rfl
    exact (htame r List.mem_cons_self).1
  have hnames : ∀ r ∈ (dest.use ++ src.use) ++ dest.def, ∀ n ∈ RBP :: defaults, r.regName ≠ .x86 n := by
    intro r hr
    refine (htame r ?_).2
    exact (List.mem_append.mp hr).elim id fun h => List.mem_append_left _ (Destination.def_subset_use dest h)
  have hcmp : ∀ r ∈ (dest.use ++ src.use) ++ [], ∀ n ∈ RBP :: defaults, r.regName ≠ .x86 n := by
    intro r hr
    rw [List.append_nil] at hr
    exact (htame r hr).2
  cases dest with
  | memoryDest m =>
    refine ⟨.of_tame hfew Bool.false_ne_true ?_, fun op => .of_tame hfew Bool.false_ne_true hnames,
      fun op => .of_tame hfew Bool.false_ne_true hnames, .of_tame hfew Bool.false_ne_true hcmp⟩
    intro r hr
    refine (htame r ?_).2
    simpa [Instruction.reads, Instruction.use, Instruction.def, Destination.def, Destination.use, or_comm] using hr
  | registerDest r =>
    refine ⟨.of_tame hfew (hwide r rfl) ?_, fun op => .of_tame hfew (hwide r rfl) hnames,
      fun op => .of_tame hfew (hwide r rfl) hnames, .of_tame hfew (hwide r rfl) hcmp⟩
    intro r hr
    refine (htame r ?_).2
    simpa [Instruction.reads, Instruction.use, Instruction.def, Destination.def, Destination.use, or_comm] using hr

/-- The instructions between two registers. -/
theorem ordinary_registers (hr : Tame r) (hr' : Tame r') :
    Ordinary (.MOV (.registerDest r) (.registerSrc r')) ∧
      (∀ op, Ordinary (.arith op (.registerDest r) (.registerSrc r'))) ∧
      (∀ op, Ordinary (.logic op (.registerDest r) (.registerSrc r'))) ∧
      Ordinary (.CMP (.registerDest r) (.registerSrc r')) := by
  refine ordinary_operands (Nat.le_succ 2) fun q hq => ?_
  simp only [Destination.use, Source.use, List.mem_append, List.mem_singleton] at hq
  rcases hq with rfl | rfl
  · exact hr
  · exact hr'

/-- The instructions between a register and a constant. -/
theorem ordinary_const (hr : Tame r) (c : Word) :
    Ordinary (.MOV (.registerDest r) (.constSrc c)) ∧
      (∀ op, Ordinary (.arith op (.registerDest r) (.constSrc c))) ∧
      Ordinary (.CMP (.registerDest r) (.constSrc c)) := by
  have htame : ∀ q ∈ (Destination.registerDest r).use ++ (Source.constSrc c).use, Tame q := by
    intro q hq
    simp only [Destination.use, Source.use, List.append_nil, List.mem_singleton] at hq
    exact hq ▸ hr
  have hfew : (Destination.registerDest r).use.length + (Source.constSrc c).use.length ≤ 3 := (by decide : 1 ≤ 3)
  obtain ⟨hmov, harith, -, hcmp⟩ := ordinary_operands hfew htame
  exact ⟨hmov, harith, hcmp⟩

/-- A word that is loaded or stored, or an address. -/
theorem ordinary_memory {m : Memory} (hr : Tame r) (hlen : m.involved.length ≤ 2) (hm : ∀ r ∈ m.involved, Tame r) :
    Ordinary (.MOV (.registerDest r) (.memorySrc m)) ∧ Ordinary (.MOV (.memoryDest m) (.registerSrc r)) ∧
      Ordinary (.LEA (.registerDest r) m) := by
  have hall : ∀ q, q = r ∨ q ∈ m.involved → Tame q := by
    rintro q (rfl | hq)
    · exact hr
    · exact hm q hq
  refine ⟨(ordinary_operands ?_ fun q hq => hall q ?_).1, (ordinary_operands ?_ fun q hq => hall q ?_).1,
    .of_tame ?_ hr.1 fun q hq => (hall q ?_).2⟩
  · exact (Nat.add_le_add_left hlen 1)
  · simpa [Destination.use, Source.use] using hq
  · exact (Nat.add_le_add_right hlen 1)
  · simpa [Destination.use, Source.use, or_comm] using hq
  · exact (List.length_filter_le _ _).trans (Nat.succ_le_succ hlen)
  · simpa [Instruction.reads, Instruction.use, Instruction.def, Destination.def, Destination.use, or_assoc,
      or_comm, or_left_comm] using hq

/-- The instructions with one register. -/
theorem ordinary_unary (hr : Tame r) : Ordinary (.DIV r) ∧ Ordinary (.IMULSingle r) ∧ Ordinary (.PUSH r) ∧
    Ordinary (.POP r) := by
  have hfew : ([r].filter Register.isAbstract).length ≤ 3 :=
    (List.length_filter_le _ _).trans (by decide : 1 ≤ 3)
  have hnames : ∀ q, q = r ∨ q ∈ [.x86 RAX, .x86 RDX, .x86 RSP] →
      ∀ n ∈ RBP :: defaults, q.regName ≠ .x86 n := by
    intro q hq
    simp only [List.mem_cons, List.not_mem_nil, or_false] at hq
    rcases hq with rfl | rfl | rfl | rfl
    · exact hr.2
    · exact (tame_x86 (by decide : RAX ∉ RBP :: defaults)).2
    · exact (tame_x86 (by decide : RDX ∉ RBP :: defaults)).2
    · exact (tame_x86 (by decide : RSP ∉ RBP :: defaults)).2
  refine ⟨.of_tame hfew hr.1 fun q hq => hnames q ?_, .of_tame hfew hr.1 fun q hq => hnames q ?_,
    .of_tame hfew hr.1 fun q hq => hnames q ?_, .of_tame hfew hr.1 fun q hq => hnames q ?_⟩
  all_goals
    simp only [Instruction.reads, Instruction.use, Instruction.def, List.mem_append, List.mem_cons,
      List.not_mem_nil, or_false] at hq ⊢
    tauto

/-- The test of two tame registers. -/
theorem ordinary_test (hr : Tame r) (hr' : Tame r') : Ordinary (.TEST r r') := by
  refine .of_tame ((List.length_filter_le _ _).trans (Nat.le_succ 2)) hr.1 fun q hq => ?_
  simp only [Instruction.reads, Instruction.use, Instruction.def, List.append_nil, List.mem_cons,
    List.not_mem_nil, or_false] at hq
  rcases hq with rfl | rfl
  · exact hr.2
  · exact hr'.2

/-- The conditional set of an abstract register. -/
theorem ordinary_jumpSet (op : JumpSet) (x : String) (size : ℕ) : Ordinary (.jumpSet op (.abstract x size)) :=
  .of_tame (by decide : 1 ≤ 3) Bool.false_ne_true fun q hq n _ h => by
    simp only [Instruction.reads, Instruction.def, List.cons_append, List.nil_append, List.mem_cons,
      List.not_mem_nil, or_false, or_self] at hq
    subst hq
    cases h

/-- Instructions without operands. -/
theorem ordinary_plain (hfew : insn.involved = []) (hwide : ¬ insn.isByte)
    (hnames : ∀ r ∈ insn.reads ++ insn.def, ∃ n ∉ RBP :: defaults, r = .x86 n) : Ordinary insn := by
  refine .of_tame (hfew ▸ Nat.zero_le 3) hwide fun r hr => ?_
  obtain ⟨n, hn, rfl⟩ := hnames r hr
  exact (tame_x86 hn).2

/-- The instructions without registers. -/
theorem ordinary_none (hfew : insn.involved = []) (hwide : ¬ insn.isByte) (hnames : insn.reads ++ insn.def = []) :
    Ordinary insn :=
  ordinary_plain hfew hwide (by rw [hnames]; exact List.forall_mem_nil _)

end Ordinary

/-! ## Expressions -/

/-- The operand of an address has two temps at most. -/
theorem detected_tame {e : LIRExpr} {m : Memory} (h : detectMemoryFriendly e = some m) :
    m.involved.length ≤ 2 ∧ ∀ r ∈ m.involved, Tame r := by
  have hmem : ∀ (t t' : Option String) c shift, ∀ m, Memory.registerMem (t.map .abstract) (t'.map .abstract) c shift = m →
      m.involved.length ≤ 2 ∧ ∀ r ∈ m.involved, Tame r := by
    rintro t t' c shift m rfl
    cases t <;> cases t' <;> simp [Memory.involved, tame_abstract]
  unfold detectMemoryFriendly at h
  split at h
  · obtain ⟨a, -, h⟩ := Option.bind_eq_some_iff.mp h
    unfold Addends.memory at h
    split at h
    · cases h
      exact hmem (some _) (some _) _ _ _ rfl
    · obtain ⟨shift, -, rfl⟩ := Option.map_eq_some_iff.mp h
      exact hmem (some _) (some _) _ _ _ rfl
    · cases h
      exact hmem (some _) none _ _ _ rfl
    · cases h
      exact hmem (some _) (some _) _ _ _ rfl
    · obtain ⟨shift, -, rfl⟩ := Option.map_eq_some_iff.mp h
      exact hmem (some _) (some _) _ _ _ rfl
    · obtain ⟨shift, -, rfl⟩ := Option.map_eq_some_iff.mp h
      exact hmem none (some _) _ _ _ rfl
    · cases h
  · unfold detectMFFactors at h
    split at h
    · obtain ⟨shift, -, rfl⟩ := Option.map_eq_some_iff.mp h
      exact hmem none (some _) _ _ _ rfl
    · obtain ⟨shift, -, rfl⟩ := Option.map_eq_some_iff.mp h
      exact hmem none (some _) _ _ _ rfl
    · cases h
  · cases h

/-- The comment of a tile. -/
theorem ordinary_builder : Ordinary builderComment := ordinary_none rfl Bool.false_ne_true rfl

/-- The comment adds nothing to the condition. -/
theorem allOrdinary_builder {insns : List Instruction} :
    AllOrdinary (builderComment :: insns) ↔ AllOrdinary insns := by
  rw [allOrdinary_cons, and_iff_right ordinary_builder]

/-- The instructions of an operator on tame registers. -/
theorem operation_ordinary (o : OpType) {left right : Register} (hl : Tame left) (hr : Tame right) (k : ℕ) :
    AllOrdinary (LIROp.operation o left right k).2 := by
  have hout := tame_fresh k
  have hrax : Tame (.x86 RAX) := tame_x86 (by decide)
  have hrdx : Tame (.x86 RDX) := tame_x86 (by decide)
  have hmov := (ordinary_registers hout hl).1
  have hcmp := (ordinary_registers hl hr).2.2.2
  have hcqo : Ordinary .CQO := ordinary_plain rfl Bool.false_ne_true fun r hr => by
    simp only [Instruction.reads, Instruction.use, Instruction.def, List.mem_append, List.mem_cons,
      List.not_mem_nil, or_false] at hr
    rcases hr with rfl | rfl | rfl
    · exact ⟨RAX, by decide, rfl⟩
    · exact ⟨RDX, by decide, rfl⟩
    · exact ⟨RAX, by decide, rfl⟩
  have hcompare : ∀ op, AllOrdinary (LIROp.compare op left right (freshRegister k) (freshName k)) := by
    intro op
    simp only [LIROp.compare, allOrdinary_cons]
    exact ⟨(ordinary_registers hout hout).2.2.1 .XOR, hcmp, ordinary_jumpSet op _ 8, List.forall_mem_nil _⟩
  have hdivide : ∀ result, Tame (.x86 result) → AllOrdinary (LIROp.divide result left right (freshRegister k)) := by
    intro result hresult
    simp only [LIROp.divide, allOrdinary_cons]
    exact ⟨(ordinary_registers hrax hl).1, hcqo, (ordinary_unary hr).1, (ordinary_registers hout hresult).1,
      List.forall_mem_nil _⟩
  have harith : ∀ op, AllOrdinary (LIROp.copyAnd (.arith op) left right (freshRegister k)) := by
    intro op
    simp only [LIROp.copyAnd, allOrdinary_cons]
    exact ⟨hmov, (ordinary_registers hout hr).2.1 op, List.forall_mem_nil _⟩
  have hlogic : ∀ op, AllOrdinary (LIROp.copyAnd (.logic op) left right (freshRegister k)) := by
    intro op
    simp only [LIROp.copyAnd, allOrdinary_cons]
    exact ⟨hmov, (ordinary_registers hout hr).2.2.1 op, List.forall_mem_nil _⟩
  cases o with
  | ADD | SUB | MUL => exact harith _
  | AND | OR | XOR | LSHIFT | RSHIFT | ARSHIFT => exact hlogic _
  | EQ | NEQ | LT | ULT | GT | LEQ | GEQ => exact hcompare _
  | DIV => exact hdivide RAX hrax
  | MOD => exact hdivide RDX hrdx
  | HMUL =>
    simp only [LIROp.operation, allOrdinary_cons]
    exact ⟨(ordinary_registers hrax hr).1, (ordinary_unary hl).2.1, (ordinary_registers hout hrdx).1,
      List.forall_mem_nil _⟩

/-- The tile of an expression, and its output register. -/
theorem LIRExpr.optimalTile_ordinary (e : LIRExpr) {k k' : ℕ} {t : Tile.Expr}
    (h : e.optimalTile k = some (t, k')) : AllOrdinary t.instructions ∧ Tame t.outputRegister := by
  induction e generalizing k k' t with
  | const value =>
    cases h
    exact ⟨allOrdinary_cons.mpr ⟨(ordinary_const (tame_fresh _) value).1, List.forall_mem_nil _⟩, tame_fresh _⟩
  | temp x =>
    cases h
    exact ⟨List.forall_mem_nil _, tame_abstract x⟩
  | name l => cases h
  | mem address ih =>
    have hload : ∀ {m : Memory} {j : ℕ}, m.involved.length ≤ 2 → (∀ r ∈ m.involved, Tame r) →
        AllOrdinary [.MOV (.registerDest (freshRegister j)) (.memorySrc m)] := by
      intro m j hlen hm
      exact allOrdinary_cons.mpr ⟨(ordinary_memory (tame_fresh j) hlen hm).1, List.forall_mem_nil _⟩
    have hsmart : ∀ {j : ℕ} {t : Tile.Expr}, LIRMem.arrAccessTile address j = some t →
        AllOrdinary t.instructions ∧ Tame t.outputRegister := by
      intro j t ht
      obtain ⟨m, hm, rfl⟩ := Option.map_eq_some_iff.mp ht
      exact ⟨allOrdinary_builder.mpr (hload (detected_tame hm).1 (detected_tame hm).2), tame_fresh j⟩
    by_cases hname : ∃ l, address = .name l
    · obtain ⟨l, rfl⟩ := hname
      cases h
      refine attempt_of (P := fun t : Tile.Expr => AllOrdinary t.instructions ∧ Tame t.outputRegister)
        (fun t => t.cost) ⟨allOrdinary_builder.mpr (hload (m := .labelMem l) (Nat.zero_le 2) ?_), tame_fresh _⟩
        _ fun t => hsmart
      exact List.forall_mem_nil _
    · rw [LIRExpr.optimalTile] at h
      · obtain ⟨⟨addressTile, k₁⟩, haddress, h⟩ := Option.bind_eq_some_iff.mp h
        cases h
        obtain ⟨hcode, hout⟩ := ih haddress
        refine attempt_of (P := fun t : Tile.Expr => AllOrdinary t.instructions ∧ Tame t.outputRegister)
          (fun t => t.cost) ⟨?_, tame_fresh _⟩ _ fun t => hsmart
        simp only [LIRMem.defaultTile, List.cons_append, allOrdinary_builder, allOrdinary_append]
        exact ⟨hcode, hload (Nat.le_succ 1) (by simpa [Memory.involved] using hout)⟩
      · exact fun l hl => hname ⟨l, hl⟩
  | op o left right ihl ihr =>
    simp only [LIRExpr.optimalTile, Option.bind_eq_bind, Option.bind_eq_some_iff, Option.some.injEq,
      Prod.mk.injEq, Prod.exists] at h
    obtain ⟨leftTile, k₁, hleft, rightTile, k₂, hright, rfl, -⟩ := h
    obtain ⟨hlcode, hlout⟩ := ihl hleft
    obtain ⟨hrcode, hrout⟩ := ihr hright
    simp only [LIROp.defaultTile, List.cons_append, allOrdinary_builder, allOrdinary_append]
    exact ⟨⟨⟨hlcode, hrcode⟩, operation_ordinary o hlout hrout _⟩, tame_fresh _⟩

/-- The tiles of a list of expressions, and the registers that their values are in. -/
theorem optimalTiles_ordinary {es : List LIRExpr} {k k' : ℕ} {ts : List Tile.Expr}
    (h : optimalTiles es k = some (ts, k')) :
    ∀ t ∈ ts, AllOrdinary t.instructions ∧ Tame t.outputRegister := by
  induction es generalizing k ts with
  | nil =>
    cases h
    exact List.forall_mem_nil _
  | cons e es ih =>
    obtain ⟨⟨t, k₁⟩, ht, h⟩ := Option.bind_eq_some_iff.mp h
    obtain ⟨⟨ts', k₂⟩, hts, h⟩ := Option.bind_eq_some_iff.mp h
    cases h
    exact List.forall_mem_cons.mpr ⟨LIRExpr.optimalTile_ordinary e ht, ih hts⟩

/-! ## Statements -/

/-- The tile of a move. -/
theorem LIRMove.optimalTile_ordinary {dest expr : LIRExpr} {k k' : ℕ} {t : Tile}
    (h : LIRMove.optimalTile dest expr k = some (t, k')) : AllOrdinary t.instructions := by
  obtain ⟨⟨srcTile, k₁⟩, hsrc, h⟩ := Option.bind_eq_some_iff.mp h
  obtain ⟨⟨tile, k₂⟩, hdefault, h⟩ := Option.bind_eq_some_iff.mp h
  cases h
  obtain ⟨hcode, hout⟩ := LIRExpr.optimalTile_ordinary expr hsrc
  have htile : AllOrdinary tile.instructions := by
    have hstore : ∀ m : Memory, m.involved.length ≤ 2 → (∀ r ∈ m.involved, Tame r) →
        AllOrdinary [.MOV (.memoryDest m) (.registerSrc srcTile.outputRegister)] := by
      intro m hlen hm
      exact allOrdinary_cons.mpr ⟨(ordinary_memory hout hlen hm).2.1, List.forall_mem_nil _⟩
    unfold LIRMove.defaultTile at hdefault
    split at hdefault
    · cases hdefault
      simp only [List.cons_append, allOrdinary_builder, allOrdinary_append]
      exact ⟨hcode, hstore (.labelMem _) (Nat.zero_le 2) (List.forall_mem_nil _)⟩
    · obtain ⟨⟨destTile, k₃⟩, hdest, hdefault⟩ := Option.bind_eq_some_iff.mp hdefault
      cases hdefault
      obtain ⟨hdcode, hdout⟩ := LIRExpr.optimalTile_ordinary _ hdest
      simp only [List.cons_append, allOrdinary_builder, allOrdinary_append]
      exact ⟨⟨hcode, hdcode⟩, hstore _ (Nat.le_succ 1) (by simpa [Memory.involved] using hdout)⟩
    · cases hdefault
      simp only [List.cons_append, allOrdinary_builder, allOrdinary_append]
      exact ⟨hcode, allOrdinary_cons.mpr ⟨(ordinary_registers (tame_abstract _) hout).1, List.forall_mem_nil _⟩⟩
    · cases hdefault
  have hzero := attempt_of (P := fun t : Tile => AllOrdinary t.instructions) (fun t => t.cost) htile
    (LIRMove.zeroTile dest expr) fun t ht => by
      unfold LIRMove.zeroTile at ht
      split at ht
      · split_ifs at ht
        cases ht
        exact allOrdinary_builder.mpr (allOrdinary_cons.mpr
          ⟨(ordinary_registers (tame_abstract _) (tame_abstract _)).2.2.1 .XOR, List.forall_mem_nil _⟩)
      · cases ht
  have hinc := attempt_of (P := fun t : Tile => AllOrdinary t.instructions) (fun t => t.cost) hzero
    (LIRMove.incOrDec dest expr) fun t ht => by cases ht
  exact attempt_of (P := fun t : Tile => AllOrdinary t.instructions) (fun t => t.cost) hinc
    (LIRMove.addressHack dest expr) fun t ht => by
      unfold LIRMove.addressHack at ht
      split at ht
      · obtain ⟨m, hm, rfl⟩ := Option.map_eq_some_iff.mp ht
        exact allOrdinary_builder.mpr (allOrdinary_cons.mpr
          ⟨(ordinary_memory (tame_abstract _) (detected_tame hm).1 (detected_tame hm).2).2.2,
            List.forall_mem_nil _⟩)
      · cases ht

/-- A jump. -/
theorem ordinary_jump (op : Jump) (l : String) : Ordinary (.jump op l) :=
  ordinary_none rfl Bool.false_ne_true rfl

/-- The tile of a conditional jump. -/
theorem LIRTrueJump.optimalTile_ordinary {guard : LIRExpr} {l : String} {k k' : ℕ} {t : Tile}
    (h : LIRTrueJump.optimalTile guard l k = some (t, k')) : AllOrdinary t.instructions := by
  obtain ⟨⟨guardTile, k₁⟩, hguard, h⟩ := Option.bind_eq_some_iff.mp h
  obtain ⟨⟨exprGuardTile, zeroTile⟩, hop, h⟩ := Option.bind_eq_some_iff.mp h
  cases h
  let P (t : Tile) : Prop := AllOrdinary t.instructions
  have hjump : ∀ op, AllOrdinary [.jump op l] := fun op =>
    allOrdinary_cons.mpr ⟨ordinary_jump op l, List.forall_mem_nil _⟩
  obtain ⟨hcode, hout⟩ := LIRExpr.optimalTile_ordinary guard hguard
  have hdefault : P (LIRTrueJump.defaultTile guardTile l) := by
    simp only [P, LIRTrueJump.defaultTile, List.cons_append, allOrdinary_builder, allOrdinary_append]
    exact ⟨hcode, allOrdinary_cons.mpr ⟨ordinary_test hout hout, hjump _⟩⟩
  have hzeroJump : ∀ jump (tile : Tile.Expr), AllOrdinary tile.instructions → Tame tile.outputRegister →
      P (LIRTrueJump.zeroJump jump tile l) := by
    intro jump tile hcode hout
    simp only [P, LIRTrueJump.zeroJump, List.cons_append, allOrdinary_builder, allOrdinary_append]
    exact ⟨hcode, allOrdinary_cons.mpr ⟨(ordinary_const hout 0).2.2, hjump _⟩⟩
  have hops : (∀ t, exprGuardTile = some t → P t) ∧ ∀ t, zeroTile = some t → P t := by
    cases guard with
    | op o left right =>
      obtain ⟨⟨leftTile, k₂⟩, hleft, hop⟩ := Option.bind_eq_some_iff.mp hop
      obtain ⟨⟨rightTile, k₃⟩, hright, hop⟩ := Option.bind_eq_some_iff.mp hop
      cases hop
      obtain ⟨hlcode, hlout⟩ := LIRExpr.optimalTile_ordinary left hleft
      obtain ⟨hrcode, hrout⟩ := LIRExpr.optimalTile_ordinary right hright
      constructor
      · intro t ht
        obtain ⟨jump, -, rfl⟩ := Option.map_eq_some_iff.mp ht
        simp only [P, List.cons_append, allOrdinary_builder, allOrdinary_append, and_assoc]
        exact ⟨hlcode, hrcode, allOrdinary_cons.mpr ⟨(ordinary_registers hlout hrout).2.2.2, hjump _⟩⟩
      · intro t ht
        unfold LIRTrueJump.zeroNotZero at ht
        split at ht
        · split_ifs at ht <;> cases ht
          · exact hzeroJump _ _ hrcode hrout
          · exact hzeroJump _ _ hlcode hlout
        · split_ifs at ht <;> cases ht
          · exact hzeroJump _ _ hrcode hrout
          · exact hzeroJump _ _ hlcode hlout
        · cases ht
    | _ =>
      cases hop
      exact ⟨fun _ h => (by cases h), fun _ h => by cases h⟩
  -- the default first, then the attempts in the order of the source
  have hexpr := attempt_of (P := P) (fun t => t.cost) hdefault exprGuardTile hops.1
  have hzero := attempt_of (P := P) (fun t => t.cost) hexpr zeroTile hops.2
  have htrue := attempt_of (P := P) (fun t => t.cost) hzero (LIRTrueJump.alwaysTrue guard l) fun t ht => by
    unfold LIRTrueJump.alwaysTrue at ht
    split_ifs at ht
    cases ht
    exact allOrdinary_builder.mpr (hjump _)
  exact attempt_of (P := P) (fun t => t.cost) htrue (LIRTrueJump.alwaysFalse guard) fun t ht => by
    unfold LIRTrueJump.alwaysFalse at ht
    split_ifs at ht
    cases ht
    exact allOrdinary_builder.mpr (List.forall_mem_nil _)

/-- The registers that arguments are passed in are none of the allocator's. -/
theorem argRegister_tame {index : ℕ} {reg : x86Name} (h : ConventionalCaller.argRegister index = some reg) :
    Tame (.x86 reg) := by
  unfold ConventionalCaller.argRegister at h
  split at h <;> cases h <;> exact tame_x86 (by decide)

/-- Putting an argument where it is passed. -/
theorem putArg_ordinary (n i : ℕ) {r : Register} (hr : Tame r) : Ordinary (ConventionalCaller.putArg n i r) := by
  unfold ConventionalCaller.putArg
  split
  · rename_i reg h
    exact (ordinary_registers (argRegister_tame h) hr).1
  · exact (ordinary_unary hr).2.2.1

/-- Fetching a result. -/
theorem getReturn_ordinary (i : ℕ) : Ordinary (ConventionalCaller.getReturn i) := by
  unfold ConventionalCaller.getReturn
  split
  · exact (ordinary_registers (tame_abstract _) (tame_x86 (by decide))).1
  · exact (ordinary_registers (tame_abstract _) (tame_x86 (by decide))).1
  · exact (ordinary_unary (tame_abstract _)).2.2.2

/-- The call instruction. -/
theorem ordinary_call (target : String) : Ordinary (.CALL target) := by
  refine ordinary_plain rfl Bool.false_ne_true fun r hr => ?_
  have hnames : ∀ r, r ∈ Instruction.reads (.CALL target) ++ Instruction.def (.CALL target) →
      ∃ n ∈ [RSP, RDI, RSI, RDX, RCX, R8, R9, RAX, R10, R11], r = .x86 n := by
    simp [Instruction.reads, Instruction.use, Instruction.def]
  obtain ⟨n, hn, rfl⟩ := hnames r hr
  have hclear : ∀ n ∈ [RSP, RDI, RSI, RDX, RCX, R8, R9, RAX, R10, R11], n ∉ RBP :: defaults := by decide
  exact ⟨n, hclear n hn, rfl⟩

/-- The tile of a call. -/
theorem LIRCallStmt.optimalTile_ordinary {target : String} {n_returns : ℕ} {args : List LIRExpr} {k k' : ℕ}
    {t : Tile} (h : LIRCallStmt.optimalTile target n_returns args k = some (t, k')) :
    AllOrdinary t.instructions := by
  obtain ⟨⟨tiles, k₁⟩, htiles, h⟩ := Option.bind_eq_some_iff.mp h
  cases h
  have hordinary := optimalTiles_ordinary htiles
  have hrsp : Tame (.x86 RSP) := tame_x86 (by decide)
  have hrdi : Tame (.x86 RDI) := tame_x86 (by decide)
  have hpad : Ordinary .PAD := ordinary_plain rfl Bool.false_ne_true fun r hr => by
    simp only [Instruction.reads, Instruction.use, Instruction.def, List.cons_append, List.nil_append,
      List.mem_cons, List.not_mem_nil, or_false, or_self] at hr
    exact ⟨RSP, by decide, hr⟩
  have hcomment : ∀ str, Ordinary (.COMMENT str) := fun _ => ordinary_none rfl Bool.false_ne_true rfl
  have hsaves : Ordinary .CALLERSAVEPUSH ∧ Ordinary .CALLERSAVEPOP :=
    ⟨ordinary_none rfl Bool.false_ne_true rfl, ordinary_none rfl Bool.false_ne_true rfl⟩
  have hite : ∀ {c : Prop} [Decidable c] {xs : List Instruction}, AllOrdinary xs →
      AllOrdinary (if c then xs else []) := by
    intro c _ xs hxs
    split_ifs
    · exact hxs
    · exact List.forall_mem_nil _
  have harguments : AllOrdinary (tiles.zipIdx.flatMap fun p => p.1.instructions ++
      [ConventionalCaller.putArg n_returns (args.length - p.2) p.1.outputRegister]) := by
    intro insn hinsn
    obtain ⟨p, hp, hinsn⟩ := List.mem_flatMap.mp hinsn
    obtain ⟨hcode, hout⟩ := hordinary p.1 (List.fst_mem_of_mem_zipIdx hp)
    rcases List.mem_append.mp hinsn with hinsn | hinsn
    · exact hcode insn hinsn
    · exact List.mem_singleton.mp hinsn ▸ putArg_ordinary _ _ hout
  have hreturns : AllOrdinary ((List.range n_returns).map fun i => ConventionalCaller.getReturn (i + 1)) := by
    intro insn hinsn
    obtain ⟨i, -, rfl⟩ := List.mem_map.mp hinsn
    exact getReturn_ordinary _
  have hadd : ∀ op c, Ordinary (.arith op (.registerDest (.x86 RSP)) (.constSrc c)) :=
    fun op c => (ordinary_const hrsp c).2.1 op
  simp only [allOrdinary_append, allOrdinary_cons]
  exact ⟨⟨⟨⟨⟨⟨⟨⟨⟨ordinary_builder, hsaves.1, List.forall_mem_nil _⟩,
    hite (allOrdinary_cons.mpr ⟨hcomment _, allOrdinary_cons.mpr ⟨hpad, List.forall_mem_nil _⟩⟩)⟩,
    hite (allOrdinary_cons.mpr ⟨hadd _ _, allOrdinary_cons.mpr ⟨(ordinary_registers hrdi hrsp).1,
      List.forall_mem_nil _⟩⟩)⟩, harguments⟩, ordinary_call target, List.forall_mem_nil _⟩,
    hite (allOrdinary_cons.mpr ⟨hcomment _, allOrdinary_cons.mpr ⟨hadd _ _, List.forall_mem_nil _⟩⟩)⟩, hreturns⟩,
    hite (allOrdinary_cons.mpr ⟨hcomment _, allOrdinary_cons.mpr ⟨hadd _ _, List.forall_mem_nil _⟩⟩)⟩,
    hsaves.2, List.forall_mem_nil _⟩

/-- The tile of a return ends with `LEAVE` and `RET`, and can be given machine registers up to there. -/
theorem LIRReturn.optimalTile_ordinary {valList : List LIRExpr} {k k' : ℕ} {t : Tile}
    (h : LIRReturn.optimalTile valList k = some (t, k')) :
    ∃ insns, t.instructions = insns ++ [.LEAVE, .RET] ∧ AllOrdinary insns := by
  obtain ⟨⟨tiles, k₁⟩, htiles, h⟩ := Option.bind_eq_some_iff.mp h
  cases h
  have hordinary := optimalTiles_ordinary htiles
  refine ⟨_, rfl, ?_⟩
  simp only [List.cons_append, allOrdinary_builder, allOrdinary_append]
  refine ⟨⟨?_, ?_⟩, ?_⟩
  · intro insn hinsn
    obtain ⟨t, ht, hinsn⟩ := List.mem_flatMap.mp hinsn
    exact (hordinary t ht).1 insn hinsn
  · intro insn hinsn
    obtain ⟨p, hp, rfl⟩ := List.mem_map.mp hinsn
    obtain ⟨hout, hreg⟩ := List.of_mem_zip hp
    have hreg : Tame (.x86 p.2) := by
      refine tame_x86 ?_
      revert hreg
      generalize p.2 = reg
      revert reg
      decide
    exact (ordinary_registers hreg (hordinary p.1 (List.mem_of_mem_take hout)).2).1
  · intro insn hinsn
    obtain ⟨p, hp, rfl⟩ := List.mem_map.mp hinsn
    have hmem := List.fst_mem_of_mem_zipIdx (List.mem_of_mem_drop (List.mem_reverse.mp hp))
    have hbase : Tame (.x86 RDI) := tame_x86 (by decide)
    exact (ordinary_memory (m := .registerMem (some (.x86 RDI)) none _ .ONE) (hordinary p.1 hmem).2
      (Nat.le_succ 1) (by simpa [Memory.involved] using hbase)).2.1

/-- An instruction of the tile of a statement. -/
theorem FlatStmt.optimalTile_ordinary {stmt : FlatStmt} {k k' : ℕ} {t : Tile}
    (h : stmt.optimalTile k = some (t, k')) :
    ∀ insn ∈ t.instructions, insn = .LEAVE ∨ insn = .RET ∨ Ordinary insn := by
  have hall : AllOrdinary t.instructions → ∀ insn ∈ t.instructions, insn = .LEAVE ∨ insn = .RET ∨ Ordinary insn :=
    fun h insn hinsn => .inr (.inr (h insn hinsn))
  cases stmt with
  | endBlock e =>
    cases e with
    | jump l =>
      cases h
      exact hall (allOrdinary_cons.mpr ⟨ordinary_jump _ l, List.forall_mem_nil _⟩)
    | cjump => cases h
    | trueJump guard l => exact hall (LIRTrueJump.optimalTile_ordinary h)
    | ret valList =>
      obtain ⟨insns, heq, hinsns⟩ := LIRReturn.optimalTile_ordinary h
      rw [heq]
      intro insn hinsn
      rcases List.mem_append.mp hinsn with hinsn | hinsn
      · exact .inr (.inr (hinsns insn hinsn))
      · simp only [List.mem_cons, List.not_mem_nil, or_false] at hinsn
        exact hinsn.imp_right .inl
  | callStmt target n_returns args => exact hall (LIRCallStmt.optimalTile_ordinary h)
  | label l =>
    cases h
    exact hall (allOrdinary_cons.mpr ⟨ordinary_none rfl Bool.false_ne_true rfl, List.forall_mem_nil _⟩)
  | move dest expr => exact hall (LIRMove.optimalTile_ordinary h)

/-- The tiles of a block. -/
theorem LIRSeq.tiles_ordinary {block : List FlatStmt} {k k' : ℕ} {ts : List Tile}
    (h : LIRSeq.tiles block k = some (ts, k')) :
    ∀ t ∈ ts, ∀ insn ∈ t.instructions, insn = .LEAVE ∨ insn = .RET ∨ Ordinary insn := by
  induction block generalizing k ts with
  | nil =>
    cases h
    exact List.forall_mem_nil _
  | cons stmt block ih =>
    obtain ⟨⟨t, k₁⟩, ht, h⟩ := Option.bind_eq_some_iff.mp h
    obtain ⟨⟨ts', k₂⟩, hts, h⟩ := Option.bind_eq_some_iff.mp h
    cases h
    exact List.forall_mem_cons.mpr ⟨FlatStmt.optimalTile_ordinary ht, ih hts⟩

/-- What the allocator is given is what it assumes. -/
theorem LIRSeq.optimalTile_ordinary {block : List FlatStmt} {k k' : ℕ} {t : Tile}
    (h : LIRSeq.optimalTile block k = some (t, k')) :
    ∀ insn ∈ t.instructions, insn = .LEAVE ∨ insn = .RET ∨ Ordinary insn := by
  obtain ⟨⟨tiles, k₁⟩, htiles, h⟩ := Option.bind_eq_some_iff.mp h
  cases h
  refine List.forall_mem_cons.mpr ⟨.inr (.inr ordinary_builder), fun insn hinsn => ?_⟩
  obtain ⟨t, ht, hinsn⟩ := List.mem_flatMap.mp hinsn
  exact LIRSeq.tiles_ordinary htiles t ht insn hinsn

/-! ## The code -/

/-- An instruction of the machine. -/
def Machine (insn : Instruction) : Prop :=
  insn.involved = [] ∧ insn ≠ .CALLERSAVEPUSH ∧ insn ≠ .CALLERSAVEPOP

/-- An instruction whose registers are replaced has machine registers only. -/
theorem machine_replaced {rs : List Register} {insn insn' : Instruction} (hplain : saved.insns insn = [insn])
    (h : RegisterAllocator.replaceInsnRegisters (replaceRegister (replaced rs)) insn = some insn') :
    Machine insn' := by
  have hx86 : ∀ r size r', replaceRegister (replaced rs) r size = some r' → r'.isAbstract = false := by
    intro r size r' h
    cases r with
    | abstract =>
      obtain ⟨i, -, h⟩ := Option.bind_eq_some_iff.mp h
      obtain ⟨reg, -, h⟩ := Option.bind_eq_some_iff.mp h
      cases h
      rfl
    | x86 =>
      cases h
      rfl
  have hkind : ∀ p, p = .CALLERSAVEPUSH ∨ p = .CALLERSAVEPOP → insn' = p → insn = p :=
    fun p hp hinsn => RegisterAllocator.placeholder_replaced h hp hinsn
  refine ⟨RegisterAllocator.involved_replaced hx86 h, fun hpush => ?_, fun hpop => ?_⟩
  · rw [hkind _ (.inl rfl) hpush] at hplain
    exact absurd (congrArg List.length hplain) (by decide)
  · rw [hkind _ (.inr rfl) hpop] at hplain
    exact absurd (congrArg List.length hplain) (by decide)

/-- So does the code of any instruction, with the loads and stores around it. -/
theorem machine_code {offsetMap : String → Option ℕ} {insn : Instruction} {code : List Instruction}
    (h : allocateInsn offsetMap insn = some code) : ∀ c ∈ code, Machine c := by
  have hpushed : ∀ {c : Instruction} {n : x86Name}, c = .PUSH (.x86 n) ∨ c = .POP (.x86 n) → Machine c := by
    rintro c n (rfl | rfl)
    · exact ⟨rfl, fun h => (by cases h), fun h => by cases h⟩
    · exact ⟨rfl, fun h => (by cases h), fun h => by cases h⟩
  have hcomment : ∀ str, Machine (.COMMENT str) := fun str => ⟨rfl, fun h => (by cases h), fun h => by cases h⟩
  have hsaved : ∀ {c}, c ∈ saved.push ∨ c ∈ saved.pop → Machine c := by
    intro c hc
    obtain ⟨n, -, h⟩ := mem_saved hc
    exact hpushed h
  intro c hc
  rcases allocateInsn_cases h with ⟨-, rfl⟩ | ⟨-, rfl⟩ | ⟨hplain, loads, stores, replacement, hcode, rfl⟩
  · exact (List.mem_cons.mp hc).elim (fun h => h ▸ hcomment _) fun h => hsaved (.inl h)
  · exact (List.mem_cons.mp hc).elim (fun h => h ▸ hcomment _) fun h => hsaved (.inr h)
  · simp only [List.mem_append, List.mem_singleton] at hc
    rcases hc with (((hc | hc) | hc) | rfl) | hc
    · exact mem_insnComment hc ▸ hcomment _
    · unfold popCallees at hc
      split at hc
      · obtain ⟨r, hr, rfl⟩ := List.mem_map.mp hc
        have hregs : ∀ r ∈ Register.calleeSaved, ∃ n, r = .x86 n := by simp [Register.calleeSaved]
        obtain ⟨n, rfl⟩ := hregs r (List.mem_reverse.mp hr)
        exact hpushed (.inr rfl)
      · cases hc
    · obtain ⟨n, k, rfl⟩ := mem_slotMoves hcode.loads hc
      exact ⟨rfl, fun h => (by cases h), fun h => by cases h⟩
    · exact machine_replaced hplain hcode.replacement
    · obtain ⟨n, k, rfl⟩ := mem_slotMoves hcode.stores hc
      exact ⟨rfl, fun h => (by cases h), fun h => by cases h⟩

/-- The tile of a function is what the allocator assumes, and has code, of instructions of the machine. -/
theorem allocate_tiled {functionTypes : String → Option (ℕ × ℕ)} {name : String} {argCount retCount : ℕ}
    (htype : functionTypes name = some (argCount, retCount)) {block : List FlatStmt} {k k' : ℕ} {t : Tile}
    (ht : LIRSeq.optimalTile block k = some (t, k')) :
    (∀ insn ∈ t.instructions, insn = .LEAVE ∨ insn = .RET ∨ Ordinary insn) ∧
      ∃ code, allocateRegisters functionTypes t.instructions name = some code ∧ ∀ insn ∈ code, Machine insn := by
  refine ⟨LIRSeq.optimalTile_ordinary ht, ?_⟩
  obtain ⟨codes, hcodes, hcode⟩ := allocateRegisters_code htype (LIRSeq.optimalTile_ordinary ht)
  refine ⟨_, hcode, fun insn hinsn => ?_⟩
  rcases List.mem_append.mp hinsn with hinsn | hinsn
  · rcases List.mem_cons.mp hinsn with rfl | hinsn
    · exact ⟨rfl, fun h => (by cases h), fun h => by cases h⟩
    · have hregs : ∀ r ∈ Register.calleeSaved, Machine (.PUSH r) := by
        intro r hr
        have hnone : ∀ r ∈ Register.calleeSaved, (Instruction.PUSH r).involved = [] := by decide
        exact ⟨hnone r hr, fun h => (by cases h), fun h => by cases h⟩
      obtain ⟨r, hr, rfl⟩ := List.mem_map.mp hinsn
      exact hregs r hr
  · obtain ⟨code, hmem, hinsn⟩ := List.mem_flatten.mp hinsn
    obtain ⟨insn₀, -, hcode⟩ := exists_of_mem_mapM hcodes hmem
    exact machine_code hcode insn hinsn

/-- `return (x / y) > z` -/
theorem allocate_tiled_compare : ∃ t k',
    LIRSeq.optimalTile [.endBlock (.ret [.op .GT (.op .DIV (.temp "x") (.temp "y")) (.temp "z")])] 0 =
      some (t, k') ∧
    (∀ insn ∈ t.instructions, insn = .LEAVE ∨ insn = .RET ∨ Ordinary insn) ∧
      ∃ code, allocateRegisters (fun _ => some (0, 1)) t.instructions "f" = some code ∧
        ∀ insn ∈ code, Machine insn := by
  have htile : ∃ t k', LIRSeq.optimalTile
      [.endBlock (.ret [.op .GT (.op .DIV (.temp "x") (.temp "y")) (.temp "z")])] 0 = some (t, k') := ⟨_, _, rfl⟩
  obtain ⟨t, k', ht⟩ := htile
  exact ⟨t, k', ht, @allocate_tiled (fun _ => some (0, 1)) "f" 0 1 rfl _ _ _ _ ht⟩

/-! ## Runs -/

/-- The slots of the temps lie in the frame, and no two of them overlap. -/
def SlotsFit (insns : List Instruction) : Prop :=
  ∀ x k, populateMap insns x = some k → 1 ≤ k ∧ 8 * k ≤ (frameBytes insns).toNat ∧
    ∀ y k', populateMap insns y = some k' → x ≠ y → ∀ b, Bytes.Apart (slotAddress b k) (slotAddress b k')

section Frame

variable {callee : String → Passed → Option Returned} {L : String → Word} {insns body code : List Instruction}
  {e : State}

/-- A frame whose size has an encoding has room for the slots. -/
theorem slotsFit (hfew : (temps insns).length ≤ 8190) : SlotsFit insns := by
  intro x k hk
  obtain ⟨hpos, hle, -⟩ := populateMap_spec hk
  obtain ⟨hbytes, -⟩ := frameBytes_spec hfew
  exact ⟨hpos, by omega, fun y k' hk' hne b => slots_apart hfew hk hk' hne⟩

/-- Conversely, where the slots fit and the size has an encoding, the temps are few. -/
theorem few_of_slotsFit (hslots : SlotsFit insns) (hbytes : (frameBytes insns).toNat < 2 ^ 16) :
    (temps insns).length ≤ 8190 := by
  have hroom : 8 * (temps insns).length ≤ (frameBytes insns).toNat := by
    by_cases hnil : temps insns = []
    · simp [hnil]
    · exact (hslots _ _ (populateMap_last hnil)).2.1
  by_contra hmany
  -- the size is padded to 65536 here
  have hlen : (temps insns).length = 8191 := by omega
  rw [frameBytes, hlen] at hbytes
  exact absurd hbytes (by decide)

/-- Code that enters its function has got past `ENTER`. -/
theorem Simulates.enter (h : Simulates callee L insns body (prologue insns ++ code) e)
    (hbase : e.phys RBP ≠ e.phys RSP - 8) : (frameBytes insns).toNat < 2 ^ 16 := by
  obtain ⟨start, t₀, hreach, hentered, -⟩ := h
  by_contra hbytes
  have hstuck : step callee L (.ENTER (frameBytes insns)) e = none := if_neg hbytes
  rcases hreach.cases_head with heq | ⟨c, hstep, -⟩
  · cases heq
    exact hbase hentered.base
  · have hnone : stepCode callee L saved (prologue insns ++ code) ⟨prologue insns ++ code, e⟩ = none := by
      show (steps callee L [.ENTER (frameBytes insns)] e).map _ = none
      rw [steps_singleton, hstuck]
      rfl
    rw [hnone] at hstep
    cases hstep

end Frame

section Tiled

variable {functionTypes : String → Option (ℕ × ℕ)} {name : String} {argCount retCount : ℕ}
  {block : List FlatStmt} {k k' : ℕ} {t : Tile}

/-- A tiled body whose code enters its function has few temps. -/
theorem few_of_simulates (htype : functionTypes name = some (argCount, retCount))
    (ht : LIRSeq.optimalTile block k = some (t, k')) {code : List Instruction}
    (hcode : allocateRegisters functionTypes t.instructions name = some code) (hslots : SlotsFit t.instructions)
    (h : ∀ callee L e, Blind callee (frame (e.phys RSP - 8) t.instructions) →
      Simulates callee L t.instructions (populateArguments argCount retCount ++ t.instructions) code e) :
    (temps t.instructions).length ≤ 8190 := by
  obtain ⟨codes, -, hcode'⟩ := allocateRegisters_code htype (LIRSeq.optimalTile_ordinary ht)
  obtain rfl := Option.some.inj (hcode.symm.trans hcode')
  let e : State := ⟨fun _ => 0, fun _ => 0, ⟨false, false, false, false⟩, fun _ => 0⟩
  have hblind : Blind (fun _ _ => none) (frame (e.phys RSP - 8) t.instructions) :=
    fun _ _ _ _ _ _ _ _ h => by cases h
  have hbase : e.phys RBP ≠ e.phys RSP - 8 := by decide
  exact few_of_slotsFit hslots ((h _ (fun _ => 0) e hblind).enter hbase)

/-- The code of a tiled body simulates it, from whatever state it is called in, with a slot for each temp,
exactly if the size of the frame can be written in an `ENTER`. -/
theorem allocateRegisters_tiled_iff (htype : functionTypes name = some (argCount, retCount))
    (ht : LIRSeq.optimalTile block k = some (t, k')) :
    (∃ code, allocateRegisters functionTypes t.instructions name = some code ∧ SlotsFit t.instructions ∧
      ∀ callee L e, Blind callee (frame (e.phys RSP - 8) t.instructions) →
        Simulates callee L t.instructions (populateArguments argCount retCount ++ t.instructions) code e) ↔
      (temps t.instructions).length ≤ 8190 := by
  constructor
  · rintro ⟨code, hcode, hslots, h⟩
    exact few_of_simulates htype ht hcode hslots h
  · intro hfew
    have hordinary := LIRSeq.optimalTile_ordinary ht
    obtain ⟨codes, hcodes, hcode⟩ := allocateRegisters_code htype hordinary
    exact ⟨_, hcode, slotsFit hfew,
      fun callee L e hblind => simulates hfew hblind (ordinary_body argCount retCount hordinary) hcodes⟩

end Tiled

/-- The code of `return _ARG1 + _ARG2`. -/
theorem allocateRegisters_sum : ∃ t k',
    LIRSeq.optimalTile [.endBlock (.ret [.op .ADD (.temp "_ARG1") (.temp "_ARG2")])] 0 = some (t, k') ∧
    ∃ code, allocateRegisters (fun _ => some (2, 1)) t.instructions "f" = some code ∧ SlotsFit t.instructions ∧
      ∀ callee L e, Blind callee (frame (e.phys RSP - 8) t.instructions) →
        Simulates callee L t.instructions (populateArguments 2 1 ++ t.instructions) code e := by
  obtain ⟨t, k', ht, hfew⟩ : ∃ t k',
      LIRSeq.optimalTile [.endBlock (.ret [.op .ADD (.temp "_ARG1") (.temp "_ARG2")])] 0 = some (t, k') ∧
      (temps t.instructions).length ≤ 8190 := ⟨_, _, rfl, by decide⟩
  exact ⟨t, k', ht, (@allocateRegisters_tiled_iff (fun _ => some (2, 1)) "f" 2 1 _ _ _ _ rfl ht).mpr hfew⟩

/-- The tile of a move to a temp defines the temp. -/
theorem mem_temps_move {x : String} {expr : LIRExpr} {k k' : ℕ} {t : Tile}
    (h : LIRMove.optimalTile (.temp x) expr k = some (t, k')) : x ∈ temps t.instructions := by
  obtain ⟨⟨srcTile, k₁⟩, hsrc, h⟩ := Option.bind_eq_some_iff.mp h
  cases h
  let P (t : Tile) : Prop := x ∈ temps t.instructions
  have hdef : ∀ {insns : List Instruction}, ∀ insn ∈ insns, .abstract x ∈ insn.def → x ∈ temps insns :=
    fun insn hinsn h => mem_temps.mpr ⟨insn, hinsn, 64, mem_involved (.inr h) rfl⟩
  have hdefault : P ⟨builderComment :: srcTile.instructions ++
      [.MOV (.registerDest (.abstract x)) (.registerSrc srcTile.outputRegister)], 1 + srcTile.cost⟩ :=
    hdef _ (List.mem_append_right _ List.mem_cons_self) List.mem_cons_self
  have hzero := attempt_of (P := P) (·.cost) hdefault (LIRMove.zeroTile (.temp x) expr) fun t ht => by
    unfold LIRMove.zeroTile at ht
    split at ht
    · rename_i heq
      split_ifs at ht
      cases ht
      cases heq
      exact hdef _ (.tail _ List.mem_cons_self) List.mem_cons_self
    · cases ht
  exact attempt_of (P := P) (·.cost) hzero (LIRMove.addressHack (.temp x) expr) fun t ht => by
    obtain ⟨m, -, rfl⟩ := Option.map_eq_some_iff.mp ht
    exact hdef _ (.tail _ List.mem_cons_self) List.mem_cons_self

/-- Zero for each variable, and a return. -/
def zeroes (xs : List String) : List FlatStmt :=
  xs.map (fun x => .move (.temp x) (.const 0)) ++ [.endBlock (.ret [])]

/-- The tile of it has a temp for each variable. -/
theorem zeroes_temps (xs : List String) : ∃ t k', LIRSeq.optimalTile (zeroes xs) 0 = some (t, k') ∧
    ∀ x ∈ xs, x ∈ temps t.instructions := by
  have htiles : ∀ k, ∃ ts k', LIRSeq.tiles (zeroes xs) k = some (ts, k') ∧
      ∀ x ∈ xs, x ∈ temps (ts.flatMap (·.instructions)) := by
    induction xs with
    | nil => exact fun k => ⟨_, _, rfl, List.forall_mem_nil _⟩
    | cons x xs ih =>
      intro k
      obtain ⟨t, k₁, ht⟩ : ∃ t k', FlatStmt.optimalTile (.move (.temp x) (.const 0)) k = some (t, k') :=
        ⟨_, _, rfl⟩
      obtain ⟨ts, k', hts, hmem⟩ := ih k₁
      refine ⟨t :: ts, k', ?_, fun y hy => ?_⟩
      · rw [zeroes, List.map_cons, List.cons_append, LIRSeq.tiles, ht, Option.bind_eq_bind, Option.bind_some]
        dsimp only
        rw [← zeroes, hts]
        rfl
      · rw [List.flatMap_cons]
        have hsub : y ∈ temps t.instructions ∨ y ∈ temps (ts.flatMap (·.instructions)) := by
          rcases List.mem_cons.mp hy with rfl | hy
          · exact .inl (mem_temps_move ht)
          · exact .inr (hmem y hy)
        simp only [mem_temps, List.mem_append, or_and_right, exists_or] at hsub ⊢
        exact hsub
  obtain ⟨ts, k', hts, hmem⟩ := htiles 0
  refine ⟨⟨builderComment :: ts.flatMap (·.instructions), (ts.map (·.cost)).sum⟩, k', ?_, fun x hx => ?_⟩
  · rw [LIRSeq.optimalTile, hts]
    rfl
  · obtain ⟨insn, hinsn, hsize⟩ := mem_temps.mp (hmem x hx)
    exact mem_temps.mpr ⟨insn, .tail _ hinsn, hsize⟩

/-- The body that assigns zero to 8191 variables. Its frame has 65536 bytes, which no `ENTER` has, and the code
does not enter it. -/
theorem allocateRegisters_stuck : ∃ t k',
    LIRSeq.optimalTile (zeroes ((List.range 8191).map toString)) 0 = some (t, k') ∧
    ¬ ∃ code, allocateRegisters (fun _ => some (0, 0)) t.instructions "f" = some code ∧ SlotsFit t.instructions ∧
      ∀ callee L e, Blind callee (frame (e.phys RSP - 8) t.instructions) →
        Simulates callee L t.instructions (populateArguments 0 0 ++ t.instructions) code e := by
  obtain ⟨t, k', ht, hmem⟩ := zeroes_temps ((List.range 8191).map toString)
  refine ⟨t, k', ht, ?_⟩
  rintro ⟨code, hcode, hslots, h⟩
  have hfew := @few_of_simulates (fun _ => some (0, 0)) "f" 0 0 _ _ _ _ rfl ht code hcode hslots h
  have hnodup : ((List.range 8191).map fun i : ℕ => toString i).Nodup :=
    List.nodup_range.map fun i j hij => Nat.repr_inj.mp hij
  have hmany := (hnodup.subperm hmem).length_le
  rw [List.length_map, List.length_range] at hmany
  omega

end TrivialRegisterAllocator

end Jaek
