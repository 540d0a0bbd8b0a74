import Jaek.Assembly.Ralloc.TrivialRegisterAllocator
import Jaek.Assembly.Stack

/-!
# Trivial allocation simulates the body

The body starts behind the prologue, in the memory that is there, so that the two runs have one stack. They
differ in the words of the frame, which the body must not touch, and in `R12`, `R13` and `R14`. Behind the code
of each instruction the words of the frame hold the abstract registers (`Sim`).

An instruction is loads, the replacement and stores. The loads bring the two runs into a relation that
`RegisterAllocator.writes_renamed` is about, and the stores bring them back into `Sim`.
-/

namespace Jaek

namespace TrivialRegisterAllocator

open x86Name Chaitin.InterferenceGraph

/-! ## The frame -/

/-- The address of a slot of the frame at `b`. -/
def slotAddress (b : Word) (shift : ℕ) : Word := b - 8 * BitVec.ofNat 64 shift

/-- The words of the frame at `b`. -/
def frame (b : Word) (insns : List Instruction) : List Word :=
  (List.range (temps insns).length).map fun i => slotAddress b (i + 1)

/-- The state `s` of the body and the state `t` of its code. -/
structure Sim (insns : List Instruction) (b : Word) (s t : State) : Prop where
  flags : t.flags = s.flags
  phys : ∀ n, n ∉ defaults → t.phys n = s.phys n
  base : s.phys RBP = b
  slot : ∀ x k, populateMap insns x = some k → t.mem.load (slotAddress b k) = s.abs x
  mem : Bytes.SameOutside (frame b insns) s.mem t.mem

/-- What the allocator assumes of an instruction: it has three abstract registers at most, all of full size,
and keeps away from the registers of `defaults` and from the base of the frame. -/
structure Ordinary (insn : Instruction) : Prop where
  few : (encountered insn).length ≤ 3
  wide : ¬ insn.isByte
  clear : ∀ r ∈ insn.reads ++ insn.def, ∀ n ∈ defaults, r.regName ≠ .x86 n
  base : .x86 RBP ∉ names insn.def

section Slots

variable {insns : List Instruction} {b : Word} {x y : String} {k k' : ℕ}

/-- Different slots do not overlap. -/
theorem slotAddress_apart (hk : k < 2 ^ 32) (hk' : k' < 2 ^ 32) (hne : k ≠ k') :
    Bytes.Apart (slotAddress b k) (slotAddress b k') := by
  simp only [Bytes.Apart, slotAddress]
  constructor <;> bv_omega

/-- The operand of a slot is its address, as long as `RBP` holds the base of the frame. -/
theorem address_slot {L : String → Word} {s : State} (hbase : s.phys RBP = b) :
    s.address L (TrivialRegisterAllocator.slot k) = slotAddress b k := by
  have hvalue : s.value (.x86 RBP) = b := hbase
  rw [TrivialRegisterAllocator.slot, State.address, Option.elim_some, Option.elim_none, hvalue, slotAddress]
  ring

/-- The slot of a temp is in the frame. -/
theorem mem_frame (h : populateMap insns x = some k) : slotAddress b k ∈ frame b insns := by
  obtain ⟨hpos, hle, -⟩ := populateMap_spec h
  exact List.mem_map.mpr ⟨k - 1, List.mem_range.mpr (by omega), by rw [Nat.sub_add_cancel hpos]⟩

/-- The slots of two registers have no byte in common. -/
theorem slots_apart (hfew : (temps insns).length ≤ 8190) (hx : populateMap insns x = some k)
    (hy : populateMap insns y = some k') (hne : x ≠ y) : Bytes.Apart (slotAddress b k) (slotAddress b k') := by
  obtain ⟨hpos, hle, hget⟩ := populateMap_spec hx
  obtain ⟨hpos', hle', hget'⟩ := populateMap_spec hy
  refine slotAddress_apart (by omega) (by omega) ?_
  rintro rfl
  exact hne (Option.some.inj (hget.symm.trans hget'))

end Slots

/-! ## Loads and stores -/

section Moves

variable {callee : String → Passed → Option Returned} {L : String → Word} {insns : List Instruction}
  {all rs : List Register} {code : List Instruction} {b : Word} {s t : State}

/-- A load from a slot. -/
theorem step_loadSlot (hbase : t.phys RBP = b) (reg : x86Name) (k : ℕ) :
    step callee L (loadSlot reg k) t = some (t.set (.x86 reg) (t.mem.load (slotAddress b k))) := by
  rw [← address_slot (L := L) hbase]
  rfl

/-- A store to a slot. -/
theorem step_storeSlot (hbase : t.phys RBP = b) (reg : x86Name) (k : ℕ) :
    step callee L (storeSlot reg k) t = some { t with mem := t.mem.store (slotAddress b k) (t.phys reg) } := by
  rw [← address_slot (L := L) hbase]
  rfl

/-- The move of the first register stands in front, if it has a slot. -/
theorem slotMoves_cons {move : x86Name → ℕ → Instruction} {r : Register}
    (h : slotMoves move (replaced all) (populateMap insns) (r :: rs) = some code) :
    ∃ moves, slotMoves move (replaced all) (populateMap insns) rs = some moves ∧
      ((∃ x size n k, r = .abstract x size ∧ assigned all x = some n ∧ populateMap insns x = some k ∧
        code = move n k :: moves) ∨
      code = moves ∧ ∀ x size n k, r = .abstract x size → assigned all x = some n →
        populateMap insns x ≠ some k) := by
  cases r with
  | x86 name size => exact ⟨code, h, .inr ⟨rfl, fun _ _ _ _ h => by cases h⟩⟩
  | abstract x size =>
    obtain ⟨moves, hmoves, h⟩ := Option.bind_eq_some_iff.mp h
    refine ⟨moves, hmoves, ?_⟩
    cases hidx : replaced all x with
    | none =>
      simp only [hidx] at h
      cases h
      refine .inr ⟨rfl, fun y size' n k hr hn => ?_⟩
      cases hr
      rw [assigned, hidx] at hn
      cases hn
    | some idx =>
      cases hk : populateMap insns x with
      | none =>
        simp only [hidx, hk] at h
        cases h
        refine .inr ⟨rfl, fun y size' n k hr _ hsome => ?_⟩
        cases hr
        rw [hk] at hsome
        cases hsome
      | some k =>
        simp only [hidx, hk] at h
        obtain ⟨n, hn, h⟩ := Option.bind_eq_some_iff.mp h
        cases h
        exact .inl ⟨x, size, n, k, rfl, by rw [assigned, hidx, Option.bind_some, hn], hk, rfl⟩

/-- The loads bring the slots of the registers into their defaults, and change nothing else. -/
theorem loads_run (hcode : slotMoves loadSlot (replaced all) (populateMap insns) rs = some code)
    (hbase : t.phys RBP = b) :
    ∃ t', steps callee L code t = some t' ∧ t'.mem = t.mem ∧ t'.flags = t.flags ∧
      (∀ n, (∀ x size, .abstract x size ∈ rs → assigned all x ≠ some n) → t'.phys n = t.phys n) ∧
      ∀ x size n k, .abstract x size ∈ rs → assigned all x = some n → populateMap insns x = some k →
        t'.phys n = t.mem.load (slotAddress b k) := by
  induction rs generalizing t code with
  | nil =>
    cases hcode
    exact ⟨t, rfl, rfl, rfl, fun _ _ => rfl, fun x size n k h => by cases h⟩
  | cons r rs ih =>
    -- a register that is read is loaded from its slot, or has none and is skipped
    obtain ⟨moves, hmoves, ⟨x, size, reg, k, rfl, hreg, hk, rfl⟩ | ⟨rfl, hnone⟩⟩ := slotMoves_cons hcode
    · have hne : RBP ≠ reg := by
        rintro rfl
        exact absurd (assigned_mem hreg) (by decide)
      have hbase' : (t.set (.x86 reg) (t.mem.load (slotAddress b k))).phys RBP = b := by
        rw [State.phys_set_x86, Function.update_of_ne hne, hbase]
      obtain ⟨t', hrun, hmem, hflags, hkeep, hslot⟩ := ih hmoves hbase'
      refine ⟨t', ?_, hmem, hflags, fun n hn => ?_, fun y size' n k' hy hn hk' => ?_⟩
      · rw [steps_cons, step_loadSlot hbase, Option.bind_some, hrun]
      · have hother : n ≠ reg := fun h => hn x size List.mem_cons_self (h ▸ hreg)
        rw [hkeep n fun y size' hy => hn y size' (.tail _ hy), State.phys_set_x86,
          Function.update_of_ne hother]
      · by_cases hmem : ∃ size', .abstract y size' ∈ rs
        · obtain ⟨size'', hmem⟩ := hmem
          exact hslot y size'' n k' hmem hn hk'
        · -- the register is the first, and no later load goes to its default
          have hyx : y = x := by
            rcases List.mem_cons.mp hy with h | h
            · exact (Register.abstract.inj h).1
            · exact absurd ⟨size', h⟩ hmem
          subst hyx
          cases hreg.symm.trans hn
          cases hk.symm.trans hk'
          rw [hkeep reg fun z size'' hz hz' => hmem ⟨size'', assigned_injective hz' hreg ▸ hz⟩,
            State.phys_set_x86, Function.update_self]
    · obtain ⟨t', hrun, hmem, hflags, hkeep, hslot⟩ := ih hmoves hbase
      refine ⟨t', hrun, hmem, hflags, fun n hn => hkeep n fun x size h => hn x size (.tail _ h), ?_⟩
      intro x size n k h hn hk
      rcases List.mem_cons.mp h with h | h
      · exact absurd hk (hnone x size n k h.symm hn)
      · exact hslot x size n k h hn hk

/-- The stores bring the defaults back into the slots, and change nothing else. -/
theorem stores_run (hfew : (temps insns).length ≤ 8190)
    (hcode : slotMoves storeSlot (replaced all) (populateMap insns) rs = some code)
    (hbase : t.phys RBP = b) :
    ∃ t', steps callee L code t = some t' ∧ t'.phys = t.phys ∧ t'.flags = t.flags ∧
      (∀ m, Bytes.SameOutside (frame b insns) m t.mem → Bytes.SameOutside (frame b insns) m t'.mem) ∧
      (∀ x k, populateMap insns x = some k → (∀ size, .abstract x size ∉ rs) →
        t'.mem.load (slotAddress b k) = t.mem.load (slotAddress b k)) ∧
      ∀ x size n k, .abstract x size ∈ rs → assigned all x = some n → populateMap insns x = some k →
        t'.mem.load (slotAddress b k) = t.phys n := by
  induction rs generalizing t code with
  | nil =>
    cases hcode
    exact ⟨t, rfl, rfl, rfl, fun _ h => h, fun _ _ _ _ => rfl, fun x size n k h => by cases h⟩
  | cons r rs ih =>
    obtain ⟨moves, hmoves, ⟨x, size, reg, k, rfl, hreg, hk, rfl⟩ | ⟨rfl, hnone⟩⟩ := slotMoves_cons hcode
    · obtain ⟨t', hrun, hphys, hflags, hsame, hkeep, hslot⟩ :=
        ih (t := { t with mem := t.mem.store (slotAddress b k) (t.phys reg) }) hmoves hbase
      refine ⟨t', ?_, hphys, hflags, fun m hm => ?_, fun y k' hy hnot => ?_, fun y size' n k' hy hn hk' => ?_⟩
      · rw [steps_cons, step_storeSlot hbase, Option.bind_some, hrun]
      · exact hsame m (hm.store_hidden (mem_frame hk) _)
      · have hne : x ≠ y := fun h => hnot size (h ▸ List.mem_cons_self)
        rw [hkeep y k' hy fun size' h => hnot size' (.tail _ h)]
        exact Bytes.load_store_apart _ _ (slots_apart hfew hk hy hne)
      · by_cases hmem : ∃ size', .abstract y size' ∈ rs
        · obtain ⟨size'', hmem⟩ := hmem
          exact hslot y size'' n k' hmem hn hk'
        · have hyx : y = x := by
            rcases List.mem_cons.mp hy with h | h
            · exact (Register.abstract.inj h).1
            · exact absurd ⟨size', h⟩ hmem
          subst hyx
          cases hreg.symm.trans hn
          cases hk.symm.trans hk'
          rw [hkeep y k hk fun size'' h => hmem ⟨size'', h⟩]
          exact Bytes.load_store_self _ _ _
    · obtain ⟨t', hrun, hphys, hflags, hsame, hkeep, hslot⟩ := ih hmoves hbase
      refine ⟨t', hrun, hphys, hflags, hsame, fun x k hk hnot => ?_, fun x size n k h hn hk => ?_⟩
      · exact hkeep x k hk fun size h => hnot size (.tail _ h)
      · rcases List.mem_cons.mp h with h | h
        · exact absurd hk (hnone x size n k h.symm hn)
        · exact hslot x size n k h hn hk

end Moves

/-! ## One instruction -/

section Step

variable {callee : String → Passed → Option Returned} {L : String → Word} {insns : List Instruction}
  {insn : Instruction} {code : List Instruction} {b : Word} {s s' t : State} {w : Writes}

/-- The registers to replace are those that the instruction involves. -/
theorem mem_encountered {r : Register} : r ∈ encountered insn ↔ r ∈ insn.involved := by
  rw [encountered, Chaitin.mem_foldl_addNew]
  simp

/-- The names that have one place in the code of an instruction. -/
def Placed (insn : Instruction) : Set RegName :=
  {n | (∃ m, n = .x86 m ∧ m ∉ defaults) ∨ ∃ x size, n = .abstract x ∧ .abstract x size ∈ encountered insn}

/-- The renaming does not merge registers that the instruction uses. -/
theorem rename_injOn (hfew : (encountered insn).length ≤ 3) :
    Set.InjOn (rename (encountered insn)) (Placed insn) := by
  have hreg : ∀ x size, .abstract x size ∈ encountered insn → ∃ n ∈ defaults,
      assigned (encountered insn) x = some n ∧ rename (encountered insn) (.abstract x) = .x86 n := by
    intro x size hx
    obtain ⟨n, hn⟩ := assigned_of_mem hfew hx
    refine ⟨n, assigned_mem hn, hn, ?_⟩
    rw [rename, hn]
    rfl
  rintro n (⟨m, rfl, hm⟩ | ⟨x, size, rfl, hx⟩) n' (⟨m', rfl, hm'⟩ | ⟨x', size', rfl, hx'⟩) heq
  · exact heq
  · obtain ⟨n, hn, -, hx'⟩ := hreg x' size' hx'
    rw [hx'] at heq
    exact absurd (RegName.x86.inj heq ▸ hn) hm
  · obtain ⟨n, hn, -, hx⟩ := hreg x size hx
    rw [hx] at heq
    exact absurd (RegName.x86.inj heq ▸ hn) hm'
  · obtain ⟨n, -, hn, hx⟩ := hreg x size hx
    obtain ⟨n', -, hn', hx'⟩ := hreg x' size' hx'
    rw [hx, hx'] at heq
    rw [assigned_injective hn (RegName.x86.inj heq ▸ hn')]

/-- The registers that an ordinary instruction reads or defines are among those it renames. -/
theorem Ordinary.placed (hord : Ordinary insn) {r : Register} (hr : r ∈ insn.reads ∨ r ∈ insn.def) :
    r.regName ∈ Placed insn := by
  cases r with
  | abstract x size => exact .inr ⟨x, size, rfl, mem_encountered.mpr (mem_involved hr rfl)⟩
  | x86 n size => exact .inl ⟨n, rfl, fun hn => hord.clear _ (List.mem_append.mpr hr) n hn rfl⟩

/-- The names whose values the loads put in their place. -/
def Held (insns : List Instruction) (insn : Instruction) : Set RegName :=
  {n | (∃ m, n = .x86 m ∧ m ∉ defaults) ∨
    ∃ x size k, n = .abstract x ∧ .abstract x size ∈ encountered insn ∧ populateMap insns x = some k}

/-- The registers that hold values of temps are among them too. -/
theorem held_subset : Held insns insn ⊆ Placed insn := by
  rintro n (h | ⟨x, size, k, rfl, hx, -⟩)
  · exact .inl h
  · exact .inr ⟨x, size, rfl, hx⟩

/-- The states of the two runs between the loads of an instruction and its stores. -/
structure Loaded (insns : List Instruction) (insn : Instruction) (b : Word) (s t : State) : Prop where
  flags : t.flags = s.flags
  get : ∀ n ∈ Held insns insn, t.get (rename (encountered insn) n) = s.get n
  base : s.phys RBP = b
  mem : Bytes.SameOutside (frame b insns) s.mem t.mem
  slot : ∀ x k, populateMap insns x = some k → (∀ size, .abstract x size ∉ encountered insn) →
    t.mem.load (slotAddress b k) = s.abs x

/-- The loads leave the other machine registers alone. -/
theorem Loaded.phys (h : Loaded insns insn b s t) {n : x86Name} (hn : n ∉ defaults) : t.phys n = s.phys n :=
  h.get (.x86 n) (.inl ⟨n, rfl, hn⟩)

/-- A temp is renamed to the register it was assigned. -/
theorem rename_abstract {rs : List Register} {x : String} {n : x86Name} (h : assigned rs x = some n) :
    rename rs (.abstract x) = .x86 n := by
  rw [rename, h]
  rfl

/-- The loads in front of an instruction bring the values of its temps into registers. -/
theorem Sim.loads (hord : Ordinary insn) (h : Sim insns b s t)
    (hcode : slotMoves loadSlot (replaced (encountered insn)) (populateMap insns) (encountered insn) =
      some code) : ∃ t', steps callee L code t = some t' ∧ Loaded insns insn b s t' := by
  have hbase : t.phys RBP = b := by rw [h.phys RBP (by decide), h.base]
  obtain ⟨t', hrun, hmem, hflags, hkeep, hslot⟩ : ∃ t', steps callee L code t = some t' ∧ _ :=
    loads_run hcode hbase
  refine ⟨t', hrun, hflags.trans h.flags, ?_, h.base, by rw [hmem]; exact h.mem, fun x k hk _ => ?_⟩
  · rintro n (⟨m, rfl, hm⟩ | ⟨x, size, k, rfl, hx, hk⟩)
    · show t'.phys m = s.phys m
      rw [hkeep m fun x size _ hm' => hm (assigned_mem hm'), h.phys m hm]
    · obtain ⟨n, hn⟩ := assigned_of_mem hord.few hx
      rw [rename_abstract hn]
      exact (hslot x size n k hx hn hk).trans (h.slot x k hk)
  · rw [hmem, h.slot x k hk]

/-- The stores behind it bring them back into their slots. -/
theorem Loaded.stores (hfew : (temps insns).length ≤ 8190) (hord : Ordinary insn)
    (h : Loaded insns insn b s t)
    (hcode : slotMoves storeSlot (replaced (encountered insn)) (populateMap insns) (encountered insn) =
      some code) : ∃ t', steps callee L code t = some t' ∧ Sim insns b s t' := by
  have hbase : t.phys RBP = b := (h.phys (by decide)).trans h.base
  obtain ⟨t', hrun, hphys, hflags, hsame, hkeep, hslot⟩ : ∃ t', steps callee L code t = some t' ∧ _ :=
    stores_run hfew hcode hbase
  refine ⟨t', hrun, hflags.trans h.flags, fun n hn => ?_, h.base, fun x k hk => ?_, hsame _ h.mem⟩
  · rw [hphys, h.phys hn]
  · by_cases hx : ∃ size, .abstract x size ∈ encountered insn
    · obtain ⟨size, hx⟩ := hx
      obtain ⟨n, hn⟩ := assigned_of_mem hord.few hx
      have hvalue := h.get (.abstract x) (.inr ⟨x, size, k, rfl, hx, hk⟩)
      rw [rename_abstract hn] at hvalue
      exact (hslot x size n k hx hn hk).trans hvalue
    · have hx : ∀ size, .abstract x size ∉ encountered insn := fun size h => hx ⟨size, h⟩
      rw [hkeep x k hk hx, h.slot x k hk hx]

/-- The replacement writes in the one run what the instruction writes in the other. -/
theorem Loaded.replacement (hord : Ordinary insn) (h : Loaded insns insn b s t)
    (hslots : ∀ x size, .abstract x size ∈ insn.reads → ∃ k, populateMap insns x = some k)
    (hwrites : insn.writes L s = some w)
    (hapart : ∀ a ∈ insn.accesses L s, ∀ p ∈ frame b insns, Bytes.Apart p a) {replacement : Instruction}
    (hreplace : RegisterAllocator.replaceInsnRegisters (replaceRegister (replaced (encountered insn))) insn =
      some replacement) :
    ∃ t', step callee L replacement t = some t' ∧ Loaded insns insn b (w.apply s) t' := by
  rw [Instruction.accesses, hwrites, Option.elim_some, List.forall_mem_append] at hapart
  -- what the instruction reads sits in the register that stands for it
  have hget : ∀ r ∈ insn.reads, t.get (rename (encountered insn) r.regName) = s.get r.regName := by
    intro r hr
    refine h.get _ ?_
    rcases hord.placed (.inl hr) with hr | ⟨x, size, hname, hx⟩
    · exact .inl hr
    · cases r with
      | x86 => cases hname
      | abstract y size' =>
        obtain ⟨k, hk⟩ := hslots y size' hr
        exact .inr ⟨y, size', k, rfl, mem_encountered.mpr (mem_involved (.inl hr) rfl), hk⟩
  have hrenamed := RegisterAllocator.writes_renamed (renames (encountered insn)) hreplace hget
    (fun a ha => h.mem.load_eq (hapart.1 a ha)) h.flags
  rw [hwrites, Option.map_some] at hrenamed
  have hregs : ∀ p ∈ w.regs, p.1 ∈ Placed insn := by
    intro p hp
    obtain ⟨r, hr, hname⟩ := mem_names.mp (writes_def hwrites hp)
    rw [← hname]
    exact hord.placed (.inr hr)
  -- and what it does not write keeps its value, RBP among it
  have hkept : ∀ n, (∀ p ∈ w.regs, p.1 ≠ n) → (w.apply s).get n = s.get n := by
    intro n hn
    refine Writes.get_apply_of_not_mem fun hmem => ?_
    obtain ⟨p, hp, hname⟩ := List.mem_map.mp hmem
    exact hn p hp hname
  refine ⟨(w.rename (rename (encountered insn))).apply t, ?_, rfl, fun n hn => ?_, ?_,
    h.mem.foldl_store w.words, fun x k hk hx => ?_⟩
  · rw [step_eq_writes ⟨_, hrenamed⟩ (RegisterAllocator.isByte_renamed (renames _) hreplace hord.wide),
      hrenamed, Option.map_some]
  · exact Writes.get_apply_rename (rename_injOn hord.few) held_subset hregs h.get (held_subset hn) (.inl hn)
  · rw [← h.base]
    exact hkept (.x86 RBP) fun p hp hname => hord.base (hname ▸ writes_def hwrites hp)
  · have hvalue : (w.apply s).abs x = s.abs x := by
      refine hkept (.abstract x) fun p hp hname => ?_
      obtain ⟨m, hm, -⟩ | ⟨y, size, hy, hmem⟩ := hregs p hp
      · rw [hname] at hm
        cases hm
      · rw [hname] at hy
        exact hx size (RegName.abstract.inj hy ▸ hmem)
    rw [hvalue, ← h.slot x k hk hx]
    exact Bytes.load_foldl_store fun p hp =>
      (hapart.2 _ (List.mem_map_of_mem hp) _ (mem_frame hk)).symm

/-- An instruction on registers and memory, and its loads, replacement and stores. -/
theorem insn_run (hfew : (temps insns).length ≤ 8190) (hord : Ordinary insn) (hsim : Sim insns b s t)
    (hslots : ∀ x size, .abstract x size ∈ insn.reads → ∃ k, populateMap insns x = some k)
    (hwrites : insn.writes L s = some w)
    (hapart : ∀ a ∈ insn.accesses L s, ∀ p ∈ frame b insns, Bytes.Apart p a)
    {loads stores : List Instruction} {replacement : Instruction}
    (hloads : slotMoves loadSlot (replaced (encountered insn)) (populateMap insns) (encountered insn) =
      some loads)
    (hreplace : RegisterAllocator.replaceInsnRegisters (replaceRegister (replaced (encountered insn))) insn =
      some replacement)
    (hstores : slotMoves storeSlot (replaced (encountered insn)) (populateMap insns) (encountered insn) =
      some stores) :
    ∃ t', steps callee L (loads ++ [replacement] ++ stores) t = some t' ∧ Sim insns b (w.apply s) t' := by
  obtain ⟨t₁, hrun₁, hloaded⟩ : ∃ t', steps callee L loads t = some t' ∧ _ := hsim.loads hord hloads
  obtain ⟨t₂, hrun₂, hloaded⟩ : ∃ t', step callee L replacement t₁ = some t' ∧ _ :=
    hloaded.replacement hord hslots hwrites hapart hreplace
  obtain ⟨t₃, hrun₃, hsim⟩ : ∃ t', steps callee L stores t₂ = some t' ∧ _ := hloaded.stores hfew hord hstores
  refine ⟨t₃, ?_, hsim⟩
  rw [List.append_assoc, steps_append hrun₁, List.singleton_append, steps_cons, hrun₂, Option.bind_some, hrun₃]

end Step

/-! ## Placeholders and calls -/

section Calls

variable {callee : String → Passed → Option Returned} {L : String → Word} {insns : List Instruction}
  {insn : Instruction} {code list : List Instruction} {b : Word} {s s' t : State}

/-- The callees look at no word of `hidden` and leave each of them. -/
def Blind (callee : String → Passed → Option Returned) (hidden : List Word) : Prop :=
  ∀ label p p' ret, p'.flags = p.flags → p'.rsp = p.rsp → p'.args = p.args →
    Bytes.SameOutside hidden p.mem p'.mem → callee label p = some ret →
    ∃ ret', callee label p' = some ret' ∧ ret'.flags = ret.flags ∧ ret'.regs = ret.regs ∧
      Bytes.SameOutside hidden ret.mem ret'.mem ∧ ∀ a ∈ hidden, ret'.mem.load a = p'.mem.load a

/-- A machine register that is pushed or popped is its own replacement. -/
theorem saved_run (hfew : (temps insns).length ≤ 8190)
    (hlist : ∀ insn ∈ list, ∃ n, n ∉ RBP :: defaults ∧ (insn = .PUSH (.x86 n) ∨ insn = .POP (.x86 n)))
    (hsim : Sim insns b s t) (hrun : steps callee L list s = some s')
    (hapart : ∀ a ∈ accesses callee L list s, ∀ p ∈ frame b insns, Bytes.Apart p a) :
    ∃ t', steps callee L list t = some t' ∧ Sim insns b s' t' := by
  induction list generalizing s t with
  | nil =>
    cases hrun
    exact ⟨t, rfl, hsim⟩
  | cons insn list ih =>
    rw [List.forall_mem_cons] at hlist
    rw [steps_cons] at hrun
    obtain ⟨s₁, hstep, hrun⟩ := Option.bind_eq_some_iff.mp hrun
    rw [accesses, hstep, Option.elim_some, List.forall_mem_append] at hapart
    obtain ⟨n, hn, hinsn⟩ := hlist.1
    have hord : Ordinary insn := by
      obtain ⟨hbase, hclear⟩ := not_or.mp (List.mem_cons.not.mp hn)
      have hne : ∀ m ∈ defaults, n ≠ m := fun m hm h => hclear (h ▸ hm)
      rcases hinsn with rfl | rfl <;> refine ⟨Nat.zero_le 3, Bool.false_ne_true, ?_, ?_⟩
      · simpa [Instruction.reads, Instruction.use, Instruction.def, Register.regName, defaults] using hne
      · simp [names, Instruction.def, Register.regName]
      · simpa [Instruction.reads, Instruction.use, Instruction.def, Register.regName, defaults] using hne
      · simpa [names, Instruction.def, Register.regName, eq_comm] using hbase
    obtain ⟨w, hwrites, rfl⟩ := exists_writes hstep (by rcases hinsn with rfl | rfl <;> rfl)
      (by rcases hinsn with rfl | rfl <;> exact fun _ h => (by cases h)) hord.wide
    obtain ⟨t₁, hstep₁, hsim₁⟩ : ∃ t', steps callee L ([] ++ [insn] ++ []) t = some t' ∧ _ :=
      insn_run hfew hord hsim (by rcases hinsn with rfl | rfl <;> simp [Instruction.reads, Instruction.use])
        hwrites hapart.1 (by rcases hinsn with rfl | rfl <;> rfl) (by rcases hinsn with rfl | rfl <;> rfl)
        (by rcases hinsn with rfl | rfl <;> rfl)
    rw [List.append_nil, List.nil_append, steps_singleton] at hstep₁
    obtain ⟨t', hrun', hsim'⟩ := ih hlist.2 hsim₁ hrun hapart.2
    exact ⟨t', by rw [steps_cons, hstep₁, Option.bind_some, hrun'], hsim'⟩

/-- A callee that does not look at the frame takes related states to related states. -/
theorem call_run (hblind : Blind callee (frame b insns)) (hsim : Sim insns b s t) {label : String}
    (hrun : s.call callee label = some s') : ∃ t', t.call callee label = some t' ∧ Sim insns b s' t' := by
  obtain ⟨ret, hret, rfl⟩ := Option.map_eq_some_iff.mp hrun
  have hargs : argRegs.map t.phys = argRegs.map s.phys := by
    refine List.map_congr_left fun n hn => hsim.phys n ?_
    revert n
    decide
  obtain ⟨ret', hret', hflags, hregs, hmem, hkeep⟩ := hblind label _
    ⟨t.mem, t.flags, t.phys RSP, argRegs.map t.phys⟩ ret hsim.flags (hsim.phys RSP (by decide)) hargs hsim.mem hret
  refine ⟨_, Option.map_eq_some_iff.mpr ⟨ret', hret', rfl⟩, hflags, fun n hn => ?_, ?_, fun x k hk => ?_, hmem⟩
  · have hfold : ∀ (rs : List Register) (s t : State), t.phys n = s.phys n →
        (rs.foldl (fun s r => s.set r (ret'.regs r)) t).phys n =
          (rs.foldl (fun s r => s.set r (ret.regs r)) s).phys n := by
      intro rs
      induction rs with
      | nil => exact fun _ _ h => h
      | cons r rs ih =>
        intro s t h
        refine ih _ _ ?_
        cases r with
        | abstract x size => exact h
        | x86 m size =>
          rw [State.phys_set_x86, State.phys_set_x86, hregs, Function.update_apply, Function.update_apply, h]
    exact hfold Register.callerSaved s t (hsim.phys n hn)
  · exact hsim.base
  · show ret'.mem.load _ = s.abs x
    rw [hkeep _ (mem_frame hk)]
    exact hsim.slot x k hk

end Calls

/-! ## Runs of the body -/

section Run

variable {callee : String → Passed → Option Returned} {L : String → Word} {insns body rest : List Instruction}
  {insn : Instruction} {code : List Instruction} {codes : List (List Instruction)} {b : Word}
  {s s' t : State} {c c' : CodeState}

/-- The code in front of the replacement. -/
theorem steps_front (hleave : insn ≠ .LEAVE) (tail : List Instruction) :
    steps callee L (insnComment insn ++ popCallees insn ++ tail) t = steps callee L tail t := by
  have hpop : popCallees insn = [] := by
    unfold popCallees
    split
    · exact absurd rfl hleave
    · rfl
  rw [hpop, List.append_nil]
  unfold insnComment
  split <;> rfl

/-- An instruction that hands over to the next one, and its code. -/
theorem code_run (hfew : (temps insns).length ≤ 8190) (hblind : Blind callee (frame b insns))
    (hcode : allocateInsn (populateMap insns) insn = some code) (hord : Ordinary insn)
    (hslots : ∀ x size, .abstract x size ∈ insn.reads → ∃ k, populateMap insns x = some k)
    (hleave : insn ≠ .LEAVE) (hret : insn ≠ .RET) (hjump : ∀ op loc, insn ≠ .jump op loc)
    (hsim : Sim insns b s t) (hrun : steps callee L (saved.insns insn) s = some s')
    (hapart : ∀ a ∈ accesses callee L (saved.insns insn) s, ∀ p ∈ frame b insns, Bytes.Apart p a) :
    (∀ c ∈ code, c.falls) ∧ ∃ t', steps callee L code t = some t' ∧ Sim insns b s' t' := by
  have hpush : ∀ list : List Instruction, steps callee L (.COMMENT "[AA]" :: list) t = steps callee L list t :=
    fun _ => rfl
  rcases allocateInsn_cases hcode with ⟨rfl, rfl⟩ | ⟨rfl, rfl⟩ | ⟨hplain, loads, stores, replacement, halloc, rfl⟩
  · rw [hpush]
    exact ⟨by decide, saved_run hfew (fun c hc => mem_saved (.inl hc)) hsim hrun hapart⟩
  · rw [hpush]
    exact ⟨by decide, saved_run hfew (fun c hc => mem_saved (.inr hc)) hsim hrun hapart⟩
  · rw [hplain] at hrun hapart
    rw [steps_singleton] at hrun
    have hfalls : insn.falls := by
      cases insn with
      | jump op loc => exact absurd rfl (hjump op loc)
      | RET => exact absurd rfl hret
      | CALLERSAVEPUSH | CALLERSAVEPOP => cases hrun
      | _ => rfl
    refine ⟨code_falls hcode hfalls, ?_⟩
    rw [List.append_assoc (_ ++ _ ++ loads), List.append_assoc (_ ++ _) loads, steps_front hleave,
      ← List.append_assoc]
    by_cases hcall : ∃ label, insn = .CALL label
    · obtain ⟨label, rfl⟩ := hcall
      cases halloc.loads
      cases halloc.stores
      cases halloc.replacement
      obtain ⟨t', hrun', hsim'⟩ := call_run hblind hsim hrun
      exact ⟨t', (steps_singleton).trans hrun', hsim'⟩
    · have hcall : ∀ label, insn ≠ .CALL label := fun label h => hcall ⟨label, h⟩
      obtain ⟨w, hwrites, rfl⟩ := exists_writes hrun hfalls hcall hord.wide
      rw [accesses, List.forall_mem_append] at hapart
      exact insn_run hfew hord hsim hslots hwrites hapart.1 halloc.loads halloc.replacement halloc.stores

/-- A step that stays in the body and touches no word of the frame. -/
def BodyStep (callee : String → Passed → Option Returned) (L : String → Word) (hidden : List Word)
    (body : List Instruction) (c c' : CodeState) : Prop :=
  stepCode callee L saved body c = some c' ∧ ∃ insn rest, c.code = insn :: rest ∧ insn ≠ .LEAVE ∧
    ∀ a ∈ accesses callee L (saved.insns insn) c.state, ∀ p ∈ hidden, Bytes.Apart p a

/-- Where the body is, where its code is, and their states. -/
structure At (insns body : List Instruction) (b : Word) (c d : CodeState) : Prop where
  suffix : c.code <:+ body
  code : ∃ codes, c.code.mapM (allocateInsn (populateMap insns)) = some codes ∧ d.code = codes.flatten
  sim : Sim insns b c.state d.state

/-- One instruction of the body: the code of it ends in a related state. -/
theorem step_at (hfew : (temps insns).length ≤ 8190) (hblind : Blind callee (frame b insns))
    (hbody : ∀ insn ∈ body, insn = .LEAVE ∨ insn = .RET ∨ Ordinary insn ∧
      ∀ x size, .abstract x size ∈ insn.reads → ∃ k, populateMap insns x = some k)
    (hcodes : body.mapM (allocateInsn (populateMap insns)) = some codes) {front : List Instruction}
    (hfront : ∀ insn ∈ front, ∀ l top, insn ≠ .label l top) {d : CodeState} (h : At insns body b c d)
    (hstep : BodyStep callee L (frame b insns) body c c') :
    ∃ d', CodeReaches callee L saved (front ++ codes.flatten) d d' ∧ At insns body b c' d' := by
  obtain ⟨hstep, insn, rest, hc, hleave, hapart⟩ := hstep
  obtain ⟨hsuffix, ⟨codes₀, hcodes₀, hd⟩, hsim⟩ := h
  obtain ⟨cs, s⟩ := c
  obtain ⟨ds, t⟩ := d
  dsimp only at hc hd hsim hsuffix hcodes₀ hapart
  subst hc hd
  obtain ⟨code, codes₁, hcode, hcodes₁, rfl⟩ := mapM_cons_eq_some.mp hcodes₀
  have hrest : rest <:+ body := (List.suffix_cons _ _).trans hsuffix
  -- a jump is kept as it is and only its target moves; any other instruction runs between its loads and its
  -- stores
  by_cases hjump : ∃ op loc, insn = .jump op loc
  · obtain ⟨op, loc, rfl⟩ := hjump
    rw [allocateInsn_jump] at hcode
    cases hcode
    have hcomment : stepCode callee L saved (front ++ codes.flatten)
        ⟨([.COMMENT "[AA]", .jump op loc] :: codes₁).flatten, t⟩ = some ⟨.jump op loc :: codes₁.flatten, t⟩ := rfl
    have hnext : stepCode callee L saved (front ++ codes.flatten) ⟨.jump op loc :: codes₁.flatten, t⟩ =
        if op.taken s.flags then (findInsn loc codes.flatten).map fun code => ⟨code, t⟩
        else some ⟨codes₁.flatten, t⟩ := by
      rw [stepCode_jump, hsim.flags, findInsn_append hfront]
    rw [stepCode_jump] at hstep
    by_cases htaken : op.taken s.flags
    · rw [if_pos htaken] at hstep hnext
      obtain ⟨code, hfind, rfl⟩ := Option.map_eq_some_iff.mp hstep
      obtain ⟨codes', hcodes', hfind'⟩ := findInsn_flatten hcodes hfind
      rw [hfind'] at hnext
      exact ⟨_, .tail (.single hcomment) hnext, findInsn_suffix hfind, ⟨codes', hcodes', rfl⟩, hsim⟩
    · rw [if_neg htaken] at hstep hnext
      cases hstep
      exact ⟨_, .tail (.single hcomment) hnext, hrest, ⟨codes₁, hcodes₁, rfl⟩, hsim⟩
  · have hjump : ∀ op loc, insn ≠ .jump op loc := fun op loc h => hjump ⟨op, loc, h⟩
    have hret : insn ≠ .RET := by
      rintro rfl
      cases hstep
    rw [stepCode_eq_steps hjump hret] at hstep
    obtain ⟨s', hrun, rfl⟩ := Option.map_eq_some_iff.mp hstep
    obtain ⟨hord, hslots⟩ := ((hbody insn (hsuffix.subset List.mem_cons_self)).resolve_left hleave).resolve_left hret
    obtain ⟨hfalls, t', hrun', hsim'⟩ :=
      code_run hfew hblind hcode hord hslots hleave hret hjump hsim hrun hapart
    exact ⟨⟨codes₁.flatten, t'⟩, reaches_of_steps hfalls hrun', hrest, ⟨codes₁, hcodes₁, rfl⟩, hsim'⟩

/-- A run of the body is one of its code. -/
theorem run_at (hfew : (temps insns).length ≤ 8190) (hblind : Blind callee (frame b insns))
    (hbody : ∀ insn ∈ body, insn = .LEAVE ∨ insn = .RET ∨ Ordinary insn ∧
      ∀ x size, .abstract x size ∈ insn.reads → ∃ k, populateMap insns x = some k)
    (hcodes : body.mapM (allocateInsn (populateMap insns)) = some codes) {front : List Instruction}
    (hfront : ∀ insn ∈ front, ∀ l top, insn ≠ .label l top) {d : CodeState} (h : At insns body b c d)
    (hrun : Relation.ReflTransGen (BodyStep callee L (frame b insns) body) c c') :
    ∃ d', CodeReaches callee L saved (front ++ codes.flatten) d d' ∧ At insns body b c' d' := by
  induction hrun with
  | refl => exact ⟨d, .refl, h⟩
  | tail _ hstep ih =>
    obtain ⟨d₁, hreach, h₁⟩ := ih
    obtain ⟨d₂, hreach₂, h₂⟩ := step_at hfew hblind hbody hcodes hfront h₁ hstep
    exact ⟨d₂, hreach.trans hreach₂, h₂⟩

end Run

/-! ## Entry and exit -/

/-- The registers that the callee saves. -/
def callees : List x86Name := [RBX, R12, R13, R14, R15]

/-- The registers the prologue saves, with the words it saves them in. -/
def savedWords (b bytes : Word) : List (x86Name × Word) := (RBP, b) :: stackWords (b - bytes) callees

/-- The stack is as the prologue of a call in state `e` left it. -/
structure Balanced (bytes : Word) (e s : State) : Prop where
  base : s.phys RBP = e.phys RSP - 8
  top : s.phys RSP = e.phys RSP - 8 - bytes - 40
  saved : ∀ p ∈ savedWords (e.phys RSP - 8) bytes, s.mem.load p.2 = e.phys p.1

/-- The state behind the prologue of a call in state `e`. -/
structure Entered (bytes : Word) (e t : State) : Prop extends Balanced bytes e t where
  phys : ∀ n, n ≠ RBP → n ≠ RSP → t.phys n = e.phys n
  flags : t.flags = e.flags
  mem : Bytes.SameOutside ((savedWords (e.phys RSP - 8) bytes).map Prod.snd) e.mem t.mem

/-- The state at the `RET` of a call in state `e`, where the body was in state `s`. -/
structure Left (insns : List Instruction) (e s t : State) : Prop where
  kept : ∀ n ∈ RSP :: RBP :: callees, t.phys n = e.phys n
  phys : ∀ n ∉ RSP :: RBP :: callees, t.phys n = s.phys n
  flags : t.flags = s.flags
  mem : Bytes.SameOutside (frame (e.phys RSP - 8) insns) s.mem t.mem

section Entry

variable {callee : String → Passed → Option Returned} {L : String → Word} {insns : List Instruction}
  {b bytes : Word} {e s t : State}

/-- The frame has a slot for every temp, and its size can be written in an `ENTER`. -/
theorem frameBytes_spec (hfew : (temps insns).length ≤ 8190) :
    8 * (temps insns).length ≤ (frameBytes insns).toNat ∧ (frameBytes insns).toNat < 2 ^ 16 := by
  have hpad : (if (temps insns).length % 2 = 1 then 1 else 0) ≤ 1 := by split_ifs <;> decide
  generalize hn : (temps insns).length + (if (temps insns).length % 2 = 1 then 1 else 0) = n
  have hsmall : n < 2 ^ 33 := by omega
  have hbytes : frameBytes insns = 8 * BitVec.ofNat 64 n := by rw [frameBytes, hn]
  rw [hbytes, ← hn] at *
  constructor <;> bv_omega

/-- The words of the saved registers do not overlap. -/
theorem savedWords_apart (hbytes : bytes.toNat < 2 ^ 16) :
    (savedWords b bytes).Pairwise fun p q => Bytes.Apart p.2 q.2 := by
  simp only [savedWords, stackWords, callees, List.pairwise_cons, List.mem_cons, List.not_mem_nil, or_false,
    forall_eq_or_imp, forall_eq, IsEmpty.forall_iff, implies_true, List.Pairwise.nil, and_true, Bytes.Apart]
  bv_omega

/-- The words the prologue saves are apart from those of the frame. -/
theorem savedWords_frame (hfew : (temps insns).length ≤ 8190) :
    ∀ p ∈ savedWords b (frameBytes insns), ∀ a ∈ frame b insns, Bytes.Apart a p.2 := by
  obtain ⟨hlow, hhigh⟩ := frameBytes_spec hfew
  intro p hp a ha
  obtain ⟨i, hi, rfl⟩ := List.mem_map.mp ha
  have hi := List.mem_range.mp hi
  simp only [savedWords, stackWords, callees, List.mem_cons, List.not_mem_nil, or_false] at hp
  rcases hp with rfl | rfl | rfl | rfl | rfl | rfl <;> simp only [Bytes.Apart, slotAddress] <;>
    constructor <;> bv_omega

/-- The prologue makes the frame and saves the registers. -/
theorem prologue_run (hbytes : (frameBytes insns).toNat < 2 ^ 16) :
    ∃ t, steps callee L (prologue insns) e = some t ∧ Entered (frameBytes insns) e t := by
  have hapart := savedWords_apart (b := e.phys RSP - 8) hbytes
  have hpush : Register.calleeSaved.map .PUSH = pushAll callees := rfl
  have hforty : 8 * BitVec.ofNat 64 callees.length = 40 := by decide
  have henter : ∀ bytes : Word, bytes.toNat < 2 ^ 16 → ∃ s, step callee L (.ENTER bytes) e = some s ∧
      s.phys RBP = e.phys RSP - 8 ∧ s.phys RSP = e.phys RSP - 8 - bytes ∧
      (∀ n, n ≠ RBP → n ≠ RSP → s.phys n = e.phys n) ∧
      s.flags = e.flags ∧ s.mem = e.mem.store (e.phys RSP - 8) (e.phys RBP) := by
    intro bytes hbytes
    refine ⟨_, if_pos hbytes, rfl, rfl, fun n hbp hsp => ?_, rfl, rfl⟩
    simp [State.push, State.set, hbp, hsp]
  obtain ⟨s, hstep, hbase, htop, hphys, hflags, hmem⟩ := henter (frameBytes insns) hbytes
  obtain ⟨t, hrun, htop', hphys', hflags', hmem'⟩ : ∃ t, steps callee L (pushAll callees) s = some t ∧ _ :=
    pushAll_run (by decide)
  have hcontents : contents s.phys (stackWords (e.phys RSP - 8 - frameBytes insns) callees) =
      contents e.phys (stackWords (e.phys RSP - 8 - frameBytes insns) callees) := by
    refine contents_congr fun n hn => ?_
    rw [map_fst_stackWords] at hn
    refine hphys n ?_ ?_ <;>
    · rintro rfl
      exact absurd hn (by decide)
  have hstores : t.mem = (contents e.phys (savedWords (e.phys RSP - 8) (frameBytes insns))).foldl
      (fun m p => m.store p.1 p.2) e.mem := by
    rw [hmem', htop, hcontents, hmem, savedWords, contents, contents, List.map_cons, List.foldl_cons]
  refine ⟨t, ?_, ⟨?_, ?_, fun p hp => ?_⟩, fun n hbp hsp => ?_, hflags'.trans hflags, ?_⟩
  · rw [prologue, hpush, steps_cons, hstep, Option.bind_some, hrun]
  · rw [hphys' RBP (by decide), hbase]
  · rw [htop', htop, hforty]
  · rw [hstores]
    exact load_contents hapart hp
  · rw [hphys' n hsp, hphys n hbp hsp]
  · rw [hstores]
    exact sameOutside_contents

/-- The restored registers and `LEAVE` bring back what the prologue saved. -/
theorem epilogue_run (callee : String → Passed → Option Returned) (L : String → Word)
    (hfew : (temps insns).length ≤ 8190) (hbal : Balanced (frameBytes insns) e s)
    (hsim : Sim insns (e.phys RSP - 8) s t) :
    ∃ t', steps callee L ([.COMMENT "[AA]"] ++ Register.calleeSaved.reverse.map .POP ++ [.LEAVE]) t = some t' ∧
      Left insns e s t' := by
  have hpop : ([.COMMENT "[AA]"] ++ Register.calleeSaved.reverse.map .POP ++ [.LEAVE] : List Instruction) =
      .COMMENT "[AA]" :: (popAll callees.reverse ++ [.LEAVE]) := rfl
  have hforty : 8 * BitVec.ofNat 64 callees.length = 40 := by decide
  have hload : ∀ p ∈ savedWords (e.phys RSP - 8) (frameBytes insns), t.mem.load p.2 = e.phys p.1 := by
    intro p hp
    rw [hsim.mem.load_eq (savedWords_frame hfew p hp), hbal.saved p hp]
  obtain ⟨t₁, hrun, -, hpopped, hkeep, hflags, hmem⟩ :
      ∃ t₁, steps callee L (popAll callees.reverse) t = some t₁ ∧ _ := popAll_run (by decide) (by decide)
  rw [hsim.phys RSP (by decide), hbal.top, ← hforty, popWords_reverse] at hpopped
  have hrestored : ∀ n ∈ callees, t₁.phys n = e.phys n := by
    intro n hn
    rw [← map_fst_stackWords (e.phys RSP - 8 - frameBytes insns) callees] at hn
    obtain ⟨p, hp, rfl⟩ := List.mem_map.mp hn
    rw [hpopped p (List.mem_reverse.mpr hp), hload p (List.mem_cons_of_mem _ hp)]
  have hother : ∀ n, n ≠ RSP → n ∉ callees → t₁.phys n = t.phys n :=
    fun n hn hmem => hkeep n hn fun h => hmem (List.mem_reverse.mp h)
  have hbase : t₁.phys RBP = e.phys RSP - 8 := by
    rw [hother RBP (by decide) (by decide), hsim.phys RBP (by decide), hsim.base]
  have hrbp : t₁.mem.load (e.phys RSP - 8) = e.phys RBP := by
    rw [hmem]
    exact hload (RBP, e.phys RSP - 8) List.mem_cons_self
  -- what `LEAVE` does
  have hleave : ∃ t', step callee L .LEAVE t₁ = some t' ∧ t'.phys RSP = e.phys RSP ∧ t'.phys RBP = e.phys RBP ∧
      (∀ n, n ≠ RSP → n ≠ RBP → t'.phys n = t₁.phys n) ∧ t'.flags = t₁.flags ∧ t'.mem = t₁.mem := by
    refine ⟨_, rfl, ?_, ?_, fun n hsp hbp => ?_, rfl, rfl⟩
    · have hrsp : t₁.phys RBP + 8 = e.phys RSP := by
        rw [hbase]
        ring
      exact hrsp
    · rw [← hrbp, ← hbase]
      rfl
    · simp [State.pop, State.set, hsp, hbp]
  obtain ⟨t₂, hstep, hrsp, hrbp, hphys, hflags', hmem'⟩ := hleave
  refine ⟨t₂, ?_, ?_, fun n hn => ?_, ?_, ?_⟩
  · have hcomment : ∀ list, steps callee L (.COMMENT "[AA]" :: list) t = steps callee L list t := fun _ => rfl
    rw [hpop, hcomment, steps_append hrun, steps_singleton, hstep]
  · simp only [List.forall_mem_cons]
    refine ⟨hrsp, hrbp, fun n hn => ?_⟩
    rw [hphys n ?_ ?_, hrestored n hn] <;>
    · rintro rfl
      exact absurd hn (by decide)
  · obtain ⟨hsp, hbp, hn⟩ : n ≠ RSP ∧ n ≠ RBP ∧ n ∉ callees := by simpa only [List.mem_cons, not_or] using hn
    rw [hphys n hsp hbp, hother n hsp hn, hsim.phys n]
    have hsub : ∀ n ∈ defaults, n ∈ callees := by decide
    exact fun hd => hn (hsub n hd)
  · rw [hflags', hflags, hsim.flags]
  · rw [hmem', hmem]
    exact hsim.mem

end Entry

/-! ## The whole function -/

/-- Fetching an argument is an ordinary instruction that reads no temp. -/
theorem ordinary_argument (retCount i : ℕ) :
    Ordinary (.MOV (.registerDest (.abstract ("_ARG" ++ toString (i + 1)))) (ConventionalCaller.getArg retCount (i + 1))) ∧
      ∀ x size, .abstract x size ∉ (ConventionalCaller.getArg retCount (i + 1)).use := by
  generalize "_ARG" ++ toString (i + 1) = x
  have hregister : ∀ adjIdx reg, ConventionalCaller.argRegister adjIdx = some reg → reg ∉ defaults := by
    intro adjIdx reg h
    unfold ConventionalCaller.argRegister at h
    split at h <;> cases h <;> decide
  have huse : ∃ n, n ∉ defaults ∧ (ConventionalCaller.getArg retCount (i + 1)).use = [.x86 n] := by
    unfold ConventionalCaller.getArg
    dsimp only
    split
    · rename_i reg h
      exact ⟨reg, hregister _ reg h, rfl⟩
    · exact ⟨RBP, by decide, rfl⟩
  obtain ⟨n, hn, huse⟩ := huse
  generalize ConventionalCaller.getArg retCount (i + 1) = src at huse ⊢
  refine ⟨⟨?_, Bool.false_ne_true, ?_, ?_⟩, fun y size h => ?_⟩
  · rw [encountered, Instruction.involved, huse]
    exact Nat.le_of_lt (by decide : 1 < 3)
  · have hne : ∀ m ∈ defaults, n ≠ m := fun m hm h => hn (h ▸ hm)
    simpa [Instruction.reads, Instruction.use, Instruction.def, Destination.def, huse, Register.regName] using hne
  · simp [names, Instruction.def, Destination.def, Register.regName]
  · rw [huse] at h
    cases List.mem_singleton.mp h

/-- The instructions of a function, with those that fetch its arguments. -/
theorem ordinary_body {insns : List Instruction} (argCount retCount : ℕ)
    (hbody : ∀ insn ∈ insns, insn = .LEAVE ∨ insn = .RET ∨ Ordinary insn) :
    ∀ insn ∈ populateArguments argCount retCount ++ insns, insn = .LEAVE ∨ insn = .RET ∨ Ordinary insn ∧
      ∀ x size, .abstract x size ∈ insn.reads → ∃ k, populateMap insns x = some k := by
  intro insn hinsn
  rcases List.mem_append.mp hinsn with hinsn | hinsn
  · obtain ⟨i, -, rfl⟩ := List.mem_map.mp hinsn
    obtain ⟨hord, huse⟩ := ordinary_argument retCount i
    exact .inr (.inr ⟨hord, fun x size h => absurd h (huse x size)⟩)
  · refine (hbody insn hinsn).imp_right (Or.imp_right fun hord => ⟨hord, fun x size h => ?_⟩)
    exact populateMap_of_mem (mem_temps.mpr ⟨insn, hinsn, size, mem_involved (.inl h) rfl⟩)

/-- The allocator does not throw on an ordinary instruction. -/
theorem allocateInsn_of_ordinary {insns : List Instruction} {insn : Instruction}
    (h : insn = .LEAVE ∨ insn = .RET ∨ Ordinary insn) :
    ∃ code, allocateInsn (populateMap insns) insn = some code := by
  rcases h with rfl | rfl | hord
  · exact ⟨_, allocateInsn_leave _⟩
  · exact ⟨_, allocateInsn_ret _⟩
  · exact allocateInsn_isSome _ hord.few

/-- A function of ordinary instructions has code: its prologue, and behind it the code of its body. -/
theorem allocateRegisters_code {functionTypes : String → Option (ℕ × ℕ)} {insns : List Instruction}
    {name : String} {argCount retCount : ℕ} (htype : functionTypes name = some (argCount, retCount))
    (hbody : ∀ insn ∈ insns, insn = .LEAVE ∨ insn = .RET ∨ Ordinary insn) :
    ∃ codes, (populateArguments argCount retCount ++ insns).mapM (allocateInsn (populateMap insns)) = some codes ∧
      allocateRegisters functionTypes insns name = some (prologue insns ++ codes.flatten) := by
  have hgood := ordinary_body argCount retCount hbody
  obtain ⟨codes, hcodes, -⟩ : ∃ codes, (populateArguments argCount retCount ++ insns).mapM
      (allocateInsn (populateMap insns)) = some codes ∧ List.Forall₂ (fun _ _ => True) _ codes :=
    exists_mapM_iff.mpr fun insn hinsn => by
      obtain ⟨code, hcode⟩ : ∃ code, allocateInsn (populateMap insns) insn = some code :=
        allocateInsn_of_ordinary ((hgood insn hinsn).imp_right (Or.imp_right And.left))
      exact ⟨code, hcode, trivial⟩
  refine ⟨codes, hcodes, ?_⟩
  rw [allocateRegisters, htype, Option.bind_eq_bind, Option.bind_some]
  dsimp only
  rw [hcodes]
  rfl

section Function

variable {callee : String → Passed → Option Returned} {L : String → Word} {insns body : List Instruction}
  {codes : List (List Instruction)} {e : State}

/-- The code of a function, called in state `e`, makes the frame and simulates the body, and leaves it as the
caller expects. -/
def Simulates (callee : String → Passed → Option Returned) (L : String → Word) (insns body code : List Instruction)
    (e : State) : Prop :=
  ∃ start t₀, CodeReaches callee L saved code ⟨code, e⟩ ⟨start, t₀⟩ ∧ Entered (frameBytes insns) e t₀ ∧
    ∀ s₀, Sim insns (e.phys RSP - 8) s₀ t₀ → ∀ rest s,
      Relation.ReflTransGen (BodyStep callee L (frame (e.phys RSP - 8) insns) body) ⟨body, s₀⟩ ⟨rest, s⟩ →
      (∃ behind t, CodeReaches callee L saved code ⟨code, e⟩ ⟨behind, t⟩ ∧
        At insns body (e.phys RSP - 8) ⟨rest, s⟩ ⟨behind, t⟩) ∧
      ∀ rest', rest = .LEAVE :: .RET :: rest' → Balanced (frameBytes insns) e s →
        ∃ behind t, CodeReaches callee L saved code ⟨code, e⟩ ⟨.RET :: behind, t⟩ ∧ Left insns e s t

/-- The prologue runs to its end. -/
theorem prologue_reaches (hbytes : (frameBytes insns).toNat < 2 ^ 16) : ∃ t₀,
    CodeReaches callee L saved (prologue insns ++ codes.flatten) ⟨prologue insns ++ codes.flatten, e⟩
      ⟨codes.flatten, t₀⟩ ∧ Entered (frameBytes insns) e t₀ := by
  obtain ⟨t₀, hprologue, hentered⟩ : ∃ t, steps callee L (prologue insns) e = some t ∧ _ := prologue_run hbytes
  refine ⟨t₀, reaches_of_steps (fun insn hinsn => ?_) hprologue, hentered⟩
  rcases List.mem_cons.mp hinsn with rfl | hinsn
  · rfl
  · obtain ⟨r, -, rfl⟩ := List.mem_map.mp hinsn
    rfl

/-- There is no label in the prologue. -/
theorem prologue_no_label : ∀ insn ∈ prologue insns, ∀ l top, insn ≠ .label l top := by
  intro insn hinsn l top h
  subst h
  rcases List.mem_cons.mp hinsn with h | h
  · cases h
  · obtain ⟨r, -, h⟩ := List.mem_map.mp h
    cases h

/-- Where the body is at its `LEAVE`, its code leaves the function. -/
theorem At.leaves {rest' behind : List Instruction} {s t : State} (callee : String → Passed → Option Returned)
    (L : String → Word) (hfew : (temps insns).length ≤ 8190) (hbal : Balanced (frameBytes insns) e s)
    (h : At insns body (e.phys RSP - 8) ⟨.LEAVE :: .RET :: rest', s⟩ ⟨behind, t⟩) (code : List Instruction) :
    ∃ behind' t', CodeReaches callee L saved code ⟨behind, t⟩ ⟨.RET :: behind', t'⟩ ∧ Left insns e s t' := by
  have hsim : Sim insns (e.phys RSP - 8) s t := h.sim
  obtain ⟨codes', hcodes', hbehind⟩ := h.code
  obtain ⟨t', hleave, hleft⟩ := epilogue_run callee L hfew hbal hsim
  -- the code that is left starts with that of `LEAVE` and that of `RET`
  obtain ⟨codes₂, rfl⟩ : ∃ codes₂, codes' = ([.COMMENT "[AA]"] ++ Register.calleeSaved.reverse.map .POP ++
      [.LEAVE]) :: [.COMMENT "[AA]", .RET] :: codes₂ := by
    obtain ⟨_, codes₁, hleave, hcodes₁, rfl⟩ := mapM_cons_eq_some.mp hcodes'
    obtain ⟨_, codes₂, hret, -, rfl⟩ := mapM_cons_eq_some.mp hcodes₁
    cases hleave
    cases hret
    exact ⟨codes₂, rfl⟩
  dsimp only at hbehind
  subst hbehind
  have hexit : CodeReaches callee L saved code
      ⟨([.COMMENT "[AA]"] ++ Register.calleeSaved.reverse.map .POP ++ [.LEAVE]) ++
        .COMMENT "[AA]" :: .RET :: codes₂.flatten, t⟩ ⟨.COMMENT "[AA]" :: .RET :: codes₂.flatten, t'⟩ :=
    reaches_of_steps (by decide) hleave
  exact ⟨codes₂.flatten, t', .tail hexit rfl, hleft⟩

/-- The code of ordinary instructions simulates them, in a frame whose size has an encoding. -/
theorem simulates (hfew : (temps insns).length ≤ 8190) (hblind : Blind callee (frame (e.phys RSP - 8) insns))
    (hbody : ∀ insn ∈ body, insn = .LEAVE ∨ insn = .RET ∨ Ordinary insn ∧
      ∀ x size, .abstract x size ∈ insn.reads → ∃ k, populateMap insns x = some k)
    (hcodes : body.mapM (allocateInsn (populateMap insns)) = some codes) :
    Simulates callee L insns body (prologue insns ++ codes.flatten) e := by
  obtain ⟨t₀, henter, hentered⟩ := @prologue_reaches callee L insns codes e (frameBytes_spec hfew).2
  refine ⟨codes.flatten, t₀, henter, hentered, fun s₀ hsim rest s hrun => ?_⟩
  obtain ⟨⟨behind, t⟩, hreach, hat⟩ := run_at hfew hblind hbody hcodes prologue_no_label
    (d := ⟨codes.flatten, t₀⟩) ⟨List.suffix_refl _, ⟨codes, hcodes, rfl⟩, hsim⟩ hrun
  refine ⟨⟨behind, t, henter.trans hreach, hat⟩, ?_⟩
  rintro rest' rfl hbal
  obtain ⟨behind', t', hleave, hleft⟩ := hat.leaves callee L hfew hbal (prologue insns ++ codes.flatten)
  exact ⟨behind', t', (henter.trans hreach).trans hleave, hleft⟩

end Function

/-- The code of a function enters and simulates its body, and leaves it as the caller expects. The size of
the frame, eight bytes for each temp and the padding, has to fit the 16 bits that `ENTER` has for it. -/
theorem allocateRegisters_correct {functionTypes : String → Option (ℕ × ℕ)} {insns : List Instruction}
    {name : String} {argCount retCount : ℕ} (htype : functionTypes name = some (argCount, retCount))
    (hbody : ∀ insn ∈ insns, insn = .LEAVE ∨ insn = .RET ∨ Ordinary insn)
    (hfew : (temps insns).length ≤ 8190) (callee : String → Passed → Option Returned) (L : String → Word)
    (e : State) (hblind : Blind callee (frame (e.phys RSP - 8) insns)) :
    ∃ code, allocateRegisters functionTypes insns name = some code ∧ ∃ start t₀,
      CodeReaches callee L saved code ⟨code, e⟩ ⟨start, t₀⟩ ∧ Entered (frameBytes insns) e t₀ ∧
      ∀ s₀, Sim insns (e.phys RSP - 8) s₀ t₀ → ∀ rest s,
        Relation.ReflTransGen (BodyStep callee L (frame (e.phys RSP - 8) insns)
          (populateArguments argCount retCount ++ insns))
          ⟨populateArguments argCount retCount ++ insns, s₀⟩ ⟨rest, s⟩ →
        (∃ behind t, CodeReaches callee L saved code ⟨code, e⟩ ⟨behind, t⟩ ∧
          At insns (populateArguments argCount retCount ++ insns) (e.phys RSP - 8) ⟨rest, s⟩ ⟨behind, t⟩) ∧
        ∀ rest', rest = .LEAVE :: .RET :: rest' → Balanced (frameBytes insns) e s →
          ∃ behind t, CodeReaches callee L saved code ⟨code, e⟩ ⟨.RET :: behind, t⟩ ∧ Left insns e s t := by
  obtain ⟨codes, hcodes, hcode⟩ := allocateRegisters_code htype hbody
  exact ⟨_, hcode, simulates hfew hblind (ordinary_body argCount retCount hbody) hcodes⟩

/-- Twice the argument. -/
def twice : List Instruction :=
  [.MOV (.registerDest (.abstract "a")) (.registerSrc (.abstract "_ARG1")),
    .arith .ADD (.registerDest (.abstract "a")) (.registerSrc (.abstract "_ARG1")),
    .MOV (.registerDest (.x86 RAX)) (.registerSrc (.abstract "a")), .LEAVE, .RET]

/-- A state at the entry of the function, with the argument seven. -/
def twiceEntry : State where
  abs _ := 0
  phys n := if n = RDI then 7 else if n = RSP then 0x7000 else 0
  flags := ⟨false, false, false, false⟩
  mem _ := 0

/-- The code of `twice`, run on seven, comes to its `RET` with fourteen and the stack pointer of the
entry. -/
theorem allocateRegisters_twice :
    ∃ code, allocateRegisters (fun _ => some (1, 1)) twice "f" = some code ∧ ∃ behind t,
      CodeReaches (fun _ _ => none) (fun _ => 0) saved code ⟨code, twiceEntry⟩ ⟨.RET :: behind, t⟩ ∧
      t.phys RAX = 14 ∧ t.phys RSP = 0x7000 := by
  have hbody : ∀ insn ∈ twice, insn = .LEAVE ∨ insn = .RET ∨ Ordinary insn := by
    intro insn hinsn
    simp only [twice, List.mem_cons, List.not_mem_nil, or_false] at hinsn
    rcases hinsn with rfl | rfl | rfl | rfl | rfl
    · exact .inr (.inr ⟨by decide, by decide, by decide, by decide⟩)
    · exact .inr (.inr ⟨by decide, by decide, by decide, by decide⟩)
    · exact .inr (.inr ⟨by decide, by decide, by decide, by decide⟩)
    · exact .inl rfl
    · exact .inr (.inl rfl)
  have hblind : Blind (fun _ _ => none) (frame (twiceEntry.phys RSP - 8) twice) :=
    fun _ _ _ _ _ _ _ _ h => by cases h
  obtain ⟨code, hcode, start, t₀, -, hentered, hrun⟩ :=
    @allocateRegisters_correct (fun _ => some (1, 1)) twice "f" 1 1 rfl hbody (by decide)
      (fun _ _ => none) (fun _ => 0) twiceEntry hblind
  -- the abstract registers start with what is in their slots
  obtain ⟨abs, habs⟩ : ∃ abs : String → Word, ∀ x k, populateMap twice x = some k →
      t₀.mem.load (slotAddress (twiceEntry.phys RSP - 8) k) = abs x :=
    ⟨fun x => t₀.mem.load (slotAddress (twiceEntry.phys RSP - 8) ((populateMap twice x).getD 0)),
      fun x k h => by simp only [h, Option.getD_some]⟩
  have hsim : Sim twice (twiceEntry.phys RSP - 8) { t₀ with abs } t₀ :=
    ⟨rfl, fun _ _ => rfl, hentered.base, habs, .refl _ _⟩
  have hstep : ∀ {c c' : CodeState}, stepCode (fun _ _ => none) (fun _ => 0) saved (populateArguments 1 1 ++ twice) c =
      some c' → (∃ insn rest, c.code = insn :: rest ∧ insn ≠ .LEAVE ∧
        accesses (fun _ _ => none) (fun _ => 0) (saved.insns insn) c.state = []) →
      BodyStep (fun _ _ => none) (fun _ => 0) (frame (twiceEntry.phys RSP - 8) twice)
        (populateArguments 1 1 ++ twice) c c' := by
    rintro c c' h ⟨insn, rest, hc, hleave, hnone⟩
    exact ⟨h, insn, rest, hc, hleave, fun a ha => absurd (hnone ▸ ha) List.not_mem_nil⟩
  obtain ⟨s, hreach, hphys, hmem⟩ : ∃ s, Relation.ReflTransGen
      (BodyStep (fun _ _ => none) (fun _ => 0) (frame (twiceEntry.phys RSP - 8) twice)
        (populateArguments 1 1 ++ twice))
      ⟨populateArguments 1 1 ++ twice, { t₀ with abs }⟩ ⟨[.LEAVE, .RET], s⟩ ∧
      s.phys = Function.update t₀.phys RAX (t₀.phys RDI + t₀.phys RDI) ∧ s.mem = t₀.mem := by
    refine ⟨_, .tail (.tail (.tail (.single (hstep rfl ⟨_, _, rfl, (by simp), rfl⟩))
      (hstep rfl ⟨_, _, rfl, (by simp), rfl⟩)) (hstep rfl ⟨_, _, rfl, (by simp), rfl⟩))
      (hstep rfl ⟨_, _, rfl, (by simp), rfl⟩), rfl, rfl⟩
  have hbalanced : Balanced (frameBytes twice) twiceEntry s := by
    refine ⟨?_, ?_, fun p hp => ?_⟩
    · rw [hphys, Function.update_of_ne (by decide), hentered.base]
    · rw [hphys, Function.update_of_ne (by decide), hentered.top]
    · rw [hmem, hentered.saved p hp]
  obtain ⟨behind, t, hcode', hleft⟩ := (hrun _ hsim _ _ hreach).2 _ rfl hbalanced
  refine ⟨code, hcode, behind, t, hcode', ?_, hleft.kept RSP (by decide)⟩
  rw [hleft.phys RAX (by decide), hphys, Function.update_self, hentered.phys RDI (by decide) (by decide)]
  rfl

end TrivialRegisterAllocator

end Jaek
