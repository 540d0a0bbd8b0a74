import Jaek.Assembly.Ralloc.TrivialRegisterAllocator
import Jaek.Assembly.Stack
import Jaek.Semantics.WordStack

/-!
# The tile of a call

`LIRCallStmt` computes its arguments from the last to the first, each into its place, calls, and takes the results.
`Passes` and `Answers` are the calling convention it relies on: where the callee finds the arguments, and where the
caller finds the results. A callee that keeps the convention makes the code of a call do what the call does in the
lowered representation, and all machine registers come back.
-/

namespace Jaek

open x86Name

/-! ## The convention -/

/-- The number of arguments on the stack. -/
def pushedArgs (n_returns args : ℕ) : ℕ := args - if n_returns > 2 then 5 else 6

/-- The number of results on the stack. -/
def pushedReturns (n_returns : ℕ) : ℕ := n_returns - 2

/-- The place of an argument, with room for the pointer to the results. -/
def adjIdx (n_returns index : ℕ) : ℕ := if n_returns > 2 then index + 1 else index

/-- What a caller passes. -/
def State.passed (s : State) : Passed := ⟨s.mem, s.flags, s.phys RSP, argRegs.map s.phys⟩

/-- Argument `index`, counted from 1, as a callee finds it. -/
def Passed.argument (p : Passed) (n_returns index : ℕ) : Option Word :=
  if adjIdx n_returns index ≤ 6 then p.args[adjIdx n_returns index - 1]?
  else some (p.mem.load (p.rsp + 8 * BitVec.ofNat 64 (adjIdx n_returns index - 7)))

/-- A caller with `d` words on the stack passes the arguments `as` and room for the results. -/
structure Passes (S : WordStack) (n_returns : ℕ) (as : List Word) (m : Bytes) (d : ℕ) (p : Passed) : Prop where
  top : p.rsp = S.pointer d
  /-- The stack pointer is a multiple of 16 where the top of the stack is. -/
  aligned : Even d
  argument : ∀ i v, as[i]? = some v → p.argument n_returns (i + 1) = some v
  area : 2 < n_returns → p.args[0]? = some (S.pointer (d - pushedArgs n_returns as.length))
  room : pushedArgs n_returns as.length + pushedReturns n_returns ≤ d
  mem : Bytes.SameOutside S.words m p.mem

/-- The results `rets` are where the caller looks for them, and the words of the caller are as they were. -/
structure Answers (S : WordStack) (args : ℕ) (rets : List Word) (m : Bytes) (d : ℕ) (before : Bytes)
    (rax rdx : Word) (after : Bytes) : Prop where
  rax : ∀ v, rets[0]? = some v → rax = v
  rdx : ∀ v, rets[1]? = some v → rdx = v
  area : ∀ j v, rets[j + 2]? = some v → after.load (S.word (d - pushedArgs rets.length args - 1 - j)) = v
  kept : ∀ i < d - pushedArgs rets.length args - pushedReturns rets.length,
    after.load (S.word i) = before.load (S.word i)
  mem : Bytes.SameOutside S.words m after

/-- What functions do: the results, and the memory they leave. -/
abbrev External := String → List Word → Bytes → Option (List Word × Bytes)

/-- The callees keep the convention, where `reserve` words are left for them. -/
def Implements (callee : String → Passed → Option Returned) (external : External) (S : WordStack)
    (reserve : ℕ) : Prop :=
  ∀ target as m rets m' d p, external target as m = some (rets, m') → Passes S rets.length as m d p →
    d + reserve ≤ S.size → ∃ ret, callee target p = some ret ∧
      Answers S as.length rets m' d p.mem (ret.regs (.x86 RAX)) (ret.regs (.x86 RDX)) ret.mem

/-- The same temps, up to fresh registers, and the same memory outside the stack. -/
structure AgreeOffStack (S : WordStack) (st st' : Store Bytes) : Prop where
  temps : ∀ x, (∀ k, x ≠ freshName k) → st'.temps x = st.temps x
  mem : Bytes.SameOutside S.words st.mem st'.mem

/-! ## Straight code -/

/-- Instructions that hand over to each other lead from `s` to `s'`. -/
structure Straight (callee : String → Passed → Option Returned) (L : String → Word) (insns : List Instruction)
    (s s' : State) : Prop where
  falls : ∀ insn ∈ insns, insn.falls
  run : steps callee L insns s = some s'

namespace Straight

variable {callee : String → Passed → Option Returned} {L : String → Word} {insn : Instruction}
  {insns insns' body rest : List Instruction} {s s₁ s' : State} {saved : Placeholders}

/-- No instructions. -/
theorem nil : Straight callee L [] s s := ⟨List.forall_mem_nil _, rfl⟩

/-- One instruction in front. -/
theorem cons (hfalls : insn.falls) (hstep : step callee L insn s = some s₁) (h : Straight callee L insns s₁ s') :
    Straight callee L (insn :: insns) s s' := by
  refine ⟨List.forall_mem_cons.mpr ⟨hfalls, h.falls⟩, ?_⟩
  rw [steps_cons, hstep, Option.bind_some, h.run]

/-- One instruction. -/
theorem single (hfalls : insn.falls) (hstep : step callee L insn s = some s') : Straight callee L [insn] s s' :=
  cons hfalls hstep nil

/-- Two pieces of straight code in a row. -/
theorem append (h : Straight callee L insns s s₁) (h' : Straight callee L insns' s₁ s') :
    Straight callee L (insns ++ insns') s s' := by
  refine ⟨List.forall_mem_append.mpr ⟨h.falls, h'.falls⟩, ?_⟩
  rw [steps_append h.run, h'.run]

/-- Straight code is run to its end, whatever comes behind it. -/
theorem reaches (h : Straight callee L insns s s') :
    CodeReaches callee L saved body ⟨insns ++ rest, s⟩ ⟨rest, s'⟩ := by
  obtain ⟨hfalls, hrun⟩ := h
  induction insns generalizing s with
  | nil =>
    cases hrun
    exact .refl
  | cons insn insns ih =>
    rw [List.forall_mem_cons] at hfalls
    rw [steps_cons] at hrun
    obtain ⟨s₁, hstep, hrun⟩ := Option.bind_eq_some_iff.mp hrun
    refine .head ?_ (ih hfalls.2 hrun)
    show stepCode callee L saved body ⟨insn :: (insns ++ rest), s⟩ = some ⟨insns ++ rest, s₁⟩
    rw [stepCode_of_falls hfalls.1, hstep]
    rfl

end Straight

/-! ## The stack pointer -/

section Stack

variable {callee : String → Passed → Option Returned} {L : String → Word} {S : WordStack} {s t : State} {d k : ℕ}
  {ns : List x86Name}

/-- `PUSH` puts a word on the stack and changes nothing else. -/
theorem push_spec (htop : s.phys RSP = S.pointer d) (v : Word) : (s.push v).phys RSP = S.pointer (d + 1) ∧
    (∀ r, r ≠ RSP → (s.push v).phys r = s.phys r) ∧ (s.push v).mem = s.mem.store (S.word d) v ∧
    (s.push v).abs = s.abs := by
  have hrsp : (s.push v).phys RSP = S.word d := by
    rw [← S.pointer_sub_eight, ← htop]
    exact Function.update_self RSP _ s.phys
  refine ⟨hrsp, fun r hr => Function.update_of_ne hr _ _, ?_, rfl⟩
  rw [← hrsp]
  rfl

/-- `POP` takes the topmost word into an abstract register and changes nothing else. -/
theorem pop_spec (htop : s.phys RSP = S.pointer (d + 1)) (x : String) :
    (s.pop.2.set (.abstract x) s.pop.1).phys RSP = S.pointer d ∧
      (∀ r, r ≠ RSP → (s.pop.2.set (.abstract x) s.pop.1).phys r = s.phys r) ∧
      (s.pop.2.set (.abstract x) s.pop.1).mem = s.mem ∧
      (s.pop.2.set (.abstract x) s.pop.1).abs = Function.update s.abs x (s.mem.load (S.word d)) := by
  have hload : s.pop.1 = s.mem.load (S.word d) := by
    show s.mem.load (s.phys RSP) = _
    rw [htop]
    rfl
  refine ⟨?_, fun r hr => Function.update_of_ne hr _ _, rfl, ?_⟩
  · show Function.update s.phys RSP (s.phys RSP + 8) RSP = _
    rw [Function.update_self, htop, S.pointer_add_eight]
  · rw [hload]
    rfl

/-- Writing a machine register. -/
theorem set_x86_spec (n : x86Name) (v : Word) : (s.set (.x86 n) v).phys n = v ∧
    ∀ r, r ≠ n → (s.set (.x86 n) v).phys r = s.phys r := by
  rw [State.phys_set_x86]
  exact ⟨Function.update_self n v s.phys, fun _ hr => Function.update_of_ne hr _ _⟩

variable (callee L) in
/-- Moving the stack pointer. -/
theorem straight_rsp (op : Arith) (c : Word) {top : Word} (htop : (op.eval (s.phys RSP) c s.flags).1 = top) :
    ∃ s', Straight callee L [.arith op (.registerDest (.x86 RSP)) (.constSrc c)] s s' ∧ s'.phys RSP = top ∧
      (∀ r, r ≠ RSP → s'.phys r = s.phys r) ∧ s'.abs = s.abs ∧ s'.mem = s.mem := by
  refine ⟨_, .single rfl rfl, ?_, fun r hr => ?_, rfl, rfl⟩
  · rw [← htop]
    exact Function.update_self RSP _ s.phys
  · exact Function.update_of_ne hr _ _

/-- The words that the registers are pushed to are the next ones of the stack. -/
theorem mem_stackWords {p : x86Name × Word} (hp : p ∈ stackWords (S.pointer d) ns) :
    ∃ i, d ≤ i ∧ i < d + ns.length ∧ p.2 = S.word i := by
  induction ns generalizing d with
  | nil => cases hp
  | cons n ns ih =>
    rw [stackWords, S.pointer_sub_eight] at hp
    rw [List.length_cons]
    rcases List.mem_cons.mp hp with rfl | hp
    · exact ⟨d, le_rfl, by omega, rfl⟩
    · obtain ⟨i, hlo, hhi, h⟩ := ih hp
      exact ⟨i, by omega, by omega, h⟩

/-- They do not overlap. -/
theorem stackWords_apart (h : d + ns.length ≤ S.size) :
    (stackWords (S.pointer d) ns).Pairwise fun p q => Bytes.Apart p.2 q.2 := by
  induction ns generalizing d with
  | nil => exact .nil
  | cons n ns ih =>
    rw [List.length_cons] at h
    rw [stackWords, S.pointer_sub_eight]
    refine List.pairwise_cons.mpr ⟨fun p hp => ?_, ih (d := d + 1) (by omega)⟩
    obtain ⟨i, hlo, hhi, hword⟩ := mem_stackWords (d := d + 1) hp
    show Bytes.Apart (S.word d) p.2
    rw [hword]
    exact WordStack.word_apart (by omega) (by omega) (by omega)

/-- Pushing machine registers leaves the abstract ones alone. -/
theorem abs_pushAll (h : steps callee L (pushAll ns) s = some t) : t.abs = s.abs := by
  induction ns generalizing s with
  | nil =>
    cases h
    rfl
  | cons n ns ih =>
    have h : steps callee L (pushAll ns) (s.push (s.phys n)) = some t := h
    rw [ih h]
    rfl

/-- So does popping them. -/
theorem abs_popAll (h : steps callee L (popAll ns) s = some t) : t.abs = s.abs := by
  induction ns generalizing s with
  | nil =>
    cases h
    rfl
  | cons n ns ih =>
    have h : steps callee L (popAll ns) (s.pop.2.set (.x86 n) s.pop.1) = some t := h
    rw [ih h]
    rfl

variable (callee L) in
/-- Pushing registers keeps them in the words from `d` on. -/
theorem pushAll_words (htop : s.phys RSP = S.pointer d) (hrsp : RSP ∉ ns) (hroom : d + ns.length ≤ S.size) :
    ∃ s', steps callee L (pushAll ns) s = some s' ∧ s'.phys RSP = S.pointer (d + ns.length) ∧
      (∀ r, r ≠ RSP → s'.phys r = s.phys r) ∧ s'.abs = s.abs ∧
      (∀ i < d, s'.mem.load (S.word i) = s.mem.load (S.word i)) ∧ Bytes.SameOutside S.words s.mem s'.mem ∧
      ∀ p ∈ stackWords (S.pointer d) ns, s'.mem.load p.2 = s.phys p.1 := by
  obtain ⟨s', hpush, htop', hphys, -, hmem⟩ := @pushAll_run callee L ns s hrsp
  rw [htop] at hmem
  refine ⟨s', hpush, ?_, hphys, abs_pushAll hpush, fun i hi => ?_, ?_, fun p hp => ?_⟩
  · rw [htop', htop, S.pointer_sub]
  · rw [hmem]
    refine Bytes.load_foldl_store fun p hp => ?_
    obtain ⟨q, hq, rfl⟩ := List.mem_map.mp hp
    obtain ⟨j, hlo, hhi, hword⟩ := mem_stackWords hq
    show Bytes.Apart q.2 (S.word i)
    rw [hword]
    exact WordStack.word_apart (by omega) (by omega) (by omega)
  · rw [hmem]
    refine Bytes.SameOutside.of_foldl_store fun p hp => ?_
    obtain ⟨q, hq, rfl⟩ := List.mem_map.mp hp
    obtain ⟨j, hlo, hhi, hword⟩ := mem_stackWords hq
    show q.2 ∈ S.words
    rw [hword]
    exact WordStack.word_mem (by omega)
  · rw [hmem]
    exact load_contents (stackWords_apart hroom) hp

variable (callee L) in
/-- Popping in reverse order brings them back. -/
theorem popAll_words (htop : s.phys RSP = S.pointer (d + ns.length)) (hrsp : RSP ∉ ns) (hnodup : ns.Nodup)
    {saves : x86Name → Word} (hsaves : ∀ p ∈ stackWords (S.pointer d) ns, s.mem.load p.2 = saves p.1) :
    ∃ s', steps callee L (popAll ns.reverse) s = some s' ∧ s'.phys RSP = S.pointer d ∧
      (∀ r ∈ ns, s'.phys r = saves r) ∧ (∀ r, r ≠ RSP → r ∉ ns → s'.phys r = s.phys r) ∧ s'.abs = s.abs ∧
      s'.mem = s.mem := by
  obtain ⟨s', hpop, htop', hload, hphys, -, hmem⟩ := @popAll_run callee L ns.reverse s
    (List.mem_reverse.not.mpr hrsp) (List.nodup_reverse.mpr hnodup)
  have hwords : popWords (s.phys RSP) ns.reverse = (stackWords (S.pointer d) ns).reverse := by
    rw [← popWords_reverse, htop, S.pointer_sub]
  refine ⟨s', hpop, ?_, fun r hr => ?_, fun r hne hr => hphys r hne (List.mem_reverse.not.mpr hr), abs_popAll hpop,
    hmem⟩
  · rw [htop', htop, List.length_reverse, S.pointer_add (Nat.le_add_left _ _), Nat.add_sub_cancel]
  · rw [← map_fst_stackWords (S.pointer d) ns] at hr
    obtain ⟨p, hp, rfl⟩ := List.mem_map.mp hr
    rw [hwords] at hload
    rw [hload p (List.mem_reverse.mpr hp), hsaves p hp]

end Stack

/-! ## Arguments -/

/-- An argument of a call as the lowering leaves it: a temp or a constant. -/
def LIRExpr.IsAtom : LIRExpr → Prop
  | const _ => True
  | temp x => ∀ k, x ≠ freshName k
  | _ => False

/-- The registers of the arguments, in order. -/
theorem argRegister_eq {a : ℕ} (ha : 1 ≤ a) : ConventionalCaller.argRegister a = argRegs[a - 1]? := by
  by_cases hle : a ≤ 6
  · interval_cases a <;> rfl
  · rw [List.getElem?_eq_none (by simp only [argRegs, List.length_cons, List.length_nil]; omega)]
    unfold ConventionalCaller.argRegister
    split <;> first | rfl | omega

/-- There are six of them. -/
theorem argRegister_isSome {a : ℕ} : (∃ r, ConventionalCaller.argRegister a = some r) ↔ 1 ≤ a ∧ a ≤ 6 := by
  constructor
  · rintro ⟨r, h⟩
    unfold ConventionalCaller.argRegister at h
    split at h <;> first | omega | cases h
  · rintro ⟨hpos, hle⟩
    rw [argRegister_eq hpos]
    exact ⟨_, List.getElem?_eq_getElem (by simp only [argRegs, List.length_cons, List.length_nil]; omega)⟩

/-- Later arguments are on the stack. -/
theorem lt_of_argRegister_eq_none {a : ℕ} (ha : 1 ≤ a) (h : ConventionalCaller.argRegister a = none) : 6 < a := by
  by_contra hle
  obtain ⟨r, hr⟩ := argRegister_isSome.mpr ⟨ha, Nat.not_lt.mp hle⟩
  cases hr.symm.trans h

/-- The index of an argument is positive, with or without the area of the results. -/
theorem adjIdx_pos (n : ℕ) {i : ℕ} (hi : 1 ≤ i) : 1 ≤ adjIdx n i := by
  unfold adjIdx
  split_ifs <;> omega

/-- Different arguments have different registers. -/
theorem argRegister_inj {a b : ℕ} {r : x86Name} (ha : ConventionalCaller.argRegister a = some r)
    (hb : ConventionalCaller.argRegister b = some r) : a = b := by
  obtain ⟨hpos, hle⟩ := argRegister_isSome.mp ⟨r, ha⟩
  obtain ⟨hpos', hle'⟩ := argRegister_isSome.mp ⟨r, hb⟩
  interval_cases a <;> interval_cases b <;> first | rfl | exact absurd (ha.trans hb.symm) (by decide)

/-- None of them is the stack pointer. -/
theorem argRegister_ne_rsp {a : ℕ} {r : x86Name} (h : ConventionalCaller.argRegister a = some r) : r ≠ RSP := by
  unfold ConventionalCaller.argRegister at h
  split at h <;> cases h <;> decide

/-- One of the first arguments is moved to its register. -/
theorem putArg_register {n c : ℕ} {r : x86Name} {value : Register}
    (h : ConventionalCaller.argRegister (adjIdx n c) = some r) :
    ConventionalCaller.putArg n c value = .MOV (.registerDest (.x86 r)) (.registerSrc value) := by
  unfold adjIdx at h
  rw [ConventionalCaller.putArg, h]

/-- A later one is pushed. -/
theorem putArg_push {n c : ℕ} {value : Register} (h : ConventionalCaller.argRegister (adjIdx n c) = none) :
    ConventionalCaller.putArg n c value = .PUSH value := by
  unfold adjIdx at h
  rw [ConventionalCaller.putArg, h]

/-- Where the arguments with the values `vs`, the last one first, are when those of them that have no register are
on the stack from word `d` on. -/
def ArgsPlaced (S : WordStack) (n_returns d : ℕ) (vs : List Word) (s : State) : Prop :=
  ∀ j v, vs[j]? = some v →
    match ConventionalCaller.argRegister (adjIdx n_returns (vs.length - j)) with
    | some r => s.phys r = v
    | none => s.mem.load (S.word (d + j)) = v

section Arguments

variable (callee : String → Passed → Option Returned) (L : String → Word) {S : WordStack} {k k' d n : ℕ} {s : State}

/-- The tile of an atom puts its value into a register, and changes no register of the program. -/
theorem atom_straight {e : LIRExpr} (hatom : e.IsAtom) {t : Tile.Expr} (h : e.optimalTile k = some (t, k'))
    (s : State) : ∃ x v s', t.outputRegister = .abstract x ∧ e.eval (Bytes.storage L) s.store = some v ∧
      Straight callee L t.instructions s s' ∧ s'.abs x = v ∧ s'.phys = s.phys ∧ s'.mem = s.mem ∧
      ∀ y, (∀ j, y ≠ freshName j) → s'.abs y = s.abs y := by
  cases e with
  | const c =>
    cases h
    refine ⟨freshName (k + 1), c, s.set (freshRegister (k + 1)) c, rfl, rfl, .single rfl rfl,
      Function.update_self _ _ _, rfl, rfl, fun y hy => ?_⟩
    exact Function.update_of_ne (hy _) _ _
  | temp x =>
    cases h
    exact ⟨x, s.abs x, s, rfl, rfl, .nil, rfl, rfl, rfl, fun _ _ => rfl⟩
  | name | mem | op => exact hatom.elim

/-- Atoms depend on the temps only. -/
theorem evalList_atoms {es : List LIRExpr} (hatom : ∀ e ∈ es, e.IsAtom) {st st' : Store Bytes}
    (h : ∀ x, (∀ j, x ≠ freshName j) → st'.temps x = st.temps x) {vs : List Word}
    (heval : evalList (Bytes.storage L) st es = some vs) : evalList (Bytes.storage L) st' es = some vs := by
  induction es generalizing vs with
  | nil => exact heval
  | cons e es ih =>
    rw [List.forall_mem_cons] at hatom
    obtain ⟨v, vs', hv, hvs, rfl⟩ := mapM_cons_eq_some.mp heval
    refine mapM_cons_eq_some.mpr ⟨v, vs', ?_, ih hatom.2 hvs, rfl⟩
    obtain ⟨hatom, -⟩ := hatom
    cases e with
    | const c => exact hv
    | temp x =>
      rw [LIRExpr.eval] at hv ⊢
      rw [h x hatom, hv]
    | name | mem | op => exact hatom.elim

/-- Put one argument into its place. -/
theorem putArg_straight {c : ℕ} (hc : 1 ≤ c) {x : String} {v : Word} (hv : s.abs x = v)
    (htop : s.phys RSP = S.pointer d) :
    ∃ s', Straight callee L [ConventionalCaller.putArg n c (.abstract x)] s s' ∧ s'.abs = s.abs ∧
      ((∃ r, ConventionalCaller.argRegister (adjIdx n c) = some r ∧ pushedArgs n c = 0 ∧ s'.phys r = v ∧
        (∀ r', r' ≠ r → s'.phys r' = s.phys r') ∧ s'.mem = s.mem) ∨
      (ConventionalCaller.argRegister (adjIdx n c) = none ∧ pushedArgs n c = pushedArgs n (c - 1) + 1 ∧
        s'.phys RSP = S.pointer (d + 1) ∧ (∀ r, r ≠ RSP → s'.phys r = s.phys r) ∧
        s'.mem = s.mem.store (S.word d) v)) := by
  cases hreg : ConventionalCaller.argRegister (adjIdx n c) with
  | some r =>
    obtain ⟨-, hle⟩ := argRegister_isSome.mp ⟨r, hreg⟩
    rw [putArg_register hreg]
    refine ⟨s.set (.x86 r) v, .single rfl ?_, rfl,
      .inl ⟨r, rfl, ?_, (set_x86_spec r v).1, (set_x86_spec r v).2, rfl⟩⟩
    · rw [← hv]
      rfl
    · unfold adjIdx at hle
      unfold pushedArgs
      split_ifs at * <;> omega
  | none =>
    have hlarge : 6 < adjIdx n c := lt_of_argRegister_eq_none (adjIdx_pos n hc) hreg
    have hpushed : pushedArgs n c = pushedArgs n (c - 1) + 1 := by
      unfold adjIdx at hlarge
      unfold pushedArgs
      split_ifs at * <;> omega
    obtain ⟨hrsp, hphys, hmem, habs⟩ := push_spec htop v
    rw [putArg_push hreg]
    refine ⟨s.push v, .single rfl ?_, habs, .inr ⟨rfl, hpushed, hrsp, hphys, hmem⟩⟩
    rw [← hv]
    rfl

/-- The arguments, the last one first, go into their places. -/
theorem args_straight (n : ℕ) {es : List LIRExpr} (hatom : ∀ e ∈ es, e.IsAtom) {tiles : List Tile.Expr}
    (h : optimalTiles es k = some (tiles, k')) {i total : ℕ} (htotal : total = i + es.length) {vs : List Word}
    (heval : evalList (Bytes.storage L) s.store es = some vs) (htop : s.phys RSP = S.pointer d)
    (hroom : d + pushedArgs n es.length ≤ S.size) :
    ∃ s', Straight callee L ((tiles.zipIdx i).flatMap fun p => p.1.instructions ++
        [ConventionalCaller.putArg n (total - p.2) p.1.outputRegister]) s s' ∧
      s'.phys RSP = S.pointer (d + pushedArgs n es.length) ∧
      (∀ r, r ≠ RSP → (∀ c, 1 ≤ c → c ≤ es.length → ConventionalCaller.argRegister (adjIdx n c) ≠ some r) →
        s'.phys r = s.phys r) ∧
      (∀ x, (∀ j, x ≠ freshName j) → s'.abs x = s.abs x) ∧
      (∀ j < d, s'.mem.load (S.word j) = s.mem.load (S.word j)) ∧ Bytes.SameOutside S.words s.mem s'.mem ∧
      ArgsPlaced S n d vs s' := by
  -- The last argument is put first; the induction is on the arguments that are left, with the stack as high
  -- as those before them have made it.
  induction es generalizing k tiles i vs s d with
  | nil =>
    cases h
    cases heval
    refine ⟨s, .nil, ?_, fun _ _ _ => rfl, fun _ _ => rfl, fun _ _ => rfl, .refl _ _, fun j v hj => by cases hj⟩
    rw [htop, pushedArgs, List.length_nil, Nat.zero_sub, Nat.add_zero]
  | cons e es ih =>
    obtain ⟨⟨t, k₁⟩, htile, h⟩ := Option.bind_eq_some_iff.mp h
    obtain ⟨⟨tiles, k₂⟩, htiles, h⟩ := Option.bind_eq_some_iff.mp h
    cases h
    rw [List.forall_mem_cons] at hatom
    obtain ⟨v, vs, hv, hvs, rfl⟩ := mapM_cons_eq_some.mp heval
    have hlen : vs.length = es.length := ((mapM_eq_some_iff.mp hvs).length_eq).symm
    obtain ⟨x, v', s₁, hregister, hv', hcode₁, hvalue, hphys₁, hmem₁, habs₁⟩ :=
      atom_straight callee L hatom.1 htile s
    cases hv.symm.trans hv'
    have hc : 1 ≤ (e :: es).length := Nat.succ_pos _
    have htop₁ : s₁.phys RSP = S.pointer d := by rw [hphys₁, htop]
    obtain ⟨s₂, hcode₂, habs₂, hput⟩ := putArg_straight callee L (n := n) hc hvalue htop₁
    have habs : ∀ y, (∀ j, y ≠ freshName j) → s₂.abs y = s.abs y := by
      intro y hy
      rw [habs₂, habs₁ y hy]
    have hvs₂ := @evalList_atoms L es hatom.2 s.store s₂.store habs vs hvs
    have hindex : total - i = (e :: es).length := by omega
    have hcode : (((t :: tiles).zipIdx i).flatMap fun p => p.1.instructions ++
        [ConventionalCaller.putArg n (total - p.2) p.1.outputRegister]) =
          (t.instructions ++ [ConventionalCaller.putArg n (e :: es).length (.abstract x)]) ++
            (tiles.zipIdx (i + 1)).flatMap fun p => p.1.instructions ++
              [ConventionalCaller.putArg n (total - p.2) p.1.outputRegister] := by
      rw [List.zipIdx_cons, List.flatMap_cons, hindex, hregister]
    have htotal : total = i + 1 + es.length := by
      rw [htotal, List.length_cons]
      omega
    rw [hcode]
    rcases hput with ⟨r, hreg, hnone, hr, hother, hmem₂⟩ | ⟨hreg, hpushed, hrsp, hother, hmem₂⟩
    · -- the argument has a register, and so have all in front of it
      have hzero : pushedArgs n es.length = 0 := by
        unfold pushedArgs at hnone ⊢
        rw [List.length_cons] at hnone
        split_ifs at * <;> omega
      have htop₂ : s₂.phys RSP = S.pointer d := by rw [hother RSP (argRegister_ne_rsp hreg).symm, htop₁]
      obtain ⟨s', hcode', hrsp', hkeep, habs', hwords, hmem', hplaced⟩ :=
        ih hatom.2 htiles htotal hvs₂ htop₂ (by omega)
      refine ⟨s', (hcode₁.append hcode₂).append hcode', ?_, fun r' hr' hnot => ?_,
        fun y hy => (habs' y hy).trans (habs y hy), fun j hj => ?_, ?_, fun j w hj => ?_⟩
      · rw [hrsp', hzero, hnone]
      · have hne : r' ≠ r := fun heq => hnot _ hc le_rfl (heq ▸ hreg)
        rw [hkeep r' hr' fun c hc hle => hnot c hc (hle.trans (Nat.le_succ _)), hother r' hne, hphys₁]
      · rw [hwords j hj, hmem₂, hmem₁]
      · rw [hmem₂, hmem₁] at hmem'
        exact hmem'
      · cases j with
        | zero =>
          cases hj
          have hadj : ConventionalCaller.argRegister (adjIdx n ((v :: vs).length - 0)) = some r := by
            rw [← hreg, List.length_cons, List.length_cons, hlen, Nat.sub_zero]
          rw [hadj]
          show s'.phys r = v
          rw [hkeep r (argRegister_ne_rsp hreg) fun c hc hle heq => ?_, hr]
          have hsame := argRegister_inj heq hreg
          unfold adjIdx at hsame
          rw [List.length_cons] at hsame
          split_ifs at hsame <;> omega
        | succ j =>
          have hj : vs[j]? = some w := hj
          have hlt := (List.getElem?_eq_some_iff.mp hj).1
          have hj := hplaced j w hj
          have hlength : (v :: vs).length - (j + 1) = vs.length - j := by
            rw [List.length_cons]
            omega
          rw [hlength]
          obtain ⟨-, hle⟩ := argRegister_isSome.mp ⟨r, hreg⟩
          obtain ⟨r', hr'⟩ : ∃ r, ConventionalCaller.argRegister (adjIdx n (vs.length - j)) = some r := by
            refine argRegister_isSome.mpr ?_
            unfold adjIdx at hle ⊢
            rw [List.length_cons] at hle
            split_ifs at * <;> omega
          rw [hr'] at hj ⊢
          exact hj
    · -- the argument is pushed
      have hpushed : pushedArgs n (e :: es).length = pushedArgs n es.length + 1 := hpushed
      obtain ⟨s', hcode', hrsp', hkeep, habs', hwords, hmem', hplaced⟩ :=
        ih hatom.2 htiles htotal hvs₂ hrsp (by omega)
      have hd : d < S.size := by omega
      refine ⟨s', (hcode₁.append hcode₂).append hcode', ?_, fun r' hr' hnot => ?_,
        fun y hy => (habs' y hy).trans (habs y hy), fun j hj => ?_, ?_, fun j w hj => ?_⟩
      · rw [hrsp', hpushed]
        congr 1
        omega
      · rw [hkeep r' hr' fun c hc hle => hnot c hc (hle.trans (Nat.le_succ _)), hother r' hr', hphys₁]
      · rw [hwords j (by omega), hmem₂, hmem₁, WordStack.load_store_word hd (by omega), if_neg (by omega)]
      · rw [hmem₂, hmem₁] at hmem'
        exact (WordStack.sameOutside_store_word (.refl _ _) hd).trans hmem'
      · cases j with
        | zero =>
          cases hj
          have hadj : ConventionalCaller.argRegister (adjIdx n ((v :: vs).length - 0)) = none := by
            rw [← hreg, List.length_cons, List.length_cons, hlen, Nat.sub_zero]
          rw [hadj]
          show s'.mem.load (S.word (d + 0)) = v
          rw [Nat.add_zero, hwords d (Nat.lt_succ_self d), hmem₂, WordStack.load_store_word hd hd, if_pos rfl]
        | succ j =>
          have hj : vs[j]? = some w := hj
          have hj := hplaced j w hj
          have hlength : (v :: vs).length - (j + 1) = vs.length - j := by
            rw [List.length_cons]
            omega
          have hword : d + (j + 1) = d + 1 + j := by omega
          rw [hlength, hword]
          exact hj

end Arguments

/-! ## Results -/

section Results

variable (callee : String → Passed → Option Returned) (L : String → Word) {S : WordStack} {d : ℕ} {s : State}

/-- The results from the third on are popped from the area in their order. -/
theorem pops_straight {i : ℕ} (hi : 3 ≤ i) {rets : List Word} (htop : s.phys RSP = S.pointer d)
    (hlen : rets.length ≤ d) (hwords : ∀ j v, rets[j]? = some v → s.mem.load (S.word (d - 1 - j)) = v) :
    ∃ s', Straight callee L ((List.range' i rets.length).map ConventionalCaller.getReturn) s s' ∧
      s'.abs = setReturns i rets s.abs ∧ s'.phys RSP = S.pointer (d - rets.length) ∧
      (∀ r, r ≠ RSP → s'.phys r = s.phys r) ∧ s'.mem = s.mem := by
  induction rets generalizing i s d with
  | nil => exact ⟨s, .nil, rfl, htop, fun _ _ => rfl, rfl⟩
  | cons v rets ih =>
    rw [List.length_cons] at hlen
    obtain ⟨e, rfl⟩ : ∃ e, d = e + 1 := ⟨d - 1, by omega⟩
    obtain ⟨hrsp, hphys, hmem, habs⟩ := pop_spec htop (retTemp i)
    have hv : s.mem.load (S.word e) = v := hwords 0 v rfl
    obtain ⟨s', hcode, habs', hrsp', hphys', hmem'⟩ :=
      ih (i := i + 1) (d := e) (by omega) hrsp (by omega) fun j w hj => by
        rw [hmem, ← hwords (j + 1) w hj]
        congr 2
        omega
    have hget : ConventionalCaller.getReturn i = .POP (.abstract (retTemp i)) := by
      unfold ConventionalCaller.getReturn
      split <;> first | omega | rfl
    have hpop : Straight callee L [ConventionalCaller.getReturn i] s
        (s.pop.2.set (.abstract (retTemp i)) s.pop.1) := by
      rw [hget]
      exact .single rfl rfl
    refine ⟨s', ?_, ?_, ?_, fun r hr => (hphys' r hr).trans (hphys r hr), hmem'.trans hmem⟩
    · rw [List.length_cons, List.range'_succ, List.map_cons]
      exact hpop.append hcode
    · rw [habs', habs, hv]
      rfl
    · rw [hrsp', List.length_cons]
      congr 1
      omega

/-- The results come from `RAX`, `RDX` and the stack. -/
theorem returns_straight {rets : List Word} (htop : s.phys RSP = S.pointer d) (hlen : pushedReturns rets.length ≤ d)
    (hrax : ∀ v, rets[0]? = some v → s.phys RAX = v) (hrdx : ∀ v, rets[1]? = some v → s.phys RDX = v)
    (hwords : ∀ j v, rets[j + 2]? = some v → s.mem.load (S.word (d - 1 - j)) = v) :
    ∃ s', Straight callee L ((List.range rets.length).map fun i => ConventionalCaller.getReturn (i + 1)) s s' ∧
      s'.abs = setReturns 1 rets s.abs ∧ s'.phys RSP = S.pointer (d - pushedReturns rets.length) ∧
      (∀ r, r ≠ RSP → s'.phys r = s.phys r) ∧ s'.mem = s.mem := by
  have hrange : (List.range rets.length).map (fun i => ConventionalCaller.getReturn (i + 1)) =
      (List.range' 1 rets.length).map ConventionalCaller.getReturn := by
    rw [List.range'_eq_map_range, List.map_map]
    exact List.map_congr_left fun i _ => by rw [Function.comp_apply, Nat.add_comm]
  have hmove : ∀ (x : String) (n : x86Name) (s : State),
      Straight callee L [.MOV (.registerDest (.abstract x)) (.registerSrc (.x86 n))] s
        (s.set (.abstract x) (s.phys n)) := fun x n s => .single rfl rfl
  rw [hrange]
  -- the first two results are in RAX and RDX, the others are popped
  rcases rets with - | ⟨a, - | ⟨b, rets⟩⟩
  · exact ⟨s, .nil, rfl, htop, fun _ _ => rfl, rfl⟩
  · refine ⟨_, hmove (retTemp 1) RAX s, ?_, htop, fun _ _ => rfl, rfl⟩
    show Function.update s.abs (retTemp 1) (s.phys RAX) = _
    rw [hrax a rfl]
    rfl
  · have hpops : pushedReturns (a :: b :: rets).length = rets.length := rfl
    rw [hpops] at hlen ⊢
    have habs : ((s.set (.abstract (retTemp 1)) (s.phys RAX)).set (.abstract (retTemp 2))
        ((s.set (.abstract (retTemp 1)) (s.phys RAX)).phys RDX)).abs =
          Function.update (Function.update s.abs (retTemp 1) a) (retTemp 2) b := by
      rw [← hrax a rfl, ← hrdx b rfl]
      rfl
    obtain ⟨s', hcode, habs', hrsp, hphys, hmem⟩ := @pops_straight callee L S d
      ((s.set (.abstract (retTemp 1)) (s.phys RAX)).set (.abstract (retTemp 2))
        ((s.set (.abstract (retTemp 1)) (s.phys RAX)).phys RDX)) 3 le_rfl rets htop hlen
      fun j v hj => hwords j v hj
    refine ⟨s', ?_, ?_, hrsp, hphys, hmem⟩
    · have hinsns : (List.range' 1 (a :: b :: rets).length).map ConventionalCaller.getReturn =
          [.MOV (.registerDest (.abstract (retTemp 1))) (.registerSrc (.x86 RAX))] ++
            ([.MOV (.registerDest (.abstract (retTemp 2))) (.registerSrc (.x86 RDX))] ++
              (List.range' 3 rets.length).map ConventionalCaller.getReturn) := by
        rw [List.length_cons, List.length_cons, List.range'_succ, List.range'_succ]
        rfl
      rw [hinsns]
      exact (hmove _ RAX s).append ((hmove _ RDX _).append hcode)
    · rw [habs', habs]
      rfl

end Results

/-! ## Calls -/

/-- The registers saved around a call. -/
def callers : List x86Name := [RAX, RCX, RDX, RDI, RSI, R8, R9, R10, R11]

/-- The padding of a call. -/
def padding (n_returns args : ℕ) : ℕ := if (pushedReturns n_returns + pushedArgs n_returns args) % 2 > 0 then 1 else 0

/-- The depth of the stack at the `CALL`, where `d` words are on the stack in front of the call. -/
def callDepth (d n_returns args : ℕ) : ℕ :=
  d + 9 + padding n_returns args + pushedReturns n_returns + pushedArgs n_returns args

/-- What is behind the `CALL`, up to the saved registers. -/
def callBack (n_returns args : ℕ) : List Instruction :=
  (if pushedArgs n_returns args > 0 then [.COMMENT "THIS REMOVES THE EXTRA ARGS FROM THE STACK",
    .arith .ADD (.registerDest (.x86 RSP)) (.constSrc (8 * BitVec.ofNat 64 (pushedArgs n_returns args)))] else []) ++
  (List.range n_returns).map (fun i => ConventionalCaller.getReturn (i + 1)) ++
  (if (pushedReturns n_returns + pushedArgs n_returns args) % 2 > 0 then
    [.COMMENT "removing padding", .arith .ADD (.registerDest (.x86 RSP)) (.constSrc 8)] else [])

section Calls

variable (callee : String → Passed → Option Returned) (L : String → Word) {S : WordStack} {d k k' n : ℕ} {s : State}

/-- The padding in front of the arguments. -/
theorem pad_straight (c : Prop) [Decidable c] (htop : s.phys RSP = S.pointer d) (hd : c → d < S.size) :
    ∃ s', Straight callee L (if c then [.COMMENT "adding padding", .PAD] else []) s s' ∧
      s'.phys RSP = S.pointer (d + if c then 1 else 0) ∧ (∀ r, r ≠ RSP → s'.phys r = s.phys r) ∧ s'.abs = s.abs ∧
      (∀ i < d, s'.mem.load (S.word i) = s.mem.load (S.word i)) ∧ Bytes.SameOutside S.words s.mem s'.mem := by
  split_ifs with hc
  · obtain ⟨hrsp, hphys, hmem, habs⟩ := push_spec htop 204
    refine ⟨s.push 204, .cons rfl rfl (.single rfl rfl), hrsp, hphys, habs, fun i hi => ?_, ?_⟩
    · have hd := hd hc
      rw [hmem, WordStack.load_store_word hd (by omega), if_neg (by omega)]
    · rw [hmem]
      exact WordStack.sameOutside_store_word (.refl _ _) (hd hc)
  · exact ⟨s, .nil, htop, fun _ _ => rfl, rfl, fun _ _ => rfl, .refl _ _⟩

/-- The room for the results, and the pointer to it. -/
theorem space_straight (n : ℕ) (htop : s.phys RSP = S.pointer d) :
    ∃ s', Straight callee L (if n ≥ 3 then
        [.arith .SUB (.registerDest (.x86 RSP)) (.constSrc (8 * (BitVec.ofNat 64 n - 2))),
          .MOV (.registerDest (.x86 RDI)) (.registerSrc (.x86 RSP))] else []) s s' ∧
      s'.phys RSP = S.pointer (d + pushedReturns n) ∧ (2 < n → s'.phys RDI = S.pointer (d + pushedReturns n)) ∧
      (∀ r, r ≠ RSP → r ≠ RDI → s'.phys r = s.phys r) ∧ s'.abs = s.abs ∧ s'.mem = s.mem := by
  split_ifs with hn
  · have hsub : (8 : Word) * (BitVec.ofNat 64 n - 2) = 8 * BitVec.ofNat 64 (n - 2) := by
      obtain ⟨m, rfl⟩ := Nat.exists_eq_add_of_le hn
      have h : BitVec.ofNat 64 (3 + m) = BitVec.ofNat 64 (3 + m - 2) + 2 := by
        have hm : 3 + m = 3 + m - 2 + 2 := by omega
        conv_lhs => rw [hm]
        exact BitVec.ofNat_add _ _
      rw [h, BitVec.add_sub_cancel]
    obtain ⟨s₁, hcode, hrsp, hphys, habs, hmem⟩ := @straight_rsp callee L s .SUB
      (8 * (BitVec.ofNat 64 n - 2)) (S.pointer (d + pushedReturns n)) (by
        show s.phys RSP - 8 * (BitVec.ofNat 64 n - 2) = _
        rw [hsub, htop, S.pointer_sub]
        rfl)
    obtain ⟨hrdi, hother⟩ := @set_x86_spec s₁ RDI (s₁.phys RSP)
    refine ⟨s₁.set (.x86 RDI) (s₁.phys RSP), hcode.append (.single rfl rfl), ?_, fun _ => hrdi.trans hrsp,
      fun r hr hr' => ?_, habs, hmem⟩
    · rw [hother RSP (by decide), hrsp]
    · rw [hother r hr', hphys r hr]
  · refine ⟨s, .nil, ?_, fun h => absurd h hn, fun _ _ _ => rfl, rfl, rfl⟩
    rw [htop, pushedReturns, Nat.sub_eq_zero_of_le (by omega), Nat.add_zero]

/-- What is taken from the stack. -/
theorem drop_straight {k : ℕ} (c : Prop) [Decidable c] (hc : ¬ c → k = 0) (str : String) (w : Word)
    (hw : c → w = 8 * BitVec.ofNat 64 k) (htop : s.phys RSP = S.pointer d) (hk : k ≤ d) :
    ∃ s', Straight callee L (if c then [.COMMENT str, .arith .ADD (.registerDest (.x86 RSP)) (.constSrc w)] else [])
        s s' ∧
      s'.phys RSP = S.pointer (d - k) ∧ (∀ r, r ≠ RSP → s'.phys r = s.phys r) ∧ s'.abs = s.abs ∧ s'.mem = s.mem := by
  split_ifs with h
  · obtain ⟨s', hcode, hrsp⟩ := @straight_rsp callee L s .ADD w (S.pointer (d - k)) (by
      show s.phys RSP + w = _
      rw [hw h, htop, S.pointer_add hk])
    exact ⟨s', .cons rfl rfl hcode, hrsp⟩
  · refine ⟨s, .nil, ?_, fun _ _ => rfl, rfl, rfl⟩
    rw [htop, hc h, Nat.sub_zero]

/-- Between the saved registers and the `CALL`, from a stack with `e` words. -/
theorem call_front {e : ℕ} {args : List LIRExpr} {tiles : List Tile.Expr} {as : List Word}
    (htiles : optimalTiles args.reverse k = some (tiles, k')) (hatom : ∀ e ∈ args, e.IsAtom)
    (heval : evalList (Bytes.storage L) s.store args = some as) (htop : s.phys RSP = S.pointer e)
    (hroom : e + padding n args.length + pushedReturns n + pushedArgs n args.length ≤ S.size) :
    ∃ s', Straight callee L
        ((if (pushedReturns n + pushedArgs n args.length) % 2 > 0 then [.COMMENT "adding padding", .PAD] else []) ++
          ((if n ≥ 3 then [.arith .SUB (.registerDest (.x86 RSP)) (.constSrc (8 * (BitVec.ofNat 64 n - 2))),
            .MOV (.registerDest (.x86 RDI)) (.registerSrc (.x86 RSP))] else []) ++
            tiles.zipIdx.flatMap fun p => p.1.instructions ++
              [ConventionalCaller.putArg n (args.length - p.2) p.1.outputRegister])) s s' ∧
      s'.phys RSP = S.pointer (e + padding n args.length + pushedReturns n + pushedArgs n args.length) ∧
      (∀ r, r ≠ RSP → r ≠ RDI → r ∉ argRegs → s'.phys r = s.phys r) ∧
      (2 < n → s'.phys RDI = S.pointer (e + padding n args.length + pushedReturns n)) ∧
      (∀ x, (∀ j, x ≠ freshName j) → s'.abs x = s.abs x) ∧
      (∀ i < e, s'.mem.load (S.word i) = s.mem.load (S.word i)) ∧ Bytes.SameOutside S.words s.mem s'.mem ∧
      ArgsPlaced S n (e + padding n args.length + pushedReturns n) as.reverse s' := by
  have hlen : args.reverse.length = args.length := List.length_reverse
  -- the last argument is put first, which is what leaves the first ones on top
  have hreverse : evalList (Bytes.storage L) s.store args.reverse = some as.reverse :=
    mapM_eq_some_iff.mpr (List.rel_reverse (mapM_eq_some_iff.mp heval))
  obtain ⟨s₁, hcode₁, hrsp₁, hphys₁, habs₁, hwords₁, hsame₁⟩ :=
    pad_straight callee L ((pushedReturns n + pushedArgs n args.length) % 2 > 0) htop fun hodd => by
      rw [padding, if_pos hodd] at hroom
      omega
  obtain ⟨s₂, hcode₂, hrsp₂, hrdi₂, hphys₂, habs₂, hmem₂⟩ := space_straight callee L n hrsp₁
  have hpadding : (if (pushedReturns n + pushedArgs n args.length) % 2 > 0 then 1 else 0) = padding n args.length := rfl
  rw [hpadding] at hrsp₂ hrdi₂
  have habs : s₂.abs = s.abs := by rw [habs₂, habs₁]
  have hatoms : ∀ e ∈ args.reverse, e.IsAtom := fun e he => hatom e (List.mem_reverse.mp he)
  have hreverse₂ := @evalList_atoms L args.reverse hatoms s.store s₂.store (fun x _ => congrFun habs x) as.reverse
    hreverse
  -- padding and the room for results do not touch the temporaries, so the arguments keep their values
  obtain ⟨s₃, hcode₃, hrsp₃, hkeep₃, habs₃, hwords₃, hsame₃, hplaced⟩ := @args_straight callee L S k k'
    (e + padding n args.length + pushedReturns n) s₂ n args.reverse hatoms tiles htiles 0 args.length (by omega)
    as.reverse hreverse₂ hrsp₂ (by rw [hlen]; exact hroom)
  rw [hlen] at hrsp₃ hkeep₃
  refine ⟨s₃, hcode₁.append (hcode₂.append hcode₃), hrsp₃, fun r hr hrdi hreg => ?_, fun hn => ?_, fun x hx => ?_,
    fun i hi => ?_, ?_, hplaced⟩
  · have hplace : ∀ c, 1 ≤ c → c ≤ args.length → ConventionalCaller.argRegister (adjIdx n c) ≠ some r := by
      intro c hc _ h
      obtain ⟨hpos, -⟩ := argRegister_isSome.mp ⟨r, h⟩
      rw [argRegister_eq hpos] at h
      exact hreg (List.mem_of_getElem? h)
    rw [hkeep₃ r hr hplace, hphys₂ r hr hrdi, hphys₁ r hr]
  · have hplace : ∀ c, 1 ≤ c → c ≤ args.length → ConventionalCaller.argRegister (adjIdx n c) ≠ some RDI := by
      intro c hc _ h
      have hone : adjIdx n c = 1 := argRegister_inj h rfl
      unfold adjIdx at hone
      rw [if_pos hn] at hone
      omega
    rw [hkeep₃ RDI (by decide) hplace, hrdi₂ hn]
  · rw [habs₃ x hx, habs]
  · rw [hwords₃ i (by omega), hmem₂, hwords₁ i hi]
  · rw [hmem₂] at hsame₃
    exact hsame₁.trans hsame₃

/-- Behind the `CALL`, down to a stack with `e` words. -/
theorem call_back {e nargs : ℕ} {rets : List Word}
    (htop : s.phys RSP = S.pointer (e + padding rets.length nargs + pushedReturns rets.length +
      pushedArgs rets.length nargs))
    (hrax : ∀ v, rets[0]? = some v → s.phys RAX = v) (hrdx : ∀ v, rets[1]? = some v → s.phys RDX = v)
    (harea : ∀ j v, rets[j + 2]? = some v →
      s.mem.load (S.word (e + padding rets.length nargs + pushedReturns rets.length - 1 - j)) = v) :
    ∃ s', Straight callee L (callBack rets.length nargs) s s' ∧ s'.phys RSP = S.pointer e ∧
      (∀ r, r ≠ RSP → s'.phys r = s.phys r) ∧ s'.abs = setReturns 1 rets s.abs ∧ s'.mem = s.mem := by
  obtain ⟨s₁, hcode₁, hrsp₁, hphys₁, habs₁, hmem₁⟩ := @drop_straight callee L S _ s (pushedArgs rets.length nargs)
    (pushedArgs rets.length nargs > 0) _ (by omega) "THIS REMOVES THE EXTRA ARGS FROM THE STACK" _ (fun _ => rfl) htop
    (Nat.le_add_left _ _)
  rw [Nat.add_sub_cancel] at hrsp₁
  obtain ⟨s₂, hcode₂, habs₂, hrsp₂, hphys₂, hmem₂⟩ := @returns_straight callee L S _ s₁ rets hrsp₁ (Nat.le_add_left _ _)
    (fun v hv => by rw [hphys₁ RAX (by decide), hrax v hv]) (fun v hv => by rw [hphys₁ RDX (by decide), hrdx v hv])
    fun j v hj => by rw [hmem₁, harea j v hj]
  rw [Nat.add_sub_cancel] at hrsp₂
  obtain ⟨s₃, hcode₃, hrsp₃, hphys₃, habs₃, hmem₃⟩ := @drop_straight callee L S _ s₂ (padding rets.length nargs)
    ((pushedReturns rets.length + pushedArgs rets.length nargs) % 2 > 0) _ (fun h => by rw [padding, if_neg h])
    "removing padding" 8 (fun h => by rw [padding, if_pos h]; rfl) hrsp₂ (Nat.le_add_left _ _)
  rw [Nat.add_sub_cancel] at hrsp₃
  refine ⟨s₃, (hcode₁.append hcode₂).append hcode₃, hrsp₃, fun r hr => ?_, ?_, ?_⟩
  · rw [hphys₃ r hr, hphys₂ r hr, hphys₁ r hr]
  · rw [habs₃, habs₂, habs₁]
  · rw [hmem₃, hmem₂, hmem₁]

/-- What a callee finds. -/
theorem ArgsPlaced.argument {as : List Word} (h : ArgsPlaced S n d as.reverse s)
    (htop : s.phys RSP = S.pointer (d + pushedArgs n as.length)) (i : ℕ) (v : Word) (hv : as[i]? = some v) :
    s.passed.argument n (i + 1) = some v := by
  obtain ⟨hi, -⟩ := List.getElem?_eq_some_iff.mp hv
  have hplace := h (as.length - 1 - i) v (by rw [List.getElem?_reverse (by omega), ← hv]; congr 1; omega)
  have hindex : as.reverse.length - (as.length - 1 - i) = i + 1 := by
    rw [List.length_reverse]
    omega
  rw [hindex] at hplace
  have hpos : 1 ≤ adjIdx n (i + 1) := adjIdx_pos n (Nat.succ_pos i)
  unfold Passed.argument
  cases hreg : ConventionalCaller.argRegister (adjIdx n (i + 1)) with
  | some r =>
    rw [hreg] at hplace
    obtain ⟨-, hle⟩ := argRegister_isSome.mp ⟨r, hreg⟩
    rw [argRegister_eq hpos] at hreg
    rw [if_pos hle]
    show (argRegs.map s.phys)[adjIdx n (i + 1) - 1]? = some v
    rw [List.getElem?_map, hreg, Option.map_some, hplace]
  | none =>
    rw [hreg] at hplace
    have hle : ¬ adjIdx n (i + 1) ≤ 6 := Nat.not_le.mpr (lt_of_argRegister_eq_none hpos hreg)
    rw [if_neg hle]
    show some (s.mem.load (s.phys RSP + _)) = some v
    have hdepth : adjIdx n (i + 1) - 7 ≤ d + pushedArgs n as.length ∧
        d + pushedArgs n as.length - (adjIdx n (i + 1) - 7) = d + (as.length - 1 - i) + 1 := by
      unfold adjIdx at hle ⊢
      unfold pushedArgs
      split_ifs at * <;> omega
    rw [htop, S.pointer_add hdepth.1, hdepth.2]
    exact congrArg some hplace

/-- A call under the convention. -/
theorem call_spec {target : String} {ret : Returned} (h : callee target s.passed = some ret) :
    ∃ s', step callee L (.CALL target) s = some s' ∧ s'.phys RAX = ret.regs (.x86 RAX) ∧
      s'.phys RDX = ret.regs (.x86 RDX) ∧ (∀ r, r ∉ callers → s'.phys r = s.phys r) ∧ s'.abs = s.abs ∧
      s'.mem = ret.mem := by
  have hstep : step callee L (.CALL target) s = (callee target s.passed).map fun ret =>
      { Register.callerSaved.foldl (fun s r => s.set r (ret.regs r)) s with mem := ret.mem, flags := ret.flags } := rfl
  rw [hstep, h]
  refine ⟨_, rfl, rfl, rfl, fun r hr => ?_, rfl, rfl⟩
  cases r <;> first | rfl | exact absurd (by decide) hr

/-- The code of a call, from its pieces. -/
theorem reaches_call {saved : Placeholders} {body front back rest : List Instruction} {target : String}
    {s₁ s₂ s₃ s₄ s₅ : State} (hpush : steps callee L saved.push s = some s₁) (hfront : Straight callee L front s₁ s₂)
    (hcall : step callee L (.CALL target) s₂ = some s₃) (hback : Straight callee L back s₃ s₄)
    (hpop : steps callee L saved.pop s₄ = some s₅) :
    CodeReaches callee L saved body
      ⟨builderComment :: .CALLERSAVEPUSH :: (front ++ .CALL target :: (back ++ .CALLERSAVEPOP :: rest)), s⟩
      ⟨rest, s₅⟩ := by
  have hplaceholder : ∀ {insn insns s s'}, insn = .CALLERSAVEPUSH ∨ insn = .CALLERSAVEPOP →
      steps callee L (saved.insns insn) s = some s' →
      stepCode callee L saved body ⟨insn :: insns, s⟩ = some ⟨insns, s'⟩ := by
    intro insn insns s s' hinsn hrun
    rw [stepCode_eq_steps (by rcases hinsn with rfl | rfl <;> simp) (by rcases hinsn with rfl | rfl <;> simp), hrun]
    rfl
  refine .head (b := ⟨.CALLERSAVEPUSH :: (front ++ .CALL target :: (back ++ .CALLERSAVEPOP :: rest)), s⟩) rfl ?_
  refine .head (hplaceholder (.inl rfl) hpush) (hfront.reaches.trans ?_)
  refine .head (b := ⟨back ++ .CALLERSAVEPOP :: rest, s₃⟩) ?_ (hback.reaches.trans ?_)
  · rw [stepCode_of_falls rfl, hcall]
    rfl
  · exact .single (hplaceholder (.inr rfl) hpop)

/-- The code of a call of a function that keeps the convention does what the call does. All machine registers come
back, and so do the words on the stack. -/
theorem callStmt_simulates {external : External} {reserve : ℕ} (himplements : Implements callee external S reserve)
    {target : String} {args : List LIRExpr} {t : Tile} {as rets : List Word} {m : Bytes} {st st' : Store Bytes}
    (h : LIRCallStmt.optimalTile target n args k = some (t, k')) (hatom : ∀ e ∈ args, e.IsAtom)
    (hexec : Exec (Bytes.storage L) (.callStmt target n args) st (.call target as rets m) st')
    (hexternal : external target as st.mem = some (rets, m)) (hagrees : AgreeOffStack S st s.store)
    (htop : s.phys RSP = S.pointer d) (hodd : Odd d) (hroom : callDepth d n args.length + reserve ≤ S.size)
    (body rest : List Instruction) :
    ∃ s', CodeReaches callee L TrivialRegisterAllocator.saved body ⟨t.instructions ++ rest, s⟩ ⟨rest, s'⟩ ∧
      AgreeOffStack S st' s'.store ∧ s'.phys = s.phys ∧ ∀ i < d, s'.mem.load (S.word i) = s.mem.load (S.word i) := by
  cases hexec with
  | call heval hn =>
  subst hn
  obtain ⟨⟨tiles, k₁⟩, htiles, h⟩ := Option.bind_eq_some_iff.mp h
  cases h
  have hargs : as.length = args.length := ((mapM_eq_some_iff.mp heval).length_eq).symm
  have hnine : callers.length = 9 := rfl
  unfold callDepth at hroom
  -- the registers are saved
  obtain ⟨s₁, hpush, hrsp₁, hphys₁, habs₁, hwords₁, hsame₁, hsaved₁⟩ :=
    @pushAll_words callee L S s d callers htop (by decide) (by omega)
  have htemps₁ : ∀ x, (∀ j, x ≠ freshName j) → s₁.abs x = st.temps x := by
    intro x hx
    rw [habs₁]
    exact hagrees.temps x hx
  have heval₁ := @evalList_atoms L args hatom st s₁.store htemps₁ as heval
  -- the arguments are placed
  obtain ⟨s₂, hfront, hrsp₂, hphys₂, hrdi₂, habs₂, hwords₂, hsame₂, hplaced⟩ :=
    @call_front callee L S k _ rets.length s₁ (d + callers.length) args tiles as htiles hatom heval₁ hrsp₁ (by omega)
  rw [hnine] at hrsp₁ hrsp₂ hrdi₂ hwords₂ hplaced
  have hpasses : Passes S rets.length as st.mem (callDepth d rets.length args.length) s₂.passed := by
    refine ⟨hrsp₂, ?_, hplaced.argument ?_, fun hn => ?_, ?_, (hagrees.mem.trans hsame₁).trans hsame₂⟩
    · -- the padding makes up for an odd number of words
      rw [Nat.odd_iff] at hodd
      rw [Nat.even_iff, callDepth, padding]
      split_ifs <;> omega
    · rw [hrsp₂, hargs]
    · rw [callDepth, hargs, Nat.add_sub_cancel, ← hrdi₂ hn]
      rfl
    · rw [hargs, callDepth]
      omega
  -- the call
  obtain ⟨ret, hret, hanswers⟩ := himplements target as st.mem rets m _ s₂.passed hexternal hpasses (by
    rw [callDepth]
    omega)
  rw [hargs] at hanswers
  obtain ⟨s₃, hcall, hrax, hrdx, hphys₃, habs₃, hmem₃⟩ := call_spec callee L hret
  have hrsp₃ : s₃.phys RSP = _ := (hphys₃ RSP (by decide)).trans hrsp₂
  -- the results are taken
  obtain ⟨s₄, hback, hrsp₄, hphys₄, habs₄, hmem₄⟩ := @call_back callee L S s₃ (d + 9) args.length rets hrsp₃
    (fun v hv => hrax.trans (hanswers.rax v hv)) (fun v hv => hrdx.trans (hanswers.rdx v hv)) fun j v hj => by
      rw [hmem₃, ← hanswers.area j v hj, callDepth, Nat.add_sub_cancel]
  have hkept : ∀ i < d + 9, s₄.mem.load (S.word i) = s₁.mem.load (S.word i) := by
    intro i hi
    rw [hmem₄, hmem₃, hanswers.kept i (by rw [callDepth]; omega)]
    exact hwords₂ i hi
  -- the registers come back
  obtain ⟨s₅, hpop, hrsp₅, hsaves₅, hphys₅, habs₅, hmem₅⟩ := @popAll_words callee L S s₄ d callers hrsp₄ (by decide)
    (by decide) s.phys fun p hp => by
      obtain ⟨i, hlo, hhi, hword⟩ := mem_stackWords hp
      rw [hword, hkept i (by omega), ← hword, hsaved₁ p hp]
  refine ⟨s₅, ?_, ⟨fun x hx => ?_, ?_⟩, ?_, fun i hi => ?_⟩
  · have hreaches := @reaches_call callee L s TrivialRegisterAllocator.saved body _ _ rest target s₁ s₂ s₃ s₄ s₅ hpush
      hfront hcall hback hpop
    simp only [List.append_assoc, List.cons_append, List.nil_append, callBack] at hreaches ⊢
    exact hreaches
  · show s₅.abs x = setReturns 1 rets st.temps x
    rw [habs₅, habs₄, habs₃]
    exact setReturns_congr ((habs₂ x hx).trans (htemps₁ x hx)) 1 rets
  · show Bytes.SameOutside S.words m s₅.mem
    rw [hmem₅, hmem₄, hmem₃]
    exact hanswers.mem
  · funext r
    by_cases hr : r = RSP
    · rw [hr, hrsp₅, htop]
    by_cases hcallers : r ∈ callers
    · exact hsaves₅ r hcallers
    · have hrdi : r ≠ RDI := fun h => hcallers (h ▸ by decide)
      have hreg : r ∉ argRegs := fun h => hcallers ((by decide : argRegs ⊆ callers) h)
      rw [hphys₅ r hr hcallers, hphys₄ r hr, hphys₃ r hcallers, hphys₂ r hr hrdi hreg, hphys₁ r hr]
  · rw [hmem₅, hkept i (by omega), hwords₁ i hi]

end Calls

/-! ## A callee -/

/-- A temp of a return value is no register that the tiles make up. -/
theorem retTemp_ne_fresh (i j : ℕ) : retTemp i ≠ freshName j := by
  intro h
  have h := congrArg String.toList h
  simp [retTemp, freshName] at h

/-- Functions that return their only argument. -/
def identity : External := fun _ as m => if as.length = 1 then some (as, m) else none

/-- Their code, as a caller sees it. -/
def identityCode : String → Passed → Option Returned := fun _ p => some ⟨p.mem, p.flags, fun _ => p.args.headD 0⟩

/-- The code of the identity keeps the convention. -/
theorem identityCode_implements (S : WordStack) (reserve : ℕ) : Implements identityCode identity S reserve := by
  intro target as m rets m' d p hidentity hpasses _
  obtain ⟨hlen, hsome⟩ := Option.ite_none_right_eq_some.mp hidentity
  cases hsome
  obtain ⟨a, rfl⟩ := List.length_eq_one_iff.mp hlen
  refine ⟨_, rfl, ⟨fun v hv => ?_, fun v hv => by simp at hv, fun j v hj => by simp at hj, fun _ _ => rfl, hpasses.mem⟩⟩
  have hfirst : p.args[0]? = some v := hpasses.argument 0 v hv
  show p.args.headD 0 = v
  rw [List.headD_eq_head?_getD, List.head?_eq_getElem?, hfirst]
  rfl

/-- Functions of seven arguments that return the last, the sixth and the first. -/
def lastFirst : External := fun _ as m =>
  match as with
  | [a, _, _, _, _, b, c] => some ([c, b, a], m)
  | _ => none

/-- Their code. `RDI` points to the room for the third result, so that the first argument comes in `RSI`, and
the last two are on the stack. -/
def lastFirstCode : String → Passed → Option Returned := fun _ p =>
  some ⟨p.mem.store (p.args.headD 0) (p.args.tail.headD 0), p.flags, fun r =>
    if r = .x86 RAX then p.mem.load (p.rsp + 8) else p.mem.load p.rsp⟩

/-- So does the code of `lastFirst`: it reads its stack argument and fills the area. -/
theorem lastFirstCode_implements (S : WordStack) (reserve : ℕ) : Implements lastFirstCode lastFirst S reserve := by
  intro target as m rets m' d p hlast hpasses hroom
  unfold lastFirst at hlast
  split at hlast
  case h_2 => cases hlast
  case h_1 a x₁ x₂ x₃ x₄ b c =>
    cases hlast
    have hdeep : 2 + 1 ≤ d := hpasses.room
    have hfirst : p.args[1]? = some a := hpasses.argument 0 a rfl
    have hsixth : some (p.mem.load (p.rsp + 8 * 0)) = some b := hpasses.argument 5 b rfl
    have hlast : some (p.mem.load (p.rsp + 8 * 1)) = some c := hpasses.argument 6 c rfl
    have harea : p.args[0]? = some (S.pointer (d - 2)) := hpasses.area (Nat.lt_succ_self 2)
    have hslot : S.pointer (d - 2) = S.word (d - 3) := by
      rw [WordStack.word]
      congr 1
      omega
    have hstored : p.args.headD 0 = S.word (d - 3) := by
      rw [List.headD_eq_head?_getD, List.head?_eq_getElem?, harea, hslot]
      rfl
    have hvalue : p.args.tail.headD 0 = a := by
      rw [List.headD_eq_head?_getD, List.head?_eq_getElem?, List.getElem?_tail, hfirst]
      rfl
    refine ⟨_, rfl, ⟨fun v hv => ?_, fun v hv => ?_, fun j v hj => ?_, fun i hi => ?_, ?_⟩⟩
    · cases hv
      exact Option.some.inj hlast
    · cases hv
      rw [← Option.some.inj hsixth]
      simp
    · -- there is only one result in the room
      cases j with
      | succ j => cases hj
      | zero =>
        cases hj
        show (p.mem.store _ _).load (S.word (d - 2 - 1 - 0)) = _
        rw [hstored, hvalue]
        exact Bytes.load_store_self p.mem (S.word (d - 3)) a
    · have hi' : i < d - 3 := hi
      show (p.mem.store _ _).load (S.word i) = _
      rw [hstored, WordStack.load_store_word (by omega) (by omega), if_neg (by omega)]
    · show Bytes.SameOutside S.words m (p.mem.store _ _)
      rw [hstored]
      exact WordStack.sameOutside_store_word hpasses.mem (by omega)

/-- `x` and six numbers. -/
def lastFirstArgs : List LIRExpr :=
  [.temp "x", .const 2, .const 3, .const 4, .const 5, .const 6, .const 7]

/-- Seven arguments are passed, two of them on the stack, and three results come back. -/
theorem callStmt_simulates_lastFirst : ∃ t k' s', LIRCallStmt.optimalTile "f" 3 lastFirstArgs 0 = some (t, k') ∧
    CodeReaches lastFirstCode (fun _ => 0) TrivialRegisterAllocator.saved []
      ⟨t.instructions ++ [], ⟨fun _ => 9, fun _ => 4088, ⟨false, false, false, false⟩, fun _ => 0⟩⟩ ⟨[], s'⟩ ∧
    s'.abs (retTemp 1) = 7 ∧ s'.abs (retTemp 2) = 6 ∧ s'.abs (retTemp 3) = 9 := by
  have htile : ∃ t k', LIRCallStmt.optimalTile "f" 3 lastFirstArgs 0 = some (t, k') := ⟨_, _, rfl⟩
  obtain ⟨t, k', htile⟩ := htile
  have hatom : ∀ e ∈ lastFirstArgs, e.IsAtom := by
    have hx (k : ℕ) : "x" ≠ freshName k := by
      intro h
      have hlist := congrArg String.toList h
      simp [freshName] at hlist
    simpa [lastFirstArgs, LIRExpr.IsAtom] using hx
  have heval : evalList (Bytes.storage fun _ => 0) ⟨fun _ => 9, fun _ => 0⟩ lastFirstArgs =
      some [9, 2, 3, 4, 5, 6, 7] := rfl
  obtain ⟨s', hreaches, hagrees, -⟩ := @callStmt_simulates lastFirstCode (fun _ => 0) ⟨4096, 64, by decide⟩ 1 0 k' 3
    ⟨fun _ => 9, fun _ => 4088, ⟨false, false, false, false⟩, fun _ => 0⟩ lastFirst 0 (lastFirstCode_implements _ 0)
    "f" lastFirstArgs t [9, 2, 3, 4, 5, 6, 7] [7, 6, 9] (fun _ => 0) ⟨fun _ => 9, fun _ => 0⟩ _ htile hatom
    (.call heval rfl) rfl ⟨fun _ _ => rfl, .refl _ _⟩ (by decide) (by decide) (by decide) [] []
  have htemps (i : ℕ) : s'.abs (retTemp i) = setReturns 1 [7, 6, 9] (fun _ => 9) (retTemp i) :=
    hagrees.temps _ (retTemp_ne_fresh i)
  refine ⟨t, k', s', htile, hreaches, ?_, ?_, ?_⟩
  · rw [htemps]
    rfl
  · rw [htemps]
    rfl
  · rw [htemps]
    rfl

end Jaek
