import Jaek.Assembly.Calls
import Jaek.Assembly.Ralloc.TiledBodies

/-!
# The callee's side of a call

What a compiled function does to keep the convention its callers rely on. The fetches in front of its body find the
arguments a caller passes (`populateArguments_fetches`), and the tile of a return leaves the results where the caller
takes them from (`return_answers`).
-/

namespace Jaek

open x86Name TrivialRegisterAllocator

variable (callee : String → Passed → Option Returned) {L : String → Word} {S : WordStack} {d k k' : ℕ} {s : State}

/-! ## Arguments -/

/-- The temp of argument `i`, counted from 1. -/
def argTemp (i : ℕ) : String := "_ARG" ++ toString i

/-- The temps with the arguments in the argument temps from number `i` on. -/
def setArgs (i : ℕ) : List Word → (String → Word) → String → Word
  | [], temps => temps
  | v :: vs, temps => setArgs (i + 1) vs (Function.update temps (argTemp i) v)

/-- What `getArg` reads behind the return address and the old base pointer is the argument passed. -/
theorem source_getArg {n : ℕ} {as : List Word} {m : Bytes} {p : Passed} (hpasses : Passes S n as m d p)
    (hbase : s.phys RBP = S.pointer (d + 2)) (hregs : argRegs.map s.phys = p.args)
    (hwords : ∀ i < d, s.mem.load (S.word i) = p.mem.load (S.word i)) {i : ℕ} {v : Word} (hv : as[i]? = some v) :
    s.source L (ConventionalCaller.getArg n (i + 1)) = v := by
  obtain ⟨hi, -⟩ := List.getElem?_eq_some_iff.mp hv
  have hargument := hpasses.argument i v hv
  have hpos : 1 ≤ adjIdx n (i + 1) := adjIdx_pos n (Nat.succ_pos i)
  unfold Passed.argument at hargument
  -- the first six are in registers, the seventh is the first word above the return address
  cases hreg : ConventionalCaller.argRegister (adjIdx n (i + 1)) with
  | some r =>
    have hget : ConventionalCaller.getArg n (i + 1) = .registerSrc (.x86 r) := by
      unfold adjIdx at hreg
      rw [ConventionalCaller.getArg, hreg]
    obtain ⟨-, hle⟩ := argRegister_isSome.mp ⟨r, hreg⟩
    rw [argRegister_eq hpos] at hreg
    rw [if_pos hle, ← hregs, List.getElem?_map, hreg] at hargument
    rw [hget]
    exact Option.some.inj hargument
  | none =>
    have hget : ConventionalCaller.getArg n (i + 1) = .memorySrc (.registerMem (some (.x86 RBP)) none
        (16 + (BitVec.ofNat 64 (adjIdx n (i + 1)) - 7) * 8) .ONE) := by
      unfold adjIdx at hreg ⊢
      rw [ConventionalCaller.getArg, hreg]
    have hle : ¬ adjIdx n (i + 1) ≤ 6 := Nat.not_le.mpr (lt_of_argRegister_eq_none hpos hreg)
    rw [if_neg hle, hpasses.top] at hargument
    -- the offset of the source counts up from RBP, the words of the stack count up from its bottom
    obtain ⟨j, hj⟩ : ∃ j, adjIdx n (i + 1) = j + 7 := ⟨adjIdx n (i + 1) - 7, by omega⟩
    have hjd : j < d := by
      have hroom := hpasses.room
      unfold adjIdx at hj
      unfold pushedArgs at hroom
      split_ifs at * <;> omega
    rw [hj, Nat.add_sub_cancel, S.pointer_add hjd.le] at hargument
    have haddress : S.pointer (d + 2) + 0 * 1 + (16 + (BitVec.ofNat 64 (j + 7) - 7) * 8) = S.word (d - j - 1) := by
      have hseven : BitVec.ofNat 64 (j + 7) = BitVec.ofNat 64 j + 7 := BitVec.ofNat_add j 7
      have hword : S.word (d - j - 1) = S.pointer (d + 2 - (j + 2)) := by
        rw [WordStack.word]
        congr 1
        omega
      have htwo : BitVec.ofNat 64 (j + 2) = BitVec.ofNat 64 j + 2 := BitVec.ofNat_add j 2
      rw [hword, ← S.pointer_add (by omega), hseven, htwo]
      ring
    have hload : S.pointer (d - j) = S.word (d - j - 1) := by
      rw [WordStack.word]
      congr 1
      omega
    rw [hget]
    show s.mem.load (s.phys RBP + 0 * 1 + _) = v
    rw [hbase, hj, haddress, hwords _ (by omega), ← hload]
    exact Option.some.inj hargument

/-- Fetches from what does not change, one behind the other. -/
theorem fetches_straight {n i : ℕ} {vs : List Word} (h : ∀ s' : State, s'.phys = s.phys → s'.mem = s.mem →
      ∀ j v, vs[j]? = some v → s'.source L (ConventionalCaller.getArg n (i + j)) = v) :
    ∃ s', Straight callee L ((List.range' i vs.length).map fun i =>
        .MOV (.registerDest (.abstract (argTemp i))) (ConventionalCaller.getArg n i)) s s' ∧
      s'.abs = setArgs i vs s.abs ∧ s'.phys = s.phys ∧ s'.mem = s.mem := by
  induction vs generalizing i s with
  | nil => exact ⟨s, .nil, rfl, rfl, rfl⟩
  | cons v vs ih =>
    have hv : s.source L (ConventionalCaller.getArg n i) = v := h s rfl rfl 0 v rfl
    obtain ⟨s', hcode, habs, hphys, hmem⟩ := @ih (s.set (.abstract (argTemp i)) v) (i + 1)
      fun s' hphys hmem j w hw => by
        rw [Nat.add_right_comm]
        exact h s' hphys hmem (j + 1) w hw
    refine ⟨s', ?_, habs, hphys, hmem⟩
    rw [List.length_cons, List.range'_succ, List.map_cons]
    refine .cons rfl ?_ hcode
    rw [← hv]
    rfl

/-- The fetches in front of a body put the arguments that are passed into the argument temps, where the return
address and the old base pointer are on the stack. -/
theorem populateArguments_fetches {n : ℕ} {as : List Word} {m : Bytes} {p : Passed} (hpasses : Passes S n as m d p)
    (hbase : s.phys RBP = S.pointer (d + 2)) (hregs : argRegs.map s.phys = p.args)
    (hwords : ∀ i < d, s.mem.load (S.word i) = p.mem.load (S.word i)) (body rest : List Instruction) :
    ∃ s', CodeReaches callee L saved body ⟨populateArguments as.length n ++ rest, s⟩ ⟨rest, s'⟩ ∧
      s'.abs = setArgs 1 as s.abs ∧ s'.phys = s.phys ∧ s'.mem = s.mem := by
  obtain ⟨s', hcode, hs'⟩ := @fetches_straight callee L s n 1 as
    fun s' hphys hmem j v hv => by
      rw [Nat.add_comm]
      exact source_getArg hpasses (by rw [hphys, hbase]) (by rw [hphys, hregs])
        (fun i hi => by rw [hmem, hwords i hi]) hv
  have hpopulate : populateArguments as.length n = (List.range' 1 as.length).map fun i =>
      .MOV (.registerDest (.abstract (argTemp i))) (ConventionalCaller.getArg n i) := by
    rw [List.range'_eq_map_range, List.map_map]
    exact List.map_congr_left fun i _ => by rw [Function.comp_apply, Nat.add_comm 1 i]; rfl
  rw [hpopulate]
  exact ⟨s', hcode.reaches, hs'⟩

/-- What a caller of a function with three results passes as the numbers from one to seven, with four words on
its stack: padding, the room for the third result, and the last two arguments. -/
def sevenPassed : Passed where
  mem := (Bytes.store (fun _ => 0) 4072 7).store 4064 6
  flags := ⟨false, false, false, false⟩
  rsp := 4064
  args := [4080, 1, 2, 3, 4, 5]

theorem sevenPassed_passes :
    Passes ⟨4096, 64, by decide⟩ 3 [1, 2, 3, 4, 5, 6, 7] (fun _ => 0) 4 sevenPassed := by
  have hlast : sevenPassed.mem.load 4072 = 7 :=
    (Bytes.load_store_apart _ 6 (by decide)).trans (Bytes.load_store_self _ 4072 7)
  have hsixth : sevenPassed.mem.load 4064 = 6 := Bytes.load_store_self _ _ _
  refine ⟨rfl, by decide, fun i v hv => ?_, fun _ => rfl, by decide, ?_⟩
  · obtain ⟨hi, rfl⟩ := List.getElem?_eq_some_iff.mp hv
    simp only [List.length_cons, List.length_nil] at hi
    interval_cases i
    all_goals first | exact congrArg some hsixth | exact congrArg some hlast | rfl
  · have hslot : (4072 : Word) ∈ (⟨4096, 64, by decide⟩ : WordStack).words := by decide
    have hslot' : (4064 : Word) ∈ (⟨4096, 64, by decide⟩ : WordStack).words := by decide
    exact ((Bytes.SameOutside.refl _ _).store_hidden hslot 7).store_hidden hslot' 6

/-- Five of seven arguments are fetched from registers and two from the stack. -/
theorem populateArguments_fetches_seven : ∃ s', CodeReaches identityCode (fun _ => 0) saved []
      ⟨populateArguments 7 3 ++ [], ⟨fun _ => 0, fun r => if r = RDI then 4080 else if r = RSI then 1
        else if r = RDX then 2 else if r = RCX then 3 else if r = R8 then 4 else if r = R9 then 5 else 4048,
        ⟨false, false, false, false⟩, sevenPassed.mem⟩⟩ ⟨[], s'⟩ ∧
      s'.abs (argTemp 1) = 1 ∧ s'.abs (argTemp 5) = 5 ∧ s'.abs (argTemp 6) = 6 ∧ s'.abs (argTemp 7) = 7 := by
  obtain ⟨s', hreaches, habs, -⟩ := @populateArguments_fetches identityCode (fun _ => 0) ⟨4096, 64, by decide⟩ 4
    ⟨fun _ => 0, fun r => if r = RDI then 4080 else if r = RSI then 1
      else if r = RDX then 2 else if r = RCX then 3 else if r = R8 then 4 else if r = R9 then 5 else 4048,
      ⟨false, false, false, false⟩, sevenPassed.mem⟩ 3 [1, 2, 3, 4, 5, 6, 7] _ _ sevenPassed_passes
    (by decide) (by decide) (fun _ _ => rfl) [] []
  refine ⟨s', hreaches, ?_, ?_, ?_, ?_⟩
  · rw [habs]
    rfl
  · rw [habs]
    rfl
  · rw [habs]
    rfl
  · rw [habs]
    rfl

/-! ## Results -/

/-- What is executed hands over to the instruction behind it. -/
theorem falls_of_exec {insn : Instruction} {s' : State} (h : exec L insn s = some s') : insn.falls := by
  cases insn with
  | jump | RET | CALLERSAVEPUSH | CALLERSAVEPOP => cases h
  | _ => rfl

theorem step_of_exec {insn : Instruction} {s' : State} (hwide : ¬ insn.isByte) (h : exec L insn s = some s') :
    step callee L insn s = some s' := by
  have hstep : step callee L insn s = if insn.isByte then execByte L insn s else exec L insn s := by
    cases insn with
    | jump | CALL | RET | CALLERSAVEPUSH | CALLERSAVEPOP => cases h
    | _ => rfl
  rw [hstep, if_neg hwide, h]

/-- Where a run of instructions goes on, with `rest` behind them. -/
def continues (body rest : List Instruction) : Outcome → Option CodeState
  | .next s => some ⟨rest, s⟩
  | .jump l s => (findInsn l body).map fun code => ⟨code, s⟩

/-- A run of ordinary instructions, up to its end or a taken jump. -/
theorem reaches_of_run {insns body rest : List Instruction} {out : Outcome} {c : CodeState}
    (hord : AllOrdinary insns) (hrun : run L insns s = some out) (hc : continues body rest out = some c) :
    CodeReaches callee L saved body ⟨insns ++ rest, s⟩ c := by
  induction insns generalizing s with
  | nil =>
    cases hrun
    cases hc
    exact .refl
  | cons insn insns ih =>
    obtain ⟨hinsn, hinsns⟩ := allOrdinary_cons.mp hord
    by_cases hjump : ∃ op loc, insn = .jump op loc
    · obtain ⟨op, loc, rfl⟩ := hjump
      rw [run] at hrun
      by_cases htaken : op.taken s.flags
      · rw [if_pos htaken] at hrun
        cases hrun
        refine .single ?_
        rw [List.cons_append, stepCode_jump, if_pos htaken]
        exact hc
      · rw [if_neg htaken] at hrun
        refine .head ?_ (ih hinsns hrun)
        rw [List.cons_append, stepCode_jump, if_neg htaken]
    · rw [run] at hrun
      · obtain ⟨s₁, hexec, hrun⟩ := Option.bind_eq_some_iff.mp hrun
        refine .head ?_ (ih hinsns hrun)
        rw [List.cons_append, stepCode_of_falls (falls_of_exec hexec), step_of_exec callee hinsn.wide hexec]
        rfl
      · exact fun op loc h => hjump ⟨op, loc, h⟩

/-- Values in the output registers of their tiles. -/
def InRegisters (s : State) : List Tile.Expr → List Word → Prop :=
  List.Forall₂ fun t v => ∃ x, t.outputRegister = .abstract x ∧ s.abs x = v

/-- The tiles of a list of expressions, one behind the other, leave each value in its register. -/
theorem optimalTiles_run {es : List LIRExpr} (ht : ∀ e ∈ es, e.Tileable) {tiles : List Tile.Expr}
    (h : optimalTiles es k = some (tiles, k')) (s : State) (hf : ∀ e ∈ es, e.NoFault (Bytes.storage L) s.store) :
    ∃ vs s', evalList (Bytes.storage L) s.store es = some vs ∧ k ≤ k' ∧
      run L (tiles.flatMap (·.instructions)) s = some (.next s') ∧ Lands k k' s s.store s' ∧
      InRegisters s' tiles vs := by
  induction es generalizing k tiles s with
  | nil =>
    cases h
    exact ⟨[], s, rfl, le_rfl, rfl, .refl _ s, .nil⟩
  | cons e es ih =>
    obtain ⟨⟨t, k₁⟩, htile, h⟩ := Option.bind_eq_some_iff.mp h
    obtain ⟨⟨tiles, k₂⟩, htiles, h⟩ := Option.bind_eq_some_iff.mp h
    cases h
    rw [List.forall_mem_cons] at ht hf
    obtain ⟨t', k₃, x, htile', hk, hcorrect⟩ := LIRExpr.optimalTile_correct L e ht.1 k
    cases htile'.symm.trans htile
    obtain ⟨v, s₁, hv, hrun, hvalue, hlands₁⟩ := hcorrect.run s hf.1
    obtain ⟨vs, s', heval, hk', hrun', hlands, hheld⟩ := ih ht.2 htiles s₁
      fun e he => LIRExpr.noFault_lands (ht.2 e he) hlands₁ (hf.2 e he)
    have hkeep : evalList (Bytes.storage L) s.store es = some vs := by
      have hevals := mapM_eq_some_iff.mp heval
      refine mapM_eq_some_iff.mpr (List.forall₂_iff_get.mpr ⟨hevals.length_eq, fun i hi hi' => ?_⟩)
      have he := (List.forall₂_iff_get.mp hevals).2 i hi hi'
      rwa [LIRExpr.eval_lands (ht.2 _ (List.get_mem es ⟨i, hi⟩)) hlands₁] at he
    refine ⟨v :: vs, s', mapM_cons_eq_some.mpr ⟨v, vs, hv, hkeep, rfl⟩, hk.trans hk', ?_, hlands₁.trans hk hk' hlands,
      .cons ⟨x, hcorrect.register, ?_⟩ hheld⟩
    · rw [List.flatMap_cons, run_append hrun, hrun']
    · rw [hcorrect.output.abs_eq hlands, hvalue]

/-- The first two results go to `RAX` and `RDX`. -/
theorem registers_straight {tiles : List Tile.Expr} {vs : List Word} (h : InRegisters s tiles vs) :
    ∃ s', Straight callee L ((tiles.take 2).zip [RAX, RDX] |>.map fun p =>
        Instruction.MOV (.registerDest (.x86 p.2)) (.registerSrc p.1.outputRegister)) s s' ∧
      (∀ v, vs[0]? = some v → s'.phys RAX = v) ∧ (∀ v, vs[1]? = some v → s'.phys RDX = v) ∧
      (∀ r, r ≠ RAX → r ≠ RDX → s'.phys r = s.phys r) ∧ s'.abs = s.abs ∧ s'.mem = s.mem := by
  have hmove : ∀ {t : Tile.Expr} {v : Word} (s : State) (reg : x86Name),
      (∃ x, t.outputRegister = .abstract x ∧ s.abs x = v) →
      step callee L (.MOV (.registerDest (.x86 reg)) (.registerSrc t.outputRegister)) s =
        some (s.set (.x86 reg) v) := by
    rintro t v s reg ⟨x, hx, rfl⟩
    rw [hx]
    rfl
  cases h with
  | nil => exact ⟨s, .nil, fun v hv => (by cases hv), fun v hv => (by cases hv), fun _ _ _ => rfl, rfl, rfl⟩
  | @cons t v tiles vs hv h =>
    cases h with
    | nil =>
      refine ⟨_, .single rfl (hmove s RAX hv), fun w hw => ?_, fun w hw => (by cases hw), fun r hr _ => ?_, rfl, rfl⟩
      · cases hw
        exact (set_x86_spec RAX v).1
      · exact (set_x86_spec RAX v).2 r hr
    | @cons t' v' tiles vs hv' h =>
      refine ⟨_, .cons rfl (hmove s RAX hv) (.single rfl (hmove (s.set (.x86 RAX) v) RDX hv')), fun w hw => ?_,
        fun w hw => ?_, fun r hr hr' => ?_, rfl, rfl⟩
      · cases hw
        rw [(set_x86_spec RDX v').2 RAX (by decide)]
        exact (set_x86_spec RAX v).1
      · cases hw
        exact (set_x86_spec RDX v').1
      · rw [(set_x86_spec RDX v').2 r hr', (set_x86_spec RAX v).2 r hr]

/-- The word result `p.2`, counted from 0, is stored to, and the result. -/
def stored (s : State) (p : Tile.Expr × ℕ) : Word × Word :=
  (s.phys RDI + 8 * (BitVec.ofNat 64 p.2 - 2), s.value p.1.outputRegister)

/-- The others are stored from where `RDI` points to. -/
theorem stores_straight {ps : List (Tile.Expr × ℕ)} (h : ∀ p ∈ ps, ∃ x, p.1.outputRegister = .abstract x) :
    ∃ s', Straight callee L (ps.map fun p =>
        Instruction.MOV (.memoryDest (.registerMem (some (.x86 RDI)) none (8 * (BitVec.ofNat 64 p.2 - 2)) .ONE))
          (.registerSrc p.1.outputRegister)) s s' ∧
      s'.phys = s.phys ∧ s'.abs = s.abs ∧
      s'.mem = (ps.map (stored s)).foldl (fun m p => m.store p.1 p.2) s.mem := by
  induction ps generalizing s with
  | nil => exact ⟨s, .nil, rfl, rfl, rfl⟩
  | cons p ps ih =>
    rw [List.forall_mem_cons] at h
    obtain ⟨⟨x, hx⟩, h⟩ := h
    obtain ⟨s', hcode, hphys, habs, hmem⟩ := @ih ⟨s.abs, s.phys, s.flags,
      s.mem.store (s.phys RDI + 8 * (BitVec.ofNat 64 p.2 - 2)) (s.value p.1.outputRegister)⟩ h
    refine ⟨s', .cons rfl ?_ hcode, hphys, habs, ?_⟩
    · have haddress : s.phys RDI + 0 * 1 + 8 * (BitVec.ofNat 64 p.2 - 2) =
          s.phys RDI + 8 * (BitVec.ofNat 64 p.2 - 2) := by ring
      show step callee L (.MOV _ (.registerSrc p.1.outputRegister)) s = _
      rw [hx, ← haddress]
      rfl
    · rw [hmem, List.map_cons, List.foldl_cons]
      congr 1

/-- The tile of a return leaves its values where the caller of the function takes the results from, and the words of
the caller as they are. -/
theorem return_answers {valList : List LIRExpr} {t : Tile} {vs : List Word} {m : Bytes} {nargs : ℕ}
    (h : LIRReturn.optimalTile valList k = some (t, k')) (ht : ∀ e ∈ valList, e.Tileable)
    (hf : ∀ e ∈ valList, e.NoFault (Bytes.storage L) s.store)
    (heval : evalList (Bytes.storage L) s.store valList = some vs)
    (harea : 2 < vs.length → s.phys RDI = S.pointer (d - pushedArgs vs.length nargs))
    (hroom : pushedArgs vs.length nargs + pushedReturns vs.length ≤ d) (hsize : d ≤ S.size)
    (hmem : Bytes.SameOutside S.words m s.mem) (body rest : List Instruction) :
    ∃ s', CodeReaches callee L saved body ⟨t.instructions ++ rest, s⟩ ⟨.LEAVE :: .RET :: rest, s'⟩ ∧
      Answers S nargs vs m d s.mem (s'.phys RAX) (s'.phys RDX) s'.mem ∧
      ∀ r, r ≠ RAX → r ≠ RDX → s'.phys r = s.phys r := by
  obtain ⟨⟨tiles, k₁⟩, htiles, h⟩ := Option.bind_eq_some_iff.mp h
  cases h
  obtain ⟨vs', s₁, heval', -, hrun, hlands, hheld⟩ := optimalTiles_run ht htiles s hf
  cases heval.symm.trans heval'
  have hlen : tiles.length = vs.length := hheld.length_eq
  obtain ⟨s₂, hregisters, hrax, hrdx, hphys₂, habs₂, hmem₂⟩ := @registers_straight callee L s₁ tiles vs hheld
  have hrdi : 2 < vs.length → s₂.phys RDI = S.pointer (d - pushedArgs vs.length nargs) := by
    intro hlarge
    rw [hphys₂ RDI (by decide) (by decide), hlands.phys RDI (by decide) (by decide), harea hlarge]
  -- a value that is stored, and the word it is stored to
  have hword : ∀ p ∈ tiles.zipIdx.drop 2, ∃ j v, p.2 = j + 2 ∧ vs[j + 2]? = some v ∧
      (∃ x, p.1.outputRegister = .abstract x) ∧
      stored s₂ p = (S.word (d - pushedArgs vs.length nargs - 1 - j), v) := by
    intro p hp
    obtain ⟨j, hj⟩ := List.getElem?_of_mem hp
    rw [List.getElem?_drop, List.getElem?_zipIdx, Option.map_eq_some_iff] at hj
    obtain ⟨t, htile, rfl⟩ := hj
    obtain ⟨hlt, hget⟩ := List.getElem?_eq_some_iff.mp htile
    have hlt' : 2 + j < vs.length := hlen ▸ hlt
    obtain ⟨x, hx, hv⟩ := (List.forall₂_iff_get.mp hheld).2 (2 + j) hlt hlt'
    have hx : t.outputRegister = .abstract x := hget ▸ hx
    have hvalue : s₂.value t.outputRegister = vs[2 + j] := by
      rw [hx]
      exact (congrFun habs₂ x).trans hv
    have haddress : s₂.phys RDI + 8 * (BitVec.ofNat 64 (2 + j) - 2) =
        S.word (d - pushedArgs vs.length nargs - 1 - j) := by
      have htwo : BitVec.ofNat 64 (2 + j) = BitVec.ofNat 64 j + 2 := by
        rw [Nat.add_comm]
        exact BitVec.ofNat_add j 2
      unfold pushedReturns at hroom
      rw [htwo, BitVec.add_sub_cancel, hrdi (by omega), S.pointer_add (by omega), WordStack.word]
      congr 1
      omega
    rw [Nat.zero_add]
    refine ⟨j, vs[2 + j], Nat.add_comm 2 j, ?_, ⟨x, hx⟩, ?_⟩
    · rw [Nat.add_comm j 2]
      exact List.getElem?_eq_getElem hlt'
    · rw [stored, hvalue, haddress]
  obtain ⟨s₃, hstores, hphys₃, habs₃, hmem₃⟩ := @stores_straight callee L s₂ (tiles.zipIdx.drop 2).reverse
    fun p hp => by
      obtain ⟨j, v, -, -, hx, -⟩ := hword p (List.mem_reverse.mp hp)
      exact hx
  have hsmem : s₂.mem = s.mem := hmem₂.trans hlands.mem
  rw [hsmem] at hmem₃
  have hdistinct : (tiles.zipIdx.drop 2).Pairwise fun p q => p.2 < q.2 := by
    have hindices : (tiles.zipIdx.map Prod.snd).Pairwise (· < ·) := by
      rw [List.zipIdx_map_snd]
      exact List.pairwise_lt_range'
    exact (List.pairwise_map.mp hindices).drop
  -- no two results are stored to one word, so the order of the stores does not matter
  have hapart : ((tiles.zipIdx.drop 2).reverse.map (stored s₂)).Pairwise fun p q => Bytes.Apart p.1 q.1 := by
    refine List.pairwise_map.mpr (List.pairwise_reverse.mpr (hdistinct.imp_of_mem fun {p q} hp hq hlt => ?_))
    obtain ⟨i, v, hi, hv, -, hwordi⟩ := hword p hp
    obtain ⟨j, w, hj, hw, -, hwordj⟩ := hword q hq
    have hlti := (List.getElem?_eq_some_iff.mp hv).1
    have hltj := (List.getElem?_eq_some_iff.mp hw).1
    unfold pushedReturns at hroom
    rw [hwordi, hwordj]
    exact WordStack.word_apart (by omega) (by omega) (by omega)
  have hfront : AllOrdinary (builderComment :: tiles.flatMap (·.instructions)) := by
    refine allOrdinary_builder.mpr fun insn hinsn => ?_
    obtain ⟨t, ht, hinsn⟩ := List.mem_flatMap.mp hinsn
    exact (optimalTiles_ordinary htiles t ht).1 insn hinsn
  refine ⟨s₃, ?_, ⟨fun v hv => ?_, fun v hv => ?_, fun j v hv => ?_, fun i hi => ?_, ?_⟩, fun r hr hr' => ?_⟩
  · have hreaches := (@reaches_of_run callee L s _ body (_ ++ (_ ++ .LEAVE :: .RET :: rest)) _ ⟨_, s₁⟩ hfront
      ((run_builderComment _ s).trans hrun) rfl).trans
        ((@Straight.reaches callee L _ body _ s₁ s₂ saved hregisters).trans
          (@Straight.reaches callee L _ body _ s₂ s₃ saved hstores))
    simp only [List.append_assoc, List.cons_append, List.nil_append] at hreaches ⊢
    exact hreaches
  · rw [hphys₃, hrax v hv]
  · rw [hphys₃, hrdx v hv]
  · have hlt := (List.getElem?_eq_some_iff.mp hv).1
    obtain ⟨t, htile⟩ : ∃ t, tiles[2 + j]? = some t := ⟨_, List.getElem?_eq_getElem (by omega)⟩
    have hp : (t, 2 + j) ∈ tiles.zipIdx.drop 2 := by
      refine List.mem_of_getElem? (i := j) ?_
      rw [List.getElem?_drop, List.getElem?_zipIdx, htile, Option.map_some, Nat.zero_add]
    obtain ⟨i, w, hi, hw, -, hwordi⟩ := hword _ hp
    have hij : i = j := by
      have hi : 2 + j = i + 2 := hi
      omega
    rw [hij] at hw hwordi
    cases hv.symm.trans hw
    have hfound := Bytes.load_foldl_store_of_mem (m := s.mem) hapart
      (List.mem_map_of_mem (f := stored s₂) (List.mem_reverse.mpr hp))
    rw [hwordi, ← hmem₃] at hfound
    exact hfound
  · rw [hmem₃]
    refine Bytes.load_foldl_store fun q hq => ?_
    obtain ⟨p, hp, rfl⟩ := List.mem_map.mp hq
    obtain ⟨j, v, -, hv, -, hwordj⟩ := hword p (List.mem_reverse.mp hp)
    have hlt := (List.getElem?_eq_some_iff.mp hv).1
    unfold pushedReturns at hroom hi
    rw [hwordj]
    exact WordStack.word_apart (by omega) (by omega) (by omega)
  · rw [hmem₃]
    refine hmem.trans (Bytes.SameOutside.of_foldl_store fun q hq => ?_)
    obtain ⟨p, hp, rfl⟩ := List.mem_map.mp hq
    obtain ⟨j, v, -, hv, -, hwordj⟩ := hword p (List.mem_reverse.mp hp)
    have hlt := (List.getElem?_eq_some_iff.mp hv).1
    unfold pushedReturns at hroom
    rw [hwordj]
    exact WordStack.word_mem (by omega)
  · rw [hphys₃, hphys₂ r hr hr', hlands.phys r hr hr']

theorem return_answers_three : ∃ t k' s', LIRReturn.optimalTile [.const 1, .const 2, .const 3] 0 = some (t, k') ∧
    CodeReaches identityCode (fun _ => 0) saved []
      ⟨t.instructions ++ [], ⟨fun _ => 0, fun _ => 4088, ⟨false, false, false, false⟩, fun _ => 0⟩⟩
      ⟨[.LEAVE, .RET], s'⟩ ∧ s'.phys RAX = 1 ∧ s'.phys RDX = 2 ∧ s'.mem.load 4088 = 3 := by
  obtain ⟨s', hreaches, hanswers, -⟩ := @return_answers identityCode (fun _ => 0) ⟨4096, 64, by decide⟩ 1 0 _
    ⟨fun _ => 0, fun _ => 4088, ⟨false, false, false, false⟩, fun _ => 0⟩ [.const 1, .const 2, .const 3] _ [1, 2, 3]
    (fun _ => 0) 0 rfl (by simp [LIRExpr.Tileable]) (by simp [LIRExpr.NoFault]) rfl (fun _ => by decide) (by decide)
    (by decide) (.refl _ _) [] []
  exact ⟨_, _, s', rfl, hreaches, hanswers.rax 1 rfl, hanswers.rdx 2 rfl, hanswers.area 0 3 rfl⟩

end Jaek
