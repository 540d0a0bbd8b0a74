import Jaek.Assembly.Returns

/-!
# The code of a body

The tiles of a body, one behind the other, do what the body does: statement by statement, with jumps to the labels of
the tiles, calls under the convention, and at last a return that leaves the results to the caller (`body_answers`).
The memory of the lowered representation keeps off the stack (`heap`), which the code has for itself.
-/

namespace Jaek

open x86Name TrivialRegisterAllocator

/-! ## Labels -/

/-- No instruction is a label. -/
def Unlabelled (insns : List Instruction) : Prop := ∀ insn ∈ insns, ∀ l top, insn ≠ .label l top

section Labels

variable {insn : Instruction} {insns insns' : List Instruction} {k k' : ℕ}

/-- No instructions, no label. -/
theorem unlabelled_nil : Unlabelled [] := List.forall_mem_nil _

/-- One instruction and the rest. -/
theorem unlabelled_cons : Unlabelled (insn :: insns) ↔ (∀ l top, insn ≠ .label l top) ∧ Unlabelled insns :=
  List.forall_mem_cons

/-- Instructions in a row. -/
theorem unlabelled_append : Unlabelled (insns ++ insns') ↔ Unlabelled insns ∧ Unlabelled insns' :=
  List.forall_mem_append

/-- The comment of a tile is no label. -/
theorem unlabelled_builder : Unlabelled (builderComment :: insns) ↔ Unlabelled insns := by
  rw [unlabelled_cons, and_iff_right]
  exact fun _ _ h => by cases h

/-- The instructions of an operator have no label. -/
theorem operation_unlabelled (o : OpType) (left right : Register) (j : ℕ) :
    Unlabelled (LIROp.operation o left right j).2 := by
  cases o <;> simp [Unlabelled, LIROp.operation, LIROp.copyAnd, LIROp.compare, LIROp.divide]

/-- Neither has the tile of an expression, by induction over the expression. -/
theorem LIRExpr.optimalTile_unlabelled (e : LIRExpr) {t : Tile.Expr} (h : e.optimalTile k = some (t, k')) :
    Unlabelled t.instructions := by
  induction e generalizing k k' t with
  | const value =>
    cases h
    simp [Unlabelled]
  | temp x =>
    cases h
    exact unlabelled_nil
  | name l => cases h
  | mem address ih =>
    have hsmart : ∀ {j : ℕ} {t : Tile.Expr}, LIRMem.arrAccessTile address j = some t →
        Unlabelled t.instructions := by
      intro j t ht
      obtain ⟨m, -, rfl⟩ := Option.map_eq_some_iff.mp ht
      simp [Unlabelled, builderComment]
    by_cases hname : ∃ l, address = .name l
    · obtain ⟨l, rfl⟩ := hname
      cases h
      refine attempt_of (P := fun t : Tile.Expr => Unlabelled t.instructions) (fun t => t.cost) ?_ _ fun t => hsmart
      simp [Unlabelled, LIRMem.labelTile, builderComment]
    · rw [LIRExpr.optimalTile] at h
      · obtain ⟨⟨addressTile, k₁⟩, haddress, h⟩ := Option.bind_eq_some_iff.mp h
        cases h
        refine attempt_of (P := fun t : Tile.Expr => Unlabelled t.instructions) (fun t => t.cost) ?_ _ fun t => hsmart
        simp only [LIRMem.defaultTile, List.cons_append, unlabelled_builder, unlabelled_append]
        exact ⟨ih haddress, by simp [Unlabelled]⟩
      · exact fun l hl => hname ⟨l, hl⟩
  | op o left right ihl ihr =>
    obtain ⟨⟨leftTile, k₁⟩, hleft, h⟩ := Option.bind_eq_some_iff.mp h
    obtain ⟨⟨rightTile, k₂⟩, hright, h⟩ := Option.bind_eq_some_iff.mp h
    cases h
    simp only [LIROp.defaultTile, List.cons_append, unlabelled_builder, unlabelled_append]
    exact ⟨⟨ihl hleft, ihr hright⟩, operation_unlabelled o _ _ _⟩

/-- Nor have the tiles of a list of expressions. -/
theorem optimalTiles_unlabelled {es : List LIRExpr} {tiles : List Tile.Expr}
    (h : optimalTiles es k = some (tiles, k')) : ∀ t ∈ tiles, Unlabelled t.instructions := by
  induction es generalizing k tiles with
  | nil =>
    cases h
    exact List.forall_mem_nil _
  | cons e es ih =>
    obtain ⟨⟨t, k₁⟩, htile, h⟩ := Option.bind_eq_some_iff.mp h
    obtain ⟨⟨tiles, k₂⟩, htiles, h⟩ := Option.bind_eq_some_iff.mp h
    cases h
    exact List.forall_mem_cons.mpr ⟨LIRExpr.optimalTile_unlabelled e htile, ih htiles⟩

/-- Nor has the tile of a move. -/
theorem LIRMove.optimalTile_unlabelled {dest expr : LIRExpr} {t : Tile}
    (h : LIRMove.optimalTile dest expr k = some (t, k')) : Unlabelled t.instructions := by
  obtain ⟨⟨srcTile, k₁⟩, hsrc, h⟩ := Option.bind_eq_some_iff.mp h
  obtain ⟨⟨best, k₂⟩, hbest, h⟩ := Option.bind_eq_some_iff.mp h
  cases h
  have hcode := LIRExpr.optimalTile_unlabelled expr hsrc
  have hdefault : Unlabelled best.instructions := by
    unfold LIRMove.defaultTile at hbest
    split at hbest
    · cases hbest
      simp only [List.cons_append, unlabelled_builder, unlabelled_append]
      exact ⟨hcode, by simp [Unlabelled]⟩
    · obtain ⟨⟨destTile, k₃⟩, hdest, hbest⟩ := Option.bind_eq_some_iff.mp hbest
      cases hbest
      simp only [List.cons_append, unlabelled_builder, unlabelled_append]
      exact ⟨⟨hcode, LIRExpr.optimalTile_unlabelled _ hdest⟩, by simp [Unlabelled]⟩
    · cases hbest
      simp only [List.cons_append, unlabelled_builder, unlabelled_append]
      exact ⟨hcode, by simp [Unlabelled]⟩
    · cases hbest
  have hzero := attempt_of (P := fun t : Tile => Unlabelled t.instructions) (fun t => t.cost) hdefault
    (LIRMove.zeroTile dest expr) fun t ht => by
      unfold LIRMove.zeroTile at ht
      split at ht
      · split_ifs at ht
        cases ht
        simp [Unlabelled, builderComment]
      · cases ht
  have hinc := attempt_of (P := fun t : Tile => Unlabelled t.instructions) (fun t => t.cost) hzero
    (LIRMove.incOrDec dest expr) fun t ht => by cases ht
  refine attempt_of (P := fun t : Tile => Unlabelled t.instructions) (fun t => t.cost) hinc
    (LIRMove.addressHack dest expr) fun t ht => ?_
  unfold LIRMove.addressHack at ht
  split at ht
  · obtain ⟨m, -, rfl⟩ := Option.map_eq_some_iff.mp ht
    simp [Unlabelled, builderComment]
  · cases ht

/-- Nor has that of a conditional jump. -/
theorem LIRTrueJump.optimalTile_unlabelled {guard : LIRExpr} {l : String} {t : Tile}
    (h : LIRTrueJump.optimalTile guard l k = some (t, k')) : Unlabelled t.instructions := by
  obtain ⟨⟨guardTile, k₁⟩, hguard, h⟩ := Option.bind_eq_some_iff.mp h
  obtain ⟨⟨exprGuardTile, zeroTile⟩, hop, h⟩ := Option.bind_eq_some_iff.mp h
  cases h
  have hdefault : Unlabelled (LIRTrueJump.defaultTile guardTile l).instructions := by
    simp only [LIRTrueJump.defaultTile, List.cons_append, unlabelled_builder, unlabelled_append]
    exact ⟨LIRExpr.optimalTile_unlabelled guard hguard, by simp [Unlabelled]⟩
  have hops : (∀ t, exprGuardTile = some t → Unlabelled t.instructions) ∧
      ∀ t, zeroTile = some t → Unlabelled t.instructions := by
    cases guard with
    | op o left right =>
      obtain ⟨⟨leftTile, k₂⟩, hleft, hop⟩ := Option.bind_eq_some_iff.mp hop
      obtain ⟨⟨rightTile, k₃⟩, hright, hop⟩ := Option.bind_eq_some_iff.mp hop
      cases hop
      have hl := LIRExpr.optimalTile_unlabelled left hleft
      have hr := LIRExpr.optimalTile_unlabelled right hright
      have hzeroJump : ∀ (j : Jump) {tile : Tile.Expr}, Unlabelled tile.instructions →
          Unlabelled (LIRTrueJump.zeroJump j tile l).instructions := by
        intro j tile hcode
        simp only [LIRTrueJump.zeroJump, List.cons_append, unlabelled_builder, unlabelled_append]
        exact ⟨hcode, by simp [Unlabelled]⟩
      refine ⟨fun t ht => ?_, fun t ht => ?_⟩
      · obtain ⟨jump, -, rfl⟩ := Option.map_eq_some_iff.mp ht
        simp only [List.cons_append, unlabelled_builder, unlabelled_append]
        exact ⟨⟨hl, hr⟩, by simp [Unlabelled]⟩
      · unfold LIRTrueJump.zeroNotZero at ht
        split at ht
        · split_ifs at ht <;> cases ht
          · exact hzeroJump _ hr
          · exact hzeroJump _ hl
        · split_ifs at ht <;> cases ht
          · exact hzeroJump _ hr
          · exact hzeroJump _ hl
        · cases ht
    | _ =>
      cases hop
      exact ⟨fun _ h => (by cases h), fun _ h => by cases h⟩
  have hexpr := attempt_of (P := fun t : Tile => Unlabelled t.instructions) (fun t => t.cost) hdefault
    exprGuardTile hops.1
  have hzero := attempt_of (P := fun t : Tile => Unlabelled t.instructions) (fun t => t.cost) hexpr
    zeroTile hops.2
  have htrue := attempt_of (P := fun t : Tile => Unlabelled t.instructions) (fun t => t.cost) hzero
    (LIRTrueJump.alwaysTrue guard l) fun t ht => by
      unfold LIRTrueJump.alwaysTrue at ht
      split_ifs at ht
      cases ht
      simp [Unlabelled, builderComment]
  exact attempt_of (P := fun t : Tile => Unlabelled t.instructions) (fun t => t.cost) htrue
    (LIRTrueJump.alwaysFalse guard) fun t ht => by
      unfold LIRTrueJump.alwaysFalse at ht
      split_ifs at ht
      cases ht
      simp [Unlabelled, builderComment]

/-- Nor has that of a return. -/
theorem LIRReturn.optimalTile_unlabelled {valList : List LIRExpr} {t : Tile}
    (h : LIRReturn.optimalTile valList k = some (t, k')) : Unlabelled t.instructions := by
  obtain ⟨⟨tiles, k₁⟩, htiles, h⟩ := Option.bind_eq_some_iff.mp h
  cases h
  have hcode := optimalTiles_unlabelled htiles
  simp only [List.cons_append, unlabelled_builder, unlabelled_append]
  refine ⟨⟨⟨fun insn hinsn => ?_, fun insn hinsn => ?_⟩, fun insn hinsn => ?_⟩, by simp [Unlabelled]⟩
  · obtain ⟨t, ht, hinsn⟩ := List.mem_flatMap.mp hinsn
    exact hcode t ht insn hinsn
  · obtain ⟨p, -, rfl⟩ := List.mem_map.mp hinsn
    simp
  · obtain ⟨p, -, rfl⟩ := List.mem_map.mp hinsn
    simp

/-- Nor has that of a call. -/
theorem LIRCallStmt.optimalTile_unlabelled {target : String} {n_returns : ℕ} {args : List LIRExpr} {t : Tile}
    (h : LIRCallStmt.optimalTile target n_returns args k = some (t, k')) : Unlabelled t.instructions := by
  obtain ⟨⟨tiles, k₁⟩, htiles, h⟩ := Option.bind_eq_some_iff.mp h
  cases h
  have hcode := optimalTiles_unlabelled htiles
  have hite : ∀ {c : Prop} [Decidable c] {xs : List Instruction}, Unlabelled xs →
      Unlabelled (if c then xs else []) := by
    intro c _ xs hxs
    split_ifs
    · exact hxs
    · exact unlabelled_nil
  have harguments : Unlabelled (tiles.zipIdx.flatMap fun p => p.1.instructions ++
      [ConventionalCaller.putArg n_returns (args.length - p.2) p.1.outputRegister]) := by
    intro insn hinsn
    obtain ⟨p, hp, hinsn⟩ := List.mem_flatMap.mp hinsn
    rcases List.mem_append.mp hinsn with hinsn | hinsn
    · exact hcode p.1 (List.fst_mem_of_mem_zipIdx hp) insn hinsn
    · rw [List.mem_singleton.mp hinsn, ConventionalCaller.putArg]
      split <;> simp
  have hreturns : Unlabelled ((List.range n_returns).map fun i => ConventionalCaller.getReturn (i + 1)) := by
    intro insn hinsn
    obtain ⟨i, -, rfl⟩ := List.mem_map.mp hinsn
    unfold ConventionalCaller.getReturn
    split <;> simp
  simp only [unlabelled_append]
  exact ⟨⟨⟨⟨⟨⟨⟨⟨by simp [Unlabelled, builderComment], hite (by simp [Unlabelled])⟩,
    hite (by simp [Unlabelled])⟩, harguments⟩, by simp [Unlabelled]⟩, hite (by simp [Unlabelled])⟩, hreturns⟩,
    hite (by simp [Unlabelled])⟩, by simp [Unlabelled]⟩

/-- The statements behind a label are tiled behind the label of its tile. -/
theorem LIRSeq.findInsn_tiles {block rest : List FlatStmt} {ts : List Tile} (h : LIRSeq.tiles block k = some (ts, k'))
    {l : String} (hl : findLabel block l = some rest) : ∃ k₁ ts', LIRSeq.tiles rest k₁ = some (ts', k') ∧
      findInsn l (ts.flatMap (·.instructions)) = some (ts'.flatMap (·.instructions)) := by
  induction block generalizing k ts with
  | nil => cases hl
  | cons stmt block ih =>
    obtain ⟨⟨t, k₁⟩, ht, h⟩ := Option.bind_eq_some_iff.mp h
    obtain ⟨⟨ts, k₂⟩, hts, h⟩ := Option.bind_eq_some_iff.mp h
    cases h
    rw [List.flatMap_cons]
    -- a tile binds no label, except that of a label statement
    have hskip : Unlabelled t.instructions → findLabel block l = some rest → ∃ k₁ ts',
        LIRSeq.tiles rest k₁ = some (ts', k') ∧
          findInsn l (t.instructions ++ ts.flatMap (·.instructions)) = some (ts'.flatMap (·.instructions)) := by
      intro hcode hl
      rw [findInsn_append hcode]
      exact ih hts hl
    cases stmt with
    | label name =>
      cases ht
      rw [List.singleton_append, findInsn]
      rw [findLabel] at hl
      split_ifs at hl ⊢ with hname
      · cases hl
        exact ⟨_, ts, hts, rfl⟩
      · exact ih hts hl
    | endBlock e =>
      rw [findLabel] at hl
      refine hskip ?_ hl
      cases e with
      | jump address =>
        cases ht
        simp [Unlabelled]
      | cjump => cases ht
      | trueJump guard address => exact LIRTrueJump.optimalTile_unlabelled ht
      | ret valList => exact LIRReturn.optimalTile_unlabelled ht
    | callStmt target n_returns args =>
      rw [findLabel] at hl
      exact hskip (LIRCallStmt.optimalTile_unlabelled ht) hl
    | move dest expr =>
      rw [findLabel] at hl
      exact hskip (LIRMove.optimalTile_unlabelled ht) hl

end Labels

/-! ## Off the stack -/

/-- A memory that keeps off the stack. -/
def heap (L : String → Word) (S : WordStack) : Storage Bytes where
  addr := L
  read m a := if S.Off a then some (m.load a) else none
  write m a v := if S.Off a then some (m.store a v) else none

section Heap

variable {L : String → Word} {S : WordStack} {st st' st₁ : Store Bytes} {e : LIRExpr} {v : Word}

/-- The program reads words off the stack. -/
theorem heap_read_eq_some {m : Bytes} {a : Word} : (heap L S).read m a = some v ↔ S.Off a ∧ m.load a = v := by
  simp [heap]

/-- It writes words off the stack. -/
theorem heap_write_eq_some {m m' : Bytes} {a : Word} :
    (heap L S).write m a v = some m' ↔ S.Off a ∧ m.store a v = m' := by
  simp [heap]

/-- A store agrees with itself. -/
theorem AgreeOffStack.refl (S : WordStack) (st : Store Bytes) : AgreeOffStack S st st := ⟨fun _ _ => rfl, .refl _ _⟩

/-- The code has the same temps and the same memory off the stack when it runs on. -/
theorem AgreeOffStack.trans (h : AgreeOffStack S st st') {st₂ : Store Bytes} (h' : AgreeOffStack S st' st₂) :
    AgreeOffStack S st st₂ := ⟨fun x hx => (h'.temps x hx).trans (h.temps x hx), h.mem.trans h'.mem⟩

/-- A value of the program is computed from the machine's memory too, as it reads off the stack only. -/
theorem LIRExpr.eval_heap (ht : e.Tileable) (h : AgreeOffStack S st st') (heval : e.eval (heap L S) st = some v) :
    e.eval (Bytes.storage L) st' = some v := by
  have hread : ∀ a v, (heap L S).read st.mem a = some v → (Bytes.storage L).read st'.mem a = some v := by
    intro a v hread
    obtain ⟨ha, rfl⟩ := heap_read_eq_some.mp hread
    exact congrArg some (h.mem.load_eq ha)
  fun_induction LIRExpr.Tileable e generalizing v with
  | case1 =>
    rw [LIRExpr.eval] at heval ⊢
    exact heval
  | case2 x =>
    rw [LIRExpr.eval] at heval ⊢
    rw [h.temps x ht]
    exact heval
  | case3 => exact ht.elim
  | case4 l => exact hread (L l) v heval
  | case5 address hname ih =>
    obtain ⟨a, ha, hload⟩ := Option.bind_eq_some_iff.mp heval
    rw [LIRExpr.eval, ih ht ha, Option.bind_some, hread a v hload]
  | case6 o left right ihl ihr =>
    obtain ⟨a, ha, heval⟩ := Option.bind_eq_some_iff.mp heval
    obtain ⟨b, hb, heval⟩ := Option.bind_eq_some_iff.mp heval
    rw [LIRExpr.eval, ihl ht.1 ha, ihr ht.2 hb]
    exact heval

/-- What does not fault there does not fault here. -/
theorem LIRExpr.noFault_heap (ht : e.Tileable) (h : AgreeOffStack S st st') (heval : e.eval (heap L S) st = some v)
    (hf : e.NoFault (heap L S) st) : e.NoFault (Bytes.storage L) st' := by
  fun_induction LIRExpr.Tileable e generalizing v with
  | case1 => trivial
  | case2 => trivial
  | case3 => exact ht.elim
  | case4 => trivial
  | case5 address hname ih =>
    obtain ⟨a, ha, -⟩ := Option.bind_eq_some_iff.mp heval
    exact ih ht ha hf
  | case6 o left right ihl ihr =>
    obtain ⟨a, ha, heval⟩ := Option.bind_eq_some_iff.mp heval
    obtain ⟨b, hb, heval⟩ := Option.bind_eq_some_iff.mp heval
    refine ⟨ihl ht.1 ha hf.1, ihr ht.2 hb hf.2.1, fun ho a' b' ha' hb' => ?_⟩
    cases (LIRExpr.eval_heap ht.1 h ha).symm.trans ha'
    cases (LIRExpr.eval_heap ht.2 h hb).symm.trans hb'
    exact hf.2.2 ho a b ha hb

/-- Both, for a list of expressions. -/
theorem evalList_heap {es : List LIRExpr} {vs : List Word} (ht : ∀ e ∈ es, e.Tileable) (h : AgreeOffStack S st st')
    (heval : evalList (heap L S) st es = some vs) : evalList (Bytes.storage L) st' es = some vs ∧
      ((∀ e ∈ es, e.NoFault (heap L S) st) → ∀ e ∈ es, e.NoFault (Bytes.storage L) st') := by
  induction es generalizing vs with
  | nil =>
    rw [evalList, List.mapM_nil] at heval ⊢
    exact ⟨heval, fun _ => List.forall_mem_nil _⟩
  | cons e es ih =>
    rw [List.forall_mem_cons] at ht
    obtain ⟨v, vs', hv, hvs, rfl⟩ := mapM_cons_eq_some.mp heval
    obtain ⟨hvalues, hfaults⟩ := ih ht.2 hvs
    refine ⟨mapM_cons_eq_some.mpr ⟨v, vs', LIRExpr.eval_heap ht.1 h hv, hvalues, rfl⟩, fun hf => ?_⟩
    rw [List.forall_mem_cons] at hf
    exact List.forall_mem_cons.mpr ⟨LIRExpr.noFault_heap ht.1 h hv hf.1, hfaults hf.2⟩

/-- The address of a move to memory. -/
theorem LIRExpr.address_heap {address : LIRExpr} {a : Word} (ht : (LIRExpr.mem address).Tileable)
    (h : AgreeOffStack S st st') (heval : address.eval (heap L S) st = some a) :
    address.eval (Bytes.storage L) st' = some a ∧
      (address.NoFault (heap L S) st → address.NoFault (Bytes.storage L) st') := by
  by_cases hname : ∃ l, address = .name l
  · obtain ⟨l, rfl⟩ := hname
    have hlabel : some (L l) = some a := heval
    refine ⟨?_, fun _ => trivial⟩
    rw [LIRExpr.eval, ← hlabel]
    rfl
  · have ht : address.Tileable := by
      cases address with
      | name l => exact absurd ⟨l, rfl⟩ hname
      | const | temp | mem | op => exact ht
    exact ⟨LIRExpr.eval_heap ht h heval, LIRExpr.noFault_heap ht h heval⟩

/-- A move does the same to both memories, and nothing to the stack. -/
theorem move_heap {dest expr : LIRExpr} {ev : Event Bytes} (hd : dest.TileableDest) (ht : expr.Tileable)
    (h : AgreeOffStack S st st') (hexec : Exec (heap L S) (.move dest expr) st ev st₁) :
    (dest.NoFault (heap L S) st → dest.NoFault (Bytes.storage L) st') ∧
      (expr.NoFault (heap L S) st → expr.NoFault (Bytes.storage L) st') ∧
      ∀ ev' st₁', Exec (Bytes.storage L) (.move dest expr) st' ev' st₁' → AgreeOffStack S st₁ st₁' ∧
        ∀ i < S.size, st₁'.mem.load (S.word i) = st'.mem.load (S.word i) := by
  cases hexec with
  | @moveTemp _ x _ v heval =>
    have hvalue := LIRExpr.eval_heap ht h heval
    refine ⟨fun _ => trivial, LIRExpr.noFault_heap ht h heval, fun ev' st₁' hexec' => ?_⟩
    cases hexec' with
    | moveTemp heval' =>
      cases hvalue.symm.trans heval'
      refine ⟨⟨fun y hy => ?_, h.mem⟩, fun _ _ => rfl⟩
      show Function.update st'.temps x v y = Function.update st.temps x v y
      rw [Function.update_apply, Function.update_apply, h.temps y hy]
  | @moveMem _ a _ p v m hp heval hwrite =>
    have hvalue := LIRExpr.eval_heap ht h heval
    obtain ⟨haddress, hfault⟩ := LIRExpr.address_heap hd h hp
    obtain ⟨hword, rfl⟩ := heap_write_eq_some.mp hwrite
    refine ⟨hfault, LIRExpr.noFault_heap ht h heval, fun ev' st₁' hexec' => ?_⟩
    cases hexec' with
    | moveMem hp' heval' hwrite' =>
      cases haddress.symm.trans hp'
      cases hvalue.symm.trans heval'
      cases hwrite'
      exact ⟨⟨h.temps, h.mem.store p v⟩,
        fun i hi => Bytes.load_store_apart _ v (hword _ (WordStack.word_mem hi)).symm⟩

end Heap

/-! ## Statements -/

/-- The statements the lowering leaves: names stand only under memory, no temp is named like a fresh register, and the
arguments of calls are temps and constants. -/
def FlatStmt.Tileable : FlatStmt → Prop
  | .endBlock (.jump _) | .label _ => True
  | .endBlock (.cjump guard _ _) | .endBlock (.trueJump guard _) => guard.Tileable
  | .endBlock (.ret valList) => ∀ e ∈ valList, e.Tileable
  | .callStmt _ _ args => ∀ e ∈ args, e.IsAtom
  | .move dest expr => dest.TileableDest ∧ expr.Tileable

/-- No division of a statement makes `IDIV` fault. -/
def FlatStmt.NoFault {M : Type*} (S : Storage M) (s : Store M) : FlatStmt → Prop
  | .endBlock (.jump _) | .label _ | .callStmt _ _ _ => True
  | .endBlock (.cjump guard _ _) | .endBlock (.trueJump guard _) => guard.NoFault S s
  | .endBlock (.ret valList) => ∀ e ∈ valList, e.NoFault S s
  | .move dest expr => dest.NoFault S s ∧ expr.NoFault S s

/-- `BodyReturns external S body vs m rest st`: the statements `rest` of a body run from `st` to a return of `vs` that
leaves the memory `m`. Calls do what `external` says. -/
inductive BodyReturns (external : External) (S : Storage Bytes) (body : List FlatStmt) (vs : List Word) (m : Bytes) :
    List FlatStmt → Store Bytes → Prop
  | step {rest rest' : List FlatStmt} {stmt : FlatStmt} {st st' : Store Bytes} {e : Option (Event Bytes)} :
      FlatStep S body (.running (stmt :: rest) st) e (.running rest' st') →
      (∀ target n args, stmt ≠ .callStmt target n args) → stmt.NoFault S st →
      BodyReturns external S body vs m rest' st' → BodyReturns external S body vs m (stmt :: rest) st
  | call {rest : List FlatStmt} {target : String} {args : List LIRExpr} {st : Store Bytes} {as rets : List Word}
      {m' : Bytes} :
      evalList S st args = some as → external target as st.mem = some (rets, m') →
      BodyReturns external S body vs m rest ⟨setReturns 1 rets st.temps, m'⟩ →
      BodyReturns external S body vs m (.callStmt target rets.length args :: rest) st
  | ret {rest : List FlatStmt} {valList : List LIRExpr} {st : Store Bytes} :
      evalList S st valList = some vs → (∀ e ∈ valList, e.NoFault S st) → st.mem = m →
      BodyReturns external S body vs m (.endBlock (.ret valList) :: rest) st

/-- The state of the code between statements, where `base` is its state in front of the first: the lowered
representation is at `st`, and `d` words are on the stack, which are kept. -/
structure Between (S : WordStack) (d : ℕ) (base : State) (st : Store Bytes) (s : State) : Prop where
  agrees : AgreeOffStack S st s.store
  phys : ∀ r, r ≠ RAX → r ≠ RDX → s.phys r = base.phys r
  kept : ∀ i < d, s.mem.load (S.word i) = base.mem.load (S.word i)

section Statements

variable (callee : String → Passed → Option Returned) {L : String → Word} {S : WordStack} {d k k' : ℕ}
  {base s : State} {st st' : Store Bytes}

/-- What lands at the store of the lowered representation stays between statements. -/
theorem Between.lands (h : Between S d base st s) {st₁ : Store Bytes} {s' : State} (hl : Lands k k' s st₁ s')
    (hagrees : AgreeOffStack S st' st₁) (hkept : ∀ i < d, st₁.mem.load (S.word i) = s.mem.load (S.word i)) :
    Between S d base st' s' where
  agrees := hagrees.trans ⟨fun x hx => hl.abs x fun j _ _ => hx j, fun b _ => congrFun hl.mem b⟩
  phys r hr hr' := by rw [hl.phys r hr hr', h.phys r hr hr']
  kept i hi := by rw [hl.mem, hkept i hi, h.kept i hi]

/-- A move. -/
theorem move_simulates {dest expr : LIRExpr} {ev : Event Bytes} {t : Tile} (h : Between S d base st s)
    (hd : dest.TileableDest) (ht : expr.Tileable) (htile : LIRMove.optimalTile dest expr k = some (t, k'))
    (hexec : Exec (heap L S) (.move dest expr) st ev st') (hf : (FlatStmt.move dest expr).NoFault (heap L S) st)
    (hsize : d ≤ S.size) (body rest : List Instruction) :
    ∃ s', CodeReaches callee L saved body ⟨t.instructions ++ rest, s⟩ ⟨rest, s'⟩ ∧ Between S d base st' s' := by
  obtain ⟨hfd, hfe, hmove⟩ := move_heap hd ht h.agrees hexec
  obtain ⟨t', k'', htile', hmoves⟩ := LIRMove.optimalTile_correct L hd ht k
  cases htile'.symm.trans htile
  obtain ⟨e, st₁, s', hexec', hrun, hlands⟩ := hmoves s (hfd hf.1) (hfe hf.2)
  obtain ⟨hagrees, hkept⟩ := hmove e st₁ hexec'
  exact ⟨s', reaches_of_run callee (LIRMove.optimalTile_ordinary htile) hrun rfl,
    h.lands hlands hagrees fun i hi => hkept i (by omega)⟩

/-- A conditional jump: the code of the body goes where the statements do. -/
theorem trueJump_simulates {guard : LIRExpr} {l : String} {o : Option String} {t : Tile} (h : Between S d base st s)
    (ht : guard.Tileable) (htile : LIRTrueJump.optimalTile guard l k = some (t, k'))
    (hnext : (EndBlock.trueJump guard l).next (heap L S) st = some o)
    (hf : guard.NoFault (heap L S) st) {body rest code : List Instruction}
    (hcode : o.elim (some rest) (fun l => findInsn l body) = some code) :
    ∃ s', CodeReaches callee L saved body ⟨t.instructions ++ rest, s⟩ ⟨code, s'⟩ ∧ Between S d base st s' := by
  obtain ⟨v, hv, rfl⟩ := Option.map_eq_some_iff.mp hnext
  obtain ⟨t', k'', htile', hjumps⟩ := LIRTrueJump.optimalTile_correct L ht l k
  cases htile'.symm.trans htile
  obtain ⟨w, s', hw, hrun, hlands⟩ := hjumps s (LIRExpr.noFault_heap ht h.agrees hv hf)
  cases (LIRExpr.eval_heap ht h.agrees hv).symm.trans hw
  refine ⟨s', reaches_of_run callee (LIRTrueJump.optimalTile_ordinary htile) hrun ?_,
    h.lands hlands h.agrees fun _ _ => rfl⟩
  split_ifs at hcode ⊢ with hzero
  · show (findInsn l body).map _ = _
    have hcode : findInsn l body = some code := hcode
    rw [hcode]
    rfl
  · cases hcode
    rfl

/-- An atom has a tile. -/
theorem LIRExpr.IsAtom.tileable {e : LIRExpr} (h : e.IsAtom) : e.Tileable := by
  cases e with
  | const | temp => exact h
  | name | mem | op => exact h.elim

/-- A call. -/
theorem call_simulates {external : External} {reserve : ℕ} (himplements : Implements callee external S reserve)
    {target : String} {args : List LIRExpr} {t : Tile} {as rets : List Word} {m : Bytes} (h : Between S d base st s)
    (hatom : ∀ e ∈ args, e.IsAtom) (htile : LIRCallStmt.optimalTile target rets.length args k = some (t, k'))
    (heval : evalList (heap L S) st args = some as) (hexternal : external target as st.mem = some (rets, m))
    (htop : base.phys RSP = S.pointer d) (hodd : Odd d)
    (hroom : callDepth d rets.length args.length + reserve ≤ S.size) (body rest : List Instruction) :
    ∃ s', CodeReaches callee L saved body ⟨t.instructions ++ rest, s⟩ ⟨rest, s'⟩ ∧
      Between S d base ⟨setReturns 1 rets st.temps, m⟩ s' := by
  have hargs := (evalList_heap (fun e he => (hatom e he).tileable) (AgreeOffStack.refl S st) heval).1
  have hrsp : s.phys RSP = S.pointer d := (h.phys RSP (by decide) (by decide)).trans htop
  obtain ⟨s', hreaches, hagrees, hphys, hkept⟩ := callStmt_simulates callee L himplements htile hatom
    (.call hargs rfl) hexternal h.agrees hrsp hodd hroom body rest
  refine ⟨s', hreaches, hagrees, fun r hr hr' => ?_, fun i hi => ?_⟩
  · rw [hphys, h.phys r hr hr']
  · rw [hkept i hi, h.kept i hi]

/-- A jump to a label of the body, in the code of the body. -/
theorem findInsn_body {block rest : List FlatStmt} {tiles : List Tile} (h : LIRSeq.tiles block k = some (tiles, k'))
    {l : String} (hl : findLabel block l = some rest) : ∃ k₁ ts, LIRSeq.tiles rest k₁ = some (ts, k') ∧
      (∀ stmt ∈ rest, stmt ∈ block) ∧
      findInsn l (builderComment :: tiles.flatMap (·.instructions)) = some (ts.flatMap (·.instructions)) := by
  obtain ⟨k₁, ts, hts, hcode⟩ := LIRSeq.findInsn_tiles h hl
  obtain ⟨front, rfl, -⟩ := findLabel_eq_some hl
  exact ⟨k₁, ts, hts, fun stmt hstmt => List.mem_append_right _ (List.mem_cons_of_mem _ hstmt), hcode⟩

/-- One statement that is not a call: the code goes to the tiles of what is left. -/
theorem step_simulates {block rest rest' : List FlatStmt} {tiles ts : List Tile} {k₀ k₀' k₁ : ℕ}
    (hblock : LIRSeq.tiles block k₀ = some (tiles, k₀')) {stmt : FlatStmt} {e : Option (Event Bytes)} {t : Tile}
    (hstep : FlatStep (heap L S) block (.running (stmt :: rest) st) e (.running rest' st'))
    (hcall : ∀ target n args, stmt ≠ .callStmt target n args) (hf : stmt.NoFault (heap L S) st)
    (hstmt : stmt.Tileable) (htile : stmt.optimalTile k = some (t, k₁)) (hts : LIRSeq.tiles rest k₁ = some (ts, k'))
    (hrest : ∀ stmt ∈ rest, stmt ∈ block) (hsize : d ≤ S.size) (h : Between S d base st s) :
    ∃ k₂ k₃ ts' s', LIRSeq.tiles rest' k₂ = some (ts', k₃) ∧ (∀ stmt ∈ rest', stmt ∈ block) ∧
      CodeReaches callee L saved (builderComment :: tiles.flatMap (·.instructions))
        ⟨t.instructions ++ ts.flatMap (·.instructions), s⟩ ⟨ts'.flatMap (·.instructions), s'⟩ ∧
      Between S d base st' s' := by
  cases stmt with
  -- calls take the environment's step, which `call_simulates` has
  | callStmt target n args => exact absurd rfl (hcall target n args)
  | move dest expr =>
    cases hstep with
    | exec hexec =>
      obtain ⟨s', hreaches, h'⟩ := move_simulates callee h hstmt.1 hstmt.2 htile hexec hf hsize _ _
      exact ⟨_, _, ts, s', hts, hrest, hreaches, h'⟩
  | label l =>
    cases htile
    cases hstep with
    | exec hexec => cases hexec
    | label =>
      have hcode : Straight callee L [.label l true] s s := .single rfl rfl
      exact ⟨_, _, ts, s, hts, hrest, hcode.reaches, h⟩
  | endBlock e =>
    cases hstep with
    | exec hexec => cases hexec
    | @control _ _ _ _ o hnext hgoto =>
      cases e with
      | cjump guard l l' => cases htile
      | ret valList => cases hnext
      | jump address =>
        cases htile
        cases hnext
        obtain ⟨k₂, ts', hts', hrest', hcode⟩ := findInsn_body hblock hgoto
        have htaken : Jump.JMP.taken s.flags = true := rfl
        refine ⟨k₂, _, ts', s, hts', hrest', .single ?_, h⟩
        rw [List.singleton_append, stepCode_jump, if_pos htaken, hcode]
        rfl
      | trueJump guard l =>
        -- where the branch goes, the tiles go too: to the label, or on to the next tile
        obtain ⟨k₂, k₃, ts', hts', hrest', hcode⟩ : ∃ k₂ k₃ ts', LIRSeq.tiles rest' k₂ = some (ts', k₃) ∧
            (∀ stmt ∈ rest', stmt ∈ block) ∧ o.elim (some (ts.flatMap (·.instructions)))
              (fun l => findInsn l (builderComment :: tiles.flatMap (·.instructions))) =
                some (ts'.flatMap (·.instructions)) := by
          cases o with
          | none =>
            cases hgoto
            exact ⟨_, _, ts, hts, hrest, rfl⟩
          | some l =>
            obtain ⟨k₂, ts', hts', hrest', hcode⟩ := findInsn_body hblock hgoto
            exact ⟨k₂, _, ts', hts', hrest', hcode⟩
        obtain ⟨s', hreaches, h'⟩ := trueJump_simulates callee h hstmt htile hnext hf hcode
        exact ⟨k₂, k₃, ts', s', hts', hrest', hreaches, h'⟩

/-- The code of the statements of a body goes to the tile of the return at which they end. -/
theorem returns_simulates {external : External} {reserve : ℕ} (himplements : Implements callee external S reserve)
    {block : List FlatStmt} {tiles : List Tile} {k₀ k₀' : ℕ} (hblock : LIRSeq.tiles block k₀ = some (tiles, k₀'))
    (hok : ∀ stmt ∈ block, stmt.Tileable)
    (hroom : ∀ target n args, .callStmt target n args ∈ block → callDepth d n args.length + reserve ≤ S.size)
    (htop : base.phys RSP = S.pointer d) (hodd : Odd d) (hsize : d ≤ S.size) {vs : List Word} {m : Bytes}
    {rest : List FlatStmt} (hreturns : BodyReturns external (heap L S) block vs m rest st) {ts : List Tile}
    (htiles : LIRSeq.tiles rest k = some (ts, k')) (hrest : ∀ stmt ∈ rest, stmt ∈ block) (h : Between S d base st s) :
    ∃ valList t k₁ k₂ code st' s', LIRReturn.optimalTile valList k₁ = some (t, k₂) ∧
      (∀ e ∈ valList, e.Tileable) ∧ evalList (heap L S) st' valList = some vs ∧
      (∀ e ∈ valList, e.NoFault (heap L S) st') ∧ st'.mem = m ∧ Between S d base st' s' ∧
      CodeReaches callee L saved (builderComment :: tiles.flatMap (·.instructions))
        ⟨ts.flatMap (·.instructions), s⟩ ⟨t.instructions ++ code, s'⟩ := by
  induction hreturns generalizing k k' ts s with
  | @ret rest valList st heval hf hmem =>
    obtain ⟨⟨t, k₁⟩, htile, htiles⟩ := Option.bind_eq_some_iff.mp htiles
    obtain ⟨⟨ts, k₂⟩, hts, htiles⟩ := Option.bind_eq_some_iff.mp htiles
    cases htiles
    exact ⟨valList, t, _, _, _, st, s, htile, hok _ (hrest _ List.mem_cons_self), heval, hf, hmem, h, .refl⟩
  | @call rest target args st as rets m' heval hexternal _ ih =>
    obtain ⟨⟨t, k₁⟩, htile, htiles⟩ := Option.bind_eq_some_iff.mp htiles
    obtain ⟨⟨ts, k₂⟩, hts, htiles⟩ := Option.bind_eq_some_iff.mp htiles
    cases htiles
    have hmem := hrest _ List.mem_cons_self
    obtain ⟨s₁, hreaches, h₁⟩ := call_simulates callee himplements h (hok _ hmem) htile heval hexternal htop hodd
      (hroom _ _ _ hmem) (builderComment :: tiles.flatMap (·.instructions)) (ts.flatMap (·.instructions))
    obtain ⟨valList, t', k₃, k₄, code, st', s', htile', ht, heval', hf, hm, hbetween, hreaches'⟩ :=
      ih hts (fun stmt hstmt => hrest stmt (List.mem_cons_of_mem _ hstmt)) h₁
    exact ⟨valList, t', k₃, k₄, code, st', s', htile', ht, heval', hf, hm, hbetween, hreaches.trans hreaches'⟩
  | @step rest rest' stmt st st₁ e hstep hcall hf _ ih =>
    obtain ⟨⟨t, k₁⟩, htile, htiles⟩ := Option.bind_eq_some_iff.mp htiles
    obtain ⟨⟨ts, k₂⟩, hts, htiles⟩ := Option.bind_eq_some_iff.mp htiles
    cases htiles
    have hmem := hrest _ List.mem_cons_self
    obtain ⟨k₃, k₄, ts', s₁, hts', hrest', hreaches, h₁⟩ := step_simulates callee hblock hstep hcall hf
      (hok _ hmem) htile hts (fun stmt hstmt => hrest stmt (List.mem_cons_of_mem _ hstmt)) hsize h
    obtain ⟨valList, t', k₅, k₆, code, st', s', htile', ht, heval', hf', hm, hbetween, hreaches'⟩ :=
      ih hts' hrest' h₁
    exact ⟨valList, t', k₅, k₆, code, st', s', htile', ht, heval', hf', hm, hbetween, hreaches.trans hreaches'⟩

/-- The code of a body runs to its `LEAVE` and leaves the results of the body to its caller. -/
theorem body_answers {external : External} {reserve : ℕ} (himplements : Implements callee external S reserve)
    {block : List FlatStmt} {t : Tile} (htile : LIRSeq.optimalTile block k = some (t, k'))
    (hok : ∀ stmt ∈ block, stmt.Tileable)
    (hroom : ∀ target n args, .callStmt target n args ∈ block → callDepth d n args.length + reserve ≤ S.size)
    (htop : base.phys RSP = S.pointer d) (hodd : Odd d) (hsize : d ≤ S.size) {vs : List Word} {m : Bytes}
    (hreturns : BodyReturns external (heap L S) block vs m block st) (hagrees : AgreeOffStack S st base.store)
    {c nargs : ℕ} (hc : c ≤ d) (hplaces : pushedArgs vs.length nargs + pushedReturns vs.length ≤ c)
    (harea : 2 < vs.length → base.phys RDI = S.pointer (c - pushedArgs vs.length nargs)) :
    ∃ rest s', CodeReaches callee L saved t.instructions ⟨t.instructions, base⟩ ⟨.LEAVE :: .RET :: rest, s'⟩ ∧
      Answers S nargs vs m c base.mem (s'.phys RAX) (s'.phys RDX) s'.mem ∧
      ∀ r, r ≠ RAX → r ≠ RDX → s'.phys r = base.phys r := by
  obtain ⟨⟨tiles, k₁⟩, hblock, htile⟩ := Option.bind_eq_some_iff.mp htile
  cases htile
  have hstart : Between S d base st base := ⟨hagrees, fun _ _ _ => rfl, fun _ _ => rfl⟩
  obtain ⟨valList, t, k₂, k₃, code, st', s₁, htile, ht, heval, hf, hm, h, hreaches⟩ :=
    returns_simulates callee himplements hblock hok hroom htop hodd hsize hreturns hblock (fun _ h => h) hstart
  obtain ⟨hvalues, hfaults⟩ := evalList_heap ht h.agrees heval
  obtain ⟨s₂, hreturn, hanswers, hphys⟩ := @return_answers callee L S c k₂ k₃ s₁ valList t vs m nargs htile ht
    (hfaults hf) hvalues (fun hlarge => (h.phys RDI (by decide) (by decide)).trans (harea hlarge)) hplaces
    (hc.trans hsize) (hm ▸ h.agrees.mem) (builderComment :: tiles.flatMap (·.instructions)) code
  have hcomment : Straight callee L [builderComment] base base := .single rfl rfl
  refine ⟨code, s₂, (hcomment.reaches.trans hreaches).trans hreturn,
    ⟨hanswers.rax, hanswers.rdx, hanswers.area, fun i hi => ?_, hanswers.mem⟩, fun r hr hr' => ?_⟩
  · rw [hanswers.kept i hi, h.kept i (by omega)]
  · rw [hphys r hr hr', h.phys r hr hr']

end Statements

/-- A body that calls a function with 7 and returns what it gets, where that is not 0. -/
def askBody : List FlatStmt :=
  [.callStmt "f" 1 [.const 7], .endBlock (.trueJump (.temp (retTemp 1)) "l"), .endBlock (.ret []), .label "l",
    .endBlock (.ret [.temp (retTemp 1)])]

/-- The code of `askBody` calls the identity on seven and comes to its `LEAVE` with the result in `RAX`. -/
theorem body_answers_seven : ∃ t k' rest s', LIRSeq.optimalTile askBody 0 = some (t, k') ∧
    CodeReaches identityCode (fun _ => 0) saved t.instructions
      ⟨t.instructions, ⟨fun _ => 0, fun _ => 4088, ⟨false, false, false, false⟩, fun _ => 0⟩⟩
      ⟨.LEAVE :: .RET :: rest, s'⟩ ∧ s'.phys RAX = 7 := by
  have hreturns : BodyReturns identity (heap (fun _ => 0) ⟨4096, 64, by decide⟩) askBody [7] (fun _ => 0) askBody
      ⟨fun _ => 0, fun _ => 0⟩ := by
    have hseven : ∀ temps, setReturns 1 [7] temps (retTemp 1) = 7 :=
      fun temps => Function.update_self (retTemp 1) 7 temps
    have hguard : (LIRExpr.temp (retTemp 1)).eval (heap (fun _ => 0) ⟨4096, 64, by decide⟩)
        ⟨setReturns 1 [7] fun _ => 0, fun _ => 0⟩ = some 7 := by
      rw [LIRExpr.eval]
      exact congrArg some (hseven fun _ => 0)
    refine @BodyReturns.call _ _ _ _ _ _ _ _ _ [7] [7] (fun _ => 0) rfl rfl ?_
    refine .step (.control (EndBlock.next_trueJump_of_ne hguard (by decide) _) rfl) (fun _ _ _ h => by cases h)
      trivial ?_
    exact .ret (mapM_cons_eq_some.mpr ⟨7, [], hguard, rfl, rfl⟩) (by simp [LIRExpr.NoFault]) rfl
  have hroom : ∀ target n args, .callStmt target n args ∈ askBody → callDepth 1 n args.length + 0 ≤ 64 := by
    intro target n args h
    simp only [askBody, List.mem_cons, FlatStmt.callStmt.injEq, reduceCtorEq, List.not_mem_nil, or_false] at h
    obtain ⟨-, rfl, rfl⟩ := h
    decide
  obtain ⟨rest, s', hreaches, hanswers, -⟩ := @body_answers identityCode (fun _ => 0) ⟨4096, 64, by decide⟩ 1 0 _
    ⟨fun _ => 0, fun _ => 4088, ⟨false, false, false, false⟩, fun _ => 0⟩ _ identity 0 (identityCode_implements _ 0)
    askBody _ rfl (by simp [askBody, FlatStmt.Tileable, LIRExpr.IsAtom, LIRExpr.Tileable, retTemp_ne_fresh])
    hroom (by decide) (by decide) (by decide) [7] _ hreturns
    ⟨fun _ _ => rfl, .refl _ _⟩ 0 0 (by decide) (by decide) fun h => absurd h (by decide)
  exact ⟨_, _, rest, s', rfl, hreaches, hanswers.rax 7 rfl⟩

end Jaek
