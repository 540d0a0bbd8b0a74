import Jaek.Optimize.Dataflow.CopyRounds

/-!
# Copy propagation on the builder's graphs

A call sets result temps that no node defines, so a copy of one would outlive the next call. In a body
where result temps occur only in the moves directly behind a call, as many as it has results, the builder
puts all of them into the node of the call, where no copy is recorded (`resultsInMovIntos_iff`). For such a
body `copyProp_sound` is about every fixpoint and all rounds.

The translator does not make such a body of every program. In `crossed` the bounds check of a target stands
behind the call, and the moves that the builder takes for the call's are those of the check.
-/

namespace Jaek

variable {M : Type*}

/-! ## Where a body mentions result temps -/

/-- The temp occurs in the statement. -/
def FlatStmt.Mentions (x : String) (st : FlatStmt) : Prop := ∃ e ∈ st.exprs, e.Reads x

/-- How many moves the builder takes behind the statement. -/
def FlatStmt.results : FlatStmt → ℕ
  | .callStmt _ n_returns _ => n_returns
  | _ => 0

/-- No statement mentions a result temp, but for the moves directly behind a call, as many as it has
results. The number counts those still to come. -/
def ResultsBehindCalls : ℕ → List FlatStmt → Prop
  | _, [] => True
  | n + 1, _ :: rest => ResultsBehindCalls n rest
  | 0, st :: rest => (∀ i, ¬st.Mentions (retTemp i)) ∧ ResultsBehindCalls st.results rest

namespace CopyProp

/-- The result temps occur in the moves behind calls only. -/
def ResultsInMovIntos (mm : MatchMaker) : Prop :=
  ∀ node ∈ mm.nodes, ∀ x ∈ node.mentions, ∀ i, x ≠ retTemp i

variable {S : Storage M} {block rest : List FlatStmt} {mm : MatchMaker} {items : List CFGBuilder.Item}

/-- The destroyer's expression reads what the graph's uses. -/
theorem reads_translateExpr {x : String} {e : CFGExpr} :
    (CFGDestroyer.translateExpr e).Reads x ↔ x ∈ Properties.exprUse e := by
  induction e with
  | Var name => simp [CFGDestroyer.translateExpr, LIRExpr.Reads, Properties.exprUse]
  | Const value => simp [CFGDestroyer.translateExpr, LIRExpr.Reads, Properties.exprUse]
  | Label name => simp [CFGDestroyer.translateExpr, LIRExpr.Reads, Properties.exprUse]
  | Mem loc ih => exact ih
  | BOp left right op ihl ihr =>
    rw [CFGDestroyer.translateExpr, LIRExpr.Reads, ihl, ihr, Properties.exprUse, Finset.mem_union]

/-- The moves behind a call are passed over. -/
theorem resultsBehindCalls_append (taken : List FlatStmt) :
    ResultsBehindCalls taken.length (taken ++ rest) ↔ ResultsBehindCalls 0 rest := by
  induction taken with
  | nil => rfl
  | cons st taken ih => exact ih

/-- Labels do not matter to the condition. -/
theorem resultsBehindCalls_labels (ls : List String) :
    ResultsBehindCalls 0 (ls.map FlatStmt.label ++ rest) ↔ ResultsBehindCalls 0 rest := by
  induction ls with
  | nil => rfl
  | cons l ls ih =>
    refine Iff.trans ?_ ih
    simp [ResultsBehindCalls, FlatStmt.Mentions, FlatStmt.exprs, FlatStmt.results]

/-- A statement without results that mentions what the node does. -/
theorem resultsBehindCalls_single {st : FlatStmt} {node : CFGNode} (hresults : st.results = 0)
    (hmentions : ∀ x, st.Mentions x ↔ x ∈ node.mentions) :
    ResultsBehindCalls 0 (st :: rest) ↔
      (∀ x ∈ node.mentions, ∀ i, x ≠ retTemp i) ∧ ResultsBehindCalls 0 rest := by
  rw [ResultsBehindCalls, hresults]
  refine and_congr_left' ?_
  simp only [hmentions]
  constructor
  · rintro h x hx i rfl
    exact h i hx
  · intro h i hx
    exact h _ hx i rfl

/-- The statements of a node mention result temps where the node does, or in the moves behind a call. -/
theorem resultsBehindCalls_print (node : CFGNode) :
    ResultsBehindCalls 0 (node.print node.takes ++ rest) ↔
      (∀ x ∈ node.mentions, ∀ i, x ≠ retTemp i) ∧ ResultsBehindCalls 0 rest := by
  cases node with
  | mov m edge =>
    cases m with
    | Gets y e =>
      refine resultsBehindCalls_single rfl fun x => ?_
      simp [FlatStmt.Mentions, FlatStmt.exprs, Mov.stmt, LIRExpr.Reads, reads_translateExpr,
        CFGNode.mentions, Properties.use, Properties.defs, or_comm]
    | Mem loc e =>
      refine resultsBehindCalls_single rfl fun x => ?_
      simp [FlatStmt.Mentions, FlatStmt.exprs, Mov.stmt, reads_translateExpr, CFGNode.mentions,
        Properties.use, Properties.defs, or_comm]
  | Funcking name movIntos args edge =>
    have hmentions : ∀ x, (FlatStmt.callStmt name movIntos.length
        (args.map CFGDestroyer.translateExpr)).Mentions x ↔
          x ∈ (CFGNode.Funcking name movIntos args edge).mentions := by
      intro x
      rw [CFGNode.mentions, Properties.mem_foldl_union]
      simp [FlatStmt.Mentions, FlatStmt.exprs, reads_translateExpr]
    show ResultsBehindCalls 0 (_ :: (movIntos.map Mov.stmt ++ [] ++ rest)) ↔ _
    have hlength : movIntos.length = (movIntos.map Mov.stmt).length := (List.length_map _).symm
    rw [List.append_nil, ResultsBehindCalls, FlatStmt.results, hlength, resultsBehindCalls_append]
    refine and_congr_left' ?_
    simp only [List.length_map, hmentions]
    constructor
    · rintro h x hx i rfl
      exact h i hx
    · intro h i hx
      exact h _ hx i rfl
  | If cond take edge =>
    refine resultsBehindCalls_single rfl fun x => ?_
    simp [FlatStmt.Mentions, CFGNode.jumpStmt, FlatStmt.exprs, EndBlock.exprs, reads_translateExpr,
      CFGNode.mentions, Properties.use, Properties.defs]
  | Return rets =>
    refine resultsBehindCalls_single rfl fun x => ?_
    simp [FlatStmt.Mentions, FlatStmt.exprs, EndBlock.exprs, reads_translateExpr, CFGNode.mentions,
      Properties.use, Properties.defs, Properties.mem_foldl_union]
  | Cricket dest =>
    refine resultsBehindCalls_single rfl fun x => ?_
    simp [FlatStmt.Mentions, CFGNode.jumpStmt, FlatStmt.exprs, EndBlock.exprs, CFGNode.mentions,
      Properties.use, Properties.defs]
  | Start name edge => simp [CFGNode.print, CFGNode.stmts, CFGNode.takes, CFGNode.mentions, Properties.use,
      Properties.defs]
  | NOOP => simp [CFGNode.print, CFGNode.stmts, CFGNode.takes, CFGNode.mentions, Properties.use,
      Properties.defs]

/-- The text of a graph meets the condition when no node mentions a return value. -/
theorem resultsBehindCalls_code (items : List CFGBuilder.Item) :
    ResultsBehindCalls 0 (items.flatMap CFGBuilder.Item.code) ↔
      ∀ it ∈ items, ∀ x ∈ it.node.mentions, ∀ i, x ≠ retTemp i := by
  induction items with
  | nil => simp [ResultsBehindCalls]
  | cons it items ih =>
    rw [List.flatMap_cons, CFGBuilder.Item.code, List.append_assoc, resultsBehindCalls_labels,
      resultsBehindCalls_print, ih, List.forall_mem_cons]

/-- The builder carries the place of the result temps over from the body to the graph. -/
theorem resultsInMovIntos_iff (hr : CFGBuilder.Represents block items mm) :
    ResultsInMovIntos mm ↔ ResultsBehindCalls 0 block := by
  rw [hr.code, resultsBehindCalls_code, ResultsInMovIntos, hr.nodes]
  simp

/-- The graph of a body that meets the condition is in shape. -/
theorem build_sane {name : String} {cfg : CFG} (hok : CFGBuilder.BodyOk block)
    (h : CFGBuilder.build name block = some cfg) (hret : ResultsBehindCalls 0 block) :
    Sane S cfg.start cfg.mm := by
  obtain ⟨hstart, items, hr⟩ := CFGBuilder.build_spec hok h
  rw [hstart]
  refine ⟨hr.repOk, ?_, hr.noInto_start, CFGBuilder.build_addressed h, ?_⟩
  · obtain ⟨fname, edge, hzero⟩ := hr.start
    exact ⟨fname, edge, hr.node_eq hzero⟩
  · intro n x y edge _ hcopy i
    have hmentions := (resultsInMovIntos_iff hr).mpr hret _ (List.mem_of_getElem? hcopy)
    constructor
    · exact hmentions x (Finset.mem_union_right _ (Finset.mem_singleton_self x)) i
    · exact hmentions y (Finset.mem_union_left _ (Finset.mem_singleton_self y)) i

/-- Over a small graph the run before `postprocess` ends at a fixpoint. -/
theorem exists_fixpoint {name : String} {cfg : CFG} (h : CFGBuilder.build name block = some cfg)
    (hsize : cfg.mm.allNodes.length + cfg.mm.edges.toFinset.card * (pairs cfg.mm).card ≤ THRESHOLD) :
    ∃ values, (analysis (computeTop cfg.mm)).AtFixpoint cfg.mm values := by
  have hrep := CFGBuilder.build_repOk h
  have hgen := isGenKill cfg.mm
  have hfilled : CFGFlow.Filled cfg.mm ⟨cfg.mm.allNodes,
      (analysis (computeTop cfg.mm)).fill cfg.mm fun _ => none⟩ :=
    CFGFlow.fill_filled MatchMaker.allNodes_nodup _
  have hreturns : ((analysis (computeTop cfg.mm)).run cfg.mm (fun _ => 0) (fun _ => none)).isSome := by
    rw [CFGFlow.run, CFGFlow.runWithWorklist]
    exact hgen.loop_isSome hrep hfilled THRESHOLD
  obtain ⟨s, hrun⟩ := Option.isSome_iff_exists.mp hreturns
  exact ⟨s.values, CFGFlow.run_fixpoint hgen hrep hrun (hgen.run_empties hrep hsize hrun)⟩

end CopyProp

/-- Copy propagation is sound on the graph of a body that mentions result temps only behind calls. At a
fixpoint the facts met at a node other than `Start` hold whenever control enters the node, and a call of
`postprocess` that starts at a fixpoint and returns keeps the behaviour. -/
theorem copyProp_sound {name : String} {block : List FlatStmt} {cfg : CFG}
    (hok : CFGBuilder.BodyOk block) (h : CFGBuilder.build name block = some cfg)
    (hret : ResultsBehindCalls 0 block) {values : Edge → Option (Finset Copy)}
    (hfix : (CopyProp.analysis (CopyProp.computeTop cfg.mm)).AtFixpoint cfg.mm values)
    (S : Storage M) (s₀ : Store M) :
    (∀ n s, n ≠ cfg.start → (cfg.mm.lts S).Reachable (cfg.mm.entry cfg.start s₀) (cfg.mm.entry n s) →
      ∃ met, (CopyProp.analysis (CopyProp.computeTop cfg.mm)).bigMeet values (cfg.mm.predecessorEdges n) =
        some met ∧ ∀ c ∈ met, s.temps c.late = s.temps c.early) ∧
    ∀ picks orders fuel mm',
      CopyProp.postprocess (CopyProp.computeTop cfg.mm) picks orders fuel cfg.mm values = some mm' →
      (mm'.lts S).traces (mm'.entry cfg.start s₀) = (cfg.mm.lts S).traces (cfg.mm.entry cfg.start s₀) := by
  have hsane : CopyProp.Sane S cfg.start cfg.mm := CopyProp.build_sane hok h hret
  have hsound := CopyProp.sound_of_fixpoint hsane hfix
  constructor
  · intro n s hn hreach
    obtain ⟨met, hmeet⟩ := CopyProp.bigMeet_isSome hsane.repOk hsound.isSome n
    exact ⟨met, hmeet, fun c hc => (hsound.entry hsane hn hmeet ⟨s₀, hreach⟩ c hc).eq⟩
  · intro picks orders fuel mm' hpost
    exact CopyProp.postprocess_sameTraces hsane hsound hpost s₀

/-- A name that no result temp has. -/
theorem ne_retTemp {x : String} (h : x.toList[1]? ≠ some 'R') (i : ℕ) : x ≠ retTemp i := by
  rintro rfl
  exact h (by simp [retTemp])

/-- `x, y = g(); z = y; u, v = h(); return x + z`. -/
def callTwice : List FlatStmt :=
  [.callStmt "_Ig_t2ii" 2 [], .move (.temp "x") (.temp "_RV1"), .move (.temp "y") (.temp "_RV2"),
    .move (.temp "z") (.temp "y"), .callStmt "_Ih_t2ii" 2 [], .move (.temp "u") (.temp "_RV1"),
    .move (.temp "v") (.temp "_RV2"), .endBlock (.ret [.op .ADD (.temp "x") (.temp "z")])]

/-- The graph of `callTwice`. -/
def twiceGraph : MatchMaker where
  nodes := [.Start "f" "$G1",
    .Funcking "_Ig_t2ii" [.Gets "x" (.Var "_RV1"), .Gets "y" (.Var "_RV2")] [] "$G4",
    .mov (.Gets "z" (.Var "y")) "$G5",
    .Funcking "_Ih_t2ii" [.Gets "u" (.Var "_RV1"), .Gets "v" (.Var "_RV2")] [] "$G8",
    .Return [.BOp (.Var "x") (.Var "z") .ADD]]
  predecessors := ⟨[(1, [(0, false)]), (2, [(1, false)]), (3, [(2, false)]), (4, [(3, false)])], by decide⟩
  successors := ⟨[(0, ⟨some 1, none⟩), (1, ⟨some 2, none⟩), (2, ⟨some 3, none⟩), (3, ⟨some 4, none⟩)],
    by decide⟩

open CFGBuilder in
/-- It is what `CFGBuilder` makes of it. -/
theorem callTwice_build : CFGBuilder.build "f" callTwice = some ⟨0, "f", twiceGraph⟩ := by
  simp only [CFGBuilder.build, callTwice, loop, createNode, takeMoves, init, pointToNext, addNode,
    translateMove, Option.bind_eq_bind, Option.bind_some, pointName, CFGBuilder.translateExpr,
    List.nil_append, List.cons_append, List.map_nil]
  rfl

/-- The body is what the pipeline hands to `CFGBuilder`. -/
theorem callTwice_ok : CFGBuilder.BodyOk callTwice where
  nodup := by decide
  targets := by simp [callTwice, EndBlock.targets]
  names := by simp [callTwice]

/-- Its results are moved right behind the calls. -/
theorem callTwice_results : ResultsBehindCalls 0 callTwice := by
  have hy := ne_retTemp (x := "y") (by decide)
  have hz := ne_retTemp (x := "z") (by decide)
  have hx := ne_retTemp (x := "x") (by decide)
  simp [callTwice, ResultsBehindCalls, FlatStmt.results, FlatStmt.Mentions, FlatStmt.exprs, EndBlock.exprs,
    LIRExpr.Reads, ne_comm.mp (hx _), ne_comm.mp (hy _), ne_comm.mp (hz _)]

/-- The store in which only `x` is not zero. -/
def onlyX : Store Unit := ⟨fun name => if name = "x" then 1 else 0, ()⟩

/-- The facts about `callTwice` are true, and its traces are kept. -/
theorem callTwice_sound :
    ∃ values, (CopyProp.analysis (CopyProp.computeTop twiceGraph)).AtFixpoint twiceGraph values ∧
      (∀ n s, n ≠ 0 → (twiceGraph.lts noMemory).Reachable (twiceGraph.entry 0 onlyX) (twiceGraph.entry n s) →
        ∃ met, (CopyProp.analysis (CopyProp.computeTop twiceGraph)).bigMeet values
          (twiceGraph.predecessorEdges n) = some met ∧ ∀ c ∈ met, s.temps c.late = s.temps c.early) ∧
      ∀ picks orders fuel mm',
        CopyProp.postprocess (CopyProp.computeTop twiceGraph) picks orders fuel twiceGraph values = some mm' →
        (mm'.lts noMemory).traces (mm'.entry 0 onlyX) =
          (twiceGraph.lts noMemory).traces (twiceGraph.entry 0 onlyX) := by
  obtain ⟨values, hfix⟩ := CopyProp.exists_fixpoint callTwice_build (by decide)
  exact ⟨values, hfix, copyProp_sound callTwice_ok callTwice_build callTwice_results hfix noMemory onlyX⟩

/-! ## Where the facts fail -/

/-- `a[i].y, x = g(); u, v = h(); return x`. The first two statements behind the call of `g` begin the bounds
check of `a[i]`, and the results are fetched behind it. -/
def crossed : List FlatStmt :=
  [.move (.temp "a") (.temp "_ARG1"), .move (.temp "i") (.temp "_ARG2"),
    .callStmt "_Ig_t2ii" 2 [], .move (.temp "$T1") (.temp "a"), .move (.temp "$T2") (.temp "i"),
    .endBlock (.trueJump (.op .ULT (.temp "$T2") (.mem (.op .SUB (.temp "$T1") (.const 8)))) "$L1"),
    .callStmt "_eta_out_of_bounds" 0 [], .label "$L1",
    .move (.mem (.op .ADD (.mem (.op .ADD (.temp "$T1") (.op .MUL (.temp "$T2") (.const 8)))) (.const 0)))
      (.temp "_RV1"),
    .move (.temp "x") (.temp "_RV2"), .callStmt "_Ih_t2ii" 2 [], .move (.temp "u") (.temp "_RV1"),
    .move (.temp "v") (.temp "_RV2"), .endBlock (.ret [.temp "x"])]

/-- The graph of `crossed`. -/
def crossedGraph : MatchMaker where
  nodes := [.Start "f" "$G1", .mov (.Gets "a" (.Var "_ARG1")) "$G2", .mov (.Gets "i" (.Var "_ARG2")) "$G3",
    .Funcking "_Ig_t2ii" [.Gets "$T1" (.Var "a"), .Gets "$T2" (.Var "i")] [] "$G6",
    .If (.BOp (.Var "$T2") (.Mem (.BOp (.Var "$T1") (.Const 8) .SUB)) .ULT) "$L1" "$G7",
    .Funcking "_eta_out_of_bounds" [] [] "$G8",
    .mov (.Mem (.Mem (.BOp (.Mem (.BOp (.Var "$T1") (.BOp (.Var "$T2") (.Const 8) .MUL) .ADD)) (.Const 0)
      .ADD)) (.Var "_RV1")) "$G9",
    .mov (.Gets "x" (.Var "_RV2")) "$G10",
    .Funcking "_Ih_t2ii" [.Gets "u" (.Var "_RV1"), .Gets "v" (.Var "_RV2")] [] "$G13",
    .Return [.Var "x"]]
  predecessors := ⟨[(1, [(0, false)]), (2, [(1, false)]), (3, [(2, false)]), (4, [(3, false)]),
    (5, [(4, false)]), (6, [(4, true), (5, false)]), (7, [(6, false)]), (8, [(7, false)]), (9, [(8, false)])],
    by decide⟩
  successors := ⟨[(0, ⟨some 1, none⟩), (1, ⟨some 2, none⟩), (2, ⟨some 3, none⟩), (3, ⟨some 4, none⟩),
    (4, ⟨some 5, some 6⟩), (5, ⟨some 6, none⟩), (6, ⟨some 7, none⟩), (7, ⟨some 8, none⟩),
    (8, ⟨some 9, none⟩)], by decide⟩

open CFGBuilder in
/-- It is what `CFGBuilder` makes of it. -/
theorem crossed_build : CFGBuilder.build "f" crossed = some ⟨0, "f", crossedGraph⟩ := by
  simp only [CFGBuilder.build, crossed, loop, createNode, takeMoves, init, pointToNext, addNode,
    translateMove, Option.bind_eq_bind, Option.bind_some, pointName, CFGBuilder.translateExpr,
    List.nil_append, List.cons_append, List.map_nil]
  rfl

namespace CopyProp

/-- At a fixpoint the edges out of a node carry what it makes of the facts it meets. -/
theorem fixpoint_at {top : Finset Copy} {values : Edge → Option (Finset Copy)}
    (hfix : (analysis top).AtFixpoint mm values) (n : ℕ) :
    ∃ met, (analysis top).bigMeet values (mm.predecessorEdges n) = some met ∧
      ∀ e ∈ mm.successorEdges n, values e = some ((met \ kill top mm n) ∪ gen mm n) := by
  obtain ⟨met, newEdges, hmeet, htrans, hvalues⟩ := hfix.holds n
  cases htrans
  exact ⟨met, hmeet, hvalues⟩

/-- The facts that are met at the node and kept there have a variable of the graph on their right. -/
def KeepsVars (top : Finset Copy) (mm : MatchMaker) (values : Edge → Option (Finset Copy)) (n : ℕ) : Prop :=
  ∀ met, (analysis top).bigMeet values (mm.predecessorEdges n) = some met →
    ∀ c ∈ met, c ∉ kill top mm n → c.early ∈ allVars mm

/-- At a fixpoint that passes along the edges. -/
theorem KeepsVars.edge {top : Finset Copy} {values : Edge → Option (Finset Copy)} {p n : ℕ} {jump : Bool}
    (h : KeepsVars top mm values p) (hrep : mm.RepOk) (hfix : (analysis top).AtFixpoint mm values)
    (hedge : mm.Edge p jump n) : KeepsVars top mm values n := by
  intro met hmeet c hc _
  obtain ⟨before, hbefore, hvalues⟩ := fixpoint_at hfix p
  have hwrites : (⟨p, n, jump⟩ : Edge) ∈ mm.successorEdges p :=
    MatchMaker.mem_successorEdges.mpr ⟨rfl, hedge⟩
  have hreads : (⟨p, n, jump⟩ : Edge) ∈ mm.predecessorEdges n := hrep.mem_predecessorEdges.mpr ⟨rfl, hedge⟩
  obtain ⟨info, hinfo, hle⟩ := CFGFlow.bigMeet_rel (r := (· ⊆ ·)) (fun _ => subset_rfl)
    (fun _ _ _ => Finset.Subset.trans) (fun _ _ => Finset.inter_subset_left)
    (fun _ _ => Finset.inter_subset_right) hmeet hreads
  cases (hvalues _ hwrites).symm.trans hinfo
  rcases Finset.mem_union.mp (hle hc) with hc | hc
  · obtain ⟨hc, hkill⟩ := Finset.mem_sdiff.mp hc
    exact h before hbefore c hc hkill
  · exact mem_allVars.mpr ⟨p, MatchMaker.mem_allNodes_of_edge hedge,
      Finset.mem_union_left _ (mem_gen hc).2⟩

/-- Two variables that nodes define are a pair of the top value. -/
theorem defs_mem_computeTop (mm : MatchMaker) {x y : String} {n k : ℕ} (hn : n ∈ mm.allNodes)
    (hx : x ∈ mm.defsAt n) (hk : k ∈ mm.allNodes) (hy : y ∈ mm.defsAt k) (hne : x ≠ y) :
    (⟨x, y⟩ : Copy) ∈ computeTop mm :=
  mem_computeTop.mpr ⟨def_mem_allVars hn hx, def_mem_allVars hk hy, hne⟩

/-- A node kills the facts about a variable it defines. -/
theorem mem_kill (mm : MatchMaker) {top : Finset Copy} {x y : String} {n : ℕ} (hn : n ∈ mm.allNodes)
    (hx : x ∈ mm.defsAt n) (hy : y ∈ allVars mm) : (⟨x, y⟩ : Copy) ∈ kill top mm n := by
  by_contra hkill
  have hx' : x ∈ allVars mm := mem_allVars.mpr ⟨n, hn, Finset.mem_union_right _ hx⟩
  exact (not_defs_of_not_kill (c := ⟨x, y⟩) hx' hy hkill).1 hx

variable {top : Finset Copy} {values : Edge → Option (Finset Copy)}

/-- The facts on the way to the second call have variables of the graph on their right. -/
theorem crossed_vars (hfix : (analysis top).AtFixpoint crossedGraph values) :
    KeepsVars top crossedGraph values 7 := by
  have hrep := CFGBuilder.build_repOk crossed_build
  have hstart : KeepsVars top crossedGraph values 0 := by
    intro met hmeet c hc hkill
    cases hmeet
    exact (hkill hc).elim
  have h1 := hstart.edge hrep hfix (show crossedGraph.Edge 0 false 1 from rfl)
  have h2 := h1.edge hrep hfix (show crossedGraph.Edge 1 false 2 from rfl)
  have h3 := h2.edge hrep hfix (show crossedGraph.Edge 2 false 3 from rfl)
  have h4 := h3.edge hrep hfix (show crossedGraph.Edge 3 false 4 from rfl)
  have h6 := h4.edge hrep hfix (show crossedGraph.Edge 4 true 6 from rfl)
  exact h6.edge hrep hfix (show crossedGraph.Edge 6 false 7 from rfl)

/-- The one fact about `x` that is met at the return of `crossed` says that it equals the result temp. -/
theorem crossed_met (hfix : (analysis top).AtFixpoint crossedGraph values) :
    ∃ met, (analysis top).bigMeet values (crossedGraph.predecessorEdges 9) = some met ∧
      ∀ y, (⟨"x", y⟩ : Copy) ∈ met ↔ y = "_RV2" := by
  have hsingle : ∀ e, (analysis top).bigMeet values [e] = values e := by
    intro e
    show ((values e).bind fun v => some [v]).map _ = _
    cases values e <;> rfl
  have hvars : KeepsVars top crossedGraph values 7 := crossed_vars hfix
  obtain ⟨before, hbefore, hvalues⟩ := fixpoint_at hfix 7
  have hassign := hvalues ⟨7, 8, false⟩ List.mem_cons_self
  obtain ⟨assigned, hassigned, hvalues⟩ := fixpoint_at hfix 8
  have hcall := hvalues ⟨8, 9, false⟩ List.mem_cons_self
  have hreads : (analysis top).bigMeet values [⟨7, 8, false⟩] = some assigned := hassigned
  rw [hsingle, hassign, Option.some.injEq] at hreads
  refine ⟨_, (hsingle ⟨8, 9, false⟩).trans hcall, fun y => ?_⟩
  -- The assignment drops every other fact about `x`, and the call of `h` keeps the one it makes.
  have hgen : (⟨"x", y⟩ : Copy) ∈ gen crossedGraph 7 ↔ (⟨"x", y⟩ : Copy) = ⟨"x", "_RV2"⟩ :=
    Finset.mem_singleton
  have hdef : "x" ∈ crossedGraph.defsAt 7 := Finset.mem_singleton_self _
  have hnode : 7 ∈ crossedGraph.allNodes := by decide
  have hdropped : (⟨"x", y⟩ : Copy) ∈ before → (⟨"x", y⟩ : Copy) ∈ kill top crossedGraph 7 := by
    intro hmem
    by_contra hkill
    exact hkill (mem_kill crossedGraph hnode hdef (hvars before hbefore ⟨"x", y⟩ hmem hkill))
  have hkept : (⟨"x", "_RV2"⟩ : Copy) ∉ kill top crossedGraph 8 :=
    not_kill (by simp [crossedGraph]) (by decide) (by decide)
  rw [Finset.mem_union, Finset.mem_sdiff, ← hreads, Finset.mem_union, Finset.mem_sdiff, hgen, Copy.mk.injEq]
  constructor
  · rintro (⟨⟨hmem, hkill⟩ | ⟨-, hy⟩, -⟩ | hc)
    · exact (hkill (hdropped hmem)).elim
    · exact hy
    · exact (Finset.notMem_empty _ hc).elim
  · rintro rfl
    exact .inl ⟨.inr ⟨rfl, rfl⟩, hkept⟩

/-- One call of `propagateEqualVars` returns the result temp in place of `x`. -/
theorem crossed_round {order : ℕ → SetOrder} {mm' : MatchMaker} {changed : List ℕ}
    (hfix : (analysis top).AtFixpoint crossedGraph values)
    (h : propagateEqualVars top order values crossedGraph = some (mm', changed)) :
    mm'.nodes[9]? = some (.Return [.Var "_RV2"]) := by
  obtain ⟨met, hmeet, hx⟩ := crossed_met hfix
  obtain ⟨-, -, hrewrites, -⟩ := propagateEqualVars_spec h
  obtain ⟨met', hmeet', hnode, -⟩ := hrewrites 9 (by decide)
  cases hmeet.symm.trans hmeet'
  rw [hnode]
  have hfind : ((order 9).find met "x").map Copy.early = some "_RV2" := by
    cases hfound : (order 9).find met "x" with
    | none => exact ((order 9).find_none hfound _ ((hx "_RV2").mpr rfl) rfl).elim
    | some c =>
      obtain ⟨hc, hlate⟩ := (order 9).find_mem hfound
      obtain ⟨late, early⟩ := c
      cases hlate
      rw [(hx early).mp hc]
      rfl
  show some (rewriteNode ((order 9).find met) (.Return [.Var "x"])).1 = _
  simp [rewriteNode, replaceVars, replaceVar, hfind]

end CopyProp

/-- A storage in which every word is 1. -/
def allOnes : Storage Unit := ⟨fun _ => 0, fun _ _ => some 1, fun _ _ _ => some ()⟩

/-- A run of `crossed` in which `g` returns 1 and 2, and `h` returns 3 and 4. -/
theorem crossed_run : ∃ s, (crossedGraph.lts allOnes).Reachable
    (crossedGraph.entry 0 ⟨fun _ => 0, ()⟩) (crossedGraph.entry 9 s) ∧ s.temps "x" ≠ s.temps "_RV2" := by
  have hg : ∀ s : Store Unit, Exec allOnes (.callStmt "_Ig_t2ii" 2 []) s (.call "_Ig_t2ii" [] [1, 2] ())
      ⟨setReturns 1 [1, 2] s.temps, ()⟩ := fun s => .call rfl rfl
  have hh : ∀ s : Store Unit, Exec allOnes (.callStmt "_Ih_t2ii" 2 []) s (.call "_Ih_t2ii" [] [3, 4] ())
      ⟨setReturns 1 [3, 4] s.temps, ()⟩ := fun s => .call rfl rfl
  refine ⟨_, ⟨_, .silent (.leave (m := 1) rfl rfl) <| .event (.exec (.moveTemp rfl)) <|
    .silent (.leave (m := 2) rfl rfl) <| .event (.exec (.moveTemp rfl)) <|
    .silent (.leave (m := 3) rfl rfl) <| .event (.exec (hg _)) <| .event (.exec (.moveTemp rfl)) <|
    .event (.exec (.moveTemp rfl)) <| .silent (.leave (m := 4) rfl rfl) <|
    .silent (.leave (m := 6) rfl rfl) <| .event (.exec (.moveMem rfl rfl rfl)) <|
    .silent (.leave (m := 7) rfl rfl) <| .event (.exec (.moveTemp rfl)) <|
    .silent (.leave (m := 8) rfl rfl) <| .event (.exec (hh _)) <| .event (.exec (.moveTemp rfl)) <|
    .event (.exec (.moveTemp rfl)) <| .silent (.leave (m := 9) rfl rfl) (.refl _)⟩, ?_⟩
  decide

/-- The facts on `crossed` are not all true. At `Start` all pairs of variables are met, equal or not. At the
return `x` is said to equal a result of `h`, and is replaced by it. -/
theorem crossed_unsound :
    CFGBuilder.build "f" crossed = some ⟨0, "f", crossedGraph⟩ ∧
    ∃ values, (CopyProp.analysis (CopyProp.computeTop crossedGraph)).AtFixpoint crossedGraph values ∧
      (∃ met s, (CopyProp.analysis (CopyProp.computeTop crossedGraph)).bigMeet values
          (crossedGraph.predecessorEdges 0) = some met ∧ (⟨"x", "$T1"⟩ : Copy) ∈ met ∧
        (crossedGraph.lts allOnes).Reachable (crossedGraph.entry 0 s) (crossedGraph.entry 0 s) ∧
        s.temps "x" ≠ s.temps "$T1") ∧
      (∃ met s s', (CopyProp.analysis (CopyProp.computeTop crossedGraph)).bigMeet values
          (crossedGraph.predecessorEdges 9) = some met ∧ (⟨"x", "_RV2"⟩ : Copy) ∈ met ∧
        (crossedGraph.lts allOnes).Reachable (crossedGraph.entry 0 s) (crossedGraph.entry 9 s') ∧
        s'.temps "x" ≠ s'.temps "_RV2") ∧
      ∀ order mm' changed, CopyProp.propagateEqualVars (CopyProp.computeTop crossedGraph) order values
          crossedGraph = some (mm', changed) → mm'.nodes[9]? = some (.Return [.Var "_RV2"]) := by
  obtain ⟨values, hfix⟩ := CopyProp.exists_fixpoint crossed_build (by decide +kernel)
  obtain ⟨met, hmeet, hx⟩ := CopyProp.crossed_met hfix
  obtain ⟨s, hreach, hne⟩ := crossed_run
  have hpair := CopyProp.defs_mem_computeTop crossedGraph (x := "x") (y := "$T1") (n := 7) (k := 3) (by decide)
    (Finset.mem_singleton_self _) (by decide) (by decide) (by decide)
  refine ⟨crossed_build, values, hfix, ⟨_, onlyX, rfl, hpair, .refl _, by decide⟩,
    ⟨met, _, s, hmeet, (hx "_RV2").mpr rfl, hreach, hne⟩, fun order mm' changed h => ?_⟩
  exact CopyProp.crossed_round hfix h

end Jaek
