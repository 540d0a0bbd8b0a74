import Jaek.Optimize.Dataflow.CopyProp
import Jaek.Optimize.Dataflow.DeadCodeRem

/-!
# When the passes solve with a fixpoint

The runs of the two passes over one graph: a solver run, and after each edit of the graph a run with the
nodes the pass reports.
-/

namespace Jaek

/-- The values of dead code removal along a pass whose solver runs all empty their lists and which leaves
no removed node behind. -/
inductive DeadCodeRem.Orderly (start : MatchMaker) : MatchMaker → Solver (Finset String) → Prop
  | run {picks : ℕ → ℕ} {s : Solver (Finset String)} :
      analysis.run start picks (fun _ => none) = some s → s.worklist = [] → Orderly start start s
  | delete {mm mm' : MatchMaker} {s s' : Solver (Finset String)} {b : ℕ} {wklist : List ℕ}
      {picks : ℕ → ℕ} : Orderly start mm s →
      firstDead mm s.values mm.predecessors.keys = some (some b) →
      deleteDeadAssigns mm s.values = some (mm', wklist) → ¬ LeftBehind mm s.values b →
      analysis.runWithWorklist mm' picks wklist s.values = some s' → s'.worklist = [] →
      Orderly start mm' s'

/-- One or two calls of `propagateEqualVars` with the same values; `changed` is what the last one reports. -/
inductive CopyProp.Calls (top : Finset Copy) (values : Edge → Option (Finset Copy)) (mm : MatchMaker) :
    MatchMaker → List ℕ → Prop
  | one {order : ℕ → SetOrder} {mm' : MatchMaker} {changed : List ℕ} :
      propagateEqualVars top order values mm = some (mm', changed) → Calls top values mm mm' changed
  | two {order order' : ℕ → SetOrder} {mm₁ mm' : MatchMaker} {changed₁ changed : List ℕ} :
      propagateEqualVars top order values mm = some (mm₁, changed₁) →
      propagateEqualVars top order' values mm₁ = some (mm', changed) →
      Calls top values mm mm' changed

/-- The values of copy propagation along a pass whose solver runs all empty their lists and in which the
nodes outside each list pass on what they did before the rewriting. -/
inductive CopyProp.Orderly (start : MatchMaker) : MatchMaker → Solver (Finset Copy) → Prop
  | run {picks : ℕ → ℕ} {s : Solver (Finset Copy)} :
      (analysis (computeTop start)).run start picks (fun _ => none) = some s → s.worklist = [] →
      Orderly start start s
  | round {mm mm' : MatchMaker} {s s' : Solver (Finset Copy)} {changed : List ℕ} {picks : ℕ → ℕ} :
      Orderly start mm s → Calls (computeTop start) s.values mm mm' changed →
      (∀ n, n ∉ changed → ¬ Stale (computeTop start) mm mm' s.values n) →
      (analysis (computeTop start)).runWithWorklist mm' picks changed s.values = some s' →
      s'.worklist = [] → Orderly start mm' s'

/-- One or two calls keep the edges, and report no node twice. -/
theorem CopyProp.Calls.sameEdges {top : Finset Copy} {values : Edge → Option (Finset Copy)}
    {mm mm' : MatchMaker} {changed : List ℕ} (h : Calls top values mm mm' changed) :
    SameEdges mm mm' ∧ changed.Nodup := by
  cases h with
  | one hcall =>
    obtain ⟨hsame, hnodup, -⟩ := propagateEqualVars_spec hcall
    exact ⟨hsame, hnodup⟩
  | two hcall₁ hcall₂ =>
    obtain ⟨hsame₁, -⟩ := propagateEqualVars_spec hcall₁
    obtain ⟨hsame₂, hnodup, -⟩ := propagateEqualVars_spec hcall₂
    exact ⟨hsame₁.trans hsame₂, hnodup⟩

/-- An edge leads to a node of the graph. -/
theorem MatchMaker.RepOk.node_mem {mm : MatchMaker} (hrep : mm.RepOk) {e : Jaek.Edge}
    (he : e ∈ mm.edges) : e.node ∈ mm.allNodes := by
  have hmem := (hrep.mem_into e.src e.jump e.node).mpr (MatchMaker.mem_edges.mp he)
  have hkey : e.node ∈ mm.predecessors.keys := by
    rw [LinkedMap.mem_keys_iff, Option.isSome_iff_ne_none]
    intro hnone
    rw [MatchMaker.into, hnone] at hmem
    cases hmem
  exact List.mem_append_left _ hkey

section Run

variable {P : Type} [DecidableEq P] {A : CFGFlow (Finset P)} {mm : MatchMaker} {all : Finset P}
  {kill gen : ℕ → Finset P} {picks : ℕ → ℕ} {s : Solver (Finset P)}

/-- A run over all nodes returns a fixpoint but for the nodes it leaves on its list. -/
theorem CFGFlow.run_fixpoint_iff (h : A.IsGenKill mm all kill gen) (hrep : mm.RepOk)
    (hrun : A.run mm picks (fun _ => none) = some s) :
    A.AtFixpoint mm s.values ↔ ∀ n ∈ s.worklist, A.Holds mm s.values n := by
  have hfilled : Filled mm ⟨mm.allNodes, A.fill mm fun _ => none⟩ :=
    fill_filled MatchMaker.allNodes_nodup _
  have hstart : ∀ n, n ∉ mm.allNodes → A.Holds mm (A.fill mm fun _ => none) n := by
    intro n hn
    refine h.holds_of_writes hrep hfilled (List.eq_nil_iff_forall_not_mem.mpr fun e he => hn ?_)
    obtain ⟨hwriter, hedge⟩ := (mem_writes_iff hrep).mp he
    split_ifs at hwriter
    · exact hwriter ▸ MatchMaker.mem_allNodes_of_edge (MatchMaker.mem_edges.mp hedge)
    · exact hwriter ▸ hrep.node_mem hedge
  obtain ⟨hfilled', hholds⟩ := loop_holds hrep hfilled hstart hrun
  constructor
  · exact fun hfix n _ => hfix.holds n
  · intro hleft
    refine ⟨hfilled'.isSome, fun n => ?_⟩
    by_cases hn : n ∈ s.worklist
    · exact hleft n hn
    · exact hholds n hn

/-- A run that empties its list returns a fixpoint. -/
theorem CFGFlow.run_fixpoint (h : A.IsGenKill mm all kill gen) (hrep : mm.RepOk)
    (hrun : A.run mm picks (fun _ => none) = some s) (hempty : s.worklist = []) :
    A.AtFixpoint mm s.values :=
  (run_fixpoint_iff h hrep hrun).mpr (by simp [hempty])

end Run

/-- Every state of an orderly run of dead code removal is a fixpoint, by induction over its edits. -/
theorem DeadCodeRem.Orderly.fixpoint {start mm : MatchMaker} {s : Solver (Finset String)}
    (hok : GraphOk start) (h : Orderly start mm s) : GraphOk mm ∧ analysis.AtFixpoint mm s.values := by
  induction h with
  | run hrun hempty => exact ⟨hok, CFGFlow.run_fixpoint (isGenKill start) hok.repOk hrun hempty⟩
  | delete _ hdead hdelete hnot hrun hempty ih =>
    obtain ⟨hok', hiff⟩ := delete_fixpoint_iff ih.1 ih.2 hdead hdelete hrun hempty
    exact ⟨hok', hiff.mpr hnot⟩

/-- So is every state of an orderly run of copy propagation. -/
theorem CopyProp.Orderly.fixpoint {start mm : MatchMaker} {s : Solver (Finset Copy)}
    (hrep : start.RepOk) (h : Orderly start mm s) :
    mm.RepOk ∧ (analysis (computeTop start)).AtFixpoint mm s.values := by
  induction h with
  | run hrun hempty => exact ⟨hrep, CFGFlow.run_fixpoint (isGenKill start) hrep hrun hempty⟩
  | round _ hcalls hkept hrun hempty ih =>
    obtain ⟨hsame, hnodup⟩ := hcalls.sameEdges
    exact ⟨hsame.repOk ih.1, (round_fixpoint ih.1 ih.2 hsame hnodup hrun hempty).1 hkept⟩

/-- When the values the solver leaves behind are a fixpoint: after a run, where the nodes left on the list
satisfy their equations; after a deletion, unless the removed node is left behind; after a rewriting, where
the nodes outside the list pass on what they did before. -/
theorem solver_fixpoint {name : String} {block : List FlatStmt} {cfg : CFG}
    (hok : CFGBuilder.BodyOk block) (hbuild : CFGBuilder.build name block = some cfg) :
    (∀ picks s, DeadCodeRem.analysis.run cfg.mm picks (fun _ => none) = some s →
      (DeadCodeRem.analysis.AtFixpoint cfg.mm s.values ↔
        ∀ n ∈ s.worklist, DeadCodeRem.analysis.Holds cfg.mm s.values n) ∧
      (cfg.mm.allNodes.length + cfg.mm.edges.toFinset.card * (DeadCodeRem.vars cfg.mm).card ≤ THRESHOLD →
        s.worklist = [])) ∧
    (∀ picks s, (CopyProp.analysis (CopyProp.computeTop cfg.mm)).run cfg.mm picks (fun _ => none) = some s →
      ((CopyProp.analysis (CopyProp.computeTop cfg.mm)).AtFixpoint cfg.mm s.values ↔
        ∀ n ∈ s.worklist, (CopyProp.analysis (CopyProp.computeTop cfg.mm)).Holds cfg.mm s.values n) ∧
      (cfg.mm.allNodes.length + cfg.mm.edges.toFinset.card * (CopyProp.pairs cfg.mm).card ≤ THRESHOLD →
        s.worklist = [])) ∧
    (∀ mm s, DeadCodeRem.Orderly cfg.mm mm s → DeadCodeRem.analysis.AtFixpoint mm s.values ∧
      ∀ b mm' wklist picks s', DeadCodeRem.firstDead mm s.values mm.predecessors.keys = some (some b) →
        DeadCodeRem.deleteDeadAssigns mm s.values = some (mm', wklist) →
        DeadCodeRem.analysis.runWithWorklist mm' picks wklist s.values = some s' → s'.worklist = [] →
        (DeadCodeRem.analysis.AtFixpoint mm' s'.values ↔ ¬ DeadCodeRem.LeftBehind mm s.values b)) ∧
    ∀ mm s, CopyProp.Orderly cfg.mm mm s →
      (CopyProp.analysis (CopyProp.computeTop cfg.mm)).AtFixpoint mm s.values ∧
      ∀ mm' picks s', CopyProp.Calls (CopyProp.computeTop cfg.mm) s.values mm mm' [] →
        (CopyProp.analysis (CopyProp.computeTop cfg.mm)).runWithWorklist mm' picks [] s.values = some s' →
        s'.worklist = [] →
        ((CopyProp.analysis (CopyProp.computeTop cfg.mm)).AtFixpoint mm' s'.values ↔
          ∀ n, ¬ CopyProp.Stale (CopyProp.computeTop cfg.mm) mm mm' s.values n) := by
  have hgraph := DeadCodeRem.build_graphOk hok hbuild
  have hrep := hgraph.repOk
  refine ⟨fun picks s hrun => ⟨?_, fun hsize => ?_⟩, fun picks s hrun => ⟨?_, fun hsize => ?_⟩,
    fun mm s h => ⟨(h.fixpoint hgraph).2, ?_⟩, fun mm s h => ⟨(h.fixpoint hrep).2, ?_⟩⟩
  · exact CFGFlow.run_fixpoint_iff (DeadCodeRem.isGenKill cfg.mm) hrep hrun
  · exact (DeadCodeRem.isGenKill cfg.mm).run_empties hrep hsize hrun
  · exact CFGFlow.run_fixpoint_iff (CopyProp.isGenKill cfg.mm) hrep hrun
  · exact (CopyProp.isGenKill cfg.mm).run_empties hrep hsize hrun
  · intro b mm' wklist picks s' hdead hdelete hrun hempty
    obtain ⟨hok', hfix⟩ := h.fixpoint hgraph
    exact (DeadCodeRem.delete_fixpoint_iff hok' hfix hdead hdelete hrun hempty).2
  · intro mm' picks s' hcalls hrun hempty
    obtain ⟨hrep', hfix⟩ := h.fixpoint hrep
    obtain ⟨hsame, hnodup⟩ := hcalls.sameEdges
    obtain ⟨hto, hfrom⟩ := CopyProp.round_fixpoint hrep' hfix hsame hnodup hrun hempty
    exact ⟨hfrom rfl, fun hkept => hto fun n _ => hkept n⟩

/-! ## A body that keeps it -/

/-- `y := z; x := y; return w`. -/
def deadChain : List FlatStmt :=
  [.move (.temp "y") (.temp "z"), .move (.temp "x") (.temp "y"), .endBlock (.ret [.temp "w"])]

/-- The graph of `deadChain`. -/
def chainGraph : MatchMaker where
  nodes := [.Start "f" "$G1", .mov (.Gets "y" (.Var "z")) "$G2", .mov (.Gets "x" (.Var "y")) "$G3",
    .Return [.Var "w"]]
  predecessors := ⟨[(1, [(0, false)]), (2, [(1, false)]), (3, [(2, false)])], by decide⟩
  successors := ⟨[(0, ⟨some 1, none⟩), (1, ⟨some 2, none⟩), (2, ⟨some 3, none⟩)], by decide⟩

open CFGBuilder in
/-- It is what `CFGBuilder` makes of it. -/
theorem deadChain_build : CFGBuilder.build "f" deadChain = some ⟨0, "f", chainGraph⟩ := by
  simp only [CFGBuilder.build, deadChain, loop, createNode, init, pointToNext, addNode, translateMove,
    Option.bind_eq_bind, Option.bind_some, pointName, CFGBuilder.translateExpr, List.nil_append,
    List.cons_append]
  rfl

/-- The body is what the pipeline hands to `CFGBuilder`. -/
theorem deadChain_ok : CFGBuilder.BodyOk deadChain where
  nodup := by decide
  targets := by simp [deadChain, EndBlock.targets]
  names := by simp [deadChain]

/-- No jump leads anywhere in the graph. -/
theorem chainGraph_jumpingTo (p : ℕ) : chainGraph.jumpingTo p = none := by
  match p with
  | 0 => rfl
  | 1 => rfl
  | 2 => rfl
  | _ + 3 => rfl

/-- The facts about a variable in the order of the other variable's name. -/
def alphabetical : SetOrder where
  find copies x :=
    match ((copies.filter fun c => c.late = x).image Copy.early).min with
    | none => none
    | some y => some ⟨x, y⟩
  find_mem := by
    intro copies x c h
    split at h
    · cases h
    · rename_i y hy
      cases h
      obtain ⟨⟨late, early⟩, hc, rfl⟩ := Finset.mem_image.mp (Finset.mem_of_min hy)
      have hc := Finset.mem_filter.mp hc
      cases hc.2
      exact ⟨hc.1, rfl⟩
  find_none := by
    intro copies x h c hc hlate
    split at h
    · rename_i htop
      have hempty := Finset.min_eq_top.mp htop
      have hmem : c.early ∈ (copies.filter fun c => c.late = x).image Copy.early :=
        Finset.mem_image_of_mem _ (Finset.mem_filter.mpr ⟨hc, hlate⟩)
      rw [hempty] at hmem
      cases hmem
    · cases h

/-- A run over the graph, the deletion of `x := y` and a run after it, of twelve iterations each. After them
`y := z` is dead. -/
def deadChainTrial : Option (Option (Option ℕ) × List ℕ × List ℕ × Option (Option ℕ)) := do
  let s ← DeadCodeRem.analysis.loop chainGraph (fun _ => 0)
    ⟨chainGraph.allNodes, DeadCodeRem.analysis.fill chainGraph fun _ => none⟩ 12
  let (mm', wklist) ← DeadCodeRem.deleteDeadAssigns chainGraph s.values
  let s' ← DeadCodeRem.analysis.loop mm' (fun _ => 0)
    ⟨wklist, DeadCodeRem.analysis.fill mm' s.values⟩ 12
  some (DeadCodeRem.firstDead chainGraph s.values chainGraph.predecessors.keys, s.worklist, s'.worklist,
    DeadCodeRem.firstDead mm' s'.values mm'.predecessors.keys)

/-- A run over the graph, a call of `propagateEqualVars` that turns `x := y` into `x := z`, a run after it and
a call that finds nothing more. -/
def copyChainTrial : Option (List (List ℕ) × Finset String × List (List CFGNode)) := do
  let s ← (CopyProp.analysis (CopyProp.computeTop chainGraph)).loop chainGraph (fun _ => 0)
    ⟨chainGraph.allNodes, (CopyProp.analysis (CopyProp.computeTop chainGraph)).fill chainGraph
      fun _ => none⟩ 12
  let (mm', changed) ← CopyProp.propagateEqualVars (CopyProp.computeTop chainGraph)
    (fun _ => alphabetical) s.values chainGraph
  let s' ← (CopyProp.analysis (CopyProp.computeTop chainGraph)).loop mm' (fun _ => 0)
    ⟨changed, (CopyProp.analysis (CopyProp.computeTop chainGraph)).fill mm' s.values⟩ 12
  let (mm₂, rest) ← CopyProp.propagateEqualVars (CopyProp.computeTop chainGraph)
    (fun _ => alphabetical) s'.values mm'
  some ([s.worklist, changed, s'.worklist, rest], CopyProp.allVars mm', [mm'.nodes, mm₂.nodes])

/-- The nodes after the first call. -/
def propagatedNodes : List CFGNode := chainGraph.nodes.set 2 (.mov (.Gets "x" (.Var "z")) "$G3")

/-- What the trial gives. -/
theorem deadChainTrial_eq : deadChainTrial = some (some (some 2), [], [], some (some 1)) := by
  decide

/-- What the trial gives. -/
theorem copyChainTrial_eq : copyChainTrial =
    some ([[], [2], [], []], CopyProp.allVars chainGraph, [propagatedNodes, propagatedNodes]) := by
  decide

/-- So no removed node is left behind. -/
theorem chainGraph_not_leftBehind (values : Edge → Option (Finset String)) (b : ℕ) :
    ¬ DeadCodeRem.LeftBehind chainGraph values b := by
  rintro ⟨⟨p, -, hjump⟩, -⟩
  rw [chainGraph_jumpingTo] at hjump
  cases hjump

/-- The body keeps the fixpoint: a run, a deletion and the run after it in dead code removal, and two rounds
of copy propagation, the last of which rewrites nothing. -/
theorem deadChain_fixpoint :
    (∃ s mm' wklist s', DeadCodeRem.analysis.run chainGraph (fun _ => 0) (fun _ => none) = some s ∧
      DeadCodeRem.analysis.AtFixpoint chainGraph s.values ∧
      DeadCodeRem.deleteDeadAssigns chainGraph s.values = some (mm', wklist) ∧
      DeadCodeRem.analysis.runWithWorklist mm' (fun _ => 0) wklist s.values = some s' ∧
      DeadCodeRem.analysis.AtFixpoint mm' s'.values) ∧
    ∃ s mm' s', (CopyProp.analysis (CopyProp.computeTop chainGraph)).run chainGraph (fun _ => 0)
        (fun _ => none) = some s ∧
      (CopyProp.analysis (CopyProp.computeTop chainGraph)).AtFixpoint chainGraph s.values ∧
      CopyProp.Calls (CopyProp.computeTop chainGraph) s.values chainGraph mm' [2] ∧
      (CopyProp.analysis (CopyProp.computeTop chainGraph)).runWithWorklist mm' (fun _ => 0) [2] s.values =
        some s' ∧
      CopyProp.Calls (CopyProp.computeTop chainGraph) s'.values mm' mm' [] ∧
      ∃ s₂, (CopyProp.analysis (CopyProp.computeTop chainGraph)).runWithWorklist mm' (fun _ => 0) []
          s'.values = some s₂ ∧
        (CopyProp.analysis (CopyProp.computeTop chainGraph)).AtFixpoint mm' s₂.values := by
  have hlimit : 12 ≤ THRESHOLD := by decide
  obtain ⟨hdeadRun, hcopyRun, hdeletes, hrounds⟩ := solver_fixpoint deadChain_ok deadChain_build
  constructor
  · have htrial := deadChainTrial_eq
    unfold deadChainTrial at htrial
    obtain ⟨s, hrun, htrial⟩ := Option.bind_eq_some_iff.mp htrial
    obtain ⟨⟨mm', wklist⟩, hdelete, htrial⟩ := Option.bind_eq_some_iff.mp htrial
    obtain ⟨s', hrun', htrial⟩ := Option.bind_eq_some_iff.mp htrial
    simp only [Option.some.injEq, Prod.mk.injEq] at htrial
    obtain ⟨hdead, hempty, hempty', -⟩ := htrial
    have hrun := CFGFlow.runWithWorklist_of_empty hrun hempty hlimit
    have hrun' := CFGFlow.runWithWorklist_of_empty hrun' hempty' hlimit
    have hiff := (hdeletes _ s (.run hrun hempty)).2 2 mm' wklist (fun _ => 0) s' hdead hdelete hrun' hempty'
    exact ⟨s, mm', wklist, s', hrun, (hdeadRun _ s hrun).1.mpr (by simp [hempty]), hdelete, hrun',
      hiff.mpr (chainGraph_not_leftBehind _ _)⟩
  · have htrial := copyChainTrial_eq
    unfold copyChainTrial at htrial
    obtain ⟨s, hrun, htrial⟩ := Option.bind_eq_some_iff.mp htrial
    obtain ⟨⟨mm', changed⟩, hcall, htrial⟩ := Option.bind_eq_some_iff.mp htrial
    obtain ⟨s', hrun', htrial⟩ := Option.bind_eq_some_iff.mp htrial
    obtain ⟨⟨mm₂, rest⟩, hcall₂, htrial⟩ := Option.bind_eq_some_iff.mp htrial
    simp only [Option.some.injEq, Prod.mk.injEq, List.cons.injEq, and_true] at htrial
    obtain ⟨⟨hempty, rfl, hempty', rfl⟩, hvars, hnodes, hnodes₂⟩ := htrial
    have hrun := CFGFlow.runWithWorklist_of_empty hrun hempty hlimit
    have hrun' := CFGFlow.runWithWorklist_of_empty hrun' hempty' hlimit
    have hkept : ∀ n, n ∉ [2] →
        ¬ CopyProp.Stale (CopyProp.computeTop chainGraph) chainGraph mm' s.values n := by
      intro n hn
      refine CopyProp.not_stale ?_ hvars
      rw [hnodes, propagatedNodes, List.getElem?_set_ne (fun h => hn (by simp [h]))]
    -- the second call changes neither the edges nor the nodes
    have hsame : mm₂ = mm' := by
      obtain ⟨hpred, hsucc⟩ := (CopyProp.Calls.one hcall₂).sameEdges.1
      cases mm₂
      cases mm'
      simp only at hpred hsucc hnodes hnodes₂
      rw [hpred, hsucc, hnodes, hnodes₂]
    subst hsame
    have hround := CopyProp.Orderly.round (.run hrun hempty) (.one hcall) hkept hrun' hempty'
    have hrun₂ : (CopyProp.analysis (CopyProp.computeTop chainGraph)).runWithWorklist mm₂ (fun _ => 0) []
        s'.values = some ⟨[], _⟩ := CFGFlow.runWithWorklist_of_empty (k := 0) rfl rfl (Nat.zero_le _)
    have hiff := (hrounds mm₂ s' hround).2 mm₂ (fun _ => 0) _ (.one hcall₂) hrun₂ rfl
    exact ⟨s, mm₂, s', hrun, (hcopyRun _ s hrun).1.mpr (by simp [hempty]), .one hcall, hrun', .one hcall₂, _,
      hrun₂, hiff.mpr fun n => CopyProp.not_stale rfl rfl⟩

/-! ## Two passes that lose it -/

/-- `y := z; x := y; return y`. -/
def copyChain : List FlatStmt :=
  [.move (.temp "y") (.temp "z"), .move (.temp "x") (.temp "y"), .endBlock (.ret [.temp "y"])]

/-- The graph of `copyChain`. -/
def copyGraph : MatchMaker where
  nodes := [.Start "f" "$G1", .mov (.Gets "y" (.Var "z")) "$G2", .mov (.Gets "x" (.Var "y")) "$G3",
    .Return [.Var "y"]]
  predecessors := ⟨[(1, [(0, false)]), (2, [(1, false)]), (3, [(2, false)])], by decide⟩
  successors := ⟨[(0, ⟨some 1, none⟩), (1, ⟨some 2, none⟩), (2, ⟨some 3, none⟩)], by decide⟩

open CFGBuilder in
/-- It is what `CFGBuilder` makes of it. -/
theorem copyChain_build : CFGBuilder.build "f" copyChain = some ⟨0, "f", copyGraph⟩ := by
  simp only [CFGBuilder.build, copyChain, loop, createNode, init, pointToNext, addNode, translateMove,
    Option.bind_eq_bind, Option.bind_some, pointName, CFGBuilder.translateExpr, List.nil_append,
    List.cons_append]
  rfl

/-- The body is what the pipeline hands to `CFGBuilder`. -/
theorem copyChain_ok : CFGBuilder.BodyOk copyChain where
  nodup := by decide
  targets := by simp [copyChain, EndBlock.targets]
  names := by simp [copyChain]

/-- `if [0] goto L1; L1: x := z; return w`: both edges of the `If` lead to the dead assignment. -/
def deadBranch : List FlatStmt :=
  [.endBlock (.trueJump (.mem (.const 0)) "$L1"), .label "$L1", .move (.temp "x") (.temp "z"),
    .endBlock (.ret [.temp "w"])]

/-- The graph of `deadBranch`. -/
def deadGraph : MatchMaker where
  nodes := [.Start "f" "$G1", .If (.Mem (.Const 0)) "$L1" "$G2", .mov (.Gets "x" (.Var "z")) "$G3",
    .Return [.Var "w"]]
  predecessors := ⟨[(1, [(0, false)]), (2, [(1, false), (1, true)]), (3, [(2, false)])], by decide⟩
  successors := ⟨[(0, ⟨some 1, none⟩), (1, ⟨some 2, some 2⟩), (2, ⟨some 3, none⟩)], by decide⟩

open CFGBuilder in
/-- It is what `CFGBuilder` makes of it. -/
theorem deadBranch_build : CFGBuilder.build "f" deadBranch = some ⟨0, "f", deadGraph⟩ := by
  simp only [CFGBuilder.build, deadBranch, loop, createNode, init, pointToNext, addNode, translateMove,
    Option.bind_eq_bind, Option.bind_some, pointName, CFGBuilder.translateExpr, List.nil_append,
    List.cons_append]
  rfl

open CFGBuilder in
/-- The body is what the pipeline hands to `CFGBuilder`. -/
theorem deadBranch_ok : BodyOk deadBranch where
  nodup := by decide
  targets := by simp [deadBranch, EndBlock.targets, labels]
  names := by
    intro l hl k
    have hlabels : ∀ l ∈ labels deadBranch, l.toList[1]? ≠ some 'G' := by decide
    exact ne_pointName (hlabels l hl)

/-- A run over the graph, a deletion and a run after it, of twelve iterations each. -/
def deadTrial : Option (Option (Option ℕ) × List ℕ × List ℕ × Option (Finset String)) := do
  let s ← DeadCodeRem.analysis.loop deadGraph (fun _ => 0)
    ⟨deadGraph.allNodes, DeadCodeRem.analysis.fill deadGraph fun _ => none⟩ 12
  let (mm', wklist) ← DeadCodeRem.deleteDeadAssigns deadGraph s.values
  let s' ← DeadCodeRem.analysis.loop mm' (fun _ => 0)
    ⟨wklist, DeadCodeRem.analysis.fill mm' s.values⟩ 12
  some (DeadCodeRem.firstDead deadGraph s.values deadGraph.predecessors.keys, s.worklist, s'.worklist,
    s.values ⟨2, 3, false⟩)

/-- A run over the graph and two calls of `propagateEqualVars`. -/
def copyTrial : Option (List ℕ × List ℕ × Option (Finset Copy) × Option CFGNode) := do
  let s ← (CopyProp.analysis (CopyProp.computeTop copyGraph)).loop copyGraph (fun _ => 0)
    ⟨copyGraph.allNodes, (CopyProp.analysis (CopyProp.computeTop copyGraph)).fill copyGraph
      fun _ => none⟩ 12
  let (mm₁, _) ← CopyProp.propagateEqualVars (CopyProp.computeTop copyGraph) (fun _ => alphabetical)
    s.values copyGraph
  let (mm', changed) ← CopyProp.propagateEqualVars (CopyProp.computeTop copyGraph)
    (fun _ => alphabetical) s.values mm₁
  some (s.worklist, changed, s.values ⟨1, 2, false⟩, mm'.nodes[2]?)

/-- What the trial gives: the edge behind the removed node has its old value. -/
theorem deadTrial_eq : deadTrial = some (some (some 2), [], [], some {"w"}) := by decide

/-- What the trial gives: the second call reports nothing. -/
theorem copyTrial_eq : copyTrial =
    some ([], [], some {⟨"y", "z"⟩}, some (.mov (.Gets "x" (.Var "z")) "$G3")) := by decide

/-- Both passes leave values that are no fixpoint: dead code removal keeps the node it removed under the
fall-through of an `If`, copy propagation forgets what its first call rewrote. -/
theorem passes_lose_fixpoint :
    (CFGBuilder.build "f" deadBranch = some ⟨0, "f", deadGraph⟩ ∧
      ∃ s mm' wklist s', DeadCodeRem.Orderly deadGraph deadGraph s ∧
        DeadCodeRem.deleteDeadAssigns deadGraph s.values = some (mm', wklist) ∧
        DeadCodeRem.analysis.runWithWorklist mm' (fun _ => 0) wklist s.values = some s' ∧
        s'.worklist = [] ∧ ¬ DeadCodeRem.analysis.AtFixpoint mm' s'.values) ∧
    (CFGBuilder.build "f" copyChain = some ⟨0, "f", copyGraph⟩ ∧
      ∃ s mm' s', CopyProp.Orderly copyGraph copyGraph s ∧
        CopyProp.Calls (CopyProp.computeTop copyGraph) s.values copyGraph mm' [] ∧
        (CopyProp.analysis (CopyProp.computeTop copyGraph)).runWithWorklist mm' (fun _ => 0) [] s.values =
          some s' ∧
        ¬ (CopyProp.analysis (CopyProp.computeTop copyGraph)).AtFixpoint mm' s'.values) := by
  have hlimit : 12 ≤ THRESHOLD := by decide
  refine ⟨⟨deadBranch_build, ?_⟩, copyChain_build, ?_⟩
  -- the deletion leaves the report of the old edge behind
  · have htrial := deadTrial_eq
    unfold deadTrial at htrial
    obtain ⟨s, hrun, htrial⟩ := Option.bind_eq_some_iff.mp htrial
    obtain ⟨⟨mm', wklist⟩, hdelete, htrial⟩ := Option.bind_eq_some_iff.mp htrial
    obtain ⟨s', hrun', htrial⟩ := Option.bind_eq_some_iff.mp htrial
    simp only [Option.some.injEq, Prod.mk.injEq] at htrial
    obtain ⟨hdead, hempty, hempty', hvalue⟩ := htrial
    have hrun := CFGFlow.runWithWorklist_of_empty hrun hempty hlimit
    have hrun' := CFGFlow.runWithWorklist_of_empty hrun' hempty' hlimit
    have hok := DeadCodeRem.build_graphOk deadBranch_ok deadBranch_build
    have hrunning : DeadCodeRem.Orderly deadGraph deadGraph s := .run hrun hempty
    refine ⟨s, mm', wklist, s', hrunning, hdelete, hrun', hempty', ?_⟩
    rw [(DeadCodeRem.delete_fixpoint_iff hok (hrunning.fixpoint hok).2 hdead hdelete hrun' hempty').2,
      not_not]
    refine ⟨⟨1, rfl, rfl⟩, {"w"}, ?_, by decide⟩
    show ((s.values ⟨2, 3, false⟩).bind fun v => some [v]).map _ = _
    rw [hvalue]
    rfl
  -- the second replacement gives its node a copy that its edges do not report
  · have htrial := copyTrial_eq
    unfold copyTrial at htrial
    obtain ⟨s, hrun, htrial⟩ := Option.bind_eq_some_iff.mp htrial
    obtain ⟨⟨mm₁, changed₁⟩, hcall₁, htrial⟩ := Option.bind_eq_some_iff.mp htrial
    obtain ⟨⟨mm', changed⟩, hcall₂, htrial⟩ := Option.bind_eq_some_iff.mp htrial
    simp only [Option.some.injEq, Prod.mk.injEq] at htrial
    obtain ⟨hempty, rfl, hvalue, hnode⟩ := htrial
    have hrun := CFGFlow.runWithWorklist_of_empty hrun hempty hlimit
    have hrep := CFGBuilder.build_repOk copyChain_build
    have hrunning : CopyProp.Orderly copyGraph copyGraph s := .run hrun hempty
    have hcalls := CopyProp.Calls.two hcall₁ hcall₂
    have hrun' : (CopyProp.analysis (CopyProp.computeTop copyGraph)).runWithWorklist mm' (fun _ => 0) []
        s.values = some ⟨[], _⟩ := CFGFlow.runWithWorklist_of_empty (k := 0) rfl rfl (Nat.zero_le _)
    refine ⟨s, mm', _, hrunning, hcalls, hrun', fun hfix => ?_⟩
    have hround := CopyProp.round_fixpoint hrep (hrunning.fixpoint hrep).2 hcalls.sameEdges.1
      List.nodup_nil hrun' rfl
    refine hround.2 rfl hfix 2 ⟨by decide, {⟨"y", "z"⟩}, ?_, fun heq => ?_⟩
    · show ((s.values ⟨1, 2, false⟩).bind fun v => some [v]).map _ = _
      rw [hvalue]
      rfl
    · have hgen : (⟨"x", "z"⟩ : Copy) ∈ CopyProp.gen mm' 2 := by
        rw [CopyProp.gen, hnode]
        exact Finset.mem_singleton_self _
      have hmem := Finset.mem_union_right
        ({⟨"y", "z"⟩} \ CopyProp.kill (CopyProp.computeTop copyGraph) mm' 2) hgen
      rw [heq] at hmem
      revert hmem
      decide

end Jaek
