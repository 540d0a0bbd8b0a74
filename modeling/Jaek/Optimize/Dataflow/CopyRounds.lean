import Jaek.Optimize.Dataflow.CopySound
import Jaek.Optimize.Dataflow.SolverFixpoint

/-!
# The rounds of copy propagation

A round rewrites with true facts, so the rewritten graph behaves as before and the facts stay true of it.
So all rounds of `postprocess` keep the behaviour (`postprocess_sameTraces`).
-/

namespace Jaek

variable {M : Type*}

namespace CopyProp

variable {S : Storage M} {start : ℕ} {mm mm' : MatchMaker} {top : Finset Copy} {order : ℕ → SetOrder}
  {values : Edge → Option (Finset Copy)} {changed : List ℕ} {n : ℕ} {s : Store M}

/-! ## What rewriting keeps -/

section Node

variable (find : String → Option Copy) (node : CFGNode)

/-- Rewriting keeps what a node defines. -/
theorem rewriteNode_defs : Properties.defs (rewriteNode find node).1 = Properties.defs node := by
  cases node with
  | mov m edge => cases m <;> rfl
  | Funcking name movIntos args edge => rfl
  | Return rets => rfl
  | If cond take edge => rfl
  | Start name edge => rfl
  | Cricket dest => rfl
  | NOOP => rfl

/-- A node without statements stays one. -/
theorem rewriteNode_stmts_nil : node.stmts = [] ↔ (rewriteNode find node).1.stmts = [] := by
  cases node with
  | mov m edge => cases m <;> exact iff_of_false (List.cons_ne_nil _ _) (List.cons_ne_nil _ _)
  | Funcking name movIntos args edge => exact iff_of_false (List.cons_ne_nil _ _) (List.cons_ne_nil _ _)
  | Return rets => exact iff_of_false (List.cons_ne_nil _ _) (List.cons_ne_nil _ _)
  | If cond take edge => rfl
  | Start name edge => rfl
  | Cricket dest => rfl
  | NOOP => rfl

variable {node}

/-- A destination in memory stays one. -/
theorem rewriteNode_addressed (h : node.Addressed) : (rewriteNode find node).1.Addressed := by
  cases node with
  | mov m edge =>
    cases m with
    | Gets x e => trivial
    | Mem loc e =>
      obtain ⟨address, rfl⟩ := h
      exact ⟨_, rfl⟩
  | Funcking name movIntos args edge => exact h
  | Return rets => trivial
  | If cond take edge => trivial
  | Start name edge => trivial
  | Cricket dest => trivial
  | NOOP => trivial

end Node

/-! ## The variables a node reads -/

/-- The variable that is read instead of a variable. -/
def renamed (find : String → Option Copy) (x : String) : String := ((find x).map Copy.early).getD x

/-- The expressions of a node in which variables are replaced. -/
def operands : CFGNode → List CFGExpr
  | .Funcking _ _ args _ => args
  | .If cond _ _ => [cond]
  | .mov (.Gets _ expr) _ => [expr]
  | .mov (.Mem loc expr) _ => [loc, expr]
  | .Return rets => rets
  | .Start _ _ => []
  | .Cricket _ => []
  | .NOOP => []

/-- The variables that the moves behind a call use. -/
def movIntoUse : CFGNode → Finset String
  | .Funcking _ movIntos _ _ => movIntos.foldl (fun acc it => acc ∪ Properties.moveUse it) ∅
  | _ => ∅

section Node

variable {find : String → Option Copy} {node : CFGNode} {x y : String}

/-- A variable that is renamed is the later one of a fact. -/
theorem exists_of_renamed_ne (h : renamed find x ≠ x) :
    ∃ c, find x = some c ∧ c.early ≠ x ∧ renamed find x = c.early := by
  unfold renamed at h ⊢
  cases hc : find x with
  | none =>
    rw [hc] at h
    exact absurd rfl h
  | some c =>
    rw [hc] at h
    exact ⟨c, rfl, h, rfl⟩

/-- The variables of a rewritten expression are the renamed ones. -/
theorem exprUse_replaceVar (e : CFGExpr) :
    Properties.exprUse (replaceVar find e).1 = (Properties.exprUse e).image (renamed find) := by
  induction e with
  | Var name =>
    rw [replaceVar, Properties.exprUse, Finset.image_singleton, renamed]
    cases (find name).map Copy.early with
    | none => rfl
    | some earliest =>
      dsimp only [Option.getD_some]
      split_ifs with hne
      · rfl
      · rw [Classical.not_not.mp hne]
        rfl
  | Const value => rfl
  | Label name => rfl
  | Mem loc ih => exact ih
  | BOp left right op ihl ihr =>
    rw [replaceVar, Properties.exprUse, Properties.exprUse, Finset.image_union, ihl, ihr]

/-- An expression has changed when one of its variables is renamed. -/
theorem replaceVar_changed (e : CFGExpr) :
    (replaceVar find e).2 = true ↔ ∃ x ∈ Properties.exprUse e, renamed find x ≠ x := by
  induction e with
  | Var name =>
    rw [replaceVar]
    simp only [Properties.exprUse, Finset.mem_singleton, exists_eq_left]
    rw [renamed]
    cases (find name).map Copy.early with
    | none => simp
    | some earliest =>
      dsimp only [Option.getD_some]
      split_ifs with hne
      · exact iff_of_true rfl hne
      · exact iff_of_false id hne
  | Const value => simp [replaceVar, Properties.exprUse]
  | Label name => simp [replaceVar, Properties.exprUse]
  | Mem loc ih => exact ih
  | BOp left right op ihl ihr =>
    rw [replaceVar, Properties.exprUse, Bool.or_eq_true, ihl, ihr]
    simp only [Finset.mem_union, or_and_right, exists_or]

/-- The operands of a rewritten node are the rewritten ones. -/
theorem operands_rewriteNode (find : String → Option Copy) (node : CFGNode) :
    operands (rewriteNode find node).1 = (operands node).map fun e => (replaceVar find e).1 := by
  cases node with
  | mov m edge => cases m <;> rfl
  | Funcking name movIntos args edge => rfl
  | Return rets => rfl
  | If cond take edge => rfl
  | Start name edge => rfl
  | Cricket dest => rfl
  | NOOP => rfl

/-- The moves behind a call are not rewritten. -/
theorem movIntoUse_rewriteNode (find : String → Option Copy) (node : CFGNode) :
    movIntoUse (rewriteNode find node).1 = movIntoUse node := by
  cases node with
  | mov m edge => cases m <;> rfl
  | Funcking name movIntos args edge => rfl
  | Return rets => rfl
  | If cond take edge => rfl
  | Start name edge => rfl
  | Cricket dest => rfl
  | NOOP => rfl

/-- A node has changed when a variable of an operand is renamed. -/
theorem rewriteNode_changed (find : String → Option Copy) (node : CFGNode) :
    (rewriteNode find node).2 = true ↔
      ∃ e ∈ operands node, ∃ x ∈ Properties.exprUse e, renamed find x ≠ x := by
  have hany : (rewriteNode find node).2 = (operands node).any fun e => (replaceVar find e).2 := by
    cases node with
    | mov m edge => cases m <;> simp [rewriteNode, operands]
    | Funcking name movIntos args edge => rfl
    | Return rets => rfl
    | If cond take edge => simp [rewriteNode, operands]
    | Start name edge => rfl
    | Cricket dest => rfl
    | NOOP => rfl
  rw [hany, List.any_eq_true]
  simp only [replaceVar_changed]

/-- What a node uses is in its operands or in the moves behind a call. -/
theorem mem_use_iff : x ∈ Properties.use node ↔
    (∃ e ∈ operands node, x ∈ Properties.exprUse e) ∨ x ∈ movIntoUse node := by
  cases node with
  | mov m edge =>
    cases m with
    | Gets y e => simp [Properties.use, operands, movIntoUse]
    | Mem loc e => simp [Properties.use, operands, movIntoUse, or_comm]
  | Funcking name movIntos args edge =>
    rw [Properties.use, Finset.mem_union, Properties.mem_foldl_union]
    simp [operands, movIntoUse]
  | Return rets =>
    rw [Properties.use, Properties.mem_foldl_union]
    simp [operands, movIntoUse]
  | If cond take edge => simp [Properties.use, operands, movIntoUse]
  | Start name edge => simp [Properties.use, operands, movIntoUse]
  | Cricket dest => simp [Properties.use, operands, movIntoUse]
  | NOOP => simp [Properties.use, operands, movIntoUse]

/-- A rewritten operand reads the other names. -/
theorem mem_operands_rewriteNode :
    (∃ e ∈ operands (rewriteNode find node).1, y ∈ Properties.exprUse e) ↔
      ∃ e ∈ operands node, ∃ x ∈ Properties.exprUse e, renamed find x = y := by
  rw [operands_rewriteNode]
  simp only [List.mem_map, exists_exists_and_eq_and, exprUse_replaceVar, Finset.mem_image]

/-- A use disappears where another variable is read instead. -/
theorem mem_use_rewriteNode (h : x ∈ Properties.use node) :
    x ∈ Properties.use (rewriteNode find node).1 ∨
      (∃ e ∈ operands node, x ∈ Properties.exprUse e) ∧ renamed find x ≠ x := by
  rcases mem_use_iff.mp h with ⟨e, he, hx⟩ | hx
  · by_cases hne : renamed find x = x
    · exact .inl (mem_use_iff.mpr (.inl (mem_operands_rewriteNode.mpr ⟨e, he, x, hx, hne⟩)))
    · exact .inr ⟨⟨e, he, hx⟩, hne⟩
  · refine .inl (mem_use_iff.mpr (.inr ?_))
    rw [movIntoUse_rewriteNode]
    exact hx

/-- A new use is of such a variable. -/
theorem use_rewriteNode (h : y ∈ Properties.use (rewriteNode find node).1) :
    y ∈ Properties.use node ∨ ∃ x ∈ Properties.use node, renamed find x = y := by
  rcases mem_use_iff.mp h with hy | hy
  · obtain ⟨e, he, x, hx, hxy⟩ := mem_operands_rewriteNode.mp hy
    exact .inr ⟨x, mem_use_iff.mpr (.inl ⟨e, he, hx⟩), hxy⟩
  · rw [movIntoUse_rewriteNode] at hy
    exact .inl (mem_use_iff.mpr (.inr hy))

/-- A node that has become a copy was one. -/
theorem copy_of_rewriteNode {x y edge : String}
    (h : (rewriteNode find node).1 = .mov (.Gets x (.Var y)) edge) :
    ∃ z, node = .mov (.Gets x (.Var z)) edge ∧ (y = z ∨ ∃ c, find z = some c ∧ y = c.early) := by
  cases node with
  | mov m edge' =>
    cases m with
    | Gets x' e =>
      rw [rewriteNode] at h
      injection h with hm hedge
      injection hm with hx he
      subst hx hedge
      cases e with
      | Var z =>
        refine ⟨z, rfl, ?_⟩
        rw [replaceVar] at he
        cases hc : find z with
        | none =>
          rw [hc] at he
          cases he
          exact .inl rfl
        | some c =>
          rw [hc] at he
          dsimp only [Option.map_some] at he
          split_ifs at he
          · cases he
            exact .inr ⟨c, rfl, rfl⟩
          · cases he
            exact .inl rfl
      | Const value => cases he
      | Label name => cases he
      | Mem loc => cases he
      | BOp left right op => cases he
    | Mem loc e => cases h
  | Funcking name movIntos args edge' => cases h
  | Return rets => cases h
  | If cond take edge' => cases h
  | Start name edge' => cases h
  | Cricket dest => cases h
  | NOOP => cases h

end Node

/-! ## A round -/

/-- The nodes with edges stay. -/
theorem SameEdges.allNodes (h : SameEdges mm mm') : mm'.allNodes = mm.allNodes := by
  rw [MatchMaker.allNodes, MatchMaker.allNodes, h.predecessors, h.successors]

/-- Each edge stays. -/
theorem SameEdges.edge_iff (h : SameEdges mm mm') (p : ℕ) (jump : Bool) (m : ℕ) :
    mm.Edge p jump m ↔ mm'.Edge p jump m := by
  have hp := h.successorEdges p
  have hmem : ∀ {G : MatchMaker}, G.Edge p jump m ↔ (⟨p, m, jump⟩ : Edge) ∈ G.successorEdges p := by
    intro G
    rw [MatchMaker.mem_successorEdges]
    simp
  rw [hmem, hmem, hp]

/-- No edge leads into the start node. -/
theorem Sane.start_notMem (hsane : Sane S start mm) : start ∉ mm.predecessors.keys := by
  intro hkey
  have hne := hsane.repOk.nonempty start (mm.predecessors.mem_keys_iff.mp hkey)
  obtain ⟨⟨p, jump⟩, hmem⟩ := List.exists_mem_of_ne_nil _ hne
  exact hsane.noInto p jump ((hsane.repOk.mem_into p jump start).mp hmem)

/-- A call leaves a node alone, or rewrites one that has predecessors. -/
theorem call_node (h : propagateEqualVars top order values mm = some (mm', changed)) (n : ℕ) :
    mm'.nodes[n]? = mm.nodes[n]? ∨ ∃ met node, n ∈ mm.predecessors.keys ∧
      (analysis top).bigMeet values (mm.predecessorEdges n) = some met ∧ mm.nodes[n]? = some node ∧
      mm'.nodes[n]? = some (rewriteNode ((order n).find met) node).1 := by
  obtain ⟨-, -, hkeys, hother⟩ := propagateEqualVars_spec h
  by_cases hn : n ∈ mm.predecessors.keys
  · obtain ⟨met, hmeet, hnode, -⟩ := hkeys n hn
    cases hold : mm.nodes[n]? with
    | none =>
      rw [hold] at hnode
      exact .inl hnode
    | some node =>
      rw [hold] at hnode
      exact .inr ⟨met, node, hn, hmeet, rfl, hnode⟩
  · exact .inl (hother n hn).1

/-- What a round does to a node. -/
theorem round_node (hsane : Sane S start mm)
    (h : propagateEqualVars top order values mm = some (mm', changed)) (n : ℕ) :
    mm'.nodes[n]? = mm.nodes[n]? ∨ ∃ met node, n ≠ start ∧
      (analysis top).bigMeet values (mm.predecessorEdges n) = some met ∧ mm.nodes[n]? = some node ∧
      mm'.nodes[n]? = some (rewriteNode ((order n).find met) node).1 := by
  refine (call_node h n).imp_right fun ⟨met, node, hn, hnode⟩ => ⟨met, node, ?_, hnode⟩
  rintro rfl
  exact hsane.start_notMem hn

/-- The facts met at a node are true when control enters it. -/
theorem Sound.entry (hsane : Sane S start mm) (h : Sound S start mm values) {met : Finset Copy}
    (hn : n ≠ start) (hmeet : (analysis top).bigMeet values (mm.predecessorEdges n) = some met)
    (hreach : Reached S start mm (mm.entry n s)) : ∀ c ∈ met, Fact S start mm s c := by
  have halong : Along S start mm top values (mm.entry n s) := h.along hsane hreach
  obtain ⟨met', hmeet', hat⟩ := halong
  cases hmeet.symm.trans hmeet'
  exact hat.entry hn rfl

/-- A fact that is found at a node is true whenever a run comes to it. -/
theorem Sound.find (hsane : Sane S start mm) (h : Sound S start mm values) {met : Finset Copy}
    (hn : n ≠ start) (hmeet : (analysis top).bigMeet values (mm.predecessorEdges n) = some met)
    (hreach : Reached S start mm (mm.entry n s)) (x : String) (c : Copy)
    (hc : (order n).find met x = some c) : s.temps x = s.temps c.early := by
  obtain ⟨hmem, rfl⟩ := (order n).find_mem hc
  exact (h.entry hsane hn hmeet hreach c hmem).eq

/-- A call of `propagateEqualVars` replaces variables by equal ones. -/
theorem round_rewritten (hsane : Sane S start mm) (hsound : Sound S start mm values)
    (h : propagateEqualVars top order values mm = some (mm', changed)) :
    Rewritten S (fun n s => Reached S start mm (mm.entry n s)) mm mm' := by
  obtain ⟨hsame, -⟩ := propagateEqualVars_spec h
  refine ⟨hsame.edge_iff, fun n => ?_, fun n s st rest hreach hst => ?_, fun n s hreach => ?_⟩
  · rcases round_node hsane h n with hn | ⟨met, node, -, -, hn, hn'⟩
    · rw [MatchMaker.stmtsAt, MatchMaker.stmtsAt, hn]
    · rw [stmtsAt_eq hn, stmtsAt_eq hn']
      exact rewriteNode_stmts_nil _ _
  · rcases round_node hsane h n with hn | ⟨met, node, hstart, hmeet, hn, hn'⟩
    · refine ⟨st, ?_, .refl _ _⟩
      rw [← hst, MatchMaker.stmtsAt, MatchMaker.stmtsAt, hn]
    · have haddr := hsane.addressed node (List.mem_of_getElem? hn)
      rw [stmtsAt_eq hn] at hst
      rw [stmtsAt_eq hn']
      rcases stmts_rewriteNode (S := S) haddr (hsound.find hsane hstart hmeet hreach) with
        ⟨hnil, -⟩ | ⟨st₀, st', rest₀, hold, hnew, heffect⟩
      · rw [hnil] at hst
        cases hst
      · cases hold.symm.trans hst
        exact ⟨st', hnew, heffect⟩
  · rcases round_node hsane h n with hn | ⟨met, node, hstart, hmeet, hn, hn'⟩
    · rw [MatchMaker.leavesAt, MatchMaker.leavesAt, hn]
    · rw [MatchMaker.leavesAt, MatchMaker.leavesAt, hn, hn', Option.bind_some, Option.bind_some]
      refine (leaves_rewriteNode fun hnil => ?_).symm
      exact hsound.find hsane hstart hmeet (hreach ((stmtsAt_eq hn).trans hnil))

/-- The points of the rewritten graph's runs are those of the graph. -/
theorem round_bisimulation (hsane : Sane S start mm) (hsound : Sound S start mm values)
    (h : propagateEqualVars top order values mm = some (mm', changed)) :
    Lts.IsBisimulation (mm.lts S) (mm'.lts S) fun c c' => Reached S start mm c ∧ Matches mm mm' c c' :=
  (round_rewritten hsane hsound h).bisimulation (fun _ _ _ hreach hstep => hreach.snoc hstep)
    fun _ _ hreach => hreach

/-- The same nodes are reached after it. -/
theorem round_visited (hsane : Sane S start mm) (hsound : Sound S start mm values)
    (h : propagateEqualVars top order values mm = some (mm', changed)) (n : ℕ) :
    Visited S start mm' n ↔ Visited S start mm n := by
  have hbisim := round_bisimulation hsane hsound h
  constructor
  · rintro ⟨rest, s', s, tr, hrun⟩
    obtain ⟨c, -, hreach, hm⟩ := hbisim.2.run hrun ⟨⟨s, .refl _⟩, .entry start s⟩
    cases hm with
    | entry => exact ⟨_, _, hreach⟩
    | inside => exact ⟨_, _, hreach⟩
  · rintro ⟨rest, s', s, tr, hrun⟩
    obtain ⟨c, hrun', -, hm⟩ := hbisim.1.run hrun ⟨⟨s, .refl _⟩, .entry start s⟩
    cases hm with
    | entry => exact ⟨_, _, s, _, hrun'⟩
    | inside => exact ⟨_, _, s, _, hrun'⟩

/-- Each of them assigns what it did. -/
theorem round_defsAt (h : propagateEqualVars top order values mm = some (mm', changed)) (n : ℕ) :
    mm'.defsAt n = mm.defsAt n := by
  rcases call_node h n with hn | ⟨met, node, -, -, hn, hn'⟩
  · rw [MatchMaker.defsAt, MatchMaker.defsAt, hn]
  · rw [defsAt_eq hn, defsAt_eq hn', rewriteNode_defs]

/-- The variables of a fact stay variables of the graph. -/
theorem Known.round (hsane : Sane S start mm) (hsound : Sound S start mm values)
    (h : propagateEqualVars top order values mm = some (mm', changed)) {c : Copy}
    (hc : Known S start mm c) : Known S start mm' c := by
  obtain ⟨hsame, -⟩ := propagateEqualVars_spec h
  have hdefs := round_defsAt h
  obtain ⟨⟨n, hn, hlate⟩, hearly, hret⟩ := hc
  refine ⟨⟨n, hsame.allNodes ▸ hn, (hdefs n).symm ▸ hlate⟩, ?_, hret⟩
  rcases hearly with ⟨m, hm, hdef⟩ | ⟨m, hm, hvisited, huse⟩
  · exact .inl ⟨m, hsame.allNodes ▸ hm, (hdefs m).symm ▸ hdef⟩
  · have hvisited' := (round_visited hsane hsound h m).mpr hvisited
    rcases round_node hsane h m with hnode | ⟨met, node, hstart, hmeet, hnode, hnode'⟩
    · refine .inr ⟨m, hsame.allNodes ▸ hm, hvisited', ?_⟩
      rw [MatchMaker.useAt, hnode]
      exact huse
    · rw [useAt_eq hnode] at huse
      rcases mem_use_rewriteNode huse with huse' | ⟨-, hne⟩
      · refine .inr ⟨m, hsame.allNodes ▸ hm, hvisited', ?_⟩
        rw [useAt_eq hnode']
        exact huse'
      · -- what is read instead is the early variable of a fact, and the late one is defined somewhere
        obtain ⟨c', hc', -⟩ := exists_of_renamed_ne hne
        obtain ⟨hmem, hlate'⟩ := (order m).find_mem hc'
        obtain ⟨rest, s, hreach⟩ := hvisited
        have halong : Along S start mm top values (.inside m rest s) := hsound.along hsane hreach
        obtain ⟨met', hmeet', hat⟩ := halong
        cases hmeet.symm.trans hmeet'
        obtain ⟨k, hk, hdef⟩ := (hat.known hstart c' hmem).late
        exact .inl ⟨k, hsame.allNodes ▸ hk, (hdefs k).symm ▸ hlate' ▸ hdef⟩

/-- The graph stays in shape. -/
theorem Sane.round (hsane : Sane S start mm) (hsound : Sound S start mm values)
    (h : propagateEqualVars top order values mm = some (mm', changed)) : Sane S start mm' := by
  obtain ⟨hsame, -⟩ := propagateEqualVars_spec h
  refine ⟨hsame.repOk hsane.repOk, ?_, fun p jump hedge => ?_, fun node hnode => ?_, ?_⟩
  · obtain ⟨name, edge, hstart⟩ := hsane.isStart
    rcases round_node hsane h start with hn | ⟨_, _, hne, -⟩
    · exact ⟨name, edge, hn.trans hstart⟩
    · exact absurd rfl hne
  · exact hsane.noInto p jump ((hsame.edge_iff p jump start).mpr hedge)
  · obtain ⟨n, hn⟩ := List.getElem?_of_mem hnode
    rcases round_node hsane h n with hold | ⟨met, node', -, -, hold, hnew⟩
    · exact hsane.addressed node (List.mem_of_getElem? (hold.symm.trans hn))
    · cases hn.symm.trans hnew
      exact rewriteNode_addressed _ (hsane.addressed node' (List.mem_of_getElem? hold))
  · intro n x y edge hvisited hcopy i
    have hvisited := (round_visited hsane hsound h n).mp hvisited
    rcases round_node hsane h n with hold | ⟨met, node', hstart, hmeet, hold, hnew⟩
    · exact hsane.copies n x y edge hvisited (hold.symm.trans hcopy) i
    · have hcopy' := Option.some.inj (hnew.symm.trans hcopy)
      obtain ⟨z, rfl, hy⟩ := copy_of_rewriteNode hcopy'
      obtain ⟨hx, hz⟩ := hsane.copies n x z edge hvisited hold i
      refine ⟨hx, ?_⟩
      rcases hy with rfl | ⟨c, hc, rfl⟩
      · exact hz
      · obtain ⟨hmem, -⟩ := (order n).find_mem hc
        obtain ⟨rest, s, hreach⟩ := hvisited
        have halong : Along S start mm top values (.inside n rest s) := hsound.along hsane hreach
        obtain ⟨met', hmeet', hat⟩ := halong
        cases hmeet.symm.trans hmeet'
        exact ((hat.known hstart c hmem).noRet i).2

/-- The facts stay true of the rewritten graph. -/
theorem Sound.round (hsane : Sane S start mm) (hsound : Sound S start mm values)
    (h : propagateEqualVars top order values mm = some (mm', changed)) : Sound S start mm' values := by
  obtain ⟨hsame, -⟩ := propagateEqualVars_spec h
  have hrewritten := round_rewritten hsane hsound h
  refine ⟨fun e he => hsound.isSome e (hsame.edges ▸ he), ?_⟩
  rintro n s jump m ⟨s₀, tr, hrun⟩ hleaves hedge info hinfo c hc
  obtain ⟨c₀, -, hreach, hm⟩ :=
    (round_bisimulation hsane hsound h).2.run hrun ⟨⟨s₀, .refl _⟩, .entry start s₀⟩
  cases hrewritten.matches_end hm
  have hleaves := (hrewritten.leaves n s fun hnil => by
    rw [MatchMaker.entry, hnil]
    exact hreach).trans hleaves
  have hfact := hsound.facts n s jump m hreach hleaves ((hsame.edge_iff n jump m).mpr hedge)
    info hinfo c hc
  exact ⟨hfact.known.round hsane hsound h, hfact.eq⟩

/-- The graph has the same traces. -/
theorem round_traces (hsane : Sane S start mm) (hsound : Sound S start mm values)
    (h : propagateEqualVars top order values mm = some (mm', changed)) (s : Store M) :
    (mm'.lts S).traces (mm'.entry start s) = (mm.lts S).traces (mm.entry start s) :=
  ((round_bisimulation hsane hsound h).traces_eq ⟨⟨s, .refl _⟩, .entry start s⟩).symm

/-! ## All rounds -/

/-- So has the graph after any number of rounds, by induction on the fuel. -/
theorem postprocessLoop_traces {picks : ℕ → ℕ} {orders : ℕ → ℕ → SetOrder} {fuel : ℕ}
    {propagateCopies : List ℕ} (hsane : Sane S start mm) (hsound : Sound S start mm values)
    (h : postprocessLoop top picks orders fuel mm values propagateCopies = some mm') (s : Store M) :
    (mm'.lts S).traces (mm'.entry start s) = (mm.lts S).traces (mm.entry start s) := by
  induction fuel generalizing mm values propagateCopies with
  | zero =>
    unfold postprocessLoop at h
    split_ifs at h
    cases h
    rfl
  | succ fuel ih =>
    unfold postprocessLoop at h
    split_ifs at h
    · cases h
      rfl
    · obtain ⟨⟨mm₁, changed⟩, hround, h⟩ := Option.bind_eq_some_iff.mp h
      obtain ⟨sol, hrun, h⟩ := Option.bind_eq_some_iff.mp h
      have hsane₁ := hsane.round hsound hround
      have hsound₁ := hsound.round hsane hround
      rw [ih hsane₁ (hsound₁.runWithWorklist hsane₁ hrun) h, round_traces hsane hsound hround s]

/-- So has the graph after the pass. -/
theorem postprocess_sameTraces {picks : ℕ → ℕ} {orders : ℕ → ℕ → SetOrder} {fuel : ℕ}
    (hsane : Sane S start mm) (hsound : Sound S start mm values)
    (h : postprocess top picks orders fuel mm values = some mm') (s : Store M) :
    (mm'.lts S).traces (mm'.entry start s) = (mm.lts S).traces (mm.entry start s) := by
  obtain ⟨⟨mm₁, changed⟩, hround, h⟩ := Option.bind_eq_some_iff.mp h
  rw [postprocessLoop_traces (hsane.round hsound hround) (hsound.round hsane hround) h s,
    round_traces hsane hsound hround s]

end CopyProp

end Jaek
