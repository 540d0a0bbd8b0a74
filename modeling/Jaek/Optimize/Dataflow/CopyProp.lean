import Jaek.Optimize.CFG.CFGBuilder
import Jaek.Optimize.Dataflow.Fixpoint
import Jaek.Optimize.Dataflow.Properties

/-!
# Copy propagation

`CopyProp.kt`. A fact `Copy(x, y)` says that `x` and `y` hold the same value. Uses of `x` are replaced by
`y`; which fact about `x` is taken depends on the iteration order of a set, which is a parameter.
-/

namespace Jaek

/-- `CopyProp.Copy`. -/
structure Copy where
  late : String
  early : String
deriving DecidableEq

/-- The order in which a set of facts is searched. -/
structure SetOrder where
  find : Finset Copy → String → Option Copy
  find_mem : ∀ {copies x c}, find copies x = some c → c ∈ copies ∧ c.late = x
  find_none : ∀ {copies x}, find copies x = none → ∀ c ∈ copies, c.late ≠ x

namespace CopyProp

/-- The variables of the nodes that have edges. -/
def allVars (mm : MatchMaker) : Finset String :=
  mm.allNodes.toFinset.biUnion fun n => mm.useAt n ∪ mm.defsAt n

/-- `computeTop`: every pair of different variables. -/
def computeTop (mm : MatchMaker) : Finset Copy :=
  (((allVars mm) ×ˢ (allVars mm)).filter fun p => p.1 ≠ p.2).image fun p => ⟨p.1, p.2⟩

/-- `kill`. The start node kills the top value of the analysis. -/
def kill (top : Finset Copy) (mm : MatchMaker) (n : ℕ) : Finset Copy :=
  match mm.nodes[n]? with
  | some (.Start _ _) => top
  | _ => (mm.defsAt n).biUnion fun killed => (allVars mm).biUnion fun v => {⟨killed, v⟩, ⟨v, killed⟩}

/-- `gen`: the copy a node makes. -/
def gen (mm : MatchMaker) (n : ℕ) : Finset Copy :=
  match mm.nodes[n]? with
  | some (.mov (.Gets varName (.Var name)) _) => {⟨varName, name⟩}
  | _ => ∅

/-- `transition`. -/
def transition (top : Finset Copy) (mm : MatchMaker) (n : ℕ) (info : Finset Copy) :
    Option (Edge → Finset Copy) :=
  some fun _ => (info \ kill top mm n) ∪ gen mm n

/-- `meet`. -/
def meet (e1 e2 : Finset Copy) : Finset Copy := e1 ∩ e2

/-- The analysis. `top` is computed once, for the graph it starts with. -/
def analysis (top : Finset Copy) : CFGFlow (Finset Copy) := ⟨true, false, top, meet, transition top⟩

/-- The pairs of variables of the graph. -/
def pairs (mm : MatchMaker) : Finset Copy :=
  let vars := mm.nodes.toFinset.biUnion fun node => Properties.use node ∪ Properties.defs node
  (vars ×ˢ vars).image fun p => ⟨p.1, p.2⟩

/-- A pair of variables of the graph. -/
theorem mem_pairs {mm : MatchMaker} {x y : String} {n n' : ℕ} (hx : x ∈ mm.useAt n ∪ mm.defsAt n)
    (hy : y ∈ mm.useAt n' ∪ mm.defsAt n') : (⟨x, y⟩ : Copy) ∈ pairs mm := by
  have hvars : ∀ {n : ℕ} {z : String}, z ∈ mm.useAt n ∪ mm.defsAt n →
      z ∈ mm.nodes.toFinset.biUnion fun node => Properties.use node ∪ Properties.defs node := by
    intro n z hz
    rw [MatchMaker.useAt, MatchMaker.defsAt] at hz
    cases hn : mm.nodes[n]? with
    | none =>
      rw [hn] at hz
      cases hz
    | some node =>
      rw [hn] at hz
      exact Finset.mem_biUnion.mpr ⟨node, List.mem_toFinset.mpr (List.mem_of_getElem? hn), hz⟩
  exact Finset.mem_image.mpr ⟨(x, y), Finset.mem_product.mpr ⟨hvars hx, hvars hy⟩, rfl⟩

/-- A fact that a node generates is about a variable it defines and one it uses. -/
theorem mem_gen {mm : MatchMaker} {n : ℕ} {c : Copy} (h : c ∈ gen mm n) :
    c.late ∈ mm.defsAt n ∧ c.early ∈ mm.useAt n := by
  unfold gen at h
  split at h
  · rename_i varName name edge hn
    cases Finset.mem_singleton.mp h
    rw [MatchMaker.defsAt, MatchMaker.useAt, hn]
    exact ⟨Finset.mem_singleton_self _, Finset.mem_singleton_self _⟩
  · cases h

/-- A variable is used or defined at some node. -/
theorem mem_allVars {mm : MatchMaker} {x : String} :
    x ∈ allVars mm ↔ ∃ n ∈ mm.allNodes, x ∈ mm.useAt n ∪ mm.defsAt n := by
  rw [allVars, Finset.mem_biUnion]
  simp only [List.mem_toFinset]

/-- The solver starts with every pair of different variables. -/
theorem mem_computeTop {mm : MatchMaker} {c : Copy} : c ∈ computeTop mm ↔
    c.late ∈ allVars mm ∧ c.early ∈ allVars mm ∧ c.late ≠ c.early := by
  rw [computeTop, Finset.mem_image]
  constructor
  · rintro ⟨⟨late, early⟩, hmem, rfl⟩
    obtain ⟨hprod, hne⟩ := Finset.mem_filter.mp hmem
    obtain ⟨hlate, hearly⟩ := Finset.mem_product.mp hprod
    exact ⟨hlate, hearly, hne⟩
  · rintro ⟨hlate, hearly, hne⟩
    refine ⟨(c.late, c.early), ?_, rfl⟩
    exact Finset.mem_filter.mpr ⟨Finset.mem_product.mpr ⟨hlate, hearly⟩, hne⟩

/-- So is one that is defined. -/
theorem def_mem_allVars {mm : MatchMaker} {n : ℕ} {x : String} (hn : n ∈ mm.allNodes)
    (hx : x ∈ mm.defsAt n) : x ∈ allVars mm :=
  mem_allVars.mpr ⟨n, hn, Finset.mem_union_right _ hx⟩

/-- The top value is a set of such pairs. -/
theorem computeTop_subset (mm : MatchMaker) : computeTop mm ⊆ pairs mm := by
  intro c hc
  obtain ⟨⟨x, y⟩, hxy, rfl⟩ := Finset.mem_image.mp hc
  obtain ⟨hx, hy⟩ := Finset.mem_product.mp (Finset.mem_filter.mp hxy).1
  obtain ⟨n, -, hx⟩ := mem_allVars.mp hx
  obtain ⟨n', -, hy⟩ := mem_allVars.mp hy
  exact mem_pairs hx hy

/-- Copy propagation is a gen-kill analysis. -/
theorem isGenKill (mm : MatchMaker) : (analysis (computeTop mm)).IsGenKill mm (pairs mm)
    (kill (computeTop mm) mm) (gen mm) where
  transition_eq n info := rfl
  meet_le := Versus.inter_le
  meet_subset ha _ := Finset.inter_subset_left.trans ha
  isInfo := rfl
  top_subset := computeTop_subset mm
  gen_subset n c hc := by
    obtain ⟨hlate, hearly⟩ := mem_gen hc
    exact mem_pairs (Finset.mem_union_right _ hlate) (Finset.mem_union_left _ hearly)

/-! ## Rewriting -/

/-- `replaceVar`, and whether it changed anything. -/
def replaceVar (find : String → Option Copy) : CFGExpr → CFGExpr × Bool
  | .BOp left right op =>
    let l := replaceVar find left
    let r := replaceVar find right
    (.BOp l.1 r.1 op, l.2 || r.2)
  | .Const value => (.Const value, false)
  | .Label name => (.Label name, false)
  | .Mem loc =>
    let e := replaceVar find loc
    (.Mem e.1, e.2)
  | .Var name =>
    match (find name).map Copy.early with
    | some earliest => if earliest ≠ name then (.Var earliest, true) else (.Var name, false)
    | none => (.Var name, false)

/-- `replaceVar` over a list of expressions, and whether one of them has changed. -/
def replaceVars (find : String → Option Copy) (es : List CFGExpr) : List CFGExpr × Bool :=
  (es.map fun e => (replaceVar find e).1, es.any fun e => (replaceVar find e).2)

/-- The rewriting of one node. -/
def rewriteNode (find : String → Option Copy) : CFGNode → CFGNode × Bool
  | .Funcking name movIntos args edge =>
    let r := replaceVars find args
    (.Funcking name movIntos r.1 edge, r.2)
  | .If cond take edge =>
    let r := replaceVar find cond
    (.If r.1 take edge, r.2)
  | .mov (.Gets varName expr) edge =>
    let r := replaceVar find expr
    (.mov (.Gets varName r.1) edge, r.2)
  | .mov (.Mem loc expr) edge =>
    let l := replaceVar find loc
    let e := replaceVar find expr
    (.mov (.Mem l.1 e.1) edge, l.2 || e.2)
  | .Return rets =>
    let r := replaceVars find rets
    (.Return r.1, r.2)
  | .Start name edge => (.Start name edge, false)
  | .Cricket dest => (.Cricket dest, false)
  | .NOOP => (.NOOP, false)

variable (top : Finset Copy) (order : ℕ → SetOrder) (values : Edge → Option (Finset Copy))

/-- The body of the loop of `propagateEqualVars`. -/
def propagateNode (s : MatchMaker × List ℕ) (n : ℕ) : Option (MatchMaker × List ℕ) := do
  let met ← (analysis top).bigMeet values (s.1.predecessorEdges n)
  match s.1.nodes[n]? with
  | some node =>
    let r := rewriteNode ((order n).find met) node
    some ({ s.1 with nodes := s.1.nodes.set n r.1 }, if r.2 then s.2 ++ [n] else s.2)
  | none => some s

/-- `propagateEqualVars`: the graph, and the nodes that changed. -/
def propagateEqualVars (mm : MatchMaker) : Option (MatchMaker × List ℕ) :=
  mm.predecessors.keys.foldlM (propagateNode top order values) (mm, [])

/-- The loop of `postprocess`, given what the last call of `propagateEqualVars` reported; `none` also when
it makes more than `fuel` rounds. -/
def postprocessLoop (picks : ℕ → ℕ) (orders : ℕ → ℕ → SetOrder) (fuel : ℕ) (mm : MatchMaker)
    (values : Edge → Option (Finset Copy)) (propagateCopies : List ℕ) : Option MatchMaker :=
  if propagateCopies = [] then some mm
  else
    match fuel with
    | 0 => none
    | fuel + 1 => do
      let (mm', propagateCopies) ← propagateEqualVars top (orders fuel) values mm
      let s ← (analysis top).runWithWorklist mm' picks propagateCopies values
      postprocessLoop picks orders fuel mm' s.values propagateCopies

/-- `postprocess`: one call in front of the loop. -/
def postprocess (picks : ℕ → ℕ) (orders : ℕ → ℕ → SetOrder) (fuel : ℕ) (mm : MatchMaker)
    (values : Edge → Option (Finset Copy)) : Option MatchMaker := do
  let (mm', propagateCopies) ← propagateEqualVars top (orders fuel) values mm
  postprocessLoop top picks orders fuel mm' values propagateCopies

/-! ## What a call changes -/

variable {top order values} {mm mm' : MatchMaker} {changed : List ℕ}

/-- The rewriting of a graph leaves the edges as they are. -/
structure SameEdges (mm mm' : MatchMaker) : Prop where
  predecessors : mm'.predecessors = mm.predecessors
  successors : mm'.successors = mm.successors

/-- A graph has its own edges. -/
theorem SameEdges.refl (mm : MatchMaker) : SameEdges mm mm := ⟨rfl, rfl⟩

/-- Two rewritings in a row. -/
theorem SameEdges.trans {mm₁ mm₂ mm₃ : MatchMaker} (h : SameEdges mm₁ mm₂) (h' : SameEdges mm₂ mm₃) :
    SameEdges mm₁ mm₃ :=
  ⟨h'.predecessors.trans h.predecessors, h'.successors.trans h.successors⟩

/-- The edges stay consistent. -/
theorem SameEdges.repOk (h : SameEdges mm mm') (hrep : mm.RepOk) : mm'.RepOk := by
  obtain ⟨nodes, pred, succ⟩ := mm
  obtain ⟨nodes', pred', succ'⟩ := mm'
  obtain ⟨hpred, hsucc⟩ := h
  cases hpred
  cases hsucc
  exact ⟨hrep.mem_into, hrep.fall_unique, hrep.nonempty⟩

/-- The edges into a node stay. -/
theorem SameEdges.predecessorEdges (h : SameEdges mm mm') (n : ℕ) :
    mm'.predecessorEdges n = mm.predecessorEdges n := by
  rw [MatchMaker.predecessorEdges, MatchMaker.predecessorEdges, MatchMaker.into, MatchMaker.into,
    h.predecessors]

/-- The edges out of a node stay. -/
theorem SameEdges.successorEdges (h : SameEdges mm mm') (n : ℕ) :
    mm'.successorEdges n = mm.successorEdges n := by
  rw [MatchMaker.successorEdges, MatchMaker.successorEdges, MatchMaker.jumpingTo, MatchMaker.jumpingTo,
    MatchMaker.fallThrough, MatchMaker.fallThrough, h.successors]

/-- All edges stay. -/
theorem SameEdges.edges (h : SameEdges mm mm') : mm'.edges = mm.edges := by
  have hsucc : mm'.successorEdges = mm.successorEdges := funext h.successorEdges
  rw [MatchMaker.edges, MatchMaker.edges, hsucc, MatchMaker.allNodes, MatchMaker.allNodes,
    h.predecessors, h.successors]

/-- What a call does to a node: it is rewritten with the facts met at it. -/
def Rewrites (top : Finset Copy) (order : ℕ → SetOrder) (values : Edge → Option (Finset Copy))
    (mm mm' : MatchMaker) (changed : List ℕ) (n : ℕ) : Prop :=
  ∃ met, (analysis top).bigMeet values (mm.predecessorEdges n) = some met ∧
    mm'.nodes[n]? = mm.nodes[n]?.map (fun node => (rewriteNode ((order n).find met) node).1) ∧
    (n ∈ changed ↔ ∃ node, mm.nodes[n]? = some node ∧
      (rewriteNode ((order n).find met) node).2 = true)

/-- One step of the loop rewrites its node and no other. -/
theorem propagateNode_spec {acc acc' : List ℕ} {n : ℕ} (hacc : n ∉ acc)
    (h : propagateNode top order values (mm, acc) n = some (mm', acc')) :
    SameEdges mm mm' ∧ Rewrites top order values mm mm' acc' n ∧
      (∀ m, m ≠ n → mm'.nodes[m]? = mm.nodes[m]? ∧ (m ∈ acc' ↔ m ∈ acc)) ∧
      (acc.Nodup → acc'.Nodup) := by
  obtain ⟨met, hmeet, h⟩ := Option.bind_eq_some_iff.mp h
  dsimp only at hmeet h
  cases hn : mm.nodes[n]? with
  | none =>
    rw [hn] at h
    cases h
    refine ⟨.refl mm, ⟨met, hmeet, by rw [hn]; rfl, ?_⟩, fun m _ => ⟨rfl, Iff.rfl⟩, id⟩
    simp [hn, hacc]
  | some node =>
    rw [hn] at h
    dsimp only at h
    cases h
    have hlt := (List.getElem?_eq_some_iff.mp hn).1
    refine ⟨⟨rfl, rfl⟩, ⟨met, hmeet, ?_, ?_⟩, fun m hm => ⟨?_, ?_⟩, fun hnodup => ?_⟩
    · rw [hn]
      exact List.getElem?_set_self hlt
    · split_ifs with hchanged
      · simp [hn, hchanged]
      · simp [hn, hchanged, hacc]
    · exact List.getElem?_set_ne (Ne.symm hm)
    · split_ifs
      · simp [hm]
      · rfl
    · split_ifs
      · exact hnodup.append (List.nodup_singleton n) (by simpa using hacc)
      · exact hnodup

/-- The loop rewrites each of its nodes from the values at its entry. The induction keeps what was reported
so far. -/
theorem foldlM_propagateNode_spec {keys acc : List ℕ} (hkeys : keys.Nodup)
    (hacc : ∀ n ∈ keys, n ∉ acc) (hnodup : acc.Nodup)
    (h : keys.foldlM (propagateNode top order values) (mm, acc) = some (mm', changed)) :
    SameEdges mm mm' ∧ changed.Nodup ∧ (∀ n ∈ keys, Rewrites top order values mm mm' changed n) ∧
      ∀ n, n ∉ keys → mm'.nodes[n]? = mm.nodes[n]? ∧ (n ∈ changed ↔ n ∈ acc) := by
  induction keys generalizing mm acc with
  | nil =>
    cases h
    exact ⟨.refl _, hnodup, by simp, fun n _ => ⟨rfl, Iff.rfl⟩⟩
  | cons k keys ih =>
    obtain ⟨hk, hkeys⟩ := List.nodup_cons.mp hkeys
    rw [List.foldlM_cons] at h
    obtain ⟨⟨mm₁, acc₁⟩, hstep, hrest⟩ := Option.bind_eq_some_iff.mp h
    obtain ⟨hsame₁, hrewrites, hother, hnd⟩ := propagateNode_spec (hacc k List.mem_cons_self) hstep
    have hne : ∀ n ∈ keys, n ≠ k := fun n hn hnk => hk (hnk ▸ hn)
    have hacc₁ : ∀ n ∈ keys, n ∉ acc₁ := by
      intro n hn hmem
      exact hacc n (List.mem_cons_of_mem _ hn) ((hother n (hne n hn)).2.mp hmem)
    obtain ⟨hsame₂, hnodup₂, hkeys₂, hrest₂⟩ := ih hkeys hacc₁ (hnd hnodup) hrest
    refine ⟨hsame₁.trans hsame₂, hnodup₂, fun n hn => ?_, fun n hn => ?_⟩
    · by_cases hnk : n = k
      · subst hnk
        obtain ⟨met, hmeet, hnode, hchanged⟩ := hrewrites
        obtain ⟨hkeep, hmem⟩ := hrest₂ n hk
        exact ⟨met, hmeet, hkeep.trans hnode, hmem.trans hchanged⟩
      · obtain ⟨met, hmeet, hnode, hchanged⟩ :=
          hkeys₂ n ((List.mem_cons.mp hn).resolve_left hnk)
        rw [hsame₁.predecessorEdges] at hmeet
        rw [(hother n hnk).1] at hnode hchanged
        exact ⟨met, hmeet, hnode, hchanged⟩
    · rw [List.mem_cons, not_or] at hn
      obtain ⟨hkeep, hmem⟩ := hrest₂ n hn.2
      obtain ⟨hkeep₁, hmem₁⟩ := hother n hn.1
      exact ⟨hkeep.trans hkeep₁, hmem.trans hmem₁⟩

/-- A call rewrites the nodes with predecessors and reports those that changed. -/
theorem propagateEqualVars_spec
    (h : propagateEqualVars top order values mm = some (mm', changed)) :
    SameEdges mm mm' ∧ changed.Nodup ∧
      (∀ n ∈ mm.predecessors.keys, Rewrites top order values mm mm' changed n) ∧
      ∀ n, n ∉ mm.predecessors.keys → mm'.nodes[n]? = mm.nodes[n]? ∧ n ∉ changed := by
  obtain ⟨hsame, hnodup, hkeys, hother⟩ := foldlM_propagateNode_spec mm.predecessors.nodup
    (fun n _ => List.not_mem_nil) List.nodup_nil h
  refine ⟨hsame, hnodup, hkeys, fun n hn => ?_⟩
  obtain ⟨hkeep, hmem⟩ := hother n hn
  exact ⟨hkeep, fun h => List.not_mem_nil (hmem.mp h)⟩

/-! ## The solver's values after rewriting -/

/-- The facts the node passes on are no longer those it computes. -/
def Stale (top : Finset Copy) (mm mm' : MatchMaker) (values : Edge → Option (Finset Copy)) (n : ℕ) :
    Prop :=
  mm.successorEdges n ≠ [] ∧ ∃ met, (analysis top).bigMeet values (mm.predecessorEdges n) = some met ∧
    (met \ kill top mm' n) ∪ gen mm' n ≠ (met \ kill top mm n) ∪ gen mm n

/-- A node that is not rewritten is not stale, as long as the variables of the graph stay the same. -/
theorem not_stale {n : ℕ} (hnode : mm'.nodes[n]? = mm.nodes[n]?) (hvars : allVars mm' = allVars mm) :
    ¬ Stale top mm mm' values n := by
  rintro ⟨-, met, -, hstale⟩
  refine hstale ?_
  rw [kill, kill, gen, gen, MatchMaker.defsAt, MatchMaker.defsAt, hnode, hvars]

/-- At a fixpoint, a rewritten node satisfies its equation unless it is stale. -/
theorem SameEdges.holds_iff (h : SameEdges mm mm') (hfix : (analysis top).AtFixpoint mm values) (n : ℕ) :
    (analysis top).Holds mm' values n ↔ ¬ Stale top mm mm' values n := by
  obtain ⟨met, newEdges, hmeet, htrans, hold⟩ := hfix.holds n
  have hmeet : (analysis top).bigMeet values (mm.predecessorEdges n) = some met := hmeet
  have hold : ∀ e ∈ mm.successorEdges n, values e = some ((met \ kill top mm n) ∪ gen mm n) :=
    fun e he => (hold e he).trans (by rw [← Option.some.inj htrans])
  constructor
  · rintro ⟨met', newEdges', hmeet', htrans', hnew⟩ ⟨hne, met'', hmeet'', hstale⟩
    have hmeet' : (analysis top).bigMeet values (mm'.predecessorEdges n) = some met' := hmeet'
    rw [h.predecessorEdges, hmeet''] at hmeet'
    cases hmeet'
    cases hmeet.symm.trans hmeet''
    obtain ⟨e, he⟩ := List.exists_mem_of_ne_nil _ hne
    have hwrites : (analysis top).writes mm' n = mm.successorEdges n := h.successorEdges n
    have hnewe : values e = some (newEdges' e) := hnew e (hwrites ▸ he)
    rw [hold e he, ← Option.some.inj htrans'] at hnewe
    exact hstale (Option.some.inj hnewe).symm
  · intro hnot
    refine ⟨met, _, ?_, rfl, fun e he => ?_⟩
    · show (analysis top).bigMeet values (mm'.predecessorEdges n) = some met
      rw [h.predecessorEdges, hmeet]
    · have he : e ∈ mm.successorEdges n := h.successorEdges n ▸ he
      rw [hold e he]
      by_contra hne
      refine hnot ⟨List.ne_nil_of_mem he, met, hmeet, fun heq => hne ?_⟩
      exact congrArg some heq.symm

/-- After rewriting and a run that empties its list, the values are a fixpoint again where every node
outside the list passes on what it did before. If the list is empty, only there. -/
theorem round_fixpoint {picks : ℕ → ℕ} {s' : Solver (Finset Copy)} (hrep : mm.RepOk)
    (hfix : (analysis top).AtFixpoint mm values) (hsame : SameEdges mm mm') (hnodup : changed.Nodup)
    (hrun : (analysis top).runWithWorklist mm' picks changed values = some s')
    (hempty : s'.worklist = []) :
    ((∀ n, n ∉ changed → ¬ Stale top mm mm' values n) → (analysis top).AtFixpoint mm' s'.values) ∧
      (changed = [] → (analysis top).AtFixpoint mm' s'.values →
        ∀ n, ¬ Stale top mm mm' values n) := by
  have hfill : (analysis top).fill mm' values = values :=
    CFGFlow.fill_eq_self fun e he => hfix.isSome e (hsame.edges ▸ he)
  constructor
  · intro hkept
    refine CFGFlow.runWithWorklist_fixpoint (hsame.repOk hrep) hnodup (fun n hn => ?_) hrun hempty
    rw [hfill]
    exact (hsame.holds_iff hfix n).mpr (hkept n hn)
  · rintro rfl hfix' n
    have hstay : s' = ⟨[], values⟩ := by
      have hloop : (analysis top).loop mm' picks ⟨[], (analysis top).fill mm' values⟩ THRESHOLD =
          some ⟨[], (analysis top).fill mm' values⟩ :=
        CFGFlow.loop_of_empty (j := 0) rfl rfl (Nat.zero_le _)
      have hsome := hrun.symm.trans hloop
      rw [hfill] at hsome
      exact Option.some.inj hsome
    have hholds := hfix'.holds n
    rw [hstay] at hholds
    exact (hsame.holds_iff hfix n).mp hholds

end CopyProp

end Jaek
