import Jaek.Optimize.Dataflow.CopyRounds
import Jaek.Optimize.Dataflow.DeadAssigns

/-!
# A run of the solver that is cut off

After a deletion the solver is run again from the neighbours of the removed node, for at most `THRESHOLD`
steps. In `deadJumps` that many dead jumps lead to a dead assignment, and come before the return on the list
of the new run. The edge to the return is new and never gets a value, so the variable that is returned is
not live, and its assignment is selected next (`deadJumps_selects`).
-/

namespace Jaek

/-! ## The body and its graph -/

/-- `w := 5; L1: x := 1; return w`, and `k` dead jumps to the dead assignment. -/
def deadJumps (k : ℕ) : List FlatStmt :=
  [.move (.temp "w") (.const 5), .label "$L1", .move (.temp "x") (.const 1), .endBlock (.ret [.temp "w"])] ++
    List.replicate k (.endBlock (.jump "$L1"))

/-- The nodes that `CFGBuilder` makes of `deadJumps k`. -/
def jumpNodes (k : ℕ) : List CFGNode :=
  [.Start "f" "$G1", .mov (.Gets "w" (.Const 5)) "$G2", .mov (.Gets "x" (.Const 1)) "$G3",
    .Return [.Var "w"]] ++ List.replicate k (.Cricket "$L1")

/-- The graph of `deadJumps`. -/
structure JumpGraph (k : ℕ) (mm : MatchMaker) : Prop where
  repOk : mm.RepOk
  nodes : mm.nodes = jumpNodes k
  fall : ∀ p, mm.fallThrough p = if p < 3 then some (p + 1) else none
  jump : ∀ p, mm.jumpingTo p = if 4 ≤ p ∧ p < k + 4 then some 2 else none

open CFGBuilder

/-- Behind a return, each jump becomes a node of its own, and nothing points to it. -/
theorem loop_replicate_jump (k : ℕ) (l : String) (b : CFGBuilder) (h : b.pointingTo = none) :
    loop (List.replicate k (.endBlock (.jump l))) [] b =
      some { b with nodes := b.nodes ++ List.replicate k (.Cricket l) } := by
  induction k generalizing b with
  | zero => simp [loop]
  | succ k ih =>
    rw [List.replicate_succ, loop]
    · simp only [createNode]
      rw [ih (b.addNode _ _) h]
      simp [addNode, h, List.replicate_succ]
    · intro l' h'
      cases h'

/-- The labels and points of the body, with the nodes they stand for. -/
def jumpTargets : LinkedMap String ℕ := ⟨[("$G1", 1), ("$G2", 2), ("$L1", 2), ("$G3", 3)], by decide⟩

/-- The state of `CFGBuilder` after the statements. -/
theorem jumpLoop (k : ℕ) :
    loop (deadJumps k) [] (init "f") = some ⟨jumpTargets, jumpNodes k, none, 3⟩ := by
  simp only [deadJumps, loop, createNode, init, pointToNext, addNode, translateMove,
    Option.bind_eq_bind, Option.bind_some, pointName, CFGBuilder.translateExpr, List.nil_append,
    List.cons_append]
  rw [loop_replicate_jump k "$L1" _ rfl]
  rfl

/-- The items of the body, one for each node. -/
def jumpItems (k : ℕ) : List Item :=
  [⟨[], .Start "f" "$G1"⟩, ⟨[], .mov (.Gets "w" (.Const 5)) "$G2"⟩,
    ⟨["$L1"], .mov (.Gets "x" (.Const 1)) "$G3"⟩, ⟨[], .Return [.Var "w"]⟩] ++
    List.replicate k ⟨[], .Cricket "$L1"⟩

/-- The body is what the pipeline hands to `CFGBuilder`. -/
theorem deadJumps_ok (k : ℕ) : CFGBuilder.BodyOk (deadJumps k) where
  nodup := by simp [deadJumps, labels]
  targets := by
    intro e he l hl
    simp only [deadJumps, List.mem_append, List.mem_cons, List.mem_replicate, reduceCtorEq, false_or,
      List.not_mem_nil, or_false, FlatStmt.endBlock.injEq] at he
    rcases he with rfl | ⟨-, rfl⟩
    · simp [EndBlock.targets] at hl
    · simp only [EndBlock.targets, List.mem_singleton] at hl
      simp [deadJumps, labels, hl]
  names := by
    intro l hl k heq
    rw [show l = "$L1" by simpa [deadJumps, labels] using hl] at heq
    have hlist := congrArg String.toList heq
    rw [CFGBuilder.pointName, String.toList_append] at hlist
    simp at hlist

/-- From the fourth on, the nodes are the jumps. -/
theorem jumpNodes_cricket {k p : ℕ} (hp : 4 ≤ p) :
    (jumpNodes k)[p]? = if p < k + 4 then some (.Cricket "$L1") else none := by
  obtain ⟨q, rfl⟩ := Nat.exists_eq_add_of_le' hp
  show (List.replicate k (CFGNode.Cricket "$L1"))[q]? = _
  rw [List.getElem?_replicate]
  simp

/-- The only assignments are `w := 5` and `x := 1`. -/
theorem jumpNodes_gets {k p : ℕ} {x edge : String} {e : CFGExpr}
    (hp : (jumpNodes k)[p]? = some (.mov (.Gets x e) edge)) :
    (p = 1 ∧ x = "w") ∨ (p = 2 ∧ x = "x") := by
  by_cases hlarge : 4 ≤ p
  · rw [jumpNodes_cricket hlarge] at hp
    split_ifs at hp
    cases hp
  · match p with
    | 0 => cases hp
    | 1 =>
      cases hp
      exact .inl ⟨rfl, rfl⟩
    | 2 =>
      cases hp
      exact .inr ⟨rfl, rfl⟩
    | 3 => cases hp
    | q + 4 => omega

/-- So are the items. -/
theorem jumpItems_cricket (k q : ℕ) :
    (jumpItems k)[q + 4]? = if q < k then some ⟨[], .Cricket "$L1"⟩ else none :=
  List.getElem?_replicate

/-- The first three nodes fall through to the next one. -/
theorem jumpItems_fall (k p : ℕ) :
    fallTo (jumpItems k) jumpTargets p = if p < 3 then some (p + 1) else none := by
  match p with
  | 0 => rfl
  | 1 => rfl
  | 2 => rfl
  | 3 => rfl
  | q + 4 =>
    rw [fallTo, jumpItems_cricket, if_neg (show ¬ q + 4 < 3 by omega)]
    split_ifs <;> rfl

/-- Every dead jump leads to the assignment to `x`. -/
theorem jumpItems_jump (k p : ℕ) :
    jumpTo (jumpItems k) jumpTargets p = if 4 ≤ p ∧ p < k + 4 then some 2 else none := by
  match p with
  | 0 => rfl
  | 1 => rfl
  | 2 => rfl
  | 3 => rfl
  | q + 4 =>
    rw [jumpTo, jumpItems_cricket]
    by_cases hq : q < k
    · rw [if_pos hq, if_pos ⟨by omega, by omega⟩]
      rfl
    · rw [if_neg hq, if_neg (by omega)]
      rfl

/-- `CFGBuilder` makes a graph of this shape of the body. -/
theorem jumpGraph_build (k : ℕ) :
    ∃ mm, CFGBuilder.build "f" (deadJumps k) = some ⟨0, "f", mm⟩ ∧ JumpGraph k mm := by
  have hfall := jumpItems_fall k
  have hnodes : jumpNodes k = (jumpItems k).map (·.node) := by simp [jumpItems, jumpNodes]
  have hnoop : ∀ n ∈ jumpNodes k, n ≠ .NOOP := by
    rintro n hn rfl
    simp [jumpNodes] at hn
  have hinj : ∀ p p' q, fallTo (jumpItems k) jumpTargets p = some q →
      fallTo (jumpItems k) jumpTargets p' = some q → p = p' := by
    intro p p' q hp hp'
    rw [hfall] at hp hp'
    split_ifs at hp hp'
    rw [Option.some.injEq] at hp hp'
    omega
  obtain ⟨mm, hrun, hrep, hnodes', hfall', hjump'⟩ := resolveAll_spec (jumpItems k) jumpTargets 0
    (jumpNodes k) (.ofNodes (jumpNodes k)) hnodes hnoop hinj (MatchMaker.ofNodes_repOk _)
    (fun p => by simp [MatchMaker.fallThrough, MatchMaker.ofNodes])
    (fun p => by simp [MatchMaker.jumpingTo, MatchMaker.ofNodes])
  refine ⟨mm, ?_, hrep, hnodes', fun p => (hfall' p).trans (hfall p),
    fun p => (hjump' p).trans (jumpItems_jump k p)⟩
  rw [CFGBuilder.build, jumpLoop]
  show (resolveAll jumpTargets 0 (jumpNodes k) _).bind _ = _
  rw [hrun]
  rfl

namespace JumpGraph

variable {k : ℕ} {mm : MatchMaker} (h : JumpGraph k mm)
include h

/-- The nodes of the graph. -/
theorem node (p : ℕ) : mm.nodes[p]? = (jumpNodes k)[p]? := by rw [h.nodes]

/-- Its edges. -/
theorem edge_iff (p : ℕ) (jump : Bool) (q : ℕ) : mm.Edge p jump q ↔
    (jump = false ∧ p < 3 ∧ q = p + 1) ∨ (jump = true ∧ 4 ≤ p ∧ p < k + 4 ∧ q = 2) := by
  cases jump with
  | false =>
    show mm.fallThrough p = some q ↔ _
    rw [h.fall]
    simp [eq_comm]
  | true =>
    show mm.jumpingTo p = some q ↔ _
    rw [h.jump]
    simp [eq_comm, and_assoc]

/-- The edges out of a node. -/
theorem successorEdges (n : ℕ) : mm.successorEdges n =
    if n < 3 then [⟨n, n + 1, false⟩] else if 4 ≤ n ∧ n < k + 4 then [⟨n, 2, true⟩] else [] := by
  rw [MatchMaker.successorEdges, h.fall, h.jump]
  split_ifs with hn hn'
  · omega
  · rfl
  · rfl
  · rfl

end JumpGraph

/-- The live variables of `deadJumps`. -/
def jumpValues (e : Edge) : Option (Finset String) :=
  if e.node = 1 then some ∅
  else if e.node = 2 ∨ e.src = 2 then some {"w"}
  else none

/-- The variables live behind a node of `deadJumps`. -/
def jumpLive (k n : ℕ) : Finset String :=
  if n = 1 ∨ n = 2 ∨ (4 ≤ n ∧ n < k + 4) then {"w"} else ∅

namespace JumpGraph

variable {k : ℕ} {mm : MatchMaker} (h : JumpGraph k mm)
include h

/-- What is live behind each node, under `jumpValues`. -/
theorem bigMeet_eq (n : ℕ) : DeadCodeRem.analysis.bigMeet jumpValues (mm.successorEdges n) =
    some (jumpLive k n) := by
  rw [h.successorEdges]
  match n with
  | 0 => rfl
  | 1 => rfl
  | 2 => rfl
  | 3 =>
    rw [if_neg (by omega), if_neg (by omega), jumpLive, if_neg (by omega)]
    rfl
  | q + 4 =>
    rw [if_neg (by omega), jumpLive]
    by_cases hq : 4 ≤ q + 4 ∧ q + 4 < k + 4
    · rw [if_pos hq, if_pos (.inr (.inr hq))]
      rfl
    · rw [if_neg hq, if_neg (by omega)]
      rfl

/-- `jumpValues` is a fixpoint of the liveness equations. -/
theorem atFixpoint : DeadCodeRem.analysis.AtFixpoint mm jumpValues where
  isSome e he := by
    have hedge := (h.edge_iff _ _ _).mp (MatchMaker.mem_edges.mp he)
    rw [jumpValues]
    split_ifs
    · rfl
    · rfl
    · omega
  holds n := by
    refine ⟨_, _, h.bigMeet_eq n, rfl, ?_⟩
    rintro ⟨p, q, jump⟩ he
    obtain ⟨rfl, hedge⟩ := h.repOk.mem_predecessorEdges.mp he
    have hedge := (h.edge_iff _ _ _).mp hedge
    have huse : mm.useAt q = ((jumpNodes k)[q]?.map Properties.use).getD ∅ := by
      rw [MatchMaker.useAt, h.node]
    have hdefs : mm.defsAt q = ((jumpNodes k)[q]?.map Properties.defs).getD ∅ := by
      rw [MatchMaker.defsAt, h.node]
    rw [huse, hdefs]
    have hq : (q = 1) ∨ (q = 2) ∨ (q = 3 ∧ p = 2) := by
      dsimp only at hedge
      omega
    rcases hq with rfl | rfl | ⟨rfl, rfl⟩
    · rfl
    · rfl
    · rfl

end JumpGraph

/-! ## The graph after the dead assignment is removed -/

open DeadCodeRem

/-- The graph of `deadJumps` without `x := 1`. -/
structure ShortGraph (k : ℕ) (mm : MatchMaker) : Prop where
  repOk : mm.RepOk
  nodes : mm.nodes = jumpNodes k
  edge_iff : ∀ p jump q, mm.Edge p jump q ↔ (jump = false ∧ p = 0 ∧ q = 1) ∨
    (jump = false ∧ p = 1 ∧ q = 3) ∨ (jump = true ∧ 4 ≤ p ∧ p < k + 4 ∧ q = 3)

namespace JumpGraph

variable {k : ℕ} {mm : MatchMaker} (h : JumpGraph k mm)
include h

/-- The nodes in front of the assignment to `x`. -/
theorem mem_predecessorNodes {p : ℕ} : p ∈ mm.predecessorNodes 2 ↔ p = 1 ∨ 4 ≤ p ∧ p < k + 4 := by
  rw [h.repOk.mem_predecessorNodes, h.jump, h.fall]
  constructor
  · rintro (hj | hf)
    · right
      by_contra hp
      simp [hp] at hj
    · left
      split_ifs at hf with hp
      simpa using hf
  · rintro (rfl | hp)
    · exact .inr rfl
    · exact .inl (if_pos hp)

/-- The deletion of the assignment to `x`. -/
theorem removeAndLink : ∃ mm', mm.removeAndLink 2 = some mm' ∧ ShortGraph k mm' := by
  have hfall : mm.fallThrough 2 = some 3 := by simp [h.fall]
  have hjump : mm.jumpingTo 2 = none := by simp [h.jump]
  obtain ⟨mm', hrun, hrep, hnodes, hgone, hfall', hjump'⟩ :=
    h.repOk.removeAndLink_fall hfall hjump (by omega)
  have hinto : mm.into 2 ≠ [] := by
    have hmem := (h.repOk.mem_into 1 false 2).mpr ((h.edge_iff 1 false 2).mpr (.inl ⟨rfl, by omega, rfl⟩))
    exact List.ne_nil_of_mem hmem
  have hgone := hgone hinto
  refine ⟨mm', hrun, hrep, hnodes.trans h.nodes, fun p jump q => ?_⟩
  by_cases hp : p = 2
  · subst hp
    refine iff_of_false ?_ (by omega)
    cases jump with
    | false =>
      show ¬ mm'.fallThrough 2 = some q
      rw [MatchMaker.fallThrough, hgone]
      simp
    | true =>
      show ¬ mm'.jumpingTo 2 = some q
      rw [MatchMaker.jumpingTo, hgone]
      simp
  · cases jump with
    | false =>
      show mm'.fallThrough p = some q ↔ _
      rw [hfall' p hp, h.fall, h.jump]
      obtain rfl | rfl | hlarge : p = 0 ∨ p = 1 ∨ 3 ≤ p := by omega
      · simp [eq_comm]
      · simp [eq_comm]
      · simp [show ¬ p < 3 by omega, show p ≠ 0 by omega, show p ≠ 1 by omega]
    | true =>
      show mm'.jumpingTo p = some q ↔ _
      rw [hjump' p hp, h.jump]
      by_cases hpk : 4 ≤ p ∧ p < k + 4
      · simp [hpk, eq_comm]
      · simp [hpk, ← and_assoc]

end JumpGraph

/-- A node that an edge leads to is a key of the predecessors. -/
theorem mem_keys_of_edge {mm : MatchMaker} (hrep : mm.RepOk) {p q : ℕ} {jump : Bool}
    (h : mm.Edge p jump q) : q ∈ mm.predecessors.keys := by
  have hmem := (hrep.mem_into p jump q).mpr h
  rw [LinkedMap.mem_keys_iff]
  by_contra hnone
  rw [Option.not_isSome_iff_eq_none] at hnone
  rw [MatchMaker.into, hnone] at hmem
  exact List.not_mem_nil hmem

/-- `firstDead` takes the only assignment that is dead. -/
theorem firstDead_eq {mm : MatchMaker} {values : Edge → Option (Finset String)} {b : ℕ} {nodes : List ℕ}
    (hb : b ∈ nodes) (hgets : ∃ x e edge, mm.nodes[b]? = some (.mov (.Gets x e) edge))
    (hdead : ∀ n ∈ nodes, ∀ x e edge, mm.nodes[n]? = some (.mov (.Gets x e) edge) →
      ∃ live, analysis.bigMeet values (mm.successorEdges n) = some live ∧ (x ∉ live ↔ n = b)) :
    firstDead mm values nodes = some (some b) := by
  induction nodes with
  | nil => exact absurd hb List.not_mem_nil
  | cons n nodes ih =>
    rw [List.forall_mem_cons] at hdead
    unfold firstDead
    split
    · rename_i x e edge hn
      obtain ⟨live, hlive, hx⟩ := hdead.1 x e edge hn
      rw [hlive, Option.bind_eq_bind, Option.bind_some]
      by_cases hnb : n = b
      · rw [if_pos (hx.mpr hnb), hnb]
      · rw [if_neg (mt hx.mp hnb)]
        exact ih ((List.mem_cons.mp hb).resolve_left (Ne.symm hnb)) hdead.2
    · rename_i hn
      have hnb : n ≠ b := by
        rintro rfl
        obtain ⟨x, e, edge, hgets⟩ := hgets
        exact hn x e edge hgets
      exact ih ((List.mem_cons.mp hb).resolve_left (Ne.symm hnb)) hdead.2

/-- The assignment to `x` is selected first. -/
theorem JumpGraph.firstDead {k : ℕ} {mm : MatchMaker} (h : JumpGraph k mm) :
    DeadCodeRem.firstDead mm jumpValues mm.predecessors.keys = some (some 2) := by
  refine firstDead_eq ?_ ⟨"x", .Const 1, "$G3", by rw [h.node]; rfl⟩ ?_
  · exact mem_keys_of_edge h.repOk ((h.edge_iff 1 false 2).mpr (.inl ⟨rfl, by omega, rfl⟩))
  · intro n _ x e edge hn
    refine ⟨jumpLive k n, h.bigMeet_eq n, ?_⟩
    rcases jumpNodes_gets (h.node n ▸ hn) with ⟨rfl, rfl⟩ | ⟨rfl, rfl⟩
    · simp [jumpLive]
    · simp [jumpLive]

/-! ## A run that changes nothing -/

section Blank

variable {mm : MatchMaker} {values : Edge → Option (Finset String)}

/-- Edges on which nothing is live meet in nothing. -/
theorem bigMeet_top {edges : List Edge} (h : ∀ e ∈ edges, values e = some ∅) :
    analysis.bigMeet values edges = some ∅ := by
  have hmapM : edges.mapM values = some (List.replicate edges.length ∅) := by
    induction edges with
    | nil => rfl
    | cons e edges ih =>
      rw [List.forall_mem_cons] at h
      rw [List.mapM_cons, h.1, ih h.2]
      rfl
  have hfold : ∀ n : ℕ, (List.replicate n (∅ : Finset String)).foldl analysis.meet ∅ = ∅ := by
    intro n
    induction n with
    | zero => rfl
    | succ n ih => exact ih
  rw [CFGFlow.bigMeet, hmapM, Option.map_some]
  cases edges with
  | nil => rfl
  | cons e edges => exact congrArg some (hfold edges.length)

variable (hvalues : ∀ e ∈ mm.edges, values e = some ∅)
include hvalues

/-- Nothing is live behind any node, as long as every edge has the top value. -/
theorem bigMeet_blank (n : ℕ) : analysis.bigMeet values (mm.successorEdges n) = some ∅ :=
  bigMeet_top fun e he => hvalues e (MatchMaker.mem_edges.mpr (MatchMaker.mem_successorEdges.mp he).2)

/-- A node that uses nothing changes nothing. -/
theorem process_blank (hrep : mm.RepOk) {p : ℕ} (huse : mm.useAt p = ∅) (counter : ℕ) (wklist : List ℕ) :
    analysis.process mm counter p ⟨wklist, values⟩ = some ⟨wklist.erase p, values⟩ := by
  have hupdate : ∀ edges : List Edge, (∀ e ∈ edges, e ∈ mm.edges) →
      edges.foldlM (analysis.update counter fun _ => ∅) ⟨wklist.erase p, values⟩ =
        some ⟨wklist.erase p, values⟩ := by
    intro edges
    induction edges with
    | nil => exact fun _ => rfl
    | cons e edges ih =>
      intro hedges
      rw [List.forall_mem_cons] at hedges
      rw [List.foldlM_cons, CFGFlow.update, if_pos (hvalues e hedges.1)]
      exact ih hedges.2
  have htransition : analysis.transition mm p ∅ = some fun _ => ∅ := by
    show some (fun _ => mm.useAt p ∪ (∅ \ mm.defsAt p)) = _
    rw [huse, Finset.empty_sdiff, Finset.union_empty]
  rw [CFGFlow.process, show analysis.bigMeet values (analysis.reads mm p) = some ∅ from
    bigMeet_blank hvalues p, Option.bind_eq_bind, Option.bind_some, htransition, Option.bind_eq_bind,
    Option.bind_some]
  exact hupdate _ fun e he => MatchMaker.mem_edges.mpr (hrep.mem_predecessorEdges.mp he).2

/-- Such a run takes the nodes of its list one after another. -/
theorem loop_blank (hrep : mm.RepOk) {front : List ℕ} (hfront : ∀ p ∈ front, mm.useAt p = ∅)
    (back : List ℕ) :
    analysis.loop mm (fun _ => 0) ⟨front ++ back, values⟩ front.length = some ⟨back, values⟩ := by
  have hsteps : ∀ i ≤ front.length, analysis.loop mm (fun _ => 0) ⟨front ++ back, values⟩ i =
      some ⟨front.drop i ++ back, values⟩ := by
    intro i
    induction i with
    | zero => exact fun _ => rfl
    | succ i ih =>
      intro hi
      have hdrop : front.drop i = front[i] :: front.drop (i + 1) := List.drop_eq_getElem_cons hi
      rw [CFGFlow.loop, ih (by omega), Option.bind_some, hdrop, CFGFlow.iteration]
      show analysis.process mm i (CFGFlow.taken (fun _ => 0) i front[i] _) _ = _
      rw [CFGFlow.taken, Nat.zero_mod, List.getD_cons_zero,
        process_blank hvalues hrep (hfront _ (List.getElem_mem hi)), List.cons_append, List.erase_cons_head]
  rw [hsteps front.length le_rfl, List.drop_length, List.nil_append]

end Blank

namespace ShortGraph

variable {k : ℕ} {mm : MatchMaker} {values : Edge → Option (Finset String)} (h : ShortGraph k mm)
include h

/-- The nodes that the run takes use nothing. -/
theorem useAt_eq {p : ℕ} (hp : p = 1 ∨ 4 ≤ p ∧ p < k + 4) : mm.useAt p = ∅ := by
  rw [MatchMaker.useAt, h.nodes]
  rcases hp with rfl | hp
  · rfl
  · rw [jumpNodes_cricket hp.1, if_pos hp.2]
    rfl

/-- The new edges get the empty set, and the one in front of the jumps has it. -/
theorem fill_eq {e : Edge} (he : e ∈ mm.edges) : analysis.fill mm jumpValues e = some ∅ := by
  have hedge := (h.edge_iff _ _ _).mp (MatchMaker.mem_edges.mp he)
  obtain ⟨p, q, jump⟩ := e
  dsimp only at hedge
  by_cases hq : q = 1
  · rw [CFGFlow.fill_of_isSome (by simp [jumpValues, hq])]
    simp [jumpValues, hq]
  · have hnone : jumpValues ⟨p, q, jump⟩ = none := by
      rw [jumpValues, if_neg hq, if_neg]
      dsimp only
      omega
    rw [CFGFlow.fill, if_pos ⟨hnone, he⟩]
    rfl

/-- With nothing live, the assignment to `w` is selected. -/
theorem firstDead (hvalues : ∀ e ∈ mm.edges, values e = some ∅) :
    DeadCodeRem.firstDead mm values mm.predecessors.keys = some (some 1) := by
  have hnode : ∀ p : ℕ, mm.nodes[p]? = (jumpNodes k)[p]? := fun p => by rw [h.nodes]
  refine firstDead_eq ?_ ⟨"w", .Const 5, "$G2", by rw [hnode]; rfl⟩ ?_
  · exact mem_keys_of_edge h.repOk ((h.edge_iff 0 false 1).mpr (.inl ⟨rfl, rfl, rfl⟩))
  · intro n hn x e edge hgets
    refine ⟨∅, bigMeet_blank hvalues n, ?_⟩
    rw [hnode] at hgets
    rcases jumpNodes_gets hgets with ⟨rfl, -⟩ | ⟨rfl, -⟩
    · simp
    · -- Nothing leads to the removed node.
      have hnil := h.repOk.nonempty 2 ((LinkedMap.mem_keys_iff _).mp hn)
      obtain ⟨⟨p, jump⟩, hmem⟩ := List.exists_mem_of_ne_nil _ hnil
      have hedge := (h.edge_iff p jump 2).mp ((h.repOk.mem_into p jump 2).mp hmem)
      omega

end ShortGraph

/-! ## The assignment that is selected then -/

/-- `w` is zero at every point of a run without `w := 5`. -/
def Unassigned (mm : MatchMaker) : NodeConfig Unit → Prop
  | .inside n rest s => s.temps "w" = 0 ∧ ∀ st ∈ rest, n ≠ 1 ∧ st ∈ mm.stmtsAt n
  | .returned => True

namespace ShortGraph

variable {k : ℕ} {mm : MatchMaker} (h : ShortGraph k mm)
include h

/-- The statements of a node. -/
theorem stmtsAt_eq (n : ℕ) : mm.stmtsAt n = (((jumpNodes k)[n]?).map CFGNode.stmts).getD [] := by
  rw [MatchMaker.stmtsAt, h.nodes]

/-- Other than `w := 5`, there are two of them. -/
theorem mem_stmtsAt {n : ℕ} {st : FlatStmt} (hst : st ∈ mm.stmtsAt n) (hn : n ≠ 1) :
    st = .move (.temp "x") (.const 1) ∨ st = .endBlock (.ret [.temp "w"]) := by
  rw [h.stmtsAt_eq] at hst
  match n with
  | 0 => exact absurd hst List.not_mem_nil
  | 1 => exact absurd rfl hn
  | 2 => exact .inl (List.mem_singleton.mp hst)
  | 3 => exact .inr (List.mem_singleton.mp hst)
  | q + 4 =>
    rw [jumpNodes_cricket (by omega)] at hst
    split_ifs at hst
    · exact absurd hst List.not_mem_nil
    · exact absurd hst List.not_mem_nil

/-- A step without `w := 5` keeps `w` at zero and does not return 5. -/
theorem unassigned_step {c c' : NodeConfig Unit} {a : Option (Event Unit)} (hc : Unassigned mm c)
    (hstep : (mm.skipping noMemory 1).step c a c') : Unassigned mm c' ∧ a ≠ some (.ret [5]) := by
  cases hstep with
  | exec hexec =>
    obtain ⟨hw, hrest⟩ := hc
    rw [List.forall_mem_cons] at hrest
    rcases h.mem_stmtsAt hrest.1.2 hrest.1.1 with rfl | rfl
    · cases hexec with
      | moveTemp _ => exact ⟨⟨by simpa [Store.set] using hw, hrest.2⟩, by simp⟩
    · cases hexec
  | ret hvs =>
    obtain ⟨hw, hrest⟩ := hc
    rw [List.forall_mem_cons] at hrest
    rcases h.mem_stmtsAt hrest.1.2 hrest.1.1 with hst | hst
    · cases hst
    · cases hst
      have hret := Option.some.inj (hvs.symm.trans
        (show evalList noMemory _ [.temp "w"] = some [0] by simp [evalList, LIRExpr.eval, hw]))
      rw [hret]
      refine ⟨trivial, fun heq => ?_⟩
      simp only [Option.some.injEq, Event.ret.injEq] at heq
      exact absurd heq (by decide)
  | @leave n m jump s _ _ =>
    refine ⟨⟨hc.1, fun st hst => ?_⟩, by simp⟩
    by_cases hm : m = 1
    · simp [hm] at hst
    · rw [if_neg hm] at hst
      exact ⟨hm, hst⟩

/-- Without `w := 5` the function does not return 5. -/
theorem skipping_returns {tr : List (Event Unit)} {c c' : NodeConfig Unit} (hc : Unassigned mm c)
    (hrun : ((mm.skipping noMemory 1).hide Event.seen).Run c tr c') : .ret [5] ∉ tr := by
  induction hrun with
  | refl => exact List.not_mem_nil
  | silent hstep _ ih =>
    obtain ⟨a, hstep, -⟩ := hstep
    exact ih (h.unassigned_step hc hstep).1
  | event hstep _ ih =>
    obtain ⟨a, hstep, ha⟩ := hstep
    obtain ⟨hc', hne⟩ := h.unassigned_step hc hstep
    rw [List.mem_cons, not_or]
    refine ⟨?_, ih hc'⟩
    rintro rfl
    exact hne (Option.filter_eq_some_iff.mp ha.symm).1

/-- With it, it does. -/
theorem returns : ∃ c, ((mm.lts noMemory).hide Event.seen).Run (mm.entry 0 zeroStore) [.ret [5]] c := by
  have hleaves : ∀ n < 3, ∀ s, mm.leavesAt noMemory s n = some false := by
    intro n hn s
    rw [MatchMaker.leavesAt, h.nodes]
    interval_cases n <;> rfl
  have hstart : ((mm.lts noMemory).hide Event.seen).step (mm.entry 0 zeroStore) none
      (mm.entry 1 zeroStore) := by
    refine Lts.hide_step (a := none) ?_
    rw [MatchMaker.entry, h.stmtsAt_eq]
    exact .leave (hleaves 0 (by omega) _) ((h.edge_iff 0 false 1).mpr (.inl ⟨rfl, rfl, rfl⟩))
  have hassign : ((mm.lts noMemory).hide Event.seen).step (mm.entry 1 zeroStore) none
      (.inside 1 [] (zeroStore.set "w" 5)) := by
    refine Lts.hide_step (a := some (Event.assign "w" 5)) ?_
    rw [MatchMaker.entry, h.stmtsAt_eq]
    exact .exec (.moveTemp rfl)
  have hleave : ((mm.lts noMemory).hide Event.seen).step (.inside 1 [] (zeroStore.set "w" 5)) none
      (mm.entry 3 (zeroStore.set "w" 5)) := by
    refine Lts.hide_step (a := none) ?_
    exact .leave (hleaves 1 (by omega) _) ((h.edge_iff 1 false 3).mpr (.inr (.inl ⟨rfl, rfl, rfl⟩)))
  have hret : ((mm.lts noMemory).hide Event.seen).step (mm.entry 3 (zeroStore.set "w" 5))
      (some (.ret [5])) .returned := by
    refine Lts.hide_step (a := some (Event.ret [5])) ?_
    rw [MatchMaker.entry, h.stmtsAt_eq]
    exact .ret rfl
  exact ⟨.returned, .silent hstart (.silent hassign (.silent hleave (.event hret (.refl _))))⟩

/-- So `w := 5` is not dead. -/
theorem not_deadAt : ¬ mm.DeadAt noMemory 1 0 zeroStore := by
  intro hdead
  obtain ⟨c, hrun⟩ := h.returns
  obtain ⟨c', hrun', -⟩ := hdead.kept _ _ hrun
  have hstart : Unassigned mm (mm.skipEntry 1 0 zeroStore) := by
    rw [MatchMaker.skipEntry, if_neg (by omega)]
    exact ⟨rfl, fun st hst => ⟨by omega, hst⟩⟩
  exact h.skipping_returns hstart hrun' List.mem_cons_self

end ShortGraph

/-- The dead jumps come before the return on the list of the new run, which ends before it comes to the
return. So `w` is not live, and `w := 5` is selected. -/
theorem deadJumps_selects : CFGBuilder.BodyOk (deadJumps THRESHOLD) ∧
    ∃ mm mm' wklist sol, CFGBuilder.build "f" (deadJumps THRESHOLD) = some ⟨0, "f", mm⟩ ∧
      analysis.AtFixpoint mm jumpValues ∧
      deleteDeadAssigns mm jumpValues = some (mm', wklist) ∧
      analysis.runWithWorklist mm' (fun _ => 0) wklist jumpValues = some sol ∧
      firstDead mm' sol.values mm'.predecessors.keys = some (some 1) ∧
      ¬ mm'.DeadAt noMemory 1 0 zeroStore := by
  obtain ⟨mm, hbuild, hgraph⟩ := jumpGraph_build THRESHOLD
  obtain ⟨mm', hremove, hshort⟩ := hgraph.removeAndLink
  have hdelete : deleteDeadAssigns mm jumpValues = some (mm', changing mm 2) := by
    rw [deleteDeadAssigns, hgraph.firstDead, Option.bind_eq_bind, Option.bind_some]
    simp only [hremove, Option.bind_eq_bind, Option.bind_some]
  have hlong : THRESHOLD ≤ (mm.predecessorNodes 2).length := by
    have hsub : List.range' 4 THRESHOLD ⊆ mm.predecessorNodes 2 := by
      intro p hp
      rw [List.mem_range'_1] at hp
      exact hgraph.mem_predecessorNodes.mpr (.inr ⟨hp.1, by omega⟩)
    have hle := (List.subperm_of_subset List.nodup_range' hsub).length_le
    rwa [List.length_range'] at hle
  have htake : (changing mm 2).take THRESHOLD = (mm.predecessorNodes 2).take THRESHOLD :=
    List.take_append_of_le_length hlong
  have hlength : ((changing mm 2).take THRESHOLD).length = THRESHOLD := by
    rw [htake]
    exact List.length_take_of_le hlong
  have huse : ∀ p ∈ (changing mm 2).take THRESHOLD, mm'.useAt p = ∅ := by
    intro p hp
    rw [htake] at hp
    exact hshort.useAt_eq (hgraph.mem_predecessorNodes.mp (List.mem_of_mem_take hp))
  have hrun := loop_blank (fun e he => hshort.fill_eq he) hshort.repOk huse
    ((changing mm 2).drop THRESHOLD)
  rw [hlength, List.take_append_drop] at hrun
  exact ⟨deadJumps_ok THRESHOLD, mm, mm', _, _, hbuild, hgraph.atFixpoint, hdelete, hrun,
    hshort.firstDead fun e he => hshort.fill_eq he, hshort.not_deadAt⟩

end Jaek
