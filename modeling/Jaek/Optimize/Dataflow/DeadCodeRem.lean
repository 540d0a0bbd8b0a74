import Jaek.Optimize.CFG.CFGBuilder
import Jaek.Optimize.CFG.RemoveAndLink
import Jaek.Optimize.Dataflow.Fixpoint
import Jaek.Optimize.Dataflow.Properties

/-!
# Dead code removal

`DeadCodeRem.kt`: liveness, and the deletion of assignments whose variable is not live behind them.
`delete_fixpoint_iff` says when the solver's values are a fixpoint again after a deletion.
-/

namespace Jaek

namespace DeadCodeRem

/-- `meet`. -/
def meet (e1 e2 : Finset String) : Finset String := e1 ∪ e2

/-- `F_N (out) = use[n] ∪ (out - def[n])`. -/
def transition (mm : MatchMaker) (n : ℕ) (live : Finset String) : Option (Edge → Finset String) :=
  some fun _ => mm.useAt n ∪ (live \ mm.defsAt n)

/-- The analysis of live variables. -/
def analysis : CFGFlow (Finset String) := ⟨false, false, ∅, meet, transition⟩

/-- The first assignment whose variable is not live behind it. -/
def firstDead (mm : MatchMaker) (values : Edge → Option (Finset String)) : List ℕ → Option (Option ℕ)
  | [] => some none
  | n :: nodes =>
    match mm.nodes[n]? with
    | some (.mov (.Gets varName _) _) => do
      let live ← analysis.bigMeet values (mm.successorEdges n)
      if varName ∉ live then some (some n) else firstDead mm values nodes
    | _ => firstDead mm values nodes

/-- `predecessors(remove) union successors(remove)`. -/
def changing (mm : MatchMaker) (n : ℕ) : List ℕ :=
  mm.predecessorNodes n ++ (mm.successorNodes n).filter fun m => m ∉ mm.predecessorNodes n

/-- `deleteDeadAssigns`: one assignment goes, and the nodes to process again are reported. -/
def deleteDeadAssigns (mm : MatchMaker) (values : Edge → Option (Finset String)) :
    Option (MatchMaker × List ℕ) := do
  match ← firstDead mm values mm.predecessors.keys with
  | some n =>
    let mm' ← mm.removeAndLink n
    some (mm', changing mm n)
  | none => some (mm, [])

/-- The variables in use. -/
def vars (mm : MatchMaker) : Finset String := mm.nodes.toFinset.biUnion Properties.use

/-- It is a gen-kill analysis. -/
theorem isGenKill (mm : MatchMaker) : analysis.IsGenKill mm (vars mm) mm.defsAt mm.useAt where
  transition_eq n live := congrArg some (funext fun _ => Finset.union_comm _ _)
  meet_le := Versus.union_le
  meet_subset := Finset.union_subset
  isInfo := rfl
  top_subset := Finset.empty_subset _
  gen_subset n := by
    rw [MatchMaker.useAt]
    cases hn : mm.nodes[n]? with
    | none => exact Finset.empty_subset _
    | some node =>
      exact Finset.subset_biUnion_of_mem Properties.use
        (List.mem_toFinset.mpr (List.mem_of_getElem? hn))

/-! ## Graphs the pass meets -/

/-- Assignments do not jump, and fall-throughs lead forward. -/
structure GraphOk (mm : MatchMaker) : Prop where
  repOk : mm.RepOk
  gets : ∀ n x e edge, mm.nodes[n]? = some (.mov (.Gets x e) edge) → mm.jumpingTo n = none
  forward : ∃ pos : ℕ → ℕ, ∀ p q, mm.fallThrough p = some q → pos p < pos q

/-- A built graph is in shape. -/
theorem build_graphOk {name : String} {block : List FlatStmt} {cfg : CFG}
    (hok : CFGBuilder.BodyOk block) (h : CFGBuilder.build name block = some cfg) : GraphOk cfg.mm := by
  obtain ⟨-, items, hr⟩ := CFGBuilder.build_spec hok h
  refine ⟨hr.repOk, fun n x e edge hn => hr.noJump n ?_, id, fun p q hpq => ?_⟩
  · rw [hr.nodes, List.getElem?_map] at hn
    obtain ⟨it, hit, hnode⟩ := Option.map_eq_some_iff.mp hn
    rw [hit, Option.bind_some, hnode]
    rfl
  · rw [hr.fall] at hpq
    obtain ⟨it, -, hpq⟩ := Option.bind_eq_some_iff.mp hpq
    split_ifs at hpq
    cases hpq
    exact Nat.lt_succ_self p

/-- What a deletion of `b` does to the edges. -/
structure Deleted (mm mm' : MatchMaker) (b : ℕ) : Prop where
  nodes : mm'.nodes = mm.nodes
  no_fall : mm'.fallThrough b = none
  no_jump : mm'.jumpingTo b = none
  outOf : ∀ m, m ≠ b → mm.jumpingTo m ≠ some b → mm.fallThrough m ≠ some b →
    mm'.fallThrough m = mm.fallThrough m ∧ mm'.jumpingTo m = mm.jumpingTo m
  into : ∀ p j m, m ≠ b → mm.fallThrough b ≠ some m → (mm'.Edge p j m ↔ mm.Edge p j m)
  left : ∀ p j, mm'.Edge p j b ↔ j = false ∧ mm.fallThrough p = some b ∧ mm.jumpingTo p = some b ∧
    (mm.fallThrough b).isSome

variable {mm mm' : MatchMaker} {b : ℕ}

/-- Removing an assignment keeps the graph in shape, and links what comes before it to what comes behind
it. -/
theorem removeAndLink_deleted (hok : GraphOk mm) {x : String} {e : CFGExpr} {edge : String}
    (hb : mm.nodes[b]? = some (.mov (.Gets x e) edge)) (hinto : mm.into b ≠ [])
    (h : mm.removeAndLink b = some mm') : GraphOk mm' ∧ Deleted mm mm' b := by
  have hjumpb := hok.gets b x e edge hb
  obtain ⟨pos, hpos⟩ := hok.forward
  cases hfallb : mm.fallThrough b with
  -- Without a fall-through, what came before the node has no edge any more.
  | none =>
    obtain ⟨mm₁, hrun, hrep, hnodes, hfall, hjump⟩ := hok.repOk.removeAndLink_last hfallb hjumpb
    cases hrun.symm.trans h
    refine ⟨⟨hrep, fun n x e edge hn => ?_, pos, fun p q hpq => ?_⟩, ⟨hnodes, ?_, ?_, ?_, ?_, ?_⟩⟩
    · rw [hjump, hok.gets n x e edge (hnodes ▸ hn), ite_self]
    · rw [hfall] at hpq
      split_ifs at hpq
      exact hpos p q hpq
    · rw [hfall, hfallb, ite_self]
    · rw [hjump, hjumpb, ite_self]
    · intro m _ hmj hmf
      rw [hfall, hjump, if_neg hmf, if_neg hmj]
      exact ⟨rfl, rfl⟩
    · intro p j m hm _
      cases j with
      | true =>
        show mm'.jumpingTo p = some m ↔ mm.jumpingTo p = some m
        rw [hjump]
        split_ifs with hp
        · simp [hp, Ne.symm hm]
        · rfl
      | false =>
        show mm'.fallThrough p = some m ↔ mm.fallThrough p = some m
        rw [hfall]
        split_ifs with hp
        · simp [hp, Ne.symm hm]
        · rfl
    · intro p j
      refine iff_of_false ?_ (by simp [hfallb])
      cases j with
      | true =>
        show ¬ mm'.jumpingTo p = some b
        rw [hjump]
        split_ifs with hp
        · simp
        · exact hp
      | false =>
        show ¬ mm'.fallThrough p = some b
        rw [hfall]
        split_ifs with hp
        · simp
        · exact hp
  -- With one, each predecessor gets the edge it had into the node as an edge into the next one.
  | some c =>
    -- Falling through goes forwards, so the next node is another one.
    have hcb : c ≠ b := by
      rintro rfl
      exact lt_irrefl _ (hpos c c hfallb)
    obtain ⟨mm₁, hrun, hrep, hnodes, hnone, hfall, hjump⟩ :=
      hok.repOk.removeAndLink_fall hfallb hjumpb hcb
    cases hrun.symm.trans h
    have hgone := hnone hinto
    have hfallGone : mm'.fallThrough b = none := by
      rw [MatchMaker.fallThrough, hgone]
      rfl
    have hjumpGone : mm'.jumpingTo b = none := by
      rw [MatchMaker.jumpingTo, hgone]
      rfl
    refine ⟨⟨hrep, fun n x e edge hn => ?_, pos, fun p q hpq => ?_⟩,
      ⟨hnodes, hfallGone, hjumpGone, ?_, ?_, ?_⟩⟩
    · by_cases hnb : n = b
      · rw [hnb, hjumpGone]
      · have hold := hok.gets n x e edge (hnodes ▸ hn)
        rw [hjump n hnb, hold]
        simp
    · have hpb : p ≠ b := by
        rintro rfl
        simp [hfallGone] at hpq
      rw [hfall p hpb] at hpq
      split_ifs at hpq with hp
      · cases hpq
        exact (hpos p b hp.1).trans (hpos b c hfallb)
      · exact hpos p q hpq
    · intro m hm hmj hmf
      rw [hfall m hm, hjump m hm, if_neg fun hp => hmf hp.1, if_neg hmj]
      exact ⟨rfl, rfl⟩
    · intro p j m hm hmc
      have hcm : c ≠ m := fun hcm => hmc (hfallb.trans (congrArg some hcm))
      by_cases hpb : p = b
      · subst hpb
        cases j with
        | true => simp [MatchMaker.Edge, hjumpGone, hjumpb]
        | false => simp [MatchMaker.Edge, hfallGone, hfallb, hcm]
      · cases j with
        | true =>
          show mm'.jumpingTo p = some m ↔ mm.jumpingTo p = some m
          rw [hjump p hpb]
          split_ifs with hp
          · simp [hp, hcm, Ne.symm hm]
          · rfl
        | false =>
          show mm'.fallThrough p = some m ↔ mm.fallThrough p = some m
          rw [hfall p hpb]
          split_ifs with hp
          · simp [hp.1, hcm, Ne.symm hm]
          · rfl
    · intro p j
      by_cases hpb : p = b
      · subst hpb
        cases j with
        | true => simp [MatchMaker.Edge, hjumpGone]
        | false => simp [MatchMaker.Edge, hfallGone, hjumpb]
      · cases j with
        | true =>
          refine iff_of_false ?_ (by simp)
          show ¬ mm'.jumpingTo p = some b
          rw [hjump p hpb]
          split_ifs with hp
          · simp [hcb]
          · exact hp
        | false =>
          show mm'.fallThrough p = some b ↔ _
          rw [hfall p hpb]
          split_ifs with hp
          · simp [hcb, hp]
          · rw [not_and, not_not] at hp
            constructor
            · intro hpf
              exact ⟨rfl, hpf, hp hpf, by rw [hfallb]; rfl⟩
            · exact fun h => h.2.1

/-! ## The values after a deletion -/

/-- The node that is found assigns a variable that is not live behind it. -/
theorem firstDead_spec {values : Edge → Option (Finset String)} {nodes : List ℕ}
    (h : firstDead mm values nodes = some (some b)) :
    b ∈ nodes ∧ ∃ x e edge live, mm.nodes[b]? = some (.mov (.Gets x e) edge) ∧
      analysis.bigMeet values (mm.successorEdges b) = some live ∧ x ∉ live := by
  induction nodes with
  | nil => cases h
  | cons n nodes ih =>
    unfold firstDead at h
    split at h
    · rename_i x e edge hn
      obtain ⟨live, hlive, h⟩ := Option.bind_eq_some_iff.mp h
      by_cases hx : x ∉ live
      · rw [if_pos hx] at h
        cases h
        exact ⟨List.mem_cons_self, x, e, edge, live, hn, hlive, hx⟩
      · rw [if_neg hx] at h
        obtain ⟨hmem, hspec⟩ := ih h
        exact ⟨List.mem_cons_of_mem _ hmem, hspec⟩
    · obtain ⟨hmem, hspec⟩ := ih h
      exact ⟨List.mem_cons_of_mem _ hmem, hspec⟩

/-- It is the node that is removed. -/
theorem deleteDeadAssigns_eq {values : Edge → Option (Finset String)} {wklist : List ℕ}
    (hdead : firstDead mm values mm.predecessors.keys = some (some b))
    (h : deleteDeadAssigns mm values = some (mm', wklist)) :
    mm.removeAndLink b = some mm' ∧ wklist = changing mm b := by
  unfold deleteDeadAssigns at h
  obtain ⟨dead, hdead', h⟩ := Option.bind_eq_some_iff.mp h
  cases hdead.symm.trans hdead'
  obtain ⟨mm₁, hremove, h⟩ := Option.bind_eq_some_iff.mp h
  cases h
  exact ⟨hremove, rfl⟩

/-- No node is reported twice. -/
theorem changing_nodup (mm : MatchMaker) (b : ℕ) : (changing mm b).Nodup := by
  refine List.nodup_append.mpr ⟨mm.predecessorNodes_nodup b, (List.nodup_dedup _).filter _, ?_⟩
  rintro a ha a' ha' rfl
  have hnot := (List.mem_filter.mp ha').2
  simp [ha] at hnot

/-- The nodes before and behind the removed one are reported. -/
theorem mem_changing (hrep : mm.RepOk) {m : ℕ} : m ∈ changing mm b ↔
    (mm.jumpingTo m = some b ∨ mm.fallThrough m = some b) ∨
      mm.jumpingTo b = some m ∨ mm.fallThrough b = some m := by
  have hsucc : m ∈ mm.successorNodes b ↔ mm.jumpingTo b = some m ∨ mm.fallThrough b = some m := by
    rw [MatchMaker.successorNodes, List.mem_dedup, List.mem_append, Option.mem_toList,
      Option.mem_toList]
  rw [changing, List.mem_append, List.mem_filter, decide_eq_true_eq, hrep.mem_predecessorNodes, hsucc]
  by_cases hpred : mm.jumpingTo m = some b ∨ mm.fallThrough m = some b
  · simp [hpred]
  · simp [hpred]

/-- An `If` has both edges into the node, and something is live behind it that it does not use. -/
def LeftBehind (mm : MatchMaker) (values : Edge → Option (Finset String)) (b : ℕ) : Prop :=
  (∃ p, mm.fallThrough p = some b ∧ mm.jumpingTo p = some b) ∧
    ∃ live, analysis.bigMeet values (mm.successorEdges b) = some live ∧ ¬ live ⊆ mm.useAt b

/-- The other nodes keep their transition. -/
theorem Deleted.transition_eq (h : Deleted mm mm' b) (m : ℕ) :
    analysis.transition mm' m = analysis.transition mm m := by
  funext live
  show transition mm' m live = transition mm m live
  rw [transition, transition, MatchMaker.useAt, MatchMaker.useAt, MatchMaker.defsAt, MatchMaker.defsAt,
    h.nodes]

variable {values : Edge → Option (Finset String)}

/-- The equations of nodes that are neither removed nor neighbours of the removed one are untouched. -/
theorem Deleted.holds (h : Deleted mm mm' b) (hok : GraphOk mm) (hok' : GraphOk mm')
    (hfix : analysis.AtFixpoint mm values) {m : ℕ} (hm : m ∉ changing mm b) (hmb : m ≠ b) :
    analysis.Holds mm' (analysis.fill mm' values) m := by
  rw [mem_changing hok.repOk] at hm
  push Not at hm
  obtain ⟨⟨hmj, hmf⟩, -, hbf⟩ := hm
  obtain ⟨hfall, hjump⟩ := h.outOf m hmb hmj hmf
  have hkeep : ∀ e ∈ mm.edges, analysis.fill mm' values e = values e := fun e he =>
    CFGFlow.fill_of_isSome (hfix.isSome e he)
  refine (hfix.holds m).congr ?_ ?_ (h.transition_eq m) ?_
  · show mm'.successorEdges m = mm.successorEdges m
    rw [MatchMaker.successorEdges, MatchMaker.successorEdges, hfall, hjump]
  · intro e he
    exact hkeep e ((CFGFlow.mem_reads_iff hok.repOk).mp he).2
  · intro e he
    have hedge := hok'.repOk.mem_predecessorEdges.mp he
    obtain ⟨src, dest, jump⟩ := e
    obtain ⟨rfl, hedge⟩ := hedge
    have hedge := (h.into src jump dest hmb hbf).mp hedge
    have hmem := hok.repOk.mem_predecessorEdges (e := ⟨src, dest, jump⟩).mpr ⟨rfl, hedge⟩
    exact ⟨hmem, hkeep _ (MatchMaker.mem_edges.mpr hedge)⟩

/-- The equation of the removed node. -/
theorem Deleted.holds_iff (h : Deleted mm mm' b) (hok : GraphOk mm) (hok' : GraphOk mm')
    (hfix : analysis.AtFixpoint mm values) {x : String} {e : CFGExpr} {edge : String}
    (hb : mm.nodes[b]? = some (.mov (.Gets x e) edge)) {live : Finset String}
    (hlive : analysis.bigMeet values (mm.successorEdges b) = some live) (hx : x ∉ live) :
    analysis.Holds mm' (analysis.fill mm' values) b ↔ ¬ LeftBehind mm values b := by
  have hreads : mm'.successorEdges b = [] := by
    rw [MatchMaker.successorEdges, h.no_fall, h.no_jump]
    rfl
  have hempty : analysis.bigMeet (analysis.fill mm' values) (analysis.reads mm' b) = some ∅ := by
    show analysis.bigMeet _ (mm'.successorEdges b) = some ∅
    rw [hreads]
    rfl
  have huse : mm'.useAt b = mm.useAt b := by rw [MatchMaker.useAt, MatchMaker.useAt, h.nodes]
  have hdefs : mm.defsAt b = {x} := by
    rw [MatchMaker.defsAt, hb]
    rfl
  have hold : ∀ e ∈ mm.predecessorEdges b, values e = some (mm.useAt b ∪ live) := by
    obtain ⟨inInfo, newEdges, hmeet, htrans, hvalues⟩ := hfix.holds b
    cases hlive.symm.trans hmeet
    intro e he
    rw [hvalues e he, ← Option.some.inj htrans, hdefs,
      Finset.sdiff_singleton_eq_erase, Finset.erase_eq_of_notMem hx]
  -- the edges that are left into the removed node keep their values
  have hleft : ∀ p j, mm'.Edge p j b →
      analysis.fill mm' values ⟨p, b, j⟩ = some (mm.useAt b ∪ live) := by
    intro p j hedge
    obtain ⟨rfl, hfall, -, -⟩ := (h.left p j).mp hedge
    have hmem : (⟨p, b, false⟩ : Edge) ∈ mm.predecessorEdges b :=
      hok.repOk.mem_predecessorEdges.mpr ⟨rfl, hfall⟩
    rw [CFGFlow.fill_of_isSome (by rw [hold _ hmem]; rfl), hold _ hmem]
  constructor
  · rintro ⟨inInfo, newEdges, hmeet, htrans, hvalues⟩ ⟨⟨p, hfall, hjump⟩, live', hlive', hsubset⟩
    cases hlive.symm.trans hlive'
    cases hempty.symm.trans hmeet
    have hsome : (mm.fallThrough b).isSome := by
      rw [Option.isSome_iff_ne_none]
      intro hnone
      have hnil : mm.successorEdges b = [] := by
        rw [MatchMaker.successorEdges, hnone, hok.gets b x e edge hb]
        rfl
      rw [hnil] at hlive
      cases hlive
      exact hsubset (Finset.empty_subset _)
    have hedge : mm'.Edge p false b := (h.left p false).mpr ⟨rfl, hfall, hjump, hsome⟩
    have hnew := hvalues ⟨p, b, false⟩ (hok'.repOk.mem_predecessorEdges.mpr ⟨rfl, hedge⟩)
    rw [hleft p false hedge, ← Option.some.inj htrans, huse, Finset.empty_sdiff, Finset.union_empty,
      Option.some.injEq, Finset.union_eq_left] at hnew
    exact hsubset hnew
  · intro hnot
    refine ⟨∅, _, hempty, rfl, fun e' he' => ?_⟩
    obtain ⟨p, q, j⟩ := e'
    obtain ⟨rfl, hedge⟩ := hok'.repOk.mem_predecessorEdges.mp he'
    obtain ⟨-, hfall, hjump, -⟩ := (h.left p j).mp hedge
    have hsubset : live ⊆ mm.useAt q := by
      by_contra hsubset
      exact hnot ⟨⟨p, hfall, hjump⟩, live, hlive, hsubset⟩
    rw [hleft p j hedge, huse, Finset.empty_sdiff, Finset.union_empty, Finset.union_eq_left.mpr hsubset]

/-- After a deletion and a run that empties its list, the values are a fixpoint unless the removed node is
left behind. -/
theorem delete_fixpoint_iff {picks : ℕ → ℕ} {wklist : List ℕ} {s' : Solver (Finset String)}
    (hok : GraphOk mm) (hfix : analysis.AtFixpoint mm values)
    (hdead : firstDead mm values mm.predecessors.keys = some (some b))
    (hdelete : deleteDeadAssigns mm values = some (mm', wklist))
    (hrun : analysis.runWithWorklist mm' picks wklist values = some s') (hempty : s'.worklist = []) :
    GraphOk mm' ∧ (analysis.AtFixpoint mm' s'.values ↔ ¬ LeftBehind mm values b) := by
  obtain ⟨hkey, x, e, edge, live, hb, hlive, hx⟩ := firstDead_spec hdead
  obtain ⟨hremove, rfl⟩ := deleteDeadAssigns_eq hdead hdelete
  have hinto : mm.into b ≠ [] := hok.repOk.nonempty b ((LinkedMap.mem_keys_iff _).mp hkey)
  obtain ⟨hok', hdeleted⟩ := removeAndLink_deleted hok hb hinto hremove
  have hiff := hdeleted.holds_iff hok hok' hfix hb hlive hx
  have hbnot : b ∉ changing mm b := by
    rw [mem_changing hok.repOk, hok.gets b x e edge hb]
    obtain ⟨pos, hpos⟩ := hok.forward
    have hself : mm.fallThrough b ≠ some b := fun h => lt_irrefl _ (hpos b b h)
    simp [hself]
  refine ⟨hok', fun hfix' => hiff.mp ?_, fun hnot => ?_⟩
  · have hreads : analysis.reads mm' b = [] := by
      show mm'.successorEdges b = []
      rw [MatchMaker.successorEdges, hdeleted.no_fall, hdeleted.no_jump]
      rfl
    obtain ⟨-, hkeep⟩ := CFGFlow.loop_untouched (s := ⟨changing mm b, analysis.fill mm' values⟩)
      hok'.repOk (CFGFlow.fill_filled (changing_nodup mm b) values) hbnot hreads hrun
    refine (hfix'.holds b).congr rfl ?_ rfl fun e he => ⟨he, (hkeep e he).symm⟩
    intro e he
    rw [hreads] at he
    cases he
  · refine CFGFlow.runWithWorklist_fixpoint hok'.repOk (changing_nodup mm b) ?_ hrun hempty
    intro m hm
    by_cases hmb : m = b
    · rw [hmb]
      exact hiff.mpr hnot
    · exact hdeleted.holds hok hok' hfix hm hmb

end DeadCodeRem

end Jaek
