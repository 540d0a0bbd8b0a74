import Jaek.Optimize.Dataflow.CopyTermination

/-!
# Runs of copy propagation

The loop of `postprocess` as a step relation. Its calls may each search the sets in an order of their own. A
run whose states have no node that spins comes to an end, as each of its rounds makes the graph lighter; from a
state with such a node the loop can go on forever (`propagateCopies_ends_iff`). Code that is never executed has
such nodes: they are told that all variables are equal which the code in front of them leaves alone.
-/

namespace Jaek

open LastDefinition

namespace CopyProp

/-- The state of the loop: the graph, the values of its edges, and what the last call of
`propagateEqualVars` reported. -/
structure LoopState where
  mm : MatchMaker
  values : Edge → Option (Finset Copy)
  propagateCopies : List ℕ

variable {G mm : MatchMaker} {top : Finset Copy} {start n : ℕ} {values : Edge → Option (Finset Copy)}
  {x y : String} {picks : ℕ → ℕ} {s : Solver (Finset Copy)} {c c₀ c' : LoopState}

/-- The call in front of the loop. -/
def Starts (top : Finset Copy) (mm : MatchMaker) (values : Edge → Option (Finset Copy)) (c : LoopState) : Prop :=
  c.values = values ∧ ∃ order, propagateEqualVars top order values mm = some (c.mm, c.propagateCopies)

/-- One round of the loop. -/
def Round (top : Finset Copy) (c c' : LoopState) : Prop :=
  c.propagateCopies ≠ [] ∧ ∃ order picks s,
    propagateEqualVars top order c.values c.mm = some (c'.mm, c'.propagateCopies) ∧
    (analysis top).runWithWorklist c'.mm picks c'.propagateCopies c.values = some s ∧ c'.values = s.values

/-- In front of no round that `postprocess` may come to is there a node that spins. -/
def Quiet (start : ℕ) (top : Finset Copy) (mm : MatchMaker) (values : Edge → Option (Finset Copy)) : Prop :=
  (∀ n, ¬ Spins start mm n) ∧ ∀ c₀ c, Starts top mm values c₀ → Relation.ReflTransGen (Round top) c₀ c →
    c.propagateCopies ≠ [] → ∀ n, ¬ Spins start c.mm n

/-! ## What a round keeps -/

/-- A round keeps the invariant of all rounds. -/
theorem RoundsOk.round (h : RoundsOk G start c.mm c.values) (hround : Round (computeTop G) c c') :
    RoundsOk G start c'.mm c'.values := by
  obtain ⟨-, order, picks, s, hcall, hrun, hvalues⟩ := hround
  rw [hvalues]
  exact (h.next hcall).solve hrun

/-- So does any number of rounds. -/
theorem RoundsOk.rounds (h : RoundsOk G start c₀.mm c₀.values)
    (hreach : Relation.ReflTransGen (Round (computeTop G)) c₀ c) : RoundsOk G start c.mm c.values := by
  induction hreach with
  | refl => exact h
  | tail _ hround ih => exact ih.round hround

/-- The loop does not throw. -/
theorem RoundsOk.call_isSome (h : RoundsOk G start mm values) (order : ℕ → SetOrder) :
    ∃ mm' changed, propagateEqualVars top order values mm = some (mm', changed) := by
  obtain ⟨⟨mm', changed⟩, hcall⟩ : ∃ r, propagateEqualVars top order values mm = some r :=
    foldlM_propagateNode_isSome h.root.repOk h.bounds.isSome mm.predecessors.keys (.refl mm)
  exact ⟨mm', changed, hcall⟩

/-- With any order of the sets the calls of a round return. -/
theorem RoundsOk.exists_round (h : RoundsOk G start mm values) (order : ℕ → SetOrder) : ∃ mm' changed s,
    propagateEqualVars (computeTop G) order values mm = some (mm', changed) ∧
      (analysis (computeTop G)).runWithWorklist mm' (fun _ => 0) changed values = some s := by
  obtain ⟨mm', changed, hcall⟩ : ∃ mm' changed,
      propagateEqualVars (computeTop G) order values mm = some (mm', changed) := h.call_isSome order
  obtain ⟨s, hrun⟩ : ∃ s, (analysis (computeTop G)).runWithWorklist mm' (fun _ => 0) changed values = some s :=
    runWithWorklist_isSome (h.next hcall).root.repOk (propagateEqualVars_spec hcall).2.1
  exact ⟨mm', changed, s, hcall, hrun⟩

/-! ## Runs that end -/

/-- A run over states in which no node spins makes at most as many rounds as the graph is heavy. -/
theorem RoundOk.acc {way : ℕ → String → List ℕ} (hway : Chosen (Leads G) G.defsAt way)
    (h : RoundOk G start c.mm c.values)
    (hquiet : ∀ c', Relation.ReflTransGen (Round (computeTop G)) c c' → c'.propagateCopies ≠ [] →
      ∀ n, ¬ Spins start c'.mm n) :
    Acc (fun c' c => Round (computeTop G) c c') c := by
  generalize hweight : weight (age G.defsAt (allVars G) way) c.mm = w
  induction w using Nat.strong_induction_on generalizing c with
  | _ w ih =>
    refine .intro c fun c' hround => ?_
    by_cases hempty : c'.propagateCopies = []
    · exact .intro c' fun c'' hround' => absurd hempty hround'.1
    · have hstep : Round (computeTop G) c c' := hround
      obtain ⟨hne, order, picks, s, hcall, hrun, hvalues⟩ := hround
      have hcalm := hquiet c .refl hne
      obtain ⟨-, hlt⟩ := h.weight_call hway hcalm hcall
      refine ih _ (hweight ▸ hlt hempty) ?_ (fun c'' hreach => hquiet c'' (.head hstep hreach)) rfl
      rw [hvalues]
      exact (h.next hcalm hcall).solve hrun

/-! ## Runs that do not end -/

/-- Where a node spins and the loop goes on, there is a run without an end. -/
theorem Spinning.not_acc (h : Spinning G start n x y c.mm c.values) (hok : RoundsOk G start c.mm c.values)
    (hne : c.propagateCopies ≠ []) : ¬ Acc (fun c' c => Round (computeTop G) c c') c := by
  intro hacc
  induction hacc with
  | intro c _ ih =>
    obtain ⟨mm', changed, s, hcall, hrun⟩ := hok.exists_round fun _ => swap x y
    have hround : Round (computeTop G) c ⟨mm', s.values, changed⟩ := ⟨hne, _, _, s, hcall, hrun, rfl⟩
    obtain ⟨h', hne'⟩ := h.call (swap_swaps h.ne) hcall
    exact ih _ hround (h'.solve hrun) (hok.round hround) hne'

/-- What the first run of the analysis leaves is what the rounds keep. -/
theorem RoundsOk.of_run (hroot : Rooted start mm)
    (hrun : (analysis (computeTop mm)).run mm picks (fun _ => none) = some s) : RoundsOk mm start mm s.values where
  root := hroot
  vars := subset_rfl
  bounds := .run (fun _ => bounded_top mm) (kept_bounded hroot subset_rfl) hrun
  assumed := .run (assumed_top mm start mm) (kept_assumed hroot) hrun

/-- The call in front of the loop keeps it too. -/
theorem RoundsOk.starts (h : RoundsOk G start mm values) (hstarts : Starts (computeTop G) mm values c₀) :
    RoundsOk G start c₀.mm c₀.values := by
  obtain ⟨hvalues, order, hcall⟩ := hstarts
  rw [hvalues]
  exact h.next hcall

/-- Unless it is quiet, the loop has a run without an end. -/
theorem RoundsOk.exists_endless (h : RoundsOk G start mm values) (hnot : ¬ Quiet start (computeTop G) mm values) :
    ∃ c₀, Starts (computeTop G) mm values c₀ ∧ ¬ Acc (fun c' c => Round (computeTop G) c c') c₀ := by
  rw [Quiet, not_and_or] at hnot
  rcases hnot with hspins | hlater
  · obtain ⟨n, hspins⟩ := not_forall.mp hspins
    obtain ⟨x, y, hspinning⟩ := h.spinning (Classical.not_not.mp hspins)
    obtain ⟨mm', changed, hcall⟩ : ∃ mm' changed,
        propagateEqualVars (computeTop G) (fun _ => swap x y) values mm = some (mm', changed) := h.call_isSome _
    obtain ⟨hspinning', hne⟩ := hspinning.call (swap_swaps hspinning.ne) hcall
    have hc₀ : Starts (computeTop G) mm values ⟨mm', values, changed⟩ := ⟨rfl, _, hcall⟩
    exact ⟨_, hc₀, Spinning.not_acc (c := ⟨mm', values, changed⟩) hspinning' (h.starts hc₀) hne⟩
  · push Not at hlater
    obtain ⟨c₀, c, hc₀, hreach, hne, n, hspins⟩ := hlater
    have hok := (h.starts hc₀).rounds hreach
    obtain ⟨x, y, hspinning⟩ := hok.spinning hspins
    refine ⟨c₀, hc₀, fun hacc => hspinning.not_acc hok hne ?_⟩
    -- if the runs from `c₀` end, so do those from the states it leads to
    clear hok hspins hspinning hne
    induction hreach with
    | refl => exact hacc
    | tail _ hround ih => exact ih.inv hround

/-- No round spins where control may come from `Start` to every node with predecessors. -/
theorem quiet_of_live (hlive : ∀ n ∈ mm.predecessors.keys, Live start mm n) : Quiet start top mm values := by
  have hsame : ∀ {c₀ c : LoopState}, Starts top mm values c₀ → Relation.ReflTransGen (Round top) c₀ c →
      SameEdges mm c.mm := by
    intro c₀ c hc₀ hreach
    induction hreach with
    | refl =>
      obtain ⟨-, order, hcall⟩ := hc₀
      exact (propagateEqualVars_spec hcall).1
    | tail _ hround ih =>
      obtain ⟨-, order, picks, s, hcall, -⟩ := hround
      exact ih.trans (propagateEqualVars_spec hcall).1
  exact ⟨not_spins_of_live hlive (.refl mm), fun c₀ c hc₀ hreach _ => not_spins_of_live hlive (hsame hc₀ hreach)⟩

end CopyProp

/-- The loop of `postprocess` throws in none of its rounds. Behind a run of the analysis that has emptied its
list, it ends in every run if in none of them a node spins; and if it ends in every run, none spins in any. -/
theorem propagateCopies_ends_iff {start : ℕ} {mm : MatchMaker} (hroot : CopyProp.Rooted start mm)
    {picks : ℕ → ℕ} {s : Solver (Finset Copy)}
    (hrun : (CopyProp.analysis (CopyProp.computeTop mm)).run mm picks (fun _ => none) = some s) :
    (∃ c₀, CopyProp.Starts (CopyProp.computeTop mm) mm s.values c₀) ∧
    (∀ c₀ c, CopyProp.Starts (CopyProp.computeTop mm) mm s.values c₀ →
      Relation.ReflTransGen (CopyProp.Round (CopyProp.computeTop mm)) c₀ c → c.propagateCopies ≠ [] →
        ∃ c', CopyProp.Round (CopyProp.computeTop mm) c c') ∧
    (CopyProp.Quiet start (CopyProp.computeTop mm) mm s.values → s.worklist = [] →
      ∀ c₀, CopyProp.Starts (CopyProp.computeTop mm) mm s.values c₀ →
        Acc (fun c' c => CopyProp.Round (CopyProp.computeTop mm) c c') c₀) ∧
    ((∀ c₀, CopyProp.Starts (CopyProp.computeTop mm) mm s.values c₀ →
        Acc (fun c' c => CopyProp.Round (CopyProp.computeTop mm) c c') c₀) →
      CopyProp.Quiet start (CopyProp.computeTop mm) mm s.values) := by
  have hrounds := CopyProp.RoundsOk.of_run hroot hrun
  refine ⟨?_, fun c₀ c hc₀ hreach hne => ?_, fun hquiet hempty c₀ hc₀ => ?_, fun hends => ?_⟩
  · obtain ⟨mm', changed, hcall⟩ : ∃ mm' changed, CopyProp.propagateEqualVars (CopyProp.computeTop mm)
        (fun _ => alphabetical) s.values mm = some (mm', changed) := hrounds.call_isSome _
    exact ⟨⟨mm', s.values, changed⟩, rfl, _, hcall⟩
  · obtain ⟨mm', changed, s', hcall, hrun'⟩ :=
      ((hrounds.starts hc₀).rounds hreach).exists_round fun _ => alphabetical
    exact ⟨⟨mm', s'.values, changed⟩, hne, _, _, s', hcall, hrun', rfl⟩
  · have hfix := CFGFlow.run_fixpoint (CopyProp.isGenKill mm) hroot.repOk hrun hempty
    have hok : CopyProp.RoundOk mm start mm s.values :=
      ⟨hroot, rfl, rfl, rfl, hrounds.bounds, CopyProp.ordered_of_fixpoint hroot hrounds.bounds hfix⟩
    obtain ⟨way, hway⟩ := exists_chosen (CopyProp.Leads mm) mm.defsAt
    have hnext : CopyProp.RoundOk mm start c₀.mm c₀.values := by
      obtain ⟨hvalues, order, hcall⟩ := hc₀
      rw [hvalues]
      exact hok.next hquiet.1 hcall
    exact hnext.acc hway fun c hreach => hquiet.2 c₀ c hc₀ hreach
  · by_contra hnot
    obtain ⟨c₀, hc₀, hendless⟩ := hrounds.exists_endless hnot
    exact hendless (hends c₀ hc₀)

/-- The pass over `copyGraph` ends in every run. -/
theorem propagateCopies_copyGraph : ∃ s,
    (CopyProp.analysis (CopyProp.computeTop copyGraph)).run copyGraph (fun _ => 0) (fun _ => none) = some s ∧
    (∃ c₀, CopyProp.Starts (CopyProp.computeTop copyGraph) copyGraph s.values c₀) ∧
    ∀ c₀, CopyProp.Starts (CopyProp.computeTop copyGraph) copyGraph s.values c₀ →
      Acc (fun c' c => CopyProp.Round (CopyProp.computeTop copyGraph) c c') c₀ := by
  have hroot : CopyProp.Rooted 0 copyGraph := CopyProp.build_rooted copyChain_ok copyChain_build
  obtain ⟨s, hrun⟩ : ∃ s, (CopyProp.analysis (CopyProp.computeTop copyGraph)).run copyGraph
      (fun _ => 0) (fun _ => none) = some s := CopyProp.runWithWorklist_isSome hroot.repOk MatchMaker.allNodes_nodup
  obtain ⟨hstarts, -, hends, -⟩ := propagateCopies_ends_iff hroot hrun
  have hempty := (CopyProp.isGenKill copyGraph).run_empties hroot.repOk (by decide) hrun
  exact ⟨s, hrun, hstarts, hends (CopyProp.quiet_of_live CopyProp.copyGraph_live) hempty⟩

/-- `if (false) { g() return x } return 0`, in a function of `x`, with its blocks in the order in which the
greedy trace takes them. -/
def deadReturn : List FlatStmt :=
  [.label "$B1", .move (.temp "x") (.temp "_ARG1"), .label "$L2", .label "$L3", .endBlock (.ret [.const 0]),
    .label "$L1", .callStmt "_Ig_p" 0 [], .endBlock (.ret [.temp "x"]),
    .label "$B2", .endBlock (.jump "$L3")]

/-- The graph of `deadReturn`. -/
def deadReturnGraph : MatchMaker where
  nodes := [.Start "f" "$G1", .mov (.Gets "x" (.Var "_ARG1")) "$G2", .Return [.Const 0],
    .Funcking "_Ig_p" [] [] "$G3", .Return [.Var "x"], .Cricket "$L3"]
  predecessors := ⟨[(1, [(0, false)]), (2, [(1, false), (5, true)]), (4, [(3, false)])], by decide⟩
  successors := ⟨[(0, ⟨some 1, none⟩), (1, ⟨some 2, none⟩), (3, ⟨some 4, none⟩), (5, ⟨none, some 2⟩)], by decide⟩

open CFGBuilder in
/-- It is what `CFGBuilder` makes of it. -/
theorem deadReturn_build : CFGBuilder.build "f" deadReturn = some ⟨0, "f", deadReturnGraph⟩ := by
  simp only [CFGBuilder.build, deadReturn, loop, createNode, takeMoves, init, pointToNext, addNode, translateMove,
    Option.bind_eq_bind, Option.bind_some, pointName, CFGBuilder.translateExpr, List.nil_append,
    List.cons_append, List.map_nil]
  rfl

open CFGBuilder in
/-- The body is what the pipeline hands to `CFGBuilder`. -/
theorem deadReturn_ok : BodyOk deadReturn where
  nodup := by decide
  targets := by simp [deadReturn, EndBlock.targets, labels]
  names := by
    intro l hl k
    have hlabels : ∀ l ∈ labels deadReturn, l.toList[1]? ≠ some 'G' := by decide
    exact ne_pointName (hlabels l hl)

/-- The edges of the graph. -/
theorem deadReturn_leads {p n : ℕ} (h : CopyProp.Leads deadReturnGraph p n) :
    (p, n) ∈ [(0, 1), (1, 2), (3, 4), (5, 2)] := by
  obtain ⟨jump, hedge⟩ := h
  have hedges : ∀ e ∈ deadReturnGraph.edges, (e.src, e.node) ∈ [(0, 1), (1, 2), (3, 4), (5, 2)] := by decide
  exact hedges ⟨p, n, jump⟩ (MatchMaker.mem_edges.mpr hedge)

/-- Nothing is assigned in front of the call of `g` and the return behind it. -/
theorem deadReturn_not_assigned {x : String} {n : ℕ}
    (h : Assigned (CopyProp.Leads deadReturnGraph) deadReturnGraph.defsAt x n) : n ≠ 3 ∧ n ≠ 4 := by
  have hdefs : deadReturnGraph.defsAt 3 = ∅ := rfl
  induction h with
  | last hedge hdef =>
    have hmem := deadReturn_leads hedge
    simp only [List.mem_cons, Prod.mk.injEq, List.not_mem_nil, or_false] at hmem
    rcases hmem with ⟨rfl, rfl⟩ | ⟨rfl, rfl⟩ | ⟨rfl, rfl⟩ | ⟨rfl, rfl⟩
    · decide
    · decide
    · rw [hdefs] at hdef
      cases hdef
    · decide
  | before hedge _ ih =>
    have hmem := deadReturn_leads hedge
    simp only [List.mem_cons, Prod.mk.injEq, List.not_mem_nil, or_false] at hmem
    rcases hmem with ⟨rfl, rfl⟩ | ⟨rfl, rfl⟩ | ⟨rfl, rfl⟩ | ⟨rfl, rfl⟩
    · decide
    · decide
    · exact absurd rfl ih.1
    · decide

/-- The return behind the call of `g` spins. -/
theorem deadReturn_spins : CopyProp.Spins 0 deadReturnGraph 4 := by
  have hlive : ∀ n, CopyProp.Live 0 deadReturnGraph n → n ≤ 2 := by
    intro n h
    induction h with
    | refl => exact Nat.zero_le 2
    | tail _ hedge ih =>
      have hmem := deadReturn_leads hedge
      simp only [List.mem_cons, Prod.mk.injEq, List.not_mem_nil, or_false] at hmem
      omega
  refine ⟨fun h => absurd (hlive 4 h) (by decide), by decide, "x", "_ARG1", by decide, ?_, by decide,
    fun h => (deadReturn_not_assigned h).2 rfl, fun h => (deadReturn_not_assigned h).2 rfl⟩
  exact ⟨.Return [.Var "x"], rfl, .Var "x", List.mem_singleton_self _, Finset.mem_singleton_self _⟩

/-- Over `deadReturn`, where `return x` behind the call of `g` is never executed, the loop has a run without an
end: the return is told that `x` and `_ARG1` are equal, both ways round. -/
theorem propagateCopies_endless :
    CFGBuilder.build "f" deadReturn = some ⟨0, "f", deadReturnGraph⟩ ∧ ∃ s,
      (CopyProp.analysis (CopyProp.computeTop deadReturnGraph)).run deadReturnGraph (fun _ => 0) (fun _ => none) =
        some s ∧ s.worklist = [] ∧
      ∃ c₀, CopyProp.Starts (CopyProp.computeTop deadReturnGraph) deadReturnGraph s.values c₀ ∧
        ¬ Acc (fun c' c => CopyProp.Round (CopyProp.computeTop deadReturnGraph) c c') c₀ := by
  have hroot : CopyProp.Rooted 0 deadReturnGraph := CopyProp.build_rooted deadReturn_ok deadReturn_build
  obtain ⟨s, hrun⟩ : ∃ s, (CopyProp.analysis (CopyProp.computeTop deadReturnGraph)).run deadReturnGraph
      (fun _ => 0) (fun _ => none) = some s := CopyProp.runWithWorklist_isSome hroot.repOk MatchMaker.allNodes_nodup
  have hempty := (CopyProp.isGenKill deadReturnGraph).run_empties hroot.repOk (by decide) hrun
  refine ⟨deadReturn_build, s, hrun, hempty, (CopyProp.RoundsOk.of_run hroot hrun).exists_endless fun hquiet => ?_⟩
  exact hquiet.1 4 deadReturn_spins

end Jaek
