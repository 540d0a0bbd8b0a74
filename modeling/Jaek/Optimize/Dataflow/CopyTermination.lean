import Jaek.Optimize.Dataflow.CopyTimes
import Jaek.Optimize.Dataflow.SolverFixpoint

/-!
# When copy propagation ends

A node that spins reads one of two variables about which it is told both ways round, in every round. For some
search order of the sets it reads them in turn, and the rounds do not end. So they end for every search order
exactly when no node spins in any round (`copyProp_ends_iff`).
-/

namespace Jaek

open LastDefinition

namespace CopyProp

variable {G mm mm' : MatchMaker} {top met : Finset Copy} {order : ℕ → SetOrder} {start n : ℕ}
  {values : Edge → Option (Finset Copy)} {changed : List ℕ} {c : Copy} {x y : String}
  {picks : ℕ → ℕ} {orders : ℕ → ℕ → SetOrder} {fuel : ℕ} {s : Solver (Finset Copy)}

/-! ## The pairs no node separates -/

/-- Two variables that no node before defines are taken to be equal, where control does not come from
`Start`. -/
def Assumed (G : MatchMaker) (start : ℕ) (mm : MatchMaker) (p : ℕ) (info : Finset Copy) : Prop :=
  ¬ Live start mm p → ∀ c : Copy, c.late ∈ allVars G → c.early ∈ allVars G → c.late ≠ c.early →
    (c.late ∉ mm.defsAt p ∧ ¬ Assigned (Leads mm) mm.defsAt c.late p) →
    (c.early ∉ mm.defsAt p ∧ ¬ Assigned (Leads mm) mm.defsAt c.early p) → c ∈ info

/-- The top value assumes nothing. -/
theorem assumed_top (G : MatchMaker) (start : ℕ) (mm : MatchMaker) (p : ℕ) :
    Assumed G start mm p (computeTop G) :=
  fun _ _ hlate hearly hne _ _ => mem_computeTop.mpr ⟨hlate, hearly, hne⟩

/-- The two variables are told both ways round at a node. -/
theorem Each.pairs_met (hroot : Rooted start mm) (h : Each (Assumed G start mm) mm values)
    (hdead : ¬ Live start mm n) (hlate : c.late ∈ allVars G) (hearly : c.early ∈ allVars G)
    (hne : c.late ≠ c.early) (hlate' : ¬ Assigned (Leads mm) mm.defsAt c.late n)
    (hearly' : ¬ Assigned (Leads mm) mm.defsAt c.early n)
    (hmeet : (analysis (computeTop G)).bigMeet values (mm.predecessorEdges n) = some met) : c ∈ met := by
  refine CFGFlow.bigMeet_induction (P := fun info => c ∈ info) ?_ ?_ ?_ hmeet
  · exact mem_computeTop.mpr ⟨hlate, hearly, hne⟩
  · exact fun a b ha hb => Finset.mem_inter.mpr ⟨ha, hb⟩
  · intro e he info hinfo
    obtain ⟨hnode, hmem⟩ := hroot.mem_edges he
    have hleads : Leads mm e.src n := ⟨e.jump, hnode ▸ MatchMaker.mem_edges.mp hmem⟩
    exact h.holds e hmem info hinfo (fun hlive => hdead (hlive.tail hleads)) c hlate hearly hne
      (not_assigned_of_leads hleads hlate') (not_assigned_of_leads hleads hearly')

/-- What is assumed at an entry is passed on. -/
theorem kept_assumed (hroot : Rooted start mm) : Kept (computeTop G) mm (Assumed G start mm) := by
  rintro values h n - met hmeet hdead c hlate hearly hne ⟨hlate', hlate''⟩ ⟨hearly', hearly''⟩
  have hmem := h.pairs_met hroot hdead hlate hearly hne hlate'' hearly'' hmeet
  refine Finset.mem_union_left _ (Finset.mem_sdiff.mpr ⟨hmem, not_kill ?_ hlate' hearly'⟩)
  intro name edge hnode
  rw [hroot.unique n name edge hnode] at hdead
  exact hdead .refl

/-- It stays when the graph is rewritten. -/
theorem Each.assumed_call (h : Each (Assumed G start mm) mm values)
    (hcall : propagateEqualVars top order values mm = some (mm', changed)) :
    Each (Assumed G start mm') mm' values := by
  obtain ⟨hsame, -⟩ := propagateEqualVars_spec hcall
  refine (h.call hsame).imp fun p info hinfo hdead => ?_
  rw [call_defsAt hcall, leads_eq hsame]
  exact hinfo (by rwa [Live, leads_eq hsame] at hdead)

/-! ## A node that spins -/

/-- A search order that prefers the two facts about `x` and `y`. -/
def swap (x y : String) : SetOrder where
  find copies z :=
    if z = x ∧ (⟨x, y⟩ : Copy) ∈ copies then some ⟨x, y⟩
    else if z = y ∧ (⟨y, x⟩ : Copy) ∈ copies then some ⟨y, x⟩
    else alphabetical.find copies z
  find_mem := by
    intro copies z c h
    split_ifs at h with hx hy
    · cases h
      exact ⟨hx.2, hx.1.symm⟩
    · cases h
      exact ⟨hy.2, hy.1.symm⟩
    · exact alphabetical.find_mem h
  find_none := by
    intro copies z h
    split_ifs at h
    exact alphabetical.find_none h

/-- `y` is read instead of `x`, and `x` instead of `y`, where the facts say that they are equal. -/
def Swaps (order : SetOrder) (x y : String) : Prop :=
  ∀ met, (⟨x, y⟩ : Copy) ∈ met → (⟨y, x⟩ : Copy) ∈ met →
    renamed (order.find met) x = y ∧ renamed (order.find met) y = x

/-- The order that swaps two variables. -/
theorem swap_swaps (hxy : x ≠ y) : Swaps (swap x y) x y := by
  intro met hxy' hyx'
  have hx : (swap x y).find met x = some ⟨x, y⟩ := if_pos ⟨rfl, hxy'⟩
  have hy : (swap x y).find met y = some ⟨y, x⟩ := by
    rw [swap]
    dsimp only
    rw [if_neg fun h => hxy h.1.symm, if_pos ⟨rfl, hyx'⟩]
  rw [renamed, renamed, hx, hy]
  exact ⟨rfl, rfl⟩

/-- What the rounds keep about a node that spins on `x` and `y`. -/
structure Spinning (G : MatchMaker) (start : ℕ) (n : ℕ) (x y : String) (mm : MatchMaker)
    (values : Edge → Option (Finset Copy)) : Prop where
  root : Rooted start mm
  assumed : Each (Assumed G start mm) mm values
  mem : n ∈ mm.predecessors.keys
  dead : ¬ Live start mm n
  ne : x ≠ y
  varx : x ∈ allVars G
  vary : y ∈ allVars G
  notx : ¬ Assigned (Leads mm) mm.defsAt x n
  noty : ¬ Assigned (Leads mm) mm.defsAt y n
  reads : Reads mm n x ∨ Reads mm n y

/-- With such an order, a call renames one of them to the other and reports the node, and the state is as
before. -/
theorem Spinning.call (h : Spinning G start n x y mm values) (hswaps : Swaps (order n) x y)
    (hcall : propagateEqualVars (computeTop G) order values mm = some (mm', changed)) :
    Spinning G start n x y mm' values ∧ changed ≠ [] := by
  obtain ⟨hsame, -, hkeys, -⟩ := propagateEqualVars_spec hcall
  obtain ⟨met, hmeet, hnode, hchanged⟩ := hkeys n h.mem
  obtain ⟨hx, hy⟩ := hswaps met
    (h.assumed.pairs_met h.root h.dead h.varx h.vary h.ne h.notx h.noty hmeet)
    (h.assumed.pairs_met h.root h.dead h.vary h.varx h.ne.symm h.noty h.notx hmeet)
  have hread : ∀ z w, Reads mm n z → renamed ((order n).find met) z = w → w ≠ z →
      Reads mm' n w ∧ n ∈ changed := by
    rintro z w ⟨node, hold, e, he, hz⟩ hw hne
    rw [hold] at hnode
    refine ⟨⟨_, hnode, mem_operands_rewriteNode.mpr ⟨e, he, z, hz, hw⟩⟩, ?_⟩
    exact hchanged.mpr ⟨node, hold, (rewriteNode_changed _ _).mpr ⟨e, he, z, hz, hw.symm ▸ hne⟩⟩
  have hreads : (Reads mm' n x ∨ Reads mm' n y) ∧ n ∈ changed := by
    rcases h.reads with hreads | hreads
    · exact (hread x y hreads hx h.ne.symm).imp_left .inr
    · exact (hread y x hreads hy h.ne).imp_left .inl
  refine ⟨⟨h.root.call hcall, h.assumed.assumed_call hcall, hsame.predecessors.symm ▸ h.mem, ?_, h.ne,
    h.varx, h.vary, ?_, ?_, hreads.1⟩, List.ne_nil_of_mem hreads.2⟩
  · rw [Live, leads_eq hsame]
    exact h.dead
  · rw [call_defsAt hcall, leads_eq hsame]
    exact h.notx
  · rw [call_defsAt hcall, leads_eq hsame]
    exact h.noty

/-- So it is after a run. -/
theorem Spinning.solve {wklist : List ℕ} (h : Spinning G start n x y mm values)
    (hrun : (analysis (computeTop G)).runWithWorklist mm picks wklist values = some s) :
    Spinning G start n x y mm s.values :=
  { h with assumed := h.assumed.runWithWorklist (kept_assumed h.root) hrun }

/-- Once a node spins, no number of rounds is enough. -/
theorem postprocessLoop_spins (h : Spinning G start n x y mm values)
    (hswaps : ∀ i, Swaps (orders i n) x y) (hchanged : changed ≠ []) :
    postprocessLoop (computeTop G) picks orders fuel mm values changed = none := by
  induction fuel generalizing mm values changed with
  | zero =>
    unfold postprocessLoop
    rw [if_neg hchanged]
  | succ fuel ih =>
    unfold postprocessLoop
    rw [if_neg hchanged]
    dsimp only
    cases hcall : propagateEqualVars (computeTop G) (orders fuel) values mm with
    | none => rfl
    | some r =>
      obtain ⟨mm₁, changed₁⟩ := r
      obtain ⟨h₁, hchanged₁⟩ := h.call (hswaps fuel) hcall
      rw [Option.bind_eq_bind, Option.bind_some]
      dsimp only
      cases hrun : (analysis (computeTop G)).runWithWorklist mm₁ picks changed₁ values with
      | none => rfl
      | some s => exact ih (h₁.solve hrun) hchanged₁

/-- So no fuel is enough. -/
theorem postprocess_spins (h : Spinning G start n x y mm values)
    (hswaps : ∀ i, Swaps (orders i n) x y) :
    postprocess (computeTop G) picks orders fuel mm values = none := by
  rw [postprocess]
  cases hcall : propagateEqualVars (computeTop G) (orders fuel) values mm with
  | none => rfl
  | some r =>
    obtain ⟨mm₁, changed₁⟩ := r
    obtain ⟨h₁, hchanged₁⟩ := h.call (hswaps fuel) hcall
    exact postprocessLoop_spins h₁ hswaps hchanged₁

/-! ## Rounds that are not calm -/

/-- The rounds use the search orders below `fuel` only. -/
theorem postprocessLoop_congr {orders' : ℕ → ℕ → SetOrder} (h : ∀ i < fuel, orders i = orders' i) :
    postprocessLoop top picks orders fuel mm values changed =
      postprocessLoop top picks orders' fuel mm values changed := by
  induction fuel generalizing mm values changed with
  | zero =>
    unfold postprocessLoop
    rfl
  | succ fuel ih =>
    unfold postprocessLoop
    dsimp only
    rw [h fuel (Nat.lt_succ_self fuel)]
    simp only [ih fun i hi => h i (hi.trans (Nat.lt_succ_self fuel))]

/-- What the rounds keep, calm or not. -/
structure RoundsOk (G : MatchMaker) (start : ℕ) (mm : MatchMaker)
    (values : Edge → Option (Finset Copy)) : Prop where
  root : Rooted start mm
  vars : allVars mm ⊆ allVars G
  bounds : Each (fun _ => Bounded G) mm values
  assumed : Each (Assumed G start mm) mm values

/-- A call of `propagateEqualVars` keeps the invariant. -/
theorem RoundsOk.next (h : RoundsOk G start mm values)
    (hcall : propagateEqualVars (computeTop G) order values mm = some (mm', changed)) :
    RoundsOk G start mm' values := by
  obtain ⟨hsame, -⟩ := propagateEqualVars_spec hcall
  exact ⟨h.root.call hcall, allVars_call_subset h.root h.vars h.bounds hcall, h.bounds.call hsame,
    h.assumed.assumed_call hcall⟩

/-- So does a run of the solver. -/
theorem RoundsOk.solve {wklist : List ℕ} (h : RoundsOk G start mm values)
    (hrun : (analysis (computeTop G)).runWithWorklist mm picks wklist values = some s) :
    RoundsOk G start mm s.values :=
  ⟨h.root, h.vars, h.bounds.runWithWorklist (kept_bounded h.root h.vars) hrun,
    h.assumed.runWithWorklist (kept_assumed h.root) hrun⟩

/-- A node that spins has two variables that can be swapped. -/
theorem RoundsOk.spinning (h : RoundsOk G start mm values) (hspins : Spins start mm n) :
    ∃ x y, Spinning G start n x y mm values := by
  obtain ⟨x, y, hne, hreads, hy, hx', hy'⟩ := hspins.reads
  obtain ⟨node, hnode, e, he, hx⟩ := hreads
  have hn : n ∈ mm.allNodes := List.mem_append_left _ hspins.mem
  have hvar : x ∈ allVars mm :=
    use_mem_allVars hn (useAt_eq hnode ▸ mem_use_iff.mpr (.inl ⟨e, he, hx⟩))
  exact ⟨x, y, h.root, h.assumed, hspins.mem, hspins.dead, hne, h.vars hvar, h.vars hy,
    hx', hy', .inl ⟨node, hnode, e, he, hx⟩⟩

/-- Where a node spins in a round, another choice of the orders from then on never ends. -/
theorem postprocessLoop_none (h : RoundsOk G start mm values)
    (hnot : ¬ LoopCalm start (computeTop G) picks orders fuel mm values changed) (more : ℕ) :
    ∃ orders', postprocessLoop (computeTop G) picks orders' (fuel + more) mm values changed = none := by
  induction fuel generalizing mm values changed with
  | zero => exact absurd trivial hnot
  | succ fuel ih =>
    rw [LoopCalm, not_or, not_and_or] at hnot
    obtain ⟨hchanged, hspins | hlater⟩ := hnot
    · obtain ⟨n, hspins⟩ := not_forall.mp hspins
      obtain ⟨x, y, hspinning⟩ := h.spinning (Classical.not_not.mp hspins)
      exact ⟨fun _ _ => swap x y,
        postprocessLoop_spins hspinning (fun _ => swap_swaps hspinning.ne) hchanged⟩
    · push Not at hlater
      obtain ⟨mm₁, changed₁, s, hcall, hrun, hnot⟩ := hlater
      obtain ⟨orders', hnone⟩ := ih ((h.next hcall).solve hrun) hnot
      refine ⟨Function.update orders' (fuel + more) (orders fuel), ?_⟩
      have hloop : postprocessLoop (computeTop G) picks (Function.update orders' (fuel + more) (orders fuel))
          (fuel + more) mm₁ s.values changed₁ = none := by
        rw [← hnone]
        exact postprocessLoop_congr fun i hi => Function.update_of_ne hi.ne _ _
      rw [Nat.add_right_comm]
      unfold postprocessLoop
      rw [if_neg hchanged]
      dsimp only
      rw [Function.update_self, hcall, Option.bind_eq_bind, Option.bind_some]
      dsimp only
      rw [hrun]
      exact hloop

/-- Without `Calm` there are orders with which the fuel runs out. -/
theorem postprocess_none (h : RoundsOk G start mm values)
    (hnot : ¬ Calm start (computeTop G) picks orders fuel mm values) (more : ℕ) :
    ∃ orders', postprocess (computeTop G) picks orders' (fuel + more) mm values = none := by
  rw [Calm, not_and_or] at hnot
  rcases hnot with hspins | hlater
  · obtain ⟨n, hspins⟩ := not_forall.mp hspins
    obtain ⟨x, y, hspinning⟩ := h.spinning (Classical.not_not.mp hspins)
    exact ⟨fun _ _ => swap x y, postprocess_spins hspinning fun _ => swap_swaps hspinning.ne⟩
  · push Not at hlater
    obtain ⟨mm₁, changed₁, hcall, hnot⟩ := hlater
    obtain ⟨orders', hnone⟩ := postprocessLoop_none (h.next hcall) hnot more
    refine ⟨Function.update orders' (fuel + more) (orders fuel), ?_⟩
    rw [postprocess, Function.update_self, hcall, Option.bind_eq_bind, Option.bind_some]
    dsimp only
    rw [← hnone]
    exact postprocessLoop_congr fun i hi => Function.update_of_ne hi.ne _ _

end CopyProp

/-- Copy propagation, started with what a run of the solver found, makes boundedly many rounds whatever the
order in which the sets are searched exactly if in no round a node spins. -/
theorem copyProp_ends_iff {start : ℕ} {mm : MatchMaker} (hroot : CopyProp.Rooted start mm)
    {picks₀ : ℕ → ℕ} {s : Solver (Finset Copy)}
    (hrun : (CopyProp.analysis (CopyProp.computeTop mm)).run mm picks₀ (fun _ => none) = some s)
    (hempty : s.worklist = []) :
    (∃ bound, ∀ fuel ≥ bound, ∀ picks orders, ∃ mm',
      CopyProp.postprocess (CopyProp.computeTop mm) picks orders fuel mm s.values = some mm') ↔
    ∀ fuel picks orders, CopyProp.Calm start (CopyProp.computeTop mm) picks orders fuel mm s.values := by
  have hbounds : CopyProp.Each (fun _ => CopyProp.Bounded mm) mm s.values :=
    .run (fun _ => CopyProp.bounded_top mm) (CopyProp.kept_bounded hroot subset_rfl) hrun
  constructor
  · rintro ⟨bound, hends⟩ fuel picks orders
    have hassumed : CopyProp.Each (CopyProp.Assumed mm start mm) mm s.values :=
      .run (CopyProp.assumed_top mm start mm) (CopyProp.kept_assumed hroot) hrun
    by_contra hnot
    obtain ⟨orders', hnone⟩ :=
      CopyProp.postprocess_none ⟨hroot, subset_rfl, hbounds, hassumed⟩ hnot bound
    obtain ⟨mm', hsome⟩ := hends (fuel + bound) (Nat.le_add_left _ _) picks orders'
    rw [hnone] at hsome
    cases hsome
  · intro hcalm
    have hfix := CFGFlow.run_fixpoint (CopyProp.isGenKill mm) hroot.repOk hrun hempty
    have hok : CopyProp.RoundOk mm start mm s.values :=
      ⟨hroot, rfl, rfl, rfl, hbounds, CopyProp.ordered_of_fixpoint hroot hbounds hfix⟩
    obtain ⟨way, hway⟩ := exists_chosen (CopyProp.Leads mm) mm.defsAt
    refine ⟨CopyProp.weight (age mm.defsAt (CopyProp.allVars mm) way) mm + 1, ?_⟩
    intro fuel hfuel picks orders
    exact CopyProp.postprocess_returns hway hok (hcalm fuel picks orders) hfuel

namespace CopyProp

/-- A built graph has its start node as its root. -/
theorem build_rooted {name : String} {block : List FlatStmt} {cfg : CFG} (hok : CFGBuilder.BodyOk block)
    (h : CFGBuilder.build name block = some cfg) : Rooted cfg.start cfg.mm := by
  obtain ⟨hstart, items, hr⟩ := CFGBuilder.build_spec hok h
  rw [hstart]
  refine ⟨hr.repOk, ?_, fun n name edge hnode => ?_, hr.noInto_start⟩
  · obtain ⟨fname, edge, hzero⟩ := hr.start
    exact ⟨fname, edge, hr.node_eq hzero⟩
  · rw [hr.nodes, List.getElem?_map] at hnode
    obtain ⟨it, hit, hit'⟩ := Option.map_eq_some_iff.mp hnode
    cases n with
    | zero => rfl
    | succ n =>
      refine absurd ?_ (hr.kinds n it hit)
      rw [hit']
      rfl

/-- A node that spins has predecessors, and control does not come there; rewriting changes neither. -/
theorem not_spins_of_live (hlive : ∀ n ∈ mm.predecessors.keys, Live start mm n) (hsame : SameEdges mm mm') (n : ℕ) :
    ¬ Spins start mm' n := by
  intro hspins
  refine hspins.dead ?_
  rw [Live, leads_eq hsame]
  exact hlive n (hsame.predecessors ▸ hspins.mem)

/-- No node spins where control may come from `Start` to every node with predecessors. -/
theorem calm_of_live (hlive : ∀ n ∈ mm.predecessors.keys, Live start mm n) :
    Calm start top picks orders fuel mm values := by
  have hloop : ∀ {mm' : MatchMaker} {values : Edge → Option (Finset Copy)} {changed : List ℕ},
      SameEdges mm mm' → LoopCalm start top picks orders fuel mm' values changed := by
    induction fuel with
    | zero => exact fun _ => trivial
    | succ fuel ih =>
      intro mm' values changed hsame
      refine .inr ⟨not_spins_of_live hlive hsame, fun mm'' changed' s hcall _ => ?_⟩
      exact ih (hsame.trans (propagateEqualVars_spec hcall).1)
  exact ⟨not_spins_of_live hlive (.refl mm), fun mm' changed hcall => hloop (propagateEqualVars_spec hcall).1⟩

/-- Control comes to every node of `copyGraph`. -/
theorem copyGraph_live : ∀ n ∈ copyGraph.predecessors.keys, Live 0 copyGraph n := by
  have hfall : ∀ n < 3, Leads copyGraph n (n + 1) := by
    intro n hn
    refine ⟨false, ?_⟩
    show copyGraph.fallThrough n = some (n + 1)
    interval_cases n <;> rfl
  have hlive : ∀ n ≤ 3, Live 0 copyGraph n := by
    intro n hn
    induction n with
    | zero => exact .refl
    | succ n ih => exact (ih (Nat.le_of_succ_le hn)).tail (hfall n hn)
  have hkeys : ∀ n ∈ copyGraph.predecessors.keys, n ≤ 3 := by decide
  exact fun n hn => hlive n (hkeys n hn)

end CopyProp

/-- The pass over `copyGraph` ends. -/
theorem copyGraph_ends : ∃ s bound, ∀ fuel ≥ bound, ∀ picks orders, ∃ mm',
    CopyProp.postprocess (CopyProp.computeTop copyGraph) picks orders fuel copyGraph s = some mm' := by
  have hroot : CopyProp.Rooted 0 copyGraph := CopyProp.build_rooted copyChain_ok copyChain_build
  have hgen := CopyProp.isGenKill copyGraph
  obtain ⟨s, hrun⟩ : ∃ s, (CopyProp.analysis (CopyProp.computeTop copyGraph)).run copyGraph
      (fun _ => 0) (fun _ => none) = some s := CopyProp.runWithWorklist_isSome hroot.repOk MatchMaker.allNodes_nodup
  refine ⟨s.values, (copyProp_ends_iff hroot hrun (hgen.run_empties hroot.repOk (by decide) hrun)).mpr ?_⟩
  exact fun fuel picks orders => CopyProp.calm_of_live CopyProp.copyGraph_live

end Jaek
