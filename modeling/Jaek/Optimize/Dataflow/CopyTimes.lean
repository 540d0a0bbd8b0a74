import Jaek.Optimize.Dataflow.CopyRounds
import Jaek.Semantics.LastDefinition

/-!
# The rounds of copy propagation end

A fact about `x` and `y` at a node says that on every way into the node `y` was defined before `x`, or that no
way defines either. Reading an older variable goes back in time, which ends. The other facts are met where
control does not come from `Start`: all pairs of variables that no node on the way there defines. A node that
reads one of two such variables spins. While no node spins, the rounds end (`postprocess_returns`).
-/

namespace Jaek

open LastDefinition

namespace CopyProp

/-- There is an edge from `p` to `n`. -/
def Leads (mm : MatchMaker) (p n : ℕ) : Prop := ∃ jump, mm.Edge p jump n

/-- Control may come from `Start` to the node. -/
def Live (start : ℕ) (mm : MatchMaker) (n : ℕ) : Prop := Relation.ReflTransGen (Leads mm) start n

/-- The graphs the pass works on: they have one `Start`, and no edge leads there. -/
structure Rooted (start : ℕ) (mm : MatchMaker) : Prop where
  repOk : mm.RepOk
  isStart : ∃ name edge, mm.nodes[start]? = some (.Start name edge)
  unique : ∀ n name edge, mm.nodes[n]? = some (.Start name edge) → n = start
  noInto : ∀ p jump, ¬ mm.Edge p jump start

variable {G mm mm' : MatchMaker} {top met : Finset Copy} {order : ℕ → SetOrder} {start n : ℕ}
  {values : Edge → Option (Finset Copy)} {changed path : List ℕ} {c : Copy} {x y : String}

/-- No edge leads into the root. -/
theorem Rooted.predecessorEdges_start (h : Rooted start mm) : mm.predecessorEdges start = [] := by
  rw [List.eq_nil_iff_forall_not_mem]
  intro e he
  obtain ⟨hnode, hedge⟩ := h.repOk.mem_predecessorEdges.mp he
  exact h.noInto e.src e.jump (hnode ▸ hedge)

/-- The edges that are met over at a node lead into it. -/
theorem Rooted.mem_edges (h : Rooted start mm) {e : Edge} (he : e ∈ mm.predecessorEdges n) :
    e.node = n ∧ e ∈ mm.edges := by
  obtain ⟨hnode, hedge⟩ := h.repOk.mem_predecessorEdges.mp he
  exact ⟨hnode, MatchMaker.mem_edges.mpr hedge⟩

/-- What is met at a node is on every edge into it. -/
theorem Rooted.met_subset (h : Rooted start mm)
    (hmeet : (analysis top).bigMeet values (mm.predecessorEdges n) = some met) {p : ℕ} {jump : Bool}
    (hedge : mm.Edge p jump n) : ∃ info, values ⟨p, n, jump⟩ = some info ∧ met ⊆ info :=
  bigMeet_subset hmeet
    (h.repOk.mem_predecessorEdges.mpr (show Edge.node ⟨p, n, jump⟩ = n ∧ _ from ⟨rfl, hedge⟩))

/-- A variable that is used is one of the variables. -/
theorem use_mem_allVars (hn : n ∈ mm.allNodes) (hx : x ∈ mm.useAt n) : x ∈ allVars mm :=
  mem_allVars.mpr ⟨n, hn, Finset.mem_union_left _ hx⟩

/-! ## Properties of the values -/

/-- Every edge has a value, with a property that may depend on the node it leaves. -/
structure Each (P : ℕ → Finset Copy → Prop) (mm : MatchMaker) (values : Edge → Option (Finset Copy)) :
    Prop where
  isSome : ∀ e ∈ mm.edges, (values e).isSome
  holds : ∀ e ∈ mm.edges, ∀ info, values e = some info → P e.src info

/-- The nodes pass a property on. -/
def Kept (top : Finset Copy) (mm : MatchMaker) (P : ℕ → Finset Copy → Prop) : Prop :=
  ∀ values, Each P mm values → ∀ n ∈ mm.allNodes, ∀ met,
    (analysis top).bigMeet values (mm.predecessorEdges n) = some met →
      P n ((met \ kill top mm n) ∪ gen mm n)

section Each

variable {P Q : ℕ → Finset Copy → Prop} {s s' : Solver (Finset Copy)} {picks : ℕ → ℕ}

/-- A weaker property of the values. -/
theorem Each.imp (h : Each P mm values) (hPQ : ∀ p info, P p info → Q p info) : Each Q mm values :=
  ⟨h.isSome, fun e he info hinfo => hPQ _ _ (h.holds e he info hinfo)⟩

/-- The value of one edge. -/
theorem Each.edge (h : Each P mm values) {p : ℕ} {jump : Bool} (hedge : mm.Edge p jump n)
    {info : Finset Copy} (hinfo : values ⟨p, n, jump⟩ = some info) : P p info :=
  h.holds ⟨p, n, jump⟩ (MatchMaker.mem_edges.mpr hedge) info hinfo

/-- Processing a node writes only values that are passed on. -/
theorem Each.process {k : ℕ} (h : Each P mm s.values) (hkept : Kept top mm P)
    (hprocess : (analysis top).process mm k n s = some s') : Each P mm s'.values := by
  obtain ⟨met, newEdges, hmeet, htransition, hvalues⟩ := CFGFlow.process_values hprocess
  constructor
  · intro e he
    rw [hvalues]
    split_ifs
    · rfl
    · exact h.isSome e he
  · intro e he info hinfo
    rw [hvalues] at hinfo
    split_ifs at hinfo with hwrites
    · have hsrc : e.src = n := (MatchMaker.mem_successorEdges.mp hwrites).1
      rw [← Option.some.inj htransition, Option.some.injEq] at hinfo
      rw [hsrc, ← hinfo]
      exact hkept s.values h n (hsrc ▸ MatchMaker.mem_allNodes_of_edge (MatchMaker.mem_edges.mp he)) met hmeet
    · exact h.holds e he info hinfo

/-- So does a whole run, as each of its steps does. -/
theorem Each.runWithWorklist {wklist : List ℕ} (h : Each P mm values) (hkept : Kept top mm P)
    (hrun : (analysis top).runWithWorklist mm picks wklist values = some s) : Each P mm s.values := by
  refine CFGFlow.runWithWorklist_induction (P := Each P mm) ?_ ?_ hrun
  · rw [CFGFlow.fill_eq_self h.isSome]
    exact h
  · exact fun _ _ _ _ hs hprocess => Each.process hs hkept hprocess

/-- The run that starts with the top value everywhere. -/
theorem Each.run (htop : ∀ p, P p top) (hkept : Kept top mm P)
    (hrun : (analysis top).run mm picks (fun _ => none) = some s) : Each P mm s.values := by
  have hfill : ∀ e ∈ mm.edges, (analysis top).fill mm (fun _ => none) e = some top := by
    intro e he
    rw [CFGFlow.fill, if_pos ⟨rfl, he⟩]
    rfl
  refine CFGFlow.runWithWorklist_induction (P := Each P mm) ⟨fun e he => ?_, fun e he info hinfo => ?_⟩
    (fun _ _ _ _ hs hprocess => Each.process hs hkept hprocess) hrun
  · rw [hfill e he]
    rfl
  · rw [hfill e he, Option.some.injEq] at hinfo
    exact hinfo ▸ htop e.src

/-- A call leaves the values alone. -/
theorem Each.call (h : Each P mm values) (hsame : SameEdges mm mm') : Each P mm' values :=
  ⟨fun e he => h.isSome e (hsame.edges ▸ he), fun e he => h.holds e (hsame.edges ▸ he)⟩

end Each

/-! ## The variables of the facts -/

/-- The facts are about variables of the graph the pass started with. -/
def Bounded (G : MatchMaker) (info : Finset Copy) : Prop :=
  ∀ c ∈ info, c.late ∈ allVars G ∧ c.early ∈ allVars G

/-- The top value talks about the variables only. -/
theorem bounded_top (G : MatchMaker) : Bounded G (computeTop G) := by
  intro c hc
  obtain ⟨hlate, hearly, -⟩ := mem_computeTop.mp hc
  exact ⟨hlate, hearly⟩

/-- What is met over such values does so too. -/
theorem Each.bounded_met (hroot : Rooted start mm) (h : Each (fun _ => Bounded G) mm values)
    (hmeet : (analysis (computeTop G)).bigMeet values (mm.predecessorEdges n) = some met) :
    Bounded G met := by
  refine CFGFlow.bigMeet_induction (P := Bounded G) (bounded_top G) ?_ ?_ hmeet
  · exact fun a b ha _ c hc => ha c (Finset.mem_inter.mp hc).1
  · exact fun e he info hinfo => h.holds e (hroot.mem_edges he).2 info hinfo

/-- And so does what is passed on from it. -/
theorem kept_bounded (hroot : Rooted start mm) (hvars : allVars mm ⊆ allVars G) :
    Kept (computeTop G) mm fun _ => Bounded G := by
  intro values h n hn met hmeet c hc
  rcases Finset.mem_union.mp hc with hc | hc
  · exact h.bounded_met hroot hmeet c (Finset.mem_sdiff.mp hc).1
  · obtain ⟨hlate, hearly⟩ := mem_gen hc
    exact ⟨hvars (def_mem_allVars hn hlate), hvars (use_mem_allVars hn hearly)⟩

/-- A fact that a node passes on was met there, and the node defines neither variable; or the node defines
the late one. -/
theorem mem_passed (hroot : Rooted start mm) (hvars : allVars G ⊆ allVars mm) (hbounded : Bounded G met)
    (hmeet : (analysis top).bigMeet values (mm.predecessorEdges n) = some met)
    (hc : c ∈ (met \ kill top mm n) ∪ gen mm n) :
    (n ≠ start ∧ c ∈ met ∧ c.late ∉ mm.defsAt n ∧ c.early ∉ mm.defsAt n) ∨
      mm.defsAt n = {c.late} := by
  rcases Finset.mem_union.mp hc with hc | hc
  · left
    obtain ⟨hmem, hkill⟩ := Finset.mem_sdiff.mp hc
    obtain ⟨hlate, hearly⟩ := hbounded c hmem
    refine ⟨?_, hmem, not_defs_of_not_kill (hvars hlate) (hvars hearly) hkill⟩
    -- `Start` meets the top value and kills it
    rintro rfl
    obtain ⟨name, edge, hnode⟩ := hroot.isStart
    rw [hroot.predecessorEdges_start] at hmeet
    have htop : top = met := Option.some.inj hmeet
    have hkilled : kill top mm n = top := by rw [kill, hnode]
    rw [hkilled, htop] at hkill
    exact hkill hmem
  · obtain ⟨edge, hnode⟩ := gen_inv hc
    exact .inr (defsAt_eq hnode)

/-! ## The times of the facts -/

/-- Along the way the early variable was defined before the late one, or neither is. -/
def Dated (mm : MatchMaker) (path : List ℕ) (info : Finset Copy) : Prop :=
  ∀ c ∈ info, c.late ≠ c.early → Older mm.defsAt path c.late c.early

/-- What the facts behind a node say: on each way they are dated, and where control comes from `Start` the
late variable has been defined. -/
structure Ordered (start : ℕ) (mm : MatchMaker) (p : ℕ) (info : Finset Copy) : Prop where
  dated : ∀ path, Way (Leads mm) p path → Dated mm (p :: path) info
  assigned : Live start mm p → ∀ c ∈ info, c.late ≠ c.early →
    c.late ∈ mm.defsAt p ∨ Assigned (Leads mm) mm.defsAt c.late p

/-- A node passes on facts that are dated along the way through it: those it kills it has assigned to, and
the new one is made there. -/
theorem passed_dated (hroot : Rooted start mm) (hvars : allVars G ⊆ allVars mm)
    (hbounded : Bounded G met)
    (hmeet : (analysis top).bigMeet values (mm.predecessorEdges n) = some met)
    (hentry : n ≠ start → Dated mm path met) :
    Dated mm (n :: path) ((met \ kill top mm n) ∪ gen mm n) := by
  intro c hc hne
  rcases mem_passed hroot hvars hbounded hmeet hc with ⟨hn, hmem, hlate, hearly⟩ | hdefs
  · exact (hentry hn c hmem hne).keep hlate hearly
  · refine older_of_def ?_ ?_
    · exact hdefs ▸ Finset.mem_singleton_self _
    · exact hdefs ▸ Finset.notMem_singleton.mpr hne.symm

/-- The later variable of a fact that is passed on has been assigned on the way. -/
theorem passed_assigned (hroot : Rooted start mm) (hvars : allVars G ⊆ allVars mm)
    (hbounded : Bounded G met)
    (hmeet : (analysis top).bigMeet values (mm.predecessorEdges n) = some met)
    (hentry : n ≠ start → ∀ c ∈ met, c.late ≠ c.early → Assigned (Leads mm) mm.defsAt c.late n) :
    ∀ c ∈ (met \ kill top mm n) ∪ gen mm n, c.late ≠ c.early →
      c.late ∈ mm.defsAt n ∨ Assigned (Leads mm) mm.defsAt c.late n := by
  intro c hc hne
  rcases mem_passed hroot hvars hbounded hmeet hc with ⟨hn, hmem, -⟩ | hdefs
  · exact .inr (hentry hn c hmem hne)
  · exact .inl (hdefs ▸ Finset.mem_singleton_self _)

/-- The facts at the entry of a node are dated along every way to it, as the node behind it has passed them
on. -/
theorem Each.dated_met (hroot : Rooted start mm) (h : Each (Ordered start mm) mm values)
    (hway : Way (Leads mm) n path)
    (hmeet : (analysis top).bigMeet values (mm.predecessorEdges n) = some met) : Dated mm path met := by
  intro c hc hne
  cases hway with
  | nil => exact .nil
  | snoc hway hedge =>
    obtain ⟨jump, hedge⟩ := hedge
    obtain ⟨info, hinfo, hsub⟩ := hroot.met_subset hmeet hedge
    exact (h.edge hedge hinfo).dated _ hway c (hsub hc) hne

/-- Their later variables have been assigned before, where the node is live. -/
theorem Each.assigned_met (hroot : Rooted start mm) (h : Each (Ordered start mm) mm values)
    (hn : n ≠ start) (hlive : Live start mm n)
    (hmeet : (analysis top).bigMeet values (mm.predecessorEdges n) = some met) :
    ∀ c ∈ met, c.late ≠ c.early → Assigned (Leads mm) mm.defsAt c.late n := by
  intro c hc hne
  obtain hstart | ⟨p, hp, jump, hedge⟩ := Relation.ReflTransGen.cases_tail hlive
  · exact absurd hstart hn
  · obtain ⟨info, hinfo, hsub⟩ := hroot.met_subset hmeet hedge
    rcases (h.edge hedge hinfo).assigned hp c (hsub hc) hne with hdef | hassigned
    · exact .last ⟨jump, hedge⟩ hdef
    · exact .before ⟨jump, hedge⟩ hassigned

/-- Both properties are passed on together. -/
theorem kept_ordered (hroot : Rooted start mm) (hvars : allVars mm = allVars G) :
    Kept (computeTop G) mm fun p info => Bounded G info ∧ Ordered start mm p info := by
  intro values h n hn met hmeet
  have hordered : Each (Ordered start mm) mm values := h.imp fun _ _ hinfo => hinfo.2
  have hbounds : Each (fun _ => Bounded G) mm values := h.imp fun _ _ hinfo => hinfo.1
  have hbounded := hbounds.bounded_met hroot hmeet
  refine ⟨kept_bounded hroot hvars.subset values hbounds n hn met hmeet, fun path hway => ?_,
    fun hlive => ?_⟩
  · exact passed_dated hroot hvars.symm.subset hbounded hmeet fun _ => hordered.dated_met hroot hway hmeet
  · exact passed_assigned hroot hvars.symm.subset hbounded hmeet fun hstart =>
      hordered.assigned_met hroot hstart hlive hmeet

/-- The facts of a fixpoint are ordered. -/
theorem ordered_of_fixpoint (hroot : Rooted start mm) (hbounds : Each (fun _ => Bounded mm) mm values)
    (hfix : (analysis (computeTop mm)).AtFixpoint mm values) : Each (Ordered start mm) mm values := by
  have hpassed : ∀ p jump n info, mm.Edge p jump n → values ⟨p, n, jump⟩ = some info → ∃ met,
      (analysis (computeTop mm)).bigMeet values (mm.predecessorEdges p) = some met ∧
        Bounded mm met ∧ info = (met \ kill (computeTop mm) mm p) ∪ gen mm p := by
    intro p jump n info hedge hinfo
    obtain ⟨met, newEdges, hmeet, htransition, hvalues⟩ := hfix.holds p
    have hmem : (⟨p, n, jump⟩ : Edge) ∈ mm.successorEdges p :=
      MatchMaker.mem_successorEdges.mpr ⟨rfl, hedge⟩
    have hinfo := hinfo.symm.trans (hvalues _ hmem)
    rw [← Option.some.inj htransition, Option.some.injEq] at hinfo
    exact ⟨met, hmeet, hbounds.bounded_met hroot hmeet, hinfo⟩
  -- Induction on the way, and on the steps from `Start`.
  have hdated : ∀ p path, Way (Leads mm) p path → ∀ jump n, mm.Edge p jump n →
      ∀ info, values ⟨p, n, jump⟩ = some info → Dated mm (p :: path) info := by
    intro p path hway
    induction hway with
    | nil p =>
      intro jump n hedge info hinfo
      obtain ⟨met, hmeet, hbounded, rfl⟩ := hpassed p jump n info hedge hinfo
      exact passed_dated hroot subset_rfl hbounded hmeet fun _ _ _ _ => .nil
    | @snoc q p path hway hqp ih =>
      intro jump n hedge info hinfo
      obtain ⟨met, hmeet, hbounded, rfl⟩ := hpassed p jump n info hedge hinfo
      refine passed_dated hroot subset_rfl hbounded hmeet fun _ c hc hne => ?_
      obtain ⟨jump', hqp⟩ := hqp
      obtain ⟨info', hinfo', hsub⟩ := hroot.met_subset hmeet hqp
      exact ih jump' p hqp info' hinfo' c (hsub hc) hne
  have hassigned : ∀ p, Live start mm p → ∀ jump n, mm.Edge p jump n →
      ∀ info, values ⟨p, n, jump⟩ = some info → ∀ c ∈ info, c.late ≠ c.early →
        c.late ∈ mm.defsAt p ∨ Assigned (Leads mm) mm.defsAt c.late p := by
    intro p hlive
    induction hlive with
    | refl =>
      intro jump n hedge info hinfo
      obtain ⟨met, hmeet, hbounded, rfl⟩ := hpassed start jump n info hedge hinfo
      exact passed_assigned hroot subset_rfl hbounded hmeet fun hne => absurd rfl hne
    | @tail q p hq hqp ih =>
      intro jump n hedge info hinfo
      obtain ⟨met, hmeet, hbounded, rfl⟩ := hpassed p jump n info hedge hinfo
      refine passed_assigned hroot subset_rfl hbounded hmeet fun _ c hc hne => ?_
      obtain ⟨jump', hqp⟩ := hqp
      obtain ⟨info', hinfo', hsub⟩ := hroot.met_subset hmeet hqp
      rcases ih jump' p hqp info' hinfo' c (hsub hc) hne with hdef | hassigned
      · exact .last ⟨jump', hqp⟩ hdef
      · exact .before ⟨jump', hqp⟩ hassigned
  refine ⟨hfix.isSome, fun e he info hinfo => ⟨fun path hway => ?_, fun hlive => ?_⟩⟩
  · exact hdated e.src path hway e.jump e.node (MatchMaker.mem_edges.mp he) info hinfo
  · exact hassigned e.src hlive e.jump e.node (MatchMaker.mem_edges.mp he) info hinfo

/-! ## What a call keeps -/

/-- A rewriting of the node may replace the variable. -/
def Reads (mm : MatchMaker) (n : ℕ) (x : String) : Prop :=
  ∃ node, mm.nodes[n]? = some node ∧ ∃ e ∈ operands node, x ∈ Properties.exprUse e

/-- A node with predecessors where control does not come from `Start`. It reads one of two variables that
no node on the ways there defines. -/
structure Spins (start : ℕ) (mm : MatchMaker) (n : ℕ) : Prop where
  dead : ¬ Live start mm n
  mem : n ∈ mm.predecessors.keys
  reads : ∃ x y, x ≠ y ∧ Reads mm n x ∧ y ∈ allVars mm ∧
    ¬ Assigned (Leads mm) mm.defsAt x n ∧ ¬ Assigned (Leads mm) mm.defsAt y n

/-- Rewriting keeps the ways. -/
theorem leads_eq (h : SameEdges mm mm') : Leads mm' = Leads mm := by
  funext p n
  simp only [Leads, h.edge_iff]

/-- Rewriting keeps what a node assigns. -/
theorem call_defsAt (h : propagateEqualVars top order values mm = some (mm', changed)) :
    mm'.defsAt = mm.defsAt := funext (round_defsAt h)

/-- Only the start node is rewritten into a start node. -/
theorem start_of_rewriteNode {find : String → Option Copy} {node : CFGNode} {name edge : String}
    (h : (rewriteNode find node).1 = .Start name edge) : node = .Start name edge := by
  cases node with
  | mov m edge' => cases m <;> cases h
  | Start name' edge' => exact h
  | Funcking name' movIntos args edge' => cases h
  | Return rets => cases h
  | If cond take edge' => cases h
  | Cricket dest => cases h
  | NOOP => cases h

/-- Rewriting keeps the root. -/
theorem Rooted.call (hroot : Rooted start mm)
    (h : propagateEqualVars top order values mm = some (mm', changed)) : Rooted start mm' := by
  obtain ⟨hsame, -⟩ := propagateEqualVars_spec h
  refine ⟨hsame.repOk hroot.repOk, ?_, fun n name edge hnode => ?_, fun p jump hedge => ?_⟩
  · obtain ⟨name, edge, hnode⟩ := hroot.isStart
    rcases call_node h start with hold | ⟨met, node, -, -, hold, hnew⟩
    · exact ⟨name, edge, hold.trans hnode⟩
    · rw [Option.some.inj (hold.symm.trans hnode)] at hnew
      exact ⟨name, edge, hnew⟩
  · rcases call_node h n with hold | ⟨met, node, -, -, hold, hnew⟩
    · exact hroot.unique n name edge (hold.symm.trans hnode)
    · have hstart := start_of_rewriteNode (Option.some.inj (hnew.symm.trans hnode))
      exact hroot.unique n name edge (hold.trans (congrArg some hstart))
  · exact hroot.noInto p jump ((hsame.edge_iff p jump start).mpr hedge)

/-- The variables of the graph stay among those the pass started with. -/
theorem allVars_call_subset (hroot : Rooted start mm) (hvars : allVars mm ⊆ allVars G)
    (hbounds : Each (fun _ => Bounded G) mm values)
    (h : propagateEqualVars (computeTop G) order values mm = some (mm', changed)) :
    allVars mm' ⊆ allVars G := by
  obtain ⟨hsame, -⟩ := propagateEqualVars_spec h
  intro y hy
  obtain ⟨n, hn, hy⟩ := mem_allVars.mp hy
  rw [hsame.allNodes] at hn
  rcases Finset.mem_union.mp hy with hy | hy
  · rcases call_node h n with hold | ⟨met, node, -, hmeet, hold, hnew⟩
    · rw [MatchMaker.useAt, hold] at hy
      exact hvars (use_mem_allVars hn hy)
    · rw [useAt_eq hnew] at hy
      have hkept : y ∈ Properties.use node → y ∈ allVars G := fun huse =>
        hvars (use_mem_allVars hn (useAt_eq hold ▸ huse))
      rcases use_rewriteNode hy with huse | ⟨x, huse, rfl⟩
      · exact hkept huse
      · by_cases hx : renamed ((order n).find met) x = x
        · exact hkept (hx.symm ▸ huse)
        · obtain ⟨c, hc, -, hearly⟩ := exists_of_renamed_ne hx
          rw [hearly]
          exact (hbounds.bounded_met hroot hmeet c ((order n).find_mem hc).1).2
  · rw [call_defsAt h] at hy
    exact hvars (def_mem_allVars hn hy)

/-- What is read instead of a variable is older on every way, and some way defines the variable. -/
theorem replaced_older (hroot : Rooted start mm) (hvars : allVars mm = allVars G)
    (hbounds : Each (fun _ => Bounded G) mm values) (hordered : Each (Ordered start mm) mm values)
    (hcalm : ¬ Spins start mm n) (hn : n ∈ mm.predecessors.keys)
    (hmeet : (analysis (computeTop G)).bigMeet values (mm.predecessorEdges n) = some met)
    (hreads : Reads mm n x) (hne : renamed ((order n).find met) x ≠ x) :
    Assigned (Leads mm) mm.defsAt x n ∧
      ∀ path, Way (Leads mm) n path → Older mm.defsAt path x (renamed ((order n).find met) x) := by
  obtain ⟨c, hc, hearly, hrenamed⟩ := exists_of_renamed_ne hne
  obtain ⟨hmem, rfl⟩ := (order n).find_mem hc
  rw [hrenamed]
  have hdated : ∀ path, Way (Leads mm) n path → Older mm.defsAt path c.late c.early :=
    fun path hway => hordered.dated_met hroot hway hmeet c hmem hearly.symm
  refine ⟨?_, hdated⟩
  by_contra hassigned
  refine hcalm ⟨fun hlive => ?_, hn, c.late, c.early, hearly.symm, hreads, ?_, hassigned,
    not_assigned_of_older hdated hassigned⟩
  · have hstart : n ≠ start := by
      rintro rfl
      obtain ⟨⟨p, jump⟩, hinto⟩ := List.exists_mem_of_ne_nil _
        (hroot.repOk.nonempty n (mm.predecessors.mem_keys_iff.mp hn))
      exact hroot.noInto p jump ((hroot.repOk.mem_into p jump n).mp hinto)
    exact hassigned (hordered.assigned_met hroot hstart hlive hmeet c hmem hearly.symm)
  · rw [hvars]
    exact (hbounds.bounded_met hroot hmeet c hmem).2

/-- A call in which no node spins loses no variable. -/
theorem allVars_call (hroot : Rooted start mm) (hvars : allVars mm = allVars G)
    (hbounds : Each (fun _ => Bounded G) mm values) (hordered : Each (Ordered start mm) mm values)
    (hcalm : ∀ n, ¬ Spins start mm n)
    (h : propagateEqualVars (computeTop G) order values mm = some (mm', changed)) :
    allVars mm' = allVars G := by
  obtain ⟨hsame, -⟩ := propagateEqualVars_spec h
  refine (allVars_call_subset hroot hvars.subset hbounds h).antisymm ?_
  rw [← hvars]
  have hdefs : ∀ {n : ℕ}, n ∈ mm.allNodes → ∀ x ∈ mm.defsAt n, x ∈ allVars mm' := by
    intro n hn x hx
    rw [← call_defsAt h] at hx
    exact def_mem_allVars (hsame.allNodes.symm ▸ hn) hx
  intro x hx
  obtain ⟨n, hn, hx⟩ := mem_allVars.mp hx
  rcases Finset.mem_union.mp hx with hx | hx
  · have hn' : n ∈ mm'.allNodes := hsame.allNodes.symm ▸ hn
    rcases call_node h n with hold | ⟨met, node, hkey, hmeet, hold, hnew⟩
    · refine use_mem_allVars hn' ?_
      rw [MatchMaker.useAt, hold]
      exact hx
    · rw [useAt_eq hold] at hx
      rcases mem_use_rewriteNode hx with hx | ⟨hreads, hne⟩
      · exact use_mem_allVars hn' (useAt_eq hnew ▸ hx)
      · obtain ⟨hassigned, -⟩ :=
          replaced_older hroot hvars hbounds hordered (hcalm n) hkey hmeet ⟨node, hold, hreads⟩ hne
        obtain ⟨p, m, ⟨jump, hedge⟩, hdef⟩ := hassigned.exists_def
        exact hdefs (MatchMaker.mem_allNodes_of_edge hedge) x hdef
  · exact hdefs hn x hx

/-- The values are ordered in the rewritten graph, as they were. -/
theorem Each.ordered_call (hordered : Each (Ordered start mm) mm values)
    (h : propagateEqualVars top order values mm = some (mm', changed)) :
    Each (Ordered start mm') mm' values := by
  obtain ⟨hsame, -⟩ := propagateEqualVars_spec h
  refine (hordered.call hsame).imp fun p info hinfo => ⟨fun path hway => ?_, fun hlive => ?_⟩
  · rw [Dated, call_defsAt h]
    exact hinfo.dated path (leads_eq hsame ▸ hway)
  · rw [call_defsAt h, leads_eq hsame]
    exact hinfo.assigned (by rwa [Live, leads_eq hsame] at hlive)

/-! ## The weight of a graph -/

/-- The sum of the values of the variables an expression reads. -/
def exprWeight (f : String → ℕ) : CFGExpr → ℕ
  | .BOp left right _ => exprWeight f left + exprWeight f right
  | .Const _ => 0
  | .Label _ => 0
  | .Mem loc => exprWeight f loc
  | .Var name => f name

/-- The weight of a node under a weight of its variables. -/
def nodeWeight (f : String → ℕ) (node : CFGNode) : ℕ := ((operands node).map (exprWeight f)).sum

/-- The weight of the nodes with predecessors. `f` depends on the node. -/
def weight (f : ℕ → String → ℕ) (mm : MatchMaker) : ℕ :=
  (mm.predecessors.keys.map fun n => (mm.nodes[n]?).elim 0 (nodeWeight (f n))).sum

section Weight

variable {find : String → Option Copy} {f : String → ℕ}

/-- A renaming to lighter variables does not make an expression heavier. -/
theorem exprWeight_replaceVar_le (e : CFGExpr)
    (h : ∀ x ∈ Properties.exprUse e, f (renamed find x) ≤ f x) :
    exprWeight f (replaceVar find e).1 ≤ exprWeight f e := by
  induction e with
  | Var name =>
    have hname := h name (Finset.mem_singleton_self name)
    rw [replaceVar]
    rw [renamed] at hname
    cases hc : (find name).map Copy.early with
    | none => exact le_rfl
    | some earliest =>
      rw [hc] at hname
      dsimp only
      split_ifs
      · exact hname
      · exact le_rfl
  | Const value => exact le_rfl
  | Label name => exact le_rfl
  | Mem loc ih => exact ih h
  | BOp left right op ihl ihr =>
    exact Nat.add_le_add (ihl fun x hx => h x (Finset.mem_union_left _ hx))
      (ihr fun x hx => h x (Finset.mem_union_right _ hx))

/-- One that renames a variable makes it lighter. -/
theorem exprWeight_replaceVar_lt (e : CFGExpr)
    (h : ∀ x ∈ Properties.exprUse e, renamed find x ≠ x → f (renamed find x) < f x)
    (hx : x ∈ Properties.exprUse e) (hne : renamed find x ≠ x) :
    exprWeight f (replaceVar find e).1 < exprWeight f e := by
  have hle : ∀ y ∈ Properties.exprUse e, f (renamed find y) ≤ f y := by
    intro y hy
    by_cases hy' : renamed find y = y
    · exact (congrArg f hy').le
    · exact (h y hy hy').le
  induction e with
  | Var name =>
    obtain rfl : x = name := Finset.mem_singleton.mp hx
    have hlt := h x hx hne
    obtain ⟨c, hc, hearly, hrenamed⟩ := exists_of_renamed_ne hne
    rw [replaceVar, hc, Option.map_some]
    dsimp only
    rw [if_pos hearly]
    exact hrenamed ▸ hlt
  | Const value => cases hx
  | Label name => cases hx
  | Mem loc ih => exact ih h hx hle
  | BOp left right op ihl ihr =>
    have hl : ∀ y ∈ Properties.exprUse left, y ∈ Properties.exprUse (.BOp left right op) :=
      fun y hy => Finset.mem_union_left _ hy
    have hr : ∀ y ∈ Properties.exprUse right, y ∈ Properties.exprUse (.BOp left right op) :=
      fun y hy => Finset.mem_union_right _ hy
    rcases Finset.mem_union.mp hx with hx | hx
    · exact Nat.add_lt_add_of_lt_of_le
        (ihl (fun y hy => h y (hl y hy)) hx fun y hy => hle y (hl y hy))
        (exprWeight_replaceVar_le right fun y hy => hle y (hr y hy))
    · exact Nat.add_lt_add_of_le_of_lt
        (exprWeight_replaceVar_le left fun y hy => hle y (hl y hy))
        (ihr (fun y hy => h y (hr y hy)) hx fun y hy => hle y (hr y hy))

/-- Rewriting a node to read lower variables lowers its weight, if it changes the node. -/
theorem nodeWeight_rewriteNode (node : CFGNode)
    (h : ∀ e ∈ operands node, ∀ x ∈ Properties.exprUse e, renamed find x ≠ x → f (renamed find x) < f x) :
    nodeWeight f (rewriteNode find node).1 ≤ nodeWeight f node ∧
      ((rewriteNode find node).2 = true → nodeWeight f (rewriteNode find node).1 < nodeWeight f node) := by
  have hle : ∀ e ∈ operands node, exprWeight f (replaceVar find e).1 ≤ exprWeight f e := by
    refine fun e he => exprWeight_replaceVar_le e fun x hx => ?_
    by_cases hne : renamed find x = x
    · exact (congrArg f hne).le
    · exact (h e he x hx hne).le
  rw [nodeWeight, nodeWeight, operands_rewriteNode, List.map_map]
  refine ⟨List.sum_le_sum hle, fun hchanged => ?_⟩
  obtain ⟨e, he, x, hx, hne⟩ := (rewriteNode_changed find node).mp hchanged
  exact List.sum_lt_sum _ _ hle ⟨e, he, exprWeight_replaceVar_lt e (h e he) hx hne⟩

end Weight

/-- A call that replaces variables by lower ones lowers the weight, if it changes a node. -/
theorem weight_call {f : ℕ → String → ℕ}
    (h : propagateEqualVars top order values mm = some (mm', changed))
    (hlt : ∀ n ∈ mm.predecessors.keys, ∀ met,
      (analysis top).bigMeet values (mm.predecessorEdges n) = some met → ∀ x, Reads mm n x →
        renamed ((order n).find met) x ≠ x → f n (renamed ((order n).find met) x) < f n x) :
    weight f mm' ≤ weight f mm ∧ (changed ≠ [] → weight f mm' < weight f mm) := by
  obtain ⟨hsame, -, hkeys, hother⟩ := propagateEqualVars_spec h
  have hnode : ∀ n ∈ mm.predecessors.keys,
      (mm'.nodes[n]?).elim 0 (nodeWeight (f n)) ≤ (mm.nodes[n]?).elim 0 (nodeWeight (f n)) ∧
        (n ∈ changed →
          (mm'.nodes[n]?).elim 0 (nodeWeight (f n)) < (mm.nodes[n]?).elim 0 (nodeWeight (f n))) := by
    intro n hn
    obtain ⟨met, hmeet, hnew, hchanged⟩ := hkeys n hn
    rw [hnew]
    cases hold : mm.nodes[n]? with
    | none =>
      refine ⟨le_rfl, fun hmem => ?_⟩
      obtain ⟨node, hnode, -⟩ := hchanged.mp hmem
      rw [hold] at hnode
      cases hnode
    | some node =>
      have hfall := nodeWeight_rewriteNode node
        fun e he x hx hne => hlt n hn met hmeet x ⟨node, hold, e, he, hx⟩ hne
      refine ⟨hfall.1, fun hmem => ?_⟩
      obtain ⟨node', hnode', htrue⟩ := hchanged.mp hmem
      rw [hold, Option.some.injEq] at hnode'
      exact hfall.2 (hnode' ▸ htrue)
  rw [weight, weight, hsame.predecessors]
  refine ⟨List.sum_le_sum fun n hn => (hnode n hn).1, fun hne => ?_⟩
  obtain ⟨n, hn⟩ := List.exists_mem_of_ne_nil _ hne
  have hkey : n ∈ mm.predecessors.keys := by
    by_contra hkey
    exact (hother n hkey).2 hn
  exact List.sum_lt_sum _ _ (fun m hm => (hnode m hm).1) ⟨n, hkey, (hnode n hkey).2 hn⟩

/-! ## Rounds in which no node spins -/

section Rounds

variable (start : ℕ) (top : Finset Copy) (picks : ℕ → ℕ) (orders : ℕ → ℕ → SetOrder)

/-- In no round of the loop of `postprocess` does a node spin. -/
def LoopCalm : ℕ → MatchMaker → (Edge → Option (Finset Copy)) → List ℕ → Prop
  | 0, _, _, _ => True
  | fuel + 1, mm, values, propagateCopies =>
    propagateCopies = [] ∨ ((∀ n, ¬ Spins start mm n) ∧ ∀ mm' changed s,
      propagateEqualVars top (orders fuel) values mm = some (mm', changed) →
      (analysis top).runWithWorklist mm' picks changed values = some s →
        LoopCalm fuel mm' s.values changed)

/-- In no round of `postprocess` does a node spin. -/
def Calm (fuel : ℕ) (mm : MatchMaker) (values : Edge → Option (Finset Copy)) : Prop :=
  (∀ n, ¬ Spins start mm n) ∧ ∀ mm' changed,
    propagateEqualVars top (orders fuel) values mm = some (mm', changed) →
      LoopCalm start top picks orders fuel mm' values changed

end Rounds

/-- What the rounds keep while no node spins. -/
structure RoundOk (G : MatchMaker) (start : ℕ) (mm : MatchMaker)
    (values : Edge → Option (Finset Copy)) : Prop where
  root : Rooted start mm
  leads : Leads mm = Leads G
  defs : mm.defsAt = G.defsAt
  vars : allVars mm = allVars G
  bounds : Each (fun _ => Bounded G) mm values
  ordered : Each (Ordered start mm) mm values

variable {picks : ℕ → ℕ} {orders : ℕ → ℕ → SetOrder} {fuel : ℕ} {s : Solver (Finset Copy)}

/-- A call of `propagateEqualVars` keeps the invariant of the rounds. -/
theorem RoundOk.next (h : RoundOk G start mm values) (hcalm : ∀ n, ¬ Spins start mm n)
    (hcall : propagateEqualVars (computeTop G) order values mm = some (mm', changed)) :
    RoundOk G start mm' values := by
  obtain ⟨hsame, -⟩ := propagateEqualVars_spec hcall
  refine ⟨h.root.call hcall, (leads_eq hsame).trans h.leads, (call_defsAt hcall).trans h.defs, ?_,
    h.bounds.call hsame, h.ordered.ordered_call hcall⟩
  exact allVars_call h.root h.vars h.bounds h.ordered hcalm hcall

/-- So does a run of the solver. -/
theorem RoundOk.solve {wklist : List ℕ} (h : RoundOk G start mm values)
    (hrun : (analysis (computeTop G)).runWithWorklist mm picks wklist values = some s) :
    RoundOk G start mm s.values := by
  have hboth : Each (fun p info => Bounded G info ∧ Ordered start mm p info) mm values :=
    ⟨h.bounds.isSome, fun e he info hinfo =>
      ⟨h.bounds.holds e he info hinfo, h.ordered.holds e he info hinfo⟩⟩
  have hafter := hboth.runWithWorklist (kept_ordered h.root h.vars) hrun
  exact ⟨h.root, h.leads, h.defs, h.vars, hafter.imp fun _ _ hinfo => hinfo.1,
    hafter.imp fun _ _ hinfo => hinfo.2⟩

/-- A call lowers the ages of the variables that are read. -/
theorem RoundOk.weight_call {way : ℕ → String → List ℕ} (h : RoundOk G start mm values)
    (hway : Chosen (Leads G) G.defsAt way) (hcalm : ∀ n, ¬ Spins start mm n)
    (hcall : propagateEqualVars (computeTop G) order values mm = some (mm', changed)) :
    weight (age G.defsAt (allVars G) way) mm' ≤ weight (age G.defsAt (allVars G) way) mm ∧
      (changed ≠ [] →
        weight (age G.defsAt (allVars G) way) mm' < weight (age G.defsAt (allVars G) way) mm) := by
  refine CopyProp.weight_call hcall fun n hn met hmeet x hreads hne => ?_
  obtain ⟨hassigned, holder⟩ :=
    replaced_older h.root h.vars h.bounds h.ordered (hcalm n) hn hmeet hreads hne
  obtain ⟨p, m, ⟨jump, hedge⟩, hdef⟩ := hassigned.exists_def
  have hmem : x ∈ allVars G := h.vars ▸ def_mem_allVars (MatchMaker.mem_allNodes_of_edge hedge) hdef
  rw [h.leads, h.defs] at hassigned holder
  exact hway.age_lt holder hassigned hmem

/-- The loop over the nodes does not throw, as every edge has a value. -/
theorem foldlM_propagateNode_isSome (hrep : mm.RepOk) (hsome : ∀ e ∈ mm.edges, (values e).isSome)
    (keys : List ℕ) {mm₁ : MatchMaker} {acc : List ℕ} (hsame : SameEdges mm mm₁) :
    ∃ r, keys.foldlM (propagateNode top order values) (mm₁, acc) = some r := by
  induction keys generalizing mm₁ acc with
  | nil => exact ⟨_, rfl⟩
  | cons n keys ih =>
    obtain ⟨met, hmeet⟩ : ∃ met, (analysis top).bigMeet values (mm.predecessorEdges n) = some met :=
      bigMeet_isSome hrep hsome n
    have hstep : ∃ mm₂ acc₂, propagateNode top order values (mm₁, acc) n = some (mm₂, acc₂) ∧
        SameEdges mm mm₂ := by
      rw [propagateNode, hsame.predecessorEdges, hmeet, Option.bind_eq_bind, Option.bind_some]
      dsimp only
      cases mm₁.nodes[n]? with
      | none => exact ⟨mm₁, acc, rfl, hsame⟩
      | some node => exact ⟨_, _, rfl, hsame.predecessors, hsame.successors⟩
    obtain ⟨mm₂, acc₂, hstep, hsame₂⟩ := hstep
    rw [List.foldlM_cons, hstep]
    exact ih hsame₂

/-- So a call of `propagateEqualVars` returns. -/
theorem RoundOk.call_isSome (h : RoundOk G start mm values) :
    ∃ mm' changed, propagateEqualVars top order values mm = some (mm', changed) := by
  obtain ⟨⟨mm', changed⟩, hcall⟩ : ∃ r, propagateEqualVars top order values mm = some r :=
    foldlM_propagateNode_isSome h.root.repOk h.bounds.isSome mm.predecessors.keys (.refl mm)
  exact ⟨mm', changed, hcall⟩

/-- The solver returns on every graph, with the top value of another. -/
theorem runWithWorklist_isSome (hrep : mm.RepOk) {wklist : List ℕ} (hnodup : wklist.Nodup) :
    ∃ s, (analysis top).runWithWorklist mm picks wklist values = some s := by
  have hgen : (analysis top).IsGenKill mm (top ∪ pairs mm) (kill top mm) (gen mm) := by
    refine ⟨fun _ _ => rfl, Versus.inter_le, fun ha _ => Finset.inter_subset_left.trans ha, rfl,
      Finset.subset_union_left, fun n c hc => ?_⟩
    obtain ⟨hlate, hearly⟩ := mem_gen hc
    exact Finset.mem_union_right _
      (mem_pairs (Finset.mem_union_right _ hlate) (Finset.mem_union_left _ hearly))
  exact Option.isSome_iff_exists.mp
    (hgen.loop_isSome hrep (CFGFlow.fill_filled hnodup values) THRESHOLD)

/-- While no node spins, the loop makes at most as many rounds as the weight of the graph allows. -/
theorem postprocessLoop_returns {way : ℕ → String → List ℕ} (hway : Chosen (Leads G) G.defsAt way)
    (h : RoundOk G start mm values)
    (hcalm : LoopCalm start (computeTop G) picks orders fuel mm values changed)
    (hfuel : weight (age G.defsAt (allVars G) way) mm < fuel) :
    ∃ mm', postprocessLoop (computeTop G) picks orders fuel mm values changed = some mm' := by
  induction fuel generalizing mm values changed with
  | zero => exact absurd hfuel (Nat.not_lt_zero _)
  | succ fuel ih =>
    rw [postprocessLoop]
    split_ifs with hchanged
    · exact ⟨mm, rfl⟩
    · obtain ⟨hcalm, hnext⟩ := hcalm.resolve_left hchanged
      obtain ⟨mm₁, changed₁, hcall⟩ : ∃ mm' changed,
          propagateEqualVars (computeTop G) (orders fuel) values mm = some (mm', changed) := h.call_isSome
      have h₁ := h.next hcalm hcall
      obtain ⟨s, hrun⟩ : ∃ s,
          (analysis (computeTop G)).runWithWorklist mm₁ picks changed₁ values = some s :=
        runWithWorklist_isSome h₁.root.repOk (propagateEqualVars_spec hcall).2.1
      rw [hcall, Option.bind_eq_bind, Option.bind_some]
      dsimp only
      rw [hrun, Option.bind_eq_bind, Option.bind_some]
      by_cases hempty : changed₁ = []
      · refine ⟨mm₁, ?_⟩
        unfold postprocessLoop
        rw [if_pos hempty]
      · obtain ⟨-, hlt⟩ := h.weight_call hway hcalm hcall
        exact ih (h₁.solve hrun) (hnext mm₁ changed₁ s hcall hrun)
          ((hlt hempty).trans_le (Nat.le_of_lt_succ hfuel))

/-- With enough fuel `postprocess` returns: each round that reports something makes the graph lighter. -/
theorem postprocess_returns {way : ℕ → String → List ℕ} (hway : Chosen (Leads G) G.defsAt way)
    (h : RoundOk G start mm values) (hcalm : Calm start (computeTop G) picks orders fuel mm values)
    (hfuel : weight (age G.defsAt (allVars G) way) mm < fuel) :
    ∃ mm', postprocess (computeTop G) picks orders fuel mm values = some mm' := by
  obtain ⟨hcalm, hloop⟩ := hcalm
  obtain ⟨mm₁, changed, hcall⟩ : ∃ mm' changed,
      propagateEqualVars (computeTop G) (orders fuel) values mm = some (mm', changed) := h.call_isSome
  obtain ⟨hle, -⟩ := h.weight_call hway hcalm hcall
  rw [postprocess, hcall]
  exact postprocessLoop_returns hway (h.next hcalm hcall) (hloop mm₁ changed hcall) (hle.trans_lt hfuel)

end CopyProp

end Jaek
