import Jaek.Data.OptionList
import Jaek.Optimize.Dataflow.CFGFlow
import Jaek.Semantics.GenKill

/-!
# The solver returns a fixpoint

What a run keeps: the equations of the nodes off the worklist. A run whose worklist gets empty returns a
fixpoint. For an analysis that takes elements out of sets and puts others in, a run from all-top empties its
list when the graph is small enough for the step limit.
-/

namespace Jaek

namespace CFGFlow

variable {V : Type} {A : CFGFlow V} {mm : MatchMaker}

variable (A mm) in
/-- The values of the edges that a node writes are those it computes. -/
def Holds (values : Edge → Option V) (n : ℕ) : Prop :=
  ∃ inInfo newEdges, A.bigMeet values (A.reads mm n) = some inInfo ∧
    A.transition mm n inInfo = some newEdges ∧ ∀ e ∈ A.writes mm n, values e = some (newEdges e)

variable (A mm) in
/-- Every edge has a value, and the values satisfy the equation of every node. -/
structure AtFixpoint (values : Edge → Option V) : Prop where
  isSome : ∀ e ∈ mm.edges, (values e).isSome
  holds : ∀ n, A.Holds mm values n

variable {s s' : Solver V} {k : ℕ} {picks : ℕ → ℕ}

theorem fill_of_isSome {values : Edge → Option V} {e : Edge} (h : (values e).isSome) :
    A.fill mm values e = values e := by
  rw [fill, if_neg fun hnone => by simp [hnone.1] at h]

theorem fill_eq_self {values : Edge → Option V} (hsome : ∀ e ∈ mm.edges, (values e).isSome) :
    A.fill mm values = values := by
  funext e
  by_cases he : e ∈ mm.edges
  · exact fill_of_isSome (hsome e he)
  · rw [fill, if_neg fun hnone => he hnone.2]

/-- What iterations keep holds of the values after a run, also after one that stops early. -/
theorem runWithWorklist_induction [DecidableEq V] {P : (Edge → Option V) → Prop} {values : Edge → Option V}
    {wklist : List ℕ} (h : P (A.fill mm values))
    (hstep : ∀ k n s s', P s.values → A.process mm k n s = some s' → P s'.values)
    (hrun : A.runWithWorklist mm picks wklist values = some s) : P s.values := by
  refine loop_induction (s := ⟨wklist, A.fill mm values⟩) (P := fun _ s => P s.values) h ?_ hrun
  intro k s₁ s₂ _ hs₁ hiter
  rcases iteration_cases hiter with ⟨-, rfl⟩ | ⟨node, -, hprocess⟩
  · exact hs₁
  · exact hstep k node s₁ s₂ hs₁ hprocess

/-- What holds of the top value and of the values of the edges, and is kept by `meet`, holds of what is
met. -/
theorem bigMeet_induction {P : V → Prop} {values : Edge → Option V} {edges : List Edge} {met : V}
    (htop : P A.top) (hmeet : ∀ a b, P a → P b → P (A.meet a b))
    (hvalues : ∀ e ∈ edges, ∀ info, values e = some info → P info)
    (h : A.bigMeet values edges = some met) : P met := by
  obtain ⟨infos, hinfos, rfl⟩ := Option.map_eq_some_iff.mp h
  have hall : ∀ info ∈ infos, P info := by
    intro info hinfo
    obtain ⟨e, he, hvalue⟩ := exists_of_mem_mapM hinfos hinfo
    exact hvalues e he info hvalue
  cases infos with
  | nil => exact htop
  | cons out rest =>
    have hfold : ∀ (rest : List V) (a : V), P a → (∀ b ∈ rest, P b) → P (rest.foldl A.meet a) := by
      intro rest
      induction rest with
      | nil => exact fun _ ha _ => ha
      | cons b rest ih =>
        intro a ha hrest
        obtain ⟨hb, hrest⟩ := List.forall_mem_cons.mp hrest
        exact ih (A.meet a b) (hmeet a b ha hb) hrest
    obtain ⟨hout, hrest⟩ := List.forall_mem_cons.mp hall
    exact hfold rest out hout hrest

theorem bigMeet_congr {values values' : Edge → Option V} {edges : List Edge}
    (h : ∀ e ∈ edges, values' e = values e) : A.bigMeet values' edges = A.bigMeet values edges := by
  have hmapM : edges.mapM values' = edges.mapM values := by
    induction edges with
    | nil => rfl
    | cons e edges ih =>
      rw [List.mapM_cons, List.mapM_cons, h e List.mem_cons_self,
        ih fun e' he' => h e' (List.mem_cons_of_mem _ he')]
  rw [bigMeet, bigMeet, hmapM]

/-- What is met at a node lies below the value of every edge, in any preorder in which `meet` does. -/
theorem bigMeet_rel {r : V → V → Prop} (hrefl : ∀ a, r a a) (htrans : ∀ a b c, r a b → r b c → r a c)
    (hleft : ∀ a b, r (A.meet a b) a) (hright : ∀ a b, r (A.meet a b) b) {values : Edge → Option V}
    {edges : List Edge} {met : V} {e : Edge} (h : A.bigMeet values edges = some met) (he : e ∈ edges) :
    ∃ info, values e = some info ∧ r met info := by
  -- the meet lies below its accumulator and below everything that is folded in
  have hfold : ∀ (rest : List V) (a : V), r (rest.foldl A.meet a) a ∧
      ∀ b ∈ rest, r (rest.foldl A.meet a) b := by
    intro rest
    induction rest with
    | nil => exact fun a => ⟨hrefl a, fun b hb => absurd hb List.not_mem_nil⟩
    | cons b rest ih =>
      intro a
      obtain ⟨hacc, hrest⟩ := ih (A.meet a b)
      refine ⟨htrans _ _ _ hacc (hleft a b), fun b' hb' => ?_⟩
      rcases List.mem_cons.mp hb' with rfl | hb'
      · exact htrans _ _ _ hacc (hright a b')
      · exact hrest b' hb'
  obtain ⟨infos, hinfos, rfl⟩ := Option.map_eq_some_iff.mp h
  have hmem : ∃ info ∈ infos, values e = some info := by
    clear h
    induction edges generalizing infos with
    | nil => cases he
    | cons e' edges ih =>
      rw [List.mapM_cons] at hinfos
      obtain ⟨info, hinfo, hrest⟩ := Option.bind_eq_some_iff.mp hinfos
      obtain ⟨infos', hinfos', heq⟩ := Option.bind_eq_some_iff.mp hrest
      cases heq
      rcases List.mem_cons.mp he with rfl | he
      · exact ⟨info, List.mem_cons_self, hinfo⟩
      · obtain ⟨info', hmem, hvalue⟩ := ih he infos' hinfos'
        exact ⟨info', List.mem_cons_of_mem _ hmem, hvalue⟩
  obtain ⟨info, hmem, hvalue⟩ := hmem
  refine ⟨info, hvalue, ?_⟩
  cases infos with
  | nil => cases hmem
  | cons out rest =>
    obtain ⟨hacc, hrest⟩ := hfold rest out
    rcases List.mem_cons.mp hmem with rfl | hmem
    · exact hacc
    · exact hrest info hmem

/-- An equation that reads and writes what it did before. -/
theorem Holds.congr {mm' : MatchMaker} {values values' : Edge → Option V} {n : ℕ}
    (hreads : A.reads mm' n = A.reads mm n) (hvalues : ∀ e ∈ A.reads mm n, values' e = values e)
    (htransition : A.transition mm' n = A.transition mm n)
    (hwrites : ∀ e ∈ A.writes mm' n, e ∈ A.writes mm n ∧ values' e = values e)
    (h : A.Holds mm values n) : A.Holds mm' values' n := by
  obtain ⟨inInfo, newEdges, hmeet, htrans, hold⟩ := h
  refine ⟨inInfo, newEdges, ?_, htransition ▸ htrans, fun e he => ?_⟩
  · rw [hreads, bigMeet_congr hvalues, hmeet]
  · rw [(hwrites e he).2]
    exact hold e (hwrites e he).1

theorem Filled.holds_iff (hrep : mm.RepOk) (hfilled : Filled mm s) (n : ℕ) :
    A.Holds mm s.values n ↔ (A.system hrep).Solved (A.val s) n := by
  have hreads : ∀ e ∈ A.reads mm n, e ∈ mm.edges := fun e he => ((mem_reads_iff hrep).mp he).2
  have hwrites : ∀ e ∈ A.writes mm n, e ∈ mm.edges := fun e he => ((mem_writes_iff hrep).mp he).2
  constructor
  · rintro ⟨inInfo, newEdges, hmeet, htransition, hvalues⟩
    cases (hfilled.bigMeet_eq hreads).symm.trans hmeet
    refine ⟨newEdges, htransition, fun e he => ?_⟩
    exact Option.some.inj ((hfilled.values_eq (hwrites e he)).symm.trans (hvalues e he))
  · rintro ⟨newEdges, htransition, hvalues⟩
    refine ⟨_, newEdges, hfilled.bigMeet_eq hreads, htransition, fun e he => ?_⟩
    rw [hfilled.values_eq (A := A) (hwrites e he)]
    exact congrArg some (hvalues e he)

variable [DecidableEq V]

/-- A run keeps the equations of the nodes off the list. -/
theorem loop_holds (hrep : mm.RepOk) (hfilled : Filled mm s)
    (hholds : ∀ n, n ∉ s.worklist → A.Holds mm s.values n) (h : A.loop mm picks s k = some s') :
    Filled mm s' ∧ ∀ n, n ∉ s'.worklist → A.Holds mm s'.values n := by
  refine loop_induction
    (P := fun _ s' => Filled mm s' ∧ ∀ n, n ∉ s'.worklist → A.Holds mm s'.values n)
    ⟨hfilled, hholds⟩ ?_ h
  rintro k s₁ s₂ - ⟨hfilled₁, hholds₁⟩ hiter
  rcases iteration_cases hiter with ⟨-, rfl⟩ | ⟨node, hnode, hprocess⟩
  · exact ⟨hfilled₁, hholds₁⟩
  · obtain ⟨hstep, hfilled₂⟩ := process_step hrep hfilled₁ hnode hprocess
    refine ⟨hfilled₂, fun n hn => ?_⟩
    rw [hfilled₂.holds_iff hrep]
    exact hstep.solved (fun hmem => (hfilled₁.holds_iff hrep n).mp (hholds₁ n hmem)) hn

/-- A node off the list that reads nothing is never taken, and the values it writes stay. -/
theorem loop_untouched (hrep : mm.RepOk) (hfilled : Filled mm s) {n : ℕ} (hn : n ∉ s.worklist)
    (hreads : A.reads mm n = []) (h : A.loop mm picks s k = some s') :
    n ∉ s'.worklist ∧ ∀ e ∈ A.writes mm n, s'.values e = s.values e := by
  have hinv : Filled mm s' ∧ n ∉ s'.worklist ∧ ∀ e ∈ A.writes mm n, s'.values e = s.values e := by
    refine loop_induction (P := fun _ s' => Filled mm s' ∧ n ∉ s'.worklist ∧
      ∀ e ∈ A.writes mm n, s'.values e = s.values e) ⟨hfilled, hn, fun _ _ => rfl⟩ ?_ h
    rintro k s₁ s₂ - ⟨hfilled₁, hn₁, hkeep₁⟩ hiter
    rcases iteration_cases hiter with ⟨-, rfl⟩ | ⟨node, hnode, hprocess⟩
    · exact ⟨hfilled₁, hn₁, hkeep₁⟩
    · obtain ⟨hstep, hfilled₂⟩ := process_step hrep hfilled₁ hnode hprocess
      have hne : n ≠ node := fun hnn => hn₁ (hnn ▸ hnode)
      refine ⟨hfilled₂, fun hmem => ?_, fun e he => ?_⟩
      · rcases (hstep.mem_list n).mp hmem with ⟨hold, -⟩ | ⟨e, he, hreader⟩
        · exact hn₁ hold
        · have hedge := ((mem_writes_iff hrep).mp (List.mem_filter.mp he).1).2
          have hread : e ∈ A.reads mm n := (mem_reads_iff hrep).mpr ⟨hreader, hedge⟩
          rw [hreads] at hread
          cases hread
      · have hedge := ((mem_writes_iff hrep).mp he).2
        have hout : e ∉ (A.system hrep).outs node := fun hout =>
          hne (((mem_writes_iff hrep).mp he).1.symm.trans ((mem_writes_iff hrep).mp hout).1)
        rw [hfilled₂.values_eq (A := A) hedge, hstep.unchanged hout, ← hfilled₁.values_eq hedge,
          hkeep₁ e he]
  exact hinv.2

/-! ## The end of a run that checks its values -/

/-- Late in a checked run the loop over the edges of a node changes nothing. -/
theorem foldlM_update_late {newEdges : Edge → V} {edges : List Edge} (hinfo : A.isInfo)
    (hk : THRESHOLD - 10 < k) (hsome : ∀ e ∈ edges, (s.values e).isSome) :
    edges.foldlM (A.update k newEdges) s = some s' ↔
      (∀ e ∈ edges, s.values e = some (newEdges e)) ∧ s' = s := by
  induction edges with
  | nil => simp [eq_comm]
  | cons e edges ih =>
    obtain ⟨he, hedges⟩ := List.forall_mem_cons.mp hsome
    rw [List.foldlM_cons, List.forall_mem_cons, update]
    by_cases heq : s.values e = some (newEdges e)
    · rw [if_pos heq]
      refine Iff.trans (ih hedges) ?_
      rw [and_iff_right heq]
    · rw [if_neg heq, if_pos ⟨hinfo, hk, he⟩]
      simp [heq]

/-- So it only takes nodes that satisfy their equations off the list. -/
theorem process_late {n : ℕ} (hrep : mm.RepOk) (hfilled : Filled mm s) (hinfo : A.isInfo)
    (hk : THRESHOLD - 10 < k) : A.process mm k n s = some s' ↔
      A.Holds mm s.values n ∧ s' = { s with worklist := s.worklist.erase n } := by
  have hlate : ∀ newEdges, (A.writes mm n).foldlM (A.update k newEdges)
      { s with worklist := s.worklist.erase n } = some s' ↔
        (∀ e ∈ A.writes mm n, s.values e = some (newEdges e)) ∧
          s' = { s with worklist := s.worklist.erase n } := fun newEdges =>
    foldlM_update_late hinfo hk fun e he => hfilled.isSome e ((mem_writes_iff hrep).mp he).2
  constructor
  · intro h
    obtain ⟨inInfo, hmeet, h⟩ := Option.bind_eq_some_iff.mp h
    obtain ⟨newEdges, htransition, h⟩ := Option.bind_eq_some_iff.mp h
    obtain ⟨hvalues, heq⟩ := (hlate newEdges).mp h
    exact ⟨⟨inInfo, newEdges, hmeet, htransition, hvalues⟩, heq⟩
  · rintro ⟨⟨inInfo, newEdges, hmeet, htransition, hvalues⟩, heq⟩
    refine Option.bind_eq_some_iff.mpr ⟨inInfo, hmeet, ?_⟩
    exact Option.bind_eq_some_iff.mpr ⟨newEdges, htransition, (hlate newEdges).mpr ⟨hvalues, heq⟩⟩

/-- The nodes that the late iterations took from the list satisfied their equations. -/
theorem late_taken {j d : ℕ} (hrep : mm.RepOk) (hfilled : Filled mm s) (hinfo : A.isInfo)
    (hj : THRESHOLD - 10 < j) (h : A.loop mm picks s (j + d) = some s') :
    ∃ s₁, A.loop mm picks s j = some s₁ ∧ s'.values = s₁.values ∧
      s₁.worklist.length ≤ s'.worklist.length + d ∧
      ∀ n ∈ s₁.worklist, n ∈ s'.worklist ∨ A.Holds mm s₁.values n := by
  induction d generalizing s' with
  | zero => exact ⟨s', h, rfl, le_rfl, fun n hn => .inl hn⟩
  | succ d ih =>
    obtain ⟨s₂, hloop, hiter⟩ := Option.bind_eq_some_iff.mp h
    obtain ⟨s₁, hs₁, hvalues, hlength, htaken⟩ := ih hloop
    refine ⟨s₁, hs₁, ?_⟩
    rcases iteration_cases hiter with ⟨-, rfl⟩ | ⟨node, hnode, hprocess⟩
    · exact ⟨hvalues, by omega, htaken⟩
    · have hfilled₂ := loop_filled hrep hfilled hloop
      have hlate : THRESHOLD - 10 < j + d := hj.trans_le (Nat.le_add_right j d)
      obtain ⟨hholds, rfl⟩ := (process_late hrep hfilled₂ hinfo hlate).mp hprocess
      have herase := List.length_erase_of_mem hnode
      refine ⟨hvalues, by dsimp only; omega, fun n hn => ?_⟩
      by_cases hnn : n = node
      · exact .inr (hnn ▸ hvalues ▸ hholds)
      · exact (htaken n hn).imp_left fun hmem => (List.mem_erase_of_ne hnn).mpr hmem

/-- A list of nodes that satisfy their equations is worked off. -/
theorem late_worked_off {j d : ℕ} {s₁ : Solver V} (hrep : mm.RepOk) (hfilled : Filled mm s)
    (hinfo : A.isInfo) (hj : THRESHOLD - 10 < j) (hs₁ : A.loop mm picks s j = some s₁)
    (hholds : ∀ n ∈ s₁.worklist, A.Holds mm s₁.values n) :
    ∃ s', A.loop mm picks s (j + d) = some s' ∧ s'.values = s₁.values ∧
      s'.worklist ⊆ s₁.worklist ∧ s'.worklist.length + d ≤ max s₁.worklist.length d := by
  induction d with
  | zero => exact ⟨s₁, hs₁, rfl, List.Subset.refl _, by omega⟩
  | succ d ih =>
    obtain ⟨s₂, hloop, hvalues, hsub, hlength⟩ := ih
    have hfilled₂ := loop_filled hrep hfilled hloop
    rw [← Nat.add_assoc, loop, hloop, Option.bind_some, iteration]
    split
    · rename_i hempty
      exact ⟨s₂, rfl, hvalues, hsub, by rw [hempty]; simp⟩
    · rename_i first rest hlist
      have htaken : taken picks (j + d) first rest ∈ first :: rest := taken_mem first rest
      have hmem : taken picks (j + d) first rest ∈ s₂.worklist := hlist ▸ htaken
      have hlate : THRESHOLD - 10 < j + d := hj.trans_le (Nat.le_add_right j d)
      have hprocess := (process_late hrep hfilled₂ hinfo hlate).mpr ⟨hvalues ▸ hholds _ (hsub hmem), rfl⟩
      have herase := List.length_erase_of_mem hmem
      have hpos := List.length_pos_of_mem hmem
      refine ⟨_, hprocess, hvalues, fun n hn => hsub (List.mem_of_mem_erase hn), ?_⟩
      dsimp only
      omega

/-- A run with an empty list at its end returns a fixpoint, if the equations of the nodes outside the list
it was given held before. -/
theorem runWithWorklist_fixpoint {wklist : List ℕ} {values : Edge → Option V} (hrep : mm.RepOk)
    (hnodup : wklist.Nodup) (hholds : ∀ n, n ∉ wklist → A.Holds mm (A.fill mm values) n)
    (h : A.runWithWorklist mm picks wklist values = some s') (hempty : s'.worklist = []) :
    A.AtFixpoint mm s'.values := by
  obtain ⟨hfilled, hsolved⟩ := loop_holds (s := ⟨wklist, A.fill mm values⟩) hrep
    (fill_filled hnodup values) hholds h
  exact ⟨hfilled.isSome, fun n => hsolved n (by simp [hempty])⟩

/-! ## Gen/kill analyses -/

section GenKill

variable {P : Type} [DecidableEq P] {A : CFGFlow (Finset P)} {all : Finset P} {s s' : Solver (Finset P)}

/-- The analysis takes elements of `all` out of its sets and puts others in. -/
structure IsGenKill (A : CFGFlow (Finset P)) (mm : MatchMaker) (all : Finset P)
    (kill gen : ℕ → Finset P) : Prop where
  transition_eq : ∀ n info, A.transition mm n info = some fun _ => (info \ kill n) ∪ gen n
  meet_le : ∀ {a a' b b'}, Versus.Le A.top a a' → Versus.Le A.top b b' →
    Versus.Le A.top (A.meet a b) (A.meet a' b')
  meet_subset : ∀ {a b}, a ⊆ all → b ⊆ all → A.meet a b ⊆ all
  isInfo : A.isInfo = false
  top_subset : A.top ⊆ all
  gen_subset : ∀ n, gen n ⊆ all

variable {kill gen : ℕ → Finset P}

/-- No transition throws. -/
theorem IsGenKill.holds_of_writes (h : IsGenKill A mm all kill gen) (hrep : mm.RepOk)
    (hfilled : Filled mm s) {n : ℕ} (hwrites : A.writes mm n = []) : A.Holds mm s.values n := by
  have hreads : ∀ e ∈ A.reads mm n, e ∈ mm.edges := fun e he => ((mem_reads_iff hrep).mp he).2
  refine ⟨_, _, hfilled.bigMeet_eq hreads, h.transition_eq n _, ?_⟩
  simp [hwrites]

theorem IsGenKill.meetAll_le (h : IsGenKill A mm all kill gen) {edges : List Edge}
    {v u : Edge → Finset P} (hle : ∀ e ∈ edges, Versus.Le A.top (v e) (u e)) :
    Versus.Le A.top (A.meetAll (edges.map v)) (A.meetAll (edges.map u)) := by
  have hfold : ∀ (edges : List Edge) (a b : Finset P), (∀ e ∈ edges, Versus.Le A.top (v e) (u e)) →
      Versus.Le A.top a b →
      Versus.Le A.top ((edges.map v).foldl A.meet a) ((edges.map u).foldl A.meet b) := by
    intro edges
    induction edges with
    | nil => exact fun _ _ _ hab => hab
    | cons e edges ih =>
      intro a b hedges hab
      exact ih _ _ (fun e' he' => hedges e' (List.mem_cons_of_mem _ he'))
        (h.meet_le hab (hedges e List.mem_cons_self))
  cases edges with
  | nil => exact Versus.le_top _
  | cons e edges =>
    exact hfold edges _ _ (fun e' he' => hle e' (List.mem_cons_of_mem _ he'))
      (hle e List.mem_cons_self)

theorem IsGenKill.meetAll_subset (h : IsGenKill A mm all kill gen) {edges : List Edge}
    {v : Edge → Finset P} (hsubset : ∀ e ∈ edges, v e ⊆ all) : A.meetAll (edges.map v) ⊆ all := by
  have hfold : ∀ (edges : List Edge) (a : Finset P), (∀ e ∈ edges, v e ⊆ all) → a ⊆ all →
      (edges.map v).foldl A.meet a ⊆ all := by
    intro edges
    induction edges with
    | nil => exact fun _ _ ha => ha
    | cons e edges ih =>
      intro a hedges ha
      exact ih _ (fun e' he' => hedges e' (List.mem_cons_of_mem _ he'))
        (h.meet_subset ha (hedges e List.mem_cons_self))
  cases edges with
  | nil => exact h.top_subset
  | cons e edges =>
    exact hfold edges _ (fun e' he' => hsubset e' (List.mem_cons_of_mem _ he'))
      (hsubset e List.mem_cons_self)

/-- What holds along a run from all-top. -/
structure Away (A : CFGFlow (Finset P)) (all : Finset P) (hrep : mm.RepOk) (s : Solver (Finset P)) :
    Prop where
  filled : Filled mm s
  subset : ∀ e, A.val s e ⊆ all
  descended : ∀ n, EquationSystem.Descended (V := Versus A.top) (A.system hrep) (A.val s) n

/-- An upper bound for the iterations still to come. -/
def remaining (A : CFGFlow (Finset P)) (mm : MatchMaker) (all : Finset P) (s : Solver (Finset P)) : ℕ :=
  EquationSystem.potential (Versus.rank A.top all) mm.edges.toFinset s.worklist (A.val s)

theorem IsGenKill.process_away (h : IsGenKill A mm all kill gen) {hrep : mm.RepOk} {n : ℕ}
    (haway : Away A all hrep s) (hn : n ∈ s.worklist) (hprocess : A.process mm k n s = some s') :
    Away A all hrep s' ∧ remaining A mm all s' < remaining A mm all s := by
  obtain ⟨hstep, hfilled⟩ := process_step hrep haway.filled hn hprocess
  have hfalls : EquationSystem.Falls (V := Versus A.top) (A.val s) (A.val s') := by
    refine hstep.falls (V := Versus A.top) (haway.descended n) ?_
    intro u fu fv hle hfu hfv _ e _
    rw [← Option.some.inj ((h.transition_eq n _).symm.trans hfu),
      ← Option.some.inj ((h.transition_eq n _).symm.trans hfv)]
    exact Versus.transfer_le (h.meetAll_le hle) (kill n) (gen n)
  obtain ⟨f, hf, hvalues⟩ := hstep.values
  have hsubset : ∀ e, A.val s' e ⊆ all := by
    intro e
    rw [hvalues]
    split_ifs
    · rw [← Option.some.inj ((h.transition_eq n _).symm.trans hf)]
      exact Finset.union_subset (Finset.sdiff_subset.trans (h.meetAll_subset fun e _ => haway.subset e))
        (h.gen_subset n)
    · exact haway.subset e
  refine ⟨⟨hfilled, hsubset, fun m => hstep.descended (V := Versus A.top) hfalls
    (haway.descended m)⟩, ?_⟩
  refine hstep.potential_lt _ _ (writes_nodup n) ?_ ?_
  · intro e he
    exact List.mem_toFinset.mpr ((mem_writes_iff hrep).mp he).2
  · intro e _ hne
    exact Versus.rank_lt (hfalls e) hne (hsubset e) (haway.subset e)

/-- A run of a gen/kill analysis always returns. -/
theorem IsGenKill.loop_isSome (h : IsGenKill A mm all kill gen) (hrep : mm.RepOk) (hfilled : Filled mm s)
    (k : ℕ) : (A.loop mm picks s k).isSome := by
  induction k with
  | zero => rfl
  | succ k ih =>
    obtain ⟨s₁, hloop⟩ := Option.isSome_iff_exists.mp ih
    have hfilled₁ := loop_filled hrep hfilled hloop
    rw [loop, hloop, Option.bind_some, iteration]
    split
    · rfl
    · have hreads : ∀ n, ∀ e ∈ A.reads mm n, e ∈ mm.edges := fun n e he =>
        ((mem_reads_iff hrep).mp he).2
      rw [process, hfilled₁.bigMeet_eq (hreads _)]
      show ((A.transition mm _ _).bind fun newEdges => _).isSome
      rw [h.transition_eq, Option.bind_some]
      exact foldlM_update_isSome (fun hinfo => by simp [h.isInfo] at hinfo) _ _

/-- A run from all-top over a small graph ends with an empty list. -/
theorem IsGenKill.run_empties (h : IsGenKill A mm all kill gen) (hrep : mm.RepOk)
    (hsize : mm.allNodes.length + mm.edges.toFinset.card * all.card ≤ THRESHOLD)
    (hrun : A.run mm picks (fun _ => none) = some s) : s.worklist = [] := by
  set start : Solver (Finset P) := ⟨mm.allNodes, A.fill mm fun _ => none⟩ with hstart
  have haway : Away A all hrep start := by
    refine ⟨fill_filled MatchMaker.allNodes_nodup _, fun e => ?_, fun n => .inl fun e _ x => ?_⟩
    · rw [val_fill_none]
      exact h.top_subset
    · rw [val_fill_none]
      exact Versus.le_top x
  have hremaining : remaining A mm all start ≤ THRESHOLD := by
    have hsum := Finset.sum_le_card_nsmul mm.edges.toFinset
      (fun e => Versus.rank A.top all (A.val start e)) all.card fun e _ => Versus.rank_le _ _
    rw [smul_eq_mul] at hsum
    exact (Nat.add_le_add_left hsum _).trans hsize
  have hloop : A.loop mm picks start THRESHOLD = some s := hrun
  have hinv : Away A all hrep s ∧
      (s.worklist = [] ∨ remaining A mm all s + THRESHOLD ≤ remaining A mm all start) := by
    refine loop_induction (P := fun k s => Away A all hrep s ∧
      (s.worklist = [] ∨ remaining A mm all s + k ≤ remaining A mm all start)) ⟨haway, .inr le_rfl⟩ ?_ hloop
    rintro k s₁ s₂ - ⟨haway₁, hrem⟩ hiter
    rcases iteration_cases hiter with ⟨hempty, rfl⟩ | ⟨node, hnode, hprocess⟩
    · exact ⟨haway₁, .inl hempty⟩
    · obtain ⟨haway₂, hlt⟩ := h.process_away haway₁ hnode hprocess
      have hne : s₁.worklist ≠ [] := List.ne_nil_of_mem hnode
      have hrem := hrem.resolve_left hne
      exact ⟨haway₂, .inr (by omega)⟩
  rcases hinv.2 with hempty | hle
  · exact hempty
  · have hlength : s.worklist.length ≤ remaining A mm all s := Nat.le_add_right _ _
    exact List.length_eq_zero_iff.mp (by omega)

end GenKill

end CFGFlow

end Jaek
