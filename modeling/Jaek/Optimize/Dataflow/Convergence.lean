import Jaek.Optimize.Dataflow.CondConstProp
import Jaek.Optimize.Dataflow.Fixpoint

/-!
# The run of conditional constant propagation

A run from all-top in which no `If` makes an edge unreachable that was reachable before: no value rises, and
the worklist is empty after as many iterations as the values can fall. The step limit cuts the run off
unless it is `InTime`. Small graphs are, whatever the order; graphs with more nodes than the limit are not.
-/

namespace Jaek

open Element

/-- The order of the run: below, and every variable listed. -/
instance : Preorder Info where
  le a b := a.Below b ∧ b.varVals.keys ⊆ a.varVals.keys
  le_refl a := ⟨⟨le_rfl, fun _ => le_rfl⟩, subset_rfl⟩
  le_trans a b c hab hbc :=
    ⟨⟨hab.1.1.trans hbc.1.1, fun x => (hab.1.2 x).trans (hbc.1.2 x)⟩, hbc.2.trans hab.2⟩

namespace CondConstProp

/-- The top value is above all others. -/
theorem le_top (a : Info) : a ≤ top :=
  ⟨⟨Unreachability.le_top _, fun _ => Definition.le_top _⟩, Finset.empty_subset _⟩

/-- The meet is monotone. -/
theorem meet_le_meet {a a' b b' : Info} (ha : a ≤ a') (hb : b ≤ b') : meet a b ≤ meet a' b' :=
  ⟨⟨Unreachability.meet_le_meet ha.1.1 hb.1.1, fun x => Definition.meet_le_meet (ha.1.2 x) (hb.1.2 x)⟩,
    Finset.union_subset_union ha.2 hb.2⟩

/-- Smaller values have a smaller meet. -/
theorem meetAll_le {edges : List Edge} {v u : Edge → Info} (h : ∀ e ∈ edges, v e ≤ u e) :
    analysis.meetAll (edges.map v) ≤ analysis.meetAll (edges.map u) := by
  have hfold : ∀ (edges : List Edge) (a b : Info), (∀ e ∈ edges, v e ≤ u e) → a ≤ b →
      (edges.map v).foldl meet a ≤ (edges.map u).foldl meet b := by
    intro edges
    induction edges with
    | nil => exact fun _ _ _ hab => hab
    | cons e edges ih =>
      intro a b hedges hab
      exact ih _ _ (fun e' he' => hedges e' (List.mem_cons_of_mem _ he'))
        (meet_le_meet hab (hedges e List.mem_cons_self))
  cases edges with
  | nil => exact le_rfl
  | cons e edges =>
    exact hfold edges _ _ (fun e' he' => h e' (List.mem_cons_of_mem _ he')) (h e List.mem_cons_self)

/-! ## The variables of the values -/

/-- The variables that some node assigns. -/
def assigned (mm : MatchMaker) : Finset String :=
  (mm.nodes.filterMap fun
    | .mov (.Gets varName _) _ => some varName
    | _ => none).toFinset

variable {mm : MatchMaker} {n : ℕ} {a b info : Info} {fa fb f : Edge → Info} {e : Edge}

/-- A variable with a move is assigned. -/
theorem mem_assigned {varName : String} {expr : CFGExpr} {edge : String}
    (h : mm.nodes[n]? = some (.mov (.Gets varName expr) edge)) : varName ∈ assigned mm := by
  rw [assigned, List.mem_toFinset, List.mem_filterMap]
  exact ⟨_, List.mem_of_getElem? h, rfl⟩

/-- A node lists the variables it found, and the one it assigns. -/
theorem passedOn_keys (mm : MatchMaker) (n : ℕ) (info : Info) :
    info.varVals.keys ⊆ (passedOn mm n info).varVals.keys ∧
      (passedOn mm n info).varVals.keys ⊆ info.varVals.keys ∪ assigned mm := by
  have hother : info.varVals.keys ⊆
      (if info.unreachability = .Bottom then info else unreachableInfo info).varVals.keys ∧
      (if info.unreachability = .Bottom then info else unreachableInfo info).varVals.keys ⊆
        info.varVals.keys ∪ assigned mm := by
    split_ifs
    · exact ⟨subset_rfl, Finset.subset_union_left⟩
    · exact ⟨subset_rfl, Finset.subset_union_left⟩
  unfold passedOn
  cases hn : mm.nodes[n]? with
  | none => exact hother
  | some node =>
    cases node with
    | Start name edge => exact ⟨subset_rfl, Finset.subset_union_left⟩
    | mov m edge =>
      cases m with
      | Mem loc expr => exact hother
      | Gets varName expr =>
        dsimp only
        split_ifs
        · exact ⟨Finset.subset_insert _ _, Finset.insert_subset
            (Finset.mem_union_right _ (mem_assigned hn)) Finset.subset_union_left⟩
        · exact ⟨subset_rfl, Finset.subset_union_left⟩
    | _ => exact hother

/-- A lower value at the entry leaves no fewer keys. -/
theorem passedOn_keys_mono (h : a ≤ b) :
    (passedOn mm n b).varVals.keys ⊆ (passedOn mm n a).varVals.keys := by
  have hother : (if b.unreachability = .Bottom then b else unreachableInfo b).varVals.keys ⊆
      (if a.unreachability = .Bottom then a else unreachableInfo a).varVals.keys := by
    split_ifs <;> exact h.2
  unfold passedOn
  cases mm.nodes[n]? with
  | none => exact hother
  | some node =>
    cases node with
    | Start name edge => exact h.2
    | mov m edge =>
      cases m with
      | Mem loc expr => exact hother
      | Gets varName expr =>
        dsimp only
        by_cases hb : b.unreachability = .Bottom
        · rw [if_pos hb, if_pos (Unreachability.le_bottom.mp (hb ▸ h.1.1))]
          exact Finset.insert_subset_insert _ h.2
        · rw [if_neg hb]
          split_ifs
          · exact h.2.trans (Finset.subset_insert _ _)
          · exact h.2
    | _ => exact hother

/-- The order of the run is kept along an edge that the smaller info does not newly rule out. -/
theorem transition_le (h : a ≤ b) (ha : transition mm n a = some fa) (hb : transition mm n b = some fb)
    (hrules : RulesOut mm n a e → (fb e).unreachability = .Top) : fa e ≤ fb e := by
  have hbelow : (fa e).Below (fb e) := by
    rw [transition_below_iff h.1 ha hb]
    intro hra hreach
    rcases transition_cases hb e with ⟨hrb, -⟩ | ⟨hrb, hfb⟩
    · exact hrb
    · obtain ⟨cond, take, edge, t, hn, -⟩ := id hra
      have htop := hrules hra
      rw [hfb, passedOn, hn] at htop
      dsimp only at htop
      rw [if_pos hreach, hreach] at htop
      cases htop
  refine ⟨hbelow, ?_⟩
  have hkeysa := (passedOn_keys mm n a).1
  rcases transition_cases ha e with ⟨hra, hfa⟩ | ⟨hra, hfa⟩
  · obtain ⟨cond, take, edge, t, hn, -⟩ := id hra
    rw [hfa]
    rcases transition_cases hb e with ⟨-, hfb⟩ | ⟨-, hfb⟩
    · rw [hfb]
      exact h.2
    · rw [hfb, passedOn, hn]
      dsimp only
      split_ifs
      · exact h.2
      · exact h.2
  · rw [hfa]
    rcases transition_cases hb e with ⟨-, hfb⟩ | ⟨-, hfb⟩
    · rw [hfb]
      exact h.2.trans hkeysa
    · rw [hfb]
      exact passedOn_keys_mono h

/-! ## How often a value can fall -/

/-- How often a value can be lowered, with at most these keys. -/
def rank (names : Finset String) (info : Info) : ℕ :=
  (if info.unreachability = .Top then 1 else 0) + ∑ x ∈ names, (info.varVals.val x).rank +
    (names \ info.varVals.keys).card

/-- Once for the reachability, one for a key, and twice for its value. -/
theorem rank_le_bound (names : Finset String) (info : Info) : rank names info ≤ 1 + 3 * names.card := by
  have hsum : ∑ x ∈ names, (info.varVals.val x).rank ≤ names.card * 2 :=
    Finset.sum_le_card_nsmul _ _ 2 fun x _ => by cases info.varVals.val x <;> simp [Definition.rank]
  have hcard : (names \ info.varVals.keys).card ≤ names.card := Finset.card_le_card Finset.sdiff_subset
  unfold rank
  split_ifs <;> omega

/-- A value that falls has a smaller rank. -/
theorem rank_lt {names : Finset String} (h : a ≤ b) (hne : a ≠ b) (hkeys : a.varVals.keys ⊆ names) :
    rank names a < rank names b := by
  -- no part of the rank goes down, so it is enough that one goes up
  have hreach : (if a.unreachability = .Top then 1 else 0) ≤
      (if b.unreachability = Unreachability.Top then 1 else 0) := by
    rcases h.1.1 with hbot | htop
    · simp [hbot]
    · rw [if_pos htop]
      split_ifs <;> omega
  have hsum : ∑ x ∈ names, (a.varVals.val x).rank ≤ ∑ x ∈ names, (b.varVals.val x).rank :=
    Finset.sum_le_sum fun x _ => Definition.rank_le (h.1.2 x)
  have hcard : (names \ a.varVals.keys).card ≤ (names \ b.varVals.keys).card :=
    Finset.card_le_card (Finset.sdiff_subset_sdiff subset_rfl h.2)
  unfold rank
  by_cases hr : a.unreachability = b.unreachability
  · by_cases hk : a.varVals.keys = b.varVals.keys
    · have hval : ∃ x ∈ a.varVals.keys, a.varVals.val x ≠ b.varVals.val x := by
        by_contra hall
        push Not at hall
        refine hne ?_
        obtain ⟨ra, va⟩ := a
        obtain ⟨rb, vb⟩ := b
        rw [Info.mk.injEq]
        exact ⟨hr, VarVals.ext_iff.mpr ⟨hk, hall⟩⟩
      obtain ⟨x, hx, hneq⟩ := hval
      have hlt : ∑ x ∈ names, (a.varVals.val x).rank < ∑ x ∈ names, (b.varVals.val x).rank :=
        Finset.sum_lt_sum (fun x _ => Definition.rank_le (h.1.2 x))
          ⟨x, hkeys hx, Definition.rank_lt (h.1.2 x) hneq⟩
      omega
    · have hss : names \ a.varVals.keys ⊂ names \ b.varVals.keys := by
        refine (Finset.ssubset_iff_subset_ne).mpr
          ⟨Finset.sdiff_subset_sdiff subset_rfl h.2, fun heq => hk ?_⟩
        refine Finset.Subset.antisymm (fun x hx => ?_) h.2
        by_contra hxb
        have hmem : x ∈ names \ b.varVals.keys := Finset.mem_sdiff.mpr ⟨hkeys hx, hxb⟩
        rw [← heq] at hmem
        exact (Finset.mem_sdiff.mp hmem).2 hx
      have hlt := Finset.card_lt_card hss
      omega
  · have hbot : a.unreachability = .Bottom ∧ b.unreachability = .Top := by
      revert hr
      have hle := h.1.1
      cases ha : a.unreachability <;> cases hb : b.unreachability <;> simp_all
    rw [hbot.1, hbot.2]
    simp only [reduceCtorEq, if_true, if_false]
    omega

/-! ## The run -/

/-- The node makes no edge unreachable that was reachable before, and its guard, where known, is 0 or 1. -/
def KeepsReached (mm : MatchMaker) (n : ℕ) (s : Solver Info) : Prop :=
  ∀ info, analysis.bigMeet s.values (mm.predecessorEdges n) = some info → GuardOk mm n info ∧
    ∀ e ∈ mm.successorEdges n, RulesOut mm n info e →
      ∀ v, s.values e = some v → v.unreachability = .Top

/-- The state a run from all-top starts with. -/
def allTop (mm : MatchMaker) : Solver Info := ⟨mm.allNodes, analysis.fill mm fun _ => none⟩

variable {s s' : Solver Info} {hrep : mm.RepOk}

/-- What holds along a run that makes no reachable edge unreachable. -/
structure RunInv (hrep : mm.RepOk) (s : Solver Info) : Prop where
  filled : CFGFlow.Filled mm s
  keys : ∀ e, (analysis.val s e).varVals.keys ⊆ assigned mm
  descended : ∀ n, (analysis.system hrep).Descended (analysis.val s) n

/-- An upper bound for the iterations still to come. -/
def remaining (mm : MatchMaker) (s : Solver Info) : ℕ :=
  EquationSystem.potential (rank (assigned mm)) mm.edges.toFinset s.worklist (analysis.val s)

/-- Before the run every edge has the top value. -/
theorem val_allTop (e : Edge) : analysis.val (allTop mm) e = top := CFGFlow.val_fill_none _ e

/-- The invariant holds before the run. -/
theorem allTop_inv (hrep : mm.RepOk) : RunInv hrep (allTop mm) where
  filled := CFGFlow.fill_filled MatchMaker.allNodes_nodup _
  keys e := by
    rw [val_allTop]
    exact Finset.empty_subset _
  descended n := .inl fun e _ x => by
    rw [val_allTop]
    exact le_top x

/-- The steps that are left then. -/
theorem remaining_allTop (mm : MatchMaker) : remaining mm (allTop mm) ≤
    mm.allNodes.length + mm.edges.toFinset.card * (1 + 3 * (assigned mm).card) := by
  have hsum := Finset.sum_le_card_nsmul mm.edges.toFinset
    (fun e => rank (assigned mm) (analysis.val (allTop mm) e)) (1 + 3 * (assigned mm).card)
    fun e _ => rank_le_bound _ _
  rw [smul_eq_mul] at hsum
  exact Nat.add_le_add_left hsum _

/-- A meet has no other keys. -/
theorem keys_meetAll {names : Finset String} {edges : List Edge} {v : Edge → Info}
    (h : ∀ e ∈ edges, (v e).varVals.keys ⊆ names) :
    (analysis.meetAll (edges.map v)).varVals.keys ⊆ names := by
  have hfold : ∀ (edges : List Edge) (a : Info), (∀ e ∈ edges, (v e).varVals.keys ⊆ names) →
      a.varVals.keys ⊆ names → ((edges.map v).foldl meet a).varVals.keys ⊆ names := by
    intro edges
    induction edges with
    | nil => exact fun _ _ ha => ha
    | cons e edges ih =>
      intro a hedges ha
      exact ih _ (fun e' he' => hedges e' (List.mem_cons_of_mem _ he'))
        (Finset.union_subset ha (hedges e List.mem_cons_self))
  cases edges with
  | nil => exact Finset.empty_subset _
  | cons e edges =>
    exact hfold edges _ (fun e' he' => h e' (List.mem_cons_of_mem _ he')) (h e List.mem_cons_self)

/-- A node adds a key only for what it assigns. -/
theorem transition_keys {names : Finset String} (h : transition mm n info = some f)
    (hinfo : info.varVals.keys ⊆ names) (hnames : assigned mm ⊆ names) (e : Edge) :
    (f e).varVals.keys ⊆ names := by
  rcases transition_cases h e with ⟨-, hf⟩ | ⟨-, hf⟩
  · rw [hf]
    exact hinfo
  · rw [hf]
    exact (passedOn_keys mm n info).2.trans (Finset.union_subset hinfo hnames)

/-- An iteration that makes no reachable edge unreachable lets no value rise. -/
theorem process_inv {k : ℕ} (hinv : RunInv hrep s) (hn : n ∈ s.worklist) (hkeeps : KeepsReached mm n s)
    (h : analysis.process mm k n s = some s') :
    RunInv hrep s' ∧ EquationSystem.Falls (analysis.val s) (analysis.val s') ∧
      remaining mm s' < remaining mm s := by
  obtain ⟨hstep, hfilled⟩ := CFGFlow.process_step hrep hinv.filled hn h
  have hreads : ∀ e ∈ mm.predecessorEdges n, e ∈ mm.edges := fun e he =>
    MatchMaker.mem_edges.mpr (hrep.mem_predecessorEdges.mp he).2
  have hwrites : ∀ e ∈ mm.successorEdges n, e ∈ mm.edges := fun e he =>
    MatchMaker.mem_edges.mpr (MatchMaker.mem_successorEdges.mp he).2
  have hkeeps := hkeeps _ (hinv.filled.bigMeet_eq hreads)
  have hfalls : EquationSystem.Falls (analysis.val s) (analysis.val s') := by
    refine hstep.falls (hinv.descended n) fun u fu fv hle hfu hfv hv e he => ?_
    refine transition_le (meetAll_le hle) hfv hfu fun hrules => ?_
    rw [← hv e he]
    exact hkeeps.2 e he hrules _ (hinv.filled.values_eq (hwrites e he))
  obtain ⟨f, hf, hvalues⟩ := hstep.values
  have hkeys : ∀ e, (analysis.val s' e).varVals.keys ⊆ assigned mm := by
    intro e
    rw [hvalues]
    split_ifs
    · exact transition_keys hf (keys_meetAll fun e _ => hinv.keys e) subset_rfl e
    · exact hinv.keys e
  refine ⟨⟨hfilled, hkeys, fun m => hstep.descended hfalls (hinv.descended m)⟩, hfalls, ?_⟩
  refine hstep.potential_lt _ _ (MatchMaker.successorEdges_nodup n) ?_ ?_
  · intro e he
    exact List.mem_toFinset.mpr (hwrites e he)
  · intro e _ hne
    exact rank_lt (hfalls e) hne (hkeys e)

/-- Early in the run such an iteration throws nothing. -/
theorem process_isSome {k : ℕ} (hinv : RunInv hrep s) (hkeeps : KeepsReached mm n s)
    (hk : k ≤ THRESHOLD - 10) : (analysis.process mm k n s).isSome := by
  have hreads : ∀ e ∈ mm.predecessorEdges n, e ∈ mm.edges := fun e he =>
    MatchMaker.mem_edges.mpr (hrep.mem_predecessorEdges.mp he).2
  have hmeet := hinv.filled.bigMeet_eq (A := analysis) hreads
  obtain ⟨f, hf⟩ := Option.isSome_iff_exists.mp (transition_isSome (hkeeps _ hmeet).1)
  rw [CFGFlow.process]
  show ((analysis.bigMeet s.values (mm.predecessorEdges n)).bind fun inInfo =>
    (transition mm n inInfo).bind fun newEdges => _).isSome
  rw [hmeet, Option.bind_some, hf, Option.bind_some]
  exact CFGFlow.foldlM_update_isSome (fun _ => hk) _ _

/-- Every iteration of the run keeps what is reached reachable. -/
def RunKeepsReached (mm : MatchMaker) (picks : ℕ → ℕ) : Prop :=
  ∀ k < THRESHOLD, ∀ s first rest, analysis.loop mm picks (allTop mm) k = some s →
    s.worklist = first :: rest → KeepsReached mm (CFGFlow.taken picks k first rest) s

variable {picks : ℕ → ℕ}

/-- The loop keeps the invariant as long as its picks do, and every step leaves fewer to do. -/
theorem loop_inv {k : ℕ} (hrep : mm.RepOk) (hrun : RunKeepsReached mm picks) (hk : k ≤ THRESHOLD)
    (h : analysis.loop mm picks (allTop mm) k = some s) :
    RunInv hrep s ∧ (s.worklist = [] ∨ remaining mm s + k ≤ remaining mm (allTop mm)) := by
  induction k generalizing s with
  | zero =>
    cases h
    exact ⟨allTop_inv hrep, .inr le_rfl⟩
  | succ k ih =>
    obtain ⟨s₁, hloop, hiter⟩ := Option.bind_eq_some_iff.mp h
    obtain ⟨hinv, hrem⟩ := ih (by omega) hloop
    unfold CFGFlow.iteration at hiter
    split at hiter
    · rename_i hempty
      cases hiter
      exact ⟨hinv, .inl hempty⟩
    · rename_i first rest hlist
      have hkeeps := hrun k (by omega) s₁ first rest hloop hlist
      obtain ⟨hinv', -, hlt⟩ := process_inv hinv (hlist ▸ CFGFlow.taken_mem first rest) hkeeps hiter
      have hrem := hrem.resolve_left (by simp [hlist])
      exact ⟨hinv', .inr (by omega)⟩

/-- No value rises. -/
theorem values_fall {k : ℕ} (hrep : mm.RepOk) (hrun : RunKeepsReached mm picks) (hk : k < THRESHOLD)
    (hloop : analysis.loop mm picks (allTop mm) k = some s)
    (hiter : analysis.iteration mm picks k s = some s') {e : Edge} (he : e ∈ mm.edges) :
    ∃ v v', s.values e = some v ∧ s'.values e = some v' ∧ v'.Below v := by
  obtain ⟨hinv, -⟩ := loop_inv hrep hrun hk.le hloop
  have hinv' := (loop_inv hrep hrun hk (Option.bind_eq_some_iff.mpr ⟨s, hloop, hiter⟩)).1
  refine ⟨_, _, hinv.filled.values_eq (A := analysis) he,
    hinv'.filled.values_eq (A := analysis) he, ?_⟩
  unfold CFGFlow.iteration at hiter
  split at hiter
  · cases hiter
    exact (le_refl (analysis.val s e)).1
  · rename_i first rest hlist
    have hkeeps := hrun k hk s first rest hloop hlist
    exact ((process_inv hinv (hlist ▸ CFGFlow.taken_mem first rest) hkeeps hiter).2.1 e).1

/-- The worklist gets empty before the step limit. -/
theorem run_empties (hrep : mm.RepOk) (hrun : RunKeepsReached mm picks)
    (hsize : mm.allNodes.length + mm.edges.toFinset.card * (1 + 3 * (assigned mm).card) ≤
      THRESHOLD - 10) :
    ∃ s, analysis.run mm picks (fun _ => none) = some s ∧ s.worklist = [] := by
  have hstart := (remaining_allTop mm).trans hsize
  have hsome : ∀ k ≤ THRESHOLD, (analysis.loop mm picks (allTop mm) k).isSome := by
    intro k
    induction k with
    | zero => exact fun _ => rfl
    | succ k ih =>
      intro hk
      obtain ⟨s₁, hloop⟩ := Option.isSome_iff_exists.mp (ih (by omega))
      obtain ⟨hinv, hrem⟩ := loop_inv hrep hrun (by omega) hloop
      rw [CFGFlow.loop, hloop, Option.bind_some, CFGFlow.iteration]
      split
      · rfl
      · rename_i first rest hlist
        have hrem := hrem.resolve_left (by simp [hlist])
        exact process_isSome hinv (hrun k (by omega) s₁ first rest hloop hlist) (by omega)
  obtain ⟨s, hloop⟩ := Option.isSome_iff_exists.mp (hsome THRESHOLD le_rfl)
  obtain ⟨-, hrem⟩ := loop_inv hrep hrun le_rfl hloop
  refine ⟨s, hloop, hrem.resolve_right fun hle => ?_⟩
  have hpos : THRESHOLD - 10 < THRESHOLD := by decide
  omega

/-- Before the last nine iterations, which may change no value, at most nine nodes are left on the list, and
they satisfy their equations. -/
def InTime (mm : MatchMaker) (picks : ℕ → ℕ) : Prop :=
  ∃ s, analysis.loop mm picks (allTop mm) (THRESHOLD - 9) = some s ∧ s.worklist.length ≤ 9 ∧
    ∀ n ∈ s.worklist, analysis.Holds mm s.values n

/-- The run returns with an empty list when it is in time, and only then. -/
theorem run_empties_iff (hrep : mm.RepOk) :
    (∃ s, analysis.run mm picks (fun _ => none) = some s ∧ s.worklist = []) ↔ InTime mm picks := by
  have hlast : THRESHOLD - 9 + 9 = THRESHOLD := rfl
  have hlate : THRESHOLD - 10 < THRESHOLD - 9 := by decide
  have hfilled := (allTop_inv hrep).filled
  constructor
  · rintro ⟨s, hrun, hempty⟩
    have hloop : analysis.loop mm picks (allTop mm) (THRESHOLD - 9 + 9) = some s := by rw [hlast]; exact hrun
    obtain ⟨s₁, hs₁, -, hlength, htaken⟩ := CFGFlow.late_taken hrep hfilled rfl hlate hloop
    rw [hempty, List.length_nil, zero_add] at hlength
    exact ⟨s₁, hs₁, hlength, fun n hn => (htaken n hn).resolve_left (by simp [hempty])⟩
  · rintro ⟨s₁, hs₁, hlength, hholds⟩
    obtain ⟨s, hloop, -, -, hleft⟩ :=
      CFGFlow.late_worked_off (d := 9) hrep hfilled rfl hlate hs₁ hholds
    rw [hlast] at hloop
    exact ⟨s, hloop, List.length_eq_zero_iff.mp (by omega)⟩

/-- A graph with more nodes than the limit is never in time. -/
theorem InTime.nodes_le (hrep : mm.RepOk) (h : InTime mm picks) : mm.allNodes.length ≤ THRESHOLD := by
  obtain ⟨s, hrun, hempty⟩ := (run_empties_iff hrep).mpr h
  have hlength := CFGFlow.loop_length hrep (allTop_inv hrep).filled hrun
  rwa [hempty, List.length_nil, zero_add] at hlength

/-- Where constant propagation is monotone and when its run converges. -/
theorem converges {name : String} {block : List FlatStmt} {cfg : CFG}
    (hbuild : CFGBuilder.build name block = some cfg) :
    (∀ n a b fa fb, Info.Below a b → transition cfg.mm n a = some fa → transition cfg.mm n b = some fb →
      ((∀ e ∈ cfg.mm.successorEdges n, (fa e).Below (fb e)) ↔
        ∀ e ∈ cfg.mm.successorEdges n, RulesOut cfg.mm n a e → b.unreachability = .Bottom →
          RulesOut cfg.mm n b e)) ∧
    ∀ picks, RunKeepsReached cfg.mm picks →
      (∀ k < THRESHOLD, ∀ s s', analysis.loop cfg.mm picks (allTop cfg.mm) k = some s →
        analysis.iteration cfg.mm picks k s = some s' →
        ∀ e ∈ cfg.mm.edges, ∃ v v', s.values e = some v ∧ s'.values e = some v' ∧ v'.Below v) ∧
      ((∃ s, analysis.run cfg.mm picks (fun _ => none) = some s ∧ s.worklist = []) ↔
        InTime cfg.mm picks) ∧
      (cfg.mm.allNodes.length +
          cfg.mm.edges.toFinset.card * (1 + 3 * (assigned cfg.mm).card) ≤ THRESHOLD - 10 →
        InTime cfg.mm picks) ∧
      (InTime cfg.mm picks → cfg.mm.allNodes.length ≤ THRESHOLD) := by
  have hrep := CFGBuilder.build_repOk hbuild
  refine ⟨?_, fun picks hrun => ⟨?_, run_empties_iff hrep, ?_, InTime.nodes_le hrep⟩⟩
  · intro n a b fa fb hab hfa hfb
    exact forall₂_congr fun e _ => transition_below_iff hab hfa hfb e
  · intro k hk s s' hloop hiter e he
    exact values_fall hrep hrun hk hloop hiter he
  · intro hsize
    exact (run_empties_iff hrep).mp (run_empties hrep hrun hsize)

/-- `if [0] goto L1; x := 1; L1: return x`. -/
def skipOne : List FlatStmt :=
  [.endBlock (.trueJump (.mem (.const 0)) "$L1"), .move (.temp "x") (.const 1), .label "$L1",
    .endBlock (.ret [.temp "x"])]

/-- The graph of `skipOne`. -/
def skipGraph : MatchMaker where
  nodes := [.Start "f" "$G1", .If (.Mem (.Const 0)) "$L1" "$G2", .mov (.Gets "x" (.Const 1)) "$G3",
    .Return [.Var "x"]]
  predecessors := ⟨[(1, [(0, false)]), (2, [(1, false)]), (3, [(1, true), (2, false)])], by decide⟩
  successors := ⟨[(0, ⟨some 1, none⟩), (1, ⟨some 2, some 3⟩), (2, ⟨some 3, none⟩)], by decide⟩

open CFGBuilder in
/-- It is what `CFGBuilder` makes of it. -/
theorem skipOne_build : CFGBuilder.build "f" skipOne = some ⟨0, "f", skipGraph⟩ := by
  simp only [CFGBuilder.build, skipOne, loop, createNode, init, pointToNext, addNode, translateMove,
    Option.bind_eq_bind, Option.bind_some, pointName, CFGBuilder.translateExpr, List.nil_append,
    List.cons_append]
  rfl

/-- A guard that is read from memory is never known. -/
theorem skipGraph_keeps : RunKeepsReached skipGraph fun _ => 0 := by
  have hguard : ∀ (n : ℕ) (cond : CFGExpr) (take edge : String) (info : Info),
      skipGraph.nodes[n]? = some (.If cond take edge) →
      abstractInterpretation info.varVals cond = .Bottom := by
    intro n cond take edge info hn
    have hmem : cond = .Mem (.Const 0) ∧ take = "$L1" ∧ edge = "$G2" := by
      simpa [skipGraph] using List.mem_of_getElem? hn
    rw [hmem.1]
    rfl
  intro k _ s first rest _ _ info _
  constructor
  · intro cond take edge t hn _ ht
    cases (hguard _ cond take edge info hn).symm.trans ht
  · rintro e _ ⟨cond, take, edge, t, hn, -, ht, -⟩
    cases (hguard _ cond take edge info hn).symm.trans ht

/-- The run over `skipOne` empties its list. -/
theorem skipOne_converges :
    ∃ s, analysis.run skipGraph (fun _ => 0) (fun _ => none) = some s ∧ s.worklist = [] := by
  obtain ⟨-, hiff, hsmall, -⟩ := (converges skipOne_build).2 _ skipGraph_keeps
  exact hiff.mpr (hsmall (by decide))

/-! ## A loop that clears its own guard -/

/-- `x := _ARG1; while (x) { x = false }`. -/
def flagLoop : List FlatStmt :=
  [.move (.temp "x") (.temp "_ARG1"), .label "$L1", .endBlock (.trueJump (.temp "x") "$L2"),
    .endBlock (.ret []), .label "$L2", .move (.temp "x") (.const 0), .endBlock (.jump "$L1")]

/-- The graph of `flagLoop`. -/
def flagGraph : MatchMaker where
  nodes := [.Start "f" "$G1", .mov (.Gets "x" (.Var "_ARG1")) "$G2", .If (.Var "x") "$L2" "$G3",
    .Return [], .mov (.Gets "x" (.Const 0)) "$G4", .Cricket "$L1"]
  predecessors := ⟨[(1, [(0, false)]), (2, [(1, false), (5, true)]), (3, [(2, false)]),
    (4, [(2, true)]), (5, [(4, false)])], by decide⟩
  successors := ⟨[(0, ⟨some 1, none⟩), (1, ⟨some 2, none⟩), (2, ⟨some 3, some 4⟩),
    (4, ⟨some 5, none⟩), (5, ⟨none, some 2⟩)], by decide⟩

open CFGBuilder in
/-- It is what `CFGBuilder` makes of it. -/
theorem flagLoop_build : CFGBuilder.build "f" flagLoop = some ⟨0, "f", flagGraph⟩ := by
  simp only [CFGBuilder.build, flagLoop, loop, createNode, init, pointToNext, addNode,
    translateMove, Option.bind_eq_bind, Option.bind_some, pointName, CFGBuilder.translateExpr,
    List.nil_append, List.cons_append]
  rfl

/-- When the loop comes back with `x = 0`, the edge to its body is unreachable again. -/
theorem flagLoop_rises :
    ∃ cfg s s' v v', CFGBuilder.build "f" flagLoop = some cfg ∧
      analysis.loop cfg.mm (fun _ => 0) (allTop cfg.mm) 11 = some s ∧
      analysis.iteration cfg.mm (fun _ => 0) 11 s = some s' ∧ s.values ⟨2, 4, true⟩ = some v ∧
      s'.values ⟨2, 4, true⟩ = some v' ∧ ¬ v'.Below v := by
  have hbefore : ((analysis.loop flagGraph (fun _ => 0) (allTop flagGraph) 11).bind fun s =>
      s.values ⟨2, 4, true⟩).map Info.unreachability = some .Bottom := by decide
  have hafter : ((analysis.loop flagGraph (fun _ => 0) (allTop flagGraph) 12).bind fun s =>
      s.values ⟨2, 4, true⟩).map Info.unreachability = some .Top := by decide
  obtain ⟨v, hv, hreached⟩ := Option.map_eq_some_iff.mp hbefore
  obtain ⟨v', hv', hunreached⟩ := Option.map_eq_some_iff.mp hafter
  obtain ⟨s, hloop, hv⟩ := Option.bind_eq_some_iff.mp hv
  obtain ⟨s', hloop', hv'⟩ := Option.bind_eq_some_iff.mp hv'
  have hiter : analysis.iteration flagGraph (fun _ => 0) 11 s = some s' := by
    rw [CFGFlow.loop, hloop] at hloop'
    exact hloop'
  refine ⟨_, s, s', v, v', flagLoop_build, hloop, hiter, hv, hv', fun hbelow => ?_⟩
  have hle := hbelow.1
  rw [hreached, hunreached] at hle
  exact absurd hle (by simp)

end CondConstProp

end Jaek
