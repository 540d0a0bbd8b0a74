import Jaek.Optimize.CFG.MatchMaker
import Jaek.Semantics.Worklist

/-!
# The dataflow solver

`CFGFlow.kt`. An analysis gives each edge of the graph a value. A node computes the values of its outgoing
edges from those of its incoming ones, or the other way round when the analysis is backward. The loop ends
when the worklist is empty or `THRESHOLD` nodes have been taken. `process_step` says that one iteration is a
step of the equation system of the graph.
-/

namespace Jaek

/-- An edge. The field `src` is the source's `from`. -/
structure Edge where
  src : ℕ
  node : ℕ
  jump : Bool
deriving DecidableEq

namespace MatchMaker

/-- The edges out of a node, the fall-through first. -/
def successorEdges (mm : MatchMaker) (node : ℕ) : List Jaek.Edge :=
  ((mm.jumpingTo node).map fun succ => ⟨node, succ, true⟩).toList ++
    ((mm.fallThrough node).map fun succ => ⟨node, succ, false⟩).toList

/-- The edges into a node, in the order in which they were made. -/
def predecessorEdges (mm : MatchMaker) (node : ℕ) : List Jaek.Edge :=
  ((mm.into node).map fun pred => ⟨pred.1, node, pred.2⟩).dedup

/-- `predecessors.keys union successors.keys`. -/
def allNodes (mm : MatchMaker) : List ℕ :=
  mm.predecessors.keys ++ mm.successors.keys.filter fun node => node ∉ mm.predecessors.keys

variable {mm : MatchMaker}

/-- An edge out of the node. -/
theorem mem_successorEdges {node : ℕ} {e : Jaek.Edge} :
    e ∈ mm.successorEdges node ↔ e.src = node ∧ mm.Edge e.src e.jump e.node := by
  obtain ⟨src, dest, jump⟩ := e
  rw [successorEdges, List.mem_append, Option.mem_toList, Option.mem_toList,
    Option.map_eq_some_iff, Option.map_eq_some_iff]
  cases jump
  · constructor
    · rintro (⟨succ, hsucc, heq⟩ | ⟨succ, hsucc, heq⟩)
      · cases heq
      · cases heq
        exact ⟨rfl, hsucc⟩
    · rintro ⟨rfl, hedge⟩
      exact .inr ⟨dest, hedge, rfl⟩
  · constructor
    · rintro (⟨succ, hsucc, heq⟩ | ⟨succ, hsucc, heq⟩)
      · cases heq
        exact ⟨rfl, hsucc⟩
      · cases heq
    · rintro ⟨rfl, hedge⟩
      exact .inl ⟨dest, hedge, rfl⟩

/-- No edge is there twice. -/
theorem successorEdges_nodup (node : ℕ) : (mm.successorEdges node).Nodup := by
  rw [successorEdges]
  cases mm.jumpingTo node with
  | none => cases mm.fallThrough node <;> simp
  | some succ =>
    cases mm.fallThrough node with
    | none => simp
    | some succ' => simp [List.nodup_cons, Jaek.Edge.mk.injEq]

/-- An edge into the node. -/
theorem RepOk.mem_predecessorEdges (h : mm.RepOk) {node : ℕ} {e : Jaek.Edge} :
    e ∈ mm.predecessorEdges node ↔ e.node = node ∧ mm.Edge e.src e.jump e.node := by
  obtain ⟨src, dest, jump⟩ := e
  rw [predecessorEdges, List.mem_dedup, List.mem_map]
  constructor
  · rintro ⟨⟨p, j⟩, hmem, heq⟩
    cases heq
    exact ⟨rfl, (h.mem_into _ _ _).mp hmem⟩
  · rintro ⟨rfl, hedge⟩
    exact ⟨(src, jump), (h.mem_into _ _ _).mpr hedge, rfl⟩

/-- A node with an edge out of it is a node of the graph. -/
theorem mem_allNodes_of_edge {p q : ℕ} {jump : Bool} (h : mm.Edge p jump q) : p ∈ mm.allNodes := by
  have hsome : (mm.successors.get? p).isSome := by
    cases jump
    · obtain ⟨s, hs, -⟩ := Option.bind_eq_some_iff.mp (show mm.fallThrough p = some q from h)
      rw [hs]
      rfl
    · obtain ⟨s, hs, -⟩ := Option.bind_eq_some_iff.mp (show mm.jumpingTo p = some q from h)
      rw [hs]
      rfl
  have hkey := (LinkedMap.mem_keys_iff _).mpr hsome
  rw [allNodes, List.mem_append, List.mem_filter]
  by_cases hp : p ∈ mm.predecessors.keys
  · exact .inl hp
  · exact .inr ⟨hkey, by simpa using hp⟩

/-- No node is there twice. -/
theorem allNodes_nodup : mm.allNodes.Nodup := by
  refine List.nodup_append.mpr ⟨mm.predecessors.nodup, (mm.successors.nodup.filter _), ?_⟩
  rintro a ha b hb rfl
  have hb := (List.mem_filter.mp hb).2
  simp [ha] at hb

/-- The edges of the graph. -/
def edges (mm : MatchMaker) : List Jaek.Edge := mm.allNodes.flatMap mm.successorEdges

/-- The edges of the graph. -/
theorem mem_edges {e : Jaek.Edge} : e ∈ mm.edges ↔ mm.Edge e.src e.jump e.node := by
  rw [edges, List.mem_flatMap]
  constructor
  · rintro ⟨n, -, he⟩
    exact (mem_successorEdges.mp he).2
  · intro h
    exact ⟨e.src, mem_allNodes_of_edge h, mem_successorEdges.mpr ⟨rfl, h⟩⟩

end MatchMaker

/-- `THRESHOLD`. -/
def THRESHOLD : ℕ := 10000

/-- An analysis: the abstract members of `CFGFlow`, its direction, and whether its values are those of
`CondConstProp`. An exception in the transition is `none`. -/
structure CFGFlow (V : Type) where
  forward : Bool
  isInfo : Bool
  top : V
  meet : V → V → V
  transition : MatchMaker → ℕ → V → Option (Edge → V)

/-- The worklist and `values`. -/
structure Solver (V : Type) where
  worklist : List ℕ
  values : Edge → Option V

namespace CFGFlow

variable {V : Type} (A : CFGFlow V) (mm : MatchMaker)

/-- The edges a node takes its information from. -/
def reads (node : ℕ) : List Edge :=
  if A.forward then mm.predecessorEdges node else mm.successorEdges node

/-- The edges a node gives values to. -/
def writes (node : ℕ) : List Edge :=
  if A.forward then mm.successorEdges node else mm.predecessorEdges node

/-- The node that depends on an edge. -/
def next (e : Edge) : ℕ := if A.forward then e.node else e.src

/-- The meet of the values in a list. -/
def meetAll : List V → V
  | [] => A.top
  | out :: rest => rest.foldl A.meet out

/-- `bigMeet`. Every edge should have a value. -/
def bigMeet (values : Edge → Option V) (edges : List Edge) : Option V :=
  (edges.mapM values).map A.meetAll

/-- The value of an edge, the top value where it has none. -/
def val (s : Solver V) (e : Edge) : V := (s.values e).getD A.top

/-- Give the edges without a value the top value. -/
def fill (values : Edge → Option V) (e : Edge) : Option V :=
  if values e = none ∧ e ∈ mm.edges then some A.top else values e

variable {A mm}

/-- Before the run every edge has the top value. -/
theorem val_fill_none (wklist : List ℕ) (e : Edge) : A.val ⟨wklist, A.fill mm fun _ => none⟩ e = A.top := by
  unfold val fill
  dsimp only
  split_ifs
  · rfl
  · rfl

/-- The edges that a node reads. -/
theorem mem_reads_iff (hrep : mm.RepOk) {node : ℕ} {e : Edge} :
    e ∈ A.reads mm node ↔ (if A.forward then e.node else e.src) = node ∧ e ∈ mm.edges := by
  rw [MatchMaker.mem_edges, reads]
  split_ifs
  · exact hrep.mem_predecessorEdges
  · exact MatchMaker.mem_successorEdges

/-- The edges that it writes. -/
theorem mem_writes_iff (hrep : mm.RepOk) {node : ℕ} {e : Edge} :
    e ∈ A.writes mm node ↔ (if A.forward then e.src else e.node) = node ∧ e ∈ mm.edges := by
  rw [MatchMaker.mem_edges, writes]
  split_ifs
  · exact MatchMaker.mem_successorEdges
  · exact hrep.mem_predecessorEdges

/-- It writes none of them twice. -/
theorem writes_nodup (node : ℕ) : (A.writes mm node).Nodup := by
  unfold writes
  split_ifs
  · exact MatchMaker.successorEdges_nodup node
  · exact List.nodup_dedup _

variable (mm) in
/-- Every edge has a value, and a node is on the list once. -/
structure Filled (s : Solver V) : Prop where
  isSome : ∀ e ∈ mm.edges, (s.values e).isSome
  nodup : s.worklist.Nodup

/-- Every edge has a value. -/
theorem Filled.values_eq (h : Filled mm s) {e : Edge} (he : e ∈ mm.edges) :
    s.values e = some (A.val s e) := by
  obtain ⟨v, hv⟩ := Option.isSome_iff_exists.mp (h.isSome e he)
  rw [val, hv, Option.getD_some]

/-- So the meet over edges of the graph does not throw. -/
theorem Filled.bigMeet_eq (h : Filled mm s) {edges : List Edge} (hedges : ∀ e ∈ edges, e ∈ mm.edges) :
    A.bigMeet s.values edges = some (A.meetAll (edges.map (A.val s))) := by
  have hmapM : edges.mapM s.values = some (edges.map (A.val s)) := by
    induction edges with
    | nil => rfl
    | cons e edges ih =>
      rw [List.mapM_cons, h.values_eq (A := A) (hedges e List.mem_cons_self),
        ih fun e' he' => hedges e' (List.mem_cons_of_mem _ he')]
      rfl
  rw [bigMeet, hmapM, Option.map_some]

/-- Filling in the top value gives every edge one. -/
theorem fill_filled {wklist : List ℕ} (hnodup : wklist.Nodup) (values : Edge → Option V) :
    Filled mm ⟨wklist, A.fill mm values⟩ where
  isSome e he := by
    dsimp only [fill]
    by_cases hnone : values e = none
    · rw [if_pos ⟨hnone, he⟩]
      rfl
    · rw [if_neg fun h => hnone h.1]
      exact Option.isSome_iff_ne_none.mpr hnone
  nodup := hnodup

variable (A mm) [DecidableEq V]

/-- `worklist.add`. -/
def add (worklist : List ℕ) (node : ℕ) : List ℕ :=
  if node ∈ worklist then worklist else worklist ++ [node]

/-- The body of the loop over the edges of a node. Near the end of the run a value of `CondConstProp` that
changes fails a `require`. -/
def update (counter : ℕ) (newEdges : Edge → V) (s : Solver V) (e : Edge) : Option (Solver V) :=
  if s.values e = some (newEdges e) then some s
  else if A.isInfo ∧ THRESHOLD - 10 < counter ∧ (s.values e).isSome then none
  else
    some {
      worklist := add s.worklist (A.next e)
      values := Function.update s.values e (some (newEdges e)) }

/-- One iteration of the loop, for the node taken from the worklist. -/
def process (counter node : ℕ) (s : Solver V) : Option (Solver V) := do
  let inInfo ← A.bigMeet s.values (A.reads mm node)
  let newEdges ← A.transition mm node inInfo
  (A.writes mm node).foldlM (A.update counter newEdges) { s with worklist := s.worklist.erase node }

/-- The node an iteration takes. `first` is the pick 0; `random` may pick any. -/
def taken (picks : ℕ → ℕ) (counter : ℕ) (first : ℕ) (rest : List ℕ) : ℕ :=
  (first :: rest).getD (picks counter % (rest.length + 1)) first

/-- The test of the loop and its body. -/
def iteration (picks : ℕ → ℕ) (counter : ℕ) (s : Solver V) : Option (Solver V) :=
  match s.worklist with
  | [] => some s
  | first :: rest => A.process mm counter (taken picks counter first rest) s

/-- The state when the counter is `k`, or when the worklist got empty before. -/
def loop (picks : ℕ → ℕ) (s : Solver V) : ℕ → Option (Solver V)
  | 0 => some s
  | k + 1 => (loop picks s k).bind (A.iteration mm picks k)

/-- `runWithWorklist`, which fills in the top value for edges without one. -/
def runWithWorklist (picks : ℕ → ℕ) (wklist : List ℕ) (values : Edge → Option V) : Option (Solver V) :=
  A.loop mm picks ⟨wklist, A.fill mm values⟩ THRESHOLD

/-- `run`, with every node on the list. -/
def run (picks : ℕ → ℕ) (values : Edge → Option V) : Option (Solver V) :=
  A.runWithWorklist mm picks mm.allNodes values

/-! ## One iteration is a step of the equations -/

section Equations

variable {A mm} {s s' : Solver V} {counter node : ℕ}

/-- A node that is on the list is not put there again. -/
theorem mem_add {worklist : List ℕ} {m : ℕ} : m ∈ add worklist node ↔ m ∈ worklist ∨ m = node := by
  unfold add
  split_ifs with h
  · constructor
    · exact .inl
    · rintro (h' | rfl)
      · exact h'
      · exact h
  · rw [List.mem_append, List.mem_singleton]

/-- So no node is there twice. -/
theorem nodup_add {worklist : List ℕ} (h : worklist.Nodup) : (add worklist node).Nodup := by
  unfold add
  split_ifs with hmem
  · exact h
  · exact h.append (List.nodup_singleton _) (by simpa using hmem)

/-- The list grows by one at most. -/
theorem length_add (worklist : List ℕ) (node : ℕ) : (add worklist node).length ≤ worklist.length + 1 := by
  unfold add
  split_ifs
  · omega
  · rw [List.length_append, List.length_singleton]

/-- The values that are not yet those computed. -/
def outdated (s : Solver V) (newEdges : Edge → V) (edges : List Edge) : List Edge :=
  edges.filter fun e => s.values e ≠ some (newEdges e)

/-- Writing an edge: the value is stored, and the node behind it is put on the list when the value has
changed. -/
theorem update_eq {newEdges : Edge → V} {e : Edge} (h : A.update counter newEdges s e = some s') :
    s'.values = Function.update s.values e (some (newEdges e)) ∧
    s'.worklist = if s.values e = some (newEdges e) then s.worklist else add s.worklist (A.next e) := by
  unfold update at h
  split_ifs at h with heq hrequire
  · cases h
    rw [if_pos heq, ← heq, Function.update_eq_self]
    exact ⟨rfl, rfl⟩
  · cases h
    rw [if_neg heq]
    exact ⟨rfl, rfl⟩

/-- What the loop over the edges of a node does. -/
theorem foldlM_update {newEdges : Edge → V} {edges : List Edge} (hedges : edges.Nodup)
    (h : edges.foldlM (A.update counter newEdges) s = some s') :
    (∀ e, s'.values e = if e ∈ edges then some (newEdges e) else s.values e) ∧
    (∀ m, m ∈ s'.worklist ↔ m ∈ s.worklist ∨ ∃ e ∈ outdated s newEdges edges, A.next e = m) ∧
    (s.worklist.Nodup → s'.worklist.Nodup) ∧
    s'.worklist.length ≤ s.worklist.length + (outdated s newEdges edges).length := by
  induction edges generalizing s with
  | nil =>
    cases h
    simp [outdated]
  | cons e edges ih =>
    obtain ⟨hmem, hnodup⟩ := List.nodup_cons.mp hedges
    rw [List.foldlM_cons] at h
    obtain ⟨s₁, hupdate, hrest⟩ := Option.bind_eq_some_iff.mp h
    obtain ⟨hvalues₁, hlist₁⟩ := update_eq hupdate
    obtain ⟨hvalues, hlist, hnd, hlen⟩ := ih hnodup hrest
    -- the edges differ, so storing one value leaves the others as outdated as they were
    have hout : outdated s₁ newEdges edges = outdated s newEdges edges := by
      refine List.filter_congr fun e' he' => ?_
      have hne : e' ≠ e := fun hee => hmem (hee ▸ he')
      rw [hvalues₁, Function.update_of_ne hne]
    rw [hout] at hlist hlen
    refine ⟨fun e' => ?_, fun m => ?_, fun hs => hnd ?_, ?_⟩
    · rw [hvalues, hvalues₁]
      by_cases he' : e' = e
      · simp [he']
      · simp [he']
    · rw [hlist, hlist₁]
      by_cases heq : s.values e = some (newEdges e)
      · rw [if_pos heq, outdated, outdated, List.filter_cons_of_neg (by simpa using heq)]
      · rw [if_neg heq, mem_add, outdated, outdated, List.filter_cons_of_pos (by simpa using heq)]
        simp only [List.mem_cons, exists_eq_or_imp, or_assoc, eq_comm (a := m)]
    · rw [hlist₁]
      split_ifs
      · exact hs
      · exact nodup_add hs
    · rw [hlist₁] at hlen
      by_cases heq : s.values e = some (newEdges e)
      · rw [if_pos heq] at hlen
        rw [outdated, List.filter_cons_of_neg (by simpa using heq)]
        exact hlen
      · rw [if_neg heq] at hlen
        have hadd := length_add s.worklist (A.next e)
        rw [outdated, List.filter_cons_of_pos (by simpa using heq), List.length_cons]
        rw [outdated] at hlen
        omega

/-- The values after one iteration. -/
theorem process_values (h : A.process mm counter node s = some s') :
    ∃ inInfo newEdges, A.bigMeet s.values (A.reads mm node) = some inInfo ∧
      A.transition mm node inInfo = some newEdges ∧
      ∀ e, s'.values e = if e ∈ A.writes mm node then some (newEdges e) else s.values e := by
  obtain ⟨inInfo, hmeet, h⟩ := Option.bind_eq_some_iff.mp h
  obtain ⟨newEdges, htransition, h⟩ := Option.bind_eq_some_iff.mp h
  exact ⟨inInfo, newEdges, hmeet, htransition, (foldlM_update (writes_nodup node) h).1⟩

variable (A)

/-- The equations of the graph. -/
def system (hrep : mm.RepOk) : EquationSystem ℕ Edge V where
  ins := A.reads mm
  outs := A.writes mm
  writer e := if A.forward then e.src else e.node
  reader := A.next
  writer_outs he := ((mem_writes_iff hrep).mp he).1
  reader_ins he := ((mem_reads_iff hrep).mp he).1
  transfer node v := A.transition mm node (A.meetAll ((A.reads mm node).map v))
  transfer_congr h := by rw [List.map_congr_left h]

variable {A}

/-- One iteration is a step of the equations. -/
theorem process_step (hrep : mm.RepOk) (hfilled : Filled mm s) (hnode : node ∈ s.worklist)
    (h : A.process mm counter node s = some s') :
    (A.system hrep).Step node s.worklist (A.val s) s'.worklist (A.val s') ∧ Filled mm s' := by
  have hreads : ∀ e ∈ A.reads mm node, e ∈ mm.edges := fun e he => ((mem_reads_iff hrep).mp he).2
  have hwrites : ∀ e ∈ A.writes mm node, e ∈ mm.edges := fun e he => ((mem_writes_iff hrep).mp he).2
  obtain ⟨inInfo, hmeet, h⟩ := Option.bind_eq_some_iff.mp h
  cases (hfilled.bigMeet_eq hreads).symm.trans hmeet
  obtain ⟨newEdges, htransition, h⟩ := Option.bind_eq_some_iff.mp h
  obtain ⟨hvalues, hlist, hnd, hlen⟩ := foldlM_update (writes_nodup node) h
  have hval : ∀ e, A.val s' e = if e ∈ A.writes mm node then newEdges e else A.val s e := by
    intro e
    rw [val, hvalues]
    split_ifs
    · rfl
    · rfl
  have hchanged : outdated { s with worklist := s.worklist.erase node } newEdges (A.writes mm node) =
      (A.system hrep).changed node (A.val s) (A.val s') := by
    refine List.filter_congr fun e he => ?_
    show decide (s.values e ≠ some (newEdges e)) = decide (A.val s' e ≠ A.val s e)
    rw [hfilled.values_eq (A := A) (hwrites e he), hval, if_pos he]
    refine decide_eq_decide.mpr (not_congr ?_)
    rw [Option.some.injEq, eq_comm]
  rw [hchanged] at hlist hlen
  refine ⟨⟨⟨newEdges, htransition, hval⟩, fun m => ?_, ?_⟩, ⟨fun e he => ?_, ?_⟩⟩
  · rw [hlist, hfilled.nodup.mem_erase_iff, and_comm]
    rfl
  · have herase := List.length_erase_of_mem hnode
    have hpos := List.length_pos_of_mem hnode
    dsimp only at hlen
    omega
  · rw [hvalues]
    split_ifs
    · rfl
    · exact hfilled.isSome e he
  · exact hnd (hfilled.nodup.erase node)

end Equations

/-! ## Runs -/

section Runs

variable {A mm} {s s' : Solver V} {picks : ℕ → ℕ} {k : ℕ}

/-- The node that is taken is on the list. -/
theorem taken_mem (first : ℕ) (rest : List ℕ) : taken picks k first rest ∈ first :: rest := by
  have hlt : picks k % (rest.length + 1) < (first :: rest).length := Nat.mod_lt _ (Nat.succ_pos _)
  rw [taken, List.getD_eq_getElem _ _ hlt]
  exact List.getElem_mem hlt

/-- An iteration does nothing, or takes a node of the list. -/
theorem iteration_cases (h : A.iteration mm picks k s = some s') :
    (s.worklist = [] ∧ s' = s) ∨
      ∃ node ∈ s.worklist, A.process mm k node s = some s' := by
  unfold iteration at h
  split at h
  · rename_i hlist
    exact .inl ⟨hlist, (Option.some.inj h).symm⟩
  · rename_i first rest hlist
    exact .inr ⟨_, hlist ▸ taken_mem first rest, h⟩

/-- Early in the run no `require` fails. -/
theorem foldlM_update_isSome {newEdges : Edge → V} (hk : A.isInfo → k ≤ THRESHOLD - 10) (edges : List Edge)
    (s : Solver V) : (edges.foldlM (A.update k newEdges) s).isSome := by
  induction edges generalizing s with
  | nil => rfl
  | cons e edges ih =>
    have hupdate : (A.update k newEdges s e).isSome := by
      unfold update
      rw [if_neg (c := A.isInfo ∧ _) fun h => absurd h.2.1 (not_lt.mpr (hk h.1))]
      split_ifs <;> rfl
    obtain ⟨s₁, hs₁⟩ := Option.isSome_iff_exists.mp hupdate
    rw [List.foldlM_cons, hs₁]
    exact ih s₁

/-- A property that iterations keep holds in every state of a run. -/
theorem loop_induction {P : ℕ → Solver V → Prop} (h0 : P 0 s)
    (hstep : ∀ k s₁ s₂, A.loop mm picks s k = some s₁ → P k s₁ → A.iteration mm picks k s₁ = some s₂ →
      P (k + 1) s₂) (h : A.loop mm picks s k = some s') : P k s' := by
  induction k generalizing s' with
  | zero =>
    cases h
    exact h0
  | succ k ih =>
    obtain ⟨s₁, hloop, hiter⟩ := Option.bind_eq_some_iff.mp h
    exact hstep k s₁ s' hloop (ih hloop) hiter

/-- A run takes no more nodes than it makes iterations. -/
theorem loop_length (hrep : mm.RepOk) (hfilled : Filled mm s) (h : A.loop mm picks s k = some s') :
    s.worklist.length ≤ s'.worklist.length + k := by
  have hinv : Filled mm s' ∧ s.worklist.length ≤ s'.worklist.length + k := by
    refine loop_induction (P := fun k s' => Filled mm s' ∧ s.worklist.length ≤ s'.worklist.length + k)
      ⟨hfilled, le_rfl⟩ ?_ h
    rintro k s₁ s₂ - ⟨hs₁, hlen⟩ hiter
    rcases iteration_cases hiter with ⟨-, rfl⟩ | ⟨node, hnode, hprocess⟩
    · exact ⟨hs₁, by omega⟩
    · obtain ⟨hstep, hs₂⟩ := process_step hrep hs₁ hnode hprocess
      have hone := hstep.length_le hs₁.nodup
      exact ⟨hs₂, by omega⟩
  exact hinv.2

/-- The loop keeps a value at every edge. -/
theorem loop_filled (hrep : mm.RepOk) (hfilled : Filled mm s) (h : A.loop mm picks s k = some s') :
    Filled mm s' := by
  refine loop_induction (P := fun _ s' => Filled mm s') hfilled ?_ h
  intro k s₁ s₂ _ hs₁ hiter
  rcases iteration_cases hiter with ⟨-, rfl⟩ | ⟨node, hnode, hprocess⟩
  · exact hs₁
  · exact (process_step hrep hs₁ hnode hprocess).2

/-- Once the list is empty nothing changes. -/
theorem loop_of_empty {s₁ : Solver V} {j : ℕ} (h : A.loop mm picks s j = some s₁)
    (hempty : s₁.worklist = []) (hjk : j ≤ k) : A.loop mm picks s k = some s₁ := by
  induction k, hjk using Nat.le_induction with
  | base => exact h
  | succ k hjk ih =>
    rw [loop, ih, Option.bind_some, iteration, hempty]

/-- A run that has emptied its list within the limit is the run. -/
theorem runWithWorklist_of_empty {wklist : List ℕ} {values : Edge → Option V}
    (h : A.loop mm picks ⟨wklist, A.fill mm values⟩ k = some s) (hempty : s.worklist = [])
    (hk : k ≤ THRESHOLD) : A.runWithWorklist mm picks wklist values = some s := by
  rw [runWithWorklist]
  exact loop_of_empty h hempty hk

end Runs

end CFGFlow

end Jaek
