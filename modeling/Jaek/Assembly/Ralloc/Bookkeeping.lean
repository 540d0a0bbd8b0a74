import Jaek.Assembly.Ralloc.Worklist

/-!
# The bookkeeping of the edges and degrees

The edges that a sequence of calls of `addEdge` makes are those of a simple graph (`interference`), and the
two tables of edges represent it (`Represents.addEdges`). The degrees do not: `addEdge` adds one to a degree
and drops the sum, so all of them are zero when the edges are in.

The main loop counts the degrees down as neighbours leave. A turn only lowers them, and lowers those of the
neighbours that stay (`Step.cases`), so a degree is right in a state of the loop exactly where its register
has no neighbour at all (`Counts.degreeExact_iff`).
-/

namespace Jaek

namespace Chaitin

namespace InterferenceGraph

/-- A register the graph can have an edge to: a machine register or one it was created with. -/
def Created (regs : List Register) (r : Register) : Prop := r.isAbstract = true → r ∈ regs

/-- The tables of edges agree. The pairs are symmetric and join no register with one that counts as equal,
and the list of a register holds its neighbours, each of them once. -/
structure Linked (regs : List Register) (g : InterferenceGraph) : Prop where
  symm : ∀ u v, (u, v) ∈ g.adjSet → (v, u) ∈ g.adjSet
  irrefl : ∀ u v, (u, v) ∈ g.adjSet → u.regName ≠ v.regName
  adjList : ∀ u ∈ regs, ∃ neighbours, g.adjList u = some neighbours ∧ neighbours.Nodup ∧
    ∀ v, v ∈ neighbours ↔ (u, v) ∈ g.adjSet

/-- The degree of a register is the number of its neighbours. -/
def DegreeExact (g : InterferenceGraph) (u : Register) : Prop :=
  ∃ neighbours, g.adjList u = some neighbours ∧ g.degrees u = some (neighbours.length : ℤ)

/-! ## The graph of the calls -/

/-- Two registers interfere when a call joins them, under names that differ. -/
def interference (calls : List (Register × Register)) : SimpleGraph Register :=
  SimpleGraph.fromRel fun u v => (u, v) ∈ calls ∧ u.regName ≠ v.regName

/-- No call joins the register with one of another name. -/
def Alone (calls : List (Register × Register)) (u : Register) : Prop :=
  ∀ call ∈ calls, call.1.regName ≠ call.2.regName → call.1 ≠ u ∧ call.2 ≠ u

variable {regs : List Register} {calls : List (Register × Register)} {u v a b : Register}
  {g g' : InterferenceGraph} {R : Register → Register → Prop}

/-- Registers with different names differ. -/
theorem ne_of_regName_ne (h : u.regName ≠ v.regName) : u ≠ v := fun huv => h (congrArg _ huv)

/-- Two vertices interfere when some call adds the edge between them, in either direction, and their names
differ. -/
theorem interference_adj :
    (interference calls).Adj a b ↔ ((a, b) ∈ calls ∨ (b, a) ∈ calls) ∧ a.regName ≠ b.regName := by
  rw [interference, SimpleGraph.fromRel_adj]
  constructor
  · rintro ⟨-, ⟨h, hne⟩ | ⟨h, hne⟩⟩
    · exact ⟨.inl h, hne⟩
    · exact ⟨.inr h, hne.symm⟩
  · rintro ⟨h, hne⟩
    exact ⟨ne_of_regName_ne hne, h.imp (⟨·, hne⟩) (⟨·, hne.symm⟩)⟩

/-- A vertex is alone when it has no neighbour. -/
theorem alone_iff : Alone calls u ↔ ∀ v, ¬ (interference calls).Adj u v := by
  constructor
  · intro h v hadj
    obtain ⟨hc | hc, hne⟩ := interference_adj.mp hadj
    · exact (h _ hc hne).1 rfl
    · exact (h _ hc hne.symm).2 rfl
  · intro h call hc hne
    constructor
    · rintro rfl
      exact h call.2 (interference_adj.mpr ⟨.inl hc, hne⟩)
    · rintro rfl
      exact h call.1 (interference_adj.mpr ⟨.inr hc, hne.symm⟩)

/-- One more call adds one edge at most. -/
theorem interference_snoc :
    (interference (calls ++ [(u, v)])).Adj a b ↔
      (interference calls).Adj a b ∨ u.regName ≠ v.regName ∧ (a = u ∧ b = v ∨ a = v ∧ b = u) := by
  simp only [interference_adj, List.mem_append, List.mem_singleton, Prod.mk.injEq]
  constructor
  · rintro ⟨(h | ⟨rfl, rfl⟩) | h | ⟨rfl, rfl⟩, hne⟩
    · exact .inl ⟨.inl h, hne⟩
    · exact .inr ⟨hne, .inl ⟨rfl, rfl⟩⟩
    · exact .inl ⟨.inr h, hne⟩
    · exact .inr ⟨hne.symm, .inr ⟨rfl, rfl⟩⟩
  · rintro (⟨h, hne⟩ | ⟨hne, ⟨rfl, rfl⟩ | ⟨rfl, rfl⟩⟩)
    · exact ⟨h.imp .inl .inl, hne⟩
    · exact ⟨.inl (.inr ⟨rfl, rfl⟩), hne⟩
    · exact ⟨.inr (.inr ⟨rfl, rfl⟩), hne.symm⟩

/-- A call on one name or on two registers that are joined adds nothing. -/
theorem interference_snoc_of_not (h : ¬ ((u, v) ∉ g.adjSet ∧ u.regName ≠ v.regName))
    (hset : ∀ u v, (u, v) ∈ g.adjSet ↔ (interference calls).Adj u v) :
    interference (calls ++ [(u, v)]) = interference calls := by
  ext a b
  rw [interference_snoc, or_iff_left_iff_imp]
  rintro ⟨hne, hab⟩
  have hadj : (interference calls).Adj u v := (hset u v).mp (by_contra fun hm => h ⟨hm, hne⟩)
  rcases hab with ⟨rfl, rfl⟩ | ⟨rfl, rfl⟩
  · exact hadj
  · exact hadj.symm

/-! ## The tables represent it -/

/-- The tables are those of the calls made, and every degree is zero. -/
structure Represents (regs : List Register) (calls : List (Register × Register))
    (g : InterferenceGraph) : Prop where
  adjSet : ∀ u v, (u, v) ∈ g.adjSet ↔ (interference calls).Adj u v
  lists : Lists regs (interference calls).Adj g
  nodup : ∀ u neighbours, g.adjList u = some neighbours → neighbours.Nodup
  degrees : ∀ u ∈ regs, g.degrees u = some 0

/-- Before the first call. -/
theorem create_represents (regs : List Register) (moveList : Register → List Move) :
    Represents regs [] (create regs moveList) where
  adjSet u v := by simp [create, interference]
  lists :=
    { listed := fun u => by simp [create]
      counted := fun u hu => ⟨0, by simp [create, hu]⟩
      adjList := by
        intro u neighbours h
        simp only [create, Option.ite_none_right_eq_some, Option.some.injEq] at h
        simp [interference, ← h.2] }
  nodup u neighbours h := by
    simp only [create, Option.ite_none_right_eq_some, Option.some.injEq] at h
    simp [← h.2]
  degrees u hu := by simp [create, hu]

/-- `addNeighbour` finds both entries of a register the graph was created with, and writes one. -/
theorem addNeighbour_returns (h : Lists regs R g) (hu : Created regs u) (v : Register) :
    ∃ g', g.addNeighbour u v = some g' ∧ g'.degrees = g.degrees ∧
      ((∀ u neighbours, g.adjList u = some neighbours → neighbours.Nodup) →
        ∀ u neighbours, g'.adjList u = some neighbours → neighbours.Nodup) := by
  unfold addNeighbour
  split_ifs with habs
  · obtain ⟨us, hus⟩ := (h.listed u).mpr (hu habs)
    obtain ⟨d, hd⟩ := h.counted u (hu habs)
    refine ⟨{ g with adjList := Function.update g.adjList u (some (addNew us v)) },
      by simp [hus, hd], rfl, ?_⟩
    intro hnodup a neighbours ha
    dsimp only at ha
    by_cases hau : a = u
    · rw [hau, Function.update_self, Option.some.injEq] at ha
      rw [← ha]
      exact nodup_addNew (hnodup u us hus) v
    · rw [Function.update_of_ne hau] at ha
      exact hnodup a neighbours ha
  · exact ⟨g, rfl, rfl, id⟩

/-- The step: a call keeps the tables those of the calls made. -/
theorem Represents.addEdge (h : Represents regs calls g) (hregs : ∀ r ∈ regs, r.isAbstract = true)
    (hu : Created regs u) (hv : Created regs v) :
    ∃ g', g.addEdge u v = some g' ∧ Represents regs (calls ++ [(u, v)]) g' := by
  by_cases hnew : (u, v) ∉ g.adjSet ∧ u.regName ≠ v.regName
  · -- The set is written first, and the lists do not depend on it.
    have hlists : Lists regs (interference calls).Adj
        { g with adjSet := insert (v, u) (insert (u, v) g.adjSet) } :=
      ⟨h.lists.listed, h.lists.counted, h.lists.adjList⟩
    obtain ⟨g₁, h₁, hdegrees₁, hnodup₁⟩ := addNeighbour_returns hlists hu v
    obtain ⟨hset₁, -, -, hlists₁⟩ := hlists.addNeighbour hregs h₁
    obtain ⟨g₂, h₂, hdegrees₂, hnodup₂⟩ := addNeighbour_returns hlists₁ hv u
    obtain ⟨hset₂, -, -, hlists₂⟩ := hlists₁.addNeighbour hregs h₂
    have hadj : ∀ a b, ((interference calls).Adj a b ∨ a = u ∧ b = v) ∨ a = v ∧ b = u ↔
        (interference (calls ++ [(u, v)])).Adj a b := by
      intro a b
      rw [interference_snoc, or_assoc, and_iff_right hnew.2]
    refine ⟨g₂, by simp [InterferenceGraph.addEdge, hnew, h₁, h₂], ?_, ?_, ?_, ?_⟩
    · intro a b
      rw [← hadj, hset₂, hset₁, ← h.adjSet a b]
      simp only [Finset.mem_insert, Prod.mk.injEq]
      tauto
    · exact ⟨hlists₂.listed, hlists₂.counted,
        fun a neighbours hn b => (hlists₂.adjList a neighbours hn b).trans (hadj a b)⟩
    · exact hnodup₂ (hnodup₁ h.nodup)
    · intro a ha
      rw [hdegrees₂, hdegrees₁]
      exact h.degrees a ha
  · refine ⟨g, by simp only [InterferenceGraph.addEdge, if_neg hnew], ?_⟩
    have heq := interference_snoc_of_not hnew h.adjSet
    exact ⟨by rw [heq]; exact h.adjSet, by rw [heq]; exact h.lists, h.nodup, h.degrees⟩

/-- The run: after any sequence of calls the tables represent the graph of the calls. -/
theorem Represents.addEdges {more : List (Register × Register)} (h : Represents regs calls g)
    (hregs : ∀ r ∈ regs, r.isAbstract = true)
    (hmore : ∀ call ∈ more, Created regs call.1 ∧ Created regs call.2) :
    ∃ g', g.addEdges more = some g' ∧ Represents regs (calls ++ more) g' := by
  induction more generalizing calls g with
  | nil => exact ⟨g, rfl, by simpa using h⟩
  | cons call more ih =>
    rw [List.forall_mem_cons] at hmore
    obtain ⟨g₁, h₁, hrep₁⟩ := h.addEdge hregs hmore.1.1 hmore.1.2
    obtain ⟨g₂, h₂, hrep₂⟩ := ih hrep₁ hmore.2
    refine ⟨g₂, ?_, by simpa using hrep₂⟩
    rw [InterferenceGraph.addEdges, List.foldlM_cons, h₁]
    exact h₂

/-- What holds of the tables whatever the calls are. -/
theorem Represents.linked (h : Represents regs calls g) : Linked regs g where
  symm u v huv := (h.adjSet v u).mpr ((h.adjSet u v).mp huv).symm
  irrefl u v huv := (interference_adj.mp ((h.adjSet u v).mp huv)).2
  adjList u hu := by
    obtain ⟨neighbours, hn⟩ := (h.lists.listed u).mpr hu
    exact ⟨neighbours, hn, h.nodup u neighbours hn,
      fun v => (h.lists.adjList u neighbours hn v).trans (h.adjSet u v).symm⟩

/-- A list is empty exactly when no call joins its register with one of another name. -/
theorem Represents.eq_nil_iff (h : Represents regs calls g) {neighbours : List Register}
    (hn : g.adjList u = some neighbours) : neighbours = [] ↔ Alone calls u := by
  rw [alone_iff, List.eq_nil_iff_forall_not_mem]
  exact forall_congr' fun v => not_congr (h.lists.adjList u neighbours hn v)

/-- The degrees stay zero, so only an empty list has the right one. -/
theorem Represents.degreeExact_iff (h : Represents regs calls g) (hu : u ∈ regs) :
    g.DegreeExact u ↔ Alone calls u := by
  obtain ⟨neighbours, hn⟩ := (h.lists.listed u).mpr hu
  rw [← h.eq_nil_iff hn, ← List.length_eq_zero_iff]
  simp [DegreeExact, hn, h.degrees u hu, eq_comm]

end InterferenceGraph

namespace Worklist

variable {w w' : Worklist} {n m u : Register}

/-- The degree of a register is the number of its neighbours that are not on the stack yet. -/
def DegreeExact (w : Worklist) (u : Register) : Prop :=
  ∃ neighbours, w.adjacent u = some neighbours ∧ w.ig.degrees u = some (neighbours.length : ℤ)

/-! ## How the degrees go down -/

/-- From `w` to `w'` the degrees of the registers `ms` are lowered, and those of others kept. -/
structure LoweredAll (ms : List Register) (w w' : Worklist) : Prop where
  selectStack : w'.selectStack = w.selectStack
  adjList : w'.ig.adjList = w.ig.adjList
  degrees : ∀ u d, w.ig.degrees u = some d → ∃ d', w'.ig.degrees u = some d' ∧ d' ≤ d ∧
    (u ∈ ms → u.isAbstract = true → d' < d) ∧ (u ∉ ms → d' = d)

/-- No degree has been lowered. -/
theorem LoweredAll.refl (w : Worklist) : LoweredAll [] w w :=
  ⟨rfl, rfl, fun _ d hd => ⟨d, hd, le_rfl, by simp, by simp⟩⟩

/-- The degrees of one neighbour and of the others. -/
theorem LoweredAll.cons {ms : List Register} {w₁ w₂ w₃ : Worklist} (h : LoweredAll [m] w₁ w₂)
    (h' : LoweredAll ms w₂ w₃) : LoweredAll (m :: ms) w₁ w₃ where
  selectStack := h'.selectStack.trans h.selectStack
  adjList := h'.adjList.trans h.adjList
  degrees u d hd := by
    obtain ⟨d₂, hd₂, hle₂, hlt₂, heq₂⟩ := h.degrees u d hd
    obtain ⟨d₃, hd₃, hle₃, hlt₃, heq₃⟩ := h'.degrees u d₂ hd₂
    refine ⟨d₃, hd₃, hle₃.trans hle₂, ?_, ?_⟩
    · intro hu habs
      rcases List.mem_cons.mp hu with rfl | hu
      · exact hle₃.trans_lt (hlt₂ (List.mem_singleton_self u) habs)
      · exact (hlt₃ hu habs).trans_le hle₂
    · intro hu
      rw [List.mem_cons, not_or] at hu
      rw [heq₃ hu.2, heq₂ (by simpa using hu.1)]

/-- A register goes on a list, and the graph and the stack stay. -/
theorem addLow_keeps (w : Worklist) (n : Register) :
    (w.addLow n).ig = w.ig ∧ (w.addLow n).selectStack = w.selectStack := by
  rcases addLow_eq w n with h | h <;>
  · rw [h]
    exact ⟨rfl, rfl⟩

/-- `decrementDegree` lowers the one degree, and leaves the lists and the stack alone. -/
theorem decrementDegree_cases (h : w.decrementDegree m = some w') :
    ∃ d, w.ig.degrees m = some d ∧ w'.ig = (w.setDegree m (d - 1)).ig ∧
      w'.selectStack = w.selectStack := by
  obtain ⟨d, hd, h⟩ := Option.bind_eq_some_iff.mp h
  refine ⟨d, hd, ?_⟩
  dsimp only at h
  split_ifs at h
  · obtain ⟨neighbours, -, h⟩ := Option.bind_eq_some_iff.mp h
    obtain ⟨active, moves, henable⟩ := (w.setDegree m (d - 1)).enableMoves_eq (neighbours.foldl addNew [m])
    rw [← Option.some.inj h, henable]
    exact addLow_keeps _ m
  · rw [← Option.some.inj h]
    exact ⟨rfl, rfl⟩

/-- `decrementDegree` lowers the degree of one register and of no other. -/
theorem lower_loweredAll (h : w.lower m = some w') : LoweredAll [m] w w' := by
  unfold lower at h
  split_ifs at h with habs
  · obtain ⟨d₀, hd₀, hig, hstack⟩ := decrementDegree_cases h
    refine ⟨hstack, by rw [hig]; rfl, ?_⟩
    intro u d hd
    by_cases hu : u = m
    · subst hu
      rw [hd₀, Option.some.injEq] at hd
      exact ⟨d₀ - 1, by simp [hig, setDegree], by omega, fun _ _ => by omega, by simp⟩
    · exact ⟨d, by simp [hig, setDegree, hu, hd], le_rfl, by simp [hu], by simp⟩
  · rw [← Option.some.inj h]
    refine ⟨rfl, rfl, fun u d hd => ⟨d, hd, le_rfl, ?_, fun _ => rfl⟩⟩
    intro hu hu'
    rw [List.mem_singleton.mp hu] at hu'
    exact absurd hu' habs

/-- The loop lowers the degree of each of them. -/
theorem foldlM_lower_loweredAll {ms : List Register} (h : ms.foldlM lower w = some w') :
    LoweredAll ms w w' := by
  induction ms generalizing w with
  | nil =>
    rw [← Option.some.inj h]
    exact .refl w
  | cons m ms ih =>
    rw [List.foldlM_cons] at h
    obtain ⟨w₁, h₁, h⟩ := Option.bind_eq_some_iff.mp h
    exact (lower_loweredAll h₁).cons (ih h)

/-- The three turns: a register leaves with the degrees of its neighbours lowered, or nothing of the
graph changes. -/
theorem Step.cases (h : Step w w') :
    (w'.ig = w.ig ∧ w'.selectStack = w.selectStack) ∨
      ∃ n neighbours, w.ig.adjList n = some neighbours ∧ w'.selectStack = n :: w.selectStack ∧
        LoweredAll (neighbours.filter (· ∉ n :: w.selectStack))
          { w with selectStack := n :: w.selectStack } w' := by
  cases h with
  | simplify h =>
    right
    unfold Worklist.simplify at h
    split at h
    · simp at h
    · rename_i n rest _
      obtain ⟨left, hleft, h⟩ := Option.bind_eq_some_iff.mp h
      obtain ⟨neighbours, hn, hleft⟩ := Option.bind_eq_some_iff.mp hleft
      rw [← Option.some.inj hleft] at h
      have hlow := foldlM_lower_loweredAll h
      exact ⟨n, neighbours, hn, hlow.selectStack, hlow.selectStack, hlow.adjList, hlow.degrees⟩
  | freeze _ h =>
    left
    unfold Worklist.freeze at h
    split at h
    · simp at h
    · rw [← Option.some.inj h]
      exact ⟨(freezeMoves_thawed _ _).ig, (freezeMoves_thawed _ _).stack⟩
  | selectSpill _ _ _ => exact .inl ⟨(freezeMoves_thawed _ _).ig, (freezeMoves_thawed _ _).stack⟩

/-! ## The invariant of the loop -/

open InterferenceGraph

/-- No degree is above zero, that of a register without neighbours is zero, and that of one with a
neighbour on the stack is below zero. -/
structure Counts (regs : List Register) (calls : List (Register × Register)) (w : Worklist) :
    Prop where
  created : ∀ u ∈ regs, ∃ neighbours, w.ig.adjList u = some neighbours
  adjList : ∀ u neighbours, w.ig.adjList u = some neighbours →
    ∀ v, v ∈ neighbours ↔ (interference calls).Adj u v
  nonpos : ∀ u ∈ regs, ∃ d, w.ig.degrees u = some d ∧ d ≤ 0
  alone : ∀ u ∈ regs, Alone calls u → w.ig.degrees u = some 0
  pushed : ∀ u ∈ regs, u ∉ w.selectStack → ∀ n ∈ w.selectStack, (interference calls).Adj n u →
    ∀ d, w.ig.degrees u = some d → d < 0

variable {regs : List Register} {calls : List (Register × Register)} {g : InterferenceGraph}

/-- The step of the loop. -/
theorem Counts.step (h : Counts regs calls w) (hregs : ∀ r ∈ regs, r.isAbstract = true)
    (hs : Step w w') : Counts regs calls w' := by
  -- a step that only moves edges or nodes between lists leaves the counts; one that pushes a register
  -- lowers those of its neighbours
  rcases hs.cases with ⟨hig, hstack⟩ | ⟨n, neighbours, hn, hstack, hlow⟩
  · constructor
    · rw [hig]
      exact h.created
    · rw [hig]
      exact h.adjList
    · rw [hig]
      exact h.nonpos
    · rw [hig]
      exact h.alone
    · rw [hig, hstack]
      exact h.pushed
  have hadjList : w'.ig.adjList = w.ig.adjList := hlow.adjList
  constructor
  · rw [hadjList]
    exact h.created
  · rw [hadjList]
    exact h.adjList
  · intro u hu
    obtain ⟨d, hd, hle⟩ := h.nonpos u hu
    obtain ⟨d', hd', hle', -⟩ := hlow.degrees u d hd
    exact ⟨d', hd', hle'.trans hle⟩
  · intro u hu halone
    obtain ⟨d', hd', -, -, hkeep⟩ := hlow.degrees u 0 (h.alone u hu halone)
    have hnot : u ∉ neighbours := by
      intro hmem
      exact alone_iff.mp halone n ((h.adjList n neighbours hn u).mp hmem).symm
    rw [hd', hkeep fun hmem => hnot (List.mem_of_mem_filter hmem)]
  · intro u hu hleft p hp hadj d' hd'
    rw [hstack] at hleft hp
    obtain ⟨d, hd, hle⟩ := h.nonpos u hu
    obtain ⟨e, he, hle', hlt, -⟩ := hlow.degrees u d hd
    obtain rfl : e = d' := Option.some.inj (he.symm.trans hd')
    rcases List.mem_cons.mp hp with rfl | hp
    · -- The register is a neighbour of the one that leaves now.
      have hmem : u ∈ neighbours.filter (· ∉ p :: w.selectStack) :=
        List.mem_filter.mpr ⟨(h.adjList p neighbours hn u).mpr hadj, decide_eq_true hleft⟩
      exact (hlt hmem (hregs u hu)).trans_le hle
    · have hold := h.pushed u hu (fun hm => hleft (List.mem_cons_of_mem n hm)) p hp hadj d hd
      exact hle'.trans_lt hold

/-- The run: the invariant holds in every state of the loop. -/
theorem Counts.reaches (h : Counts regs calls w) (hregs : ∀ r ∈ regs, r.isAbstract = true)
    (hr : Reaches w w') : Counts regs calls w' := by
  induction hr with
  | refl => exact h
  | tail _ hs ih => exact ih.step hregs hs

/-- A degree is right exactly where there is nothing to count. -/
theorem Counts.degreeExact_iff (h : Counts regs calls w) (hu : u ∈ regs) (hleft : u ∉ w.selectStack) :
    w.DegreeExact u ↔ Alone calls u := by
  obtain ⟨neighbours, hn⟩ := h.created u hu
  have hmem := h.adjList u neighbours hn
  have hadjacent : w.adjacent u = some (neighbours.filter (· ∉ w.selectStack)) := by
    simp [adjacent, hn]
  constructor
  · intro hexact
    obtain ⟨left, hl, hd⟩ := hexact
    rw [hadjacent, Option.some.injEq] at hl
    obtain ⟨d, hd', hle⟩ := h.nonpos u hu
    obtain rfl : d = left.length := Option.some.inj (hd'.symm.trans hd)
    rw [alone_iff]
    intro v hadj
    by_cases hv : v ∈ w.selectStack
    · have := h.pushed u hu hleft v hv hadj.symm _ hd
      omega
    · have hvl : v ∈ left := by
        rw [← hl]
        exact List.mem_filter.mpr ⟨(hmem v).mpr hadj, decide_eq_true hv⟩
      have := List.length_pos_of_mem hvl
      omega
  · intro halone
    have hnil : neighbours = [] :=
      List.eq_nil_iff_forall_not_mem.mpr fun v hv => alone_iff.mp halone v ((hmem v).mp hv)
    exact ⟨[], by simp [hadjacent, hnil], h.alone u hu halone⟩

/-- Placing a register leaves the graph and the stack alone. -/
theorem place_keeps {r : Register} (h : w.place r = some w') :
    w'.ig = w.ig ∧ w'.selectStack = w.selectStack := by
  obtain ⟨d, hd, -⟩ := Option.bind_eq_some_iff.mp h
  rcases place_eq hd with hret | ⟨-, hret | hret⟩ <;>
  · rw [← Option.some.inj (hret.symm.trans h)]
    exact ⟨rfl, rfl⟩

/-- Placing the registers on the lists leaves the graph alone. -/
theorem foldlM_place_keeps {rs : List Register} (h : rs.foldlM place w = some w') :
    w'.ig = w.ig ∧ w'.selectStack = w.selectStack := by
  induction rs generalizing w with
  | nil =>
    rw [← Option.some.inj h]
    exact ⟨rfl, rfl⟩
  | cons r rs ih =>
    rw [List.foldlM_cons] at h
    obtain ⟨w₁, h₁, h⟩ := Option.bind_eq_some_iff.mp h
    obtain ⟨hig, hstack⟩ := ih h
    exact ⟨hig.trans (place_keeps h₁).1, hstack.trans (place_keeps h₁).2⟩

/-- The constructor leaves the graph as it is, and the stack empty. -/
theorem init_keeps {K next : ℕ} {insns : List Instruction} {moves : List Move}
    (h : init g K insns moves next = some w) : w.ig = g ∧ w.selectStack = [] := by
  obtain ⟨w₁, h₁, h⟩ := Option.bind_eq_some_iff.mp h
  rw [← Option.some.inj h]
  exact foldlM_place_keeps h₁

/-- The invariant at the start. -/
theorem Counts.start (h : Represents regs calls g) (hig : w.ig = g) (hstack : w.selectStack = []) :
    Counts regs calls w := by
  constructor
  · rw [hig]
    exact fun u hu => (h.lists.listed u).mpr hu
  · rw [hig]
    exact h.lists.adjList
  · intro u hu
    exact ⟨0, by rw [hig]; exact h.degrees u hu, le_rfl⟩
  · intro u hu _
    rw [hig]
    exact h.degrees u hu
  · simp [hstack]

end Worklist

open InterferenceGraph Worklist

/-- The tables of edges agree after any sequence of calls. The degree of a register is right, after the
calls and in every state of the loop before the register is on the stack, exactly when no call joins the
register with one of another name. -/
theorem bookkeeping_iff {insns : List Instruction} {calls : List (Register × Register)}
    (hcalls : ∀ call ∈ calls, Created (involved insns) call.1 ∧ Created (involved insns) call.2)
    (moveList : Register → List Move) (K : ℕ) (m : List Move) (next : ℕ) :
    ∃ g w, (create (involved insns) moveList).addEdges calls = some g ∧
      Worklist.init g K insns m next = some w ∧ g.Linked (involved insns) ∧
      ∀ u ∈ involved insns,
        (g.DegreeExact u ∧ ∀ w', Reaches w w' → u ∉ w'.selectStack → w'.DegreeExact u) ↔
        Alone calls u := by
  have hregs : ∀ r ∈ involved insns, r.isAbstract = true := fun r hr => isAbstract_of_mem_involved hr
  obtain ⟨g, hg, hrep⟩ := (create_represents (involved insns) moveList).addEdges hregs hcalls
  rw [List.nil_append] at hrep
  have hadj := (create_adjacent (involved insns) moveList).addEdges hregs hg
  obtain ⟨w, hw, -⟩ := init_holds hadj K m next
  obtain ⟨hig, hstack⟩ := init_keeps hw
  refine ⟨g, w, hg, hw, hrep.linked, ?_⟩
  intro u hu
  rw [hrep.degreeExact_iff hu, and_iff_left_iff_imp]
  intro halone w' hr hleft
  exact (((Counts.start hrep hig hstack).reaches hregs hr).degreeExact_iff hu hleft).mpr halone

/-- A body that sets the byte of `a` and moves `b` to the whole of it. The call that joins `a` with `b`
leaves the byte alone, and the call on both sizes of `a` makes no edge. -/
theorem bookkeeping_sizes :
    ∃ g w, (create (involved [.jumpSet .SETZ (.abstract "a" 8),
          .MOV (.registerDest (.abstract "a")) (.registerSrc (.abstract "b"))]) fun _ => []).addEdges
        [(.abstract "a", .abstract "b"), (.abstract "a", .abstract "a" 8),
          (.abstract "b", .x86 .RAX)] = some g ∧
      Worklist.init g 16 [.jumpSet .SETZ (.abstract "a" 8),
        .MOV (.registerDest (.abstract "a")) (.registerSrc (.abstract "b"))] [] 0 = some w ∧
      g.Linked (involved [.jumpSet .SETZ (.abstract "a" 8),
        .MOV (.registerDest (.abstract "a")) (.registerSrc (.abstract "b"))]) ∧
      ∀ u ∈ involved [.jumpSet .SETZ (.abstract "a" 8),
          .MOV (.registerDest (.abstract "a")) (.registerSrc (.abstract "b"))],
        (g.DegreeExact u ∧ ∀ w', Reaches w w' → u ∉ w'.selectStack → w'.DegreeExact u) ↔
        Alone [(.abstract "a", .abstract "b"), (.abstract "a", .abstract "a" 8),
          (.abstract "b", .x86 .RAX)] u :=
  bookkeeping_iff (by unfold Created; decide) _ 16 [] 0

/-- One call joins two registers, and the degree of both stays zero. -/
theorem degrees_dropped :
    ∃ g, (create (involved [.MOV (.registerDest (.abstract "a")) (.registerSrc (.abstract "b"))])
        fun _ => []).addEdges [(.abstract "a", .abstract "b")] = some g ∧
      g.adjList (.abstract "a") = some [.abstract "b"] ∧ g.degrees (.abstract "a") = some 0 ∧
      ¬ g.DegreeExact (.abstract "a") := by
  refine ⟨_, rfl, rfl, rfl, ?_⟩
  intro h
  obtain ⟨neighbours, hn, hd⟩ := h
  obtain rfl : [Register.abstract "b"] = neighbours := Option.some.inj hn
  exact absurd (Option.some.inj hd) (by decide)

end Chaitin

end Jaek
