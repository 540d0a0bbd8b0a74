import Jaek.Assembly.LVA.LiveVariableAnalysis
import Jaek.Semantics.Coloring

/-!
# The interference graph

`InterferenceGraph` keeps its edges twice, in `adjSet` by pairs and in `adjList` by abstract register, and
next to them a degree for each abstract register.

The sets and maps of the allocator find a register by its hash, and the hash has the size in it; `equals`
compares names only. So a comparison, whose result is zeroed as a full register and set as a byte, gives
the graph two vertices that count as equal where `addEdge` compares them.

The edges are those of a simple graph (`InterferenceGraph.simple`), and each list holds the neighbours of
its register (`Adjacent.addEdges`).
-/

namespace Jaek

/-- The place of a machine register in the enumeration, which is its colour. -/
def x86Name.ordinal : x86Name → ℕ
  | .RAX => 0
  | .RBX => 1
  | .RCX => 2
  | .RDX => 3
  | .RSP => 4
  | .RBP => 5
  | .RDI => 6
  | .RSI => 7
  | .R8 => 8
  | .R9 => 9
  | .R10 => 10
  | .R11 => 11
  | .R12 => 12
  | .R13 => 13
  | .R14 => 14
  | .R15 => 15

/-- Different registers have different ordinals. -/
theorem x86Name.ordinal_injective : Function.Injective ordinal := by
  intro n n' h
  cases n <;> cases n' <;> first | rfl | exact absurd h (by decide)

/-- Add to a set that keeps the order of insertion. -/
def addNew {α : Type*} [DecidableEq α] (s : List α) (a : α) : List α := if a ∈ s then s else s ++ [a]

/-- A set after `add`. -/
@[simp]
theorem mem_addNew {α : Type*} [DecidableEq α] {s : List α} {a b : α} :
    b ∈ addNew s a ↔ b ∈ s ∨ b = a := by
  unfold addNew
  split_ifs with ha
  · constructor
    · exact Or.inl
    · rintro (hb | rfl)
      · exact hb
      · exact ha
  · simp

/-- Adding keeps the elements distinct. -/
theorem nodup_addNew {α : Type*} [DecidableEq α] {s : List α} (hs : s.Nodup) (a : α) :
    (addNew s a).Nodup := by
  unfold addNew
  split_ifs with ha
  · exact hs
  · exact List.nodup_append.mpr ⟨hs, List.nodup_singleton a,
      by simpa using fun b hb => ne_of_mem_of_not_mem hb ha⟩

namespace Chaitin

/-- A move instruction. Two moves are the same object or differ, which `id` stands for. -/
structure Move where
  id : ℕ
  dest : Register
  src : Register
deriving DecidableEq

/-- The tables of the graph. No register has an alias, since the main loop does not coalesce. -/
structure InterferenceGraph where
  adjList : Register → Option (List Register)
  adjSet : Finset (Register × Register)
  degrees : Register → Option ℤ
  moveList : Register → List Move
  colors : Register → Option ℕ

/-- The set of the registers that the instructions involve. -/
def involved (body : List Instruction) : List Register :=
  (body.flatMap Instruction.involved).foldl addNew []

namespace InterferenceGraph

/-- The graph on the registers `involved`. -/
def create (involved : List Register) (moveList : Register → List Move) : InterferenceGraph where
  adjList temp := if temp ∈ involved then some [] else none
  adjSet := ∅
  degrees temp := if temp ∈ involved then some 0 else none
  moveList := moveList
  colors _ := none

/-- The part of `addEdge` for one end. It reads the degree and adds one, but stores no sum. -/
def addNeighbour (g : InterferenceGraph) (u v : Register) : Option InterferenceGraph :=
  if u.isAbstract then do
    let neighbours ← g.adjList u
    let _ ← g.degrees u
    return { g with adjList := Function.update g.adjList u (some (addNew neighbours v)) }
  else some g

/-- `addEdge`. The set compares registers, `!=` their names. -/
def addEdge (g : InterferenceGraph) (u v : Register) : Option InterferenceGraph :=
  if (u, v) ∉ g.adjSet ∧ u.regName ≠ v.regName then do
    let g ← { g with adjSet := insert (v, u) (insert (u, v) g.adjSet) }.addNeighbour u v
    g.addNeighbour v u
  else some g

/-- A sequence of calls. -/
def addEdges (g : InterferenceGraph) (calls : List (Register × Register)) :
    Option InterferenceGraph :=
  calls.foldlM (fun g call => g.addEdge call.1 call.2) g

end InterferenceGraph

/-! ## What the tables say -/

variable {regs : List Register} {g g' : InterferenceGraph} {u v : Register}

/-- A set after `addAll`. -/
theorem mem_foldl_addNew {α : Type*} [DecidableEq α] {as s : List α} {a : α} :
    a ∈ as.foldl addNew s ↔ a ∈ s ∨ a ∈ as := by
  induction as generalizing s with
  | nil => simp
  | cons b as ih =>
    rw [List.foldl_cons, ih, mem_addNew, List.mem_cons, or_assoc]

/-- A set has no element twice. -/
theorem nodup_foldl_addNew {α : Type*} [DecidableEq α] {as s : List α} (hs : s.Nodup) :
    (as.foldl addNew s).Nodup := by
  induction as generalizing s with
  | nil => exact hs
  | cons b as ih => exact ih (nodup_addNew hs b)

/-- The vertices are the abstract registers of the instructions. -/
theorem mem_involved {body : List Instruction} {r : Register} :
    r ∈ involved body ↔ ∃ insn ∈ body, r ∈ insn.involved := by
  simp [involved, mem_foldl_addNew]

/-- Each of them once. -/
theorem nodup_involved (body : List Instruction) : (involved body).Nodup :=
  nodup_foldl_addNew List.nodup_nil

/-- No machine register is among them. -/
theorem isAbstract_of_mem_involved {body : List Instruction} {r : Register}
    (h : r ∈ involved body) : r.isAbstract = true := by
  obtain ⟨insn, -, hr⟩ := mem_involved.mp h
  exact (List.mem_filter.mp hr).2

namespace InterferenceGraph

/-- The edges, as a graph. -/
def simple (g : InterferenceGraph) : SimpleGraph Register :=
  SimpleGraph.fromRel fun u v => (u, v) ∈ g.adjSet

/-- The lists are those of the relation `R`, for the registers `regs` the graph was created with. -/
structure Lists (regs : List Register) (R : Register → Register → Prop) (g : InterferenceGraph) :
    Prop where
  listed : ∀ u, (∃ neighbours, g.adjList u = some neighbours) ↔ u ∈ regs
  counted : ∀ u ∈ regs, ∃ d, g.degrees u = some d
  adjList : ∀ u neighbours, g.adjList u = some neighbours → ∀ v, v ∈ neighbours ↔ R u v

/-- The tables agree on the edges, and nothing has a colour yet. -/
structure Adjacent (regs : List Register) (g : InterferenceGraph) : Prop where
  lists : Lists regs (fun u v => (u, v) ∈ g.adjSet) g
  symm : ∀ u v, (u, v) ∈ g.adjSet → (v, u) ∈ g.adjSet
  ne : ∀ u v, (u, v) ∈ g.adjSet → u ≠ v
  created : ∀ u v, (u, v) ∈ g.adjSet → v.isAbstract = true → v ∈ regs
  colors : g.colors = fun _ => none

/-- The graph of the set of edges has an edge where the set has one. -/
theorem Adjacent.simple_adj (h : Adjacent regs g) : g.simple.Adj u v ↔ (u, v) ∈ g.adjSet := by
  rw [simple, SimpleGraph.fromRel_adj]
  constructor
  · intro ⟨_, huv⟩
    exact huv.elim id (h.symm v u)
  · intro huv
    exact ⟨h.ne u v huv, .inl huv⟩

/-- The graph at the start has no edge. -/
theorem create_adjacent (regs : List Register) (moveList : Register → List Move) :
    Adjacent regs (create regs moveList) where
  lists :=
    { listed := fun u => by simp [create]
      counted := fun u hu => ⟨0, by simp [create, hu]⟩
      adjList := by
        intro u neighbours h
        simp only [create, Option.ite_none_right_eq_some, Option.some.injEq] at h
        simp [create, ← h.2] }
  symm := by simp [create]
  ne := by simp [create]
  created := by simp [create]
  colors := rfl

/-- One end of an edge. Where the call returns, an abstract register was created, and its list gets the
other end. -/
theorem Lists.addNeighbour {R : Register → Register → Prop} (h : Lists regs R g)
    (hregs : ∀ r ∈ regs, r.isAbstract = true) (hadd : g.addNeighbour u v = some g') :
    g'.adjSet = g.adjSet ∧ g'.colors = g.colors ∧ (u.isAbstract = true → u ∈ regs) ∧
      Lists regs (fun a b => R a b ∨ a = u ∧ b = v) g' := by
  unfold InterferenceGraph.addNeighbour at hadd
  split_ifs at hadd with hu
  · obtain ⟨us, hus, hadd⟩ := Option.bind_eq_some_iff.mp hadd
    obtain ⟨d, hd, hadd⟩ := Option.bind_eq_some_iff.mp hadd
    rw [← Option.some.inj hadd]
    refine ⟨rfl, rfl, fun _ => (h.listed u).mp ⟨us, hus⟩, ?_, h.counted, ?_⟩
    · intro a
      by_cases ha : a = u
      · subst ha
        simpa using (h.listed a).mp ⟨us, hus⟩
      · simpa [ha] using h.listed a
    · intro a neighbours hneighbours b
      dsimp only at hneighbours
      by_cases ha : a = u
      · subst ha
        rw [Function.update_self, Option.some.injEq] at hneighbours
        rw [← hneighbours, mem_addNew, h.adjList a us hus b]
        simp
      · rw [Function.update_of_ne ha] at hneighbours
        rw [h.adjList a neighbours hneighbours b]
        simp [ha]
  · rw [← Option.some.inj hadd]
    refine ⟨rfl, rfl, fun hu' => absurd hu' hu, h.listed, h.counted, ?_⟩
    intro a neighbours hneighbours b
    -- A machine register has no list.
    have hau : a ≠ u := by
      rintro rfl
      exact hu (hregs a ((h.listed a).mp ⟨neighbours, hneighbours⟩))
    rw [h.adjList a neighbours hneighbours b]
    simp [hau]

/-- The step: a call keeps the tables in agreement. -/
theorem Adjacent.addEdge (h : Adjacent regs g) (hregs : ∀ r ∈ regs, r.isAbstract = true)
    (hadd : g.addEdge u v = some g') : Adjacent regs g' := by
  unfold InterferenceGraph.addEdge at hadd
  split_ifs at hadd with hnew
  · obtain ⟨g₁, h₁, h₂⟩ := Option.bind_eq_some_iff.mp hadd
    have hlists : Lists regs (fun u v => (u, v) ∈ g.adjSet)
        { g with adjSet := insert (v, u) (insert (u, v) g.adjSet) } :=
      ⟨h.lists.listed, h.lists.counted, h.lists.adjList⟩
    -- the two sides are entered one after the other
    obtain ⟨hset₁, hcolors₁, hu, hlists₁⟩ := hlists.addNeighbour hregs h₁
    obtain ⟨hset₂, hcolors₂, hv, hlists₂⟩ := hlists₁.addNeighbour hregs h₂
    have hmem : ∀ a b, (a, b) ∈ g'.adjSet ↔ ((a, b) ∈ g.adjSet ∨ a = u ∧ b = v) ∨ a = v ∧ b = u := by
      intro a b
      rw [hset₂, hset₁]
      simp only [Finset.mem_insert, Prod.mk.injEq]
      tauto
    have huv : u ≠ v := fun huv => hnew.2 (congrArg Register.regName huv)
    constructor
    · exact ⟨hlists₂.listed, hlists₂.counted,
        fun a neighbours hn b => (hlists₂.adjList a neighbours hn b).trans (hmem a b).symm⟩
    · intro a b hab
      rw [hmem] at hab ⊢
      rcases hab with (hab | ⟨rfl, rfl⟩) | ⟨rfl, rfl⟩
      · exact .inl (.inl (h.symm a b hab))
      · exact .inr ⟨rfl, rfl⟩
      · exact .inl (.inr ⟨rfl, rfl⟩)
    · intro a b hab
      rcases (hmem a b).mp hab with (hab | ⟨rfl, rfl⟩) | ⟨rfl, rfl⟩
      · exact h.ne a b hab
      · exact huv
      · exact huv.symm
    · intro a b hab
      rcases (hmem a b).mp hab with (hab | ⟨rfl, rfl⟩) | ⟨rfl, rfl⟩
      · exact h.created a b hab
      · exact hv
      · exact hu
    · rw [hcolors₂, hcolors₁]
      exact h.colors
  · rw [← Option.some.inj hadd]
    exact h

/-- The run: so does any sequence of calls. -/
theorem Adjacent.addEdges {calls : List (Register × Register)} (h : Adjacent regs g)
    (hregs : ∀ r ∈ regs, r.isAbstract = true) (hadd : g.addEdges calls = some g') :
    Adjacent regs g' := by
  induction calls generalizing g with
  | nil =>
    rw [← Option.some.inj hadd]
    exact h
  | cons call calls ih =>
    rw [InterferenceGraph.addEdges, List.foldlM_cons] at hadd
    obtain ⟨g₁, h₁, hadd⟩ := Option.bind_eq_some_iff.mp hadd
    exact ih (h.addEdge hregs h₁) hadd

end InterferenceGraph

end Chaitin

end Jaek
