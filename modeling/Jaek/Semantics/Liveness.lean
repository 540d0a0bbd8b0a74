import Mathlib

/-!
# Liveness

Nodes read and write variables. A variable is live behind a node where some path from it comes to a node
that reads the variable, with no node in between writing it. These sets are the least solution of the
liveness equations (`isLeast_live`), and every set of values that starts below them and is kept below by
the equations stays below them.
-/

/-- Nodes with the variables each of them reads and writes. -/
structure FlowGraph (N R : Type*) where
  edge : N → N → Prop
  use : N → Set R
  «def» : N → Set R

namespace FlowGraph

variable {N R : Type*} (g : FlowGraph N R)

/-- What is live behind a node when `liveIn` is live in front of the nodes. -/
def behind (liveIn : N → Set R) (n : N) : Set R := {r | ∃ m, g.edge n m ∧ r ∈ liveIn m}

/-- What is live in front of a node when `out` is live behind it. -/
def before (n : N) (out : Set R) : Set R := g.use n ∪ (out \ g.def n)

/-- The liveness equations. -/
structure Solution (liveIn liveOut : N → Set R) : Prop where
  out_eq : ∀ n, liveOut n = g.behind liveIn n
  in_eq : ∀ n, liveIn n = g.before n (liveOut n)

/-- A path from the node comes to a read of `r` before it comes to a write. -/
inductive Live (r : R) : N → Prop
  | use {n : N} (h : r ∈ g.use n) : Live r n
  | pass {n m : N} (hdef : r ∉ g.def n) (hedge : g.edge n m) (h : Live r m) : Live r n

def liveIn (n : N) : Set R := {r | g.Live r n}

def liveOut (n : N) : Set R := g.behind g.liveIn n

variable {g} {n : N} {r : R}

theorem liveIn_eq (n : N) : g.liveIn n = g.before n (g.liveOut n) := by
  ext r
  constructor
  · intro h
    cases h with
    | use h => exact .inl h
    | pass hdef hedge h => exact .inr ⟨⟨_, hedge, h⟩, hdef⟩
  · rintro (h | ⟨⟨m, hedge, h⟩, hdef⟩)
    · exact .use h
    · exact .pass hdef hedge h

variable (g) in
theorem live_solution : g.Solution g.liveIn g.liveOut := ⟨fun _ => rfl, liveIn_eq⟩

/-- What is live is in every solution. -/
theorem Solution.liveIn_subset {I O : N → Set R} (h : g.Solution I O) (n : N) : g.liveIn n ⊆ I n := by
  intro r hr
  induction hr with
  | use huse =>
    rw [h.in_eq]
    exact .inl huse
  | pass hdef hedge _ ih =>
    rw [h.in_eq, h.out_eq]
    exact .inr ⟨⟨_, hedge, ih⟩, hdef⟩

theorem behind_mono {I J : N → Set R} (h : ∀ n, I n ⊆ J n) (n : N) : g.behind I n ⊆ g.behind J n :=
  fun _ ⟨m, hedge, hr⟩ => ⟨m, hedge, h m hr⟩

theorem before_mono (n : N) {out out' : Set R} (h : out ⊆ out') : g.before n out ⊆ g.before n out' :=
  Set.union_subset_union_right _ (Set.sdiff_subset_sdiff_left h)

variable (g) in
/-- Liveness is the least solution. -/
theorem isLeast_live :
    IsLeast {p : (N → Set R) × (N → Set R) | g.Solution p.1 p.2} (g.liveIn, g.liveOut) := by
  refine ⟨live_solution g, fun p hp => ⟨hp.liveIn_subset, fun n => ?_⟩⟩
  rw [hp.out_eq]
  exact behind_mono hp.liveIn_subset n

/-- A solution below the live sets is liveness. -/
theorem Solution.eq_live {I O : N → Set R} (h : g.Solution I O) (hle : ∀ n, I n ⊆ g.liveIn n) :
    I = g.liveIn ∧ O = g.liveOut := by
  have hin : I = g.liveIn := funext fun n => (hle n).antisymm (h.liveIn_subset n)
  refine ⟨hin, funext fun n => ?_⟩
  rw [h.out_eq, hin, liveOut]

/-- A path on which `r` is read at the end, and written by no node in between. -/
def ReadsAlong (g : FlowGraph N R) (r : R) (n : N) (between : List N) (last : N) : Prop :=
  (n :: (between ++ [last])).IsChain g.edge ∧ (∀ m ∈ between, r ∉ g.def m) ∧ r ∈ g.use last

theorem readsAlong_nil {last : N} : g.ReadsAlong r n [] last ↔ g.edge n last ∧ r ∈ g.use last := by
  simp [ReadsAlong]

theorem readsAlong_cons {m last : N} {between : List N} : g.ReadsAlong r n (m :: between) last ↔
    g.edge n m ∧ r ∉ g.def m ∧ g.ReadsAlong r m between last := by
  simp only [ReadsAlong, List.cons_append, List.isChain_cons_cons, List.forall_mem_cons]
  tauto

/-- A variable is live behind a node exactly when a path from it leads to a read with no write in
between. -/
theorem mem_liveOut_iff : r ∈ g.liveOut n ↔ ∃ between last, g.ReadsAlong r n between last := by
  constructor
  · rintro ⟨m, hedge, hlive⟩
    induction hlive generalizing n with
    | @use m huse => exact ⟨[], m, readsAlong_nil.mpr ⟨hedge, huse⟩⟩
    | @pass m _ hdef hedge' _ ih =>
      obtain ⟨between, last, hpath⟩ := ih hedge'
      exact ⟨m :: between, last, readsAlong_cons.mpr ⟨hedge, hdef, hpath⟩⟩
  · rintro ⟨between, last, hpath⟩
    induction between generalizing n with
    | nil =>
      obtain ⟨hedge, huse⟩ := readsAlong_nil.mp hpath
      exact ⟨last, hedge, .use huse⟩
    | cons m between ih =>
      obtain ⟨hedge, hdef, hpath⟩ := readsAlong_cons.mp hpath
      obtain ⟨m', hedge', hlive⟩ := ih hpath
      exact ⟨m, hedge, .pass hdef hedge' hlive⟩

end FlowGraph
