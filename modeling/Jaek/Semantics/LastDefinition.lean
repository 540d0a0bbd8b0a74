import Mathlib

/-!
# When a name was last defined

Nodes of a graph define names. Along a way through the graph each name has a time, the place of its last
definition, and names that are not defined there have time 0. `age` adds up such times over one way for each
name, chosen to define it if some way does. Exchanging a name for an older one lowers it.
-/

namespace LastDefinition

variable {N X : Type*} (leads : N → N → Prop) (defs : N → Finset X)

/-- The nodes of a way into a node, the last one first. -/
inductive Way : N → List N → Prop
  | nil (n : N) : Way n []
  | snoc {p n : N} {path : List N} (h : Way p path) (hedge : leads p n) : Way n (p :: path)

/-- Some way into the node defines the name. -/
inductive Assigned (x : X) : N → Prop
  | last {p n : N} (hedge : leads p n) (hdef : x ∈ defs p) : Assigned x n
  | before {p n : N} (hedge : leads p n) (h : Assigned x p) : Assigned x n

variable {leads defs} {p n : N} {path : List N} {x y : X}

theorem Assigned.exists_def (h : Assigned leads defs x n) : ∃ p m, leads p m ∧ x ∈ defs p := by
  induction h with
  | last hedge hdef => exact ⟨_, _, hedge, hdef⟩
  | before _ _ ih => exact ih

theorem not_assigned_of_leads (hedge : leads p n) (h : ¬ Assigned leads defs x n) :
    x ∉ defs p ∧ ¬ Assigned leads defs x p :=
  ⟨fun hdef => h (.last hedge hdef), fun hp => h (.before hedge hp)⟩

variable [DecidableEq X]

variable (defs) in
/-- The time at which a name was last defined along a way. -/
def time (x : X) : List N → ℕ
  | [] => 0
  | p :: path => if x ∈ defs p then path.length + 1 else time x path

theorem time_le (x : X) (path : List N) : time defs x path ≤ path.length := by
  induction path with
  | nil => exact le_rfl
  | cons p path ih =>
    rw [time, List.length_cons]
    split_ifs
    · exact le_rfl
    · omega

theorem assigned_of_time (hway : Way leads n path) (h : 0 < time defs x path) :
    Assigned leads defs x n := by
  induction hway with
  | nil => exact absurd h (Nat.lt_irrefl 0)
  | snoc _ hedge ih =>
    rw [time] at h
    split_ifs at h with hdef
    · exact .last hedge hdef
    · exact .before hedge (ih h)

theorem Assigned.exists_way (h : Assigned leads defs x n) :
    ∃ path, Way leads n path ∧ 0 < time defs x path := by
  induction h with
  | last hedge hdef =>
    refine ⟨_, .snoc (.nil _) hedge, ?_⟩
    rw [time, if_pos hdef]
    exact Nat.succ_pos _
  | before hedge _ ih =>
    obtain ⟨path, hway, hpos⟩ := ih
    refine ⟨_, hway.snoc hedge, ?_⟩
    rw [time]
    split_ifs
    · exact Nat.succ_pos _
    · exact hpos

variable (defs) in
/-- Along the way `y` was defined before `x`, or the way defines neither. -/
def Older (path : List N) (x y : X) : Prop :=
  time defs y path < time defs x path ∨ time defs x path = 0 ∧ time defs y path = 0

theorem Older.nil : Older defs [] x y := .inr ⟨rfl, rfl⟩

theorem Older.le (h : Older defs path x y) : time defs y path ≤ time defs x path := by
  rcases h with h | ⟨-, h⟩
  · exact h.le
  · exact h ▸ Nat.zero_le _

theorem Older.lt (h : Older defs path x y) (hx : 0 < time defs x path) :
    time defs y path < time defs x path :=
  h.resolve_right fun hzero => absurd hzero.1 hx.ne'

/-- A node that defines neither name keeps their order. -/
theorem Older.keep (h : Older defs path x y) (hx : x ∉ defs p) (hy : y ∉ defs p) :
    Older defs (p :: path) x y := by
  rw [Older, time, time, if_neg hx, if_neg hy]
  exact h

/-- A node that defines one of the names makes the other the older one. -/
theorem older_of_def (hx : x ∈ defs p) (hy : y ∉ defs p) : Older defs (p :: path) x y := by
  left
  rw [time, time, if_pos hx, if_neg hy]
  exact Nat.lt_succ_of_le (time_le y path)

/-- On no way into the node is the newer name defined: nor is the older one. -/
theorem not_assigned_of_older (h : ∀ path, Way leads n path → Older defs path x y)
    (hx : ¬ Assigned leads defs x n) : ¬ Assigned leads defs y n := by
  intro hy
  obtain ⟨path, hway, hpos⟩ := hy.exists_way
  exact hx (assigned_of_time hway (hpos.trans_le (h path hway).le))

/-! ## Ages -/

variable (leads defs) in
/-- A way into each node for each name; one that defines it, if there is one. -/
structure Chosen (way : N → X → List N) : Prop where
  isWay : ∀ n x, Way leads n (way n x)
  assigned : ∀ n x, Assigned leads defs x n → 0 < time defs x (way n x)

variable (leads defs) in
theorem exists_chosen : ∃ way : N → X → List N, Chosen leads defs way := by
  have hway : ∀ n x, ∃ path, Way leads n path ∧ (Assigned leads defs x n → 0 < time defs x path) := by
    intro n x
    by_cases h : Assigned leads defs x n
    · obtain ⟨path, hway, hpos⟩ := h.exists_way
      exact ⟨path, hway, fun _ => hpos⟩
    · exact ⟨[], .nil n, fun hx => absurd hx h⟩
  choose way hway hassigned using hway
  exact ⟨way, hway, hassigned⟩

variable (defs) in
/-- The times of a name at a node, over the ways chosen for the names of `names`. -/
def age (names : Finset X) (way : N → X → List N) (n : N) (x : X) : ℕ :=
  ∑ y ∈ names, time defs x (way n y)

/-- A name that is older on every way has a smaller age, if some way defines the newer one. -/
theorem Chosen.age_lt {names : Finset X} {way : N → X → List N} (hchosen : Chosen leads defs way)
    (h : ∀ path, Way leads n path → Older defs path x y) (hx : Assigned leads defs x n)
    (hmem : x ∈ names) : age defs names way n y < age defs names way n x := by
  refine Finset.sum_lt_sum (fun z _ => (h _ (hchosen.isWay n z)).le) ⟨x, hmem, ?_⟩
  exact (h _ (hchosen.isWay n x)).lt (hchosen.assigned n x hx)

end LastDefinition
