import Jaek.Assembly.LVA.Exact
import Jaek.Semantics.Liveness

/-!
# Live variable analysis

`LiveVariableAnalysis` takes random nodes off a worklist, computes what is live behind and in front of
the node, and puts its predecessors on the list when the latter changed. Its sets hold registers by
name.

A run keeps the values below the live sets, and the equations of the nodes off the list solved; each
step lowers `potential`. So every run ends, with the least solution (`analysis_least`).
-/

namespace Jaek

/-- What two registers are compared by. -/
inductive RegName
  | abstract (name : String)
  | x86 (name : x86Name)
deriving DecidableEq

/-- The name of a register. The sets of the analysis do not look at sizes. -/
def Register.regName : Register → RegName
  | .abstract name _ => .abstract name
  | .x86 name _ => .x86 name

/-- A set of registers. -/
def names (rs : List Register) : Finset RegName := (rs.map Register.regName).toFinset

/-- The names of a list of registers. -/
theorem mem_names {n : RegName} {rs : List Register} : n ∈ names rs ↔ ∃ r ∈ rs, r.regName = n := by
  simp [names]

namespace LVA

/-- The maps `inVals` and `outVals`, and the worklist. -/
structure LiveVariableAnalysis where
  inVals : ℕ → Option (Finset RegName)
  outVals : ℕ → Option (Finset RegName)
  worklist : List ℕ

namespace LiveVariableAnalysis

variable (cfg : CFG)

/-- The state in front of the loop: every node is on the list. -/
def start : LiveVariableAnalysis where
  inVals i := if i < cfg.nodes.length then some ∅ else none
  outVals _ := none
  worklist := List.range cfg.nodes.length

/-- The value of a node, where a node with none has the empty set. -/
def liveIn (s : LiveVariableAnalysis) (i : ℕ) : Finset RegName := (s.inVals i).getD ∅

/-- What is live behind a node, so far. -/
def liveOut (s : LiveVariableAnalysis) (i : ℕ) : Finset RegName := (s.outVals i).getD ∅

/-- The union over the successors. -/
def out (s : LiveVariableAnalysis) (i : ℕ) : Finset RegName :=
  (cfg.succs i).foldl (fun out j => out ∪ s.liveIn j) ∅

/-- What the instruction of a node leaves of `out`, with what it uses. -/
def newIn (i : ℕ) (out : Finset RegName) : Finset RegName :=
  match cfg.nodes[i]? with
  | some node => names node.insn.use ∪ (out \ names node.insn.def)
  | none => out

/-- Add to a set. -/
def add (worklist : List ℕ) (i : ℕ) : List ℕ := if i ∈ worklist then worklist else worklist ++ [i]

/-- The body of the loop, for the node picked. -/
def process (s : LiveVariableAnalysis) (i : ℕ) : LiveVariableAnalysis :=
  let worklist := s.worklist.erase i
  let out := s.out cfg i
  let outVals := Function.update s.outVals i (some out)
  let newIn := newIn cfg i out
  if some newIn ≠ s.inVals i then
    { inVals := Function.update s.inVals i (some newIn)
      outVals := outVals
      worklist := (cfg.preds i).foldl add worklist }
  else { inVals := s.inVals, outVals := outVals, worklist := worklist }

/-- The loop. In round `k` the random pick is the entry `picks k` of the list, counted round it. -/
def loop (picks : ℕ → ℕ) : ℕ → ℕ → LiveVariableAnalysis → Option LiveVariableAnalysis
  | 0, _, _ => none
  | fuel + 1, k, s =>
    match s.worklist with
    | [] => some s
    | first :: rest =>
      loop picks fuel (k + 1)
        (s.process cfg ((first :: rest).getD (picks k % (rest.length + 1)) first))

/-- `analysis`: the loop, until the list is empty. -/
def analysis (picks : ℕ → ℕ) (fuel : ℕ) : Option LiveVariableAnalysis := loop cfg picks fuel 0 (start cfg)

end LiveVariableAnalysis

/-- The graph as nodes with the names they read and write. -/
def CFG.flowGraph (cfg : CFG) : FlowGraph ℕ RegName where
  edge i j := j ∈ cfg.succs i
  use i := {r | ∃ node, cfg.nodes[i]? = some node ∧ r ∈ names node.insn.use}
  «def» i := {r | ∃ node, cfg.nodes[i]? = some node ∧ r ∈ names node.insn.def}

namespace LiveVariableAnalysis

variable {cfg : CFG} {s : LiveVariableAnalysis} {i j : ℕ} {r : RegName}

/-- The union over the successors. -/
theorem mem_foldl_union {js : List ℕ} {base : Finset RegName} :
    r ∈ js.foldl (fun out j => out ∪ s.liveIn j) base ↔ r ∈ base ∨ ∃ j ∈ js, r ∈ s.liveIn j := by
  induction js generalizing base with
  | nil => simp
  | cons j js ih => simp [ih, or_assoc]

/-! ## One step -/

/-- What the loop computes behind a node is the equation of the flow graph. -/
theorem coe_out (s : LiveVariableAnalysis) (i : ℕ) :
    (s.out cfg i : Set RegName) = cfg.flowGraph.behind (fun j => ↑(s.liveIn j)) i := by
  ext r
  simp [out, mem_foldl_union, FlowGraph.behind, CFG.flowGraph]

/-- What it computes before a node too. -/
theorem coe_newIn (hi : i < cfg.nodes.length) (out : Finset RegName) :
    (newIn cfg i out : Set RegName) = cfg.flowGraph.before i out := by
  ext r
  simp [newIn, List.getElem?_eq_getElem hi, FlowGraph.before, CFG.flowGraph]

/-- More live behind a node, more live before it. -/
theorem newIn_mono (i : ℕ) {out out' : Finset RegName} (h : out ⊆ out') :
    newIn cfg i out ⊆ newIn cfg i out' := by
  unfold newIn
  split
  · exact Finset.union_subset_union_right (Finset.sdiff_subset_sdiff h subset_rfl)
  · exact h

/-- More live before the successors, more live behind the node. -/
theorem out_mono {s' : LiveVariableAnalysis} (h : ∀ j, s.liveIn j ⊆ s'.liveIn j) (i : ℕ) :
    s.out cfg i ⊆ s'.out cfg i := by
  intro r hr
  simp only [out, mem_foldl_union, Finset.notMem_empty, false_or] at hr ⊢
  obtain ⟨j, hj, hr⟩ := hr
  exact ⟨j, hj, h j hr⟩

/-- Only the values of the successors matter. -/
theorem out_congr {s' : LiveVariableAnalysis} (h : ∀ j ∈ cfg.succs i, s'.liveIn j = s.liveIn j) :
    s'.out cfg i = s.out cfg i := by
  ext r
  simp only [out, mem_foldl_union, Finset.notMem_empty, false_or]
  refine exists_congr fun j => and_congr_right fun hj => ?_
  rw [h j hj]

/-- A node is put on the list once. -/
theorem mem_add {worklist : List ℕ} : j ∈ add worklist i ↔ j ∈ worklist ∨ j = i := by
  unfold add
  split_ifs with h
  · refine ⟨.inl, ?_⟩
    rintro (hj | rfl)
    · exact hj
    · exact h
  · simp

/-- So the list has none twice. -/
theorem nodup_add {worklist : List ℕ} (h : worklist.Nodup) : (add worklist i).Nodup := by
  unfold add
  split_ifs with hi
  · exact h
  · simpa using h.concat hi

/-- The same for several nodes. -/
theorem mem_foldl_add {is worklist : List ℕ} : j ∈ is.foldl add worklist ↔ j ∈ worklist ∨ j ∈ is := by
  induction is generalizing worklist with
  | nil => simp
  | cons i is ih => rw [List.foldl_cons, ih, mem_add, List.mem_cons, or_assoc]

/-- And they stay single. -/
theorem nodup_foldl_add {is worklist : List ℕ} (h : worklist.Nodup) : (is.foldl add worklist).Nodup := by
  induction is generalizing worklist with
  | nil => exact h
  | cons i is ih => exact ih (nodup_add h)

/-- What a run keeps. The values grow, stay below the live sets, and satisfy the equations of the nodes
off the list. -/
structure Inv (cfg : CFG) (s : LiveVariableAnalysis) : Prop where
  isSome : ∀ i, (s.inVals i).isSome ↔ i < cfg.nodes.length
  nodes : ∀ i ∈ s.worklist, i < cfg.nodes.length
  nodup : s.worklist.Nodup
  grows : ∀ i, i < cfg.nodes.length → s.liveIn i ⊆ newIn cfg i (s.out cfg i)
  live : ∀ i, (s.liveIn i : Set RegName) ⊆ cfg.flowGraph.liveIn i
  out_eq : ∀ i, i < cfg.nodes.length → i ∉ s.worklist → s.outVals i = some (s.out cfg i)
  in_eq : ∀ i, i < cfg.nodes.length → i ∉ s.worklist → s.liveIn i = newIn cfg i (s.out cfg i)
  outside : ∀ i, cfg.nodes.length ≤ i → s.outVals i = none

/-- The invariant holds in front of the loop. -/
theorem inv_start : Inv cfg (start cfg) := by
  have hin : ∀ i, (start cfg).liveIn i = ∅ := by
    intro i
    simp only [liveIn, start]
    split_ifs <;> rfl
  refine ⟨fun i => ?_, ?_, List.nodup_range, ?_, ?_, ?_, ?_, fun _ _ => rfl⟩
  · simp only [start]
    split_ifs with hi <;> simp [hi]
  · exact fun i hi => List.mem_range.mp hi
  · intro i _
    rw [hin]
    exact Finset.empty_subset _
  · intro i
    simp [hin]
  · exact fun i hi hlist => absurd (List.mem_range.mpr hi) hlist
  · exact fun i hi hlist => absurd (List.mem_range.mpr hi) hlist

/-- The step where the value stays. -/
theorem process_of_eq (hsame : some (newIn cfg i (s.out cfg i)) = s.inVals i) : s.process cfg i =
    { inVals := s.inVals
      outVals := Function.update s.outVals i (some (s.out cfg i))
      worklist := s.worklist.erase i } := if_neg (not_not.mpr hsame)

/-- The step where the value changes. -/
theorem process_of_ne (hne : some (newIn cfg i (s.out cfg i)) ≠ s.inVals i) : s.process cfg i =
    { inVals := Function.update s.inVals i (some (newIn cfg i (s.out cfg i)))
      outVals := Function.update s.outVals i (some (s.out cfg i))
      worklist := (cfg.preds i).foldl add (s.worklist.erase i) } := if_pos hne

/-- The value of the node is what was computed, also where it is not stored. -/
theorem liveIn_process (j : ℕ) : (s.process cfg i).liveIn j =
    if j = i then newIn cfg i (s.out cfg i) else s.liveIn j := by
  by_cases hsame : some (newIn cfg i (s.out cfg i)) = s.inVals i
  · rw [process_of_eq hsame]
    split_ifs with hji
    · rw [liveIn, hji, ← hsame]
      rfl
    · rfl
  · rw [process_of_ne hsame]
    split_ifs with hji
    · simp [liveIn, hji]
    · simp [liveIn, hji]

/-- Processing a node stores what is live behind it. -/
theorem outVals_process : (s.process cfg i).outVals = Function.update s.outVals i (some (s.out cfg i)) := by
  by_cases hsame : some (newIn cfg i (s.out cfg i)) = s.inVals i
  · rw [process_of_eq hsame]
  · rw [process_of_ne hsame]

section Process

variable (h : Inv cfg s) (hi : i ∈ s.worklist)
include h hi

/-- No value is lost or made up. -/
theorem isSome_process (j : ℕ) : ((s.process cfg i).inVals j).isSome ↔ j < cfg.nodes.length := by
  rw [← h.isSome j]
  by_cases hsame : some (newIn cfg i (s.out cfg i)) = s.inVals i
  · rw [process_of_eq hsame]
  · rw [process_of_ne hsame]
    by_cases hji : j = i
    · subst hji
      simpa using (h.isSome j).mpr (h.nodes j hi)
    · simp [hji]

/-- The test of the loop compares the sets. -/
theorem inVals_eq_iff : some (newIn cfg i (s.out cfg i)) = s.inVals i ↔
    newIn cfg i (s.out cfg i) = s.liveIn i := by
  obtain ⟨v, hv⟩ := Option.isSome_iff_exists.mp ((h.isSome i).mpr (h.nodes i hi))
  rw [liveIn, hv]
  simp

/-- The list afterwards: without the node, and with its predecessors when its value has changed. -/
theorem mem_process : j ∈ (s.process cfg i).worklist ↔
    (j ∈ s.worklist ∧ j ≠ i) ∨ (newIn cfg i (s.out cfg i) ≠ s.liveIn i ∧ i ∈ cfg.succs j) := by
  simp only [ne_eq, ← inVals_eq_iff h hi]
  by_cases hsame : some (newIn cfg i (s.out cfg i)) = s.inVals i
  · rw [process_of_eq hsame, h.nodup.mem_erase_iff]
    tauto
  · rw [process_of_ne hsame, mem_foldl_add, h.nodup.mem_erase_iff, CFG.mem_preds]
    tauto

omit hi in
/-- No node is on it twice. -/
theorem nodup_process : (s.process cfg i).worklist.Nodup := by
  by_cases hsame : some (newIn cfg i (s.out cfg i)) = s.inVals i
  · rw [process_of_eq hsame]
    exact h.nodup.erase i
  · rw [process_of_ne hsame]
    exact nodup_foldl_add (h.nodup.erase i)

/-- The values only grow. -/
theorem liveIn_subset_process (j : ℕ) : s.liveIn j ⊆ (s.process cfg i).liveIn j := by
  rw [liveIn_process]
  split_ifs with hj
  · subst hj
    exact h.grows j (h.nodes j hi)
  · exact subset_rfl

/-- A node off the new list has the union it had before. -/
theorem out_process (hj : j ∉ (s.process cfg i).worklist) : (s.process cfg i).out cfg j = s.out cfg j := by
  rw [mem_process h hi, not_or] at hj
  refine out_congr fun m hm => ?_
  rw [liveIn_process]
  split_ifs with hmi
  · subst hmi
    by_contra hne
    exact hj.2 ⟨hne, hm⟩
  · rfl

/-- A step keeps the invariant. -/
theorem inv_process : Inv cfg (s.process cfg i) := by
  have hilt := h.nodes i hi
  refine ⟨isSome_process h hi, ?_, nodup_process h, ?_, ?_, ?_, ?_, ?_⟩
  · intro j hj
    rcases (mem_process h hi).mp hj with ⟨hj, -⟩ | ⟨-, hj⟩
    · exact h.nodes j hj
    · by_contra hlt
      simp [CFG.succs, List.getElem?_eq_none (Nat.le_of_not_lt hlt)] at hj
  · intro j hj
    have hout : newIn cfg j (s.out cfg j) ⊆ newIn cfg j ((s.process cfg i).out cfg j) :=
      newIn_mono j (out_mono (liveIn_subset_process h hi) j)
    rw [liveIn_process]
    split_ifs with hji
    · subst hji
      exact hout
    · exact (h.grows j hj).trans hout
  · intro j
    rw [liveIn_process]
    split_ifs with hji
    · subst hji
      rw [coe_newIn hilt, coe_out, FlowGraph.liveIn_eq]
      exact FlowGraph.before_mono _ (FlowGraph.behind_mono h.live _)
    · exact h.live j
  · intro j hj hlist
    rw [out_process h hi hlist, outVals_process]
    by_cases hji : j = i
    · subst hji
      simp
    · have hj' : j ∉ s.worklist := fun hmem => hlist ((mem_process h hi).mpr (.inl ⟨hmem, hji⟩))
      rw [Function.update_of_ne hji, h.out_eq j hj hj']
  · intro j hj hlist
    rw [out_process h hi hlist, liveIn_process]
    split_ifs with hji
    · rw [hji]
    · have hj' : j ∉ s.worklist := fun hmem => hlist ((mem_process h hi).mpr (.inl ⟨hmem, hji⟩))
      exact h.in_eq j hj hj'
  · intro j hj
    rw [outVals_process, Function.update_of_ne (by omega), h.outside j hj]

end Process

/-! ## A run -/

/-- The names the instructions use. -/
def used (cfg : CFG) : Finset RegName :=
  (List.range cfg.nodes.length).toFinset.biUnion fun i => newIn cfg i ∅

/-- The least solution has no other registers than the instructions use. -/
theorem liveIn_subset_used (i : ℕ) : cfg.flowGraph.liveIn i ⊆ (used cfg : Set RegName) := by
  intro r hr
  induction hr with
  | @use i h =>
    obtain ⟨node, hnode, hr⟩ := h
    have hi : i < cfg.nodes.length := (List.getElem?_eq_some_iff.mp hnode).1
    simp only [used, Finset.coe_biUnion, Set.mem_iUnion]
    exact ⟨i, by simpa using hi, by simp [newIn, hnode, hr]⟩
  | pass _ _ _ ih => exact ih

/-- The length of the list, and how far the values are from their bound. -/
def potential (cfg : CFG) (s : LiveVariableAnalysis) : ℕ :=
  s.worklist.length +
    (cfg.nodes.length + 1) * ∑ i ∈ Finset.range cfg.nodes.length, ((used cfg).card - (s.liveIn i).card)

/-- So the values cannot grow beyond these. -/
theorem Inv.card_le (h : Inv cfg s) (i : ℕ) : (s.liveIn i).card ≤ (used cfg).card :=
  Finset.card_le_card (Finset.coe_subset.mp ((h.live i).trans (liveIn_subset_used i)))

/-- The list is no longer than the nodes. -/
theorem Inv.length_le (h : Inv cfg s) : s.worklist.length ≤ cfg.nodes.length := by
  have hsub : s.worklist ⊆ List.range cfg.nodes.length := fun i hi => List.mem_range.mpr (h.nodes i hi)
  simpa using (h.nodup.subperm hsub).length_le

/-- A step lowers the potential: it shortens the list, or a value grows. -/
theorem potential_process (h : Inv cfg s) (hi : i ∈ s.worklist) :
    potential cfg (s.process cfg i) < potential cfg s := by
  have h' := inv_process h hi
  have hcard : ∀ j, (used cfg).card - ((s.process cfg i).liveIn j).card ≤
      (used cfg).card - (s.liveIn j).card := fun j =>
    Nat.sub_le_sub_left (Finset.card_le_card (liveIn_subset_process h hi j)) _
  unfold potential
  by_cases hne : newIn cfg i (s.out cfg i) = s.liveIn i
  · have hlength : (s.process cfg i).worklist.length < s.worklist.length := by
      have hsub : (s.process cfg i).worklist ⊆ s.worklist.erase i := by
        intro j hj
        rcases (mem_process h hi).mp hj with ⟨hj, hji⟩ | ⟨hgrown, -⟩
        · exact (h.nodup.mem_erase_iff).mpr ⟨hji, hj⟩
        · exact absurd hne hgrown
      have hle := ((nodup_process h).subperm hsub).length_le
      rw [List.length_erase_of_mem hi] at hle
      have hpos := List.length_pos_of_mem hi
      omega
    exact Nat.add_lt_add_of_lt_of_le hlength
      (Nat.mul_le_mul_left _ (Finset.sum_le_sum fun j _ => hcard j))
  · have hgrown : (s.liveIn i).card < ((s.process cfg i).liveIn i).card := by
      refine Finset.card_lt_card (Finset.ssubset_iff_subset_ne.mpr ⟨liveIn_subset_process h hi i, ?_⟩)
      rw [liveIn_process, if_pos rfl]
      exact Ne.symm hne
    have hlt : ∑ j ∈ Finset.range cfg.nodes.length, ((used cfg).card - ((s.process cfg i).liveIn j).card) <
        ∑ j ∈ Finset.range cfg.nodes.length, ((used cfg).card - (s.liveIn j).card) := by
      refine Finset.sum_lt_sum (fun j _ => hcard j) ⟨i, Finset.mem_range.mpr (h.nodes i hi), ?_⟩
      have hbound := h'.card_le i
      omega
    have hlength := h'.length_le
    have hmul := Nat.mul_le_mul_left (cfg.nodes.length + 1) (Nat.succ_le_of_lt hlt)
    rw [Nat.succ_eq_add_one, Nat.mul_add, mul_one] at hmul
    omega

/-- With more fuel than the potential a run ends. -/
theorem loop_returns (picks : ℕ → ℕ) {fuel : ℕ} (k : ℕ) (h : Inv cfg s) (hfuel : potential cfg s < fuel) :
    ∃ s', loop cfg picks fuel k s = some s' ∧ Inv cfg s' ∧ s'.worklist = [] := by
  induction fuel generalizing k s with
  | zero => omega
  | succ fuel ih =>
    rw [loop]
    split
    · exact ⟨s, rfl, h, ‹_›⟩
    · rename_i first rest hlist
      generalize hpick : (first :: rest).getD (picks k % (rest.length + 1)) first = i
      have hi : i ∈ s.worklist := by
        have hlt : picks k % (rest.length + 1) < (first :: rest).length := Nat.mod_lt _ (Nat.succ_pos _)
        rw [List.getD_eq_getElem _ _ hlt] at hpick
        rw [hlist, ← hpick]
        exact List.getElem_mem hlt
      have hless := potential_process h hi
      exact ih (k + 1) (inv_process h hi) (by omega)

/-- When the list is empty the values are the live sets. -/
theorem Inv.eq_live (h : Inv cfg s) (hlist : s.worklist = []) :
    (fun i => (s.liveIn i : Set RegName)) = cfg.flowGraph.liveIn ∧
      (fun i => (s.liveOut i : Set RegName)) = cfg.flowGraph.liveOut := by
  have hempty : ∀ i, cfg.nodes.length ≤ i → s.liveIn i = ∅ := by
    intro i hi
    have hnone : s.inVals i = none := by
      rw [← Option.not_isSome_iff_eq_none, h.isSome]
      omega
    rw [liveIn, hnone]
    rfl
  have hsol : cfg.flowGraph.Solution (fun i => (s.liveIn i : Set RegName))
      (fun i => (s.liveOut i : Set RegName)) := by
    constructor
    · intro i
      rw [← coe_out, Finset.coe_inj]
      rcases Nat.lt_or_ge i cfg.nodes.length with hi | hi
      · rw [liveOut, h.out_eq i hi (by simp [hlist])]
        rfl
      · rw [liveOut, h.outside i hi, out, CFG.succs, List.getElem?_eq_none hi]
        rfl
    · intro i
      rcases Nat.lt_or_ge i cfg.nodes.length with hi | hi
      · rw [← coe_newIn hi, Finset.coe_inj, h.in_eq i hi (by simp [hlist]), liveOut,
          h.out_eq i hi (by simp [hlist])]
        rfl
      · rw [hempty i hi, liveOut, h.outside i hi]
        simp [FlowGraph.before, CFG.flowGraph, List.getElem?_eq_none hi]
  exact hsol.eq_live h.live

/-- Every run ends, whatever is picked. It has a set for every node, the sets are the least solution of the
liveness equations, and `liveOut` of a node has a register exactly when a path from the node leads to a
use of it with no definition in between. -/
theorem analysis_least (cfg : CFG) : ∃ bound, ∀ picks, ∀ fuel ≥ bound, ∃ s,
    analysis cfg picks fuel = some s ∧
    (∀ i < cfg.nodes.length, (s.inVals i).isSome ∧ (s.outVals i).isSome) ∧
    IsLeast {p : (ℕ → Set RegName) × (ℕ → Set RegName) | cfg.flowGraph.Solution p.1 p.2}
      (fun i => ↑(s.liveIn i), fun i => ↑(s.liveOut i)) ∧
    ∀ i r, r ∈ s.liveOut i ↔ ∃ between last, cfg.flowGraph.ReadsAlong r i between last := by
  refine ⟨potential cfg (start cfg) + 1, fun picks fuel hfuel => ?_⟩
  obtain ⟨s, hs, hinv, hlist⟩ := loop_returns picks 0 (inv_start : Inv cfg (start cfg)) (Nat.lt_of_succ_le hfuel)
  obtain ⟨hin, hout⟩ := hinv.eq_live hlist
  refine ⟨s, hs, fun i hi => ⟨(hinv.isSome i).mpr hi, ?_⟩, ?_, fun i r => ?_⟩
  · rw [hinv.out_eq i hi (by simp [hlist])]
    rfl
  · rw [hin, hout]
    exact cfg.flowGraph.isLeast_live
  · rw [← FlowGraph.mem_liveOut_iff, ← congrFun hout i, Finset.mem_coe]

end LiveVariableAnalysis

end LVA

end Jaek
