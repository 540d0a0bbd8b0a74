import Jaek.Assembly.LVA.LiveVariableAnalysis
import Jaek.Assembly.Ralloc.InterferenceGraph

/-!
# Liveness and interference of registers

The first half of `chitLoop`: `LiveVariableAnalysis`, and the calls of `addEdge`. Here the sets are those of
the source, in which a register is found by its hash and has a size. Only `-` compares by `equals`, where
the set that is taken away has one element and is no hash set.

The live sets found contain those of the flow graph on registers (`Analysed.liveOut`), and each register
that an instruction defines has an edge to those live behind it (`build_spec`).
-/

namespace Jaek

namespace Chaitin

/-- Whether `-` takes a register out. -/
def removes (t : List Register) (r : Register) : Bool :=
  match t with
  | [r'] => r.regName = r'.regName
  | _ => r ∈ t

/-- `minus` of two sets of registers, as they are compared in the source. -/
def minus (s t : List Register) : List Register := s.filter (!removes t ·)

/-- `union` of two sets. -/
def union (s t : List Register) : List Register := (s ++ t).foldl addNew []

/-- The maps `inVals` and `outVals`, and the worklist. -/
structure LiveVariableAnalysis where
  inVals : ℕ → Option (List Register)
  outVals : ℕ → Option (List Register)
  worklist : List ℕ

namespace LiveVariableAnalysis

variable (cfg : LVA.CFG)

/-- The state of the analysis in front of its loop. -/
def start : LiveVariableAnalysis where
  inVals i := if i < cfg.nodes.length then some [] else none
  outVals _ := none
  worklist := List.range cfg.nodes.length

/-- The value of a node, where a node with none has the empty set. -/
def liveIn (s : LiveVariableAnalysis) (i : ℕ) : List Register := (s.inVals i).getD []

/-- The union over the successors. -/
def out (s : LiveVariableAnalysis) (i : ℕ) : List Register :=
  (cfg.succs i).foldl (fun out j => union out (s.liveIn j)) []

/-- What is live before a node, from what is live behind it. -/
def newIn (i : ℕ) (out : List Register) : List Register :=
  match cfg.nodes[i]? with
  | some node => union node.insn.use (minus out node.insn.def)
  | none => out

/-- Equality of sets. -/
def sameSet (s t : List Register) : Bool := s ⊆ t ∧ t ⊆ s

/-- The body of the loop, for the node picked. -/
def process (s : LiveVariableAnalysis) (i : ℕ) : LiveVariableAnalysis :=
  let out := s.out cfg i
  let outVals := Function.update s.outVals i (some out)
  let newIn := newIn cfg i out
  if (s.inVals i).any (sameSet newIn) then
    { inVals := s.inVals, outVals := outVals, worklist := s.worklist.erase i }
  else
    { inVals := Function.update s.inVals i (some newIn)
      outVals := outVals
      worklist := (cfg.preds i).foldl addNew (s.worklist.erase i) }

/-- The pick is random. -/
inductive Step : LiveVariableAnalysis → LiveVariableAnalysis → Prop
  | pick {s : LiveVariableAnalysis} {i : ℕ} : i ∈ s.worklist → Step s (s.process cfg i)

/-- The analysis has ended. -/
structure Analysed (s : LiveVariableAnalysis) : Prop where
  reaches : Relation.ReflTransGen (Step cfg) (start cfg) s
  worklist : s.worklist = []

end LiveVariableAnalysis

/-- The graph as nodes with the registers they read, and those they take out of a set. -/
def registerGraph (cfg : LVA.CFG) : FlowGraph ℕ Register where
  edge i j := j ∈ cfg.succs i
  use i := {r | ∃ node, cfg.nodes[i]? = some node ∧ r ∈ node.insn.use}
  «def» i := {r | ∃ node, cfg.nodes[i]? = some node ∧ removes node.insn.def r = true}

/-- The move that a node makes, with the node for its identity. -/
def moveOf (i : ℕ) : Instruction → Option Move
  | .MOV (.registerDest dest) (.registerSrc src) => some ⟨i, dest, src⟩
  | _ => none

/-- Enter a move for each of the registers. -/
def InterferenceGraph.addMove (g : InterferenceGraph) (regs : List Register) (m : Move) :
    InterferenceGraph :=
  { g with moveList := fun reg => if reg ∈ regs then addNew (g.moveList reg) m else g.moveList reg }

/-- What counts as live behind an instruction. The source of a move does not. -/
def liveBehind (insn : Instruction) (liveOut : List Register) : List Register :=
  union (if (moveOf 0 insn).isSome then minus liveOut insn.use else liveOut) insn.def

/-- Procedure Build for a node, with `worklistMoves`. -/
def buildNode (lva : LiveVariableAnalysis) (b : InterferenceGraph × List Move)
    (node : LVA.CFGNode × ℕ) : Option (InterferenceGraph × List Move) := do
  let insn := node.1.insn
  let liveOut ← lva.outVals node.2
  let b := match moveOf node.2 insn with
    | some move => (b.1.addMove (union insn.def insn.use) move, b.2 ++ [move])
    | none => b
  let g ← b.1.addEdges (insn.def.flatMap fun d => (liveBehind insn liveOut).map fun l => (l, d))
  return (g, b.2)

/-- `build`: the interference graph and the moves of a body. -/
def build (cfg : LVA.CFG) (lva : LiveVariableAnalysis) (body : List Instruction) :
    Option (InterferenceGraph × List Move) :=
  cfg.nodes.zipIdx.foldlM (buildNode lva) (.create (involved body) fun _ => [], [])

/-! ## The analysis -/

variable {cfg : LVA.CFG} {s t : List Register} {r : Register}

/-- A difference. -/
@[simp]
theorem mem_minus : r ∈ minus s t ↔ r ∈ s ∧ removes t r = false := by
  simp [minus]

/-- A union. -/
@[simp]
theorem mem_union : r ∈ union s t ↔ r ∈ s ∨ r ∈ t := by
  simp [union, mem_foldl_addNew]

/-- Where a register is taken out, one of its name is in the set. -/
theorem mem_names_of_removes (h : removes t r = true) : r.regName ∈ names t := by
  unfold removes at h
  split at h
  · simpa [names] using h
  · simpa [names] using ⟨r, of_decide_eq_true h, rfl⟩

namespace LiveVariableAnalysis

variable {lva lva' : LiveVariableAnalysis} {i j : ℕ}

/-- The union over the successors. -/
theorem mem_foldl_union {js : List ℕ} {base : List Register} :
    r ∈ js.foldl (fun out j => union out (lva.liveIn j)) base ↔
      r ∈ base ∨ ∃ j ∈ js, r ∈ lva.liveIn j := by
  induction js generalizing base with
  | nil => simp
  | cons j js ih => simp [ih, or_assoc]

/-- What is live behind a node is live before a successor. -/
theorem mem_out : r ∈ lva.out cfg i ↔ ∃ j ∈ cfg.succs i, r ∈ lva.liveIn j := by
  simp [out, mem_foldl_union]

/-- A node off the list has the values that follow from those of its successors. -/
def Solved (cfg : LVA.CFG) (lva : LiveVariableAnalysis) : Prop :=
  ∀ i < cfg.nodes.length, i ∉ lva.worklist →
    (∃ out, lva.outVals i = some out ∧ ∀ r, r ∈ out ↔ r ∈ lva.out cfg i) ∧
      ∀ r, r ∈ lva.liveIn i ↔ r ∈ newIn cfg i (lva.out cfg i)

/-- The order of the list does not matter. -/
theorem mem_newIn_congr {out out' : List Register} (h : ∀ r, r ∈ out ↔ r ∈ out') :
    r ∈ newIn cfg i out ↔ r ∈ newIn cfg i out' := by
  unfold newIn
  split
  · simp [h]
  · exact h r

/-- Processing a node stores what is live behind it. -/
theorem outVals_process : (lva.process cfg i).outVals =
    Function.update lva.outVals i (some (lva.out cfg i)) := by
  simp only [process]
  split_ifs <;> rfl

/-- The comparison of sets does not look at their order. -/
theorem sameSet_iff : sameSet s t = true ↔ ∀ r, r ∈ s ↔ r ∈ t := by
  simp only [sameSet, decide_eq_true_iff, List.subset_def, ← forall_and, ← iff_iff_implies_and_implies]

/-- The value of the node is what was computed, also where it is not stored. -/
theorem mem_liveIn_process : r ∈ (lva.process cfg i).liveIn j ↔
    if j = i then r ∈ newIn cfg i (lva.out cfg i) else r ∈ lva.liveIn j := by
  simp only [process]
  split_ifs with hsame hj hj
  · obtain ⟨old, hold, hset⟩ := (Option.any_eq_true _ _).mp hsame
    rw [sameSet_iff] at hset
    simp only [liveIn, hj, hold, Option.getD_some]
    exact (hset r).symm
  · rfl
  · simp [liveIn, hj]
  · simp [liveIn, hj]

/-- A node that is off the list after a step was off it before, or is the one picked, and no value in
front of its successors has changed. -/
theorem of_not_mem_process (hj : j ∉ (lva.process cfg i).worklist) :
    (j ∉ lva.worklist ∨ j = i) ∧
      ∀ r, r ∈ (lva.process cfg i).out cfg j ↔ r ∈ lva.out cfg j := by
  simp only [process] at hj
  split_ifs at hj with hsame
  · refine ⟨?_, fun r => ?_⟩
    · by_cases hji : j = i
      · exact .inr hji
      · exact .inl fun hmem => hj ((List.mem_erase_of_ne hji).mpr hmem)
    · obtain ⟨old, hold, hset⟩ := (Option.any_eq_true _ _).mp hsame
      simp only [mem_out, mem_liveIn_process]
      refine exists_congr fun m => and_congr_right fun _ => ?_
      split_ifs with hmi
      · rw [sameSet_iff] at hset
        simp only [liveIn, hmi, hold, Option.getD_some]
        exact hset r
      · rfl
  · rw [mem_foldl_addNew, not_or, LVA.CFG.mem_preds] at hj
    refine ⟨?_, fun r => ?_⟩
    · by_cases hji : j = i
      · exact .inr hji
      · exact .inl fun hmem => hj.1 ((List.mem_erase_of_ne hji).mpr hmem)
    · simp only [mem_out, mem_liveIn_process]
      refine exists_congr fun m => and_congr_right fun hm => ?_
      rw [if_neg]
      rintro rfl
      exact hj.2 hm

/-- The step. -/
theorem Solved.process (h : Solved cfg lva) : Solved cfg (lva.process cfg i) := by
  intro j hj hlist
  obtain ⟨hold, hout⟩ := of_not_mem_process hlist
  by_cases hji : j = i
  · subst hji
    refine ⟨⟨lva.out cfg j, by simp [outVals_process], fun r => (hout r).symm⟩, fun r => ?_⟩
    rw [mem_liveIn_process, if_pos rfl]
    exact mem_newIn_congr fun r => (hout r).symm
  · obtain ⟨⟨out, hval, hmem⟩, hin⟩ := h j hj (hold.resolve_right hji)
    refine ⟨⟨out, by rwa [outVals_process, Function.update_of_ne hji], fun r => ?_⟩, fun r => ?_⟩
    · rw [hmem, hout]
    · rw [mem_liveIn_process, if_neg hji, hin]
      exact mem_newIn_congr fun r => (hout r).symm

/-- The run. -/
theorem Analysed.solved (h : Analysed cfg lva) : Solved cfg lva := by
  have hstart : Solved cfg (start cfg) := fun i hi hlist => absurd (List.mem_range.mpr hi) hlist
  have hrun := h.reaches
  clear h
  induction hrun with
  | refl => exact hstart
  | tail _ hstep ih =>
    cases hstep with
    | pick => exact ih.process

/-- What is live is in the values. -/
theorem Analysed.liveIn (h : Analysed cfg lva) (hlive : (registerGraph cfg).Live r i) :
    r ∈ lva.liveIn i := by
  induction hlive with
  | @use i huse =>
    obtain ⟨node, hnode, hr⟩ := huse
    rw [(h.solved i (List.getElem?_eq_some_iff.mp hnode).1 (by simp [h.worklist])).2]
    simp [newIn, hnode, hr]
  | @pass i j hdef hedge _ ih =>
    obtain ⟨node, hnode⟩ : ∃ node, cfg.nodes[i]? = some node := by
      by_contra hnone
      rw [← Option.isSome_iff_exists, Option.not_isSome_iff_eq_none] at hnone
      simp [registerGraph, LVA.CFG.succs, hnone] at hedge
    have hkept : removes node.insn.def r = false := by
      rw [← Bool.not_eq_true]
      exact fun hr => hdef ⟨node, hnode, hr⟩
    rw [(h.solved i (List.getElem?_eq_some_iff.mp hnode).1 (by simp [h.worklist])).2]
    simp only [newIn, hnode, mem_union, mem_minus]
    exact .inr ⟨mem_out.mpr ⟨j, hedge, ih⟩, hkept⟩

/-- When the analysis has ended, everything live behind a node is in its set. -/
theorem Analysed.liveOut (h : Analysed cfg lva) (hi : i < cfg.nodes.length) :
    ∃ out, lva.outVals i = some out ∧ ∀ r ∈ (registerGraph cfg).liveOut i, r ∈ out := by
  obtain ⟨⟨out, hout, hmem⟩, -⟩ := h.solved i hi (by simp [h.worklist])
  refine ⟨out, hout, fun r ⟨j, hedge, hlive⟩ => ?_⟩
  rw [hmem, mem_out]
  exact ⟨j, hedge, h.liveIn hlive⟩

end LiveVariableAnalysis

/-! ## The calls of `addEdge` -/

variable {g g' : InterferenceGraph} {u v : Register} {body : List Instruction}
  {lva : LiveVariableAnalysis}

namespace InterferenceGraph

/-- A neighbour changes the adjacency lists only. -/
theorem addNeighbour_frame (h : g.addNeighbour u v = some g') :
    g'.adjSet = g.adjSet ∧ g'.degrees = g.degrees ∧ g'.moveList = g.moveList := by
  unfold addNeighbour at h
  split_ifs at h
  · obtain ⟨us, -, h⟩ := Option.bind_eq_some_iff.mp h
    obtain ⟨d, -, h⟩ := Option.bind_eq_some_iff.mp h
    rw [← Option.some.inj h]
    exact ⟨rfl, rfl, rfl⟩
  · rw [← Option.some.inj h]
    exact ⟨rfl, rfl, rfl⟩

/-- A call leaves the degrees and the moves alone, and draws its edge. -/
theorem addEdge_frame (h : g.addEdge u v = some g') :
    g'.degrees = g.degrees ∧ g'.moveList = g.moveList ∧ g.adjSet ⊆ g'.adjSet ∧
      (u.regName ≠ v.regName → (u, v) ∈ g'.adjSet) := by
  unfold addEdge at h
  split_ifs at h with hnew
  · obtain ⟨g₁, h₁, h₂⟩ := Option.bind_eq_some_iff.mp h
    obtain ⟨hset₁, hdegrees₁, hmoves₁⟩ := addNeighbour_frame h₁
    obtain ⟨hset₂, hdegrees₂, hmoves₂⟩ := addNeighbour_frame h₂
    refine ⟨hdegrees₂.trans hdegrees₁, hmoves₂.trans hmoves₁, ?_, fun _ => ?_⟩
    · intro e he
      rw [hset₂, hset₁]
      simp [he]
    · rw [hset₂, hset₁]
      simp
  · rw [← Option.some.inj h]
    exact ⟨rfl, rfl, subset_rfl, fun hne => by_contra fun hmem => hnew ⟨hmem, hne⟩⟩

/-- Edges change the adjacency lists and the set of edges, which contains them afterwards. -/
theorem addEdges_frame {calls : List (Register × Register)} (h : g.addEdges calls = some g') :
    g'.degrees = g.degrees ∧ g'.moveList = g.moveList ∧ g.adjSet ⊆ g'.adjSet ∧
      ∀ call ∈ calls, call.1.regName ≠ call.2.regName → call ∈ g'.adjSet := by
  induction calls generalizing g with
  | nil =>
    rw [← Option.some.inj h]
    exact ⟨rfl, rfl, subset_rfl, by simp⟩
  | cons call calls ih =>
    rw [addEdges, List.foldlM_cons] at h
    obtain ⟨g₁, h₁, h₂⟩ := Option.bind_eq_some_iff.mp h
    obtain ⟨hdegrees₁, hmoves₁, hset₁, hcall⟩ := addEdge_frame h₁
    obtain ⟨hdegrees₂, hmoves₂, hset₂, hcalls⟩ := ih h₂
    refine ⟨hdegrees₂.trans hdegrees₁, hmoves₂.trans hmoves₁, hset₁.trans hset₂, ?_⟩
    rw [List.forall_mem_cons]
    exact ⟨fun hne => hset₂ (hcall hne), hcalls⟩

/-- A move changes no edge. -/
theorem Adjacent.addMove {regs rs : List Register} {m : Move} (h : Adjacent regs g) :
    Adjacent regs (g.addMove rs m) :=
  ⟨⟨h.lists.listed, h.lists.counted, h.lists.adjList⟩, h.symm, h.ne, h.created, h.colors⟩

end InterferenceGraph

open Chaitin.InterferenceGraph

/-- What the nodes so far have entered. -/
structure Built (body : List Instruction) (lva : LiveVariableAnalysis)
    (nodes : List (LVA.CFGNode × ℕ)) (b : InterferenceGraph × List Move) : Prop where
  adjacent : Adjacent (involved body) b.1
  degrees : ∀ r d, b.1.degrees r = some d → d = 0
  edges : ∀ node ∈ nodes, ∀ liveOut, lva.outVals node.2 = some liveOut →
    ∀ d ∈ node.1.insn.def, ∀ l ∈ liveBehind node.1.insn liveOut, l.regName ≠ d.regName →
      (l, d) ∈ b.1.adjSet
  related : ∀ r, (∃ m, m ∈ b.1.moveList r) ↔
    ∃ node ∈ nodes, (moveOf node.2 node.1.insn).isSome ∧ (r ∈ node.1.insn.def ∨ r ∈ node.1.insn.use)
  listed : ∀ r, ∀ m ∈ b.1.moveList r, m ∈ b.2

/-- The moves of a node are entered for the registers it defines and uses. -/
theorem mem_moveList_addMove {rs : List Register} {m m' : Move} :
    m' ∈ (g.addMove rs m).moveList r ↔ m' ∈ g.moveList r ∨ r ∈ rs ∧ m' = m := by
  simp only [addMove]
  split_ifs with hr <;> simp [hr]

/-- The step. -/
theorem Built.buildNode {nodes : List (LVA.CFGNode × ℕ)} {b b' : InterferenceGraph × List Move}
    {node : LVA.CFGNode × ℕ} (h : Built body lva nodes b)
    (hnode : Chaitin.buildNode lva b node = some b') : Built body lva (nodes ++ [node]) b' := by
  obtain ⟨liveOut, hlive, hnode⟩ := Option.bind_eq_some_iff.mp hnode
  obtain ⟨g', hg', hb'⟩ := Option.bind_eq_some_iff.mp hnode
  rw [← Option.some.inj hb']
  have hregs : ∀ r ∈ involved body, r.isAbstract = true := fun r hr => isAbstract_of_mem_involved hr
  have hcalls : ∀ d ∈ node.1.insn.def, ∀ l ∈ liveBehind node.1.insn liveOut,
      l.regName ≠ d.regName → (l, d) ∈ g'.adjSet := by
    intro d hd l hl hne
    refine (addEdges_frame hg').2.2.2 (l, d) ?_ hne
    simp only [List.mem_flatMap, List.mem_map]
    exact ⟨d, hd, l, hl, rfl⟩
  -- the edges of the nodes before stay; those of this one are the ones added
  have hedges : b.1.adjSet ⊆ g'.adjSet → ∀ n ∈ nodes ++ [node], ∀ out, lva.outVals n.2 = some out →
      ∀ d ∈ n.1.insn.def, ∀ l ∈ liveBehind n.1.insn out, l.regName ≠ d.regName →
        (l, d) ∈ g'.adjSet := by
    intro hset n hn out hout d hd l hl hne
    rcases List.mem_append.mp hn with hn | hn
    · exact hset (h.edges n hn out hout d hd l hl hne)
    · rw [List.mem_singleton.mp hn] at hout hd hl
      rw [hlive, Option.some.injEq] at hout
      exact hcalls d hd l (hout ▸ hl) hne
  cases hm : moveOf node.2 node.1.insn with
  | none =>
    simp only [hm] at hg' ⊢
    obtain ⟨hdegrees, hmoves, hset, -⟩ := addEdges_frame hg'
    refine ⟨h.adjacent.addEdges hregs hg', ?_, hedges hset, ?_, ?_⟩
    · rw [hdegrees]
      exact h.degrees
    · intro r
      rw [hmoves, h.related r]
      simp [or_and_right, exists_or, hm]
    · rw [hmoves]
      exact h.listed
  | some m =>
    simp only [hm] at hg' ⊢
    obtain ⟨hdegrees, hmoves, hset, -⟩ := addEdges_frame hg'
    refine ⟨h.adjacent.addMove.addEdges hregs hg', ?_, hedges hset, ?_, ?_⟩
    · rw [hdegrees]
      exact h.degrees
    · intro r
      simp only [hmoves, mem_moveList_addMove, mem_union, exists_or, exists_and_left, exists_eq,
        and_true, h.related r]
      simp [or_and_right, exists_or, hm]
    · intro r m' hm'
      rw [hmoves, mem_moveList_addMove] at hm'
      rcases hm' with hm' | ⟨-, rfl⟩
      · exact List.mem_append_left _ (h.listed r m' hm')
      · exact List.mem_append_right _ List.mem_cons_self

/-- The loop over the instructions adds their edges and their moves. The induction keeps what the nodes
before have added. -/
theorem foldlM_buildNode {nodes before : List (LVA.CFGNode × ℕ)}
    {b b' : InterferenceGraph × List Move} (h : Built body lva before b)
    (hb' : nodes.foldlM (Chaitin.buildNode lva) b = some b') : Built body lva (before ++ nodes) b' := by
  induction nodes generalizing before b with
  | nil =>
    rw [List.append_nil, ← Option.some.inj hb']
    exact h
  | cons node nodes ih =>
    rw [List.foldlM_cons] at hb'
    obtain ⟨b₁, h₁, h₂⟩ := Option.bind_eq_some_iff.mp hb'
    rw [List.append_cons]
    exact ih (h.buildNode h₁) h₂

/-- The run over the nodes. -/
theorem build_spec {b : InterferenceGraph × List Move} (h : build cfg lva body = some b) :
    Built body lva cfg.nodes.zipIdx b := by
  have hstart : Built body lva [] (.create (involved body) fun _ => [], []) := by
    refine ⟨create_adjacent _ _, ?_, by simp, by simp [create], by simp [create]⟩
    intro r d hd
    simp only [create, Option.ite_none_right_eq_some, Option.some.injEq] at hd
    exact hd.2.symm
  exact foldlM_buildNode hstart h

end Chaitin

end Jaek
