import Jaek.Lowered.LIR

/-!
# Block reordering

The passes of `LIRSeq.blockReordering`, one definition for each: split the body into maximal basic
blocks, connect them, lay them out along random traces, repair the jumps and print the result.

The companion counter behind `freshLabel` is threaded as a number. The random draws are a stream
`picks`: draw number `k` takes element `picks k` of the candidates, modulo their number. Nodes have
identity in the source, so the trace works with positions in the node list.
-/

namespace Jaek

/-- The label the companion object hands out when its counter reaches `k`. -/
def LIRSeq.freshLabel (k : ℕ) : String := "$B" ++ toString k

/-- A maximal basic block. -/
structure BasicBlock where
  label : String
  ordinary : List FlatStmt
  «end» : Option EndBlock

/-- A block under construction. -/
structure BasicBlock.Builder where
  label : Option String := none
  statements : List FlatStmt := []
  «end» : Option EndBlock := none

namespace BasicBlock.Builder

/-- Add a statement. The source's assertions on the order of statements are off at run time. -/
def put (b : Builder) : FlatStmt → Builder
  | .label l => { b with label := some l }
  | .endBlock e => { b with «end» := some e }
  | .callStmt f n args => { b with statements := b.statements ++ [.callStmt f n args] }
  | .move d e => { b with statements := b.statements ++ [.move d e] }

def complete (b : Builder) : Bool := b.end.isSome

/-- The finished block; it draws a fresh label when it has none. -/
def build (b : Builder) (count : ℕ) : BasicBlock × ℕ :=
  match b.label with
  | some l => (⟨l, b.statements, b.end⟩, count)
  | none => (⟨LIRSeq.freshLabel (count + 1), b.statements, b.end⟩, count + 1)

end BasicBlock.Builder

/-- A node of the control-flow graph of basic blocks. -/
inductive Node
  | none (statements : List FlatStmt) (label : String)
  | unconditional (statements : List FlatStmt) (label dest : String)
  | conditional (statements : List FlatStmt) (label : String) (condition : LIRExpr)
      (trueEdge : String) (falseEdge : Option String)

def Node.statements : Node → List FlatStmt
  | .none statements _ => statements
  | .unconditional statements _ _ => statements
  | .conditional statements _ _ _ _ => statements

def Node.label : Node → String
  | .none _ label => label
  | .unconditional _ label _ => label
  | .conditional _ label _ _ _ => label

def Node.edges : Node → List String
  | .none _ _ => []
  | .unconditional _ _ dest => [dest]
  | .conditional _ _ _ trueEdge falseEdge => trueEdge :: falseEdge.toList

namespace LIRSeq

/-- Whether a statement starts a new block. -/
def isLabel : FlatStmt → Bool
  | .label _ => true
  | _ => false

/-- The loop of `maximalBasicBlocks` over the statements left, with the block under construction. -/
def maximalBasicBlocks.loop : List FlatStmt → BasicBlock.Builder → ℕ → List BasicBlock × ℕ
  | [], builder, count =>
    let (block, count) := builder.build count
    ([block], count)
  | next :: statements, builder, count =>
    if isLabel next || builder.complete then
      let (block, count) := builder.build count
      let (blocks, count) := loop statements (BasicBlock.Builder.put {} next) count
      (block :: blocks, count)
    else
      loop statements (builder.put next) count

/-- Cut a body at labels and after jumps and returns. -/
def maximalBasicBlocks (block : List FlatStmt) (count : ℕ) : List BasicBlock × ℕ :=
  maximalBasicBlocks.loop block {} count

/-- The node of a block whose textual successor has label `next`. -/
def buildNode (b : BasicBlock) (next : Option String) : Node :=
  match b.end with
  | some (.cjump guard t f) => .conditional b.ordinary b.label guard t f
  | some (.trueJump guard t) => .conditional b.ordinary b.label guard t next
  | some (.jump address) => .unconditional b.ordinary b.label address
  | some (.ret vals) => .none (b.ordinary ++ [.endBlock (.ret vals)]) b.label
  | none =>
    match next with
    | some l => .unconditional b.ordinary b.label l
    | none => .none b.ordinary b.label

def buildCFG : List BasicBlock → List Node
  | [] => []
  | b :: blocks => buildNode b (blocks.head?.map (·.label)) :: buildCFG blocks

/-- `associateBy { it.label }`: the position of the last node with a label. -/
def labelToNode (nodes : List Node) (l : String) : Option ℕ :=
  (nodes.zipIdx.reverse.find? fun p => p.1.label = l).map (·.2)

/-- Whether some node has an edge to position `i`. -/
def hasPredecessor (nodes : List Node) (i : ℕ) : Bool :=
  nodes.any fun b => b.edges.any fun child => labelToNode nodes child == some i

/-- Draw number `k` from a list of candidates. -/
def randomOrNull {α : Type*} (picks : ℕ → ℕ) (k : ℕ) (xs : List α) : Option α :=
  xs[picks k % xs.length]?

/-- The start of the next trace: an unmarked node without predecessors, or a random one. -/
def head (nodes : List Node) (picks : ℕ → ℕ) (k : ℕ) (unmarked : List ℕ) : Option ℕ × ℕ :=
  match unmarked.find? fun n => !hasPredecessor nodes n with
  | some n => (some n, k)
  | none => (randomOrNull picks k unmarked, k + 1)

/-- The unmarked successors of position `h`. -/
def unmarkedSuccessors (nodes : List Node) (h : ℕ) (unmarked : List ℕ) : List ℕ :=
  match nodes[h]? with
  | some n => (n.edges.filterMap (labelToNode nodes)).filter (· ∈ unmarked)
  | none => []

/-- The two nested loops of `greedyTrace`. The first argument bounds the iterations; every position
costs at most two. -/
def greedyTrace.loop (nodes : List Node) (picks : ℕ → ℕ) :
    ℕ → Option ℕ → List ℕ → List ℕ → ℕ → List ℕ
  | 0, _, _, order, _ => order
  | fuel + 1, some h, unmarked, order, k =>
    let unmarked := unmarked.erase h
    loop nodes picks fuel (randomOrNull picks k (unmarkedSuccessors nodes h unmarked)) unmarked
      (order ++ [h]) (k + 1)
  | _ + 1, none, [], order, _ => order
  | fuel + 1, none, u :: unmarked, order, k =>
    let (h, k) := head nodes picks k (u :: unmarked)
    loop nodes picks fuel h (u :: unmarked) order k

/-- Positions of the nodes in the order of the traces. -/
def traceOrder (nodes : List Node) (picks : ℕ → ℕ) : List ℕ :=
  greedyTrace.loop nodes picks (2 * nodes.length + 1) none (List.range nodes.length) [] 0

def greedyTrace (nodes : List Node) (picks : ℕ → ℕ) : List Node :=
  (traceOrder nodes picks).filterMap (nodes[·]?)

/-- The condition that holds when `condition`, a `0` or a `1`, does not. -/
def invert : LIRExpr → LIRExpr
  | .op .XOR left (.const 1) => left
  | condition => .op .XOR condition (.const 1)

/-- The nodes one node becomes in front of `nextBlock`. -/
def fixNode (node : Node) (nextBlock : Option String) (count : ℕ) : List Node × ℕ :=
  match node with
  | .conditional statements label condition trueEdge none =>
    if nextBlock = some trueEdge then ([.none statements label], count)
    else ([.conditional statements label condition trueEdge none], count)
  | .conditional statements label condition trueEdge (some falseEdge) =>
    if nextBlock = some trueEdge then
      ([.conditional statements label (invert condition) falseEdge none], count)
    else
      ([.conditional statements label condition trueEdge none,
        .unconditional [] (freshLabel (count + 1)) falseEdge], count + 1)
  | .none statements label => ([.none statements label], count)
  | .unconditional statements label dest => ([.unconditional statements label dest], count)

def fixJumps : List Node → ℕ → List Node × ℕ
  | [], count => ([], count)
  | node :: nodes, count =>
    let (fixed, count) := fixNode node (nodes.head?.map (·.label)) count
    let (rest, count) := fixJumps nodes count
    (fixed ++ rest, count)

/-- Drop an unconditional jump to the next node. -/
def removeUselessJump (node : Node) (nextBlock : Option String) : Node :=
  match node with
  | .unconditional statements label dest =>
    if nextBlock = some dest then .none statements label else .unconditional statements label dest
  | node => node

def removeUselessJumps : List Node → List Node
  | [] => []
  | node :: nodes => removeUselessJump node (nodes.head?.map (·.label)) :: removeUselessJumps nodes

/-- The statements of one node; a conditional node jumps on its true edge only. -/
def nodeCode (node : Node) : List FlatStmt :=
  .label node.label :: node.statements ++
    match node with
    | .none _ _ => []
    | .unconditional _ _ dest => [.endBlock (.jump dest)]
    | .conditional _ _ condition trueEdge _ => [.endBlock (.trueJump condition trueEdge)]

def toSequence (nodes : List Node) : List FlatStmt := nodes.flatMap nodeCode

/-- `blockReordering`, with the label counter before and after. -/
def blockReordering (picks : ℕ → ℕ) (block : List FlatStmt) (count : ℕ) : List FlatStmt × ℕ :=
  let (b, count) := maximalBasicBlocks block count
  let n := buildCFG b
  let g := greedyTrace n picks
  let (j, count) := fixJumps g count
  (toSequence (removeUselessJumps j), count)

end LIRSeq

end Jaek
