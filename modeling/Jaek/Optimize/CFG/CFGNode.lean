import Jaek.Lowered.LIR

/-!
# Nodes of the optimizer's control-flow graph

`CFGExpr` and `CFGNode` of `optimize/cfg`. A node stands for one statement; a call keeps the moves that
fetch its results. The names a node carries (`edge`, `take`, `dest`) are resolved to edges once, when the
graph is built, and not looked at afterwards.
-/

namespace Jaek

/-- An expression of the optimizer. -/
inductive CFGExpr
  | Var (name : String)
  | Const (value : Word)
  | BOp (left right : CFGExpr) (op : OpType)
  | Mem (loc : CFGExpr)
  | Label (name : String)
deriving DecidableEq, Repr

/-- `CFGBuilder.translateExpr`. -/
def CFGBuilder.translateExpr : LIRExpr → CFGExpr
  | .const value => .Const value
  | .mem address => .Mem (translateExpr address)
  | .name l => .Label l
  | .op o left right => .BOp (translateExpr left) (translateExpr right) o
  | .temp name => .Var name

/-- `CFGDestroyer.translateExpr`. -/
def CFGDestroyer.translateExpr : CFGExpr → LIRExpr
  | .BOp left right o => .op o (translateExpr left) (translateExpr right)
  | .Const value => .const value
  | .Label name => .name name
  | .Mem loc => .mem (translateExpr loc)
  | .Var name => .temp name

@[simp] theorem CFGDestroyer.translateExpr_translateExpr (e : LIRExpr) :
    translateExpr (CFGBuilder.translateExpr e) = e := by
  induction e with
  | const value => rfl
  | temp name => rfl
  | name l => rfl
  | mem address ih => rw [CFGBuilder.translateExpr, translateExpr, ih]
  | op o left right ihl ihr => rw [CFGBuilder.translateExpr, translateExpr, ihl, ihr]

@[simp] theorem CFGDestroyer.map_translateExpr (es : List LIRExpr) :
    (es.map CFGBuilder.translateExpr).map translateExpr = es := by
  induction es with
  | nil => rfl
  | cons e es ih => rw [List.map_cons, List.map_cons, translateExpr_translateExpr, ih]

/-- The moves: an assignment to a variable or to memory. -/
inductive Mov
  | Gets (varName : String) (expr : CFGExpr)
  | Mem (loc expr : CFGExpr)
deriving DecidableEq, Repr

inductive CFGNode
  | mov (m : Mov) (edge : String)
  | Funcking (name : String) (movIntos : List Mov) (args : List CFGExpr) (edge : String)
  | If (cond : CFGExpr) (take edge : String)
  | Start (name edge : String)
  | Return (rets : List CFGExpr)
  | Cricket (dest : String)
  | NOOP
deriving DecidableEq, Repr

/-- The statement the destroyer prints for a move. -/
def Mov.stmt : Mov → FlatStmt
  | Gets varName expr => .move (.temp varName) (CFGDestroyer.translateExpr expr)
  | Mem loc expr => .move (CFGDestroyer.translateExpr loc) (CFGDestroyer.translateExpr expr)

namespace CFGNode

def isStart : CFGNode → Bool
  | Start _ _ => true
  | _ => false

/-- The name of the node control falls through to. -/
def falls : CFGNode → Option String
  | mov _ edge => some edge
  | Funcking _ _ _ edge => some edge
  | If _ _ edge => some edge
  | Start _ edge => some edge
  | Return _ => none
  | Cricket _ => none
  | NOOP => none

/-- The name of the node control jumps to. -/
def takes : CFGNode → Option String
  | If _ take _ => some take
  | Cricket dest => some dest
  | _ => none

/-- The statements of a node, without its jump. -/
def stmts : CFGNode → List FlatStmt
  | mov m _ => [m.stmt]
  | Funcking name movIntos args _ =>
    .callStmt name movIntos.length (args.map CFGDestroyer.translateExpr) :: movIntos.map Mov.stmt
  | If _ _ _ => []
  | Start _ _ => []
  | Return rets => [.endBlock (.ret (rets.map CFGDestroyer.translateExpr))]
  | Cricket _ => []
  | NOOP => []

/-- The jump of a node to label `l`. -/
def jumpStmt (n : CFGNode) (l : String) : FlatStmt :=
  match n with
  | If cond _ _ => .endBlock (.trueJump (CFGDestroyer.translateExpr cond) l)
  | _ => .endBlock (.jump l)

/-- The statements of a node and its jump, if it has one. -/
def print (n : CFGNode) (l : Option String) : List FlatStmt := n.stmts ++ (l.map n.jumpStmt).toList

end CFGNode

end Jaek
