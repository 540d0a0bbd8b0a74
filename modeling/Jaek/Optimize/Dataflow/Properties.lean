import Jaek.Optimize.CFG.MatchMaker

/-!
# Variables used and defined

`Properties.kt`. The moves behind a call count as uses and as definitions of the call.
-/

namespace Jaek

namespace Properties

def exprUse : CFGExpr → Finset String
  | .BOp left right _ => exprUse left ∪ exprUse right
  | .Const _ => ∅
  | .Label _ => ∅
  | .Mem loc => exprUse loc
  | .Var name => {name}

def moveUse : Mov → Finset String
  | .Gets varName expr => {varName} ∪ exprUse expr
  | .Mem loc expr => exprUse loc ∪ exprUse expr

def use : CFGNode → Finset String
  | .Cricket _ => ∅
  | .NOOP => ∅
  | .Funcking _ movIntos args _ =>
    args.foldl (fun acc it => acc ∪ exprUse it) ∅ ∪ movIntos.foldl (fun acc it => acc ∪ moveUse it) ∅
  | .If cond _ _ => exprUse cond
  | .mov (.Gets _ expr) _ => exprUse expr
  | .mov (.Mem loc expr) _ => exprUse expr ∪ exprUse loc
  | .Return rets => rets.foldl (fun acc it => acc ∪ exprUse it) ∅
  | .Start _ _ => ∅

def moveDef : Mov → Finset String
  | .Gets varName _ => {varName}
  | .Mem _ _ => ∅

def defs : CFGNode → Finset String
  | .Funcking _ movIntos _ _ => movIntos.foldl (fun acc it => acc ∪ moveDef it) ∅
  | .mov (.Gets varName _) _ => {varName}
  | _ => ∅

theorem mem_foldl_union {α : Type} (f : α → Finset String) (xs : List α) (acc : Finset String) (x : String) :
    x ∈ xs.foldl (fun acc it => acc ∪ f it) acc ↔ x ∈ acc ∨ ∃ it ∈ xs, x ∈ f it := by
  induction xs generalizing acc with
  | nil => simp
  | cons it xs ih =>
    rw [List.foldl_cons, ih, Finset.mem_union]
    simp only [List.mem_cons, exists_eq_or_imp, or_assoc]

end Properties

namespace MatchMaker

/-- The variables a node of the graph uses. -/
def useAt (mm : MatchMaker) (n : ℕ) : Finset String := (mm.nodes[n]?.map Properties.use).getD ∅

/-- The variables a node of the graph defines. -/
def defsAt (mm : MatchMaker) (n : ℕ) : Finset String := (mm.nodes[n]?.map Properties.defs).getD ∅

end MatchMaker

end Jaek
