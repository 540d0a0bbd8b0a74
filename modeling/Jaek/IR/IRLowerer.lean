import Jaek.IR.Mid

/-!
# Lowering

`IRLowerer` takes the statements out of expressions. What is left of an expression is evaluated
behind all of them, so an operand that the statements of a later one may change is saved in a fresh
temp; `commutes` decides which.

The counter of `freshTemp` is threaded as a number, and `none` is an exception.
-/

namespace Jaek

namespace IRLowerer

/-- The temp `freshTemp` hands out when its counter reaches `k`. -/
def freshName (k : ℕ) : String := "$TL" ++ toString k

def freshTemp (k : ℕ) : LIRExpr := .temp (freshName k)

/-- What `commutes` has collected from the statements. -/
structure Used where
  memUsed : Bool := false
  unknownGlobalsUsed : Bool := false
  unknownTempsUsed : Bool := false
  tempsUsed : List String := []
  globalsUsed : List String := []

/-- `updateMemTempsUsed`. The globals of a called function are put into a union that is dropped. -/
def Used.updateMemTempsUsed (u : Used) : FlatStmt → Option Used
  | .callStmt _ _ _ => some { u with memUsed := true }
  | .label _ => some u
  | .move (.mem _) _ => some { u with memUsed := true }
  | .move (.temp x) _ => some { u with tempsUsed := x :: u.tempsUsed }
  | .move _ _ => none
  | .endBlock _ =>
    some { u with unknownGlobalsUsed := true, memUsed := true, unknownTempsUsed := true }

def Used.exprCommutes (globals : List String) (u : Used) : LIRExpr → Bool
  | .const _ => true
  | .mem _ => !u.memUsed
  | .name l => l ∉ globals || (!u.unknownGlobalsUsed && l ∉ u.globalsUsed)
  | .op _ left right => u.exprCommutes globals left && u.exprCommutes globals right
  | .temp x => !u.unknownTempsUsed && x ∉ u.tempsUsed

/-- `commutes`: the statements do not change the value of the expression. -/
def commutes (globals : List String) (stmts : List FlatStmt) (expr : LIRExpr) : Option Bool :=
  (stmts.foldlM Used.updateMemTempsUsed {}).map fun u => u.exprCommutes globals expr

mutual

/-- `lowerExpr`: the statements of an expression, what is left to evaluate behind them, and the
counter. -/
def lowerExpr (globals : List String) : IRExpr → ℕ → Option (List FlatStmt × LIRExpr × ℕ)
  | .const value, k => some ([], .const value, k)
  | .temp x, k => some ([], .temp x, k)
  | .name l, k => some ([], .name l, k)
  | .mem address, k => do
    let (stmts, expr, k) ← lowerExpr globals address k
    some (stmts, .mem expr, k)
  | .op o left right, k => do
    let (leftStmt, leftExpr, k) ← lowerExpr globals left k
    let (rightStmt, rightExpr, k) ← lowerExpr globals right k
    if ← commutes globals rightStmt leftExpr then
      some (leftStmt ++ rightStmt, .op o leftExpr rightExpr, k)
    else
      some (leftStmt ++ .move (freshTemp (k + 1)) leftExpr :: rightStmt,
        .op o (freshTemp (k + 1)) rightExpr, k + 1)
  | .call address args, k => do
    let (s0, e0, k) ← lowerExpr globals address k
    match e0 with
    | .name f => do
      let (stmts, temps, k) ← lowerArgs globals args k
      some (s0 ++ stmts ++
        [.callStmt f 1 temps, .move (freshTemp (k + 1)) (.temp (retTemp 1))],
        freshTemp (k + 1), k + 1)
    | _ => none
  | .eseq statement value, k => do
    let (stmts, k) ← lowerStatement globals statement k
    let (stmt, expr, k) ← lowerExpr globals value k
    some (stmts ++ stmt, expr, k)

/-- The loop over the arguments of a call: each is saved in a fresh temp. -/
def lowerArgs (globals : List String) : List IRExpr → ℕ → Option (List FlatStmt × List LIRExpr × ℕ)
  | [], k => some ([], [], k)
  | arg :: args, k => do
    let (si, ei, k) ← lowerExpr globals arg k
    let (stmts, temps, k') ← lowerArgs globals args (k + 1)
    some (si ++ .move (freshTemp (k + 1)) ei :: stmts, freshTemp (k + 1) :: temps, k')

/-- `map` of `lowerExpr` over the values of a return. -/
def lowerExprs (globals : List String) :
    List IRExpr → ℕ → Option (List (List FlatStmt × LIRExpr) × ℕ)
  | [], k => some ([], k)
  | e :: es, k => do
    let (stmts, expr, k) ← lowerExpr globals e k
    let (rest, k) ← lowerExprs globals es k
    some ((stmts, expr) :: rest, k)

/-- `lowerStatement`. -/
def lowerStatement (globals : List String) : IRStmt → ℕ → Option (List FlatStmt × ℕ)
  | .cjump guard t f, k => do
    let (guardStmts, guardExpr, k) ← lowerExpr globals guard k
    match f with
    | some f => some (guardStmts ++ [.endBlock (.cjump guardExpr t (some f))], k)
    | none => some (guardStmts ++ [.endBlock (.trueJump guardExpr t)], k)
  | .exp expr, k => do
    let (stmts, _, k) ← lowerExpr globals expr k
    some (stmts, k)
  | .jump address, k => some ([.endBlock (.jump address)], k)
  | .label l, k => some ([.label l], k)
  | .move dest expr, k => factorMoveTarget globals dest (fun k => lowerExpr globals expr k) k
  | .ret valList, k => do
    let (loweredExprStmts, k) ← lowerExprs globals valList k
    some (loweredExprStmts.flatMap (·.1) ++ [.endBlock (.ret (loweredExprStmts.map (·.2)))], k)
  | .seq block, k => lowerBlock globals block k
  | .callStmt address n_returns args, k => do
    let (stmts, temps, k) ← lowerArgs globals args k
    some (stmts ++ [.callStmt address n_returns temps], k)

/-- The statements of a sequence, one after the other. -/
def lowerBlock (globals : List String) : List IRStmt → ℕ → Option (List FlatStmt × ℕ)
  | [], k => some ([], k)
  | st :: rest, k => do
    let (stmts, k) ← lowerStatement globals st k
    let (stmts', k) ← lowerBlock globals rest k
    some (stmts ++ stmts', k)

/-- `factorMoveTarget`, where `arg` lowers the source of the move. -/
def factorMoveTarget (globals : List String) :
    IRExpr → (ℕ → Option (List FlatStmt × LIRExpr × ℕ)) → ℕ → Option (List FlatStmt × ℕ)
  | .temp x, arg, k => do
    let (e2Stmts, e2, k) ← arg k
    some (e2Stmts ++ [.move (.temp x) e2], k)
  | .mem address, arg, k => do
    let (e1Stmts, e1, k) ← lowerExpr globals address k
    let (e2Stmts, e2, k) ← arg k
    if ← commutes globals e2Stmts e1 then
      some (e1Stmts ++ e2Stmts ++ [.move (.mem e1) e2], k)
    else
      some (e1Stmts ++ .move (freshTemp (k + 1)) e1 :: e2Stmts ++
        [.move (.mem (freshTemp (k + 1))) e2], k + 1)
  | .eseq statement value, arg, k => do
    let (eseqStmts, k) ← lowerStatement globals statement k
    let (stmts, k) ← factorMoveTarget globals value arg k
    some (eseqStmts ++ stmts, k)
  | _, _, _ => none

end

end IRLowerer

end Jaek
