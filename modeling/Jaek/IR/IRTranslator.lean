import Jaek.IR.Mid
import Jaek.IR.Records

/-!
# Translation

`IRTranslator` turns the syntax trees of functions into the mid-level representation. An expression
carries the type the type checker leaves at it, or `none` where that is no ordinary type.

The translation counts its fresh labels and temps, knows the label behind the loop it is in, and records the
globals that a function assigns and the functions that it calls. Failure is an exception.
-/

namespace Jaek

namespace IRTranslator

open AST (Expr AssignTarget Statement Definition Method Operation UnaryOperation RawVarDeclList)

/-- The type at an expression. -/
abbrev Typed := Option OrdinaryType

/-- The fields of the translator that the translation of a function reads. -/
structure Tables where
  mangledFunctionNames : LinkedMap String String
  globals : List String
  records : LinkedMap String (LinkedMap String ℕ)

/-- `globalsByFunction` and `functionCalls`, by the mangled names of the functions. -/
structure CallMaps where
  globalsByFunction : LinkedMap String (List String)
  functionCalls : LinkedMap String (List String)

/-- The fields that change in the translation. -/
structure State extends CallMaps where
  freshLabelCount : ℕ
  freshTempCount : ℕ
  enclosingWhileLabel : Option String

/-- Before the first function: the maps are empty, and global data may have used up some names. -/
def State.start (freshLabelCount freshTempCount : ℕ) : State :=
  ⟨⟨.empty, .empty⟩, freshLabelCount, freshTempCount, none⟩

/-- The translation reads and writes the state, and throws. -/
abbrev Translation := StateT State Option

/-- The name of a label. -/
def labelName (k : ℕ) : String := "$L" ++ toString k

/-- The name of a temp. -/
def tempName (k : ℕ) : String := "$T" ++ toString k

/-- `freshLabel`. -/
def freshLabel : Translation String := do
  let s ← get
  set { s with freshLabelCount := s.freshLabelCount + 1 }
  return labelName (s.freshLabelCount + 1)

/-- `freshTemp`. -/
def freshTemp : Translation IRExpr := do
  let s ← get
  set { s with freshTempCount := s.freshTempCount + 1 }
  return .temp (tempName (s.freshTempCount + 1))

/-- `map[sourceFn]?.add(x)`: nothing happens if the function has no set. -/
def addTo (map : LinkedMap String (List String)) (sourceFn x : String) :
    LinkedMap String (List String) :=
  match map.get? sourceFn with
  | some xs => map.insert sourceFn (xs.insert x)
  | none => map

/-- `sourceFn` assigns the global. -/
def recordGlobal (sourceFn name : String) : Translation Unit :=
  modify fun s => { s with globalsByFunction := addTo s.globalsByFunction sourceFn name }

/-- `sourceFn` calls `fn`. -/
def recordCall (sourceFn fn : String) : Translation Unit :=
  modify fun s => { s with functionCalls := addTo s.functionCalls sourceFn fn }

/-- The empty sets of a function. -/
def recordFunction (fn : String) : Translation Unit :=
  modify fun s => { s with
    globalsByFunction := s.globalsByFunction.insert fn []
    functionCalls := s.functionCalls.insert fn [] }

/-- `Int.toLong` of an `Int` that is computed as `n`. -/
def longOfInt (n : ℕ) : Word := (BitVec.ofNat 32 n).signExtend 64

/-- The reference to no record. -/
def nullRef : IRExpr := .const 0

/-- `String.replace` of two characters by one. -/
def replacePair (a b c : Char) : List Char → List Char
  | x :: y :: s =>
    if x = a ∧ y = b then c :: replacePair a b c s else x :: replacePair a b c (y :: s)
  | s => s

/-- `escapeStringChars`. -/
def escapeStringChars (s : List Char) : List Char :=
  replacePair '\\' '\\' '\\' (replacePair '\\' '"' '"'
    (replacePair '\\' 't' '\t' (replacePair '\\' 'n' '\n' s)))

/-- The size in bytes of an array with its length. -/
def arraySize (lstLength : IRExpr) : IRExpr := .op .ADD (.op .MUL lstLength (.const 8)) (.const 8)

/-- The array is allocated, and its length is written in front of it. -/
def arrayInitMoves (lstLength ptr : IRExpr) : List IRStmt :=
  [.move ptr (.call (.name "_eta_alloc") [arraySize lstLength]), .move (.mem ptr) lstLength]

/-- The word at an offset from a pointer. -/
def wordAt (ptr : IRExpr) (offset : Word) : IRExpr := .mem (.op .ADD ptr (.const offset))

/-- The element of an array at a position that is computed. -/
def elementAt (arr idx : IRExpr) : IRExpr := .mem (.op .ADD arr (.op .MUL idx (.const 8)))

/-- The length of an array. -/
def lengthOf (arr : IRExpr) : IRExpr := .mem (.op .SUB arr (.const 8))

/-- The statement of an `ESEQ` is raised; any other expression is evaluated into a temp. -/
def raise : IRExpr → Translation (IRStmt × IRExpr)
  | .eseq statement value => return (statement, value)
  | e => do
    let evalTemp ← freshTemp
    return (.move evalTemp e, evalTemp)

/-- The bounds check of an array access. -/
def arrayAccess (tempA tempI arr idx : IRExpr) (successLabel errorLabel : String) : IRExpr :=
  .eseq (.seq [
    .move tempA arr,
    .move tempI idx,
    .cjump (.op .ULT tempI (lengthOf tempA)) successLabel (some errorLabel),
    .label errorLabel,
    .callStmt "_eta_out_of_bounds" 0 [],
    .label successLabel]) (elementAt tempA tempI)

/-- The temps and labels of a concatenation. -/
structure ConcatNames where
  tempLeftLength : IRExpr
  tempRightLength : IRExpr
  newArrLength : IRExpr
  newArrPtrTemp : IRExpr
  counter : IRExpr
  loopLabel : String
  loopBody : String
  complete : String
  leftFill : String
  rightFill : String
  increment : String

/-- The lengths and the new array of a concatenation. -/
def concatMoves (translateLeft translateRight : IRExpr) (n : ConcatNames) : List IRStmt :=
  [.move n.tempLeftLength (lengthOf translateLeft),
    .move n.tempRightLength (lengthOf translateRight),
    .move n.newArrLength (.op .ADD n.tempLeftLength n.tempRightLength)] ++
  arrayInitMoves n.newArrLength n.newArrPtrTemp ++
  [.move n.newArrPtrTemp (.op .ADD n.newArrPtrTemp (.const 8))]

/-- The loop of a concatenation. -/
def concatLoop (translateLeft translateRight : IRExpr) (n : ConcatNames) : List IRStmt :=
  [.move n.counter (.const 0),
    .label n.loopLabel,
    .cjump (.op .GEQ n.counter n.newArrLength) n.complete (some n.loopBody),
    .label n.loopBody,
    .cjump (.op .GEQ n.counter n.tempLeftLength) n.rightFill (some n.leftFill),
    .label n.leftFill,
    .move (elementAt n.newArrPtrTemp n.counter) (elementAt translateLeft n.counter),
    .jump n.increment,
    .label n.rightFill,
    .move (elementAt n.newArrPtrTemp n.counter)
      (elementAt translateRight (.op .SUB n.counter n.tempLeftLength)),
    .label n.increment,
    .move n.counter (.op .ADD n.counter (.const 1)),
    .jump n.loopLabel,
    .label n.complete]

/-- The temps and labels of a concatenation, in the order in which they are made. -/
def freshConcatNames : Translation ConcatNames := do
  let tempLeftLength ← freshTemp
  let tempRightLength ← freshTemp
  let newArrLength ← freshTemp
  let newArrPtrTemp ← freshTemp
  let loopLabel ← freshLabel
  let loopBody ← freshLabel
  let complete ← freshLabel
  let leftFill ← freshLabel
  let rightFill ← freshLabel
  let increment ← freshLabel
  let counter ← freshTemp
  return ⟨tempLeftLength, tempRightLength, newArrLength, newArrPtrTemp, counter, loopLabel,
    loopBody, complete, leftFill, rightFill, increment⟩

/-- The concatenation of two translated arrays. -/
def concatenate (left right : IRExpr) : Translation IRExpr := do
  let (leftMoves, translateLeft) ← raise left
  let (rightMoves, translateRight) ← raise right
  let names ← freshConcatNames
  return .eseq (.seq (leftMoves :: rightMoves :: concatMoves translateLeft translateRight names ++
    concatLoop translateLeft translateRight names)) names.newArrPtrTemp

/-- The value of `left & right`. -/
def shortAnd (tempX left right : IRExpr) (label1 label2 labelF : String) : IRExpr :=
  .eseq (.seq [
    .move tempX (.const 0),
    .cjump left label1 (some labelF),
    .label label1,
    .cjump right label2 (some labelF),
    .label label2,
    .move tempX (.const 1),
    .label labelF]) tempX

/-- The value of `left | right`. -/
def shortOr (tempX left right : IRExpr) (label1 label2 labelT : String) : IRExpr :=
  .eseq (.seq [
    .move tempX (.const 1),
    .cjump left labelT (some label1),
    .label label1,
    .cjump right labelT (some label2),
    .label label2,
    .move tempX (.const 0),
    .label labelT]) tempX

/-- The operator of a word. -/
def opType : Operation → OpType
  | .PLUS => .ADD
  | .MINUS => .SUB
  | .TIMES => .MUL
  | .HIGHTIMES => .HMUL
  | .DIVIDE => .DIV
  | .MODULO => .MOD
  | .LT => .LT
  | .LEQ => .LEQ
  | .GT => .GT
  | .GEQ => .GEQ
  | .EQB => .EQ
  | .NEQB => .NEQ
  | .AND => .AND
  | .OR => .OR

/-- `etaType is ArrayType`. -/
def isArrayType : Typed → Bool
  | some (.arrayType _) => true
  | _ => false

/-- A local variable, or the cell of a global. -/
def identifier (tables : Tables) (name : String) : IRExpr :=
  if name ∈ tables.globals then .mem (.name name) else .temp name

/-- The call that allocates a record. -/
def recordInit (tempM : IRExpr) (dimension : ℕ) : IRStmt :=
  .move tempM (.call (.name "_eta_alloc") [.op .MUL (.const (.ofNat 64 dimension)) (.const 8)])

/-- The array of a string literal. -/
def stringLiteral (stringPtr : IRExpr) (escapedString : List Char) : IRExpr :=
  .eseq (.seq (arrayInitMoves (.const (longOfInt escapedString.length)) stringPtr ++
    escapedString.zipIdx.map fun p =>
      .move (wordAt stringPtr (longOfInt (8 * (p.2 + 1)))) (.const (.ofNat 64 p.1.toNat))))
    (.op .ADD stringPtr (.const 8))

variable (tables : Tables) (sourceFn : String)

mutual

/-- The expression in the function `sourceFn`. -/
def translateExpr : Expr Typed → Translation IRExpr
  | .arrayAccess _ arr idx => do
    let tempA ← freshTemp
    let tempI ← freshTemp
    let successLabel ← freshLabel
    let errorLabel ← freshLabel
    let arr ← translateExpr arr
    let idx ← translateExpr idx
    return arrayAccess tempA tempI arr idx successLabel errorLabel
  | .binaryOp etaType op left right =>
    if opType op = .ADD ∧ isArrayType etaType then do
      let translateLeft ← translateExpr left
      let translateRight ← translateExpr right
      concatenate translateLeft translateRight
    else if opType op = .AND then do
      let tempX ← freshTemp
      let label1 ← freshLabel
      let label2 ← freshLabel
      let labelF ← freshLabel
      let left ← translateExpr left
      let right ← translateExpr right
      return shortAnd tempX left right label1 label2 labelF
    else if opType op = .OR then do
      let tempX ← freshTemp
      let label1 ← freshLabel
      let label2 ← freshLabel
      let labelT ← freshLabel
      let left ← translateExpr left
      let right ← translateExpr right
      return shortOr tempX left right label1 label2 labelT
    else do
      let left ← translateExpr left
      let right ← translateExpr right
      return .op (opType op) left right
  | .functionCall _ fn args =>
    match tables.records.get? fn with
    | some fields => do
      let tempM ← freshTemp
      let moves ← translateStores tempM (fun i => .ofNat 64 (8 * i)) args 0 fields.entries.length
      return .eseq (.seq (recordInit tempM fields.entries.length :: moves)) tempM
    | none => do
      let fn ← StateT.lift (tables.mangledFunctionNames.get? fn)
      recordCall sourceFn fn
      let args ← translateExprs args
      return .call (.name fn) args
  | .identifier _ name => return identifier tables name
  | .lengthFn _ arg => do
    let lengthTemp ← freshTemp
    let arrTemp ← freshTemp
    let arg ← translateExpr arg
    return .eseq (.seq [.move arrTemp arg, .move lengthTemp (lengthOf arrTemp)]) lengthTemp
  | .arrayLit _ list => do
    let tempM ← freshTemp
    let moves ← translateStores tempM (fun i => longOfInt (8 * (i + 1))) list 0 list.length
    return .eseq (.seq (arrayInitMoves (.const (longOfInt list.length)) tempM ++ moves))
      (.op .ADD tempM (.const 8))
  | .boolLit _ bool => return .const (boolWord bool)
  | .charLit _ char => return .const (longOfInt char)
  | .intLit _ num => return .const num
  | .stringLit _ text => do
    let stringPtr ← freshTemp
    return stringLiteral stringPtr (escapeStringChars text.toList)
  | .unaryOp _ .NOT arg => do
    let arg ← translateExpr arg
    return .op .XOR (.const 1) arg
  | .unaryOp _ .NEG arg => do
    let arg ← translateExpr arg
    return .op .SUB (.const 0) arg
  | .field _ record name =>
    match record.etaType with
    | some (.recordType type) => do
      let fields ← StateT.lift (tables.records.get? type)
      let record ← translateExpr record
      let fieldNumber ← StateT.lift (fields.get? name)
      return wordAt record (longOfInt (8 * fieldNumber))
    | _ => failure
  | .nullLit _ => return nullRef

/-- `map` of `translateExpr`. -/
def translateExprs : List (Expr Typed) → Translation (List IRExpr)
  | [] => return []
  | e :: es => do
    let e ← translateExpr e
    let es ← translateExprs es
    return e :: es

/-- The loop that stores `n` expressions behind one another, from number `i` on. -/
def translateStores (tempM : IRExpr) (offset : ℕ → Word) :
    List (Expr Typed) → ℕ → ℕ → Translation (List IRStmt)
  | _, _, 0 => return []
  | [], _, _ + 1 => failure
  | e :: es, i, n + 1 => do
    let e ← translateExpr e
    let moves ← translateStores tempM offset es (i + 1) n
    return .move (wordAt tempM (offset i)) e :: moves

end

/-- A condition with labels for both answers. -/
def translateControl : Expr Typed → String → String → Translation IRStmt
  | .boolLit _ bool, trueLabel, falseLabel =>
    return .jump (if bool then trueLabel else falseLabel)
  | .unaryOp _ .NOT arg, trueLabel, falseLabel => translateControl arg falseLabel trueLabel
  | .unaryOp _ .NEG _, _, _ => failure
  | .binaryOp etaType op left right, trueLabel, falseLabel =>
    if op = .AND then do
      let label1 ← freshLabel
      let left ← translateControl left label1 falseLabel
      let right ← translateControl right trueLabel falseLabel
      return .seq [left, .label label1, right]
    else if op = .OR then do
      let label1 ← freshLabel
      let left ← translateControl left trueLabel label1
      let right ← translateControl right trueLabel falseLabel
      return .seq [left, .label label1, right]
    else do
      let guard ← translateExpr tables sourceFn (.binaryOp etaType op left right)
      return .cjump guard trueLabel (some falseLabel)
  | e, trueLabel, falseLabel => do
    let guard ← translateExpr tables sourceFn e
    return .cjump guard trueLabel (some falseLabel)

/-! ## Statements -/

/-- An array of the dimensions, the outermost first. The inner arrays are made in a loop. -/
def arrayInitHelp : List IRExpr → Translation (IRExpr × IRStmt)
  | [] => failure
  | [e] => do
    let tempN ← freshTemp
    let tempM ← freshTemp
    return (tempM, .seq [
      .move tempN e,
      .move tempM (.call (.name "_eta_alloc") [arraySize tempN]),
      .move (.mem tempM) tempN,
      .move tempM (.op .ADD tempM (.const 8))])
  | e :: e' :: es => do
    let loopLabel ← freshLabel
    let complete ← freshLabel
    let counter ← freshTemp
    let arrSize ← freshTemp
    let memTemp ← freshTemp
    let (subtemp, subarray) ← arrayInitHelp (e' :: es)
    return (memTemp, .seq [
      .move arrSize e,
      .move memTemp (.call (.name "_eta_alloc") [arraySize arrSize]),
      .move (.mem memTemp) arrSize,
      .move memTemp (.op .ADD memTemp (.const 8)),
      .move counter (.const 0),
      .label loopLabel,
      subarray,
      .move (elementAt memTemp counter) subtemp,
      .move counter (.op .ADD counter (.const 1)),
      .cjump (.op .GEQ counter arrSize) complete (some loopLabel),
      .label complete])

/-- The dimensions of a new array are evaluated one after the other. -/
def translateDimensions : List (Expr Typed) → Translation (List IRStmt × List IRExpr)
  | [] => return ([], [])
  | e :: es => do
    let e ← translateExpr tables sourceFn e
    let (move, e) ← raise e
    let (moves, es) ← translateDimensions es
    return (move :: moves, e :: es)

/-- The place that is assigned. -/
def translateAssignTarget : AssignTarget Typed → Translation IRExpr
  | .arrayAssign etaType arr idx => translateExpr tables sourceFn (.arrayAccess etaType arr idx)
  | .declAssign decl =>
    match decl.ids with
    | [id] => return .temp id
    | _ => failure
  | .idAssign name => return .temp name
  | .underscore => freshTemp
  | .fieldAssign etaType record name => translateExpr tables sourceFn (.field etaType record name)

/-- A global that is assigned is recorded. -/
def recordTarget : AssignTarget Typed → Translation Unit
  | .idAssign name => if name ∈ tables.globals then recordGlobal sourceFn name else return ()
  | _ => return ()

/-- The places that are assigned. The statement of an `ESEQ` is raised, which fixes the order of
evaluation of some of them. -/
def translateTargets : List (AssignTarget Typed) → Translation (List IRStmt × List IRExpr)
  | [] => return ([], [])
  | target :: targets => do
    let transl ← translateAssignTarget tables sourceFn target
    recordTarget tables sourceFn target
    let (stmts, targetList) ← translateTargets targets
    match transl with
    | .eseq statement value => return (statement :: stmts, value :: targetList)
    | transl => return (stmts, transl :: targetList)

/-- A global is assigned in its cell. -/
def multiAssignMove : IRExpr → IRExpr → IRStmt
  | .temp name, snd =>
    if name ∈ tables.globals then .move (.mem (.name name)) snd else .move (.temp name) snd
  | .eseq statement value, snd => .seq [statement, .move value snd]
  | fst, snd => .move fst snd

/-- The moves of values to temps of their own. -/
def translateValues : List IRExpr → Translation (List IRStmt × List IRExpr)
  | [] => return ([], [])
  | e :: es => do
    let ti ← freshTemp
    let (stmts, exprTempList) ← translateValues es
    return (.move ti e :: stmts, ti :: exprTempList)

/-- The assignment of the results of a call, or of a new record. -/
def assignCall (stmts : List IRStmt) (targetList : List IRExpr) (fn : String) (args : List (Expr Typed)) :
    Translation IRStmt :=
  match tables.records.get? fn with
  | some fields => do
    let tempM ← freshTemp
    let moves ← translateStores tables sourceFn tempM (fun i => .ofNat 64 (8 * i)) args 0 fields.entries.length
    match targetList with
    | [target] =>
      return .seq (stmts ++ recordInit tempM fields.entries.length :: moves ++
        [multiAssignMove tables target tempM])
    | _ => failure
  | none => do
    let fn ← StateT.lift (tables.mangledFunctionNames.get? fn)
    recordCall sourceFn fn
    let args ← translateExprs tables sourceFn args
    let returnTemps := (List.range targetList.length).map fun i => IRExpr.temp (retTemp (i + 1))
    return .seq (stmts ++ .callStmt fn targetList.length args ::
      List.zipWith (multiAssignMove tables) targetList returnTemps)

/-- The assignment of values. -/
def assignValues (stmts : List IRStmt) (targetList : List IRExpr) (vals : List (Expr Typed)) :
    Translation IRStmt := do
  let translatedExprs ← translateExprs tables sourceFn vals
  let (moves, exprTempList) ← translateValues translatedExprs
  return .seq (stmts ++ moves ++ List.zipWith (multiAssignMove tables) targetList exprTempList)

/-- The declaration of variables, which start at zero, `false` or `null`. -/
def declare (decl : RawVarDeclList) : IRStmt :=
  match decl.ids with
  | [id] => .move (.temp id) (.const 0)
  | ids => .seq (ids.map fun id => .move (.temp id) (.const 0))

mutual

/-- The statement in the function `sourceFn`. -/
def translateStatement : Statement Typed → Translation IRStmt
  | .block stmts => do
    let stmts ← translateStatements stmts
    return .seq stmts
  | .ifElse guard thenBlock elseBlock => do
    let trueLabel ← freshLabel
    let falseLabel ← freshLabel
    let endLabel ← freshLabel
    let guard ← translateControl tables sourceFn guard trueLabel falseLabel
    let thenStmt ← translateStatement thenBlock
    let elseStmts ← translateElse elseBlock
    return .seq ([guard, .label trueLabel, thenStmt, .jump endLabel, .label falseLabel] ++ elseStmts ++
      [.label endLabel])
  | .multiAssign targets vals => do
    let (stmts, targetList) ← translateTargets tables sourceFn targets
    match vals with
    | [] => failure
    | [.functionCall _ fn args] => assignCall tables sourceFn stmts targetList fn args
    | vals => assignValues tables sourceFn stmts targetList vals
  | .procedure id args => do
    let fn ← StateT.lift (tables.mangledFunctionNames.get? id)
    recordCall sourceFn fn
    let args ← translateExprs tables sourceFn args
    return .callStmt fn 0 args
  | .return args => do
    let args ← translateExprs tables sourceFn args
    return .ret args
  | .initArr id _ dimensions => do
    let (moves, evalDims) ← translateDimensions tables sourceFn (dimensions.filterMap fun e => e).reverse
    let (arrLoc, arrInstrs) ← arrayInitHelp evalDims
    return .seq (moves ++ [arrInstrs, .move (.temp id) arrLoc])
  | .rawVarDeclList decl => return declare decl
  | .while guard body => do
    let trueLabel ← freshLabel
    let falseLabel ← freshLabel
    let startLabel ← freshLabel
    let oldWhileLabel := (← get).enclosingWhileLabel
    modify fun s => { s with enclosingWhileLabel := some falseLabel }
    let guard ← translateControl tables sourceFn guard trueLabel falseLabel
    let body ← translateStatement body
    modify fun s => { s with enclosingWhileLabel := oldWhileLabel }
    return .seq [.label startLabel, guard, .label trueLabel, body, .jump startLabel, .label falseLabel]
  | .break => do
    match (← get).enclosingWhileLabel with
    | some l => return .jump l
    | none => failure

/-- The other branch, when there is one. -/
def translateElse : Option (Statement Typed) → Translation (List IRStmt)
  | none => return []
  | some st => do
    let st ← translateStatement st
    return [st]

/-- The statements of a block, one after the other. -/
def translateStatements : List (Statement Typed) → Translation (List IRStmt)
  | [] => return []
  | st :: stmts => do
    let st ← translateStatement st
    let stmts ← translateStatements stmts
    return st :: stmts

end

/-! ## Functions -/

/-- A translated function. -/
structure IRFuncDecl where
  name : String
  body : IRStmt

/-- Parameter number `i` is moved from its argument. -/
def parameterMove (decl : RawVarDeclList) (i : ℕ) : Option IRStmt :=
  match decl.ids with
  | [id] => some (.move (.temp id) (.temp ("_ARG" ++ toString (i + 1))))
  | _ => none

/-- A function with its body. A procedure gets an empty return at the end. -/
def translateFuncDecl (n : Method Typed) (body : Statement Typed) : Translation IRFuncDecl := do
  let funcMoves ← StateT.lift (n.args.zipIdx.mapM fun p => parameterMove p.1 p.2)
  let fn ← StateT.lift (tables.mangledFunctionNames.get? n.id)
  recordFunction fn
  let st ← translateStatement tables fn body
  return ⟨fn, .seq (funcMoves ++ st :: if n.returnTypes = [] then [.ret []] else [])⟩

/-- The second pass of `translateCompUnit`: the functions that have a body. -/
def translateFunctions : List (Definition Typed) → Translation (List IRFuncDecl)
  | [] => return []
  | .method m :: definitions =>
    match m.body with
    | none => translateFunctions definitions
    | some body => do
      let function ← translateFuncDecl tables m body
      let functions ← translateFunctions definitions
      return function :: functions
  | .globalDecl _ :: definitions => translateFunctions definitions
  | .rhoRecord _ :: definitions => translateFunctions definitions

end IRTranslator

end Jaek
