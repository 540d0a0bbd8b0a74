import Jaek.Lowered.OpType

/-!
# The syntax trees

The classes of `ast`, without the positions of their tokens. An expression carries at each node what the
type checker leaves there: `A` is `Unit` before type checking.
-/

namespace Jaek.AST

/-- `Type` and `Primitive`. -/
inductive Typ
  | array (t : Typ)
  | bool
  | int
  | recordType (t : String)
deriving DecidableEq, Repr

/-- The binary operations. -/
inductive Operation
  | PLUS | MINUS | TIMES | HIGHTIMES | DIVIDE | MODULO
  | LT | LEQ | GT | GEQ | EQB | NEQB | AND | OR
deriving DecidableEq, Repr

/-- The unary operations. -/
inductive UnaryOperation
  | NOT | NEG
deriving DecidableEq, Repr

/-- The expressions, with what the type checker has found out about them. -/
inductive Expr (A : Type)
  | functionCall (etaType : A) (fn : String) (args : List (Expr A))
  | lengthFn (etaType : A) (arg : Expr A)
  | arrayAccess (etaType : A) (arr idx : Expr A)
  | identifier (etaType : A) (name : String)
  | field (etaType : A) (record : Expr A) (name : String)
  | binaryOp (etaType : A) (op : Operation) (left right : Expr A)
  | unaryOp (etaType : A) (op : UnaryOperation) (arg : Expr A)
  | intLit (etaType : A) (num : Word)
  | stringLit (etaType : A) (text : String)
  | boolLit (etaType : A) (bool : Bool)
  | charLit (etaType : A) (char : ℕ)
  | nullLit (etaType : A)
  | arrayLit (etaType : A) (list : List (Expr A))

/-- What it has found out about an expression. -/
def Expr.etaType {A : Type} : Expr A → A
  | functionCall etaType _ _ => etaType
  | lengthFn etaType _ => etaType
  | arrayAccess etaType _ _ => etaType
  | identifier etaType _ => etaType
  | field etaType _ _ => etaType
  | binaryOp etaType _ _ _ => etaType
  | unaryOp etaType _ _ => etaType
  | intLit etaType _ => etaType
  | stringLit etaType _ => etaType
  | boolLit etaType _ => etaType
  | charLit etaType _ => etaType
  | nullLit etaType => etaType
  | arrayLit etaType _ => etaType

/-- `VarDecl.RawVarDeclList`. -/
structure RawVarDeclList where
  ids : List String
  type : Typ

/-- The left sides of assignments. -/
inductive AssignTarget (A : Type)
  | declAssign (decl : RawVarDeclList)
  | arrayAssign (etaType : A) (arr idx : Expr A)
  | idAssign (name : String)
  | underscore
  | fieldAssign (etaType : A) (record : Expr A) (name : String)

/-- The statements. -/
inductive Statement (A : Type)
  | ifElse (guard : Expr A) (thenBlock : Statement A) (elseBlock : Option (Statement A))
  | while (guard : Expr A) (body : Statement A)
  | break
  | return (args : List (Expr A))
  | block (stmts : List (Statement A))
  | procedure (id : String) (args : List (Expr A))
  | multiAssign (targets : List (AssignTarget A)) (vals : List (Expr A))
  | initArr (id : String) (type : Typ) (dimensions : List (Option (Expr A)))
  | rawVarDeclList (decl : RawVarDeclList)

/-- A function. An interface gives it no body. -/
structure Method (A : Type) where
  id : String
  args : List RawVarDeclList
  returnTypes : List Typ
  body : Option (Statement A)

/-- The declaration of a record. -/
structure RhoRecord where
  name : String
  fields : List RawVarDeclList

/-- The declaration of global variables. -/
structure GlobalDecl (A : Type) where
  ids : List String
  type : Typ
  value : Option (Expr A)

/-- What stands at the top of a file. -/
inductive Definition (A : Type)
  | method (m : Method A)
  | globalDecl (g : GlobalDecl A)
  | rhoRecord (r : RhoRecord)

/-- The libraries of the `use` clauses and the definitions of a program file. -/
inductive Program (A : Type)
  | etaProgram (imports : List String) (definitions : List (Definition A))
  | rhoModule (imports : List String) (definitions : List (Definition A))

/-- The two kinds of interface files. -/
inductive Interface
  | etaInterface (headers : List (Definition Unit))
  | rhoInterface (imports : List String) (headers : List (Definition Unit))

/-- The headers of an interface. -/
def Interface.headers : Interface → List (Definition Unit)
  | etaInterface headers => headers
  | rhoInterface _ headers => headers

end Jaek.AST
