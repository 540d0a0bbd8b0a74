import Jaek.Typechecker.EtaType

/-!
# Contexts

`Context.kt`: a stack of scopes. The return type of the function being checked is bound to `@`.
-/

namespace Jaek

/-- A context. The innermost scope stands first. -/
structure Context where
  stack : List (LinkedMap String ContextType)

namespace Context

/-- The context at the start, with one empty scope. -/
def init : Context := ⟨[.empty]⟩

/-- `bind`, in the innermost scope. -/
def bind (Γ : Context) (id : String) (type : ContextType) : Context :=
  match Γ.stack with
  | [] => Γ
  | scope :: stack => ⟨scope.insert id type :: stack⟩

/-- `lookup`: the innermost binding of the name. -/
def lookup (Γ : Context) (id : String) : Option ContextType := Γ.stack.findSome? (·.get? id)

/-- `contains`. -/
def contains (Γ : Context) (id : String) : Bool := (Γ.lookup id).isSome

/-- The body of the loop of `recordTypes`. -/
def addRecordType (recordSet : LinkedMap String RecordType) (entry : String × ContextType) :
    LinkedMap String RecordType :=
  match entry.2.record? with
  | some type => recordSet.insert type.name type
  | none => recordSet

/-- `recordTypes`: the records in scope, by their own names. -/
def recordTypes (Γ : Context) : LinkedMap String RecordType :=
  Γ.stack.foldl (fun recordSet scope => scope.entries.foldl addRecordType recordSet) .empty

end Context

end Jaek
