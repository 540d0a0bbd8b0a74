import Jaek.AST
import Jaek.Data.LinkedMap

/-!
# The types of the type checker

`EtaType.kt`. `UnknownType` is the type of an underscore and of the elements of an empty array literal;
`NullType` is the type of `null`. `equals` is not symmetric: both stand for other types on the left.
-/

namespace Jaek

inductive OrdinaryType
  | intType
  | boolType
  | arrayType (t : OrdinaryType)
  | unknownType (possiblyBool : Bool)
  | nullType
  | recordType (t : String)
deriving DecidableEq, Repr

namespace OrdinaryType

/-- `this.equals(other)`. -/
def equals (this : OrdinaryType) : OrdinaryType → Bool
  | intType =>
    match this with
    | intType | unknownType _ => true
    | _ => false
  | boolType =>
    match this with
    | boolType => true
    | unknownType possiblyBool => possiblyBool
    | _ => false
  | arrayType other =>
    match this with
    | unknownType _ | nullType => true
    | arrayType t => t.equals other
    | _ => false
  | recordType other =>
    match this with
    | recordType t => t = other
    | nullType => true
    | _ => false
  | nullType =>
    match this with
    | nullType | recordType _ | arrayType _ => true
    | _ => false
  | unknownType _ => true

/-- The types of declarations. -/
def Declared : OrdinaryType → Bool
  | intType => true
  | boolType => true
  | arrayType t => t.Declared
  | recordType _ => true
  | _ => false

/-- Between types of declarations, `equals` is equality. -/
theorem equals_iff {t u : OrdinaryType} (ht : t.Declared) (hu : u.Declared) :
    t.equals u = true ↔ t = u := by
  induction u generalizing t with
  | arrayType u ih =>
    cases t with
    | arrayType t => simpa [equals] using ih (t := t) ht hu
    | _ => simp_all [equals, Declared]
  | _ => cases t <;> simp_all [equals, Declared]

end OrdinaryType

/-- `ExpandedType.equals`. -/
def equalTypes (this other : List OrdinaryType) : Bool :=
  this.length = other.length && (this.zip other).all fun p => p.1.equals p.2

/-- `ContextType.FunType`. The lists are those of the two `ExpandedType`s. -/
structure FunType where
  domain : List OrdinaryType
  codomain : List OrdinaryType
  fromInterface : Bool

/-- `ContextType.RecordType`. The fields stand in the order of their declaration. -/
structure RecordType where
  name : String
  fields : LinkedMap String OrdinaryType

inductive ContextType
  | varBind (item : OrdinaryType)
  | returnType (value : List OrdinaryType)
  | funType (type : FunType)
  | recordType (type : RecordType)

/-- `this as? RecordType`. -/
def ContextType.record? : ContextType → Option RecordType
  | recordType type => some type
  | _ => none

/-- `this.equals(other)` for a function type `other`. -/
def ContextType.equalsFun (this : ContextType) (other : FunType) : Bool :=
  match this with
  | funType type => equalTypes type.domain other.domain && equalTypes type.codomain other.codomain
  | _ => false

/-- `EtaType.translateType`. -/
def translateType : AST.Typ → OrdinaryType
  | .array t => .arrayType (translateType t)
  | .bool => .boolType
  | .int => .intType
  | .recordType t => .recordType t

theorem translateType_declared (t : AST.Typ) : (translateType t).Declared := by
  induction t with
  | array t ih => exact ih
  | _ => rfl

end Jaek
