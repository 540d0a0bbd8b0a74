import Jaek.Data.PrefixCode
import Jaek.Typechecker.EtaType

/-!
# Symbol names

`mangleMethodName` of `IRTranslator` and the identifiers of `Lexer.flex`. A mangled name is the source
name with its underscores doubled, one underscore, the results and the parameters. `mangleType` is a
prefix code, so the types are written without separators.
-/

namespace Jaek

open PrefixCode

namespace Lexer

/-- The letters of an identifier. -/
def letter (c : Char) : Bool := ('a' ≤ c && c ≤ 'z') || ('A' ≤ c && c ≤ 'Z')

/-- Its digits. -/
def digit (c : Char) : Bool := '0' ≤ c && c ≤ '9'

/-- The regular expression `Identifier`. -/
def identifier (s : String) : Bool :=
  match s.toList with
  | [] => false
  | c :: cs => letter c && cs.all fun c => digit c || letter c || c = '_' || c = '\''

/-- An identifier starts with a letter. -/
theorem identifier_head {s : String} (h : identifier s) :
    ∃ c cs, s.toList = c :: cs ∧ letter c = true := by
  unfold identifier at h
  split at h
  · cases h
  · rename_i c cs heq
    rw [Bool.and_eq_true] at h
    exact ⟨c, cs, heq, h.1⟩

end Lexer

namespace IRTranslator

/-- `mangleType`. The length of a record name counts its characters; identifiers are ASCII. -/
def mangleType : OrdinaryType → String
  | .arrayType t => "a" ++ mangleType t
  | .boolType => "b"
  | .intType => "i"
  | .recordType t => "r" ++ toString t.length ++ t
  | _ => "Charles Sherk <3"

/-- `lst.fold("") { acc, e -> acc + mangleType(e) }`. -/
def mangleTypes (lst : List OrdinaryType) : String := lst.foldl (fun acc e => acc ++ mangleType e) ""

/-- The results, with their number when there are several. -/
def retType (codomain : List OrdinaryType) : String :=
  match codomain with
  | [] => "p"
  | [t] => mangleType t
  | lst => "t" ++ toString lst.length ++ mangleTypes lst

/-- `name.replace("_", "__")`. -/
def doubleUnderscores (name : String) : String := String.ofList (double '_' name.toList)

/-- `mangleMethodName`. -/
def mangleMethodName (name : String) (type : Option ContextType) : String :=
  match type with
  | some (.funType type) =>
    "_I" ++ doubleUnderscores name ++ "_" ++ retType type.codomain ++ mangleTypes type.domain
  | _ => "i love cs 4120 ta charles sherk"

/-! ## Reading a mangled name -/

/-- The types in a row. -/
theorem toList_mangleTypes (lst : List OrdinaryType) :
    (mangleTypes lst).toList = lst.flatMap fun t => (mangleType t).toList := by
  have hfold : ∀ acc : String, (lst.foldl (fun acc e => acc ++ mangleType e) acc).toList =
      acc.toList ++ lst.flatMap fun t => (mangleType t).toList := by
    induction lst with
    | nil => intro acc; simp
    | cons t lst ih => intro acc; rw [List.foldl_cons, ih]; simp
  exact hfold ""

/-- The types a program can name. -/
def Written : OrdinaryType → Bool
  | .intType => true
  | .boolType => true
  | .arrayType t => Written t
  | .recordType t => Lexer.identifier t
  | _ => false

/-- The first letter of a type says what kind of type it is. -/
theorem mangleType_head {t : OrdinaryType} (h : Written t) :
    ∃ c cs, (mangleType t).toList = c :: cs ∧ c ∈ ['a', 'b', 'i', 'r'] := by
  cases t with
  | intType => exact ⟨'i', [], rfl, by simp⟩
  | boolType => exact ⟨'b', [], rfl, by simp⟩
  | arrayType t => exact ⟨'a', (mangleType t).toList, by simp [mangleType], by simp⟩
  | unknownType possiblyBool => cases h
  | nullType => cases h
  | recordType t =>
    exact ⟨'r', (toString t.length).toList ++ t.toList, by simp [mangleType], by simp⟩

/-- A number ends where its digits end. -/
theorem count_inj {m n : ℕ} {s t : List Char} (hs : ∀ c, s.head? = some c → ¬ c.isDigit)
    (ht : ∀ c, t.head? = some c → ¬ c.isDigit)
    (heq : (toString m).toList ++ s = (toString n).toList ++ t) : m = n ∧ s = t := by
  have hdigits : ∀ k : ℕ, ∀ c ∈ (toString k).toList, c.isDigit := by
    intro k c hc
    have hc : c ∈ Nat.toDigits 10 k := by simpa [Nat.toString_eq_ofList_toDigits] using hc
    exact Nat.isDigit_of_mem_toDigits (by decide) (by decide) hc
  have hsplit := append_inj_of_all (hdigits m) (hdigits n) hs ht heq
  refine ⟨?_, hsplit.2⟩
  have hrepr : toString m = toString n := String.toList_inj.mp hsplit.1
  exact Nat.repr_inj.mp hrepr

/-- A letter is no digit. -/
theorem letter_not_isDigit {c : Char} (h : Lexer.letter c) : ¬ c.isDigit := by
  simp only [Lexer.letter, Bool.or_eq_true, Bool.and_eq_true, decide_eq_true_eq, Char.le_def,
    UInt32.le_iff_toNat_le] at h
  simp only [Char.isDigit, Bool.and_eq_true, decide_eq_true_eq, ge_iff_le, UInt32.le_iff_toNat_le]
  have ha : ('a' : Char).val.toNat = 97 := rfl
  have hA : ('A' : Char).val.toNat = 65 := rfl
  have h9 : ('9' : Char).val.toNat = 57 := rfl
  omega

/-- The length in front of a record name says where the name ends. -/
theorem name_inj {a b : String} {s t : List Char} (ha : Lexer.identifier a)
    (hb : Lexer.identifier b)
    (heq : (toString a.length).toList ++ (a.toList ++ s) =
      (toString b.length).toList ++ (b.toList ++ t)) : a = b ∧ s = t := by
  have hhead : ∀ {x : String} {u : List Char}, Lexer.identifier x →
      ∀ c, (x.toList ++ u).head? = some c → ¬ c.isDigit := by
    intro x u hx c hc
    obtain ⟨d, ds, hd, hletter⟩ := Lexer.identifier_head hx
    rw [hd, List.cons_append, List.head?_cons, Option.some.injEq] at hc
    exact letter_not_isDigit (hc ▸ hletter)
  have hcount := count_inj (hhead ha) (hhead hb) heq
  have hlen : a.toList.length = b.toList.length := by
    rw [String.length_toList, String.length_toList, hcount.1]
  have hnames := List.append_inj hcount.2 hlen
  exact ⟨String.toList_inj.mp hnames.1, hnames.2⟩

/-- No mangled type is the front of another. -/
theorem mangleType_prefixFree :
    PrefixFree (fun t => Written t = true) fun t => (mangleType t).toList := by
  intro a b s t ha hb heq
  dsimp only at ha hb heq
  induction a generalizing b with
  | intType => cases b <;> simp_all [mangleType, Written]
  | boolType => cases b <;> simp_all [mangleType, Written]
  | arrayType a ih =>
    cases b with
    | arrayType b =>
      rw [mangleType, mangleType, String.toList_append, String.toList_append, List.append_assoc,
        List.append_assoc, List.append_cancel_left_eq] at heq
      have h := ih (b := b) ha hb heq
      exact ⟨by rw [h.1], h.2⟩
    | _ => simp_all [mangleType, Written]
  | unknownType possiblyBool => cases ha
  | nullType => cases ha
  | recordType a =>
    cases b with
    | recordType b =>
      simp only [mangleType, String.toList_append, List.append_assoc,
        List.append_cancel_left_eq] at heq
      have h := name_inj ha hb heq
      exact ⟨by rw [h.1], h.2⟩
    | _ => simp_all [mangleType, Written]

/-- The text behind the doubled name starts with a letter that tells the number of results apart. -/
theorem retType_head {codomain : List OrdinaryType} (h : ∀ t ∈ codomain, Written t) :
    ∃ c cs, (retType codomain).toList = c :: cs ∧
      match codomain with
      | [] => c = 'p'
      | [_] => c ∈ ['a', 'b', 'i', 'r']
      | _ => c = 't' := by
  match codomain with
  | [] => exact ⟨'p', [], rfl, rfl⟩
  | [t] => exact mangleType_head (h t List.mem_cons_self)
  | t :: u :: lst =>
    exact ⟨'t', (toString (t :: u :: lst).length).toList ++ (mangleTypes (t :: u :: lst)).toList,
      by simp [retType], rfl⟩

/-- Nor is that of the results. -/
theorem retType_prefixFree :
    PrefixFree (fun lst => ∀ t ∈ lst, Written t = true) fun lst => (retType lst).toList := by
  intro as bs s t has hbs heq
  dsimp only at has hbs heq
  -- the first character tells procedures, one result and several results apart
  obtain ⟨c, cs, hc, hkind⟩ := retType_head has
  obtain ⟨d, ds, hd, hkind'⟩ := retType_head hbs
  have hcd : c = d := by
    rw [hc, hd] at heq
    exact (List.cons.inj heq).1
  subst hcd
  match as, bs with
  | [], [] => exact ⟨rfl, by simpa using heq⟩
  | [], [b] => simp_all
  | [], b :: b' :: bs => simp_all
  | [a], [] => simp_all
  | [a], [b] =>
    have h := mangleType_prefixFree (has a List.mem_cons_self) (hbs b List.mem_cons_self) heq
    exact ⟨by rw [h.1], h.2⟩
  | [a], b :: b' :: bs => simp_all
  | a :: a' :: as, [] => simp_all
  | a :: a' :: as, [b] => simp_all
  | a :: a' :: as, b :: b' :: bs =>
    have hhead : ∀ {x : OrdinaryType} {lst : List OrdinaryType} {u : List Char}, Written x →
        ∀ c, ((x :: lst).flatMap (fun t => (mangleType t).toList) ++ u).head? = some c →
          ¬ c.isDigit := by
      intro x lst u hx c hc
      obtain ⟨d, ds, hd, hmem⟩ := mangleType_head hx
      rw [List.flatMap_cons, hd, List.cons_append, List.cons_append, List.head?_cons,
        Option.some.injEq] at hc
      have hall : ∀ d ∈ ['a', 'b', 'i', 'r'], ¬ d.isDigit := by
        intro d hd
        fin_cases hd <;> decide
      exact hc ▸ hall d hmem
    simp only [retType, String.toList_append, List.append_assoc, List.append_cancel_left_eq,
      toList_mangleTypes] at heq
    have hcount := count_inj (hhead (has a List.mem_cons_self)) (hhead (hbs b List.mem_cons_self))
      heq
    exact mangleType_prefixFree.flatMap has hbs hcount.1 hcount.2

/-- The parts of a mangled name. -/
theorem toList_mangleMethodName (name : String) (type : FunType) :
    (mangleMethodName name (some (.funType type))).toList =
      '_' :: 'I' :: (double '_' name.toList ++ '_' :: ((retType type.codomain).toList ++
        (mangleTypes type.domain).toList)) := by
  simp [mangleMethodName, doubleUnderscores]

/-- A function type a program can write down. -/
def WrittenFun (type : FunType) : Prop :=
  (∀ t ∈ type.domain, Written t) ∧ ∀ t ∈ type.codomain, Written t

/-- A symbol name tells the function's name, its parameters and its results, and is none of the names of
the runtime. -/
theorem mangleMethodName_injective {f g : String} {s t : FunType} (hs : WrittenFun s)
    (ht : WrittenFun t) :
    (mangleMethodName f (some (.funType s)) = mangleMethodName g (some (.funType t)) →
      f = g ∧ s.domain = t.domain ∧ s.codomain = t.codomain) ∧
    mangleMethodName f (some (.funType s)) ≠ "_eta_alloc" ∧
    mangleMethodName f (some (.funType s)) ≠ "_eta_out_of_bounds" := by
  refine ⟨?_, ?_, ?_⟩
  · intro heq
    have hlist := congrArg String.toList heq
    rw [toList_mangleMethodName, toList_mangleMethodName, List.cons.injEq, List.cons.injEq] at hlist
    have hkinds : ∀ {type : FunType}, WrittenFun type →
        ((retType type.codomain).toList ++ (mangleTypes type.domain).toList).head? ≠ some '_' := by
      intro type htype hhead
      obtain ⟨c, cs, hc, hkind⟩ := retType_head htype.2
      rw [hc, List.cons_append, List.head?_cons, Option.some.injEq] at hhead
      subst hhead
      split at hkind <;> simp at hkind
    have hname := double_inj (hkinds hs) (hkinds ht) hlist.2.2
    have hret := retType_prefixFree hs.2 ht.2 hname.2
    have hparams := hret.2
    rw [toList_mangleTypes, toList_mangleTypes] at hparams
    have hne : ∀ t : OrdinaryType, Written t = true → (mangleType t).toList ≠ [] := by
      intro t ht hnil
      obtain ⟨c, cs, hc, -⟩ := mangleType_head ht
      exact absurd (hc.symm.trans hnil) (List.cons_ne_nil c cs)
    exact ⟨String.toList_inj.mp hname.1,
      mangleType_prefixFree.flatMap_injective hne hs.1 ht.1 hparams, hret.1⟩
  · intro heq
    have hlist := congrArg String.toList heq
    rw [toList_mangleMethodName] at hlist
    simp at hlist
  · intro heq
    have hlist := congrArg String.toList heq
    rw [toList_mangleMethodName] at hlist
    simp at hlist

/-- A trailing underscore in the name is not taken for the separator: `f_(r[]): int` and `f(r[]): int`. -/
theorem mangleMethodName_underscore :
    mangleMethodName "f_" (some (.funType ⟨[.arrayType (.recordType "r")], [.intType], true⟩)) ≠
      mangleMethodName "f" (some (.funType ⟨[.arrayType (.recordType "r")], [.intType], true⟩)) := by
  have hwritten : WrittenFun ⟨[.arrayType (.recordType "r")], [.intType], true⟩ := by
    simp [WrittenFun, Written, Lexer.identifier, Lexer.letter]
  intro heq
  have hname := ((mangleMethodName_injective hwritten hwritten).1 heq).1
  exact absurd hname (by decide)

end IRTranslator

end Jaek
