import Jaek.IR.Optimize.FoldUnit
import Jaek.Lexer.Numerals
import Jaek.Parser.GlobalDecl
import Jaek.Typechecker.Context

/-!
# Initialisers of global variables

A declaration `x : int = n` from its text to its data word: the scanner and the parser (`read`), the two
passes of the type checker over global variables (`bindGlobals`, `checkGlobal`), and `translateData`.

The production for a sign and a number builds the literal without the sign. So of the numbers below zero
only the smallest one keeps its value, which the scanner reads with its sign (`initialiser_kept_iff`).
-/

namespace Jaek

open AST

/-! ## The type checker -/

/-- The first pass: a name must be new. -/
def bindGlobals (Γ : Context) (defn : GlobalDecl Unit) : Option Context :=
  defn.ids.foldlM (fun Γ id =>
    if Γ.contains id then none else some (Γ.bind id (.varBind (translateType defn.type)))) Γ

/-- The types of the literals the parser builds for globals. -/
def literalType : Expr Unit → Option OrdinaryType
  | .intLit _ _ => some .intType
  | .charLit _ _ => some .intType
  | .boolLit _ _ => some .boolType
  | .stringLit _ _ => some (.arrayType .intType)
  | .nullLit _ => some .nullType
  | _ => none

/-- The second pass: a name is bound, and its initialiser has its type. -/
def checkGlobal (Γ : Context) (defn : GlobalDecl Unit) : Bool :=
  defn.ids.all fun id =>
    match Γ.lookup id, defn.value with
    | none, _ => false
    | some _, none => true
    | some (.varBind item), some value => (literalType value).any (·.equals item)
    | some _, some _ => false

/-! ## The data -/

namespace IRTranslator

/-- `text.length` of the source, which counts the characters outside the basic plane twice. -/
def utf16Length (text : List Char) : ℕ := (text.map fun c => if c.toNat < 2 ^ 16 then 1 else 2).sum

/-- The word of a literal that is a constant. The elements of an array that are none throw. -/
def constant : Expr Unit → Option Word
  | .boolLit _ bool => some (if bool then 1 else 0)
  | .charLit _ char => some (.ofNat 64 char)
  | .intLit _ num => some num
  | _ => none

/-- The words of an initialiser. -/
def initialData : Option (Expr Unit) → Option (List Word)
  | some (.arrayLit _ list) => list.mapM constant
  | some (.boolLit _ bool) => some [if bool then 1 else 0]
  | some (.charLit _ char) => some [.ofNat 64 char]
  | some (.intLit _ num) => some [num]
  | some (.stringLit _ text) =>
    some (.ofNat 64 (utf16Length text.toList) :: text.toList.map fun c => .ofNat 64 c.toNat)
  | some (.nullLit _) => some [0]
  | none => some [0]
  | _ => none

def translateData (n : GlobalDecl Unit) : Option (List IRData) :=
  if n.ids.length ≠ 1 ∧ n.value.isSome then none
  else do
    let data ← initialData n.value
    return n.ids.map fun id => ⟨id, data⟩

end IRTranslator

/-! ## Declarations of numbers -/

open LexUtil Scanner GlobalDeclParser IRTranslator

/-- A number in decimal, with the sign in front of the blanks. -/
def decimal (blanks : List Char) (n : ℤ) : List Char :=
  if 0 ≤ n then Nat.toDigits 10 n.toNat else '-' :: (blanks ++ Nat.toDigits 10 n.natAbs)

/-- The declaration of a variable, with a semicolon and the rest of the file. -/
def declaration (name blanks : List Char) (n : ℤ) (rest : List Char) : List Char :=
  name ++ " : int = ".toList ++ decimal blanks n ++ ';' :: rest

/-- The declaration is read and checked, and its data are the one word. -/
def Accepted (extension : String) (Γ : Context) (name text : List Char) (tokens : List Token)
    (word : Word) : Prop :=
  ∃ decl Γ', GlobalDeclParser.read extension text = .ok (decl, tokens) ∧
    bindGlobals Γ decl = some Γ' ∧ checkGlobal Γ' decl ∧
    ∃ data, translateData decl = some data ∧
      data.map (fun d => (d.name, d.data)) = [(String.ofList name, [word])]

def Rejects (extension : String) (text : List Char) : Prop :=
  ∃ reason, GlobalDeclParser.read extension text = .error reason

/-- In the range of the words a number is accepted as that word, and outside of it the text is
rejected. -/
def Kept (extension : String) (Γ : Context) (name blanks : List Char) (n : ℤ) (rest : List Char)
    (tokens : List Token) : Prop :=
  if -2 ^ 63 ≤ n ∧ n < 2 ^ 63 then
    Accepted extension Γ name (declaration name blanks n rest) tokens (.ofInt 64 n)
  else Rejects extension (declaration name blanks n rest)

variable {extension : String} {Γ : Context} {name blanks rest text : List Char} {tokens ts : List Token}
  {n : ℤ} {m : ℕ} {word : Word}

/-! ## The tokens of a declaration -/

theorem scan_declaration (hname : IsName extension name) (s : List Char) :
    scan extension (name ++ " : int = ".toList ++ s) =
      (scan extension s).map
        ([Token.IDENTIFIER name, .symbol [':'], .keyword ['i', 'n', 't'], .symbol ['=']] ++ ·) := by
  have htext : name ++ " : int = ".toList ++ s =
      name ++ ' ' :: ':' :: ' ' :: 'i' :: 'n' :: 't' :: ' ' :: '=' :: ' ' :: s := by simp
  rw [htext, scan_name hname rfl, scan_whitespace rfl,
    scan_step (some (.symbol [':'])) (rfl : Scanner.longestMatch _ = some (.symbol, 1)) rfl]
  rw [List.drop_succ_cons, List.drop_zero, scan_whitespace rfl,
    scan_step (some (.keyword ['i', 'n', 't'])) (rfl : Scanner.longestMatch _ = some (.reserved, 3)) rfl]
  rw [List.drop_succ_cons, List.drop_succ_cons, List.drop_succ_cons, List.drop_zero,
    scan_whitespace rfl, scan_step (some (.symbol ['='])) (rfl : Scanner.longestMatch _ = some (.symbol, 1)) rfl]
  rw [List.drop_succ_cons, List.drop_zero, scan_whitespace rfl]
  cases scan extension s <;> rfl

theorem scan_semicolon (hrest : scan extension rest = .ok tokens) :
    scan extension (';' :: rest) = .ok (.symbol [';'] :: tokens) := by
  rw [scan_step (some (.symbol [';'])) (rfl : Scanner.longestMatch _ = some (.symbol, 1)) rfl]
  rw [List.drop_succ_cons, List.drop_zero, hrest]
  rfl

/-- A text that the scanner does not take is rejected. -/
theorem rejects_of_scan {e : LexicalError} (hname : IsName extension name)
    (h : scan extension (decimal blanks n ++ ';' :: rest) = .error e) :
    Rejects extension (declaration name blanks n rest) := by
  have hscan := scan_declaration hname (decimal blanks n ++ ';' :: rest)
  rw [h, ← List.append_assoc] at hscan
  refine ⟨.lexical e, ?_⟩
  rw [GlobalDeclParser.read, declaration, hscan]
  rfl

/-- What is read after the equals sign is the initialiser. -/
theorem globalDecl_tokens {pl : Expr Unit} {ts' : List Token} (hinit : initialiser ts = .ok (pl, ts')) :
    globalDecl extension ([Token.IDENTIFIER name, .symbol [':'], .keyword ['i', 'n', 't'],
      .symbol ['=']] ++ ts) = .ok (⟨[String.ofList name], .int, some pl⟩, ts') := by
  refine Except.bind_eq_ok.mpr ⟨_, rfl, Except.bind_eq_ok.mpr ⟨_, rfl, ?_⟩⟩
  exact Except.bind_eq_ok.mpr ⟨_, hinit, rfl⟩

theorem read_declaration {pl : Expr Unit} {ts' : List Token} (hname : IsName extension name)
    (h : scan extension (decimal blanks n ++ ';' :: rest) = .ok ts)
    (hinit : initialiser ts = .ok (pl, ts')) (hsemi : semi ts' = .ok tokens) :
    GlobalDeclParser.read extension (declaration name blanks n rest) =
      .ok (⟨[String.ofList name], .int, some pl⟩, tokens) := by
  have hscan := scan_declaration hname (decimal blanks n ++ ';' :: rest)
  rw [h, ← List.append_assoc] at hscan
  rw [GlobalDeclParser.read, declaration, hscan]
  refine Except.bind_eq_ok.mpr ⟨_, rfl, Except.bind_eq_ok.mpr ⟨_, globalDecl_tokens hinit, ?_⟩⟩
  exact Except.bind_eq_ok.mpr ⟨_, hsemi, rfl⟩

/-- A declaration must be followed by what can follow one. -/
theorem rejects_of_semi {pl : Expr Unit} {ts' : List Token} {reason : Rejected}
    (hname : IsName extension name) (h : scan extension (decimal blanks n ++ ';' :: rest) = .ok ts)
    (hinit : initialiser ts = .ok (pl, ts')) (hsemi : semi ts' = .error reason) :
    Rejects extension (declaration name blanks n rest) := by
  have hscan := scan_declaration hname (decimal blanks n ++ ';' :: rest)
  rw [h, ← List.append_assoc] at hscan
  cases hread : GlobalDeclParser.read extension (declaration name blanks n rest) with
  | error e => exact ⟨e, hread⟩
  | ok p =>
    rw [GlobalDeclParser.read, declaration, hscan] at hread
    obtain ⟨tokens, htokens, hread⟩ := Except.bind_eq_ok.mp hread
    cases htokens
    obtain ⟨q, hdecl, hread⟩ := Except.bind_eq_ok.mp hread
    rw [globalDecl_tokens hinit] at hdecl
    cases hdecl
    obtain ⟨rest', hrest', -⟩ := Except.bind_eq_ok.mp hread
    rw [hsemi] at hrest'
    cases hrest'

/-- A declaration that is read has its literal for data. -/
theorem accepted_iff (hfresh : Γ.contains (String.ofList name) = false) (hscope : Γ.stack ≠ [])
    {num : Word} (h : GlobalDeclParser.read extension text =
      .ok (⟨[String.ofList name], .int, some (.intLit () num)⟩, tokens)) :
    Accepted extension Γ name text tokens word ↔ num = word := by
  constructor
  · rintro ⟨decl, Γ', hread, -, -, data, hdata, hwords⟩
    rw [h] at hread
    cases hread
    cases hdata
    simpa using hwords
  · rintro rfl
    refine ⟨_, Γ.bind (String.ofList name) (.varBind .intType), h, ?_, ?_, _, rfl, rfl⟩
    · simp [bindGlobals, hfresh, translateType]
    · obtain ⟨scope, stack, hstack⟩ := List.exists_cons_of_ne_nil hscope
      have hlookup : (Γ.bind (String.ofList name) (.varBind .intType)).lookup (String.ofList name) =
          some (.varBind .intType) := by
        simp [Context.bind, Context.lookup, hstack]
      simp [checkGlobal, hlookup, literalType, OrdinaryType.equals]

/-! ## Numbers as literals -/

theorem bigInteger_min (t : List Char) : (2 : ℤ) ^ 63 * 10 ^ t.length ≤ bigInteger (minDigits ++ t) := by
  have hhead : minDigits ++ t = '9' :: (minDigits.tail ++ t) := rfl
  have hbig : bigInteger (minDigits ++ t) = (Nat.ofDigitChars 10 (minDigits ++ t) 0 : ℤ) := by
    rw [hhead]
    rfl
  have hmin : Nat.ofDigitChars 10 minDigits 0 = 2 ^ 63 := by decide
  rw [hbig, Nat.ofDigitChars_append, hmin, Nat.ofDigitChars_eq_ofDigitChars_zero]
  push_cast
  linarith [Int.natCast_nonneg (Nat.ofDigitChars 10 t 0)]

/-- Digits that begin with those of `2 ^ 63` are at least that number, and greater if there are more. -/
theorem le_of_minDigits_front {t : List Char} (h : minDigits ++ t = Nat.toDigits 10 m) :
    2 ^ 63 ≤ m ∧ (t ≠ [] → 2 ^ 63 < m) ∧ (t = [] → m = 2 ^ 63) := by
  have hle := bigInteger_min t
  rw [h, bigInteger_toDigits] at hle
  have hpos : (1 : ℤ) ≤ 10 ^ t.length := one_le_pow₀ (by norm_num)
  refine ⟨by exact_mod_cast (by nlinarith : (2 : ℤ) ^ 63 ≤ m), ?_, ?_⟩
  · intro ht
    have hten : (10 : ℤ) ≤ 10 ^ t.length := by
      calc (10 : ℤ) = 10 ^ 1 := (pow_one _).symm
        _ ≤ 10 ^ t.length := pow_le_pow_right₀ (by norm_num) (List.length_pos_iff.mpr ht)
    exact_mod_cast (by nlinarith : (2 : ℤ) ^ 63 < m)
  · rintro rfl
    have hm := bigInteger_toDigits m
    rw [← h, List.append_nil] at hm
    exact_mod_cast hm.symm.trans (by decide : bigInteger minDigits = 2 ^ 63)

theorem minDigits_eq_toDigits : Nat.toDigits 10 (2 ^ 63) = minDigits := by decide

/-- A number up to `maxVal` is a literal, with or without a sign in front of it. -/
theorem initialiser_toDigits (hm : (m : ℤ) ≤ maxVal) (ts : List Token) :
    initialiser (.INTEGER_LITERAL (Nat.toDigits 10 m) :: ts) =
      .ok (.intLit () (.ofInt 64 m), ts) ∧
    initialiser (.symbol ['-'] :: .INTEGER_LITERAL (Nat.toDigits 10 m) :: ts) =
      .ok (.intLit () (.ofInt 64 m), ts) := by
  have hmax : maxVal = 2 ^ 63 - 1 := rfl
  have hparse : parseLong (Nat.toDigits 10 m) = .ok (.ofInt 64 m) := by
    rw [parseLong]
    simp only [bigInteger_toDigits]
    rw [if_pos ⟨by omega, by omega⟩]
  have hmin : Nat.toDigits 10 m ≠ minDigits := by
    intro heq
    have hval := (le_of_minDigits_front (t := []) (by rw [List.append_nil, heq])).1
    omega
  have hsign : Nat.toDigits 10 m ≠ '-' :: minDigits := by
    intro heq
    have hdigit : '-'.isDigit := isDigit_of_mem_toDigits (m := m) (by simp [heq])
    cases hdigit
  constructor
  · simp only [initialiser, primitiveLiteral, if_neg hmin, hparse]
    rfl
  · simp only [initialiser, if_neg hsign, hparse]
    rfl

/-! ## The three ways of a number -/

section

variable (hname : IsName extension name) (hrest : scan extension rest = .ok tokens)
include hname hrest

/-- A number without a sign. -/
theorem kept_of_nonneg (hfresh : Γ.contains (String.ofList name) = false) (hscope : Γ.stack ≠ [])
    (hn : 0 ≤ n) : Kept extension Γ name blanks n rest tokens := by
  have hmax : maxVal = 2 ^ 63 - 1 := rfl
  have hcast : (n.toNat : ℤ) = n := Int.toNat_of_nonneg hn
  have hscan := scan_toDigits extension n.toNat (d := ';') rfl rest
  have htext : decimal blanks n = Nat.toDigits 10 n.toNat := if_pos hn
  rw [← htext, hcast] at hscan
  rw [Kept]
  split_ifs with hrange
  · rw [if_pos (by omega), scan_semicolon hrest] at hscan
    have hinit := (initialiser_toDigits (m := n.toNat) (by omega) (.symbol [';'] :: tokens)).1
    rw [hcast, ← htext] at hinit
    exact (accepted_iff hfresh hscope (read_declaration hname hscan hinit rfl)).mpr rfl
  · rw [if_neg (by omega)] at hscan
    exact rejects_of_scan hname hscan

omit hrest in
/-- The scanner takes the digits of `2 ^ 63` with the sign; more digits are an error. -/
theorem rejects_of_more {t : List Char} (hn : n < 0) (hblanks : ∀ c ∈ blanks, isBlank c)
    (h : minDigits ++ t = Nat.toDigits 10 n.natAbs) (ht : t ≠ []) :
    Rejects extension (declaration name blanks n rest) := by
  have htext : decimal blanks n ++ ';' :: rest = '-' :: (blanks ++ (minDigits ++ (t ++ ';' :: rest))) := by
    rw [decimal, if_neg (not_le.mpr hn), ← h]
    simp
  have hscan := scan_min extension hblanks (t ++ ';' :: rest)
  rw [← htext] at hscan
  obtain ⟨c, cs, rfl⟩ := List.exists_cons_of_ne_nil ht
  cases hmore : scan extension (c :: cs ++ ';' :: rest) with
  | error e =>
    rw [hmore] at hscan
    exact rejects_of_scan hname hscan
  | ok ts =>
    have hc : c.isDigit := isDigit_of_mem_toDigits (m := n.natAbs) (by simp [← h])
    obtain ⟨k, ts, rfl⟩ := scan_digit_head hc hmore
    rw [hmore] at hscan
    exact rejects_of_semi hname hscan rfl rfl

theorem accepted_min (hfresh : Γ.contains (String.ofList name) = false) (hscope : Γ.stack ≠ [])
    (hblanks : ∀ c ∈ blanks, isBlank c) :
    Accepted extension Γ name (declaration name blanks (-2 ^ 63) rest) tokens (.ofInt 64 (-2 ^ 63)) := by
  have htext : decimal blanks (-2 ^ 63) ++ ';' :: rest =
      '-' :: (blanks ++ (minDigits ++ ';' :: rest)) := by
    rw [decimal, if_neg (by norm_num)]
    simp [← minDigits_eq_toDigits]
  have hscan := scan_min extension hblanks (';' :: rest)
  rw [← htext, scan_semicolon hrest] at hscan
  have hread : GlobalDeclParser.read extension (declaration name blanks (-2 ^ 63) rest) =
      .ok (⟨[String.ofList name], .int, some (.intLit () (.ofInt 64 (-2 ^ 63)))⟩, tokens) :=
    read_declaration hname hscan rfl rfl
  exact (accepted_iff hfresh hscope hread).mpr rfl

/-- Without `MinInteger` a number with a sign is read as the number behind the sign. -/
theorem read_minus (hn : n < 0) (hblanks : ∀ c ∈ blanks, isWhitespace c)
    (h : ¬ ((∀ c ∈ blanks, isBlank c) ∧ minDigits <+: Nat.toDigits 10 n.natAbs))
    (hm : (n.natAbs : ℤ) ≤ maxVal) :
    GlobalDeclParser.read extension (declaration name blanks n rest) =
      .ok (⟨[String.ofList name], .int, some (.intLit () (.ofInt 64 n.natAbs))⟩, tokens) := by
  have htext : decimal blanks n ++ ';' :: rest =
      '-' :: (blanks ++ (Nat.toDigits 10 n.natAbs ++ ';' :: rest)) := by
    rw [decimal, if_neg (not_le.mpr hn)]
    simp
  have hscan := scan_minus extension hblanks (d := ';') rfl h rest
  rw [← htext, if_pos hm, scan_semicolon hrest] at hscan
  exact read_declaration hname hscan (initialiser_toDigits hm (.symbol [';'] :: tokens)).2 rfl

omit hrest in
/-- Without `MinInteger` the number behind the sign must not be too large. -/
theorem rejects_minus (hn : n < 0) (hblanks : ∀ c ∈ blanks, isWhitespace c)
    (h : ¬ ((∀ c ∈ blanks, isBlank c) ∧ minDigits <+: Nat.toDigits 10 n.natAbs))
    (hm : ¬ (n.natAbs : ℤ) ≤ maxVal) : Rejects extension (declaration name blanks n rest) := by
  have htext : decimal blanks n ++ ';' :: rest =
      '-' :: (blanks ++ (Nat.toDigits 10 n.natAbs ++ ';' :: rest)) := by
    rw [decimal, if_neg (not_le.mpr hn)]
    simp
  have hscan := scan_minus extension hblanks (d := ';') rfl h rest
  rw [← htext, if_neg hm] at hscan
  exact rejects_of_scan hname hscan

/-- So of these numbers those that are too small are treated as they should be. -/
theorem kept_of_minus (hfresh : Γ.contains (String.ofList name) = false) (hscope : Γ.stack ≠ [])
    (hn : n < 0) (hblanks : ∀ c ∈ blanks, isWhitespace c)
    (h : ¬ ((∀ c ∈ blanks, isBlank c) ∧ minDigits <+: Nat.toDigits 10 n.natAbs)) :
    Kept extension Γ name blanks n rest tokens ↔ n < -2 ^ 63 := by
  have hmax : maxVal = 2 ^ 63 - 1 := rfl
  rw [Kept]
  by_cases hm : (n.natAbs : ℤ) ≤ maxVal
  · rw [if_pos ⟨by omega, by omega⟩,
      accepted_iff hfresh hscope (read_minus hname hrest hn hblanks h hm)]
    constructor
    · intro heq
      have hint := congrArg BitVec.toInt heq
      rw [BitVec.toInt_ofInt_eq_self (by decide) (by omega) (by omega),
        BitVec.toInt_ofInt_eq_self (by decide) (by omega) (by omega)] at hint
      omega
    · intro hlt
      omega
  · have hrejects : Rejects extension (declaration name blanks n rest) :=
      rejects_minus hname hn hblanks h hm
    split_ifs with hrange
    · -- The number is `-2 ^ 63`, and the text is rejected all the same.
      constructor
      · rintro ⟨decl, Γ', hread, -⟩
        obtain ⟨reason, hreason⟩ := hrejects
        rw [hreason] at hread
        cases hread
      · intro hlt
        omega
    · exact iff_of_true hrejects (by omega)

end

/-- A number keeps its value, or is rejected as it should be, exactly when it is not below zero, is too
small, or is the smallest one with no other white space than blanks and tabs behind the sign. -/
theorem initialiser_kept_iff (hname : IsName extension name) (hrest : scan extension rest = .ok tokens)
    (hfresh : Γ.contains (String.ofList name) = false) (hscope : Γ.stack ≠ [])
    (hblanks : ∀ c ∈ blanks, isWhitespace c) :
    Kept extension Γ name blanks n rest tokens ↔
      0 ≤ n ∨ n < -2 ^ 63 ∨ n = -2 ^ 63 ∧ ∀ c ∈ blanks, isBlank c := by
  by_cases hn : 0 ≤ n
  · exact iff_of_true (kept_of_nonneg hname hrest hfresh hscope hn) (.inl hn)
  rw [not_le] at hn
  by_cases h : (∀ c ∈ blanks, isBlank c) ∧ minDigits <+: Nat.toDigits 10 n.natAbs
  · obtain ⟨hall, t, ht⟩ := h
    obtain ⟨hle, hmore, heq⟩ := le_of_minDigits_front ht
    by_cases hnil : t = []
    · have hmin : n = -2 ^ 63 := by
        have := heq hnil
        omega
      subst hmin
      refine iff_of_true ?_ (.inr (.inr ⟨rfl, hall⟩))
      rw [Kept, if_pos (by norm_num)]
      exact accepted_min hname hrest hfresh hscope hall
    · have hlt : n < -2 ^ 63 := by
        have := hmore hnil
        omega
      refine iff_of_true ?_ (.inr (.inl hlt))
      rw [Kept, if_neg (by omega)]
      exact rejects_of_more hname hn hall ht hnil
  · rw [kept_of_minus hname hrest hfresh hscope hn hblanks h]
    constructor
    · intro hlt
      exact .inr (.inl hlt)
    · rintro (hge | hlt | ⟨rfl, hall⟩)
      · omega
      · exact hlt
      · exact absurd ⟨hall, by
          rw [show (-2 ^ 63 : ℤ).natAbs = 2 ^ 63 from rfl, minDigits_eq_toDigits]⟩ h

theorem isName_x : IsName "eta" ['x'] where
  shape := ⟨'x', [], rfl, rfl, by simp⟩
  not_reserved := by decide
  not_rhoReserved := .inl rfl

/-- The smallest number, with blanks behind the sign. -/
theorem initialiser_kept_min :
    Kept "eta" .init ['x'] [' ', '\t'] (-2 ^ 63) [] [.EOF] ↔
      0 ≤ (-2 ^ 63 : ℤ) ∨ (-2 ^ 63 : ℤ) < -2 ^ 63 ∨
        (-2 ^ 63 : ℤ) = -2 ^ 63 ∧ ∀ c ∈ [' ', '\t'], isBlank c :=
  initialiser_kept_iff isName_x scan_nil rfl (by simp [Context.init]) (by simp [isWhitespace])

/-- `x : int = -5;` is accepted, and its word is 5. -/
theorem initialiser_minus_five :
    Accepted "eta" .init ['x'] (declaration ['x'] [] (-5) []) [.EOF] 5 ∧
      ¬ Kept "eta" .init ['x'] [] (-5) [] [.EOF] := by
  have hdigits : ¬ ((∀ c ∈ ([] : List Char), isBlank c) ∧
      minDigits <+: Nat.toDigits 10 (-5 : ℤ).natAbs) := by
    intro h
    exact absurd h.2.length_le (by decide)
  have hscope : Context.init.stack ≠ [] := by simp [Context.init]
  constructor
  · have hread := read_minus isName_x scan_nil (by decide) (by simp) hdigits (by decide)
    exact (accepted_iff rfl hscope hread).mpr rfl
  · rw [kept_of_minus isName_x scan_nil rfl hscope (by decide) (by simp) hdigits]
    norm_num

end Jaek
