import Jaek.Lexer.Relexing

/-!
# The scanner

The state `YYINITIAL` of `Lexer.flex`. At each place the rule with the longest match is taken, the first
one if there are several; its action makes a token or skips the text. `scan` takes actions up to the end
of the file (`scan_step`).

The attribute of a keyword or symbol is its text, which `getSym` turns into a number of the parser's table.
Positions are left out.
-/

namespace Jaek

/-- The tokens that the parser gets. -/
inductive Token
  | IDENTIFIER (text : List Char)
  | INTEGER_LITERAL (text : List Char)
  | CHARACTER_LITERAL (text : ℕ)
  | STRING_LITERAL (text : List Char)
  | keyword (text : List Char)
  | symbol (text : List Char)
  | EOF
deriving DecidableEq, Repr

/-- The files of Eta, in which records and what goes with them are not part of the language. -/
def isEta (extension : String) : Bool := extension = "eta" || extension = "eti"

namespace LexUtil

/-- `MAX_VAL`. -/
def maxVal : ℤ := 9223372036854775807

/-- `new BigInteger(s)` for digits with or without a minus sign. -/
def bigInteger : List Char → ℤ
  | '-' :: digits => -(Nat.ofDigitChars 10 digits 0 : ℤ)
  | digits => Nat.ofDigitChars 10 digits 0

/-- What `\s` matches. -/
def isSpace (c : Char) : Bool :=
  c = ' ' || c = '\t' || c = '\n' || c = '\x0b' || c = '\x0c' || c = '\r'

/-- `parseToInt`: a number that is out of range is a lexical error. -/
def parseToInt (matched : List Char) : Except LexicalError (List Char) :=
  let matched := matched.filter fun c => !isSpace c
  if bigInteger matched ≤ maxVal then .ok matched else .error .InvalidInteger

end LexUtil

namespace Scanner

open LexUtil

/-! ## The rules -/

/-- The rules of `YYINITIAL`, in their order. -/
inductive Rule
  | whitespace | reserved | rhoReserved | identifier | minInteger | symbol | rhoSymbol | integer
  | charLiteral | quote | comment | charWrong | charNotEnd | other
deriving DecidableEq, Repr

open Rule

/-- `Whitespace`. -/
def isWhitespace (c : Char) : Bool :=
  c = ' ' || c = '\t' || c = '\x0c' || c = '\r' || c = '\n'

/-- The blanks that `MinInteger` allows behind the sign. -/
def isBlank (c : Char) : Bool := c = ' ' || c = '\t'

/-- What an identifier goes on with. -/
def isIdentifierPart (c : Char) : Bool := c.isDigit || c.isAlpha || c = '_' || c = '\''

/-- The reserved words. -/
def reservedWords : List (List Char) :=
  ["if", "return", "else", "use", "while", "length", "int", "bool", "true", "false"].map String.toList

/-- Those of Rho files only. -/
def rhoReservedWords : List (List Char) := ["break", "null", "record"].map String.toList

/-- The operators and separators. -/
def symbols : List (List Char) :=
  ["-", "!", "*", "*>>", "/", "%", "+", "_", "<", "<=", ">=", ",", ">", "==", "!=", "=", "&", "|",
    "(", ")", "[", "]", "\x7b", "\x7d", ":", ";"].map String.toList

/-- The digits of `2 ^ 63`. -/
def minDigits : List Char := "9223372036854775808".toList

/-- The length of the longest of some words at the front of the text. -/
def wordLength (words : List (List Char)) (s : List Char) : Option ℕ :=
  ((words.filter fun w => w.isPrefixOf s).map List.length).max?

/-- The length of a character literal without the first quote. -/
def charLiteralLength : List Char → Option ℕ
  | '\\' :: s =>
    match unicode s, s with
    | some (lexeme, '\'' :: _), _ => some (lexeme.length + 2)
    | _, c :: '\'' :: _ => if c ∈ ['\\', '"', '\'', 'n', 't', 'r'] then some 3 else none
    | _, _ => none
  | c :: '\'' :: _ => if c = '\'' then none else some 2
  | _ => none

/-- The length of the longest text at the front that the expression of a rule matches. -/
def matchLength : Rule → List Char → Option ℕ
  | whitespace, c :: _ => if isWhitespace c then some 1 else none
  | reserved, s => wordLength reservedWords s
  | rhoReserved, s => wordLength rhoReservedWords s
  | identifier, c :: s => if c.isAlpha then some ((s.takeWhile isIdentifierPart).length + 1) else none
  | minInteger, '-' :: s =>
    if minDigits.isPrefixOf (s.dropWhile isBlank) then
      some ((s.takeWhile isBlank).length + minDigits.length + 1)
    else none
  | symbol, s => wordLength symbols s
  | rhoSymbol, '.' :: _ => some 1
  | integer, c :: s =>
    if c = '0' then some 1 else if c.isDigit then some ((s.takeWhile Char.isDigit).length + 1) else none
  | charLiteral, '\'' :: s => (charLiteralLength s).map (· + 1)
  | quote, '"' :: _ => some 1
  | comment, '/' :: '/' :: _ => some 2
  | charWrong, '\'' :: c :: _ => if c = '\n' then none else some 2
  | charNotEnd, '\'' :: _ => some 1
  | other, _ :: _ => some 1
  | _, _ => none

/-- The rules of `YYINITIAL`, in their order. -/
def rules : List Rule :=
  [whitespace, reserved, rhoReserved, identifier, minInteger, symbol, rhoSymbol, integer, charLiteral,
    quote, comment, charWrong, charNotEnd, other]

/-- The rule that is taken in front of the text, with the length of its match. -/
def longestMatch (s : List Char) : Option (Rule × ℕ) :=
  LongestMatch.among (fun rule => matchLength rule s) rules

/-- The action of a rule on its lexeme: a token, if it makes one, and the text behind. -/
def action (extension : String) (lexeme rest : List Char) :
    Rule → Except LexicalError (Option Token × List Char)
  | whitespace => .ok (none, rest)
  | reserved => .ok (some (.keyword lexeme), rest)
  | rhoReserved =>
    if isEta extension then .ok (some (.IDENTIFIER lexeme), rest)
    else .ok (some (.keyword lexeme), rest)
  | identifier => .ok (some (.IDENTIFIER lexeme), rest)
  | minInteger => do return (some (.INTEGER_LITERAL (← parseToInt lexeme)), rest)
  | symbol => .ok (some (.symbol lexeme), rest)
  | rhoSymbol => if isEta extension then .error .InvalidId else .ok (some (.symbol lexeme), rest)
  | integer => do return (some (.INTEGER_LITERAL (← parseToInt lexeme)), rest)
  | charLiteral => do return (some (.CHARACTER_LITERAL (← parseToChar lexeme.tail.dropLast)), rest)
  | quote => do
    let (chars, rest) ← stringState rest
    return (some (.STRING_LITERAL (getStringRepresentation chars)), rest)
  | comment => .ok (none, (rest.dropWhile (· ≠ '\n')).tail)
  | charWrong => .error .CharWrong
  | charNotEnd => .error .CharNotEnd
  | other => .error .InvalidId

/-! ## The scanner makes progress -/

variable {extension : String} {s rest : List Char} {rule : Rule} {n : ℕ} {words : List (List Char)}

/-- What is matched is a word of the list. -/
theorem wordLength_eq_some (h : wordLength words s = some n) :
    ∃ w ∈ words, w <+: s ∧ w.length = n := by
  have hmem := List.max?_mem h
  obtain ⟨w, hw, hlength⟩ := List.mem_map.mp hmem
  rw [List.mem_filter, List.isPrefixOf_iff_prefix] at hw
  exact ⟨w, hw.1, hw.2, hlength⟩

/-- No word of the list that matches is longer. -/
theorem le_wordLength {w : List Char} (hw : w ∈ words) (hfront : w <+: s) :
    ∃ n, wordLength words s = some n ∧ w.length ≤ n := by
  have hmem : w.length ∈ (words.filter fun w => w.isPrefixOf s).map List.length :=
    List.mem_map_of_mem (List.mem_filter.mpr ⟨hw, List.isPrefixOf_iff_prefix.mpr hfront⟩)
  cases hmax : wordLength words s with
  | none =>
    rw [wordLength, List.max?_eq_none_iff] at hmax
    simp [hmax] at hmem
  | some n => exact ⟨n, rfl, (List.max?_eq_some_iff.mp hmax).2 _ hmem⟩

/-- Every rule matches at least one character. -/
theorem matchLength_pos (h : matchLength rule s = some n) : 0 < n := by
  have hword : ∀ {words : List (List Char)}, [] ∉ words → wordLength words s = some n → 0 < n := by
    intro words hnil h
    obtain ⟨w, hw, -, rfl⟩ := wordLength_eq_some h
    exact List.length_pos_iff.mpr (ne_of_mem_of_not_mem hw hnil)
  unfold matchLength at h
  split at h
  case h_2 => exact hword (by decide) h
  case h_3 => exact hword (by decide) h
  case h_6 => exact hword (by decide) h
  case h_9 =>
    obtain ⟨k, -, rfl⟩ := Option.map_eq_some_iff.mp h
    omega
  all_goals try split_ifs at h
  all_goals cases h <;> omega

/-- No rule matches the empty input. -/
theorem longestMatch_nil : longestMatch [] = none := by decide

/-- A rule of the string state takes at least one character. -/
theorem length_rule {lexeme : Option (List Char)} (h : LexUtil.rule s = .ok (lexeme, rest)) :
    rest.length < s.length := by
  unfold LexUtil.rule at h
  split at h
  · cases h
  · cases h
    simp
  · cases h
  · split at h
    · rename_i hunicode
      cases h
      obtain ⟨rfl, -⟩ := unicode_eq hunicode
      simp
    · split_ifs at h
      · cases h
        simp
    · cases h
  · cases h
    simp

/-- So does a whole literal. -/
theorem length_collect {fuel : ℕ} {chars : List ℕ} (h : collect fuel s = .ok (chars, rest)) :
    rest.length < s.length := by
  induction fuel generalizing s chars rest with
  | zero => cases h
  | succ fuel ih =>
    obtain ⟨⟨lexeme, rest₁⟩, hrule, h⟩ := Except.bind_eq_ok.mp h
    have hlt := length_rule hrule
    cases lexeme with
    | none =>
      cases h
      exact hlt
    | some lexeme =>
      obtain ⟨c, -, h⟩ := Except.bind_eq_ok.mp h
      obtain ⟨⟨chars', rest₂⟩, hrest, h⟩ := Except.bind_eq_ok.mp h
      cases h
      exact (ih hrest).trans hlt

/-- An action does not give characters back. -/
theorem length_action {lexeme rest' : List Char} {token : Option Token}
    (h : action extension lexeme rest rule = .ok (token, rest')) : rest'.length ≤ rest.length := by
  cases rule with
  | quote =>
    obtain ⟨⟨chars, rest₁⟩, hstring, h⟩ := Except.bind_eq_ok.mp h
    cases h
    exact (length_collect hstring).le
  | comment =>
    cases h
    rw [List.length_tail]
    exact (Nat.sub_le _ _).trans (List.length_dropWhile_le _ _)
  | minInteger | integer | charLiteral =>
    obtain ⟨n, -, h⟩ := Except.bind_eq_ok.mp h
    cases h
    exact le_rfl
  | rhoReserved | rhoSymbol =>
    simp only [action] at h
    split_ifs at h <;> cases h <;> exact le_rfl
  | _ =>
    cases h
    try exact le_rfl

/-- An action leaves less text than there was. -/
theorem length_step {token : Option Token} (hmatch : longestMatch s = some (rule, n))
    (h : action extension (s.take n) (s.drop n) rule = .ok (token, rest)) :
    rest.length < s.length := by
  have hpos : 0 < n := by
    have hrule : matchLength rule s = some n :=
      LongestMatch.length_of_among (fun rule => matchLength rule s) hmatch
    exact matchLength_pos hrule
  have hs : s ≠ [] := by
    rintro rfl
    rw [longestMatch_nil] at hmatch
    cases hmatch
  have hlength : 0 < s.length := List.length_pos_iff.mpr hs
  have hle := length_action h
  rw [List.length_drop] at hle
  omega

/-- The tokens of a file. -/
def scan (extension : String) (s : List Char) : Except LexicalError (List Token) :=
  match _ : longestMatch s with
  | none => .ok [.EOF]
  | some (rule, n) =>
    match _ : action extension (s.take n) (s.drop n) rule with
    | .error e => .error e
    | .ok (token, rest) => do return token.toList ++ (← scan extension rest)
termination_by s.length
decreasing_by exact length_step ‹_› ‹_›

/-- The end of the input. -/
theorem scan_nil : scan extension [] = .ok [.EOF] := by
  rw [scan]
  rfl

/-- A match and its action. -/
theorem scan_step (token : Option Token) (hmatch : longestMatch s = some (rule, n))
    (haction : action extension (s.take n) (s.drop n) rule = .ok (token, rest)) :
    scan extension s = (scan extension rest).map (token.toList ++ ·) := by
  rw [scan]
  split
  · rename_i hnone
    rw [hmatch] at hnone
    cases hnone
  · rename_i rule' n' hsome
    rw [hmatch] at hsome
    cases hsome
    rw [haction]
    rfl

/-- A match whose action throws. -/
theorem scan_error {e : LexicalError} (hmatch : longestMatch s = some (rule, n))
    (haction : action extension (s.take n) (s.drop n) rule = .error e) :
    scan extension s = .error e := by
  rw [scan]
  split
  · rename_i hnone
    rw [hmatch] at hnone
    cases hnone
  · rename_i rule' n' hsome
    rw [hmatch] at hsome
    cases hsome
    rw [haction]

end Scanner

end Jaek
