import Jaek.Data.LongestMatch
import Jaek.Lexer.LexUtil

/-!
# Printed string literals are read back

`StringLit.write` prints the text of a string token between double quotes. The scanner takes each
printed character as one lexeme again: `rule_formatChar` gives the lexeme, whatever stands behind it,
and `parseToChar_formatChar` its code point.

JFlex takes the longest match among the rules of `STRING`, and `rule_eq_longestMatch` says that `rule` does
the same.
-/

namespace Jaek

namespace LexUtil

/-! ## The rules of `STRING` -/

/-- The rules of the state `STRING` that read something, in their order. -/
inductive StringRule
  | quote | newline | character | wrongEscape | other
deriving DecidableEq, Repr

/-- The length of the longest text at the front that the expression of a rule matches. -/
def StringRule.matchLength : StringRule → List Char → Option ℕ
  | .quote, '"' :: _ => some 1
  | .newline, '\n' :: _ => some 1
  | .character, '\\' :: s =>
    match unicode s, s with
    | some (lexeme, _), _ => some (lexeme.length + 1)
    | none, c :: _ => if c ∈ ['\\', '"', '\'', 'n', 't', 'r'] then some 2 else none
    | none, [] => none
  | .character, _ :: _ => some 1
  | .wrongEscape, '\\' :: _ :: _ => some 2
  | .other, _ :: _ => some 1
  | _, _ => none

/-- The rule with the longest match, the first one if there are several. -/
def StringRule.longestMatch (s : List Char) : Option (StringRule × ℕ) :=
  LongestMatch.among (fun r => r.matchLength s) [.quote, .newline, .character, .wrongEscape, .other]

/-- The action of the rule that is taken; `none` is the end of the file. -/
def action (s : List Char) : Option (StringRule × ℕ) →
    Except LexicalError (Option (List Char) × List Char)
  | none => .error .BadString
  | some (.quote, n) => .ok (none, s.drop n)
  | some (.newline, _) => .error .BadString
  | some (.character, n) => .ok (some (s.take n), s.drop n)
  | some (.wrongEscape, _) => .error .CharWrong
  | some (.other, _) => .error .BadString

/-- A lexeme of `Unicode` is cut off the front of the text. -/
theorem unicode_eq {s lexeme rest : List Char} (h : unicode s = some (lexeme, rest)) :
    s = lexeme ++ rest ∧ 4 ≤ lexeme.length := by
  unfold unicode at h
  split at h
  · rename_i s
    split at h
    · rename_i rest' hdrop
      dsimp only at h
      split_ifs at h with hlength
      cases h
      refine ⟨?_, by simp; omega⟩
      have happend := List.takeWhile_append_dropWhile (p := fun c => (hexDigit c).isSome) (l := s)
      rw [hdrop] at happend
      conv_lhs => rw [← happend]
      simp
    · cases h
  · cases h

/-- A rule of the string state is its longest match and the action. -/
theorem rule_eq_longestMatch (s : List Char) : rule s = action s (StringRule.longestMatch s) := by
  cases s with
  | nil => rfl
  | cons c s =>
    by_cases hquote : c = '"'
    · subst hquote
      rfl
    by_cases hnewline : c = '\n'
    · subst hnewline
      rfl
    -- behind a backslash two rules compete, and the one for code points is longer whenever it matches
    by_cases hescape : c = '\\'
    · subst hescape
      cases hunicode : unicode s with
      | some p =>
        obtain ⟨lexeme, rest⟩ := p
        obtain ⟨rfl, hlength⟩ := unicode_eq hunicode
        have hlonger : ¬lexeme.length + 1 < 2 := by omega
        cases lexeme with
        | nil => cases hlength
        | cons x lexeme =>
          rw [List.cons_append] at hunicode ⊢
          have hfirst : StringRule.longestMatch ('\\' :: x :: (lexeme ++ rest)) =
              some (.character, (x :: lexeme).length + 1) := by
            simp only [StringRule.longestMatch, LongestMatch.among, StringRule.matchLength, hunicode,
              LongestMatch.longer, List.foldl]
            simp
          rw [hfirst]
          simp [rule, hunicode, action]
      | none =>
        cases s with
        | nil => rfl
        | cons x s =>
          simp only [rule, hunicode, StringRule.longestMatch, LongestMatch.among, StringRule.matchLength,
            LongestMatch.longer, List.foldl]
          split_ifs <;> rfl
    · have hrule : rule (c :: s) = .ok (some [c], s) := by
        unfold rule
        split <;> simp_all
      rw [hrule]
      simp [StringRule.longestMatch, LongestMatch.among, StringRule.matchLength, LongestMatch.longer, hquote,
        hnewline, hescape, action]

/-! ## Printed characters -/

/-- A written digit is read back. -/
theorem hexDigit_digitChar {d : ℕ} (h : d < 16) : hexDigit (Nat.digitChar d) = some d := by
  have hall : ∀ d < 16, hexDigit (Nat.digitChar d) = some d := by decide
  exact hall d h

/-- A number with one digit more. -/
theorem parseHex_append_singleton (s : List Char) (c : Char) :
    parseHex (s ++ [c]) = (parseHex s).bind fun n => (hexDigit c).map fun d => 16 * n + d := by
  simp [parseHex, List.foldlM_append]

/-- A written number is read back. -/
theorem parseHex_toDigits (n : ℕ) : parseHex (Nat.toDigits 16 n) = some n := by
  induction n using Nat.strong_induction_on with
  | _ n ih =>
    rw [Nat.toDigits_eq_if (by decide)]
    split_ifs with hn
    · simp [parseHex, hexDigit_digitChar hn]
    · have hdigit : n % 16 < 16 := Nat.mod_lt n (by decide)
      rw [parseHex_append_singleton, ih (n / 16) (by omega), hexDigit_digitChar hdigit]
      simp only [Option.bind_some, Option.map_some, Option.some.injEq]
      omega

/-- It is written in hexadecimal digits. -/
theorem isSome_hexDigit_of_mem_toDigits {n : ℕ} {c : Char} (h : c ∈ Nat.toDigits 16 n) :
    (hexDigit c).isSome := by
  induction n using Nat.strong_induction_on with
  | _ n ih =>
    rw [Nat.toDigits_eq_if (by decide)] at h
    split_ifs at h with hn
    · rw [List.mem_singleton.mp h, hexDigit_digitChar hn]
      rfl
    · obtain h | h := List.mem_append.mp h
      · exact ih (n / 16) (by omega) h
      · rw [List.mem_singleton.mp h, hexDigit_digitChar (Nat.mod_lt n (by decide))]
        rfl

/-- The hexadecimal form ends at its brace. -/
theorem unicode_toDigits {c : ℕ} (hc : c < 2 ^ 24) (rest : List Char) :
    unicode ('x' :: '\x7b' :: (Nat.toDigits 16 c ++ '\x7d' :: rest)) =
      some ('x' :: '\x7b' :: Nat.toDigits 16 c ++ ['\x7d'], rest) := by
  have hdigits : (Nat.toDigits 16 c).all (fun d => (hexDigit d).isSome) :=
    List.all_eq_true.mpr fun d hd => isSome_hexDigit_of_mem_toDigits hd
  have hbrace : (hexDigit '\x7d').isSome = false := by decide
  have htake : (Nat.toDigits 16 c ++ '\x7d' :: rest).takeWhile (fun d => (hexDigit d).isSome) =
      Nat.toDigits 16 c := by
    rw [List.takeWhile_append_of_pos (List.all_eq_true.mp hdigits)]
    simp [hbrace]
  have hdrop : (Nat.toDigits 16 c ++ '\x7d' :: rest).dropWhile (fun d => (hexDigit d).isSome) =
      '\x7d' :: rest := by
    rw [List.dropWhile_append_of_pos (List.all_eq_true.mp hdigits)]
    simp [hbrace]
  have hpos : 1 ≤ (Nat.toDigits 16 c).length := Nat.length_toDigits_pos
  have hlength : (Nat.toDigits 16 c).length ≤ 6 :=
    (Nat.length_toDigits_le_iff (by decide) (by decide)).mpr (by omega)
  simp [unicode, htake, hdrop, hpos, hlength]

/-- The character of a small code has this code. -/
theorem toNat_ofNat_mod {c : ℕ} (h : c < 127) : (Char.ofNat (c % 2 ^ 16)).toNat = c := by
  have hall : ∀ c < 127, (Char.ofNat (c % 2 ^ 16)).toNat = c := by decide
  exact hall c h

/-- A printed character is one lexeme, whatever stands behind it. -/
theorem rule_formatChar {c : ℕ} (hc : c < 2 ^ 24) (rest : List Char) :
    rule (formatChar c ++ rest) = .ok (some (formatChar c), rest) := by
  unfold formatChar
  by_cases hn : c = 10
  · rw [if_pos hn]; rfl
  by_cases ht : c = 9
  · rw [if_neg hn, if_pos ht]; rfl
  by_cases hr : c = 13
  · rw [if_neg hn, if_neg ht, if_pos hr]; rfl
  by_cases hslash : c = 92
  · rw [if_neg hn, if_neg ht, if_neg hr, if_pos hslash]; rfl
  by_cases hquote : c = 34
  · rw [if_neg hn, if_neg ht, if_neg hr, if_neg hslash, if_pos hquote]; rfl
  rw [if_neg hn, if_neg ht, if_neg hr, if_neg hslash, if_neg hquote]
  split_ifs with hrange
  · have hunicode := unicode_toDigits hc rest
    simp only [List.cons_append, List.nil_append, List.append_assoc, rule, hunicode]
  · -- What is left is printed as it is, and starts no escape.
    have htoNat := toNat_ofNat_mod (c := c) (by omega)
    have hne : ∀ d : Char, d.toNat ≠ c → Char.ofNat (c % 2 ^ 16) ≠ d := by
      rintro d hd rfl
      exact hd htoNat
    have h₁ := hne '"' (Ne.symm hquote)
    have h₂ := hne '\n' (Ne.symm hn)
    have h₃ := hne '\\' (Ne.symm hslash)
    generalize Char.ofNat (c % 2 ^ 16) = d at h₁ h₂ h₃
    rw [List.singleton_append, rule] <;> simp_all

/-- A formatted character is read back. -/
theorem parseToChar_formatChar {c : ℕ} (hc : c < 2 ^ 24) :
    parseToChar (formatChar c) = .ok c := by
  unfold formatChar
  split_ifs with hn ht hr hslash hquote hrange
  · rw [hn]; rfl
  · rw [ht]; rfl
  · rw [hr]; rfl
  · rw [hslash]; rfl
  · rw [hquote]; rfl
  · simp only [parseToChar, List.cons_append, List.nil_append, List.dropLast_concat,
      parseHex_toDigits, if_pos hc]
  · rw [parseToChar, toNat_ofNat_mod (by omega)]

/-! ## Printed literals -/

/-- `Token.StringToken`. -/
structure StringToken where
  text : List Char
deriving DecidableEq, Repr

/-- `StringTokenBuilder.complete`. -/
def complete (chars : List ℕ) : StringToken := ⟨getStringRepresentation chars⟩

/-- `StringLit.write`. -/
def write (token : StringToken) : List Char := '"' :: token.text ++ ['"']

/-- The rule of `YYINITIAL` for double quotes: the collected code points and the text behind the
literal. No other rule of `YYINITIAL` begins with them, but the one for any character, which is the
last. -/
def scanString : List Char → Except LexicalError (List ℕ × List Char)
  | '"' :: s => stringState s
  | _ => .error .InvalidId

/-- A written string is collected up to its quote, by induction over its characters. -/
theorem collect_representation {chars : List ℕ} (hchars : ∀ c ∈ chars, c < 2 ^ 24)
    (rest : List Char) {fuel : ℕ} (hfuel : chars.length < fuel) :
    collect fuel (getStringRepresentation chars ++ '"' :: rest) = .ok (chars, rest) := by
  induction chars generalizing fuel with
  | nil =>
    cases fuel with
    | zero => cases hfuel
    | succ fuel => rfl
  | cons c chars ih =>
    cases fuel with
    | zero => cases hfuel
    | succ fuel =>
      have hc := hchars c List.mem_cons_self
      have hrest := ih (fun d hd => hchars d (List.mem_cons_of_mem _ hd)) (Nat.lt_of_succ_lt_succ hfuel)
      have hsplit : getStringRepresentation (c :: chars) ++ '"' :: rest =
          formatChar c ++ (getStringRepresentation chars ++ '"' :: rest) := by
        simp [getStringRepresentation]
      rw [hsplit, collect, rule_formatChar hc]
      simp only [bind, Except.bind, parseToChar_formatChar hc, hrest]

/-- A character is written as one or more. -/
theorem length_le_representation (chars : List ℕ) :
    chars.length ≤ (getStringRepresentation chars).length := by
  induction chars with
  | nil => exact le_rfl
  | cons c chars ih =>
    have hpos : 1 ≤ (formatChar c).length := by
      unfold formatChar
      split_ifs <;> simp
    simp only [getStringRepresentation, List.flatMap_cons, List.length_append, List.length_cons] at ih ⊢
    omega

/-- A printed literal is scanned as one string with the same code points. -/
theorem scanString_write {chars : List ℕ} (hchars : ∀ c ∈ chars, c < 2 ^ 24) (rest : List Char) :
    scanString (write (complete chars) ++ rest) = .ok (chars, rest) := by
  have hlength := length_le_representation chars
  have hwrite : write (complete chars) ++ rest =
      '"' :: (getStringRepresentation chars ++ '"' :: rest) := by
    simp [write, complete]
  rw [hwrite, scanString, stringState]
  exact collect_representation hchars rest (by simp; omega)

/-- A string with characters of every kind. -/
theorem scanString_write_escapes :
    scanString (write (complete [92, 34, 0x2764, 13, 39]) ++ []) = .ok ([92, 34, 0x2764, 13, 39], []) :=
  scanString_write (by decide) []

end LexUtil

end Jaek
