import Jaek.Data.Except

/-!
# String literals in the lexer

`LexUtil` and the state `STRING` of `Lexer.flex`. A literal is collected as a list of code points, and
the token holds its printed version. Of several rules the one with the longest match is taken, the
first of them if there is more than one. Positions are left out.
-/

namespace Jaek

/-- `LexicalError.errType`. -/
inductive LexicalError
  | BadString | CharWrong | CharNotEnd | UnicodeTooBig | InvalidId | InvalidInteger
deriving DecidableEq, Repr

namespace LexUtil

/-- The printed version of a character. -/
def formatChar (character : ℕ) : List Char :=
  if character = 10 then ['\\', 'n']
  else if character = 9 then ['\\', 't']
  else if character = 13 then ['\\', 'r']
  else if character = 92 then ['\\', '\\']
  else if character = 34 then ['\\', '"']
  else if character < 32 ∨ character ≥ 127 then
    ['\\', 'x', '\x7b'] ++ Nat.toDigits 16 character ++ ['\x7d']
  else [Char.ofNat (character % 2 ^ 16)]

/-- `StringTokenBuilder.getStringRepresentation`. -/
def getStringRepresentation (list : List ℕ) : List Char := list.flatMap formatChar

def hexDigit (c : Char) : Option ℕ :=
  if '0' ≤ c ∧ c ≤ '9' then some (c.toNat - '0'.toNat)
  else if 'a' ≤ c ∧ c ≤ 'f' then some (c.toNat - 'a'.toNat + 10)
  else if 'A' ≤ c ∧ c ≤ 'F' then some (c.toNat - 'A'.toNat + 10)
  else none

/-- `Integer.parseInt` to the base 16. -/
def parseHex (s : List Char) : Option ℕ :=
  s.foldlM (fun n c => (hexDigit c).map fun d => 16 * n + d) 0

/-- The character a lexeme stands for. A character outside the basic plane is two `char`s of the
source, and one here. -/
def parseToChar : List Char → Except LexicalError ℕ
  | [c] => .ok c.toNat
  | ['\\', errorProne] =>
    if errorProne = 'n' then .ok 0x0A
    else if errorProne = 't' then .ok 0x09
    else if errorProne = 'r' then .ok 0x0D
    else .ok errorProne.toNat
  | '\\' :: 'x' :: '\x7b' :: stuff =>
    match parseHex stuff.dropLast with
    | some hexNum => if hexNum < 2 ^ 24 then .ok hexNum else .error .UnicodeTooBig
    | none => .error .CharWrong
  | _ => .error .CharWrong

/-- The text behind the backslash of the regular expression `Unicode`, and what follows it. -/
def unicode : List Char → Option (List Char × List Char)
  | 'x' :: '\x7b' :: s =>
    let digits := s.takeWhile fun c => (hexDigit c).isSome
    match s.dropWhile fun c => (hexDigit c).isSome with
    | '\x7d' :: rest =>
      if 1 ≤ digits.length ∧ digits.length ≤ 6 then
        some ('x' :: '\x7b' :: digits ++ ['\x7d'], rest)
      else none
    | _ => none
  | _ => none

/-- What the rules of `STRING` match at the front of the text: a character, or the end of the literal
(`none`). -/
def rule : List Char → Except LexicalError (Option (List Char) × List Char)
  | [] => .error .BadString
  | '"' :: rest => .ok (none, rest)
  | '\n' :: _ => .error .BadString
  | '\\' :: s =>
    match unicode s, s with
    | some (lexeme, rest), _ => .ok (some ('\\' :: lexeme), rest)
    | none, c :: rest =>
      if c ∈ ['\\', '"', '\'', 'n', 't', 'r'] then .ok (some ['\\', c], rest) else .error .CharWrong
    | none, [] => .error .BadString
  | c :: rest => .ok (some [c], rest)

/-- The state `STRING`: the code points of a literal, and the text behind it. The text gets shorter
with every lexeme, so `fuel` is its length. -/
def collect : ℕ → List Char → Except LexicalError (List ℕ × List Char)
  | 0, _ => .error .BadString
  | fuel + 1, s => do
    match ← rule s with
    | (none, rest) => .ok ([], rest)
    | (some lexeme, rest) =>
      let c ← parseToChar lexeme
      let (chars, rest) ← collect fuel rest
      .ok (c :: chars, rest)

/-- The code points of the literal whose opening quotes have been read. -/
def stringState (s : List Char) : Except LexicalError (List ℕ × List Char) :=
  collect (s.length + 1) s

example : stringState "a\\x{2764}\\r\" + b".toList = .ok ([97, 0x2764, 13], " + b".toList) := by
  decide

theorem toNat_lt (c : Char) : c.toNat < 2 ^ 24 := by
  have hvalid := c.valid
  change c.toNat < 0xd800 ∨ 0xdfff < c.toNat ∧ c.toNat < 0x110000 at hvalid
  omega

theorem parseToChar_lt {lexeme : List Char} {c : ℕ} (h : parseToChar lexeme = .ok c) :
    c < 2 ^ 24 := by
  unfold parseToChar at h
  split at h
  · cases h
    exact toNat_lt _
  · split_ifs at h <;> cases h
    · decide
    · decide
    · decide
    · exact toNat_lt _
  · split at h
    · split_ifs at h with hlt
      cases h
      exact hlt
    · cases h
  · cases h

/-- Every code point that is collected lies below `2 ^ 24`. -/
theorem collect_lt {fuel : ℕ} {s rest : List Char} {chars : List ℕ}
    (h : collect fuel s = .ok (chars, rest)) : ∀ c ∈ chars, c < 2 ^ 24 := by
  induction fuel generalizing s chars rest with
  | zero => cases h
  | succ fuel ih =>
    obtain ⟨⟨lexeme, rest₁⟩, -, h⟩ := Except.bind_eq_ok.mp h
    cases lexeme with
    | none =>
      cases h
      simp
    | some lexeme =>
      obtain ⟨c, hc, h⟩ := Except.bind_eq_ok.mp h
      obtain ⟨⟨chars', rest₂⟩, hrest, h⟩ := Except.bind_eq_ok.mp h
      cases h
      rintro d (_ | ⟨_, hd⟩)
      · exact parseToChar_lt hc
      · exact ih hrest d hd

end LexUtil

end Jaek
