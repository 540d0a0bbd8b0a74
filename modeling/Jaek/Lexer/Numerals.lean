import Jaek.Lexer.Scanner

/-!
# How names and numbers are scanned

A name and a row of digits are one token each. Behind a minus sign the digits are a token of their own,
except for those of `2 ^ 63` behind blanks: there `MinInteger` takes the sign with them.
-/

namespace Jaek

namespace Scanner

open LexUtil Rule

variable {extension : String} {s rest : List Char} {c d : Char} {r : Rule} {k : ℕ}

/-! ## The rules by the first character -/

/-- A word at the front begins with the first character. -/
theorem head_of_wordLength {words : List (List Char)} (hnil : [] ∉ words)
    (h : wordLength words (c :: s) = some k) : ∃ w ∈ words, w.head? = some c := by
  obtain ⟨w, hw, hfront, -⟩ := wordLength_eq_some h
  cases w with
  | nil => exact absurd hw hnil
  | cons x w => exact ⟨x :: w, hw, by rw [(List.cons_prefix_cons.mp hfront).1]; rfl⟩

/-- The rules for one or two characters match only in front of theirs. -/
theorem head_of_matchLength
    (hr : r ∈ [minInteger, rhoSymbol, charLiteral, quote, comment, charWrong, charNotEnd])
    (h : matchLength r (c :: s) = some k) : c = '-' ∨ c = '.' ∨ c = '\'' ∨ c = '"' ∨ c = '/' := by
  by_contra hc
  simp only [not_or] at hc
  cases r
  case minInteger | rhoSymbol | charLiteral | quote | comment | charWrong | charNotEnd =>
    simp [matchLength, hc] at h
  all_goals simp at hr

/-- A letter is no digit. -/
theorem isDigit_of_isAlpha (hc : c.isAlpha) : c.isDigit = false := by
  simp only [Char.isAlpha, Char.isUpper, Char.isLower, Bool.or_eq_true, Bool.and_eq_true,
    decide_eq_true_eq, UInt32.le_iff_toNat_le, ge_iff_le] at hc
  simp only [Char.isDigit, Bool.and_eq_false_iff, decide_eq_false_iff_not, UInt32.le_iff_toNat_le,
    ge_iff_le]
  have h9 : '9'.val.toNat = 57 := rfl
  have hA : 'A'.val.toNat = 65 := rfl
  have ha : 'a'.val.toNat = 97 := rfl
  omega

/-- The rules that match in front of a letter. -/
theorem matchLength_alpha (hc : c.isAlpha) (h : matchLength r (c :: s) = some k) :
    r = reserved ∨ r = rhoReserved ∨ r = identifier ∨ r = other ∧ k = 1 := by
  have hsymbols : symbols.all (fun w => w.head?.all fun x => !x.isAlpha) := by decide
  cases r with
  | reserved => exact .inl rfl
  | rhoReserved => exact .inr (.inl rfl)
  | identifier => exact .inr (.inr (.inl rfl))
  | other =>
    cases h
    exact .inr (.inr (.inr ⟨rfl, rfl⟩))
  | symbol =>
    obtain ⟨w, hw, hhead⟩ := head_of_wordLength (by decide) h
    have hnot := List.all_eq_true.mp hsymbols w hw
    simp [hhead, hc] at hnot
  | whitespace =>
    simp only [matchLength, isWhitespace, Bool.or_eq_true, decide_eq_true_eq,
      Option.ite_none_right_eq_some] at h
    rcases h.1 with (((rfl | rfl) | rfl) | rfl) | rfl <;> simp at hc
  | integer =>
    simp only [matchLength] at h
    split_ifs at h with hzero hdigit
    · subst hzero
      simp at hc
    · exact absurd hdigit (by simp [isDigit_of_isAlpha hc])
  | _ =>
    have hhead := head_of_matchLength (by decide) h
    rcases hhead with rfl | rfl | rfl | rfl | rfl <;> simp at hc

/-- The rules that match in front of a digit. -/
theorem matchLength_digit (hc : c.isDigit) (h : matchLength r (c :: s) = some k) :
    r = integer ∨ r = other ∧ k = 1 := by
  have hnone : ∀ {words : List (List Char)}, [] ∉ words →
      words.all (fun w => w.head?.all fun x => !x.isDigit) → wordLength words (c :: s) ≠ some k := by
    intro words hnil hwords h
    obtain ⟨w, hw, hhead⟩ := head_of_wordLength hnil h
    have hnot := List.all_eq_true.mp hwords w hw
    simp [hhead, hc] at hnot
  cases r with
  | reserved => exact absurd h (hnone (by decide) (by decide))
  | rhoReserved => exact absurd h (hnone (by decide) (by decide))
  | symbol => exact absurd h (hnone (by decide) (by decide))
  | identifier =>
    simp only [matchLength] at h
    split_ifs at h with halpha
    simp [isDigit_of_isAlpha halpha] at hc
  | other =>
    cases h
    exact .inr ⟨rfl, rfl⟩
  | whitespace =>
    simp only [matchLength, isWhitespace, Bool.or_eq_true, decide_eq_true_eq,
      Option.ite_none_right_eq_some] at h
    rcases h.1 with (((rfl | rfl) | rfl) | rfl) | rfl <;> simp at hc
  | integer => exact .inl rfl
  | _ =>
    have hhead := head_of_matchLength (by decide) h
    rcases hhead with rfl | rfl | rfl | rfl | rfl <;> simp at hc

/-! ## Blanks -/

/-- Whitespace is skipped. -/
theorem scan_whitespace (hc : isWhitespace c) (s : List Char) :
    scan extension (c :: s) = scan extension s := by
  have hmatch : longestMatch (c :: s) = some (whitespace, 1) := by
    simp only [isWhitespace, Bool.or_eq_true, decide_eq_true_eq] at hc
    rcases hc with (((rfl | rfl) | rfl) | rfl) | rfl <;> rfl
  have haction : action extension ((c :: s).take 1) ((c :: s).drop 1) whitespace = .ok (none, s) := rfl
  rw [scan_step none hmatch haction]
  cases scan extension s <;> rfl

/-- So is any amount of it. -/
theorem scan_blanks {blanks : List Char} (h : ∀ c ∈ blanks, isWhitespace c) (s : List Char) :
    scan extension (blanks ++ s) = scan extension s := by
  induction blanks with
  | nil => rfl
  | cons c blanks ih =>
    rw [List.forall_mem_cons] at h
    rw [List.cons_append, scan_whitespace h.1, ih h.2]

/-! ## Names -/

/-- What the scanner takes for a name in a file. -/
structure IsName (extension : String) (name : List Char) : Prop where
  shape : ∃ c cs, name = c :: cs ∧ c.isAlpha ∧ ∀ d ∈ cs, isIdentifierPart d
  not_reserved : name ∉ reservedWords
  not_rhoReserved : isEta extension ∨ name ∉ rhoReservedWords

/-- What is taken ends in front of the first other character. -/
theorem takeWhile_append_cons {p : Char → Bool} {xs : List Char} (hxs : ∀ x ∈ xs, p x)
    (hd : p d = false) (rest : List Char) : (xs ++ d :: rest).takeWhile p = xs := by
  rw [List.takeWhile_append_of_pos hxs, List.takeWhile_cons_of_neg (by simp [hd]), List.append_nil]

/-- A word without the character `d` at the front of `xs` and `d` is at the front of `xs`. -/
theorem prefix_of_forall {p : Char → Bool} {xs w : List Char} (hw : ∀ x ∈ w, p x) (hd : p d = false)
    (h : w <+: xs ++ d :: rest) : w <+: xs := by
  rcases le_or_gt w.length xs.length with hle | hlt
  · exact List.prefix_of_prefix_length_le h (List.prefix_append _ _) hle
  · have hxs : xs ++ [d] <+: xs ++ d :: rest := by simp
    have hmem : xs ++ [d] <+: w := List.prefix_of_prefix_length_le hxs h (by simp; omega)
    have hdw : p d := hw d (hmem.subset (by simp))
    rw [hd] at hdw
    cases hdw

/-- A keyword matches at most the name, and no less only if it is the name. -/
theorem wordLength_name {words : List (List Char)} {name : List Char}
    (hwords : words.all fun w => w.all isIdentifierPart) (hd : isIdentifierPart d = false)
    (h : wordLength words (name ++ d :: rest) = some k) :
    k ≤ name.length ∧ (k = name.length → name ∈ words) := by
  obtain ⟨w, hw, hfront, rfl⟩ := wordLength_eq_some h
  have hpart := List.all_eq_true.mp (List.all_eq_true.mp hwords w hw)
  have hle : w <+: name := prefix_of_forall hpart hd hfront
  refine ⟨hle.length_le, ?_⟩
  intro heq
  rwa [← hle.eq_of_length heq]

/-- A name in front of a character that cannot continue it is one token. -/
theorem scan_name {name : List Char} (h : IsName extension name) (hd : isIdentifierPart d = false)
    (rest : List Char) :
    scan extension (name ++ d :: rest) =
      (scan extension (d :: rest)).map ([Token.IDENTIFIER name] ++ ·) := by
  obtain ⟨c, cs, hname, hc, hcs⟩ := h.shape
  have htake : (name ++ d :: rest).take name.length = name := List.take_left
  have hdrop : (name ++ d :: rest).drop name.length = d :: rest := List.drop_left
  have hparts : ∀ words ∈ [reservedWords, rhoReservedWords],
      words.all fun w => w.all isIdentifierPart := by decide
  have hidentifier : matchLength identifier (name ++ d :: rest) = some name.length := by
    rw [hname, List.cons_append]
    simp only [matchLength, if_pos hc, takeWhile_append_cons hcs hd, List.length_cons]
  have hreserved : ∀ k ∈ matchLength reserved (name ++ d :: rest), k < name.length := by
    intro k hk
    obtain ⟨hle, hmem⟩ := wordLength_name (hparts _ (by simp)) hd hk
    exact lt_of_le_of_ne hle fun heq => h.not_reserved (hmem heq)
  have hother : ∀ r ∈ [whitespace, minInteger, symbol, rhoSymbol, integer, charLiteral, quote, comment,
      charWrong, charNotEnd], ∀ k, matchLength r (name ++ d :: rest) ≠ some k := by
    intro r hr k hk
    rw [hname, List.cons_append] at hk
    rcases matchLength_alpha hc hk with rfl | rfl | rfl | ⟨rfl, -⟩ <;> simp at hr
  have hlast : ∀ k ∈ matchLength other (name ++ d :: rest), k ≤ name.length := by
    intro k hk
    rw [hname, List.cons_append] at hk
    cases hk
    simp [hname]
  -- `rhoReserved` stands before `identifier`, so it takes its words also where they are names.
  by_cases hrho : name ∈ rhoReservedWords
  · have heta : isEta extension := h.not_rhoReserved.resolve_right fun hnot => hnot hrho
    have hmatch : longestMatch (name ++ d :: rest) = some (rhoReserved, name.length) := by
      refine LongestMatch.among_eq [whitespace, reserved] _ rfl ?_ ?_ ?_
      · obtain ⟨k, hk, hle⟩ := le_wordLength hrho (List.prefix_append name (d :: rest))
        have hge := (wordLength_name (hparts _ (by simp)) hd hk).1
        rw [← le_antisymm hge hle]
        exact hk
      · intro r hr k hk
        rcases List.mem_pair.mp hr with rfl | rfl
        · exact absurd hk (hother _ (by simp) k)
        · exact hreserved k hk
      · intro r hr k hk
        by_cases hr' : r = identifier
        · rw [hr', hidentifier] at hk
          cases hk
          exact le_rfl
        · by_cases hr'' : r = other
          · exact hlast k (hr'' ▸ hk)
          · exact absurd hk (hother r (by simp_all) k)
    exact scan_step (some (.IDENTIFIER name)) hmatch (by simp [action, heta])
  · have hmatch : longestMatch (name ++ d :: rest) = some (identifier, name.length) := by
      refine LongestMatch.among_eq [whitespace, reserved, rhoReserved] _ rfl hidentifier ?_ ?_
      · intro r hr k hk
        simp only [List.mem_cons, List.not_mem_nil, or_false] at hr
        rcases hr with rfl | rfl | rfl
        · exact absurd hk (hother _ (by simp) k)
        · exact hreserved k hk
        · obtain ⟨hle, hmem⟩ := wordLength_name (hparts _ (by simp)) hd hk
          exact lt_of_le_of_ne hle fun heq => hrho (hmem heq)
      · intro r hr k hk
        by_cases hr'' : r = other
        · exact hlast k (hr'' ▸ hk)
        · exact absurd hk (hother r (by simp_all) k)
    exact scan_step (some (.IDENTIFIER name)) hmatch (by simp [action])

/-! ## Digits -/

/-- A number is written in digits. -/
theorem isDigit_of_mem_toDigits {m : ℕ} (hc : c ∈ Nat.toDigits 10 m) : c.isDigit :=
  Nat.isDigit_of_mem_toDigits (by decide) (by decide) hc

/-- A number is written without leading zeros. -/
theorem toDigits_eq_cons (m : ℕ) :
    ∃ c cs, Nat.toDigits 10 m = c :: cs ∧ (c = '0' → cs = []) ∧ (c = '0' → m = 0) := by
  induction m using Nat.strong_induction_on with
  | _ m ih =>
    rw [Nat.toDigits_eq_if (by decide)]
    split_ifs with hm
    · refine ⟨_, [], rfl, fun _ => rfl, ?_⟩
      interval_cases m <;> decide
    · obtain ⟨c, cs, hcs, -, hzero⟩ := ih (m / 10) (by omega)
      have hc : c ≠ '0' := by
        intro hc
        have := hzero hc
        omega
      exact ⟨c, cs ++ [(m % 10).digitChar], by rw [hcs, List.cons_append], fun h => absurd h hc,
        fun h => absurd h hc⟩

/-- In front of a digit there is nothing but `Integer` to take. -/
theorem longestMatch_digit (hc : c.isDigit) (h : matchLength integer (c :: s) = some k) :
    longestMatch (c :: s) = some (integer, k) := by
  refine LongestMatch.among_eq [whitespace, reserved, rhoReserved, identifier, minInteger, symbol, rhoSymbol] _
    rfl h ?_ ?_
  · intro r hr k hk
    rcases matchLength_digit hc hk with rfl | ⟨rfl, -⟩ <;> simp at hr
  · intro r hr k' hk'
    rcases matchLength_digit hc hk' with rfl | ⟨rfl, rfl⟩
    · simp at hr
    · exact matchLength_pos h

/-- A digit starts a number. -/
theorem matchLength_integer_exists (hc : c.isDigit) (s : List Char) :
    ∃ k, matchLength integer (c :: s) = some k := by
  by_cases hzero : c = '0'
  · exact ⟨1, by simp [matchLength, hzero]⟩
  · exact ⟨_, by simp only [matchLength, if_neg hzero, if_pos hc]; rfl⟩

/-- Text that begins with a digit has a number for its first token. -/
theorem scan_digit_head {tokens : List Token} (hc : c.isDigit)
    (h : scan extension (c :: s) = .ok tokens) : ∃ n ts, tokens = .INTEGER_LITERAL n :: ts := by
  obtain ⟨k, hk⟩ := matchLength_integer_exists hc s
  have hmatch := longestMatch_digit hc hk
  cases hint : parseToInt ((c :: s).take k) with
  | error e =>
    rw [scan_error hmatch (e := e) (by simp only [action, hint]; rfl)] at h
    cases h
  | ok n =>
    rw [scan_step (some (.INTEGER_LITERAL n)) hmatch (by simp only [action, hint]; rfl)] at h
    cases hscan : scan extension ((c :: s).drop k) with
    | error e =>
      rw [hscan] at h
      cases h
    | ok ts =>
      rw [hscan] at h
      cases h
      exact ⟨n, ts, rfl⟩

/-- A written number is read back. -/
theorem bigInteger_toDigits (m : ℕ) : bigInteger (Nat.toDigits 10 m) = m := by
  have hminus : ∀ digits, Nat.toDigits 10 m ≠ '-' :: digits := by
    intro digits h
    have hdigit : '-'.isDigit := isDigit_of_mem_toDigits (m := m) (by simp [h])
    simp at hdigit
  unfold bigInteger
  split
  · rename_i digits heq
    exact absurd heq (hminus digits)
  · rw [Nat.ofDigitChars_ten_toDigits]

/-- A digit is no space. -/
theorem isSpace_of_isDigit (hc : c.isDigit) : isSpace c = false := by
  by_contra hspace
  simp only [isSpace, Bool.not_eq_false, Bool.or_eq_true, decide_eq_true_eq] at hspace
  rcases hspace with ((((rfl | rfl) | rfl) | rfl) | rfl) | rfl <;> simp at hc

/-- So nothing is filtered out of a number. -/
theorem filter_toDigits (m : ℕ) :
    (Nat.toDigits 10 m).filter (fun c => !isSpace c) = Nat.toDigits 10 m := by
  rw [List.filter_eq_self]
  intro c hc
  simp [isSpace_of_isDigit (isDigit_of_mem_toDigits hc)]

/-- A number is accepted up to `maxVal`. -/
theorem parseToInt_toDigits (m : ℕ) : parseToInt (Nat.toDigits 10 m) =
    if (m : ℤ) ≤ maxVal then .ok (Nat.toDigits 10 m) else .error .InvalidInteger := by
  rw [parseToInt]
  simp only [filter_toDigits, bigInteger_toDigits]

/-- A number is matched by its rule, up to its end. -/
theorem longestMatch_toDigits (m : ℕ) (hd : d.isDigit = false) (rest : List Char) :
    longestMatch (Nat.toDigits 10 m ++ d :: rest) = some (integer, (Nat.toDigits 10 m).length) := by
  obtain ⟨c, cs, hcs, hzero, -⟩ := toDigits_eq_cons m
  have hdigits : ∀ x ∈ Nat.toDigits 10 m, x.isDigit := fun x => isDigit_of_mem_toDigits
  rw [hcs, List.forall_mem_cons] at hdigits
  rw [hcs, List.cons_append]
  refine longestMatch_digit hdigits.1 ?_
  simp only [matchLength]
  split_ifs with hc
  · rw [hzero hc]
    rfl
  · rw [takeWhile_append_cons hdigits.2 hd]
    rfl
  · exact absurd hdigits.1 (by assumption)

/-- A number is one token, or too large. -/
theorem scan_toDigits (extension : String) (m : ℕ) (hd : d.isDigit = false) (rest : List Char) :
    scan extension (Nat.toDigits 10 m ++ d :: rest) =
      if (m : ℤ) ≤ maxVal then
        (scan extension (d :: rest)).map ([Token.INTEGER_LITERAL (Nat.toDigits 10 m)] ++ ·)
      else .error .InvalidInteger := by
  have hmatch := longestMatch_toDigits m hd rest
  have hint := parseToInt_toDigits m
  split_ifs with hm
  · rw [if_pos hm] at hint
    refine scan_step (some (.INTEGER_LITERAL (Nat.toDigits 10 m))) hmatch ?_
    simp only [action, List.take_left, List.drop_left, hint]
    rfl
  · rw [if_neg hm] at hint
    refine scan_error hmatch ?_
    simp only [action, List.take_left, hint]
    rfl

/-! ## Digits behind a minus sign -/

/-- Blanks are whitespace. -/
theorem isWhitespace_of_isBlank (hc : isBlank c) : isWhitespace c := by
  simp only [isBlank, Bool.or_eq_true, decide_eq_true_eq] at hc
  rcases hc with rfl | rfl <;> rfl

/-- Digits are not. -/
theorem isWhitespace_of_isDigit (hc : c.isDigit) : isWhitespace c = false := by
  by_contra hspace
  simp only [isWhitespace, Bool.not_eq_false, Bool.or_eq_true, decide_eq_true_eq] at hspace
  rcases hspace with (((rfl | rfl) | rfl) | rfl) | rfl <;> simp at hc

/-- The rules that match in front of a minus sign. -/
theorem matchLength_minus (h : matchLength r ('-' :: s) = some k) :
    r = minInteger ∨ (r = symbol ∨ r = other) ∧ k = 1 := by
  cases r with
  | minInteger => exact .inl rfl
  | symbol =>
    cases h
    exact .inr ⟨.inl rfl, rfl⟩
  | other =>
    cases h
    exact .inr ⟨.inr rfl, rfl⟩
  | _ => cases h

/-- `MinInteger` takes the sign, blanks, and the digits it names. -/
theorem longestMatch_min {blanks : List Char} (hblanks : ∀ c ∈ blanks, isBlank c) (s : List Char) :
    longestMatch ('-' :: (blanks ++ (minDigits ++ s))) =
      some (minInteger, ('-' :: (blanks ++ minDigits)).length) := by
  have hdigits : minDigits ++ s = '9' :: (minDigits.tail ++ s) := rfl
  have hnine : isBlank '9' = false := rfl
  have hmin : matchLength minInteger ('-' :: (blanks ++ (minDigits ++ s))) =
      some ('-' :: (blanks ++ minDigits)).length := by
    simp only [matchLength]
    rw [hdigits, takeWhile_append_cons hblanks hnine, List.dropWhile_append_of_pos hblanks,
      List.dropWhile_cons_of_neg (by simp [hnine]), ← hdigits, if_pos]
    · simp
    · exact List.isPrefixOf_iff_prefix.mpr (List.prefix_append minDigits s)
  refine LongestMatch.among_eq [whitespace, reserved, rhoReserved, identifier] _ rfl hmin ?_ ?_
  · intro r hr k hk
    rcases matchLength_minus hk with rfl | ⟨rfl | rfl, -⟩ <;> simp at hr
  · intro r hr k hk
    rcases matchLength_minus hk with rfl | ⟨-, rfl⟩
    · simp at hr
    · simp

/-- The least number is in range, with blanks behind its sign. -/
theorem parseToInt_min {blanks : List Char} (hblanks : ∀ c ∈ blanks, isBlank c) :
    parseToInt ('-' :: (blanks ++ minDigits)) = .ok ('-' :: minDigits) := by
  have hfilter : ('-' :: (blanks ++ minDigits)).filter (fun c => !isSpace c) = '-' :: minDigits := by
    have hnone : blanks.filter (fun c => !isSpace c) = [] := by
      rw [List.filter_eq_nil_iff]
      intro c hc
      have hblank := hblanks c hc
      simp only [isBlank, Bool.or_eq_true, decide_eq_true_eq] at hblank
      rcases hblank with rfl | rfl <;> decide
    have hself : minDigits.filter (fun c => !isSpace c) = minDigits := by decide
    rw [List.filter_cons_of_pos (by decide), List.filter_append, hnone, hself, List.nil_append]
  rw [parseToInt]
  simp only [hfilter]
  rw [if_pos (by decide)]

/-- It is one token, as it has a rule of its own. -/
theorem scan_min (extension : String) {blanks : List Char} (hblanks : ∀ c ∈ blanks, isBlank c) (s : List Char) :
    scan extension ('-' :: (blanks ++ (minDigits ++ s))) =
      (scan extension s).map ([Token.INTEGER_LITERAL ('-' :: minDigits)] ++ ·) := by
  have hsplit : '-' :: (blanks ++ (minDigits ++ s)) = '-' :: (blanks ++ minDigits) ++ s := by simp
  have hmatch := longestMatch_min hblanks s
  refine scan_step (some (.INTEGER_LITERAL ('-' :: minDigits))) hmatch ?_
  rw [hsplit, List.take_left, List.drop_left]
  simp only [action, parseToInt_min hblanks]
  rfl

/-- Where `MinInteger` does not match, the sign is a token of its own. -/
theorem longestMatch_minus (h : matchLength minInteger ('-' :: s) = none) :
    longestMatch ('-' :: s) = some (symbol, 1) := by
  refine LongestMatch.among_eq [whitespace, reserved, rhoReserved, identifier, minInteger] _ rfl rfl ?_ ?_
  · intro r hr k hk
    rcases matchLength_minus hk with rfl | ⟨rfl | rfl, -⟩
    · rw [h] at hk
      cases hk
    all_goals simp at hr
  · intro r hr k hk
    rcases matchLength_minus hk with rfl | ⟨-, rfl⟩
    · simp at hr
    · exact le_rfl

/-- What stands behind the sign when `MinInteger` does not match. -/
theorem matchLength_min_eq_none {blanks : List Char} {m : ℕ} (hblanks : ∀ c ∈ blanks, isWhitespace c)
    (hd : d.isDigit = false)
    (h : ¬ ((∀ c ∈ blanks, isBlank c) ∧ minDigits <+: Nat.toDigits 10 m)) (rest : List Char) :
    matchLength minInteger ('-' :: (blanks ++ (Nat.toDigits 10 m ++ d :: rest))) = none := by
  simp only [matchLength, ite_eq_right_iff, reduceCtorEq, imp_false, List.isPrefixOf_iff_prefix]
  intro hfront
  apply h
  by_cases hall : ∀ c ∈ blanks, isBlank c
  · refine ⟨hall, ?_⟩
    obtain ⟨c, cs, hcs, -⟩ := toDigits_eq_cons m
    have hc : isBlank c = false := by
      by_contra hblank
      have hspace := isWhitespace_of_isBlank (by simpa using hblank : isBlank c)
      have hdigit : c.isDigit := isDigit_of_mem_toDigits (m := m) (by simp [hcs])
      rw [isWhitespace_of_isDigit hdigit] at hspace
      cases hspace
    rw [List.dropWhile_append_of_pos hall, hcs, List.cons_append,
      List.dropWhile_cons_of_neg (by simp [hc]), ← List.cons_append, ← hcs] at hfront
    exact prefix_of_forall (List.all_eq_true.mp (by decide : minDigits.all Char.isDigit)) hd hfront
  · -- The first of the characters that is no blank is not a digit either.
    cases hdrop : blanks.dropWhile isBlank with
    | nil => exact absurd (List.dropWhile_eq_nil_iff.mp hdrop) hall
    | cons x xs =>
      rw [List.dropWhile_append, hdrop] at hfront
      simp only [List.isEmpty_cons, Bool.false_eq_true, if_false, List.cons_append] at hfront
      have hnine : '9' = x := (List.cons_prefix_cons.mp hfront).1
      have hx : x ∈ blanks := (List.dropWhile_sublist isBlank).subset (by simp [hdrop])
      have hspace := hblanks x hx
      rw [← hnine] at hspace
      cases hspace

/-- Without `MinInteger` the number is scanned as if there were no sign. -/
theorem scan_minus (extension : String) {blanks : List Char} {m : ℕ} (hblanks : ∀ c ∈ blanks, isWhitespace c)
    (hd : d.isDigit = false)
    (h : ¬ ((∀ c ∈ blanks, isBlank c) ∧ minDigits <+: Nat.toDigits 10 m)) (rest : List Char) :
    scan extension ('-' :: (blanks ++ (Nat.toDigits 10 m ++ d :: rest))) =
      if (m : ℤ) ≤ maxVal then
        (scan extension (d :: rest)).map
          ([Token.symbol ['-'], Token.INTEGER_LITERAL (Nat.toDigits 10 m)] ++ ·)
      else .error .InvalidInteger := by
  have hmatch := longestMatch_minus (matchLength_min_eq_none hblanks hd h rest)
  rw [scan_step (some (.symbol ['-'])) hmatch rfl]
  simp only [List.drop_succ_cons, List.drop_zero]
  rw [scan_blanks hblanks, scan_toDigits extension m hd]
  split_ifs
  · cases scan extension (d :: rest) <;> rfl
  · rfl

end Scanner

end Jaek
