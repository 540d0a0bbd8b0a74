import Jaek.IR.Arrays
import Jaek.IR.MidRules
import Jaek.Lexer.LexUtil

/-!
# String literals at run time

`escapeStringChars` has to undo what `getStringRepresentation` did, but its four replacements run over
the whole text one after the other, and it knows only four of the escapes. `unescaped` is what comes out,
read off the code points; `literal_survives_iff` says for which literals the array has their code
points.
-/

namespace Jaek

namespace IRTranslator

open LexUtil (formatChar getStringRepresentation)

/-! ## One replacement -/

section Replace

variable {a b c x : Char} {s t : List Char}

/-- A pair does not start with another character. -/
theorem replacePair_cons_of_ne (h : x ≠ a) : replacePair a b c (x :: s) = x :: replacePair a b c s := by
  cases s with
  | nil => simp [replacePair]
  | cons y s => rw [replacePair, if_neg (fun hxy => h hxy.1)]

/-- A first character without the second one stays. -/
theorem replacePair_cons_of_head (h : s.head? ≠ some b) :
    replacePair a b c (a :: s) = a :: replacePair a b c s := by
  cases s with
  | nil => simp [replacePair]
  | cons y s => rw [replacePair, if_neg (fun hay => h (by rw [hay.2]; rfl))]

@[simp] theorem replacePair_pair : replacePair a b c (a :: b :: s) = c :: replacePair a b c s := by
  rw [replacePair, if_pos ⟨rfl, rfl⟩]

/-- A replacement puts no character to the front but its own. -/
theorem head?_replacePair_ne {d : Char} (hc : c ≠ d) (h : s.head? ≠ some d) :
    (replacePair a b c s).head? ≠ some d := by
  cases s with
  | nil => simp [replacePair]
  | cons x s =>
    cases s with
    | nil => exact h
    | cons y s =>
      rw [replacePair]
      split
      · simpa using hc
      · simpa using h

/-- A text without the first character of the pair is left alone. -/
theorem replacePair_append_of_not_mem (h : a ∉ s) :
    replacePair a b c (s ++ t) = s ++ replacePair a b c t := by
  induction s with
  | nil => rfl
  | cons x s ih =>
    rw [List.mem_cons, not_or] at h
    rw [List.cons_append, replacePair_cons_of_ne (Ne.symm h.1), ih h.2, List.cons_append]

/-- An escape of other characters is left alone. -/
theorem replacePair_escape (hx : x ≠ b) (ha : a ∉ x :: s) :
    replacePair a b c (a :: x :: s ++ t) = a :: x :: s ++ replacePair a b c t := by
  have hhead : (x :: s ++ t).head? ≠ some b := by simpa using hx
  rw [List.cons_append, replacePair_cons_of_head hhead, replacePair_append_of_not_mem ha]
  rfl

end Replace

/-! ## The four replacements -/

/-- The characters whose escapes are undone, or that have none. -/
def Plain (c : ℕ) : Prop := c = 9 ∨ c = 10 ∨ (32 ≤ c ∧ c < 127)

instance (c : ℕ) : Decidable (Plain c) := inferInstanceAs (Decidable (_ ∨ _ ∨ _))

/-- What is left of a literal: a backslash before `n` or `t` is taken for an escape together with it, and
the escapes of all other characters stay as they are. -/
def unescaped : List ℕ → List ℕ
  | [] => []
  | 92 :: 110 :: s => 92 :: 10 :: unescaped s
  | 92 :: 116 :: s => 92 :: 9 :: unescaped s
  | c :: s => (if Plain c then [c] else (formatChar c).map Char.toNat) ++ unescaped s

/-- There is no backslash in a number. -/
theorem not_mem_toDigits (c : ℕ) : '\\' ∉ Nat.toDigits 16 c := by
  have hdigit : ∀ d < 16, Nat.digitChar d ≠ '\\' := by decide
  induction c using Nat.strong_induction_on with
  | _ c ih =>
    rw [Nat.toDigits_eq_if (by decide)]
    split_ifs with hc
    · rw [List.mem_singleton]
      exact (hdigit c hc).symm
    · rw [List.mem_append, not_or]
      have hmod : c % 16 < 16 := Nat.mod_lt c (Nat.zero_lt_succ 15)
      refine ⟨ih (c / 16) (by omega), ?_⟩
      rw [List.mem_singleton]
      exact (hdigit _ hmod).symm

/-- The escapes that are not undone. -/
theorem formatChar_of_not_plain {c : ℕ} (h : ¬Plain c) : ∃ x s, formatChar c = '\\' :: x :: s ∧
    (x = 'r' ∨ x = 'x') ∧ '\\' ∉ x :: s := by
  simp only [Plain, not_or, not_and, not_lt] at h
  unfold formatChar
  by_cases hr : c = 13
  · subst hr
    exact ⟨'r', [], rfl, .inl rfl, by decide⟩
  · rw [if_neg h.2.1, if_neg h.1, if_neg hr, if_neg (by omega), if_neg (by omega),
      if_pos (by omega)]
    refine ⟨'x', '\x7b' :: Nat.toDigits 16 c ++ ['\x7d'], rfl, .inr rfl, ?_⟩
    simp [not_mem_toDigits]

section Escape

variable {c : ℕ} {x : Char} {t : List Char}

/-- Text without a backslash at its front is copied. -/
theorem escape_cons (h : x ≠ '\\') : escapeStringChars (x :: t) = x :: escapeStringChars t := by
  simp only [escapeStringChars, replacePair_cons_of_ne h]

/-- A written newline is read back. -/
theorem escape_newline : escapeStringChars ('\\' :: 'n' :: t) = '\n' :: escapeStringChars t := by
  have hne : '\n' ≠ '\\' := by decide
  simp only [escapeStringChars, replacePair_pair, replacePair_cons_of_ne hne]

/-- So is a tab. -/
theorem escape_tab : escapeStringChars ('\\' :: 't' :: t) = '\t' :: escapeStringChars t := by
  have hne : '\t' ≠ '\\' := by decide
  have ht : 't' ≠ '\\' := by decide
  have hhead : ('t' :: t).head? ≠ some 'n' := by simp
  simp only [escapeStringChars, replacePair_cons_of_head hhead, replacePair_cons_of_ne ht,
    replacePair_pair, replacePair_cons_of_ne hne]

/-- So is a quote. -/
theorem escape_quote : escapeStringChars ('\\' :: '"' :: t) = '"' :: escapeStringChars t := by
  have hq : '"' ≠ '\\' := by decide
  have hn : ∀ s : List Char, ('"' :: s).head? ≠ some 'n' := by simp
  have ht : ∀ s : List Char, ('"' :: s).head? ≠ some 't' := by simp
  simp only [escapeStringChars, replacePair_cons_of_head (hn _), replacePair_cons_of_head (ht _),
    replacePair_cons_of_ne hq, replacePair_pair]

/-- A doubled backslash is halved, unless a letter behind it makes an escape of its second half. -/
theorem escape_backslash (hn : t.head? ≠ some 'n') (ht : t.head? ≠ some 't')
    (hq : t.head? ≠ some '"') :
    escapeStringChars ('\\' :: '\\' :: t) = '\\' :: escapeStringChars t := by
  have hb : ∀ (d : Char) (s : List Char), d ≠ '\\' → ('\\' :: s).head? ≠ some d := by
    intro d s hd
    simpa using hd.symm
  have ht' : (replacePair '\\' 'n' '\n' t).head? ≠ some 't' :=
    head?_replacePair_ne (by decide) ht
  have hq' : (replacePair '\\' 't' '\t' (replacePair '\\' 'n' '\n' t)).head? ≠ some '"' :=
    head?_replacePair_ne (by decide) (head?_replacePair_ne (by decide) hq)
  rw [escapeStringChars, replacePair_cons_of_head (hb 'n' _ (by decide)),
    replacePair_cons_of_head hn, replacePair_cons_of_head (hb 't' _ (by decide)),
    replacePair_cons_of_head ht', replacePair_cons_of_head (hb '"' _ (by decide)),
    replacePair_cons_of_head hq', replacePair_pair]
  rfl

/-- The second half of a doubled backslash and an `n` behind it become a line feed. -/
theorem escape_backslash_n :
    escapeStringChars ('\\' :: '\\' :: 'n' :: t) = '\\' :: '\n' :: escapeStringChars t := by
  have hne : '\n' ≠ '\\' := by decide
  have hb : ∀ s : List Char, ('\\' :: s).head? ≠ some 'n' := by simp
  have hl : ∀ (d : Char) (s : List Char), d ≠ '\n' → ('\n' :: s).head? ≠ some d := by
    intro d s hd
    simpa using hd.symm
  simp only [escapeStringChars, replacePair_cons_of_head (hb _), replacePair_pair,
    replacePair_cons_of_head (hl 't' _ (by decide)), replacePair_cons_of_head (hl '"' _ (by decide)),
    replacePair_cons_of_head (hl '\\' _ (by decide)), replacePair_cons_of_ne hne]

/-- The second half of a doubled backslash and a `t` behind it become a tab. -/
theorem escape_backslash_t :
    escapeStringChars ('\\' :: '\\' :: 't' :: t) = '\\' :: '\t' :: escapeStringChars t := by
  have hne : '\t' ≠ '\\' := by decide
  have ht : 't' ≠ '\\' := by decide
  have hb : ∀ (d : Char) (s : List Char), d ≠ '\\' → ('\\' :: s).head? ≠ some d := by
    intro d s hd
    simpa using hd.symm
  have hn : ∀ s : List Char, ('t' :: s).head? ≠ some 'n' := by simp
  have hl : ∀ (d : Char) (s : List Char), d ≠ '\t' → ('\t' :: s).head? ≠ some d := by
    intro d s hd
    simpa using hd.symm
  simp only [escapeStringChars, replacePair_cons_of_head (hb 'n' _ (by decide)),
    replacePair_cons_of_head (hn _), replacePair_cons_of_ne ht,
    replacePair_cons_of_head (hb 't' _ (by decide)), replacePair_pair,
    replacePair_cons_of_head (hl '"' _ (by decide)),
    replacePair_cons_of_head (hl '\\' _ (by decide)), replacePair_cons_of_ne hne]

/-- A code that is written as a number stays written so. -/
theorem escape_not_plain (h : ¬Plain c) :
    escapeStringChars (formatChar c ++ t) = formatChar c ++ escapeStringChars t := by
  obtain ⟨x, s, hformat, hx, hs⟩ := formatChar_of_not_plain h
  have hne : ∀ d ∈ ['n', 't', '"', '\\'], x ≠ d := by
    rcases hx with rfl | rfl <;> simp
  rw [hformat, escapeStringChars, replacePair_escape (hne 'n' (by simp)) hs,
    replacePair_escape (hne 't' (by simp)) hs, replacePair_escape (hne '"' (by simp)) hs,
    replacePair_escape (hne '\\' (by simp)) hs]
  rfl

end Escape

/-- A character is printed as it is, or with a backslash at the front. -/
theorem formatChar_cases (c : ℕ) : (∃ t, formatChar c = '\\' :: t) ∨
    (formatChar c = [Char.ofNat c] ∧ 32 ≤ c ∧ c < 127 ∧ c ≠ 92 ∧ c ≠ 34) := by
  unfold formatChar
  split_ifs with h10 h9 h13 h92 h34 hrange
  iterate 6 exact .inl ⟨_, rfl⟩
  rw [not_or, not_lt, not_le] at hrange
  rw [Nat.mod_eq_of_lt (by omega)]
  exact .inr ⟨rfl, hrange.1, hrange.2, h92, h34⟩

/-- The character of a small code has this code. -/
theorem toNat_ofNat_of_lt {c : ℕ} (h : c < 127) : (Char.ofNat c).toNat = c := by
  rw [Char.toNat_ofNat, if_pos (.inl (by omega))]

/-- The first character of a representation. -/
theorem head?_representation_ne {d : Char} (hd : d ≠ '\\') {s : List ℕ}
    (h : s.head? = some d.toNat → d = '"') : (getStringRepresentation s).head? ≠ some d := by
  cases s with
  | nil => simp [getStringRepresentation]
  | cons c s =>
    rw [getStringRepresentation, List.flatMap_cons]
    obtain ⟨t, ht⟩ | ⟨hc, -, hlt, -, hquote⟩ := formatChar_cases c
    · simpa [ht] using hd.symm
    · intro hhead
      have hdc : Char.ofNat c = d := by simpa [hc] using hhead
      have hcd : c = d.toNat := by rw [← hdc, toNat_ofNat_of_lt hlt]
      have hd : d = '"' := h (by rw [List.head?_cons, hcd])
      subst hd
      exact hquote hcd

/-- The escapes that are undone, unless a letter behind a backslash makes another escape. -/
theorem escape_plain {c : ℕ} {t : List Char} (h : Plain c)
    (ht : c = 92 → t.head? ≠ some 'n' ∧ t.head? ≠ some 't' ∧ t.head? ≠ some '"') :
    (escapeStringChars (formatChar c ++ t)).map Char.toNat =
      c :: (escapeStringChars t).map Char.toNat := by
  obtain ⟨u, hu⟩ | ⟨hc, hge, hlt, hbackslash, -⟩ := formatChar_cases c
  · have hcases : c = 9 ∨ c = 10 ∨ c = 92 ∨ c = 34 := by
      by_contra hne
      rw [not_or, not_or, not_or] at hne
      obtain ⟨h9, h10, h92, h34⟩ := hne
      have hrange : 32 ≤ c ∧ c < 127 := by
        rcases h with h | h | h
        exacts [(h9 h).elim, (h10 h).elim, h]
      have hformat : formatChar c = [Char.ofNat c] := by
        rw [formatChar, if_neg h10, if_neg h9, if_neg (by omega), if_neg h92, if_neg h34,
          if_neg (by omega), Nat.mod_eq_of_lt (by omega)]
      rw [hformat] at hu
      have hchar : Char.ofNat c = '\\' := (List.cons.inj hu).1
      apply h92
      rw [← toNat_ofNat_of_lt hrange.2, hchar]
      rfl
    rcases hcases with rfl | rfl | rfl | rfl
    · exact congrArg (List.map Char.toNat) escape_tab
    · exact congrArg (List.map Char.toNat) escape_newline
    · obtain ⟨hn, ht, hq⟩ := ht rfl
      exact congrArg (List.map Char.toNat) (escape_backslash hn ht hq)
    · exact congrArg (List.map Char.toNat) escape_quote
  · have hne : Char.ofNat c ≠ '\\' := by
      intro heq
      apply hbackslash
      rw [← toNat_ofNat_of_lt hlt, heq]
      rfl
    rw [hc, List.singleton_append, escape_cons hne, List.map_cons, toNat_ofNat_of_lt hlt]

/-- The replacements, read off the code points. -/
theorem escape_representation (s : List ℕ) :
    (escapeStringChars (getStringRepresentation s)).map Char.toNat = unescaped s := by
  fun_induction unescaped s with
  | case1 => rfl
  | case2 s ih =>
    have hrep : getStringRepresentation (92 :: 110 :: s) =
        '\\' :: '\\' :: 'n' :: getStringRepresentation s := rfl
    rw [hrep, escape_backslash_n, List.map_cons, List.map_cons, ih]
    rfl
  | case3 s ih =>
    have hrep : getStringRepresentation (92 :: 116 :: s) =
        '\\' :: '\\' :: 't' :: getStringRepresentation s := rfl
    rw [hrep, escape_backslash_t, List.map_cons, List.map_cons, ih]
    rfl
  | case4 c s hn ht ih =>
    have hrep : getStringRepresentation (c :: s) = formatChar c ++ getStringRepresentation s := rfl
    have hhead : ∀ {d : Char} {k : ℕ}, d.toNat = k → (∀ s', s = k :: s' → False) →
        s.head? = some d.toNat → d = '"' := by
      rintro d k rfl hne hs
      obtain ⟨s', hs'⟩ := List.head?_eq_some_iff.mp hs
      exact (hne s' hs').elim
    rw [hrep]
    by_cases hplain : Plain c
    · rw [if_pos hplain, List.singleton_append, ← ih]
      refine escape_plain hplain fun hc => ⟨?_, ?_, ?_⟩
      · exact head?_representation_ne (by decide) (hhead rfl fun s' => hn s' hc)
      · exact head?_representation_ne (by decide) (hhead rfl fun s' => ht s' hc)
      · exact head?_representation_ne (by decide) fun _ => rfl
    · rw [if_neg hplain, escape_not_plain hplain, List.map_append, ih]

/-! ## When nothing is lost -/

/-- Only characters whose escapes are undone, and no backslash before `n` or `t`. -/
def Undone : List ℕ → Prop
  | [] => True
  | c :: s => Plain c ∧ (c = 92 → s.head? ≠ some 110 ∧ s.head? ≠ some 116) ∧ Undone s

/-- The first code point of an escape is a backslash. -/
theorem head?_of_not_plain {c : ℕ} (h : ¬Plain c) (s : List ℕ) :
    ((formatChar c).map Char.toNat ++ s).head? = some 92 := by
  obtain ⟨x, t, hformat, -, -⟩ := formatChar_of_not_plain h
  rw [hformat]
  rfl

/-- A string comes back as it was when each of its characters does. -/
theorem unescaped_eq_iff (s : List ℕ) : unescaped s = s ↔ Undone s := by
  fun_induction unescaped s with
  | case1 => exact iff_of_true rfl trivial
  | case2 s => exact iff_of_false (by simp) fun h => (h.2.1 rfl).1 rfl
  | case3 s => exact iff_of_false (by simp) fun h => (h.2.1 rfl).2 rfl
  | case4 c s hn ht ih =>
    by_cases hplain : Plain c
    · have hhead : c = 92 → s.head? ≠ some 110 ∧ s.head? ≠ some 116 := by
        intro hc
        constructor <;> intro hs <;> obtain ⟨s', hs'⟩ := List.head?_eq_some_iff.mp hs
        exacts [hn s' hc hs', ht s' hc hs']
      rw [if_pos hplain, List.singleton_append, List.cons.injEq, ih]
      exact ⟨fun h => ⟨hplain, hhead, h.2⟩, fun h => ⟨rfl, h.2.2⟩⟩
    · rw [if_neg hplain]
      refine iff_of_false (fun heq => ?_) fun h => hplain h.1
      have hc : c = 92 := by
        have hhead := head?_of_not_plain hplain (unescaped s)
        rw [heq] at hhead
        simpa using hhead
      exact hplain (by rw [hc]; decide)

/-! ## The run of a literal -/

open Mid (Performs pureValue)

/-- The memory after the stores of the characters from number `i` on. -/
def fill (p : Word) : ℕ → List Char → Bytes → Bytes
  | _, [], m => m
  | i, c :: s, m => fill p (i + 1) s (m.store (p + longOfInt (8 * (i + 1))) (.ofNat 64 c.toNat))

/-- The stores of the characters from number `i` on. -/
def fillEvents (p : Word) (i : ℕ) (s : List Char) : List (Event Bytes) :=
  (s.zipIdx i).map fun c => .store (p + longOfInt (8 * (c.2 + 1))) (.ofNat 64 c.1.toNat)

section Run

variable {L : String → Word} {block : List IRStmt} {s s' : Store Bytes} {x : String}
  {text : List Char} {evs : List (Event Bytes)} {p v : Word} {m : Bytes}

/-- Moves are not sequences. -/
theorem flattenAll_of_moves {block : List IRStmt} (h : ∀ st ∈ block, st.flatten = [st]) :
    IRStmt.flattenAll block = block := by
  induction block with
  | nil => rfl
  | cons st block ih =>
    rw [IRStmt.flattenAll, h st List.mem_cons_self, ih fun st' hst' => h st' (List.mem_cons_of_mem _ hst')]
    rfl

/-- The moves of a literal store its characters one by one, by induction over the text. -/
theorem performs_fill (i : ℕ) : Performs (Bytes.storage L) (.code block
      ((text.zipIdx i).map fun c => .move (wordAt (.temp x) (longOfInt (8 * (c.2 + 1))))
        (.const (.ofNat 64 c.1.toNat)))) s evs (.done s') ↔
    evs = fillEvents (s.temps x) i text ∧
      s' = { s with mem := fill (s.temps x) i text s.mem } := by
  induction text generalizing i s evs with
  | nil =>
    rw [List.zipIdx_nil, List.map_nil, Mid.performs_nil (by simp), Mid.Outcome.done.injEq]
    exact Iff.rfl
  | cons c text ih =>
    have haddr : pureValue (Bytes.storage L) s (.op .ADD (.temp x) (.const (longOfInt (8 * (i + 1)))))
        = some (s.temps x + longOfInt (8 * (i + 1))) := rfl
    rw [List.zipIdx_cons, List.map_cons, wordAt, Mid.performs_move_mem (by simp) haddr rfl rfl]
    constructor
    · rintro ⟨evs₂, hrest, rfl⟩
      obtain ⟨rfl, rfl⟩ := (ih (i + 1)).mp hrest
      exact ⟨rfl, rfl⟩
    · rintro ⟨rfl, rfl⟩
      exact ⟨_, (ih (i + 1)).mpr ⟨rfl, rfl⟩, rfl⟩

/-- The bytes asked for. -/
def literalSize (text : List Char) : Word := longOfInt text.length * 8 + 8

/-- The runs of a string literal: whatever memory the allocation gives, the length and the characters
are stored in it. -/
theorem performs_stringLiteral : Performs (Bytes.storage L)
      (.expr (stringLiteral (.temp x) text)) s evs (.value v s') ↔
    ∃ p m, v = p + 8 ∧
      evs = .call "_eta_alloc" [literalSize text] [p] m :: .store p (longOfInt text.length) ::
        fillEvents p 0 text ∧
      s' = ⟨Function.update (setReturns 1 [p] s.temps) x p,
        fill p 0 text (m.store p (longOfInt text.length))⟩ := by
  -- the literal is one call followed by straight moves, with nothing in it to flatten
  have hmoves : ∀ st ∈ arrayInitMoves (.const (longOfInt text.length)) (.temp x) ++
      text.zipIdx.map fun c => .move (wordAt (.temp x) (longOfInt (8 * (c.2 + 1))))
        (.const (.ofNat 64 c.1.toNat)), st.flatten = [st] := by
    intro st hst
    rcases List.mem_append.mp hst with hst | hst
    · rcases List.mem_pair.mp hst with rfl | rfl <;> rfl
    · obtain ⟨c, -, rfl⟩ := List.mem_map.mp hst
      rfl
  rw [stringLiteral, Mid.performs_eseq, flattenAll_of_moves hmoves, arrayInitMoves,
    List.cons_append, List.cons_append, List.nil_append]
  have hsize : pureValue (Bytes.storage L) s (arraySize (.const (longOfInt text.length))) =
      some (literalSize text) := rfl
  have hptr : ∀ s : Store Bytes, pureValue (Bytes.storage L) s (.op .ADD (.temp x) (.const 8)) =
      some (s.temps x + 8) := fun _ => rfl
  have hdone : ∀ s₁ : Store Bytes, Mid.Outcome.done s₁ ≠ .cut := by simp
  have hlen : ∀ s : Store Bytes, pureValue (Bytes.storage L) s (.temp x) = some (s.temps x) :=
    fun _ => rfl
  have hconst : ∀ s : Store Bytes, pureValue (Bytes.storage L) s (.const (longOfInt text.length)) =
      some (longOfInt text.length) := fun _ => rfl
  constructor
  · rintro ⟨s₁, evs₁, evs₂, hcode, hvalue, rfl⟩
    rw [Mid.performs_move_call (hdone s₁) hsize] at hcode
    obtain ⟨p, m, evs₃, hcode, rfl⟩ := hcode
    rw [Mid.performs_move_mem (hdone s₁) (hlen _) (hconst _) rfl] at hcode
    obtain ⟨evs₄, hcode, rfl⟩ := hcode
    obtain ⟨rfl, rfl⟩ := (performs_fill 0).mp hcode
    obtain ⟨rfl, hv⟩ := (Mid.performs_pure_iff (hptr _) (by simp)).mp hvalue
    cases hv
    refine ⟨p, m, ?_, ?_, ?_⟩ <;> simp [Store.set]
  · rintro ⟨p, m, rfl, rfl, rfl⟩
    refine ⟨_, _, [], ?_, Mid.performs_pure ((hptr _).trans (by simp)),
      (List.append_nil _).symm⟩
    rw [Mid.performs_move_call (hdone _) hsize]
    refine ⟨p, m, _, ?_, rfl⟩
    rw [Mid.performs_move_mem (hdone _) (hlen _) (hconst _) rfl]
    refine ⟨_, (performs_fill 0).mpr ⟨rfl, ?_⟩, ?_⟩ <;> simp [Store.set]

end Run

/-! ## The array of a literal -/

section Fill

variable {p a : Word} {text : List Char} {m : Bytes}

/-- The stores leave alone a word that none of them reaches. -/
theorem load_fill_apart {i : ℕ}
    (h : ∀ j, i ≤ j → j < i + text.length → Bytes.Apart (p + longOfInt (8 * (j + 1))) a) :
    (fill p i text m).load a = m.load a := by
  induction text generalizing i m with
  | nil => rfl
  | cons c text ih =>
    rw [List.length_cons] at h
    rw [fill, ih fun j hij hj => h j (by omega) (by omega)]
    exact Bytes.load_store_apart _ _ (h i le_rfl (by omega))

/-- As long as the offsets do not overflow, every character is found again. -/
theorem load_fill {i : ℕ} (hlen : i + text.length < 2 ^ 28) {k : ℕ} {c : Char}
    (hc : text[k]? = some c) :
    (fill p i text m).load (p + .ofNat 64 (8 * (i + k + 1))) = .ofNat 64 c.toNat := by
  induction text generalizing i k m with
  | nil => cases hc
  | cons d text ih =>
    rw [List.length_cons] at hlen
    cases k with
    | zero =>
      cases hc
      have hapart : ∀ j, i + 1 ≤ j → j < i + 1 + text.length →
          Bytes.Apart (p + longOfInt (8 * (j + 1))) (p + .ofNat 64 (8 * (i + 1))) := by
        intro j hij hj
        rw [longOfInt_of_lt (by omega)]
        exact apart_offsets p (by omega) (by omega) (by omega)
      rw [fill, Nat.add_zero, load_fill_apart hapart, longOfInt_of_lt (by omega)]
      exact Bytes.load_store_self _ _ _
    | succ k =>
      have hk : i + (k + 1) + 1 = i + 1 + k + 1 := by omega
      rw [fill, hk]
      exact ih (by omega) hc

end Fill

/-- The run-time array of the literal with these code points: whatever the allocation gives, the
evaluation ends, and wherever it ends there is an array with exactly them. -/
structure Survives (chars : List ℕ) (e : IRExpr) : Prop where
  ends : ∀ (L : String → Word) (s : Store Bytes) (p : Word) (m : Bytes), ∃ size evs v s',
    Performs (Bytes.storage L) (.expr e) s (.call "_eta_alloc" [size] [p] m :: evs) (.value v s')
  array : ∀ (L : String → Word) (s s' : Store Bytes) evs v,
    Performs (Bytes.storage L) (.expr e) s evs (.value v s') →
    ArrayAt s'.mem v (chars.map (.ofNat 64))

/-- The translation of the literal that the lexer has read as `chars`. -/
def Literal (chars : List ℕ) (e : IRExpr) : Prop :=
  ∃ (tables : Tables) (etaType : Typed) (sourceFn : String) (s s' : State),
    (translateExpr tables sourceFn (.stringLit etaType
      (String.ofList (getStringRepresentation chars)))).run s = some (e, s')

/-- What a literal is translated to: the allocation and the moves, with the text after
`escapeStringChars`. -/
theorem Literal.eq {chars : List ℕ} {e : IRExpr} (h : Literal chars e) : ∃ k : ℕ,
    e = stringLiteral (.temp (tempName k)) (escapeStringChars (getStringRepresentation chars)) := by
  obtain ⟨tables, etaType, sourceFn, s, s', h⟩ := h
  refine ⟨s.freshTempCount + 1, ?_⟩
  rw [translateExpr, String.toList_ofList] at h
  cases h
  rfl

/-- No character is printed in more than ten. -/
theorem length_formatChar {c : ℕ} (h : c < 2 ^ 24) : (formatChar c).length ≤ 10 := by
  have hdigits : (Nat.toDigits 16 c).length ≤ 6 :=
    (Nat.length_toDigits_le_iff (by decide) (by decide)).mpr (by omega)
  unfold formatChar
  split_ifs
  all_goals simp
  omega

/-- A character is written in ten characters at most. -/
theorem length_unescaped {chars : List ℕ} (h : ∀ c ∈ chars, c < 2 ^ 24) :
    (unescaped chars).length ≤ 10 * chars.length := by
  fun_induction unescaped chars with
  | case1 => simp
  | case2 s ih =>
    have hs := ih fun c hc => h c (List.mem_cons_of_mem _ (List.mem_cons_of_mem _ hc))
    simp only [List.length_cons]
    omega
  | case3 s ih =>
    have hs := ih fun c hc => h c (List.mem_cons_of_mem _ (List.mem_cons_of_mem _ hc))
    simp only [List.length_cons]
    omega
  | case4 c s hn ht ih =>
    have hs := ih fun c hc => h c (List.mem_cons_of_mem _ hc)
    have hc := length_formatChar (h c List.mem_cons_self)
    rw [List.length_append, List.length_cons]
    split_ifs
    · rw [List.length_singleton]
      omega
    · rw [List.length_map]
      omega

section Survives

variable {chars : List ℕ} {e : IRExpr} {text : List Char}

/-- The array behind every allocation. -/
theorem survives_iff_arrayAt {x : String} : Survives chars (stringLiteral (.temp x) text) ↔
    ∀ (p : Word) (m : Bytes), ArrayAt (fill p 0 text (m.store p (longOfInt text.length))) (p + 8)
      (chars.map (.ofNat 64)) := by
  constructor
  · intro h p m
    exact h.array (fun _ => 0) ⟨fun _ => 0, m⟩ _ _ _ (performs_stringLiteral.mpr ⟨p, m, rfl, rfl, rfl⟩)
  · intro h
    refine ⟨fun L s p m => ?_, fun L s s' evs v hrun => ?_⟩
    · exact ⟨_, _, _, _, performs_stringLiteral.mpr ⟨p, m, rfl, rfl, rfl⟩⟩
    · obtain ⟨p, m, rfl, -, rfl⟩ := performs_stringLiteral.mp hrun
      exact h p m

/-- The word in front of the elements. -/
theorem front_eq (p : Word) : p + 8 - 8 = p := by bv_omega

/-- The elements of a string stand behind its length. -/
theorem element_eq (p : Word) (i : ℕ) : p + 8 + .ofNat 64 (8 * i) = p + .ofNat 64 (8 * (i + 1)) := by
  bv_omega

/-- A short text stands in memory as it is. -/
theorem arrayAt_fill {p : Word} {m : Bytes} (hlen : text.length < 2 ^ 28) :
    ArrayAt (fill p 0 text (m.store p (longOfInt text.length))) (p + 8)
      (text.map fun c => .ofNat 64 c.toNat) := by
  have hfront : ∀ j, 0 ≤ j → j < 0 + text.length →
      Bytes.Apart (p + longOfInt (8 * (j + 1))) p := by
    intro j _ hj
    have hp : p = p + .ofNat 64 (8 * 0) := by simp
    rw [longOfInt_of_lt (by omega)]
    nth_rewrite 2 [hp]
    exact apart_offsets p (by omega) (by omega) (by omega)
  refine ⟨?_, fun i v hv => ?_⟩
  · rw [front_eq, load_fill_apart hfront, Bytes.load_store_self, longOfInt_of_lt (by omega),
      List.length_map]
  · rw [List.getElem?_map] at hv
    obtain ⟨c, hc, rfl⟩ := Option.map_eq_some_iff.mp hv
    have hi : i + 1 = 0 + i + 1 := by omega
    rw [element_eq, hi]
    exact load_fill (by omega) hc

/-- A store behind the last offset of 31 bits comes back in front of the array. -/
theorem apart_far (j : ℕ) : Bytes.Apart (longOfInt (8 * (j + 1))) (.ofNat 64 (2 ^ 31)) := by
  obtain ⟨hmod, hrange⟩ := longOfInt_cases (j + 1)
  unfold Bytes.Apart
  bv_omega

/-- An array of `2 ^ 28` elements is not filled to its end. -/
theorem length_lt_of_arrayAt (h : ∀ (p : Word) (m : Bytes), ArrayAt
    (fill p 0 text (m.store p (longOfInt text.length))) (p + 8) (chars.map (.ofNat 64))) :
    chars.length < 2 ^ 28 := by
  by_contra hlen
  have hj : 2 ^ 28 - 1 < chars.length := by omega
  let w : Word := .ofNat 64 chars[2 ^ 28 - 1]
  let far : Word := .ofNat 64 (2 ^ 31)
  let zeros : Bytes := fun _ => 0
  have helem : (chars.map (BitVec.ofNat 64))[2 ^ 28 - 1]? = some w := by
    rw [List.getElem?_map, List.getElem?_eq_getElem hj]
    rfl
  have hload := (h 0 (zeros.store far (w + 1))).elem _ w helem
  have haddr : (0 : Word) + 8 + .ofNat 64 (8 * (2 ^ 28 - 1)) = far := by decide
  have hapart : ∀ j, 0 ≤ j → j < 0 + text.length →
      Bytes.Apart (0 + longOfInt (8 * (j + 1))) far := by
    intro j _ _
    rw [zero_add]
    exact apart_far j
  have hfront : Bytes.Apart (0 : Word) far := by
    unfold Bytes.Apart
    decide
  rw [haddr, load_fill_apart hapart, Bytes.load_store_apart _ _ hfront, Bytes.load_store_self] at hload
  exact absurd hload (by bv_omega)

/-- A word on which the stores fall as a whole or not at all is that of the memory or a character. -/
theorem load_fill_cases {p a : Word} {m : Bytes} {i : ℕ} (h : ∀ j, i ≤ j →
    p + longOfInt (8 * (j + 1)) = a ∨ Bytes.Apart (p + longOfInt (8 * (j + 1))) a) :
    (fill p i text m).load a = m.load a ∨
      ∃ c ∈ text, (fill p i text m).load a = .ofNat 64 c.toNat := by
  induction text generalizing i m with
  | nil => exact .inl rfl
  | cons c text ih =>
    rw [fill]
    obtain hload | ⟨d, hd, hload⟩ :=
      ih (i := i + 1) (m := m.store (p + longOfInt (8 * (i + 1))) (.ofNat 64 c.toNat))
        fun j hj => h j (by omega)
    · obtain heq | hapart := h i le_rfl
      · refine .inr ⟨c, List.mem_cons_self, ?_⟩
        rw [hload, heq, Bytes.load_store_self]
      · exact .inl (by rw [hload, Bytes.load_store_apart _ _ hapart])
    · exact .inr ⟨d, List.mem_cons_of_mem _ hd, hload⟩

/-- The length that is read back is that of the text, unless the text is so long that it overwrites
it. -/
theorem length_eq_of_arrayAt (h : ∀ (p : Word) (m : Bytes), ArrayAt
    (fill p 0 text (m.store p (longOfInt text.length))) (p + 8) (chars.map (.ofNat 64)))
    (hlong : text.length ≤ 10 * chars.length) : text.length = chars.length := by
  have hshort : chars.length < 2 ^ 28 := length_lt_of_arrayAt h
  let zeros : Bytes := fun _ => 0
  have hlen := (h 0 zeros).length
  rw [front_eq, List.length_map] at hlen
  by_cases hsmall : text.length < 2 ^ 28
  · have hfill := (arrayAt_fill (p := 0) (m := zeros) hsmall).length
    rw [front_eq, List.length_map, hlen] at hfill
    bv_omega
  exfalso
  have hcases : ∀ j, 0 ≤ j → (0 : Word) + longOfInt (8 * (j + 1)) = 0 ∨
      Bytes.Apart ((0 : Word) + longOfInt (8 * (j + 1))) 0 := by
    intro j _
    obtain ⟨hmod, hrange⟩ := longOfInt_cases (j + 1)
    unfold Bytes.Apart
    bv_omega
  obtain hload | ⟨c, -, hload⟩ := load_fill_cases (m := zeros.store 0 (longOfInt text.length)) hcases
  · rw [hload, Bytes.load_store_self] at hlen
    by_cases hsign : text.length < 2 ^ 31
    · rw [longOfInt_of_lt hsign] at hlen
      bv_omega
    · have hneg : (longOfInt text.length).toNat = text.length + (2 ^ 64 - 2 ^ 32) := by
        rw [longOfInt, BitVec.toNat_signExtend, BitVec.toNat_setWidth, BitVec.msb_eq_decide,
          BitVec.toNat_ofNat, decide_eq_true (by omega), if_pos rfl]
        omega
      bv_omega
  · rw [hload] at hlen
    have hc := LexUtil.toNat_lt c
    bv_omega

/-- The characters of a text that is as short as an array has to be are found in it. -/
theorem map_toNat_of_arrayAt (hchars : ∀ c ∈ chars, c < 2 ^ 24) (hlen : text.length = chars.length)
    (hshort : text.length < 2 ^ 28) (h : ∀ (p : Word) (m : Bytes), ArrayAt
      (fill p 0 text (m.store p (longOfInt text.length))) (p + 8) (chars.map (.ofNat 64))) :
    text.map Char.toNat = chars := by
  let zeros : Bytes := fun _ => 0
  apply List.ext_getElem (by rw [List.length_map, hlen])
  intro i hi hi'
  rw [List.length_map] at hi
  have helem := (h 0 zeros).elem i (.ofNat 64 chars[i]) (by simp [hi'])
  have hfill := (arrayAt_fill (p := 0) (m := zeros) hshort).elem i (.ofNat 64 text[i].toNat)
    (by simp [hi])
  have hc := hchars _ (List.getElem_mem hi')
  have hd := LexUtil.toNat_lt text[i]
  rw [List.getElem_map]
  rw [helem] at hfill
  bv_omega

/-- The expression leaves the literal's own characters in memory when they come back as they were, and the
array is not too large. -/
theorem survives_iff_undone {x : String} (hchars : ∀ c ∈ chars, c < 2 ^ 24) :
    Survives chars (stringLiteral (.temp x) (escapeStringChars (getStringRepresentation chars))) ↔
      Undone chars ∧ chars.length < 2 ^ 28 := by
  have hmap := escape_representation chars
  rw [survives_iff_arrayAt]
  constructor
  · intro h
    have hlong := length_unescaped hchars
    rw [← hmap, List.length_map] at hlong
    have hlen := length_eq_of_arrayAt h hlong
    have hshort := length_lt_of_arrayAt h
    rw [map_toNat_of_arrayAt hchars hlen (by omega) h] at hmap
    exact ⟨(unescaped_eq_iff chars).mp hmap.symm, hshort⟩
  · rintro ⟨hundone, hshort⟩ p m
    rw [(unescaped_eq_iff chars).mpr hundone] at hmap
    have hlen := congrArg List.length hmap
    rw [List.length_map] at hlen
    have hfill := arrayAt_fill (p := p) (m := m) (hlen ▸ hshort)
    have helems : (escapeStringChars (getStringRepresentation chars)).map
        (fun c => BitVec.ofNat 64 c.toNat) = chars.map (.ofNat 64) := by
      nth_rewrite 2 [← hmap]
      rw [List.map_map]
      rfl
    rw [helems] at hfill
    exact hfill

end Survives

/-- A literal is translated, and its array has the code points that were read exactly when all escapes
are undone and the offsets fit. -/
theorem literal_survives_iff {input rest : List Char} {chars : List ℕ}
    (hlex : LexUtil.stringState input = .ok (chars, rest)) :
    (∃ e, Literal chars e) ∧
      ∀ e, Literal chars e → (Survives chars e ↔ Undone chars ∧ chars.length < 2 ^ 28) := by
  refine ⟨⟨_, ⟨.empty, [], .empty⟩, none, "_Imain_p", .start 0 0, _, rfl⟩, fun e he => ?_⟩
  obtain ⟨k, rfl⟩ := he.eq
  exact survives_iff_undone (LexUtil.collect_lt hlex)

/-- The literal `"a\tb"`, a tab between two letters. -/
theorem tabLiteral_survives : (∃ e, Literal [97, 9, 98] e) ∧ ∀ e, Literal [97, 9, 98] e →
    (Survives [97, 9, 98] e ↔ Undone [97, 9, 98] ∧ [97, 9, 98].length < 2 ^ 28) := by
  have hlex : LexUtil.stringState "a\\tb\"".toList = .ok ([97, 9, 98], []) := by decide
  exact literal_survives_iff hlex

/-- The literal `"\r"` is read as a carriage return, and its array does not hold it. -/
theorem carriageReturn_lost : LexUtil.stringState "\\r\"".toList = .ok ([13], []) ∧
    ∀ e, Literal [13] e → ¬Survives [13] e := by
  refine ⟨by decide, fun e he h => ?_⟩
  obtain ⟨k, rfl⟩ := he.eq
  have hundone := ((survives_iff_undone (by simp)).mp h).1
  exact absurd hundone.1 (by decide)

end IRTranslator

end Jaek
