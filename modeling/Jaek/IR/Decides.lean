import Jaek.IR.MidRules
import Jaek.Semantics.Decision

/-!
# Code that decides

The code of a condition is run as a test. A statement decides when its runs are those of a test with a jump for
each answer (`Decides`); a value answers by being zero or not (`Truth`). Two conditions in a row decide by the
conjunction or disjunction of their tests, and so does the code in `short`, which sets a temp to the answer.
-/

namespace Jaek

open Decision Mid

variable {M : Type*} {S : Storage M} {s s' s₁ : Store M} {tr : List (Action M)} {out : Mid.Outcome M}

/-! ## Code as a test -/

/-- The outcome of a condition that jumps. -/
def jumpOf (t f : String) : Answer (Store M) → Mid.Outcome M
  | .yes s => .jump t s
  | .no s => .jump f s
  | .trap => .trap
  | .cut => .cut

/-- The runs of the statement are those of the test, with a jump for each answer. -/
def Decides (S : Storage M) (st : IRStmt) (t f : String) (T : Test (Store M) (Action M)) : Prop :=
  ∀ s tr out, Eval S (.stmt st) s tr out ↔ ∃ a, T s tr a ∧ out = jumpOf t f a

/-- The runs of an expression: any value but zero says yes. -/
inductive Truth (S : Storage M) (e : IRExpr) : Test (Store M) (Action M)
  | yes {s s₁ : Store M} {tr : List (Action M)} {v : Word} :
      Eval S (.expr e) s tr (.value v s₁) → v ≠ 0 → Truth S e s tr (.yes s₁)
  | no {s s₁ : Store M} {tr : List (Action M)} :
      Eval S (.expr e) s tr (.value 0 s₁) → Truth S e s tr (.no s₁)
  | trap {s : Store M} {tr : List (Action M)} : Eval S (.expr e) s tr .trap → Truth S e s tr .trap
  | cut {s : Store M} {tr : List (Action M)} : Eval S (.expr e) s tr .cut → Truth S e s tr .cut

/-- A value may be cut off before it is evaluated. -/
theorem Truth.cuts (e : IRExpr) : (Truth S e).Cuts := fun s => .cut (.cut _ s)

/-- No run of the expression ends in a jump or a return. -/
def Stays (S : Storage M) (e : IRExpr) : Prop :=
  ∀ s tr out, Eval S (.expr e) s tr out → (∃ v s₁, out = .value v s₁) ∨ out = .trap ∨ out = .cut

/-- The labels of a statement. -/
def HasLabel (st : IRStmt) (l : String) : Prop := .label l ∈ st.flatten

/-- A conditional jump asks for its guard. -/
theorem decides_cjump {g : IRExpr} (hg : Stays S g) (t f : String) :
    Decides S (.cjump g t (some f)) t f (Truth S g) := by
  intro s tr out
  rw [cjump_iff]
  constructor
  · rintro (⟨v, s₁, hrun, rfl⟩ | ⟨hrun, habort⟩)
    · by_cases hv : v = 0
      · subst hv
        exact ⟨_, .no hrun, rfl⟩
      · exact ⟨_, .yes hrun hv, by rw [if_pos hv]; rfl⟩
    · obtain ⟨v, s₁, rfl⟩ | rfl | rfl := hg _ _ _ hrun
      · cases habort
      · exact ⟨_, .trap hrun, rfl⟩
      · exact ⟨_, .cut hrun, rfl⟩
  · rintro ⟨a, hrun, rfl⟩
    cases hrun with
    | yes hrun hv => exact .inl ⟨_, _, hrun, by rw [if_pos hv]; rfl⟩
    | no hrun => exact .inl ⟨_, _, hrun, rfl⟩
    | trap hrun => exact .inr ⟨hrun, .trap⟩
    | cut hrun => exact .inr ⟨hrun, .cut⟩

/-- With the labels exchanged the answers are. -/
theorem Decides.not {st : IRStmt} {t f : String} {T : Test (Store M) (Action M)}
    (h : Decides S st t f T) : Decides S st f t T.not := by
  have hswap : ∀ a : Answer (Store M), jumpOf f t a.not = jumpOf t f a := fun a => by cases a <;> rfl
  intro s tr out
  rw [h s tr out]
  constructor
  · rintro ⟨a, hrun, rfl⟩
    exact ⟨a.not, by rwa [Test.not, Answer.not_not], (hswap a).symm⟩
  · rintro ⟨a, hrun, rfl⟩
    exact ⟨a.not, hrun, by rw [← hswap, Answer.not_not]⟩

/-- Behind a statement that decides, the run goes on at the label of the answer. -/
theorem Decides.code_cons_iff {st : IRStmt} {t f : String} {T : Test (Store M) (Action M)}
    (h : Decides S st t f T) {block rest : List IRStmt} : Eval S (.code block (st :: rest)) s tr out ↔
      ∃ tr₁ a tr₂, T s tr₁ a ∧ Continues S block rest (jumpOf t f a) tr₂ out ∧ tr = tr₁ ++ tr₂ := by
  rw [Mid.code_cons_iff]
  constructor
  · rintro ⟨tr₁, o, tr₂, hst, hcont, rfl⟩
    obtain ⟨a, hrun, rfl⟩ := (h _ _ _).mp hst
    exact ⟨tr₁, a, tr₂, hrun, hcont, rfl⟩
  · rintro ⟨tr₁, a, tr₂, hrun, hcont, rfl⟩
    exact ⟨tr₁, _, tr₂, (h _ _ _).mpr ⟨a, hrun, rfl⟩, hcont, rfl⟩

/-- Where neither label is found, the sequence is left with the answer. -/
theorem continues_jumpOf_iff {block rest : List IRStmt} {t f : String} {a : Answer (Store M)}
    (ht : Mid.findLabel block t = none) (hf : Mid.findLabel block f = none) :
    Continues S block rest (jumpOf t f a) tr out ↔ tr = [] ∧ out = jumpOf t f a := by
  constructor
  · intro h
    cases a with
    | yes s =>
      cases h with
      | goto hfind => rw [ht] at hfind; cases hfind
      | jump => exact ⟨rfl, rfl⟩
    | no s =>
      cases h with
      | goto hfind => rw [hf] at hfind; cases hfind
      | jump => exact ⟨rfl, rfl⟩
    | trap => cases h; exact ⟨rfl, rfl⟩
    | cut => cases h; exact ⟨rfl, rfl⟩
  · rintro ⟨rfl, rfl⟩
    cases a with
    | yes s => exact .jump ht
    | no s => exact .jump hf
    | trap => exact .trap
    | cut => exact .cut

/-- A statement that decides does so as a sequence of its own statements. -/
theorem Decides.flatten_iff {st : IRStmt} {t f : String} {T : Test (Store M) (Action M)}
    (h : Decides S st t f T) (ht : ¬ HasLabel st t) (hf : ¬ HasLabel st f) :
    Eval S (.code st.flatten st.flatten) s tr out ↔ ∃ a, T s tr a ∧ out = jumpOf t f a := by
  have ht' : Mid.findLabel st.flatten t = none := findLabel_eq_none_iff.mpr ht
  have hf' : Mid.findLabel st.flatten f = none := findLabel_eq_none_iff.mpr hf
  have hown : Eval S (.code st.flatten st.flatten) s tr out ↔ Eval S (.stmt st) s tr out := by
    cases st with
    | seq block =>
      constructor
      · exact .seq
      · intro hrun
        cases hrun with
        | cut => exact .cut _ s
        | seq hrun => exact hrun
    | _ =>
      simp only [IRStmt.flatten] at ht' hf' ⊢
      simp only [h.code_cons_iff, h s tr out, continues_jumpOf_iff ht' hf']
      constructor
      · rintro ⟨tr₁, a, tr₂, hrun, ⟨rfl, rfl⟩, rfl⟩
        exact ⟨a, by rwa [List.append_nil], rfl⟩
      · rintro ⟨a, hrun, rfl⟩
        exact ⟨tr, a, [], hrun, ⟨rfl, rfl⟩, (List.append_nil tr).symm⟩
  rw [hown, h s tr out]

/-- The labels of two statements with a label in between do not get in each other's way, and the labels that
are jumped to are none of them. -/
structure Apart (left right : IRStmt) (l t f : String) : Prop where
  label : ¬ HasLabel left l
  apart : ∀ k, HasLabel right k → ¬ HasLabel left k ∧ k ≠ l
  yes : ¬ HasLabel left t ∧ t ≠ l ∧ ¬ HasLabel right t
  no : ¬ HasLabel left f ∧ f ≠ l ∧ ¬ HasLabel right f

section Row

variable {left right : IRStmt} {l t f : String} {T U : Test (Store M) (Action M)}

/-- The statements of the first, the label, and the statements of the second. -/
def row (left right : IRStmt) (l : String) : List IRStmt := left.flatten ++ (.label l :: right.flatten)

/-- The sequence is run as the row of its statements. -/
theorem eval_row_iff : Eval S (.stmt (.seq [left, .label l, right])) s tr out ↔
    Eval S (.code (row left right l) (row left right l)) s tr out := by
  have hflat : IRStmt.flattenAll [left, .label l, right] = row left right l := by
    simp [IRStmt.flattenAll, IRStmt.flatten, row]
  rw [← hflat]
  constructor
  · intro h
    cases h with
    | cut => exact .cut _ s
    | seq h => exact h
  · exact .seq

/-- A label that neither statement has is not found. -/
theorem findLabel_row_eq_none {k : String} (h : ¬ HasLabel left k ∧ k ≠ l ∧ ¬ HasLabel right k) :
    Mid.findLabel (row left right l) k = none := by
  rw [findLabel_eq_none_iff, row, List.mem_append, List.mem_cons, IRStmt.label.injEq]
  rintro (hk | rfl | hk)
  · exact h.1 hk
  · exact h.2.1 rfl
  · exact h.2.2 hk

/-- Behind the label stands the second statement. -/
theorem findLabel_row (h : Apart left right l t f) :
    Mid.findLabel (row left right l) l = some right.flatten := by
  have hl : Mid.findLabel left.flatten l = none := findLabel_eq_none_iff.mpr h.label
  rw [row, Mid.findLabel_append, hl]
  exact if_pos rfl

/-- The second statement is run behind the label, up to the end of the sequence. -/
theorem eval_second_iff (h : Apart left right l t f) (hright : Decides S right t f U) :
    Eval S (.code (row left right l) right.flatten) s tr out ↔ ∃ a, U s tr a ∧ out = jumpOf t f a := by
  have happ : Eval S (.code (left.flatten ++ [.label l] ++ (right.flatten ++ [])) (right.flatten ++ [])) s tr
      out ↔ _ := code_append_iff fun k hk => by
    rw [findLabel_eq_none_iff, List.mem_append, List.mem_singleton, IRStmt.label.injEq]
    obtain ⟨hkl, hne⟩ := h.apart k (not_not.mp (mt findLabel_eq_none_iff.mpr hk))
    exact fun hmem => hmem.elim hkl hne
  simp only [List.append_nil, List.append_assoc, List.cons_append, List.nil_append] at happ
  rw [row, happ]
  have hcont : ∀ {rest : List IRStmt} {a : Answer (Store M)} {tr : List (Action M)} {out : Mid.Outcome M},
      Continues S (row left right l) rest (jumpOf t f a) tr out ↔ tr = [] ∧ out = jumpOf t f a :=
    continues_jumpOf_iff (findLabel_row_eq_none h.yes) (findLabel_row_eq_none h.no)
  simp only [hright.flatten_iff h.yes.2.2 h.no.2.2]
  constructor
  · rintro ⟨tr₁, o, tr₂, ⟨a, hrun, rfl⟩, hcont', rfl⟩
    obtain ⟨rfl, rfl⟩ := hcont.mp hcont'
    exact ⟨a, by rwa [List.append_nil], rfl⟩
  · rintro ⟨a, hrun, rfl⟩
    exact ⟨tr, _, [], ⟨a, hrun, rfl⟩, hcont.mpr ⟨rfl, rfl⟩, (List.append_nil tr).symm⟩

/-- Two conditions in a row: the first one jumps to the second where it says yes. -/
theorem Decides.and (h : Apart left right l t f) (hleft : Decides S left l f T)
    (hright : Decides S right t f U) : Decides S (.seq [left, .label l, right]) t f (T.and U) := by
  intro s tr out
  have hfind := findLabel_row h
  have hno := findLabel_row_eq_none h.no
  have hfirst : Eval S (.code ([] ++ (left.flatten ++ .label l :: right.flatten))
      (left.flatten ++ .label l :: right.flatten)) s tr out ↔ _ := code_append_iff fun _ _ => rfl
  rw [eval_row_iff, row]
  rw [List.nil_append] at hfirst
  rw [hfirst]
  simp only [hleft.flatten_iff h.label h.no.1]
  constructor
  · rintro ⟨tr₁, o, tr₂, ⟨a, hrun, rfl⟩, hcont, rfl⟩
    cases a with
    | yes s₁ =>
      cases hcont with
      | goto hfind' hrest =>
        rw [← row, hfind] at hfind'
        cases hfind'
        obtain ⟨a, hrun', rfl⟩ := (eval_second_iff h hright).mp hrest
        exact ⟨a, .yes hrun hrun', rfl⟩
      | jump hfind' => rw [← row, hfind] at hfind'; cases hfind'
    | no s₁ =>
      cases hcont with
      | goto hfind' => rw [← row, hno] at hfind'; cases hfind'
      | jump => exact ⟨_, by rw [List.append_nil]; exact .no hrun, rfl⟩
    | trap => cases hcont; exact ⟨_, by rw [List.append_nil]; exact .trap hrun, rfl⟩
    | cut => cases hcont; exact ⟨_, by rw [List.append_nil]; exact .cut hrun, rfl⟩
  · rintro ⟨a, hrun, rfl⟩
    cases hrun with
    | yes hrun hrun' =>
      exact ⟨_, _, _, ⟨_, hrun, rfl⟩, .goto hfind ((eval_second_iff h hright).mpr ⟨a, hrun', rfl⟩), rfl⟩
    | no hrun => exact ⟨_, _, [], ⟨_, hrun, rfl⟩, .jump hno, (List.append_nil _).symm⟩
    | trap hrun => exact ⟨_, _, [], ⟨_, hrun, rfl⟩, .trap, (List.append_nil _).symm⟩
    | cut hrun => exact ⟨_, _, [], ⟨_, hrun, rfl⟩, .cut, (List.append_nil _).symm⟩

/-- Two conditions in a row: the first one jumps to the second where it says no. -/
theorem Decides.or (h : Apart left right l t f) (hleft : Decides S left t l T)
    (hright : Decides S right t f U) : Decides S (.seq [left, .label l, right]) t f (T.or U) :=
  (Decides.and ⟨h.label, h.apart, h.no, h.yes⟩ hleft.not hright.not).not

end Row

/-! ## The value of a conjunction or a disjunction -/

/-- The code that both have: a temp is set, then two conditional jumps leave it or set it again. -/
def shortCode (x : String) (u w : Word) (first second : IRStmt) (label1 label2 labelE : String) :
    List IRStmt :=
  [.move (.temp x) (.const u),
    first,
    .label label1,
    second,
    .label label2,
    .move (.temp x) (.const w),
    .label labelE]

/-- The outcome of the code: the temp is set again where both say yes. -/
def doneOf (x : String) (w : Word) : Answer (Store M) → Mid.Outcome M
  | .yes s => .done (s.set x w)
  | .no s => .done s
  | .trap => .trap
  | .cut => .cut

/-- The outcome with the value of the temp. -/
def valueOf (x : String) (w : Word) : Answer (Store M) → Mid.Outcome M
  | .yes s => .value w (s.set x w)
  | .no s => .value (s.temps x) s
  | .trap => .trap
  | .cut => .cut

section Short

variable {x label1 label2 labelE : String} {u w : Word} {T U : Test (Store M) (Action M)}
  {first second : IRStmt} {block rest : List IRStmt} {a : Answer (Store M)}

/-- A label is passed. -/
theorem code_label_iff {l : String} :
    Eval S (.code block (.label l :: rest)) s tr out ↔ Eval S (.code block rest) s tr out := by
  rw [code_cons_iff]
  constructor
  · rintro ⟨tr₁, o, tr₂, hst, hcont, rfl⟩
    cases hst with
    | cut => cases hcont; exact .cut _ s
    | label => cases hcont with | done h => exact h
  · exact fun h => ⟨[], _, tr, .label l s, .done h, rfl⟩

/-- A temp is set to a constant. -/
theorem code_set_iff {v : Word} : Eval S (.code block (.move (.temp x) (.const v) :: rest)) s tr out ↔
    Eval S (.code block rest) (s.set x v) tr out := by
  rw [code_cons_iff]
  constructor
  · rintro ⟨tr₁, o, tr₂, hst, hcont, rfl⟩
    cases hst with
    | cut => cases hcont; exact .cut _ _
    | moveTemp he =>
      cases he
      cases hcont with
      | done h => exact h
    | moveTempAbort he habort =>
      cases he with
      | cut => cases hcont; exact .cut _ _
      | const => cases habort
  · exact fun h => ⟨[], _, tr, .moveTemp (.const v s), .done h, rfl⟩

/-- The statement jumps to one label or another. -/
def IsCJump (st : IRStmt) : Prop := ∃ g t f, st = .cjump g t (some f)

/-- The three labels of the code are three. -/
structure Labels (label1 label2 labelE : String) : Prop where
  ne_second : label1 ≠ label2
  first_ne : label1 ≠ labelE
  second_ne : label2 ≠ labelE

/-- Where the labels of the code lead. -/
theorem findLabel_shortCode (hl : Labels label1 label2 labelE) (h1 : IsCJump first) (h2 : IsCJump second) :
    Mid.findLabel (shortCode x u w first second label1 label2 labelE) label1 =
        some [second, .label label2, .move (.temp x) (.const w), .label labelE] ∧
      Mid.findLabel (shortCode x u w first second label1 label2 labelE) label2 =
        some [.move (.temp x) (.const w), .label labelE] ∧
      Mid.findLabel (shortCode x u w first second label1 label2 labelE) labelE = some [] := by
  obtain ⟨g, t, f, rfl⟩ := h1
  obtain ⟨g', t', f', rfl⟩ := h2
  simp [shortCode, Mid.findLabel, hl.ne_second, hl.first_ne, hl.second_ne]

/-- Behind the last label the code is done. -/
theorem code_nil_cases (h : Eval S (.code block []) s tr out) : tr = [] ∧ (out = .done s ∨ out = .cut) := by
  cases h with
  | cut => exact ⟨rfl, .inr rfl⟩
  | codeNil => exact ⟨rfl, .inl rfl⟩

/-- What the code does behind the first label. -/
theorem second_asks (hfind2 : Mid.findLabel block label2 = some [.move (.temp x) (.const w), .label labelE])
    (hfindE : Mid.findLabel block labelE = some []) (hsecond : Decides S second label2 labelE U)
    (h : Eval S (.code block (second :: rest)) s tr out) :
    ∃ a, U s tr a ∧ (out = doneOf x w a ∨ out = .cut) := by
  obtain ⟨tr₁, a, tr₂, hU, hcont, rfl⟩ := hsecond.code_cons_iff.mp h
  cases a with
  | yes s₁ =>
    cases hcont with
    | goto hfind hrest =>
      rw [hfind2] at hfind
      cases hfind
      rw [code_set_iff, code_label_iff] at hrest
      obtain ⟨rfl, hout⟩ := code_nil_cases hrest
      exact ⟨.yes s₁, by rwa [List.append_nil], hout⟩
    | jump hfind => rw [hfind2] at hfind; cases hfind
  | no s₁ =>
    cases hcont with
    | goto hfind hrest =>
      rw [hfindE] at hfind
      cases hfind
      obtain ⟨rfl, hout⟩ := code_nil_cases hrest
      exact ⟨.no s₁, by rwa [List.append_nil], hout⟩
    | jump hfind => rw [hfindE] at hfind; cases hfind
  | trap => cases hcont; exact ⟨_, by rwa [List.append_nil], .inl rfl⟩
  | cut => cases hcont; exact ⟨_, by rwa [List.append_nil], .inl rfl⟩

/-- What it does from the first statement on. -/
theorem first_asks (hfind1 : Mid.findLabel block label1 =
      some [second, .label label2, .move (.temp x) (.const w), .label labelE])
    (hfind2 : Mid.findLabel block label2 = some [.move (.temp x) (.const w), .label labelE])
    (hfindE : Mid.findLabel block labelE = some []) (hfirst : Decides S first label1 labelE T)
    (hsecond : Decides S second label2 labelE U) (h : Eval S (.code block (first :: rest)) s tr out) :
    ∃ a, (T.and U) s tr a ∧ (out = doneOf x w a ∨ out = .cut) := by
  obtain ⟨tr₁, a, tr₂, hT, hcont, rfl⟩ := hfirst.code_cons_iff.mp h
  cases a with
  | yes s₁ =>
    cases hcont with
    | goto hfind hrest =>
      rw [hfind1] at hfind
      cases hfind
      obtain ⟨a, hU, hout⟩ := second_asks hfind2 hfindE hsecond hrest
      exact ⟨a, .yes hT hU, hout⟩
    | jump hfind => rw [hfind1] at hfind; cases hfind
  | no s₁ =>
    cases hcont with
    | goto hfind hrest =>
      rw [hfindE] at hfind
      cases hfind
      obtain ⟨rfl, hout⟩ := code_nil_cases hrest
      exact ⟨.no s₁, by rw [List.append_nil]; exact .no hT, hout⟩
    | jump hfind => rw [hfindE] at hfind; cases hfind
  | trap => cases hcont; exact ⟨_, by rw [List.append_nil]; exact .trap hT, .inl rfl⟩
  | cut => cases hcont; exact ⟨_, by rw [List.append_nil]; exact .cut hT, .inl rfl⟩

/-- Each answer of the two tests is one of the code. -/
theorem first_answers (hfind1 : Mid.findLabel block label1 =
      some [second, .label label2, .move (.temp x) (.const w), .label labelE])
    (hfind2 : Mid.findLabel block label2 = some [.move (.temp x) (.const w), .label labelE])
    (hfindE : Mid.findLabel block labelE = some []) (hfirst : Decides S first label1 labelE T)
    (hsecond : Decides S second label2 labelE U) (h : (T.and U) s tr a) :
    Eval S (.code block (first :: rest)) s tr (doneOf x w a) := by
  rw [hfirst.code_cons_iff]
  cases h with
  | no hT => exact ⟨_, _, [], hT, .goto hfindE (.codeNil _ _), (List.append_nil _).symm⟩
  | trap hT => exact ⟨_, _, [], hT, .trap, (List.append_nil _).symm⟩
  | cut hT => exact ⟨_, _, [], hT, .cut, (List.append_nil _).symm⟩
  | yes hT hU =>
    refine ⟨_, _, _, hT, .goto hfind1 (hsecond.code_cons_iff.mpr ?_), rfl⟩
    cases a with
    | yes s₁ =>
      have hlast : Eval S (.code block [.move (.temp x) (.const w), .label labelE]) s₁ [] (.done (s₁.set x w)) :=
        code_set_iff.mpr (code_label_iff.mpr (.codeNil _ _))
      exact ⟨_, _, [], hU, .goto hfind2 hlast, (List.append_nil _).symm⟩
    | no s₁ => exact ⟨_, _, [], hU, .goto hfindE (.codeNil _ _), (List.append_nil _).symm⟩
    | trap => exact ⟨_, _, [], hU, .trap, (List.append_nil _).symm⟩
    | cut => exact ⟨_, _, [], hU, .cut, (List.append_nil _).symm⟩

/-- The value of the temp behind the code. -/
def shortValue (x : String) (u w : Word) (first second : IRStmt) (label1 label2 labelE : String) : IRExpr :=
  .eseq (.seq (shortCode x u w first second label1 label2 labelE)) (.temp x)

/-- The code is a sequence of its own. -/
theorem flattenAll_shortCode (h1 : IsCJump first) (h2 : IsCJump second) :
    IRStmt.flattenAll (shortCode x u w first second label1 label2 labelE) =
      shortCode x u w first second label1 label2 labelE := by
  obtain ⟨g, t, f, rfl⟩ := h1
  obtain ⟨g', t', f', rfl⟩ := h2
  rfl

/-- A run of the value asks both tests, the second if the first says yes. -/
theorem shortValue_asks (hl : Labels label1 label2 labelE) (h1 : IsCJump first) (h2 : IsCJump second)
    (hfirst : Decides S first label1 labelE T) (hsecond : Decides S second label2 labelE U) (hT : T.Cuts)
    (h : Eval S (.expr (shortValue x u w first second label1 label2 labelE)) s tr out) :
    ∃ a, (T.and U) (s.set x u) tr a ∧ (out = valueOf x w a ∨ out = .cut) := by
  obtain ⟨hfind1, hfind2, hfindE⟩ := findLabel_shortCode (x := x) (u := u) (w := w) hl h1 h2
  have hcode : ∀ {s tr o}, Eval S (.stmt (.seq (shortCode x u w first second label1 label2 labelE))) s tr o →
      ∃ a, (T.and U) (s.set x u) tr a ∧ (o = doneOf x w a ∨ o = .cut) := by
    intro s tr o h
    cases h with
    | cut => exact ⟨_, hT.and U _, .inr rfl⟩
    | seq h =>
      rw [flattenAll_shortCode h1 h2] at h
      exact first_asks hfind1 hfind2 hfindE hfirst hsecond (code_set_iff.mp h)
  cases h with
  | cut => exact ⟨_, hT.and U _, .inr rfl⟩
  | eseq hst he =>
    obtain ⟨a, hboth, hdone | hcut⟩ := hcode hst
    · cases he with
      | cut => exact ⟨a, by rwa [List.append_nil], .inr rfl⟩
      | temp =>
        refine ⟨a, by rwa [List.append_nil], .inl ?_⟩
        cases a with
        | yes s₁ => cases hdone; simp [valueOf, Store.set]
        | no s₁ => cases hdone; rfl
        | trap => cases hdone
        | cut => cases hdone
    · cases hcut
  | eseqAbort hst habort =>
    obtain ⟨a, hboth, rfl | rfl⟩ := hcode hst
    · cases a with
      | yes s₁ => cases habort
      | no s₁ => cases habort
      | trap => exact ⟨_, hboth, .inl rfl⟩
      | cut => exact ⟨_, hboth, .inl rfl⟩
    · exact ⟨a, hboth, .inr rfl⟩

/-- Each answer of the two tests is the value of a run. -/
theorem shortValue_answers (hl : Labels label1 label2 labelE) (h1 : IsCJump first) (h2 : IsCJump second)
    (hfirst : Decides S first label1 labelE T) (hsecond : Decides S second label2 labelE U)
    (h : (T.and U) (s.set x u) tr a) :
    Eval S (.expr (shortValue x u w first second label1 label2 labelE)) s tr (valueOf x w a) := by
  obtain ⟨hfind1, hfind2, hfindE⟩ := findLabel_shortCode (x := x) (u := u) (w := w) hl h1 h2
  have hstmt : Eval S (.stmt (.seq (shortCode x u w first second label1 label2 labelE))) s tr (doneOf x w a) := by
    refine .seq ?_
    rw [flattenAll_shortCode h1 h2]
    exact code_set_iff.mpr (first_answers hfind1 hfind2 hfindE hfirst hsecond h)
  cases a with
  | yes s₁ =>
    have hvalue := Eval.eseq hstmt (.temp x _)
    rw [List.append_nil] at hvalue
    simpa [shortValue, valueOf, Store.set] using hvalue
  | no s₁ =>
    have hvalue := Eval.eseq hstmt (.temp x _)
    rwa [List.append_nil] at hvalue
  | trap => exact .eseqAbort hstmt .trap
  | cut => exact .eseqAbort hstmt .cut

/-- No run of the test changes the temp. -/
def KeepsTemp (x : String) (T : Test (Store M) (Action M)) : Prop :=
  ∀ s tr s₁, T s tr (.yes s₁) ∨ T s tr (.no s₁) → s₁.temps x = s.temps x

/-- Where the answer is no, the temp is as it was set first. -/
theorem KeepsTemp.and_no {s₁ : Store M} (hT : KeepsTemp x T) (hU : KeepsTemp x U)
    (h : (T.and U) (s.set x u) tr (.no s₁)) : s₁.temps x = u := by
  have hset : (s.set x u).temps x = u := by simp [Store.set]
  cases h with
  | no h => exact (hT _ _ _ (.inr h)).trans hset
  | yes h h' => exact (hU _ _ _ (.inr h')).trans ((hT _ _ _ (.inl h)).trans hset)

/-- The negated test keeps the same temps. -/
theorem KeepsTemp.not (h : KeepsTemp x T) : KeepsTemp x T.not := fun s tr s₁ hor => h s tr s₁ hor.symm

/-- The value is `w` where both say yes, and `u` elsewhere. -/
theorem shortValue_value (hl : Labels label1 label2 labelE) (h1 : IsCJump first) (h2 : IsCJump second)
    (hfirst : Decides S first label1 labelE T) (hsecond : Decides S second label2 labelE U) (hcuts : T.Cuts)
    (hT : KeepsTemp x T) (hU : KeepsTemp x U) {v : Word} {s₁ : Store M}
    (h : Eval S (.expr (shortValue x u w first second label1 label2 labelE)) s tr (.value v s₁)) :
    (∃ s₂, (T.and U) (s.set x u) tr (.yes s₂) ∧ v = w ∧ s₁ = s₂.set x w) ∨
      ((T.and U) (s.set x u) tr (.no s₁) ∧ v = u) := by
  obtain ⟨a, hboth, hout | hout⟩ := shortValue_asks hl h1 h2 hfirst hsecond hcuts h
  · cases a with
    | yes s₂ =>
      cases hout
      exact .inl ⟨s₂, hboth, rfl, rfl⟩
    | no s₂ =>
      obtain ⟨rfl, rfl⟩ := Mid.Outcome.value.inj hout
      exact .inr ⟨hboth, hT.and_no hU hboth⟩
    | trap => cases hout
    | cut => cases hout
  · cases hout

/-- A trap is one of the tests. -/
theorem shortValue_trap (hl : Labels label1 label2 labelE) (h1 : IsCJump first) (h2 : IsCJump second)
    (hfirst : Decides S first label1 labelE T) (hsecond : Decides S second label2 labelE U) (hcuts : T.Cuts)
    (h : Eval S (.expr (shortValue x u w first second label1 label2 labelE)) s tr .trap) :
    (T.and U) (s.set x u) tr .trap := by
  obtain ⟨a, hboth, hout | hout⟩ := shortValue_asks hl h1 h2 hfirst hsecond hcuts h
  · cases a <;> cases hout
    exact hboth
  · cases hout

end Short

end Jaek
