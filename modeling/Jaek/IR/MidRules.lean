import Jaek.IR.Mid

/-!
# Rules for mid-level code

What a run of a sequence is made of, read in both directions. `Continues` says how a run goes on behind
a statement; `code_append_iff` treats a piece of a sequence like one statement, so that nested sequences can
be run one by one although they are spliced together.

`Performs` forgets the reads of a run. Under it, statements whose expressions only compute have one
effect, and the rules for them are equivalences that run the code step by step.
-/

namespace Jaek

namespace Mid

variable {M : Type*} {S : Storage M} {block rest A B : List IRStmt} {st : IRStmt} {e : IRExpr}
  {s s₁ s' : Store M} {tr₁ tr₂ tr : List (Action M)} {out o : Outcome M}

/-! ## Sequences -/

/-- How a run goes on behind a statement that `rest` follows. -/
inductive Continues (S : Storage M) (block rest : List IRStmt) :
    Outcome M → List (Action M) → Outcome M → Prop
  | done {s : Store M} {tr : List (Action M)} {out : Outcome M} :
      Eval S (.code block rest) s tr out → Continues S block rest (.done s) tr out
  | goto {l : String} {rest' : List IRStmt} {s : Store M} {tr : List (Action M)}
      {out : Outcome M} :
      findLabel block l = some rest' → Eval S (.code block rest') s tr out →
      Continues S block rest (.jump l s) tr out
  | jump {l : String} {s : Store M} :
      findLabel block l = none → Continues S block rest (.jump l s) [] (.jump l s)
  | ret (vs : List Word) (s : Store M) : Continues S block rest (.ret vs s) [] (.ret vs s)
  | trap : Continues S block rest .trap [] .trap
  | cut : Continues S block rest .cut [] .cut

theorem Continues.code_cons (h : Eval S (.stmt st) s tr₁ o) (hcont : Continues S block rest o tr₂ out) :
    Eval S (.code block (st :: rest)) s (tr₁ ++ tr₂) out := by
  cases hcont with
  | done hrest => exact .codeCons h hrest
  | goto hfind hrest => exact .codeGoto h hfind hrest
  | jump hfind => rw [List.append_nil]; exact .codeJump h hfind
  | ret => rw [List.append_nil]; exact .codeRet h
  | trap => rw [List.append_nil]; exact .codeTrap h
  | cut => rw [List.append_nil]; exact .codeCut h

/-- Behind a statement that is left early, what follows it does not matter. -/
theorem Continues.of_aborts (h : Continues S block rest o tr out) (ho : o.Aborts)
    (rest' : List IRStmt) : Continues S block rest' o tr out := by
  cases h with
  | done => cases ho
  | goto hfind hrest => exact .goto hfind hrest
  | jump hfind => exact .jump hfind
  | ret => exact .ret _ _
  | trap => exact .trap
  | cut => exact .cut

/-- A run of a sequence is a run of its first statement and what follows. -/
theorem code_cons_iff : Eval S (.code block (st :: rest)) s tr out ↔
    ∃ tr₁ o tr₂, Eval S (.stmt st) s tr₁ o ∧ Continues S block rest o tr₂ out ∧
      tr = tr₁ ++ tr₂ := by
  constructor
  · intro h
    cases h with
    | cut => exact ⟨[], .cut, [], .cut _ _, .cut, rfl⟩
    | codeCons hst hrest => exact ⟨_, _, _, hst, .done hrest, rfl⟩
    | codeGoto hst hfind hrest => exact ⟨_, _, _, hst, .goto hfind hrest, rfl⟩
    | codeJump hst hfind => exact ⟨_, _, _, hst, .jump hfind, (List.append_nil _).symm⟩
    | codeRet hst => exact ⟨_, _, _, hst, .ret _ _, (List.append_nil _).symm⟩
    | codeTrap hst => exact ⟨_, _, _, hst, .trap, (List.append_nil _).symm⟩
    | codeCut hst => exact ⟨_, _, _, hst, .cut, (List.append_nil _).symm⟩
  · rintro ⟨tr₁, o, tr₂, hst, hcont, rfl⟩
    exact hcont.code_cons hst

theorem code_nil_iff (hout : out ≠ .cut) :
    Eval S (.code block []) s tr out ↔ tr = [] ∧ out = .done s := by
  constructor
  · intro h
    cases h with
    | cut => exact (hout rfl).elim
    | codeNil => exact ⟨rfl, rfl⟩
  · rintro ⟨rfl, rfl⟩
    exact .codeNil block s

/-- A label is found exactly where it stands. -/
theorem findLabel_eq_none_iff {l : String} : findLabel block l = none ↔ .label l ∉ block := by
  induction block with
  | nil => exact ⟨fun _ => List.not_mem_nil, fun _ => rfl⟩
  | cons st block ih =>
    cases st with
    | label l' =>
      rw [findLabel, List.mem_cons, IRStmt.label.injEq]
      split_ifs with hl
      · exact ⟨False.elim, fun h => (h (.inl hl.symm)).elim⟩
      · rw [ih]
        exact not_congr ⟨.inr, fun h => h.resolve_left fun heq => hl heq.symm⟩
    | _ =>
      rw [findLabel, ih, List.mem_cons]
      · exact not_congr ⟨.inr, fun h => h.resolve_left fun heq => IRStmt.noConfusion heq⟩
      · rintro l' ⟨⟩

/-- The statements after a label of the first part, with the second part behind. -/
theorem findLabel_append (l : String) : findLabel (A ++ B) l =
    match findLabel A l with
    | some rest => some (rest ++ B)
    | none => findLabel B l := by
  induction A with
  | nil => rfl
  | cons st A ih =>
    cases st with
    | label l' =>
      rw [List.cons_append, findLabel, findLabel]
      split_ifs
      · rfl
      · exact ih
    | _ => exact ih

section Append

variable {pre post : List IRStmt}

/-- A label of a piece is found in the whole, if it does not stand further in front. -/
theorem findLabel_middle (hpre : ∀ l, findLabel A l ≠ none → findLabel pre l = none) {l : String}
    {rest : List IRStmt} (h : findLabel A l = some rest) :
    findLabel (pre ++ (A ++ post)) l = some (rest ++ post) := by
  have hnone : findLabel pre l = none := hpre l (by rw [h]; exact Option.some_ne_none rest)
  simp only [findLabel_append, hnone, h]

/-- A run of a piece is continued by what stands behind it. -/
theorem code_append_of_middle (hpre : ∀ l, findLabel A l ≠ none → findLabel pre l = none)
    (h : Eval S (.code A rest) s tr₁ o)
    (hcont : Continues S (pre ++ (A ++ post)) post o tr₂ out) :
    Eval S (.code (pre ++ (A ++ post)) (rest ++ post)) s (tr₁ ++ tr₂) out := by
  generalize htask : Task.code A rest = task at h
  induction h generalizing rest with
  | cut => cases hcont; exact .cut _ _
  | codeNil =>
    cases htask
    cases hcont with
    | done hpost => exact hpost
  | codeCons hst _ _ ih =>
    cases htask
    rw [List.append_assoc]
    exact .codeCons hst (ih hcont rfl)
  | codeGoto hst hfind _ _ ih =>
    cases htask
    rw [List.append_assoc]
    exact .codeGoto hst (findLabel_middle hpre hfind) (ih hcont rfl)
  | codeJump hst =>
    cases htask
    exact (hcont.of_aborts (.jump _ _) _).code_cons hst
  | codeRet hst =>
    cases htask
    exact (hcont.of_aborts (.ret _ _) _).code_cons hst
  | codeTrap hst =>
    cases htask
    exact (hcont.of_aborts .trap _).code_cons hst
  | codeCut hst =>
    cases htask
    exact (hcont.of_aborts .cut _).code_cons hst
  | _ => cases htask

/-- A piece of a sequence runs like a statement, if no label of it stands further in front. -/
theorem code_append_iff (hpre : ∀ l, findLabel A l ≠ none → findLabel pre l = none) :
    Eval S (.code (pre ++ (A ++ post)) (rest ++ post)) s tr out ↔
      ∃ tr₁ o tr₂, Eval S (.code A rest) s tr₁ o ∧
        Continues S (pre ++ (A ++ post)) post o tr₂ out ∧ tr = tr₁ ++ tr₂ := by
  constructor
  · intro h
    have hnil : ∀ {s : Store M} {tr : List (Action M)} {out : Outcome M},
        Eval S (.code (pre ++ (A ++ post)) ([] ++ post)) s tr out →
        ∃ tr₁ o tr₂, Eval S (.code A []) s tr₁ o ∧
          Continues S (pre ++ (A ++ post)) post o tr₂ out ∧ tr = tr₁ ++ tr₂ :=
      fun h => ⟨[], _, _, .codeNil A _, .done h, rfl⟩
    generalize htask : Task.code (pre ++ (A ++ post)) (rest ++ post) = task at h
    induction h generalizing rest with
    | cut => exact ⟨[], .cut, [], .cut _ _, .cut, rfl⟩
    | codeNil block s =>
      cases rest with
      | nil =>
        cases htask
        exact hnil (.codeNil _ s)
      | cons st rest => cases htask
    | codeCons hst hrest _ ih =>
      cases rest with
      | nil =>
        cases htask
        exact hnil (.codeCons hst hrest)
      | cons st rest =>
        cases htask
        obtain ⟨tr₁, o, tr₂, hA, hcont, rfl⟩ := ih rfl
        exact ⟨_, o, tr₂, .codeCons hst hA, hcont, (List.append_assoc _ _ _).symm⟩
    | @codeGoto _ _ _ _ l _ _ _ _ _ hst hfind hrest _ ih =>
      cases rest with
      | nil =>
        cases htask
        exact hnil (.codeGoto hst hfind hrest)
      | cons st rest =>
        cases htask
        cases hA : findLabel A l with
        | some r =>
          rw [findLabel_middle hpre hA] at hfind
          cases hfind
          obtain ⟨tr₁, o, tr₂, hrun, hcont, rfl⟩ := ih rfl
          exact ⟨_, o, tr₂, .codeGoto hst hA hrun, hcont, (List.append_assoc _ _ _).symm⟩
        | none => exact ⟨_, _, _, .codeJump hst hA, .goto hfind hrest, rfl⟩
    | @codeJump _ _ _ l _ _ _ hst hfind =>
      cases rest with
      | nil =>
        cases htask
        exact hnil (.codeJump hst hfind)
      | cons st rest =>
        cases htask
        have hA : findLabel A l = none := by
          cases hA : findLabel A l with
          | some r =>
            rw [findLabel_middle hpre hA] at hfind
            cases hfind
          | none => rfl
        exact ⟨_, _, _, .codeJump hst hA, .jump hfind, (List.append_nil _).symm⟩
    | codeRet hst =>
      cases rest with
      | nil =>
        cases htask
        exact hnil (.codeRet hst)
      | cons st rest =>
        cases htask
        exact ⟨_, _, _, .codeRet hst, .ret _ _, (List.append_nil _).symm⟩
    | codeTrap hst =>
      cases rest with
      | nil =>
        cases htask
        exact hnil (.codeTrap hst)
      | cons st rest =>
        cases htask
        exact ⟨_, _, _, .codeTrap hst, .trap, (List.append_nil _).symm⟩
    | codeCut hst =>
      cases rest with
      | nil =>
        cases htask
        exact hnil (.codeCut hst)
      | cons st rest =>
        cases htask
        exact ⟨_, _, _, .codeCut hst, .cut, (List.append_nil _).symm⟩
    | _ => cases htask
  · rintro ⟨tr₁, o, tr₂, hA, hcont, rfl⟩
    exact code_append_of_middle hpre hA hcont

end Append

/-! ## Outcomes -/

/-- An expression ends in a value or early. -/
theorem eval_expr_ends (h : Eval S (.expr e) s tr out) :
    (∃ v s₁, out = .value v s₁) ∨ out.Aborts := by
  generalize htask : Task.expr e = task at h
  induction h generalizing e with
  | cut => exact .inr .cut
  | opTrap => exact .inr .trap
  | memFault => exact .inr .trap
  | opLeft _ habort => exact .inr habort
  | opRight _ _ habort => exact .inr habort
  | memAbort _ habort => exact .inr habort
  | callTarget _ habort => exact .inr habort
  | callArgs _ _ habort => exact .inr habort
  | eseqAbort _ habort => exact .inr habort
  | eseq _ _ _ ih =>
    cases htask
    exact ih rfl
  | _ =>
    cases htask
    try exact .inl ⟨_, _, rfl⟩

/-- A conditional jump decides by the value of its guard. -/
theorem cjump_iff {g : IRExpr} {t f : String} : Eval S (.stmt (.cjump g t (some f))) s tr out ↔
    (∃ v s₁, Eval S (.expr g) s tr (.value v s₁) ∧ out = .jump (if v ≠ 0 then t else f) s₁) ∨
      (Eval S (.expr g) s tr out ∧ out.Aborts) := by
  constructor
  · intro h
    cases h with
    | cut => exact .inr ⟨.cut _ _, .cut⟩
    | cjumpTrue hg hv => exact .inl ⟨_, _, hg, by rw [if_pos hv]⟩
    | cjumpFalse hg => exact .inl ⟨_, _, hg, by rw [if_neg (not_not.mpr rfl)]⟩
    | cjumpAbort hg habort => exact .inr ⟨hg, habort⟩
  · rintro (⟨v, s₁, hg, rfl⟩ | ⟨hg, habort⟩)
    · split_ifs with hv
      · exact .cjumpTrue hg hv
      · rw [not_not] at hv
        exact .cjumpFalse (hv ▸ hg)
    · exact .cjumpAbort hg habort

/-! ## Code that only computes -/

/-- The value of an expression without calls and statements; `none` where it traps. -/
def pureValue (S : Storage M) (s : Store M) : IRExpr → Option Word
  | .const value => some value
  | .temp x => some (s.temps x)
  | .name l => some (S.addr l)
  | .op o l r => (pureValue S s l).bind fun a => (pureValue S s r).bind fun b => o.eval a b
  | .mem address => (pureValue S s address).bind (S.read s.mem)
  | .call _ _ => none
  | .eseq _ _ => none

/-- A run of the task with these writes and calls. -/
def Performs (S : Storage M) (task : Task) (s : Store M) (evs : List (Event M))
    (out : Outcome M) : Prop :=
  ∃ tr, Eval S task s tr out ∧ events tr = evs

section Pure

variable {v : Word} {evs : List (Event M)}

theorem performs_pure {e : IRExpr} {v : Word} (h : pureValue S s e = some v) :
    Performs S (.expr e) s [] (.value v s) :=
  match e, h with
  | .const value, h => by
    cases h
    exact ⟨[], .const _ _, rfl⟩
  | .temp x, h => by
    cases h
    exact ⟨[], .temp _ _, rfl⟩
  | .name l, h => by
    cases h
    exact ⟨[], .name _ _, rfl⟩
  | .op o l r, h => by
    obtain ⟨a, hl, h⟩ := Option.bind_eq_some_iff.mp h
    obtain ⟨b, hr, ho⟩ := Option.bind_eq_some_iff.mp h
    obtain ⟨tr₁, hevl, htr₁⟩ := performs_pure hl
    obtain ⟨tr₂, hevr, htr₂⟩ := performs_pure hr
    exact ⟨_, .op hevl hevr ho, by rw [events_append, htr₁, htr₂]; rfl⟩
  | .mem address, h => by
    obtain ⟨p, hp, hread⟩ := Option.bind_eq_some_iff.mp h
    obtain ⟨tr, hev, htr⟩ := performs_pure hp
    exact ⟨_, .mem hev hread, by rw [events_append, htr]; rfl⟩

/-- A run of an expression that only computes ends in its value. -/
theorem eval_pure (h : pureValue S s e = some v) (he : Eval S (.expr e) s tr out)
    (hout : out ≠ .cut) : out = .value v s ∧ events tr = [] := by
  generalize htask : Task.expr e = task at he
  -- The evaluation is the induction: a pure expression has no case for a call, and every rule that aborts
  -- contradicts the value it has.
  induction he generalizing e v with
  | cut => exact (hout rfl).elim
  | const => cases htask; cases h; exact ⟨rfl, rfl⟩
  | temp => cases htask; cases h; exact ⟨rfl, rfl⟩
  | name => cases htask; cases h; exact ⟨rfl, rfl⟩
  | op _ _ ho ihl ihr =>
    cases htask
    obtain ⟨a, hl, h⟩ := Option.bind_eq_some_iff.mp h
    obtain ⟨b, hr, h⟩ := Option.bind_eq_some_iff.mp h
    obtain ⟨hvl, htr₁⟩ := ihl hl (by simp) rfl
    cases hvl
    obtain ⟨hvr, htr₂⟩ := ihr hr (by simp) rfl
    cases hvr
    rw [ho] at h
    cases h
    exact ⟨rfl, by rw [events_append, htr₁, htr₂]; rfl⟩
  | opTrap _ _ ho ihl ihr =>
    cases htask
    obtain ⟨a, hl, h⟩ := Option.bind_eq_some_iff.mp h
    obtain ⟨b, hr, h⟩ := Option.bind_eq_some_iff.mp h
    obtain ⟨hvl, -⟩ := ihl hl (by simp) rfl
    cases hvl
    obtain ⟨hvr, -⟩ := ihr hr (by simp) rfl
    cases hvr
    rw [ho] at h
    cases h
  | opLeft _ habort ih =>
    cases htask
    obtain ⟨a, hl, h⟩ := Option.bind_eq_some_iff.mp h
    obtain ⟨rfl, -⟩ := ih hl hout rfl
    cases habort
  | opRight _ _ habort ihl ihr =>
    cases htask
    obtain ⟨a, hl, h⟩ := Option.bind_eq_some_iff.mp h
    obtain ⟨b, hr, h⟩ := Option.bind_eq_some_iff.mp h
    obtain ⟨hvl, -⟩ := ihl hl (by simp) rfl
    cases hvl
    obtain ⟨rfl, -⟩ := ihr hr hout rfl
    cases habort
  | mem _ hread ih =>
    cases htask
    obtain ⟨p, hp, h⟩ := Option.bind_eq_some_iff.mp h
    obtain ⟨hv, htr⟩ := ih hp (by simp) rfl
    cases hv
    rw [hread] at h
    cases h
    exact ⟨rfl, by rw [events_append, htr]; rfl⟩
  | memFault _ hread ih =>
    cases htask
    obtain ⟨p, hp, h⟩ := Option.bind_eq_some_iff.mp h
    obtain ⟨hv, -⟩ := ih hp (by simp) rfl
    cases hv
    rw [hread] at h
    cases h
  | memAbort _ habort ih =>
    cases htask
    obtain ⟨p, hp, h⟩ := Option.bind_eq_some_iff.mp h
    obtain ⟨rfl, -⟩ := ih hp hout rfl
    cases habort
  | _ => cases htask <;> cases h

theorem performs_pure_iff (h : pureValue S s e = some v) (hout : out ≠ .cut) :
    Performs S (.expr e) s evs out ↔ evs = [] ∧ out = .value v s := by
  constructor
  · rintro ⟨tr, he, rfl⟩
    obtain ⟨rfl, htr⟩ := eval_pure h he hout
    exact ⟨htr, rfl⟩
  · rintro ⟨rfl, rfl⟩
    exact performs_pure h

/-- One step of a run that ends. -/
theorem performs_code_cons (hout : out ≠ .cut) : Performs S (.code block (st :: rest)) s evs out ↔
    ∃ tr₁ o tr₂, Eval S (.stmt st) s tr₁ o ∧ o ≠ .cut ∧ Continues S block rest o tr₂ out ∧
      evs = events tr₁ ++ events tr₂ := by
  constructor
  · rintro ⟨tr, h, rfl⟩
    obtain ⟨tr₁, o, tr₂, hst, hcont, rfl⟩ := code_cons_iff.mp h
    refine ⟨tr₁, o, tr₂, hst, ?_, hcont, events_append _ _⟩
    rintro rfl
    cases hcont
    exact hout rfl
  · rintro ⟨tr₁, o, tr₂, hst, -, hcont, rfl⟩
    exact ⟨_, hcont.code_cons hst, events_append _ _⟩

theorem continues_done_iff : (∃ tr, Continues S block rest (.done s) tr out ∧ events tr = evs) ↔
    Performs S (.code block rest) s evs out := by
  constructor
  · rintro ⟨tr, ⟨h⟩, htr⟩
    exact ⟨tr, h, htr⟩
  · rintro ⟨tr, h, htr⟩
    exact ⟨tr, .done h, htr⟩

/-- A statement with one effect that goes on behind itself. -/
theorem performs_code_done {evs₁ : List (Event M)} (hout : out ≠ .cut)
    (hrun : Performs S (.stmt st) s evs₁ (.done s₁))
    (honly : ∀ tr o, Eval S (.stmt st) s tr o → o ≠ .cut → o = .done s₁ ∧ events tr = evs₁) :
    Performs S (.code block (st :: rest)) s evs out ↔
      ∃ evs₂, Performs S (.code block rest) s₁ evs₂ out ∧ evs = evs₁ ++ evs₂ := by
  rw [performs_code_cons hout]
  constructor
  · rintro ⟨tr₁, o, tr₂, hst, ho, hcont, rfl⟩
    obtain ⟨rfl, htr⟩ := honly tr₁ o hst ho
    exact ⟨_, continues_done_iff.mp ⟨tr₂, hcont, rfl⟩, by rw [htr]⟩
  · rintro ⟨evs₂, hrest, rfl⟩
    obtain ⟨tr₁, hst, rfl⟩ := hrun
    obtain ⟨tr₂, hcont, rfl⟩ := continues_done_iff.mpr hrest
    exact ⟨tr₁, _, tr₂, hst, by simp, hcont, rfl⟩

theorem performs_move_mem {a : IRExpr} {p : Word} {m : M} (hout : out ≠ .cut)
    (hp : pureValue S s a = some p) (hv : pureValue S s e = some v)
    (hw : S.write s.mem p v = some m) :
    Performs S (.code block (.move (.mem a) e :: rest)) s evs out ↔
      ∃ evs₂, Performs S (.code block rest) { s with mem := m } evs₂ out ∧
        evs = .store p v :: evs₂ := by
  obtain ⟨tr₁, ha, htr₁⟩ := performs_pure hp
  obtain ⟨tr₂, he, htr₂⟩ := performs_pure hv
  have hrun : Performs S (.stmt (.move (.mem a) e)) s [.store p v] (.done { s with mem := m }) := by
    refine ⟨_, .moveMem ha he hw, ?_⟩
    rw [events_append, events_append, htr₁, htr₂]
    rfl
  refine performs_code_done hout hrun ?_
  · intro tr' o h ho
    cases h with
    | cut => exact (ho rfl).elim
    | moveMem ha' he' hw' =>
      obtain ⟨heq, htra⟩ := eval_pure hp ha' (by simp)
      cases heq
      obtain ⟨heq, htre⟩ := eval_pure hv he' (by simp)
      cases heq
      rw [hw] at hw'
      cases hw'
      exact ⟨rfl, by rw [events_append, events_append, htra, htre]; rfl⟩
    | moveMemFault ha' he' hw' =>
      obtain ⟨heq, -⟩ := eval_pure hp ha' (by simp)
      cases heq
      obtain ⟨heq, -⟩ := eval_pure hv he' (by simp)
      cases heq
      rw [hw] at hw'
      cases hw'
    | moveMemAddress ha' habort =>
      obtain ⟨rfl, -⟩ := eval_pure hp ha' ho
      cases habort
    | moveMemSource ha' he' habort =>
      obtain ⟨heq, -⟩ := eval_pure hp ha' (by simp)
      cases heq
      obtain ⟨rfl, -⟩ := eval_pure hv he' ho
      cases habort

/-- A call with one argument whose result goes into a temp. -/
theorem performs_move_call {x f : String} (hout : out ≠ .cut) (hv : pureValue S s e = some v) :
    Performs S (.code block (.move (.temp x) (.call (.name f) [e]) :: rest)) s evs out ↔
      ∃ w m evs₂, Performs S (.code block rest)
        ((Store.mk (setReturns 1 [w] s.temps) m).set x w) evs₂ out ∧
        evs = .call f [v] [w] m :: evs₂ := by
  obtain ⟨tr, he, htr⟩ := performs_pure hv
  rw [performs_code_cons hout]
  constructor
  · rintro ⟨tr₁, o, tr₂, hst, ho, hcont, rfl⟩
    -- the one argument is pure, so the call is the first event
    have hargs : ∀ {tr : List (Action M)} {o : Outcome M}, Eval S (.exprs [e]) s tr o → o ≠ .cut →
        o = .values [v] s ∧ events tr = [] := by
      intro tr o h ho
      cases h with
      | cut => exact (ho rfl).elim
      | cons he' hnil =>
        obtain ⟨heq, htr'⟩ := eval_pure hv he' (by simp)
        cases heq
        cases hnil
        exact ⟨rfl, by rw [events_append, htr']; rfl⟩
      | consHead he' habort =>
        obtain ⟨rfl, -⟩ := eval_pure hv he' ho
        cases habort
      | consTail _ hnil habort =>
        cases hnil with
        | cut => exact (ho rfl).elim
        | nil => cases habort
    cases hst with
    | cut => exact (ho rfl).elim
    | moveTemp hcall =>
      cases hcall with
      | call htarget hexprs =>
        cases htarget
        obtain ⟨heq, htr'⟩ := hargs hexprs (by simp)
        cases heq
        refine ⟨_, _, events tr₂, continues_done_iff.mp ⟨tr₂, hcont, rfl⟩, ?_⟩
        rw [events_append, events_append, htr']
        rfl
      | callTarget _ habort => cases habort
      | callArgs _ _ habort => cases habort
    | moveTempAbort hcall habort =>
      cases hcall with
      | cut => exact (ho rfl).elim
      | call => cases habort
      | callTarget htarget habort =>
        cases htarget with
        | cut => exact (ho rfl).elim
        | targetName => cases habort
      | callArgs htarget hexprs habort =>
        cases htarget
        obtain ⟨rfl, -⟩ := hargs hexprs ho
        cases habort
  · rintro ⟨w, m, evs₂, hrest, rfl⟩
    obtain ⟨tr₂, hcont, rfl⟩ := continues_done_iff.mpr hrest
    refine ⟨_, _, tr₂, .moveTemp (.call (.targetName f s) (.cons he (.nil s))), by simp, hcont, ?_⟩
    rw [events_append, events_append, events_append, htr]
    rfl

/-- A sequence has run to its end. -/
theorem performs_nil (hout : out ≠ .cut) :
    Performs S (.code block []) s evs out ↔ evs = [] ∧ out = .done s := by
  constructor
  · rintro ⟨tr, h, rfl⟩
    obtain ⟨rfl, rfl⟩ := (code_nil_iff hout).mp h
    exact ⟨rfl, rfl⟩
  · rintro ⟨rfl, rfl⟩
    exact ⟨[], .codeNil block s, rfl⟩

/-- A sequence in front of an expression that only computes, up to the value. -/
theorem performs_eseq {v : Word} {evs : List (Event M)} :
    Performs S (.expr (.eseq (.seq block) e)) s evs (.value v s') ↔
      ∃ s₁ evs₁ evs₂, Performs S (.code (IRStmt.flattenAll block) (IRStmt.flattenAll block)) s evs₁
        (.done s₁) ∧ Performs S (.expr e) s₁ evs₂ (.value v s') ∧ evs = evs₁ ++ evs₂ := by
  constructor
  · rintro ⟨tr, h, rfl⟩
    cases h with
    | eseq hst he =>
      cases hst with
      | seq hcode => exact ⟨_, _, _, ⟨_, hcode, rfl⟩, ⟨_, he, rfl⟩, events_append _ _⟩
    | eseqAbort _ habort => cases habort
  · rintro ⟨s₁, evs₁, evs₂, ⟨tr₁, hcode, rfl⟩, ⟨tr₂, he, rfl⟩, rfl⟩
    exact ⟨_, .eseq (.seq hcode) he, events_append _ _⟩

end Pure

end Mid

end Jaek
