import Jaek.IR.IRTranslator
import Jaek.IR.Mangling
import Jaek.IR.Renaming

/-!
# Translations from different counters

The names of fresh temps and labels are all that the counters decide. `Twins` relates what two
translations give that have handed out the same number of names: the renaming `shift` pairs the fresh
names of a range. `translateExpr_twins` is the result for expressions. From it `translateExpr_same`: two
translations of an expression run alike from stores that differ in fresh temps only; and a run changes
no fresh temp but its own (`translateExpr_frame`).
-/

namespace Jaek

namespace AST

variable {A : Type}

mutual

/-- Every identifier of the expression is one of the lexer. -/
def Expr.Lexed : Expr A → Prop
  | .functionCall _ _ args => Expr.LexedAll args
  | .lengthFn _ arg => arg.Lexed
  | .arrayAccess _ arr idx => arr.Lexed ∧ idx.Lexed
  | .identifier _ name => Lexer.identifier name
  | .field _ record _ => record.Lexed
  | .binaryOp _ _ left right => left.Lexed ∧ right.Lexed
  | .unaryOp _ _ arg => arg.Lexed
  | .arrayLit _ list => Expr.LexedAll list
  | _ => True

/-- Every identifier of the expressions is one of the lexer. -/
def Expr.LexedAll : List (Expr A) → Prop
  | [] => True
  | e :: es => e.Lexed ∧ Expr.LexedAll es

end

end AST

namespace IRTranslator

open AST (Expr Operation)

/-! ## Names -/

/-- The number can be read off a fresh temp. -/
theorem tempName_inj {j k : ℕ} (h : tempName j = tempName k) : j = k := by
  have hlist := congrArg String.toList h
  simp only [tempName, String.toList_append, List.append_cancel_left_eq] at hlist
  exact Nat.repr_injective (String.toList_injective hlist)

/-- It can be read off a fresh label too. -/
theorem labelName_inj {j k : ℕ} (h : labelName j = labelName k) : j = k := by
  have hlist := congrArg String.toList h
  simp only [labelName, String.toList_append, List.append_cancel_left_eq] at hlist
  exact Nat.repr_injective (String.toList_injective hlist)

/-- The temp is no fresh temp. -/
def Source (x : String) : Prop := ∀ k, x ≠ tempName k

/-- A result temp is no fresh temp. -/
theorem source_retTemp (i : ℕ) : Source (retTemp i) := by
  intro k h
  have hlist := congrArg (fun s : String => s.toList.head?) h
  simp [retTemp, tempName] at hlist

/-- Nor is an identifier, as none starts with a dollar sign. -/
theorem source_of_identifier {x : String} (h : Lexer.identifier x) : Source x := by
  rintro k rfl
  obtain ⟨c, cs, hlist, hletter⟩ := Lexer.identifier_head h
  have hc : c = '$' := by
    have hhead := congrArg List.head? hlist
    simpa [tempName] using hhead.symm
  subst hc
  exact absurd hletter (by decide)

/-- The pairs of equal temps of the source. -/
def sources : Pairs := {p | Source p.1 ∧ p.1 = p.2}

/-- How many fresh labels and temps there are. -/
structure Counters where
  labels : ℕ
  temps : ℕ

/-- The counters of a state. -/
def State.counters (s : State) : Counters := ⟨s.freshLabelCount, s.freshTempCount⟩

/-- So many names more. -/
instance : Add Counters := ⟨fun c o => ⟨c.labels + o.labels, c.temps + o.temps⟩⟩

/-- Neither counter is behind. -/
abbrev Counters.Le (o o' : Counters) : Prop := o.labels ≤ o'.labels ∧ o.temps ≤ o'.temps

@[simp] theorem labels_add (c o : Counters) : (c + o).labels = c.labels + o.labels := rfl

@[simp] theorem temps_add (c o : Counters) : (c + o).temps = c.temps + o.temps := rfl

/-- The fresh names behind `c` and behind `d` are paired from `lo` up to `top`, and all names of the
source with themselves. -/
def shift (c d lo top : Counters) : Renaming where
  temps x y := (Source x ∧ x = y) ∨
    ∃ i, lo.temps < i ∧ i ≤ top.temps ∧ x = tempName (c.temps + i) ∧ y = tempName (d.temps + i)
  labels l m := ∃ i, lo.labels < i ∧ i ≤ top.labels ∧ l = labelName (c.labels + i) ∧
    m = labelName (d.labels + i)
  temps_left := by
    rintro x y y' (⟨hx, rfl⟩ | ⟨i, -, -, rfl, rfl⟩) (⟨hx', rfl⟩ | ⟨j, -, -, hj, rfl⟩)
    · rfl
    · exact (hx _ hj).elim
    · exact (hx' _ rfl).elim
    · have hij := tempName_inj hj
      rw [Nat.add_left_cancel hij]
  temps_right := by
    rintro x x' y (⟨hx, rfl⟩ | ⟨i, -, -, rfl, rfl⟩) (⟨hx', heq⟩ | ⟨j, -, -, rfl, hj⟩)
    · exact heq.symm
    · exact (hx _ hj).elim
    · exact (hx' _ heq).elim
    · have hij := tempName_inj hj
      rw [Nat.add_left_cancel hij]
  temps_ret i := .inl ⟨source_retTemp i, rfl⟩
  labels_left := by
    rintro l m m' ⟨i, -, -, rfl, rfl⟩ ⟨j, -, -, hj, rfl⟩
    rw [Nat.add_left_cancel (labelName_inj hj)]
  labels_right := by
    rintro l l' m ⟨i, -, -, rfl, rfl⟩ ⟨j, -, -, rfl, hj⟩
    rw [Nat.add_left_cancel (labelName_inj hj)]

/-! ## Twins -/

variable {α β : Type} {c d b b' o : Counters}

/-- Behind `o` names each, the first translation does what the second does. The results are related as
soon as the names behind `b` are paired that have been handed out. -/
def Twins (c d b o : Counters) (f f' : Translation α) (Rel : Renaming → α → α → Prop) : Prop :=
  ∀ st st' a st₁, st.counters = c + o → st'.counters = d + o → f.run st = some (a, st₁) →
    ∃ o' a' st₁', o.Le o' ∧ st₁.counters = c + o' ∧ f'.run st' = some (a', st₁') ∧
      st₁'.counters = d + o' ∧ ∀ lo top, lo.Le b → o'.Le top → Rel (shift c d lo top) a a'

/-- Twins behind twins. -/
theorem Twins.bind {f f' : Translation α} {g g' : α → Translation β}
    {Rel : Renaming → α → α → Prop} {Rel' : Renaming → β → β → Prop} (h : Twins c d b' o f f' Rel)
    (h' : ∀ o₁ a a', o.Le o₁ → (∀ lo top, lo.Le b' → o₁.Le top → Rel (shift c d lo top) a a') →
      Twins c d b o₁ (g a) (g' a') Rel') : Twins c d b o (f >>= g) (f' >>= g') Rel' := by
  intro st st' a₂ st₂ hc hd hrun
  rw [StateT.run_bind] at hrun
  obtain ⟨⟨a, st₁⟩, hf, hg⟩ := Option.bind_eq_some_iff.mp hrun
  obtain ⟨o₁, a', st₁', hle, hc₁, hf', hd₁, hrel⟩ := h st st' a st₁ hc hd hf
  obtain ⟨o₂, a₂', st₂', hle', hc₂, hg', hd₂, hrel'⟩ := h' o₁ a a' hle hrel st₁ st₁' a₂ st₂ hc₁ hd₁ hg
  refine ⟨o₂, a₂', st₂', by omega, hc₂, ?_, hd₂, hrel'⟩
  rw [StateT.run_bind, hf']
  exact hg'

/-- Results that are related are twins. -/
theorem Twins.pure {Rel : Renaming → α → α → Prop} {a a' : α}
    (h : ∀ lo top, lo.Le b → o.Le top → Rel (shift c d lo top) a a') :
    Twins c d b o (Pure.pure a) (Pure.pure a') Rel := by
  intro st st' a₂ st₁ hc hd hrun
  cases hrun
  exact ⟨o, a', st', by omega, hc, rfl, hd, h⟩

/-- Both fail. -/
theorem Twins.failure {Rel : Renaming → α → α → Prop} :
    Twins c d b o (Alternative.failure : Translation α) Alternative.failure Rel := by
  intro st st' a st₁ hc hd hrun
  cases hrun

/-- What does not depend on the state is the same on both sides. -/
theorem Twins.lift {v v' : Option α} (h : v = v') :
    Twins c d o o (StateT.lift v) (StateT.lift v') fun _ a a' => a = a' := by
  subst h
  intro st st' a st₁ hc hd hrun
  obtain ⟨a₁, rfl, ha⟩ := Option.bind_eq_some_iff.mp hrun
  cases ha
  exact ⟨o, a, st', by omega, hc, rfl, hd, fun _ _ _ _ => rfl⟩

/-- Recording a call uses up no names. -/
theorem Twins.recordCall (sourceFn fn : String) :
    Twins c d o o (recordCall sourceFn fn) (recordCall sourceFn fn) fun _ _ _ => True := by
  intro st st' a st₁ hc hd hrun
  cases hrun
  exact ⟨o, (), _, by omega, hc, rfl, hd, fun _ _ _ _ => trivial⟩

/-- The condition does not depend on the counters. -/
theorem Twins.ite {P : Prop} [Decidable P] {f f' g g' : Translation α}
    {Rel : Renaming → α → α → Prop} (hf : P → Twins c d b o f f' Rel)
    (hg : ¬P → Twins c d b o g g' Rel) :
    Twins c d b o (if P then f else g) (if P then f' else g') Rel := by
  split_ifs with h
  · exact hf h
  · exact hg h

/-- Two temps that are paired. -/
inductive TempPair (ρ : Renaming) : IRExpr → IRExpr → Prop
  | mk {x y : String} : ρ.temps x y → TempPair ρ (.temp x) (.temp y)

/-- What is known when a temp has been set. -/
def bound (t t' : IRExpr) : Pairs := {p | t = .temp p.1 ∧ t' = .temp p.2}

/-- The counters of a state, one by one. -/
theorem State.counters_eq {st : State} : st.counters = c ↔
    st.freshLabelCount = c.labels ∧ st.freshTempCount = c.temps := by
  cases c
  exact Counters.mk.injEq _ _ _ _ ▸ Iff.rfl

/-- The next temps on both sides are paired. -/
theorem Twins.freshTemp : Twins c d o o freshTemp freshTemp TempPair := by
  intro st st' a st₁ hc hd hrun
  cases hrun
  obtain ⟨hcl, hct⟩ := State.counters_eq.mp hc
  obtain ⟨hdl, hdt⟩ := State.counters_eq.mp hd
  refine ⟨⟨o.labels, o.temps + 1⟩, .temp (tempName (st'.freshTempCount + 1)), _,
    ⟨le_rfl, Nat.le_succ _⟩, State.counters_eq.mpr ⟨hcl, congrArg (· + 1) hct⟩, rfl,
    State.counters_eq.mpr ⟨hdl, congrArg (· + 1) hdt⟩, fun lo top hlo htop => .mk (.inr ?_)⟩
  exact ⟨o.temps + 1, Nat.lt_succ_of_le hlo.2, htop.2, congrArg (fun n => tempName (n + 1)) hct,
    congrArg (fun n => tempName (n + 1)) hdt⟩

/-- So are the next labels. -/
theorem Twins.freshLabel : Twins c d o o freshLabel freshLabel fun ρ l l' => ρ.labels l l' := by
  intro st st' a st₁ hc hd hrun
  cases hrun
  obtain ⟨hcl, hct⟩ := State.counters_eq.mp hc
  obtain ⟨hdl, hdt⟩ := State.counters_eq.mp hd
  refine ⟨⟨o.labels + 1, o.temps⟩, labelName (st'.freshLabelCount + 1), _, ⟨Nat.le_succ _, le_rfl⟩,
    State.counters_eq.mpr ⟨congrArg (· + 1) hcl, hct⟩, rfl,
    State.counters_eq.mpr ⟨congrArg (· + 1) hdl, hdt⟩, fun lo top hlo htop => ?_⟩
  exact ⟨o.labels + 1, Nat.lt_succ_of_le hlo.1, htop.1, congrArg (fun n => labelName (n + 1)) hcl,
    congrArg (fun n => labelName (n + 1)) hdl⟩

/-- A label that two ranges pair lies in both. -/
theorem labels_apart {lo top lo' top' : Counters} {l m m' : String} (h : (shift c d lo top).labels l m)
    (h' : (shift c d lo' top').labels l m') : lo'.labels < top.labels := by
  obtain ⟨i, -, hi, rfl, -⟩ := h
  obtain ⟨j, hj, -, hij, -⟩ := h'
  have heq := labelName_inj hij
  omega

/-! ## The pieces of a translation -/

section Pieces

variable {ρ : Renaming} {jumps : String → String → Prop} {held : String → Pairs} {known : Pairs}
  {e e' e₁ e₁' e₂ e₂' t t' u u' : IRExpr} {l l' m m' n n' : String}

/-- A paired temp is read where its value is known. -/
theorem TempPair.read (ht : TempPair ρ t t') (hk : bound t t' ⊆ known) : ρ.Expr known t t' := by
  cases ht
  exact .temp (hk ⟨rfl, rfl⟩)

/-- A move to a paired temp makes its value known. -/
theorem TempPair.set (ht : TempPair ρ t t') (he : ρ.Expr known e e') :
    ρ.Stmt jumps held known (.move t e) (.move t' e') (known ∪ bound t t') := by
  cases ht with
  | mk hxy =>
    refine .moveTemp hxy he ?_
    rintro p (hp | ⟨hx, hy⟩)
    · exact .inr hp
    · cases hx
      cases hy
      exact .inl rfl

/-- A temp that is known is set again. -/
theorem TempPair.reset (ht : TempPair ρ t t') (hk : bound t t' ⊆ known) (he : ρ.Expr known e e') :
    ρ.Stmt jumps held known (.move t e) (.move t' e') known := by
  have hset : ρ.Stmt jumps held known (.move t e) (.move t' e') (known ∪ bound t t') := ht.set he
  rwa [Set.union_eq_self_of_subset_right hk] at hset

/-- The length of an array that is renamed. -/
theorem lengthOf_renamed (h : ρ.Expr known e e') : ρ.Expr known (lengthOf e) (lengthOf e') :=
  .mem (.op _ h (.const _))

/-- An element of it. -/
theorem elementAt_renamed (h₁ : ρ.Expr known e₁ e₁') (h₂ : ρ.Expr known e₂ e₂') :
    ρ.Expr known (elementAt e₁ e₂) (elementAt e₁' e₂') := .mem (.op _ h₁ (.op _ h₂ (.const _)))

/-- A word behind a pointer that is renamed. -/
theorem wordAt_renamed (h : ρ.Expr known e e') (offset : Word) :
    ρ.Expr known (wordAt e offset) (wordAt e' offset) := .mem (.op _ h (.const _))

/-- The allocation of a record. -/
theorem recordInit_renamed (h : TempPair ρ t t') (dimension : ℕ) :
    ρ.Stmt jumps held known (recordInit t dimension) (recordInit t' dimension) (known ∪ bound t t') :=
  h.set (.call (.name _) (.cons (.op _ (.const _) (.const _)) .nil))

/-- The allocation of an array. -/
theorem arrayInitMoves_renamed (he : ρ.Expr known e e') (ht : TempPair ρ t t') :
    ρ.Block jumps held known (arrayInitMoves e t) (arrayInitMoves e' t') (known ∪ bound t t') := by
  have hsize : ρ.Expr known (arraySize e) (arraySize e') :=
    .op _ (.op _ he (.const _)) (.const _)
  exact .cons (ht.set (.call (.name _) (.cons hsize .nil)))
    (.cons (.moveMem (ht.read Set.subset_union_right) (he.frame _) subset_rfl) .nil)

/-- An array access with its check of the bounds. -/
theorem arrayAccess_renamed (ht : TempPair ρ t t') (hu : TempPair ρ u u') (h₁ : ρ.Expr known e₁ e₁')
    (h₂ : ρ.Expr known e₂ e₂') (hl : ρ.labels l l') (hm : ρ.labels m m') :
    ρ.Expr known (arrayAccess t u e₁ e₂ l m) (arrayAccess t' u' e₁' e₂' l' m') := by
  have hreadt : ρ.Expr (known ∪ bound t t' ∪ bound u u') t t' :=
    ht.read (Set.subset_union_right.trans Set.subset_union_left)
  have hreadu : ρ.Expr (known ∪ bound t t' ∪ bound u u') u u' := hu.read Set.subset_union_right
  refine @Renaming.Expr.own ρ (fun _ => known ∪ bound t t' ∪ bound u u') known _ _ _ _ _ (.seq ?_)
    (Set.subset_union_left.trans Set.subset_union_left) (elementAt_renamed hreadt hreadu)
  refine .cons (ht.set h₁) (.cons (hu.set (h₂.frame _)) (.cons (.cjump
    (.op .ULT hreadu (lengthOf_renamed hreadt)) ⟨hl, ?_⟩ subset_rfl ⟨hm, ?_⟩ subset_rfl)
    (.cons (.label hm subset_rfl subset_rfl) (.cons (.callStmt "_eta_out_of_bounds" 0 .nil subset_rfl)
    (.cons (.label hl subset_rfl subset_rfl) .nil))))) <;> simp [IRStmt.flatten, IRStmt.flattenAll]

/-- A conjunction: what its operands know is known behind it. -/
theorem shortAnd_renamed (ht : TempPair ρ t t') (h₁ : ρ.Expr known e₁ e₁') (h₂ : ρ.Expr known e₂ e₂')
    (hl : ρ.labels l l') (hm : ρ.labels m m') (hn : ρ.labels n n') :
    ρ.Expr known (shortAnd t e₁ e₂ l m n) (shortAnd t' e₁' e₂' l' m' n') := by
  refine @Renaming.Expr.own ρ (fun _ => known ∪ bound t t') known _ _ _ _ _ (.seq ?_)
    Set.subset_union_left (ht.read Set.subset_union_right)
  refine .cons (ht.set (.const 0)) (.cons (.cjump (h₁.frame _) ⟨hl, ?_⟩ subset_rfl ⟨hn, ?_⟩ subset_rfl)
    (.cons (.label hl subset_rfl subset_rfl)
    (.cons (.cjump (h₂.frame _) ⟨hm, ?_⟩ subset_rfl ⟨hn, ?_⟩ subset_rfl)
    (.cons (.label hm subset_rfl subset_rfl) (.cons (ht.set (.const 1))
    (.cons (.label hn Set.subset_union_left subset_rfl) .nil)))))) <;>
    simp [IRStmt.flatten, IRStmt.flattenAll]

/-- A disjunction. -/
theorem shortOr_renamed (ht : TempPair ρ t t') (h₁ : ρ.Expr known e₁ e₁') (h₂ : ρ.Expr known e₂ e₂')
    (hl : ρ.labels l l') (hm : ρ.labels m m') (hn : ρ.labels n n') :
    ρ.Expr known (shortOr t e₁ e₂ l m n) (shortOr t' e₁' e₂' l' m' n') := by
  refine @Renaming.Expr.own ρ (fun _ => known ∪ bound t t') known _ _ _ _ _ (.seq ?_)
    Set.subset_union_left (ht.read Set.subset_union_right)
  refine .cons (ht.set (.const 1)) (.cons (.cjump (h₁.frame _) ⟨hn, ?_⟩ subset_rfl ⟨hl, ?_⟩ subset_rfl)
    (.cons (.label hl subset_rfl subset_rfl)
    (.cons (.cjump (h₂.frame _) ⟨hn, ?_⟩ subset_rfl ⟨hm, ?_⟩ subset_rfl)
    (.cons (.label hm subset_rfl subset_rfl) (.cons (ht.set (.const 0))
    (.cons (.label hn Set.subset_union_left subset_rfl) .nil)))))) <;>
    simp [IRStmt.flatten, IRStmt.flattenAll]

end Pieces

section Raise

variable {e e' : IRExpr}

/-- The statement in front and the value are the same but for names. -/
def Raised (ρ : Renaming) (p p' : IRStmt × IRExpr) : Prop :=
  ∃ held known, sources ⊆ known ∧ ρ.Stmt (ρ.own p.1) held sources p.1 p'.1 known ∧
    ρ.Expr known p.2 p'.2

/-- The label stands in front of the value. -/
def Leads (e : IRExpr) (l : String) : Prop := ∃ st value, e = .eseq st value ∧ .label l ∈ st.flatten

/-- The labels at the head of a renamed expression are paired. -/
theorem leads_paired {ρ : Renaming} {known : Pairs} {l : String} (h : ρ.Expr known e e')
    (hl : Leads e l) : ∃ l', ρ.labels l l' := by
  obtain ⟨st, value, rfl, hmem⟩ := hl
  cases h with
  | eseq _ hst _ _ => exact hst.paired hmem

/-- What is taken out of an expression is renamed as the expression is. -/
theorem raise_twins (h : ∀ lo top, lo.Le b → o.Le top → (shift c d lo top).Expr sources e e')
    (hb : b.Le o) : Twins c d b o (raise e) (raise e') fun ρ p p' => Raised ρ p p' ∧
      ∀ l, .label l ∈ p.1.flatten → Leads e l := by
  have htemp : ∀ {e e' : IRExpr},
      (∀ lo top, lo.Le b → o.Le top → (shift c d lo top).Expr sources e e') →
      Twins c d b o (do let evalTemp ← freshTemp; return (.move evalTemp e, evalTemp))
        (do let evalTemp ← freshTemp; return (.move evalTemp e', evalTemp)) fun ρ p p' =>
          Raised ρ p p' ∧ ∀ l, .label l ∈ p.1.flatten → Leads e l := fun h =>
    .bind .freshTemp fun o₁ t t' hle ht => .pure fun lo top hlo htop => by
      have hpair := ht lo top (by omega) htop
      refine ⟨⟨fun _ => ∅, _, Set.subset_union_left, hpair.set (h lo top hlo (by omega)),
        hpair.read Set.subset_union_right⟩, fun l hl => ?_⟩
      cases List.mem_singleton.mp hl
  cases h b o (by omega) (by omega) with
  | eseq =>
    refine .pure fun lo top hlo htop => ?_
    cases h lo top hlo htop with
    | eseq hin hst hk he =>
      exact ⟨⟨_, _, hk, hst.relabel (fun _ _ => rfl) fun l l' hl => ⟨hin l l' hl, rfl⟩, he⟩,
        fun l hl => ⟨_, _, rfl, hl⟩⟩
  | const => exact htemp h
  | temp => exact htemp h
  | name => exact htemp h
  | op => exact htemp h
  | mem => exact htemp h
  | call => exact htemp h

/-- The names of two concatenations are paired. -/
structure NamesRenamed (ρ : Renaming) (n n' : ConcatNames) : Prop where
  tempLeftLength : TempPair ρ n.tempLeftLength n'.tempLeftLength
  tempRightLength : TempPair ρ n.tempRightLength n'.tempRightLength
  newArrLength : TempPair ρ n.newArrLength n'.newArrLength
  newArrPtrTemp : TempPair ρ n.newArrPtrTemp n'.newArrPtrTemp
  counter : TempPair ρ n.counter n'.counter
  loopLabel : ρ.labels n.loopLabel n'.loopLabel
  loopBody : ρ.labels n.loopBody n'.loopBody
  complete : ρ.labels n.complete n'.complete
  leftFill : ρ.labels n.leftFill n'.leftFill
  rightFill : ρ.labels n.rightFill n'.rightFill
  increment : ρ.labels n.increment n'.increment

/-- The names of a concatenation are handed out in the same order. -/
theorem freshConcatNames_twins : Twins c d o o freshConcatNames freshConcatNames NamesRenamed :=
  .bind .freshTemp fun o₁ _ _ h₁ hn₁ => .bind .freshTemp fun o₂ _ _ h₂ hn₂ =>
  .bind .freshTemp fun o₃ _ _ h₃ hn₃ => .bind .freshTemp fun o₄ _ _ h₄ hn₄ =>
  .bind .freshLabel fun o₅ _ _ h₅ hn₅ => .bind .freshLabel fun o₆ _ _ h₆ hn₆ =>
  .bind .freshLabel fun o₇ _ _ h₇ hn₇ => .bind .freshLabel fun o₈ _ _ h₈ hn₈ =>
  .bind .freshLabel fun o₉ _ _ h₉ hn₉ => .bind .freshLabel fun o₁₀ _ _ h₁₀ hn₁₀ =>
  .bind .freshTemp fun o₁₁ _ _ h₁₁ hn₁₁ => .pure fun lo top hlo htop =>
    ⟨hn₁ lo top (by omega) (by omega), hn₂ lo top (by omega) (by omega),
      hn₃ lo top (by omega) (by omega), hn₄ lo top (by omega) (by omega),
      hn₁₁ lo top (by omega) (by omega), hn₅ lo top (by omega) (by omega),
      hn₆ lo top (by omega) (by omega), hn₇ lo top (by omega) (by omega),
      hn₈ lo top (by omega) (by omega), hn₉ lo top (by omega) (by omega),
      hn₁₀ lo top (by omega) (by omega)⟩

end Raise

section Concatenate

variable {ρ : Renaming} {jumps : String → String → Prop} {held : String → Pairs} {known : Pairs}
  {e e' l l' r r' : IRExpr} {n n' : ConcatNames}

/-- What is known in front of the loop of a concatenation, with the lengths and the new array. -/
def concatKnown (known : Pairs) (n n' : ConcatNames) : Pairs :=
  known ∪ bound n.tempLeftLength n'.tempLeftLength ∪ bound n.tempRightLength n'.tempRightLength ∪
    bound n.newArrLength n'.newArrLength ∪ bound n.newArrPtrTemp n'.newArrPtrTemp

/-- The moves in front of the loops of a concatenation. -/
theorem concatMoves_renamed (hl : ρ.Expr known l l') (hr : ρ.Expr known r r')
    (hn : NamesRenamed ρ n n') :
    ρ.Block jumps held known (concatMoves l r n) (concatMoves l' r' n') (concatKnown known n n') := by
  refine .append (.append (.cons (hn.tempLeftLength.set (lengthOf_renamed hl))
    (.cons (hn.tempRightLength.set (lengthOf_renamed (hr.frame _)))
    (.cons (hn.newArrLength.set (.op .ADD (hn.tempLeftLength.read ?_) (hn.tempRightLength.read ?_)))
    .nil))) (arrayInitMoves_renamed (hn.newArrLength.read Set.subset_union_right) hn.newArrPtrTemp)) ?_
  · exact Set.subset_union_right.trans Set.subset_union_left
  · exact Set.subset_union_right
  · have hptr : ρ.Expr (concatKnown known n n') n.newArrPtrTemp n'.newArrPtrTemp :=
      hn.newArrPtrTemp.read Set.subset_union_right
    exact .cons (hn.newArrPtrTemp.reset Set.subset_union_right (.op .ADD hptr (.const 8))) .nil

/-- The loop, with what it reads known all the time. -/
theorem concatLoop_renamed (hl : ρ.Expr known l l') (hr : ρ.Expr known r r')
    (hn : NamesRenamed ρ n n') (hj : ∀ k k', ρ.labels k k' → .label k ∈ concatLoop l r n →
      jumps k k' ∧ held k = concatKnown known n n' ∪ bound n.counter n'.counter) :
    ρ.Block jumps held (concatKnown known n n') (concatLoop l r n) (concatLoop l' r' n')
      (concatKnown known n n' ∪ bound n.counter n'.counter) := by
  generalize hK : concatKnown known n n' ∪ bound n.counter n'.counter = K at hj ⊢
  have hjump : ∀ {k k'}, ρ.labels k k' → k ∈ [n.loopLabel, n.loopBody, n.complete, n.leftFill,
      n.rightFill, n.increment] → jumps k k' ∧ held k ⊆ K ∧ K ⊆ held k := by
    intro k k' hk hmem
    have hkK : jumps k k' ∧ held k = K := by
      apply hj k k' hk
      simp only [List.mem_cons, List.not_mem_nil, or_false] at hmem
      rcases hmem with rfl | rfl | rfl | rfl | rfl | rfl <;> simp [concatLoop]
    exact ⟨hkK.1, hkK.2.subset, hkK.2.symm.subset⟩
  have hk : known ⊆ K := by
    intro p hp
    simp [← hK, concatKnown, hp]
  have hcounterK : bound n.counter n'.counter ⊆ K := hK ▸ Set.subset_union_right
  have hcounter : ρ.Expr K n.counter n'.counter := hn.counter.read hcounterK
  have hlength : ρ.Expr K n.newArrLength n'.newArrLength :=
    hn.newArrLength.read fun p hp => by simp [← hK, concatKnown, hp]
  have hptr : ρ.Expr K n.newArrPtrTemp n'.newArrPtrTemp :=
    hn.newArrPtrTemp.read fun p hp => by simp [← hK, concatKnown, hp]
  have hleft : ρ.Expr K n.tempLeftLength n'.tempLeftLength :=
    hn.tempLeftLength.read fun p hp => by simp [← hK, concatKnown, hp]
  have hdest := Renaming.Expr.op .ADD hptr (.op .MUL hcounter (.const 8))
  have hminus := Renaming.Expr.op .SUB hcounter hleft
  obtain ⟨hloop, hloopK, hloopK'⟩ := hjump hn.loopLabel (by simp)
  obtain ⟨hbody, hbodyK, hbodyK'⟩ := hjump hn.loopBody (by simp)
  obtain ⟨hcomplete, hcompleteK, hcompleteK'⟩ := hjump hn.complete (by simp)
  obtain ⟨hleftFill, hleftFillK, hleftFillK'⟩ := hjump hn.leftFill (by simp)
  obtain ⟨hrightFill, hrightFillK, hrightFillK'⟩ := hjump hn.rightFill (by simp)
  obtain ⟨hincr, hincrK, hincrK'⟩ := hjump hn.increment (by simp)
  refine .cons (hn.counter.set (.const 0)) ?_
  rw [hK]
  exact .cons (.label hn.loopLabel hloopK hloopK')
    (.cons (.cjump (.op .GEQ hcounter hlength) hcomplete hcompleteK hbody hbodyK)
    (.cons (.label hn.loopBody hbodyK hbodyK')
    (.cons (.cjump (.op .GEQ hcounter hleft) hrightFill hrightFillK hleftFill hleftFillK)
    (.cons (.label hn.leftFill hleftFillK hleftFillK')
    (.cons (.moveMem hdest (elementAt_renamed (hl.mono hk) hcounter) subset_rfl)
    (.cons (.jump hincr hincrK)
    (.cons (.label hn.rightFill hrightFillK hrightFillK')
    (.cons (.moveMem hdest (elementAt_renamed (hr.mono hk) hminus) subset_rfl)
    (.cons (.label hn.increment hincrK hincrK')
    (.cons (hn.counter.reset hcounterK (.op .ADD hcounter (.const 1)))
    (.cons (.jump hloop hloopK)
    (.cons (.label hn.complete hcompleteK hcompleteK') .nil))))))))))))

/-- A statement of two flattened lists is one of the first or the second. -/
theorem mem_flattenAll_append {st : IRStmt} {A B : List IRStmt} :
    st ∈ IRStmt.flattenAll (A ++ B) ↔ st ∈ IRStmt.flattenAll A ∨ st ∈ IRStmt.flattenAll B := by
  induction A with
  | nil => simp [IRStmt.flattenAll]
  | cons a A ih => simp [IRStmt.flattenAll, ih, or_assoc]

/-- The loops are flat already. -/
theorem flattenAll_concatLoop : IRStmt.flattenAll (concatLoop l r n) = concatLoop l r n := rfl

/-- The labels of the operands and of the loop are apart, so that each can hold its own pairs. -/
theorem concatenate_renamed {p p' q q' : IRStmt × IRExpr} (hp : Raised ρ p p') (hq : Raised ρ q q')
    (hn : NamesRenamed ρ n n')
    (hpq : ∀ k, .label k ∈ q.1.flatten → .label k ∉ p.1.flatten)
    (hloop : ∀ k, .label k ∈ concatLoop p.2 q.2 n → .label k ∉ p.1.flatten ∧ .label k ∉ q.1.flatten) :
    ρ.Expr sources
      (.eseq (.seq (p.1 :: q.1 :: concatMoves p.2 q.2 n ++ concatLoop p.2 q.2 n)) n.newArrPtrTemp)
      (.eseq (.seq (p'.1 :: q'.1 :: concatMoves p'.2 q'.2 n' ++ concatLoop p'.2 q'.2 n'))
        n'.newArrPtrTemp) := by
  classical
  obtain ⟨heldL, knownL, hkL, hstL, hvL⟩ := hp
  obtain ⟨heldR, knownR, -, hstR, hvR⟩ := hq
  have hflat : ∀ k, .label k ∈ (IRStmt.seq (p.1 :: q.1 :: concatMoves p.2 q.2 n ++
      concatLoop p.2 q.2 n)).flatten ↔ .label k ∈ p.1.flatten ∨ .label k ∈ q.1.flatten ∨
        .label k ∈ IRStmt.flattenAll (concatMoves p.2 q.2 n) ∨ .label k ∈ concatLoop p.2 q.2 n := by
    intro k
    simp [IRStmt.flatten, IRStmt.flattenAll, mem_flattenAll_append, flattenAll_concatLoop]
  -- Behind the right operand, what the left one left is still known.
  let both : Pairs := knownR ∪ knownL
  let full : Pairs := concatKnown both n n' ∪ bound n.counter n'.counter
  let held : String → Pairs := fun k =>
    if .label k ∈ p.1.flatten then heldL k
    else if .label k ∈ q.1.flatten then heldR k ∪ knownL else full
  have hsources : sources ∪ knownL = knownL := Set.union_eq_self_of_subset_left hkL
  have hright := hstR.frame knownL
  rw [hsources] at hright
  have hleft : ρ.Expr both p.2 p'.2 := hvL.mono Set.subset_union_right
  have hfull : sources ⊆ full := fun x hx => by simp [full, both, concatKnown, hkL hx]
  refine @Renaming.Expr.own ρ held sources full _ _ _ _ (.seq (.cons (hstL.relabel ?_ ?_)
    (.cons (hright.relabel ?_ ?_) (.append (concatMoves_renamed hleft (hvR.frame _) hn)
      (concatLoop_renamed hleft (hvR.frame _) hn ?_))))) hfull (hn.newArrPtrTemp.read ?_)
  · intro k hk
    simp only [held, if_pos hk]
  · rintro k k' ⟨hk, hmem⟩
    exact ⟨⟨hk, (hflat k).mpr (.inl hmem)⟩, by simp only [held, if_pos hmem]⟩
  · intro k hk
    simp only [held, if_neg (hpq k hk), if_pos hk]
  · rintro k k' ⟨hk, hmem⟩
    exact ⟨⟨hk, (hflat k).mpr (.inr (.inl hmem))⟩, by simp only [held, if_neg (hpq k hmem), if_pos hmem]⟩
  · intro k k' hk hmem
    obtain ⟨hkp, hkq⟩ := hloop k hmem
    exact ⟨⟨hk, (hflat k).mpr (.inr (.inr (.inr hmem)))⟩, by simp only [held, if_neg hkp, if_neg hkq, full, both]⟩
  · intro x hx
    simp [full, concatKnown, hx]

/-- A concatenation, whose operands use names of two ranges in a row. -/
theorem concatenate_twins {o₀ o₁ o₂ : Counters} (h₁ : o₀.Le o₁) (h₂ : o₁.Le o₂)
    (hl : ∀ lo top, lo.Le o₀ → o₁.Le top → (shift c d lo top).Expr sources l l')
    (hr : ∀ lo top, lo.Le o₁ → o₂.Le top → (shift c d lo top).Expr sources r r') :
    Twins c d o₀ o₂ (concatenate l r) (concatenate l' r') fun ρ e e' => ρ.Expr sources e e' :=
  .bind (raise_twins (fun lo top hlo htop => hl lo top hlo (by omega)) (by omega)) fun o₃ _ _ h₃ hleft =>
  .bind (raise_twins (b := o₁) (fun lo top hlo htop => hr lo top hlo (by omega)) (by omega))
    fun o₄ _ _ h₄ hright =>
  .bind freshConcatNames_twins fun o₅ _ n h₅ hnames => .pure fun lo top hlo htop => by
    obtain ⟨hp, hleadsL⟩ := hleft lo top (by omega) (by omega)
    obtain ⟨hq, hleadsR⟩ := hright lo top (by omega) (by omega)
    have hlabelsL := fun k hk => leads_paired (hl o₀ o₁ (by omega) (by omega)) (hleadsL k hk)
    have hlabelsR := fun k hk => leads_paired (hr o₁ o₂ (by omega) (by omega)) (hleadsR k hk)
    refine concatenate_renamed hp hq (hnames lo top (by omega) (by omega)) ?_ ?_
    · intro k hkR hkL
      obtain ⟨_, hk⟩ := hlabelsL k hkL
      obtain ⟨_, hk'⟩ := hlabelsR k hkR
      have hlt := labels_apart hk hk'
      omega
    · intro k hk
      have hn := hnames o₂ o₅ (by omega) (by omega)
      have hown : ∃ k', (shift c d o₂ o₅).labels k k' := by
        simp only [concatLoop, List.mem_cons, reduceCtorEq, IRStmt.label.injEq, List.not_mem_nil,
          false_or, or_false] at hk
        rcases hk with rfl | rfl | rfl | rfl | rfl | rfl
        · exact ⟨_, hn.loopLabel⟩
        · exact ⟨_, hn.loopBody⟩
        · exact ⟨_, hn.leftFill⟩
        · exact ⟨_, hn.rightFill⟩
        · exact ⟨_, hn.increment⟩
        · exact ⟨_, hn.complete⟩
      obtain ⟨_, hown⟩ := hown
      constructor
      · intro hkL
        obtain ⟨_, hk⟩ := hlabelsL k hkL
        have hlt := labels_apart hk hown
        omega
      · intro hkR
        obtain ⟨_, hk⟩ := hlabelsR k hkR
        have hlt := labels_apart hk hown
        omega

end Concatenate

/-- The characters of a literal are stored alike. -/
theorem stringLiteral_renamed {ρ : Renaming} {known : Pairs} {t t' : IRExpr} (h : TempPair ρ t t')
    (text : List Char) : ρ.Expr known (stringLiteral t text) (stringLiteral t' text) := by
  have hread : ρ.Expr (known ∪ bound t t') t t' := h.read Set.subset_union_right
  have hfill : ∀ {jumps : String → String → Prop} {held : String → Pairs} (chars : List (Char × ℕ)),
      ρ.Block jumps held (known ∪ bound t t')
        (chars.map fun p => .move (wordAt t (longOfInt (8 * (p.2 + 1)))) (.const (.ofNat 64 p.1.toNat)))
        (chars.map fun p => .move (wordAt t' (longOfInt (8 * (p.2 + 1)))) (.const (.ofNat 64 p.1.toNat)))
        (known ∪ bound t t') := by
    intro jumps held chars
    induction chars with
    | nil => exact .nil
    | cons p chars ih =>
      exact .cons (.moveMem (.op .ADD hread (.const _)) (.const _) subset_rfl) ih
  exact @Renaming.Expr.own ρ (fun _ => ∅) known _ _ _ _ _
    (.seq (.append (arrayInitMoves_renamed (.const _) h) (hfill _))) Set.subset_union_left
    (.op .ADD hread (.const 8))

variable (tables : Tables) (sourceFn : String)

/-! ## Expressions -/

mutual

/-- Two translations of an expression differ in their fresh names only, and read none of them before
it is set. -/
theorem translateExpr_twins {o : Counters} (e : Expr Typed) (he : e.Lexed) :
    Twins c d o o (translateExpr tables sourceFn e) (translateExpr tables sourceFn e)
      fun ρ e e' => ρ.Expr sources e e' :=
  match e, he with
  | .arrayAccess ty arr idx, he =>
    .bind .freshTemp fun o₁ _ _ h₁ hA => .bind .freshTemp fun o₂ _ _ h₂ hI =>
    .bind .freshLabel fun o₃ _ _ h₃ hs => .bind .freshLabel fun o₄ _ _ h₄ hf =>
    .bind (translateExpr_twins arr he.1) fun o₅ _ _ h₅ harr =>
    .bind (translateExpr_twins idx he.2) fun o₆ _ _ h₆ hidx => .pure fun lo top hlo htop =>
      arrayAccess_renamed (hA lo top (by omega) (by omega)) (hI lo top (by omega) (by omega))
        (harr lo top (by omega) (by omega)) (hidx lo top (by omega) (by omega))
        (hs lo top (by omega) (by omega)) (hf lo top (by omega) (by omega))
  | .binaryOp ty op left right, he => by
    have hleft := fun o => translateExpr_twins (o := o) left he.1
    have hright := fun o => translateExpr_twins (o := o) right he.2
    rw [translateExpr]
    refine .ite (fun _ => ?_) fun _ => .ite (fun _ => ?_) fun _ => .ite (fun _ => ?_) fun _ => ?_
    · exact .bind (hleft _) fun o₁ _ _ h₁ hl => .bind (hright _) fun o₂ _ _ h₂ hr =>
        concatenate_twins h₁ h₂ hl hr
    · exact .bind .freshTemp fun o₁ _ _ h₁ hX => .bind .freshLabel fun o₂ _ _ h₂ hl₁ =>
        .bind .freshLabel fun o₃ _ _ h₃ hl₂ => .bind .freshLabel fun o₄ _ _ h₄ hlF =>
        .bind (hleft _) fun o₅ _ _ h₅ hl => .bind (hright _) fun o₆ _ _ h₆ hr =>
        .pure fun lo top hlo htop =>
          shortAnd_renamed (hX lo top (by omega) (by omega)) (hl lo top (by omega) (by omega))
            (hr lo top (by omega) (by omega)) (hl₁ lo top (by omega) (by omega))
            (hl₂ lo top (by omega) (by omega)) (hlF lo top (by omega) (by omega))
    · exact .bind .freshTemp fun o₁ _ _ h₁ hX => .bind .freshLabel fun o₂ _ _ h₂ hl₁ =>
        .bind .freshLabel fun o₃ _ _ h₃ hl₂ => .bind .freshLabel fun o₄ _ _ h₄ hlT =>
        .bind (hleft _) fun o₅ _ _ h₅ hl => .bind (hright _) fun o₆ _ _ h₆ hr =>
        .pure fun lo top hlo htop =>
          shortOr_renamed (hX lo top (by omega) (by omega)) (hl lo top (by omega) (by omega))
            (hr lo top (by omega) (by omega)) (hl₁ lo top (by omega) (by omega))
            (hl₂ lo top (by omega) (by omega)) (hlT lo top (by omega) (by omega))
    · exact .bind (hleft _) fun o₁ _ _ h₁ hl => .bind (hright _) fun o₂ _ _ h₂ hr =>
        .pure fun lo top hlo htop => .op _ (hl lo top (by omega) (by omega))
          (hr lo top (by omega) (by omega))
  | .functionCall ty fn args, he => by
    have hargs := fun o => translateExprs_twins (o := o) args he
    have hstores := fun (b o : Counters) (hle : b.Le o) (tempM tempM' : IRExpr)
      (ht : ∀ lo top, lo.Le b → o.Le top → TempPair (shift c d lo top) tempM tempM') offset =>
      translateStores_twins hle ht offset args he
    rw [translateExpr]
    split
    · exact .bind .freshTemp fun o₁ _ _ h₁ hM =>
        .bind (hstores o o₁ h₁ _ _ hM _ _ _) fun o₂ _ _ h₂ hmoves =>
        .pure fun lo top hlo htop =>
          @Renaming.Expr.own _ (fun _ => ∅) _ _ _ _ _ _
            (.seq (.cons (recordInit_renamed (hM lo top (by omega) (by omega)) _)
              (hmoves lo top (by omega) (by omega) _ _))) Set.subset_union_left
            ((hM lo top (by omega) (by omega)).read Set.subset_union_right)
    · exact .bind (.lift rfl) fun o₁ _ _ h₁ hfn => by
        cases hfn o o₁ (by omega) (by omega)
        exact .bind (.recordCall _ _) fun o₂ _ _ h₂ _ => .bind (hargs _) fun o₃ _ _ h₃ hes =>
          .pure fun lo top hlo htop => .call (.name _) (hes lo top (by omega) (by omega))
  | .identifier ty name, he => .pure fun lo top _ _ => by
    rw [identifier]
    split_ifs
    · exact .mem (.name name)
    · exact .temp ⟨source_of_identifier he, rfl⟩
  | .lengthFn ty arg, he =>
    .bind .freshTemp fun o₁ _ _ h₁ hL => .bind .freshTemp fun o₂ _ _ h₂ hA =>
    .bind (translateExpr_twins arg he) fun o₃ _ _ h₃ harg => .pure fun lo top hlo htop => by
      have hA := hA lo top (by omega) (by omega)
      have hL := hL lo top (by omega) (by omega)
      exact @Renaming.Expr.own _ (fun _ => ∅) _ _ _ _ _ _
        (.seq (.cons (hA.set (harg lo top (by omega) (by omega)))
          (.cons (hL.set (lengthOf_renamed (hA.read Set.subset_union_right))) .nil)))
        (Set.subset_union_left.trans Set.subset_union_left) (hL.read Set.subset_union_right)
  | .arrayLit ty list, he =>
    .bind .freshTemp fun o₁ _ _ h₁ hM =>
    .bind (translateStores_twins h₁ hM _ list he _ _) fun o₂ _ _ h₂ hmoves =>
    .pure fun lo top hlo htop => by
      have hM := hM lo top (by omega) (by omega)
      exact @Renaming.Expr.own _ (fun _ => ∅) _ _ _ _ _ _
        (.seq (.append (arrayInitMoves_renamed (.const _) hM) (hmoves lo top (by omega) (by omega) _ _)))
        Set.subset_union_left (.op .ADD (hM.read Set.subset_union_right) (.const 8))
  | .boolLit _ bool, _ => .pure fun _ _ _ _ => .const _
  | .charLit _ char, _ => .pure fun _ _ _ _ => .const _
  | .intLit _ num, _ => .pure fun _ _ _ _ => .const _
  | .stringLit _ text, _ => .bind .freshTemp fun o₁ _ _ h₁ hS => .pure fun lo top hlo htop =>
    stringLiteral_renamed (hS lo top (by omega) (by omega)) _
  | .unaryOp _ .NOT arg, he => .bind (translateExpr_twins arg he) fun o₁ _ _ h₁ harg =>
    .pure fun lo top hlo htop => .op _ (.const _) (harg lo top (by omega) (by omega))
  | .unaryOp _ .NEG arg, he => .bind (translateExpr_twins arg he) fun o₁ _ _ h₁ harg =>
    .pure fun lo top hlo htop => .op _ (.const _) (harg lo top (by omega) (by omega))
  | .field ty record name, he => by
    have hrecord := fun o => translateExpr_twins (o := o) record he
    rw [translateExpr]
    split
    · exact .bind (.lift rfl) fun o₁ _ _ h₁ hfields =>
        .bind (hrecord _) fun o₂ _ _ h₂ hrec => .bind
          (.lift (congrArg (fun fields => fields.get? name) (hfields o o₁ (by omega) (by omega))))
        fun o₃ _ _ h₃ hnumber => .pure fun lo top hlo htop => by
          rw [hnumber lo top (by omega) (by omega)]
          exact wordAt_renamed (hrec lo top (by omega) (by omega)) _
    · exact .failure
  | .nullLit _, _ => .pure fun _ _ _ _ => .const _

/-- The expressions of a list use names of ranges in a row. -/
theorem translateExprs_twins {o : Counters} (es : List (Expr Typed)) (hes : Expr.LexedAll es) :
    Twins c d o o (translateExprs tables sourceFn es) (translateExprs tables sourceFn es)
      fun ρ es es' => ρ.Exprs sources es es' :=
  match es, hes with
  | [], _ => .pure fun _ _ _ _ => .nil
  | e :: es, hes => .bind (translateExpr_twins e hes.1) fun o₁ _ _ h₁ he =>
    .bind (translateExprs_twins es hes.2) fun o₂ _ _ h₂ hes => .pure fun lo top hlo htop =>
      .cons (he lo top (by omega) (by omega)) (hes lo top (by omega) (by omega))

/-- So do the stores of a literal behind its pointer. -/
theorem translateStores_twins {b o : Counters} (hle : b.Le o) {tempM tempM' : IRExpr}
    (htemp : ∀ lo top, lo.Le b → o.Le top → TempPair (shift c d lo top) tempM tempM')
    (offset : ℕ → Word) (es : List (Expr Typed)) (hes : Expr.LexedAll es) (i n : ℕ) :
    Twins c d b o (translateStores tables sourceFn tempM offset es i n)
      (translateStores tables sourceFn tempM' offset es i n)
      fun ρ block block' => ∀ jumps held, ρ.Block jumps held (sources ∪ bound tempM tempM') block block'
        (sources ∪ bound tempM tempM') :=
  match es, hes, n with
  | [], _, 0 => .pure fun _ _ _ _ _ _ => .nil
  | _ :: _, _, 0 => .pure fun _ _ _ _ _ _ => .nil
  | [], _, _ + 1 => .failure
  | e :: es, hes, n + 1 => .bind (translateExpr_twins e hes.1) fun o₁ _ _ h₁ he =>
    .bind (translateStores_twins (b := b) (by omega)
      (fun lo top hlo htop => htemp lo top hlo (by omega)) offset es hes.2 (i + 1) n)
      fun o₂ _ _ h₂ hmoves => .pure fun lo top hlo htop jumps held =>
        .cons (.moveMem (.op .ADD ((htemp lo top hlo (by omega)).read Set.subset_union_right) (.const _))
          ((he lo top (by omega) (by omega)).frame _) subset_rfl) (hmoves lo top hlo htop jumps held)

end

/-! ## Runs -/

section Runs

variable {M : Type*} {S : Storage M} {s s' s₁ : Store M} {tr : List (Mid.Action M)}
  {out out' : Mid.Outcome M} {e : Expr Typed} {a a' : IRExpr} {st st₁ st' st₁' : State}

/-- The stores agree on the memory and on all temps but the fresh ones. -/
structure SameSource (s s' : Store M) : Prop where
  mem : s.mem = s'.mem
  temps : ∀ x, Source x → s.temps x = s'.temps x

/-- Every store agrees with itself. -/
theorem SameSource.refl (s : Store M) : SameSource s s := ⟨rfl, fun _ _ => rfl⟩

/-- The stores can be exchanged. -/
theorem SameSource.symm (h : SameSource s s') : SameSource s' s :=
  ⟨h.mem.symm, fun x hx => (h.temps x hx).symm⟩

/-- Agreement with a third store. -/
theorem SameSource.trans (h : SameSource s s') (h' : SameSource s' s₁) : SameSource s s₁ :=
  ⟨h.mem.trans h'.mem, fun x hx => (h.temps x hx).trans (h'.temps x hx)⟩

/-- Fresh temps do not matter. -/
theorem SameSource.set_fresh (h : SameSource s s') (k : ℕ) (v : Word) :
    SameSource s (s'.set (tempName k) v) := by
  refine ⟨h.mem, fun x hx => ?_⟩
  rw [h.temps x hx]
  simp [Store.set, hx k]

/-- The same value, trap or cut. -/
inductive SameEnd : Mid.Outcome M → Mid.Outcome M → Prop
  | value (v : Word) {s s' : Store M} : SameSource s s' → SameEnd (.value v s) (.value v s')
  | trap : SameEnd .trap .trap
  | cut : SameEnd .cut .cut

variable {tables sourceFn}

/-- From any other state the translation gives the same code, but for names. -/
theorem translateExpr_renamed (he : e.Lexed) (h : (translateExpr tables sourceFn e).run st = some (a, st₁))
    (st' : State) : ∃ o a' st₁', st₁.counters = st.counters + o ∧
      (translateExpr tables sourceFn e).run st' = some (a', st₁') ∧ st₁'.counters = st'.counters + o ∧
      (shift st.counters st'.counters ⟨0, 0⟩ o).Expr sources a a' := by
  obtain ⟨o, a', st₁', -, hc, hrun, hd, hrel⟩ :=
    translateExpr_twins (c := st.counters) (d := st'.counters) (o := ⟨0, 0⟩) tables sourceFn e he st st' a st₁
      rfl rfl h
  exact ⟨o, a', st₁', hc, hrun, hd, hrel ⟨0, 0⟩ o (by omega) (by omega)⟩

/-- The counters only go up. -/
theorem translateExpr_le (he : e.Lexed) (h : (translateExpr tables sourceFn e).run st = some (a, st₁)) :
    st.counters.Le st₁.counters := by
  obtain ⟨o, -, -, hc, -⟩ := translateExpr_renamed he h st
  rw [hc]
  exact ⟨Nat.le_add_right _ _, Nat.le_add_right _ _⟩

/-- Stores that agree on the source are alike under a shift of names. -/
theorem SameSource.alike (hs : SameSource s s') (c d lo top : Counters) :
    (shift c d lo top).Alike sources s s' := by
  refine ⟨hs.mem, fun p hp => .inl hp, ?_⟩
  rintro ⟨x, y⟩ ⟨hx, hxy⟩
  cases hxy
  exact hs.temps x hx

/-- What the counters are decides neither what a run does nor what it leaves in the source. -/
theorem translateExpr_same (he : e.Lexed) (h : (translateExpr tables sourceFn e).run st = some (a, st₁))
    (h' : (translateExpr tables sourceFn e).run st' = some (a', st₁')) (hs : SameSource s s')
    (hrun : Mid.Eval S (.expr a) s tr out) :
    ∃ out', Mid.Eval S (.expr a') s' tr out' ∧ SameEnd out out' := by
  obtain ⟨o, a₁, st₂, -, hd, -, hren⟩ := translateExpr_renamed he h st'
  rw [h'] at hd
  cases hd
  obtain ⟨out', hrun', hends⟩ := Renaming.eval_renamed hrun (.expr hren) (hs.alike _ _ _ _)
  refine ⟨out', hrun', ?_⟩
  cases hends with
  | value v hm => exact .value v ⟨hm.alike.mem, fun x hx => hm.alike.temps (x, x) ⟨hx, rfl⟩⟩
  | trap => exact .trap
  | cut => exact .cut
  | jump hl => exact hl.elim
  | _ => obtain ⟨_, _, hout⟩ | habort := Mid.eval_expr_ends hrun <;> contradiction

/-- An expression ends in a value, in a trap or is cut off. -/
theorem translateExpr_ends (he : e.Lexed) (h : (translateExpr tables sourceFn e).run st = some (a, st₁))
    (hrun : Mid.Eval S (.expr a) s tr out) : SameEnd out out := by
  obtain ⟨out', -, hsame⟩ := translateExpr_same he h h (.refl s) hrun
  cases hsame with
  | value v => exact .value v (.refl _)
  | trap => exact .trap
  | cut => exact .cut

/-- Fresh temps of others are left as they are. -/
theorem translateExpr_frame (he : e.Lexed) (h : (translateExpr tables sourceFn e).run st = some (a, st₁))
    {v : Word} (hrun : Mid.Eval S (.expr a) s tr (.value v s₁)) {k : ℕ}
    (hk : k ≤ st.freshTempCount ∨ st₁.freshTempCount < k) :
    s₁.temps (tempName k) = s.temps (tempName k) := by
  obtain ⟨o, a', st₁', hc, -, -, hren⟩ := translateExpr_renamed he h st
  obtain ⟨out', -, hends⟩ := Renaming.eval_renamed hrun (.expr hren) ((SameSource.refl s).alike _ _ _ _)
  cases hends with
  | value v hm =>
    refine hm.left _ ?_
    rintro y (⟨hx, -⟩ | ⟨i, hi, hi', hname, -⟩)
    · exact hx k rfl
    · have heq := tempName_inj hname
      have htemps : st₁.freshTempCount = st.freshTempCount + o.temps := congrArg Counters.temps hc
      simp only [State.counters] at heq
      omega

end Runs

end IRTranslator

end Jaek
