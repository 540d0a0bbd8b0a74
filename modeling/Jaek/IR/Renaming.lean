import Jaek.IR.MidRules

/-!
# Mid-level code under other names

A `Renaming` pairs the temps and the labels of two pieces of code one to one. The relations say that the
pieces differ in paired names only, and that they read no temp before it is set: `known` are the pairs
that hold the same value when a piece is run, and `known'` those that do behind it. A label may be
jumped to when the pairs `held` there are known.

`eval_renamed` carries a run of one piece over to the other: the same reads, writes and calls, the same
values, and stores that agree on the known pairs. Temps that are not paired keep their values on both
sides.

In the statement of an `ESEQ` jumps have to stay inside: only its own labels may be jumped to. So
expressions never end in a jump.
-/

namespace Jaek

/-- Pairs of temps and of labels. Result temps are paired with themselves. -/
structure Renaming where
  temps : String → String → Prop
  labels : String → String → Prop
  temps_left : ∀ {x y y'}, temps x y → temps x y' → y = y'
  temps_right : ∀ {x x' y}, temps x y → temps x' y → x = x'
  temps_ret : ∀ i, temps (retTemp i) (retTemp i)
  labels_left : ∀ {l m m'}, labels l m → labels l m' → m = m'
  labels_right : ∀ {l l' m}, labels l m → labels l' m → l = l'

/-- Pairs of temps. -/
abbrev Pairs := Set (String × String)

namespace Renaming

mutual

/-- The expressions differ in the names of temps and labels. -/
inductive Expr (ρ : Renaming) : Pairs → IRExpr → IRExpr → Prop
  | const {known : Pairs} (v : Word) : ρ.Expr known (.const v) (.const v)
  | temp {known : Pairs} {x y : String} : (x, y) ∈ known → ρ.Expr known (.temp x) (.temp y)
  | name {known : Pairs} (l : String) : ρ.Expr known (.name l) (.name l)
  | op {known : Pairs} (o : OpType) {l l' r r' : IRExpr} :
      ρ.Expr known l l' → ρ.Expr known r r' → ρ.Expr known (.op o l r) (.op o l' r')
  | mem {known : Pairs} {e e' : IRExpr} : ρ.Expr known e e' → ρ.Expr known (.mem e) (.mem e')
  | call {known : Pairs} {a a' : IRExpr} {args args' : List IRExpr} :
      ρ.Expr known a a' → ρ.Exprs known args args' → ρ.Expr known (.call a args) (.call a' args')
  | eseq {known known' : Pairs} {jumps : String → String → Prop} {held : String → Pairs}
      {st st' : IRStmt} {e e' : IRExpr} :
      (∀ l l', jumps l l' → ρ.labels l l' ∧ .label l ∈ st.flatten) →
      ρ.Stmt jumps held known st st' known' → known ⊆ known' → ρ.Expr known' e e' →
      ρ.Expr known (.eseq st e) (.eseq st' e')

/-- The expressions are equal but for the names, and read only temps that are known. -/
inductive Exprs (ρ : Renaming) : Pairs → List IRExpr → List IRExpr → Prop
  | nil {known : Pairs} : ρ.Exprs known [] []
  | cons {known : Pairs} {e e' : IRExpr} {es es' : List IRExpr} :
      ρ.Expr known e e' → ρ.Exprs known es es' → ρ.Exprs known (e :: es) (e' :: es')

/-- The statements differ in the names of temps and labels, and jump to paired labels among
`jumps`. -/
inductive Stmt (ρ : Renaming) : (String → String → Prop) → (String → Pairs) → Pairs → IRStmt →
    IRStmt → Pairs → Prop
  | moveTemp {jumps : String → String → Prop} {held : String → Pairs} {known known' : Pairs}
      {x y : String} {e e' : IRExpr} : ρ.temps x y → ρ.Expr known e e' →
      known' ⊆ insert (x, y) known →
      ρ.Stmt jumps held known (.move (.temp x) e) (.move (.temp y) e') known'
  | moveMem {jumps : String → String → Prop} {held : String → Pairs} {known known' : Pairs}
      {a a' e e' : IRExpr} : ρ.Expr known a a' → ρ.Expr known e e' → known' ⊆ known →
      ρ.Stmt jumps held known (.move (.mem a) e) (.move (.mem a') e') known'
  | seq {jumps : String → String → Prop} {held : String → Pairs} {known known' : Pairs}
      {block block' : List IRStmt} : ρ.Block jumps held known block block' known' →
      ρ.Stmt jumps held known (.seq block) (.seq block') known'
  | jump {jumps : String → String → Prop} {held : String → Pairs} {known known' : Pairs}
      {l l' : String} : jumps l l' → held l ⊆ known →
      ρ.Stmt jumps held known (.jump l) (.jump l') known'
  | cjump {jumps : String → String → Prop} {held : String → Pairs} {known known' : Pairs}
      {g g' : IRExpr} {t t' f f' : String} : ρ.Expr known g g' → jumps t t' → held t ⊆ known →
      jumps f f' → held f ⊆ known →
      ρ.Stmt jumps held known (.cjump g t (some f)) (.cjump g' t' (some f')) known'
  | label {jumps : String → String → Prop} {held : String → Pairs} {known known' : Pairs}
      {l l' : String} : ρ.labels l l' → held l ⊆ known → known' ⊆ held l →
      ρ.Stmt jumps held known (.label l) (.label l') known'
  | callStmt {jumps : String → String → Prop} {held : String → Pairs} {known known' : Pairs}
      (f : String) (n : ℕ) {args args' : List IRExpr} : ρ.Exprs known args args' →
      known' ⊆ known → ρ.Stmt jumps held known (.callStmt f n args) (.callStmt f n args') known'

inductive Block (ρ : Renaming) : (String → String → Prop) → (String → Pairs) → Pairs →
    List IRStmt → List IRStmt → Pairs → Prop
  | nil {jumps : String → String → Prop} {held : String → Pairs} {known : Pairs} :
      ρ.Block jumps held known [] [] known
  | cons {jumps : String → String → Prop} {held : String → Pairs} {known known₁ known' : Pairs}
      {st st' : IRStmt} {block block' : List IRStmt} : ρ.Stmt jumps held known st st' known₁ →
      ρ.Block jumps held known₁ block block' known' →
      ρ.Block jumps held known (st :: block) (st' :: block') known'

end

variable {ρ : Renaming} {jumps : String → String → Prop} {held : String → Pairs}
  {known known₁ known' : Pairs}

/-- Two lists of statements in a row. -/
theorem Block.append {A A' B B' : List IRStmt} (hA : ρ.Block jumps held known A A' known₁)
    (hB : ρ.Block jumps held known₁ B B' known') :
    ρ.Block jumps held known (A ++ B) (A' ++ B') known' := by
  induction A generalizing A' known with
  | nil =>
    cases hA
    exact hB
  | cons st A ih =>
    cases hA with
    | cons hst hA => exact .cons hst (ih hA)

mutual

/-- A flattened statement is renamed as the statement is. -/
theorem Stmt.flatten {st st' : IRStmt} {known known' : Pairs}
    (h : ρ.Stmt jumps held known st st' known') :
    ρ.Block jumps held known st.flatten st'.flatten known' :=
  match st, st', h with
  | _, _, .moveTemp hxy he hk => .cons (.moveTemp hxy he hk) .nil
  | _, _, .moveMem ha he hk => .cons (.moveMem ha he hk) .nil
  | _, _, .seq h => h.flattenAll
  | _, _, .jump h hk => .cons (.jump h hk) .nil
  | _, _, .cjump hg ht hkt hf hkf => .cons (.cjump hg ht hkt hf hkf) .nil
  | _, _, .label h hk hk' => .cons (.label h hk hk') .nil
  | _, _, .callStmt f n h hk => .cons (.callStmt f n h hk) .nil

/-- So is a flattened list. -/
theorem Block.flattenAll {block block' : List IRStmt} {known known' : Pairs}
    (h : ρ.Block jumps held known block block' known') :
    ρ.Block jumps held known (IRStmt.flattenAll block) (IRStmt.flattenAll block') known' :=
  match block, block', h with
  | _, _, .nil => .nil
  | _, _, .cons hst h => .append hst.flatten h.flattenAll

end

/-- Paired labels stand in the same place, and what is held at them is known behind them. -/
theorem Block.findLabel {block block' : List IRStmt}
    (h : ρ.Block jumps held known block block' known') {l l' : String} (hl : ρ.labels l l') :
    (Mid.findLabel block l = none ∧ Mid.findLabel block' l' = none) ∨
      ∃ rest rest' known₁, Mid.findLabel block l = some rest ∧
        Mid.findLabel block' l' = some rest' ∧ known₁ ⊆ held l ∧
        ρ.Block jumps held known₁ rest rest' known' := by
  induction block generalizing block' known with
  | nil =>
    cases h
    exact .inl ⟨rfl, rfl⟩
  | cons st block ih =>
    cases h with
    | cons hst hrest =>
      cases hst with
      | @label _ _ _ _ k k' hk _ hheld =>
        rw [Mid.findLabel, Mid.findLabel]
        by_cases heq : k = l
        · subst heq
          rw [if_pos rfl, if_pos (ρ.labels_left hk hl)]
          exact .inr ⟨_, _, _, rfl, rfl, hheld, hrest⟩
        · have hne : k' ≠ l' := by
            rintro rfl
            exact heq (ρ.labels_right hk hl)
          rw [if_neg heq, if_neg hne]
          exact ih hrest
      | _ =>
        have hfind := ih hrest
        exact hfind

/-! ## Other known pairs, other labels -/

mutual

/-- Pairs that are known beside are kept. -/
theorem Expr.frame {e e' : IRExpr} {known : Pairs} (h : ρ.Expr known e e') (W : Pairs) :
    ρ.Expr (known ∪ W) e e' :=
  match e, e', h with
  | _, _, .const v => .const v
  | _, _, .temp hxy => .temp (.inl hxy)
  | _, _, .name l => .name l
  | _, _, .op o hl hr => .op o (hl.frame W) (hr.frame W)
  | _, _, .mem h => .mem (h.frame W)
  | _, _, .call ha hargs => .call (ha.frame W) (hargs.frame W)
  | _, _, .eseq hin hst hk he =>
    .eseq hin (hst.frame W) (Set.union_subset_union_left W hk) (he.frame W)

/-- More may be known in front of a list of expressions. -/
theorem Exprs.frame {es es' : List IRExpr} {known : Pairs} (h : ρ.Exprs known es es') (W : Pairs) :
    ρ.Exprs (known ∪ W) es es' :=
  match es, es', h with
  | _, _, .nil => .nil
  | _, _, .cons he hes => .cons (he.frame W) (hes.frame W)

/-- More may be known in front of a statement, and then at its labels and behind it. -/
theorem Stmt.frame {jumps : String → String → Prop} {held : String → Pairs} {st st' : IRStmt}
    {known known' : Pairs} (h : ρ.Stmt jumps held known st st' known') (W : Pairs) :
    ρ.Stmt jumps (fun l => held l ∪ W) (known ∪ W) st st' (known' ∪ W) :=
  match st, st', h with
  | _, _, .moveTemp hxy he hk =>
    .moveTemp hxy (he.frame W) ((Set.union_subset_union_left W hk).trans Set.insert_union.subset)
  | _, _, .moveMem ha he hk => .moveMem (ha.frame W) (he.frame W) (Set.union_subset_union_left W hk)
  | _, _, .seq h => .seq (h.frame W)
  | _, _, .jump h hk => .jump h (Set.union_subset_union_left W hk)
  | _, _, .cjump hg ht hkt hf hkf => .cjump (hg.frame W) ht (Set.union_subset_union_left W hkt) hf
    (Set.union_subset_union_left W hkf)
  | _, _, .label h hk hk' =>
    .label h (Set.union_subset_union_left W hk) (Set.union_subset_union_left W hk')
  | _, _, .callStmt f n h hk => .callStmt f n (h.frame W) (Set.union_subset_union_left W hk)

/-- The same of a list of statements. -/
theorem Block.frame {jumps : String → String → Prop} {held : String → Pairs}
    {block block' : List IRStmt} {known known' : Pairs}
    (h : ρ.Block jumps held known block block' known') (W : Pairs) :
    ρ.Block jumps (fun l => held l ∪ W) (known ∪ W) block block' (known' ∪ W) :=
  match block, block', h with
  | _, _, .nil => .nil
  | _, _, .cons hst h => .cons (hst.frame W) (h.frame W)

end

/-- An expression may know more than it reads. -/
theorem Expr.mono {e e' : IRExpr} (h : ρ.Expr known e e') (hk : known ⊆ known') :
    ρ.Expr known' e e' := by
  have hframe := h.frame known'
  rwa [Set.union_eq_self_of_subset_left hk] at hframe

variable {jumps' : String → String → Prop} {held' : String → Pairs}

mutual

/-- What is held matters at the labels of the statement and at those it jumps to. -/
theorem Stmt.relabel {st st' : IRStmt} {known known' : Pairs}
    (h : ρ.Stmt jumps held known st st' known') (hl : ∀ l, .label l ∈ st.flatten → held l = held' l)
    (hj : ∀ l l', jumps l l' → jumps' l l' ∧ held l = held' l) :
    ρ.Stmt jumps' held' known st st' known' :=
  match st, st', h with
  | _, _, .moveTemp hxy he hk => .moveTemp hxy he hk
  | _, _, .moveMem ha he hk => .moveMem ha he hk
  | _, _, .seq h => .seq (h.relabel hl hj)
  | _, _, .jump h hk => .jump (hj _ _ h).1 ((hj _ _ h).2 ▸ hk)
  | _, _, .cjump hg ht hkt hf hkf => .cjump hg (hj _ _ ht).1 ((hj _ _ ht).2 ▸ hkt) (hj _ _ hf).1
    ((hj _ _ hf).2 ▸ hkf)
  | _, _, .label (l := l) h hk hk' =>
    have heq := hl l (List.mem_singleton_self _)
    .label h (heq ▸ hk) (heq ▸ hk')
  | _, _, .callStmt f n h hk => .callStmt f n h hk

/-- Only what is held at its own labels and at the labels it jumps to counts. -/
theorem Block.relabel {block block' : List IRStmt} {known known' : Pairs}
    (h : ρ.Block jumps held known block block' known')
    (hl : ∀ l, .label l ∈ IRStmt.flattenAll block → held l = held' l)
    (hj : ∀ l l', jumps l l' → jumps' l l' ∧ held l = held' l) :
    ρ.Block jumps' held' known block block' known' :=
  match block, block', h with
  | _, _, .nil => .nil
  | _, _, .cons hst h =>
    .cons (hst.relabel (fun l hmem => hl l (List.mem_append_left _ hmem)) hj)
      (h.relabel (fun l hmem => hl l (List.mem_append_right _ hmem)) hj)

end

mutual

/-- The labels of the statement are paired. -/
theorem Stmt.paired {st st' : IRStmt} {known known' : Pairs} {l : String}
    (h : ρ.Stmt jumps held known st st' known') (hl : .label l ∈ st.flatten) : ∃ l', ρ.labels l l' :=
  match st, st', h with
  | .seq _, _, .seq h => h.paired hl
  | .label _, _, .label h _ _ => by
    cases List.mem_singleton.mp hl
    exact ⟨_, h⟩
  | _, _, .moveTemp _ _ _ => by cases List.mem_singleton.mp hl
  | _, _, .moveMem _ _ _ => by cases List.mem_singleton.mp hl
  | _, _, .jump _ _ => by cases List.mem_singleton.mp hl
  | _, _, .cjump _ _ _ _ _ => by cases List.mem_singleton.mp hl
  | _, _, .callStmt _ _ _ _ => by cases List.mem_singleton.mp hl

/-- The labels of a list of statements are paired. -/
theorem Block.paired {block block' : List IRStmt} {known known' : Pairs} {l : String}
    (h : ρ.Block jumps held known block block' known') (hl : .label l ∈ IRStmt.flattenAll block) :
    ∃ l', ρ.labels l l' :=
  match block, block', h with
  | _, _, .nil => by cases hl
  | _, _, .cons hst h => by
    obtain hl | hl := List.mem_append.mp hl
    · exact hst.paired hl
    · exact h.paired hl

end

/-- The jumps to paired labels of the statement itself. -/
def own (ρ : Renaming) (st : IRStmt) (l l' : String) : Prop := ρ.labels l l' ∧ .label l ∈ st.flatten

/-- The jumps inside a sequence stay inside. -/
theorem Expr.own {st st' : IRStmt} {e e' : IRExpr}
    (hst : ρ.Stmt (ρ.own st) held known st st' known') (hk : known ⊆ known')
    (he : ρ.Expr known' e e') : ρ.Expr known (.eseq st e) (.eseq st' e') :=
  .eseq (fun _ _ h => h) hst hk he

/-! ## Stores and outcomes -/

variable {M : Type*} {s s' s₁ s₁' s₂ s₂' : Store M}

/-- The stores agree on the known pairs. -/
structure Alike (ρ : Renaming) (known : Pairs) (s s' : Store M) : Prop where
  mem : s.mem = s'.mem
  paired : ∀ p ∈ known, ρ.temps p.1 p.2
  temps : ∀ p ∈ known, s.temps p.1 = s'.temps p.2

/-- Stores that are alike are so on fewer temps. -/
theorem Alike.mono (h : ρ.Alike known s s') (hk : known' ⊆ known) : ρ.Alike known' s s' :=
  ⟨h.mem, fun p hp => h.paired p (hk hp), fun p hp => h.temps p (hk hp)⟩

/-- From `s` and `s'` two runs have come to stores that agree on the known pairs, and neither has
touched temps that are not paired. -/
structure Moved (ρ : Renaming) (known : Pairs) (s s' s₁ s₁' : Store M) : Prop where
  alike : ρ.Alike known s₁ s₁'
  left : ∀ x, (∀ y, ¬ρ.temps x y) → s₁.temps x = s.temps x
  right : ∀ y, (∀ x, ¬ρ.temps x y) → s₁'.temps y = s'.temps y

/-- No step moves nothing. -/
theorem Moved.refl (h : ρ.Alike known s s') : ρ.Moved known s s' s s' :=
  ⟨h, fun _ _ => rfl, fun _ _ => rfl⟩

/-- Two moves in a row. -/
theorem Moved.trans (h : ρ.Moved known s s' s₁ s₁') (h' : ρ.Moved known' s₁ s₁' s₂ s₂') :
    ρ.Moved known' s s' s₂ s₂' :=
  ⟨h'.alike, fun x hx => (h'.left x hx).trans (h.left x hx),
    fun y hy => (h'.right y hy).trans (h.right y hy)⟩

/-- Less may be known behind. -/
theorem Moved.mono (h : ρ.Moved known s s' s₁ s₁') (hk : known' ⊆ known) :
    ρ.Moved known' s s' s₁ s₁' := ⟨h.alike.mono hk, h.left, h.right⟩

/-- A paired temp is set on both sides. -/
theorem Moved.set {x y : String} (hs : ρ.Moved known s s' s₁ s₁') (h : ρ.temps x y) (v : Word) :
    ρ.Moved (insert (x, y) known) s s' (s₁.set x v) (s₁'.set y v) := by
  refine ⟨⟨hs.alike.mem, ?_, ?_⟩, fun a ha => ?_, fun b hb => ?_⟩
  · rintro p (rfl | hp)
    · exact h
    · exact hs.alike.paired p hp
  · rintro ⟨a, b⟩ hp
    have hab : ρ.temps a b := by
      obtain heq | hp := hp
      · cases heq
        exact h
      · exact hs.alike.paired _ hp
    by_cases hax : a = x
    · subst hax
      rw [ρ.temps_left hab h]
      simp [Store.set]
    · have hby : b ≠ y := by
        rintro rfl
        exact hax (ρ.temps_right hab h)
      obtain heq | hp := hp
      · cases heq
        exact (hax rfl).elim
      · simpa [Store.set, hax, hby] using hs.alike.temps _ hp
  · have hax : a ≠ x := by
      rintro rfl
      exact ha y h
    simpa [Store.set, hax] using hs.left a ha
  · have hby : b ≠ y := by
      rintro rfl
      exact hb x h
    simpa [Store.set, hby] using hs.right b hb

/-- The memory is set on both sides. -/
theorem Moved.write (hs : ρ.Moved known s s' s₁ s₁') (m : M) :
    ρ.Moved known s s' { s₁ with mem := m } { s₁' with mem := m } :=
  ⟨⟨rfl, hs.alike.paired, hs.alike.temps⟩, hs.left, hs.right⟩

/-- The results of a call are set on both sides. -/
theorem Moved.setReturns (hs : ρ.Moved known s s' s₁ s₁') (i : ℕ) (rets : List Word) (m : M) :
    ρ.Moved known s s' ⟨setReturns i rets s₁.temps, m⟩ ⟨setReturns i rets s₁'.temps, m⟩ := by
  induction rets generalizing i s₁ s₁' with
  | nil => exact hs.write m
  | cons v rets ih =>
    exact ih ((hs.set (ρ.temps_ret i) v).mono (Set.subset_insert _ _)) (i + 1)

open Mid (Action Task Eval)

/-- The same outcome, with `jumps` as the labels that may be jumped to. -/
inductive Ends (ρ : Renaming) (jumps : String → String → Prop) (held : String → Pairs)
    (known : Pairs) (s s' : Store M) : Mid.Outcome M → Mid.Outcome M → Prop
  | value (v : Word) {s₁ s₁' : Store M} : ρ.Moved known s s' s₁ s₁' →
      Ends ρ jumps held known s s' (.value v s₁) (.value v s₁')
  | values (vs : List Word) {s₁ s₁' : Store M} : ρ.Moved known s s' s₁ s₁' →
      Ends ρ jumps held known s s' (.values vs s₁) (.values vs s₁')
  | callee (f : String) {s₁ s₁' : Store M} : ρ.Moved known s s' s₁ s₁' →
      Ends ρ jumps held known s s' (.callee f s₁) (.callee f s₁')
  | done {s₁ s₁' : Store M} : ρ.Moved known s s' s₁ s₁' →
      Ends ρ jumps held known s s' (.done s₁) (.done s₁')
  | jump {l l' : String} {s₁ s₁' : Store M} : jumps l l' → ρ.Moved (held l) s s' s₁ s₁' →
      Ends ρ jumps held known s s' (.jump l s₁) (.jump l' s₁')
  | trap : Ends ρ jumps held known s s' .trap .trap
  | cut : Ends ρ jumps held known s s' .cut .cut

variable {out out' : Mid.Outcome M}

/-- A move in front of an end. -/
theorem Ends.trans (h : ρ.Ends jumps held known' s₁ s₁' out out')
    (hs : ρ.Moved known s s' s₁ s₁') : ρ.Ends jumps held known' s s' out out' := by
  cases h with
  | value v h => exact .value v (hs.trans h)
  | values vs h => exact .values vs (hs.trans h)
  | callee f h => exact .callee f (hs.trans h)
  | done h => exact .done (hs.trans h)
  | jump hl h => exact .jump hl (hs.trans h)
  | trap => exact .trap
  | cut => exact .cut

/-- Less may be known at an end. -/
theorem Ends.mono (h : ρ.Ends jumps held known s s' out out') (hk : known' ⊆ known) :
    ρ.Ends jumps held known' s s' out out' := by
  cases h with
  | value v h => exact .value v (h.mono hk)
  | values vs h => exact .values vs (h.mono hk)
  | callee f h => exact .callee f (h.mono hk)
  | done h => exact .done (h.mono hk)
  | jump hl h => exact .jump hl h
  | trap => exact .trap
  | cut => exact .cut

/-- Both abort. -/
theorem Ends.aborts (h : ρ.Ends jumps held known s s' out out') (hout : out.Aborts) :
    out'.Aborts := by
  cases hout with
  | jump => cases h; exact .jump _ _
  | ret => cases h
  | trap => cases h; exact .trap
  | cut => cases h; exact .cut

/-- No jump leaves an expression. -/
abbrev NoJumps : String → String → Prop := fun _ _ => False

/-- Nothing is held at any label. -/
abbrev NoneHeld : String → Pairs := fun _ => ∅

/-- An expression that is left early. -/
theorem Ends.abort (h : ρ.Ends NoJumps held known s s' out out') (hout : out.Aborts) :
    ρ.Ends jumps held' known' s s' out out' := by
  cases hout with
  | jump =>
    cases h with
    | jump hl => exact hl.elim
  | ret => cases h
  | trap => cases h; exact .trap
  | cut => cases h; exact .cut

/-- The tasks differ in the names of temps and labels. -/
inductive Tasks (ρ : Renaming) : (String → String → Prop) → (String → Pairs) → Pairs → Task →
    Task → Pairs → Prop
  | expr {known : Pairs} {e e' : IRExpr} : ρ.Expr known e e' →
      Tasks ρ NoJumps NoneHeld known (.expr e) (.expr e') known
  | exprs {known : Pairs} {es es' : List IRExpr} : ρ.Exprs known es es' →
      Tasks ρ NoJumps NoneHeld known (.exprs es) (.exprs es') known
  | target {known : Pairs} {a a' : IRExpr} : ρ.Expr known a a' →
      Tasks ρ NoJumps NoneHeld known (.target a) (.target a') known
  | stmt {jumps : String → String → Prop} {held : String → Pairs} {known known' : Pairs}
      {st st' : IRStmt} : (∀ l l', jumps l l' → ρ.labels l l') →
      ρ.Stmt jumps held known st st' known' →
      Tasks ρ jumps held known (.stmt st) (.stmt st') known'
  | code {jumps : String → String → Prop} {held : String → Pairs} {known known₁ known' : Pairs}
      {block block' rest rest' : List IRStmt} : (∀ l l', jumps l l' → ρ.labels l l') →
      ρ.Block jumps held known₁ block block' known' → ρ.Block jumps held known rest rest' known' →
      Tasks ρ jumps held known (.code block rest) (.code block' rest') known'

end Renaming

namespace Mid

variable {M : Type*} {S : Storage M} {s s' : Store M} {tr : List (Action M)} {l : String}

/-- A sequence that is left by a jump does not have the label. -/
theorem findLabel_of_jump {block rest : List IRStmt}
    (h : Eval S (.code block rest) s tr (.jump l s')) : findLabel block l = none := by
  generalize htask : Task.code block rest = task at h
  generalize hout : Outcome.jump l s' = out at h
  induction h generalizing rest with
  | codeCons _ _ _ ih =>
    cases htask
    exact ih rfl hout
  | codeGoto _ _ _ _ ih =>
    cases htask
    exact ih rfl hout
  | codeJump _ hfind =>
    cases htask
    cases hout
    exact hfind
  | _ => cases htask <;> cases hout

/-- A statement that is left by a jump does not have the label. -/
theorem not_mem_flatten_of_jump {st : IRStmt} (h : Eval S (.stmt st) s tr (.jump l s')) :
    .label l ∉ st.flatten := by
  intro hmem
  cases st with
  | seq block =>
    cases h with
    | seq h => exact findLabel_eq_none_iff.mp (findLabel_of_jump h) hmem
  | label l' => cases h
  | _ => cases List.mem_singleton.mp hmem

end Mid

namespace Renaming

open Mid (Action Task Eval)

variable {M : Type*} {S : Storage M} {ρ : Renaming} {jumps : String → String → Prop}
  {held : String → Pairs} {known known' : Pairs} {task task' : Task} {s s' : Store M}
  {tr : List (Action M)} {out : Mid.Outcome M}

/-- A run is carried over to code with other names. -/
theorem eval_renamed (h : Eval S task s tr out) (hren : ρ.Tasks jumps held known task task' known')
    (hs : ρ.Alike known s s') :
    ∃ out', Eval S task' s' tr out' ∧ ρ.Ends jumps held known' s s' out out' := by
  induction h generalizing jumps held known task' known' s' with
  | cut => exact ⟨_, .cut _ _, .cut⟩
  | const =>
    cases hren with
    | expr he =>
      cases he
      exact ⟨_, .const _ _, .value _ (.refl hs)⟩
  | temp =>
    cases hren with
    | expr he =>
      cases he with
      | temp hxy =>
        rw [hs.temps _ hxy]
        exact ⟨_, .temp _ _, .value _ (.refl hs)⟩
  | name =>
    cases hren with
    | expr he =>
      cases he
      exact ⟨_, .name _ _, .value _ (.refl hs)⟩
  | op _ _ ho ihl ihr =>
    cases hren with
    | expr he =>
      cases he with
      | op _ hl hr =>
        obtain ⟨_, hl, houtl⟩ := ihl (.expr hl) hs
        cases houtl with
        | value _ hm =>
          obtain ⟨_, hr, hout⟩ := ihr (.expr hr) hm.alike
          cases hout with
          | value _ hm' => exact ⟨_, .op hl hr ho, .value _ (hm.trans hm')⟩
  | opTrap _ _ ho ihl ihr =>
    cases hren with
    | expr he =>
      cases he with
      | op _ hl hr =>
        obtain ⟨_, hl, houtl⟩ := ihl (.expr hl) hs
        cases houtl with
        | value _ hm =>
          obtain ⟨_, hr, hout⟩ := ihr (.expr hr) hm.alike
          cases hout with
          | value _ hm' => exact ⟨_, .opTrap hl hr ho, .trap⟩
  | opLeft _ habort ih =>
    cases hren with
    | expr he =>
      cases he with
      | op _ hl hr =>
        obtain ⟨_, hl, hout⟩ := ih (.expr hl) hs
        exact ⟨_, .opLeft hl (hout.aborts habort), hout⟩
  | opRight _ _ habort ihl ihr =>
    cases hren with
    | expr he =>
      cases he with
      | op _ hl hr =>
        obtain ⟨_, hl, houtl⟩ := ihl (.expr hl) hs
        cases houtl with
        | value _ hm =>
          obtain ⟨_, hr, hout⟩ := ihr (.expr hr) hm.alike
          exact ⟨_, .opRight hl hr (hout.aborts habort), hout.trans hm⟩
  | mem _ hread ih =>
    cases hren with
    | expr he =>
      cases he with
      | mem he =>
        obtain ⟨_, he, hout⟩ := ih (.expr he) hs
        cases hout with
        | value _ hm => exact ⟨_, .mem he (hm.alike.mem ▸ hread), .value _ hm⟩
  | memFault _ hread ih =>
    cases hren with
    | expr he =>
      cases he with
      | mem he =>
        obtain ⟨_, he, hout⟩ := ih (.expr he) hs
        cases hout with
        | value _ hm => exact ⟨_, .memFault he (hm.alike.mem ▸ hread), .trap⟩
  | memAbort _ habort ih =>
    cases hren with
    | expr he =>
      cases he with
      | mem he =>
        obtain ⟨_, he, hout⟩ := ih (.expr he) hs
        exact ⟨_, .memAbort he (hout.aborts habort), hout⟩
  | call _ _ iha ihargs =>
    cases hren with
    | expr he =>
      cases he with
      | call ha hargs =>
        obtain ⟨_, ha, houta⟩ := iha (.target ha) hs
        cases houta with
        | callee _ hm =>
          obtain ⟨_, hargs, hout⟩ := ihargs (.exprs hargs) hm.alike
          cases hout with
          | values _ hm' =>
            exact ⟨_, .call ha hargs, .value _ (hm.trans (hm'.setReturns 1 _ _))⟩
  | callTarget _ habort ih =>
    cases hren with
    | expr he =>
      cases he with
      | call ha hargs =>
        obtain ⟨_, ha, hout⟩ := ih (.target ha) hs
        exact ⟨_, .callTarget ha (hout.aborts habort), hout⟩
  | callArgs _ _ habort iha ihargs =>
    cases hren with
    | expr he =>
      cases he with
      | call ha hargs =>
        obtain ⟨_, ha, houta⟩ := iha (.target ha) hs
        cases houta with
        | callee _ hm =>
          obtain ⟨_, hargs, hout⟩ := ihargs (.exprs hargs) hm.alike
          exact ⟨_, .callArgs ha hargs (hout.aborts habort), hout.trans hm⟩
  | eseq _ _ ihst ihe =>
    cases hren with
    | expr he =>
      cases he with
      | eseq hin hst hk he =>
        obtain ⟨_, hst, houtst⟩ := ihst (.stmt (fun l l' h => (hin l l' h).1) hst) hs
        cases houtst with
        | done hm =>
          obtain ⟨_, he, hout⟩ := ihe (.expr he) hm.alike
          exact ⟨_, .eseq hst he, (hout.trans hm).mono hk⟩
  | eseqAbort hrun habort ih =>
    cases hren with
    | expr he =>
      cases he with
      | eseq hin hst hk he =>
        obtain ⟨_, hst, hout⟩ := ih (.stmt (fun l l' h => (hin l l' h).1) hst) hs
        have hst' := fun e => Eval.eseqAbort (e := e) hst (hout.aborts habort)
        cases hout with
        | jump hl => exact (Mid.not_mem_flatten_of_jump hrun (hin _ _ hl).2).elim
        | trap => exact ⟨_, hst' _, .trap⟩
        | cut => exact ⟨_, hst' _, .cut⟩
        | value => cases habort
        | values => cases habort
        | callee => cases habort
        | done => cases habort
  | nil =>
    cases hren with
    | exprs he =>
      cases he
      exact ⟨_, .nil _, .values _ (.refl hs)⟩
  | cons _ _ ih ihs =>
    cases hren with
    | exprs he =>
      cases he with
      | cons he hes =>
        obtain ⟨_, he, hout⟩ := ih (.expr he) hs
        cases hout with
        | value _ hm =>
          obtain ⟨_, hes, houts⟩ := ihs (.exprs hes) hm.alike
          cases houts with
          | values _ hm' => exact ⟨_, .cons he hes, .values _ (hm.trans hm')⟩
  | consHead _ habort ih =>
    cases hren with
    | exprs he =>
      cases he with
      | cons he hes =>
        obtain ⟨_, he, hout⟩ := ih (.expr he) hs
        exact ⟨_, .consHead he (hout.aborts habort), hout⟩
  | consTail _ _ habort ih ihs =>
    cases hren with
    | exprs he =>
      cases he with
      | cons he hes =>
        obtain ⟨_, he, hout⟩ := ih (.expr he) hs
        cases hout with
        | value _ hm =>
          obtain ⟨_, hes, houts⟩ := ihs (.exprs hes) hm.alike
          exact ⟨_, .consTail he hes (houts.aborts habort), houts.trans hm⟩
  | targetName =>
    cases hren with
    | target ha =>
      cases ha
      exact ⟨_, .targetName _ _, .callee _ (.refl hs)⟩
  | targetEseq _ _ ihst iha =>
    cases hren with
    | target ha =>
      cases ha with
      | eseq hin hst hk ha =>
        obtain ⟨_, hst, houtst⟩ := ihst (.stmt (fun l l' h => (hin l l' h).1) hst) hs
        cases houtst with
        | done hm =>
          obtain ⟨_, ha, hout⟩ := iha (.target ha) hm.alike
          exact ⟨_, .targetEseq hst ha, (hout.trans hm).mono hk⟩
  | targetAbort hrun habort ih =>
    cases hren with
    | target ha =>
      cases ha with
      | eseq hin hst hk ha =>
        obtain ⟨_, hst, hout⟩ := ih (.stmt (fun l l' h => (hin l l' h).1) hst) hs
        have hst' := fun e => Eval.targetAbort (e := e) hst (hout.aborts habort)
        cases hout with
        | jump hl => exact (Mid.not_mem_flatten_of_jump hrun (hin _ _ hl).2).elim
        | trap => exact ⟨_, hst' _, .trap⟩
        | cut => exact ⟨_, hst' _, .cut⟩
        | value => cases habort
        | values => cases habort
        | callee => cases habort
        | done => cases habort
  | moveTemp _ ih =>
    cases hren with
    | stmt _ hst =>
      cases hst with
      | moveTemp hxy he hk =>
        obtain ⟨_, he, hout⟩ := ih (.expr he) hs
        cases hout with
        | value _ hm => exact ⟨_, .moveTemp he, .done ((hm.set hxy _).mono hk)⟩
  | moveTempAbort _ habort ih =>
    cases hren with
    | stmt _ hst =>
      cases hst with
      | moveTemp _ he _ =>
        obtain ⟨_, he, hout⟩ := ih (.expr he) hs
        exact ⟨_, .moveTempAbort he (hout.aborts habort), hout.abort habort⟩
  | moveMem _ _ hw iha ihe =>
    cases hren with
    | stmt _ hst =>
      cases hst with
      | moveMem ha he hk =>
        obtain ⟨_, ha, houta⟩ := iha (.expr ha) hs
        cases houta with
        | value _ hm =>
          obtain ⟨_, he, hout⟩ := ihe (.expr he) hm.alike
          cases hout with
          | value _ hm' =>
            exact ⟨_, .moveMem ha he (hm'.alike.mem ▸ hw),
              .done (((hm.trans hm').write _).mono hk)⟩
  | moveMemFault _ _ hw iha ihe =>
    cases hren with
    | stmt _ hst =>
      cases hst with
      | moveMem ha he _ =>
        obtain ⟨_, ha, houta⟩ := iha (.expr ha) hs
        cases houta with
        | value _ hm =>
          obtain ⟨_, he, hout⟩ := ihe (.expr he) hm.alike
          cases hout with
          | value _ hm' => exact ⟨_, .moveMemFault ha he (hm'.alike.mem ▸ hw), .trap⟩
  | moveMemAddress _ habort ih =>
    cases hren with
    | stmt _ hst =>
      cases hst with
      | moveMem ha _ _ =>
        obtain ⟨_, ha, hout⟩ := ih (.expr ha) hs
        exact ⟨_, .moveMemAddress ha (hout.aborts habort), hout.abort habort⟩
  | moveMemSource _ _ habort iha ihe =>
    cases hren with
    | stmt _ hst =>
      cases hst with
      | moveMem ha he _ =>
        obtain ⟨_, ha, houta⟩ := iha (.expr ha) hs
        cases houta with
        | value _ hm =>
          obtain ⟨_, he, hout⟩ := ihe (.expr he) hm.alike
          exact ⟨_, .moveMemSource ha he (hout.aborts habort), (hout.trans hm).abort habort⟩
  | moveEseq =>
    cases hren with
    | stmt _ hst => cases hst
  | moveEseqAbort =>
    cases hren with
    | stmt _ hst => cases hst
  | seq _ ih =>
    cases hren with
    | stmt hj hst =>
      cases hst with
      | seq hblock =>
        obtain ⟨_, hcode, hout⟩ := ih (.code hj hblock.flattenAll hblock.flattenAll) hs
        exact ⟨_, .seq hcode, hout⟩
  | jump =>
    cases hren with
    | stmt _ hst =>
      cases hst with
      | jump hl hk => exact ⟨_, .jump _ _, .jump hl (.refl (hs.mono hk))⟩
  | cjumpTrue _ hne ih =>
    cases hren with
    | stmt _ hst =>
      cases hst with
      | cjump hg ht hkt _ _ =>
        obtain ⟨_, hg, hout⟩ := ih (.expr hg) hs
        cases hout with
        | value _ hm => exact ⟨_, .cjumpTrue hg hne, .jump ht (hm.mono hkt)⟩
  | cjumpFalse _ ih =>
    cases hren with
    | stmt _ hst =>
      cases hst with
      | cjump hg _ _ hf hkf =>
        obtain ⟨_, hg, hout⟩ := ih (.expr hg) hs
        cases hout with
        | value _ hm => exact ⟨_, .cjumpFalse hg, .jump hf (hm.mono hkf)⟩
  | cjumpFall =>
    cases hren with
    | stmt _ hst => cases hst
  | cjumpAbort _ habort ih =>
    cases hren with
    | stmt _ hst =>
      cases hst with
      | cjump hg _ _ _ _ =>
        obtain ⟨_, hg, hout⟩ := ih (.expr hg) hs
        exact ⟨_, .cjumpAbort hg (hout.aborts habort), hout.abort habort⟩
  | label =>
    cases hren with
    | stmt _ hst =>
      cases hst with
      | label _ hk hk' => exact ⟨_, .label _ _, .done (.refl (hs.mono (hk'.trans hk)))⟩
  | callStmt _ hlen ih =>
    cases hren with
    | stmt _ hst =>
      cases hst with
      | callStmt _ _ hargs hk =>
        obtain ⟨_, hargs, hout⟩ := ih (.exprs hargs) hs
        cases hout with
        | values _ hm =>
          exact ⟨_, .callStmt hargs hlen, .done ((hm.setReturns 1 _ _).mono hk)⟩
  | callStmtAbort _ habort ih =>
    cases hren with
    | stmt _ hst =>
      cases hst with
      | callStmt _ _ hargs _ =>
        obtain ⟨_, hargs, hout⟩ := ih (.exprs hargs) hs
        exact ⟨_, .callStmtAbort hargs (hout.aborts habort), hout.abort habort⟩
  | ret =>
    cases hren with
    | stmt _ hst => cases hst
  | retAbort =>
    cases hren with
    | stmt _ hst => cases hst
  | exp =>
    cases hren with
    | stmt _ hst => cases hst
  | expAbort =>
    cases hren with
    | stmt _ hst => cases hst
  | codeNil =>
    cases hren with
    | code _ _ hrest =>
      cases hrest
      exact ⟨_, .codeNil _ _, .done (.refl hs)⟩
  | codeCons _ _ ihst ihrest =>
    cases hren with
    | code hj hblock hrest =>
      cases hrest with
      | cons hst hrest =>
        obtain ⟨_, hst, houtst⟩ := ihst (.stmt hj hst) hs
        cases houtst with
        | done hm =>
          obtain ⟨_, hcode, hout⟩ := ihrest (.code hj hblock hrest) hm.alike
          exact ⟨_, .codeCons hst hcode, hout.trans hm⟩
  | codeGoto _ hfind _ ihst ihrest =>
    cases hren with
    | code hj hblock hrest =>
      cases hrest with
      | cons hst hrest =>
        obtain ⟨_, hst, houtst⟩ := ihst (.stmt hj hst) hs
        cases houtst with
        | jump hl hm =>
          obtain ⟨hnone, -⟩ | ⟨rest, rest', known₁, hsome, hsome', hk, hrest'⟩ :=
            hblock.findLabel (hj _ _ hl)
          · rw [hnone] at hfind
            cases hfind
          · rw [hsome] at hfind
            cases hfind
            obtain ⟨_, hcode, hout⟩ := ihrest (.code hj hblock hrest') (hm.alike.mono hk)
            exact ⟨_, .codeGoto hst hsome' hcode, hout.trans hm⟩
  | codeJump _ hfind ihst =>
    cases hren with
    | code hj hblock hrest =>
      cases hrest with
      | cons hst hrest =>
        obtain ⟨_, hst, houtst⟩ := ihst (.stmt hj hst) hs
        cases houtst with
        | jump hl hm =>
          obtain ⟨-, hnone⟩ | ⟨rest, rest', known₁, hsome, -, -⟩ := hblock.findLabel (hj _ _ hl)
          · exact ⟨_, .codeJump hst hnone, .jump hl hm⟩
          · rw [hsome] at hfind
            cases hfind
  | codeRet _ ihst =>
    cases hren with
    | code hj hblock hrest =>
      cases hrest with
      | cons hst hrest =>
        obtain ⟨_, hst, houtst⟩ := ihst (.stmt hj hst) hs
        cases houtst
  | codeTrap _ ihst =>
    cases hren with
    | code hj hblock hrest =>
      cases hrest with
      | cons hst hrest =>
        obtain ⟨_, hst, houtst⟩ := ihst (.stmt hj hst) hs
        cases houtst
        exact ⟨_, .codeTrap hst, .trap⟩
  | codeCut _ ihst =>
    cases hren with
    | code hj hblock hrest =>
      cases hrest with
      | cons hst hrest =>
        obtain ⟨_, hst, houtst⟩ := ihst (.stmt hj hst) hs
        cases houtst
        exact ⟨_, .codeCut hst, .cut⟩

end Renaming

end Jaek
