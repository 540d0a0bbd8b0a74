import Jaek.IR.IRLowerer

/-!
# The shape of lowered code

Which temps an expression reads and assigns, before and after lowering. `Separate` is a condition on
the mid-level code under which lowering may move an operand behind the statements of a later one: no
operand assigns a temp that the one before it reads.
-/

namespace Jaek

/-! ## What an expression reads and assigns -/

mutual

/-- The temp is read in the expression. -/
def IRExpr.Reads (x : String) : IRExpr → Prop
  | .const _ => False
  | .temp y => x = y
  | .op _ left right => left.Reads x ∨ right.Reads x
  | .mem address => address.Reads x
  | .call address args => address.Reads x ∨ IRExpr.ReadsAny x args
  | .name _ => False
  | .eseq statement value => statement.Reads x ∨ value.Reads x

/-- Some expression of a list reads the temp. -/
def IRExpr.ReadsAny (x : String) : List IRExpr → Prop
  | [] => False
  | e :: es => e.Reads x ∨ IRExpr.ReadsAny x es

/-- The temp is read for the destination of a move. -/
def IRExpr.DestReads (x : String) : IRExpr → Prop
  | .temp _ => False
  | .mem address => address.Reads x
  | .eseq statement value => statement.Reads x ∨ value.DestReads x
  | _ => False

/-- A statement reads the temp. -/
def IRStmt.Reads (x : String) : IRStmt → Prop
  | .move dest expr => dest.DestReads x ∨ expr.Reads x
  | .seq block => IRStmt.ReadsAny x block
  | .jump _ => False
  | .cjump guard _ _ => guard.Reads x
  | .label _ => False
  | .callStmt _ _ args => IRExpr.ReadsAny x args
  | .ret valList => IRExpr.ReadsAny x valList
  | .exp expr => expr.Reads x

/-- Some statement of a list reads it. -/
def IRStmt.ReadsAny (x : String) : List IRStmt → Prop
  | [] => False
  | st :: rest => st.Reads x ∨ IRStmt.ReadsAny x rest

end

/-- The temp holds a result of a call with `n` results. -/
def IsReturn (n : ℕ) (x : String) : Prop := ∃ i, 1 ≤ i ∧ i ≤ n ∧ x = retTemp i

mutual

/-- The temp is assigned in the expression. -/
def IRExpr.Assigns (x : String) : IRExpr → Prop
  | .const _ => False
  | .temp _ => False
  | .op _ left right => left.Assigns x ∨ right.Assigns x
  | .mem address => address.Assigns x
  | .call address args => address.Assigns x ∨ IRExpr.AssignsAny x args ∨ IsReturn 1 x
  | .name _ => False
  | .eseq statement value => statement.Assigns x ∨ value.Assigns x

/-- Some expression of a list assigns the temp. -/
def IRExpr.AssignsAny (x : String) : List IRExpr → Prop
  | [] => False
  | e :: es => e.Assigns x ∨ IRExpr.AssignsAny x es

/-- The temp is assigned by a move to the destination. -/
def IRExpr.DestAssigns (x : String) : IRExpr → Prop
  | .temp y => x = y
  | .mem address => address.Assigns x
  | .eseq statement value => statement.Assigns x ∨ value.DestAssigns x
  | _ => False

/-- A statement assigns the temp. -/
def IRStmt.Assigns (x : String) : IRStmt → Prop
  | .move dest expr => dest.DestAssigns x ∨ expr.Assigns x
  | .seq block => IRStmt.AssignsAny x block
  | .jump _ => False
  | .cjump guard _ _ => guard.Assigns x
  | .label _ => False
  | .callStmt _ n args => IRExpr.AssignsAny x args ∨ IsReturn n x
  | .ret valList => IRExpr.AssignsAny x valList
  | .exp expr => expr.Assigns x

/-- Some statement of a list assigns it. -/
def IRStmt.AssignsAny (x : String) : List IRStmt → Prop
  | [] => False
  | st :: rest => st.Assigns x ∨ IRStmt.AssignsAny x rest

end

mutual

/-- No temp of the lowerer occurs, and no operand assigns a temp that the one before it reads. -/
def IRExpr.Separate : IRExpr → Prop
  | .const _ => True
  | .temp x => ∀ j, x ≠ IRLowerer.freshName j
  | .op _ left right => left.Separate ∧ right.Separate ∧ ∀ x, left.Reads x → ¬right.Assigns x
  | .mem address => address.Separate
  | .call address args => address.Separate ∧ IRExpr.SeparateAll args
  | .name _ => True
  | .eseq statement value => statement.Separate ∧ value.Separate

/-- Every expression of a list is separate. -/
def IRExpr.SeparateAll : List IRExpr → Prop
  | [] => True
  | e :: es => e.Separate ∧ IRExpr.SeparateAll es

/-- A statement reads nothing on the left of an evaluation that changes it. -/
def IRStmt.Separate : IRStmt → Prop
  | .move dest expr =>
    dest.Separate ∧ expr.Separate ∧ ∀ x, dest.DestReads x → ¬expr.Assigns x
  | .seq block => IRStmt.SeparateAll block
  | .jump _ => True
  | .cjump guard _ _ => guard.Separate
  | .label _ => True
  | .callStmt _ _ args => IRExpr.SeparateAll args
  | .ret valList => IRExpr.SeparateAll valList
  | .exp expr => expr.Separate

/-- Every statement of a list is separate. -/
def IRStmt.SeparateAll : List IRStmt → Prop
  | [] => True
  | st :: rest => st.Separate ∧ IRStmt.SeparateAll rest

end

/-! ## What flat statements leave alone -/

/-- A lowered expression loads a word. -/
def LIRExpr.UsesMem : LIRExpr → Prop
  | .const _ => False
  | .temp _ => False
  | .name _ => False
  | .mem _ => True
  | .op _ left right => left.UsesMem ∨ right.UsesMem

/-- The temp is assigned by the statement. -/
def FlatStmt.Assigns (x : String) : FlatStmt → Prop
  | .move (.temp y) _ => x = y
  | .callStmt _ n _ => IsReturn n x
  | _ => False

/-- A flat statement may change the memory. A call does, whatever the callee is. -/
def FlatStmt.WritesMem : FlatStmt → Prop
  | .move (.mem _) _ => True
  | .callStmt _ _ _ => True
  | _ => False

/-- The statement changes nothing the expression reads. -/
def FlatStmt.Leaves (p : LIRExpr) (st : FlatStmt) : Prop :=
  (p.UsesMem → ¬st.WritesMem) ∧ ∀ x, p.Reads x → ¬st.Assigns x

variable {M : Type*} {S : Storage M}

/-- The value of an expression depends on the temps it reads, and on the memory when it loads. -/
theorem LIRExpr.eval_congr {p : LIRExpr} {s s' : Store M}
    (htemps : ∀ x, p.Reads x → s'.temps x = s.temps x) (hmem : p.UsesMem → s'.mem = s.mem) :
    p.eval S s' = p.eval S s := by
  induction p with
  | const value => rfl
  | temp x => rw [eval, eval, htemps x rfl]
  | name l => rfl
  | mem address ih =>
    rw [eval, eval, hmem trivial, ih htemps fun _ => hmem trivial]
  | op o left right ihl ihr =>
    rw [eval, eval, ihl (fun x hx => htemps x (.inl hx)) fun h => hmem (.inl h),
      ihr (fun x hx => htemps x (.inr hx)) fun h => hmem (.inr h)]

/-- A temp that is no result temp keeps its value in a call. -/
theorem setReturns_of_not_isReturn {x : String} {i n : ℕ} {rets : List Word}
    {temps : String → Word} (hi : 1 ≤ i) (hn : i + rets.length ≤ n + 1) (hx : ¬IsReturn n x) :
    setReturns i rets temps x = temps x := by
  induction rets generalizing i temps with
  | nil => rfl
  | cons v rets ih =>
    rw [List.length_cons] at hn
    rw [setReturns, ih (by omega) (by omega)]
    exact Function.update_of_ne (fun heq => hx ⟨i, hi, by omega, heq⟩) _ _

/-- A statement that leaves an expression alone does not change its value. -/
theorem FlatStmt.Leaves.eval_eq {p : LIRExpr} {st : FlatStmt} {s s' : Store M} {e : Event M}
    (h : st.Leaves p) (hexec : Exec S st s e s') : p.eval S s' = p.eval S s := by
  obtain ⟨hwrites, hassigns⟩ := h
  cases hexec with
  | moveTemp hv =>
    exact LIRExpr.eval_congr (fun y hy => Function.update_of_ne (hassigns y hy) _ _) fun _ => rfl
  | moveMem hp hv hw => exact LIRExpr.eval_congr (fun _ _ => rfl) fun hmem => (hwrites hmem trivial).elim
  | call hargs hlen =>
    apply LIRExpr.eval_congr
    · intro x hx
      exact setReturns_of_not_isReturn le_rfl (by omega) (hassigns x hx)
    · exact fun hmem => (hwrites hmem trivial).elim

namespace IRLowerer

variable {globals : List String}

/-! ## The shape of lowered code -/

/-- A temp the lowerer has handed out while its counter went from `k` to `k'`. -/
def Fresh (k k' : ℕ) (x : String) : Prop := ∃ j, k < j ∧ j ≤ k' ∧ x = freshName j

/-- A wider range of the counter has more fresh temps. -/
theorem Fresh.mono {k k' k₁ k₁' : ℕ} {x : String} (h : Fresh k k' x) (hk : k₁ ≤ k) (hk' : k' ≤ k₁') :
    Fresh k₁ k₁' x := by
  obtain ⟨j, hj, hj', rfl⟩ := h
  exact ⟨j, by omega, by omega, rfl⟩

/-- The next temp is fresh. -/
theorem fresh_succ (k : ℕ) : Fresh k (k + 1) (freshName (k + 1)) := ⟨k + 1, by omega, le_rfl, rfl⟩

/-- Different counts give different temps. -/
theorem freshName_inj {j k : ℕ} (h : freshName j = freshName k) : j = k := by
  have hrepr : toString j = toString k := by simpa [freshName] using h
  exact Nat.repr_inj.mp hrepr

/-- The fresh temps of two successive ranges differ. -/
theorem Fresh.disjoint {k k₁ k₂ : ℕ} {x : String} (h : Fresh k k₁ x) : ¬Fresh k₁ k₂ x := by
  obtain ⟨j, hj, hj', rfl⟩ := h
  rintro ⟨i, hi, hi', heq⟩
  have := freshName_inj heq
  omega

/-- The counter only grows, and the statements assign what the source assigns and fresh temps. -/
structure Shape (assigns : String → Prop) (stmts : List FlatStmt) (k k' : ℕ) : Prop where
  le : k ≤ k'
  assigns : ∀ st ∈ stmts, ∀ x, st.Assigns x → assigns x ∨ Fresh k k' x

namespace Shape

variable {as as' : String → Prop} {stmts stmts' : List FlatStmt} {k k₁ k₂ : ℕ}

/-- No code takes no temp. -/
theorem nil (as : String → Prop) (k : ℕ) : Shape as [] k k := ⟨le_rfl, by simp⟩

/-- Two pieces of code in a row, with the counter passed on. -/
theorem append (h : Shape as stmts k k₁) (h' : Shape as' stmts' k₁ k₂) :
    Shape (fun x => as x ∨ as' x) (stmts ++ stmts') k k₂ := by
  refine ⟨h.le.trans h'.le, fun st hst x hx => ?_⟩
  rcases List.mem_append.mp hst with hst | hst
  · exact (h.assigns st hst x hx).imp .inl fun hf => hf.mono le_rfl h'.le
  · exact (h'.assigns st hst x hx).imp .inr fun hf => hf.mono h.le le_rfl

/-- More temps may be allowed to be assigned. -/
theorem imp (h : Shape as stmts k k₁) (himp : ∀ x, as x → as' x) : Shape as' stmts k k₁ :=
  ⟨h.le, fun st hst x hx => (h.assigns st hst x hx).imp_left (himp x)⟩

/-- Saving a value. -/
theorem save (as : String → Prop) (e : LIRExpr) (k : ℕ) :
    Shape as [.move (freshTemp (k + 1)) e] k (k + 1) := by
  refine ⟨by omega, fun st hst x hx => .inr ?_⟩
  rw [List.mem_singleton.mp hst] at hx
  cases hx
  exact fresh_succ k

/-- A further statement that uses no fresh temp. -/
theorem snoc (h : Shape as stmts k k₁) {st : FlatStmt} (hst : ∀ x, st.Assigns x → as x) :
    Shape as (stmts ++ [st]) k k₁ := by
  refine ⟨h.le, fun st' hst' x hx => ?_⟩
  rcases List.mem_append.mp hst' with hst' | hst'
  · exact h.assigns st' hst' x hx
  · rw [List.mem_singleton.mp hst'] at hx
    exact .inl (hst x hx)

end Shape

/-- The shape of a lowered expression: what is left of it reads what the source reads and fresh
temps. -/
structure ExprShape (e : IRExpr) (stmts : List FlatStmt) (e' : LIRExpr) (k k' : ℕ) : Prop where
  shape : Shape (fun x => e.Assigns x) stmts k k'
  reads : ∀ x, e'.Reads x → e.Reads x ∨ Fresh k k' x

mutual

/-- The code of an expression assigns the temps that the expression assigns and fresh ones, and what it
leaves behind reads no others than the expression and fresh ones. -/
theorem lowerExpr_shape : (e : IRExpr) → {k k' : ℕ} → {stmts : List FlatStmt} → {e' : LIRExpr} →
    lowerExpr globals e k = some (stmts, e', k') → ExprShape e stmts e' k k'
  | .const value, k, _, _, _, h => by
    cases h
    exact ⟨.nil _ k, fun x hx => hx.elim⟩
  | .temp y, k, _, _, _, h => by
    cases h
    exact ⟨.nil _ k, fun x hx => .inl hx⟩
  | .name l, k, _, _, _, h => by
    cases h
    exact ⟨.nil _ k, fun x hx => hx.elim⟩
  | .mem address, k, _, _, _, h => by
    obtain ⟨⟨stmts, e', k'⟩, haddress, h⟩ := Option.bind_eq_some_iff.mp h
    cases h
    obtain ⟨hshape, hreads⟩ := lowerExpr_shape address haddress
    exact ⟨hshape, hreads⟩
  | .op o left right, k, _, _, _, h => by
    obtain ⟨⟨leftStmt, leftExpr, k₁⟩, hleft, h⟩ := Option.bind_eq_some_iff.mp h
    obtain ⟨⟨rightStmt, rightExpr, k₂⟩, hright, h⟩ := Option.bind_eq_some_iff.mp h
    obtain ⟨comm, -, h⟩ := Option.bind_eq_some_iff.mp h
    obtain ⟨hl, hlreads⟩ := lowerExpr_shape left hleft
    obtain ⟨hr, hrreads⟩ := lowerExpr_shape right hright
    -- What is left of the right operand reads fresh temps of its own part of the counter.
    have hrreads' (x : String) (hx : rightExpr.Reads x) :
        (IRExpr.op o left right).Reads x ∨ Fresh k k₂ x :=
      (hrreads x hx).imp .inr fun hf => hf.mono hl.le le_rfl
    cases comm with
    | true =>
      cases h
      exact ⟨hl.append hr, fun x hx => hx.elim
        (fun hx => (hlreads x hx).imp .inl fun hf => hf.mono le_rfl hr.le) (hrreads' x)⟩
    -- The left operand is saved in the next fresh temp.
    | false =>
      cases h
      refine ⟨⟨by have := hl.le; have := hr.le; omega, fun st hst x hx => ?_⟩, fun x hx => ?_⟩
      · rcases List.mem_append.mp hst with hst | hst
        · exact (hl.assigns st hst x hx).imp .inl fun hf => hf.mono le_rfl (hr.le.trans (by omega))
        · rcases List.mem_cons.mp hst with rfl | hst
          · cases hx
            exact .inr ((fresh_succ k₂).mono (hl.le.trans hr.le) le_rfl)
          · exact (hr.assigns st hst x hx).imp .inr fun hf => hf.mono hl.le (by omega)
      · rcases hx with hx | hx
        · cases hx
          exact .inr ((fresh_succ k₂).mono (hl.le.trans hr.le) le_rfl)
        · exact (hrreads' x hx).imp_right fun hf => hf.mono le_rfl (by omega)
  | .call address args, k, _, _, _, h => by
    obtain ⟨⟨s0, e0, k₁⟩, haddress, h⟩ := Option.bind_eq_some_iff.mp h
    cases e0 with
    | name f =>
      obtain ⟨⟨stmts, temps, k₂⟩, hargs, h⟩ := Option.bind_eq_some_iff.mp h
      cases h
      have hcall : Shape (IsReturn 1) [.callStmt f 1 temps] k₂ k₂ :=
        (Shape.nil _ k₂).snoc fun _ hx => hx
      have hshape := ((lowerExpr_shape address haddress).shape.append (lowerArgs_shape args hargs)).append
        (hcall.append (.save (fun _ => False) (.temp (retTemp 1)) k₂))
      refine ⟨hshape.imp fun x hx => ?_, fun x hx => ?_⟩
      · rcases hx with (hx | hx) | hx | hx
        · exact .inl hx
        · exact .inr (.inl hx)
        · exact .inr (.inr hx)
        · exact hx.elim
      · cases hx
        exact .inr ((fresh_succ k₂).mono ((lowerExpr_shape address haddress).shape.le.trans
          (lowerArgs_shape args hargs).le) le_rfl)
    | _ => cases h
  | .eseq statement value, k, _, _, _, h => by
    obtain ⟨⟨stmts, k₁⟩, hst, h⟩ := Option.bind_eq_some_iff.mp h
    obtain ⟨⟨stmt, expr, k₂⟩, hvalue, h⟩ := Option.bind_eq_some_iff.mp h
    cases h
    have hs := lowerStatement_shape statement hst
    obtain ⟨hv, hreads⟩ := lowerExpr_shape value hvalue
    exact ⟨hs.append hv, fun x hx => (hreads x hx).imp .inr fun hf => hf.mono hs.le le_rfl⟩

/-- The same of the arguments of a call. -/
theorem lowerArgs_shape : (es : List IRExpr) → {k k' : ℕ} → {stmts : List FlatStmt} →
    {temps : List LIRExpr} → lowerArgs globals es k = some (stmts, temps, k') →
    Shape (fun x => IRExpr.AssignsAny x es) stmts k k'
  | [], k, _, _, _, h => by
    cases h
    exact .nil _ k
  | arg :: args, k, _, _, _, h => by
    obtain ⟨⟨si, ei, k₁⟩, harg, h⟩ := Option.bind_eq_some_iff.mp h
    obtain ⟨⟨stmts, temps, k₂⟩, hargs, h⟩ := Option.bind_eq_some_iff.mp h
    cases h
    have hsave := Shape.save (fun x => IRExpr.AssignsAny x args) ei k₁
    have htail := (hsave.append (lowerArgs_shape args hargs)).imp fun _ hx => hx.elim id id
    exact (lowerExpr_shape arg harg).shape.append htail

/-- The same of returned expressions. -/
theorem lowerExprs_shape : (es : List IRExpr) → {k k' : ℕ} →
    {pairs : List (List FlatStmt × LIRExpr)} → lowerExprs globals es k = some (pairs, k') →
    Shape (fun x => IRExpr.AssignsAny x es) (pairs.flatMap (·.1)) k k'
  | [], k, _, _, h => by
    cases h
    exact .nil _ k
  | e :: es, k, _, _, h => by
    obtain ⟨⟨stmts, expr, k₁⟩, he, h⟩ := Option.bind_eq_some_iff.mp h
    obtain ⟨⟨rest, k₂⟩, hes, h⟩ := Option.bind_eq_some_iff.mp h
    cases h
    exact (lowerExpr_shape e he).shape.append (lowerExprs_shape es hes)

/-- The same of a statement. -/
theorem lowerStatement_shape : (st : IRStmt) → {k k' : ℕ} → {stmts : List FlatStmt} →
    lowerStatement globals st k = some (stmts, k') → Shape (fun x => st.Assigns x) stmts k k'
  | .cjump guard t f, k, _, _, h => by
    obtain ⟨⟨stmts, expr, k₁⟩, hguard, h⟩ := Option.bind_eq_some_iff.mp h
    have hg := (lowerExpr_shape guard hguard).shape
    cases f with
    | some f =>
      cases h
      exact hg.snoc fun _ hx => hx.elim
    | none =>
      cases h
      exact hg.snoc fun _ hx => hx.elim
  | .exp expr, k, _, _, h => by
    obtain ⟨⟨stmts, e', k₁⟩, hexpr, h⟩ := Option.bind_eq_some_iff.mp h
    cases h
    exact (lowerExpr_shape expr hexpr).shape
  | .jump address, k, _, _, h => by
    cases h
    exact (Shape.nil _ k).snoc fun _ hx => hx
  | .label l, k, _, _, h => by
    cases h
    exact (Shape.nil _ k).snoc fun _ hx => hx
  | .move dest expr, k, _, _, h =>
    factorMoveTarget_shape dest (fun _ _ _ _ hexpr => (lowerExpr_shape expr hexpr).shape) h
  | .ret valList, k, _, _, h => by
    obtain ⟨⟨pairs, k₁⟩, hvals, h⟩ := Option.bind_eq_some_iff.mp h
    cases h
    exact (lowerExprs_shape valList hvals).snoc fun _ hx => hx.elim
  | .seq block, k, _, _, h => lowerBlock_shape block h
  | .callStmt address n args, k, _, _, h => by
    obtain ⟨⟨stmts, temps, k₁⟩, hargs, h⟩ := Option.bind_eq_some_iff.mp h
    cases h
    exact ((lowerArgs_shape args hargs).imp fun _ hx => .inl hx).snoc fun _ hx => .inr hx

/-- The same of a list of statements. -/
theorem lowerBlock_shape : (block : List IRStmt) → {k k' : ℕ} → {stmts : List FlatStmt} →
    lowerBlock globals block k = some (stmts, k') →
    Shape (fun x => IRStmt.AssignsAny x block) stmts k k'
  | [], k, _, _, h => by
    cases h
    exact .nil _ k
  | st :: rest, k, _, _, h => by
    obtain ⟨⟨stmts, k₁⟩, hst, h⟩ := Option.bind_eq_some_iff.mp h
    obtain ⟨⟨stmts', k₂⟩, hrest, h⟩ := Option.bind_eq_some_iff.mp h
    cases h
    exact (lowerStatement_shape st hst).append (lowerBlock_shape rest hrest)

/-- The same of a move, given that of its source. -/
theorem factorMoveTarget_shape : (dest : IRExpr) →
    {arg : ℕ → Option (List FlatStmt × LIRExpr × ℕ)} → {as : String → Prop} →
    (∀ k stmts e' k', arg k = some (stmts, e', k') → Shape as stmts k k') →
    {k k' : ℕ} → {stmts : List FlatStmt} →
    factorMoveTarget globals dest arg k = some (stmts, k') →
    Shape (fun x => dest.DestAssigns x ∨ as x) stmts k k'
  | .temp y, arg, as, harg, k, _, _, h => by
    obtain ⟨⟨e2Stmts, e2, k₁⟩, he2, h⟩ := Option.bind_eq_some_iff.mp h
    cases h
    exact ((harg _ _ _ _ he2).imp fun _ hx => .inr hx).snoc fun _ hx => .inl hx
  | .mem address, arg, as, harg, k, _, _, h => by
    obtain ⟨⟨e1Stmts, e1, k₁⟩, he1, h⟩ := Option.bind_eq_some_iff.mp h
    obtain ⟨⟨e2Stmts, e2, k₂⟩, he2, h⟩ := Option.bind_eq_some_iff.mp h
    obtain ⟨comm, -, h⟩ := Option.bind_eq_some_iff.mp h
    have h1 := (lowerExpr_shape address he1).shape
    have h2 := harg _ _ _ _ he2
    have hboth := h1.append h2
    cases comm with
    | true =>
      cases h
      exact hboth.snoc fun _ hx => hx.elim
    -- the address is saved in a temporary, whose counter lies behind those of both sides
    | false =>
      cases h
      refine ⟨hboth.le.trans (by omega), fun st hst x hx => ?_⟩
      simp only [List.mem_append, List.mem_cons, List.not_mem_nil, or_false] at hst
      rcases hst with (hst | rfl | hst) | rfl
      · exact (hboth.assigns st (by simp [hst]) x hx).imp_right fun hf => hf.mono le_rfl (by omega)
      · cases hx
        exact .inr ((fresh_succ k₂).mono hboth.le le_rfl)
      · exact (hboth.assigns st (by simp [hst]) x hx).imp_right fun hf => hf.mono le_rfl (by omega)
      · exact hx.elim
  | .eseq statement value, arg, as, harg, k, _, _, h => by
    obtain ⟨⟨eseqStmts, k₁⟩, hst, h⟩ := Option.bind_eq_some_iff.mp h
    obtain ⟨⟨stmts, k₂⟩, hvalue, h⟩ := Option.bind_eq_some_iff.mp h
    cases h
    exact ((lowerStatement_shape statement hst).append
      (factorMoveTarget_shape value harg hvalue)).imp fun _ hx => or_assoc.mpr hx
  | .const _, _, _, _, _, _, _, h => by cases h
  | .op _ _ _, _, _, _, _, _, _, h => by cases h
  | .call _ _, _, _, _, _, _, _, h => by cases h
  | .name _, _, _, _, _, _, _, h => by cases h

end

/-! ## Temps of the lowerer -/

/-- The temps of return values are not fresh ones: they start with `_RV`. -/
theorem retTemp_ne_freshName (i j : ℕ) : retTemp i ≠ freshName j := by
  intro h
  have hlist := congrArg (fun x : String => x.toList.head?) h
  simp [retTemp, freshName] at hlist

/-- So no return value of a call is. -/
theorem isReturn_ne_freshName {n : ℕ} {x : String} (h : IsReturn n x) (j : ℕ) :
    x ≠ freshName j := by
  obtain ⟨i, -, -, rfl⟩ := h
  exact retTemp_ne_freshName i j

/-- A fresh temp is no temp of the program. -/
theorem Fresh.not_ne {k k' : ℕ} {x : String} (h : Fresh k k' x) (hx : ∀ j, x ≠ freshName j) :
    False := by
  obtain ⟨j, -, -, rfl⟩ := h
  exact hx j rfl

/-- A temp that is not handed out yet is left alone. -/
theorem Shape.leaves_fresh {as : String → Prop} {stmts : List FlatStmt} {k k' j : ℕ}
    (h : Shape as stmts k k') (has : ∀ x, as x → ∀ j, x ≠ freshName j) (hj : j ≤ k ∨ k' < j) :
    ∀ st ∈ stmts, st.Leaves (freshTemp j) := by
  refine fun st hst => ⟨fun hmem => hmem.elim, fun x hx hassigns => ?_⟩
  cases hx
  rcases h.assigns st hst _ hassigns with hx | ⟨i, hi, hi', heq⟩
  · exact has _ hx j rfl
  · have := freshName_inj heq
    omega

end IRLowerer

end Jaek
