import Jaek.IR.Commutes

/-!
# What lowering leaves of an expression

The statements of a lowered expression do what the expression does: they assign the temps that it moves to,
write memory or call if it does, and jump if it does (`Does`, `lowerExpr_does`). What is left of it behind
them still reads some of the temps and perhaps memory (`Left`, `lowerExpr_left`). An operand is left as it
is if nothing that `commutes` looks at is changed by the later one, and saved in a fresh temp if something is
(`Saved`).

`Ordered` is the condition on the mid-level code under which each operand keeps its value: it is saved, or the
later one assigns no temp that is left of it. The code is separate in particular if no operand assigns a temp
that the one before it reads (`IRExpr.Separate.ordered`).
-/

namespace Jaek

/-! ## Effects -/

/-- What statements do that `commutes` looks for. -/
inductive SideEffect
  | move (x : String)
  | write
  | jump

/-- The statement has the effect. -/
def FlatStmt.Does (st : FlatStmt) : SideEffect → Prop
  | .move x => ∃ e, st = .move (.temp x) e
  | .write => st.WritesMem
  | .jump => ∃ b, st = .endBlock b

mutual

/-- The code of the expression has the effect. -/
def IRExpr.Does (a : SideEffect) : IRExpr → Prop
  | .const _ => False
  | .temp _ => False
  | .op _ left right => left.Does a ∨ right.Does a
  | .mem address => address.Does a
  | .call address args => address.Does a ∨ IRExpr.DoesAny a args ∨ a = .write
  | .name _ => False
  | .eseq statement value => statement.Does a ∨ value.Does a

/-- Some expression of a list has the effect. -/
def IRExpr.DoesAny (a : SideEffect) : List IRExpr → Prop
  | [] => False
  | e :: es => e.Does a ∨ IRExpr.DoesAny a es

/-- A move to the destination has the effect. -/
def IRExpr.DestDoes (a : SideEffect) : IRExpr → Prop
  | .temp y => a = .move y
  | .mem address => address.Does a ∨ a = .write
  | .eseq statement value => statement.Does a ∨ value.DestDoes a
  | _ => False

/-- The effects of a statement, as it is lowered. -/
def IRStmt.Does (a : SideEffect) : IRStmt → Prop
  | .move dest expr => dest.DestDoes a ∨ expr.Does a
  | .seq block => IRStmt.DoesAny a block
  | .jump _ => a = .jump
  | .cjump guard _ _ => guard.Does a ∨ a = .jump
  | .label _ => False
  | .callStmt _ _ args => IRExpr.DoesAny a args ∨ a = .write
  | .ret valList => IRExpr.DoesAny a valList ∨ a = .jump
  | .exp expr => expr.Does a

/-- Some statement of a list has the effect. -/
def IRStmt.DoesAny (a : SideEffect) : List IRStmt → Prop
  | [] => False
  | st :: rest => st.Does a ∨ IRStmt.DoesAny a rest

end

/-! ## What is left -/

/-- Where an expression reads: a temp outside its memory accesses, a temp for an address, and memory. -/
inductive Spot
  | bare (x : String)
  | below (x : String)
  | mem

/-- The reads of a lowered expression, with the place they are in. -/
def LIRExpr.ReadsAt (e : LIRExpr) : Spot → Prop
  | .bare x => e.ReadsBare x
  | .below x => e.ReadsBelow x
  | .mem => e.UsesMem

/-- An operand that is left with these reads is saved in a fresh temp, as the later one has an effect on
something that `commutes` looks at. -/
def Saved (left : Spot → Prop) (right : IRExpr) : Prop :=
  right.Does .jump ∨ (∃ x, left (.bare x) ∧ right.Does (.move x)) ∨ (left .mem ∧ right.Does .write)

/-- What is left of the expression behind its statements reads there. -/
def IRExpr.Left : IRExpr → Spot → Prop
  | .const _, _ => False
  | .temp x, p => p = .bare x
  | .name _, _ => False
  | .mem address, p =>
    p = .mem ∨ ∃ x, p = .below x ∧ (address.Left (.bare x) ∨ address.Left (.below x))
  | .op _ left right, p => (left.Left p ∧ ¬Saved left.Left right) ∨ right.Left p
  | .call _ _, _ => False
  | .eseq _ value, p => value.Left p

/-- The temp is read by what is left of the expression. -/
def IRExpr.LeftTemp (e : IRExpr) (x : String) : Prop := e.Left (.bare x) ∨ e.Left (.below x)

/-- The operand is saved, or the later one assigns no temp that is left of it. -/
def IRExpr.Waits (left right : IRExpr) : Prop :=
  Saved left.Left right ∨ ∀ x, left.LeftTemp x → ¬right.Assigns x

/-- The address of the destination waits for the source. -/
def IRExpr.DestWaits : IRExpr → IRExpr → Prop
  | .mem address, right => address.Waits right
  | .eseq _ value, right => value.DestWaits right
  | _, _ => True

/-- A later expression changes nothing that is left of this one: it assigns none of its temps, and writes no
memory and calls nothing if a read of memory is left. -/
def IRExpr.Undisturbed (e later : IRExpr) : Prop :=
  (∀ x, e.LeftTemp x → ¬later.Assigns x) ∧ (e.Left .mem → ¬later.Does .write)

mutual

/-- No temp of the lowerer occurs, and every operand can wait for the later one. -/
def IRExpr.Ordered : IRExpr → Prop
  | .const _ => True
  | .temp x => ∀ j, x ≠ IRLowerer.freshName j
  | .op _ left right => left.Ordered ∧ right.Ordered ∧ left.Waits right
  | .mem address => address.Ordered
  | .call address args => address.Ordered ∧ IRExpr.OrderedAll args
  | .name _ => True
  | .eseq statement value => statement.Ordered ∧ value.Ordered

/-- Every expression of a list is ordered. The arguments wait in temps of their own, so nothing is asked of
one against the other. -/
def IRExpr.OrderedAll : List IRExpr → Prop
  | [] => True
  | e :: es => e.Ordered ∧ IRExpr.OrderedAll es

/-- The evaluation order is kept in a statement. -/
def IRStmt.Ordered : IRStmt → Prop
  | .move dest expr => dest.Ordered ∧ expr.Ordered ∧ dest.DestWaits expr
  | .seq block => IRStmt.OrderedAll block
  | .jump _ => True
  | .cjump guard _ _ => guard.Ordered
  | .label _ => True
  | .callStmt _ _ args => IRExpr.OrderedAll args
  | .ret valList => IRExpr.OrderedAll valList
  | .exp expr => expr.Ordered

/-- It is kept in every statement of a list. -/
def IRStmt.OrderedAll : List IRStmt → Prop
  | [] => True
  | st :: rest => st.Ordered ∧ IRStmt.OrderedAll rest

end

/-! ## Separate code is ordered -/

/-- What is left of an expression reads nothing new. -/
theorem IRExpr.reads_of_leftTemp {x : String} : (e : IRExpr) → e.LeftTemp x → e.Reads x
  | .const _, h => h.elim False.elim False.elim
  | .temp y, h => by
    rcases h with h | h
    · cases h
      rfl
    · cases h
  | .name _, h => h.elim False.elim False.elim
  | .mem address, h => by
    rcases h with (h | ⟨y, h, -⟩) | h | ⟨y, h, hleft⟩
    · cases h
    · cases h
    · cases h
    · cases h
      exact reads_of_leftTemp address hleft
  | .op _ left right, h => by
    rcases h with (⟨h, -⟩ | h) | ⟨h, -⟩ | h
    · exact .inl (reads_of_leftTemp left (.inl h))
    · exact .inr (reads_of_leftTemp right (.inl h))
    · exact .inl (reads_of_leftTemp left (.inr h))
    · exact .inr (reads_of_leftTemp right (.inr h))
  | .call _ _, h => h.elim False.elim False.elim
  | .eseq _ value, h => .inr (reads_of_leftTemp value h)

/-- A target whose reads are not assigned on the right waits for it. -/
theorem IRExpr.destWaits_of_separate : (d right : IRExpr) →
    (∀ x, d.DestReads x → ¬right.Assigns x) → d.DestWaits right
  | .const _, _, _ => trivial
  | .temp _, _, _ => trivial
  | .name _, _, _ => trivial
  | .mem address, _, h => .inr fun x hx => h x (address.reads_of_leftTemp hx)
  | .op _ _ _, _, _ => trivial
  | .call _ _, _, _ => trivial
  | .eseq _ value, right, h => value.destWaits_of_separate right fun x hx => h x (.inr hx)

mutual

/-- Where no operand assigns what the one before it reads, all operands keep their values. -/
theorem IRExpr.ordered_of_separate : (e : IRExpr) → e.Separate → e.Ordered
  | .const _, _ => trivial
  | .temp _, h => h
  | .name _, _ => trivial
  | .mem address, h => address.ordered_of_separate h
  | .op _ left right, h =>
    ⟨left.ordered_of_separate h.1, right.ordered_of_separate h.2.1,
      .inr fun x hx => h.2.2 x (left.reads_of_leftTemp hx)⟩
  | .call address args, h => ⟨address.ordered_of_separate h.1, IRExpr.orderedAll_of_separate args h.2⟩
  | .eseq statement value, h => ⟨statement.ordered_of_separate h.1, value.ordered_of_separate h.2⟩

/-- Separate expressions are ordered. -/
theorem IRExpr.orderedAll_of_separate : (es : List IRExpr) → IRExpr.SeparateAll es → IRExpr.OrderedAll es
  | [], _ => trivial
  | e :: es, h => ⟨e.ordered_of_separate h.1, IRExpr.orderedAll_of_separate es h.2⟩

/-- Separate statements are ordered. -/
theorem IRStmt.ordered_of_separate : (st : IRStmt) → st.Separate → st.Ordered
  | .move dest expr, h =>
    ⟨dest.ordered_of_separate h.1, expr.ordered_of_separate h.2.1, dest.destWaits_of_separate expr h.2.2⟩
  | .seq block, h => IRStmt.orderedAll_of_separate block h
  | .jump _, _ => trivial
  | .cjump guard _ _, h => guard.ordered_of_separate h
  | .label _, _ => trivial
  | .callStmt _ _ args, h => IRExpr.orderedAll_of_separate args h
  | .ret vals, h => IRExpr.orderedAll_of_separate vals h
  | .exp expr, h => expr.ordered_of_separate h

/-- A list of separate statements is ordered. -/
theorem IRStmt.orderedAll_of_separate : (block : List IRStmt) → IRStmt.SeparateAll block →
    IRStmt.OrderedAll block
  | [], _ => trivial
  | st :: rest, h => ⟨st.ordered_of_separate h.1, IRStmt.orderedAll_of_separate rest h.2⟩

end

namespace IRLowerer

variable {globals : List String}

/-! ## The effects of lowered code -/

/-- Up to moves to temps of the lowerer, the statements have these effects. -/
def Effects (does : SideEffect → Prop) (stmts : List FlatStmt) : Prop :=
  ∀ a, (∀ j, a ≠ .move (freshName j)) → ((∃ st ∈ stmts, st.Does a) ↔ does a)

namespace Effects

variable {does does' : SideEffect → Prop} {stmts stmts' : List FlatStmt}

/-- No code, no effect. -/
theorem nil : Effects (fun _ => False) [] := fun a _ => by simp

/-- The effects of two pieces of code in a row are those of either. -/
theorem append (h : Effects does stmts) (h' : Effects does' stmts') :
    Effects (fun a => does a ∨ does' a) (stmts ++ stmts') := by
  intro a ha
  refine Iff.trans ?_ (or_congr (h a ha) (h' a ha))
  simp only [List.mem_append, or_and_right, exists_or]

/-- The same effects in other words. -/
theorem congr (h : Effects does stmts) (heq : ∀ a, does a ↔ does' a) : Effects does' stmts :=
  fun a ha => (h a ha).trans (heq a)

/-- One statement. -/
theorem single {st : FlatStmt} (h : ∀ a, (∀ j, a ≠ .move (freshName j)) → (st.Does a ↔ does a)) :
    Effects does [st] := by
  intro a ha
  simp [h a ha]

/-- Saving a value. -/
theorem save (e : LIRExpr) (k : ℕ) : Effects (fun _ => False) [.move (freshTemp k) e] := by
  refine single fun a ha => ?_
  cases a with
  | move x =>
    have hx : freshName k ≠ x := fun hx => ha k (by rw [hx])
    simp [FlatStmt.Does, freshTemp, hx]
  | write => simp [FlatStmt.Does, freshTemp, FlatStmt.WritesMem]
  | jump => simp [FlatStmt.Does]

/-- A call is lowered to a write, since the callee may change the memory. -/
theorem call (f : String) (n : ℕ) (args : List LIRExpr) : Effects (· = .write) [.callStmt f n args] := by
  refine single fun a _ => ?_
  cases a <;> simp [FlatStmt.Does, FlatStmt.WritesMem]

/-- The end of a block leaves the straight line. -/
theorem endBlock (b : EndBlock) : Effects (· = .jump) [.endBlock b] := by
  refine single fun a _ => ?_
  cases a <;> simp [FlatStmt.Does, FlatStmt.WritesMem]

/-- A label has no effect. -/
theorem label (l : String) : Effects (fun _ => False) [.label l] := by
  refine single fun a _ => ?_
  cases a <;> simp [FlatStmt.Does, FlatStmt.WritesMem]

/-- A move to a temp assigns it. -/
theorem moveTemp (x : String) (e : LIRExpr) : Effects (· = .move x) [.move (.temp x) e] := by
  refine single fun a _ => ?_
  cases a <;> simp [FlatStmt.Does, FlatStmt.WritesMem, eq_comm]

/-- A move to memory writes. -/
theorem moveMem (address e : LIRExpr) : Effects (· = .write) [.move (.mem address) e] := by
  refine single fun a _ => ?_
  cases a <;> simp [FlatStmt.Does, FlatStmt.WritesMem]

end Effects

mutual

/-- The code of an expression has the effects of the expression. The induction goes over the syntax tree, as
the lowering does. -/
theorem lowerExpr_does : (e : IRExpr) → {k k' : ℕ} → {stmts : List FlatStmt} → {e' : LIRExpr} →
    lowerExpr globals e k = some (stmts, e', k') → Effects (fun a => e.Does a) stmts
  | .const value, _, _, _, _, h => by
    cases h
    exact .nil
  | .temp y, _, _, _, _, h => by
    cases h
    exact .nil
  | .name l, _, _, _, _, h => by
    cases h
    exact .nil
  | .mem address, _, _, _, _, h => by
    obtain ⟨⟨stmts, e', k'⟩, haddress, h⟩ := Option.bind_eq_some_iff.mp h
    cases h
    exact lowerExpr_does address haddress
  | .op o left right, _, _, _, _, h => by
    obtain ⟨⟨leftStmt, leftExpr, k₁⟩, hleft, h⟩ := Option.bind_eq_some_iff.mp h
    obtain ⟨⟨rightStmt, rightExpr, k₂⟩, hright, h⟩ := Option.bind_eq_some_iff.mp h
    obtain ⟨comm, -, h⟩ := Option.bind_eq_some_iff.mp h
    have hl := lowerExpr_does left hleft
    have hr := lowerExpr_does right hright
    cases comm with
    | true =>
      cases h
      exact hl.append hr
    | false =>
      cases h
      exact (hl.append ((Effects.save leftExpr (k₂ + 1)).append hr)).congr fun a => by rw [false_or]; rfl
  | .call address args, _, _, _, _, h => by
    obtain ⟨⟨s0, e0, k₁⟩, haddress, h⟩ := Option.bind_eq_some_iff.mp h
    cases e0 with
    | name f =>
      obtain ⟨⟨stmts, temps, k₂⟩, hargs, h⟩ := Option.bind_eq_some_iff.mp h
      cases h
      have hcall := (Effects.call f 1 temps).append (.save (.temp (retTemp 1)) (k₂ + 1))
      refine (((lowerExpr_does address haddress).append (lowerArgs_does args hargs)).append hcall).congr
        fun a => ?_
      rw [or_false, or_assoc]
      rfl
    | _ => cases h
  | .eseq statement value, _, _, _, _, h => by
    obtain ⟨⟨stmts, k₁⟩, hst, h⟩ := Option.bind_eq_some_iff.mp h
    obtain ⟨⟨stmt, expr, k₂⟩, hvalue, h⟩ := Option.bind_eq_some_iff.mp h
    cases h
    exact (lowerStatement_does statement hst).append (lowerExpr_does value hvalue)

/-- The code of the arguments has the effects of the arguments. -/
theorem lowerArgs_does : (es : List IRExpr) → {k k' : ℕ} → {stmts : List FlatStmt} →
    {temps : List LIRExpr} → lowerArgs globals es k = some (stmts, temps, k') →
    Effects (fun a => IRExpr.DoesAny a es) stmts
  | [], _, _, _, _, h => by
    cases h
    exact .nil
  | arg :: args, _, _, _, _, h => by
    obtain ⟨⟨si, ei, k₁⟩, harg, h⟩ := Option.bind_eq_some_iff.mp h
    obtain ⟨⟨stmts, temps, k₂⟩, hargs, h⟩ := Option.bind_eq_some_iff.mp h
    cases h
    have htail := (Effects.save ei (k₁ + 1)).append (lowerArgs_does args hargs)
    exact ((lowerExpr_does arg harg).append htail).congr fun a => by rw [false_or]; rfl

/-- The code of returned expressions has their effects. -/
theorem lowerExprs_does : (es : List IRExpr) → {k k' : ℕ} →
    {pairs : List (List FlatStmt × LIRExpr)} → lowerExprs globals es k = some (pairs, k') →
    Effects (fun a => IRExpr.DoesAny a es) (pairs.flatMap (·.1))
  | [], _, _, _, h => by
    cases h
    exact .nil
  | e :: es, _, _, _, h => by
    obtain ⟨⟨stmts, expr, k₁⟩, he, h⟩ := Option.bind_eq_some_iff.mp h
    obtain ⟨⟨rest, k₂⟩, hes, h⟩ := Option.bind_eq_some_iff.mp h
    cases h
    exact (lowerExpr_does e he).append (lowerExprs_does es hes)

/-- The code of a statement has the effects of the statement. -/
theorem lowerStatement_does : (st : IRStmt) → {k k' : ℕ} → {stmts : List FlatStmt} →
    lowerStatement globals st k = some (stmts, k') → Effects (fun a => st.Does a) stmts
  | .cjump guard t f, _, _, _, h => by
    obtain ⟨⟨stmts, expr, k₁⟩, hguard, h⟩ := Option.bind_eq_some_iff.mp h
    have hg := lowerExpr_does guard hguard
    cases f with
    | some f =>
      cases h
      exact hg.append (.endBlock _)
    | none =>
      cases h
      exact hg.append (.endBlock _)
  | .exp expr, _, _, _, h => by
    obtain ⟨⟨stmts, e', k₁⟩, hexpr, h⟩ := Option.bind_eq_some_iff.mp h
    cases h
    exact lowerExpr_does expr hexpr
  | .jump address, _, _, _, h => by
    cases h
    exact .endBlock _
  | .label l, _, _, _, h => by
    cases h
    exact .label l
  | .move dest expr, _, _, _, h =>
    factorMoveTarget_does dest (fun _ _ _ _ hexpr => lowerExpr_does expr hexpr) h
  | .ret valList, _, _, _, h => by
    obtain ⟨⟨pairs, k₁⟩, hvals, h⟩ := Option.bind_eq_some_iff.mp h
    cases h
    exact (lowerExprs_does valList hvals).append (.endBlock _)
  | .seq block, _, _, _, h => lowerBlock_does block h
  | .callStmt address n args, _, _, _, h => by
    obtain ⟨⟨stmts, temps, k₁⟩, hargs, h⟩ := Option.bind_eq_some_iff.mp h
    cases h
    exact (lowerArgs_does args hargs).append (.call address n temps)

/-- The code of a list of statements has the effects of the list. -/
theorem lowerBlock_does : (block : List IRStmt) → {k k' : ℕ} → {stmts : List FlatStmt} →
    lowerBlock globals block k = some (stmts, k') → Effects (fun a => IRStmt.DoesAny a block) stmts
  | [], _, _, _, h => by
    cases h
    exact .nil
  | st :: rest, _, _, _, h => by
    obtain ⟨⟨stmts, k₁⟩, hst, h⟩ := Option.bind_eq_some_iff.mp h
    obtain ⟨⟨stmts', k₂⟩, hrest, h⟩ := Option.bind_eq_some_iff.mp h
    cases h
    exact (lowerStatement_does st hst).append (lowerBlock_does rest hrest)

/-- The code of a move has the effects of its target and of its source, in this order. -/
theorem factorMoveTarget_does : (dest : IRExpr) →
    {arg : ℕ → Option (List FlatStmt × LIRExpr × ℕ)} → {does : SideEffect → Prop} →
    (∀ k stmts e' k', arg k = some (stmts, e', k') → Effects does stmts) →
    {k k' : ℕ} → {stmts : List FlatStmt} → factorMoveTarget globals dest arg k = some (stmts, k') →
    Effects (fun a => dest.DestDoes a ∨ does a) stmts
  | .temp y, _, _, harg, _, _, _, h => by
    obtain ⟨⟨e2Stmts, e2, k₁⟩, he2, h⟩ := Option.bind_eq_some_iff.mp h
    cases h
    exact ((harg _ _ _ _ he2).append (.moveTemp y e2)).congr fun a => or_comm
  | .mem address, _, _, harg, _, _, _, h => by
    obtain ⟨⟨e1Stmts, e1, k₁⟩, he1, h⟩ := Option.bind_eq_some_iff.mp h
    obtain ⟨⟨e2Stmts, e2, k₂⟩, he2, h⟩ := Option.bind_eq_some_iff.mp h
    obtain ⟨comm, -, h⟩ := Option.bind_eq_some_iff.mp h
    have h1 := lowerExpr_does address he1
    have h2 := harg _ _ _ _ he2
    cases comm with
    | true =>
      cases h
      exact ((h1.append h2).append (.moveMem e1 e2)).congr fun a => or_right_comm
    | false =>
      cases h
      refine ((h1.append ((Effects.save e1 (k₂ + 1)).append h2)).append (.moveMem _ e2)).congr fun a => ?_
      rw [false_or, or_right_comm]
      rfl
  | .eseq statement value, _, _, harg, _, _, _, h => by
    obtain ⟨⟨eseqStmts, k₁⟩, hst, h⟩ := Option.bind_eq_some_iff.mp h
    obtain ⟨⟨stmts, k₂⟩, hvalue, h⟩ := Option.bind_eq_some_iff.mp h
    cases h
    exact ((lowerStatement_does statement hst).append (factorMoveTarget_does value harg hvalue)).congr
      fun a => or_assoc.symm
  | .const _, _, _, _, _, _, _, h => by cases h
  | .op _ _ _, _, _, _, _, _, _, h => by cases h
  | .call _ _, _, _, _, _, _, _, h => by cases h
  | .name _, _, _, _, _, _, _, h => by cases h

end

/-! ## What is left -/

mutual

/-- The temps of ordered code are none of the lowerer's. -/
theorem ordered_expr {x : String} : (e : IRExpr) → e.Ordered → e.Reads x ∨ e.Assigns x →
    ∀ j, x ≠ freshName j
  | .const _, _, h => h.elim False.elim False.elim
  | .temp y, hsep, h => h.elim (fun hx => hx ▸ hsep) False.elim
  | .name _, _, h => h.elim False.elim False.elim
  | .mem address, hsep, h => ordered_expr address hsep h
  | .op _ left right, hsep, h => by
    obtain ⟨hl, hr, -⟩ := hsep
    rcases h with (h | h) | h | h
    · exact ordered_expr left hl (.inl h)
    · exact ordered_expr right hr (.inl h)
    · exact ordered_expr left hl (.inr h)
    · exact ordered_expr right hr (.inr h)
  | .call address args, hsep, h => by
    rcases h with (h | h) | h | h | h
    · exact ordered_expr address hsep.1 (.inl h)
    · exact ordered_exprs args hsep.2 (.inl h)
    · exact ordered_expr address hsep.1 (.inr h)
    · exact ordered_exprs args hsep.2 (.inr h)
    · exact isReturn_ne_freshName h
  | .eseq st e, hsep, h => by
    rcases h with (h | h) | h | h
    · exact ordered_stmt st hsep.1 (.inl h)
    · exact ordered_expr e hsep.2 (.inl h)
    · exact ordered_stmt st hsep.1 (.inr h)
    · exact ordered_expr e hsep.2 (.inr h)

/-- The temps of ordered expressions are none of the lowerer's own. -/
theorem ordered_exprs {x : String} : (es : List IRExpr) → IRExpr.OrderedAll es →
    IRExpr.ReadsAny x es ∨ IRExpr.AssignsAny x es → ∀ j, x ≠ freshName j
  | [], _, h => h.elim False.elim False.elim
  | e :: es, hsep, h => by
    rcases h with (h | h) | h | h
    · exact ordered_expr e hsep.1 (.inl h)
    · exact ordered_exprs es hsep.2 (.inl h)
    · exact ordered_expr e hsep.1 (.inr h)
    · exact ordered_exprs es hsep.2 (.inr h)

/-- Neither are those of an ordered target. -/
theorem ordered_dest {x : String} : (d : IRExpr) → d.Ordered →
    d.DestReads x ∨ d.DestAssigns x → ∀ j, x ≠ freshName j
  | .const _, _, h => h.elim False.elim False.elim
  | .temp y, hsep, h => h.elim False.elim fun hx => hx ▸ hsep
  | .name _, _, h => h.elim False.elim False.elim
  | .mem address, hsep, h => ordered_expr address hsep h
  | .op _ _ _, _, h => h.elim False.elim False.elim
  | .call _ _, _, h => h.elim False.elim False.elim
  | .eseq st e, hsep, h => by
    rcases h with (h | h) | h | h
    · exact ordered_stmt st hsep.1 (.inl h)
    · exact ordered_dest e hsep.2 (.inl h)
    · exact ordered_stmt st hsep.1 (.inr h)
    · exact ordered_dest e hsep.2 (.inr h)

/-- Nor those of an ordered statement. -/
theorem ordered_stmt {x : String} : (st : IRStmt) → st.Ordered → st.Reads x ∨ st.Assigns x →
    ∀ j, x ≠ freshName j
  | .move d e, hsep, h => by
    rcases h with (h | h) | h | h
    · exact ordered_dest d hsep.1 (.inl h)
    · exact ordered_expr e hsep.2.1 (.inl h)
    · exact ordered_dest d hsep.1 (.inr h)
    · exact ordered_expr e hsep.2.1 (.inr h)
  | .seq block, hsep, h => ordered_block block hsep h
  | .jump _, _, h => h.elim False.elim False.elim
  | .cjump guard _ _, hsep, h => ordered_expr guard hsep h
  | .label _, _, h => h.elim False.elim False.elim
  | .callStmt _ n args, hsep, h => by
    rcases h with h | h | h
    · exact ordered_exprs args hsep (.inl h)
    · exact ordered_exprs args hsep (.inr h)
    · exact isReturn_ne_freshName h
  | .ret vals, hsep, h => ordered_exprs vals hsep h
  | .exp e, hsep, h => ordered_expr e hsep h

/-- Nor those of a list of ordered statements. -/
theorem ordered_block {x : String} : (block : List IRStmt) → IRStmt.OrderedAll block →
    IRStmt.ReadsAny x block ∨ IRStmt.AssignsAny x block → ∀ j, x ≠ freshName j
  | [], _, h => h.elim False.elim False.elim
  | st :: rest, hsep, h => by
    rcases h with (h | h) | h | h
    · exact ordered_stmt st hsep.1 (.inl h)
    · exact ordered_block rest hsep.2 (.inl h)
    · exact ordered_stmt st hsep.1 (.inr h)
    · exact ordered_block rest hsep.2 (.inr h)

end

/-- A temp of the lowerer is read there. -/
def Own (p : Spot) : Prop := ∃ j, p = .bare (freshName j) ∨ p = .below (freshName j)

/-- Memory is no temp of the lowerer. -/
theorem not_own_mem : ¬Own .mem := by
  rintro ⟨j, h | h⟩ <;> cases h

/-- A temp of the program is none of the lowerer's own, where it is the whole expression. -/
theorem not_own_bare {x : String} (hx : ∀ j, x ≠ freshName j) : ¬Own (.bare x) := by
  rintro ⟨j, h | h⟩
  · cases h
    exact hx j rfl
  · cases h

/-- The same in an address. -/
theorem not_own_below {x : String} (hx : ∀ j, x ≠ freshName j) : ¬Own (.below x) := by
  rintro ⟨j, h | h⟩
  · cases h
  · cases h
    exact hx j rfl

/-- But for temps of the lowerer, `p` reads what is left of the expression. -/
def LeftAs (e : IRExpr) (p : LIRExpr) : Prop := ∀ spot, ¬Own spot → (p.ReadsAt spot ↔ e.Left spot)

/-- Every temp that is read is read in some place. -/
theorem exists_readsAt {p : LIRExpr} {x : String} (h : p.Reads x) : ∃ spot, p.ReadsAt spot := by
  rcases LIRExpr.reads_iff.mp h with h | h
  · exact ⟨.bare x, h⟩
  · exact ⟨.below x, h⟩

/-- Of the program's temps, the lowered expression reads those that were left in it. -/
theorem LeftAs.temp {e : IRExpr} {p : LIRExpr} {x : String} (h : LeftAs e p) (hx : ∀ j, x ≠ freshName j) :
    p.Reads x ↔ e.LeftTemp x :=
  LIRExpr.reads_iff.trans (or_congr (h (.bare x) (not_own_bare hx)) (h (.below x) (not_own_below hx)))

section Operand

variable {left right : IRExpr} {leftStmt rightStmt : List FlatStmt} {leftExpr : LIRExpr} {k k₁ k₂ k₃ : ℕ}

/-- Behind a jump only what reads nothing commutes. -/
theorem not_readsAt_of_jump {u : Used} (h : u.exprCommutes globals leftExpr = true)
    (htemps : u.unknownTempsUsed = true) (hmem : u.memUsed = true) (spot : Spot) :
    ¬leftExpr.ReadsAt spot := by
  induction leftExpr with
  | const | name => cases spot <;> exact id
  | temp x => simp [Used.exprCommutes, htemps] at h
  | mem address => simp [Used.exprCommutes, hmem] at h
  | op o l r ihl ihr =>
    rw [Used.exprCommutes, Bool.and_eq_true] at h
    have hl := ihl h.1
    have hr := ihr h.2
    cases spot <;> exact fun hread => hread.elim hl hr

/-- What commutes with the statements of the later operand and reads something is not to be saved. -/
theorem not_saved_of_commutes (hleft : LeftAs left leftExpr) (hord : left.Ordered)
    (hright : Effects (fun a => right.Does a) rightStmt)
    (hcomm : commutes globals rightStmt leftExpr = some true) {spot : Spot} (hspot : leftExpr.ReadsAt spot) :
    ¬Saved left.Left right := by
  obtain ⟨u, -, hu, hcomm⟩ := commutes_iff.mp hcomm
  have hjump : ∀ b, .endBlock b ∉ rightStmt := by
    intro b hb
    exact not_readsAt_of_jump hcomm (hu.unknownTemps.mpr ⟨b, hb⟩) (hu.mem.mpr (.inr ⟨b, hb⟩)) spot hspot
  obtain ⟨hbare, hmem⟩ := (exprCommutes_iff hu hjump).mp hcomm
  rintro (hdoes | ⟨x, hx, hdoes⟩ | ⟨hx, hdoes⟩)
  · obtain ⟨st, hst, b, rfl⟩ := (hright .jump (by simp)).mpr hdoes
    exact hjump b hst
  · have hown := ordered_expr left hord (.inl (left.reads_of_leftTemp (.inl hx)))
    obtain ⟨st, hst, e, rfl⟩ := (hright (.move x) (by simpa using hown)).mpr hdoes
    exact hbare x ((hleft _ (not_own_bare hown)).mpr hx) e hst
  · obtain ⟨st, hst, hwrites⟩ := (hright .write (by simp)).mpr hdoes
    exact hmem ((hleft _ not_own_mem).mpr hx) st hst hwrites

/-- What does not commute is to be saved. -/
theorem saved_of_not_commutes (hleft : LeftAs left leftExpr) (hord : left.Ordered) (hord' : right.Ordered)
    (hl : ExprShape left leftStmt leftExpr k k₁) (hr : Shape (fun x => right.Assigns x) rightStmt k₁ k₂)
    (hright : Effects (fun a => right.Does a) rightStmt)
    (hcomm : commutes globals rightStmt leftExpr = some false) : Saved left.Left right := by
  obtain ⟨u, -, hu, hcomm⟩ := commutes_iff.mp hcomm
  by_cases hjump : ∃ b, .endBlock b ∈ rightStmt
  · obtain ⟨b, hb⟩ := hjump
    exact .inl ((hright .jump (by simp)).mp ⟨_, hb, b, rfl⟩)
  rw [not_exists] at hjump
  rw [← Bool.not_eq_true, exprCommutes_iff hu hjump, not_and_or] at hcomm
  simp only [not_forall, not_not] at hcomm
  rcases hcomm with ⟨x, hx, e, hmove⟩ | ⟨hmem, st, hst, hwrites⟩
  · refine .inr (.inl ⟨x, ?_⟩)
    have hreads : leftExpr.Reads x := LIRExpr.reads_iff.mpr (.inl hx)
    have hassigns : (FlatStmt.move (.temp x) e).Assigns x := rfl
    -- the two operands have different temps of the lowerer
    have hown : ∀ j, x ≠ freshName j := by
      rcases hl.reads x hreads with hx' | hx'
      · exact ordered_expr left hord (.inl hx')
      · rcases hr.assigns _ hmove x hassigns with hx'' | hx''
        · exact ordered_expr right hord' (.inr hx'')
        · exact (hx'.disjoint hx'').elim
    exact ⟨(hleft _ (not_own_bare hown)).mp hx, (hright (.move x) (by simpa using hown)).mp ⟨_, hmove, e, rfl⟩⟩
  · exact .inr (.inr ⟨(hleft _ not_own_mem).mp hmem, (hright .write (by simp)).mp ⟨st, hst, hwrites⟩⟩)

/-- Later statements leave alone what reads nothing that they change. -/
theorem leaves_of_undisturbed {as : String → Prop} {does : SideEffect → Prop} (hleft : LeftAs left leftExpr)
    (hl : ExprShape left leftStmt leftExpr k k₁) (hr : Shape as rightStmt k₂ k₃) (hk : k₁ ≤ k₂)
    (hright : Effects does rightStmt) (has : ∀ x, as x → ∀ j, x ≠ freshName j) (hord : left.Ordered)
    (htemps : ∀ x, left.LeftTemp x → ¬as x) (hmem : left.Left .mem → ¬does .write) :
    ∀ st ∈ rightStmt, st.Leaves leftExpr := by
  intro st hst
  constructor
  · intro huses hwrites
    exact hmem ((hleft .mem not_own_mem).mp huses) ((hright .write (by simp)).mp ⟨st, hst, hwrites⟩)
  · intro x hreads hassigns
    rcases hr.assigns st hst x hassigns with hx | hx
    · exact htemps x ((hleft.temp (has x hx)).mp hreads) hx
    · rcases hl.reads x hreads with hx' | hx'
      · exact hx.not_ne (ordered_expr left hord (.inl hx'))
      · exact hx'.disjoint (hx.mono hk le_rfl)

/-- The statements of the later operand leave alone what commutes with them and waits for them. -/
theorem leaves_of_waits (hleft : LeftAs left leftExpr) (hl : ExprShape left leftStmt leftExpr k k₁)
    (hr : Shape (fun x => right.Assigns x) rightStmt k₁ k₂) (hright : Effects (fun a => right.Does a) rightStmt)
    (hrfresh : ∀ x, right.Assigns x → ∀ j, x ≠ freshName j) (hord : left.Ordered) (hwaits : left.Waits right)
    (hcomm : commutes globals rightStmt leftExpr = some true) : ∀ st ∈ rightStmt, st.Leaves leftExpr := by
  by_cases hreads : ∃ spot, leftExpr.ReadsAt spot
  · obtain ⟨spot, hspot⟩ := hreads
    have hsaved := not_saved_of_commutes hleft hord hright hcomm hspot
    have hmem : left.Left .mem → ¬right.Does .write := fun hm hw => hsaved (.inr (.inr ⟨hm, hw⟩))
    exact leaves_of_undisturbed hleft hl hr le_rfl hright hrfresh hord (hwaits.resolve_left hsaved) hmem
  · -- what reads nothing is left alone by every statement
    rw [not_exists] at hreads
    refine fun st _ => ⟨fun hmem => (hreads .mem hmem).elim, fun x hx => ?_⟩
    obtain ⟨spot, hspot⟩ := exists_readsAt hx
    exact (hreads spot hspot).elim

end Operand

/-- An operator leaves what its right operand leaves, and what of the left one is not saved before it. -/
theorem leftAs_op {o : OpType} {left right : IRExpr} {p e : LIRExpr} (hright : LeftAs right e)
    (hleft : ∀ spot, ¬Own spot → (p.ReadsAt spot ↔ left.Left spot ∧ ¬Saved left.Left right)) :
    LeftAs (.op o left right) (.op o p e) := by
  intro spot hspot
  refine Iff.trans ?_ (or_congr (hleft spot hspot) (hright spot hspot))
  cases spot <;> rfl

/-- What is left of a lowered expression. -/
theorem lowerExpr_left : (e : IRExpr) → e.Ordered → {k k' : ℕ} → {stmts : List FlatStmt} → {e' : LIRExpr} →
    lowerExpr globals e k = some (stmts, e', k') → LeftAs e e'
  | .const value, _, _, _, _, _, h => by
    cases h
    intro spot _
    cases spot <;> rfl
  | .temp y, _, _, _, _, _, h => by
    cases h
    intro spot _
    cases spot <;> simp [LIRExpr.ReadsAt, LIRExpr.ReadsBare, LIRExpr.ReadsBelow, LIRExpr.UsesMem, IRExpr.Left]
  | .name l, _, _, _, _, _, h => by
    cases h
    intro spot _
    cases spot <;> rfl
  | .mem address, hord, _, _, _, _, h => by
    obtain ⟨⟨stmts, e', k'⟩, haddress, h⟩ := Option.bind_eq_some_iff.mp h
    cases h
    have hleft := lowerExpr_left address hord haddress
    intro spot hspot
    cases spot with
    | bare x => simp [LIRExpr.ReadsAt, LIRExpr.ReadsBare, IRExpr.Left]
    | below x =>
      have hown : ∀ j, x ≠ freshName j := fun j hj => hspot ⟨j, .inr (by rw [hj])⟩
      refine (hleft.temp hown).trans ?_
      simp [IRExpr.Left, IRExpr.LeftTemp]
    | mem => simp [LIRExpr.ReadsAt, LIRExpr.UsesMem, IRExpr.Left]
  | .op o left right, hord, _, _, _, _, h => by
    obtain ⟨⟨leftStmt, leftExpr, k₁⟩, hlow, h⟩ := Option.bind_eq_some_iff.mp h
    obtain ⟨⟨rightStmt, rightExpr, k₂⟩, hlow', h⟩ := Option.bind_eq_some_iff.mp h
    obtain ⟨comm, hcomm, h⟩ := Option.bind_eq_some_iff.mp h
    have hleft := lowerExpr_left left hord.1 hlow
    have hright := lowerExpr_left right hord.2.1 hlow'
    -- Whether the left operand waits in a temp is decided by what the code of the right one does.
    have hdoes := lowerExpr_does right hlow'
    cases comm with
    | true =>
      cases h
      refine leftAs_op hright fun spot hspot => (hleft spot hspot).trans ⟨fun h => ⟨h, ?_⟩, And.left⟩
      exact not_saved_of_commutes hleft hord.1 hdoes hcomm ((hleft spot hspot).mpr h)
    | false =>
      cases h
      have hsaved := saved_of_not_commutes hleft hord.1 hord.2.1 (lowerExpr_shape left hlow)
        (lowerExpr_shape right hlow').shape hdoes hcomm
      refine leftAs_op hright fun spot hspot => iff_of_false (fun hread => hspot ⟨k₂ + 1, ?_⟩) fun h => h.2 hsaved
      cases spot with
      | bare x => exact .inl (by rw [show x = freshName (k₂ + 1) from hread])
      | below x => exact hread.elim
      | mem => exact hread.elim
  | .call address args, _, _, _, _, _, h => by
    obtain ⟨⟨s0, e0, k₁⟩, haddress, h⟩ := Option.bind_eq_some_iff.mp h
    cases e0 with
    | name f =>
      obtain ⟨⟨stmts, temps, k₂⟩, hargs, h⟩ := Option.bind_eq_some_iff.mp h
      cases h
      intro spot hspot
      refine iff_of_false (fun hread => hspot ⟨k₂ + 1, ?_⟩) id
      cases spot with
      | bare x => exact .inl (by rw [show x = freshName (k₂ + 1) from hread])
      | below x => exact hread.elim
      | mem => exact hread.elim
    | _ => cases h
  | .eseq statement value, hord, _, _, _, _, h => by
    obtain ⟨⟨stmts, k₁⟩, hst, h⟩ := Option.bind_eq_some_iff.mp h
    obtain ⟨⟨stmt, expr, k₂⟩, hvalue, h⟩ := Option.bind_eq_some_iff.mp h
    cases h
    exact lowerExpr_left value hord.2 hvalue

/-- The statements of expressions that change nothing left of `e` leave alone what is left of it. -/
theorem lowerExprs_leaves_head {e : IRExpr} {stmts : List FlatStmt} {e' : LIRExpr} {k k₁ : ℕ}
    (hleft : LeftAs e e') (he : ExprShape e stmts e' k k₁) (hord : e.Ordered) {es : List IRExpr} {k₂ k₃ : ℕ}
    {pairs : List (List FlatStmt × LIRExpr)} (hk : k₁ ≤ k₂) (hords : IRExpr.OrderedAll es)
    (hes : ∀ later ∈ es, e.Undisturbed later) (hlow : lowerExprs globals es k₂ = some (pairs, k₃)) :
    ∀ q ∈ pairs, ∀ st ∈ q.1, st.Leaves e' := by
  induction es generalizing k₂ pairs with
  | nil =>
    cases hlow
    simp
  | cons later es ih =>
    obtain ⟨⟨stmts', expr, k₄⟩, hlater, hlow⟩ := Option.bind_eq_some_iff.mp hlow
    obtain ⟨⟨rest, k₅⟩, hrest, hlow⟩ := Option.bind_eq_some_iff.mp hlow
    cases hlow
    obtain ⟨htemps, hmem⟩ := hes later List.mem_cons_self
    have hshape := (lowerExpr_shape later hlater).shape
    have hfresh (x : String) (hx : later.Assigns x) := ordered_expr later hords.1 (.inr hx)
    intro q hq
    rcases List.mem_cons.mp hq with rfl | hq
    · exact leaves_of_undisturbed hleft he hshape hk (lowerExpr_does later hlater) hfresh hord htemps hmem
    · exact ih (hk.trans hshape.le) hords.2 (fun later' h => hes later' (List.mem_cons_of_mem _ h)) hrest q hq

/-- Expressions that change nothing left of earlier ones have statements that leave it alone. -/
theorem lowerExprs_leaves {es : List IRExpr} {k k' : ℕ} {pairs : List (List FlatStmt × LIRExpr)}
    (hord : IRExpr.OrderedAll es) (hes : es.Pairwise IRExpr.Undisturbed)
    (hlow : lowerExprs globals es k = some (pairs, k')) :
    pairs.Pairwise fun p q => ∀ st ∈ q.1, st.Leaves p.2 := by
  induction es generalizing k pairs with
  | nil =>
    cases hlow
    exact .nil
  | cons e es ih =>
    obtain ⟨⟨stmts, expr, k₁⟩, he, hlow⟩ := Option.bind_eq_some_iff.mp hlow
    obtain ⟨⟨rest, k₂⟩, hrest, hlow⟩ := Option.bind_eq_some_iff.mp hlow
    cases hlow
    obtain ⟨hhead, htail⟩ := List.pairwise_cons.mp hes
    have hleft := lowerExpr_left e hord.1 he
    exact .cons (lowerExprs_leaves_head hleft (lowerExpr_shape e he) hord.1 le_rfl hord.2 hhead hrest)
      (ih hord.2 htail hrest)

end IRLowerer

end Jaek
