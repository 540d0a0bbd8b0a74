import Jaek.IR.Effects

/-!
# Running lowered code

Lowered code is run at its place in a flat body. `Reaches` says what running the statements of an
expression or a statement does: it comes to the code behind them in a store that agrees with the
mid-level one, does the same writes and calls, and leaves every expression alone that the statements
do not touch. `Simulates` states this for each part of the mid-level code.
-/

namespace Jaek

namespace IRLowerer

open Mid (Action Task Eval events)

variable {M : Type*} {S : Storage M} {body : List FlatStmt} {globals : List String}

/-- The events a mid-level run has too: lowering saves values in temps of its own. -/
def observed (evs : List (Event M)) : List (Event M) :=
  evs.filter fun
    | .assign _ _ => false
    | _ => true

@[simp] theorem observed_nil : observed ([] : List (Event M)) = [] := rfl

@[simp] theorem observed_append (evs evs' : List (Event M)) :
    observed (evs ++ evs') = observed evs ++ observed evs' := List.filter_append ..

@[simp] theorem observed_assign (x : String) (v : Word) (evs : List (Event M)) :
    observed (.assign x v :: evs) = observed evs := rfl

@[simp] theorem observed_store (a v : Word) (evs : List (Event M)) :
    observed (.store a v :: evs) = .store a v :: observed evs := rfl

@[simp] theorem observed_call (f : String) (vs rets : List Word) (m : M) (evs : List (Event M)) :
    observed (.call f vs rets m :: evs) = .call f vs rets m :: observed evs := rfl

/-- The same memory and the same temps but those of the lowerer. -/
structure Agree (s σ : Store M) : Prop where
  mem : σ.mem = s.mem
  temps : ∀ x, (∀ j, x ≠ freshName j) → σ.temps x = s.temps x

namespace Agree

variable {s σ : Store M}

/-- A store agrees with itself. -/
theorem refl (s : Store M) : Agree s s := ⟨rfl, fun _ _ => rfl⟩

/-- The same assignment on both sides keeps the agreement. -/
theorem set (h : Agree s σ) (x : String) (v : Word) : Agree (s.set x v) (σ.set x v) := by
  refine ⟨h.mem, fun y hy => ?_⟩
  show Function.update σ.temps x v y = Function.update s.temps x v y
  by_cases hyx : y = x
  · rw [hyx, Function.update_self, Function.update_self]
  · rw [Function.update_of_ne hyx, Function.update_of_ne hyx, h.temps y hy]

/-- An assignment to a temp of the lowerer is not seen. -/
theorem set_fresh (h : Agree s σ) (j : ℕ) (v : Word) : Agree s (σ.set (freshName j) v) :=
  ⟨h.mem, fun y hy => (Function.update_of_ne (hy j) _ _).trans (h.temps y hy)⟩

/-- The same memory on both sides keeps it. -/
theorem write (h : Agree s σ) (m : M) : Agree { s with mem := m } { σ with mem := m } :=
  ⟨rfl, h.temps⟩

/-- The same results of a call on both sides keep it. -/
theorem setReturns (h : Agree s σ) (i : ℕ) (rets : List Word) (m : M) :
    Agree ⟨Jaek.setReturns i rets s.temps, m⟩ ⟨Jaek.setReturns i rets σ.temps, m⟩ := by
  refine ⟨rfl, fun x hx => ?_⟩
  show Jaek.setReturns i rets σ.temps x = Jaek.setReturns i rets s.temps x
  have htemps := h.temps x hx
  clear h
  obtain ⟨temps, m₁⟩ := s
  obtain ⟨temps', m₂⟩ := σ
  change temps' x = temps x at htemps
  show Jaek.setReturns i rets temps' x = Jaek.setReturns i rets temps x
  induction rets generalizing i temps temps' with
  | nil => exact htemps
  | cons v rets ih =>
    apply ih
    by_cases hxi : x = retTemp i
    · rw [hxi, Function.update_self, Function.update_self]
    · rw [Function.update_of_ne hxi, Function.update_of_ne hxi, htemps]

end Agree

/-! ## Running lowered statements -/

/-- What a run of `stmts` has done when it ends in `σ₁`. -/
structure Ran (S : Storage M) (stmts : List FlatStmt) (evs : List (Event M)) (tr : List (Action M))
    (σ s₁ σ₁ : Store M) : Prop where
  observed : observed evs = events tr
  agree : Agree s₁ σ₁
  leaves : ∀ p : LIRExpr, (∀ st ∈ stmts, st.Leaves p) → p.eval S σ₁ = p.eval S σ

/-- Running `start` comes to `dest` by statements of `stmts`. -/
def Reaches (S : Storage M) (body start dest stmts : List FlatStmt) (tr : List (Action M))
    (σ s₁ σ₁ : Store M) : Prop :=
  ∃ evs, (flat S body).Run (.running start σ) evs (.running dest σ₁) ∧ Ran S stmts evs tr σ s₁ σ₁

/-- The outcomes that leave the code before its end: a jump is made, and a run that is cut off has
its writes and calls. -/
def Aborted (S : Storage M) (body start stmts : List FlatStmt) (tr : List (Action M))
    (σ : Store M) : Mid.Outcome M → Prop
  | .jump l s₁ => ∀ dest, findLabel body l = some dest →
      ∃ σ₁, Reaches S body start dest stmts tr σ s₁ σ₁
  | .cut => ∃ c evs, (flat S body).Run (.running start σ) evs c ∧ observed evs = events tr
  | _ => True

section Reaches

variable {start mid dest stmts stmts' : List FlatStmt} {tr tr' : List (Action M)}
  {s₁ s₂ σ σ₁ σ₂ : Store M} {out : Mid.Outcome M}

/-- The code that is passed through may be part of more code. -/
theorem Reaches.mono (h : Reaches S body start dest stmts tr σ s₁ σ₁)
    (hsub : ∀ st ∈ stmts, st ∈ stmts') : Reaches S body start dest stmts' tr σ s₁ σ₁ := by
  obtain ⟨evs, hrun, hran⟩ := h
  exact ⟨evs, hrun, hran.observed, hran.agree,
    fun p hp => hran.leaves p fun st hst => hp st (hsub st hst)⟩

/-- Two stretches in a row. -/
theorem Reaches.trans (h : Reaches S body start mid stmts tr σ s₁ σ₁)
    (h' : Reaches S body mid dest stmts tr' σ₁ s₂ σ₂) :
    Reaches S body start dest stmts (tr ++ tr') σ s₂ σ₂ := by
  obtain ⟨evs, hrun, hran⟩ := h
  obtain ⟨evs', hrun', hran'⟩ := h'
  refine ⟨evs ++ evs', hrun.trans hrun', ?_, hran'.agree, fun p hp => ?_⟩
  · rw [observed_append, hran.observed, hran'.observed, Mid.events_append]
  · rw [hran'.leaves p hp, hran.leaves p hp]

/-- The stores agree at the end. -/
theorem Reaches.agree (h : Reaches S body start dest stmts tr σ s₁ σ₁) : Agree s₁ σ₁ := by
  obtain ⟨evs, -, hran⟩ := h
  exact hran.agree

/-- An expression that all statements passed through leave alone keeps its value. -/
theorem Reaches.eval_eq (h : Reaches S body start dest stmts tr σ s₁ σ₁) {p : LIRExpr}
    (hp : ∀ st ∈ stmts, st.Leaves p) : p.eval S σ₁ = p.eval S σ := by
  obtain ⟨evs, -, hran⟩ := h
  exact hran.leaves p hp

/-- The empty stretch. -/
theorem Reaches.refl (h : Agree s₁ σ) : Reaches S body start start stmts [] σ s₁ σ :=
  ⟨[], .refl _, rfl, h, fun _ _ => rfl⟩

/-- One visible step. -/
theorem Reaches.exec {st : FlatStmt} {e : Event M} (hexec : Exec S st σ e σ₁) (hst : st ∈ stmts)
    (hobs : observed [e] = events tr) (hagree : Agree s₁ σ₁) :
    Reaches S body (st :: dest) dest stmts tr σ s₁ σ₁ :=
  ⟨[e], .event (.exec hexec) (.refl _), hobs, hagree, fun _ hp => (hp st hst).eval_eq hexec⟩

/-- A label is passed without an event. -/
theorem Reaches.label (h : Agree s₁ σ) (l : String) :
    Reaches S body (.label l :: dest) dest stmts [] σ s₁ σ :=
  ⟨[], .silent .label (.refl _), rfl, h, fun _ _ => rfl⟩

/-- An end of a block passes to the place its label names. -/
theorem Reaches.control {b : EndBlock} {d : Option String} (hnext : b.next S σ = some d)
    (hgoto : goto body start d = some dest) (h : Agree s₁ σ) :
    Reaches S body (.endBlock b :: start) dest stmts [] σ s₁ σ :=
  ⟨[], .silent (.control hnext hgoto) (.refl _), rfl, h, fun _ _ => rfl⟩

/-- Saving a value in a fresh temp. -/
theorem Reaches.save {e : LIRExpr} {v : Word} {k : ℕ} (heval : e.eval S σ = some v)
    (h : Agree s₁ σ) (hst : FlatStmt.move (freshTemp k) e ∈ stmts) :
    Reaches S body (.move (freshTemp k) e :: dest) dest stmts [] σ s₁ (σ.set (freshName k) v) :=
  .exec (.moveTemp heval) hst rfl (h.set_fresh k v)

/-- The code that is passed through may be part of more code. -/
theorem Aborted.mono (h : Aborted S body start stmts tr σ out) (hsub : ∀ st ∈ stmts, st ∈ stmts') :
    Aborted S body start stmts' tr σ out := by
  cases out with
  | jump l s₁ =>
    intro dest hdest
    obtain ⟨σ₁, hreach⟩ := h dest hdest
    exact ⟨σ₁, hreach.mono hsub⟩
  | cut => exact h
  | _ => trivial

/-- A stretch in front of one that does not come to its end. -/
theorem Reaches.aborted (h : Reaches S body start mid stmts tr σ s₁ σ₁)
    (h' : Aborted S body mid stmts tr' σ₁ out) :
    Aborted S body start stmts (tr ++ tr') σ out := by
  cases out with
  | jump l s₂ =>
    intro dest hdest
    obtain ⟨σ₂, hreach⟩ := h' dest hdest
    exact ⟨σ₂, h.trans hreach⟩
  | cut =>
    obtain ⟨evs, hrun, hran⟩ := h
    obtain ⟨c, evs', hrun', hobs⟩ := h'
    refine ⟨c, evs ++ evs', hrun.trans hrun', ?_⟩
    rw [observed_append, hran.observed, hobs, Mid.events_append]
  | _ => trivial

end Reaches

/-- The store of an outcome that goes on behind the code. -/
def finished : Mid.Outcome M → Option (Store M)
  | .value _ s => some s
  | .values _ s => some s
  | .callee _ s => some s
  | .done s => some s
  | _ => none

/-- A run of `start` ends as the outcome says: it comes to `dest` with `P`, or it aborts. -/
structure Lands (S : Storage M) (body start dest stmts : List FlatStmt) (tr : List (Action M))
    (σ : Store M) (out : Mid.Outcome M) (P : Store M → Prop) : Prop where
  finish : ∀ s₁, finished out = some s₁ → ∃ σ₁, Reaches S body start dest stmts tr σ s₁ σ₁ ∧ P σ₁
  abort : Aborted S body start stmts tr σ out

section Lands

variable {start mid dest dest' stmts stmts' : List FlatStmt} {tr tr' : List (Action M)}
  {s₁ σ σ₁ : Store M} {out : Mid.Outcome M} {P P' : Store M → Prop}

/-- What aborts has no store to go on with. -/
theorem finished_of_aborts (h : out.Aborts) : finished out = none := by
  cases h <;> rfl

/-- An aborted stretch lands anywhere. -/
theorem Aborted.lands (h : Aborted S body start stmts tr σ out) (hout : finished out = none) :
    Lands S body start dest stmts tr σ out P := by
  refine ⟨fun s₁ hs₁ => ?_, h⟩
  rw [hout] at hs₁
  cases hs₁

/-- An outcome that ends a part ends the whole. -/
theorem Lands.of_aborts (h : Lands S body start dest' stmts' tr σ out P') (hout : out.Aborts)
    (hsub : ∀ st ∈ stmts', st ∈ stmts) : Lands S body start dest stmts tr σ out P :=
  (h.abort.mono hsub).lands (finished_of_aborts hout)

/-- The code that is passed through may be part of more code. -/
theorem Lands.mono (h : Lands S body start dest stmts' tr σ out P)
    (hsub : ∀ st ∈ stmts', st ∈ stmts) : Lands S body start dest stmts tr σ out P := by
  refine ⟨fun s₁ hs₁ => ?_, h.abort.mono hsub⟩
  obtain ⟨σ₁, hreach, hP⟩ := h.finish s₁ hs₁
  exact ⟨σ₁, hreach.mono hsub, hP⟩

/-- A stretch in front of one that lands. -/
theorem Reaches.lands (h : Reaches S body start mid stmts tr σ s₁ σ₁)
    (h' : Lands S body mid dest stmts tr' σ₁ out P) :
    Lands S body start dest stmts (tr ++ tr') σ out P := by
  refine ⟨fun s₂ hs₂ => ?_, h.aborted h'.abort⟩
  obtain ⟨σ₂, hreach, hP⟩ := h'.finish s₂ hs₂
  exact ⟨σ₂, h.trans hreach, hP⟩

/-- A stretch that comes to its end lands there. -/
theorem Reaches.lands_done (h : Reaches S body start dest stmts tr σ s₁ σ₁) (hP : P σ₁)
    (hout : finished out = some s₁) : Lands S body start dest stmts tr σ out P := by
  refine ⟨fun s₂ hs₂ => ?_, ?_⟩
  · rw [hout] at hs₂
    rw [← Option.some.inj hs₂]
    exact ⟨σ₁, h, hP⟩
  · cases out <;> trivial

/-- A run that is cut off at once. -/
theorem Lands.cut : Lands S body start dest stmts [] σ .cut P :=
  Aborted.lands ⟨_, [], .refl _, rfl⟩ rfl

/-- A trap of the source allows every run. -/
theorem Lands.trap : Lands S body start dest stmts tr σ .trap P :=
  Aborted.lands trivial rfl

/-- A return does not go on behind the code. -/
theorem Lands.ret {vs : List Word} : Lands S body start dest stmts tr σ (.ret vs s₁) P :=
  Aborted.lands trivial rfl

end Lands

/-! ## The simulation -/

/-- Running the values of a return one behind the other: each is evaluated behind its own
statements. -/
inductive Chain (S : Storage M) (body : List FlatStmt) : List (List FlatStmt × LIRExpr) →
    List FlatStmt → Store M → List (Event M) → List Word → Store M → Prop
  | nil (rest : List FlatStmt) (σ : Store M) : Chain S body [] rest σ [] [] σ
  | cons {stmts rest : List FlatStmt} {expr : LIRExpr} {pairs : List (List FlatStmt × LIRExpr)}
      {σ σ₁ σ₂ : Store M} {evs evs' : List (Event M)} {v : Word} {vs : List Word} :
      (flat S body).Run (.running (stmts ++ (pairs.flatMap (·.1) ++ rest)) σ) evs
        (.running (pairs.flatMap (·.1) ++ rest) σ₁) →
      expr.eval S σ₁ = some v → Chain S body pairs rest σ₁ evs' vs σ₂ →
      Chain S body ((stmts, expr) :: pairs) rest σ (evs ++ evs') (v :: vs) σ₂

/-- The lowered statements of a part of the mid-level code do what the part does. -/
def Simulates (S : Storage M) (body : List FlatStmt) (globals : List String) (task : Task)
    (s : Store M) (tr : List (Action M)) (out : Mid.Outcome M) : Prop :=
  match task with
  | .expr e => e.Ordered → ∀ k stmts e' k', lowerExpr globals e k = some (stmts, e', k') →
      ∀ rest σ, (stmts ++ rest) <:+ body → Agree s σ →
        Lands S body (stmts ++ rest) rest stmts tr σ out fun σ₁ =>
          ∀ v s₁, out = .value v s₁ → e'.eval S σ₁ = some v
  | .exprs es => IRExpr.OrderedAll es →
      (∀ k stmts temps k', lowerArgs globals es k = some (stmts, temps, k') →
        ∀ rest σ, (stmts ++ rest) <:+ body → Agree s σ →
          Lands S body (stmts ++ rest) rest stmts tr σ out fun σ₁ =>
            ∀ vs s₁, out = .values vs s₁ → evalList S σ₁ temps = some vs) ∧
      ∀ k pairs k', lowerExprs globals es k = some (pairs, k') →
        ∀ rest σ, (pairs.flatMap (·.1) ++ rest) <:+ body → Agree s σ →
          (∀ vs s₁, out = .values vs s₁ → ∃ evs σ₁, Chain S body pairs rest σ evs vs σ₁ ∧
            Ran S (pairs.flatMap (·.1)) evs tr σ s₁ σ₁) ∧
          Aborted S body (pairs.flatMap (·.1) ++ rest) (pairs.flatMap (·.1)) tr σ out
  | .target address => address.Ordered → ∀ k stmts e' k',
      lowerExpr globals address k = some (stmts, e', k') →
      ∀ rest σ, (stmts ++ rest) <:+ body → Agree s σ →
        Lands S body (stmts ++ rest) rest stmts tr σ out fun _ =>
          ∀ f s₁, out = .callee f s₁ → e' = .name f
  | .stmt st => st.Ordered → ∀ k stmts k', lowerStatement globals st k = some (stmts, k') →
      ∀ rest σ, (stmts ++ rest) <:+ body → Agree s σ →
        Lands S body (stmts ++ rest) rest stmts tr σ out fun _ => True
  | .code block cur => IRStmt.OrderedAll block → ∀ k₀ all k',
      lowerBlock globals block k₀ = some (all, k') →
      ∀ before k stmts, block = before ++ cur → lowerBlock globals cur k = some (stmts, k') →
        stmts <:+ all → ∀ rest σ, (all ++ rest) <:+ body → Agree s σ →
          Lands S body (stmts ++ rest) rest all tr σ out fun _ => True

end IRLowerer

end Jaek
