import Jaek.IR.LowerRun

/-!
# Lowering keeps the order of evaluation

One lemma for each rule of the mid-level evaluation, and `simulates`, the induction over it. An operand
that waits for a later one is `Held`: as it is when it commutes, in a fresh temp when it does not.
-/

namespace Jaek

namespace IRLowerer

open Mid (Action Task Eval events)

variable {M : Type*} {S : Storage M} {body : List FlatStmt} {globals : List String}

section Operands

variable {l r : IRExpr} {s s₁ s₂ σ : Store M} {tr tr₁ tr₂ : List (Action M)} {a : Word}
  {out : Mid.Outcome M} {rest : List FlatStmt}

/-- How an operand waits for a later one: as it is, or saved in a fresh temp. -/
inductive Held (e : LIRExpr) : List FlatStmt → LIRExpr → Prop
  | residual : Held e [] e
  | saved (j : ℕ) : Held e [.move (freshTemp j) e] (freshTemp j)

/-- The moves of `Held` run without a visible event, and the expression they leave behind has the value of
the one they save. -/
theorem Held.reaches {e p : LIRExpr} {mid dest stmts : List FlatStmt} (h : Held e mid p)
    (heval : e.eval S σ = some a) (hagree : Agree s σ) (hsub : ∀ st ∈ mid, st ∈ stmts) :
    ∃ σ₁, Reaches S body (mid ++ dest) dest stmts [] σ s σ₁ ∧ p.eval S σ₁ = some a := by
  cases h with
  | residual => exact ⟨σ, .refl hagree, heval⟩
  | saved j =>
    refine ⟨_, .save heval hagree (hsub _ List.mem_cons_self), ?_⟩
    exact congrArg some (Function.update_self _ _ _)

/-- Two operands in lowered code, the first held while the second is evaluated. -/
structure Operands (globals : List String) (l r : IRExpr) (k : ℕ) (code : List FlatStmt)
    (p e : LIRExpr) : Prop where
  ex : ∃ leftStmt leftExpr k₁ rightStmt k₂ mid,
    lowerExpr globals l k = some (leftStmt, leftExpr, k₁) ∧
    lowerExpr globals r k₁ = some (rightStmt, e, k₂) ∧ Held leftExpr mid p ∧
    code = leftStmt ++ (mid ++ rightStmt) ∧ ∀ st ∈ rightStmt, st.Leaves p

/-- An operand either commutes with the statements of the later one or is saved. -/
theorem operands_of_commutes {k k₁ k₂ : ℕ} {leftStmt rightStmt : List FlatStmt}
    {leftExpr rightExpr : LIRExpr} {comm : Bool}
    (hleft : lowerExpr globals l k = some (leftStmt, leftExpr, k₁))
    (hright : lowerExpr globals r k₁ = some (rightStmt, rightExpr, k₂))
    (hcomm : commutes globals rightStmt leftExpr = some comm) (hl : l.Ordered) (hr : r.Ordered)
    (hwaits : l.Waits r) :
    Operands globals l r k
      (leftStmt ++ ((if comm then [] else [.move (freshTemp (k₂ + 1)) leftExpr]) ++ rightStmt))
      (if comm then leftExpr else freshTemp (k₂ + 1)) rightExpr := by
  have hrshape := (lowerExpr_shape r hright).shape
  have hrfresh (x : String) (hx : r.Assigns x) := ordered_expr r hr (.inr hx)
  cases comm with
  | true =>
    exact ⟨_, _, _, _, _, _, hleft, hright, .residual, rfl,
      leaves_of_waits (lowerExpr_left l hl hleft) (lowerExpr_shape l hleft) hrshape
        (lowerExpr_does r hright) hrfresh hl hwaits hcomm⟩
  | false =>
    exact ⟨_, _, _, _, _, _, hleft, hright, .saved _, rfl,
      hrshape.leaves_fresh hrfresh (.inr (by omega))⟩

/-- The two ways in which an operator is lowered: the value on the left stays where it is, or waits in a
fresh temp. -/
theorem lowerExpr_op {o : OpType} {k k' : ℕ} {stmts : List FlatStmt} {e' : LIRExpr}
    (h : lowerExpr globals (.op o l r) k = some (stmts, e', k')) (hsep : (IRExpr.op o l r).Ordered) :
    ∃ p e, e' = .op o p e ∧ Operands globals l r k stmts p e := by
  obtain ⟨⟨leftStmt, leftExpr, k₁⟩, hleft, h⟩ := Option.bind_eq_some_iff.mp h
  obtain ⟨⟨rightStmt, rightExpr, k₂⟩, hright, h⟩ := Option.bind_eq_some_iff.mp h
  obtain ⟨comm, hcomm, h⟩ := Option.bind_eq_some_iff.mp h
  have hops := operands_of_commutes hleft hright hcomm hsep.1 hsep.2.1 hsep.2.2
  cases comm with
  | true => cases h; exact ⟨_, _, rfl, hops⟩
  | false => cases h; exact ⟨_, _, rfl, hops⟩

/-- Running the first operand, and holding it. -/
theorem Operands.left {k : ℕ} {code stmts : List FlatStmt} {p e : LIRExpr}
    (h : Operands globals l r k code p e) (hl : Simulates S body globals (.expr l) s tr out)
    (hsep : l.Ordered) (hplace : (code ++ rest) <:+ body) (hagree : Agree s σ)
    (hsub : ∀ st ∈ code, st ∈ stmts) :
    (∀ P, out.Aborts → Lands S body (code ++ rest) rest stmts tr σ out P) ∧
    ∀ v s₁, out = .value v s₁ → ∃ rightStmt k₁ k₂ σ₁,
      lowerExpr globals r k₁ = some (rightStmt, e, k₂) ∧ (rightStmt ++ rest) <:+ body ∧
      (∀ st ∈ rightStmt, st ∈ stmts ∧ st.Leaves p) ∧ p.eval S σ₁ = some v ∧
      Reaches S body (code ++ rest) (rightStmt ++ rest) stmts tr σ s₁ σ₁ := by
  obtain ⟨leftStmt, leftExpr, k₁, rightStmt, k₂, mid, hleft, hright, hheld, rfl, hleaves⟩ := h.ex
  have hassoc : leftStmt ++ (mid ++ rightStmt) ++ rest = leftStmt ++ (mid ++ (rightStmt ++ rest)) := by
    simp only [List.append_assoc]
  have hlands := hl hsep k _ _ _ hleft (mid ++ (rightStmt ++ rest)) σ (hassoc ▸ hplace) hagree
  rw [hassoc] at hplace ⊢
  have hsubl (st : FlatStmt) (hst : st ∈ leftStmt) : st ∈ stmts := hsub st (by simp [hst])
  refine ⟨fun P hout => hlands.of_aborts hout hsubl, ?_⟩
  rintro v s₁ rfl
  obtain ⟨σ₁, hreach, heval⟩ := hlands.finish s₁ rfl
  have hhold : ∃ σ₂, Reaches S body (mid ++ (rightStmt ++ rest)) (rightStmt ++ rest) stmts [] σ₁ s₁ σ₂ ∧
      p.eval S σ₂ = some v :=
    hheld.reaches (heval v s₁ rfl) hreach.agree fun st hst => hsub st (by simp [hst])
  obtain ⟨σ₂, hreach', hp⟩ := hhold
  refine ⟨rightStmt, k₁, k₂, σ₂, hright, ?_, fun st hst => ⟨hsub st (by simp [hst]), hleaves st hst⟩,
    hp, ?_⟩
  · exact (List.suffix_append _ _).trans ((List.suffix_append _ _).trans hplace)
  · have htrans := (hreach.mono hsubl).trans hreach'
    rwa [List.append_nil] at htrans

/-- Running both operands. -/
theorem Operands.both {k : ℕ} {code stmts : List FlatStmt} {p e : LIRExpr}
    (h : Operands globals l r k code p e) (hl : Simulates S body globals (.expr l) s tr₁ (.value a s₁))
    (hr : Simulates S body globals (.expr r) s₁ tr₂ out) (hsep : l.Ordered) (hsep' : r.Ordered)
    (hplace : (code ++ rest) <:+ body) (hagree : Agree s σ) (hsub : ∀ st ∈ code, st ∈ stmts) :
    Lands S body (code ++ rest) rest stmts (tr₁ ++ tr₂) σ out fun σ₂ =>
      p.eval S σ₂ = some a ∧ ∀ b s₂, out = .value b s₂ → e.eval S σ₂ = some b := by
  obtain ⟨-, hleft⟩ := h.left hl hsep hplace hagree hsub
  obtain ⟨rightStmt, k₁, k₂, σ₁, hright, hplace', hst, hp, hreach⟩ := hleft a s₁ rfl
  have hlands := hr hsep' k₁ _ _ _ hright rest σ₁ hplace' hreach.agree
  refine hreach.lands ⟨fun s₂ hs₂ => ?_, hlands.abort.mono fun st h => (hst st h).1⟩
  obtain ⟨σ₂, hreach', he⟩ := hlands.finish s₂ hs₂
  -- the statements of the right operand leave what waits for them alone
  have hp₂ : p.eval S σ₂ = some a := by rw [hreach'.eval_eq fun st h => (hst st h).2, hp]
  exact ⟨σ₂, hreach'.mono fun st h => (hst st h).1, hp₂, he⟩

end Operands

/-! ## Expressions -/

section Expressions

variable {l r e address : IRExpr} {args es : List IRExpr} {st : IRStmt} {o : OpType}
  {s s₁ s₂ : Store M} {tr tr₁ tr₂ : List (Action M)} {a b v : Word} {vs : List Word}
  {out : Mid.Outcome M}

/-- The right operand runs in between, and the left one still has its value where the operator reads it. -/
theorem simulates_op (hl : Simulates S body globals (.expr l) s tr₁ (.value a s₁))
    (hr : Simulates S body globals (.expr r) s₁ tr₂ (.value b s₂)) (hv : o.eval a b = some v) :
    Simulates S body globals (.expr (.op o l r)) s (tr₁ ++ tr₂) (.value v s₂) := by
  intro hsep k stmts e' k' hlow rest σ hplace hagree
  obtain ⟨p, e, rfl, hops⟩ := lowerExpr_op hlow hsep
  have hlands := hops.both hl hr hsep.1 hsep.2.1 hplace hagree fun _ h => h
  obtain ⟨σ₂, hreach, hp, he⟩ := hlands.finish s₂ rfl
  refine hreach.lands_done (fun w s' hw => ?_) rfl
  cases hw
  rw [LIRExpr.eval, hp, he b s₂ rfl]
  exact hv

/-- A trap or a cut in the left operand comes before anything of the right one. -/
theorem simulates_opLeft (hl : Simulates S body globals (.expr l) s tr out) (hout : out.Aborts) :
    Simulates S body globals (.expr (.op o l r)) s tr out := by
  intro hsep k stmts e' k' hlow rest σ hplace hagree
  obtain ⟨p, e, rfl, hops⟩ := lowerExpr_op hlow hsep
  exact (hops.left hl hsep.1 hplace hagree fun _ h => h).1 _ hout

/-- A trap or a cut in the right operand comes after the code of the left one. -/
theorem simulates_opRight (hl : Simulates S body globals (.expr l) s tr₁ (.value a s₁))
    (hr : Simulates S body globals (.expr r) s₁ tr₂ out) (hout : out.Aborts) :
    Simulates S body globals (.expr (.op o l r)) s (tr₁ ++ tr₂) out := by
  intro hsep k stmts e' k' hlow rest σ hplace hagree
  obtain ⟨p, e, rfl, hops⟩ := lowerExpr_op hlow hsep
  exact (hops.both hl hr hsep.1 hsep.2.1 hplace hagree fun _ h => h).of_aborts hout fun _ h => h

/-- The word is read where the address has been computed, from the memory at that point. -/
theorem simulates_mem (h : Simulates S body globals (.expr e) s tr (.value a s₁))
    (hread : S.read s₁.mem a = some v) :
    Simulates S body globals (.expr (.mem e)) s (tr ++ [.load a v]) (.value v s₁) := by
  intro hsep k stmts e' k' hlow rest σ hplace hagree
  obtain ⟨⟨stmts, e₁, k₁⟩, he, hlow⟩ := Option.bind_eq_some_iff.mp hlow
  cases hlow
  have hlands := h hsep k _ _ _ he rest σ hplace hagree
  obtain ⟨σ₁, hreach, heval⟩ := hlands.finish s₁ rfl
  have hload : Reaches S body rest rest stmts [.load a v] σ₁ s₁ σ₁ :=
    ⟨[], .refl _, rfl, hreach.agree, fun _ _ => rfl⟩
  refine (hreach.trans hload).lands_done (fun w s' hw => ?_) rfl
  cases hw
  rw [LIRExpr.eval, heval a s₁ rfl, hreach.agree.mem]
  exact hread

/-- Without an address there is no read. -/
theorem simulates_memAbort (h : Simulates S body globals (.expr e) s tr out) (hout : out.Aborts) :
    Simulates S body globals (.expr (.mem e)) s tr out := by
  intro hsep k stmts e' k' hlow rest σ hplace hagree
  obtain ⟨⟨stmts, e₁, k₁⟩, he, hlow⟩ := Option.bind_eq_some_iff.mp hlow
  cases hlow
  exact (h hsep k _ _ _ he rest σ hplace hagree).of_aborts hout fun _ h => h

/-- Statements in front of lowered code. -/
theorem lands_behind {stmts stmts' rest dest all : List FlatStmt} {σ : Store M} {P P' : Store M → Prop}
    (h : Lands S body (stmts ++ (stmts' ++ rest)) (stmts' ++ rest) stmts tr₁ σ (.done s₁) P)
    (h' : ∀ σ₁, Agree s₁ σ₁ → Lands S body (stmts' ++ rest) dest stmts' tr₂ σ₁ out P')
    (hsub : ∀ st ∈ stmts ++ stmts', st ∈ all) :
    Lands S body (stmts ++ (stmts' ++ rest)) dest all (tr₁ ++ tr₂) σ out P' := by
  obtain ⟨σ₁, hreach, -⟩ := h.finish s₁ rfl
  exact (hreach.mono fun st hst => hsub st (by simp [hst])).lands
    ((h' σ₁ hreach.agree).mono fun st hst => hsub st (by simp [hst]))

/-- The statement runs first, and the expression goes on where it ends. -/
theorem simulates_eseq (hst : Simulates S body globals (.stmt st) s tr₁ (.done s₁))
    (he : Simulates S body globals (.expr e) s₁ tr₂ out) :
    Simulates S body globals (.expr (.eseq st e)) s (tr₁ ++ tr₂) out := by
  intro hsep k stmts e' k' hlow rest σ hplace hagree
  obtain ⟨⟨stmts, k₁⟩, hs, hlow⟩ := Option.bind_eq_some_iff.mp hlow
  obtain ⟨⟨stmt, expr, k₂⟩, hv, hlow⟩ := Option.bind_eq_some_iff.mp hlow
  cases hlow
  rw [List.append_assoc] at hplace ⊢
  have hplace' := (List.suffix_append stmts (stmt ++ rest)).trans hplace
  exact lands_behind (hst hsep.1 k _ _ hs _ σ hplace hagree)
    (fun σ₁ h => he hsep.2 k₁ _ _ _ hv rest σ₁ hplace' h) fun _ h => h

/-- A statement that traps is not followed by its expression. -/
theorem simulates_eseqAbort (hst : Simulates S body globals (.stmt st) s tr out)
    (hout : out.Aborts) : Simulates S body globals (.expr (.eseq st e)) s tr out := by
  intro hsep k stmts e' k' hlow rest σ hplace hagree
  obtain ⟨⟨stmts, k₁⟩, hs, hlow⟩ := Option.bind_eq_some_iff.mp hlow
  obtain ⟨⟨stmt, expr, k₂⟩, hv, hlow⟩ := Option.bind_eq_some_iff.mp hlow
  cases hlow
  rw [List.append_assoc] at hplace ⊢
  exact (hst hsep.1 k _ _ hs _ σ hplace hagree).of_aborts hout fun st hst => by simp [hst]

/-- The address of a call keeps its name behind its statements. -/
theorem simulates_targetEseq (hst : Simulates S body globals (.stmt st) s tr₁ (.done s₁))
    (he : Simulates S body globals (.target e) s₁ tr₂ out) :
    Simulates S body globals (.target (.eseq st e)) s (tr₁ ++ tr₂) out := by
  intro hsep k stmts e' k' hlow rest σ hplace hagree
  obtain ⟨⟨stmts, k₁⟩, hs, hlow⟩ := Option.bind_eq_some_iff.mp hlow
  obtain ⟨⟨stmt, expr, k₂⟩, hv, hlow⟩ := Option.bind_eq_some_iff.mp hlow
  cases hlow
  rw [List.append_assoc] at hplace ⊢
  have hplace' := (List.suffix_append stmts (stmt ++ rest)).trans hplace
  exact lands_behind (hst hsep.1 k _ _ hs _ σ hplace hagree)
    (fun σ₁ h => he hsep.2 k₁ _ _ _ hv rest σ₁ hplace' h) fun _ h => h

/-- The same in front of the name of a callee. -/
theorem simulates_targetAbort (hst : Simulates S body globals (.stmt st) s tr out)
    (hout : out.Aborts) : Simulates S body globals (.target (.eseq st e)) s tr out := by
  intro hsep k stmts e' k' hlow rest σ hplace hagree
  obtain ⟨⟨stmts, k₁⟩, hs, hlow⟩ := Option.bind_eq_some_iff.mp hlow
  obtain ⟨⟨stmt, expr, k₂⟩, hv, hlow⟩ := Option.bind_eq_some_iff.mp hlow
  cases hlow
  rw [List.append_assoc] at hplace ⊢
  exact (hst hsep.1 k _ _ hs _ σ hplace hagree).of_aborts hout fun st hst => by simp [hst]

/-! ## Arguments and returned values -/

/-- No arguments, no code. -/
theorem simulates_nil (s : Store M) : Simulates S body globals (.exprs []) s [] (.values [] s) := by
  refine fun _ => ⟨fun k stmts temps k' hlow rest σ hplace hagree => ?_,
    fun k pairs k' hlow rest σ hplace hagree => ?_⟩
  · cases hlow
    refine (Reaches.refl hagree).lands_done (fun vs s₁ h => ?_) rfl
    cases h
    rfl
  · cases hlow
    refine ⟨fun vs s₁ h => ?_, trivial⟩
    cases h
    exact ⟨[], σ, .nil rest σ, rfl, hagree, fun _ _ => rfl⟩

/-- Evaluating an argument and saving it. -/
theorem reaches_arg (all : List FlatStmt) {si stmts rest : List FlatStmt} {ei : LIRExpr}
    {σ : Store M} {k : ℕ}
    (h : Lands S body (si ++ (.move (freshTemp k) ei :: (stmts ++ rest)))
      (.move (freshTemp k) ei :: (stmts ++ rest)) si tr σ (.value v s₁) fun σ₁ =>
        ∀ w s', Mid.Outcome.value v s₁ = .value w s' → ei.eval S σ₁ = some w)
    (hsub : ∀ st ∈ si ++ [.move (freshTemp k) ei], st ∈ all) :
    ∃ σ₁, Reaches S body (si ++ (.move (freshTemp k) ei :: (stmts ++ rest))) (stmts ++ rest) all tr
      σ s₁ σ₁ ∧ (freshTemp k).eval S σ₁ = some v := by
  obtain ⟨σ₁, hreach, heval⟩ := h.finish s₁ rfl
  have hsave : Reaches S body (.move (freshTemp k) ei :: (stmts ++ rest)) (stmts ++ rest) all [] σ₁ s₁
      (σ₁.set (freshName k) v) :=
    .save (heval v s₁ rfl) hreach.agree (hsub _ (by simp))
  have htrans := (hreach.mono fun st hst => hsub st (by simp [hst])).trans hsave
  rw [List.append_nil] at htrans
  exact ⟨_, htrans, congrArg some (Function.update_self _ _ _)⟩

/-- An argument is put into a temp of its own before the next one is computed. -/
theorem simulates_cons (he : Simulates S body globals (.expr e) s tr₁ (.value v s₁))
    (hes : Simulates S body globals (.exprs es) s₁ tr₂ (.values vs s₂)) :
    Simulates S body globals (.exprs (e :: es)) s (tr₁ ++ tr₂) (.values (v :: vs) s₂) := by
  refine fun hsep => ⟨fun k stmts temps k' hlow rest σ hplace hagree => ?_,
    fun k pairs k' hlow rest σ hplace hagree => ?_⟩
  · obtain ⟨⟨si, ei, k₁⟩, hlow₁, hlow⟩ := Option.bind_eq_some_iff.mp hlow
    obtain ⟨⟨stmts₂, temps₂, k₂⟩, hlow₂, hlow⟩ := Option.bind_eq_some_iff.mp hlow
    cases hlow
    rw [List.append_assoc, List.cons_append] at hplace ⊢
    obtain ⟨σ₁, hreach, hval⟩ := reaches_arg (si ++ .move (freshTemp (k₁ + 1)) ei :: stmts₂)
      (he hsep.1 k _ _ _ hlow₁ _ σ hplace hagree) fun st hst => by simp at hst ⊢; tauto
    have hplace' := (List.suffix_cons _ _).trans ((List.suffix_append si _).trans hplace)
    have hlands := (hes hsep.2).1 (k₁ + 1) _ _ _ hlow₂ rest σ₁ hplace' hreach.agree
    obtain ⟨σ₂, hreach', htemps⟩ := hlands.finish s₂ rfl
    -- the later arguments do not assign the temp of this one
    have hkept := hreach'.eval_eq ((lowerArgs_shape es hlow₂).leaves_fresh (j := k₁ + 1)
      (fun x hx => ordered_exprs es hsep.2 (.inr hx)) (.inl le_rfl))
    refine (hreach.trans (hreach'.mono fun st hst => by simp [hst])).lands_done (fun ws s' hw => ?_) rfl
    cases hw
    rw [evalList, List.mapM_cons, hkept, hval]
    have htemps₂ : temps₂.mapM (LIRExpr.eval S σ₂) = some vs := htemps vs s₂ rfl
    rw [htemps₂]
    rfl
  · obtain ⟨⟨stmts, expr, k₁⟩, hlow₁, hlow⟩ := Option.bind_eq_some_iff.mp hlow
    obtain ⟨⟨rest₂, k₂⟩, hlow₂, hlow⟩ := Option.bind_eq_some_iff.mp hlow
    cases hlow
    rw [List.flatMap_cons, List.append_assoc] at hplace ⊢
    have hlands := he hsep.1 k _ _ _ hlow₁ _ σ hplace hagree
    obtain ⟨σ₁, ⟨evs, hrun, hran⟩, heval⟩ := hlands.finish s₁ rfl
    have hplace' := (List.suffix_append stmts _).trans hplace
    refine ⟨fun ws s' hw => ?_, trivial⟩
    cases hw
    obtain ⟨evs', σ₂, hchain, hran'⟩ :=
      ((hes hsep.2).2 k₁ _ _ hlow₂ rest σ₁ hplace' hran.agree).1 vs s₂ rfl
    refine ⟨evs ++ evs', σ₂, .cons hrun (heval v s₁ rfl) hchain, ?_, hran'.agree, fun p hp => ?_⟩
    · rw [observed_append, hran.observed, hran'.observed, Mid.events_append]
    · rw [hran'.leaves p fun st hst => hp st (by simp [hst]),
        hran.leaves p fun st hst => hp st (by simp [hst])]

/-- A trap in the first argument leaves the others alone. -/
theorem simulates_consHead (he : Simulates S body globals (.expr e) s tr out)
    (hout : out.Aborts) : Simulates S body globals (.exprs (e :: es)) s tr out := by
  refine fun hsep => ⟨fun k stmts temps k' hlow rest σ hplace hagree => ?_,
    fun k pairs k' hlow rest σ hplace hagree => ⟨fun vs s₁ h => ?_, ?_⟩⟩
  · obtain ⟨⟨si, ei, k₁⟩, hlow₁, hlow⟩ := Option.bind_eq_some_iff.mp hlow
    obtain ⟨⟨stmts₂, temps₂, k₂⟩, hlow₂, hlow⟩ := Option.bind_eq_some_iff.mp hlow
    cases hlow
    rw [List.append_assoc] at hplace ⊢
    exact (he hsep.1 k _ _ _ hlow₁ _ σ hplace hagree).of_aborts hout fun st hst => by simp [hst]
  · rw [h] at hout
    cases hout
  · obtain ⟨⟨stmts, expr, k₁⟩, hlow₁, hlow⟩ := Option.bind_eq_some_iff.mp hlow
    obtain ⟨⟨rest₂, k₂⟩, hlow₂, hlow⟩ := Option.bind_eq_some_iff.mp hlow
    cases hlow
    rw [List.flatMap_cons, List.append_assoc] at hplace ⊢
    exact (he hsep.1 k _ _ _ hlow₁ _ σ hplace hagree).abort.mono fun st hst => by simp [hst]

/-- A trap in a later argument comes after the first one has got its temp. -/
theorem simulates_consTail (he : Simulates S body globals (.expr e) s tr₁ (.value v s₁))
    (hes : Simulates S body globals (.exprs es) s₁ tr₂ out) (hout : out.Aborts) :
    Simulates S body globals (.exprs (e :: es)) s (tr₁ ++ tr₂) out := by
  refine fun hsep => ⟨fun k stmts temps k' hlow rest σ hplace hagree => ?_,
    fun k pairs k' hlow rest σ hplace hagree => ⟨fun vs s₁ h => ?_, ?_⟩⟩
  · obtain ⟨⟨si, ei, k₁⟩, hlow₁, hlow⟩ := Option.bind_eq_some_iff.mp hlow
    obtain ⟨⟨stmts₂, temps₂, k₂⟩, hlow₂, hlow⟩ := Option.bind_eq_some_iff.mp hlow
    cases hlow
    rw [List.append_assoc, List.cons_append] at hplace ⊢
    obtain ⟨σ₁, hreach, -⟩ := reaches_arg (si ++ .move (freshTemp (k₁ + 1)) ei :: stmts₂)
      (he hsep.1 k _ _ _ hlow₁ _ σ hplace hagree) fun st hst => by simp at hst ⊢; tauto
    have hplace' := (List.suffix_cons _ _).trans ((List.suffix_append si _).trans hplace)
    have hlands := (hes hsep.2).1 (k₁ + 1) _ _ _ hlow₂ rest σ₁ hplace' hreach.agree
    exact (hreach.aborted (hlands.abort.mono fun st hst => by simp [hst])).lands
      (finished_of_aborts hout)
  · rw [h] at hout
    cases hout
  · obtain ⟨⟨stmts, expr, k₁⟩, hlow₁, hlow⟩ := Option.bind_eq_some_iff.mp hlow
    obtain ⟨⟨rest₂, k₂⟩, hlow₂, hlow⟩ := Option.bind_eq_some_iff.mp hlow
    cases hlow
    rw [List.flatMap_cons, List.append_assoc] at hplace ⊢
    obtain ⟨σ₁, hreach, -⟩ := (he hsep.1 k _ _ _ hlow₁ _ σ hplace hagree).finish s₁ rfl
    have hplace' := (List.suffix_append stmts _).trans hplace
    have habort := ((hes hsep.2).2 k₁ _ _ hlow₂ rest σ₁ hplace' hreach.agree).2
    exact (hreach.mono fun st hst => by simp [hst]).aborted
      (habort.mono fun st hst => by simp [hst])

/-! ## Calls -/

/-- The lowered form of a call. -/
theorem lowerExpr_call {k k' : ℕ} {stmts : List FlatStmt} {e' : LIRExpr}
    (h : lowerExpr globals (.call address args) k = some (stmts, e', k')) :
    ∃ s0 f k₁ sargs temps k₂, lowerExpr globals address k = some (s0, .name f, k₁) ∧
      lowerArgs globals args k₁ = some (sargs, temps, k₂) ∧ e' = freshTemp (k₂ + 1) ∧
      stmts = s0 ++ (sargs ++
        [.callStmt f 1 temps, .move (freshTemp (k₂ + 1)) (.temp (retTemp 1))]) := by
  obtain ⟨⟨s0, e0, k₁⟩, haddress, h⟩ := Option.bind_eq_some_iff.mp h
  cases e0 with
  | name f =>
    obtain ⟨⟨sargs, temps, k₂⟩, hargs, h⟩ := Option.bind_eq_some_iff.mp h
    cases h
    exact ⟨s0, f, k₁, sargs, temps, k₂, haddress, hargs, rfl, List.append_assoc ..⟩
  | _ => cases h

/-- The callee and its arguments are computed, the call is made, and its first result is the value. -/
theorem simulates_call {f : String} {m : M}
    (ha : Simulates S body globals (.target address) s tr₁ (.callee f s₁))
    (hargs : Simulates S body globals (.exprs args) s₁ tr₂ (.values vs s₂)) :
    Simulates S body globals (.expr (.call address args)) s
      (tr₁ ++ tr₂ ++ [.event (.call f vs [v] m)])
      (.value v ⟨setReturns 1 [v] s₂.temps, m⟩) := by
  intro hsep k stmts e' k' hlow rest σ hplace hagree
  obtain ⟨s0, g, k₁, sargs, temps, k₂, hlow₁, hlow₂, rfl, hstmts⟩ := lowerExpr_call hlow
  have hall : stmts ++ rest = s0 ++ (sargs ++ (.callStmt g 1 temps ::
      .move (freshTemp (k₂ + 1)) (.temp (retTemp 1)) :: rest)) := by
    rw [hstmts]
    simp only [List.append_assoc, List.cons_append, List.nil_append]
  rw [hall] at hplace ⊢
  obtain ⟨σ₁, hreach, hname⟩ := (ha hsep.1 k _ _ _ hlow₁ _ σ hplace hagree).finish s₁ rfl
  obtain rfl : g = f := by cases hname f s₁ rfl; rfl
  have hplace' := (List.suffix_append s0 _).trans hplace
  obtain ⟨σ₂, hreach', htemps⟩ :=
    ((hargs hsep.2).1 k₁ _ _ _ hlow₂ _ σ₁ hplace' hreach.agree).finish s₂ rfl
  -- the call itself and the copy of its result
  have hcall : Reaches S body (.callStmt g 1 temps ::
      .move (freshTemp (k₂ + 1)) (.temp (retTemp 1)) :: rest)
      (.move (freshTemp (k₂ + 1)) (.temp (retTemp 1)) :: rest) stmts
      [.event (.call g vs [v] m)] σ₂ ⟨setReturns 1 [v] s₂.temps, m⟩
      ⟨setReturns 1 [v] σ₂.temps, m⟩ :=
    .exec (.call (htemps vs s₂ rfl) rfl) (by simp [hstmts]) rfl (hreach'.agree.setReturns 1 [v] m)
  have hval : (LIRExpr.temp (retTemp 1)).eval S ⟨setReturns 1 [v] σ₂.temps, m⟩ = some v := by
    show some (Function.update σ₂.temps (retTemp 1) v (retTemp 1)) = some v
    rw [Function.update_self]
  have hsave : Reaches S body (.move (freshTemp (k₂ + 1)) (.temp (retTemp 1)) :: rest) rest stmts []
      ⟨setReturns 1 [v] σ₂.temps, m⟩ ⟨setReturns 1 [v] s₂.temps, m⟩ _ :=
    .save hval hcall.agree (by simp [hstmts])
  have htrans := (((hreach.mono fun st hst => by simp [hstmts, hst]).trans
    (hreach'.mono fun st hst => by simp [hstmts, hst])).trans hcall).trans hsave
  rw [List.append_nil] at htrans
  refine htrans.lands_done (fun w s' hw => ?_) rfl
  cases hw
  exact congrArg some (Function.update_self _ _ _)

/-- A trap in front of the callee's name comes before the arguments. -/
theorem simulates_callTarget (ha : Simulates S body globals (.target address) s tr out)
    (hout : out.Aborts) : Simulates S body globals (.expr (.call address args)) s tr out := by
  intro hsep k stmts e' k' hlow rest σ hplace hagree
  obtain ⟨s0, g, k₁, sargs, temps, k₂, hlow₁, hlow₂, rfl, rfl⟩ := lowerExpr_call hlow
  rw [List.append_assoc] at hplace ⊢
  exact (ha hsep.1 k _ _ _ hlow₁ _ σ hplace hagree).of_aborts hout fun st hst => by simp [hst]

/-- A trap in an argument comes before the call. -/
theorem simulates_callArgs {f : String}
    (ha : Simulates S body globals (.target address) s tr₁ (.callee f s₁))
    (hargs : Simulates S body globals (.exprs args) s₁ tr₂ out) (hout : out.Aborts) :
    Simulates S body globals (.expr (.call address args)) s (tr₁ ++ tr₂) out := by
  intro hsep k stmts e' k' hlow rest σ hplace hagree
  obtain ⟨s0, g, k₁, sargs, temps, k₂, hlow₁, hlow₂, rfl, rfl⟩ := lowerExpr_call hlow
  rw [List.append_assoc, List.append_assoc] at hplace ⊢
  obtain ⟨σ₁, hreach, -⟩ := (ha hsep.1 k _ _ _ hlow₁ _ σ hplace hagree).finish s₁ rfl
  have hplace' := (List.suffix_append s0 _).trans hplace
  have hlands := (hargs hsep.2).1 k₁ _ _ _ hlow₂ _ σ₁ hplace' hreach.agree
  exact ((hreach.mono fun st hst => by simp [hst]).aborted
    (hlands.abort.mono fun st hst => by simp [hst])).lands (finished_of_aborts hout)

end Expressions

/-! ## Statements -/

section Statements

variable {a e d g : IRExpr} {args vals : List IRExpr} {st : IRStmt}
  {s s₁ s₂ : Store M} {tr tr₁ tr₂ : List (Action M)} {p v : Word} {vs : List Word} {x l t : String}
  {out : Mid.Outcome M}

/-- A move to a temp ends with the value in it. -/
theorem simulates_moveTemp (he : Simulates S body globals (.expr e) s tr (.value v s₁)) :
    Simulates S body globals (.stmt (.move (.temp x) e)) s tr (.done (s₁.set x v)) := by
  intro hsep k stmts k' hlow rest σ hplace hagree
  obtain ⟨⟨e2Stmts, e2, k₁⟩, hlow₁, hlow⟩ := Option.bind_eq_some_iff.mp hlow
  cases hlow
  rw [List.append_assoc] at hplace ⊢
  obtain ⟨σ₁, hreach, heval⟩ := (he hsep.2.1 k _ _ _ hlow₁ _ σ hplace hagree).finish s₁ rfl
  have hmove : Reaches S body (.move (.temp x) e2 :: rest) rest (e2Stmts ++ [.move (.temp x) e2]) []
      σ₁ (s₁.set x v) (σ₁.set x v) :=
    .exec (.moveTemp (heval v s₁ rfl)) (by simp) rfl (hreach.agree.set x v)
  have htrans := (hreach.mono fun st hst => by simp [hst]).trans hmove
  rw [List.append_nil] at htrans
  exact htrans.lands_done trivial rfl

/-- A source that traps is not moved. -/
theorem simulates_moveTempAbort (he : Simulates S body globals (.expr e) s tr out)
    (hout : out.Aborts) : Simulates S body globals (.stmt (.move (.temp x) e)) s tr out := by
  intro hsep k stmts k' hlow rest σ hplace hagree
  obtain ⟨⟨e2Stmts, e2, k₁⟩, hlow₁, hlow⟩ := Option.bind_eq_some_iff.mp hlow
  cases hlow
  rw [List.append_assoc] at hplace ⊢
  exact (he hsep.2.1 k _ _ _ hlow₁ _ σ hplace hagree).of_aborts hout fun st hst => by simp [hst]

/-- The lowered form of a write. -/
theorem lowerStatement_moveMem {k k' : ℕ} {stmts : List FlatStmt}
    (h : lowerStatement globals (.move (.mem a) e) k = some (stmts, k'))
    (hsep : (IRStmt.move (.mem a) e).Ordered) :
    ∃ code p e', Operands globals a e k code p e' ∧ stmts = code ++ [.move (.mem p) e'] := by
  obtain ⟨⟨e1Stmts, e1, k₁⟩, he1, h⟩ := Option.bind_eq_some_iff.mp h
  obtain ⟨⟨e2Stmts, e2, k₂⟩, he2, h⟩ := Option.bind_eq_some_iff.mp h
  obtain ⟨comm, hcomm, h⟩ := Option.bind_eq_some_iff.mp h
  have hops := operands_of_commutes he1 he2 hcomm hsep.1 hsep.2.1 hsep.2.2
  cases comm with
  | true => cases h; exact ⟨_, _, _, hops, rfl⟩
  | false => cases h; exact ⟨_, _, _, hops, rfl⟩

/-- The address is computed before the source, and the word is written after both. -/
theorem simulates_moveMem {m : M} (ha : Simulates S body globals (.expr a) s tr₁ (.value p s₁))
    (he : Simulates S body globals (.expr e) s₁ tr₂ (.value v s₂))
    (hwrite : S.write s₂.mem p v = some m) :
    Simulates S body globals (.stmt (.move (.mem a) e)) s (tr₁ ++ tr₂ ++ [.event (.store p v)])
      (.done { s₂ with mem := m }) := by
  intro hsep k stmts k' hlow rest σ hplace hagree
  obtain ⟨code, q, e', hops, rfl⟩ := lowerStatement_moveMem hlow hsep
  rw [List.append_assoc] at hplace ⊢
  have hsub (st : FlatStmt) (hst : st ∈ code) : st ∈ code ++ [.move (.mem q) e'] := by simp [hst]
  have hlands := hops.both ha he hsep.1 hsep.2.1 hplace hagree hsub
  obtain ⟨σ₂, hreach, hq, he'⟩ := hlands.finish s₂ rfl
  have hstore : Reaches S body ([.move (.mem q) e'] ++ rest) rest (code ++ [.move (.mem q) e'])
      [.event (.store p v)] σ₂ { s₂ with mem := m } { σ₂ with mem := m } :=
    .exec (.moveMem hq (he' v s₂ rfl) (by rw [hreach.agree.mem]; exact hwrite)) (by simp) rfl
      (hreach.agree.write m)
  exact (hreach.trans hstore).lands_done trivial rfl

/-- A trap in the address comes before the source. -/
theorem simulates_moveMemAddress (ha : Simulates S body globals (.expr a) s tr out)
    (hout : out.Aborts) : Simulates S body globals (.stmt (.move (.mem a) e)) s tr out := by
  intro hsep k stmts k' hlow rest σ hplace hagree
  obtain ⟨code, q, e', hops, rfl⟩ := lowerStatement_moveMem hlow hsep
  rw [List.append_assoc] at hplace ⊢
  exact ((hops.left ha hsep.1 hplace hagree fun _ h => h).1 (fun _ => True) hout).of_aborts hout
    fun st hst => by simp [hst]

/-- A trap in the source comes before the write. -/
theorem simulates_moveMemSource (ha : Simulates S body globals (.expr a) s tr₁ (.value p s₁))
    (he : Simulates S body globals (.expr e) s₁ tr₂ out) (hout : out.Aborts) :
    Simulates S body globals (.stmt (.move (.mem a) e)) s (tr₁ ++ tr₂) out := by
  intro hsep k stmts k' hlow rest σ hplace hagree
  obtain ⟨code, q, e', hops, rfl⟩ := lowerStatement_moveMem hlow hsep
  rw [List.append_assoc] at hplace ⊢
  exact (hops.both ha he hsep.1 hsep.2.1 hplace hagree fun _ h => h).of_aborts hout
    fun st hst => by simp [hst]

/-- The statements of a target run before the rest of the move. -/
theorem simulates_moveEseq (hst : Simulates S body globals (.stmt st) s tr₁ (.done s₁))
    (hmove : Simulates S body globals (.stmt (.move d e)) s₁ tr₂ out) :
    Simulates S body globals (.stmt (.move (.eseq st d) e)) s (tr₁ ++ tr₂) out := by
  intro hsep k stmts k' hlow rest σ hplace hagree
  obtain ⟨⟨eseqStmts, k₁⟩, hlow₁, hlow⟩ := Option.bind_eq_some_iff.mp hlow
  obtain ⟨⟨stmts₂, k₂⟩, hlow₂, hlow⟩ := Option.bind_eq_some_iff.mp hlow
  cases hlow
  rw [List.append_assoc] at hplace ⊢
  have hplace' := (List.suffix_append eseqStmts (stmts₂ ++ rest)).trans hplace
  have hsep' : (IRStmt.move d e).Ordered :=
    ⟨hsep.1.2, hsep.2.1, hsep.2.2⟩
  exact lands_behind (hst hsep.1.1 k _ _ hlow₁ _ σ hplace hagree)
    (fun σ₁ h => hmove hsep' k₁ _ _ hlow₂ rest σ₁ hplace' h) fun _ h => h

/-- A trap in the statements of a target. -/
theorem simulates_moveEseqAbort (hst : Simulates S body globals (.stmt st) s tr out)
    (hout : out.Aborts) : Simulates S body globals (.stmt (.move (.eseq st d) e)) s tr out := by
  intro hsep k stmts k' hlow rest σ hplace hagree
  obtain ⟨⟨eseqStmts, k₁⟩, hlow₁, hlow⟩ := Option.bind_eq_some_iff.mp hlow
  obtain ⟨⟨stmts₂, k₂⟩, hlow₂, hlow⟩ := Option.bind_eq_some_iff.mp hlow
  cases hlow
  rw [List.append_assoc] at hplace ⊢
  exact (hst hsep.1.1 k _ _ hlow₁ _ σ hplace hagree).of_aborts hout fun st hst => by simp [hst]

/-- The lowered form of a conditional jump. -/
theorem lowerStatement_cjump {f : Option String} {k k' : ℕ} {stmts : List FlatStmt}
    (h : lowerStatement globals (.cjump g t f) k = some (stmts, k')) :
    ∃ guardStmts guardExpr b, lowerExpr globals g k = some (guardStmts, guardExpr, k') ∧
      stmts = guardStmts ++ [.endBlock b] ∧ ∀ (σ : Store M) (v : Word),
        guardExpr.eval S σ = some v → b.next S σ = some (if v ≠ 0 then some t else f) := by
  obtain ⟨⟨guardStmts, guardExpr, k₁⟩, hlow, h⟩ := Option.bind_eq_some_iff.mp h
  cases f with
  | some f =>
    cases h
    exact ⟨_, _, _, hlow, rfl, fun σ v hv => by rw [EndBlock.next, hv, Option.map_some]⟩
  | none =>
    cases h
    exact ⟨_, _, _, hlow, rfl, fun σ v hv => by rw [EndBlock.next, hv, Option.map_some]⟩

/-- Evaluating the guard and jumping. -/
theorem reaches_cjump {f : Option String} (hg : Simulates S body globals (.expr g) s tr (.value v s₁))
    (hsep : g.Ordered) {k k' : ℕ} {stmts rest dest : List FlatStmt} {σ : Store M}
    (hlow : lowerStatement globals (.cjump g t f) k = some (stmts, k'))
    (hplace : (stmts ++ rest) <:+ body) (hagree : Agree s σ)
    (hgoto : goto body rest (if v ≠ 0 then some t else f) = some dest) :
    ∃ σ₁, Reaches S body (stmts ++ rest) dest stmts tr σ s₁ σ₁ := by
  obtain ⟨guardStmts, guardExpr, b, hlow₁, rfl, hnext⟩ := lowerStatement_cjump (S := S) hlow
  rw [List.append_assoc] at hplace ⊢
  obtain ⟨σ₁, hreach, heval⟩ := (hg hsep k _ _ _ hlow₁ _ σ hplace hagree).finish s₁ rfl
  have hjump : Reaches S body ([.endBlock b] ++ rest) dest (guardStmts ++ [.endBlock b]) [] σ₁ s₁ σ₁ :=
    .control (hnext σ₁ v (heval v s₁ rfl)) hgoto hreach.agree
  have htrans := (hreach.mono fun st hst => by simp [hst]).trans hjump
  rw [List.append_nil] at htrans
  exact ⟨σ₁, htrans⟩

/-- A guard that is not zero jumps to the true label. -/
theorem simulates_cjumpTrue {f : Option String}
    (hg : Simulates S body globals (.expr g) s tr (.value v s₁)) (hv : v ≠ 0) :
    Simulates S body globals (.stmt (.cjump g t f)) s tr (.jump t s₁) := by
  intro hsep k stmts k' hlow rest σ hplace hagree
  refine Aborted.lands (fun dest hdest => ?_) rfl
  exact reaches_cjump hg hsep hlow hplace hagree (by rw [if_pos hv]; exact hdest)

/-- A guard of zero jumps to the false label. -/
theorem simulates_cjumpFalse {f : String}
    (hg : Simulates S body globals (.expr g) s tr (.value 0 s₁)) :
    Simulates S body globals (.stmt (.cjump g t (some f))) s tr (.jump f s₁) := by
  intro hsep k stmts k' hlow rest σ hplace hagree
  refine Aborted.lands (fun dest hdest => ?_) rfl
  exact reaches_cjump hg hsep hlow hplace hagree (by rw [if_neg (by simp)]; exact hdest)

/-- Without a false label, a guard of zero goes on behind the jump. -/
theorem simulates_cjumpFall (hg : Simulates S body globals (.expr g) s tr (.value 0 s₁)) :
    Simulates S body globals (.stmt (.cjump g t none)) s tr (.done s₁) := by
  intro hsep k stmts k' hlow rest σ hplace hagree
  have hgoto : goto body rest (if (0 : Word) ≠ 0 then some t else none) = some rest := by
    rw [if_neg (by simp)]
    rfl
  obtain ⟨σ₁, hreach⟩ := reaches_cjump hg hsep hlow hplace hagree hgoto
  exact hreach.lands_done trivial rfl

/-- A guard that traps does not jump. -/
theorem simulates_cjumpAbort {f : Option String} (hg : Simulates S body globals (.expr g) s tr out)
    (hout : out.Aborts) : Simulates S body globals (.stmt (.cjump g t f)) s tr out := by
  intro hsep k stmts k' hlow rest σ hplace hagree
  obtain ⟨guardStmts, guardExpr, b, hlow₁, rfl, -⟩ := lowerStatement_cjump (S := S) hlow
  rw [List.append_assoc] at hplace ⊢
  exact (hg hsep k _ _ _ hlow₁ _ σ hplace hagree).of_aborts hout fun st hst => by simp [hst]

/-- A call statement puts the results into the temps of the return values. -/
theorem simulates_callStmt {f : String} {n : ℕ} {rets : List Word} {m : M}
    (hargs : Simulates S body globals (.exprs args) s tr (.values vs s₁)) (hn : rets.length = n) :
    Simulates S body globals (.stmt (.callStmt f n args)) s (tr ++ [.event (.call f vs rets m)])
      (.done ⟨setReturns 1 rets s₁.temps, m⟩) := by
  intro hsep k stmts k' hlow rest σ hplace hagree
  obtain ⟨⟨stmts, temps, k₁⟩, hlow₁, hlow⟩ := Option.bind_eq_some_iff.mp hlow
  cases hlow
  rw [List.append_assoc] at hplace ⊢
  obtain ⟨σ₁, hreach, htemps⟩ := ((hargs hsep).1 k _ _ _ hlow₁ _ σ hplace hagree).finish s₁ rfl
  have hcall : Reaches S body ([.callStmt f n temps] ++ rest) rest (stmts ++ [.callStmt f n temps])
      [.event (.call f vs rets m)] σ₁ ⟨setReturns 1 rets s₁.temps, m⟩
      ⟨setReturns 1 rets σ₁.temps, m⟩ :=
    .exec (.call (htemps vs s₁ rfl) hn) (by simp) rfl (hreach.agree.setReturns 1 rets m)
  exact ((hreach.mono fun st hst => by simp [hst]).trans hcall).lands_done trivial rfl

/-- A trap in an argument of a call statement. -/
theorem simulates_callStmtAbort {f : String} {n : ℕ}
    (hargs : Simulates S body globals (.exprs args) s tr out) (hout : out.Aborts) :
    Simulates S body globals (.stmt (.callStmt f n args)) s tr out := by
  intro hsep k stmts k' hlow rest σ hplace hagree
  obtain ⟨⟨stmts, temps, k₁⟩, hlow₁, hlow⟩ := Option.bind_eq_some_iff.mp hlow
  cases hlow
  rw [List.append_assoc] at hplace ⊢
  exact ((hargs hsep).1 k _ _ _ hlow₁ _ σ hplace hagree).of_aborts hout fun st hst => by simp [hst]

/-- A trap in a returned value comes before the return. -/
theorem simulates_retAbort (hvals : Simulates S body globals (.exprs vals) s tr out)
    (hout : out.Aborts) : Simulates S body globals (.stmt (.ret vals)) s tr out := by
  intro hsep k stmts k' hlow rest σ hplace hagree
  obtain ⟨⟨pairs, k₁⟩, hlow₁, hlow⟩ := Option.bind_eq_some_iff.mp hlow
  cases hlow
  rw [List.append_assoc] at hplace ⊢
  have habort := ((hvals hsep).2 k _ _ hlow₁ _ σ hplace hagree).2
  exact (habort.mono fun st hst => by
    rw [List.mem_append]; exact .inl hst).lands (finished_of_aborts hout)

/-- The value of an expression statement is dropped. -/
theorem simulates_exp (he : Simulates S body globals (.expr e) s tr (.value v s₁)) :
    Simulates S body globals (.stmt (.exp e)) s tr (.done s₁) := by
  intro hsep k stmts k' hlow rest σ hplace hagree
  obtain ⟨⟨stmts, e', k₁⟩, hlow₁, hlow⟩ := Option.bind_eq_some_iff.mp hlow
  cases hlow
  obtain ⟨σ₁, hreach, -⟩ := (he hsep k _ _ _ hlow₁ rest σ hplace hagree).finish s₁ rfl
  exact hreach.lands_done trivial rfl

/-- The trap of an expression statement is not. -/
theorem simulates_expAbort (he : Simulates S body globals (.expr e) s tr out) (hout : out.Aborts) :
    Simulates S body globals (.stmt (.exp e)) s tr out := by
  intro hsep k stmts k' hlow rest σ hplace hagree
  obtain ⟨⟨stmts, e', k₁⟩, hlow₁, hlow⟩ := Option.bind_eq_some_iff.mp hlow
  cases hlow
  exact (he hsep k _ _ _ hlow₁ rest σ hplace hagree).of_aborts hout fun _ h => h

end Statements

/-! ## Sequences -/

/-- The statements of a list are lowered one after the other, with the counter passed on. -/
theorem lowerBlock_append (xs ys : List IRStmt) (k : ℕ) :
    lowerBlock globals (xs ++ ys) k = (do
      let (stmts, k) ← lowerBlock globals xs k
      let (stmts', k) ← lowerBlock globals ys k
      some (stmts ++ stmts', k)) := by
  induction xs generalizing k with
  | nil =>
    show lowerBlock globals ys k = (lowerBlock globals ys k).bind fun r => some ([] ++ r.1, r.2)
    cases lowerBlock globals ys k <;> rfl
  | cons st xs ih =>
    rw [List.cons_append, lowerBlock, lowerBlock]
    cases hst : lowerStatement globals st k with
    | none => rfl
    | some r =>
      simp only [Option.bind_eq_bind, Option.bind_some, ih]
      cases lowerBlock globals xs r.2 with
      | none => rfl
      | some r' =>
        simp only [Option.bind_some]
        cases lowerBlock globals ys r'.2 with
        | none => rfl
        | some r'' => simp [List.append_assoc]

/-- A list of one statement is lowered as the statement. -/
theorem lowerBlock_singleton (st : IRStmt) (k : ℕ) :
    lowerBlock globals [st] k = lowerStatement globals st k := by
  show ((lowerStatement globals st k).bind fun r => some (r.1 ++ [], r.2)) = _
  cases lowerStatement globals st k with
  | none => rfl
  | some r => rw [Option.bind_some, List.append_nil]

mutual

/-- Lowering does not see how statements are nested into sequences. -/
theorem lowerBlock_flatten : (st : IRStmt) → (k : ℕ) →
    lowerBlock globals st.flatten k = lowerStatement globals st k
  | .seq block, k => by
    rw [IRStmt.flatten, lowerBlock_flattenAll block, lowerStatement]
  | .move _ _, k => lowerBlock_singleton _ k
  | .jump _, k => lowerBlock_singleton _ k
  | .cjump _ _ _, k => lowerBlock_singleton _ k
  | .label _, k => lowerBlock_singleton _ k
  | .callStmt _ _ _, k => lowerBlock_singleton _ k
  | .ret _, k => lowerBlock_singleton _ k
  | .exp _, k => lowerBlock_singleton _ k

/-- Lowering does not see how sequences are nested. -/
theorem lowerBlock_flattenAll : (block : List IRStmt) → (k : ℕ) →
    lowerBlock globals (IRStmt.flattenAll block) k = lowerBlock globals block k
  | [], k => rfl
  | st :: rest, k => by
    rw [IRStmt.flattenAll, lowerBlock_append, lowerBlock_flatten st]
    show _ = lowerBlock globals (st :: rest) k
    rw [lowerBlock]
    simp only [lowerBlock_flattenAll rest]

end

/-- The condition on the evaluation order is one of the single statements. -/
theorem orderedAll_append {xs ys : List IRStmt} :
    IRStmt.OrderedAll (xs ++ ys) ↔ IRStmt.OrderedAll xs ∧ IRStmt.OrderedAll ys := by
  induction xs with
  | nil => simp [IRStmt.OrderedAll]
  | cons st xs ih => simp only [List.cons_append, IRStmt.OrderedAll, ih, and_assoc]

/-- It holds of each statement of a list. -/
theorem ordered_of_mem {xs ys : List IRStmt} {st : IRStmt}
    (h : IRStmt.OrderedAll (xs ++ st :: ys)) : st.Ordered :=
  And.left (orderedAll_append.mp h).2

mutual

/-- It is kept when the sequences of a statement are opened. -/
theorem orderedAll_flatten : (st : IRStmt) → st.Ordered → IRStmt.OrderedAll st.flatten
  | .seq block, h => orderedAll_flattenAll block h
  | .move _ _, h => ⟨h, trivial⟩
  | .jump _, h => ⟨h, trivial⟩
  | .cjump _ _ _, h => ⟨h, trivial⟩
  | .label _, h => ⟨h, trivial⟩
  | .callStmt _ _ _, h => ⟨h, trivial⟩
  | .ret _, h => ⟨h, trivial⟩
  | .exp _, h => ⟨h, trivial⟩

/-- It is kept when the sequences of a list are opened. -/
theorem orderedAll_flattenAll : (block : List IRStmt) → IRStmt.OrderedAll block →
    IRStmt.OrderedAll (IRStmt.flattenAll block)
  | [], _ => trivial
  | st :: rest, h =>
    orderedAll_append.mpr ⟨orderedAll_flatten st h.1, orderedAll_flattenAll rest h.2⟩

end

/-- A found label splits the sequence. -/
theorem findLabel_eq_append {block rest : List IRStmt} {l : String}
    (h : Mid.findLabel block l = some rest) : ∃ before, block = before ++ .label l :: rest := by
  induction block with
  | nil => cases h
  | cons st block ih =>
    have hskip (h' : Mid.findLabel block l = some rest) :
        ∃ before, st :: block = before ++ .label l :: rest := by
      obtain ⟨before, rfl⟩ := ih h'
      exact ⟨st :: before, rfl⟩
    cases st with
    | label l' =>
      rw [Mid.findLabel] at h
      split_ifs at h with hl
      · cases h
        exact ⟨[], by rw [hl, List.nil_append]⟩
      · exact hskip h
    | _ => exact hskip h

section Code

variable {block rest rest' : List IRStmt} {st : IRStmt} {s s₁ : Store M}
  {tr tr₁ tr₂ : List (Action M)} {l : String} {out : Mid.Outcome M}

/-- A label of a sequence is found where the sequence is lowered to. -/
theorem findLabel_lowered (hnodup : (labels body).Nodup) (hfind : Mid.findLabel block l = some rest')
    {k k' : ℕ} {all dest : List FlatStmt} (hlow : lowerBlock globals block k = some (all, k'))
    (hplace : (all ++ dest) <:+ body) :
    ∃ before k₁ stmts, block = before ++ rest' ∧ lowerBlock globals rest' k₁ = some (stmts, k') ∧
      stmts <:+ all ∧ findLabel body l = some (stmts ++ dest) := by
  obtain ⟨before, rfl⟩ := findLabel_eq_append hfind
  rw [lowerBlock_append] at hlow
  obtain ⟨⟨stmts₁, k₁⟩, -, hlow⟩ := Option.bind_eq_some_iff.mp hlow
  obtain ⟨⟨stmts₂, k₂⟩, hlow₂, hlow⟩ := Option.bind_eq_some_iff.mp hlow
  cases hlow
  obtain ⟨⟨stmts, k₃⟩, hrest, hlow₂⟩ := Option.bind_eq_some_iff.mp hlow₂
  cases hlow₂
  refine ⟨before ++ [.label l], k₁, stmts, by simp, hrest, ⟨stmts₁ ++ [.label l], by simp⟩, ?_⟩
  obtain ⟨pre, rfl⟩ := hplace
  have hbody : pre ++ (stmts₁ ++ ([.label l] ++ stmts) ++ dest) =
      (pre ++ stmts₁) ++ .label l :: (stmts ++ dest) := by simp
  rw [hbody] at hnodup ⊢
  -- the label occurs once in the body, so not in front of this place
  rw [findLabel_append, findLabel_self]
  rw [labels_append, labels_label, List.nodup_append] at hnodup
  exact fun hl => hnodup.2.2 l hl l List.mem_cons_self rfl

/-- The code of a list goes on with the rest where a statement ends. -/
theorem simulates_codeCons (hst : Simulates S body globals (.stmt st) s tr₁ (.done s₁))
    (hrest : Simulates S body globals (.code block rest) s₁ tr₂ out) :
    Simulates S body globals (.code block (st :: rest)) s (tr₁ ++ tr₂) out := by
  intro hsep k₀ all k' hall before k stmts hblock hlow hsuffix dest σ hplace hagree
  obtain ⟨⟨stmts₁, k₁⟩, hlow₁, hlow⟩ := Option.bind_eq_some_iff.mp hlow
  obtain ⟨⟨stmts₂, k₂⟩, hlow₂, hlow⟩ := Option.bind_eq_some_iff.mp hlow
  cases hlow
  have hsub := hsuffix.subset
  obtain ⟨pre, hpre⟩ := hsuffix
  have hplace' : (stmts₁ ++ (stmts₂ ++ dest)) <:+ body :=
    .trans ⟨pre, by simp [← hpre]⟩ hplace
  have hsepst : st.Ordered := ordered_of_mem (hblock ▸ hsep)
  rw [List.append_assoc]
  obtain ⟨σ₁, hreach, -⟩ := (hst hsepst k _ _ hlow₁ _ σ hplace' hagree).finish s₁ rfl
  have hlands := hrest hsep k₀ all _ hall (before ++ [st]) k₁ stmts₂ (by simp [hblock]) hlow₂
    ⟨pre ++ stmts₁, by simp [← hpre]⟩ dest σ₁ hplace hreach.agree
  exact (hreach.mono fun x hx => hsub (by simp [hx])).lands hlands

/-- A jump inside the sequence. -/
theorem simulates_codeGoto (hnodup : (labels body).Nodup)
    (hst : Simulates S body globals (.stmt st) s tr₁ (.jump l s₁))
    (hfind : Mid.findLabel block l = some rest')
    (hrest : Simulates S body globals (.code block rest') s₁ tr₂ out) :
    Simulates S body globals (.code block (st :: rest)) s (tr₁ ++ tr₂) out := by
  intro hsep k₀ all k' hall before k stmts hblock hlow hsuffix dest σ hplace hagree
  obtain ⟨⟨stmts₁, k₁⟩, hlow₁, hlow⟩ := Option.bind_eq_some_iff.mp hlow
  obtain ⟨⟨stmts₂, k₂⟩, hlow₂, hlow⟩ := Option.bind_eq_some_iff.mp hlow
  cases hlow
  have hsub := hsuffix.subset
  obtain ⟨pre, hpre⟩ := hsuffix
  have hplace' : (stmts₁ ++ (stmts₂ ++ dest)) <:+ body :=
    .trans ⟨pre, by simp [← hpre]⟩ hplace
  have hsepst : st.Ordered := ordered_of_mem (hblock ▸ hsep)
  obtain ⟨before', k₃, stmts₃, hblock', hlow₃, hsuffix₃, hlabel⟩ :=
    findLabel_lowered hnodup hfind hall hplace
  rw [List.append_assoc]
  obtain ⟨σ₁, hreach⟩ := (hst hsepst k _ _ hlow₁ _ σ hplace' hagree).abort _ hlabel
  have hlands := hrest hsep k₀ all _ hall before' k₃ stmts₃ hblock' hlow₃ hsuffix₃ dest σ₁ hplace
    hreach.agree
  exact (hreach.mono fun x hx => hsub (by simp [hx])).lands hlands

/-- What leaves a statement of the sequence leaves the sequence. -/
theorem simulates_codeAbort (hst : Simulates S body globals (.stmt st) s tr out)
    (hout : out.Aborts) : Simulates S body globals (.code block (st :: rest)) s tr out := by
  intro hsep k₀ all k' hall before k stmts hblock hlow hsuffix dest σ hplace hagree
  obtain ⟨⟨stmts₁, k₁⟩, hlow₁, hlow⟩ := Option.bind_eq_some_iff.mp hlow
  obtain ⟨⟨stmts₂, k₂⟩, hlow₂, hlow⟩ := Option.bind_eq_some_iff.mp hlow
  cases hlow
  have hsub := hsuffix.subset
  obtain ⟨pre, hpre⟩ := hsuffix
  have hplace' : (stmts₁ ++ (stmts₂ ++ dest)) <:+ body :=
    .trans ⟨pre, by simp [← hpre]⟩ hplace
  have hsepst : st.Ordered := ordered_of_mem (hblock ▸ hsep)
  rw [List.append_assoc]
  exact (hst hsepst k _ _ hlow₁ _ σ hplace' hagree).of_aborts hout fun x hx => hsub (by simp [hx])

/-- A sequence runs as the list of its statements. -/
theorem simulates_seq
    (h : Simulates S body globals (.code (IRStmt.flattenAll (block)) (IRStmt.flattenAll block)) s tr out) :
    Simulates S body globals (.stmt (.seq block)) s tr out := by
  intro hsep k stmts k' hlow rest σ hplace hagree
  rw [lowerStatement, ← lowerBlock_flattenAll] at hlow
  exact h (orderedAll_flattenAll block hsep) k stmts k' hlow [] k stmts rfl hlow (List.suffix_refl _)
    rest σ hplace hagree

end Code

/-! ## The induction -/

section Induction

variable {task : Task} {s : Store M} {tr : List (Action M)} {out : Mid.Outcome M}

/-- A run that is cut off at once. -/
theorem simulates_cut (task : Task) (s : Store M) : Simulates S body globals task s [] .cut := by
  cases task with
  | expr e => exact fun _ _ _ _ _ _ _ _ _ _ => .cut
  | exprs es =>
    refine fun _ => ⟨fun _ _ _ _ _ _ _ _ _ => .cut, fun _ _ _ _ _ σ _ _ => ⟨fun vs s₁ h => ?_, ?_⟩⟩
    · cases h
    · exact ⟨_, [], .refl _, rfl⟩
  | target address => exact fun _ _ _ _ _ _ _ _ _ _ => .cut
  | stmt st => exact fun _ _ _ _ _ _ _ _ _ => .cut
  | code block cur => exact fun _ _ _ _ _ _ _ _ _ _ _ _ _ _ _ => .cut

/-- An expression without statements. -/
theorem simulates_pure {e : IRExpr} {e' : LIRExpr} {v : Word} (s : Store M)
    (hlow : ∀ k, lowerExpr globals e k = some ([], e', k))
    (heval : e.Ordered → ∀ σ, Agree s σ → e'.eval S σ = some v) :
    Simulates S body globals (.expr e) s [] (.value v s) := by
  intro hsep k stmts e'' k' hlow' rest σ hplace hagree
  rw [hlow] at hlow'
  cases hlow'
  refine (Reaches.refl hagree).lands_done (fun w s' hw => ?_) rfl
  cases hw
  exact heval hsep σ hagree

/-- A name is a callee without code. -/
theorem simulates_name (f : String) (s : Store M) :
    Simulates S body globals (.target (.name f)) s [] (.callee f s) := by
  intro hsep k stmts e' k' hlow rest σ hplace hagree
  cases hlow
  refine (Reaches.refl hagree).lands_done (fun g s' hg => ?_) rfl
  cases hg
  rfl

/-- A jump is lowered to the same jump. -/
theorem simulates_jump (l : String) (s : Store M) :
    Simulates S body globals (.stmt (.jump l)) s [] (.jump l s) := by
  intro hsep k stmts k' hlow rest σ hplace hagree
  cases hlow
  exact Aborted.lands (fun dest hdest => ⟨σ, .control rfl hdest hagree⟩) rfl

/-- A label stays, and does nothing. -/
theorem simulates_label (l : String) (s : Store M) :
    Simulates S body globals (.stmt (.label l)) s [] (.done s) := by
  intro hsep k stmts k' hlow rest σ hplace hagree
  cases hlow
  exact (Reaches.label hagree l).lands_done trivial rfl

/-- At the end of the list the run is done. -/
theorem simulates_codeNil (block : List IRStmt) (s : Store M) :
    Simulates S body globals (.code block []) s [] (.done s) := by
  intro hsep k₀ all k' hall before k stmts hblock hlow hsuffix rest σ hplace hagree
  cases hlow
  exact (Reaches.refl hagree).lands_done trivial rfl

/-- A trap or a return is not followed. -/
theorem simulates_trap (task : Task) (s : Store M) (tr : List (Action M)) :
    Simulates S body globals task s tr .trap := by
  cases task with
  | expr e => exact fun _ _ _ _ _ _ _ _ _ _ => .trap
  | exprs es =>
    refine fun _ => ⟨fun _ _ _ _ _ _ _ _ _ => .trap, fun _ _ _ _ _ σ _ _ => ⟨fun vs s₁ h => ?_, ?_⟩⟩
    · cases h
    · trivial
  | target address => exact fun _ _ _ _ _ _ _ _ _ _ => .trap
  | stmt st => exact fun _ _ _ _ _ _ _ _ _ => .trap
  | code block cur => exact fun _ _ _ _ _ _ _ _ _ _ _ _ _ _ _ => .trap

/-- Lowered code does what direct evaluation does. -/
theorem simulates (hnodup : (labels body).Nodup) (h : Eval S task s tr out) :
    Simulates S body globals task s tr out := by
  -- The evaluation of the mid-level code is the induction; each of its rules has a lemma above.
  induction h with
  | cut task s => exact simulates_cut task s
  | const value s => exact simulates_pure s (fun k => rfl) fun _ _ _ => rfl
  | temp x s =>
    exact simulates_pure s (fun k => rfl) fun hsep σ hagree => congrArg some (hagree.temps x hsep)
  | name l s => exact simulates_pure s (fun k => rfl) fun _ _ _ => rfl
  | op _ _ hv ihl ihr => exact simulates_op ihl ihr hv
  | opTrap => exact simulates_trap ..
  | opLeft _ hout ih => exact simulates_opLeft ih hout
  | opRight _ _ hout ihl ihr => exact simulates_opRight ihl ihr hout
  | mem _ hread ih => exact simulates_mem ih hread
  | memFault => exact simulates_trap ..
  | memAbort _ hout ih => exact simulates_memAbort ih hout
  | call _ _ iha ihargs => exact simulates_call iha ihargs
  | callTarget _ hout ih => exact simulates_callTarget ih hout
  | callArgs _ _ hout iha ihargs => exact simulates_callArgs iha ihargs hout
  | eseq _ _ ihst ihe => exact simulates_eseq ihst ihe
  | eseqAbort _ hout ih => exact simulates_eseqAbort ih hout
  | nil s => exact simulates_nil s
  | cons _ _ ihe ihes => exact simulates_cons ihe ihes
  | consHead _ hout ih => exact simulates_consHead ih hout
  | consTail _ _ hout ihe ihes => exact simulates_consTail ihe ihes hout
  | targetName f s => exact simulates_name f s
  | targetEseq _ _ ihst ihe => exact simulates_targetEseq ihst ihe
  | targetAbort _ hout ih => exact simulates_targetAbort ih hout
  | moveTemp _ ih => exact simulates_moveTemp ih
  | moveTempAbort _ hout ih => exact simulates_moveTempAbort ih hout
  | moveMem _ _ hwrite iha ihe => exact simulates_moveMem iha ihe hwrite
  | moveMemFault => exact simulates_trap ..
  | moveMemAddress _ hout ih => exact simulates_moveMemAddress ih hout
  | moveMemSource _ _ hout iha ihe => exact simulates_moveMemSource iha ihe hout
  | moveEseq _ _ ihst ihmove => exact simulates_moveEseq ihst ihmove
  | moveEseqAbort _ hout ih => exact simulates_moveEseqAbort ih hout
  | seq _ ih => exact simulates_seq ih
  | jump l s => exact simulates_jump l s
  | cjumpTrue _ hv ih => exact simulates_cjumpTrue ih hv
  | cjumpFalse _ ih => exact simulates_cjumpFalse ih
  | cjumpFall _ ih => exact simulates_cjumpFall ih
  | cjumpAbort _ hout ih => exact simulates_cjumpAbort ih hout
  | label l s => exact simulates_label l s
  | callStmt _ hn ih => exact simulates_callStmt ih hn
  | callStmtAbort _ hout ih => exact simulates_callStmtAbort ih hout
  | ret => exact fun _ _ _ _ _ _ _ _ _ => .ret
  | retAbort _ hout ih => exact simulates_retAbort ih hout
  | exp _ ih => exact simulates_exp ih
  | expAbort _ hout ih => exact simulates_expAbort ih hout
  | codeNil block s => exact simulates_codeNil block s
  | codeCons _ _ ihst ihrest => exact simulates_codeCons ihst ihrest
  | codeGoto _ hfind _ ihst ihrest => exact simulates_codeGoto hnodup ihst hfind ihrest
  | codeJump _ _ ih => exact simulates_codeAbort ih (.jump ..)
  | codeRet _ ih => exact simulates_codeAbort ih (.ret ..)
  | codeTrap => exact simulates_trap ..
  | codeCut _ ih => exact simulates_codeAbort ih .cut

end Induction

end IRLowerer

end Jaek
