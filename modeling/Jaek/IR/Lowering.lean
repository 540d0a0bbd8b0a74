import Jaek.Data.OptionList
import Jaek.IR.LowerSound

/-!
# What lowering keeps, and what a return loses

`lowerStatement_keeps` is lowering for every statement: as long as direct evaluation does not trap, the
lowered code makes the same writes and calls and goes to the same place, with the same memory and temps.
A trap is another matter, since an operand may wait behind the calls of a later one
(`divideCall_calls`).

The values of a return all wait for the last of them, and nothing is saved. `lowerReturn_keeps` says for
which expressions that does no harm. A disturbed expression may still have its value, if it is the same by
chance; `returns_iff_settled` says what it takes in one run.
-/

namespace Jaek

namespace IRLowerer

open Mid (Action Task Eval events)

variable {M : Type*} {S : Storage M} {body : List FlatStmt} {globals : List String}

/-! ## Flat code is deterministic -/

section Determinism

variable {c c₁ c₂ : Config M} {st : FlatStmt} {s s₁ s₂ : Store M} {e e' : Event M}

/-- Two effects of a statement in one store differ in the answer of a call at most. -/
theorem exec_deterministic (h : Exec S st s e s₁) (h' : Exec S st s e' s₂) :
    (observed [e]).length = (observed [e']).length ∧
      (observed [e] = observed [e'] → e = e' ∧ s₁ = s₂) := by
  cases h with
  | moveTemp hv =>
    cases h' with
    | moveTemp hv' =>
      rw [hv] at hv'
      cases hv'
      exact ⟨rfl, fun _ => ⟨rfl, rfl⟩⟩
  | moveMem hp hv hw =>
    cases h' with
    | moveMem hp' hv' hw' =>
      rw [hp] at hp'
      rw [hv] at hv'
      cases hp'
      cases hv'
      rw [hw] at hw'
      cases hw'
      exact ⟨rfl, fun _ => ⟨rfl, rfl⟩⟩
  | call hargs hlen =>
    cases h' with
    | call hargs' hlen' =>
      rw [hargs] at hargs'
      cases hargs'
      refine ⟨rfl, fun h => ?_⟩
      cases h
      exact ⟨rfl, rfl⟩

/-- Two steps of flat code differ in the answer of a call at most. -/
theorem step_deterministic {a b : Option (Event M)} (h : FlatStep S body c a c₁)
    (h' : FlatStep S body c b c₂) :
    (observed a.toList).length = (observed b.toList).length ∧
      (observed a.toList = observed b.toList → a = b ∧ c₁ = c₂) := by
  cases h with
  | exec hexec =>
    cases h' with
    | exec hexec' =>
      obtain ⟨hlen, heq⟩ := exec_deterministic hexec hexec'
      refine ⟨hlen, fun h => ?_⟩
      obtain ⟨rfl, rfl⟩ := heq h
      exact ⟨rfl, rfl⟩
    | label => exact hexec.ne_label.elim
    | control => exact hexec.ne_endBlock.elim
    | ret => exact hexec.ne_endBlock.elim
  | label =>
    cases h' with
    | exec hexec' => exact hexec'.ne_label.elim
    | label => exact ⟨rfl, fun _ => ⟨rfl, rfl⟩⟩
  | control hnext hgoto =>
    cases h' with
    | exec hexec' => exact hexec'.ne_endBlock.elim
    | control hnext' hgoto' =>
      rw [hnext] at hnext'
      cases hnext'
      rw [hgoto] at hgoto'
      cases hgoto'
      exact ⟨rfl, fun _ => ⟨rfl, rfl⟩⟩
    | ret => cases hnext
  | ret hvals =>
    cases h' with
    | exec hexec' => exact hexec'.ne_endBlock.elim
    | control hnext' => cases hnext'
    | ret hvals' =>
      rw [hvals] at hvals'
      cases hvals'
      exact ⟨rfl, fun _ => ⟨rfl, rfl⟩⟩

theorem not_step_returned {a : Option (Event M)} (h : FlatStep S body .returned a c) : False := by
  cases h

/-- A run to the end passes wherever a run with the first of its events comes to. -/
theorem run_through {evs evs' o : List (Event M)} (h : (flat S body).Run c evs c₁)
    (h' : (flat S body).Run c evs' .returned) (hobs : observed evs' = observed evs ++ o) :
    ∃ evs₁, (flat S body).Run c₁ evs₁ .returned ∧ observed evs₁ = o := by
  induction h generalizing evs' with
  | refl c => exact ⟨evs', h', hobs⟩
  | silent hstep _ ih =>
    cases h' with
    | refl => exact (not_step_returned hstep).elim
    | silent hstep' hrun' =>
      obtain ⟨-, rfl⟩ := (step_deterministic hstep hstep').2 rfl
      exact ih hrun' hobs
    | @event _ _ _ e' _ hstep' hrun' =>
      have hnone : observed [e'] = [] :=
        List.eq_nil_of_length_eq_zero (step_deterministic hstep hstep').1.symm
      exact absurd ((step_deterministic hstep hstep').2 hnone.symm).1 (by simp)
  | @event _ _ _ e tr hstep _ ih =>
    cases h' with
    | refl => exact (not_step_returned hstep).elim
    | silent hstep' hrun' =>
      have hnone : observed [e] = [] :=
        List.eq_nil_of_length_eq_zero (step_deterministic hstep hstep').1
      exact absurd ((step_deterministic hstep hstep').2 hnone).1 (by simp)
    | @event _ _ _ e' tr' hstep' hrun' =>
      have hsplit : observed [e'] ++ observed tr' = observed [e] ++ (observed tr ++ o) := by
        rw [← observed_append, ← List.append_assoc, ← observed_append]
        exact hobs
      obtain ⟨hhead, htail⟩ := List.append_inj hsplit (step_deterministic hstep' hstep).1
      obtain ⟨-, rfl⟩ := (step_deterministic hstep hstep').2 hhead.symm
      exact ih hrun' htail

end Determinism

/-! ## Statements -/

/-- The lowered code `start`, with `dest` behind it, does what direct evaluation does: it ends behind
the code or at the label of a jump, in a store that agrees, with the same writes and calls before; and
a run cut off has the same writes and calls. -/
def Follows (S : Storage M) (body start dest : List FlatStmt) (s : Store M) (tr : List (Action M)) :
    Mid.Outcome M → Prop
  | .done s₁ => ∃ evs σ₁, (flat S body).Run (.running start s) evs (.running dest σ₁) ∧
      observed evs = events tr ∧ Agree s₁ σ₁
  | .jump l s₁ => ∀ dest', findLabel body l = some dest' →
      ∃ evs σ₁, (flat S body).Run (.running start s) evs (.running dest' σ₁) ∧
        observed evs = events tr ∧ Agree s₁ σ₁
  | .cut => ∃ evs c, (flat S body).Run (.running start s) evs c ∧ observed evs = events tr
  | _ => True

/-- Lowering keeps the meaning of a statement that is evaluated without a trap and a return. -/
theorem lowerStatement_keeps {st : IRStmt} {k k' : ℕ} {stmts pre rest : List FlatStmt}
    (hsep : st.Separate) (hlow : lowerStatement globals st k = some (stmts, k'))
    (hbody : body = pre ++ (stmts ++ rest)) (hnodup : (labels body).Nodup) {s : Store M}
    {tr : List (Action M)} {out : Mid.Outcome M} (h : Eval S (.stmt st) s tr out) :
    Follows S body (stmts ++ rest) rest s tr out := by
  have hsim : Simulates S body globals (.stmt st) s tr out := simulates hnodup h
  have hlands := hsim (st.ordered_of_separate hsep) k stmts k' hlow rest s ⟨pre, hbody.symm⟩ (Agree.refl s)
  cases out with
  | done s₁ =>
    obtain ⟨σ₁, ⟨evs, hrun, hran⟩, -⟩ := hlands.finish s₁ rfl
    exact ⟨evs, σ₁, hrun, hran.observed, hran.agree⟩
  | jump l s₁ =>
    intro dest' hdest
    obtain ⟨σ₁, evs, hrun, hran⟩ := hlands.abort dest' hdest
    exact ⟨evs, σ₁, hrun, hran.observed, hran.agree⟩
  | cut =>
    obtain ⟨c, evs, hrun, hobs⟩ := hlands.abort
    exact ⟨evs, c, hrun, hobs⟩
  | _ => trivial

/-- A memory of one word. -/
def oneCell : Storage Word := ⟨fun _ => 0, fun m _ => some m, fun _ _ v => some v⟩

/-- The store of zeros. -/
def zeros : Store Word := ⟨fun _ => 0, 0⟩

theorem ne_freshName {x : String} (hx : x.toList.head? ≠ some '$') (j : ℕ) : x ≠ freshName j := by
  rintro rfl
  simp [freshName] at hx

/-- `x := 1 + f()`. -/
def addCall : IRStmt :=
  .move (.temp "x") (.op .ADD (.const 1) (.call (.name "f") []))

theorem addCall_separate : addCall.Separate := by
  refine ⟨ne_freshName (by decide), ⟨trivial, ⟨trivial, trivial⟩, ?_⟩, ?_⟩
  · exact fun x hx => hx.elim
  · exact fun x hx => hx.elim

/-- The evaluation of `x := 1 + f()` when `f` returns two. -/
theorem addCall_eval : Eval oneCell (.stmt addCall) zeros
    ([] ++ ([] ++ [] ++ [.event (.call "f" [] [2] 5)]))
    (.done ((Store.mk (setReturns 1 [2] zeros.temps) 5).set "x" 3)) :=
  .moveTemp (.op (.const 1 zeros) (.call (.targetName "f" zeros) (.nil zeros)) rfl)

/-- `x := 1 + f()` lowered. -/
def addCallLowered : List FlatStmt :=
  [.callStmt "f" 1 [], .move (freshTemp 1) (.temp (retTemp 1)),
    .move (.temp "x") (.op .ADD (.const 1) (freshTemp 1))]

theorem addCall_keeps : Follows oneCell addCallLowered (addCallLowered ++ []) [] zeros
    ([] ++ ([] ++ [] ++ [.event (.call "f" [] [2] 5)]))
    (.done ((Store.mk (setReturns 1 [2] zeros.temps) 5).set "x" 3)) := by
  have hlow : lowerStatement [] addCall 0 = some (addCallLowered, 1) := rfl
  have hbody : addCallLowered = [] ++ (addCallLowered ++ []) := by simp
  exact lowerStatement_keeps addCall_separate hlow hbody (by decide) addCall_eval

/-- `x := 1 / 0 + f()`. -/
def divideCall : IRStmt :=
  .move (.temp "x") (.op .ADD (.op .DIV (.const 1) (.const 0)) (.call (.name "f") []))

theorem eval_const {c : Word} {s : Store M} {tr : List (Action M)} {out : Mid.Outcome M}
    (h : Eval S (.expr (.const c)) s tr out) : tr = [] := by
  cases h <;> rfl

/-- One divided by zero has no value, and does nothing else. -/
theorem eval_divide {s : Store M} {tr : List (Action M)} {out : Mid.Outcome M}
    (h : Eval S (.expr (.op .DIV (.const 1) (.const 0))) s tr out) :
    tr = [] ∧ ∀ v s₁, out ≠ .value v s₁ := by
  cases h with
  | cut => exact ⟨rfl, by simp⟩
  | op hl hr hv =>
    cases hl
    cases hr
    cases hv
  | opTrap hl hr => exact ⟨by rw [eval_const hl, eval_const hr]; rfl, by simp⟩
  | opLeft hl hout =>
    refine ⟨eval_const hl, fun v s₁ heq => ?_⟩
    rw [heq] at hout
    cases hout
  | opRight hl hr hout =>
    refine ⟨by rw [eval_const hl, eval_const hr]; rfl, fun v s₁ heq => ?_⟩
    rw [heq] at hout
    cases hout

/-- Direct evaluation of `x := 1 / 0 + f()` traps before the call. -/
theorem divideCall_eval {s : Store M} {tr : List (Action M)} {out : Mid.Outcome M}
    (h : Eval S (.stmt divideCall) s tr out) : tr = [] := by
  have hexpr {out : Mid.Outcome M} (h : Eval S (.expr (.op .ADD (.op .DIV (.const 1) (.const 0))
      (.call (.name "f") []))) s tr out) : tr = [] := by
    cases h with
    | cut => rfl
    | op hl => exact ((eval_divide hl).2 _ _ rfl).elim
    | opTrap hl => exact ((eval_divide hl).2 _ _ rfl).elim
    | opLeft hl => exact (eval_divide hl).1
    | opRight hl => exact ((eval_divide hl).2 _ _ rfl).elim
  cases h with
  | cut => rfl
  | moveTemp he => exact hexpr he
  | moveTempAbort he => exact hexpr he

theorem divideCall_separate : divideCall.Separate := by
  refine ⟨ne_freshName (by decide), ⟨⟨trivial, trivial, fun x hx => hx.elim⟩, ⟨trivial, trivial⟩,
    fun x hx => ?_⟩, fun x hx => hx.elim⟩
  rcases hx with hx | hx <;> exact hx.elim

/-- Lowered code calls before it divides. -/
theorem divideCall_calls : divideCall.Separate ∧
    (∀ s : Store Word, Eval oneCell (.stmt divideCall) s [] .trap) ∧
    (∀ (s : Store Word) tr out, Eval oneCell (.stmt divideCall) s tr out → tr = []) ∧
    ∃ stmts k', lowerStatement [] divideCall 0 = some (stmts, k') ∧ ∀ s : Store Word,
      ∃ c, (flat oneCell stmts).Run (.running stmts s) [.call "f" [] [2] 5] c := by
  refine ⟨divideCall_separate, fun s => ?_, fun s tr out h => divideCall_eval h, _, _, rfl,
    fun s => ⟨_, .event (.exec (.call rfl rfl)) (.refl _)⟩⟩
  have htrap : Eval oneCell (.expr (.op .DIV (.const 1) (.const 0))) s ([] ++ []) .trap :=
    .opTrap (.const 1 s) (.const 0 s) rfl
  exact .moveTempAbort (.opLeft htrap .trap) .trap

/-! ## Returns -/

/-- The run of a chain. -/
theorem Chain.run {pairs : List (List FlatStmt × LIRExpr)} {rest : List FlatStmt} {σ σ' : Store M}
    {evs : List (Event M)} {vs : List Word} (h : Chain S body pairs rest σ evs vs σ') :
    (flat S body).Run (.running (pairs.flatMap (·.1) ++ rest) σ) evs (.running rest σ') := by
  induction h with
  | nil rest σ => exact .refl _
  | cons hrun _ _ ih =>
    rw [List.flatMap_cons, List.append_assoc]
    exact hrun.trans ih

/-- The code of a return: the statements of all expressions, and what is left of each of them. -/
theorem lowerStatement_ret {vals : List IRExpr} {k k' : ℕ} {stmts : List FlatStmt}
    (h : lowerStatement globals (.ret vals) k = some (stmts, k')) :
    ∃ pairs, lowerExprs globals vals k = some (pairs, k') ∧
      stmts = pairs.flatMap (·.1) ++ [.endBlock (.ret (pairs.map (·.2)))] := by
  obtain ⟨⟨pairs, k₁⟩, hvals, h⟩ := Option.bind_eq_some_iff.mp h
  cases h
  exact ⟨pairs, hvals, rfl⟩

/-- The lowered code returns `vs` after the writes and calls of `tr`. -/
def Returns (S : Storage M) (body start : List FlatStmt) (s : Store M) (tr : List (Action M))
    (vs : List Word) : Prop :=
  ∃ evs, (flat S body).Run (.running start s) evs .returned ∧
    observed evs = events tr ++ [.ret vs]

/-- In the state in which the return is executed, what is left of each expression has the value it had
behind the expression's own statements. -/
def Settled (S : Storage M) (body : List FlatStmt) (pairs : List (List FlatStmt × LIRExpr))
    (rest : List FlatStmt) (s : Store M) (tr : List (Action M)) (vs : List Word) : Prop :=
  ∀ evs σ₁, Chain S body pairs rest s evs vs σ₁ → observed evs = events tr →
    List.Forall₂ (fun pair v => pair.2.eval S σ₁ = some v) pairs vs

section Return

variable {vals : List IRExpr} {pairs : List (List FlatStmt × LIRExpr)} {rest : List FlatStmt}
  {s s' σ : Store M} {tr : List (Action M)} {vs : List Word}

theorem evalList_eq_some_iff : evalList S s (pairs.map (·.2)) = some vs ↔
    List.Forall₂ (fun pair v => pair.2.eval S s = some v) pairs vs := by
  rw [evalList, mapM_eq_some_iff, List.forall₂_map_left_iff]

/-- A return that is executed returns the values of its expressions. -/
theorem returned_eq {es : List LIRExpr} {evs : List (Event M)}
    (h : (flat S body).Run (.running (.endBlock (.ret es) :: rest) σ) evs .returned)
    (hobs : observed evs = [.ret vs]) : evalList S σ es = some vs := by
  cases h with
  | silent hstep _ =>
    cases hstep with
    | control hnext => cases hnext
  | event hstep hrun =>
    cases hstep with
    | exec hexec => exact hexec.ne_endBlock.elim
    | ret hvals =>
      cases hrun with
      | refl =>
        cases hobs
        exact hvals
      | silent hstep' => exact (not_step_returned hstep').elim
      | event hstep' => exact (not_step_returned hstep').elim

/-- A chain that the return is reached by decides what is returned. -/
theorem Chain.eval_of_returns {evs : List (Event M)} {ws : List Word}
    (h : Chain S body pairs (.endBlock (.ret (pairs.map (·.2))) :: rest) s evs ws σ)
    (hobs : observed evs = events tr)
    (hret : Returns S body (pairs.flatMap (·.1) ++ .endBlock (.ret (pairs.map (·.2))) :: rest) s tr vs) :
    evalList S σ (pairs.map (·.2)) = some vs := by
  obtain ⟨evs', hrun, hobs'⟩ := hret
  rw [← hobs] at hobs'
  obtain ⟨evs₁, hrun₁, hobs₁⟩ := run_through h.run hrun hobs'
  exact returned_eq hrun₁ hobs₁

theorem Chain.returns {evs : List (Event M)} {ws : List Word}
    (h : Chain S body pairs (.endBlock (.ret (pairs.map (·.2))) :: rest) s evs ws σ)
    (hobs : observed evs = events tr) (hvals : evalList S σ (pairs.map (·.2)) = some vs) :
    Returns S body (pairs.flatMap (·.1) ++ .endBlock (.ret (pairs.map (·.2))) :: rest) s tr vs := by
  have hret : (flat S body).Run (.running (.endBlock (.ret (pairs.map (·.2))) :: rest) σ) [.ret vs]
      .returned := .event (.ret hvals) (.refl _)
  refine ⟨evs ++ [.ret vs], h.run.trans hret, ?_⟩
  rw [observed_append, hobs]
  rfl

/-- In one run, a return carries the values of direct evaluation exactly when what is left of each expression
has kept its value. -/
theorem returns_iff_settled {k k' : ℕ} {stmts pre : List FlatStmt} (hord : IRExpr.OrderedAll vals)
    (hlow : lowerExprs globals vals k = some (pairs, k'))
    (hstmts : lowerStatement globals (.ret vals) k = some (stmts, k'))
    (hbody : body = pre ++ (stmts ++ rest)) (hnodup : (labels body).Nodup)
    (heval : Eval S (.exprs vals) s tr (.values vs s')) :
    Returns S body (stmts ++ rest) s tr vs ↔
      Settled S body pairs (.endBlock (.ret (pairs.map (·.2))) :: rest) s tr vs := by
  obtain ⟨pairs', hlow', rfl⟩ := lowerStatement_ret hstmts
  rw [hlow] at hlow'
  cases hlow'
  rw [List.append_assoc] at hbody ⊢
  constructor
  · intro hret evs σ hchain hobs
    exact evalList_eq_some_iff.mp (hchain.eval_of_returns hobs hret)
  · intro hsettled
    have hsim : Simulates S body globals (.exprs vals) s tr (.values vs s') := simulates hnodup heval
    obtain ⟨evs, σ, hchain, hran⟩ :=
      ((hsim hord).2 k pairs k' hlow _ s ⟨pre, hbody.symm⟩ (Agree.refl s)).1 vs s' rfl
    exact hchain.returns hran.observed
      (evalList_eq_some_iff.mpr (hsettled evs σ hchain hran.observed))

/-- The chain of a return whose later statements leave alone what is left of earlier expressions. -/
theorem chain_of_leaves (hnodup : (labels body).Nodup) (hord : IRExpr.OrderedAll vals) {k k' : ℕ}
    (hlow : lowerExprs globals vals k = some (pairs, k'))
    (hplace : (pairs.flatMap (·.1) ++ rest) <:+ body) (hagree : Agree s σ)
    (hleaves : pairs.Pairwise fun p q => ∀ st ∈ q.1, st.Leaves p.2)
    (heval : Eval S (.exprs vals) s tr (.values vs s')) :
    ∃ evs σ', Chain S body pairs rest σ evs vs σ' ∧ Ran S (pairs.flatMap (·.1)) evs tr σ s' σ' ∧
      List.Forall₂ (fun pair v => pair.2.eval S σ' = some v) pairs vs := by
  induction vals generalizing k pairs s σ tr vs with
  | nil =>
    cases hlow
    cases heval with
    | nil => exact ⟨[], σ, .nil rest σ, ⟨rfl, hagree, fun _ _ => rfl⟩, .nil⟩
  | cons e es ih =>
    obtain ⟨⟨stmts, expr, k₁⟩, hlow₁, hlow⟩ := Option.bind_eq_some_iff.mp hlow
    obtain ⟨⟨pairs, k₂⟩, hlow₂, hlow⟩ := Option.bind_eq_some_iff.mp hlow
    cases hlow
    obtain ⟨hhead, htail⟩ := List.pairwise_cons.mp hleaves
    cases heval with
    | @cons _ _ _ s₁ _ tr₁ tr₂ v vs he hes =>
      rw [List.flatMap_cons, List.append_assoc] at hplace
      have hsim : Simulates S body globals (.expr e) s tr₁ (.value v s₁) := simulates hnodup he
      obtain ⟨σ₁, ⟨evs, hrun, hran⟩, hval⟩ :=
        (hsim hord.1 k _ _ _ hlow₁ _ σ hplace hagree).finish s₁ rfl
      obtain ⟨evs', σ', hchain, hran', hvals⟩ := ih hord.2 hlow₂
        ((List.suffix_append stmts _).trans hplace) hran.agree htail hes
      have hkept : expr.eval S σ' = expr.eval S σ₁ := hran'.leaves expr fun st hst => by
        obtain ⟨q, hq, hst⟩ := List.mem_flatMap.mp hst
        exact hhead q hq st hst
      refine ⟨evs ++ evs', σ', .cons hrun (hval v s₁ rfl) hchain, ⟨?_, hran'.agree, fun p hp => ?_⟩,
        .cons (hkept.trans (hval v s₁ rfl)) hvals⟩
      · rw [observed_append, hran.observed, hran'.observed, Mid.events_append]
      · rw [hran'.leaves p fun st hst => hp st (by simp only [List.flatMap_cons]; simp [hst]),
          hran.leaves p fun st hst => hp st (by simp [hst])]
    | consHead _ hout => cases hout
    | consTail _ _ hout => cases hout

/-- A return carries the values of its expressions, evaluated one behind the other, if every operand inside of
them can wait for the later one and no expression changes what is left of an earlier one. -/
theorem lowerReturn_keeps {k k' : ℕ} {stmts pre : List FlatStmt} (hord : IRExpr.OrderedAll vals)
    (hvals : vals.Pairwise IRExpr.Undisturbed)
    (hlow : lowerStatement globals (.ret vals) k = some (stmts, k'))
    (hbody : body = pre ++ (stmts ++ rest)) (hnodup : (labels body).Nodup)
    (heval : Eval S (.exprs vals) s tr (.values vs s')) :
    Returns S body (stmts ++ rest) s tr vs := by
  obtain ⟨pairs, hpairs, rfl⟩ := lowerStatement_ret hlow
  rw [List.append_assoc] at hbody ⊢
  have hleaves := lowerExprs_leaves hord hvals hpairs
  obtain ⟨evs, σ, hchain, hran, hkept⟩ :=
    chain_of_leaves hnodup hord hpairs ⟨pre, hbody.symm⟩ (Agree.refl s) hleaves heval
  exact hchain.returns hran.observed (evalList_eq_some_iff.mpr hkept)

end Return

/-- `return x, f(), g` for a global `g`. -/
def callBetween : List IRExpr := [.temp "x", .call (.name "f") [], .mem (.name "g")]

/-- The code of `return x, f(), g`. -/
def callBetweenCode : List FlatStmt :=
  [.callStmt "f" 1 [], .move (freshTemp 1) (.temp (retTemp 1)),
    .endBlock (.ret [.temp "x", freshTemp 1, .mem (.name "g")])]

/-- `f` returns two and sets `g` to five, which is read behind the call. -/
def callBetweenTrace : List (Action Word) :=
  [] ++ (([] ++ [] ++ [.event (.call "f" [] [2] 5)]) ++ (([] ++ [.load 0 5]) ++ []))

/-- The call leaves the temp in front of it alone. -/
theorem callBetween_undisturbed : callBetween.Pairwise IRExpr.Undisturbed := by
  have hcall : (IRExpr.temp "x").Undisturbed (.call (.name "f") []) := by
    refine ⟨fun x hx => ?_, fun hmem => by cases hmem⟩
    obtain rfl : x = "x" := by rcases hx with hx | hx <;> cases hx; rfl
    rintro (h | h | ⟨i, -, -, h⟩)
    · exact h
    · exact h
    · have hlist := congrArg (fun x : String => x.toList.head?) h
      simp [retTemp] at hlist
  have hread (e : IRExpr) : e.Undisturbed (.mem (.name "g")) := ⟨fun _ _ h => h, fun _ h => h⟩
  exact .cons (by simp [hcall, hread]) (.cons (by simp [hread]) (.cons (by simp) .nil))

theorem callBetween_returns :
    Returns oneCell callBetweenCode (callBetweenCode ++ []) zeros callBetweenTrace [0, 2, 5] := by
  have hord : IRExpr.OrderedAll callBetween :=
    ⟨ne_freshName (by decide), ⟨trivial, trivial⟩, trivial, trivial⟩
  have hlow : lowerStatement [] (.ret callBetween) 0 = some (callBetweenCode, 1) := rfl
  have hbody : callBetweenCode = [] ++ (callBetweenCode ++ []) := by
    rw [List.append_nil, List.nil_append]
  have hcall : Eval oneCell (.expr (.call (.name "f") [])) zeros
      ([] ++ [] ++ [.event (.call "f" [] [2] 5)]) (.value 2 ⟨setReturns 1 [2] zeros.temps, 5⟩) :=
    .call (.targetName "f" zeros) (.nil zeros)
  exact lowerReturn_keeps hord callBetween_undisturbed hlow hbody (by decide)
    (.cons (.temp "x" zeros) (.cons hcall (.cons (.mem (.name "g" _) rfl) (.nil _))))

/-- `return g, f()` for a global `g`. -/
def globalFirst : List IRExpr := [.mem (.name "g"), .call (.name "f") []]

/-- `globalFirst` lowered. -/
def globalFirstLowered : List (List FlatStmt × LIRExpr) :=
  [([], .mem (.name "g")),
    ([.callStmt "f" 1 [], .move (freshTemp 1) (.temp (retTemp 1))], freshTemp 1)]

/-- `return g, f()`, where `g` is zero and `f` returns two and sets it to five: direct evaluation gives
zero and two, the lowered code does not return them. -/
theorem globalFirst_lost : ¬∀ (vals : List IRExpr) (k k' : ℕ) (stmts : List FlatStmt),
    IRExpr.SeparateAll vals → lowerStatement [] (.ret vals) k = some (stmts, k') →
    (labels stmts).Nodup → ∀ (s s' : Store Word) tr vs,
      Eval oneCell (.exprs vals) s tr (.values vs s') → Returns oneCell stmts (stmts ++ []) s tr vs := by
  intro h
  let s : Store Word := zeros
  let code : List FlatStmt := globalFirstLowered.flatMap (·.1) ++
    [.endBlock (.ret (globalFirstLowered.map (·.2)))]
  let called : Store Word := ⟨setReturns 1 [2] s.temps, 5⟩
  have hsep : IRExpr.SeparateAll globalFirst := ⟨trivial, ⟨trivial, trivial⟩, trivial⟩
  have hcall : Eval oneCell (.expr (.call (.name "f") [])) s
      ([] ++ [] ++ [.event (.call "f" [] [2] 5)]) (.value 2 called) :=
    .call (.targetName "f" s) (.nil s)
  have heval := Eval.cons (.mem (.name "g" s) (by rfl)) (.cons hcall (.nil _))
  have hret := h globalFirst 0 1 code hsep rfl (by decide) s called _ _ heval
  -- the lowered code reads the global behind the call
  have hrun : (flat oneCell code).Run (.running code s) [.call "f" [] [2] 5, .assign (freshName 1) 2]
      (.running [.endBlock (.ret (globalFirstLowered.map (·.2)))] (called.set (freshName 1) 2)) :=
    .event (.exec (.call rfl rfl)) (.event (.exec (.moveTemp rfl)) (.refl _))
  have hchain : Chain oneCell code globalFirstLowered
      [.endBlock (.ret (globalFirstLowered.map (·.2)))] s
      ([] ++ ([.call "f" [] [2] 5, .assign (freshName 1) 2] ++ [])) [0, 2]
      (called.set (freshName 1) 2) :=
    .cons (.refl _) rfl (.cons hrun rfl (.nil _ _))
  have hvals := hchain.eval_of_returns rfl hret
  have hread : evalList oneCell (called.set (freshName 1) 2) (globalFirstLowered.map (·.2)) =
      some [5, 2] := rfl
  rw [hread] at hvals
  cases hvals

end IRLowerer

end Jaek
