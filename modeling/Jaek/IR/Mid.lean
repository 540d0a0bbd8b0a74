import Jaek.Lowered.LIR

/-!
# The mid-level intermediate representation

`IRExpr` and `IRStmt` follow `ir/mid`: calls and statement sequences stand inside expressions.

`Eval` is their left-to-right meaning. Operands, call arguments and returned values are evaluated one
after the other, each in the store the one before it leaves, and a `MOVE` takes its address before
its source. A sequence runs through its statements, those of nested sequences included; a jump goes
on behind the first such label of the sequence, or leaves it. Reads, writes and calls are recorded.
A run may be cut off at any point, so that a run without end has its finite beginnings.
-/

namespace Jaek

mutual

/-- An expression of the mid-level representation. -/
inductive IRExpr
  | const (value : Word)
  | temp (name : String)
  | op (op : OpType) (left right : IRExpr)
  | mem (address : IRExpr)
  | call (address : IRExpr) (args : List IRExpr)
  | name (l : String)
  | eseq (statement : IRStmt) (value : IRExpr)

/-- A statement of the mid-level representation. -/
inductive IRStmt
  | move (dest expr : IRExpr)
  | seq (block : List IRStmt)
  | jump (address : String)
  | cjump (guard : IRExpr) (trueBranch : String) (falseBranch : Option String)
  | label (l : String)
  | callStmt (address : String) (n_returns : ℕ) (args : List IRExpr)
  | ret (valList : List IRExpr)
  | exp (expr : IRExpr)

end

mutual

/-- The statements of a statement, with nested sequences spliced in. -/
def IRStmt.flatten : IRStmt → List IRStmt
  | .seq block => IRStmt.flattenAll block
  | st => [st]

def IRStmt.flattenAll : List IRStmt → List IRStmt
  | [] => []
  | st :: rest => st.flatten ++ IRStmt.flattenAll rest

end

namespace Mid

/-- The statements after the first occurrence of a label. -/
def findLabel : List IRStmt → String → Option (List IRStmt)
  | [], _ => none
  | .label l' :: rest, l => if l' = l then some rest else findLabel rest l
  | _ :: rest, l => findLabel rest l

variable {M : Type*}

/-- What a run does besides setting temps. -/
inductive Action (M : Type*)
  | load (addr value : Word)
  | event (e : Event M)

/-- The actions but the reads. -/
def events (tr : List (Action M)) : List (Event M) :=
  tr.filterMap fun
    | .load _ _ => none
    | .event e => some e

@[simp] theorem events_nil : events ([] : List (Action M)) = [] := rfl

@[simp] theorem events_append (tr tr' : List (Action M)) :
    events (tr ++ tr') = events tr ++ events tr' := List.filterMap_append

@[simp] theorem events_load (a v : Word) (tr : List (Action M)) :
    events (.load a v :: tr) = events tr := rfl

@[simp] theorem events_event (e : Event M) (tr : List (Action M)) :
    events (.event e :: tr) = e :: events tr := rfl

/-- What there is to run. `target` is the address of a call; `code` runs `rest` as the end of the
sequence `block`. -/
inductive Task
  | expr (e : IRExpr)
  | exprs (es : List IRExpr)
  | target (address : IRExpr)
  | stmt (st : IRStmt)
  | code (block rest : List IRStmt)

/-- How a run ends. -/
inductive Outcome (M : Type*)
  | value (v : Word) (s : Store M)
  | values (vs : List Word) (s : Store M)
  | callee (f : String) (s : Store M)
  | done (s : Store M)
  | jump (l : String) (s : Store M)
  | ret (vs : List Word) (s : Store M)
  | trap
  | cut

/-- The outcomes that end what is around them too. -/
inductive Outcome.Aborts : Outcome M → Prop
  | jump (l : String) (s : Store M) : Aborts (.jump l s)
  | ret (vs : List Word) (s : Store M) : Aborts (.ret vs s)
  | trap : Aborts .trap
  | cut : Aborts .cut

/-- Left-to-right evaluation. -/
inductive Eval (S : Storage M) : Task → Store M → List (Action M) → Outcome M → Prop
  | cut (task : Task) (s : Store M) : Eval S task s [] .cut
  | const (value : Word) (s : Store M) : Eval S (.expr (.const value)) s [] (.value value s)
  | temp (x : String) (s : Store M) : Eval S (.expr (.temp x)) s [] (.value (s.temps x) s)
  | name (l : String) (s : Store M) : Eval S (.expr (.name l)) s [] (.value (S.addr l) s)
  | op {o : OpType} {l r : IRExpr} {s s₁ s₂ : Store M} {tr₁ tr₂ : List (Action M)} {a b v : Word} :
      Eval S (.expr l) s tr₁ (.value a s₁) → Eval S (.expr r) s₁ tr₂ (.value b s₂) →
      o.eval a b = some v → Eval S (.expr (.op o l r)) s (tr₁ ++ tr₂) (.value v s₂)
  | opTrap {o : OpType} {l r : IRExpr} {s s₁ s₂ : Store M} {tr₁ tr₂ : List (Action M)} {a b : Word} :
      Eval S (.expr l) s tr₁ (.value a s₁) → Eval S (.expr r) s₁ tr₂ (.value b s₂) →
      o.eval a b = none → Eval S (.expr (.op o l r)) s (tr₁ ++ tr₂) .trap
  | opLeft {o : OpType} {l r : IRExpr} {s : Store M} {tr : List (Action M)} {out : Outcome M} :
      Eval S (.expr l) s tr out → out.Aborts → Eval S (.expr (.op o l r)) s tr out
  | opRight {o : OpType} {l r : IRExpr} {s s₁ : Store M} {tr₁ tr₂ : List (Action M)} {a : Word}
      {out : Outcome M} :
      Eval S (.expr l) s tr₁ (.value a s₁) → Eval S (.expr r) s₁ tr₂ out → out.Aborts →
      Eval S (.expr (.op o l r)) s (tr₁ ++ tr₂) out
  | mem {e : IRExpr} {s s₁ : Store M} {tr : List (Action M)} {p v : Word} :
      Eval S (.expr e) s tr (.value p s₁) → S.read s₁.mem p = some v →
      Eval S (.expr (.mem e)) s (tr ++ [.load p v]) (.value v s₁)
  | memFault {e : IRExpr} {s s₁ : Store M} {tr : List (Action M)} {p : Word} :
      Eval S (.expr e) s tr (.value p s₁) → S.read s₁.mem p = none →
      Eval S (.expr (.mem e)) s tr .trap
  | memAbort {e : IRExpr} {s : Store M} {tr : List (Action M)} {out : Outcome M} :
      Eval S (.expr e) s tr out → out.Aborts → Eval S (.expr (.mem e)) s tr out
  | call {address : IRExpr} {args : List IRExpr} {s s₁ s₂ : Store M} {tr₁ tr₂ : List (Action M)}
      {f : String} {vs : List Word} {v : Word} {m : M} :
      Eval S (.target address) s tr₁ (.callee f s₁) → Eval S (.exprs args) s₁ tr₂ (.values vs s₂) →
      Eval S (.expr (.call address args)) s (tr₁ ++ tr₂ ++ [.event (.call f vs [v] m)])
        (.value v ⟨setReturns 1 [v] s₂.temps, m⟩)
  | callTarget {address : IRExpr} {args : List IRExpr} {s : Store M} {tr : List (Action M)}
      {out : Outcome M} :
      Eval S (.target address) s tr out → out.Aborts → Eval S (.expr (.call address args)) s tr out
  | callArgs {address : IRExpr} {args : List IRExpr} {s s₁ : Store M} {tr₁ tr₂ : List (Action M)}
      {f : String} {out : Outcome M} :
      Eval S (.target address) s tr₁ (.callee f s₁) → Eval S (.exprs args) s₁ tr₂ out →
      out.Aborts → Eval S (.expr (.call address args)) s (tr₁ ++ tr₂) out
  | eseq {st : IRStmt} {e : IRExpr} {s s₁ : Store M} {tr₁ tr₂ : List (Action M)}
      {out : Outcome M} :
      Eval S (.stmt st) s tr₁ (.done s₁) → Eval S (.expr e) s₁ tr₂ out →
      Eval S (.expr (.eseq st e)) s (tr₁ ++ tr₂) out
  | eseqAbort {st : IRStmt} {e : IRExpr} {s : Store M} {tr : List (Action M)} {out : Outcome M} :
      Eval S (.stmt st) s tr out → out.Aborts → Eval S (.expr (.eseq st e)) s tr out
  | nil (s : Store M) : Eval S (.exprs []) s [] (.values [] s)
  | cons {e : IRExpr} {es : List IRExpr} {s s₁ s₂ : Store M} {tr₁ tr₂ : List (Action M)} {v : Word}
      {vs : List Word} :
      Eval S (.expr e) s tr₁ (.value v s₁) → Eval S (.exprs es) s₁ tr₂ (.values vs s₂) →
      Eval S (.exprs (e :: es)) s (tr₁ ++ tr₂) (.values (v :: vs) s₂)
  | consHead {e : IRExpr} {es : List IRExpr} {s : Store M} {tr : List (Action M)}
      {out : Outcome M} :
      Eval S (.expr e) s tr out → out.Aborts → Eval S (.exprs (e :: es)) s tr out
  | consTail {e : IRExpr} {es : List IRExpr} {s s₁ : Store M} {tr₁ tr₂ : List (Action M)} {v : Word}
      {out : Outcome M} :
      Eval S (.expr e) s tr₁ (.value v s₁) → Eval S (.exprs es) s₁ tr₂ out → out.Aborts →
      Eval S (.exprs (e :: es)) s (tr₁ ++ tr₂) out
  | targetName (f : String) (s : Store M) : Eval S (.target (.name f)) s [] (.callee f s)
  | targetEseq {st : IRStmt} {e : IRExpr} {s s₁ : Store M} {tr₁ tr₂ : List (Action M)}
      {out : Outcome M} :
      Eval S (.stmt st) s tr₁ (.done s₁) → Eval S (.target e) s₁ tr₂ out →
      Eval S (.target (.eseq st e)) s (tr₁ ++ tr₂) out
  | targetAbort {st : IRStmt} {e : IRExpr} {s : Store M} {tr : List (Action M)} {out : Outcome M} :
      Eval S (.stmt st) s tr out → out.Aborts → Eval S (.target (.eseq st e)) s tr out
  | moveTemp {x : String} {e : IRExpr} {s s₁ : Store M} {tr : List (Action M)} {v : Word} :
      Eval S (.expr e) s tr (.value v s₁) →
      Eval S (.stmt (.move (.temp x) e)) s tr (.done (s₁.set x v))
  | moveTempAbort {x : String} {e : IRExpr} {s : Store M} {tr : List (Action M)}
      {out : Outcome M} :
      Eval S (.expr e) s tr out → out.Aborts → Eval S (.stmt (.move (.temp x) e)) s tr out
  | moveMem {a e : IRExpr} {s s₁ s₂ : Store M} {tr₁ tr₂ : List (Action M)} {p v : Word} {m : M} :
      Eval S (.expr a) s tr₁ (.value p s₁) → Eval S (.expr e) s₁ tr₂ (.value v s₂) →
      S.write s₂.mem p v = some m →
      Eval S (.stmt (.move (.mem a) e)) s (tr₁ ++ tr₂ ++ [.event (.store p v)])
        (.done { s₂ with mem := m })
  | moveMemFault {a e : IRExpr} {s s₁ s₂ : Store M} {tr₁ tr₂ : List (Action M)} {p v : Word} :
      Eval S (.expr a) s tr₁ (.value p s₁) → Eval S (.expr e) s₁ tr₂ (.value v s₂) →
      S.write s₂.mem p v = none → Eval S (.stmt (.move (.mem a) e)) s (tr₁ ++ tr₂) .trap
  | moveMemAddress {a e : IRExpr} {s : Store M} {tr : List (Action M)} {out : Outcome M} :
      Eval S (.expr a) s tr out → out.Aborts → Eval S (.stmt (.move (.mem a) e)) s tr out
  | moveMemSource {a e : IRExpr} {s s₁ : Store M} {tr₁ tr₂ : List (Action M)} {p : Word}
      {out : Outcome M} :
      Eval S (.expr a) s tr₁ (.value p s₁) → Eval S (.expr e) s₁ tr₂ out → out.Aborts →
      Eval S (.stmt (.move (.mem a) e)) s (tr₁ ++ tr₂) out
  | moveEseq {st : IRStmt} {d e : IRExpr} {s s₁ : Store M} {tr₁ tr₂ : List (Action M)}
      {out : Outcome M} :
      Eval S (.stmt st) s tr₁ (.done s₁) → Eval S (.stmt (.move d e)) s₁ tr₂ out →
      Eval S (.stmt (.move (.eseq st d) e)) s (tr₁ ++ tr₂) out
  | moveEseqAbort {st : IRStmt} {d e : IRExpr} {s : Store M} {tr : List (Action M)}
      {out : Outcome M} :
      Eval S (.stmt st) s tr out → out.Aborts → Eval S (.stmt (.move (.eseq st d) e)) s tr out
  | seq {block : List IRStmt} {s : Store M} {tr : List (Action M)} {out : Outcome M} :
      Eval S (.code (IRStmt.flattenAll block) (IRStmt.flattenAll block)) s tr out →
      Eval S (.stmt (.seq block)) s tr out
  | jump (l : String) (s : Store M) : Eval S (.stmt (.jump l)) s [] (.jump l s)
  | cjumpTrue {g : IRExpr} {t : String} {f : Option String} {s s₁ : Store M}
      {tr : List (Action M)} {v : Word} :
      Eval S (.expr g) s tr (.value v s₁) → v ≠ 0 →
      Eval S (.stmt (.cjump g t f)) s tr (.jump t s₁)
  | cjumpFalse {g : IRExpr} {t f : String} {s s₁ : Store M} {tr : List (Action M)} :
      Eval S (.expr g) s tr (.value 0 s₁) → Eval S (.stmt (.cjump g t (some f))) s tr (.jump f s₁)
  | cjumpFall {g : IRExpr} {t : String} {s s₁ : Store M} {tr : List (Action M)} :
      Eval S (.expr g) s tr (.value 0 s₁) → Eval S (.stmt (.cjump g t none)) s tr (.done s₁)
  | cjumpAbort {g : IRExpr} {t : String} {f : Option String} {s : Store M}
      {tr : List (Action M)} {out : Outcome M} :
      Eval S (.expr g) s tr out → out.Aborts → Eval S (.stmt (.cjump g t f)) s tr out
  | label (l : String) (s : Store M) : Eval S (.stmt (.label l)) s [] (.done s)
  | callStmt {f : String} {n : ℕ} {args : List IRExpr} {s s₁ : Store M} {tr : List (Action M)}
      {vs rets : List Word} {m : M} :
      Eval S (.exprs args) s tr (.values vs s₁) → rets.length = n →
      Eval S (.stmt (.callStmt f n args)) s (tr ++ [.event (.call f vs rets m)])
        (.done ⟨setReturns 1 rets s₁.temps, m⟩)
  | callStmtAbort {f : String} {n : ℕ} {args : List IRExpr} {s : Store M} {tr : List (Action M)}
      {out : Outcome M} :
      Eval S (.exprs args) s tr out → out.Aborts → Eval S (.stmt (.callStmt f n args)) s tr out
  | ret {vals : List IRExpr} {s s₁ : Store M} {tr : List (Action M)} {vs : List Word} :
      Eval S (.exprs vals) s tr (.values vs s₁) → Eval S (.stmt (.ret vals)) s tr (.ret vs s₁)
  | retAbort {vals : List IRExpr} {s : Store M} {tr : List (Action M)} {out : Outcome M} :
      Eval S (.exprs vals) s tr out → out.Aborts → Eval S (.stmt (.ret vals)) s tr out
  | exp {e : IRExpr} {s s₁ : Store M} {tr : List (Action M)} {v : Word} :
      Eval S (.expr e) s tr (.value v s₁) → Eval S (.stmt (.exp e)) s tr (.done s₁)
  | expAbort {e : IRExpr} {s : Store M} {tr : List (Action M)} {out : Outcome M} :
      Eval S (.expr e) s tr out → out.Aborts → Eval S (.stmt (.exp e)) s tr out
  | codeNil (block : List IRStmt) (s : Store M) : Eval S (.code block []) s [] (.done s)
  | codeCons {block rest : List IRStmt} {st : IRStmt} {s s₁ : Store M}
      {tr₁ tr₂ : List (Action M)} {out : Outcome M} :
      Eval S (.stmt st) s tr₁ (.done s₁) → Eval S (.code block rest) s₁ tr₂ out →
      Eval S (.code block (st :: rest)) s (tr₁ ++ tr₂) out
  | codeGoto {block rest rest' : List IRStmt} {st : IRStmt} {l : String} {s s₁ : Store M}
      {tr₁ tr₂ : List (Action M)} {out : Outcome M} :
      Eval S (.stmt st) s tr₁ (.jump l s₁) → findLabel block l = some rest' →
      Eval S (.code block rest') s₁ tr₂ out →
      Eval S (.code block (st :: rest)) s (tr₁ ++ tr₂) out
  | codeJump {block rest : List IRStmt} {st : IRStmt} {l : String} {s s₁ : Store M}
      {tr : List (Action M)} :
      Eval S (.stmt st) s tr (.jump l s₁) → findLabel block l = none →
      Eval S (.code block (st :: rest)) s tr (.jump l s₁)
  | codeRet {block rest : List IRStmt} {st : IRStmt} {vs : List Word} {s s₁ : Store M}
      {tr : List (Action M)} :
      Eval S (.stmt st) s tr (.ret vs s₁) → Eval S (.code block (st :: rest)) s tr (.ret vs s₁)
  | codeTrap {block rest : List IRStmt} {st : IRStmt} {s : Store M} {tr : List (Action M)} :
      Eval S (.stmt st) s tr .trap → Eval S (.code block (st :: rest)) s tr .trap
  | codeCut {block rest : List IRStmt} {st : IRStmt} {s : Store M} {tr : List (Action M)} :
      Eval S (.stmt st) s tr .cut → Eval S (.code block (st :: rest)) s tr .cut

end Mid

end Jaek
