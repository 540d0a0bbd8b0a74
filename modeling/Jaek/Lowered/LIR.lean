import Jaek.Semantics.Lts
import Jaek.Lowered.OpType

/-!
# The lowered intermediate representation

`LIRExpr`, `EndBlock` and `FlatStmt` follow `ir/lowered`: a function body is a flat list of
statements, of which jumps and returns end a basic block.

The meaning of a body is the labelled transition system `flat`. A configuration is the list of
statements still to run and the store; a jump continues with the statements after its label.
Assignments, memory writes, calls and returns are visible; labels and jumps are silent. A call shows
its arguments, the values it returns and the memory it leaves, so a behaviour records every answer
the environment may give.
-/

namespace Jaek

/-- An expression of the lowered representation. -/
inductive LIRExpr
  | const (value : Word)
  | temp (name : String)
  | name (l : String)
  | mem (address : LIRExpr)
  | op (op : OpType) (left right : LIRExpr)
deriving DecidableEq, Repr

/-- The statements that end a basic block. `LIRCJump` may lack a false branch. -/
inductive EndBlock
  | jump (address : String)
  | cjump (guard : LIRExpr) (trueBranch : String) (falseBranch : Option String)
  | trueJump (guard : LIRExpr) (trueBranch : String)
  | ret (valList : List LIRExpr)
deriving DecidableEq, Repr

/-- A statement of a flat function body. -/
inductive FlatStmt
  | endBlock (e : EndBlock)
  | callStmt (target : String) (n_returns : ℕ) (args : List LIRExpr)
  | label (l : String)
  | move (dest expr : LIRExpr)
deriving DecidableEq, Repr

/-- The storage a program runs over: label addresses, and word reads and writes that may fault.
No law relates reads to writes. -/
structure Storage (M : Type*) where
  addr : String → Word
  read : M → Word → Option Word
  write : M → Word → Word → Option M

/-- A storage without memory. -/
def noMemory : Storage Unit := ⟨fun _ => 0, fun _ _ => none, fun _ _ _ => none⟩

/-- The values of the temps and the memory. -/
structure Store (M : Type*) where
  temps : String → Word
  mem : M

/-- What an observer sees of a run. -/
inductive Event (M : Type*)
  | assign (temp : String) (value : Word)
  | store (addr value : Word)
  | call (target : String) (args rets : List Word) (mem : M)
  | ret (vals : List Word)

variable {M : Type*}

/-- The store after assigning a temp. -/
def Store.set (s : Store M) (x : String) (v : Word) : Store M :=
  { s with temps := Function.update s.temps x v }

/-- The temp that holds the `i`-th result of a call, counted from one. -/
def retTemp (i : ℕ) : String := "_RV" ++ toString i

/-- The temps after a call has put its results into the result temps from number `i` on. -/
def setReturns (i : ℕ) : List Word → (String → Word) → String → Word
  | [], temps => temps
  | v :: rets, temps => setReturns (i + 1) rets (Function.update temps (retTemp i) v)

/-- Only result temps are set. -/
theorem setReturns_of_ne {x : String} (hx : ∀ i, x ≠ retTemp i) (i : ℕ) (rets : List Word)
    (temps : String → Word) : setReturns i rets temps x = temps x := by
  induction rets generalizing i temps with
  | nil => rfl
  | cons v rets ih => rw [setReturns, ih, Function.update_of_ne (hx i)]

/-- The results of a call do not depend on the temps they replace. -/
theorem setReturns_congr {x : String} {temps temps' : String → Word} (h : temps x = temps' x)
    (i : ℕ) (rets : List Word) : setReturns i rets temps x = setReturns i rets temps' x := by
  induction rets generalizing i temps temps' with
  | nil => exact h
  | cons v rets ih =>
    refine ih ?_ (i + 1)
    rw [Function.update_apply, Function.update_apply, h]

/-- The value of an expression; `none` when an operator traps or a read faults. -/
def LIRExpr.eval (S : Storage M) (s : Store M) : LIRExpr → Option Word
  | const value => some value
  | temp x => some (s.temps x)
  | name l => some (S.addr l)
  | mem address => (address.eval S s).bind (S.read s.mem)
  | op o left right => do o.eval (← left.eval S s) (← right.eval S s)

/-- The values of a list of expressions. -/
def evalList (S : Storage M) (s : Store M) (es : List LIRExpr) : Option (List Word) :=
  es.mapM (LIRExpr.eval S s)

/-- The effect of a statement that neither jumps nor returns. -/
inductive Exec (S : Storage M) : FlatStmt → Store M → Event M → Store M → Prop
  | moveTemp {s : Store M} {x : String} {e : LIRExpr} {v : Word} :
      e.eval S s = some v → Exec S (.move (.temp x) e) s (.assign x v) (s.set x v)
  | moveMem {s : Store M} {a e : LIRExpr} {p v : Word} {m : M} :
      a.eval S s = some p → e.eval S s = some v → S.write s.mem p v = some m →
      Exec S (.move (.mem a) e) s (.store p v) { s with mem := m }
  | call {s : Store M} {f : String} {n : ℕ} {args : List LIRExpr} {vs rets : List Word} {m : M} :
      evalList S s args = some vs → rets.length = n →
      Exec S (.callStmt f n args) s (.call f vs rets m) ⟨setReturns 1 rets s.temps, m⟩

/-- Where control goes after a jump: `some none` is the next statement, `none` a trap. Returns do
not continue. -/
def EndBlock.next (S : Storage M) (s : Store M) : EndBlock → Option (Option String)
  | jump address => some (some address)
  | cjump guard t f => (guard.eval S s).map fun v => if v ≠ 0 then some t else f
  | trueJump guard t => (guard.eval S s).map fun v => if v ≠ 0 then some t else none
  | ret _ => none

section Next

variable {S : Storage M} {s : Store M} {guard : LIRExpr} {v : Word}

/-- A guard that is not zero takes the jump. -/
theorem EndBlock.next_cjump_of_ne (h : guard.eval S s = some v) (hv : v ≠ 0) (t : String)
    (f : Option String) : (cjump guard t f).next S s = some (some t) := by
  rw [next, h, Option.map_some, if_pos hv]

/-- A guard of zero takes the other one. -/
theorem EndBlock.next_cjump_of_zero (h : guard.eval S s = some 0) (t : String)
    (f : Option String) : (cjump guard t f).next S s = some f := by
  rw [next, h, Option.map_some, if_neg (by simp)]

/-- A guard that is not zero takes the jump. -/
theorem EndBlock.next_trueJump_of_ne (h : guard.eval S s = some v) (hv : v ≠ 0) (t : String) :
    (trueJump guard t).next S s = some (some t) := by
  rw [next, h, Option.map_some, if_pos hv]

/-- A guard of zero falls through. -/
theorem EndBlock.next_trueJump_of_zero (h : guard.eval S s = some 0) (t : String) :
    (trueJump guard t).next S s = some none := by
  rw [next, h, Option.map_some, if_neg (by simp)]

end Next

/-- The statements after the first occurrence of a label. -/
def findLabel : List FlatStmt → String → Option (List FlatStmt)
  | [], _ => none
  | .label l' :: rest, l => if l' = l then some rest else findLabel rest l
  | .endBlock _ :: rest, l => findLabel rest l
  | .callStmt _ _ _ :: rest, l => findLabel rest l
  | .move _ _ :: rest, l => findLabel rest l

/-- The statements to run after a jump with outcome `d`, where `rest` follows the jump. -/
def goto (body rest : List FlatStmt) : Option String → Option (List FlatStmt)
  | some l => findLabel body l
  | none => some rest

/-- A point in a run: the statements left and the store, or the end of the function. -/
inductive Config (M : Type*)
  | running (rest : List FlatStmt) (s : Store M)
  | returned

/-- One step of a flat body. -/
inductive FlatStep (S : Storage M) (body : List FlatStmt) :
    Config M → Option (Event M) → Config M → Prop
  | exec {st : FlatStmt} {rest : List FlatStmt} {s s' : Store M} {e : Event M} :
      Exec S st s e s' → FlatStep S body (.running (st :: rest) s) (some e) (.running rest s')
  | label {l : String} {rest : List FlatStmt} {s : Store M} :
      FlatStep S body (.running (.label l :: rest) s) none (.running rest s)
  | control {e : EndBlock} {rest rest' : List FlatStmt} {s : Store M} {d : Option String} :
      e.next S s = some d → goto body rest d = some rest' →
      FlatStep S body (.running (.endBlock e :: rest) s) none (.running rest' s)
  | ret {vals : List LIRExpr} {rest : List FlatStmt} {s : Store M} {vs : List Word} :
      evalList S s vals = some vs →
      FlatStep S body (.running (.endBlock (.ret vals) :: rest) s) (some (.ret vs)) .returned

/-- The behaviour of a flat function body. -/
def flat (S : Storage M) (body : List FlatStmt) : Lts (Config M) (Event M) := ⟨FlatStep S body⟩

/-- The labels of a body, in textual order. -/
def labels (body : List FlatStmt) : List String :=
  body.filterMap fun
    | .label l => some l
    | _ => none

/-- The labels a jump may go to. -/
def EndBlock.targets : EndBlock → List String
  | jump address => [address]
  | cjump _ t f => t :: f.toList
  | trueJump _ t => [t]
  | ret _ => []

/-- The temp occurs in the expression. -/
def LIRExpr.Reads (x : String) : LIRExpr → Prop
  | .const _ => False
  | .temp y => x = y
  | .name _ => False
  | .mem address => address.Reads x
  | .op _ left right => left.Reads x ∨ right.Reads x

/-- The expressions of a jump or a return. -/
def EndBlock.exprs : EndBlock → List LIRExpr
  | .jump _ => []
  | .cjump guard _ _ => [guard]
  | .trueJump guard _ => [guard]
  | .ret valList => valList

/-- The expressions of a statement. -/
def FlatStmt.exprs : FlatStmt → List LIRExpr
  | .endBlock e => e.exprs
  | .callStmt _ _ args => args
  | .label _ => []
  | .move dest expr => [dest, expr]

@[simp] theorem labels_nil : labels [] = [] := rfl

@[simp] theorem labels_label (l : String) (rest : List FlatStmt) :
    labels (.label l :: rest) = l :: labels rest := rfl

@[simp] theorem labels_endBlock (e : EndBlock) (rest : List FlatStmt) :
    labels (.endBlock e :: rest) = labels rest := rfl

@[simp] theorem labels_callStmt (f : String) (n : ℕ) (args : List LIRExpr)
    (rest : List FlatStmt) : labels (.callStmt f n args :: rest) = labels rest := rfl

@[simp] theorem labels_move (d e : LIRExpr) (rest : List FlatStmt) :
    labels (.move d e :: rest) = labels rest := rfl

@[simp] theorem labels_append (b b' : List FlatStmt) :
    labels (b ++ b') = labels b ++ labels b' := List.filterMap_append

/-- The labels of a body. -/
theorem mem_labels {body : List FlatStmt} {l : String} :
    l ∈ labels body ↔ FlatStmt.label l ∈ body := by
  induction body with
  | nil => simp
  | cons st body ih => cases st <;> simp [ih]

/-- Code without a label does not matter when looking for it. -/
theorem findLabel_append {pre rest : List FlatStmt} {l : String} (h : l ∉ labels pre) :
    findLabel (pre ++ rest) l = findLabel rest l := by
  induction pre with
  | nil => rfl
  | cons st pre ih =>
    cases st with
    | label l' =>
      simp only [labels_label, List.mem_cons, not_or] at h
      simp [findLabel, Ne.symm h.1, ih h.2]
    | endBlock e => simpa [findLabel] using ih (by simpa using h)
    | callStmt f n args => simpa [findLabel] using ih (by simpa using h)
    | move d e => simpa [findLabel] using ih (by simpa using h)

@[simp] theorem findLabel_self (l : String) (rest : List FlatStmt) :
    findLabel (.label l :: rest) l = some rest := by simp [findLabel]

/-- A found label splits the body at its first occurrence. -/
theorem findLabel_eq_some {body rest : List FlatStmt} {l : String}
    (h : findLabel body l = some rest) :
    ∃ pre, body = pre ++ .label l :: rest ∧ l ∉ labels pre := by
  induction body with
  | nil => simp [findLabel] at h
  | cons st body ih =>
    cases st with
    | label l' =>
      by_cases hl : l' = l
      · subst hl
        simp only [findLabel, if_true, Option.some.injEq] at h
        exact ⟨[], by simp [h], by simp⟩
      · simp only [findLabel, if_neg hl] at h
        obtain ⟨pre, hb, hp⟩ := ih h
        exact ⟨.label l' :: pre, by simp [hb], by simp [hp, Ne.symm hl]⟩
    | endBlock e =>
      obtain ⟨pre, hb, hp⟩ := ih (by simpa [findLabel] using h)
      exact ⟨.endBlock e :: pre, by simp [hb], by simpa using hp⟩
    | callStmt f n args =>
      obtain ⟨pre, hb, hp⟩ := ih (by simpa [findLabel] using h)
      exact ⟨.callStmt f n args :: pre, by simp [hb], by simpa using hp⟩
    | move d e =>
      obtain ⟨pre, hb, hp⟩ := ih (by simpa [findLabel] using h)
      exact ⟨.move d e :: pre, by simp [hb], by simpa using hp⟩

/-- `Exec` runs neither labels nor jumps. -/
theorem Exec.ne_label {S : Storage M} {s s' : Store M} {e : Event M} {l : String}
    (h : Exec S (.label l) s e s') : False := by cases h

/-- The end of a block is no step within it. -/
theorem Exec.ne_endBlock {S : Storage M} {s s' : Store M} {e : Event M} {b : EndBlock}
    (h : Exec S (.endBlock b) s e s') : False := by cases h

end Jaek
