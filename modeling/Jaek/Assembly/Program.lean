import Jaek.Assembly.Writes

/-!
# The body of a function as a program

A body runs from its first instruction to a `RET`. A taken jump goes behind its label, a call is one step
under the calling convention, and the placeholders of saved registers stand for lists of instructions, which
an allocator picks.
-/

namespace Jaek

/-- The instructions that are left to run, and the state. -/
structure CodeState where
  code : List Instruction
  state : State

/-- The instructions behind a label. -/
def findInsn (l : String) : List Instruction → Option (List Instruction)
  | [] => none
  | .label name _ :: rest => if name = l then some rest else findInsn l rest
  | _ :: rest => findInsn l rest

/-- What the placeholders stand for. -/
structure Placeholders where
  push : List Instruction
  pop : List Instruction

namespace Placeholders

variable (saved : Placeholders)

def insns : Instruction → List Instruction
  | .CALLERSAVEPUSH => saved.push
  | .CALLERSAVEPOP => saved.pop
  | insn => [insn]

end Placeholders

section Run

variable (callee : String → Passed → Option Returned) (L : String → Word)

/-- Instructions one behind the other. -/
def steps (insns : List Instruction) (s : State) : Option State :=
  insns.foldlM (fun s insn => step callee L insn s) s

/-- One step of a body; `none` behind the last instruction, at a `RET` and on a fault. -/
def stepCode (saved : Placeholders) (body : List Instruction) (c : CodeState) : Option CodeState :=
  match c.code with
  | [] => none
  | .jump op loc :: rest =>
    if op.taken c.state.flags then (findInsn loc body).map fun code => ⟨code, c.state⟩
    else some ⟨rest, c.state⟩
  | .RET :: _ => none
  | insn :: rest => (steps callee L (saved.insns insn) c.state).map fun s => ⟨rest, s⟩

/-- Some number of steps. -/
def CodeReaches (saved : Placeholders) (body : List Instruction) : CodeState → CodeState → Prop :=
  Relation.ReflTransGen fun c c' => stepCode callee L saved body c = some c'

/-- The addresses of the words an instruction loads and stores. -/
def Instruction.accesses (insn : Instruction) (s : State) : List Word :=
  insn.loads L s ++ (insn.writes L s).elim [] fun w => w.words.map Prod.fst

/-- Those of instructions one behind the other. -/
def accesses : List Instruction → State → List Word
  | [], _ => []
  | insn :: insns, s => insn.accesses L s ++ (step callee L insn s).elim [] (accesses insns)

end Run

/-- The instruction hands over to the one behind it. -/
def Instruction.falls : Instruction → Bool
  | jump _ _ | RET | CALLERSAVEPUSH | CALLERSAVEPOP => false
  | _ => true

variable {callee : String → Passed → Option Returned} {L : String → Word} {saved : Placeholders}
  {body insns insns' rest : List Instruction} {insn : Instruction} {s s' : State}

theorem steps_cons : steps callee L (insn :: insns) s = (step callee L insn s).bind (steps callee L insns) :=
  rfl

theorem steps_append (h : steps callee L insns s = some s') :
    steps callee L (insns ++ insns') s = steps callee L insns' s' := by
  rw [steps, List.foldlM_append]
  exact congrArg (fun o => o >>= _) h

theorem steps_singleton : steps callee L [insn] s = step callee L insn s := by
  rw [steps_cons]
  cases step callee L insn s <;> rfl

theorem stepCode_jump (op : Jump) (loc : String) :
    stepCode callee L saved body ⟨.jump op loc :: rest, s⟩ =
      if op.taken s.flags then (findInsn loc body).map fun code => ⟨code, s⟩ else some ⟨rest, s⟩ := rfl

theorem stepCode_eq_steps (hjump : ∀ op loc, insn ≠ .jump op loc) (hret : insn ≠ .RET) :
    stepCode callee L saved body ⟨insn :: rest, s⟩ =
      (steps callee L (saved.insns insn) s).map fun s => ⟨rest, s⟩ := by
  cases insn with
  | jump op loc => exact absurd rfl (hjump op loc)
  | RET => exact absurd rfl hret
  | _ => rfl

theorem stepCode_of_falls (hinsn : insn.falls) :
    stepCode callee L saved body ⟨insn :: rest, s⟩ = (step callee L insn s).map fun s => ⟨rest, s⟩ := by
  have hplain : saved.insns insn = [insn] := by
    cases insn with
    | CALLERSAVEPUSH | CALLERSAVEPOP => cases hinsn
    | _ => rfl
  rw [stepCode_eq_steps, hplain, steps_singleton]
  · rintro op loc rfl
    cases hinsn
  · rintro rfl
    cases hinsn

/-- Instructions that do not jump run one behind the other. -/
theorem reaches_of_steps (hfalls : ∀ insn ∈ insns, insn.falls) (h : steps callee L insns s = some s') :
    CodeReaches callee L saved body ⟨insns ++ rest, s⟩ ⟨rest, s'⟩ := by
  induction insns generalizing s with
  | nil =>
    cases h
    exact .refl
  | cons insn insns ih =>
    rw [List.forall_mem_cons] at hfalls
    rw [steps_cons] at h
    obtain ⟨s₁, hstep, h⟩ := Option.bind_eq_some_iff.mp h
    refine .head ?_ (ih hfalls.2 h)
    rw [List.cons_append, stepCode_of_falls hfalls.1, hstep]
    rfl

/-- Instructions that are no labels are passed over in the search for one. -/
theorem findInsn_append {l : String} (h : ∀ insn ∈ insns, ∀ name top, insn ≠ .label name top) :
    findInsn l (insns ++ rest) = findInsn l rest := by
  induction insns with
  | nil => rfl
  | cons insn insns ih =>
    rw [List.forall_mem_cons] at h
    rw [List.cons_append]
    cases insn with
    | label name top => exact absurd rfl (h.1 name top)
    | _ => exact ih h.2

theorem findInsn_suffix {l : String} (h : findInsn l body = some rest) : rest <:+ body := by
  induction body with
  | nil => cases h
  | cons insn body ih =>
    have hrest : findInsn l body = some rest → rest <:+ insn :: body :=
      fun h => (ih h).trans (List.suffix_cons _ _)
    cases insn with
    | label name top =>
      rw [findInsn] at h
      split_ifs at h
      · cases h
        exact List.suffix_cons _ _
      · exact hrest h
    | _ => exact hrest h

/-- The step of a full-size instruction, if it is no call, is that of its writes. -/
theorem step_eq_writes (hwrites : ∃ w, insn.writes L s = some w) (hbyte : ¬ insn.isByte) :
    step callee L insn s = (insn.writes L s).map fun w => w.apply s := by
  obtain ⟨w, hw⟩ := hwrites
  have hstep : step callee L insn s = if insn.isByte then execByte L insn s else exec L insn s := by
    cases insn with
    | jump | CALL | RET | CALLERSAVEPUSH | CALLERSAVEPOP => cases hw
    | _ => rfl
  rw [hstep, if_neg hbyte, exec_eq_writes]

theorem exists_writes (h : step callee L insn s = some s') (hfalls : insn.falls)
    (hcall : ∀ label, insn ≠ .CALL label) (hbyte : ¬ insn.isByte) :
    ∃ w, insn.writes L s = some w ∧ s' = w.apply s := by
  have hstep : step callee L insn s = if insn.isByte then execByte L insn s else exec L insn s := by
    cases insn with
    | CALL label => exact absurd rfl (hcall label)
    | jump | RET | CALLERSAVEPUSH | CALLERSAVEPOP => cases hfalls
    | _ => rfl
  rw [hstep, if_neg hbyte, exec_eq_writes] at h
  obtain ⟨w, hw, rfl⟩ := Option.map_eq_some_iff.mp h
  exact ⟨w, hw, rfl⟩

end Jaek
