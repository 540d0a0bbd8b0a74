import Jaek.Assembly.Machine
import Jaek.Assembly.Tile

/-!
# Addressing modes compute the address

`detectMemoryFriendly` flattens a tree of additions with a queue. `Addends.sum` is the value of what
has been collected; a step of the loop moves a value from the queue into it (`loop_spec`), and an
operand made of the addends has their sum as its address.
-/

namespace Jaek

/-- The memory of the machine as the storage of the lowered representation. -/
def Bytes.storage (L : String → Word) : Storage Bytes :=
  ⟨L, fun m a => some (m.load a), fun m a v => some (m.store a v)⟩

/-- Abstract registers and memory, read as temps and memory. -/
def State.store (s : State) : Store Bytes := ⟨s.abs, s.mem⟩

theorem convertToShift_factor {n : Word} {shift : Shift} (h : convertToShift n = some shift) :
    shift.factor = n := by
  unfold convertToShift at h
  split_ifs at h <;> simp_all [Shift.factor] <;> subst h <;> rfl

variable (L : String → Word) (s : State)

/-- The value of an expression, where it has one. -/
def LIRExpr.word (e : LIRExpr) : Word := (e.eval (Bytes.storage L) s.store).getD 0

/-- The value of an expression known to have one. -/
theorem LIRExpr.eval_eq_word {e : LIRExpr} (h : (e.eval (Bytes.storage L) s.store).isSome) :
    e.eval (Bytes.storage L) s.store = some (e.word L s) := by
  obtain ⟨v, hv⟩ := Option.isSome_iff_exists.mp h
  rw [word, hv, Option.getD_some]

/-- The sum of the collected addends. -/
def Addends.sum (a : Addends) : Word :=
  (a.addedTemps.map s.abs).sum + a.const.getD 0 +
    match a.validScale, a.scaled with
    | some v, some t => s.abs t * v
    | _, _ => 0

theorem LIRExpr.word_add {left right : LIRExpr}
    (hl : (left.eval (Bytes.storage L) s.store).isSome)
    (hr : (right.eval (Bytes.storage L) s.store).isSome) :
    ((op .ADD left right).eval (Bytes.storage L) s.store).isSome ∧
      (op .ADD left right).word L s = left.word L s + right.word L s := by
  obtain ⟨a, ha⟩ := Option.isSome_iff_exists.mp hl
  obtain ⟨b, hb⟩ := Option.isSome_iff_exists.mp hr
  simp [word, eval, ha, hb, OpType.eval]

/-- The loop fails, or collects the sum of its queue. -/
theorem detectMFAddends.loop_spec (queue : List LIRExpr) (a a' : Addends)
    (h : loop queue a = some a') :
    (∀ e ∈ queue, (e.eval (Bytes.storage L) s.store).isSome) ∧
      a'.sum s = a.sum s + (queue.map (LIRExpr.word L s)).sum := by
  -- Every addend leaves the queue for its place in the sum, or is split into two; the cases without a
  -- result hold of nothing.
  fun_induction loop queue a with
  | case1 a =>
    rw [Option.some.injEq] at h
    simp [h]
  | case2 => cases h
  | case3 c queue a hc ih =>
    obtain ⟨hsome, hsum⟩ := ih h
    refine ⟨by simpa [LIRExpr.eval] using hsome, ?_⟩
    have hnone : a.const = none := by simpa using hc
    rw [hsum]
    simp only [Addends.sum, hnone, Option.getD_some, Option.getD_none, List.map_cons, List.sum_cons,
      LIRExpr.word, LIRExpr.eval]
    ring
  | case4 t queue a ih =>
    obtain ⟨hsome, hsum⟩ := ih h
    refine ⟨by simpa [LIRExpr.eval] using hsome, ?_⟩
    rw [hsum]
    simp only [Addends.sum, List.map_append, List.map_cons, List.map_nil, List.sum_append,
      List.sum_cons, List.sum_nil, LIRExpr.word, LIRExpr.eval, Option.getD_some, State.store]
    ring
  | case5 left right queue a ih =>
    obtain ⟨hsome, hsum⟩ := ih h
    have hl := hsome left (by simp)
    have hr := hsome right (by simp)
    obtain ⟨hadd, hword⟩ := LIRExpr.word_add L s hl hr
    constructor
    · intro e he
      rcases List.mem_cons.mp he with rfl | he
      · exact hadd
      · exact hsome e (by simp [he])
    · rw [hsum, List.map_append, List.sum_append]
      simp only [List.map_cons, List.map_nil, List.sum_cons, List.sum_nil, hword]
      ring
  | case6 => cases h
  | case7 queue a hscale v t ih =>
    obtain ⟨hsome, hsum⟩ := ih h
    refine ⟨by simpa [LIRExpr.eval, OpType.eval] using hsome, ?_⟩
    have hnone : a.validScale = none := by simp_all
    rw [hsum]
    simp only [Addends.sum, hnone, List.map_cons, List.sum_cons, LIRExpr.word, LIRExpr.eval,
      OpType.eval, Option.bind_eq_bind, Option.bind_some, Option.getD_some, State.store]
    ring
  | case8 queue a hscale t v ih =>
    obtain ⟨hsome, hsum⟩ := ih h
    refine ⟨by simpa [LIRExpr.eval, OpType.eval] using hsome, ?_⟩
    have hnone : a.validScale = none := by simp_all
    rw [hsum]
    simp only [Addends.sum, hnone, List.map_cons, List.sum_cons, LIRExpr.word, LIRExpr.eval,
      OpType.eval, Option.bind_eq_bind, Option.bind_some, Option.getD_some, State.store]
    ring
  | case9 => cases h
  | case10 => cases h
  | case11 => cases h
  | case12 => cases h

/-- An operand made of addends has their sum as its address. -/
theorem Addends.address_memory {a : Addends} {m : Memory} (h : a.memory = some m) :
    s.address L m = a.sum s := by
  obtain ⟨validScale, scaled, const, addedTemps⟩ := a
  -- one case for each combination that fits an operand
  unfold memory at h
  split at h
  · cases h
    simp_all [sum, State.address, State.value, Shift.factor]
  · obtain ⟨shift, hshift, rfl⟩ := Option.map_eq_some_iff.mp h
    have hv := convertToShift_factor hshift
    simp_all [sum, State.address, State.value]
  · cases h
    simp_all [sum, State.address, State.value]
  · cases h
    simp_all [sum, State.address, State.value, Shift.factor]
  · obtain ⟨shift, hshift, rfl⟩ := Option.map_eq_some_iff.mp h
    have hv := convertToShift_factor hshift
    simp_all [sum, State.address, State.value]
    ring
  · obtain ⟨shift, hshift, rfl⟩ := Option.map_eq_some_iff.mp h
    have hv := convertToShift_factor hshift
    simp_all [sum, State.address, State.value]
    ring
  · cases h

/-- The address of a memory-friendly operand is the value of the expression. -/
theorem detectMemoryFriendly_eval {e : LIRExpr} {m : Memory} (h : detectMemoryFriendly e = some m) :
    e.eval (Bytes.storage L) s.store = some (s.address L m) := by
  unfold detectMemoryFriendly at h
  split at h
  · rename_i left right
    obtain ⟨a, hloop, hmem⟩ := Option.bind_eq_some_iff.mp h
    obtain ⟨hsome, hsum⟩ := detectMFAddends.loop_spec L s _ _ _ hloop
    obtain ⟨hadd, hword⟩ := LIRExpr.word_add L s (hsome left (by simp)) (hsome right (by simp))
    rw [LIRExpr.eval_eq_word L s hadd, hword, Addends.address_memory L s hmem, hsum]
    simp [Addends.sum]
  · unfold detectMFFactors at h
    split at h
    · obtain ⟨shift, hshift, rfl⟩ := Option.map_eq_some_iff.mp h
      have hv := convertToShift_factor hshift
      simp [LIRExpr.eval, OpType.eval, State.address, State.value, State.store, hv, mul_comm]
    · obtain ⟨shift, hshift, rfl⟩ := Option.map_eq_some_iff.mp h
      have hv := convertToShift_factor hshift
      simp [LIRExpr.eval, OpType.eval, State.address, State.value, State.store, hv]
    · cases h
  · cases h

end Jaek
