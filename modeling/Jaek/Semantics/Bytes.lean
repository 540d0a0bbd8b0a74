import Mathlib

/-!
# Byte memory with little-endian words

A memory is a function from addresses to bytes. `load` and `store` move eight bytes; addresses wrap
around. `InWord a b` says that byte `b` is one of the eight at `a`.
-/

/-- A byte-addressed memory. -/
def Bytes := BitVec 64 → BitVec 8

namespace Bytes

variable {m m' : Bytes} {a b : BitVec 64} {v : BitVec 64}

/-- Byte `b` belongs to the word at `a`. -/
def InWord (a b : BitVec 64) : Prop := (b - a).toNat < 8

instance (a b : BitVec 64) : Decidable (InWord a b) := inferInstanceAs (Decidable (_ < _))

/-- Byte number `i` of a word. -/
def byte (v : BitVec 64) (i : ℕ) : BitVec 8 := v.extractLsb' (8 * i) 8

/-- Overwrite the word at `a`. -/
def store (m : Bytes) (a v : BitVec 64) : Bytes := fun b =>
  if InWord a b then byte v (b - a).toNat else m b

/-- The word at `a`. -/
def load (m : Bytes) (a : BitVec 64) : BitVec 64 :=
  m (a + 7) ++ m (a + 6) ++ m (a + 5) ++ m (a + 4) ++ m (a + 3) ++ m (a + 2) ++ m (a + 1) ++ m a

theorem store_of_inWord (h : InWord a b) : store m a v b = byte v (b - a).toNat := if_pos h

theorem store_of_not_inWord (h : ¬ InWord a b) : store m a v b = m b := if_neg h

/-- Two words have no byte in common. -/
def Apart (a b : BitVec 64) : Prop := 8 ≤ (b - a).toNat ∧ 8 ≤ (a - b).toNat

theorem inWord_self (a : BitVec 64) : InWord a a := by simp [InWord]

theorem inWord_add (a : BitVec 64) {i : BitVec 64} (hi : i.toNat < 8) : InWord a (a + i) := by
  have h : a + i - a = i := by rw [BitVec.add_comm, BitVec.add_sub_cancel]
  rw [InWord, h]
  exact hi

theorem Apart.not_inWord (h : Apart a b) {c : BitVec 64} (hc : InWord b c) : ¬ InWord a c := by
  obtain ⟨h1, h2⟩ := h
  unfold InWord at *
  bv_omega

/-- A load only looks at its eight bytes. -/
theorem load_congr (h : ∀ c, InWord a c → m c = m' c) : load m a = load m' a := by
  have hbyte : ∀ i : BitVec 64, i.toNat < 8 → m (a + i) = m' (a + i) := fun i hi =>
    h _ (inWord_add a hi)
  simp only [load, hbyte 7 (by decide), hbyte 6 (by decide), hbyte 5 (by decide),
    hbyte 4 (by decide), hbyte 3 (by decide), hbyte 2 (by decide), hbyte 1 (by decide),
    h a (inWord_self a)]

/-- The eight bytes of a word put together give the word back. -/
theorem append_bytes (v : BitVec 64) :
    byte v 7 ++ byte v 6 ++ byte v 5 ++ byte v 4 ++ byte v 3 ++ byte v 2 ++ byte v 1 ++ byte v 0
      = v := by
  have hbit : ∀ i j k, j < 8 → 8 * k + j = i →
      (decide (j < 8) && v.getLsbD (8 * k + j)) = v.getLsbD i := by
    rintro i j k hj rfl
    rw [decide_eq_true hj, Bool.true_and]
  apply BitVec.eq_of_getLsbD_eq
  intro i hi
  simp only [byte, BitVec.getLsbD_append, BitVec.getLsbD_extractLsb']
  split_ifs <;> exact hbit _ _ _ (by omega) (by omega)

@[simp] theorem load_store_self (m : Bytes) (a v : BitVec 64) : load (store m a v) a = v := by
  have hbyte : ∀ i : BitVec 64, i.toNat < 8 → store m a v (a + i) = byte v i.toNat := by
    intro i hi
    have hsub : a + i - a = i := by rw [BitVec.add_comm, BitVec.add_sub_cancel]
    rw [store_of_inWord (inWord_add a hi), hsub]
  have hself : store m a v a = byte v 0 := by
    have hsub : a - a = 0 := BitVec.sub_self a
    rw [store_of_inWord (inWord_self a), hsub]
    rfl
  rw [load, hbyte 7 (by decide), hbyte 6 (by decide), hbyte 5 (by decide), hbyte 4 (by decide),
    hbyte 3 (by decide), hbyte 2 (by decide), hbyte 1 (by decide), hself]
  exact append_bytes v

theorem load_store_apart (m : Bytes) (v : BitVec 64) (h : Apart a b) :
    load (store m a v) b = load m b :=
  load_congr fun _ hc => store_of_not_inWord (h.not_inWord hc)

theorem Apart.symm (h : Apart a b) : Apart b a := ⟨h.2, h.1⟩

end Bytes
