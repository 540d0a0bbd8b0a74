import Jaek.Assembly.AddressingMode
import Jaek.IR.IRTranslator

/-!
# Arrays in memory

An array is a pointer to its elements, which take eight bytes each; the word in front of them is the
length. The translator computes the offsets in literals as `Int`s.
-/

namespace Jaek

/-- At `p` stands an array with these elements. -/
structure ArrayAt (m : Bytes) (p : Word) (elems : List Word) : Prop where
  length : m.load (p - 8) = .ofNat 64 elems.length
  elem : ∀ i v, elems[i]? = some v → m.load (p + .ofNat 64 (8 * i)) = v

namespace IRTranslator

/-- An `Int` that does not overflow. -/
theorem longOfInt_of_lt {n : ℕ} (h : n < 2 ^ 31) : longOfInt n = .ofNat 64 n := by
  apply BitVec.eq_of_toNat_eq
  have hmod : n % 2 ^ 32 = n := Nat.mod_eq_of_lt (by omega)
  have hmod' : n % 2 ^ 64 = n := Nat.mod_eq_of_lt (by omega)
  have hmsb : (BitVec.ofNat 32 n).msb = false := by
    rw [BitVec.msb_eq_decide, BitVec.toNat_ofNat, hmod]
    simpa using h
  rw [longOfInt, BitVec.toNat_signExtend, hmsb, BitVec.toNat_setWidth, BitVec.toNat_ofNat,
    BitVec.toNat_ofNat, hmod]
  rfl

/-- A multiple of eight stays one, of at most 31 bits with the sign. -/
theorem longOfInt_cases (k : ℕ) : (longOfInt (8 * k)).toNat % 8 = 0 ∧
    ((longOfInt (8 * k)).toNat < 2 ^ 31 ∨ 2 ^ 64 - 2 ^ 31 ≤ (longOfInt (8 * k)).toNat) := by
  rw [longOfInt, BitVec.toNat_signExtend, BitVec.toNat_setWidth, BitVec.msb_eq_decide,
    BitVec.toNat_ofNat]
  simp only [decide_eq_true_eq]
  split <;> omega

/-- Words at different offsets have no byte in common. -/
theorem apart_offsets (p : Word) {i j : ℕ} (hi : i ≤ 2 ^ 60) (hj : j ≤ 2 ^ 60) (hne : i ≠ j) :
    Bytes.Apart (p + .ofNat 64 (8 * i)) (p + .ofNat 64 (8 * j)) := by
  unfold Bytes.Apart
  bv_omega

end IRTranslator

end Jaek
