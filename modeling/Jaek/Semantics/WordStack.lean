import Jaek.Semantics.HiddenWords

/-!
# A stack of words in a byte memory

A stack that grows down from `top` and has room for `size` words. `pointer d` is the stack pointer when `d`
words are on the stack, and `word i` the address of the word pushed as number `i`, counted from 0. The words are
apart from each other, so that a memory is, as far as the stack goes, a list of words.
-/

/-- A stack that does not wrap around. -/
structure WordStack where
  top : BitVec 64
  size : ℕ
  small : size ≤ 2 ^ 32

namespace WordStack

open Bytes

variable (S : WordStack) {i j d k : ℕ} {m m' : Bytes} {v : BitVec 64}

/-- The stack pointer at depth `d`. -/
def pointer (d : ℕ) : BitVec 64 := S.top - 8 * BitVec.ofNat 64 d

/-- The address of a word of the stack. -/
def word (i : ℕ) : BitVec 64 := S.pointer (i + 1)

/-- All of them. -/
def words : List (BitVec 64) := (List.range S.size).map S.word

/-- A word outside the stack. -/
def Off (a : BitVec 64) : Prop := ∀ w ∈ S.words, Apart w a

instance (w a : BitVec 64) : Decidable (Apart w a) := inferInstanceAs (Decidable (_ ∧ _))

instance : DecidablePred S.Off := fun _ => inferInstanceAs (Decidable (∀ _ ∈ _, _))

/-- The stack grows downwards. -/
theorem pointer_succ (d : ℕ) : S.pointer (d + 1) = S.pointer d - 8 := by
  have h : BitVec.ofNat 64 (d + 1) = BitVec.ofNat 64 d + 1 := BitVec.ofNat_add d 1
  rw [pointer, pointer, h]
  ring

/-- The stack pointer moves up by what is taken off. -/
theorem pointer_add (h : k ≤ d) : S.pointer d + 8 * BitVec.ofNat 64 k = S.pointer (d - k) := by
  obtain ⟨e, rfl⟩ := Nat.exists_eq_add_of_le h
  rw [Nat.add_sub_cancel_left, pointer, pointer, BitVec.ofNat_add]
  ring

/-- By several words at once. -/
theorem pointer_sub (d k : ℕ) : S.pointer d - 8 * BitVec.ofNat 64 k = S.pointer (d + k) := by
  rw [pointer, pointer, BitVec.ofNat_add]
  ring

/-- The next word is where the pointer goes next. -/
theorem pointer_sub_eight (d : ℕ) : S.pointer d - 8 = S.word d := (S.pointer_succ d).symm

/-- A word less. -/
theorem pointer_add_eight (d : ℕ) : S.pointer (d + 1) + 8 = S.pointer d := by
  rw [pointer_succ, BitVec.sub_add_cancel]

variable {S}

/-- A word of the stack. -/
theorem word_mem (hi : i < S.size) : S.word i ∈ S.words := List.mem_map_of_mem (List.mem_range.mpr hi)

/-- The words do not overlap. -/
theorem word_apart (hi : i < S.size) (hj : j < S.size) (hne : i ≠ j) : Apart (S.word i) (S.word j) := by
  have hsmall := S.small
  simp only [Apart, word, pointer]
  constructor <;> bv_omega

/-- What a store to the stack does to the words of the stack. -/
theorem load_store_word (hi : i < S.size) (hj : j < S.size) :
    (m.store (S.word i) v).load (S.word j) = if j = i then v else m.load (S.word j) := by
  split_ifs with h
  · subst h
    exact load_store_self m _ v
  · exact load_store_apart m v (word_apart hi hj (Ne.symm h))

/-- A write to a word of the stack changes nothing outside. -/
theorem sameOutside_store_word (h : SameOutside S.words m m') (hi : i < S.size) :
    SameOutside S.words m (m'.store (S.word i) v) :=
  h.store_hidden (word_mem hi) v

end WordStack
