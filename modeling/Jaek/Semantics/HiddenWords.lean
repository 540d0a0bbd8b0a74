import Jaek.Semantics.Bytes

/-!
# Memories that differ in some words only

`SameOutside ws m m'` says that two memories have the same bytes outside the words at `ws`, which one of two
programs has for itself. A word apart from these is loaded from both alike, and may be stored to both.
-/

namespace Bytes

variable {ws : List (BitVec 64)} {m m' : Bytes} {a v : BitVec 64}

/-- The same bytes outside the words at `ws`. -/
def SameOutside (ws : List (BitVec 64)) (m m' : Bytes) : Prop :=
  ∀ b, (∀ w ∈ ws, ¬ InWord w b) → m' b = m b

theorem SameOutside.refl (ws : List (BitVec 64)) (m : Bytes) : SameOutside ws m m := fun _ _ => rfl

theorem SameOutside.trans {m'' : Bytes} (h : SameOutside ws m m') (h' : SameOutside ws m' m'') :
    SameOutside ws m m'' := fun b hb => (h' b hb).trans (h b hb)

theorem SameOutside.load_eq (h : SameOutside ws m m') (ha : ∀ w ∈ ws, Apart w a) :
    load m' a = load m a :=
  load_congr fun b hb => h b fun w hw => (ha w hw).not_inWord hb

/-- A store to both. -/
theorem SameOutside.store (h : SameOutside ws m m') (a v : BitVec 64) :
    SameOutside ws (m.store a v) (m'.store a v) := by
  intro b hb
  by_cases hin : InWord a b
  · rw [store_of_inWord hin, store_of_inWord hin]
  · rw [store_of_not_inWord hin, store_of_not_inWord hin, h b hb]

/-- A store to a hidden word. -/
theorem SameOutside.store_hidden (h : SameOutside ws m m') (ha : a ∈ ws) (v : BitVec 64) :
    SameOutside ws m (m'.store a v) := by
  intro b hb
  rw [store_of_not_inWord (hb a ha), h b hb]

/-- Stores to both, in order. -/
theorem SameOutside.foldl_store (h : SameOutside ws m m') (words : List (BitVec 64 × BitVec 64)) :
    SameOutside ws (words.foldl (fun m p => m.store p.1 p.2) m)
      (words.foldl (fun m p => m.store p.1 p.2) m') := by
  induction words generalizing m m' with
  | nil => exact h
  | cons p words ih => exact ih (h.store p.1 p.2)

/-- Stores apart from a word leave it. -/
theorem load_foldl_store {words : List (BitVec 64 × BitVec 64)} (h : ∀ p ∈ words, Apart p.1 a) :
    load (words.foldl (fun m p => m.store p.1 p.2) m) a = load m a := by
  induction words generalizing m with
  | nil => rfl
  | cons p words ih =>
    rw [List.forall_mem_cons] at h
    rw [List.foldl_cons, ih h.2, load_store_apart _ _ h.1]

/-- Of stores to words apart from each other each is found. -/
theorem load_foldl_store_of_mem {words : List (BitVec 64 × BitVec 64)}
    (hapart : words.Pairwise fun p q => Apart p.1 q.1) {p : BitVec 64 × BitVec 64} (hp : p ∈ words) :
    load (words.foldl (fun m p => m.store p.1 p.2) m) p.1 = p.2 := by
  induction words generalizing m with
  | nil => cases hp
  | cons q words ih =>
    rw [List.pairwise_cons] at hapart
    rw [List.foldl_cons]
    rcases List.mem_cons.mp hp with rfl | hp
    · rw [load_foldl_store fun q hq => (hapart.1 q hq).symm, load_store_self]
    · exact ih hapart.2 hp

/-- Stores to hidden words. -/
theorem SameOutside.of_foldl_store {words : List (BitVec 64 × BitVec 64)} (h : ∀ p ∈ words, p.1 ∈ ws) :
    SameOutside ws m (words.foldl (fun m p => m.store p.1 p.2) m) := by
  have hgen : ∀ m', SameOutside ws m m' → SameOutside ws m (words.foldl (fun m p => m.store p.1 p.2) m') := by
    induction words with
    | nil => exact fun _ h => h
    | cons p words ih =>
      rw [List.forall_mem_cons] at h
      exact fun m' hm' => ih h.2 _ (hm'.store_hidden h.1 _)
  exact hgen m (.refl ws m)

end Bytes
