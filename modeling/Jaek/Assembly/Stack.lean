import Jaek.Assembly.Program
import Jaek.Semantics.HiddenWords

/-!
# Registers pushed and popped

A list of machine registers pushed one behind the other, and popped. What the pushes store is a list of words
below the stack pointer (`stackWords`), and the pops load from the words above it.
-/

namespace Jaek

open x86Name

/-- The registers with the words they go to when they are pushed in this order from `top`. -/
def stackWords (top : Word) : List x86Name → List (x86Name × Word)
  | [] => []
  | n :: ns => (n, top - 8) :: stackWords (top - 8) ns

/-- The registers with the words they come from when they are popped in this order at `top`. -/
def popWords (top : Word) : List x86Name → List (x86Name × Word)
  | [] => []
  | n :: ns => (n, top) :: popWords (top + 8) ns

def pushAll (ns : List x86Name) : List Instruction := ns.map fun n => .PUSH (.x86 n)

def popAll (ns : List x86Name) : List Instruction := ns.map fun n => .POP (.x86 n)

/-- Words on the stack with what is stored in them. -/
def contents (value : x86Name → Word) (words : List (x86Name × Word)) : List (Word × Word) :=
  words.map fun p => (p.2, value p.1)

variable {callee : String → Passed → Option Returned} {L : String → Word} {ns : List x86Name} {s : State}
  {top : Word}

theorem below_succ (top : Word) (n : ℕ) :
    top - 8 * BitVec.ofNat 64 (n + 1) = top - 8 - 8 * BitVec.ofNat 64 n := by
  have h : BitVec.ofNat 64 (n + 1) = BitVec.ofNat 64 n + 1 := BitVec.ofNat_add n 1
  rw [h]
  ring

theorem above_succ (top : Word) (n : ℕ) :
    top + 8 * BitVec.ofNat 64 (n + 1) = top + 8 + 8 * BitVec.ofNat 64 n := by
  have h : BitVec.ofNat 64 (n + 1) = BitVec.ofNat 64 n + 1 := BitVec.ofNat_add n 1
  rw [h]
  ring

theorem map_fst_stackWords (top : Word) (ns : List x86Name) : (stackWords top ns).map Prod.fst = ns := by
  induction ns generalizing top with
  | nil => rfl
  | cons n ns ih => rw [stackWords, List.map_cons, ih]

theorem contents_congr {value value' : x86Name → Word} {words : List (x86Name × Word)}
    (h : ∀ n ∈ words.map Prod.fst, value n = value' n) : contents value words = contents value' words := by
  refine List.map_congr_left fun p hp => ?_
  rw [h p.1 (List.mem_map_of_mem hp)]

/-- Each word that is stored is found, where no two overlap. -/
theorem load_contents {value : x86Name → Word} {words : List (x86Name × Word)} {m : Bytes}
    (hapart : words.Pairwise fun p q => Bytes.Apart p.2 q.2) {p : x86Name × Word} (hp : p ∈ words) :
    ((contents value words).foldl (fun m p => m.store p.1 p.2) m).load p.2 = value p.1 := by
  have hpair : (contents value words).Pairwise fun p q => Bytes.Apart p.1 q.1 := List.pairwise_map.mpr hapart
  have hmem : (p.2, value p.1) ∈ contents value words := List.mem_map.mpr ⟨p, hp, rfl⟩
  exact Bytes.load_foldl_store_of_mem (p := (p.2, value p.1)) hpair hmem

theorem sameOutside_contents {value : x86Name → Word} {words : List (x86Name × Word)} {m : Bytes} :
    Bytes.SameOutside (words.map Prod.snd) m
      ((contents value words).foldl (fun m p => m.store p.1 p.2) m) := by
  refine Bytes.SameOutside.of_foldl_store fun p hp => ?_
  obtain ⟨q, hq, rfl⟩ := List.mem_map.mp hp
  exact List.mem_map_of_mem hq

/-- Popping in reverse order finds the words that were pushed. -/
theorem popWords_reverse (top : Word) (ns : List x86Name) :
    popWords (top - 8 * BitVec.ofNat 64 ns.length) ns.reverse = (stackWords top ns).reverse := by
  have hsnoc : ∀ (ns : List x86Name) (n : x86Name) (top : Word), popWords top (ns ++ [n]) =
      popWords top ns ++ [(n, top + 8 * BitVec.ofNat 64 ns.length)] := by
    intro ns n
    induction ns with
    | nil =>
      intro top
      simp [popWords]
    | cons m ns ih =>
      intro top
      rw [List.cons_append, popWords, ih, popWords, List.cons_append, List.length_cons, above_succ]
  induction ns generalizing top with
  | nil => rfl
  | cons n ns ih =>
    have hword : top - 8 - 8 * BitVec.ofNat 64 ns.length + 8 * BitVec.ofNat 64 ns.length = top - 8 := by ring
    rw [List.reverse_cons, hsnoc, List.length_cons, below_succ, ih, List.length_reverse, hword, stackWords, List.reverse_cons]

theorem pushAll_run (hrsp : RSP ∉ ns) :
    ∃ t, steps callee L (pushAll ns) s = some t ∧ t.phys RSP = s.phys RSP - 8 * BitVec.ofNat 64 ns.length ∧
      (∀ n, n ≠ RSP → t.phys n = s.phys n) ∧ t.flags = s.flags ∧
      t.mem = (contents s.phys (stackWords (s.phys RSP) ns)).foldl (fun m p => m.store p.1 p.2) s.mem := by
  induction ns generalizing s with
  | nil => exact ⟨s, rfl, by simp, fun _ _ => rfl, rfl, rfl⟩
  | cons n ns ih =>
    obtain ⟨hn, hrsp⟩ := not_or.mp (List.mem_cons.not.mp hrsp)
    have hpush : ∀ m, m ≠ RSP → (s.push (s.phys n)).phys m = s.phys m :=
      fun m hm => Function.update_of_ne hm _ _
    have htop : (s.push (s.phys n)).phys RSP = s.phys RSP - 8 := Function.update_self RSP _ s.phys
    obtain ⟨t, hrun, hrsp', hphys, hflags, hmem⟩ := ih (s := s.push (s.phys n)) hrsp
    refine ⟨t, hrun, ?_, fun m hm => (hphys m hm).trans (hpush m hm), hflags, ?_⟩
    · rw [hrsp', htop, List.length_cons, below_succ]
    · have hcontents : contents (s.push (s.phys n)).phys (stackWords (s.phys RSP - 8) ns) =
          contents s.phys (stackWords (s.phys RSP - 8) ns) := by
        refine contents_congr fun m hm => hpush m fun h => hrsp ?_
        rw [map_fst_stackWords] at hm
        exact h ▸ hm
      have hstore : (s.push (s.phys n)).mem = s.mem.store (s.phys RSP - 8) (s.phys n) := by
        rw [← htop]
        rfl
      rw [hmem, htop, hcontents, hstore, stackWords]
      rfl

theorem popAll_run (hrsp : RSP ∉ ns) (hnodup : ns.Nodup) :
    ∃ t, steps callee L (popAll ns) s = some t ∧ t.phys RSP = s.phys RSP + 8 * BitVec.ofNat 64 ns.length ∧
      (∀ p ∈ popWords (s.phys RSP) ns, t.phys p.1 = s.mem.load p.2) ∧
      (∀ n, n ≠ RSP → n ∉ ns → t.phys n = s.phys n) ∧ t.flags = s.flags ∧ t.mem = s.mem := by
  induction ns generalizing s with
  | nil => exact ⟨s, rfl, by simp, by simp [popWords], fun _ _ _ => rfl, rfl, rfl⟩
  | cons n ns ih =>
    obtain ⟨hn, hrsp⟩ := not_or.mp (List.mem_cons.not.mp hrsp)
    obtain ⟨hnew, hnodup⟩ := List.nodup_cons.mp hnodup
    have hpop : ∀ m, m ≠ RSP → m ≠ n → (s.pop.2.set (.x86 n) s.pop.1).phys m = s.phys m := by
      intro m hm hne
      rw [State.phys_set_x86, Function.update_of_ne hne]
      exact Function.update_of_ne hm _ _
    have htop : (s.pop.2.set (.x86 n) s.pop.1).phys RSP = s.phys RSP + 8 := by
      rw [State.phys_set_x86, Function.update_of_ne hn]
      exact Function.update_self RSP _ s.phys
    obtain ⟨t, hrun, hrsp', hload, hphys, hflags, hmem⟩ :=
      ih (s := s.pop.2.set (.x86 n) s.pop.1) hrsp hnodup
    rw [State.mem_set, htop] at hload
    refine ⟨t, hrun, ?_, ?_, fun m hm hmem => ?_, ?_, ?_⟩
    · rw [hrsp', htop, List.length_cons, above_succ]
    · rw [popWords, List.forall_mem_cons]
      refine ⟨?_, hload⟩
      rw [hphys n (Ne.symm hn) hnew, State.phys_set_x86, Function.update_self]
      rfl
    · obtain ⟨hne, hmem⟩ := not_or.mp (List.mem_cons.not.mp hmem)
      rw [hphys m hm hmem, hpop m hm hne]
    · rw [hflags, State.flags_set]
      rfl
    · rw [hmem, State.mem_set]
      rfl

end Jaek
