import Mathlib

/-!
# Worklists

A system of equations gives every edge of a graph a value: a node computes the values of the edges it
writes from those of the edges it reads. A worklist run takes nodes in any order, replaces the values a
node writes, and puts the readers of changed edges on the list. This module has what one step keeps: the
equations of the nodes off the list, and, where no value rises, that every value is the result of larger
values; and the potential that each step lowers.
-/

/-- Each edge has one node that writes it and one that reads it. -/
structure EquationSystem (N E V : Type*) where
  ins : N → List E
  outs : N → List E
  writer : E → N
  reader : E → N
  writer_outs : ∀ {n e}, e ∈ outs n → writer e = n
  reader_ins : ∀ {n e}, e ∈ ins n → reader e = n
  transfer : N → (E → V) → Option (E → V)
  transfer_congr : ∀ {n v v'}, (∀ e ∈ ins n, v e = v' e) → transfer n v = transfer n v'

namespace EquationSystem

variable {N E V : Type*} [DecidableEq E] [DecidableEq V] (S : EquationSystem N E V)

/-- The values an edge has are those its writer computes. -/
def Solved (v : E → V) (n : N) : Prop :=
  ∃ f, S.transfer n v = some f ∧ ∀ e ∈ S.outs n, v e = f e

/-- The edges whose values differ. -/
def changed (n : N) (v v' : E → V) : List E := (S.outs n).filter fun e => v' e ≠ v e

/-- One node is taken off the list. -/
structure Step (n : N) (list : List N) (v : E → V) (list' : List N) (v' : E → V) : Prop where
  values : ∃ f, S.transfer n v = some f ∧ ∀ e, v' e = if e ∈ S.outs n then f e else v e
  mem_list : ∀ m, m ∈ list' ↔ (m ∈ list ∧ m ≠ n) ∨ ∃ e ∈ S.changed n v v', S.reader e = m
  length_list : list'.length + 1 ≤ list.length + (S.changed n v v').length

variable {S} {n m : N} {list list' : List N} {v v' : E → V}

theorem Step.unchanged (h : S.Step n list v list' v') {e : E} (he : e ∉ S.outs n) : v' e = v e := by
  obtain ⟨f, -, hv'⟩ := h.values
  rw [hv', if_neg he]

/-- A node off the new list reads what it read before. -/
theorem Step.reads (h : S.Step n list v list' v') (hm : m ∉ list') : ∀ e ∈ S.ins m, v' e = v e := by
  intro e he
  by_cases hout : e ∈ S.outs n
  · by_contra hne
    have hchanged : e ∈ S.changed n v v' := List.mem_filter.mpr ⟨hout, by simpa using hne⟩
    exact hm ((h.mem_list m).mpr (.inr ⟨e, hchanged, S.reader_ins he⟩))
  · exact h.unchanged hout

/-- The equations of the nodes off the list stay solved, and the node taken joins them. -/
theorem Step.solved (h : S.Step n list v list' v') (hsolved : m ∉ list → S.Solved v m) (hm : m ∉ list') :
    S.Solved v' m := by
  have htransfer : S.transfer m v' = S.transfer m v := S.transfer_congr (h.reads hm)
  by_cases hmn : m = n
  · subst hmn
    obtain ⟨f, hf, hv'⟩ := h.values
    exact ⟨f, htransfer.trans hf, fun e he => by rw [hv', if_pos he]⟩
  · have hlist : m ∉ list := fun hmem => hm ((h.mem_list m).mpr (.inl ⟨hmem, hmn⟩))
    obtain ⟨f, hf, hv⟩ := hsolved hlist
    refine ⟨f, htransfer.trans hf, fun e he => ?_⟩
    have hout : e ∉ S.outs n := fun hout =>
      hmn ((S.writer_outs he).symm.trans (S.writer_outs hout))
    rw [h.unchanged hout, hv e he]

/-- A step takes one node off the list. -/
theorem Step.length_le [DecidableEq N] (h : S.Step n list v list' v') (hnodup : list.Nodup) :
    list.length ≤ list'.length + 1 := by
  have hsubset : list.erase n ⊆ list' := by
    intro m hm
    rw [hnodup.mem_erase_iff] at hm
    exact (h.mem_list m).mpr (.inl ⟨hm.2, hm.1⟩)
  have hlength := ((hnodup.erase n).subperm hsubset).length_le
  have herase := List.le_length_erase (a := n) (l := list)
  omega

section Descent

variable [Preorder V]

/-- The values a node writes are the largest, or what it computes from values at least as large as those
it reads. -/
def Descended (S : EquationSystem N E V) (v : E → V) (n : N) : Prop :=
  (∀ e ∈ S.outs n, ∀ x, x ≤ v e) ∨
    ∃ u f, (∀ e ∈ S.ins n, v e ≤ u e) ∧ S.transfer n u = some f ∧ ∀ e ∈ S.outs n, v e = f e

/-- No value rises in the step. -/
def Falls (v v' : E → V) : Prop := ∀ e, v' e ≤ v e

/-- A step in which no value rises keeps every node descended. -/
theorem Step.descended (h : S.Step n list v list' v') (hfalls : Falls v v')
    (hdesc : S.Descended v m) : S.Descended v' m := by
  by_cases hmn : m = n
  · subst hmn
    obtain ⟨f, hf, hv'⟩ := h.values
    exact .inr ⟨v, f, fun e _ => hfalls e, hf, fun e he => by rw [hv', if_pos he]⟩
  · have hkeep : ∀ e ∈ S.outs m, v' e = v e := by
      intro e he
      refine h.unchanged fun hout => hmn ?_
      exact (S.writer_outs he).symm.trans (S.writer_outs hout)
    rcases hdesc with htop | ⟨u, f, hle, hf, hv⟩
    · exact .inl fun e he x => (htop e he x).trans_eq (hkeep e he).symm
    · exact .inr ⟨u, f, fun e he => (hfalls e).trans (hle e he), hf,
        fun e he => (hkeep e he).trans (hv e he)⟩

/-- Where the transfer of the node is monotone between what it read and what it reads, no value rises. -/
theorem Step.falls (h : S.Step n list v list' v') (hdesc : S.Descended v n)
    (hmono : ∀ u fu fv, (∀ e ∈ S.ins n, v e ≤ u e) → S.transfer n u = some fu →
      S.transfer n v = some fv → (∀ e ∈ S.outs n, v e = fu e) → ∀ e ∈ S.outs n, fv e ≤ fu e) :
    Falls v v' := by
  intro e
  by_cases he : e ∈ S.outs n
  · obtain ⟨f, hf, hv'⟩ := h.values
    rw [hv', if_pos he]
    rcases hdesc with htop | ⟨u, fu, hle, hfu, hv⟩
    · exact htop e he _
    · exact (hmono u fu f hle hfu hf hv e he).trans_eq (hv e he).symm
  · exact (h.unchanged he).le

end Descent

section Potential

variable (rank : V → ℕ) (edges : Finset E)

/-- The length of the list and the ranks of all values. -/
def potential (list : List N) (v : E → V) : ℕ := list.length + ∑ e ∈ edges, rank (v e)

/-- Where changed values have a smaller rank, a step lowers the potential. -/
theorem Step.potential_lt (h : S.Step n list v list' v') (hnodup : (S.outs n).Nodup)
    (hedges : ∀ e ∈ S.outs n, e ∈ edges)
    (hrank : ∀ e ∈ S.outs n, v' e ≠ v e → rank (v' e) < rank (v e)) :
    potential rank edges list' v' < potential rank edges list v := by
  have hterm : ∀ e ∈ edges, rank (v' e) + (if e ∈ (S.changed n v v').toFinset then 1 else 0) ≤
      rank (v e) := by
    intro e _
    by_cases he : e ∈ (S.changed n v v').toFinset
    · have hmem := List.mem_filter.mp (List.mem_toFinset.mp he)
      rw [if_pos he]
      exact hrank e hmem.1 (by simpa using hmem.2)
    · rw [if_neg he, add_zero]
      by_cases hout : e ∈ S.outs n
      · have heq : v' e = v e := by
          by_contra hne
          exact he (List.mem_toFinset.mpr (List.mem_filter.mpr ⟨hout, by simpa using hne⟩))
        rw [heq]
      · rw [h.unchanged hout]
  have hsum := Finset.sum_le_sum hterm
  have hsubset : (S.changed n v v').toFinset ⊆ edges := by
    intro e he
    exact hedges e (List.mem_filter.mp (List.mem_toFinset.mp he)).1
  have hcard : (S.changed n v v').toFinset.card = (S.changed n v v').length :=
    List.toFinset_card_of_nodup (hnodup.filter _)
  rw [Finset.sum_add_distrib, Finset.sum_ite_mem, Finset.inter_eq_right.mpr hsubset,
    Finset.sum_const, smul_eq_mul, mul_one, hcard] at hsum
  have hlength := h.length_list
  unfold potential
  omega

end Potential

end EquationSystem
