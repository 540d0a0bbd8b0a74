import Jaek.Lowered.LIRSeq

/-!
# Random traces

Whatever the random draws are, `greedyTrace` returns the nodes in some order, each of them once, and
a first node without predecessors stays first.
-/

namespace Jaek.LIRSeq

variable {nodes : List Node} {picks : ℕ → ℕ}

theorem randomOrNull_mem {α : Type*} {k : ℕ} {xs : List α} {x : α}
    (h : randomOrNull picks k xs = some x) : x ∈ xs := List.mem_of_getElem? h

theorem randomOrNull_ne_none {α : Type*} {xs : List α} (picks : ℕ → ℕ) (k : ℕ) (h : xs ≠ []) :
    randomOrNull picks k xs ≠ none := by
  have hlen : 0 < xs.length := List.length_pos_iff.mpr h
  simp [randomOrNull, Nat.mod_lt _ hlen]

theorem head_mem {k h : ℕ} {unmarked : List ℕ} (hh : (head nodes picks k unmarked).1 = some h) :
    h ∈ unmarked := by
  unfold head at hh
  split at hh
  · rename_i n hn
    exact Option.some.inj hh ▸ List.mem_of_find?_eq_some hn
  · exact randomOrNull_mem hh

theorem head_ne_none (nodes : List Node) (picks : ℕ → ℕ) (k : ℕ) {unmarked : List ℕ}
    (h : unmarked ≠ []) :
    (head nodes picks k unmarked).1 ≠ none := by
  unfold head
  split
  · simp
  · exact randomOrNull_ne_none picks _ h

theorem unmarkedSuccessors_subset {h x : ℕ} {unmarked : List ℕ}
    (hx : x ∈ unmarkedSuccessors nodes h unmarked) : x ∈ unmarked := by
  unfold unmarkedSuccessors at hx
  split at hx
  · simpa using (List.mem_filter.mp hx).2
  · simp at hx

/-- The loops put the current head and the unmarked positions into the order, each once. -/
theorem greedyTrace.loop_perm (nodes : List Node) (picks : ℕ → ℕ) (fuel : ℕ) (h : Option ℕ)
    (unmarked order : List ℕ) (k : ℕ) (hh : ∀ x, h = some x → x ∈ unmarked)
    (hfuel : 2 * unmarked.length + (if h = none then 1 else 0) ≤ fuel) :
    ∃ rest, loop nodes picks fuel h unmarked order k = order ++ rest ∧ rest.Perm unmarked ∧
      (∀ x, h = some x → rest.head? = some x) ∧
      (h = none → unmarked ≠ [] → rest.head? = (head nodes picks k unmarked).1) := by
  induction fuel generalizing h unmarked order k with
  | zero =>
    cases h with
    | none => simp at hfuel
    | some x =>
      have hlen : unmarked.length = 0 := by omega
      simpa [List.length_eq_zero_iff.mp hlen] using hh x rfl
  | succ fuel ih =>
    cases h with
    | some x =>
      have hx := hh x rfl
      have hlen := List.length_erase_add_one hx
      obtain ⟨rest, heq, hperm, -, -⟩ := ih
        (randomOrNull picks k (unmarkedSuccessors nodes x (unmarked.erase x))) (unmarked.erase x)
        (order ++ [x]) (k + 1)
        (fun y hy => unmarkedSuccessors_subset (randomOrNull_mem hy))
        (by split <;> simp_all <;> omega)
      refine ⟨x :: rest, by rw [loop, heq]; simp, ?_, ?_, by simp⟩
      · exact (hperm.cons x).trans (List.perm_cons_erase hx).symm
      · rintro y ⟨⟩
        rfl
    | none =>
      cases unmarked with
      | nil => exact ⟨[], by simp [loop], .refl _, by simp, by simp⟩
      | cons u unmarked =>
        have hne := head_ne_none nodes picks k (List.cons_ne_nil u unmarked)
        obtain ⟨x, hx⟩ := Option.ne_none_iff_exists'.mp hne
        obtain ⟨rest, heq, hperm, hhead, -⟩ := ih (head nodes picks k (u :: unmarked)).1
          (u :: unmarked) order (head nodes picks k (u :: unmarked)).2
          (fun y hy => head_mem hy) (by rw [if_neg hne]; simp at hfuel ⊢; omega)
        exact ⟨rest, heq, hperm, by simp, fun _ _ => by rw [hx, hhead x hx]⟩

theorem traceOrder_perm (nodes : List Node) (picks : ℕ → ℕ) :
    (traceOrder nodes picks).Perm (List.range nodes.length) := by
  obtain ⟨rest, heq, hperm, -, -⟩ := greedyTrace.loop_perm nodes picks
    (2 * nodes.length + 1) none (List.range nodes.length) [] 0 (by simp) (by simp)
  rwa [traceOrder, heq]

/-- The first node is the first of the order when it has no predecessor. -/
theorem traceOrder_head (picks : ℕ → ℕ) (hnodes : nodes ≠ []) (h : hasPredecessor nodes 0 = false) :
    (traceOrder nodes picks).head? = some 0 := by
  obtain ⟨n, ns, rfl⟩ := List.exists_cons_of_ne_nil hnodes
  obtain ⟨rest, heq, -, -, hhead⟩ := greedyTrace.loop_perm (n :: ns) picks
    (2 * (n :: ns).length + 1) none (List.range (n :: ns).length) [] 0 (by simp) (by simp)
  rw [traceOrder, heq, List.nil_append, hhead rfl (by simp)]
  simp [head, List.range_succ_eq_map, h]

theorem filterMap_range : (List.range nodes.length).filterMap (nodes[·]?) = nodes := by
  induction nodes with
  | nil => rfl
  | cons n ns ih =>
    rw [List.length_cons, List.range_succ_eq_map, List.filterMap_cons, List.filterMap_map]
    simpa using ih

/-- A trace is a permutation of the nodes. -/
theorem greedyTrace_perm (nodes : List Node) (picks : ℕ → ℕ) :
    (greedyTrace nodes picks).Perm nodes := by
  have h := (traceOrder_perm nodes picks).filterMap (nodes[·]?)
  rwa [filterMap_range] at h

theorem greedyTrace_head (picks : ℕ → ℕ) (hnodes : nodes ≠ []) (h : hasPredecessor nodes 0 = false) :
    (greedyTrace nodes picks).head? = nodes.head? := by
  obtain ⟨rest, hrest⟩ : ∃ rest, traceOrder nodes picks = 0 :: rest := by
    have := traceOrder_head picks hnodes h
    rcases hord : traceOrder nodes picks with _ | ⟨x, rest⟩
    · simp [hord] at this
    · simp only [hord, List.head?_cons, Option.some.injEq] at this
      exact ⟨rest, by rw [this]⟩
  obtain ⟨n, ns, rfl⟩ := List.exists_cons_of_ne_nil hnodes
  simp [greedyTrace, hrest]

theorem labelToNode_eq_some {l : String} {i : ℕ} (h : labelToNode nodes l = some i) :
    ∃ n, nodes[i]? = some n ∧ n.label = l := by
  simp only [labelToNode, Option.map_eq_some_iff] at h
  obtain ⟨⟨n, j⟩, hfind, rfl⟩ := h
  have hmem := List.mem_of_find?_eq_some hfind
  rw [List.mem_reverse] at hmem
  exact ⟨n, List.mem_zipIdx_iff_getElem?.mp hmem, by simpa using List.find?_some hfind⟩

/-- A node no edge names has no predecessor. -/
theorem hasPredecessor_eq_false {n : Node} (h : ∀ n' ∈ n :: nodes, n.label ∉ n'.edges) :
    hasPredecessor (n :: nodes) 0 = false := by
  simp only [hasPredecessor, List.any_eq_false]
  rintro b hb hany
  obtain ⟨child, hchild, heq⟩ := List.any_eq_true.mp hany
  obtain ⟨n', hn', hl⟩ := labelToNode_eq_some (by simpa using heq)
  simp only [List.getElem?_cons_zero, Option.some.injEq] at hn'
  subst hn'
  exact h b hb (hl ▸ hchild)

end Jaek.LIRSeq
