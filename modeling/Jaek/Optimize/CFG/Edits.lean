import Jaek.Optimize.CFG.RemoveAndLink

/-!
# Every sequence of edits keeps the maps consistent

`repOk`, the check that is disabled for production, with its companion for the successor map: no node is
in it without an edge out of it. Each edit is made of `link`, `removeConnection` and the removal of an
entry without edges, and each of these keeps the two maps in step wherever it does not throw.
-/

namespace Jaek

namespace MatchMaker

/-- The two maps hold the same edges, no node has two fall-throughs into it, and neither map has an entry
without edges. -/
structure Consistent (mm : MatchMaker) : Prop extends mm.RepOk where
  useful : ∀ p out, mm.successors.get? p = some out → out.useless = false

/-- The calls that change the graph. -/
inductive Edit
  | connect (source dest : ℕ) (jump : Bool)
  | removeConnection (source dest : ℕ) (jump : Bool)
  | removeNode (node : ℕ)
  | translate (a b c : ℕ)
  | removeAndLink (node : ℕ)

/-- The graph after a call; `none` where it throws. -/
def Edit.run (mm : MatchMaker) : Edit → Option MatchMaker
  | connect source dest jump => mm.connect source dest jump
  | removeConnection source dest jump => mm.removeConnection source dest jump
  | removeNode node => mm.removeNode node
  | translate a b c => mm.translate a b c
  | removeAndLink node => mm.removeAndLink node

variable {mm mm' : MatchMaker} {source dest node a b c : ℕ} {jump : Bool}

theorem ofNodes_consistent (nodes : List CFGNode) : (ofNodes nodes).Consistent :=
  ⟨ofNodes_repOk nodes, fun p out h => by simp [ofNodes] at h⟩

/-- A node more changes no edge. -/
theorem Consistent.withNodes (h : mm.Consistent) (nodes : List CFGNode) :
    Consistent { mm with nodes := nodes } :=
  ⟨⟨h.mem_into, h.fall_unique, h.nonempty⟩, h.useful⟩

theorem Consistent.link (hmm : mm.Consistent) (h : mm.link source dest jump = some mm') :
    mm'.Consistent := by
  refine ⟨hmm.toRepOk.link h, fun p out hp => ?_⟩
  obtain ⟨out', hset, h⟩ := Option.bind_eq_some_iff.mp h
  split_ifs at h
  cases h
  rw [LinkedMap.get?_insert] at hp
  split_ifs at hp
  · cases hp
    have hset := Successors.set_eq hset
    cases jump with
    | true => simp [Successors.useless, hset.2]
    | false => simp [Successors.useless, hset.2]
  · exact hmm.useful p out hp

theorem Consistent.connect (hmm : mm.Consistent) (h : mm.connect source dest jump = some mm') :
    mm'.Consistent := by
  unfold MatchMaker.connect at h
  split_ifs at h
  · obtain ⟨mm₁, hlink, h⟩ := Option.bind_eq_some_iff.mp h
    exact ((hmm.withNodes _).link hlink).link h
  · exact hmm.link h

/-- Only an edge that is there can be removed, unless no edge leaves the node. -/
theorem edge_of_remove {out out' : Successors} (hget : mm.successors.get? source = some out)
    (h : out.remove dest jump = some out') : mm.Edge source jump dest := by
  unfold Successors.remove at h
  rw [Edge, jumpingTo, fallThrough, hget]
  split_ifs at h with hjump hfall
  · rw [if_pos hjump.1]
    exact hjump.2
  · rw [if_neg hfall.1]
    exact hfall.2

theorem Consistent.removeConnection (hmm : mm.Consistent)
    (h : mm.removeConnection source dest jump = some mm') : mm'.Consistent := by
  cases hget : mm.successors.get? source with
  | none =>
    rw [hmm.toRepOk.removeConnection_of_none hget] at h
    cases h
    exact hmm
  | some out =>
    have hrun := h
    rw [MatchMaker.removeConnection, hget] at h
    obtain ⟨out', hremove, h⟩ := Option.map_eq_some_iff.mp h
    obtain ⟨mm₁, hrun₁, hrep, -⟩ := hmm.toRepOk.removeConnection_spec (edge_of_remove hget hremove)
    cases hrun.symm.trans hrun₁
    refine ⟨hrep, fun p out₁ hp => ?_⟩
    rw [← h] at hp
    dsimp only at hp
    split_ifs at hp with huseless
    · rw [LinkedMap.get?_erase] at hp
      split_ifs at hp
      exact hmm.useful p out₁ hp
    · rw [LinkedMap.get?_insert] at hp
      split_ifs at hp
      · cases hp
        simpa using huseless
      · exact hmm.useful p out₁ hp

/-- What each step keeps is kept by a loop that does not throw. -/
theorem foldlM_keeps {α : Type} {P : MatchMaker → Prop} {f : MatchMaker → α → Option MatchMaker}
    (hf : ∀ mm x mm', P mm → f mm x = some mm' → P mm') {xs : List α} (hmm : P mm)
    (h : xs.foldlM f mm = some mm') : P mm' := by
  induction xs generalizing mm with
  | nil =>
    cases h
    exact hmm
  | cons x xs ih =>
    obtain ⟨mm₁, hx, h⟩ := Option.bind_eq_some_iff.mp h
    exact ih (hf mm x mm₁ hmm hx) h

/-- The jump, or the fall-through, of a node is removed if there is one; the other edge stays. -/
theorem Consistent.removeOut (hmm : mm.Consistent) {d : Option ℕ}
    (hd : (if jump then mm.jumpingTo node else mm.fallThrough node) = d)
    (h : mm.removeOut node d jump = some mm') : mm'.Consistent ∧
      mm'.jumpingTo node = (if jump then none else mm.jumpingTo node) ∧
      mm'.fallThrough node = if jump then mm.fallThrough node else none := by
  cases d with
  | none =>
    cases h
    refine ⟨hmm, ?_⟩
    cases jump <;> simp_all
  | some d =>
    have hedge : mm.Edge node jump d := by
      cases jump <;> simpa [Edge] using hd
    obtain ⟨mm₁, hrun, -, -, hfall, hjump, -⟩ := hmm.toRepOk.removeConnection_spec hedge
    cases h.symm.trans hrun
    refine ⟨hmm.removeConnection hrun, ?_, ?_⟩
    · rw [hjump]
      cases jump <;> simp
    · rw [hfall]
      cases jump <;> simp

theorem Consistent.removeNode (hmm : mm.Consistent) (h : mm.removeNode node = some mm') :
    mm'.Consistent := by
  obtain ⟨mm₁, hinto, h⟩ := Option.bind_eq_some_iff.mp h
  obtain ⟨mm₂, hjump, h⟩ := Option.bind_eq_some_iff.mp h
  obtain ⟨mm₃, hfall, h⟩ := Option.bind_eq_some_iff.mp h
  cases h
  have hmm₁ : mm₁.Consistent :=
    foldlM_keeps (P := Consistent) (fun _ _ _ hmm h => hmm.removeConnection h) hmm hinto
  obtain ⟨hmm₂, hjump₂, hfall₂⟩ := hmm₁.removeOut (if_pos rfl) hjump
  obtain ⟨hmm₃, hjump₃, hfall₃⟩ := hmm₂.removeOut (by rw [if_neg Bool.false_ne_true, hfall₂, if_pos rfl]) hfall
  -- no edge leaves the node any more, so it has no entry
  have hnone : mm₃.successors.get? node = none := by
    cases hget : mm₃.successors.get? node with
    | none => rfl
    | some out =>
      rw [jumpingTo, hget] at hjump₃
      rw [fallThrough, hget] at hfall₃
      have huseless := hmm₃.useful node out hget
      simp_all [Successors.useless]
  rw [LinkedMap.erase_eq_self hnone]
  exact hmm₃

theorem Consistent.translate (hmm : mm.Consistent) (h : mm.translate a b c = some mm') :
    mm'.Consistent := by
  unfold MatchMaker.translate at h
  dsimp only at h
  split_ifs at h
  · obtain ⟨mm₁, h₁, h⟩ := Option.bind_eq_some_iff.mp h
    obtain ⟨mm₂, h₂, h⟩ := Option.bind_eq_some_iff.mp h
    exact ((hmm.removeConnection h₁).removeConnection h₂).connect h
  · obtain ⟨mm₁, h₁, h⟩ := Option.bind_eq_some_iff.mp h
    obtain ⟨mm₂, h₂, h⟩ := Option.bind_eq_some_iff.mp h
    obtain ⟨mm₃, h₃, h⟩ := Option.bind_eq_some_iff.mp h
    exact ((((hmm.removeConnection h₁).removeConnection h₂).withNodes _).connect h₃).connect h
  · obtain ⟨mm₁, h₁, h⟩ := Option.bind_eq_some_iff.mp h
    obtain ⟨mm₂, h₂, h⟩ := Option.bind_eq_some_iff.mp h
    exact ((hmm.removeConnection h₁).removeConnection h₂).connect h

theorem Consistent.removeAndLink (hmm : mm.Consistent) (h : mm.removeAndLink node = some mm') :
    mm'.Consistent := by
  unfold MatchMaker.removeAndLink at h
  split at h
  · cases h
  · exact hmm.removeNode h
  · exact foldlM_keeps (P := Consistent) (fun _ _ _ hmm h => hmm.translate h) hmm h
  · exact foldlM_keeps (P := Consistent) (fun _ _ _ hmm h => hmm.translate h) hmm h

theorem Consistent.run (hmm : mm.Consistent) {edit : Edit} (h : edit.run mm = some mm') :
    mm'.Consistent := by
  cases edit with
  | connect => exact hmm.connect h
  | removeConnection => exact hmm.removeConnection h
  | removeNode => exact hmm.removeNode h
  | translate => exact hmm.translate h
  | removeAndLink => exact hmm.removeAndLink h

/-- After every sequence of calls on an empty graph in which none throws, the maps are consistent. -/
theorem edits_consistent (nodes : List CFGNode) {edits : List Edit}
    (h : edits.foldlM Edit.run (ofNodes nodes) = some mm) : mm.Consistent :=
  foldlM_keeps (P := Consistent) (fun _ _ _ hmm h => hmm.run h) (ofNodes_consistent nodes) h

/-- Two fall-throughs into one node, a self loop, and the removal of the node in front of it. -/
theorem edits_consistent_loop : ∃ mm,
    [Edit.connect 0 1 false, .connect 2 1 false, .connect 1 1 true, .removeAndLink 0, .removeNode 2].foldlM
      Edit.run (ofNodes [.NOOP, .NOOP, .NOOP]) = some mm ∧ mm.Consistent := by
  obtain ⟨mm, hrun⟩ : ∃ mm, [Edit.connect 0 1 false, .connect 2 1 false, .connect 1 1 true,
      .removeAndLink 0, .removeNode 2].foldlM Edit.run (ofNodes [.NOOP, .NOOP, .NOOP]) = some mm :=
    ⟨_, rfl⟩
  exact ⟨mm, hrun, edits_consistent _ hrun⟩

end MatchMaker

end Jaek
