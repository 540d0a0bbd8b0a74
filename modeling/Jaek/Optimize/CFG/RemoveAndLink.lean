import Jaek.Optimize.CFG.MatchMaker

/-!
# Removing nodes and edges

The edits of `MatchMaker`: `removeConnection`, `removeNode`, `translate` and `removeAndLink`. When a node
that only falls through is removed, each predecessor gets one edge to what came behind it. An `If` with both
edges into the node keeps its fall-through into it.
-/

namespace Jaek

/-- `Successors.remove`. -/
def Successors.remove (s : Successors) (node : ℕ) (jump : Bool) : Option Successors :=
  if jump ∧ s.jumpNode = some node then some { s with jumpNode := none }
  else if ¬ jump ∧ s.fallThrough = some node then some { s with fallThrough := none }
  else none

/-- `Successors.useless`. -/
def Successors.useless (s : Successors) : Bool := s.fallThrough.isNone && s.jumpNode.isNone

namespace MatchMaker

/-- The predecessor map after an edge is removed. -/
def without (mm : MatchMaker) (source dest : ℕ) (jump : Bool) : LinkedMap ℕ (List (ℕ × Bool)) :=
  match mm.predecessors.get? dest with
  | none => mm.predecessors
  | some edgesIn =>
    if edgesIn.filter (· ≠ (source, jump)) = [] then mm.predecessors.erase dest
    else mm.predecessors.insert dest (edgesIn.filter (· ≠ (source, jump)))

def removeConnection (mm : MatchMaker) (source dest : ℕ) (jump : Bool) : Option MatchMaker :=
  match mm.successors.get? source with
  | none => some { mm with predecessors := mm.without source dest jump }
  | some out => (out.remove dest jump).map fun out =>
    { mm with
      predecessors := mm.without source dest jump
      successors := if out.useless then mm.successors.erase source else mm.successors.insert source out }

/-- Remove an edge out of `node`, if there is one. -/
def removeOut (mm : MatchMaker) (node : ℕ) (dest : Option ℕ) (jump : Bool) : Option MatchMaker :=
  match dest with
  | none => some mm
  | some dest => mm.removeConnection node dest jump

def removeNode (mm : MatchMaker) (node : ℕ) : Option MatchMaker := do
  let mm ← (mm.into node).dedup.foldlM (fun mm edge => mm.removeConnection edge.1 node edge.2) mm
  let fallThrough := mm.fallThrough node
  let mm ← mm.removeOut node (mm.jumpingTo node) true
  let mm ← mm.removeOut node fallThrough false
  some { mm with successors := mm.successors.erase node }

/-- `translate`: given `a → b → c`, connect `a` to `c`. A fall-through before a jump becomes a fall-through
to a `NOOP` that jumps. -/
def translate (mm : MatchMaker) (a b c : ℕ) : Option MatchMaker :=
  let jumpBC := mm.jumpingTo b = some c
  if mm.fallThrough a ≠ some b ∧ mm.jumpingTo a ≠ some b then none
  else if mm.jumpingTo a = some b then do
    let mm ← mm.removeConnection a b true
    let mm ← mm.removeConnection b c jumpBC
    mm.connect a c true
  else if jumpBC then do
    let mm ← mm.removeConnection a b false
    let mm ← mm.removeConnection b c true
    let dummy := mm.nodes.length
    let mm ← MatchMaker.connect { mm with nodes := mm.nodes ++ [.NOOP] } a dummy false
    mm.connect dummy c true
  else do
    let mm ← mm.removeConnection a b false
    let mm ← mm.removeConnection b c false
    mm.connect a c false

/-- `predecessors(node)`. -/
def predecessorNodes (mm : MatchMaker) (node : ℕ) : List ℕ := ((mm.into node).map (·.1)).dedup

/-- `successors(node)`. -/
def successorNodes (mm : MatchMaker) (node : ℕ) : List ℕ :=
  ((mm.jumpingTo node).toList ++ (mm.fallThrough node).toList).dedup

def removeAndLink (mm : MatchMaker) (node : ℕ) : Option MatchMaker :=
  match mm.fallThrough node, mm.jumpingTo node with
  | some _, some _ => none
  | none, none => mm.removeNode node
  | some fallThrough, none =>
    (mm.predecessorNodes node).foldlM (fun mm pred => mm.translate pred node fallThrough) mm
  | none, some jumpTo =>
    (mm.predecessorNodes node).foldlM (fun mm pred => mm.translate pred node jumpTo) mm

variable {mm mm' : MatchMaker} {source dest a b c : ℕ} {jump : Bool}

/-- Removing the successor a node has. -/
theorem remove_spec {out : Successors}
    (h : (if jump then out.jumpNode else out.fallThrough) = some dest) :
    ∃ out', out.remove dest jump = some out' ∧
      out'.fallThrough = (if jump = false then none else out.fallThrough) ∧
      out'.jumpNode = (if jump = true then none else out.jumpNode) := by
  cases jump with
  | true =>
    have hjump : out.jumpNode = some dest := h
    exact ⟨{ out with jumpNode := none }, by simp [Successors.remove, hjump], rfl, rfl⟩
  | false =>
    have hfall : out.fallThrough = some dest := h
    exact ⟨{ out with fallThrough := none }, by simp [Successors.remove, hfall], rfl, rfl⟩

theorem useless_iff {out : Successors} : out.useless ↔ out = {} := by
  obtain ⟨fall, jumpNode⟩ := out
  cases fall <;> cases jumpNode <;> simp [Successors.useless]

theorem predecessors_removeConnection (h : mm.removeConnection source dest jump = some mm') :
    mm'.predecessors = mm.without source dest jump := by
  unfold removeConnection at h
  split at h
  · cases h
    rfl
  · obtain ⟨out, -, h⟩ := Option.map_eq_some_iff.mp h
    cases h
    rfl

/-- The edges into a node after one is removed. -/
theorem mem_into_removeConnection (h : mm.removeConnection source dest jump = some mm') (q : ℕ)
    (edge : ℕ × Bool) :
    edge ∈ mm'.into q ↔ edge ∈ mm.into q ∧ ¬ (q = dest ∧ edge = (source, jump)) := by
  rw [into, into, predecessors_removeConnection h, without]
  cases hget : mm.predecessors.get? dest with
  | none =>
    dsimp only
    constructor
    · intro hmem
      refine ⟨hmem, ?_⟩
      rintro ⟨rfl, -⟩
      simp [hget] at hmem
    · exact And.left
  | some edgesIn =>
    dsimp only
    by_cases hq : q = dest
    · subst hq
      have hmem : edge ∈ edgesIn.filter (· ≠ (source, jump)) ↔
          edge ∈ edgesIn ∧ edge ≠ (source, jump) := by
        rw [List.mem_filter, decide_eq_true_eq]
      split_ifs with hempty
      · rw [LinkedMap.get?_erase, if_pos rfl, hget]
        rw [hempty] at hmem
        simpa using hmem
      · rw [LinkedMap.get?_insert, if_pos rfl, hget]
        simp
    · split_ifs
      · rw [LinkedMap.get?_erase, if_neg hq]
        simp [hq]
      · rw [LinkedMap.get?_insert, if_neg hq]
        simp [hq]

/-- A node stays in the predecessor map only with an edge into it. -/
theorem isSome_removeConnection (h : mm.removeConnection source dest jump = some mm') {q : ℕ}
    (hq : (mm'.predecessors.get? q).isSome) :
    (mm.predecessors.get? q).isSome ∧ (q = dest → mm'.into q ≠ []) := by
  rw [into, predecessors_removeConnection h, without]
  rw [predecessors_removeConnection h, without] at hq
  cases hget : mm.predecessors.get? dest with
  | none =>
    rw [hget] at hq
    refine ⟨hq, ?_⟩
    rintro rfl
    simp [hget] at hq
  | some edgesIn =>
    rw [hget] at hq
    dsimp only at hq ⊢
    split_ifs at hq ⊢ with hempty
    · rw [LinkedMap.get?_erase] at hq ⊢
      split_ifs at hq with hqd
      · cases hq
      · exact ⟨hq, fun hqd' => absurd hqd' hqd⟩
    · rw [LinkedMap.get?_insert] at hq ⊢
      split_ifs at hq ⊢ with hqd
      · subst hqd
        rw [hget]
        exact ⟨rfl, fun _ => hempty⟩
      · exact ⟨hq, fun hqd' => absurd hqd' hqd⟩

/-- An edge is removed from both maps. -/
theorem RepOk.removeConnection_spec (hrep : mm.RepOk) (hedge : mm.Edge source jump dest) :
    ∃ mm', mm.removeConnection source dest jump = some mm' ∧ mm'.RepOk ∧ mm'.nodes = mm.nodes ∧
      (∀ p, mm'.fallThrough p = if p = source ∧ jump = false then none else mm.fallThrough p) ∧
      (∀ p, mm'.jumpingTo p = if p = source ∧ jump = true then none else mm.jumpingTo p) ∧
      (mm'.fallThrough source = none → mm'.jumpingTo source = none →
        mm'.successors.get? source = none) ∧
      ∀ p, p ≠ source → mm'.successors.get? p = mm.successors.get? p := by
  -- The source has an entry, from which the one edge is taken.
  have hout : ∃ out, mm.successors.get? source = some out ∧
      (if jump then out.jumpNode else out.fallThrough) = some dest := by
    cases jump with
    | true =>
      obtain ⟨out, hget, hjump⟩ := Option.bind_eq_some_iff.mp (show mm.jumpingTo source = some dest from hedge)
      exact ⟨out, hget, hjump⟩
    | false =>
      obtain ⟨out, hget, hfall⟩ := Option.bind_eq_some_iff.mp (show mm.fallThrough source = some dest from hedge)
      exact ⟨out, hget, hfall⟩
  obtain ⟨out, hget, hdest⟩ := hout
  obtain ⟨out', hremove, hfall', hjump'⟩ := remove_spec hdest
  have hrun : ∃ mm', mm.removeConnection source dest jump = some mm' ∧ mm'.nodes = mm.nodes ∧
      mm'.successors = if out'.useless then mm.successors.erase source
        else mm.successors.insert source out' := by
    rw [removeConnection, hget]
    dsimp only
    rw [hremove]
    exact ⟨_, rfl, rfl, rfl⟩
  obtain ⟨mm', hrun, hnodes, hsucc⟩ := hrun
  have hget' : ∀ p, mm'.successors.get? p = if p = source then
      (if out'.useless then none else some out') else mm.successors.get? p := by
    intro p
    rw [hsucc]
    split_ifs <;> simp_all [LinkedMap.get?_erase, LinkedMap.get?_insert]
  have hout' : ∀ p, mm'.out p = if p = source then out' else mm.out p := by
    intro p
    rw [MatchMaker.out, hget']
    split_ifs with hp huseless
    · rw [useless_iff.mp huseless]
      rfl
    · rfl
    · rfl
  have hsource : mm.out source = out := by rw [MatchMaker.out, hget, Option.getD_some]
  have hfall : ∀ p, mm'.fallThrough p = if p = source ∧ jump = false then none else mm.fallThrough p := by
    intro p
    rw [fallThrough_eq, fallThrough_eq, hout']
    by_cases hp : p = source
    · subst hp
      rw [if_pos rfl, hfall', hsource]
      simp
    · simp [hp]
  have hjump : ∀ p, mm'.jumpingTo p = if p = source ∧ jump = true then none else mm.jumpingTo p := by
    intro p
    rw [jumpingTo_eq, jumpingTo_eq, hout']
    by_cases hp : p = source
    · subst hp
      rw [if_pos rfl, hjump', hsource]
      simp
    · simp [hp]
  -- The edges that are left are all others, as a node has one edge of each kind.
  have hedge' : ∀ p j q, mm'.Edge p j q ↔ mm.Edge p j q ∧ ¬ (q = dest ∧ (p, j) = (source, jump)) := by
    intro p j q
    have hone : p = source ∧ j = jump → mm.Edge p j q → q = dest := by
      rintro ⟨rfl, rfl⟩ hpq
      unfold Edge at hpq hedge
      split_ifs at hpq hedge
      · exact Option.some.inj (hpq.symm.trans hedge)
      · exact Option.some.inj (hpq.symm.trans hedge)
    rw [Prod.mk.injEq]
    by_cases hpj : p = source ∧ j = jump
    · refine iff_of_false ?_ fun h => h.2 ⟨hone hpj h.1, hpj⟩
      obtain ⟨rfl, rfl⟩ := hpj
      cases j <;> simp [Edge, hfall, hjump]
    · rw [and_iff_left fun h => hpj h.2]
      cases j with
      | true =>
        rw [Edge, if_pos rfl, hjump, if_neg fun h => hpj ⟨h.1, h.2.symm⟩]
        rfl
      | false =>
        rw [Edge, if_neg Bool.false_ne_true, hfall, if_neg fun h => hpj ⟨h.1, h.2.symm⟩]
        rfl
  refine ⟨mm', hrun, ⟨?_, ?_, ?_⟩, hnodes, hfall, hjump, ?_, ?_⟩
  · intro p j q
    rw [mem_into_removeConnection hrun, hrep.mem_into, hedge']
  · intro p p' q hp hp'
    rw [hfall] at hp hp'
    split_ifs at hp hp'
    exact hrep.fall_unique p p' q hp hp'
  · intro q hq
    obtain ⟨hold, hnew⟩ := isSome_removeConnection hrun hq
    by_cases hqd : q = dest
    · exact hnew hqd
    · obtain ⟨edge, hmem⟩ := List.exists_mem_of_ne_nil _ (hrep.nonempty q hold)
      exact List.ne_nil_of_mem ((mem_into_removeConnection hrun q edge).mpr ⟨hmem, fun h => hqd h.1⟩)
  · intro hnofall hnojump
    rw [hget', if_pos rfl, if_pos]
    rw [useless_iff]
    rw [fallThrough_eq, hout', if_pos rfl] at hnofall
    rw [jumpingTo_eq, hout', if_pos rfl] at hnojump
    obtain ⟨fall, jumpNode⟩ := out'
    cases hnofall
    cases hnojump
    rfl
  · intro p hp
    rw [hget', if_neg hp]

/-- A node without edges out of it has none to remove. -/
theorem RepOk.removeConnection_of_none (hrep : mm.RepOk) (hnone : mm.successors.get? b = none) (dest : ℕ)
    (jump : Bool) : mm.removeConnection b dest jump = some mm := by
  have hnot : (b, jump) ∉ mm.into dest := by
    rw [hrep.mem_into, Edge, jumpingTo, fallThrough, hnone]
    simp
  have hwithout : mm.without b dest jump = mm.predecessors := by
    unfold without
    cases hget : mm.predecessors.get? dest with
    | none => rfl
    | some edgesIn =>
      have hinto : mm.into dest = edgesIn := by rw [into, hget, Option.getD_some]
      have hfilter : edgesIn.filter (· ≠ (b, jump)) = edgesIn := by
        rw [List.filter_eq_self]
        intro edge hedge
        rw [decide_eq_true_eq]
        rintro rfl
        exact hnot (hinto ▸ hedge)
      have hne : edgesIn ≠ [] := hinto ▸ hrep.nonempty dest (by rw [hget]; rfl)
      dsimp only
      rw [hfilter, if_neg hne, LinkedMap.insert_eq_self hget]
  rw [removeConnection, hnone]
  dsimp only
  rw [hwithout]

/-- An edge is recorded where it fits. -/
theorem RepOk.connect_spec (hrep : mm.RepOk) (source dest : ℕ) (jump : Bool)
    (hsource : (if jump then mm.jumpingTo source else mm.fallThrough source) = none)
    (hdest : jump = false → ∀ p, mm.fallThrough p ≠ some dest) :
    ∃ mm', mm.connect source dest jump = some mm' ∧ mm'.RepOk ∧ mm'.nodes = mm.nodes ∧
      (∀ p, mm'.fallThrough p = if p = source ∧ jump = false then some dest else mm.fallThrough p) ∧
      (∀ p, mm'.jumpingTo p = if p = source ∧ jump = true then some dest else mm.jumpingTo p) ∧
      ∀ p, p ≠ source → mm'.successors.get? p = mm.successors.get? p := by
  have hno : jump = false → (mm.into dest).any (fun p => !p.2) = false := fun hj =>
    hrep.no_fall.mpr (hdest hj)
  obtain ⟨mm', hlink⟩ := Option.isSome_iff_exists.mp (link_isSome hsource hno)
  obtain ⟨hnodes, hfall, hjump, -⟩ := link_eq hlink
  refine ⟨mm', ?_, hrep.link hlink, hnodes, hfall, hjump, ?_⟩
  · rw [MatchMaker.connect, if_neg, hlink]
    cases jump
    · simp [hno rfl]
    · simp
  · intro p hp
    obtain ⟨out, -, h⟩ := Option.bind_eq_some_iff.mp hlink
    split_ifs at h
    cases h
    exact (LinkedMap.get?_insert _ _ _ _).trans (if_neg hp)

/-- The node to be removed: it does not jump, and it falls through to `c`, or to nothing any more. -/
structure Falling (mm : MatchMaker) (b c : ℕ) : Prop where
  ne : c ≠ b
  no_jump : mm.jumpingTo b = none
  falls : mm.fallThrough b = some c ∨ mm.successors.get? b = none

/-- The edge of `a` that leads to `b` leads to `c`, the jump first; `b` has no edge any more. -/
theorem RepOk.translate_spec (hrep : mm.RepOk) (hb : mm.Falling b c) (hab : a ≠ b)
    (ha : mm.jumpingTo a = some b ∨
      mm.fallThrough a = some b ∧ ∀ p, p ≠ b → mm.fallThrough p ≠ some c) :
    ∃ mm', mm.translate a b c = some mm' ∧ mm'.RepOk ∧ mm'.nodes = mm.nodes ∧
      mm'.successors.get? b = none ∧
      (∀ p, p ≠ b → mm'.fallThrough p =
        if p = a ∧ mm.jumpingTo a ≠ some b then some c else mm.fallThrough p) ∧
      ∀ p, p ≠ b → mm'.jumpingTo p =
        if p = a ∧ mm.jumpingTo a = some b then some c else mm.jumpingTo p := by
  have hjumpBC : ¬ mm.jumpingTo b = some c := by simp [hb.no_jump]
  -- the edge out of `b` goes with the first predecessor
  have hclear : ∀ mm₁ : MatchMaker, mm₁.RepOk → mm₁.jumpingTo b = none →
      (mm₁.fallThrough b = some c ∨ mm₁.successors.get? b = none) →
      ∃ mm₂, mm₁.removeConnection b c false = some mm₂ ∧ mm₂.RepOk ∧ mm₂.nodes = mm₁.nodes ∧
        mm₂.successors.get? b = none ∧ (∀ p, p ≠ b → mm₂.fallThrough p = mm₁.fallThrough p) ∧
        ∀ p, p ≠ b → mm₂.jumpingTo p = mm₁.jumpingTo p := by
    intro mm₁ hrep₁ hjump₁ hfalls₁
    rcases hfalls₁ with hfalls₁ | hnone
    · obtain ⟨mm₂, hrun, hrep₂, hnodes, hfall, hjump, hget, -⟩ :=
        hrep₁.removeConnection_spec (show mm₁.Edge b false c from hfalls₁)
      refine ⟨mm₂, hrun, hrep₂, hnodes, hget ?_ ?_, fun p hp => ?_, fun p hp => ?_⟩
      · rw [hfall, if_pos ⟨rfl, rfl⟩]
      · rw [hjump, if_neg (by simp), hjump₁]
      · rw [hfall, if_neg fun h => hp h.1]
      · rw [hjump, if_neg fun h => hp h.1]
    · exact ⟨mm₁, hrep₁.removeConnection_of_none hnone c false, hrep₁, rfl, hnone, fun _ _ => rfl,
        fun _ _ => rfl⟩
  by_cases hjumpA : mm.jumpingTo a = some b
  · obtain ⟨mm₁, hrun₁, hrep₁, hnodes₁, hfall₁, hjump₁, -, hget₁⟩ :=
      hrep.removeConnection_spec (show mm.Edge a true b from hjumpA)
    have hfallb : mm₁.fallThrough b = some c ∨ mm₁.successors.get? b = none := by
      rw [hfall₁, if_neg fun h => hab h.1.symm, hget₁ b hab.symm]
      exact hb.falls
    obtain ⟨mm₂, hrun₂, hrep₂, hnodes₂, hnone₂, hfall₂, hjump₂⟩ := hclear mm₁ hrep₁
      (by rw [hjump₁, if_neg fun h => hab h.1.symm, hb.no_jump]) hfallb
    obtain ⟨mm₃, hrun₃, hrep₃, hnodes₃, hfall₃, hjump₃, hget₃⟩ := hrep₂.connect_spec
      a c true (by rw [if_pos rfl, hjump₂ a hab, hjump₁, if_pos ⟨rfl, rfl⟩]) (absurd · (by decide))
    refine ⟨mm₃, ?_, hrep₃, hnodes₃.trans (hnodes₂.trans hnodes₁), ?_, ?_, ?_⟩
    · rw [translate, if_neg fun h => h.2 hjumpA, if_pos hjumpA, hrun₁]
      show (mm₁.removeConnection b c (decide (mm.jumpingTo b = some c))).bind _ = _
      rw [decide_eq_false hjumpBC, hrun₂]
      exact hrun₃
    · rw [hget₃ b hab.symm, hnone₂]
    · intro p hp
      rw [hfall₃, if_neg (by simp), hfall₂ p hp, hfall₁, if_neg (by simp), if_neg fun h => h.2 hjumpA]
    · intro p hp
      rw [hjump₃, hjump₂ p hp, hjump₁]
      by_cases hpa : p = a
      · simp [hpa, hjumpA]
      · simp [hpa]
  · obtain ⟨hfallA, hfree⟩ := ha.resolve_left hjumpA
    obtain ⟨mm₁, hrun₁, hrep₁, hnodes₁, hfall₁, hjump₁, -, hget₁⟩ :=
      hrep.removeConnection_spec (show mm.Edge a false b from hfallA)
    have hfallb : mm₁.fallThrough b = some c ∨ mm₁.successors.get? b = none := by
      rw [hfall₁, if_neg fun h => hab h.1.symm, hget₁ b hab.symm]
      exact hb.falls
    obtain ⟨mm₂, hrun₂, hrep₂, hnodes₂, hnone₂, hfall₂, hjump₂⟩ := hclear mm₁ hrep₁
      (by rw [hjump₁, if_neg fun h => hab h.1.symm, hb.no_jump]) hfallb
    have hnofall : ∀ p, mm₂.fallThrough p ≠ some c := by
      intro p
      by_cases hp : p = b
      · rw [hp, fallThrough, hnone₂]
        simp
      · rw [hfall₂ p hp, hfall₁]
        split_ifs
        · simp
        · exact hfree p hp
    obtain ⟨mm₃, hrun₃, hrep₃, hnodes₃, hfall₃, hjump₃, hget₃⟩ := hrep₂.connect_spec
      a c false (by rw [if_neg (by simp), hfall₂ a hab, hfall₁, if_pos ⟨rfl, rfl⟩]) fun _ => hnofall
    refine ⟨mm₃, ?_, hrep₃, hnodes₃.trans (hnodes₂.trans hnodes₁), ?_, ?_, ?_⟩
    · rw [translate, if_neg fun h => h.1 hfallA, if_neg hjumpA, if_neg hjumpBC, hrun₁]
      show (mm₁.removeConnection b c false).bind _ = _
      rw [hrun₂]
      exact hrun₃
    · rw [hget₃ b hab.symm, hnone₂]
    · intro p hp
      rw [hfall₃, hfall₂ p hp, hfall₁]
      by_cases hpa : p = a
      · simp [hpa, hjumpA]
      · simp [hpa]
    · intro p hp
      rw [hjump₃, if_neg (by simp), hjump₂ p hp, hjump₁, if_neg (by simp), if_neg fun h => hjumpA h.2]

/-- All predecessors are linked to what comes behind `b`. -/
theorem foldlM_translate (hrep : mm.RepOk) (hb : mm.Falling b c) {preds : List ℕ} (hnodup : preds.Nodup)
    (hpreds : ∀ a ∈ preds, a ≠ b ∧ (mm.jumpingTo a = some b ∨ mm.fallThrough a = some b))
    (hfree : ∀ a ∈ preds, mm.jumpingTo a ≠ some b → ∀ p, p ≠ b → mm.fallThrough p ≠ some c) :
    ∃ mm', preds.foldlM (fun mm pred => mm.translate pred b c) mm = some mm' ∧ mm'.RepOk ∧
      mm'.nodes = mm.nodes ∧
      (preds ≠ [] ∨ mm.successors.get? b = none → mm'.successors.get? b = none) ∧
      (∀ p, p ≠ b → mm'.fallThrough p =
        if p ∈ preds ∧ mm.jumpingTo p ≠ some b then some c else mm.fallThrough p) ∧
      ∀ p, p ≠ b → mm'.jumpingTo p =
        if p ∈ preds ∧ mm.jumpingTo p = some b then some c else mm.jumpingTo p := by
  -- The predecessors are moved one by one. Those that are left still have their edges into `b`.
  induction preds generalizing mm with
  | nil =>
    exact ⟨mm, rfl, hrep, rfl, fun h => h.resolve_left (absurd rfl), fun p _ => by simp,
      fun p _ => by simp⟩
  | cons a preds ih =>
    obtain ⟨hmem, hnodup⟩ := List.nodup_cons.mp hnodup
    obtain ⟨hab, ha⟩ := hpreds a List.mem_cons_self
    have haFree : mm.jumpingTo a = some b ∨
        mm.fallThrough a = some b ∧ ∀ p, p ≠ b → mm.fallThrough p ≠ some c := by
      by_cases hjump : mm.jumpingTo a = some b
      · exact .inl hjump
      · exact .inr ⟨ha.resolve_left hjump, hfree a List.mem_cons_self hjump⟩
    obtain ⟨mm₁, hrun₁, hrep₁, hnodes₁, hnone₁, hfall₁, hjump₁⟩ := hrep.translate_spec hb hab haFree
    have hb₁ : mm₁.Falling b c := ⟨hb.ne, by rw [jumpingTo, hnone₁]; rfl, .inr hnone₁⟩
    have hother : ∀ p ∈ preds, p ≠ a := fun p hp hpa => hmem (hpa ▸ hp)
    have hfallKeep : ∀ p, p ≠ b → p ≠ a → mm₁.fallThrough p = mm.fallThrough p := fun p hpb hpa => by
      rw [hfall₁ p hpb, if_neg fun h => hpa h.1]
    have hjumpKeep : ∀ p, p ≠ b → p ≠ a → mm₁.jumpingTo p = mm.jumpingTo p := fun p hpb hpa => by
      rw [hjump₁ p hpb, if_neg fun h => hpa h.1]
    have hpreds₁ : ∀ p ∈ preds, p ≠ b ∧ (mm₁.jumpingTo p = some b ∨ mm₁.fallThrough p = some b) := by
      intro p hp
      obtain ⟨hpb, hedge⟩ := hpreds p (List.mem_cons_of_mem _ hp)
      rw [hjumpKeep p hpb (hother p hp), hfallKeep p hpb (hother p hp)]
      exact ⟨hpb, hedge⟩
    have hfree₁ : ∀ q ∈ preds, mm₁.jumpingTo q ≠ some b →
        ∀ p, p ≠ b → mm₁.fallThrough p ≠ some c := by
      intro q hq hqjump p hpb
      obtain ⟨hqb, hqedge⟩ := hpreds q (List.mem_cons_of_mem _ hq)
      rw [hjumpKeep q hqb (hother q hq)] at hqjump
      rw [hfall₁ p hpb]
      split_ifs with hpa
      · -- `a` and `q` would both fall through to `b`
        have hafall := ha.resolve_left hpa.2
        exact absurd (hrep.fall_unique q a b (hqedge.resolve_left hqjump) hafall) (hother q hq)
      · exact hfree q (List.mem_cons_of_mem _ hq) hqjump p hpb
    obtain ⟨mm₂, hrun₂, hrep₂, hnodes₂, hnone₂, hfall₂, hjump₂⟩ := ih hrep₁ hb₁ hnodup hpreds₁ hfree₁
    refine ⟨mm₂, ?_, hrep₂, hnodes₂.trans hnodes₁, fun _ => hnone₂ (.inr hnone₁), fun p hpb => ?_, fun p hpb => ?_⟩
    · rw [List.foldlM_cons, hrun₁]
      exact hrun₂
    · rw [hfall₂ p hpb]
      by_cases hpa : p = a
      · subst hpa
        rw [if_neg fun h => hmem h.1, hfall₁ p hpb]
        simp
      · rw [hjumpKeep p hpb hpa, hfallKeep p hpb hpa]
        simp [hpa]
    · rw [hjump₂ p hpb]
      by_cases hpa : p = a
      · subst hpa
        rw [if_neg fun h => hmem h.1, hjump₁ p hpb]
        simp
      · rw [hjumpKeep p hpb hpa]
        simp [hpa]

theorem predecessorNodes_nodup (mm : MatchMaker) (b : ℕ) : (mm.predecessorNodes b).Nodup :=
  List.nodup_dedup _

theorem RepOk.mem_predecessorNodes (hrep : mm.RepOk) :
    a ∈ mm.predecessorNodes b ↔ mm.jumpingTo a = some b ∨ mm.fallThrough a = some b := by
  rw [predecessorNodes, List.mem_dedup, List.mem_map]
  constructor
  · rintro ⟨⟨p, jump⟩, hmem, rfl⟩
    have hedge := (hrep.mem_into p jump b).mp hmem
    cases jump with
    | true => exact .inl hedge
    | false => exact .inr hedge
  · rintro (hjump | hfall)
    · exact ⟨(a, true), (hrep.mem_into a true b).mpr hjump, rfl⟩
    · exact ⟨(a, false), (hrep.mem_into a false b).mpr hfall, rfl⟩

/-- Removing a node that falls through to another one. The fall-through of a predecessor that jumps to the
node as well stays. -/
theorem RepOk.removeAndLink_fall (hrep : mm.RepOk) (hfall : mm.fallThrough b = some c)
    (hjump : mm.jumpingTo b = none) (hne : c ≠ b) :
    ∃ mm', mm.removeAndLink b = some mm' ∧ mm'.RepOk ∧ mm'.nodes = mm.nodes ∧
      (mm.into b ≠ [] → mm'.successors.get? b = none) ∧
      (∀ p, p ≠ b → mm'.fallThrough p =
        if mm.fallThrough p = some b ∧ mm.jumpingTo p ≠ some b then some c else mm.fallThrough p) ∧
      ∀ p, p ≠ b → mm'.jumpingTo p = if mm.jumpingTo p = some b then some c else mm.jumpingTo p := by
  have hself : ∀ a ∈ mm.predecessorNodes b, a ≠ b := by
    rintro a ha rfl
    rcases hrep.mem_predecessorNodes.mp ha with h | h
    · simp [hjump] at h
    · exact hne (Option.some.inj (hfall.symm.trans h))
  -- `b` is the only node that falls into `c`, so each predecessor may be linked to it
  have hfree : ∀ a ∈ mm.predecessorNodes b, mm.jumpingTo a ≠ some b →
      ∀ p, p ≠ b → mm.fallThrough p ≠ some c := by
    intro a _ _ p hp hpc
    exact hp (hrep.fall_unique p b c hpc hfall)
  obtain ⟨mm', hrun, hrep', hnodes, hnone, hfall', hjump'⟩ := foldlM_translate (b := b) (c := c) hrep
    ⟨hne, hjump, .inl hfall⟩ (mm.predecessorNodes_nodup b)
    (fun a ha => ⟨hself a ha, hrep.mem_predecessorNodes.mp ha⟩) hfree
  refine ⟨mm', ?_, hrep', hnodes, fun hinto => hnone (.inl fun hnil => ?_), fun p hp => ?_,
    fun p hp => ?_⟩
  · rw [removeAndLink, hfall, hjump]
    exact hrun
  · obtain ⟨⟨p, jump⟩, hmem⟩ := List.exists_mem_of_ne_nil _ hinto
    have hp : p ∈ mm.predecessorNodes b := List.mem_dedup.mpr (List.mem_map_of_mem hmem)
    rw [hnil] at hp
    cases hp
  · rw [hfall' p hp]
    refine if_congr ?_ rfl rfl
    rw [hrep.mem_predecessorNodes]
    by_cases hj : mm.jumpingTo p = some b
    · simp [hj]
    · simp [hj]
  · rw [hjump' p hp]
    refine if_congr ?_ rfl rfl
    rw [hrep.mem_predecessorNodes]
    by_cases hj : mm.jumpingTo p = some b
    · simp [hj]
    · simp [hj]

/-- The edges into a node are removed one by one. -/
theorem foldlM_removeConnection (hrep : mm.RepOk) {edges : List (ℕ × Bool)} (hnodup : edges.Nodup)
    (hedges : ∀ e ∈ edges, mm.Edge e.1 e.2 b) :
    ∃ mm', edges.foldlM (fun mm edge => mm.removeConnection edge.1 b edge.2) mm = some mm' ∧
      mm'.RepOk ∧ mm'.nodes = mm.nodes ∧
      (∀ p, mm'.fallThrough p = if (p, false) ∈ edges then none else mm.fallThrough p) ∧
      ∀ p, mm'.jumpingTo p = if (p, true) ∈ edges then none else mm.jumpingTo p := by
  induction edges generalizing mm with
  | nil => exact ⟨mm, rfl, hrep, rfl, fun p => by simp, fun p => by simp⟩
  | cons e edges ih =>
    obtain ⟨p₀, j₀⟩ := e
    obtain ⟨hmem, hnodup⟩ := List.nodup_cons.mp hnodup
    obtain ⟨mm₁, hrun₁, hrep₁, hnodes₁, hfall₁, hjump₁, -⟩ :=
      hrep.removeConnection_spec (hedges (p₀, j₀) List.mem_cons_self)
    have hedges₁ : ∀ e ∈ edges, mm₁.Edge e.1 e.2 b := by
      rintro ⟨p, j⟩ he
      have hold := hedges (p, j) (List.mem_cons_of_mem _ he)
      have hne : ¬ (p = p₀ ∧ j = j₀) := by
        rintro ⟨rfl, rfl⟩
        exact hmem he
      cases j with
      | true =>
        show mm₁.jumpingTo p = some b
        rw [hjump₁, if_neg fun h => hne ⟨h.1, h.2.symm⟩]
        exact hold
      | false =>
        show mm₁.fallThrough p = some b
        rw [hfall₁, if_neg fun h => hne ⟨h.1, h.2.symm⟩]
        exact hold
    obtain ⟨mm₂, hrun₂, hrep₂, hnodes₂, hfall₂, hjump₂⟩ := ih hrep₁ hnodup hedges₁
    refine ⟨mm₂, ?_, hrep₂, hnodes₂.trans hnodes₁, fun p => ?_, fun p => ?_⟩
    · rw [List.foldlM_cons, hrun₁]
      exact hrun₂
    · rw [hfall₂, hfall₁]
      by_cases hp : p = p₀ ∧ j₀ = false
      · simp [hp]
      · have hneq : (p, false) ≠ (p₀, j₀) := fun heq => hp (by cases heq; exact ⟨rfl, rfl⟩)
        rw [if_neg hp]
        exact if_congr (by rw [List.mem_cons, or_iff_right hneq]) rfl rfl
    · rw [hjump₂, hjump₁]
      by_cases hp : p = p₀ ∧ j₀ = true
      · simp [hp]
      · have hneq : (p, true) ≠ (p₀, j₀) := fun heq => hp (by cases heq; exact ⟨rfl, rfl⟩)
        rw [if_neg hp]
        exact if_congr (by rw [List.mem_cons, or_iff_right hneq]) rfl rfl

/-- Removing a node without edges out of it removes the edges into it. -/
theorem RepOk.removeAndLink_last (hrep : mm.RepOk) (hfall : mm.fallThrough b = none)
    (hjump : mm.jumpingTo b = none) :
    ∃ mm', mm.removeAndLink b = some mm' ∧ mm'.RepOk ∧ mm'.nodes = mm.nodes ∧
      (∀ p, mm'.fallThrough p = if mm.fallThrough p = some b then none else mm.fallThrough p) ∧
      ∀ p, mm'.jumpingTo p = if mm.jumpingTo p = some b then none else mm.jumpingTo p := by
  obtain ⟨mm₁, hrun₁, hrep₁, hnodes₁, hfall₁, hjump₁⟩ := foldlM_removeConnection (b := b) hrep
    (List.nodup_dedup (mm.into b)) fun e he => (hrep.mem_into _ _ _).mp (List.mem_dedup.mp he)
  -- without a successor nothing is linked: `b` loses its predecessors and its entry
  have hnofall : mm₁.fallThrough b = none := by
    rw [hfall₁, hfall, ite_self]
  have hnojump : mm₁.jumpingTo b = none := by
    rw [hjump₁, hjump, ite_self]
  set mm' : MatchMaker := { mm₁ with successors := mm₁.successors.erase b } with hmm'
  have hget : ∀ p, mm'.successors.get? p = if p = b then none else mm₁.successors.get? p :=
    LinkedMap.get?_erase _ _
  have hfall' : ∀ p, mm'.fallThrough p = mm₁.fallThrough p := by
    intro p
    by_cases hp : p = b
    · rw [hp, hnofall, fallThrough, hget, if_pos rfl]
      rfl
    · rw [fallThrough, fallThrough, hget, if_neg hp]
  have hjump' : ∀ p, mm'.jumpingTo p = mm₁.jumpingTo p := by
    intro p
    by_cases hp : p = b
    · rw [hp, hnojump, jumpingTo, hget, if_pos rfl]
      rfl
    · rw [jumpingTo, jumpingTo, hget, if_neg hp]
  refine ⟨mm', ?_, ⟨?_, ?_, ?_⟩, hnodes₁, fun p => ?_, fun p => ?_⟩
  · rw [removeAndLink, hfall, hjump]
    show mm.removeNode b = some mm'
    rw [removeNode, hrun₁]
    show (mm₁.removeOut b (mm₁.jumpingTo b) true).bind _ = some mm'
    rw [hnojump, removeOut, Option.bind_some, hnofall]
    rfl
  · intro p j q
    rw [Edge, hfall', hjump']
    exact hrep₁.mem_into p j q
  · intro p p' q hp hp'
    rw [hfall'] at hp hp'
    exact hrep₁.fall_unique p p' q hp hp'
  · exact hrep₁.nonempty
  · rw [hfall', hfall₁]
    refine if_congr ?_ rfl rfl
    rw [List.mem_dedup, hrep.mem_into]
    rfl
  · rw [hjump', hjump₁]
    refine if_congr ?_ rfl rfl
    rw [List.mem_dedup, hrep.mem_into]
    rfl

end MatchMaker

end Jaek
