import Jaek.Data.LinkedMap
import Jaek.Optimize.CFG.CFGNode

/-!
# The edges of the graph

`MatchMaker`: predecessors and successors of each node. A node is known by its position in `nodes`,
where `NOOP` dummies are added. A failed `require` and a forced `null` are `none`.
-/

namespace Jaek

/-- `MatchMaker.Successors`: the fall-through and the jump out of a node. -/
structure Successors where
  fallThrough : Option ℕ := none
  jumpNode : Option ℕ := none
deriving DecidableEq

/-- `Successors.set`. -/
def Successors.set (s : Successors) (node : ℕ) (jump : Bool) : Option Successors :=
  if jump then
    if s.jumpNode = none then some { s with jumpNode := some node } else none
  else
    if s.fallThrough = none then some { s with fallThrough := some node } else none

/-- Only an unset successor can be set. -/
theorem Successors.set_eq {s out : Successors} {node : ℕ} {jump : Bool}
    (h : s.set node jump = some out) :
    if jump then s.jumpNode = none ∧ out = { s with jumpNode := some node }
    else s.fallThrough = none ∧ out = { s with fallThrough := some node } := by
  cases jump
  · simp only [set, Bool.false_eq_true, if_false] at h ⊢
    split_ifs at h with hnone
    exact ⟨hnone, (Option.some.inj h).symm⟩
  · simp only [set, if_true] at h ⊢
    split_ifs at h with hnone
    exact ⟨hnone, (Option.some.inj h).symm⟩

/-- `MatchMaker`: the nodes, and the edges by either end. -/
structure MatchMaker where
  nodes : List CFGNode
  predecessors : LinkedMap ℕ (List (ℕ × Bool))
  successors : LinkedMap ℕ Successors

namespace MatchMaker

/-- `fallThrough`. -/
def fallThrough (mm : MatchMaker) (node : ℕ) : Option ℕ :=
  (mm.successors.get? node).bind (·.fallThrough)

/-- `jumpingTo`. -/
def jumpingTo (mm : MatchMaker) (node : ℕ) : Option ℕ :=
  (mm.successors.get? node).bind (·.jumpNode)

/-- The edges into a node: where they come from and whether they are jumps. -/
def into (mm : MatchMaker) (node : ℕ) : List (ℕ × Bool) := (mm.predecessors.get? node).getD []

/-- `nodesWithJumpInto`. -/
def nodesWithJumpInto (mm : MatchMaker) : List ℕ :=
  (mm.predecessors.entries.filter fun entry => entry.2.any fun edgesIn => edgesIn.2).map (·.1)

/-- `nodesWithNoFallThroughsMinusStart`. -/
def nodesWithNoFallThroughsMinusStart (mm : MatchMaker) : List ℕ :=
  (mm.predecessors.entries.filter fun entry =>
    !((mm.nodes[entry.1]?.map CFGNode.isStart).getD false) &&
      entry.2.all fun edgesIn => edgesIn.2).map (·.1)

/-- The edges out of a node. -/
def out (mm : MatchMaker) (node : ℕ) : Successors := (mm.successors.get? node).getD {}

/-- The fall-through of a node without an entry is that of the empty one. -/
theorem fallThrough_eq (mm : MatchMaker) (node : ℕ) :
    mm.fallThrough node = (mm.out node).fallThrough := by
  unfold fallThrough out
  cases mm.successors.get? node <;> rfl

/-- So is the jump. -/
theorem jumpingTo_eq (mm : MatchMaker) (node : ℕ) :
    mm.jumpingTo node = (mm.out node).jumpNode := by
  unfold jumpingTo out
  cases mm.successors.get? node <;> rfl

/-- Add an edge to the edges into a node. -/
def addEdge (into : List (ℕ × Bool)) (edge : ℕ × Bool) : List (ℕ × Bool) :=
  if edge ∈ into then into else into ++ [edge]

/-- Record an edge: the last branch of `connect`. -/
def link (mm : MatchMaker) (source dest : ℕ) (jump : Bool) : Option MatchMaker :=
  ((mm.out source).set dest jump).bind fun out =>
    if !jump && (mm.into dest).any (fun p => !p.2) then none
    else
      some { mm with
        successors := mm.successors.insert source out
        predecessors := mm.predecessors.insert dest (addEdge (mm.into dest) (source, jump)) }

/-- `connect`: a second fall-through into a node goes through a `NOOP` that jumps. -/
def connect (mm : MatchMaker) (source dest : ℕ) (jump : Bool) : Option MatchMaker :=
  if !jump && (mm.into dest).any (fun p => !p.2) then do
    let dummy := mm.nodes.length
    let mm ← link { mm with nodes := mm.nodes ++ [.NOOP] } source dummy false
    mm.link dummy dest true
  else mm.link source dest jump

/-- `build`: an edge to a name, if some node has the name. -/
def build (mm : MatchMaker) (constructionMap : LinkedMap String ℕ) (source : ℕ) (dest : String)
    (jump : Bool) : Option MatchMaker :=
  match constructionMap.get? dest with
  | some node => mm.connect source node jump
  | none => some mm

/-- `resolveEdges` of a node. -/
def resolveEdges (mm : MatchMaker) (constructionMap : LinkedMap String ℕ) (source : ℕ) :
    CFGNode → Option MatchMaker
  | .mov _ edge => mm.build constructionMap source edge false
  | .Funcking _ _ _ edge => mm.build constructionMap source edge false
  | .If _ take edge => do
    let mm ← mm.build constructionMap source edge false
    mm.build constructionMap source take true
  | .Start _ edge => mm.build constructionMap source edge false
  | .Return _ => some mm
  | .Cricket dest => mm.build constructionMap source dest true
  | .NOOP => none

/-! ## The edges -/

/-- There is an edge from `p` to `q`. -/
def Edge (mm : MatchMaker) (p : ℕ) (jump : Bool) (q : ℕ) : Prop :=
  if jump then mm.jumpingTo p = some q else mm.fallThrough p = some q

/-- The two maps hold the same edges, no node has two fall-throughs into it, and a node is in the
predecessor map only with an edge into it. -/
structure RepOk (mm : MatchMaker) : Prop where
  mem_into : ∀ p jump q, (p, jump) ∈ mm.into q ↔ mm.Edge p jump q
  fall_unique : ∀ p p' q, mm.fallThrough p = some q → mm.fallThrough p' = some q → p = p'
  nonempty : ∀ q, (mm.predecessors.get? q).isSome → mm.into q ≠ []

/-- A graph without edges. -/
def ofNodes (nodes : List CFGNode) : MatchMaker := ⟨nodes, .empty, .empty⟩

/-- A graph without edges is consistent. -/
theorem ofNodes_repOk (nodes : List CFGNode) : (ofNodes nodes).RepOk where
  mem_into p jump q := by cases jump <;> simp [into, Edge, jumpingTo, fallThrough, ofNodes]
  fall_unique p p' q h := by simp [fallThrough, ofNodes] at h
  nonempty q h := by simp [ofNodes] at h

variable {mm mm' : MatchMaker} {source dest : ℕ} {jump : Bool}

/-- No fall-through enters `q`. -/
theorem RepOk.no_fall (h : mm.RepOk) {q : ℕ} :
    (mm.into q).any (fun p => !p.2) = false ↔ ∀ p, mm.fallThrough p ≠ some q := by
  rw [List.any_eq_false]
  constructor
  · intro hno p hp
    exact hno (p, false) ((h.mem_into p false q).mpr (by simpa [Edge] using hp)) rfl
  · rintro hno ⟨p, jump⟩ hmem
    cases jump
    · have hedge := (h.mem_into p false q).mp hmem
      exact absurd (by simpa [Edge] using hedge) (hno p)
    · simp

/-- A set of edges after an addition. -/
theorem mem_addEdge {into : List (ℕ × Bool)} {e e' : ℕ × Bool} :
    e' ∈ addEdge into e ↔ e' ∈ into ∨ e' = e := by
  unfold addEdge
  split_ifs with h
  · constructor
    · exact .inl
    · rintro (h' | rfl)
      · exact h'
      · exact h
  · rw [List.mem_append, List.mem_singleton]

/-- What recording an edge changes. -/
theorem link_eq (h : mm.link source dest jump = some mm') :
    mm'.nodes = mm.nodes ∧
    (∀ p, mm'.fallThrough p = if p = source ∧ jump = false then some dest else mm.fallThrough p) ∧
    (∀ p, mm'.jumpingTo p = if p = source ∧ jump = true then some dest else mm.jumpingTo p) ∧
    (∀ q, mm'.predecessors.get? q = if q = dest then
        some (addEdge (mm.into dest) (source, jump)) else mm.predecessors.get? q) ∧
    (jump = false → (mm.into dest).any (fun p => !p.2) = false) ∧
    (if jump then mm.jumpingTo source else mm.fallThrough source) = none := by
  obtain ⟨out, hset, h⟩ := Option.bind_eq_some_iff.mp h
  split_ifs at h with hfall
  cases h
  have hout : ∀ p, (MatchMaker.mk mm.nodes
      (mm.predecessors.insert dest (addEdge (mm.into dest) (source, jump)))
      (mm.successors.insert source out)).out p = if p = source then out else mm.out p := by
    intro p
    rw [MatchMaker.out, LinkedMap.get?_insert]
    split <;> rfl
  have hset := Successors.set_eq hset
  simp only [fallThrough_eq, jumpingTo_eq, hout]
  refine ⟨trivial, ?_, ?_, ?_, ?_, ?_⟩
  · intro p
    by_cases hp : p = source
    · cases jump <;> simp_all
    · simp [hp]
  · intro p
    by_cases hp : p = source
    · cases jump <;> simp_all
    · simp [hp]
  · intro q
    exact LinkedMap.get?_insert _ _ _ _
  · intro hj
    simpa [hj] using hfall
  · cases jump <;> simp_all

/-- An edge is recorded unless its source has such an edge already or its target a fall-through. -/
theorem link_isSome (hsource : (if jump then mm.jumpingTo source else mm.fallThrough source) = none)
    (hdest : jump = false → (mm.into dest).any (fun p => !p.2) = false) :
    (mm.link source dest jump).isSome := by
  rw [fallThrough_eq, jumpingTo_eq] at hsource
  cases jump
  · rw [link, Successors.set]
    simp only [Bool.false_eq_true, if_false] at hsource ⊢
    rw [if_pos hsource, Option.bind_some, hdest rfl]
    rfl
  · rw [link, Successors.set]
    simp only [if_true] at hsource ⊢
    rw [if_pos hsource, Option.bind_some]
    rfl

/-- The edges into a node after a link. -/
theorem into_eq (h : mm.link source dest jump = some mm') (q : ℕ) :
    mm'.into q = if q = dest then addEdge (mm.into dest) (source, jump) else mm.into q := by
  obtain ⟨-, -, -, hpred, -, -⟩ := link_eq h
  rw [into, hpred]
  split <;> rfl

/-- Recording an edge keeps the two maps in step. -/
theorem RepOk.link (hrep : mm.RepOk) (h : mm.link source dest jump = some mm') : mm'.RepOk := by
  obtain ⟨-, hfall, hjump, hpred, hno, hnone⟩ := link_eq h
  -- `link` throws where the edge is taken, so it adds exactly one
  have hedge : ∀ p j q, mm'.Edge p j q ↔ mm.Edge p j q ∨ p = source ∧ j = jump ∧ q = dest := by
    intro p j q
    cases j
    · simp only [Edge, hfall, Bool.false_eq_true, if_false]
      by_cases hp : p = source
      · subst hp
        cases jump
        · have hnone : mm.fallThrough p = none := hnone
          simp [hnone, eq_comm]
        · simp
      · simp [hp]
    · simp only [Edge, hjump, if_true]
      by_cases hp : p = source
      · subst hp
        cases jump
        · simp
        · have hnone : mm.jumpingTo p = none := hnone
          simp [hnone, eq_comm]
      · simp [hp]
  constructor
  · intro p j q
    rw [hedge, ← hrep.mem_into, into_eq h]
    by_cases hq : q = dest
    · subst hq
      rw [if_pos rfl, mem_addEdge]
      simp
    · rw [if_neg hq]
      simp [hq]
  · intro p p' q hp hp'
    have hnew : jump = false → ∀ p, mm.fallThrough p ≠ some dest := fun hj =>
      hrep.no_fall.mp (hno hj)
    rw [hfall] at hp hp'
    split_ifs at hp hp' with h1 h2 h2
    · exact h1.1.trans h2.1.symm
    · cases hp
      exact absurd hp' (hnew h1.2 p')
    · cases hp'
      exact absurd hp (hnew h2.2 p)
    · exact hrep.fall_unique p p' q hp hp'
  · intro q hq
    rw [into_eq h]
    rw [hpred] at hq
    split_ifs at hq ⊢
    · exact List.ne_nil_of_mem (mem_addEdge.mpr (.inr rfl))
    · exact hrep.nonempty q hq

/-- `connect` keeps the edges consistent. -/
theorem RepOk.connect (hrep : mm.RepOk) (h : mm.connect source dest jump = some mm') : mm'.RepOk := by
  unfold MatchMaker.connect at h
  split_ifs at h
  · obtain ⟨mm₁, hlink, h⟩ := Option.bind_eq_some_iff.mp h
    have hdummy : (MatchMaker.mk (mm.nodes ++ [.NOOP]) mm.predecessors mm.successors).RepOk :=
      ⟨hrep.mem_into, hrep.fall_unique, hrep.nonempty⟩
    exact (hdummy.link hlink).link h
  · exact hrep.link h

/-- `build` keeps them consistent. -/
theorem RepOk.build {constructionMap : LinkedMap String ℕ} {name : String} (hrep : mm.RepOk)
    (h : mm.build constructionMap source name jump = some mm') : mm'.RepOk := by
  unfold MatchMaker.build at h
  split at h
  · exact hrep.connect h
  · cases h
    exact hrep

/-- Resolving the edges of a node keeps the two maps in step. -/
theorem RepOk.resolveEdges {constructionMap : LinkedMap String ℕ} {n : CFGNode} (hrep : mm.RepOk)
    (h : mm.resolveEdges constructionMap source n = some mm') : mm'.RepOk := by
  cases n with
  | mov m edge => exact hrep.build h
  | Funcking name movIntos args edge => exact hrep.build h
  | If cond take edge =>
    obtain ⟨mm₁, hfall, hjump⟩ := Option.bind_eq_some_iff.mp h
    exact (hrep.build hfall).build hjump
  | Start name edge => exact hrep.build h
  | Return rets =>
    cases h
    exact hrep
  | Cricket dest => exact hrep.build h
  | NOOP => cases h

/-- An edge to a name, where the source has no such edge yet and nothing falls through to the node. -/
theorem build_spec (constructionMap : LinkedMap String ℕ) (source : ℕ) (name : String)
    (jump : Bool) (hrep : mm.RepOk)
    (hsource : (if jump then mm.jumpingTo source else mm.fallThrough source) = none)
    (hdest : jump = false → ∀ q, constructionMap.get? name = some q →
      ∀ p, mm.fallThrough p ≠ some q) :
    ∃ mm', mm.build constructionMap source name jump = some mm' ∧ mm'.RepOk ∧
      mm'.nodes = mm.nodes ∧
      (∀ p, mm'.fallThrough p =
        if p = source ∧ jump = false then constructionMap.get? name else mm.fallThrough p) ∧
      ∀ p, mm'.jumpingTo p =
        if p = source ∧ jump = true then constructionMap.get? name else mm.jumpingTo p := by
  cases hname : constructionMap.get? name with
  | none =>
    refine ⟨mm, by rw [build, hname], hrep, rfl, ?_, ?_⟩
    · intro p
      split
      · rename_i hp
        rw [hp.1, ← hsource, hp.2]
        rfl
      · rfl
    · intro p
      split
      · rename_i hp
        rw [hp.1, ← hsource, hp.2]
        rfl
      · rfl
  | some q =>
    have hno : jump = false → (mm.into q).any (fun p => !p.2) = false := fun hj =>
      hrep.no_fall.mpr (hdest hj q hname)
    obtain ⟨mm', hlink⟩ := Option.isSome_iff_exists.mp (link_isSome hsource hno)
    obtain ⟨hnodes, hfall, hjump, -⟩ := link_eq hlink
    refine ⟨mm', ?_, hrep.link hlink, hnodes, hfall, hjump⟩
    rw [build, hname]
    show mm.connect source q jump = some mm'
    rw [connect, if_neg, hlink]
    cases jump
    · simp [hno rfl]
    · simp

/-- The edges of one node. -/
theorem RepOk.resolveEdges_spec (hrep : mm.RepOk) (constructionMap : LinkedMap String ℕ)
    (source : ℕ) (n : CFGNode) (hn : n ≠ .NOOP) (hfall : mm.fallThrough source = none) (hjump : mm.jumpingTo source = none)
    (hdest : ∀ q, n.falls.bind constructionMap.get? = some q → ∀ p, mm.fallThrough p ≠ some q) :
    ∃ mm', mm.resolveEdges constructionMap source n = some mm' ∧ mm'.RepOk ∧
      mm'.nodes = mm.nodes ∧
      (∀ p, mm'.fallThrough p =
        if p = source then n.falls.bind constructionMap.get? else mm.fallThrough p) ∧
      ∀ p, mm'.jumpingTo p =
        if p = source then n.takes.bind constructionMap.get? else mm.jumpingTo p := by
  -- A node that only falls through gets one edge. Three kinds of node do.
  have hone : ∀ edge, n.falls = some edge → n.takes = none →
      ∃ mm', mm.build constructionMap source edge false = some mm' ∧ mm'.RepOk ∧
      mm'.nodes = mm.nodes ∧
      (∀ p, mm'.fallThrough p =
        if p = source then n.falls.bind constructionMap.get? else mm.fallThrough p) ∧
      ∀ p, mm'.jumpingTo p =
        if p = source then n.takes.bind constructionMap.get? else mm.jumpingTo p := by
    intro edge he ht
    rw [he] at hdest
    obtain ⟨mm', hbuild, hrep', hnodes, hf, hj⟩ := build_spec constructionMap source edge false
      hrep hfall fun _ => hdest
    refine ⟨mm', hbuild, hrep', hnodes, ?_, ?_⟩
    · intro p
      simp [hf, he]
    · intro p
      rw [hj, ht]
      by_cases hp : p = source
      · simp [hp, hjump]
      · simp [hp]
  cases n with
  | mov m edge => exact hone edge rfl rfl
  | Funcking name movIntos args edge => exact hone edge rfl rfl
  | Start name edge => exact hone edge rfl rfl
  | If cond take edge =>
    -- An `If` gets its fall-through first and then its jump.
    obtain ⟨mm₁, hbuild₁, hrep₁, hnodes₁, hf₁, hj₁⟩ := build_spec constructionMap source
      edge false hrep hfall fun _ => hdest
    obtain ⟨mm₂, hbuild₂, hrep₂, hnodes₂, hf₂, hj₂⟩ := build_spec constructionMap source
      take true hrep₁ (by simpa [hj₁] using hjump) (absurd · (by decide))
    refine ⟨mm₂, ?_, hrep₂, hnodes₂.trans hnodes₁, ?_, ?_⟩
    · rw [MatchMaker.resolveEdges, hbuild₁]
      exact hbuild₂
    · intro p
      simp [hf₂, hf₁, CFGNode.falls]
    · intro p
      simp [hj₂, hj₁, CFGNode.takes]
  | Return rets =>
    refine ⟨mm, rfl, hrep, rfl, ?_, ?_⟩
    · intro p
      by_cases hp : p = source
      · simp [hp, hfall, CFGNode.falls]
      · simp [hp]
    · intro p
      by_cases hp : p = source
      · simp [hp, hjump, CFGNode.takes]
      · simp [hp]
  | Cricket dest =>
    obtain ⟨mm', hbuild, hrep', hnodes, hf, hj⟩ := build_spec constructionMap source dest true
      hrep hjump (absurd · (by decide))
    refine ⟨mm', hbuild, hrep', hnodes, ?_, ?_⟩
    · intro p
      by_cases hp : p = source
      · simp [hf, hp, hfall, CFGNode.falls]
      · simp [hf, hp]
    · intro p
      simp [hj, CFGNode.takes]
  | NOOP => exact absurd rfl hn

end MatchMaker

end Jaek
