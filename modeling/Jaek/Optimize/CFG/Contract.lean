import Jaek.Optimize.CFG.CFGBuilder
import Jaek.Optimize.CFG.RemoveAndLink
import Jaek.Optimize.Dataflow.CFGFlow

/-!
# What contracting a node does to the paths

`removeAndLink` of a node with one edge out of it, a fall-through or a jump: each predecessor keeps a path
to what came behind the node, perhaps through a `NOOP` that jumps, unless it had both its edges into the
node. Then its fall-through stays where it was.
-/

namespace Jaek

namespace MatchMaker

/-- Edges lead from nodes to nodes. -/
def Closed (mm : MatchMaker) : Prop :=
  ∀ p jump q, mm.Edge p jump q → p < mm.nodes.length ∧ q < mm.nodes.length

/-- A path of one kind: an edge, or an edge of that kind to a `NOOP` that jumps, one of the nodes from
number `old` on. -/
def Path (mm : MatchMaker) (old a : ℕ) (jump : Bool) (c : ℕ) : Prop :=
  mm.Edge a jump c ∨ ∃ d, old ≤ d ∧ mm.nodes[d]? = some .NOOP ∧ mm.Edge a jump d ∧ mm.Edge d true c

/-- The edges out of the nodes from number `old` on lead to `c`. -/
def NewTo (mm : MatchMaker) (old c : ℕ) : Prop := ∀ p jump q, old ≤ p → mm.Edge p jump q → q = c

/-- A number beyond the nodes has no edge. -/
theorem Closed.newTo {mm : MatchMaker} (h : mm.Closed) (c : ℕ) : mm.NewTo mm.nodes.length c :=
  fun p jump q hp hpq => absurd (h p jump q hpq).1 (by omega)

/-- What an edit that gives `source` an edge of one kind keeps. -/
structure Extends (mm mm' : MatchMaker) (source : ℕ) (jump : Bool) : Prop where
  repOk : mm'.RepOk
  closed : mm'.Closed
  nodes : mm.nodes <+: mm'.nodes
  other : ∀ p j q, p < mm.nodes.length → ¬ (p = source ∧ j = jump) → (mm'.Edge p j q ↔ mm.Edge p j q)
  get : ∀ p, p < mm.nodes.length → p ≠ source → mm'.successors.get? p = mm.successors.get? p

variable {mm mm' mm₁ : MatchMaker} {source dest a b c : ℕ} {jump : Bool}

/-- A jump edge. -/
theorem edge_true {p q : ℕ} : mm.Edge p true q ↔ mm.jumpingTo p = some q := Iff.rfl

/-- A fall-through edge. -/
theorem edge_false {p q : ℕ} : mm.Edge p false q ↔ mm.fallThrough p = some q := Iff.rfl

/-- A node has one edge of a kind. -/
theorem edge_unique {p q q' : ℕ} (h : mm.Edge p jump q) (h' : mm.Edge p jump q') : q = q' := by
  unfold Edge at h h'
  split_ifs at h h'
  · exact Option.some.inj (h.symm.trans h')
  · exact Option.some.inj (h.symm.trans h')

/-- A longer list has the same front. -/
theorem prefix_getElem? {xs ys : List CFGNode} (h : xs <+: ys) {d : ℕ} {n : CFGNode} (hd : xs[d]? = some n) :
    ys[d]? = some n := by
  obtain ⟨zs, rfl⟩ := h
  rw [List.getElem?_append_left (List.getElem?_eq_some_iff.mp hd).1, hd]

/-- Recording an edge that fits. -/
theorem Extends.link (hrep : mm.RepOk) (hclosed : mm.Closed) (hs : source < mm.nodes.length)
    (hd : dest < mm.nodes.length) (hlink : mm.link source dest jump = some mm') :
    Extends mm mm' source jump ∧ mm'.nodes = mm.nodes ∧ mm'.Edge source jump dest := by
  obtain ⟨hnodes, hfall, hjump, -⟩ := link_eq hlink
  have hedge : ∀ p j q, mm'.Edge p j q ↔ (p = source ∧ j = jump ∧ q = dest) ∨
      ¬ (p = source ∧ j = jump) ∧ mm.Edge p j q := by
    intro p j q
    by_cases hp : p = source ∧ j = jump
    · obtain ⟨rfl, rfl⟩ := hp
      cases j with
      | true => simp [edge_true, hjump, eq_comm]
      | false => simp [edge_false, hfall, eq_comm]
    · have hpj : ¬ (p = source ∧ jump = j) := fun h => hp ⟨h.1, h.2.symm⟩
      cases j with
      | true =>
        rw [edge_true, hjump, if_neg hpj, edge_true]
        tauto
      | false =>
        rw [edge_false, hfall, if_neg hpj, edge_false]
        tauto
  refine ⟨⟨hrep.link hlink, fun p j q hpq => ?_, hnodes ▸ List.prefix_refl _, fun p j q _ hp => ?_,
    fun p _ hp => ?_⟩, hnodes, (hedge _ _ _).mpr (.inl ⟨rfl, rfl, rfl⟩)⟩
  · rw [hnodes]
    rcases (hedge p j q).mp hpq with ⟨rfl, -, rfl⟩ | ⟨-, hold⟩
    · exact ⟨hs, hd⟩
    · exact hclosed p j q hold
  · rw [hedge]
    tauto
  · obtain ⟨out, -, h⟩ := Option.bind_eq_some_iff.mp hlink
    split_ifs at h
    cases h
    exact (LinkedMap.get?_insert _ _ _ _).trans (if_neg hp)

/-- Adding a dummy without edges. -/
theorem Closed.addNoop (h : mm.Closed) : Closed { mm with nodes := mm.nodes ++ [.NOOP] } := by
  intro p j q hpq
  obtain ⟨hp, hq⟩ := h p j q hpq
  rw [List.length_append, List.length_singleton]
  exact ⟨by omega, by omega⟩

/-- A dummy between `source` and `dest`: a fall-through to it and a jump from it. -/
theorem Extends.dummy (hrep : mm.RepOk) (hclosed : mm.Closed) (hs : source < mm.nodes.length)
    (hd : dest < mm.nodes.length) (hfree : mm.fallThrough source = none) :
    ∃ mm₁ mm', MatchMaker.link { mm with nodes := mm.nodes ++ [.NOOP] } source mm.nodes.length false = some mm₁ ∧
      mm₁.link mm.nodes.length dest true = some mm' ∧ Extends mm mm' source false ∧
      mm'.Path mm.nodes.length source false dest ∧ mm'.NewTo mm.nodes.length dest := by
  set mm₀ : MatchMaker := { mm with nodes := mm.nodes ++ [.NOOP] } with hmm₀
  have hlen : mm₀.nodes.length = mm.nodes.length + 1 := by
    rw [hmm₀, List.length_append, List.length_singleton]
  have hrep₀ : mm₀.RepOk := ⟨hrep.mem_into, hrep.fall_unique, hrep.nonempty⟩
  have hclosed₀ : mm₀.Closed := hclosed.addNoop
  -- the new node is at the end of the list, where a closed graph has no edges yet
  have hnone : ∀ j q, ¬ mm.Edge mm.nodes.length j q := fun j q hq => by
    have := (hclosed _ _ _ hq).1
    omega
  have hinto : ∀ p, mm.fallThrough p ≠ some mm.nodes.length := fun p hp => by
    have := (hclosed p false _ hp).2
    omega
  have hsome₁ : (MatchMaker.link mm₀ source mm.nodes.length false).isSome :=
    link_isSome hfree fun _ => hrep₀.no_fall.mpr hinto
  obtain ⟨mm₁, hlink₁⟩ := Option.isSome_iff_exists.mp hsome₁
  obtain ⟨hext₁, hnodes₁, hedge₁⟩ := Extends.link hrep₀ hclosed₀ (by omega) (by omega) hlink₁
  have hne : mm.nodes.length ≠ source := by omega
  have hjump₁ : mm₁.jumpingTo mm.nodes.length = none := by
    rw [(link_eq hlink₁).2.2.1, if_neg fun h => hne h.1]
    cases hj : mm₀.jumpingTo mm.nodes.length with
    | none => rfl
    | some q => exact absurd hj (hnone true q)
  have hsome' : (mm₁.link mm.nodes.length dest true).isSome :=
    link_isSome hjump₁ fun h => absurd h (by decide)
  obtain ⟨mm', hlink'⟩ := Option.isSome_iff_exists.mp hsome'
  obtain ⟨hext', hnodes', hedge'⟩ := Extends.link hext₁.repOk hext₁.closed (by rw [hnodes₁]; omega)
    (by rw [hnodes₁]; omega) hlink'
  refine ⟨mm₁, mm', hlink₁, hlink', ⟨hext'.repOk, hext'.closed, ?_, fun p j q hp hpj => ?_,
    fun p hp hps => ?_⟩, .inr ⟨mm.nodes.length, le_rfl, ?_, ?_, hedge'⟩, fun p j q hp hpq => ?_⟩
  · rw [hnodes', hnodes₁]
    exact List.prefix_append _ _
  · rw [hext'.other p j q (by rw [hnodes₁]; omega) fun h => by omega,
      hext₁.other p j q (by omega) hpj]
    exact Iff.rfl
  · rw [hext'.get p (by rw [hnodes₁]; omega) (by omega), hext₁.get p (by omega) hps]
  · rw [hnodes', hnodes₁]
    exact List.getElem?_concat_length
  · exact (hext'.other _ _ _ (by rw [hnodes₁]; omega) fun h => hne h.1.symm).mpr hedge₁
  · have hplt := (hext'.closed p j q hpq).1
    rw [hnodes', hnodes₁] at hplt
    have hplen : p = mm.nodes.length := by omega
    subst hplen
    cases j with
    | true => exact edge_unique hpq hedge'
    | false =>
      have hold := (hext'.other _ false q (by rw [hnodes₁]; omega) fun h => absurd h.2 (by decide)).mp hpq
      exact absurd ((hext₁.other _ false q (by omega) fun h => hne h.1).mp hold) (hnone false q)

/-- `connect` makes a path. -/
theorem Extends.connect (hrep : mm.RepOk) (hclosed : mm.Closed) (hs : source < mm.nodes.length)
    (hd : dest < mm.nodes.length) (hfree : ∀ q, ¬ mm.Edge source jump q) :
    ∃ mm', mm.connect source dest jump = some mm' ∧ Extends mm mm' source jump ∧
      mm'.Path mm.nodes.length source jump dest ∧ mm'.NewTo mm.nodes.length dest := by
  have hnone : (if jump then mm.jumpingTo source else mm.fallThrough source) = none := by
    rw [Option.eq_none_iff_forall_not_mem]
    intro q hq
    apply hfree q
    unfold Edge
    split_ifs at hq ⊢
    · exact hq
    · exact hq
  by_cases hdummy : (!jump && (mm.into dest).any fun p => !p.2) = true
  · obtain ⟨hjump, -⟩ := Bool.and_eq_true_iff.mp hdummy
    cases jump with
    | true => cases hjump
    | false =>
      obtain ⟨mm₁, mm', hlink₁, hlink', hext, hpath⟩ := Extends.dummy hrep hclosed hs hd hnone
      refine ⟨mm', ?_, hext, hpath⟩
      rw [MatchMaker.connect, if_pos hdummy]
      show (MatchMaker.link { mm with nodes := mm.nodes ++ [.NOOP] } source mm.nodes.length false).bind _ = _
      rw [hlink₁]
      exact hlink'
  · have hno : jump = false → (mm.into dest).any (fun p => !p.2) = false := by
      rintro rfl
      simpa using hdummy
    obtain ⟨mm', hlink⟩ := Option.isSome_iff_exists.mp (link_isSome hnone hno)
    obtain ⟨hext, hnodes, hedge⟩ := Extends.link hrep hclosed hs hd hlink
    refine ⟨mm', ?_, hext, .inl hedge, hnodes ▸ hext.closed.newTo dest⟩
    rw [MatchMaker.connect, if_neg hdummy, hlink]

/-! ## One predecessor -/

/-- The node to be contracted: it has one edge, to `c`, or no edge any more. -/
structure Leading (mm : MatchMaker) (b c : ℕ) : Prop where
  ne : c ≠ b
  inside : b < mm.nodes.length ∧ c < mm.nodes.length
  out : mm.successors.get? b = none ∨ mm.fallThrough b = some c ∧ mm.jumpingTo b = none ∨
    mm.jumpingTo b = some c ∧ mm.fallThrough b = none

/-- A node without edges out of it. -/
def Spent (mm : MatchMaker) (b : ℕ) : Prop := mm.successors.get? b = none

/-- A removed node has no edge left. -/
theorem Spent.no_edge (h : mm.Spent b) (j : Bool) (q : ℕ) : ¬ mm.Edge b j q := by
  have hget : mm.successors.get? b = none := h
  unfold Edge jumpingTo fallThrough
  rw [hget]
  split_ifs <;> simp

/-- The edge out of the node goes with the first predecessor. -/
theorem Leading.clear (h : mm.Leading b c) (hrep : mm.RepOk) :
    ∃ mm', mm.removeConnection b c (decide (mm.jumpingTo b = some c)) = some mm' ∧ mm'.RepOk ∧
      mm'.nodes = mm.nodes ∧ mm'.Spent b ∧ ∀ p j q, p ≠ b → (mm'.Edge p j q ↔ mm.Edge p j q) := by
  rcases h.out with hnone | hone
  · exact ⟨mm, hrep.removeConnection_of_none hnone c _, hrep, rfl, hnone, fun _ _ _ _ => Iff.rfl⟩
  · have hedge : mm.Edge b (decide (mm.jumpingTo b = some c)) c := by
      rcases hone with ⟨hfall, hjump⟩ | ⟨hjump, -⟩
      · rw [decide_eq_false (by rw [hjump]; simp)]
        exact hfall
      · rw [decide_eq_true hjump]
        exact hjump
    obtain ⟨mm', hrun, hrep', hnodes, hfall', hjump', hspent, -⟩ := hrep.removeConnection_spec hedge
    refine ⟨mm', hrun, hrep', hnodes, hspent ?_ ?_, fun p j q hp => ?_⟩
    · rw [hfall']
      rcases hone with ⟨-, hjump⟩ | ⟨-, hfall⟩
      · rw [if_pos ⟨rfl, decide_eq_false (by rw [hjump]; simp)⟩]
      · rw [hfall, ite_self]
    · rw [hjump']
      rcases hone with ⟨-, hjump⟩ | ⟨hjump, -⟩
      · rw [hjump, ite_self]
      · rw [if_pos ⟨rfl, decide_eq_true hjump⟩]
    · cases j with
      | true => rw [edge_true, hjump', if_neg fun h => hp h.1, edge_true]
      | false => rw [edge_false, hfall', if_neg fun h => hp h.1, edge_false]

/-- `translate` turns the edge of `a` into `b`, the jump if there is one, into a path to `c`. -/
theorem Leading.translate (h : mm.Leading b c) (hrep : mm.RepOk) (hclosed : mm.Closed) (hab : a ≠ b)
    (hedge : mm.Edge a jump b) (hfirst : jump = false → mm.jumpingTo a ≠ some b) :
    ∃ mm', mm.translate a b c = some mm' ∧ mm'.Spent b ∧ mm'.RepOk ∧ mm'.Closed ∧
      mm.nodes <+: mm'.nodes ∧ (mm'.Path mm.nodes.length a jump c ∧ mm'.NewTo mm.nodes.length c) ∧
      ∀ p j q, p < mm.nodes.length → p ≠ b → ¬ (p = a ∧ j = jump) → (mm'.Edge p j q ↔ mm.Edge p j q) := by
  obtain ⟨ha, -⟩ := hclosed _ _ _ hedge
  obtain ⟨mm₁, hrun₁, hrep₁, hnodes₁, hfall₁, hjump₁, -, hget₁⟩ := hrep.removeConnection_spec hedge
  have hedge₁ : ∀ p j q, mm₁.Edge p j q ↔ mm.Edge p j q ∧ ¬ (p = a ∧ j = jump) := by
    intro p j q
    by_cases hp : p = a ∧ j = jump
    · obtain ⟨rfl, rfl⟩ := hp
      cases j with
      | true => simp [edge_true, hjump₁]
      | false => simp [edge_false, hfall₁]
    · rw [and_iff_left hp]
      cases j with
      | true => rw [edge_true, hjump₁, if_neg fun h => hp ⟨h.1, h.2.symm⟩, edge_true]
      | false => rw [edge_false, hfall₁, if_neg fun h => hp ⟨h.1, h.2.symm⟩, edge_false]
  have hjumpb : mm₁.jumpingTo b = mm.jumpingTo b := by rw [hjump₁, if_neg fun h => hab h.1.symm]
  have hlead₁ : mm₁.Leading b c := by
    refine ⟨h.ne, hnodes₁ ▸ h.inside, ?_⟩
    rw [hget₁ b hab.symm, hfall₁, if_neg fun h => hab h.1.symm, hjumpb]
    exact h.out
  obtain ⟨mm₂, hrun₂, hrep₂, hnodes₂, hspent₂, hedge₂⟩ := hlead₁.clear hrep₁
  rw [hjumpb] at hrun₂
  have hlen : mm₂.nodes = mm.nodes := hnodes₂.trans hnodes₁
  have hclosed₂ : mm₂.Closed := by
    intro p j q hpq
    by_cases hp : p = b
    · exact absurd (hp ▸ hpq) (hspent₂.no_edge j q)
    · rw [hlen]
      exact hclosed p j q ((hedge₁ p j q).mp ((hedge₂ p j q hp).mp hpq)).1
  have hfree : ∀ q, ¬ mm₂.Edge a jump q := fun q hq =>
    ((hedge₁ a jump q).mp ((hedge₂ a jump q hab).mp hq)).2 ⟨rfl, rfl⟩
  have hsize : mm₂.nodes.length = mm.nodes.length := congrArg List.length hlen
  have ha₂ : a < mm₂.nodes.length := hlen ▸ ha
  have hc₂ : c < mm₂.nodes.length := hlen ▸ h.inside.2
  -- all branches connect `a` to `c`, one of them through a dummy of its own
  have hrun : ∃ mm', mm.translate a b c = some mm' ∧ Extends mm₂ mm' a jump ∧
      mm'.Path mm.nodes.length a jump c ∧ mm'.NewTo mm.nodes.length c := by
    cases jump with
    | true =>
      have hja : mm.jumpingTo a = some b := hedge
      obtain ⟨mm', hconnect, hext, hpath⟩ := Extends.connect hrep₂ hclosed₂ ha₂ hc₂ hfree
      refine ⟨mm', ?_, hext, hsize ▸ hpath⟩
      rw [MatchMaker.translate, if_neg fun h => h.2 hja, if_pos hja, hrun₁]
      show (mm₁.removeConnection b c _).bind _ = _
      rw [hrun₂]
      exact hconnect
    | false =>
      have hfa : mm.fallThrough a = some b := hedge
      have hja := hfirst rfl
      by_cases hjb : mm.jumpingTo b = some c
      · have hfree' : mm₂.fallThrough a = none := by
          rw [Option.eq_none_iff_forall_not_mem]
          exact fun q hq => hfree q hq
        obtain ⟨mm₃, mm', hlink₁, hlink₂, hext, hpath⟩ := Extends.dummy hrep₂ hclosed₂ ha₂ hc₂ hfree'
        refine ⟨mm', ?_, hext, hsize ▸ hpath⟩
        have hnofall : (MatchMaker.into { mm₂ with nodes := mm₂.nodes ++ [.NOOP] } mm₂.nodes.length).any
            (fun p => !p.2) = false := by
          have hrep₀ : MatchMaker.RepOk { mm₂ with nodes := mm₂.nodes ++ [.NOOP] } :=
            ⟨hrep₂.mem_into, hrep₂.fall_unique, hrep₂.nonempty⟩
          refine hrep₀.no_fall.mpr fun p hp => ?_
          have hin := (hclosed₂ p false _ hp).2
          omega
        rw [decide_eq_true hjb] at hrun₂
        rw [MatchMaker.translate, if_neg fun h => h.1 hfa, if_neg hja, if_pos hjb, hrun₁]
        show (mm₁.removeConnection b c true).bind _ = _
        rw [hrun₂]
        show (MatchMaker.connect { mm₂ with nodes := mm₂.nodes ++ [.NOOP] } a mm₂.nodes.length false).bind _ = _
        rw [MatchMaker.connect, if_neg (by rw [hnofall]; decide), hlink₁]
        show mm₃.connect mm₂.nodes.length c true = some mm'
        rw [MatchMaker.connect, if_neg (by simp), hlink₂]
      · obtain ⟨mm', hconnect, hext, hpath⟩ := Extends.connect hrep₂ hclosed₂ ha₂ hc₂ hfree
        refine ⟨mm', ?_, hext, hsize ▸ hpath⟩
        rw [decide_eq_false hjb] at hrun₂
        rw [MatchMaker.translate, if_neg fun h => h.1 hfa, if_neg hja, if_neg hjb, hrun₁]
        show (mm₁.removeConnection b c false).bind _ = _
        rw [hrun₂]
        exact hconnect
  obtain ⟨mm', htranslate, hext, hpath⟩ := hrun
  have hframe : ∀ p j q, p < mm.nodes.length → p ≠ b → ¬ (p = a ∧ j = jump) →
      (mm'.Edge p j q ↔ mm.Edge p j q) := by
    intro p j q hp hpb hpj
    rw [hext.other p j q (hlen ▸ hp) hpj, hedge₂ p j q hpb, hedge₁, and_iff_left hpj]
  refine ⟨mm', htranslate, ?_, hext.repOk, hext.closed, hlen ▸ hext.nodes, hpath, hframe⟩
  exact (hext.get b (hlen ▸ h.inside.1) hab.symm).trans hspent₂

/-! ## All predecessors -/

/-- The kind of the edge that `translate` takes. -/
def firstKind (mm : MatchMaker) (a b : ℕ) : Bool := decide (mm.jumpingTo a = some b)

/-- The edge that is moved is one of the edges between the two. -/
theorem firstKind_edge (h : mm.jumpingTo a = some b ∨ mm.fallThrough a = some b) :
    mm.Edge a (mm.firstKind a b) b := by
  by_cases hjump : mm.jumpingTo a = some b
  · rw [firstKind, decide_eq_true hjump]
    exact hjump
  · rw [firstKind, decide_eq_false hjump]
    exact h.resolve_left hjump

/-- The loop of `removeAndLink`. -/
theorem Leading.foldlM_translate (h : mm.Leading b c) (hrep : mm.RepOk) (hclosed : mm.Closed)
    {preds : List ℕ} (hnodup : preds.Nodup)
    (hpreds : ∀ a ∈ preds, a ≠ b ∧ (mm.jumpingTo a = some b ∨ mm.fallThrough a = some b)) :
    ∃ mm', preds.foldlM (fun mm pred => mm.translate pred b c) mm = some mm' ∧ mm'.RepOk ∧ mm'.Closed ∧
      mm.nodes <+: mm'.nodes ∧ (preds ≠ [] ∨ mm.Spent b → mm'.Spent b) ∧
      (∀ a ∈ preds, mm'.Path mm.nodes.length a (mm.firstKind a b) c) ∧ mm'.NewTo mm.nodes.length c ∧
      ∀ p j q, p < mm.nodes.length → p ≠ b → ¬ (p ∈ preds ∧ j = mm.firstKind p b) →
        (mm'.Edge p j q ↔ mm.Edge p j q) := by
  induction preds generalizing mm with
  | nil =>
    exact ⟨mm, rfl, hrep, hclosed, List.prefix_refl _, fun hspent => hspent.resolve_left (absurd rfl),
      fun a ha => absurd ha List.not_mem_nil, hclosed.newTo c, fun _ _ _ _ _ _ => Iff.rfl⟩
  | cons a preds ih =>
    obtain ⟨hmem, hnodup⟩ := List.nodup_cons.mp hnodup
    obtain ⟨hab, ha⟩ := hpreds a List.mem_cons_self
    have hkind := firstKind_edge ha
    obtain ⟨mm₁, hrun₁, hspent₁, hrep₁, hclosed₁, hnodes₁, ⟨hpath₁, hnew₁⟩, hframe₁⟩ :=
      h.translate hrep hclosed hab hkind fun hfalse => of_decide_eq_false hfalse
    have hle : mm.nodes.length ≤ mm₁.nodes.length := hnodes₁.length_le
    have hlead₁ : mm₁.Leading b c :=
      ⟨h.ne, ⟨h.inside.1.trans_le hle, h.inside.2.trans_le hle⟩, .inl hspent₁⟩
    have hin : ∀ p ∈ preds, p < mm.nodes.length ∧ p ≠ b ∧ p ≠ a := by
      intro p hp
      obtain ⟨hpb, hedge⟩ := hpreds p (List.mem_cons_of_mem _ hp)
      exact ⟨(hclosed _ _ _ (firstKind_edge hedge)).1, hpb, fun hpa => hmem (hpa ▸ hp)⟩
    have hsame : ∀ p ∈ preds, ∀ j q, mm₁.Edge p j q ↔ mm.Edge p j q := by
      intro p hp j q
      obtain ⟨hlt, hpb, hpa⟩ := hin p hp
      exact hframe₁ p j q hlt hpb fun heq => hpa heq.1
    have hkind₁ : ∀ p ∈ preds, mm₁.firstKind p b = mm.firstKind p b := fun p hp =>
      decide_eq_decide.mpr (hsame p hp true b)
    obtain ⟨mm₂, hrun₂, hrep₂, hclosed₂, hnodes₂, hspent₂, hpath₂, hnew₂, hframe₂⟩ := ih hlead₁ hrep₁ hclosed₁ hnodup
      fun p hp => ⟨(hin p hp).2.1, by
        have hedge := (hpreds p (List.mem_cons_of_mem _ hp)).2
        rcases hedge with hedge | hedge
        · exact .inl ((hsame p hp true b).mpr hedge)
        · exact .inr ((hsame p hp false b).mpr hedge)⟩
    -- the path of `a` is not among the edges changed later
    have hpath : mm₂.Path mm.nodes.length a (mm.firstKind a b) c := by
      have halt : a < mm₁.nodes.length := (hclosed _ _ _ hkind).1.trans_le hle
      have hkeep : ∀ p j q, p < mm₁.nodes.length → p ≠ b → p ∉ preds → mm₁.Edge p j q → mm₂.Edge p j q :=
        fun p j q hlt hpb hp hedge => (hframe₂ p j q hlt hpb fun heq => hp heq.1).mpr hedge
      rcases hpath₁ with hedge | ⟨d, hold, hd, had, hdc⟩
      · exact .inl (hkeep a _ c halt hab hmem hedge)
      · have hdlt := (hclosed₁ _ _ _ hdc).1
        have hdb : d ≠ b := fun hdb => hspent₁.no_edge true c (hdb ▸ hdc)
        have hdp : d ∉ preds := fun hdp => absurd (hin d hdp).1 (by omega)
        exact .inr ⟨d, hold, prefix_getElem? hnodes₂ hd, hkeep a _ d halt hab hmem had,
          hkeep d true c hdlt hdb hdp hdc⟩
    refine ⟨mm₂, ?_, hrep₂, hclosed₂, hnodes₁.trans hnodes₂, fun _ => hspent₂ (.inr hspent₁), ?_, ?_, ?_⟩
    · rw [List.foldlM_cons, hrun₁]
      exact hrun₂
    · intro p hp
      rcases List.mem_cons.mp hp with rfl | hp
      · exact hpath
      · rw [← hkind₁ p hp]
        rcases hpath₂ p hp with hedge | ⟨d, hold, hd⟩
        · exact .inl hedge
        · exact .inr ⟨d, hle.trans hold, hd⟩
    · intro p j q hp hpq
      by_cases hp₁ : mm₁.nodes.length ≤ p
      · exact hnew₂ p j q hp₁ hpq
      · have hpb : p ≠ b := fun hpb => absurd h.inside.1 (by omega)
        have hpp : p ∉ preds := fun hpp => absurd (hin p hpp).1 (by omega)
        exact hnew₁ p j q hp ((hframe₂ p j q (by omega) hpb fun heq => hpp heq.1).mp hpq)
    · intro p j q hlt hpb hpj
      have hpj₁ : ¬ (p = a ∧ j = mm.firstKind a b) := by
        rintro ⟨rfl, rfl⟩
        exact hpj ⟨List.mem_cons_self, rfl⟩
      rw [hframe₂ p j q (hlt.trans_le hle) hpb fun heq => hpj ⟨List.mem_cons_of_mem _ heq.1,
        (hkind₁ p heq.1) ▸ heq.2⟩, hframe₁ p j q hlt hpb hpj₁]

/-- What contracting `b`, which leads to `c`, should do. -/
structure Contracted (mm mm' : MatchMaker) (b c : ℕ) : Prop where
  no_into : mm'.into b = []
  paths : ∀ a jump, mm.Edge a jump b → mm'.Path mm.nodes.length a jump c
  kept : ∀ p jump q, p ≠ b → q ≠ b → mm.Edge p jump q → mm'.Edge p jump q
  added : ∀ p jump q, p < mm.nodes.length → mm'.Edge p jump q → mm.Edge p jump q ∨ mm.Edge p jump b

/-- Contracting a node keeps every path exactly when no node has both its edges into it. -/
theorem removeAndLink_contracts (hrep : mm.RepOk) (hclosed : mm.Closed) (hedge : mm.Edge b jump c)
    (hone : ∀ j q, mm.Edge b j q → j = jump ∧ q = c) (hne : c ≠ b) :
    ∃ mm', mm.removeAndLink b = some mm' ∧ mm'.RepOk ∧
      (Contracted mm mm' b c ↔ ∀ a, ¬ (mm.Edge a true b ∧ mm.Edge a false b)) := by
  have hout : mm.fallThrough b = some c ∧ mm.jumpingTo b = none ∨
      mm.jumpingTo b = some c ∧ mm.fallThrough b = none := by
    cases jump with
    | true =>
      refine .inr ⟨hedge, Option.eq_none_iff_forall_not_mem.mpr fun q hq => ?_⟩
      exact absurd (hone false q hq).1 (by decide)
    | false =>
      refine .inl ⟨hedge, Option.eq_none_iff_forall_not_mem.mpr fun q hq => ?_⟩
      exact absurd (hone true q hq).1 (by decide)
  have hlead : mm.Leading b c := ⟨hne, hclosed _ _ _ hedge, .inr hout⟩
  have hpred : ∀ a ∈ mm.predecessorNodes b, a ≠ b ∧ (mm.jumpingTo a = some b ∨ mm.fallThrough a = some b) := by
    intro a ha
    have hinto := hrep.mem_predecessorNodes.mp ha
    refine ⟨fun hab => ?_, hinto⟩
    subst hab
    rcases hinto with hinto | hinto
    · exact hne (hone true a hinto).2.symm
    · exact hne (hone false a hinto).2.symm
  obtain ⟨mm', hrun, hrep', -, -, hspent, hpath, hnew, hframe⟩ :=
    hlead.foldlM_translate hrep hclosed (mm.predecessorNodes_nodup b) hpred
  have hkeep : ∀ p j q, p ≠ b → mm.Edge p j q → q ≠ b → mm'.Edge p j q := by
    intro p j q hpb hpq hqb
    refine (hframe p j q (hclosed _ _ _ hpq).1 hpb ?_).mpr hpq
    rintro ⟨hp, rfl⟩
    exact hqb (edge_unique hpq (firstKind_edge (hpred p hp).2))
  -- the node has lost its edge, unless nothing led to it
  have hout' : ∀ j q, mm'.Edge b j q → mm.Edge b j q := by
    intro j q hbq
    by_cases hnil : mm.predecessorNodes b = []
    · rw [hnil] at hrun
      cases hrun
      exact hbq
    · exact absurd hbq ((hspent (.inl hnil)).no_edge j q)
  have hadded : ∀ p j q, p < mm.nodes.length → mm'.Edge p j q → mm.Edge p j q ∨
      mm.Edge p j b ∧ j = mm.firstKind p b := by
    intro p j q hp hpq
    by_cases hpb : p = b
    · exact .inl (hpb ▸ hout' j q (hpb ▸ hpq))
    · by_cases hpj : p ∈ mm.predecessorNodes b ∧ j = mm.firstKind p b
      · exact .inr ⟨hpj.2 ▸ firstKind_edge (hpred p hpj.1).2, hpj.2⟩
      · exact .inl ((hframe p j q hp hpb hpj).mp hpq)
  refine ⟨mm', ?_, hrep', ⟨fun h a hboth => ?_, fun hfree => ?_⟩⟩
  · rw [removeAndLink]
    rcases hout with ⟨hfall, hjump⟩ | ⟨hjump, hfall⟩
    · rw [hfall, hjump]
      exact hrun
    · rw [hfall, hjump]
      exact hrun
  · -- the fall-through stays, so `b` keeps a predecessor
    obtain ⟨hjump, hfall⟩ := hboth
    have ha : a ∈ mm.predecessorNodes b := hrep.mem_predecessorNodes.mpr (.inl hjump)
    have hkind : mm.firstKind a b = true := decide_eq_true hjump
    have hstay : mm'.Edge a false b := by
      refine (hframe a false b (hclosed _ _ _ hfall).1 (hpred a ha).1 fun heq => ?_).mpr hfall
      rw [hkind] at heq
      cases heq.2
    have hmem := (hrep'.mem_into a false b).mpr hstay
    rw [h.no_into] at hmem
    cases hmem
  have hfirst : ∀ a j, mm.Edge a j b → a ∈ mm.predecessorNodes b ∧ mm.firstKind a b = j := by
    intro a j haj
    cases j with
    | true => exact ⟨hrep.mem_predecessorNodes.mpr (.inl haj), decide_eq_true haj⟩
    | false =>
      exact ⟨hrep.mem_predecessorNodes.mpr (.inr haj), decide_eq_false fun hjump => hfree a ⟨hjump, haj⟩⟩
  refine ⟨?_, ?_, ?_, ?_⟩
  · refine List.eq_nil_iff_forall_not_mem.mpr fun e he => ?_
    obtain ⟨p, j⟩ := e
    have hpb := (hrep'.mem_into p j b).mp he
    by_cases hp : mm.nodes.length ≤ p
    · exact hne (hnew p j b hp hpb).symm
    · have hinto : mm.Edge p j b := by
        rcases hadded p j b (by omega) hpb with hold | ⟨hold, -⟩
        · exact hold
        · exact hold
      obtain ⟨ha, hkind⟩ := hfirst p j hinto
      rcases hkind ▸ hpath p ha with hedge' | ⟨d, hd, -, hpd, -⟩
      · exact hne (edge_unique hedge' hpb)
      · have hdb := edge_unique hpd hpb
        have := hlead.inside.1
        omega
  · intro a j haj
    obtain ⟨ha, hkind⟩ := hfirst a j haj
    exact hkind ▸ hpath a ha
  · exact fun p j q hpb hqb hpq => hkeep p j q hpb hpq hqb
  · intro p j q hp hpq
    exact (hadded p j q hp hpq).imp_right And.left

/-- `jump L1; L1: return`. -/
def jumpBody : List FlatStmt := [.endBlock (.jump "$L1"), .label "$L1", .endBlock (.ret [])]

/-- The graph of `jumpBody`. -/
def jumpGraph : MatchMaker where
  nodes := [.Start "f" "$G1", .Cricket "$L1", .Return []]
  predecessors := ⟨[(1, [(0, false)]), (2, [(1, true)])], by decide⟩
  successors := ⟨[(0, ⟨some 1, none⟩), (1, ⟨none, some 2⟩)], by decide⟩

open CFGBuilder in
/-- It is what `CFGBuilder` makes of it. -/
theorem jumpGraph_build : CFGBuilder.build "f" jumpBody = some ⟨0, "f", jumpGraph⟩ := by
  simp only [CFGBuilder.build, jumpBody, loop, createNode, init, pointToNext, addNode, pointName,
    Option.bind_eq_bind, List.nil_append, List.cons_append]
  rfl

/-- A graph is closed when the ends of its edges are nodes. -/
theorem closed_of_edges {mm : MatchMaker}
    (h : ∀ e ∈ mm.edges, e.src < mm.nodes.length ∧ e.node < mm.nodes.length) : mm.Closed :=
  fun p jump q hpq => h ⟨p, q, jump⟩ (mem_edges.mpr hpq)

/-- The jump is contracted to a fall-through to a dummy that jumps. -/
theorem jumpGraph_contracts :
    ∃ mm', jumpGraph.removeAndLink 1 = some mm' ∧ Contracted jumpGraph mm' 1 2 := by
  have hone : ∀ e ∈ jumpGraph.edges, e.src = 1 → e.jump = true ∧ e.node = 2 := by decide
  have hinto : ∀ e ∈ jumpGraph.edges, e.jump = true → e.node ≠ 1 := by decide
  obtain ⟨mm', hrun, -, hiff⟩ := removeAndLink_contracts (CFGBuilder.build_repOk jumpGraph_build)
    (closed_of_edges (by decide)) (edge_true.mpr (show jumpGraph.jumpingTo 1 = some 2 by decide))
    (fun j q hq => hone ⟨_, q, j⟩ (mem_edges.mpr hq) rfl) (by decide)
  exact ⟨mm', hrun, hiff.mpr fun a hboth => hinto ⟨a, 1, true⟩ (mem_edges.mpr hboth.1) rfl rfl⟩

/-! ## An `If` with both edges into the node -/

/-- `x := _ARG1; if x goto L1; L1: y := 1; return`. -/
def joinBody : List FlatStmt :=
  [.move (.temp "x") (.temp "_ARG1"), .endBlock (.trueJump (.temp "x") "$L1"), .label "$L1",
    .move (.temp "y") (.const 1), .endBlock (.ret [])]

/-- The graph of `joinBody`. -/
def joinGraph : MatchMaker where
  nodes := [.Start "f" "$G1", .mov (.Gets "x" (.Var "_ARG1")) "$G2", .If (.Var "x") "$L1" "$G3",
    .mov (.Gets "y" (.Const 1)) "$G4", .Return []]
  predecessors := ⟨[(1, [(0, false)]), (2, [(1, false)]), (3, [(2, false), (2, true)]), (4, [(3, false)])],
    by decide⟩
  successors := ⟨[(0, ⟨some 1, none⟩), (1, ⟨some 2, none⟩), (2, ⟨some 3, some 3⟩), (3, ⟨some 4, none⟩)],
    by decide⟩

open CFGBuilder in
/-- It is what `CFGBuilder` makes of it. -/
theorem joinGraph_build : CFGBuilder.build "f" joinBody = some ⟨0, "f", joinGraph⟩ := by
  simp only [CFGBuilder.build, joinBody, loop, createNode, init, pointToNext, addNode, translateMove,
    Option.bind_eq_bind, Option.bind_some, pointName, CFGBuilder.translateExpr, List.nil_append,
    List.cons_append]
  rfl

/-- It is closed. -/
theorem joinGraph_closed : joinGraph.Closed := closed_of_edges (by decide)

/-- Contracting the assignment leaves the fall-through of the `If` behind. -/
theorem joinGraph_lost :
    ¬ ∀ (mm : MatchMaker) (b c : ℕ) (jump : Bool), mm.RepOk → mm.Closed →
      (∀ n cond take edge, mm.nodes[n]? = some (.If cond take edge) →
        (mm.jumpingTo n).isSome ∧ (mm.fallThrough n).isSome) →
      mm.Edge b jump c → (∀ j q, mm.Edge b j q → j = jump ∧ q = c) → c ≠ b →
      ∃ mm', mm.removeAndLink b = some mm' ∧ Contracted mm mm' b c := by
  intro h
  have hrep := CFGBuilder.build_repOk joinGraph_build
  have hone : ∀ e ∈ joinGraph.edges, e.src = 3 → e.jump = false ∧ e.node = 4 := by decide
  have hifs : ∀ n cond take edge, joinGraph.nodes[n]? = some (.If cond take edge) →
      (joinGraph.jumpingTo n).isSome ∧ (joinGraph.fallThrough n).isSome := by
    intro n cond take edge hn
    have hn2 : n = 2 := by
      have hlt : n < 5 := (List.getElem?_eq_some_iff.mp hn).1
      interval_cases n
      · cases hn
      · cases hn
      · rfl
      · cases hn
      · cases hn
    subst hn2
    decide
  obtain ⟨mm', hrun, hcontracted⟩ := h joinGraph 3 4 false hrep joinGraph_closed hifs
    (edge_false.mpr (by decide))
    (fun j q hq => hone ⟨_, q, j⟩ (mem_edges.mpr hq) rfl) (by decide)
  have hinto : (joinGraph.removeAndLink 3).map (fun mm => mm.into 3) = some [(2, false)] := by decide
  rw [hrun, Option.map_some, hcontracted.no_into] at hinto
  cases hinto

end MatchMaker

end Jaek
