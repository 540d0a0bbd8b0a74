import Jaek.Optimize.CFG.CFGBuilder

/-!
# Printing a graph as a function body

`CFGDestroyer`: nodes with a jump into them get labels, and the statements are printed along the
fall-through chains from the start and from every node that only jumps lead to. The loop over a chain does
not end when the chain is a cycle; that, and a forced `null`, is `none`.

`order_spec` describes the order of printing for a graph the builder made: the chains are runs of
consecutive nodes, and exactly the nodes that hang on a chain (`Kept`) are printed, each once.
-/

namespace Jaek

namespace CFGDestroyer

/-- The label the companion object hands out when its counter reaches `k`. -/
def freshLabel (k : ℕ) : String := "$X" ++ toString k

/-- Draw a label for each node. -/
def assignLabels : List ℕ → LinkedMap ℕ String → ℕ → LinkedMap ℕ String × ℕ
  | [], jumpLabels, count => (jumpLabels, count)
  | node :: nodes, jumpLabels, count =>
    assignLabels nodes (jumpLabels.insert node (freshLabel (count + 1))) (count + 1)

/-- `parents`: the nodes that a chain starts with. -/
def parents (cfg : CFG) : List ℕ := cfg.start :: cfg.mm.nodesWithNoFallThroughsMinusStart

/-- The nodes from `node` on along the fall-throughs. -/
def chain (mm : MatchMaker) : ℕ → Option ℕ → Option (List ℕ)
  | _, none => some []
  | 0, some _ => none
  | fuel + 1, some node => (chain mm fuel (mm.fallThrough node)).map (node :: ·)

/-- The nodes in the order in which they are printed. A chain without a cycle has no more nodes than the
graph. -/
def order (cfg : CFG) : Option (List ℕ) :=
  ((parents cfg).mapM fun node => chain cfg.mm cfg.mm.nodes.length (some node)).map List.flatten

/-- `addStmt`: a statement behind the label of its node. -/
def addStmt (jumpLabels : LinkedMap ℕ String) (node : ℕ) (stmt : FlatStmt) : List FlatStmt :=
  (jumpLabels.get? node).toList.map .label ++ [stmt]

/-- The statements printed for a node. -/
def printNode (mm : MatchMaker) (jumpLabels : LinkedMap ℕ String) (node : ℕ) :
    Option (List FlatStmt) :=
  mm.nodes[node]?.bind fun
    | .Funcking name movIntos args _ =>
      some (addStmt jumpLabels node (.callStmt name movIntos.length (args.map translateExpr)) ++
        movIntos.map Mov.stmt)
    | .If cond _ _ =>
      match mm.jumpingTo node with
      | some target => (jumpLabels.get? target).map fun l =>
          addStmt jumpLabels node (.endBlock (.trueJump (translateExpr cond) l))
      | none => some []
    | .mov m _ => some (addStmt jumpLabels node m.stmt)
    | .Return rets => some (addStmt jumpLabels node (.endBlock (.ret (rets.map translateExpr))))
    | .Start _ _ => some []
    | .Cricket _ | .NOOP =>
      match mm.jumpingTo node with
      | some target => (jumpLabels.get? target).map fun l =>
          addStmt jumpLabels node (.endBlock (.jump l))
      | none => some []

/-- `destroy`, with the label counter before and after. -/
def destroy (cfg : CFG) (count : ℕ) : Option (List FlatStmt × ℕ) := do
  let (jumpLabels, count) := assignLabels cfg.mm.nodesWithJumpInto .empty count
  let nodes ← order cfg
  let stmts ← nodes.mapM (printNode cfg.mm jumpLabels)
  some (stmts.flatten, count)

/-! ## Labels -/

/-- Different counts give different labels. -/
theorem freshLabel_inj {j k : ℕ} (h : freshLabel j = freshLabel k) : j = k := by
  have hrepr : toString j = toString k := by simpa [freshLabel] using h
  exact Nat.repr_inj.mp hrepr

/-- Every node gets a label of its own. -/
theorem assignLabels_spec (nodes : List ℕ) (jumpLabels : LinkedMap ℕ String) (count : ℕ)
    (hold : ∀ i l, jumpLabels.get? i = some l → ∃ k ≤ count, l = freshLabel k)
    (hinj : ∀ i j l, jumpLabels.get? i = some l → jumpLabels.get? j = some l → i = j) :
    (∀ i, ((assignLabels nodes jumpLabels count).1.get? i).isSome ↔
      i ∈ nodes ∨ (jumpLabels.get? i).isSome) ∧
    ∀ i j l, (assignLabels nodes jumpLabels count).1.get? i = some l →
      (assignLabels nodes jumpLabels count).1.get? j = some l → i = j := by
  induction nodes generalizing jumpLabels count with
  | nil => exact ⟨by simp [assignLabels], hinj⟩
  | cons node nodes ih =>
    have hnew : ∀ i l, jumpLabels.get? i = some l → l ≠ freshLabel (count + 1) := by
      intro i l hi heq
      obtain ⟨k, hk, rfl⟩ := hold i l hi
      have := freshLabel_inj heq
      omega
    obtain ⟨hsome, hinj'⟩ := ih (jumpLabels.insert node (freshLabel (count + 1))) (count + 1)
      (by
        intro i l hi
        rw [LinkedMap.get?_insert] at hi
        split at hi
        · exact ⟨count + 1, le_rfl, (Option.some.inj hi).symm⟩
        · obtain ⟨k, hk, rfl⟩ := hold i l hi
          exact ⟨k, by omega, rfl⟩)
      (by
        intro i j l hi hj
        rw [LinkedMap.get?_insert] at hi hj
        split at hi <;> split at hj
        · omega
        · exact absurd (Option.some.inj hi).symm (hnew j l hj)
        · exact absurd (Option.some.inj hj).symm (hnew i l hi)
        · exact hinj i j l hi hj)
    refine ⟨fun i => ?_, hinj'⟩
    rw [assignLabels, hsome, LinkedMap.get?_insert, List.mem_cons]
    by_cases hi : i = node
    · simp [hi]
    · simp [hi]

/-! ## The order of printing -/

/-- A map whose parts do not throw. -/
theorem mapM_eq_some {α β : Type} {f : α → Option β} {g : α → β} {xs : List α}
    (h : ∀ a ∈ xs, f a = some (g a)) : xs.mapM f = some (xs.map g) := by
  induction xs with
  | nil => rfl
  | cons a xs ih =>
    rw [List.mapM_cons, h a (by simp), ih fun b hb => h b (by simp [hb])]
    rfl

/-- A chain starts at the node: it is the start, or only jumps lead to it. -/
def IsHead (mm : MatchMaker) (i : ℕ) : Prop :=
  i = 0 ∨ (∃ p, mm.jumpingTo p = some i) ∧ ∀ p, mm.fallThrough p ≠ some i

/-- The nodes on the chains. -/
inductive Kept (mm : MatchMaker) : ℕ → Prop
  | head {i : ℕ} : IsHead mm i → Kept mm i
  | next {i j : ℕ} : Kept mm i → mm.fallThrough i = some j → Kept mm j

end CFGDestroyer

open CFGDestroyer

namespace CFGBuilder.Represents

variable {block : List FlatStmt} {items : List Item} {mm : MatchMaker}

/-- A built node falls through to the next one. -/
theorem fall_succ (hr : Represents block items mm) {i j : ℕ} (h : mm.fallThrough i = some j) :
    j = i + 1 ∧ j < items.length := by
  rw [hr.fall] at h
  obtain ⟨it, -, h⟩ := Option.bind_eq_some_iff.mp h
  split at h
  · rename_i hlt
    cases h
    exact ⟨rfl, hlt.2⟩
  · cases h

/-- A jump leads to the label it names. -/
theorem jump_some (hr : Represents block items mm) {i j : ℕ} (h : mm.jumpingTo i = some j) :
    ∃ it l it', items[i]? = some it ∧ it.node.takes = some l ∧ items[j]? = some it' ∧
      l ∈ it'.labels := by
  cases ht : items[i]?.bind (·.node.takes) with
  | none => rw [hr.noJump i ht] at h; cases h
  | some l =>
    obtain ⟨it, hit, ht⟩ := Option.bind_eq_some_iff.mp ht
    obtain ⟨j', it', hj', hit', hl⟩ := hr.jump i it l hit ht
    rw [h, Option.some.injEq] at hj'
    subst hj'
    exact ⟨it, l, it', hit, ht, hit', hl⟩

/-- A jump goes to a node of the body. -/
theorem jump_lt (hr : Represents block items mm) {i j : ℕ} (h : mm.jumpingTo i = some j) :
    j < items.length := by
  obtain ⟨-, -, it', -, -, hit', -⟩ := hr.jump_some h
  exact (List.getElem?_eq_some_iff.mp hit').1

/-- No jump leads to the start. -/
theorem jump_ne_zero (hr : Represents block items mm) (i : ℕ) : mm.jumpingTo i ≠ some 0 := by
  intro h
  obtain ⟨-, l, it', -, -, hit', hl⟩ := hr.jump_some h
  obtain ⟨name, edge, hstart⟩ := hr.start
  rw [hstart, Option.some.injEq] at hit'
  subst hit'
  simp at hl

/-- A chain is a run of consecutive nodes up to one that does not fall through. -/
theorem chain_eq (hr : Represents block items mm) {fuel i : ℕ} (hi : i < items.length)
    (hfuel : items.length ≤ fuel + i) :
    ∃ m, chain mm fuel (some i) = some (List.range' i (m + 1)) ∧ i + m < items.length ∧
      (∀ k, i ≤ k → k < i + m → mm.fallThrough k = some (k + 1)) ∧
      mm.fallThrough (i + m) = none := by
  induction fuel generalizing i with
  | zero => omega
  | succ fuel ih =>
    rw [chain]
    cases hfall : mm.fallThrough i with
    | none =>
      refine ⟨0, ?_, by omega, fun k _ _ => by omega, hfall⟩
      cases fuel <;> rfl
    | some j =>
      obtain ⟨rfl, hj⟩ := hr.fall_succ hfall
      obtain ⟨m, hchain, hm, hfalls, hlast⟩ := ih hj (by omega)
      refine ⟨m + 1, ?_, by omega, ?_, ?_⟩
      · rw [hchain]
        rfl
      · intro k hk hk'
        by_cases hki : k = i
        · rw [hki, hfall]
        · exact hfalls k (by omega) (by omega)
      · rw [← hlast]
        congr 1
        omega

/-- Only the first node is a start. -/
theorem isStart_eq (hr : Represents block items mm) {i : ℕ} (hi : i < items.length) :
    (mm.nodes[i]?.map CFGNode.isStart).getD false = decide (i = 0) := by
  rw [hr.nodes, List.getElem?_map]
  cases i with
  | zero =>
    obtain ⟨name, edge, hstart⟩ := hr.start
    rw [hstart]
    rfl
  | succ i =>
    have hit := List.getElem?_eq_getElem hi
    have hkind := hr.kinds i _ hit
    rw [hit]
    cases hn : items[i + 1].node
    case Start => exact absurd (by rw [hn]; rfl) hkind
    all_goals simp [hn, CFGNode.isStart]

/-- The printing starts with the heads of the chains. -/
theorem mem_parents (hr : Represents block items mm) (name : String) (i : ℕ) :
    i ∈ parents ⟨0, name, mm⟩ ↔ IsHead mm i := by
  rw [parents, List.mem_cons, IsHead]
  refine or_congr_right' fun hi => ?_
  rw [MatchMaker.nodesWithNoFallThroughsMinusStart, List.mem_map]
  constructor
  · rintro ⟨⟨q, ps⟩, hmem, rfl⟩
    obtain ⟨hentry, hcond⟩ := List.mem_filter.mp hmem
    rw [LinkedMap.mem_entries_iff] at hentry
    have hinto : mm.into q = ps := by rw [MatchMaker.into, hentry, Option.getD_some]
    simp only [Bool.and_eq_true, List.all_eq_true] at hcond
    constructor
    · have hne := hr.repOk.nonempty q (by rw [hentry]; rfl)
      obtain ⟨⟨p, jump⟩, hp⟩ := List.exists_mem_of_ne_nil _ hne
      have hjump : jump = true := hcond.2 _ (hinto ▸ hp)
      subst hjump
      exact ⟨p, (hr.repOk.mem_into p true q).mp hp⟩
    · intro p hp
      have hmem := (hr.repOk.mem_into p false q).mpr hp
      have hfalse := hcond.2 _ (hinto ▸ hmem)
      cases hfalse
  · rintro ⟨⟨p, hp⟩, hfall⟩
    have hmem := (hr.repOk.mem_into p true i).mpr hp
    cases hentry : mm.predecessors.get? i with
    | none => rw [MatchMaker.into, hentry] at hmem; cases hmem
    | some ps =>
      have hinto : mm.into i = ps := by rw [MatchMaker.into, hentry, Option.getD_some]
      refine ⟨(i, ps), List.mem_filter.mpr ⟨mm.predecessors.mem_entries_iff.mpr hentry, ?_⟩, rfl⟩
      rw [hr.isStart_eq (hr.jump_lt hp), decide_eq_false hi]
      simp only [Bool.not_false, Bool.true_and, List.all_eq_true]
      rintro ⟨p', jump⟩ hp'
      cases jump
      · exact absurd ((hr.repOk.mem_into p' false i).mp (hinto ▸ hp')) (hfall p')
      · rfl

/-- No chain is printed twice. -/
theorem nodup_parents (hr : Represents block items mm) (name : String) :
    (parents ⟨0, name, mm⟩).Nodup := by
  rw [parents, List.nodup_cons]
  constructor
  · intro hmem
    rw [MatchMaker.nodesWithNoFallThroughsMinusStart, List.mem_map] at hmem
    obtain ⟨⟨q, ps⟩, hmem, hq⟩ := hmem
    obtain ⟨-, hcond⟩ := List.mem_filter.mp hmem
    have hlen : 0 < items.length := by
      obtain ⟨name, edge, hstart⟩ := hr.start
      exact (List.getElem?_eq_some_iff.mp hstart).1
    have hq : q = 0 := hq
    subst hq
    rw [hr.isStart_eq hlen] at hcond
    simp at hcond
  · exact (List.filter_sublist.map _).nodup mm.predecessors.nodup

/-- The heads are nodes of the graph. -/
theorem head_lt (hr : Represents block items mm) {i : ℕ} (h : IsHead mm i) : i < items.length := by
  rcases h with rfl | ⟨⟨p, hp⟩, -⟩
  · obtain ⟨name, edge, hstart⟩ := hr.start
    exact (List.getElem?_eq_some_iff.mp hstart).1
  · exact hr.jump_lt hp

/-- A node on the chain of a head comes behind it, and control falls through all the way. -/
def Reaches (mm : MatchMaker) (h i : ℕ) : Prop :=
  h ≤ i ∧ ∀ k, h ≤ k → k < i → mm.fallThrough k = some (k + 1)

/-- The chain of a head goes along the fall-throughs. -/
theorem chain_of_head (hr : Represents block items mm) {h : ℕ} (hh : IsHead mm h) :
    ∃ c, chain mm mm.nodes.length (some h) = some c ∧ c.Nodup ∧ (∀ i, i ∈ c ↔ Reaches mm h i) ∧
      (∀ i j, i ∈ c → mm.fallThrough i = some j → [i, j] <:+: c) ∧ c.head? = some h := by
  have hlen : items.length ≤ mm.nodes.length + h := by
    rw [hr.nodes, List.length_map]
    omega
  obtain ⟨m, hchain, hm, hfalls, hlast⟩ := hr.chain_eq (hr.head_lt hh) hlen
  have hmem : ∀ i, i ∈ List.range' h (m + 1) ↔ Reaches mm h i := by
    intro i
    rw [List.mem_range'_1, Reaches]
    constructor
    · intro hi
      exact ⟨hi.1, fun k hk hk' => hfalls k hk (by omega)⟩
    · rintro ⟨hi, hfall⟩
      refine ⟨hi, ?_⟩
      by_contra hout
      have := hfall (h + m) (by omega) (by omega)
      rw [hlast] at this
      cases this
  refine ⟨_, hchain, List.nodup_range', hmem, ?_, by rw [List.range'_succ]; rfl⟩
  intro i j hi hfall
  obtain ⟨rfl, -⟩ := hr.fall_succ hfall
  rw [List.mem_range'_1] at hi
  have hne : i ≠ h + m := by
    rintro rfl
    rw [hlast] at hfall
    cases hfall
  obtain ⟨a, rfl⟩ := Nat.exists_eq_add_of_le hi.1
  obtain ⟨c, rfl⟩ := Nat.exists_eq_add_of_lt (show a < m by omega)
  have hsplit : List.range' h (a + c + 1 + 1) =
      List.range' h a ++ [h + a, h + a + 1] ++ List.range' (h + a + 2) c := by
    have happend := @List.range'_append_1 h a (c + 1 + 1)
    rw [← Nat.add_assoc, ← Nat.add_assoc] at happend
    rw [← happend, List.range'_succ, List.range'_succ, List.append_assoc]
    rfl
  exact ⟨_, _, hsplit.symm⟩

/-- A node hangs on one chain only. -/
theorem head_unique {h h' i : ℕ} (hh : IsHead mm h)
    (hh' : IsHead mm h') (hi : Reaches mm h i) (hi' : Reaches mm h' i) : h = h' := by
  have hlt : ∀ a b, IsHead mm b → Reaches mm a i → Reaches mm b i → ¬ a < b := by
    intro a b hb hai hbi hab
    have hfall := hai.2 (b - 1) (by omega) (by have := hbi.1; omega)
    rw [Nat.sub_add_cancel (by omega)] at hfall
    rcases hb with rfl | ⟨-, hno⟩
    · omega
    · exact hno _ hfall
  have h1 := hlt h h' hh' hi hi'
  have h2 := hlt h' h hh hi' hi
  omega

/-- A node is printed when a head reaches it. -/
theorem kept_iff (hr : Represents block items mm) (i : ℕ) :
    Kept mm i ↔ ∃ h, IsHead mm h ∧ Reaches mm h i := by
  constructor
  · intro hk
    induction hk with
    | head hh => exact ⟨_, hh, le_rfl, fun k _ _ => by omega⟩
    | next hk hfall ih =>
      obtain ⟨h, hh, hle, hfalls⟩ := ih
      obtain ⟨rfl, -⟩ := hr.fall_succ hfall
      refine ⟨h, hh, by omega, fun k hk hk' => ?_⟩
      rcases Nat.lt_succ_iff_lt_or_eq.mp hk' with hlt | rfl
      · exact hfalls k hk hlt
      · exact hfall
  · rintro ⟨h, hh, hle, hfalls⟩
    obtain ⟨m, rfl⟩ := Nat.exists_eq_add_of_le hle
    induction m with
    | zero => exact .head hh
    | succ m ih =>
      have hprev := ih (by omega) fun k hk hk' => hfalls k hk (by omega)
      exact .next hprev (hfalls (h + m) (by omega) (by omega))

/-- The order of printing: every node on a chain once, behind the node that falls through to it. -/
theorem order_spec (hr : Represents block items mm) (name : String) :
    ∃ nodes, order ⟨0, name, mm⟩ = some nodes ∧ nodes.Nodup ∧ (∀ i, i ∈ nodes ↔ Kept mm i) ∧
      (∀ i j, i ∈ nodes → mm.fallThrough i = some j → [i, j] <:+: nodes) ∧
      nodes.head? = some 0 := by
  -- the chain that starts at `h`; the chains of different heads are disjoint
  let g : ℕ → List ℕ := fun h => (chain mm mm.nodes.length (some h)).getD []
  have hg : ∀ h ∈ parents ⟨0, name, mm⟩, chain mm mm.nodes.length (some h) = some (g h) ∧
      (g h).Nodup ∧ (∀ i, i ∈ g h ↔ Reaches mm h i) ∧
      (∀ i j, i ∈ g h → mm.fallThrough i = some j → [i, j] <:+: g h) ∧ (g h).head? = some h := by
    intro h hh
    obtain ⟨c, hc, hspec⟩ := hr.chain_of_head ((hr.mem_parents name h).mp hh)
    have hgc : g h = c := by simp [g, hc]
    rw [hgc]
    exact ⟨hc, hspec⟩
  refine ⟨(parents ⟨0, name, mm⟩).flatMap g, ?_, ?_, ?_, ?_, ?_⟩
  · rw [order, mapM_eq_some fun h hh => (hg h hh).1, Option.map_some, ← List.flatMap_def]
  · rw [List.nodup_flatMap]
    refine ⟨fun h hh => (hg h hh).2.1, ?_⟩
    refine (hr.nodup_parents name).imp_of_mem fun {h h'} hh hh' hne => ?_
    intro i hi hi'
    apply hne
    exact head_unique ((hr.mem_parents name h).mp hh) ((hr.mem_parents name h').mp hh')
      (((hg h hh).2.2.1 i).mp hi) (((hg h' hh').2.2.1 i).mp hi')
  · intro i
    rw [List.mem_flatMap, hr.kept_iff]
    constructor
    · rintro ⟨h, hh, hi⟩
      exact ⟨h, (hr.mem_parents name h).mp hh, ((hg h hh).2.2.1 i).mp hi⟩
    · rintro ⟨h, hh, hi⟩
      have hmem := (hr.mem_parents name h).mpr hh
      exact ⟨h, hmem, ((hg h hmem).2.2.1 i).mpr hi⟩
  · intro i j hi hfall
    obtain ⟨h, hh, hi⟩ := List.mem_flatMap.mp hi
    have hinfix := (hg h hh).2.2.2.1 i j hi hfall
    rw [List.flatMap_def]
    exact hinfix.trans (List.infix_of_mem_flatten (List.mem_map_of_mem hh))
  · have hzero := (hg 0 (by simp [parents])).2.2.2.2
    rw [parents, List.flatMap_cons, List.head?_append, hzero]
    rfl

/-- The code printed for a node: its label, its statements and its jump. -/
def printed (items : List Item) (mm : MatchMaker) (jumpLabels : LinkedMap ℕ String) (i : ℕ) :
    List FlatStmt :=
  match items[i]? with
  | some it => (jumpLabels.get? i).toList.map .label ++
      it.node.print ((mm.jumpingTo i).bind jumpLabels.get?)
  | none => []

/-- What is printed of a node. -/
theorem printNode_eq (hr : Represents block items mm) {jumpLabels : LinkedMap ℕ String}
    (hlabels : ∀ i, (jumpLabels.get? i).isSome ↔ ∃ p, mm.jumpingTo p = some i) {i : ℕ}
    (hi : i < items.length) :
    printNode mm jumpLabels i = some (printed items mm jumpLabels i) := by
  obtain ⟨⟨ls, n⟩, hit⟩ : ∃ it, items[i]? = some it := ⟨_, List.getElem?_eq_getElem hi⟩
  have hnode : mm.nodes[i]? = some n := by rw [hr.nodes, List.getElem?_map, hit]; rfl
  have hnoJump : n.takes = none → mm.jumpingTo i = none := fun ht =>
    hr.noJump i (by rw [hit, Option.bind_some, ht])
  rw [printNode, hnode, Option.bind_some, printed, hit]
  cases n with
  | mov m edge =>
    rw [hnoJump rfl]
    simp [addStmt, CFGNode.print, CFGNode.stmts]
  | Funcking name movIntos args edge =>
    rw [hnoJump rfl]
    simp [addStmt, CFGNode.print, CFGNode.stmts]
  | Return rets =>
    rw [hnoJump rfl]
    simp [addStmt, CFGNode.print, CFGNode.stmts]
  -- the start node has no label: nothing jumps to it
  | Start name edge =>
    have hnone : jumpLabels.get? i = none := by
      by_contra hsome
      obtain ⟨p, hp⟩ := (hlabels i).mp (Option.isSome_iff_ne_none.mpr hsome)
      have hstart := hr.isStart_eq hi
      rw [hnode] at hstart
      have hzero : i = 0 := of_decide_eq_true hstart.symm
      exact hr.jump_ne_zero p (hzero ▸ hp)
    rw [hnone, hnoJump rfl]
    rfl
  | If cond take edge =>
    obtain ⟨j, it', hj, -⟩ := hr.jump i _ take hit rfl
    obtain ⟨l, hl⟩ := Option.isSome_iff_exists.mp ((hlabels j).mpr ⟨i, hj⟩)
    simp [hj, hl, addStmt, CFGNode.print, CFGNode.stmts, CFGNode.jumpStmt]
  | Cricket dest =>
    obtain ⟨j, it', hj, -⟩ := hr.jump i _ dest hit rfl
    obtain ⟨l, hl⟩ := Option.isSome_iff_exists.mp ((hlabels j).mpr ⟨i, hj⟩)
    simp [hj, hl, addStmt, CFGNode.print, CFGNode.stmts, CFGNode.jumpStmt]
  | NOOP =>
    cases i with
    | zero =>
      obtain ⟨name, edge, hstart⟩ := hr.start
      rw [hstart] at hit
      cases hit
    | succ i => exact absurd rfl (hr.kinds i _ hit)

/-- Only nodes of the body are printed. -/
theorem kept_lt (hr : Represents block items mm) {i : ℕ} (h : Kept mm i) : i < items.length := by
  cases h with
  | head hh => exact hr.head_lt hh
  | next _ hfall => exact (hr.fall_succ hfall).2

/-- The nodes that get a label. -/
theorem mem_nodesWithJumpInto (hr : Represents block items mm) (i : ℕ) :
    i ∈ mm.nodesWithJumpInto ↔ ∃ p, mm.jumpingTo p = some i := by
  rw [MatchMaker.nodesWithJumpInto, List.mem_map]
  constructor
  · rintro ⟨⟨q, ps⟩, hmem, rfl⟩
    obtain ⟨hentry, hany⟩ := List.mem_filter.mp hmem
    rw [LinkedMap.mem_entries_iff] at hentry
    have hinto : mm.into q = ps := by rw [MatchMaker.into, hentry, Option.getD_some]
    obtain ⟨⟨p, jump⟩, hp, hjump⟩ := List.any_eq_true.mp hany
    have hjump : jump = true := hjump
    subst hjump
    exact ⟨p, (hr.repOk.mem_into p true q).mp (hinto ▸ hp)⟩
  · rintro ⟨p, hp⟩
    have hmem := (hr.repOk.mem_into p true i).mpr hp
    cases hentry : mm.predecessors.get? i with
    | none => rw [MatchMaker.into, hentry] at hmem; cases hmem
    | some ps =>
      have hinto : mm.into i = ps := by rw [MatchMaker.into, hentry, Option.getD_some]
      exact ⟨(i, ps), List.mem_filter.mpr ⟨mm.predecessors.mem_entries_iff.mpr hentry,
        List.any_eq_true.mpr ⟨(p, true), hinto ▸ hmem, rfl⟩⟩, rfl⟩

/-- The destroyer prints the kept nodes in order, with a label of its own for each node that is jumped
to. -/
theorem destroy_spec (hr : Represents block items mm) {name : String} {nodes : List ℕ}
    (horder : order ⟨0, name, mm⟩ = some nodes) (hkept : ∀ i ∈ nodes, Kept mm i) (count : ℕ) :
    ∃ jumpLabels count', destroy ⟨0, name, mm⟩ count =
        some (nodes.flatMap (printed items mm jumpLabels), count') ∧
      (∀ i, (jumpLabels.get? i).isSome ↔ ∃ p, mm.jumpingTo p = some i) ∧
      ∀ i j l, jumpLabels.get? i = some l → jumpLabels.get? j = some l → i = j := by
  obtain ⟨hsome, hinj⟩ := assignLabels_spec mm.nodesWithJumpInto .empty count
    (fun i l h => by simp at h) (fun i j l h => by simp at h)
  set labels := assignLabels mm.nodesWithJumpInto .empty count with hlabels
  have hjump : ∀ i, (labels.1.get? i).isSome ↔ ∃ p, mm.jumpingTo p = some i := by
    intro i
    rw [hsome, hr.mem_nodesWithJumpInto]
    simp
  refine ⟨labels.1, labels.2, ?_, hjump, hinj⟩
  have hprint := mapM_eq_some (f := printNode mm labels.1) (g := printed items mm labels.1)
    fun i hi => hr.printNode_eq hjump (hr.kept_lt (hkept i hi))
  rw [destroy, ← hlabels, horder]
  simp only [Option.bind_eq_bind, Option.bind_some, hprint]
  rw [List.flatMap_def]

end CFGBuilder.Represents

end Jaek
