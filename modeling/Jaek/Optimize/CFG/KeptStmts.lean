import Jaek.Optimize.CFG.CFGDestroyer

/-!
# The statements the destroyer keeps

`keptStmts` reads off the body which statements hang on a chain: control runs into them, without a jump,
from the first statement or from a label that is jumped to and that no control falls into. `kept_iff_scan`
says that these are the statements of the nodes on the chains of the graph.
-/

namespace Jaek

/-- Whether control falls into a point, and on a chain or not. -/
inductive Flow
  | kept
  | lost
  | cut
deriving DecidableEq

/-- The labels a statement jumps to. -/
def FlatStmt.targets : FlatStmt → List String
  | .endBlock e => e.targets
  | _ => []

/-- At a label that is jumped to a chain starts, unless control falls into it. -/
def Flow.arrive (targets : List String) : Flow → FlatStmt → Flow
  | cut, .label l => if l ∈ targets then kept else cut
  | cut, _ => lost
  | flow, _ => flow

/-- Behind a jump or a return control falls nowhere. -/
def Flow.leave : Flow → FlatStmt → Flow
  | flow, .endBlock (.trueJump _ _) => flow
  | _, .endBlock _ => cut
  | flow, _ => flow

/-- The statements on chains. -/
def keptStmts (targets : List String) : Flow → List FlatStmt → List FlatStmt
  | _, [] => []
  | flow, st :: rest =>
    let flow := flow.arrive targets st
    (if flow = .kept then [st] else []) ++ keptStmts targets (flow.leave st) rest

/-- Every jump on a chain leads to a label on a chain. -/
def JumpsKept (block : List FlatStmt) : Prop :=
  let kept := keptStmts (block.flatMap FlatStmt.targets) .kept block
  ∀ st ∈ kept, ∀ l ∈ st.targets, FlatStmt.label l ∈ kept

instance (block : List FlatStmt) : Decidable (JumpsKept block) :=
  inferInstanceAs (Decidable (∀ st ∈ keptStmts (block.flatMap FlatStmt.targets) .kept block,
    ∀ l ∈ st.targets, _ ∈ keptStmts (block.flatMap FlatStmt.targets) .kept block))

/-! ## Reading the items -/

section Scan

variable (targets : List String)

/-- The flow behind the labels of a node: where control falls on no label, a label that is jumped to
starts a chain. -/
def Flow.enter (targets : List String) (flow : Flow) (ls : List String) : Flow :=
  if flow = .cut ∧ ∃ l ∈ ls, l ∈ targets then .kept else flow

theorem keptStmts_labels (flow : Flow) (ls : List String) (rest : List FlatStmt) :
    ∃ front, keptStmts targets flow (ls.map .label ++ rest) =
        front ++ keptStmts targets (flow.enter targets ls) rest ∧
      (∀ st ∈ front, st.targets = []) ∧
      ∀ l ∈ targets, (FlatStmt.label l ∈ front ↔ flow.enter targets ls = .kept ∧ l ∈ ls) := by
  induction ls generalizing flow with
  | nil => exact ⟨[], by simp [Flow.enter], by simp, by simp⟩
  | cons l ls ih =>
    have hleave : ∀ f : Flow, f.leave (.label l) = f := fun f => by cases f <;> rfl
    have henter : (flow.arrive targets (.label l)).enter targets ls = flow.enter targets (l :: ls) := by
      cases flow with
      | kept => simp [Flow.arrive, Flow.enter]
      | lost => simp [Flow.arrive, Flow.enter]
      | cut =>
        by_cases hl : l ∈ targets
        · simp [Flow.arrive, Flow.enter, hl]
        · simp [Flow.arrive, Flow.enter, hl]
    obtain ⟨front, heq, htargets, hmem⟩ := ih (flow.arrive targets (.label l))
    rw [henter] at heq hmem
    refine ⟨(if flow.arrive targets (.label l) = .kept then [.label l] else []) ++ front, ?_, ?_, ?_⟩
    · rw [List.map_cons, List.cons_append, keptStmts, hleave, heq, List.append_assoc]
    · intro st hst
      rcases List.mem_append.mp hst with hst | hst
      · split at hst
        · rw [List.mem_singleton] at hst
          rw [hst]
          rfl
        · cases hst
      · exact htargets st hst
    · intro l' hl'
      rw [List.mem_append, hmem l' hl', List.mem_cons]
      have harrive : flow.arrive targets (.label l) = .kept → flow.enter targets (l :: ls) = .kept := by
        intro h
        rw [← henter, h]
        rfl
      -- a label that is jumped to takes a cut flow up again, so it is kept itself
      have hback : l' = l → flow.enter targets (l :: ls) = .kept →
          flow.arrive targets (.label l) = .kept := by
        rintro rfl h
        cases flow with
        | kept => rfl
        | lost => simp [Flow.enter] at h
        | cut => simp [Flow.arrive, hl']
      by_cases ha : flow.arrive targets (.label l) = .kept
      · rw [if_pos ha, List.mem_singleton, FlatStmt.label.injEq]
        have := harrive ha
        tauto
      · rw [if_neg ha]
        have := fun h => mt (hback h) ha
        simp only [List.not_mem_nil, false_or]
        tauto

/-- The flow behind the statements of a node. -/
def Flow.exit (flow : Flow) (n : CFGNode) : Flow :=
  if n.falls.isSome then (if flow = .kept then .kept else .lost) else .cut

/-- The statements of a node share its flow. -/
theorem keptStmts_print (flow : Flow) (n : CFGNode) (hn : n.print n.takes ≠ []) (rest : List FlatStmt) :
    keptStmts targets flow (n.print n.takes ++ rest) =
      (if flow = .kept then n.print n.takes else []) ++ keptStmts targets (flow.exit n) rest := by
  have hmovs : ∀ ms : List Mov, ∀ f : Flow, f ≠ .cut →
      keptStmts targets f (ms.map Mov.stmt ++ rest) =
        (if f = .kept then ms.map Mov.stmt else []) ++ keptStmts targets f rest := by
    intro ms f hf
    induction ms with
    | nil => simp
    | cons m ms ih =>
      have hstep : ∀ st' : List FlatStmt, keptStmts targets f (m.stmt :: st') =
          (if f = .kept then [m.stmt] else []) ++ keptStmts targets f st' := by
        intro st'
        cases m <;> cases f <;> first | rfl | exact absurd rfl hf
      rw [List.map_cons, List.cons_append, hstep, ih]
      split <;> simp
  cases n with
  | mov m edge => cases m <;> cases flow <;> rfl
  | Funcking name movIntos args edge =>
    have hprint : (CFGNode.Funcking name movIntos args edge).print none =
        .callStmt name movIntos.length (args.map CFGDestroyer.translateExpr) ::
          movIntos.map Mov.stmt := List.append_nil _
    show keptStmts targets flow ((CFGNode.Funcking name movIntos args edge).print none ++ rest) =
      (if flow = .kept then (CFGNode.Funcking name movIntos args edge).print none else []) ++ _
    rw [hprint, List.cons_append, keptStmts]
    cases flow with
    | kept => exact congrArg _ (hmovs movIntos .kept nofun)
    | lost => exact hmovs movIntos .lost nofun
    | cut => exact hmovs movIntos .lost nofun
  | If cond take edge => cases flow <;> rfl
  | Start name edge => exact absurd rfl hn
  | Return rets => cases flow <;> rfl
  | Cricket dest => cases flow <;> rfl
  | NOOP => exact absurd rfl hn

end Scan

/-! ## The kept nodes -/

open CFGDestroyer

namespace CFGBuilder.Represents

variable {block : List FlatStmt} {items : List Item} {mm : MatchMaker}

/-- The flow with which control arrives at item `k`. -/
noncomputable def flowAt (mm : MatchMaker) : ℕ → Flow
  | 0 => .kept
  | k + 1 =>
    open Classical in
    if mm.fallThrough k = some (k + 1) then (if Kept mm k then .kept else .lost) else .cut

theorem targets_stmts {n : CFGNode} {st : FlatStmt} (h : st ∈ n.stmts) : st.targets = [] := by
  have hmov : ∀ m : Mov, m.stmt.targets = [] := fun m => by cases m <;> rfl
  cases n with
  | mov m edge => rw [List.mem_singleton.mp h, hmov]
  | Funcking name movIntos args edge =>
    rcases List.mem_cons.mp h with rfl | h
    · rfl
    · obtain ⟨m, -, rfl⟩ := List.mem_map.mp h
      exact hmov m
  | Return rets => rw [List.mem_singleton.mp h]; rfl
  | _ => cases h

theorem targets_jumpStmt (n : CFGNode) (l : String) : (n.jumpStmt l).targets = [l] := by
  cases n <;> rfl

/-- The statements of a node jump where the node does. -/
theorem targets_print {n : CFGNode} {st : FlatStmt} {l : String} (h : st ∈ n.print n.takes)
    (hl : l ∈ st.targets) : n.takes = some l := by
  rcases List.mem_append.mp h with h | h
  · rw [targets_stmts h] at hl
    cases hl
  · obtain ⟨l', ht, rfl⟩ := Option.map_eq_some_iff.mp (Option.mem_toList.mp h)
    rw [targets_jumpStmt, List.mem_singleton] at hl
    rw [ht, hl]

/-- The labels that are jumped to. -/
theorem mem_targets_iff (hr : Represents block items mm) (l : String) :
    l ∈ block.flatMap FlatStmt.targets ↔ ∃ it ∈ items, it.node.takes = some l := by
  constructor
  · intro h
    obtain ⟨st, hst, hl⟩ := List.mem_flatMap.mp h
    rw [hr.code] at hst
    obtain ⟨it, hit, hst⟩ := List.mem_flatMap.mp hst
    refine ⟨it, hit, ?_⟩
    rcases List.mem_append.mp hst with hst | hst
    · obtain ⟨l', -, rfl⟩ := List.mem_map.mp hst
      cases hl
    · exact targets_print hst hl
  · rintro ⟨it, hit, ht⟩
    obtain ⟨e, he, hl⟩ := mem_targets_of_takes hit ht
    rw [← hr.code] at he
    exact List.mem_flatMap.mpr ⟨_, he, hl⟩

/-- A label stands at one item only. -/
theorem label_unique (hr : Represents block items mm) {i j : ℕ} {it it' : Item} {l : String}
    (hi : items[i]? = some it) (hj : items[j]? = some it') (hl : l ∈ it.labels)
    (hl' : l ∈ it'.labels) : i = j := by
  have hpair := (List.nodup_flatMap.mp hr.nodup).2
  rw [List.pairwise_iff_getElem] at hpair
  have hne : ∀ (i j : ℕ) (it it' : Item), items[i]? = some it → items[j]? = some it' → l ∈ it.labels →
      l ∈ it'.labels → ¬ i < j := by
    intro i j it it' hi hj hl hl' hlt
    obtain ⟨hi', rfl⟩ := List.getElem?_eq_some_iff.mp hi
    obtain ⟨hj', rfl⟩ := List.getElem?_eq_some_iff.mp hj
    exact hpair i j hi' hj' hlt hl hl'
  have h1 := hne i j it it' hi hj hl hl'
  have h2 := hne j i it' it hj hi hl' hl
  omega

/-- A node is jumped to when one of its labels is. -/
theorem jumped_iff (hr : Represents block items mm) {k : ℕ} {it : Item} (hit : items[k]? = some it) :
    (∃ p, mm.jumpingTo p = some k) ↔ ∃ l ∈ it.labels, l ∈ block.flatMap FlatStmt.targets := by
  constructor
  · rintro ⟨p, hp⟩
    obtain ⟨itp, l, it', hitp, ht, hit', hl⟩ := hr.jump_some hp
    rw [hit, Option.some.injEq] at hit'
    subst hit'
    exact ⟨l, hl, (hr.mem_targets_iff l).mpr ⟨itp, List.mem_of_getElem? hitp, ht⟩⟩
  · rintro ⟨l, hl, hmem⟩
    obtain ⟨itp, hitp, ht⟩ := (hr.mem_targets_iff l).mp hmem
    obtain ⟨p, hp⟩ := List.getElem?_of_mem hitp
    obtain ⟨j, it', hj, hit', hl'⟩ := hr.jump p itp l hp ht
    rw [hr.label_unique hit hit' hl hl']
    exact ⟨p, hj⟩

/-- Control is on a chain behind the labels of a node exactly when the node is. -/
theorem enter_flowAt (hr : Represents block items mm) {k : ℕ} {it : Item}
    (hit : items[k]? = some it) :
    (flowAt mm k).enter (block.flatMap FlatStmt.targets) it.labels = .kept ↔ Kept mm k := by
  cases k with
  | zero =>
    have hzero : Kept mm 0 := .head (.inl rfl)
    simp [flowAt, Flow.enter, hzero]
  | succ k =>
    have hfalls : ∀ p, mm.fallThrough p = some (k + 1) → p = k := by
      intro p hp
      have := (hr.fall_succ hp).1
      omega
    by_cases hfall : mm.fallThrough k = some (k + 1)
    · have hiff : Kept mm (k + 1) ↔ Kept mm k := by
        constructor
        · rintro (⟨hzero | ⟨-, hno⟩⟩ | ⟨hkept, hp⟩)
          · cases hzero
          · exact absurd hfall (hno k)
          · exact hfalls _ hp ▸ hkept
        · exact fun hkept => .next hkept hfall
      rw [flowAt, if_pos hfall, hiff]
      by_cases hkept : Kept mm k
      · simp [Flow.enter, hkept]
      · simp [Flow.enter, hkept]
    · have hno : ∀ p, mm.fallThrough p ≠ some (k + 1) := fun p hp => hfall (hfalls p hp ▸ hp)
      have hiff : Kept mm (k + 1) ↔ ∃ p, mm.jumpingTo p = some (k + 1) := by
        constructor
        · rintro (⟨hzero | ⟨hjump, -⟩⟩ | ⟨-, hp⟩)
          · cases hzero
          · exact hjump
          · exact absurd hp (hno _)
        · exact fun hjump => .head (.inr ⟨hjump, hno⟩)
      rw [flowAt, if_neg hfall, hiff, hr.jumped_iff hit]
      simp [Flow.enter]

theorem exit_flowAt (hr : Represents block items mm) {k : ℕ} {it : Item}
    (hit : items[k]? = some it) (hk : k + 1 < items.length) :
    ((flowAt mm k).enter (block.flatMap FlatStmt.targets) it.labels).exit it.node =
      flowAt mm (k + 1) := by
  have hfall : mm.fallThrough k = some (k + 1) ↔ it.node.falls.isSome := by
    rw [hr.fall, hit, Option.bind_some]
    by_cases hf : it.node.falls.isSome
    · simp [hf, hk]
    · simp [hf]
  have henter := hr.enter_flowAt hit
  rw [Flow.exit, flowAt]
  by_cases hf : it.node.falls.isSome
  · rw [if_pos hf, if_pos (hfall.mpr hf)]
    by_cases hkept : Kept mm k
    · rw [if_pos (henter.mpr hkept), if_pos hkept]
    · rw [if_neg (mt henter.mp hkept), if_neg hkept]
  · rw [if_neg hf, if_neg (mt hfall.mp hf)]

/-- The scan from item `k` on keeps the jumps and the labels of the kept nodes. -/
theorem scan (hr : Represents block items mm) {k : ℕ} (hk : 0 < k) :
    let targets := block.flatMap FlatStmt.targets
    let kept := keptStmts targets (flowAt mm k) ((items.drop k).flatMap Item.code)
    (∀ st ∈ kept, ∀ l ∈ st.targets,
      ∃ i it, items[i]? = some it ∧ Kept mm i ∧ it.node.takes = some l) ∧
    (∀ i it l, k ≤ i → items[i]? = some it → Kept mm i → it.node.takes = some l →
      ∃ st ∈ kept, l ∈ st.targets) ∧
    ∀ l ∈ targets, (FlatStmt.label l ∈ kept ↔
      ∃ i it, k ≤ i ∧ items[i]? = some it ∧ Kept mm i ∧ l ∈ it.labels) := by
  intro targets
  generalize hn : items.length - k = n
  induction n generalizing k with
  | zero =>
    have hdrop : items.drop k = [] := List.drop_eq_nil_iff.mpr (by omega)
    have hout : ∀ i it, k ≤ i → items[i]? ≠ some it := by
      intro i it hi hit
      have := (List.getElem?_eq_some_iff.mp hit).1
      omega
    rw [hdrop]
    refine ⟨by simp [keptStmts], fun i it l hi hit => absurd hit (hout i it hi), fun l hl => ?_⟩
    constructor
    · intro h
      cases h
    · rintro ⟨i, it, hi, hit, -⟩
      exact absurd hit (hout i it hi)
  | succ n ih =>
    have hlt : k < items.length := by omega
    obtain ⟨it, hit⟩ : ∃ it, items[k]? = some it := ⟨_, List.getElem?_eq_getElem hlt⟩
    have hdrop : items.drop k = it :: items.drop (k + 1) := by
      obtain ⟨hk', rfl⟩ := List.getElem?_eq_some_iff.mp hit
      exact List.drop_eq_getElem_cons hk'
    have hprint : it.node.print it.node.takes ≠ [] := by
      obtain ⟨k, rfl⟩ := Nat.exists_eq_add_of_lt hk
      exact hr.kinds _ it (by simpa using hit)
    obtain ⟨front, hfront, htargets, hlabels⟩ := keptStmts_labels targets (flowAt mm k) it.labels
      (it.node.print it.node.takes ++ (items.drop (k + 1)).flatMap Item.code)
    have henter := hr.enter_flowAt hit
    -- behind the last item the flow does not matter
    have hrest : keptStmts targets (((flowAt mm k).enter targets it.labels).exit it.node)
        ((items.drop (k + 1)).flatMap Item.code) =
        keptStmts targets (flowAt mm (k + 1)) ((items.drop (k + 1)).flatMap Item.code) := by
      by_cases hk' : k + 1 < items.length
      · rw [hr.exit_flowAt hit hk']
      · rw [List.drop_eq_nil_iff.mpr (by omega)]
        rfl
    rw [keptStmts_print _ _ _ hprint, hrest] at hfront
    obtain ⟨ih₁, ih₂, ih₃⟩ := ih (Nat.succ_pos k) (by omega)
    rw [hdrop, List.flatMap_cons, Item.code, List.append_assoc, hfront]
    refine ⟨?_, ?_, ?_⟩
    · intro st hst l hl
      rcases List.mem_append.mp hst with hst | hst
      · rw [htargets st hst] at hl
        cases hl
      · rcases List.mem_append.mp hst with hst | hst
        · split at hst
          · rename_i hflow
            exact ⟨k, it, hit, henter.mp hflow, targets_print hst hl⟩
          · cases hst
        · exact ih₁ st hst l hl
    · intro i it' l hi hit' hkept ht
      rcases Nat.eq_or_lt_of_le hi with rfl | hlt
      · rw [hit, Option.some.injEq] at hit'
        subst hit'
        refine ⟨it.node.jumpStmt l, ?_, by rw [targets_jumpStmt]; exact List.mem_singleton_self l⟩
        apply List.mem_append_right
        apply List.mem_append_left
        rw [if_pos (henter.mpr hkept), CFGNode.print, ht]
        exact List.mem_append_right _ (by simp)
      · obtain ⟨st, hst, hl⟩ := ih₂ i it' l hlt hit' hkept ht
        exact ⟨st, List.mem_append_right _ (List.mem_append_right _ hst), hl⟩
    · intro l hl
      have hnot : FlatStmt.label l ∉ (if (flowAt mm k).enter targets it.labels = .kept then
          it.node.print it.node.takes else []) := by
        intro hmem
        split at hmem
        · have hlabel := mem_labels.mpr hmem
          rw [labels_print] at hlabel
          cases hlabel
        · cases hmem
      rw [List.mem_append, List.mem_append, hlabels l hl, ih₃ l hl]
      constructor
      · rintro (⟨hkept, hmem⟩ | hmem | ⟨i, it', hi, h⟩)
        · exact ⟨k, it, le_rfl, hit, henter.mp hkept, hmem⟩
        · exact absurd hmem hnot
        · exact ⟨i, it', by omega, h⟩
      · rintro ⟨i, it', hi, hit', hkept, hmem⟩
        rcases Nat.eq_or_lt_of_le hi with rfl | hlt
        · rw [hit, Option.some.injEq] at hit'
          subst hit'
          exact .inl ⟨henter.mpr hkept, hmem⟩
        · exact .inr (.inr ⟨i, it', hlt, hit', hkept, hmem⟩)

/-- Jumps on chains lead to chains, in the body as in the graph. -/
theorem jumpsKept_iff (hr : Represents block items mm) :
    JumpsKept block ↔ ∀ i j, Kept mm i → mm.jumpingTo i = some j → Kept mm j := by
  have hzero : ∃ name edge, items[0]? = some ⟨[], .Start name edge⟩ := hr.start
  obtain ⟨name, edge, hstart⟩ := hzero
  have hblock : block = (items.drop 1).flatMap Item.code := by
    have hdrop : items = ⟨[], .Start name edge⟩ :: items.drop 1 := by
      obtain ⟨hlt, hget⟩ := List.getElem?_eq_some_iff.mp hstart
      rw [← hget]
      exact List.drop_eq_getElem_cons hlt
    have hcode := hr.code
    rw [hdrop, List.flatMap_cons] at hcode
    exact hcode
  -- The start node stands for no statement, so the walk over the body begins at the item behind it.
  have hflow : keptStmts (block.flatMap FlatStmt.targets) .kept block =
      keptStmts (block.flatMap FlatStmt.targets) (flowAt mm 1)
        ((items.drop 1).flatMap Item.code) := by
    rw [← hblock]
    by_cases hlen : 1 < items.length
    · have hfall : mm.fallThrough 0 = some 1 := by
        rw [hr.fall, hstart, Option.bind_some, if_pos ⟨rfl, hlen⟩]
      rw [flowAt, if_pos hfall, if_pos (.head (.inl rfl))]
    · rw [hblock, List.drop_eq_nil_iff.mpr (by omega)]
      rfl
  obtain ⟨hjumps, hjumps', hlabels⟩ := hr.scan Nat.one_pos
  rw [JumpsKept, hflow]
  constructor
  · intro hkept i j hi hij
    obtain ⟨it, l, it', hit, ht, hit', hl⟩ := hr.jump_some hij
    have hpos : 1 ≤ i := by
      rcases Nat.eq_zero_or_pos i with rfl | hpos
      · rw [hstart, Option.some.injEq] at hit
        subst hit
        cases ht
      · exact hpos
    obtain ⟨st, hst, hlst⟩ := hjumps' i it l hpos hit hi ht
    have htarget := (hr.mem_targets_iff l).mpr ⟨it, List.mem_of_getElem? hit, ht⟩
    obtain ⟨j', it'', -, hit'', hj', hl'⟩ := (hlabels l htarget).mp (hkept st hst l hlst)
    rw [hr.label_unique hit' hit'' hl hl']
    exact hj'
  · intro hclosed st hst l hl
    obtain ⟨i, it, hit, hi, ht⟩ := hjumps st hst l hl
    obtain ⟨j, it', hij, hit', hl'⟩ := hr.jump i it l hit ht
    have htarget := (hr.mem_targets_iff l).mpr ⟨it, List.mem_of_getElem? hit, ht⟩
    have hpos : 1 ≤ j := by
      rcases Nat.eq_zero_or_pos j with rfl | hpos
      · exact absurd hij (hr.jump_ne_zero i)
      · exact hpos
    exact (hlabels l htarget).mpr ⟨j, it', hpos, hit', hclosed i j hi hij, hl'⟩

end CFGBuilder.Represents

end Jaek
