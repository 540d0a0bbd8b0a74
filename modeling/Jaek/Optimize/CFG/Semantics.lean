import Jaek.Optimize.CFG.RoundTrip

/-!
# The meaning of a graph

A run over a graph executes the statements of a node one by one and then leaves along one of its edges.
`lts_traces_eq` says that the builder's graph means what the body means.
-/

namespace Jaek

variable {M : Type*}

/-- A point in a run over a graph: the statements left of the node, or the end of the function. -/
inductive NodeConfig (M : Type*)
  | inside (node : ℕ) (rest : List FlatStmt) (s : Store M)
  | returned

/-- Whether control leaves the node by its jump; `none` when the guard traps or the function ends. -/
def CFGNode.leaves (S : Storage M) (s : Store M) : CFGNode → Option Bool
  | If cond _ _ => ((CFGDestroyer.translateExpr cond).eval S s).map fun v => decide (v ≠ 0)
  | Cricket _ => some true
  | NOOP => some true
  | Return _ => none
  | mov _ _ => some false
  | Funcking _ _ _ _ => some false
  | Start _ _ => some false

namespace MatchMaker

/-- The statements of a node of the graph. -/
def stmtsAt (mm : MatchMaker) (n : ℕ) : List FlatStmt := (mm.nodes[n]?.map CFGNode.stmts).getD []

/-- The edge by which a node is left: the jump, the fall-through, or none after a trap. -/
def leavesAt (mm : MatchMaker) (S : Storage M) (s : Store M) (n : ℕ) : Option Bool :=
  mm.nodes[n]?.bind (CFGNode.leaves S s)

/-- The point where control enters a node. -/
def entry (mm : MatchMaker) (n : ℕ) (s : Store M) : NodeConfig M := .inside n (mm.stmtsAt n) s

/-- One step over a graph. -/
inductive Step (S : Storage M) (mm : MatchMaker) :
    NodeConfig M → Option (Event M) → NodeConfig M → Prop
  | exec {n : ℕ} {st : FlatStmt} {rest : List FlatStmt} {s s' : Store M} {e : Event M} :
      Exec S st s e s' → Step S mm (.inside n (st :: rest) s) (some e) (.inside n rest s')
  | ret {n : ℕ} {vals : List LIRExpr} {rest : List FlatStmt} {s : Store M} {vs : List Word} :
      evalList S s vals = some vs →
      Step S mm (.inside n (.endBlock (.ret vals) :: rest) s) (some (.ret vs)) .returned
  | leave {n m : ℕ} {jump : Bool} {s : Store M} :
      mm.leavesAt S s n = some jump → mm.Edge n jump m →
      Step S mm (.inside n [] s) none (mm.entry m s)

/-- The behaviour of a graph. -/
def lts (mm : MatchMaker) (S : Storage M) : Lts (NodeConfig M) (Event M) := ⟨Step S mm⟩

end MatchMaker

/-! ## The graph of a body means what the body means -/

namespace CFGBuilder.Represents

open MatchMaker

variable {S : Storage M} {block : List FlatStmt} {items : List Item} {mm : MatchMaker}

/-- A node has the statements of its item. -/
theorem stmtsAt_graph (hr : Represents block items mm) (n : ℕ) : mm.stmtsAt n = stmtsAt items n := by
  rw [MatchMaker.stmtsAt, hr.nodes, List.getElem?_map, stmtsAt]
  cases items[n]? <;> rfl

/-- The same point in the body and in its graph: inside a node up to labels, or behind the last node. -/
inductive Same (S : Storage M) (items : List Item) (mm : MatchMaker) : Config M → NodeConfig M → Prop
  | inside {n : ℕ} {it : Item} {rest : List FlatStmt} {s : Store M} (hit : items[n]? = some it)
      (hplain : ∀ st ∈ rest, st.Plain)
      (hstop : ∀ rets, it.node = .Return rets → ∃ vals, rest = [.endBlock (.ret vals)])
      (ls : List String) :
      Same S items mm (.running (ls.map .label ++ (rest ++ bodyTail items n)) s) (.inside n rest s)
  | off {n : ℕ} {s : Store M} (hend : ∀ jump m, mm.leavesAt S s n = some jump → ¬ mm.Edge n jump m) :
      Same S items mm (.running [] s) (.inside n [] s)
  | returned : Same S items mm .returned .returned

/-- A place of the text in front of an item, and the entry of its node. -/
theorem same_entry (hr : Represents block items mm) {p : List FlatStmt} {n : ℕ} {it : Item} (s : Store M)
    (hit : items[n]? = some it) (h : Arrives p (stmtsAt items n ++ bodyTail items n)) :
    Same S items mm (.running p s) (mm.entry n s) := by
  obtain ⟨ls, rfl⟩ := h
  have hstmts : stmtsAt items n = it.node.stmts := by
    rw [stmtsAt, hit]
  rw [entry, hr.stmtsAt_graph, hstmts]
  refine .inside hit (fun st hst => stmts_plain hst) (fun rets hret => ?_) ls
  rw [hret]
  exact ⟨_, rfl⟩

/-- The node of an item. -/
theorem node_eq (hr : Represents block items mm) {n : ℕ} {it : Item} (hit : items[n]? = some it) :
    mm.nodes[n]? = some it.node := by
  rw [hr.nodes, List.getElem?_map, hit, Option.map_some]

/-- It is left as its item says. -/
theorem leavesAt_eq (hr : Represents block items mm) {n : ℕ} {it : Item} (hit : items[n]? = some it)
    (s : Store M) : mm.leavesAt S s n = it.node.leaves S s := by
  rw [leavesAt, hr.node_eq hit, Option.bind_some]

/-- An item that can jump ends with its jump. -/
theorem bodyTail_takes {n : ℕ} {it : Item} {l : String} (hit : items[n]? = some it)
    (ht : it.node.takes = some l) :
    bodyTail items n = it.node.jumpStmt l :: (items.drop (n + 1)).flatMap Item.code := by
  rw [bodyTail, hit]
  simp only [ht]
  rfl

/-- Another one goes on with the next item. -/
theorem bodyTail_falls {n : ℕ} {it : Item} (hit : items[n]? = some it) (ht : it.node.takes = none) :
    bodyTail items n = (items.drop (n + 1)).flatMap Item.code := by
  rw [bodyTail, hit]
  simp only [ht]
  rfl

/-- Behind a node that control cannot fall out of nothing is left of the body. -/
theorem drop_eq_nil (hr : Represents block items mm) {n : ℕ} {it : Item} (hit : items[n]? = some it)
    (hfalls : it.node.falls.isSome) (hnone : mm.fallThrough n = none) : items.drop (n + 1) = [] := by
  rw [hr.fall, hit, Option.bind_some] at hnone
  split at hnone
  · cases hnone
  · rename_i hcond
    rw [List.drop_eq_nil_iff]
    by_contra hlt
    exact hcond ⟨hfalls, by omega⟩

/-- No edge leads to the start node. -/
theorem noInto_start (hr : Represents block items mm) (p : ℕ) (jump : Bool) : ¬ mm.Edge p jump 0 := by
  intro hedge
  cases jump with
  | false =>
    have hfall : mm.fallThrough p = some 0 := hedge
    exact Nat.succ_ne_zero p (hr.fall_succ hfall).1.symm
  | true =>
    have hjump : mm.jumpingTo p = some 0 := hedge
    obtain ⟨name, edge, hzero⟩ := hr.start
    cases htakes : items[p]?.bind (·.node.takes) with
    | none =>
      rw [hr.noJump p htakes] at hjump
      cases hjump
    | some l =>
      obtain ⟨it, hit, htake⟩ := Option.bind_eq_some_iff.mp htakes
      obtain ⟨m, it', hjump', hit', hl⟩ := hr.jump p it l hit htake
      cases hjump.symm.trans hjump'
      cases hzero.symm.trans hit'
      cases hl

/-- Where a jump of the body leads is where the edge leads. -/
theorem jump_arrives (hr : Represents block items mm) {n : ℕ} {it : Item} {l : String}
    (hit : items[n]? = some it) (ht : it.node.takes = some l) :
    ∃ m it' rest, mm.Edge n true m ∧ items[m]? = some it' ∧ findLabel block l = some rest ∧
      Arrives rest (stmtsAt items m ++ bodyTail items m) := by
  obtain ⟨m, it', hjump, hit', hl⟩ := hr.jump n it l hit ht
  obtain ⟨rest, hfind, harrive⟩ := hr.findLabel_block hit' hl
  exact ⟨m, it', rest, hjump, hit', hfind, harrive⟩

/-- A node that control falls out of without a jump. -/
theorem falls_of_takes (hr : Represents block items mm) {n : ℕ} {it : Item} (hit : items[n]? = some it)
    (ht : it.node.takes = none) (hret : ∀ rets, it.node ≠ .Return rets) (s : Store M) :
    it.node.falls.isSome ∧ it.node.leaves S s = some false := by
  obtain ⟨ls, node⟩ := it
  cases node with
  | NOOP =>
    cases n with
    | zero =>
      obtain ⟨name, edge, hstart⟩ := hr.start
      rw [hstart] at hit
      cases hit
    | succ n => exact absurd rfl (hr.kinds n _ hit)
  | Return rets => exact absurd rfl (hret rets)
  | If cond take edge => cases ht
  | Cricket dest => cases ht
  | mov m edge => exact ⟨rfl, rfl⟩
  | Funcking name movIntos args edge => exact ⟨rfl, rfl⟩
  | Start name edge => exact ⟨rfl, rfl⟩

/-- A jump of the body is matched by an edge of the graph. -/
theorem match_jump (hr : Represents block items mm) {n : ℕ} {it : Item} {l : String} {s : Store M}
    {a : Option (Event M)} {c : Config M} (hit : items[n]? = some it) (ht : it.node.takes = some l)
    (hstep : (flat S block).step (.running (bodyTail items n) s) a c) :
    ∃ g, (mm.lts S).Run (.inside n [] s) a.toList g ∧ Same S items mm c g := by
  obtain ⟨m, it', rest, hjump, hit', hfind, harrive⟩ := hr.jump_arrives hit ht
  have hleaves := hr.leavesAt_eq (S := S) hit s
  rw [bodyTail_takes hit ht] at hstep
  obtain ⟨ls, node⟩ := it
  -- only an `If` and a `Cricket` jump; the former may also fall through
  cases node with
  | If cond take edge =>
    cases ht
    cases hstep with
    | exec he => exact he.ne_endBlock.elim
    | control hnext hgoto =>
      obtain ⟨v, hv, rfl⟩ := Option.map_eq_some_iff.mp hnext
      rw [CFGNode.leaves, hv, Option.map_some] at hleaves
      by_cases hzero : v = 0
      · rw [if_neg (not_not.mpr hzero)] at hgoto
        rw [decide_eq_false (not_not.mpr hzero)] at hleaves
        cases hgoto
        cases hfall : mm.fallThrough n with
        | some k =>
          have hk := (hr.fall_succ hfall).2
          exact ⟨_, .single (.leave hleaves hfall), hr.same_entry s (List.getElem?_eq_getElem hk)
            (hr.arrives_next hfall)⟩
        | none =>
          rw [hr.drop_eq_nil hit rfl hfall]
          refine ⟨_, .refl _, .off fun jump k hleaves' hedge => ?_⟩
          rw [hleaves] at hleaves'
          cases hleaves'
          cases hfall.symm.trans hedge
      · rw [if_pos hzero] at hgoto
        rw [decide_eq_true hzero] at hleaves
        cases hfind.symm.trans hgoto
        exact ⟨_, .single (.leave hleaves hjump), hr.same_entry s hit' harrive⟩
  | Cricket dest =>
    cases ht
    cases hstep with
    | exec he => exact he.ne_endBlock.elim
    | control hnext hgoto =>
      cases hnext
      cases hfind.symm.trans hgoto
      exact ⟨_, .single (.leave hleaves hjump), hr.same_entry s hit' harrive⟩
  | mov m edge => cases ht
  | Funcking name movIntos args edge => cases ht
  | Start name edge => cases ht
  | Return rets => cases ht
  | NOOP => cases ht

/-- A step of the body in front of a label, a statement or a jump is matched in the graph. -/
theorem match_front (hr : Represents block items mm) {n : ℕ} {it : Item} {rest : List FlatStmt}
    {s : Store M} {ls : List String} {a : Option (Event M)} {c : Config M} (hit : items[n]? = some it)
    (hplain : ∀ st ∈ rest, st.Plain)
    (hstop : ∀ rets, it.node = .Return rets → ∃ vals, rest = [.endBlock (.ret vals)])
    (hfront : ls = [] → rest = [] → it.node.takes ≠ none)
    (hstep : (flat S block).step (.running (ls.map .label ++ (rest ++ bodyTail items n)) s) a c) :
    ∃ g, (mm.lts S).Run (.inside n rest s) a.toList g ∧ Same S items mm c g := by
  cases ls with
  | cons l ls =>
    cases hstep with
    | exec he => exact he.ne_label.elim
    | label => exact ⟨_, .refl _, .inside hit hplain hstop ls⟩
  | nil =>
    cases rest with
    | nil =>
      obtain ⟨l, ht⟩ := Option.ne_none_iff_exists'.mp (hfront rfl rfl)
      exact hr.match_jump hit ht hstep
    | cons st rest =>
      have hst := hplain st (by simp)
      have hrest : ∀ st' ∈ rest, st'.Plain := fun st' h => hplain st' (List.mem_cons_of_mem _ h)
      cases hstep with
      | exec he =>
        refine ⟨_, .single (.exec he), .inside hit hrest (fun rets hret => ?_) []⟩
        obtain ⟨vals, hvals⟩ := hstop rets hret
        cases hvals
        exact he.ne_endBlock.elim
      | label => exact hst.elim
      | control hnext _ => simp [hst.next_eq_none] at hnext
      | ret hv => exact ⟨_, .single (.ret hv), .returned⟩

/-- Every step of the body is matched in the graph. -/
theorem match_flat (hr : Represents block items mm) :
    Lts.IsSimulation (flat S block) (mm.lts S) (Same S items mm) := by
  intro c g a c' hsame hstep
  cases hsame with
  | returned => cases hstep
  | off hend => cases hstep
  | @inside n it rest s hit hplain hstop ls =>
    by_cases hfront : ls = [] → rest = [] → it.node.takes ≠ none
    · exact hr.match_front hit hplain hstop hfront hstep
    · push Not at hfront
      obtain ⟨rfl, rfl, ht⟩ := hfront
      have hret : ∀ rets, it.node ≠ .Return rets := by
        intro rets hret
        obtain ⟨vals, hvals⟩ := hstop rets hret
        cases hvals
      obtain ⟨hfalls, hleaves⟩ := hr.falls_of_takes (S := S) hit ht hret s
      rw [List.map_nil, List.nil_append, List.nil_append, bodyTail_falls hit ht] at hstep
      cases hfall : mm.fallThrough n with
      | none =>
        rw [hr.drop_eq_nil hit hfalls hfall] at hstep
        cases hstep
      | some m =>
        -- the graph first goes to the node that follows, which has statements or a jump
        obtain ⟨rfl, hm⟩ := hr.fall_succ hfall
        have hnext := List.getElem?_eq_getElem hm
        rw [drop_code hnext] at hstep
        have hstmts : stmtsAt items (n + 1) = (items[n + 1]).node.stmts := by
          rw [stmtsAt, hnext]
        have hleave : (mm.lts S).step (.inside n [] s) none (mm.entry (n + 1) s) :=
          .leave ((hr.leavesAt_eq hit s).trans hleaves) hfall
        rw [entry, hr.stmtsAt_graph] at hleave
        have hplain : ∀ st ∈ stmtsAt items (n + 1), st.Plain := fun st hst => stmts_plain (hstmts ▸ hst)
        have hstop : ∀ rets, (items[n + 1]).node = .Return rets →
            ∃ vals, stmtsAt items (n + 1) = [.endBlock (.ret vals)] := by
          intro rets hret
          rw [hstmts, hret]
          exact ⟨_, rfl⟩
        have hfront : stmtsAt items (n + 1) = [] → (items[n + 1]).node.takes ≠ none := by
          intro hnil ht'
          apply hr.kinds n _ hnext
          rw [CFGNode.print, ht', ← hstmts, hnil]
          rfl
        obtain ⟨g, hrun, hsame⟩ := hr.match_front hnext hplain hstop (fun _ => hfront) hstep
        exact ⟨g, .silent hleave hrun, hsame⟩

/-- One step as a run. -/
theorem run_step {c c' : Config M} {a : Option (Event M)} (h : FlatStep S block c a c') :
    (flat S block).Run c a.toList c' := .single h

/-- Every step over the graph is matched in the body. -/
theorem match_node (hr : Represents block items mm) :
    Lts.IsSimulation (mm.lts S) (flat S block) (fun g c => Same S items mm c g) := by
  intro g c a g' hsame hstep
  cases hsame with
  | returned => cases hstep
  | off hend =>
    cases hstep with
    | leave hleaves hedge => exact absurd hedge (hend _ _ hleaves)
  | @inside n it rest s hit hplain hstop ls =>
    -- The text may have labels in front of what is left of the node, which take silent steps.
    have hlabels : (flat S block).Run (.running (ls.map .label ++ (rest ++ bodyTail items n)) s) []
        (.running (rest ++ bodyTail items n) s) := Printing.run_labels ls _ s
    cases hstep with
    | exec he =>
      rename_i st rest s' e
      have hrest : ∀ st' ∈ rest, st'.Plain := fun st' h => hplain st' (List.mem_cons_of_mem _ h)
      refine ⟨_, hlabels.trans (run_step (.exec he)), .inside hit hrest (fun rets hret => ?_) []⟩
      obtain ⟨vals, hvals⟩ := hstop rets hret
      cases hvals
      exact he.ne_endBlock.elim
    | ret hv => exact ⟨_, hlabels.trans (run_step (.ret hv)), .returned⟩
    | @leave _ m jump _ hleaves hedge =>
      rw [hr.leavesAt_eq hit] at hleaves
      rw [List.nil_append] at hlabels
      -- A node without a jump falls through, one with a jump takes the edge its guard says.
      cases ht : it.node.takes with
      | none =>
        have hret : ∀ rets, it.node ≠ .Return rets := by
          intro rets hret
          obtain ⟨vals, hvals⟩ := hstop rets hret
          cases hvals
        cases (hr.falls_of_takes hit ht hret s).2.symm.trans hleaves
        have hm := (hr.fall_succ hedge).2
        refine ⟨_, hlabels, hr.same_entry s (List.getElem?_eq_getElem hm) ?_⟩
        rw [bodyTail_falls hit ht]
        exact hr.arrives_next hedge
      | some l =>
        obtain ⟨m', it', rest, hjump, hit', hfind, harrive⟩ := hr.jump_arrives hit ht
        rw [bodyTail_takes hit ht] at hlabels ⊢
        obtain ⟨ls', node⟩ := it
        cases node with
        | If cond take edge =>
          cases ht
          obtain ⟨v, hv, rfl⟩ := Option.map_eq_some_iff.mp hleaves
          by_cases hzero : v = 0
          · subst hzero
            have hfall : mm.fallThrough n = some m := hedge
            have hm := (hr.fall_succ hfall).2
            exact ⟨_, hlabels.trans (run_step (.control (EndBlock.next_trueJump_of_zero hv l) rfl)),
              hr.same_entry s (List.getElem?_eq_getElem hm) (hr.arrives_next hfall)⟩
          · rw [decide_eq_true hzero] at hedge
            cases Option.some.inj (hjump.symm.trans hedge)
            exact ⟨_, hlabels.trans (run_step (.control (EndBlock.next_trueJump_of_ne hv hzero l) hfind)),
              hr.same_entry s hit' harrive⟩
        | Cricket dest =>
          cases ht
          cases hleaves
          cases Option.some.inj (hjump.symm.trans hedge)
          have hgoto : goto block ((items.drop (n + 1)).flatMap Item.code) (some l) = some rest := hfind
          exact ⟨_, hlabels.trans (run_step (.control rfl hgoto)), hr.same_entry s hit' harrive⟩
        | mov m edge => cases ht
        | Funcking name movIntos args edge => cases ht
        | Start name edge => cases ht
        | Return rets => cases ht
        | NOOP => cases ht

end CFGBuilder.Represents

/-- The graph of a body behaves like the body. -/
theorem lts_traces_eq {S : Storage M} {name : String} {block : List FlatStmt} {cfg : CFG}
    (hok : CFGBuilder.BodyOk block) (h : CFGBuilder.build name block = some cfg) (s : Store M) :
    (cfg.mm.lts S).traces (cfg.mm.entry cfg.start s) = (flat S block).traces (.running block s) := by
  obtain ⟨hstart, items, hr⟩ := CFGBuilder.build_spec hok h
  obtain ⟨fname, edge, hzero⟩ := hr.start
  have harrive : Arrives block (CFGBuilder.Represents.stmtsAt items 0 ++
      CFGBuilder.Represents.bodyTail items 0) := by
    refine ⟨[], ?_⟩
    have hcode := CFGBuilder.Represents.drop_code hzero
    rw [List.drop_zero, ← hr.code] at hcode
    exact hcode
  have hsame := hr.same_entry (S := S) s hzero harrive
  rw [hstart]
  exact Lts.IsBisimulation.traces_eq ⟨hr.match_node, hr.match_flat⟩ hsame

/-! ## Moves to memory have an address -/

/-- A move to memory has an address. -/
def Mov.Addressed : Mov → Prop
  | Gets _ _ => True
  | Mem loc _ => ∃ address, loc = .Mem address

/-- A node stores to an address, not to a label. -/
def CFGNode.Addressed : CFGNode → Prop
  | mov m _ => m.Addressed
  | Funcking _ movIntos _ _ => ∀ m ∈ movIntos, m.Addressed
  | _ => True

namespace CFGBuilder

/-- A move of the builder does. -/
theorem translateMove_addressed {dest expr : LIRExpr} {b : CFGBuilder} {m : Mov} {p : String × CFGBuilder}
    (h : b.translateMove dest expr = some (m, p)) : m.Addressed := by
  unfold translateMove at h
  split at h
  · cases h
    trivial
  · cases h
    exact ⟨_, rfl⟩
  · cases h

/-- So do the moves behind a call. -/
theorem takeMoves_addressed {n : ℕ} {statements rest : List FlatStmt} {b b' : CFGBuilder} {ms : List Mov}
    (h : takeMoves n statements b = some (ms, rest, b')) : ∀ m ∈ ms, m.Addressed := by
  fun_induction takeMoves n statements b generalizing ms with
  | case1 =>
    cases h
    exact fun m hm => absurd hm List.not_mem_nil
  | case2 n dest expr statements b ih =>
    obtain ⟨⟨m, p⟩, hmove, hrest⟩ := Option.bind_eq_some_iff.mp h
    obtain ⟨⟨ms', rest', b₁⟩, htake, heq⟩ := Option.bind_eq_some_iff.mp hrest
    cases heq
    intro m' hm'
    rcases List.mem_cons.mp hm' with rfl | hm'
    · exact translateMove_addressed hmove
    · exact ih _ htake m' hm'
  | case3 => cases h

/-- So does the node of a statement. -/
theorem createNode_addressed {currStmt : FlatStmt} {statements rest : List FlatStmt} {b b' : CFGBuilder}
    {n : CFGNode} (h : createNode currStmt statements b = some (n, rest, b')) : n.Addressed := by
  unfold createNode at h
  split at h
  · cases h
  · cases h
    trivial
  · cases h
    trivial
  · cases h
    trivial
  · obtain ⟨⟨ms, rest', b₁⟩, htake, h⟩ := Option.bind_eq_some_iff.mp h
    cases h
    exact takeMoves_addressed htake
  · cases h
  · obtain ⟨⟨m, p⟩, hmove, h⟩ := Option.bind_eq_some_iff.mp h
    cases h
    exact translateMove_addressed hmove

/-- So do all nodes of the loop, by induction over the statements. -/
theorem loop_addressed {statements : List FlatStmt} {ls : List String} {b b' : CFGBuilder}
    (h : loop statements ls b = some b') (hb : ∀ n ∈ b.nodes, n.Addressed) :
    ∀ n ∈ b'.nodes, n.Addressed := by
  fun_induction loop statements ls b with
  | case1 =>
    cases h
    exact hb
  | case2 => cases h
  | case3 ls b l statements ih => exact ih h hb
  | case4 => cases h
  | case5 ls b currStmt statements hlabel n rest b₁ hnode hlen ih =>
    refine ih h fun m hm => ?_
    obtain ⟨-, -, hkeeps, -⟩ := createNode_spec hnode
    have hm : m ∈ b₁.nodes ++ [n] := hm
    rw [hkeeps.nodes, List.mem_append, List.mem_singleton] at hm
    rcases hm with hm | rfl
    · exact hb m hm
    · exact createNode_addressed hnode

/-- Resolving edges adds dummies only. -/
theorem mem_nodes_connect {mm mm' : MatchMaker} {source dest : ℕ} {jump : Bool}
    (h : mm.connect source dest jump = some mm') : ∀ n ∈ mm'.nodes, n ∈ mm.nodes ∨ n = .NOOP := by
  intro n hn
  unfold MatchMaker.connect at h
  split at h
  · obtain ⟨mm₁, hlink, h⟩ := Option.bind_eq_some_iff.mp h
    rw [(MatchMaker.link_eq h).1, (MatchMaker.link_eq hlink).1] at hn
    simpa using hn
  · rw [(MatchMaker.link_eq h).1] at hn
    exact .inl hn

/-- Linking adds no node but the `NOOP`s. -/
theorem mem_nodes_resolveAll {targets : LinkedMap String ℕ} {i : ℕ} {nodes : List CFGNode}
    {mm mm' : MatchMaker} (h : resolveAll targets i nodes mm = some mm') :
    ∀ n ∈ mm'.nodes, n ∈ mm.nodes ∨ n = .NOOP := by
  have hbuild : ∀ {mm mm' : MatchMaker} {source : ℕ} {dest : String} {jump : Bool},
      mm.build targets source dest jump = some mm' → ∀ n ∈ mm'.nodes, n ∈ mm.nodes ∨ n = .NOOP := by
    intro mm mm' source dest jump h
    unfold MatchMaker.build at h
    split at h
    · exact mem_nodes_connect h
    · cases h
      exact fun n hn => .inl hn
  induction nodes generalizing i mm with
  | nil =>
    cases h
    exact fun n hn => .inl hn
  | cons node nodes ih =>
    obtain ⟨mm₁, hresolve, hrest⟩ := Option.bind_eq_some_iff.mp h
    have hnode : ∀ n ∈ mm₁.nodes, n ∈ mm.nodes ∨ n = .NOOP := by
      cases node with
      | If cond take edge =>
        obtain ⟨mm₂, hfall, hjump⟩ := Option.bind_eq_some_iff.mp hresolve
        intro n hn
        rcases hbuild hjump n hn with hn | hn
        · exact hbuild hfall n hn
        · exact .inr hn
      | Return rets =>
        cases hresolve
        exact fun n hn => .inl hn
      | NOOP => cases hresolve
      | mov m edge => exact hbuild hresolve
      | Funcking name movIntos args edge => exact hbuild hresolve
      | Start name edge => exact hbuild hresolve
      | Cricket dest => exact hbuild hresolve
    intro n hn
    rcases ih hrest n hn with hn | hn
    · exact hnode n hn
    · exact .inr hn

/-- So every node of a built graph does. -/
theorem build_addressed {name : String} {block : List FlatStmt} {cfg : CFG}
    (h : build name block = some cfg) : ∀ n ∈ cfg.mm.nodes, n.Addressed := by
  obtain ⟨b, hloop, h⟩ := Option.bind_eq_some_iff.mp h
  obtain ⟨mm, hresolve, h⟩ := Option.bind_eq_some_iff.mp h
  cases h
  intro n hn
  rcases mem_nodes_resolveAll hresolve n hn with hn | rfl
  · refine loop_addressed hloop (fun m hm => ?_) n hn
    rw [List.mem_singleton.mp (show m ∈ [CFGNode.Start name (pointName 1)] from hm)]
    trivial
  · trivial

end CFGBuilder

end Jaek
