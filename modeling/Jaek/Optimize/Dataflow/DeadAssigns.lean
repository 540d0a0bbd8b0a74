import Jaek.Optimize.CFG.Semantics
import Jaek.Optimize.Dataflow.SolverFixpoint

/-!
# Dead assignments are dead

The assignment that `deleteDeadAssigns` selects does nothing that a later branch, call, write or return
could tell from doing nothing, as long as the liveness values are large enough. They are at a fixpoint, and
a deletion and a run that empties its list keep them so.
-/

namespace Jaek

variable {M : Type*}

/-- What can be told apart outside: calls, writes and returns. -/
def Event.seen : Event M → Bool
  | assign _ _ => false
  | store _ _ => true
  | call _ _ _ _ => true
  | ret _ => true

/-- The temp a statement assigns itself; a call assigns result temps besides. -/
def FlatStmt.assigned : FlatStmt → Set String
  | move (.temp x) _ => {x}
  | _ => ∅

/-- The variables a move reads. -/
def Mov.reads : Mov → Finset String
  | Gets _ e => Properties.exprUse e
  | Mem loc e => Properties.exprUse e ∪ Properties.exprUse loc

namespace MatchMaker

/-- The point where control enters a node when `b` is a no-op. -/
def skipEntry (mm : MatchMaker) (b n : ℕ) (s : Store M) : NodeConfig M :=
  .inside n (if n = b then [] else mm.stmtsAt n) s

/-- One step over a graph in which `b` is a no-op. -/
inductive SkipStep (S : Storage M) (mm : MatchMaker) (b : ℕ) :
    NodeConfig M → Option (Event M) → NodeConfig M → Prop
  | exec {n : ℕ} {st : FlatStmt} {rest : List FlatStmt} {s s' : Store M} {e : Event M} :
      Exec S st s e s' → SkipStep S mm b (.inside n (st :: rest) s) (some e) (.inside n rest s')
  | ret {n : ℕ} {vals : List LIRExpr} {rest : List FlatStmt} {s : Store M} {vs : List Word} :
      evalList S s vals = some vs →
      SkipStep S mm b (.inside n (.endBlock (.ret vals) :: rest) s) (some (.ret vs)) .returned
  | leave {n m : ℕ} {jump : Bool} {s : Store M} :
      mm.leavesAt S s n = some jump → mm.Edge n jump m →
      SkipStep S mm b (.inside n [] s) none (mm.skipEntry b m s)

/-- The behaviour of a graph in which `b` is a no-op. -/
def skipping (mm : MatchMaker) (S : Storage M) (b : ℕ) : Lts (NodeConfig M) (Event M) :=
  ⟨SkipStep S mm b⟩

/-- The same point of a run with `b` and of a run with a no-op in its place, with the same memory. -/
inductive SamePoint (mm : MatchMaker) (b : ℕ) : NodeConfig M → NodeConfig M → Prop
  | inside {n : ℕ} {rest : List FlatStmt} {s s' : Store M} (h : s.mem = s'.mem) :
      SamePoint mm b (.inside n rest s) (.inside n rest s')
  | skipped {s s' : Store M} (h : s.mem = s'.mem) : SamePoint mm b (mm.entry b s) (.inside b [] s')
  | returned : SamePoint mm b .returned .returned

/-- The assignment at `b` cannot be evaluated. -/
def Traps (mm : MatchMaker) (S : Storage M) (b : ℕ) (s : Store M) : Prop :=
  ∃ x e edge, mm.nodes[b]? = some (.mov (.Gets x e) edge) ∧
    (CFGDestroyer.translateExpr e).eval S s = none

/-- Putting a no-op in the place of `b` changes no branch, call, write or return, except that a trap at `b`
no longer ends the run. -/
structure DeadAt (mm : MatchMaker) (S : Storage M) (b start : ℕ) (s₀ : Store M) : Prop where
  kept : ∀ tr c, ((mm.lts S).hide Event.seen).Run (mm.entry start s₀) tr c →
    ∃ c', ((mm.skipping S b).hide Event.seen).Run (mm.skipEntry b start s₀) tr c' ∧ mm.SamePoint b c c'
  added : ∀ tr c', ((mm.skipping S b).hide Event.seen).Run (mm.skipEntry b start s₀) tr c' →
    (∃ c, ((mm.lts S).hide Event.seen).Run (mm.entry start s₀) tr c ∧ mm.SamePoint b c c') ∨
    ∃ tr₀ s, tr₀ <+: tr ∧ ((mm.lts S).hide Event.seen).Run (mm.entry start s₀) tr₀ (mm.entry b s) ∧
      mm.Traps S b s

end MatchMaker

namespace DeadCodeRem

variable {S : Storage M} {mm mm' : MatchMaker} {values : Edge → Option (Finset String)} {n b : ℕ}
  {s s' s₁ : Store M} {X Y : Set String}

/-! ## Agreement on the live variables -/

/-- The same memory, and the same values of the variables in `X`. -/
structure Agree (X : Set String) (s s' : Store M) : Prop where
  temps : ∀ x ∈ X, s.temps x = s'.temps x
  mem : s.mem = s'.mem

/-- A store agrees with itself. -/
theorem Agree.refl (X : Set String) (s : Store M) : Agree X s s := ⟨fun _ _ => rfl, rfl⟩

/-- Agreement is symmetric. -/
theorem Agree.symm (h : Agree X s s') : Agree X s' s := ⟨fun x hx => (h.temps x hx).symm, h.mem.symm⟩

/-- Stores agree on fewer variables. -/
theorem Agree.mono (h : Agree X s s') (hsub : Y ⊆ X) : Agree Y s s' :=
  ⟨fun x hx => h.temps x (hsub hx), h.mem⟩

/-- Assigning a variable the same value on both sides. -/
theorem Agree.set (h : Agree X s s') (x : String) (v : Word) :
    Agree (X ∪ {x}) (s.set x v) (s'.set x v) := by
  refine ⟨fun y hy => ?_, h.mem⟩
  show Function.update s.temps x v y = Function.update s'.temps x v y
  rw [Function.update_apply, Function.update_apply]
  split_ifs with hyx
  · rfl
  · exact h.temps y (hy.resolve_right hyx)

/-- Assigning a variable outside the set on one side. -/
theorem Agree.set_left (h : Agree X s s') {x : String} (hx : x ∉ X) (v : Word) :
    Agree X (s.set x v) s' := by
  refine ⟨fun y hy => ?_, h.mem⟩
  have hyx : y ≠ x := fun hyx => hx (hyx ▸ hy)
  exact (Function.update_of_ne hyx v s.temps).trans (h.temps y hy)

/-- An expression over these variables has one value. -/
theorem eval_agree (h : Agree X s s') {e : CFGExpr} (he : ↑(Properties.exprUse e) ⊆ X) :
    (CFGDestroyer.translateExpr e).eval S s = (CFGDestroyer.translateExpr e).eval S s' := by
  induction e with
  | Var name => exact congrArg some (h.temps name (he (Finset.mem_singleton_self name)))
  | Const value => rfl
  | Label name => rfl
  | Mem loc ih =>
    show Option.bind _ (S.read s.mem) = Option.bind _ (S.read s'.mem)
    rw [ih he, h.mem]
  | BOp left right op ihl ihr =>
    rw [Properties.exprUse, Finset.coe_union, Set.union_subset_iff] at he
    rw [CFGDestroyer.translateExpr, LIRExpr.eval, LIRExpr.eval, ihl he.1, ihr he.2]

/-- So have several. -/
theorem evalList_agree (h : Agree X s s') {es : List CFGExpr}
    (he : ∀ e ∈ es, ↑(Properties.exprUse e) ⊆ X) :
    evalList S s (es.map CFGDestroyer.translateExpr) = evalList S s' (es.map CFGDestroyer.translateExpr) := by
  induction es with
  | nil => rfl
  | cons e es ih =>
    have ih : (es.map CFGDestroyer.translateExpr).mapM (LIRExpr.eval S s) =
        (es.map CFGDestroyer.translateExpr).mapM (LIRExpr.eval S s') :=
      ih fun e' he' => he e' (List.mem_cons_of_mem _ he')
    show List.mapM (LIRExpr.eval S s) (_ :: es.map CFGDestroyer.translateExpr) =
      List.mapM (LIRExpr.eval S s') (_ :: es.map CFGDestroyer.translateExpr)
    rw [List.mapM_cons, List.mapM_cons, ih, eval_agree h (he e List.mem_cons_self)]

/-- A move runs alike in stores that agree on what it reads. -/
theorem exec_move_agree {m : Mov} {ev : Event M} (haddr : m.Addressed) (h : Agree X s s')
    (hX : ↑m.reads ⊆ X) (hexec : Exec S m.stmt s ev s₁) :
    ∃ s₁', Exec S m.stmt s' ev s₁' ∧ Agree (X ∪ m.stmt.assigned) s₁ s₁' := by
  cases m with
  | Gets x e =>
    cases hexec with
    | moveTemp hv => exact ⟨_, .moveTemp ((eval_agree h hX).symm.trans hv), h.set x _⟩
  | Mem loc e =>
    obtain ⟨address, rfl⟩ := haddr
    rw [Mov.reads, Finset.coe_union, Set.union_subset_iff] at hX
    have haddress : ↑(Properties.exprUse address) ⊆ X := hX.2
    cases hexec with
    | moveMem hp hv hwrite =>
      refine ⟨_, .moveMem ((eval_agree h haddress).symm.trans hp) ((eval_agree h hX.1).symm.trans hv)
        (h.mem ▸ hwrite), ?_⟩
      exact ⟨fun x hx => h.temps x (hx.resolve_right (Set.notMem_empty x)), rfl⟩

/-- The statement of a move reads what the move uses. -/
theorem reads_subset_moveUse (m : Mov) : m.reads ⊆ Properties.moveUse m := by
  cases m with
  | Gets x e => exact Finset.subset_union_right
  | Mem loc e => exact (Finset.union_comm _ _).subset

/-- What the moves behind a call read is used by the call. -/
theorem reads_subset_use {name edge : String} {movIntos : List Mov} {args : List CFGExpr} {m : Mov}
    (hm : m ∈ movIntos) : m.reads ⊆ Properties.use (.Funcking name movIntos args edge) := by
  intro x hx
  refine Finset.mem_union_right _ ((Properties.mem_foldl_union _ _ _ _).mpr (.inr ⟨m, hm, ?_⟩))
  exact reads_subset_moveUse m hx

/-- The variables of one expression are among those of all. -/
theorem exprUse_subset_foldl {es : List CFGExpr} {e : CFGExpr} (he : e ∈ es) :
    Properties.exprUse e ⊆ es.foldl (fun acc it => acc ∪ Properties.exprUse it) ∅ :=
  fun _ hx => (Properties.mem_foldl_union _ _ _ _).mpr (.inr ⟨e, he, hx⟩)

/-- A statement of a node runs alike in stores that agree on what the node uses. -/
theorem exec_agree {node : CFGNode} {st : FlatStmt} {ev : Event M} (haddr : node.Addressed)
    (hst : st ∈ node.stmts) (h : Agree X s s') (hX : ↑(Properties.use node) ⊆ X)
    (hexec : Exec S st s ev s₁) : ∃ s₁', Exec S st s' ev s₁' ∧ Agree (X ∪ st.assigned) s₁ s₁' := by
  cases node with
  | mov m edge =>
    obtain rfl := List.mem_singleton.mp hst
    have hreads : ↑m.reads ⊆ X := by
      cases m with
      | Gets x e => exact hX
      | Mem loc e => exact hX
    exact exec_move_agree haddr h hreads hexec
  | Funcking name movIntos args edge =>
    rcases List.mem_cons.mp hst with rfl | hst
    · cases hexec with
      | call hvs hlen =>
        have hargs : ∀ e ∈ args, ↑(Properties.exprUse e) ⊆ X := fun e he =>
          (Finset.coe_subset.mpr ((exprUse_subset_foldl he).trans Finset.subset_union_left)).trans hX
        refine ⟨_, .call ((evalList_agree h hargs).symm.trans hvs) hlen, ⟨fun x hx => ?_, rfl⟩⟩
        exact setReturns_congr (h.temps x (hx.resolve_right (Set.notMem_empty x))) _ _
    · obtain ⟨m, hm, rfl⟩ := List.mem_map.mp hst
      exact exec_move_agree (haddr m hm) h ((Finset.coe_subset.mpr (reads_subset_use hm)).trans hX) hexec
  | Return rets =>
    rw [List.mem_singleton.mp hst] at hexec
    exact hexec.ne_endBlock.elim
  | If cond take edge => cases hst
  | Start name edge => cases hst
  | Cricket dest => cases hst
  | NOOP => cases hst

/-- A return returns alike. -/
theorem ret_agree {node : CFGNode} {vals : List LIRExpr} (hst : .endBlock (.ret vals) ∈ node.stmts)
    (h : Agree X s s') (hX : ↑(Properties.use node) ⊆ X) : evalList S s vals = evalList S s' vals := by
  cases node with
  | mov m edge =>
    have hst := List.mem_singleton.mp hst
    cases m <;> cases hst
  | Funcking name movIntos args edge =>
    rcases List.mem_cons.mp hst with hst | hst
    · cases hst
    · obtain ⟨m, -, hst⟩ := List.mem_map.mp hst
      cases m <;> cases hst
  | Return rets =>
    cases List.mem_singleton.mp hst
    exact evalList_agree h fun e he => (Finset.coe_subset.mpr (exprUse_subset_foldl he)).trans hX
  | If cond take edge => cases hst
  | Start name edge => cases hst
  | Cricket dest => cases hst
  | NOOP => cases hst

/-- Stores that agree on what a node uses leave it by the same edge. -/
theorem leaves_agree {node : CFGNode} (h : Agree X s s') (hX : ↑(Properties.use node) ⊆ X) :
    node.leaves S s = node.leaves S s' := by
  cases node with
  | If cond take edge => exact congrArg (Option.map fun v => decide (v ≠ 0)) (eval_agree h hX)
  | mov m edge => rfl
  | Funcking name movIntos args edge => rfl
  | Return rets => rfl
  | Start name edge => rfl
  | Cricket dest => rfl
  | NOOP => rfl

/-- A variable that a node defines is assigned by one of its statements. -/
theorem defs_assigned {node : CFGNode} {x : String} (hx : x ∈ Properties.defs node) :
    ∃ st ∈ node.stmts, x ∈ st.assigned := by
  have hmov : ∀ m : Mov, x ∈ Properties.moveDef m → x ∈ m.stmt.assigned := by
    intro m hm
    cases m with
    | Gets y e => exact Finset.mem_singleton.mp hm
    | Mem loc e => cases hm
  cases node with
  | mov m edge =>
    refine ⟨m.stmt, List.mem_singleton_self _, hmov m ?_⟩
    cases m with
    | Gets y e => exact hx
    | Mem loc e => cases hx
  | Funcking name movIntos args edge =>
    obtain hx | ⟨m, hm, hx⟩ := (Properties.mem_foldl_union _ _ _ _).mp hx
    · cases hx
    · exact ⟨m.stmt, List.mem_cons_of_mem _ (List.mem_map_of_mem hm), hmov m hx⟩
  | Return rets => cases hx
  | If cond take edge => cases hx
  | Start name edge => cases hx
  | Cricket dest => cases hx
  | NOOP => cases hx

/-! ## Values that are large enough -/

/-- What a node needs is in the values of the edges into it. -/
def SafeAt (mm : MatchMaker) (values : Edge → Option (Finset String)) (n : ℕ) : Prop :=
  ∃ live, analysis.bigMeet values (mm.successorEdges n) = some live ∧
    ∀ e ∈ mm.predecessorEdges n, ∃ info, values e = some info ∧ mm.useAt n ∪ (live \ mm.defsAt n) ⊆ info

/-- What is live on an edge is live in the meet. -/
theorem bigMeet_superset {edges : List Edge} {live : Finset String} {e : Edge}
    (h : analysis.bigMeet values edges = some live) (he : e ∈ edges) :
    ∃ info, values e = some info ∧ info ⊆ live :=
  CFGFlow.bigMeet_rel (r := fun a b => b ⊆ a) (fun _ => subset_rfl) (fun _ _ _ hab hbc => hbc.trans hab)
    (fun _ _ => Finset.subset_union_left) (fun _ _ => Finset.subset_union_right) h he

/-- A node that satisfies its equation is safe. -/
theorem SafeAt.of_holds (h : analysis.Holds mm values n) : SafeAt mm values n := by
  obtain ⟨live, newEdges, hmeet, htransition, hvalues⟩ := h
  refine ⟨live, hmeet, fun e he => ⟨_, hvalues e he, ?_⟩⟩
  rw [← Option.some.inj htransition]

/-! ## Two runs -/

/-- The variables two runs agree on inside a node, whose statements `pre` have been run. -/
def agreed (mm : MatchMaker) (n : ℕ) (live : Finset String) (pre : List FlatStmt) : Set String :=
  ↑(mm.useAt n ∪ (live \ mm.defsAt n)) ∪ {x | ∃ st ∈ pre, x ∈ st.assigned}

/-- In front of its statements, a node needs what it uses, and what is live behind it and not defined. -/
theorem agreed_nil (mm : MatchMaker) (n : ℕ) (live : Finset String) :
    agreed mm n live [] = ↑(mm.useAt n ∪ (live \ mm.defsAt n)) := by
  simp [agreed]

/-- A statement adds what it assigns. -/
theorem agreed_snoc (mm : MatchMaker) (n : ℕ) (live : Finset String) (pre : List FlatStmt) (st : FlatStmt) :
    agreed mm n live (pre ++ [st]) ⊆ agreed mm n live pre ∪ st.assigned := by
  rintro x (hx | ⟨st', hst', hx⟩)
  · exact .inl (.inl hx)
  · rcases List.mem_append.mp hst' with hst' | hst'
    · exact .inl (.inr ⟨st', hst', hx⟩)
    · rw [List.mem_singleton.mp hst'] at hx
      exact .inr hx

/-- Behind its statements everything live is agreed on. -/
theorem live_subset_agreed (mm : MatchMaker) (n : ℕ) (live : Finset String) :
    ↑live ⊆ agreed mm n live (mm.stmtsAt n) := by
  intro x hx
  by_cases hdef : x ∈ mm.defsAt n
  · refine .inr ?_
    cases hn : mm.nodes[n]? with
    | none =>
      rw [MatchMaker.defsAt, hn] at hdef
      cases hdef
    | some node =>
      rw [MatchMaker.defsAt, hn] at hdef
      rw [MatchMaker.stmtsAt, hn]
      exact defs_assigned hdef
  · exact .inl (Finset.mem_coe.mpr (Finset.mem_union_right _ (Finset.mem_sdiff.mpr ⟨hx, hdef⟩)))

/-- A run and the run with a no-op at `b`. -/
inductive Follows (mm : MatchMaker) (values : Edge → Option (Finset String)) (b : ℕ) :
    NodeConfig M → NodeConfig M → Prop
  | inside {n : ℕ} {pre rest : List FlatStmt} {live : Finset String} {s s' : Store M} (hn : n ≠ b)
      (hst : mm.stmtsAt n = pre ++ rest)
      (hlive : analysis.bigMeet values (mm.successorEdges n) = some live)
      (h : Agree (agreed mm n live pre) s s') : Follows mm values b (.inside n rest s) (.inside n rest s')
  | before {live : Finset String} {s s' : Store M}
      (hlive : analysis.bigMeet values (mm.successorEdges b) = some live)
      (h : Agree ↑(mm.useAt b ∪ live) s s') : Follows mm values b (mm.entry b s) (.inside b [] s')
  | behind {live : Finset String} {s s' : Store M}
      (hlive : analysis.bigMeet values (mm.successorEdges b) = some live)
      (h : Agree ↑live s s') : Follows mm values b (.inside b [] s) (.inside b [] s')
  | returned : Follows mm values b .returned .returned

/-- Related configurations are at the same point. -/
theorem Follows.samePoint {c c' : NodeConfig M} (h : Follows mm values b c c') : mm.SamePoint b c c' := by
  cases h with
  | inside hn hst hlive h => exact .inside h.mem
  | before hlive h => exact .skipped h.mem
  | behind hlive h => exact .inside h.mem
  | returned => exact .returned

/-- The assignment that `deleteDeadAssigns` selects. -/
structure Selected (mm : MatchMaker) (values : Edge → Option (Finset String)) (b : ℕ) (x : String)
    (e : CFGExpr) (edge : String) : Prop where
  node : mm.nodes[b]? = some (.mov (.Gets x e) edge)
  notLive : ∀ live, analysis.bigMeet values (mm.successorEdges b) = some live → x ∉ live

/-- What a node uses is agreed on all the way through it. -/
theorem use_subset_agreed {node : CFGNode} (hn : mm.nodes[n]? = some node) (live : Finset String)
    (pre : List FlatStmt) : ↑(Properties.use node) ⊆ agreed mm n live pre := by
  intro y hy
  refine .inl (Finset.mem_coe.mpr (Finset.mem_union_left _ ?_))
  rw [MatchMaker.useAt, hn]
  exact hy

/-- A statement that is run belongs to a node. -/
theorem node_of_stmtsAt {pre rest : List FlatStmt} {st : FlatStmt} (h : mm.stmtsAt n = pre ++ st :: rest) :
    ∃ node, mm.nodes[n]? = some node ∧ st ∈ node.stmts := by
  cases hn : mm.nodes[n]? with
  | none =>
    rw [MatchMaker.stmtsAt, hn] at h
    exact absurd h.symm (by simp)
  | some node =>
    rw [MatchMaker.stmtsAt, hn] at h
    have h : node.stmts = pre ++ st :: rest := h
    exact ⟨node, rfl, h ▸ List.mem_append_right pre List.mem_cons_self⟩

/-- Inside a node control leaves alike. -/
theorem leavesAt_agree {live : Finset String} {pre : List FlatStmt}
    (h : Agree (agreed mm n live pre) s s') : mm.leavesAt S s n = mm.leavesAt S s' n := by
  rw [MatchMaker.leavesAt, MatchMaker.leavesAt]
  cases hn : mm.nodes[n]? with
  | none => rfl
  | some node => exact leaves_agree h (use_subset_agreed hn live pre)

section Simulation

variable {x edge : String} {e : CFGExpr} (hsel : Selected mm values b x e edge)
include hsel

/-- The selected node has one statement. -/
theorem Selected.stmts : mm.stmtsAt b = [.move (.temp x) (CFGDestroyer.translateExpr e)] := by
  rw [MatchMaker.stmtsAt, hsel.node]
  rfl

/-- It is left by the same edge from every store. -/
theorem Selected.leaves (S : Storage M) (s s' : Store M) : mm.leavesAt S s b = mm.leavesAt S s' b := by
  rw [MatchMaker.leavesAt, MatchMaker.leavesAt, hsel.node]
  rfl

/-- Entering a node with agreement on what is live behind the node before. -/
theorem Selected.follows_entry {m : ℕ} {jump : Bool} {live : Finset String} (hrep : mm.RepOk)
    (hsafe : ∀ n, SafeAt mm values n) (hedge : mm.Edge n jump m)
    (hlive : analysis.bigMeet values (mm.successorEdges n) = some live) (h : Agree ↑live s s') :
    Follows mm values b (mm.entry m s) (mm.skipEntry b m s') := by
  obtain ⟨info, hinfo, hsub⟩ := bigMeet_superset hlive
    (MatchMaker.mem_successorEdges.mpr (show Edge.src ⟨n, m, jump⟩ = n ∧ _ from ⟨rfl, hedge⟩))
  obtain ⟨live', hlive', hvalues⟩ := hsafe m
  obtain ⟨info', hinfo', hneed⟩ := hvalues ⟨n, m, jump⟩ (hrep.mem_predecessorEdges.mpr ⟨rfl, hedge⟩)
  cases hinfo.symm.trans hinfo'
  have hagree : Agree ↑(mm.useAt m ∪ ( live' \ mm.defsAt m)) s s' :=
    h.mono (Finset.coe_subset.mpr (hneed.trans hsub))
  by_cases hm : m = b
  · subst hm
    rw [MatchMaker.skipEntry, if_pos rfl]
    have hdefs : mm.defsAt m = {x} := by
      rw [MatchMaker.defsAt, hsel.node]
      rfl
    rw [hdefs, Finset.sdiff_singleton_eq_erase,
      Finset.erase_eq_of_notMem (hsel.notLive live' hlive')] at hagree
    exact .before hlive' hagree
  · rw [MatchMaker.skipEntry, if_neg hm]
    refine .inside hm (List.nil_append _).symm hlive' ?_
    rw [agreed_nil]
    exact hagree

/-- A step is matched where `b` is a no-op. -/
theorem Selected.match_step (hrep : mm.RepOk) (haddr : ∀ node ∈ mm.nodes, node.Addressed)
    (hsafe : ∀ n, SafeAt mm values n) {c c' c₁ : NodeConfig M} {a : Option (Event M)}
    (hf : Follows mm values b c c') (hstep : (mm.lts S).step c a c₁) :
    ∃ c₁', ((mm.skipping S b).hide Event.seen).Run c' (a.filter Event.seen).toList c₁' ∧
      Follows mm values b c₁ c₁' := by
  cases hf with
  | @inside n pre rest live s s' hn hst hlive h =>
    cases hstep with
    | exec hexec =>
      obtain ⟨node, hnode, hmem⟩ := node_of_stmtsAt hst
      obtain ⟨s₁', hexec', h'⟩ := exec_agree (haddr node (List.mem_of_getElem? hnode)) hmem h
        (use_subset_agreed hnode live pre) hexec
      have hst' := hst.trans (List.append_cons pre _ _)
      exact ⟨_, .single (Lts.hide_step (.exec hexec')),
        .inside hn hst' hlive (h'.mono (agreed_snoc mm n live pre _))⟩
    | ret hvs =>
      obtain ⟨node, hnode, hmem⟩ := node_of_stmtsAt hst
      have hvs' := (ret_agree hmem h (use_subset_agreed hnode live pre)).symm.trans hvs
      exact ⟨_, .single (Lts.hide_step (.ret hvs')), .returned⟩
    | leave hleaves hedge =>
      have hleaves' := (leavesAt_agree h).symm.trans hleaves
      rw [List.append_nil] at hst
      subst hst
      exact ⟨_, .single (Lts.hide_step (.leave hleaves' hedge)),
        hsel.follows_entry hrep hsafe hedge hlive (h.mono (live_subset_agreed mm n live))⟩
  -- the assignment that is left out: its variable is not live behind it, so the stores still agree
  | @before live s s' hlive h =>
    rw [MatchMaker.entry, hsel.stmts] at hstep
    cases hstep with
    | exec hexec =>
      cases hexec with
      | moveTemp hv =>
        have hx : x ∉ (↑live : Set String) := fun hx => hsel.notLive live hlive (Finset.mem_coe.mp hx)
        have hagree : Agree ↑live s s' := h.mono (Finset.coe_subset.mpr Finset.subset_union_right)
        exact ⟨_, .refl _, .behind hlive (hagree.set_left hx _)⟩
  | @behind live s s' hlive h =>
    cases hstep with
    | leave hleaves hedge =>
      have hleaves' := (hsel.leaves S s' s).trans hleaves
      exact ⟨_, .single (Lts.hide_step (.leave hleaves' hedge)),
        hsel.follows_entry hrep hsafe hedge hlive h⟩
  | returned => cases hstep

/-- A step with a no-op at `b` is matched, unless the assignment at `b` traps. -/
theorem Selected.match_skip (hrep : mm.RepOk) (haddr : ∀ node ∈ mm.nodes, node.Addressed)
    (hsafe : ∀ n, SafeAt mm values n) {c c' c₁' : NodeConfig M} {a : Option (Event M)}
    (hf : Follows mm values b c c') (hstep : (mm.skipping S b).step c' a c₁') :
    (∃ c₁, ((mm.lts S).hide Event.seen).Run c (a.filter Event.seen).toList c₁ ∧
      Follows mm values b c₁ c₁') ∨ ∃ s, c = mm.entry b s ∧ mm.Traps S b s := by
  cases hf with
  | @inside n pre rest live s s' hn hst hlive h =>
    refine .inl ?_
    cases hstep with
    | exec hexec =>
      obtain ⟨node, hnode, hmem⟩ := node_of_stmtsAt hst
      obtain ⟨s₁, hexec', h'⟩ := exec_agree (haddr node (List.mem_of_getElem? hnode)) hmem h.symm
        (use_subset_agreed hnode live pre) hexec
      have hst' := hst.trans (List.append_cons pre _ _)
      exact ⟨_, .single (Lts.hide_step (.exec hexec')),
        .inside hn hst' hlive (h'.symm.mono (agreed_snoc mm n live pre _))⟩
    | ret hvs =>
      obtain ⟨node, hnode, hmem⟩ := node_of_stmtsAt hst
      have hvs' := (ret_agree hmem h (use_subset_agreed hnode live pre)).trans hvs
      exact ⟨_, .single (Lts.hide_step (.ret hvs')), .returned⟩
    | leave hleaves hedge =>
      have hleaves' := (leavesAt_agree h).trans hleaves
      rw [List.append_nil] at hst
      subst hst
      exact ⟨_, .single (Lts.hide_step (.leave hleaves' hedge)),
        hsel.follows_entry hrep hsafe hedge hlive (h.mono (live_subset_agreed mm n live))⟩
  | @before live s s' hlive h =>
    cases hstep with
    | leave hleaves hedge =>
      cases hv : (CFGDestroyer.translateExpr e).eval S s with
      | none => exact .inr ⟨s, rfl, x, e, edge, hsel.node, hv⟩
      | some v =>
        -- the graph first makes the assignment
        have hx : x ∉ (↑live : Set String) := fun hx => hsel.notLive live hlive (Finset.mem_coe.mp hx)
        have hagree : Agree ↑live s s' := h.mono (Finset.coe_subset.mpr Finset.subset_union_right)
        have hassign : ((mm.lts S).hide Event.seen).step (mm.entry b s) none (.inside b [] (s.set x v)) := by
          rw [MatchMaker.entry, hsel.stmts]
          exact Lts.hide_step (A := mm.lts S) (MatchMaker.Step.exec (.moveTemp hv))
        have hleaves' := (hsel.leaves S (s.set x v) s').trans hleaves
        refine .inl ⟨_, .silent hassign (.single (Lts.hide_step (.leave hleaves' hedge))), ?_⟩
        exact hsel.follows_entry hrep hsafe hedge hlive (hagree.set_left hx v)
  | @behind live s s' hlive h =>
    cases hstep with
    | leave hleaves hedge =>
      have hleaves' := (hsel.leaves S s s').trans hleaves
      exact .inl ⟨_, .single (Lts.hide_step (.leave hleaves' hedge)),
        hsel.follows_entry hrep hsafe hedge hlive h⟩
  | returned => cases hstep

/-- The selected assignment is dead. -/
theorem Selected.deadAt (hrep : mm.RepOk) (haddr : ∀ node ∈ mm.nodes, node.Addressed)
    (hsafe : ∀ n, SafeAt mm values n) (start : ℕ) (s₀ : Store M) : mm.DeadAt S b start s₀ := by
  have hfollows : Follows mm values b (mm.entry start s₀) (mm.skipEntry b start s₀) := by
    obtain ⟨live, hlive, -⟩ := hsafe start
    by_cases hb : start = b
    · subst hb
      rw [MatchMaker.skipEntry, if_pos rfl]
      exact .before hlive (.refl _ _)
    · rw [MatchMaker.skipEntry, if_neg hb]
      exact .inside hb (List.nil_append _).symm hlive (.refl _ _)
  constructor
  · intro tr c hrun
    have hsim : Lts.IsSimulation ((mm.lts S).hide Event.seen) ((mm.skipping S b).hide Event.seen)
        (Follows mm values b) := by
      rintro c c' a c₁ hf ⟨a, hstep, rfl⟩
      exact hsel.match_step hrep haddr hsafe hf hstep
    obtain ⟨c', hrun', hf⟩ := hsim.run hrun hfollows
    exact ⟨c', hrun', hf.samePoint⟩
  · intro tr c' hrun
    have hstuck := Lts.run_or_stuck (A := (mm.lts S).hide Event.seen) (R := Follows mm values b)
      (T := fun c => ∃ s, c = mm.entry b s ∧ mm.Traps S b s) ?_ hrun hfollows
    · rcases hstuck with ⟨c, hrun', hf⟩ | ⟨tr₀, c, hpre, hrun', s, rfl, htraps⟩
      · exact .inl ⟨c, hrun', hf.samePoint⟩
      · exact .inr ⟨tr₀, s, hpre, hrun', htraps⟩
    · rintro c c' a c₁' hf ⟨a, hstep, rfl⟩
      exact hsel.match_skip hrep haddr hsafe hf hstep

end Simulation

/-! ## Further deletions -/

/-- The graphs and values after deletions, each followed by a run that emptied its list. -/
inductive Rounds (start : MatchMaker) (values₀ : Edge → Option (Finset String)) :
    MatchMaker → (Edge → Option (Finset String)) → Prop
  | start : Rounds start values₀ start values₀
  | round {mm mm' : MatchMaker} {values : Edge → Option (Finset String)} {b : ℕ} {wklist : List ℕ}
      {picks : ℕ → ℕ} {sol : Solver (Finset String)} : Rounds start values₀ mm values →
      firstDead mm values mm.predecessors.keys = some (some b) →
      deleteDeadAssigns mm values = some (mm', wklist) →
      analysis.runWithWorklist mm' picks wklist values = some sol → sol.worklist = [] →
      Rounds start values₀ mm' sol.values

/-- What every round keeps. -/
structure Safe (mm : MatchMaker) (values : Edge → Option (Finset String)) : Prop where
  graph : GraphOk mm
  addressed : ∀ node ∈ mm.nodes, node.Addressed
  isSome : ∀ e ∈ mm.edges, (values e).isSome
  safe : ∀ n, SafeAt mm values n

/-- The removed node reads no edge any more, and the value of an edge left into it covers what it uses. -/
theorem Deleted.safe_removed (h : Deleted mm mm' b) (hsafe : Safe mm values) (hrep : mm'.RepOk) :
    SafeAt mm' (analysis.fill mm' values) b := by
  have hreads : mm'.successorEdges b = [] := by
    rw [MatchMaker.successorEdges, h.no_fall, h.no_jump]
    rfl
  have huse : mm'.useAt b = mm.useAt b := by rw [MatchMaker.useAt, MatchMaker.useAt, h.nodes]
  obtain ⟨live, -, hvalues⟩ := hsafe.safe b
  refine ⟨∅, by rw [hreads]; rfl, ?_⟩
  rintro ⟨p, q, jump⟩ he
  obtain ⟨rfl, hedge⟩ := hrep.mem_predecessorEdges.mp he
  obtain ⟨rfl, hfall, -, -⟩ := (h.left p jump).mp hedge
  obtain ⟨info, hinfo, hneed⟩ :=
    hvalues ⟨p, q, false⟩ (hsafe.graph.repOk.mem_predecessorEdges.mpr ⟨rfl, hfall⟩)
  refine ⟨info, ?_, ?_⟩
  · rw [CFGFlow.fill_of_isSome (by rw [hinfo]; rfl), hinfo]
  · rw [huse, Finset.empty_sdiff, Finset.union_empty]
    exact Finset.subset_union_left.trans hneed

/-- The other nodes that the run is not given read and write what they did before. -/
theorem Deleted.safe_kept (h : Deleted mm mm' b) (hsafe : Safe mm values) (hrep : mm'.RepOk) {m : ℕ}
    (hm : m ∉ changing mm b) (hmb : m ≠ b) : SafeAt mm' (analysis.fill mm' values) m := by
  have hrep₀ := hsafe.graph.repOk
  rw [mem_changing hrep₀] at hm
  push Not at hm
  obtain ⟨⟨hmj, hmf⟩, -, hbf⟩ := hm
  obtain ⟨hfall, hjump⟩ := h.outOf m hmb hmj hmf
  have hkeep : ∀ e ∈ mm.edges, analysis.fill mm' values e = values e := fun e he =>
    CFGFlow.fill_of_isSome (hsafe.isSome e he)
  have hreads : mm'.successorEdges m = mm.successorEdges m := by
    rw [MatchMaker.successorEdges, MatchMaker.successorEdges, hfall, hjump]
  obtain ⟨live, hlive, hvalues⟩ := hsafe.safe m
  refine ⟨live, ?_, ?_⟩
  · rw [hreads, CFGFlow.bigMeet_congr fun e he => hkeep e ?_, hlive]
    exact ((CFGFlow.mem_reads_iff (A := analysis) hrep₀).mp he).2
  · rintro ⟨p, q, jump⟩ he
    obtain ⟨rfl, hedge⟩ := hrep.mem_predecessorEdges.mp he
    have hedge := (h.into p jump q hmb hbf).mp hedge
    rw [hkeep _ (MatchMaker.mem_edges.mpr hedge), MatchMaker.useAt, MatchMaker.defsAt, h.nodes]
    exact hvalues _ (hrep₀.mem_predecessorEdges.mpr ⟨rfl, hedge⟩)

/-- A run keeps the nodes off its list safe. -/
theorem loop_safe {picks : ℕ → ℕ} {k : ℕ} {sol sol' : Solver (Finset String)} (hrep : mm.RepOk)
    (hfilled : CFGFlow.Filled mm sol) (hsafe : ∀ n, n ∉ sol.worklist → SafeAt mm sol.values n)
    (h : analysis.loop mm picks sol k = some sol') :
    CFGFlow.Filled mm sol' ∧ ∀ n, n ∉ sol'.worklist → SafeAt mm sol'.values n := by
  refine CFGFlow.loop_induction
    (P := fun _ sol' => CFGFlow.Filled mm sol' ∧ ∀ n, n ∉ sol'.worklist → SafeAt mm sol'.values n)
    ⟨hfilled, hsafe⟩ ?_ h
  rintro k s₁ s₂ - ⟨hfilled₁, hsafe₁⟩ hiter
  rcases CFGFlow.iteration_cases hiter with ⟨-, rfl⟩ | ⟨node, hnode, hprocess⟩
  · exact ⟨hfilled₁, hsafe₁⟩
  · obtain ⟨hstep, hfilled₂⟩ := CFGFlow.process_step hrep hfilled₁ hnode hprocess
    refine ⟨hfilled₂, fun m hm => ?_⟩
    by_cases hmn : m = node
    · exact .of_holds ((hfilled₂.holds_iff hrep m).mpr
        (hstep.solved (fun hmem => absurd (hmn ▸ hnode) hmem) hm))
    · have hlist : m ∉ s₁.worklist := fun hmem => hm ((hstep.mem_list m).mpr (.inl ⟨hmem, hmn⟩))
      obtain ⟨live, hlive, hvalues⟩ := hsafe₁ m hlist
      refine ⟨live, ?_, fun e he => ?_⟩
      · rw [CFGFlow.bigMeet_congr fun e he => ?_, hlive]
        have hedge := ((CFGFlow.mem_reads_iff (A := analysis) hrep).mp he).2
        rw [hfilled₂.values_eq (A := analysis) hedge, hstep.reads hm e he, ← hfilled₁.values_eq hedge]
      · obtain ⟨hwriter, hedge⟩ := (CFGFlow.mem_writes_iff (A := analysis) hrep).mp he
        have hout : e ∉ analysis.writes mm node := fun hout =>
          hmn (hwriter.symm.trans ((CFGFlow.mem_writes_iff (A := analysis) hrep).mp hout).1)
        obtain ⟨info, hinfo, hneed⟩ := hvalues e he
        refine ⟨info, ?_, hneed⟩
        rw [hfilled₂.values_eq (A := analysis) hedge, hstep.unchanged hout, ← hfilled₁.values_eq hedge,
          hinfo]

/-- A deletion and a run that empties its list. -/
theorem Safe.round {picks : ℕ → ℕ} {wklist : List ℕ} {sol : Solver (Finset String)}
    (hsafe : Safe mm values) (hdead : firstDead mm values mm.predecessors.keys = some (some b))
    (hdelete : deleteDeadAssigns mm values = some (mm', wklist))
    (hrun : analysis.runWithWorklist mm' picks wklist values = some sol) (hempty : sol.worklist = []) :
    Safe mm' sol.values := by
  obtain ⟨hkey, x, e, edge, -, hb, -, -⟩ := firstDead_spec hdead
  obtain ⟨hremove, rfl⟩ := deleteDeadAssigns_eq hdead hdelete
  have hinto : mm.into b ≠ [] := hsafe.graph.repOk.nonempty b ((LinkedMap.mem_keys_iff _).mp hkey)
  obtain ⟨hgraph, hdeleted⟩ := removeAndLink_deleted hsafe.graph hb hinto hremove
  have hstart : ∀ m, m ∉ changing mm b → SafeAt mm' (analysis.fill mm' values) m := by
    intro m hm
    by_cases hmb : m = b
    · subst hmb
      exact hdeleted.safe_removed hsafe hgraph.repOk
    · exact hdeleted.safe_kept hsafe hgraph.repOk hm hmb
  obtain ⟨hfilled, hsafe'⟩ := loop_safe hgraph.repOk
    (CFGFlow.fill_filled (changing_nodup mm b) values) hstart hrun
  exact ⟨hgraph, fun node hnode => hsafe.addressed node (hdeleted.nodes ▸ hnode), hfilled.isSome,
    fun n => hsafe' n (by simp [hempty])⟩

/-- The values are safe after any number of rounds, by induction over the rounds. -/
theorem Rounds.safe {start : MatchMaker} {values₀ : Edge → Option (Finset String)}
    (h₀ : Safe start values₀) (h : Rounds start values₀ mm values) : Safe mm values := by
  induction h with
  | start => exact h₀
  | round _ hdead hdelete hrun hempty ih => exact ih.round hdead hdelete hrun hempty

/-- The node that is found assigns a variable that is not live behind it. -/
theorem selected_of_firstDead {nodes : List ℕ} (h : firstDead mm values nodes = some (some b)) :
    ∃ x e edge, Selected mm values b x e edge := by
  obtain ⟨-, x, e, edge, live, hb, hlive, hx⟩ := firstDead_spec h
  refine ⟨x, e, edge, hb, fun live' hlive' => ?_⟩
  cases hlive.symm.trans hlive'
  exact hx

end DeadCodeRem

/-- The assignments that dead code removal selects are dead, in every round, as long as the runs of the
solver in between have emptied their lists. -/
theorem deadAssigns_dead {name : String} {block : List FlatStmt} {cfg : CFG}
    (hok : CFGBuilder.BodyOk block) (h : CFGBuilder.build name block = some cfg)
    {values₀ : Edge → Option (Finset String)} (hfix : DeadCodeRem.analysis.AtFixpoint cfg.mm values₀)
    {mm : MatchMaker} {values : Edge → Option (Finset String)}
    (hrounds : DeadCodeRem.Rounds cfg.mm values₀ mm values) {b : ℕ}
    (hdead : DeadCodeRem.firstDead mm values mm.predecessors.keys = some (some b)) (S : Storage M)
    (s₀ : Store M) : mm.DeadAt S b cfg.start s₀ := by
  have hsafe : DeadCodeRem.Safe mm values := hrounds.safe
    ⟨DeadCodeRem.build_graphOk hok h, CFGBuilder.build_addressed h, hfix.isSome,
      fun n => .of_holds (hfix.holds n)⟩
  obtain ⟨x, e, edge, hsel⟩ := DeadCodeRem.selected_of_firstDead hdead
  exact hsel.deadAt hsafe.graph.repOk hsafe.addressed hsafe.safe cfg.start s₀

/-- The store of zeros. -/
def zeroStore : Store Unit := ⟨fun _ => 0, ()⟩

/-- In `deadChain`, `x := y` is selected first. After its deletion and a run, `y := z` is selected, and does
nothing. -/
theorem deadAssigns_dead_chain : ∃ s mm' wklist s',
    DeadCodeRem.analysis.run chainGraph (fun _ => 0) (fun _ => none) = some s ∧
    DeadCodeRem.deleteDeadAssigns chainGraph s.values = some (mm', wklist) ∧
    DeadCodeRem.analysis.runWithWorklist mm' (fun _ => 0) wklist s.values = some s' ∧
    DeadCodeRem.firstDead mm' s'.values mm'.predecessors.keys = some (some 1) ∧
    mm'.DeadAt noMemory 1 0 zeroStore := by
  have hlimit : 12 ≤ THRESHOLD := by decide
  have htrial := deadChainTrial_eq
  unfold deadChainTrial at htrial
  obtain ⟨s, hrun, htrial⟩ := Option.bind_eq_some_iff.mp htrial
  obtain ⟨⟨mm', wklist⟩, hdelete, htrial⟩ := Option.bind_eq_some_iff.mp htrial
  obtain ⟨s', hrun', htrial⟩ := Option.bind_eq_some_iff.mp htrial
  simp only [Option.some.injEq, Prod.mk.injEq] at htrial
  obtain ⟨hdead, hempty, hempty', hdead'⟩ := htrial
  have hrun := CFGFlow.runWithWorklist_of_empty hrun hempty hlimit
  have hrun' := CFGFlow.runWithWorklist_of_empty hrun' hempty' hlimit
  have hfix := CFGFlow.run_fixpoint (DeadCodeRem.isGenKill chainGraph)
    (CFGBuilder.build_repOk deadChain_build) hrun hempty
  exact ⟨s, mm', wklist, s', hrun, hdelete, hrun', hdead', deadAssigns_dead deadChain_ok deadChain_build hfix
    (.round .start hdead hdelete hrun' hempty') hdead' noMemory zeroStore⟩

end Jaek
