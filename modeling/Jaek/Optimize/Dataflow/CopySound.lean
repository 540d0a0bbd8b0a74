import Jaek.Optimize.CFG.Rewriting
import Jaek.Optimize.Dataflow.CopyProp

/-!
# Copy propagation is sound

A fact on an edge is true whenever control takes the edge: of the values of a fixpoint, and of values that
the solver makes from true ones, however early it stops. So rewriting with them, round after round, keeps
the behaviour of the graph.
-/

namespace Jaek

variable {M : Type*}

/-- What a node mentions outside the moves behind a call. -/
def CFGNode.mentions : CFGNode → Finset String
  | .Funcking _ _ args _ => args.foldl (fun acc it => acc ∪ Properties.exprUse it) ∅
  | node => Properties.use node ∪ Properties.defs node

namespace CopyProp

/-- The points of the runs that start at a node. -/
def Reached (S : Storage M) (start : ℕ) (mm : MatchMaker) (c : NodeConfig M) : Prop :=
  ∃ s, (mm.lts S).Reachable (mm.entry start s) c

/-- Some run from the start comes to the node. -/
def Visited (S : Storage M) (start : ℕ) (mm : MatchMaker) (n : ℕ) : Prop :=
  ∃ rest s, Reached S start mm (.inside n rest s)

/-- The graphs the pass works on, as far as runs see them. -/
structure Sane (S : Storage M) (start : ℕ) (mm : MatchMaker) : Prop where
  repOk : mm.RepOk
  isStart : ∃ name edge, mm.nodes[start]? = some (.Start name edge)
  noInto : ∀ p jump, ¬ mm.Edge p jump start
  addressed : ∀ n ∈ mm.nodes, n.Addressed
  copies : ∀ n x y edge, Visited S start mm n → mm.nodes[n]? = some (.mov (.Gets x (.Var y)) edge) →
    ∀ i, x ≠ retTemp i ∧ y ≠ retTemp i

/-- A fact whose variables stay variables of the graph and are no result temps. -/
structure Known (S : Storage M) (start : ℕ) (mm : MatchMaker) (c : Copy) : Prop where
  late : ∃ n ∈ mm.allNodes, c.late ∈ mm.defsAt n
  early : (∃ n ∈ mm.allNodes, c.early ∈ mm.defsAt n) ∨
    ∃ n ∈ mm.allNodes, Visited S start mm n ∧ c.early ∈ mm.useAt n
  noRet : ∀ i, c.late ≠ retTemp i ∧ c.early ≠ retTemp i

/-- A true fact. -/
structure Fact (S : Storage M) (start : ℕ) (mm : MatchMaker) (s : Store M) (c : Copy) : Prop where
  known : Known S start mm c
  eq : s.temps c.late = s.temps c.early

/-- The facts on an edge are true when control takes it. -/
structure Sound (S : Storage M) (start : ℕ) (mm : MatchMaker) (values : Edge → Option (Finset Copy)) :
    Prop where
  isSome : ∀ e ∈ mm.edges, (values e).isSome
  facts : ∀ n s jump m, Reached S start mm (.inside n [] s) → mm.leavesAt S s n = some jump →
    mm.Edge n jump m → ∀ info, values ⟨n, m, jump⟩ = some info → ∀ c ∈ info, Fact S start mm s c

/-- What is true of the facts met at a node while its statements are run. -/
structure AtNode (S : Storage M) (start : ℕ) (mm : MatchMaker) (top met : Finset Copy) (n : ℕ)
    (rest : List FlatStmt) (s : Store M) : Prop where
  suffix : ∃ pre, mm.stmtsAt n = pre ++ rest
  mem : n ≠ start → n ∈ mm.predecessors.keys
  known : n ≠ start → ∀ c ∈ met, Known S start mm c
  entry : n ≠ start → rest = mm.stmtsAt n → ∀ c ∈ met, Fact S start mm s c
  kept : ∀ c ∈ met, c ∉ kill top mm n → Fact S start mm s c
  generated : rest = [] → ∀ c ∈ gen mm n, Fact S start mm s c

/-- The invariant of a run. -/
def Along (S : Storage M) (start : ℕ) (mm : MatchMaker) (top : Finset Copy)
    (values : Edge → Option (Finset Copy)) : NodeConfig M → Prop
  | .inside n rest s => ∃ met, (analysis top).bigMeet values (mm.predecessorEdges n) = some met ∧
      AtNode S start mm top met n rest s
  | .returned => True

variable {S : Storage M} {start : ℕ} {mm mm' : MatchMaker} {top : Finset Copy}
  {values : Edge → Option (Finset Copy)} {n : ℕ} {s s' : Store M}

/-- One step further. -/
theorem Reached.snoc {c c' : NodeConfig M} {a : Option (Event M)} (h : Reached S start mm c)
    (hstep : (mm.lts S).step c a c') : Reached S start mm c' := by
  obtain ⟨s, hreach⟩ := h
  exact ⟨s, hreach.snoc hstep⟩

/-! ## The statements of a node -/

/-- A statement of a node assigns variables that the node defines and result temps. -/
theorem exec_keeps {node : CFGNode} {st : FlatStmt} {e : Event M} {x : String} (haddr : node.Addressed)
    (hst : st ∈ node.stmts) (h : Exec S st s e s') (hx : x ∉ Properties.defs node)
    (hret : ∀ i, x ≠ retTemp i) : s'.temps x = s.temps x := by
  have hmov : ∀ m : Mov, m.Addressed → st = m.stmt → x ∉ Properties.moveDef m → s'.temps x = s.temps x := by
    rintro m hm rfl hdef
    cases m with
    | Gets y e =>
      cases h with
      | moveTemp hv => exact Function.update_of_ne (fun hxy => hdef (by simp [Properties.moveDef, hxy])) _ _
    | Mem loc e =>
      obtain ⟨address, rfl⟩ := hm
      cases h with
      | moveMem _ _ _ => rfl
  cases node with
  | mov m edge =>
    refine hmov m haddr (List.mem_singleton.mp hst) fun hdef => hx ?_
    cases m with
    | Gets y e => exact hdef
    | Mem loc e => cases hdef
  | Funcking name movIntos args edge =>
    rcases List.mem_cons.mp hst with rfl | hst
    · cases h with
      | call _ _ => exact setReturns_of_ne hret _ _ _
    · obtain ⟨m, hm, rfl⟩ := List.mem_map.mp hst
      exact hmov m (haddr m hm) rfl fun hdef =>
        hx ((Properties.mem_foldl_union _ _ _ _).mpr (.inr ⟨m, hm, hdef⟩))
  | Return rets =>
    rw [List.mem_singleton.mp hst] at h
    exact h.ne_endBlock.elim
  | If cond take edge => cases hst
  | Start name edge => cases hst
  | Cricket dest => cases hst
  | NOOP => cases hst

/-! ## Facts met, killed and generated -/

/-- What is met at a node is on every edge into it. -/
theorem bigMeet_subset {edges : List Edge} {met : Finset Copy} {e : Edge}
    (h : (analysis top).bigMeet values edges = some met) (he : e ∈ edges) :
    ∃ info, values e = some info ∧ met ⊆ info :=
  CFGFlow.bigMeet_rel (r := (· ⊆ ·)) (fun _ => subset_rfl) (fun _ _ _ => Finset.Subset.trans)
    (fun _ _ => Finset.inter_subset_left) (fun _ _ => Finset.inter_subset_right) h he

/-- With a value at every edge, a meet does not throw. -/
theorem bigMeet_isSome (hrep : mm.RepOk) (hsome : ∀ e ∈ mm.edges, (values e).isSome) (n : ℕ) :
    ∃ met, (analysis top).bigMeet values (mm.predecessorEdges n) = some met := by
  have hfilled : CFGFlow.Filled mm ⟨[], values⟩ := ⟨hsome, List.nodup_nil⟩
  refine ⟨_, hfilled.bigMeet_eq fun e he => ?_⟩
  exact MatchMaker.mem_edges.mpr (hrep.mem_predecessorEdges.mp he).2

/-- A fact is made by a move between its variables. -/
theorem gen_inv {c : Copy} (h : c ∈ gen mm n) :
    ∃ edge, mm.nodes[n]? = some (.mov (.Gets c.late (.Var c.early)) edge) := by
  unfold gen at h
  split at h
  · rename_i varName name edge hn
    cases Finset.mem_singleton.mp h
    exact ⟨edge, hn⟩
  · cases h

/-- Its variables are variables of the graph. -/
theorem Known.mem_allVars {c : Copy} (h : Known S start mm c) : c.late ∈ allVars mm ∧ c.early ∈ allVars mm := by
  constructor
  · obtain ⟨n, hn, hdef⟩ := h.late
    exact CopyProp.mem_allVars.mpr ⟨n, hn, Finset.mem_union_right _ hdef⟩
  · rcases h.early with ⟨n, hn, hdef⟩ | ⟨n, hn, -, huse⟩
    · exact CopyProp.mem_allVars.mpr ⟨n, hn, Finset.mem_union_right _ hdef⟩
    · exact CopyProp.mem_allVars.mpr ⟨n, hn, Finset.mem_union_left _ huse⟩

/-- A node does not define the variables of a fact it does not kill. -/
theorem not_defs_of_not_kill {c : Copy} (hlate : c.late ∈ allVars mm) (hearly : c.early ∈ allVars mm)
    (hkill : c ∉ kill top mm n) : c.late ∉ mm.defsAt n ∧ c.early ∉ mm.defsAt n := by
  unfold kill at hkill
  split at hkill
  · rename_i name edge hn
    rw [MatchMaker.defsAt, hn]
    exact ⟨Finset.notMem_empty _, Finset.notMem_empty _⟩
  · constructor
    · refine fun hdef => hkill (Finset.mem_biUnion.mpr ⟨c.late, hdef, ?_⟩)
      exact Finset.mem_biUnion.mpr ⟨c.early, hearly, Finset.mem_insert_self _ _⟩
    · refine fun hdef => hkill (Finset.mem_biUnion.mpr ⟨c.early, hdef, ?_⟩)
      exact Finset.mem_biUnion.mpr ⟨c.late, hlate, Finset.mem_insert_of_mem (Finset.mem_singleton_self _)⟩

/-- A node other than `Start` kills no fact about variables it does not define. -/
theorem not_kill {c : Copy} (hstart : ∀ name edge, mm.nodes[n]? ≠ some (.Start name edge))
    (hlate : c.late ∉ mm.defsAt n) (hearly : c.early ∉ mm.defsAt n) : c ∉ kill top mm n := by
  unfold kill
  split
  · rename_i name edge hn
    exact absurd hn (hstart name edge)
  · intro hmem
    obtain ⟨z, hz, hmem⟩ := Finset.mem_biUnion.mp hmem
    obtain ⟨v, -, hmem⟩ := Finset.mem_biUnion.mp hmem
    rcases Finset.mem_insert.mp hmem with rfl | hmem
    · exact hlate hz
    · cases Finset.mem_singleton.mp hmem
      exact hearly hz

/-- The statements of a node. -/
theorem stmtsAt_eq {node : CFGNode} (hn : mm.nodes[n]? = some node) : mm.stmtsAt n = node.stmts := by
  rw [MatchMaker.stmtsAt, hn]
  rfl

/-- What it defines. -/
theorem defsAt_eq {node : CFGNode} (hn : mm.nodes[n]? = some node) : mm.defsAt n = Properties.defs node := by
  rw [MatchMaker.defsAt, hn]
  rfl

/-- What it uses. -/
theorem useAt_eq {node : CFGNode} (hn : mm.nodes[n]? = some node) : mm.useAt n = Properties.use node := by
  rw [MatchMaker.useAt, hn]
  rfl

/-- A statement that is run belongs to a node. -/
theorem node_of_stmt {st : FlatStmt} (h : st ∈ mm.stmtsAt n) :
    ∃ node, mm.nodes[n]? = some node ∧ st ∈ node.stmts := by
  cases hn : mm.nodes[n]? with
  | none =>
    rw [MatchMaker.stmtsAt, hn] at h
    cases h
  | some node =>
    rw [stmtsAt_eq hn] at h
    exact ⟨node, rfl, h⟩

/-- No edge leads into the start node. -/
theorem Sane.predecessorEdges_start (hsane : Sane S start mm) : mm.predecessorEdges start = [] :=
  List.eq_nil_iff_forall_not_mem.mpr fun e he => hsane.noInto e.src e.jump (by
    obtain ⟨hnode, hedge⟩ := hsane.repOk.mem_predecessorEdges.mp he
    exact hnode ▸ hedge)

/-- A node behind an edge is a key of the predecessors. -/
theorem Sane.mem_keys (hsane : Sane S start mm) {jump : Bool} {m : ℕ} (h : mm.Edge n jump m) :
    m ∈ mm.predecessors.keys := by
  have hmem := (hsane.repOk.mem_into n jump m).mpr h
  rw [LinkedMap.mem_keys_iff, Option.isSome_iff_ne_none]
  intro hnone
  rw [MatchMaker.into, hnone] at hmem
  cases hmem

/-- Nothing has to be true at the start. -/
theorem along_start (hsane : Sane S start mm) (s : Store M) :
    Along S start mm top values (mm.entry start s) := by
  obtain ⟨name, edge, hstart⟩ := hsane.isStart
  refine ⟨top, ?_, ⟨[], rfl⟩, fun hne => absurd rfl hne, fun hne => absurd rfl hne,
    fun hne => absurd rfl hne, fun c hc hkill => ?_, fun _ c hc => ?_⟩
  · rw [hsane.predecessorEdges_start]
    rfl
  · rw [kill, hstart] at hkill
    exact absurd hc hkill
  · obtain ⟨edge', hn⟩ := gen_inv hc
    cases hstart.symm.trans hn

/-- Running a statement of a node. -/
theorem AtNode.exec {met : Finset Copy} {st : FlatStmt} {rest : List FlatStmt} {e : Event M}
    (hsane : Sane S start mm) (h : AtNode S start mm top met n (st :: rest) s)
    (hreach : Reached S start mm (.inside n (st :: rest) s)) (hexec : Exec S st s e s') :
    AtNode S start mm top met n rest s' := by
  obtain ⟨pre, hpre⟩ := h.suffix
  have hst : st ∈ mm.stmtsAt n := by
    rw [hpre]
    exact List.mem_append_right _ List.mem_cons_self
  obtain ⟨node, hn, hmem⟩ := node_of_stmt hst
  have haddr := hsane.addressed node (List.mem_of_getElem? hn)
  refine ⟨⟨pre ++ [st], by rw [hpre, List.append_assoc]; rfl⟩, h.mem, h.known, fun _ hrest => ?_,
    fun c hc hkill => ?_, fun hnil c hc => ?_⟩
  · have hlen := congrArg List.length (hrest.trans hpre)
    rw [List.length_append, List.length_cons] at hlen
    omega
  · obtain ⟨hknown, heq⟩ := h.kept c hc hkill
    -- a copy that the node does not kill keeps both of its sides
    obtain ⟨hlate, hearly⟩ := not_defs_of_not_kill hknown.mem_allVars.1 hknown.mem_allVars.2 hkill
    rw [defsAt_eq hn] at hlate hearly
    refine ⟨hknown, ?_⟩
    rw [exec_keeps haddr hmem hexec hlate fun i => (hknown.noRet i).1,
      exec_keeps haddr hmem hexec hearly fun i => (hknown.noRet i).2, heq]
  · -- the node is the copy that generates the fact
    subst hnil
    obtain ⟨edge, hcopy⟩ := gen_inv hc
    obtain ⟨hdef, huse⟩ := mem_gen hc
    have hstmts : mm.stmtsAt n = [.move (.temp c.late) (.temp c.early)] := stmtsAt_eq hcopy
    rw [hstmts] at hst
    rw [List.mem_singleton.mp hst] at hexec
    have hstart : n ≠ start := by
      rintro rfl
      obtain ⟨name, edge', hn'⟩ := hsane.isStart
      cases hcopy.symm.trans hn'
    have hall : n ∈ mm.allNodes := List.mem_append_left _ (h.mem hstart)
    have hvisited : Visited S start mm n := ⟨_, _, hreach⟩
    refine ⟨⟨⟨n, hall, hdef⟩, .inr ⟨n, hall, hvisited, huse⟩,
      hsane.copies n _ _ _ hvisited hcopy⟩, ?_⟩
    cases hexec with
    | moveTemp hv =>
      cases hv
      show Function.update s.temps c.late _ c.late = Function.update s.temps c.late _ c.early
      rw [Function.update_self, Function.update_apply]
      split_ifs
      · rfl
      · rfl

/-- Entering a node along an edge with true facts. -/
theorem along_leave (hsane : Sane S start mm) (hsome : ∀ e ∈ mm.edges, (values e).isSome) {jump : Bool}
    {m : ℕ} (hedge : mm.Edge n jump m)
    (hfacts : ∀ info, values ⟨n, m, jump⟩ = some info → ∀ c ∈ info, Fact S start mm s c) :
    Along S start mm top values (mm.entry m s) := by
  have hsomeMet : ∃ met, (analysis top).bigMeet values (mm.predecessorEdges m) = some met :=
    bigMeet_isSome hsane.repOk hsome m
  obtain ⟨met, hmeet⟩ := hsomeMet
  obtain ⟨info, hinfo, hsubset⟩ := bigMeet_subset hmeet
    (hsane.repOk.mem_predecessorEdges.mpr (show Edge.node ⟨n, m, jump⟩ = m ∧ _ from ⟨rfl, hedge⟩))
  have hmet : ∀ c ∈ met, Fact S start mm s c := fun c hc => hfacts info hinfo c (hsubset hc)
  refine ⟨met, hmeet, ⟨[], rfl⟩, fun _ => hsane.mem_keys hedge, fun _ c hc => (hmet c hc).known,
    fun _ _ => hmet, fun c hc _ => hmet c hc, fun hnil c hc => ?_⟩
  obtain ⟨edge, hcopy⟩ := gen_inv hc
  rw [stmtsAt_eq hcopy] at hnil
  cases hnil

/-- A run keeps the invariant, if the facts on the edges it takes are true. -/
theorem along_of_reached (hsane : Sane S start mm) (hsome : ∀ e ∈ mm.edges, (values e).isSome)
    (hfacts : ∀ n s jump m, Reached S start mm (.inside n [] s) →
      Along S start mm top values (.inside n [] s) → mm.leavesAt S s n = some jump → mm.Edge n jump m →
      ∀ info, values ⟨n, m, jump⟩ = some info → ∀ c ∈ info, Fact S start mm s c)
    {c : NodeConfig M} (hc : Reached S start mm c) : Along S start mm top values c := by
  obtain ⟨s, tr, hrun⟩ := hc
  have hinv : Reached S start mm c ∧ Along S start mm top values c := by
    refine hrun.invariant (I := fun c => Reached S start mm c ∧ Along S start mm top values c) ?_
      ⟨⟨s, .refl _⟩, along_start hsane s⟩
    rintro c a c' ⟨hreach, halong⟩ hstep
    refine ⟨hreach.snoc hstep, ?_⟩
    cases hstep with
    | exec hexec =>
      obtain ⟨met, hmeet, hat⟩ := halong
      exact ⟨met, hmeet, hat.exec hsane hreach hexec⟩
    | ret _ => trivial
    | leave hleaves hedge =>
      exact along_leave hsane hsome hedge (hfacts _ _ _ _ hreach halong hleaves hedge)
  exact hinv.2

/-- What a node passes on along an edge is true. -/
theorem AtNode.passes {met : Finset Copy} (h : AtNode S start mm top met n [] s) :
    ∀ c ∈ (met \ kill top mm n) ∪ gen mm n, Fact S start mm s c := by
  intro c hc
  rcases Finset.mem_union.mp hc with hc | hc
  · obtain ⟨hmet, hkill⟩ := Finset.mem_sdiff.mp hc
    exact h.kept c hmet hkill
  · exact h.generated rfl c hc

/-- The facts are true in every configuration of a run, by induction over its steps. -/
theorem Sound.along (hsane : Sane S start mm) (h : Sound S start mm values) {c : NodeConfig M}
    (hc : Reached S start mm c) : Along S start mm top values c :=
  along_of_reached hsane h.isSome (fun n s jump m hreach _ => h.facts n s jump m hreach) hc

/-- The values of a fixpoint are true. -/
theorem sound_of_fixpoint (hsane : Sane S start mm) (hfix : (analysis top).AtFixpoint mm values) :
    Sound S start mm values := by
  have hpass : ∀ n s jump m, Along S start mm top values (.inside n [] s) → mm.Edge n jump m →
      ∀ info, values ⟨n, m, jump⟩ = some info → ∀ c ∈ info, Fact S start mm s c := by
    rintro n s jump m ⟨met, hmeet, hat⟩ hedge info hinfo c hc
    obtain ⟨inInfo, newEdges, hmeet', htransition, hvalues⟩ := hfix.holds n
    cases hmeet.symm.trans hmeet'
    have hwrites : (⟨n, m, jump⟩ : Edge) ∈ (analysis top).writes mm n :=
      MatchMaker.mem_successorEdges.mpr ⟨rfl, hedge⟩
    rw [hvalues _ hwrites, ← Option.some.inj htransition] at hinfo
    cases hinfo
    exact hat.passes c hc
  refine ⟨hfix.isSome, fun n s jump m hreach _ hedge => hpass n s jump m ?_ hedge⟩
  exact along_of_reached hsane hfix.isSome (fun n s jump m _ halong _ => hpass n s jump m halong) hreach

/-! ## Runs of the solver -/

/-- An iteration keeps the values true, wherever it is made. -/
theorem Sound.process {sol sol' : Solver (Finset Copy)} {k : ℕ} (hsane : Sane S start mm)
    (h : Sound S start mm sol.values) (hprocess : (analysis top).process mm k n sol = some sol') :
    Sound S start mm sol'.values := by
  obtain ⟨inInfo, newEdges, hmeet, htransition, hvalues⟩ := CFGFlow.process_values hprocess
  constructor
  · intro e he
    rw [hvalues]
    split_ifs
    · rfl
    · exact h.isSome e he
  · intro n' s jump m hreach hleaves hedge info hinfo
    rw [hvalues] at hinfo
    split_ifs at hinfo with hwrites
    · have hsrc : n' = n := (MatchMaker.mem_successorEdges.mp hwrites).1
      subst hsrc
      have halong : Along S start mm top sol.values (.inside n' [] s) := h.along hsane hreach
      obtain ⟨met, hmeet', hat⟩ := halong
      cases hmeet.symm.trans hmeet'
      rw [← Option.some.inj htransition] at hinfo
      cases hinfo
      exact hat.passes
    · exact h.facts n' s jump m hreach hleaves hedge info hinfo

/-- So does a run, also one that stops early. -/
theorem Sound.runWithWorklist {picks : ℕ → ℕ} {wklist : List ℕ} {sol : Solver (Finset Copy)}
    (hsane : Sane S start mm) (h : Sound S start mm values)
    (hrun : (analysis top).runWithWorklist mm picks wklist values = some sol) :
    Sound S start mm sol.values := by
  refine CFGFlow.runWithWorklist_induction (P := Sound S start mm) ?_ ?_ hrun
  · rw [CFGFlow.fill_eq_self h.isSome]
    exact h
  · exact fun _ _ _ _ hsound hprocess => Sound.process hsane hsound hprocess

/-! ## Rewriting a node -/

variable {find : String → Option Copy}

/-- Renaming a variable to an equal one keeps the value of an expression. -/
theorem eval_replaceVar (hfind : ∀ x c, find x = some c → s.temps x = s.temps c.early) (e : CFGExpr) :
    (CFGDestroyer.translateExpr (replaceVar find e).1).eval S s = (CFGDestroyer.translateExpr e).eval S s := by
  induction e with
  | Var name =>
    rw [replaceVar]
    cases hc : find name with
    | none => rfl
    | some c =>
      dsimp only [Option.map_some]
      split_ifs with hne
      · show some (s.temps c.early) = some (s.temps name)
        rw [hfind name c hc]
      · rfl
  | Const value => rfl
  | Label name => rfl
  | Mem loc ih =>
    show ((CFGDestroyer.translateExpr (replaceVar find loc).1).eval S s).bind _ = _
    rw [ih]
    rfl
  | BOp left right op ihl ihr =>
    rw [replaceVar, CFGDestroyer.translateExpr, CFGDestroyer.translateExpr, LIRExpr.eval, LIRExpr.eval, ihl, ihr]

/-- It keeps those of several. -/
theorem evalList_replaceVars (hfind : ∀ x c, find x = some c → s.temps x = s.temps c.early)
    (es : List CFGExpr) : evalList S s ((replaceVars find es).1.map CFGDestroyer.translateExpr) =
      evalList S s (es.map CFGDestroyer.translateExpr) := by
  induction es with
  | nil => rfl
  | cons e es ih =>
    have ih : (List.map CFGDestroyer.translateExpr (replaceVars find es).1).mapM (LIRExpr.eval S s) =
        (List.map CFGDestroyer.translateExpr es).mapM (LIRExpr.eval S s) := ih
    show (List.mapM (LIRExpr.eval S s) (_ :: List.map CFGDestroyer.translateExpr (replaceVars find es).1)) =
      List.mapM (LIRExpr.eval S s) (_ :: List.map CFGDestroyer.translateExpr es)
    rw [List.mapM_cons, List.mapM_cons, ih, eval_replaceVar hfind]

/-- True facts rewrite the statements of a node to statements with the same effect; only the first one of
a node is rewritten. -/
theorem stmts_rewriteNode {node : CFGNode} (haddr : node.Addressed)
    (hfind : ∀ x c, find x = some c → s.temps x = s.temps c.early) :
    (node.stmts = [] ∧ (rewriteNode find node).1.stmts = []) ∨
      ∃ st st' rest, node.stmts = st :: rest ∧ (rewriteNode find node).1.stmts = st' :: rest ∧
        SameEffect S s st st' := by
  cases node with
  | mov m edge =>
    cases m with
    | Gets x e => exact .inr ⟨_, _, [], rfl, rfl, .gets (eval_replaceVar hfind e)⟩
    | Mem loc e =>
      obtain ⟨address, rfl⟩ := haddr
      exact .inr ⟨_, _, [], rfl, rfl, .store (eval_replaceVar hfind address) (eval_replaceVar hfind e)⟩
  | Funcking name movIntos args edge =>
    exact .inr ⟨_, _, movIntos.map Mov.stmt, rfl, rfl, .call (evalList_replaceVars hfind args)⟩
  | Return rets => exact .inr ⟨_, _, [], rfl, rfl, .returns (evalList_replaceVars hfind rets)⟩
  | If cond take edge => exact .inl ⟨rfl, rfl⟩
  | Start name edge => exact .inl ⟨rfl, rfl⟩
  | Cricket dest => exact .inl ⟨rfl, rfl⟩
  | NOOP => exact .inl ⟨rfl, rfl⟩

/-- Control leaves a rewritten node as it left the node. Only the guard of an `If` is rewritten. -/
theorem leaves_rewriteNode {node : CFGNode}
    (hfind : node.stmts = [] → ∀ x c, find x = some c → s.temps x = s.temps c.early) :
    (rewriteNode find node).1.leaves S s = node.leaves S s := by
  cases node with
  | If cond take edge =>
    show ((CFGDestroyer.translateExpr (replaceVar find cond).1).eval S s).map _ = _
    rw [eval_replaceVar (hfind rfl)]
    rfl
  | mov m edge => cases m <;> rfl
  | Funcking name movIntos args edge => rfl
  | Return rets => rfl
  | Start name edge => rfl
  | Cricket dest => rfl
  | NOOP => rfl

end CopyProp

end Jaek
