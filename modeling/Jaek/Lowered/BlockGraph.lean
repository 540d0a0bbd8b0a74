import Jaek.Lowered.LIRSeq

/-!
# Graphs of basic blocks and their layouts

`graph` is the meaning of a list of nodes as a control-flow graph: it does not depend on the order
of the list. A `Layout` says that a flat body contains the code of every node and that silent steps
lead from the end of each node to the start of its successor. `Layout.traces_eq` shows that the body
and the graph then behave alike; both the original body and the reordered one are layouts.
-/

namespace Jaek

variable {M : Type*} {S : Storage M}

/-- Statements a node may contain: neither labels nor jumps. -/
def FlatStmt.Plain : FlatStmt → Prop
  | .label _ => False
  | .endBlock (.ret _) => True
  | .endBlock _ => False
  | .callStmt _ _ _ => True
  | .move _ _ => True

/-- A plain statement that ends a block is a return, so control does not continue after it. -/
theorem FlatStmt.Plain.next_eq_none {e : EndBlock} {s : Store M}
    (h : (FlatStmt.endBlock e).Plain) : e.next S s = none := by
  cases e <;> first | rfl | exact h.elim

/-- The label of the node that runs after `n`, if control can leave `n`. -/
def Node.next (S : Storage M) (s : Store M) : Node → Option String
  | .none _ _ => Option.none
  | .unconditional _ _ dest => some dest
  | .conditional _ _ guard t f => (guard.eval S s).bind fun v => if v ≠ 0 then some t else f

/-- A guard that is not zero goes to the true label. -/
theorem Node.next_conditional_of_ne {s : Store M} {stmts : List FlatStmt} {l t : String}
    {guard : LIRExpr} {f : Option String} {v : Word} (h : guard.eval S s = some v) (hv : v ≠ 0) :
    (conditional stmts l guard t f).next S s = some t := by
  rw [next, h, Option.bind_some, if_pos hv]

/-- A guard of zero goes to the false one. -/
theorem Node.next_conditional_of_zero {s : Store M} {stmts : List FlatStmt} {l t : String}
    {guard : LIRExpr} {f : Option String} (h : guard.eval S s = some 0) :
    (conditional stmts l guard t f).next S s = f := by
  rw [next, h, Option.bind_some, if_neg (by simp)]

/-- The condition of `n` does not evaluate. -/
def Node.Traps (S : Storage M) (s : Store M) : Node → Prop
  | .conditional _ _ guard _ _ => guard.eval S s = Option.none
  | _ => False

/-- A point in a run of a graph: the statements left in the current node. -/
inductive GConfig (M : Type*)
  | running (rest : List FlatStmt) (n : Node) (s : Store M)
  | returned

/-- One step of a graph of nodes. -/
inductive GStep (S : Storage M) (nodes : List Node) :
    GConfig M → Option (Event M) → GConfig M → Prop
  | exec {st : FlatStmt} {rest : List FlatStmt} {n : Node} {s s' : Store M} {e : Event M} :
      Exec S st s e s' → GStep S nodes (.running (st :: rest) n s) (some e) (.running rest n s')
  | next {n n' : Node} {s : Store M} :
      n.next S s = some n'.label → n' ∈ nodes →
      GStep S nodes (.running [] n s) none (.running n'.statements n' s)
  | ret {vals : List LIRExpr} {rest : List FlatStmt} {n : Node} {s : Store M} {vs : List Word} :
      evalList S s vals = some vs →
      GStep S nodes (.running (.endBlock (.ret vals) :: rest) n s) (some (.ret vs)) .returned

/-- The behaviour of a graph of nodes. -/
def graph (S : Storage M) (nodes : List Node) : Lts (GConfig M) (Event M) := ⟨GStep S nodes⟩

/-- One silent step of a flat body over a fixed store. -/
inductive Silent (S : Storage M) (code : List FlatStmt) (s : Store M) :
    List FlatStmt → List FlatStmt → Prop
  | label {l : String} {rest : List FlatStmt} : Silent S code s (.label l :: rest) rest
  | control {e : EndBlock} {rest rest' : List FlatStmt} {d : Option String} :
      e.next S s = some d → goto code rest d = some rest' →
      Silent S code s (.endBlock e :: rest) rest'

variable {code rest rest' : List FlatStmt} {s : Store M}

/-- A silent step of the code. -/
theorem Silent.flatStep (h : Silent S code s rest rest') :
    (flat S code).step (.running rest s) none (.running rest' s) := by
  cases h with
  | label => exact .label
  | control hn hg => exact .control hn hg

/-- Where a silent step is possible it is the only step. -/
theorem Silent.unique {a : Option (Event M)} {c : Config M} (h : Silent S code s rest rest')
    (hs : (flat S code).step (.running rest s) a c) : a = none ∧ c = .running rest' s := by
  cases h with
  | label =>
    cases hs with
    | exec he => exact he.ne_label.elim
    | label => exact ⟨rfl, rfl⟩
  | control hn hg =>
    cases hs with
    | exec he => exact he.ne_endBlock.elim
    | control hn' hg' =>
      rw [hn, Option.some.injEq] at hn'
      subst hn'
      rw [hg, Option.some.injEq] at hg'
      exact ⟨rfl, by rw [hg']⟩
    | ret => simp [EndBlock.next] at hn

/-- A silent step changes no behaviour. -/
theorem Silent.traces_eq (h : Silent S code s rest rest') :
    (flat S code).traces (.running rest s) = (flat S code).traces (.running rest' s) := by
  ext tr
  constructor
  · rintro ⟨c, hrun⟩
    cases hrun with
    | refl => exact ⟨_, .refl _⟩
    | silent hs hrun => exact ⟨c, (h.unique hs).2 ▸ hrun⟩
    | event hs _ => exact absurd (h.unique hs).1 (by simp)
  · rintro ⟨c, hrun⟩
    exact ⟨c, .silent h.flatStep hrun⟩

/-- A conditional jump whose guard does not evaluate stops the body. -/
theorem stuck_of_cjump {guard : LIRExpr} {t : String} {f : Option String}
    (h : guard.eval S s = none) {a : Option (Event M)} {c : Config M} :
    ¬ (flat S code).step (.running (.endBlock (.cjump guard t f) :: rest) s) a c := by
  intro hstep
  cases hstep with
  | exec he => exact he.ne_endBlock
  | control hn _ => simp [EndBlock.next, h] at hn

/-- A guard that traps stops the run. -/
theorem stuck_of_trueJump {guard : LIRExpr} {t : String} (h : guard.eval S s = none)
    {a : Option (Event M)} {c : Config M} :
    ¬ (flat S code).step (.running (.endBlock (.trueJump guard t) :: rest) s) a c := by
  intro hstep
  cases hstep with
  | exec he => exact he.ne_endBlock
  | control hn _ => simp [EndBlock.next, h] at hn

/-- Silent steps are a run without events. -/
theorem run_of_silent (h : Relation.ReflTransGen (Silent S code s) rest rest') :
    (flat S code).Run (.running rest s) [] (.running rest' s) := by
  induction h using Relation.ReflTransGen.head_induction_on with
  | refl => exact .refl _
  | head hstep _ ih => exact .silent hstep.flatStep ih

/-- The behaviour of a graph does not depend on the order of its nodes. -/
theorem graph_congr {nodes nodes' : List Node} (h : ∀ n, n ∈ nodes ↔ n ∈ nodes') :
    graph S nodes = graph S nodes' := by
  have hsub : ∀ {ns ns' : List Node} {g g' : GConfig M} {a : Option (Event M)},
      (∀ n, n ∈ ns → n ∈ ns') → GStep S ns g a g' → GStep S ns' g a g' := by
    intro ns ns' g g' a hns hstep
    cases hstep with
    | exec he => exact .exec he
    | next hnext hn' => exact .next hnext (hns _ hn')
    | ret hv => exact .ret hv
  simp only [graph, Lts.mk.injEq]
  funext g a g'
  exact propext ⟨hsub fun n => (h n).mp, hsub fun n => (h n).mpr⟩

/-- At the end of a reachable node, none of its statements is a return. -/
theorem graph_reachable_end {nodes : List Node} {n₀ n : Node} {s₀ s : Store M}
    (h : (graph S nodes).Reachable (.running n₀.statements n₀ s₀) (.running [] n s))
    (e : EndBlock) : FlatStmt.endBlock e ∉ n.statements := by
  obtain ⟨tr, hrun⟩ := h
  -- what a node has executed so far contains no return
  have hinv := hrun.invariant
    (I := fun g => ∀ rest n s, g = .running rest n s →
      ∃ before, n.statements = before ++ rest ∧ ∀ e, FlatStmt.endBlock e ∉ before) (by
    rintro g a g' hI hstep
    cases hstep with
    | @exec st rest n s s' ev he =>
      rintro _ _ _ ⟨⟩
      obtain ⟨before, hb, hno⟩ := hI _ _ _ rfl
      refine ⟨before ++ [st], by simp [hb], fun e hmem => ?_⟩
      rcases List.mem_append.mp hmem with hmem | hmem
      · exact hno e hmem
      · rw [List.mem_singleton] at hmem
        exact (hmem ▸ he).ne_endBlock
    | next hnext hn' =>
      rintro _ _ _ ⟨⟩
      exact ⟨[], rfl, by simp⟩
    | ret hv => rintro _ _ _ ⟨⟩)
    (by rintro _ _ _ ⟨⟩; exact ⟨[], rfl, by simp⟩)
  obtain ⟨before, hb, hno⟩ := hinv _ _ _ rfl
  rw [hb, List.append_nil]
  exact hno e

/-- `code` contains every node: its statements start at `pos n`, and from its end `tail n` silent
steps lead to its successor, unless the condition of the node traps. -/
structure Layout (S : Storage M) (code : List FlatStmt) (nodes : List Node)
    (Ok : Node → Store M → Prop) where
  pos : Node → List FlatStmt
  tail : Node → List FlatStmt
  pos_eq : ∀ n ∈ nodes, pos n = n.statements ++ tail n
  plain : ∀ n ∈ nodes, ∀ st ∈ n.statements, st.Plain
  inj : ∀ n ∈ nodes, ∀ n' ∈ nodes, n.label = n'.label → n = n'
  glue : ∀ n ∈ nodes, ∀ n' ∈ nodes, ∀ s, Ok n s → n.next S s = some n'.label →
    Relation.TransGen (Silent S code s) (tail n) (pos n')
  stuck : ∀ n ∈ nodes, ∀ s, Ok n s → n.Traps S s →
    ∀ a c, ¬ (flat S code).step (.running (tail n) s) a c

namespace Layout

variable {nodes : List Node} {Ok : Node → Store M → Prop}

/-- A point of the flat body and a point of the graph inside the same node. -/
inductive Inside (L : Layout S code nodes Ok) : Config M → GConfig M → Prop
  | running {n : Node} {stmts : List FlatStmt} {s : Store M} :
      n ∈ nodes → (∀ st ∈ stmts, st.Plain) →
      Inside L (.running (stmts ++ L.tail n) s) (.running stmts n s)
  | returned : Inside L .returned .returned

/-- Two points at the same place: inside a node, or on the silent way from a node to its
successor. -/
inductive Rel (L : Layout S code nodes Ok) : Config M → GConfig M → Prop
  | inside {c : Config M} {g : GConfig M} : L.Inside c g → Rel L c g
  | between {n n' : Node} {rest : List FlatStmt} {s : Store M} :
      n ∈ nodes → n' ∈ nodes → n.next S s = some n'.label →
      Relation.TransGen (Silent S code s) rest (L.pos n') →
      Rel L (.running rest s) (.running [] n s)

/-- The place of a node is inside it. -/
theorem Inside.start (L : Layout S code nodes Ok) {n : Node} (hn : n ∈ nodes) (s : Store M) :
    L.Inside (.running (L.pos n) s) (.running n.statements n s) := by
  rw [L.pos_eq n hn]
  exact .running hn (L.plain n hn)

/-- A step of the graph is matched by the flat body. -/
theorem isSimulation_graph (L : Layout S code nodes Ok) (g₀ : GConfig M)
    (hok : ∀ n s, (graph S nodes).Reachable g₀ (.running [] n s) → Ok n s) :
    Lts.IsSimulation (graph S nodes) (flat S code)
      (fun g c => L.Inside c g ∧ (graph S nodes).Reachable g₀ g) := by
  rintro g c a g' ⟨hR, hreach⟩ hstep
  have hreach' := hreach.snoc hstep
  cases hR with
  | returned => cases hstep
  | running hn hplain =>
    rename_i n stmts s
    cases hstep with
    | exec he =>
      exact ⟨_, .single (.exec he), .running hn fun st h => hplain st (by simp [h]), hreach'⟩
    | next hnext hn' =>
      have hglue := L.glue n hn _ hn' s (hok _ _ hreach) hnext
      exact ⟨_, run_of_silent hglue.to_reflTransGen, Inside.start L hn' s, hreach'⟩
    | ret hv => exact ⟨_, .single (.ret hv), .returned, hreach'⟩

/-- After one more silent step of the body the graph is still in step with it. -/
theorem Rel.advance (L : Layout S code nodes Ok) {n n' : Node} {s : Store M}
    {rest : List FlatStmt} (hn : n ∈ nodes) (hn' : n' ∈ nodes)
    (hnext : n.next S s = some n'.label)
    (hsilent : Relation.TransGen (Silent S code s) rest (L.pos n'))
    {a : Option (Event M)} {c : Config M} (hstep : (flat S code).step (.running rest s) a c) :
    a = none ∧ ∃ g, (graph S nodes).Run (.running [] n s) [] g ∧ L.Rel c g := by
  obtain ⟨rest', hfirst, hrest⟩ := Relation.TransGen.head'_iff.mp hsilent
  obtain ⟨rfl, rfl⟩ := hfirst.unique hstep
  refine ⟨rfl, ?_⟩
  rcases Relation.reflTransGen_iff_eq_or_transGen.mp hrest with heq | htrans
  · -- the body has arrived at the successor, so the graph moves there
    subst heq
    exact ⟨_, .silent (.next hnext hn') (.refl _), .inside (Inside.start L hn' s)⟩
  · exact ⟨_, .refl _, .between hn hn' hnext htrans⟩

/-- A step of the flat body is matched by the graph, as long as control leaves every node or its
condition traps. -/
theorem isSimulation_flat (L : Layout S code nodes Ok) (g₀ : GConfig M)
    (hok : ∀ n s, (graph S nodes).Reachable g₀ (.running [] n s) →
      Ok n s ∧ ((∃ n' ∈ nodes, n.next S s = some n'.label) ∨ n.Traps S s)) :
    Lts.IsSimulation (flat S code) (graph S nodes)
      (fun c g => L.Rel c g ∧ (graph S nodes).Reachable g₀ g) := by
  rintro c g a c' ⟨hR, hreach⟩ hstep
  cases hR with
  | inside hin =>
    cases hin with
    | returned => cases hstep
    | running hn hplain =>
      rename_i n stmts s
      cases stmts with
      | nil =>
        obtain ⟨hOk, ⟨n', hn', hnext⟩ | htraps⟩ := hok _ _ hreach
        · obtain ⟨rfl, g', hrun, hR'⟩ :=
            Rel.advance L hn hn' hnext (L.glue n hn n' hn' s hOk hnext) hstep
          exact ⟨g', hrun, hR', hreach.trans ⟨_, hrun⟩⟩
        · exact (L.stuck n hn s hOk htraps _ _ hstep).elim
      | cons st stmts =>
        have hst := hplain st (by simp)
        have hrest : ∀ st ∈ stmts, st.Plain := fun st h => hplain st (by simp [h])
        cases hstep with
        | @exec _ _ _ s' e he =>
          have hg : (graph S nodes).step (.running (st :: stmts) n s) (some e)
              (.running stmts n s') := .exec he
          exact ⟨_, .single hg, .inside (.running hn hrest), hreach.snoc hg⟩
        | label => exact hst.elim
        | control hnext _ => simp [hst.next_eq_none] at hnext
        | @ret vals _ _ vs hv =>
          have hg : (graph S nodes).step (.running (.endBlock (.ret vals) :: stmts) n s)
              (some (.ret vs)) .returned := .ret hv
          exact ⟨_, .single hg, .inside .returned, hreach.snoc hg⟩
  | between hn hn' hnext hsilent =>
    obtain ⟨rfl, g', hrun, hR'⟩ := Rel.advance L hn hn' hnext hsilent hstep
    exact ⟨g', hrun, hR', hreach.trans ⟨_, hrun⟩⟩

/-- A body and the graph it lays out have the same behaviour, started at a node. -/
theorem traces_eq (L : Layout S code nodes Ok) {n₀ : Node} (hn₀ : n₀ ∈ nodes) (s₀ : Store M)
    (hok : ∀ n s, (graph S nodes).Reachable (.running n₀.statements n₀ s₀) (.running [] n s) →
      Ok n s ∧ ((∃ n' ∈ nodes, n.next S s = some n'.label) ∨ n.Traps S s)) :
    (flat S code).traces (.running (L.pos n₀) s₀)
      = (graph S nodes).traces (.running n₀.statements n₀ s₀) := by
  have hstart := Inside.start L hn₀ s₀
  exact Set.Subset.antisymm
    ((L.isSimulation_flat _ hok).traces_subset ⟨.inside hstart, .refl _⟩)
    ((L.isSimulation_graph _ fun n s h => (hok n s h).1).traces_subset ⟨hstart, .refl _⟩)

end Layout

/-! ## Layouts made of segments -/

/-- The code of one node: an optional printed label, its statements and the jumps after them. -/
structure Segment where
  label : String
  explicit : Bool
  stmts : List FlatStmt
  glue : List FlatStmt

/-- The code of a list of segments. -/
def segCode : List Segment → List FlatStmt
  | [] => []
  | g :: gs => (if g.explicit then [.label g.label] else []) ++ (g.stmts ++ (g.glue ++ segCode gs))

/-- The statements of a segment are in the code. -/
theorem mem_segCode {st : FlatStmt} {pre post : List Segment} {g : Segment}
    (h : st ∈ g.stmts ++ g.glue) : st ∈ segCode (pre ++ g :: post) := by
  induction pre with
  | nil =>
    rw [List.nil_append, segCode, ← List.append_assoc g.stmts]
    exact List.mem_append_right _ (List.mem_append_left _ h)
  | cons g' pre ih =>
    rw [List.cons_append, segCode]
    exact List.mem_append_right _ (List.mem_append_right _ (List.mem_append_right _ ih))

/-- The code that follows the statements of the segment with a label. -/
def segTail : List Segment → String → List FlatStmt
  | [], _ => []
  | g :: gs, l => if g.label = l then g.glue ++ segCode gs else segTail gs l

/-- The statements of the segment with a label, and the code that follows. -/
def segPos : List Segment → String → List FlatStmt
  | [], _ => []
  | g :: gs, l => if g.label = l then g.stmts ++ (g.glue ++ segCode gs) else segPos gs l

section Segments

variable {gs pre post : List Segment} {g g' : Segment} {code : List FlatStmt}

/-- What comes behind the statements of a segment. -/
theorem segTail_append (post : List Segment) (h : g.label ∉ pre.map (·.label)) :
    segTail (pre ++ g :: post) g.label = g.glue ++ segCode post := by
  induction pre with
  | nil => simp [segTail]
  | cons g' pre ih =>
    simp only [List.map_cons, List.mem_cons, not_or] at h
    simp [segTail, Ne.symm h.1, ih h.2]

/-- Where a segment starts. -/
theorem segPos_append (post : List Segment) (h : g.label ∉ pre.map (·.label)) :
    segPos (pre ++ g :: post) g.label = g.stmts ++ (g.glue ++ segCode post) := by
  induction pre with
  | nil => simp [segPos]
  | cons g' pre ih =>
    simp only [List.map_cons, List.mem_cons, not_or] at h
    simp [segPos, Ne.symm h.1, ih h.2]

/-- The labels of the segments are distinct, no label stands among the statements, and the labels
in the glue are not labels of segments. -/
structure SegmentsOk (gs : List Segment) : Prop where
  nodup : (gs.map (·.label)).Nodup
  stmts : ∀ g ∈ gs, labels g.stmts = []
  glue : ∀ g ∈ gs, ∀ l ∈ labels g.glue, l ∉ gs.map (·.label)

/-- No segment before it has its label. -/
theorem SegmentsOk.not_mem_pre (h : SegmentsOk (pre ++ g :: post)) :
    g.label ∉ pre.map (·.label) := by
  have := h.nodup
  simp only [List.map_append, List.map_cons, List.nodup_append, List.mem_cons] at this
  exact fun hmem => this.2.2 _ hmem _ (.inl rfl) rfl

/-- A printed label is found at its segment. -/
theorem SegmentsOk.findLabel_eq (h : SegmentsOk (pre ++ g :: post)) (he : g.explicit) :
    findLabel (segCode (pre ++ g :: post)) g.label
      = some (segPos (pre ++ g :: post) g.label) := by
  rw [segPos_append _ h.not_mem_pre]
  -- skip the segments in front, none of which has the label
  suffices ∀ pre', (∀ g' ∈ pre', g' ∈ pre) → findLabel (segCode (pre' ++ g :: post)) g.label
      = some (g.stmts ++ (g.glue ++ segCode post)) from this pre fun _ h => h
  intro pre' hsub
  induction pre' with
  | nil => simp [segCode, he]
  | cons g' pre' ih =>
    have hg' : g' ∈ pre := hsub g' (by simp)
    have hne : g'.label ≠ g.label := fun heq =>
      h.not_mem_pre (heq ▸ List.mem_map_of_mem hg')
    have hlabel : g.label ∉ labels (if g'.explicit then [FlatStmt.label g'.label] else []) := by
      split <;> simp [Ne.symm hne]
    have hstmts : g.label ∉ labels g'.stmts := by simp [h.stmts g' (by simp [hg'])]
    have hglue : g.label ∉ labels g'.glue := fun hmem =>
      h.glue g' (by simp [hg']) _ hmem (by simp)
    rw [List.cons_append, segCode, findLabel_append hlabel, findLabel_append hstmts,
      findLabel_append hglue]
    exact ih fun g' h => hsub g' (by simp [h])

/-- Running into the next segment leads to its statements. -/
theorem SegmentsOk.fallThrough (h : SegmentsOk (pre ++ g :: g' :: post)) (s : Store M) :
    Relation.ReflTransGen (Silent S (segCode (pre ++ g :: g' :: post)) s) (segCode (g' :: post))
      (segPos (pre ++ g :: g' :: post) g'.label) := by
  have h' : SegmentsOk ((pre ++ [g]) ++ g' :: post) := by simpa using h
  have hpos := segPos_append post h'.not_mem_pre
  simp only [List.append_assoc, List.singleton_append] at hpos
  rw [hpos, segCode]
  split
  · exact .single .label
  · exact .refl

/-- Running into a next segment with a printed label takes at least one step. -/
theorem SegmentsOk.fallThrough_explicit (h : SegmentsOk (pre ++ g :: g' :: post))
    (he : g'.explicit) (s : Store M) :
    Relation.TransGen (Silent S (segCode (pre ++ g :: g' :: post)) s) (segCode (g' :: post))
      (segPos (pre ++ g :: g' :: post) g'.label) := by
  have h' : SegmentsOk ((pre ++ [g]) ++ g' :: post) := by simpa using h
  have hpos := segPos_append post h'.not_mem_pre
  simp only [List.append_assoc, List.singleton_append] at hpos
  rw [hpos, segCode, if_pos he]
  exact .single .label

/-- Segments lay a graph out when each node has a segment whose glue leads to its successors. -/
def Layout.ofSegments {nodes : List Node} {Ok : Node → Store M → Prop} (h : SegmentsOk gs)
    (plain : ∀ n ∈ nodes, ∀ st ∈ n.statements, st.Plain)
    (inj : ∀ n ∈ nodes, ∀ n' ∈ nodes, n.label = n'.label → n = n')
    (seg : ∀ n ∈ nodes, ∃ pre g post, gs = pre ++ g :: post ∧ g.label = n.label ∧
      g.stmts = n.statements ∧
      (∀ n' ∈ nodes, ∀ s, Ok n s → n.next S s = some n'.label →
        Relation.TransGen (Silent S code s) (g.glue ++ segCode post) (segPos gs n'.label)) ∧
      ∀ s, Ok n s → n.Traps S s →
        ∀ a c, ¬ (flat S code).step (.running (g.glue ++ segCode post) s) a c) :
    Layout S code nodes Ok where
  pos n := segPos gs n.label
  tail n := segTail gs n.label
  pos_eq n hn := by
    obtain ⟨pre, g, post, rfl, hl, hs, -, -⟩ := seg n hn
    rw [← hl, ← hs, segPos_append _ h.not_mem_pre, segTail_append _ h.not_mem_pre]
  plain := plain
  inj := inj
  glue n hn n' hn' s hOk hnext := by
    obtain ⟨pre, g, post, rfl, hl, -, hglue, -⟩ := seg n hn
    rw [← hl, segTail_append _ h.not_mem_pre]
    exact hglue n' hn' s hOk hnext
  stuck n hn s hOk htraps := by
    obtain ⟨pre, g, post, rfl, hl, -, -, hstuck⟩ := seg n hn
    rw [← hl, segTail_append _ h.not_mem_pre]
    exact hstuck s hOk htraps

end Segments

end Jaek
