import Jaek.Lowered.BasicBlocks
import Jaek.Lowered.Trace

/-!
# Block reordering is correct

The output of `blockReordering` is again a layout of the control-flow graph of the body
(`orderLayout`), whatever order the trace puts the nodes in. As the graph does not depend on that
order, the output and the body behave alike (`blockReordering_correct`).
-/

namespace Jaek

variable {M : Type*} {S : Storage M} {s : Store M}

namespace LIRSeq

/-! ## The printed order as segments -/

/-- The jumps that `fixJumps` and `removeUselessJumps` leave behind a node in front of `next`. -/
def glueCode (node : Node) (next : Option String) (count : ℕ) : List FlatStmt :=
  match node with
  | .none _ _ => []
  | .unconditional _ _ dest => if next = some dest then [] else [.endBlock (.jump dest)]
  | .conditional _ _ condition trueEdge none =>
    if next = some trueEdge then [] else [.endBlock (.trueJump condition trueEdge)]
  | .conditional _ _ condition trueEdge (some falseEdge) =>
    if next = some trueEdge then [.endBlock (.trueJump (invert condition) falseEdge)]
    else .endBlock (.trueJump condition trueEdge) :: .label (freshLabel (count + 1)) ::
      if next = some falseEdge then [] else [.endBlock (.jump falseEdge)]

/-- The segments of an order of nodes. -/
def orderSegments : List Node → ℕ → List Segment
  | [], _ => []
  | n :: ns, count =>
    ⟨n.label, true, n.statements, glueCode n (ns.head?.map (·.label)) count⟩ ::
      orderSegments ns (fixNode n (ns.head?.map (·.label)) count).2

/-- The first segment of a node has its label. -/
theorem fixNode_head (node : Node) (next : Option String) (count : ℕ) :
    (fixNode node next count).1.head?.map (·.label) = some node.label := by
  rcases node with ⟨ss, l⟩ | ⟨ss, l, dest⟩ | ⟨ss, l, g, t, _ | f⟩
  · rfl
  · rfl
  · simp only [fixNode]
    split <;> rfl
  · simp only [fixNode]
    split <;> rfl

/-- The counter does not go down. -/
theorem le_fixNode_count (node : Node) (next : Option String) (count : ℕ) :
    count ≤ (fixNode node next count).2 := by
  rcases node with ⟨ss, l⟩ | ⟨ss, l, dest⟩ | ⟨ss, l, g, t, _ | f⟩
  · exact le_rfl
  · exact le_rfl
  · simp only [fixNode]
    split <;> exact le_rfl
  · simp only [fixNode]
    split <;> simp

/-- Repairing the jumps does not change which label comes first. -/
theorem fixJumps_head (nodes : List Node) (count : ℕ) :
    (fixJumps nodes count).1.head?.map (·.label) = nodes.head?.map (·.label) := by
  cases nodes with
  | nil => rfl
  | cons n ns =>
    have h := fixNode_head n (ns.head?.map (·.label)) count
    rcases hfixed : (fixNode n (ns.head?.map (·.label)) count).1 with _ | ⟨m, ms⟩
    · simp [hfixed] at h
    · simpa [fixJumps, hfixed] using h

/-- What is printed for the nodes that one node becomes. -/
theorem toSequence_fixNode (n : Node) {rest : List Node} {next : Option String}
    (hrest : rest.head?.map (·.label) = next) (count : ℕ) :
    toSequence (removeUselessJumps ((fixNode n next count).1 ++ rest))
      = .label n.label :: (n.statements ++
        (glueCode n next count ++ toSequence (removeUselessJumps rest))) := by
  have hsplit : ∀ node nodes, toSequence (removeUselessJumps (node :: nodes))
      = nodeCode (removeUselessJump node (nodes.head?.map (·.label)))
        ++ toSequence (removeUselessJumps nodes) := fun node nodes => by
    rw [removeUselessJumps, toSequence, List.flatMap_cons]
    rfl
  rcases n with ⟨ss, l⟩ | ⟨ss, l, dest⟩ | ⟨ss, l, g, t, _ | f⟩
  · simp [fixNode, glueCode, hsplit, removeUselessJump, nodeCode, Node.label, Node.statements]
  · simp only [fixNode, glueCode, List.singleton_append, hsplit, hrest, removeUselessJump]
    split <;> simp [nodeCode, Node.label, Node.statements]
  · simp only [fixNode, glueCode]
    split <;> simp [hsplit, removeUselessJump, nodeCode, Node.label, Node.statements]
  · simp only [fixNode, glueCode]
    split
    · simp [hsplit, removeUselessJump, nodeCode, Node.label, Node.statements]
    · -- the second node is an unconditional jump, and may be useless
      simp only [List.cons_append, List.nil_append, hsplit, hrest, removeUselessJump]
      split <;> simp [nodeCode, Node.label, Node.statements]

/-- The three printing passes write the segments of the order. -/
theorem toSequence_eq (order : List Node) (count : ℕ) :
    toSequence (removeUselessJumps (fixJumps order count).1)
      = segCode (orderSegments order count) := by
  induction order generalizing count with
  | nil => rfl
  | cons n ns ih =>
    rw [orderSegments, segCode, ← ih, if_pos rfl]
    exact toSequence_fixNode n (fixJumps_head ns _) count

@[simp] theorem orderSegments_map_label (order : List Node) (count : ℕ) :
    (orderSegments order count).map (·.label) = order.map (·.label) := by
  induction order generalizing count with
  | nil => rfl
  | cons n ns ih => simp [orderSegments, ih]

/-- Where the segment of a node stands. -/
theorem orderSegments_split {order : List Node} {n : Node} (hn : n ∈ order) (count : ℕ) :
    ∃ pre post c c', count ≤ c ∧ n :: post <:+ order ∧ orderSegments order count =
      pre ++ ⟨n.label, true, n.statements, glueCode n (post.head?.map (·.label)) c⟩ ::
        orderSegments post c' := by
  induction order generalizing count with
  | nil => simp at hn
  | cons m ms ih =>
    rcases List.mem_cons.mp hn with rfl | hn
    · exact ⟨[], ms, count, _, le_rfl, List.suffix_rfl, rfl⟩
    · obtain ⟨pre, post, c, c', hc, hpost, heq⟩ :=
        ih hn (fixNode m (ms.head?.map (·.label)) count).2
      exact ⟨_ :: pre, post, c, c', (le_fixNode_count _ _ _).trans hc,
        hpost.trans (List.suffix_cons m ms), by rw [orderSegments, heq, List.cons_append]⟩

/-- A segment is a node of the order, with the glue behind it. -/
theorem mem_orderSegments {order : List Node} {count : ℕ} {g : Segment}
    (hg : g ∈ orderSegments order count) : ∃ n ∈ order, ∃ next c, count ≤ c ∧
      g = ⟨n.label, true, n.statements, glueCode n next c⟩ := by
  induction order generalizing count with
  | nil => simp [orderSegments] at hg
  | cons m ms ih =>
    rcases List.mem_cons.mp hg with rfl | hg
    · exact ⟨m, by simp, _, count, le_rfl, rfl⟩
    · obtain ⟨n, hn, next, c, hc, rfl⟩ := ih hg
      exact ⟨n, by simp [hn], next, c, (le_fixNode_count _ _ _).trans hc, rfl⟩

/-- The only label of the glue is a fresh one. -/
theorem labels_glueCode {node : Node} {next : Option String} {count : ℕ} {l : String}
    (h : l ∈ labels (glueCode node next count)) : l = freshLabel (count + 1) := by
  rcases node with ⟨ss, l'⟩ | ⟨ss, l', dest⟩ | ⟨ss, l', g, t, _ | f⟩
  · simp [glueCode] at h
  · simp only [glueCode] at h
    split at h <;> simp at h
  · simp only [glueCode] at h
    split at h <;> simp at h
  · simp only [glueCode] at h
    split at h
    · simp at h
    · split at h <;> simpa using h

/-- What `orderSegments` needs of the nodes: distinct labels that the counter has not passed. -/
structure OrderOk (order : List Node) (count : ℕ) : Prop where
  nodup : (order.map (·.label)).Nodup
  plain : ∀ n ∈ order, ∀ st ∈ n.statements, st.Plain
  fresh : ∀ n ∈ order, ∀ k, count < k → n.label ≠ freshLabel k

/-- The segments of an order can be run. -/
theorem OrderOk.segmentsOk {order : List Node} {count : ℕ} (h : OrderOk order count) :
    SegmentsOk (orderSegments order count) where
  nodup := by rw [orderSegments_map_label]; exact h.nodup
  stmts := by
    intro g hg
    obtain ⟨n, hn, next, c, -, rfl⟩ := mem_orderSegments hg
    exact labels_of_plain (h.plain n hn)
  glue := by
    intro g hg l hl
    obtain ⟨n, hn, next, c, hc, rfl⟩ := mem_orderSegments hg
    rw [labels_glueCode hl, orderSegments_map_label, List.mem_map]
    rintro ⟨n', hn', heq⟩
    exact h.fresh n' hn' (c + 1) (by omega) heq

/-! ## The printed order as a layout -/

/-- Inverting a condition flips its lowest bit, also where it removes an inversion. -/
theorem eval_invert (g : LIRExpr) : (invert g).eval S s = (g.eval S s).map (· ^^^ 1) := by
  unfold invert
  split
  · rename_i left
    cases hl : left.eval S s with
    | none => simp [LIRExpr.eval, hl]
    | some w => simp [LIRExpr.eval, hl, OpType.eval]
  · cases hg : g.eval S s with
    | none => simp [LIRExpr.eval, hg]
    | some w => simp [LIRExpr.eval, hg, OpType.eval]

section Order

variable {order : List Node} {count : ℕ}

/-- A jump to a node comes to its segment. -/
theorem OrderOk.goto_eq (h : OrderOk order count) {n : Node} (hn : n ∈ order)
    (rest : List FlatStmt) :
    goto (segCode (orderSegments order count)) rest (some n.label)
      = some (segPos (orderSegments order count) n.label) := by
  have hok := h.segmentsOk
  obtain ⟨pre, post, c, c', -, -, heq⟩ := orderSegments_split hn count
  rw [heq] at hok ⊢
  exact hok.findLabel_eq rfl

/-- The glue behind a node leads to the node that runs next. -/
theorem OrderOk.glue (h : OrderOk order count) {n n' : Node} (hn' : n' ∈ order) {post : List Node}
    {pre : List Segment} {c c' : ℕ}
    (heq : orderSegments order count =
      pre ++ ⟨n.label, true, n.statements, glueCode n (post.head?.map (·.label)) c⟩ ::
        orderSegments post c')
    (hguard : n.GuardOk S s) (hnext : n.next S s = some n'.label) :
    Relation.TransGen (Silent S (segCode (orderSegments order count)) s)
      (glueCode n (post.head?.map (·.label)) c ++ segCode (orderSegments post c'))
      (segPos (orderSegments order count) n'.label) := by
  have hgoto : ∀ rest, goto (segCode (orderSegments order count)) rest (some n'.label)
      = some (segPos (orderSegments order count) n'.label) := h.goto_eq hn'
  -- Where the next block of the order is the one to go to, nothing is printed.
  have hfall : post.head?.map (·.label) = some n'.label →
      Relation.TransGen (Silent S (segCode (orderSegments order count)) s)
        (segCode (orderSegments post c')) (segPos (orderSegments order count) n'.label) := by
    intro hpost
    have hok := h.segmentsOk
    cases post with
    | nil => simp at hpost
    | cons q post =>
      simp only [List.head?_cons, Option.map_some, Option.some.injEq] at hpost
      rw [heq, orderSegments] at hok ⊢
      rw [← hpost]
      exact hok.fallThrough_explicit rfl s
  generalize post.head?.map (·.label) = next at hfall ⊢
  rcases n with ⟨ss, l⟩ | ⟨ss, l, dest⟩ | ⟨ss, l, g, t, _ | f⟩
  · simp [Node.next] at hnext
  · simp only [Node.next, Option.some.injEq] at hnext
    subst hnext
    simp only [glueCode]
    split
    · exact hfall ‹_›
    · exact .single (.control rfl (hgoto _))
  · -- only a true branch: the guard evaluates, so it holds
    obtain ⟨v, hv⟩ := Option.ne_none_iff_exists'.mp (hguard.2 rfl)
    by_cases hv0 : v = 0
    · subst hv0
      rw [Node.next_conditional_of_zero hv] at hnext
      simp at hnext
    · rw [Node.next_conditional_of_ne hv hv0, Option.some.injEq] at hnext
      subst hnext
      simp only [glueCode]
      split
      · exact hfall ‹_›
      · exact .single (.control (EndBlock.next_trueJump_of_ne hv hv0 _) (hgoto _))
  · cases hv : g.eval S s with
    | none => simp [Node.next, hv] at hnext
    | some v =>
      have hinvert : (invert g).eval S s = some (v ^^^ 1) := by rw [eval_invert, hv]; rfl
      simp only [glueCode]
      rcases hguard.1 v hv with rfl | rfl
      · rw [Node.next_conditional_of_zero hv, Option.some.injEq] at hnext
        subst hnext
        split
        · -- the inverted condition holds and jumps to the false branch
          exact .single (.control (EndBlock.next_trueJump_of_ne hinvert (by decide) _) (hgoto _))
        · refine .head (.control (EndBlock.next_trueJump_of_zero hv _) rfl) (.head .label ?_)
          split
          · exact hfall ‹_›
          · exact .single (.control rfl (hgoto _))
      · rw [Node.next_conditional_of_ne hv (by decide), Option.some.injEq] at hnext
        subst hnext
        split
        · exact .head (.control (EndBlock.next_trueJump_of_zero hinvert _) rfl) (hfall ‹_›)
        · exact .single (.control (EndBlock.next_trueJump_of_ne hv (by decide) _) (hgoto _))

/-- A node whose condition traps stops in the printed code too. -/
theorem glueCode_stuck {code : List FlatStmt} {n : Node} (hguard : n.GuardOk S s)
    (htraps : n.Traps S s) (next : Option String) (c : ℕ) (rest : List FlatStmt)
    (a : Option (Event M)) (x : Config M) :
    ¬ (flat S code).step (.running (glueCode n next c ++ rest) s) a x := by
  rcases n with ⟨ss, l⟩ | ⟨ss, l, dest⟩ | ⟨ss, l, g, t, _ | f⟩
  · exact htraps.elim
  · exact htraps.elim
  · exact (hguard.2 rfl htraps).elim
  · have hinvert : (invert g).eval S s = none := by
      rw [eval_invert, show g.eval S s = none from htraps, Option.map_none]
    simp only [glueCode]
    split
    · exact stuck_of_trueJump hinvert
    · exact stuck_of_trueJump htraps

/-- The printed order is a layout of its nodes. -/
def orderLayout (S : Storage M) (h : OrderOk order count) :
    Layout S (segCode (orderSegments order count)) order (fun n s => n.GuardOk S s) :=
  .ofSegments h.segmentsOk h.plain
    (fun n hn n' hn' heq => List.inj_on_of_nodup_map h.nodup hn hn' heq)
    (fun n hn => by
      obtain ⟨pre, post, c, c', -, -, heq⟩ := orderSegments_split hn count
      exact ⟨pre, _, _, heq, rfl, rfl, fun n' hn' s hguard hnext => h.glue hn' heq hguard hnext,
        fun s hguard htraps => glueCode_stuck hguard htraps _ _ _⟩)

end Order

/-! ## The whole pass -/

/-- An edge of a node is a target of its block's jump, or leads to the textual successor. -/
theorem edges_buildNode {b : BasicBlock} {next : Option String} {l : String}
    (h : l ∈ (buildNode b next).edges) :
    (∃ e, b.end = some e ∧ l ∈ e.targets) ∨ next = some l := by
  rcases b with ⟨bl, ord, _ | e⟩
  · cases next with
    | none => simp [buildNode, Node.edges] at h
    | some l' => exact .inr (congrArg some (List.mem_singleton.mp h).symm)
  · cases e with
    | jump a => exact .inl ⟨_, rfl, h⟩
    | cjump g t f => exact .inl ⟨_, rfl, h⟩
    | trueJump g t =>
      rcases List.mem_cons.mp h with rfl | h
      · exact .inl ⟨_, rfl, by simp [EndBlock.targets]⟩
      · exact .inr (by simpa using h)
    | ret vals => simp [buildNode, Node.edges] at h

section Split

variable {body : List FlatStmt} {p₀ : BasicBlock × Bool} {fs : List (BasicBlock × Bool)}
  {count count' : ℕ}

/-- No edge leads back to the entry block, whose label is fresh. -/
theorem entry_no_predecessor (h : Split body (p₀ :: fs) count count') (hp₀ : p₀.2 = false)
    (hwf : WellFormed body count) :
    hasPredecessor (buildCFG ((p₀ :: fs).map (·.1))) 0 = false := by
  obtain ⟨k, hk, -, hfresh⟩ := h.mem_freshLabels (List.mem_cons_self ..) hp₀
  have hnodup := h.nodup hwf
  rw [List.map_cons, List.nodup_cons] at hnodup
  refine hasPredecessor_eq_false (n := buildNode p₀.1 _) fun n' hn' hedge => ?_
  rw [buildNode_label] at hedge
  rw [← buildCFG, ← List.map_cons] at hn'
  obtain ⟨pre, p, post, hfs, rfl⟩ := Split.mem_nodes hn'
  rcases edges_buildNode hedge with ⟨e, he, hl⟩ | hnext
  · exact hwf.fresh k hk (hfresh ▸ hwf.targets e (h.endBlock_mem (by simp [hfs]) he) _ hl)
  · -- a textual successor is not the entry
    cases post with
    | nil => simp at hnext
    | cons q post =>
      have hq : q ∈ fs := by
        cases pre with
        | nil => simp_all
        | cons p' pre =>
          rw [List.cons_append, List.cons.injEq] at hfs
          rw [hfs.2]
          simp
      simp only [List.head?_cons, Option.map_some, Option.some.injEq] at hnext
      exact hnodup.1 (List.mem_map.mpr ⟨q, hq, hnext⟩)

/-- Any order of the nodes can be printed. -/
theorem orderOk (h : Split body (p₀ :: fs) count count') (hwf : WellFormed body count)
    {order : List Node} (hperm : order.Perm (buildCFG ((p₀ :: fs).map (·.1)))) :
    OrderOk order count' where
  nodup := by
    rw [(hperm.map (·.label)).nodup_iff, buildCFG_map_label]
    simpa [Function.comp_def] using h.nodup hwf
  plain n hn := by
    obtain ⟨pre, p, post, hfs, rfl⟩ := Split.mem_nodes (hperm.mem_iff.mp hn)
    rw [buildNode_statements]
    exact h.plain_stmts (by simp [hfs])
  fresh n hn k hk := by
    obtain ⟨pre, p, post, hfs, rfl⟩ := Split.mem_nodes (hperm.mem_iff.mp hn)
    rw [buildNode_label]
    intro heq
    have hp : p ∈ p₀ :: fs := by simp [hfs]
    cases hflag : p.2 with
    | true => exact hwf.fresh k (h.mono.trans_lt hk) (heq ▸ h.mem_labels hp hflag)
    | false =>
      obtain ⟨j, -, hj, hlabel⟩ := h.mem_freshLabels hp hflag
      have := freshLabel_injective (hlabel.symm.trans heq)
      omega

end Split

/-- The label of every node is printed once. -/
theorem OrderOk.count_labels {order : List Node} {count : ℕ} (h : OrderOk order count)
    {l : String} (hl : l ∈ order.map (·.label)) :
    (labels (segCode (orderSegments order count))).count l = 1 := by
  have hfresh : ∀ n ∈ order, ∀ k, count < k → n.label ≠ freshLabel k := h.fresh
  obtain ⟨n, hn, rfl⟩ := List.mem_map.mp hl
  -- only the printed label of the segment of `n` is equal to its label
  suffices ∀ (ns : List Node) (c : ℕ), count ≤ c → (∀ m ∈ ns, ∀ st ∈ m.statements, st.Plain) →
      (labels (segCode (orderSegments ns c))).count n.label
        = (ns.map (·.label)).count n.label by
    rw [this order count le_rfl h.plain]
    exact List.count_eq_one_of_mem h.nodup hl
  intro ns
  induction ns with
  | nil => simp [orderSegments, segCode]
  | cons m ns ih =>
    intro c hc hplain
    have hglue : (labels (glueCode m (ns.head?.map (·.label)) c)).count n.label = 0 :=
      List.count_eq_zero.mpr fun hmem =>
        hfresh n hn (c + 1) (by omega) (labels_glueCode hmem)
    have ih := ih _ (hc.trans (le_fixNode_count m (ns.head?.map (·.label)) c))
      fun m' hm' => hplain m' (by simp [hm'])
    simp only [orderSegments, segCode, if_true, List.singleton_append, labels_label, labels_append,
      labels_of_plain (hplain m (by simp)), List.nil_append, List.map_cons, List.count_cons,
      List.count_append, hglue, ih, zero_add]

/-- No two-way jump is left in the code. -/
theorem not_cjump_mem {order : List Node} {count : ℕ} (h : OrderOk order count) (g : LIRExpr)
    (t : String) (f : Option String) :
    FlatStmt.endBlock (.cjump g t f) ∉ segCode (orderSegments order count) := by
  have hplain := h.plain
  clear h
  induction order generalizing count with
  | nil => simp [orderSegments, segCode]
  | cons n ns ih =>
    have ih := @ih (fixNode n (ns.head?.map (·.label)) count).2
      fun m hm => hplain m (by simp [hm])
    have hstmts : FlatStmt.endBlock (.cjump g t f) ∉ n.statements := fun hmem =>
      hplain n (by simp) _ hmem
    have hglue : FlatStmt.endBlock (.cjump g t f) ∉
        glueCode n (ns.head?.map (·.label)) count := by
      rcases n with ⟨ss, l⟩ | ⟨ss, l, dest⟩ | ⟨ss, l, g', t', _ | f'⟩
      · simp [glueCode]
      · simp only [glueCode]
        split <;> simp
      · simp only [glueCode]
        split <;> simp
      · simp only [glueCode]
        split
        · simp
        · split <;> simp
    simp [orderSegments, segCode, hstmts, hglue, ih]

/-- Printed in any order that starts with the entry block, the nodes of a body behave like it. -/
theorem printed_traces_eq {body : List FlatStmt} {p₀ : BasicBlock × Bool}
    {fs : List (BasicBlock × Bool)} {count count' : ℕ} {s₀ : Store M}
    (h : Split body (p₀ :: fs) count count') (hp₀ : p₀.2 = false) (hwf : WellFormed body count)
    (hruns : RunsWell S body s₀) {n₀ : Node} {ns : List Node} (hlabel₀ : n₀.label = p₀.1.label)
    (hperm : (n₀ :: ns).Perm (buildCFG ((p₀ :: fs).map (·.1)))) :
    (flat S (segCode (orderSegments (n₀ :: ns) count'))).traces
        (.running (segCode (orderSegments (n₀ :: ns) count')) s₀)
      = (flat S body).traces (.running body s₀) := by
  have hok := orderOk h hwf hperm
  have hmem₀ := hperm.mem_iff.mp (List.mem_cons_self ..)
  have hleaves := fun n s => h.leaves (n := n) (s := s) hp₀ hwf hlabel₀ hmem₀ hruns
  -- the body is a layout of the graph
  have hbody := (h.layout S hwf).traces_eq hmem₀ s₀ fun n s hreach =>
    ⟨trivial, (hleaves n s hreach).2⟩
  rw [h.layout_pos hp₀ hwf hlabel₀] at hbody
  -- and so is the printed order, of the same graph
  have hgraph : graph S (n₀ :: ns) = graph S (buildCFG ((p₀ :: fs).map (·.1))) :=
    graph_congr fun n => hperm.mem_iff
  have hprinted := (orderLayout S hok).traces_eq (List.mem_cons_self ..) s₀ fun n s hreach => by
    obtain ⟨hguard, ⟨n', hn', hnext⟩ | htraps⟩ := hleaves n s (hgraph ▸ hreach)
    · exact ⟨hguard, .inl ⟨n', hperm.mem_iff.mpr hn', hnext⟩⟩
    · exact ⟨hguard, .inr htraps⟩
  rw [hgraph, ← hbody] at hprinted
  rw [← hprinted]
  -- the printed order starts with the label of the entry
  have hpos : .label n₀.label :: (orderLayout S hok).pos n₀
      = segCode (orderSegments (n₀ :: ns) count') := by
    change FlatStmt.label n₀.label :: segPos _ _ = _
    rw [orderSegments, segCode, segPos, if_pos rfl]
    rfl
  have hfirst : Silent S (segCode (orderSegments (n₀ :: ns) count')) s₀
      (.label n₀.label :: (orderLayout S hok).pos n₀) ((orderLayout S hok).pos n₀) := .label
  rw [hpos] at hfirst
  exact hfirst.traces_eq

/-- Block reordering keeps the behaviour of a body for all random draws. The output has no
`LIRCJump`; the trace is a permutation of the basic blocks that starts with the entry block, and each
block stands in the output once, behind its label. -/
theorem blockReordering_correct (picks : ℕ → ℕ) {body : List FlatStmt} {count : ℕ}
    (hwf : WellFormed body count) :
    let nodes := buildCFG (maximalBasicBlocks body count).1
    let out := (blockReordering picks body count).1
    (∀ guard t f, FlatStmt.endBlock (.cjump guard t f) ∉ out) ∧
    (greedyTrace nodes picks).Perm nodes ∧
    (∃ n₀ rest, nodes.head? = some n₀ ∧ out = .label n₀.label :: (n₀.statements ++ rest)) ∧
    (∀ n ∈ nodes, (labels out).count n.label = 1 ∧
      ∃ rest, findLabel out n.label = some (n.statements ++ rest)) ∧
    ∀ (S : Storage M) (s₀ : Store M), RunsWell S body s₀ →
      (flat S out).traces (.running out s₀) = (flat S body).traces (.running body s₀) := by
  obtain ⟨p₀, fs, hfst, hsplit, hp₀⟩ := maximalBasicBlocks_split body count
  intro nodes out
  have hnodes : nodes = buildCFG ((p₀ :: fs).map (·.1)) := congrArg buildCFG hfst
  have hperm : (greedyTrace nodes picks).Perm nodes := greedyTrace_perm nodes picks
  have hok : OrderOk (greedyTrace nodes picks) (maximalBasicBlocks body count).2 :=
    orderOk hsplit hwf (hnodes ▸ hperm)
  have hout : out
      = segCode (orderSegments (greedyTrace nodes picks) (maximalBasicBlocks body count).2) :=
    toSequence_eq _ _
  obtain ⟨n₀, hn₀⟩ : ∃ n₀, nodes.head? = some n₀ := by
    rw [hnodes, List.map_cons, buildCFG]
    exact ⟨_, rfl⟩
  have hlabel₀ : n₀.label = p₀.1.label := by
    rw [hnodes, List.map_cons, buildCFG, List.head?_cons, Option.some.injEq] at hn₀
    rw [← hn₀, buildNode_label]
  -- nothing jumps to the entry block, so the greedy trace begins with it
  obtain ⟨ns, horder⟩ : ∃ ns, greedyTrace nodes picks = n₀ :: ns := by
    have hhead := greedyTrace_head picks
      (by rintro h; simp [h] at hn₀) (hnodes ▸ entry_no_predecessor hsplit hp₀ hwf)
    rw [hn₀] at hhead
    exact List.head?_eq_some_iff.mp hhead
  obtain ⟨rest, hentry⟩ : ∃ rest, out = .label n₀.label :: (n₀.statements ++ rest) := by
    rw [hout, horder, orderSegments, segCode]
    exact ⟨_, rfl⟩
  refine ⟨fun g t f => hout ▸ not_cjump_mem hok g t f, hperm, ⟨n₀, rest, hn₀, hentry⟩,
    fun n hn => ?_, fun S s₀ hruns => ?_⟩
  · have hn' : n ∈ greedyTrace nodes picks := hperm.mem_iff.mpr hn
    refine ⟨hout ▸ hok.count_labels (List.mem_map_of_mem hn'), ?_⟩
    have hgoto := hok.goto_eq hn' []
    obtain ⟨pre, post, c, c', -, -, heq⟩ := orderSegments_split hn'
      (maximalBasicBlocks body count).2
    have hsegs := hok.segmentsOk
    rw [← hout] at hgoto
    rw [heq] at hsegs hgoto
    exact ⟨_, hgoto.trans (congrArg some (segPos_append _ hsegs.not_mem_pre))⟩
  · rw [hout, horder]
    exact printed_traces_eq hsplit hp₀ hwf hruns hlabel₀ (horder ▸ hnodes ▸ hperm)

/-- The smaller of `x` and `y`, as the front end writes it. -/
def minBody : List FlatStmt :=
  [.endBlock (.cjump (.op .LT (.temp "x") (.temp "y")) "$L1" (some "$L2")),
    .label "$L1", .endBlock (.ret [.temp "x"]),
    .label "$L2", .endBlock (.ret [.temp "y"])]

/-- The body is well formed. -/
theorem minBody_wellFormed : WellFormed minBody 0 where
  nodup := by decide
  targets := by simp [minBody, EndBlock.targets, labels]
  falseBranch := by simp [minBody]
  fresh := by
    intro k _ hmem
    have hlabels : labels minBody = ["$L1", "$L2"] := rfl
    rw [hlabels] at hmem
    rcases List.mem_pair.mp hmem with h | h
    · exact absurd (congrArg String.toList h) (by simp [freshLabel])
    · exact absurd (congrArg String.toList h) (by simp [freshLabel])

/-- Its guards are zero or one in every run. -/
theorem minBody_runsWell (s₀ : Store M) : RunsWell S minBody s₀ := by
  -- control stands at the jump or at one of the two returns
  have hinv : ∀ {rest s}, (flat S minBody).Reachable (.running minBody s₀) (.running rest s) →
      rest = minBody ∨ rest = minBody.drop 2 ∨ rest = minBody.drop 4 := by
    rintro rest s ⟨tr, hrun⟩
    refine hrun.invariant (I := fun c => ∀ rest s, c = .running rest s →
      rest = minBody ∨ rest = minBody.drop 2 ∨ rest = minBody.drop 4) ?_ ?_ rest s rfl
    · rintro c a c' hI hstep rest' s' rfl
      cases hstep with
      | exec he => rcases hI _ _ rfl with h | h | h <;> cases h <;> exact he.ne_endBlock.elim
      | label => rcases hI _ _ rfl with h | h | h <;> simp [minBody] at h
      | control hnext hgoto =>
        rcases hI _ _ rfl with h | h | h
        · rw [minBody, List.cons.injEq, FlatStmt.endBlock.injEq] at h
          obtain ⟨rfl, rfl⟩ := h
          rw [EndBlock.next, Option.map_eq_some_iff] at hnext
          obtain ⟨v, -, rfl⟩ := hnext
          split at hgoto
          · exact .inr (.inl (Option.some.inj hgoto).symm)
          · exact .inr (.inr (Option.some.inj hgoto).symm)
        · cases h
          simp [EndBlock.next] at hnext
        · cases h
          simp [EndBlock.next] at hnext
    · rintro _ _ ⟨⟩
      exact .inl rfl
  constructor
  · intro g t f rest s v hreach hv
    rcases hinv hreach with h | h | h
    · rw [minBody, List.cons.injEq, FlatStmt.endBlock.injEq, EndBlock.cjump.injEq] at h
      obtain ⟨⟨rfl, -, -⟩, -⟩ := h
      simp only [LIRExpr.eval, OpType.eval, Option.bind_eq_bind, Option.bind_some,
        Option.some.injEq] at hv
      cases hlt : (s.temps "x").slt (s.temps "y")
      · exact .inl (by simpa [hlt] using hv.symm)
      · exact .inr (by simpa [hlt] using hv.symm)
    · simp [minBody] at h
    · simp [minBody] at h
  · intro g t rest s v hreach hv
    rcases hinv hreach with h | h | h <;> simp [minBody] at h
  · intro g t s hreach
    rcases hinv hreach with h | h | h <;> simp [minBody] at h
  · intro s hreach
    rcases hinv hreach with h | h | h <;> simp [minBody] at h

/-- Laid out by the first candidate at every draw, the minimum keeps its behaviour. -/
theorem blockReordering_minBody :
    (flat (M := Unit) ⟨fun _ => 0, fun _ _ => none, fun _ _ _ => none⟩
        (blockReordering (fun _ => 0) minBody 0).1).traces
      (.running (blockReordering (fun _ => 0) minBody 0).1 ⟨fun _ => 5, ()⟩)
    = (flat (M := Unit) ⟨fun _ => 0, fun _ _ => none, fun _ _ _ => none⟩ minBody).traces
      (.running minBody ⟨fun _ => 5, ()⟩) :=
  (blockReordering_correct (fun _ => 0) minBody_wellFormed).2.2.2.2 _ _ (minBody_runsWell _)

end LIRSeq

end Jaek
