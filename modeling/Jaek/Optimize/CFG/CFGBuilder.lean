import Jaek.Optimize.CFG.MatchMaker

/-!
# Building the graph of a function

`CFGBuilder`: one node for each statement, and a map from names to nodes. Fall-through edges go to names
the builder invents; `targets` keeps the first node of a name. An exception is `none`.

`Parsed` says what the loop has done: the statements are those of the nodes, every label names the node
behind it, and every invented name the node that follows.
-/

namespace Jaek

/-- The state of the builder's loop. A node is known by its position in `nodes`. -/
structure CFGBuilder where
  targets : LinkedMap String ℕ
  nodes : List CFGNode
  pointingTo : Option String
  freshLabelCount : ℕ

/-- The graph of a function. -/
structure CFG where
  start : ℕ
  function : String
  mm : MatchMaker

namespace CFGBuilder

/-- The name `pointToNext` invents when its counter reaches `k`. -/
def pointName (k : ℕ) : String := "$G" ++ toString k

/-- A fresh name for the next node. -/
def pointToNext (b : CFGBuilder) : String × CFGBuilder :=
  (pointName (b.freshLabelCount + 1),
    { b with
      pointingTo := some (pointName (b.freshLabelCount + 1))
      freshLabelCount := b.freshLabelCount + 1 })

/-- The node of a move and the name it points to. -/
def translateMove (dest expr : LIRExpr) (b : CFGBuilder) : Option (Mov × String × CFGBuilder) :=
  match dest with
  | .temp name => some (.Gets name (translateExpr expr), b.pointToNext)
  | .mem address => some (.Mem (translateExpr (.mem address)) (translateExpr expr), b.pointToNext)
  | _ => none

/-- The moves behind a call that fetch its results. -/
def takeMoves : ℕ → List FlatStmt → CFGBuilder → Option (List Mov × List FlatStmt × CFGBuilder)
  | 0, statements, b => some ([], statements, b)
  | n + 1, .move dest expr :: statements, b => do
    let (m, _, b) ← b.translateMove dest expr
    let (ms, statements, b) ← takeMoves n statements b
    some (m :: ms, statements, b)
  | _ + 1, _, _ => none

/-- The node of a statement, and the statements left. -/
def createNode (currStmt : FlatStmt) (statements : List FlatStmt) (b : CFGBuilder) :
    Option (CFGNode × List FlatStmt × CFGBuilder) :=
  match currStmt with
  | .endBlock (.cjump _ _ _) => none
  | .endBlock (.jump address) => some (.Cricket address, statements, b)
  | .endBlock (.ret valList) =>
    some (.Return (valList.map translateExpr), statements, { b with pointingTo := none })
  | .endBlock (.trueJump guard trueBranch) =>
    let (edge, b) := b.pointToNext
    some (.If (translateExpr guard) trueBranch edge, statements, b)
  | .callStmt target n_returns args => do
    let (returnMoves, statements, b) ← takeMoves n_returns statements b
    let (edge, b) := b.pointToNext
    some (.Funcking target returnMoves (args.map translateExpr) edge, statements, b)
  | .label _ => none
  | .move dest expr => do
    let (m, edge, b) ← b.translateMove dest expr
    some (.mov m edge, statements, b)

/-- Add a node under its names. A name keeps the node it has. -/
def addNode (b : CFGBuilder) (next : CFGNode) (labels : List String) : CFGBuilder :=
  { b with
    nodes := b.nodes ++ [next]
    targets := labels.foldl (fun targets l => targets.insertIfAbsent l b.nodes.length) b.targets }

/-! ## One statement -/

/-- What a state keeps while a node is made. -/
structure Keeps (b b' : CFGBuilder) : Prop where
  targets : b'.targets = b.targets
  nodes : b'.nodes = b.nodes
  count : b.freshLabelCount ≤ b'.freshLabelCount

/-- One after the other. -/
theorem Keeps.trans {b₁ b₂ b₃ : CFGBuilder} (h : Keeps b₁ b₂) (h' : Keeps b₂ b₃) : Keeps b₁ b₃ :=
  ⟨h'.targets.trans h.targets, h'.nodes.trans h.nodes, h.count.trans h'.count⟩

/-- A fresh name changes neither the nodes nor what names stand for. -/
theorem pointToNext_keeps (b : CFGBuilder) : Keeps b b.pointToNext.2 := ⟨rfl, rfl, Nat.le_succ _⟩

/-- The move of a statement says what the statement says. -/
theorem translateMove_eq {dest expr : LIRExpr} {m : Mov} {p : String × CFGBuilder}
    {b : CFGBuilder} (h : b.translateMove dest expr = some (m, p)) :
    m.stmt = .move dest expr ∧ p = b.pointToNext := by
  unfold translateMove at h
  split at h
  · cases h
    exact ⟨by simp [Mov.stmt], rfl⟩
  · cases h
    refine ⟨?_, rfl⟩
    rw [Mov.stmt, CFGDestroyer.translateExpr_translateExpr, CFGDestroyer.translateExpr_translateExpr]
  · cases h

/-- The moves behind a call are taken off the text. -/
theorem takeMoves_spec {n : ℕ} {statements rest : List FlatStmt} {b b' : CFGBuilder}
    {ms : List Mov} (h : takeMoves n statements b = some (ms, rest, b')) :
    statements = ms.map Mov.stmt ++ rest ∧ ms.length = n ∧ Keeps b b' := by
  fun_induction takeMoves n statements b generalizing ms with
  | case1 statements b =>
    cases h
    exact ⟨rfl, rfl, rfl, rfl, le_rfl⟩
  | case2 n dest expr statements b ih =>
    obtain ⟨⟨m, p⟩, hmove, hrest⟩ := Option.bind_eq_some_iff.mp h
    obtain ⟨⟨ms', rest', b₁⟩, htake, heq⟩ := Option.bind_eq_some_iff.mp hrest
    cases heq
    obtain ⟨hm, rfl⟩ := translateMove_eq hmove
    obtain ⟨hst, hlen, hkeeps⟩ := ih _ htake
    refine ⟨?_, ?_, (pointToNext_keeps b).trans hkeeps⟩
    · rw [List.map_cons, List.cons_append, hm, hst]
    · rw [List.length_cons, hlen]
  | case3 => cases h

/-- A node stands for the statements it was made of. Where control falls through it points to a new
name; a return points nowhere and a jump leaves the old name in place. -/
theorem createNode_spec {currStmt : FlatStmt} {statements rest : List FlatStmt}
    {b b' : CFGBuilder} {n : CFGNode} (h : createNode currStmt statements b = some (n, rest, b')) :
    currStmt :: statements = n.print n.takes ++ rest ∧ n.print n.takes ≠ [] ∧ Keeps b b' ∧
      match n.falls with
      | some e => e = pointName b'.freshLabelCount ∧ b.freshLabelCount < b'.freshLabelCount ∧
          b'.pointingTo = some e
      | none => b'.pointingTo = none ∨ b'.pointingTo = b.pointingTo := by
  unfold createNode at h
  split at h
  · cases h
  · cases h
    exact ⟨rfl, List.cons_ne_nil _ _, ⟨rfl, rfl, le_rfl⟩, .inr rfl⟩
  · rename_i valList
    cases h
    refine ⟨?_, List.cons_ne_nil _ _, ⟨rfl, rfl, le_rfl⟩, .inl rfl⟩
    simp [CFGNode.print, CFGNode.stmts, CFGNode.takes, Function.comp_def]
  · cases h
    refine ⟨?_, List.cons_ne_nil _ _, pointToNext_keeps b, rfl, Nat.lt_succ_self _, rfl⟩
    simp [CFGNode.print, CFGNode.stmts, CFGNode.takes, CFGNode.jumpStmt]
  · obtain ⟨⟨ms, rest', b₁⟩, htake, h⟩ := Option.bind_eq_some_iff.mp h
    obtain ⟨hst, hlen, hkeeps⟩ := takeMoves_spec htake
    cases h
    refine ⟨?_, List.cons_ne_nil _ _, hkeeps.trans (pointToNext_keeps b₁), rfl, ?_, rfl⟩
    · rw [hst, ← hlen]
      simp [CFGNode.print, CFGNode.stmts, CFGNode.takes, Function.comp_def]
    · exact Nat.lt_succ_of_le hkeeps.count
  · cases h
  · obtain ⟨⟨m, p⟩, hmove, h⟩ := Option.bind_eq_some_iff.mp h
    obtain ⟨hm, rfl⟩ := translateMove_eq hmove
    cases h
    refine ⟨?_, List.cons_ne_nil _ _, pointToNext_keeps b, rfl, Nat.lt_succ_self _, rfl⟩
    simp [CFGNode.print, CFGNode.stmts, CFGNode.takes, hm]

/-- The rest of the text does not get longer. -/
theorem createNode_length {currStmt : FlatStmt} {statements rest : List FlatStmt}
    {b b' : CFGBuilder} {n : CFGNode} (h : createNode currStmt statements b = some (n, rest, b')) :
    rest.length ≤ statements.length := by
  obtain ⟨hst, hne, -, -⟩ := createNode_spec h
  have hlen := congrArg List.length hst
  have hprint := List.length_pos_iff.mpr hne
  rw [List.length_append, List.length_cons] at hlen
  omega

/-! ## The loop -/

/-- The loop over the statements left, with the labels in front of them. -/
def loop (statements : List FlatStmt) (labels : List String) (b : CFGBuilder) :
    Option CFGBuilder :=
  match statements with
  | [] => if labels = [] then some b else none
  | .label l :: statements => loop statements (labels ++ [l]) b
  | currStmt :: statements =>
    match h : createNode currStmt statements b with
    | none => none
    | some (next, rest, b') =>
      have := createNode_length h
      loop rest [] (b'.addNode next (b.pointingTo.toList ++ labels))
termination_by statements.length

/-- The state the loop starts with, behind the start node. -/
def init (name : String) : CFGBuilder :=
  let (edge, b) := pointToNext ⟨.empty, [], none, 0⟩
  { b with nodes := [.Start name edge] }

/-- Resolve the edges of the nodes from number `i` on. -/
def resolveAll (targets : LinkedMap String ℕ) : ℕ → List CFGNode → MatchMaker → Option MatchMaker
  | _, [], mm => some mm
  | i, n :: nodes, mm => (mm.resolveEdges targets i n).bind (resolveAll targets (i + 1) nodes)

/-- The graph of a function, `CFGBuilder(lir).build()`. -/
def build (name : String) (block : List FlatStmt) : Option CFG := do
  let b ← loop block [] (init name)
  let matchMaker ← resolveAll b.targets 0 b.nodes (.ofNodes b.nodes)
  some ⟨0, name, matchMaker⟩

/-- Linking keeps the edges consistent. -/
theorem resolveAll_repOk {targets : LinkedMap String ℕ} {i : ℕ} {nodes : List CFGNode}
    {mm mm' : MatchMaker} (hrep : mm.RepOk) (h : resolveAll targets i nodes mm = some mm') :
    mm'.RepOk := by
  induction nodes generalizing i mm with
  | nil =>
    cases h
    exact hrep
  | cons n nodes ih =>
    obtain ⟨mm₁, hresolve, hrest⟩ := Option.bind_eq_some_iff.mp h
    exact ih (hrep.resolveEdges hresolve) hrest

/-- The two edge maps of a graph agree. -/
theorem build_repOk {name : String} {block : List FlatStmt} {cfg : CFG}
    (h : build name block = some cfg) : cfg.mm.RepOk := by
  obtain ⟨b, -, h⟩ := Option.bind_eq_some_iff.mp h
  obtain ⟨mm, hresolve, h⟩ := Option.bind_eq_some_iff.mp h
  cases h
  exact resolveAll_repOk (MatchMaker.ofNodes_repOk b.nodes) hresolve

/-! ## What the loop has read -/

/-- A node with the labels in front of it. -/
structure Item where
  labels : List String
  node : CFGNode

/-- The statements an item was read from. -/
def Item.code (it : Item) : List FlatStmt :=
  it.labels.map FlatStmt.label ++ it.node.print it.node.takes

/-- Different counts give different names. -/
theorem pointName_inj {j k : ℕ} (h : pointName j = pointName k) : j = k := by
  have hrepr : toString j = toString k := by simpa [pointName] using h
  exact Nat.repr_inj.mp hrepr

/-- Names that do not start as the builder's do are none of them. -/
theorem ne_pointName {l : String} {k : ℕ} (hl : l.toList[1]? ≠ some 'G') : l ≠ pointName k := by
  rintro rfl
  exact hl (by simp [pointName])

/-- The names of the state after reading some items: labels lead to the node behind them and invented
names to the next node, the last one to a node still to come. -/
structure Parsed (items : List Item) (b : CFGBuilder) : Prop where
  nodes : b.nodes = items.map (·.node)
  own : ∀ i it, items[i]? = some it → ∀ l ∈ it.labels, b.targets.get? l = some i
  keys : ∀ x, (b.targets.get? x).isSome →
    (∃ k ≤ b.freshLabelCount, x = pointName k) ∨ x ∈ items.flatMap (·.labels)
  pointing : ∀ x, b.pointingTo = some x → ∃ k ≤ b.freshLabelCount, x = pointName k
  next : ∀ i it e, items[i]? = some it → it.node.falls = some e → i + 1 < items.length →
    b.targets.get? e = some (i + 1)
  last : ∀ it, items.getLast? = some it →
    match it.node.falls with
    | some e => b.targets.get? e = none ∧ b.pointingTo = some e
    | none => ∀ x, b.pointingTo = some x → (b.targets.get? x).isSome

/-- A name stands for the first node it was given to. -/
theorem get?_addNode (b : CFGBuilder) (next : CFGNode) (names : List String) (x : String) :
    (b.addNode next names).targets.get? x =
      if x ∈ names ∧ b.targets.get? x = none then some b.nodes.length else b.targets.get? x := by
  rw [addNode]
  generalize b.nodes.length = n
  generalize b.targets = targets
  induction names generalizing targets with
  | nil => simp
  | cons l names ih =>
    rw [List.foldl_cons, ih, LinkedMap.get?_insertIfAbsent]
    by_cases hl : x = l
    · subst hl
      cases hx : targets.get? x <;> simp
    · simp [hl]

section Step

variable {items : List Item} {b b' : CFGBuilder} (labels : List String) {n : CFGNode}
  {currStmt : FlatStmt} {statements rest : List FlatStmt}

/-- An item of a list with one more at the end. -/
theorem getElem?_concat {α : Type} {xs : List α} {x y : α} {i : ℕ} (h : (xs ++ [x])[i]? = some y) :
    xs[i]? = some y ∨ i = xs.length ∧ y = x := by
  rw [List.getElem?_append] at h
  split at h
  · exact .inl h
  · rw [List.getElem?_singleton] at h
    split at h
    · exact .inr ⟨by omega, (Option.some.inj h).symm⟩
    · cases h

/-- Reading one more statement. -/
theorem Parsed.step (h : Parsed items b) (hnode : createNode currStmt statements b = some (n, rest, b'))
    (hnew : ∀ l ∈ labels, l ∉ items.flatMap (·.labels))
    (hname : ∀ l ∈ items.flatMap (·.labels) ++ labels, ∀ k, l ≠ pointName k) :
    Parsed (items ++ [⟨labels, n⟩]) (b'.addNode n (b.pointingTo.toList ++ labels)) := by
  obtain ⟨-, -, hkeeps, hfalls⟩ := createNode_spec hnode
  have hget : ∀ x, (b'.addNode n (b.pointingTo.toList ++ labels)).targets.get? x =
      if x ∈ b.pointingTo.toList ++ labels ∧ b.targets.get? x = none then some items.length
      else b.targets.get? x := by
    intro x
    rw [get?_addNode, hkeeps.targets, hkeeps.nodes, h.nodes, List.length_map]
  have hold : ∀ x i, b.targets.get? x = some i →
      (b'.addNode n (b.pointingTo.toList ++ labels)).targets.get? x = some i := by
    intro x i hx
    rw [hget, if_neg (by simp [hx]), hx]
  have hcount : ∀ k, k ≤ b.freshLabelCount → k ≤ b'.freshLabelCount := fun k hk =>
    hk.trans hkeeps.count
  constructor
  · show b'.nodes ++ [n] = _
    rw [hkeeps.nodes, h.nodes, List.map_append, List.map_singleton]
  · intro i it hit l hl
    obtain hit | ⟨rfl, rfl⟩ := getElem?_concat hit
    · exact hold l i (h.own i it hit l hl)
    · have hnone : b.targets.get? l = none := by
        by_contra hsome
        rcases h.keys l (Option.isSome_iff_ne_none.mpr hsome) with ⟨k, -, hk⟩ | hmem
        · exact hname l (List.mem_append_right _ hl) k hk
        · exact hnew l hl hmem
      rw [hget, if_pos ⟨List.mem_append_right _ hl, hnone⟩]
  · intro x hx
    rw [hget] at hx
    have hcases : x ∈ b.pointingTo.toList ++ labels ∨ (b.targets.get? x).isSome := by
      split at hx
      · exact .inl (by tauto)
      · exact .inr hx
    rw [List.flatMap_append, List.mem_append]
    rcases hcases with hmem | hsome
    · rcases List.mem_append.mp hmem with hmem | hmem
      · obtain ⟨k, hk, rfl⟩ := h.pointing x (by simpa using hmem)
        exact .inl ⟨k, hcount k hk, rfl⟩
      · exact .inr (.inr (by simpa using hmem))
    · rcases h.keys x hsome with ⟨k, hk, rfl⟩ | hmem
      · exact .inl ⟨k, hcount k hk, rfl⟩
      · exact .inr (.inl hmem)
  · intro x hx
    have hx : b'.pointingTo = some x := hx
    cases hf : n.falls with
    | some e =>
      simp only [hf] at hfalls
      rw [hfalls.2.2, Option.some.injEq] at hx
      exact ⟨_, le_rfl, hx ▸ hfalls.1⟩
    | none =>
      simp only [hf] at hfalls
      rcases hfalls with hnone | hsame
      · rw [hnone] at hx
        cases hx
      · rw [hsame] at hx
        obtain ⟨k, hk, rfl⟩ := h.pointing x hx
        exact ⟨k, hcount k hk, rfl⟩
  · intro i it e hit he hi
    obtain hit | ⟨rfl, rfl⟩ := getElem?_concat hit
    · by_cases hi' : i + 1 < items.length
      · exact hold e (i + 1) (h.next i it e hit he hi')
      · -- the last item so far points to the new one
        have hlen : i + 1 = items.length := by
          have := (List.getElem?_eq_some_iff.mp hit).1
          omega
        have hlast : items.getLast? = some it := by
          rw [List.getLast?_eq_getElem?, ← hit, ← hlen]
          rfl
        have hl := h.last it hlast
        simp only [he] at hl
        rw [hget, if_pos ⟨by simp [hl.2], hl.1⟩, hlen]
    · simp at hi
  · intro it hit
    rw [List.getLast?_concat, Option.some.injEq] at hit
    subst hit
    cases hf : n.falls with
    | some e =>
      simp only [hf] at hfalls ⊢
      obtain ⟨rfl, hlt, hpoint⟩ := hfalls
      -- the name is newer than all names so far
      have hfresh : ∀ k ≤ b.freshLabelCount, pointName b'.freshLabelCount ≠ pointName k := by
        intro k hk heq
        have := pointName_inj heq
        omega
      have hnone : b.targets.get? (pointName b'.freshLabelCount) = none := by
        by_contra hsome
        rcases h.keys _ (Option.isSome_iff_ne_none.mpr hsome) with ⟨k, hk, hk'⟩ | hmem
        · exact hfresh k hk hk'
        · exact hname _ (List.mem_append_left _ hmem) _ rfl
      refine ⟨?_, hpoint⟩
      rw [hget, if_neg, hnone]
      rintro ⟨hmem, -⟩
      rcases List.mem_append.mp hmem with hmem | hmem
      · obtain ⟨k, hk, hk'⟩ := h.pointing _ (by simpa using hmem)
        exact hfresh k hk hk'
      · exact hname _ (List.mem_append_right _ hmem) _ rfl
    | none =>
      simp only [hf] at hfalls ⊢
      intro x hx
      have hx : b'.pointingTo = some x := hx
      rcases hfalls with hnone | hsame
      · rw [hnone] at hx
        cases hx
      · rw [hsame] at hx
        rw [hget]
        split
        · rfl
        · rename_i hno
          rw [Option.isSome_iff_ne_none]
          intro hnone
          exact hno ⟨by simp [hx], hnone⟩

end Step

@[simp] theorem labels_print (n : CFGNode) (l : Option String) : Jaek.labels (n.print l) = [] := by
  have hmov : ∀ ms : List Mov, Jaek.labels (ms.map Mov.stmt) = [] := by
    intro ms
    induction ms with
    | nil => rfl
    | cons m ms ih => cases m <;> exact ih
  cases n with
  | mov m edge => cases m <;> cases l <;> rfl
  | Funcking name movIntos args edge =>
    cases l
    · simpa [CFGNode.print, CFGNode.stmts] using hmov movIntos
    · simpa [CFGNode.print, CFGNode.stmts, CFGNode.jumpStmt] using hmov movIntos
  | _ => cases l <;> rfl

/-- The labels of a run of labels. -/
theorem labels_map_label (ls : List String) : Jaek.labels (ls.map FlatStmt.label) = ls := by
  induction ls with
  | nil => rfl
  | cons l ls ih => rw [List.map_cons, labels_label, ih]

/-- The loop reads all statements left, unless it throws. -/
theorem loop_spec {statements : List FlatStmt} {ls : List String} {b b' : CFGBuilder}
    {items : List Item} (h : loop statements ls b = some b') (hp : Parsed items b)
    (hnodup : (items.flatMap (·.labels) ++ (ls ++ Jaek.labels statements)).Nodup)
    (hname : ∀ l ∈ items.flatMap (·.labels) ++ (ls ++ Jaek.labels statements), ∀ k,
      l ≠ pointName k) :
    ∃ items', Parsed (items ++ items') b' ∧
      ls.map FlatStmt.label ++ statements = items'.flatMap Item.code ∧
      ∀ it ∈ items', it.node.print it.node.takes ≠ [] := by
  fun_induction loop statements ls b generalizing items with
  | case1 b =>
    rw [Option.some.injEq] at h
    subst h
    exact ⟨[], by simpa using hp, rfl, by simp⟩
  | case2 => cases h
  | case3 ls b l statements ih =>
    rw [labels_label, ← List.singleton_append, ← List.append_assoc ls] at hnodup hname
    obtain ⟨items', hp', heq, hprint⟩ := ih h hp hnodup hname
    refine ⟨items', hp', ?_, hprint⟩
    rw [← heq, List.map_append, List.append_assoc]
    rfl
  | case4 => cases h
  -- a node takes the labels kept so far and the statements that `createNode` consumes
  | case5 ls b currStmt statements hlabel n rest b₁ hnode hlen ih =>
    obtain ⟨hst, hne, -⟩ := createNode_spec hnode
    have hlabels : Jaek.labels (currStmt :: statements) = Jaek.labels rest := by
      rw [hst, labels_append, labels_print, List.nil_append]
    rw [hlabels] at hnodup hname
    have hstep := hp.step ls hnode
      (fun l hl hmem => (List.nodup_append.mp hnodup).2.2 l hmem l (List.mem_append_left _ hl) rfl)
      fun l hl => hname l (by
        rcases List.mem_append.mp hl with hl | hl
        · exact List.mem_append_left _ hl
        · exact List.mem_append_right _ (List.mem_append_left _ hl))
    have hread : (items ++ [Item.mk ls n]).flatMap Item.labels ++ ([] ++ Jaek.labels rest) =
        items.flatMap (·.labels) ++ (ls ++ Jaek.labels rest) := by simp
    obtain ⟨items', hp', heq, hprint⟩ := ih h hstep (hread ▸ hnodup) (hread ▸ hname)
    refine ⟨⟨ls, n⟩ :: items', ?_, ?_, ?_⟩
    · simpa using hp'
    · rw [List.flatMap_cons, ← heq, hst, Item.code]
      simp
    · intro it hit
      rcases List.mem_cons.mp hit with rfl | hit
      · exact hne
      · exact hprint it hit

/-- No statement is read yet. -/
theorem parsed_init (name : String) :
    Parsed [⟨[], .Start name (pointName 1)⟩] (init name) where
  nodes := rfl
  own i it hit l hl := by
    rw [List.getElem?_singleton] at hit
    split at hit
    · cases hit
      simp at hl
    · cases hit
  keys x hx := by simp [init, pointToNext] at hx
  pointing x hx := ⟨1, le_rfl, (Option.some.inj hx).symm⟩
  next i it e hit he hi := by simp at hi
  last it hit := by
    cases hit
    exact ⟨rfl, rfl⟩

/-! ## The graph -/

/-- The node control falls through to, and the node it jumps to. -/
def fallTo (items : List Item) (targets : LinkedMap String ℕ) (i : ℕ) : Option ℕ :=
  items[i]?.bind fun it => it.node.falls.bind targets.get?

/-- The item that the jump of an item goes to. -/
def jumpTo (items : List Item) (targets : LinkedMap String ℕ) (i : ℕ) : Option ℕ :=
  items[i]?.bind fun it => it.node.takes.bind targets.get?

/-- Control falls through to the next node. -/
theorem Parsed.fallTo_eq {items : List Item} {b : CFGBuilder} (h : Parsed items b) (i : ℕ) :
    fallTo items b.targets i =
      items[i]?.bind fun it => if it.node.falls.isSome ∧ i + 1 < items.length then some (i + 1)
        else none := by
  rw [fallTo]
  cases hit : items[i]? with
  | none => rfl
  | some it =>
    rw [Option.bind_some, Option.bind_some]
    cases he : it.node.falls with
    | none => simp
    | some e =>
      rw [Option.bind_some]
      by_cases hi : i + 1 < items.length
      · rw [h.next i it e hit he hi, if_pos ⟨rfl, hi⟩]
      · have hlen : i + 1 = items.length := by
          have := (List.getElem?_eq_some_iff.mp hit).1
          omega
        have hlast : items.getLast? = some it := by
          rw [List.getLast?_eq_getElem?, ← hit, ← hlen]
          rfl
        have hl := h.last it hlast
        simp only [he] at hl
        rw [hl.1, if_neg (by simp [hi])]

/-- Resolving all edges gives each node its fall-through and its jump. -/
theorem resolveAll_spec (items : List Item) (targets : LinkedMap String ℕ) (i : ℕ)
    (nodes : List CFGNode) (mm : MatchMaker) (hnodes : nodes = (items.drop i).map (·.node))
    (hnoop : ∀ n ∈ nodes, n ≠ .NOOP) (hinj : ∀ p p' q, fallTo items targets p = some q →
      fallTo items targets p' = some q → p = p')
    (hrep : mm.RepOk)
    (hfall : ∀ p, mm.fallThrough p = if p < i then fallTo items targets p else none)
    (hjump : ∀ p, mm.jumpingTo p = if p < i then jumpTo items targets p else none) :
    ∃ mm', resolveAll targets i nodes mm = some mm' ∧ mm'.RepOk ∧ mm'.nodes = mm.nodes ∧
      (∀ p, mm'.fallThrough p = fallTo items targets p) ∧
      ∀ p, mm'.jumpingTo p = jumpTo items targets p := by
  -- Nodes from `i` on are still to be linked, and those below have their edges.
  induction nodes generalizing i mm with
  | nil =>
    have hlen : items.length ≤ i := by
      have hzero := congrArg List.length hnodes
      rw [List.length_nil, List.length_map, List.length_drop] at hzero
      omega
    have hout : ∀ p, ¬ p < i → items[p]? = none := by
      intro p hp
      exact List.getElem?_eq_none (by omega)
    refine ⟨mm, rfl, hrep, rfl, ?_, ?_⟩
    · intro p
      rw [hfall]
      split
      · rfl
      · rw [fallTo, hout p ‹_›, Option.bind_none]
    · intro p
      rw [hjump]
      split
      · rfl
      · rw [jumpTo, hout p ‹_›, Option.bind_none]
  | cons n nodes ih =>
    obtain ⟨it, hit, hn, hrest⟩ : ∃ it, items[i]? = some it ∧ n = it.node ∧
        nodes = (items.drop (i + 1)).map (·.node) := by
      rw [← List.tail_drop]
      cases hdrop : items.drop i with
      | nil => simp [hdrop] at hnodes
      | cons it rest =>
        rw [hdrop, List.map_cons, List.cons.injEq] at hnodes
        refine ⟨it, ?_, hnodes.1, hnodes.2⟩
        rw [← List.head?_drop, hdrop]
        rfl
    have hf : fallTo items targets i = n.falls.bind targets.get? := by
      rw [fallTo, hit, Option.bind_some, hn]
    have hj : jumpTo items targets i = n.takes.bind targets.get? := by
      rw [jumpTo, hit, Option.bind_some, hn]
    -- Node `i` gets its edges. No node below falls through to where it does.
    obtain ⟨mm₁, hstep, hrep₁, hnodes₁, hfall₁, hjump₁⟩ := hrep.resolveEdges_spec targets i n
      (hnoop n (by simp)) (by rw [hfall, if_neg (by omega)]) (by rw [hjump, if_neg (by omega)]) (by
        intro q hq p hp
        rw [← hf] at hq
        rw [hfall] at hp
        split at hp
        · have := hinj p i q hp hq
          omega
        · cases hp)
    obtain ⟨mm', hrun, hrep', hnodes', hfall', hjump'⟩ := ih (i + 1) mm₁ hrest
      (fun m hm => hnoop m (by simp [hm])) hrep₁
      (by
        intro p
        rw [hfall₁, hfall]
        by_cases hp : p = i
        · subst hp
          rw [if_pos rfl, if_pos (by omega), hf]
        · rw [if_neg hp]
          split <;> split <;> first | rfl | omega)
      (by
        intro p
        rw [hjump₁, hjump]
        by_cases hp : p = i
        · subst hp
          rw [if_pos rfl, if_pos (by omega), hj]
        · rw [if_neg hp]
          split <;> split <;> first | rfl | omega)
    refine ⟨mm', ?_, hrep', hnodes'.trans hnodes₁, hfall', hjump'⟩
    rw [resolveAll, hstep, Option.bind_some, hrun]

/-- What the pipeline promises of a body: distinct labels, none of them a name the builder invents, and
jumps to labels of the body. -/
structure BodyOk (block : List FlatStmt) : Prop where
  nodup : (Jaek.labels block).Nodup
  targets : ∀ e, .endBlock e ∈ block → ∀ l ∈ e.targets, l ∈ Jaek.labels block
  names : ∀ l ∈ Jaek.labels block, ∀ k, l ≠ pointName k

/-- A graph has a node for each item, in their order, and the edges the items have in the body. -/
structure Represents (block : List FlatStmt) (items : List Item) (mm : MatchMaker) : Prop where
  code : block = items.flatMap Item.code
  start : ∃ name edge, items[0]? = some ⟨[], .Start name edge⟩
  kinds : ∀ i it, items[i + 1]? = some it → it.node.print it.node.takes ≠ []
  nodup : (items.flatMap (·.labels)).Nodup
  nodes : mm.nodes = items.map (·.node)
  repOk : mm.RepOk
  fall : ∀ i, mm.fallThrough i =
    items[i]?.bind fun it => if it.node.falls.isSome ∧ i + 1 < items.length then some (i + 1)
      else none
  jump : ∀ i it l, items[i]? = some it → it.node.takes = some l →
    ∃ j it', mm.jumpingTo i = some j ∧ items[j]? = some it' ∧ l ∈ it'.labels
  noJump : ∀ i, items[i]?.bind (·.node.takes) = none → mm.jumpingTo i = none

/-- The labels of the text are those of its items. -/
theorem labels_flatMap_code (items : List Item) :
    Jaek.labels (items.flatMap Item.code) = items.flatMap (·.labels) := by
  induction items with
  | nil => rfl
  | cons it items ih =>
    rw [List.flatMap_cons, labels_append, ih, List.flatMap_cons, Item.code, labels_append,
      labels_map_label, labels_print, List.append_nil]

/-- A jump of a node is a jump of the body. -/
theorem mem_targets_of_takes {items : List Item} {it : Item} {l : String} (hit : it ∈ items)
    (ht : it.node.takes = some l) :
    ∃ e, .endBlock e ∈ items.flatMap Item.code ∧ l ∈ e.targets := by
  have hmem : it.node.jumpStmt l ∈ items.flatMap Item.code := by
    apply List.mem_flatMap.mpr ⟨it, hit, ?_⟩
    rw [Item.code, CFGNode.print, ht]
    simp
  cases hn : it.node with
  | If cond take edge =>
    rw [hn] at hmem
    exact ⟨_, hmem, by simp [EndBlock.targets]⟩
  | Cricket dest =>
    rw [hn] at hmem
    exact ⟨_, hmem, by simp [EndBlock.targets]⟩
  | _ => simp [hn, CFGNode.takes] at ht

/-- The builder's graph. -/
theorem build_spec {name : String} {block : List FlatStmt} {cfg : CFG} (hok : BodyOk block)
    (h : build name block = some cfg) :
    cfg.start = 0 ∧ ∃ items, Represents block items cfg.mm := by
  obtain ⟨b, hloop, h⟩ := Option.bind_eq_some_iff.mp h
  obtain ⟨mm, hresolve, h⟩ := Option.bind_eq_some_iff.mp h
  cases h
  have hnodup := hok.nodup
  have hnames := hok.names
  obtain ⟨items, hparsed, hcode, hprint⟩ := loop_spec hloop (parsed_init name) (by simpa using hnodup)
    (by simpa using hnames)
  rw [List.map_nil, List.nil_append] at hcode
  rw [List.singleton_append] at hparsed
  set start : Item := ⟨[], .Start name (pointName 1)⟩ with hstart
  have hstartCode : start.code = [] := rfl
  -- only the node right before falls into a node, so no two fall into one
  have hinj : ∀ p p' q, fallTo (start :: items) b.targets p = some q →
      fallTo (start :: items) b.targets p' = some q → p = p' := by
    have hnext : ∀ p q, fallTo (start :: items) b.targets p = some q → q = p + 1 := by
      intro p q hp
      rw [hparsed.fallTo_eq] at hp
      obtain ⟨it, -, hp⟩ := Option.bind_eq_some_iff.mp hp
      split at hp
      · exact (Option.some.inj hp).symm
      · cases hp
    intro p p' q hp hp'
    have := hnext p q hp
    have := hnext p' q hp'
    omega
  -- `NOOP` stands for a removed node; the loop appends none
  have hnoop : ∀ n ∈ b.nodes, n ≠ .NOOP := by
    rw [hparsed.nodes]
    rintro n hn rfl
    rcases List.mem_cons.mp hn with hn | hn
    · cases hn
    · obtain ⟨it, hit, hnoop⟩ := List.mem_map.mp hn
      exact hprint it hit (by rw [hnoop]; rfl)
  obtain ⟨mm', hrun, hrep, hnodes, hfall, hjump⟩ := resolveAll_spec (start :: items) b.targets 0
    b.nodes (.ofNodes b.nodes) hparsed.nodes hnoop hinj (MatchMaker.ofNodes_repOk b.nodes) (fun p => by simp [MatchMaker.fallThrough, MatchMaker.ofNodes])
    (fun p => by simp [MatchMaker.jumpingTo, MatchMaker.ofNodes])
  rw [hrun, Option.some.injEq] at hresolve
  subst hresolve
  have hblock : block = (start :: items).flatMap Item.code := by
    rw [List.flatMap_cons, hstartCode, List.nil_append, ← hcode]
  refine ⟨rfl, start :: items, hblock, ⟨_, _, rfl⟩, ?_, ?_, ?_, hrep, ?_, ?_, ?_⟩
  · intro i it hit
    exact hprint it (List.mem_of_getElem? hit)
  · rw [← labels_flatMap_code, ← hblock]
    exact hnodup
  · exact hnodes.trans hparsed.nodes
  · intro i
    rw [hfall, hparsed.fallTo_eq]
  · intro i it l hit ht
    -- a label that is jumped to is bound in the body, hence by one of the items
    obtain ⟨e, he, hl⟩ := mem_targets_of_takes (List.mem_of_getElem? hit) ht
    rw [← hblock] at he
    have hmem := hok.targets e he l hl
    rw [hblock, labels_flatMap_code, List.mem_flatMap] at hmem
    obtain ⟨it', hit', hl'⟩ := hmem
    obtain ⟨j, hj⟩ := List.getElem?_of_mem hit'
    refine ⟨j, it', ?_, hj, hl'⟩
    rw [hjump, jumpTo, hit, Option.bind_some, ht, Option.bind_some]
    exact hparsed.own j it' hj l hl'
  · intro i hnone
    rw [hjump, jumpTo, ← Option.bind_assoc, hnone, Option.bind_none]

end CFGBuilder

end Jaek
