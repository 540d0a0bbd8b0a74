import Jaek.Assembly.Ralloc.AssignColors
import Jaek.Assembly.Ralloc.Build

/-!
# One round of `chitLoop`

A round ends with a map from register names to machine registers. The graph has a vertex for each size in
which a name occurs, and all of them enter their colour for the name, so that the last one stands. The
degrees are never raised, so no register waits to be spilled, and the last one is known from the body: the
registers that no move mentions are the last to be popped (`Reaches.stack_eq`).

`chitLoop_colors` says that the map keeps registers apart by name, where the representatives of two names
interfere whenever the names do.
-/

namespace Jaek

namespace Chaitin

namespace Worklist

/-! ## The order of selection -/

/-- Whether a move between registers mentions `r`. -/
def moved (body : List Instruction) (r : Register) : Bool :=
  body.any fun insn => (moveOf 0 insn).isSome && (insn.def ++ insn.use).contains r

/-- The registers in the order in which they go on the stack. -/
def selectOrder (body : List Instruction) : List Register :=
  (involved body).filter (!moved body ·) ++ (involved body).filter (moved body ·)

/-- Nothing is spilled, and what is on the stack and on the lists is `order`. -/
structure InOrder (order : List Register) (w : Worklist) : Prop where
  queue : w.selectStack.reverse ++ (w.simplifyWorkList ++ w.freezeWorkList) = order
  spill : w.spillWorkList = []
  low : ∀ r d, w.ig.degrees r = some d → d < w.K
  listed : ∀ r, ∀ m ∈ w.ig.moveList r, m ∈ w.worklistMoves
  frozen : ∀ v ∈ w.freezeWorkList, ∃ m, m ∈ w.ig.moveList v

variable {order : List Register} {w w' : Worklist} {n m u : Register}

/-- Lowering a degree keeps the order. -/
theorem InOrder.lower (h : InOrder order w) (hw : w.lower m = some w') : InOrder order w' := by
  unfold Worklist.lower at hw
  split_ifs at hw with habs
  · obtain ⟨d, hd, hw⟩ := Option.bind_eq_some_iff.mp hw
    -- The degree is below `K` already.
    have hlow := h.low m d hd
    have hne : ¬ d = ((w.setDegree m (d - 1)).K : ℤ) := hlow.ne
    simp only [if_neg hne] at hw
    rw [← Option.some.inj hw]
    refine ⟨h.queue, h.spill, ?_, h.listed, h.frozen⟩
    intro r e he
    simp only [setDegree] at he ⊢
    by_cases hr : r = m
    · rw [hr, Function.update_self, Option.some.injEq] at he
      omega
    · rw [Function.update_of_ne hr] at he
      exact h.low r e he
  · rw [← Option.some.inj hw]
    exact h

/-- So does lowering several. -/
theorem InOrder.foldlM_lower {ms : List Register} (h : InOrder order w)
    (hw : ms.foldlM Worklist.lower w = some w') : InOrder order w' := by
  induction ms generalizing w with
  | nil =>
    rw [← Option.some.inj hw]
    exact h
  | cons m ms ih =>
    rw [List.foldlM_cons] at hw
    obtain ⟨w₁, h₁, h₂⟩ := Option.bind_eq_some_iff.mp hw
    exact ih (h.lower h₁) h₂

/-- A frozen register keeps its moves, so it is not thawed with another. -/
theorem InOrder.freezeMove {move : Move} (h : InOrder order w) :
    InOrder order (Worklist.freezeMove u w move) := by
  simp only [Worklist.freezeMove]
  generalize (if move.src.regName = u.regName then move.dest else move.src) = v
  rw [if_neg]
  · exact ⟨h.queue, h.spill, h.low, h.listed, h.frozen⟩
  · rintro ⟨hv, hnone⟩
    obtain ⟨m, hm⟩ := h.frozen v hv
    refine absurd hnone (List.ne_nil_of_mem (a := m) ?_)
    simp only [nodeMoves, List.mem_filter, decide_eq_true_eq]
    exact ⟨hm, .inr (h.listed v m hm)⟩

/-- So does freezing moves. -/
theorem InOrder.freezeMoves (h : InOrder order w) : InOrder order (w.freezeMoves u) := by
  unfold Worklist.freezeMoves
  generalize w.nodeMoves u = moves
  induction moves generalizing w with
  | nil => exact h
  | cons m moves ih => exact ih h.freezeMove

/-- The step. -/
theorem Step.inOrder (hs : Step w w') (h : InOrder order w) : InOrder order w' := by
  cases hs with
  | simplify hw =>
    unfold Worklist.simplify at hw
    split at hw
    · cases hw
    · rename_i n rest hlist
      obtain ⟨neighbours, -, hw⟩ := Option.bind_eq_some_iff.mp hw
      refine InOrder.foldlM_lower ?_ hw
      refine ⟨?_, h.spill, h.low, h.listed, h.frozen⟩
      have hqueue := h.queue
      rw [hlist] at hqueue
      simpa using hqueue
  | freeze hsimplify hw =>
    unfold Worklist.freeze at hw
    split at hw
    · cases hw
    · rename_i u rest hlist
      rw [← Option.some.inj hw]
      apply InOrder.freezeMoves
      refine ⟨?_, h.spill, h.low, h.listed, ?_⟩
      · have hqueue := h.queue
        rw [hsimplify, hlist] at hqueue
        simpa [hsimplify, addNew] using hqueue
      · intro v hv
        refine h.frozen v ?_
        rw [hlist]
        exact List.mem_cons_of_mem u hv
  | selectSpill _ _ hm =>
    have hmem := mem_of_mem_heuristic hm
    rw [h.spill] at hmem
    exact absurd hmem List.not_mem_nil

/-- The run. -/
theorem Reaches.stack_eq (hr : Reaches w w') (h : InOrder order w) (hfinished : w'.Finished) :
    w'.selectStack.reverse = order := by
  have h' : InOrder order w' := by
    clear hfinished
    induction hr with
    | refl => exact h
    | tail _ hs ih => exact hs.inOrder ih
  have hqueue := h'.queue
  rw [hfinished.simplify, hfinished.freeze] at hqueue
  simpa using hqueue

/-- With degrees of 0, the constructor only looks at the moves. -/
theorem foldlM_place_eq {rs : List Register} (hK : 0 < w.K)
    (hdegrees : ∀ r ∈ rs, w.ig.degrees r = some 0) (hnodup : rs.Nodup)
    (hsimplify : ∀ r ∈ rs, r ∉ w.simplifyWorkList) (hfreeze : ∀ r ∈ rs, r ∉ w.freezeWorkList) :
    rs.foldlM place w = some { w with
      simplifyWorkList := w.simplifyWorkList ++ rs.filter (!w.moveRelated ·)
      freezeWorkList := w.freezeWorkList ++ rs.filter (w.moveRelated ·) } := by
  induction rs generalizing w with
  | nil => simp
  | cons r rs ih =>
    rw [List.forall_mem_cons] at hdegrees hsimplify hfreeze
    rw [List.nodup_cons] at hnodup
    have hhigh : ¬ (w.K : ℤ) ≤ 0 := by omega
    have hplace : w.place r = some (w.addLow r) := by
      simp only [place, hdegrees.1, Option.bind_eq_bind, Option.bind_some, if_neg hhigh]
      rfl
    have hapart : ∀ s : List Register, (∀ a ∈ rs, a ∉ s) → ∀ a ∈ rs, a ∉ s ++ [r] := by
      intro s hs a ha hmem
      rcases List.mem_append.mp hmem with hmem | hmem
      · exact hs a ha hmem
      · rw [List.mem_singleton.mp hmem] at ha
        exact hnodup.1 ha
    rw [List.foldlM_cons, hplace]
    -- The lists do not matter to which registers a move mentions.
    by_cases hrel : w.moveRelated r = true
    · have hadd : w.addLow r = { w with freezeWorkList := w.freezeWorkList ++ [r] } := by
        rw [addLow, if_pos hrel, addNew, if_neg hfreeze.1]
      rw [hadd]
      refine (ih (w := { w with freezeWorkList := w.freezeWorkList ++ [r] }) hK hdegrees.2 hnodup.2
        hsimplify.2 (hapart _ hfreeze.2)).trans ?_
      rw [List.filter_cons_of_neg (by simp [hrel]), List.filter_cons_of_pos hrel,
        List.append_cons _ r (rs.filter _)]
      rfl
    · have hadd : w.addLow r = { w with simplifyWorkList := w.simplifyWorkList ++ [r] } := by
        rw [addLow, if_neg hrel, addNew, if_neg hsimplify.1]
      rw [hadd]
      refine (ih (w := { w with simplifyWorkList := w.simplifyWorkList ++ [r] }) hK hdegrees.2
        hnodup.2 (hapart _ hsimplify.2) hfreeze.2).trans ?_
      rw [List.filter_cons_of_pos (by simp [hrel]), List.filter_cons_of_neg hrel,
        List.append_cons _ r (rs.filter _)]
      rfl

/-! ## The last colour of a name -/

/-- A turn colours its register, or leaves one that is spilled. -/
theorem assignColor_colored (h : w.assignColor n = some w') :
    (w'.spilledNodes = w.spilledNodes ∧ w'.coloredNodes = addNew w.coloredNodes n) ∨
      n ∈ w'.spilledNodes ∧ w.spilledNodes ⊆ w'.spilledNodes := by
  unfold assignColor at h
  split_ifs at h
  · rw [← Option.some.inj h]
    exact .inl ⟨rfl, rfl⟩
  · obtain ⟨neighbours, -, h⟩ := Option.bind_eq_some_iff.mp h
    split at h
    · rw [← Option.some.inj h]
      exact .inr ⟨mem_addNew.mpr (.inr rfl), fun r hr => mem_addNew.mpr (.inl hr)⟩
    · rw [← Option.some.inj h]
      exact .inl ⟨rfl, rfl⟩

/-- A spilled node stays spilled. -/
theorem spilledNodes_subset (h : w.assignColor n = some w') : w.spilledNodes ⊆ w'.spilledNodes := by
  rcases assignColor_colored h with ⟨heq, -⟩ | ⟨-, hsub⟩
  · rw [heq]
    exact List.Subset.refl _
  · exact hsub

/-- Where none is spilled, the registers are coloured in the order of their turns. -/
theorem foldlM_assignColor_colored {rs : List Register} (h : rs.foldlM assignColor w = some w')
    (hspilled : w'.spilledNodes = []) (hnodup : rs.Nodup) (hnew : ∀ r ∈ rs, r ∉ w.coloredNodes) :
    w'.coloredNodes = w.coloredNodes ++ rs := by
  have hmono : ∀ (rs : List Register) (w : Worklist), rs.foldlM assignColor w = some w' →
      w.spilledNodes = [] := by
    intro rs
    induction rs with
    | nil =>
      intro w hw
      rw [Option.some.inj hw]
      exact hspilled
    | cons r rs ih =>
      intro w hw
      rw [List.foldlM_cons] at hw
      obtain ⟨w₁, h₁, h₂⟩ := Option.bind_eq_some_iff.mp hw
      have hsub := spilledNodes_subset h₁
      rw [ih w₁ h₂] at hsub
      exact List.subset_nil.mp hsub
  induction rs generalizing w with
  | nil => rw [← Option.some.inj h, List.append_nil]
  | cons r rs ih =>
    rw [List.foldlM_cons] at h
    obtain ⟨w₁, h₁, h₂⟩ := Option.bind_eq_some_iff.mp h
    rw [List.forall_mem_cons] at hnew
    rw [List.nodup_cons] at hnodup
    rcases assignColor_colored h₁ with ⟨-, hcolored⟩ | ⟨hmem, -⟩
    · rw [addNew, if_neg hnew.1] at hcolored
      have hnew₁ : ∀ a ∈ rs, a ∉ w₁.coloredNodes := by
        intro a ha hmem
        rw [hcolored] at hmem
        rcases List.mem_append.mp hmem with hmem | hmem
        · exact hnew.2 a ha hmem
        · rw [List.mem_singleton.mp hmem] at ha
          exact hnodup.1 ha
      rw [ih h₂ hnodup.2 hnew₁, hcolored, List.append_assoc, List.singleton_append]
    · rw [hmono rs w₁ h₂] at hmem
      exact absurd hmem List.not_mem_nil

/-- Enter the colour of a register for its name. -/
def enter (colors : Register → Option ℕ) (map : String → Option ℕ) : Register → String → Option ℕ
  | .abstract name size => Function.update map name (colors (.abstract name size))
  | .x86 _ _ => map

/-- The map of the names. Its keys are entered in the order in which the registers got their colours. -/
def replaceMap (w : Worklist) : String → Option ℕ :=
  w.coloredNodes.foldl (enter w.ig.colors) fun _ => none

/-- The last register of a name is the one that counts. -/
theorem foldl_enter (colors : Register → Option ℕ) (rs : List Register) (map : String → Option ℕ)
    (name : String) : rs.foldl (enter colors) map name =
      (rs.reverse.find? (·.regName = .abstract name)).elim (map name) colors := by
  induction rs using List.reverseRecOn with
  | nil => rfl
  | append_singleton rs r ih =>
    rw [List.foldl_append, List.foldl_cons, List.foldl_nil, List.reverse_append,
      List.reverse_singleton, List.singleton_append]
    by_cases hr : r.regName = .abstract name
    · rw [List.find?_cons_of_pos (by simpa using hr)]
      cases r with
      | abstract name' size =>
        rw [RegName.abstract.inj hr, enter, Function.update_self]
        rfl
      | x86 => cases hr
    · rw [List.find?_cons_of_neg (by simpa using hr), ← ih]
      cases r with
      | abstract name' size =>
        have hne : name ≠ name' := fun hname => hr (congrArg RegName.abstract hname.symm)
        rw [enter, Function.update_of_ne hne]
      | x86 => rfl

end Worklist

open Chaitin.InterferenceGraph Chaitin.Worklist Chaitin.LiveVariableAnalysis

/-! ## A round -/

/-- The machine registers in the order of their colours. -/
def regOrder : List x86Name :=
  [.RAX, .RBX, .RCX, .RDX, .RSP, .RBP, .RDI, .RSI, .R8, .R9, .R10, .R11, .R12, .R13, .R14, .R15]

/-- What stands for a register, in the size asked for. -/
def replaceRegister (r : Register) (replaceMap : String → Option ℕ) (size : ℕ := 64) :
    Option Register :=
  match r with
  | .abstract name _ => do
    let index ← replaceMap name
    let reg ← regOrder[index]?
    return .x86 reg (if size = 64 then 64 else 8)
  | .x86 name size => some (.x86 name size)

/-- A round, with any picks in the analysis and any run of the main loop. -/
inductive Round (body : List Instruction) : Worklist → Prop
  | mk {cfg : LVA.CFG} {lva : LiveVariableAnalysis} {g : InterferenceGraph} {m : List Move}
      {w₀ w₁ w : Worklist} : LVA.build body = some cfg → Analysed cfg lva →
      build cfg lva body = some (g, m) → Worklist.init g 16 body m cfg.nodes.length = some w₀ →
      Reaches w₀ w₁ → w₁.Finished → w₁.assignColors = some w → Round body w

/-- Two registers, each with its size, for which `addEdge` is called: one is live where the other is
defined. -/
def Interfere (cfg : LVA.CFG) (a b : Register) : Prop :=
  ∃ i node, cfg.nodes[i]? = some node ∧ ∃ d ∈ node.insn.def, ∃ l, (l ∈ node.insn.def ∨
    l ∈ (registerGraph cfg).liveOut i ∧
      ((moveOf 0 node.insn).isSome → removes node.insn.use l = false)) ∧
    l.regName ≠ d.regName ∧ (a = d ∧ b = l ∨ a = l ∧ b = d)

variable {body : List Instruction} {cfg : LVA.CFG} {lva : LiveVariableAnalysis}
  {g : InterferenceGraph} {m : List Move} {w : Worklist}

/-- The nodes are the instructions of the code. -/
theorem mem_nodes_iff (h : LVA.build body = some cfg) {i : ℕ} {insn : Instruction} :
    (LVA.code body)[i]? = some insn ↔ ∃ node, cfg.nodes[i]? = some node ∧ node.insn = insn := by
  rw [← LVA.insns_of_build h, List.getElem?_map, Option.map_eq_some_iff]

/-- A move is no comment and no label. -/
theorem moved_iff (h : LVA.build body = some cfg) {r : Register} : moved body r = true ↔
    ∃ node ∈ cfg.nodes.zipIdx,
      (moveOf node.2 node.1.insn).isSome ∧ (r ∈ node.1.insn.def ∨ r ∈ node.1.insn.use) := by
  have hid : ∀ i insn, (moveOf i insn).isSome = (moveOf 0 insn).isSome := by
    intro i insn
    unfold moveOf
    split <;> rfl
  have hcode : ∀ insn, (moveOf 0 insn).isSome → (insn ∈ body ↔ insn ∈ LVA.code body) := by
    intro insn hinsn
    unfold moveOf at hinsn
    split at hinsn
    · simp [LVA.code, LVA.isComment, LVA.isLabel]
    · cases hinsn
  simp only [moved, List.any_eq_true, Bool.and_eq_true, List.contains_iff_mem, List.mem_append, hid]
  constructor
  · rintro ⟨insn, hinsn, hmove, hr⟩
    obtain ⟨i, hi⟩ := List.mem_iff_getElem?.mp ((hcode insn hmove).mp hinsn)
    obtain ⟨node, hnode, rfl⟩ := (mem_nodes_iff h).mp hi
    exact ⟨(node, i), List.mem_zipIdx_iff_getElem?.mpr hnode, hmove, hr⟩
  · rintro ⟨⟨node, i⟩, hnode, hmove, hr⟩
    have hi := (mem_nodes_iff h).mpr ⟨node, List.mem_zipIdx_iff_getElem?.mp hnode, rfl⟩
    exact ⟨node.insn, (hcode _ hmove).mpr (List.mem_of_getElem? hi), hmove, hr⟩

/-- The start of the main loop is in order. -/
theorem inOrder_init (hcfg : LVA.build body = some cfg) (h : Built body lva cfg.nodes.zipIdx (g, m))
    {next : ℕ} (hw : Worklist.init g 16 body m next = some w) : InOrder (selectOrder body) w := by
  have hdegrees : ∀ r ∈ involved body, g.degrees r = some 0 := by
    intro r hr
    obtain ⟨d, hd⟩ := h.adjacent.lists.counted r hr
    rw [hd, h.degrees r d hd]
  obtain ⟨w', hplace, hw⟩ := Option.bind_eq_some_iff.mp hw
  rw [foldlM_place_eq (Nat.succ_pos 15) hdegrees (nodup_involved body) (by simp) (by simp),
    Option.some.injEq] at hplace
  generalize hstart : ({
    ig := g, K := 16, simplifyWorkList := [], freezeWorkList := [], spillWorkList := []
    spilledNodes := [], coloredNodes := [], selectStack := [], worklistMoves := m
    activeMoves := [], frozenMoves := [] } : Worklist) = start at hplace
  have hrelated : ∀ r, start.moveRelated r = true ↔ ∃ m, m ∈ g.moveList r := by
    intro r
    have hfilter : start.nodeMoves r = g.moveList r := by
      rw [← hstart, nodeMoves, List.filter_eq_self]
      exact fun m hm => decide_eq_true (.inr (h.listed r m hm))
    rw [moveRelated, hfilter, Bool.not_eq_true', List.isEmpty_eq_false_iff_exists_mem]
  have hmoved : start.moveRelated = moved body := by
    funext r
    rw [Bool.eq_iff_iff, hrelated, moved_iff hcfg]
    exact h.related r
  rw [← Option.some.inj hw, ← hplace, hmoved, ← hstart]
  refine ⟨rfl, rfl, ?_, ?_, ?_⟩
  · intro r d hd
    have hzero := h.degrees r d hd
    change d < (16 : ℤ)
    omega
  · exact fun r m hm => List.mem_append_left _ (h.listed r m hm)
  · intro v hv
    have hmem : v ∈ (involved body).filter (moved body ·) := hv
    rw [List.mem_filter, moved_iff hcfg] at hmem
    exact (h.related v).mpr hmem.2

/-- What a round without spills leaves. -/
theorem Round.outcome (h : Round body w) (hspilled : w.spilledNodes = []) :
    ∃ cfg g, LVA.build body = some cfg ∧ Adjacent (involved body) g ∧ Allocated body g w ∧
      w.coloredNodes = (selectOrder body).reverse ∧
      ∀ a b, Interfere cfg a b → (a, b) ∈ g.adjSet := by
  obtain ⟨hcfg, hlva, hbuild, hinit, hreach, hfinished, hassign⟩ := h
  rename_i cfg lva g m w₀ w₁
  have hbuilt := build_spec hbuild
  obtain ⟨w₀', hinit', hholds⟩ := init_holds hbuilt.adjacent 16 m cfg.nodes.length
  obtain rfl : w₀' = w₀ := Option.some.inj (hinit'.symm.trans hinit)
  have hholds₁ := hreach.holds hbuilt.adjacent (nodup_involved body) hholds
  have hperm := hholds₁.stack_perm hfinished
  obtain ⟨w', hassign', hallocated⟩ := assignColors_allocated hbuilt.adjacent hholds₁ hperm
  obtain rfl : w' = w := Option.some.inj (hassign'.symm.trans hassign)
  have hstack := hreach.stack_eq (inOrder_init hcfg hbuilt hinit) hfinished
  refine ⟨cfg, g, hcfg, hbuilt.adjacent, hallocated, ?_, ?_⟩
  · have hcolored : w₁.coloredNodes = [] := congrArg (fun p => p.2.2.2) hholds₁.fixed
    have hrun := foldlM_assignColor_colored hassign hspilled
      (hperm.nodup_iff.mpr (nodup_involved body)) (by simp [hcolored])
    rw [hrun, ← hstack, List.reverse_reverse]
    simp [hcolored]
  · rintro a b ⟨i, node, hnode, d, hd, l, hl, hne, hab⟩
    obtain ⟨out, hout, hmem⟩ := hlva.liveOut (List.getElem?_eq_some_iff.mp hnode).1
    have hbehind : l ∈ liveBehind node.insn out := by
      rw [liveBehind, mem_union]
      refine hl.symm.imp_left fun ⟨hlive, hsource⟩ => ?_
      split_ifs with hmove
      · exact mem_minus.mpr ⟨hmem l hlive, hsource hmove⟩
      · exact hmem l hlive
    have hedge := hbuilt.edges (node, i) (List.mem_zipIdx_iff_getElem?.mpr hnode) out hout d hd l
      hbehind hne
    rcases hab with ⟨rfl, rfl⟩ | ⟨rfl, rfl⟩
    · exact hbuilt.adjacent.symm _ _ hedge
    · exact hedge

/-! ## Names -/

/-- The instructions of a body with the names they read and write, and the edges of the machine. -/
def machineGraph (body : List Instruction) : FlowGraph ℕ RegName where
  edge := LVA.MachineEdge body
  use i := {r | ∃ insn, (LVA.code body)[i]? = some insn ∧ r ∈ names insn.use}
  «def» i := {r | ∃ insn, (LVA.code body)[i]? = some insn ∧ r ∈ names insn.def}

/-- An instruction defines the name `d`, and `l` is another name that is live behind it and is not the
source of its move. -/
def Conflict (body : List Instruction) (d l : RegName) : Prop :=
  ∃ i insn, (LVA.code body)[i]? = some insn ∧ d ∈ names insn.def ∧
    l ∈ (machineGraph body).liveOut i ∧ d ≠ l ∧ ((moveOf 0 insn).isSome → l ∉ names insn.use)

/-- Every occurrence of a name is replaced by one machine register, and names in conflict by different
ones. -/
def ColorsByName (body : List Instruction) (w : Worklist) : Prop :=
  ∃ phys : RegName → x86Name, (∀ name, phys (.x86 name) = name) ∧
    (∀ r ∈ involved body, ∀ size, replaceRegister r (replaceMap w) size =
      some (.x86 (phys r.regName) (if size = 64 then 64 else 8))) ∧
    ∀ d l, Conflict body d l → phys d ≠ phys l

/-- The register of a name that is coloured last: the first to go on the stack. -/
def representative (body : List Instruction) : RegName → Option Register
  | .abstract name => (selectOrder body).find? (·.regName = .abstract name)
  | .x86 name => some (.x86 name)

/-- Where names are in conflict, their representatives interfere. -/
def Separated (body : List Instruction) : Prop :=
  ∀ cfg, LVA.build body = some cfg → ∀ d l, Conflict body d l →
    ∀ a b, representative body d = some a → representative body l = some b →
      (a.isAbstract = true ∨ b.isAbstract = true) → Interfere cfg a b

/-- The order has every register of the body. -/
theorem mem_selectOrder {r : Register} : r ∈ selectOrder body ↔ r ∈ involved body := by
  simp only [selectOrder, List.mem_append, List.mem_filter]
  cases moved body r <;> simp

/-- Instructions involve the abstract registers they use and define. -/
theorem mem_involved_of_mem {insn : Instruction} {r : Register} (hr : r ∈ insn.use ∨ r ∈ insn.def)
    (habs : r.isAbstract = true) : r ∈ insn.involved := by
  have hmachine : ∀ name size, r ≠ .x86 name size := by
    rintro name size rfl
    cases habs
  unfold Instruction.involved
  refine List.mem_filter.mpr ⟨?_, habs⟩
  cases insn with
  | MOV dest src =>
    cases dest <;>
      simp [Instruction.use, Instruction.def, Destination.use, Destination.def] at hr ⊢ <;> tauto
  | arith op dest src =>
    cases dest <;>
      simp [Instruction.use, Instruction.def, Destination.use, Destination.def] at hr ⊢ <;> tauto
  | logic op dest src =>
    cases dest <;>
      simp [Instruction.use, Instruction.def, Destination.use, Destination.def] at hr ⊢ <;> tauto
  | LEA dest src =>
    cases dest <;>
      simp [Instruction.use, Instruction.def, Destination.use, Destination.def] at hr ⊢ <;> tauto
  | INC dest =>
    cases dest <;>
      simp [Instruction.use, Instruction.def, Destination.use, Destination.def] at hr ⊢ <;> tauto
  | DEC dest =>
    cases dest <;>
      simp [Instruction.use, Instruction.def, Destination.use, Destination.def] at hr ⊢ <;> tauto
  | _ => simp [Instruction.use, Instruction.def, hmachine] at hr ⊢ <;> tauto

/-- A register that is involved is used or defined. -/
theorem mem_of_mem_involved {insn : Instruction} {r : Register} (hr : r ∈ insn.involved) :
    r ∈ insn.use ++ insn.def := by
  unfold Instruction.involved at hr
  have hr := List.mem_of_mem_filter hr
  cases insn with
  | MOV dest src =>
    cases dest <;>
      simp [Instruction.use, Instruction.def, Destination.use, Destination.def] at hr ⊢ <;> tauto
  | _ => simp [Instruction.use, Instruction.def] at hr ⊢ <;> tauto

/-- A name that an instruction uses or defines has a representative. -/
theorem exists_representative {i : ℕ} {insn : Instruction} (hi : (LVA.code body)[i]? = some insn)
    {n : RegName} (hn : n ∈ names insn.use ∨ n ∈ names insn.def) :
    ∃ a, representative body n = some a := by
  cases n with
  | x86 name => exact ⟨_, rfl⟩
  | abstract name =>
    obtain ⟨r, hr, hname⟩ : ∃ r, (r ∈ insn.use ∨ r ∈ insn.def) ∧ r.regName = .abstract name := by
      rcases hn with hn | hn
      · obtain ⟨r, hr, hname⟩ := mem_names.mp hn
        exact ⟨r, .inl hr, hname⟩
      · obtain ⟨r, hr, hname⟩ := mem_names.mp hn
        exact ⟨r, .inr hr, hname⟩
    have habs : r.isAbstract = true := by
      cases r with
      | abstract => rfl
      | x86 => cases hname
    have hbody : insn ∈ body := List.mem_of_mem_filter (List.mem_of_getElem? hi)
    have hmem := mem_selectOrder.mpr (mem_involved.mpr ⟨insn, hbody, mem_involved_of_mem hr habs⟩)
    rw [← Option.isSome_iff_exists, representative, List.find?_isSome]
    exact ⟨r, hmem, decide_eq_true hname⟩

/-- Some instruction uses a live name. -/
theorem exists_use_of_live {n : RegName} {i : ℕ} (h : (machineGraph body).Live n i) :
    ∃ (j : ℕ) (insn : Instruction), (LVA.code body)[j]? = some insn ∧ n ∈ names insn.use := by
  induction h with
  | use huse =>
    obtain ⟨insn, hinsn, hn⟩ := huse
    exact ⟨_, insn, hinsn, hn⟩
  | pass _ _ _ ih => exact ih

/-- Both ends of a conflict have a register that stands for them. -/
theorem Conflict.representative {d l : RegName} (h : Conflict body d l) :
    (∃ a, Chaitin.representative body d = some a) ∧ ∃ b, Chaitin.representative body l = some b := by
  obtain ⟨i, insn, hi, hd, ⟨j, -, hlive⟩, -, -⟩ := h
  obtain ⟨j, insn', hj, hl⟩ := exists_use_of_live hlive
  exact ⟨exists_representative hi (.inr hd), exists_representative hj (.inl hl)⟩

/-- Each of the sixteen colours is a machine register. -/
theorem exists_regOrder {c : ℕ} (hc : c < 16) : ∃ n, regOrder[c]? = some n ∧ n.ordinal = c := by
  interval_cases c <;> exact ⟨_, rfl, rfl⟩

/-- The replacement of a name is the colour of the last register of this name that was coloured. -/
theorem replaceMap_eq (hcolored : w.coloredNodes = (selectOrder body).reverse) (name : String) :
    replaceMap w name = (representative body (.abstract name)).bind w.ig.colors := by
  rw [replaceMap, foldl_enter, hcolored, List.reverse_reverse, representative]
  cases (selectOrder body).find? fun r => decide (r.regName = .abstract name) <;> rfl

/-- In a round without spills, the substituted registers respect interference by name where the
representatives of names in conflict interfere. -/
theorem chitLoop_colors (h : Round body w) (hspilled : w.spilledNodes = [])
    (hsep : Separated body) : ColorsByName body w := by
  obtain ⟨cfg, g, hcfg, hadj, halloc, hcolored, hedges⟩ := h.outcome hspilled
  -- The colour of a representative is the place of the machine register that its name gets.
  let phys : RegName → x86Name
    | .abstract name => ((replaceMap w name).bind fun c => regOrder[c]?).getD .RAX
    | .x86 name => name
  have hnode : ∀ r ∈ involved body, r ∈ w.coloredNodes := fun r hr => by
    rw [hcolored, List.mem_reverse, mem_selectOrder]
    exact hr
  have hcolor : ∀ name a, representative body (.abstract name) = some a → ∃ c,
      w.ig.colors a = some c ∧ replaceMap w name = some c ∧
        regOrder[c]? = some (phys (.abstract name)) ∧ (phys (.abstract name)).ordinal = c := by
    intro name a ha
    have hmem : a ∈ involved body := mem_selectOrder.mp (List.mem_of_find?_eq_some ha)
    obtain ⟨c, hc, hac, -⟩ := halloc.color a hmem (hnode a hmem)
    obtain ⟨n, hn, hordinal⟩ := exists_regOrder hc
    have hmap : replaceMap w name = some c := by
      rw [replaceMap_eq hcolored, ha]
      exact hac
    have hphys : phys (.abstract name) = n := by
      change ((replaceMap w name).bind fun c => regOrder[c]?).getD .RAX = n
      rw [hmap, Option.bind_some, hn]
      rfl
    exact ⟨c, hac, hmap, hphys ▸ hn, hphys ▸ hordinal⟩
  have hordinal : ∀ n a, representative body n = some a →
      w.ig.colors a = some (phys n).ordinal ∧ (a.isAbstract = true → a ∈ involved body) ∧
        (a.isAbstract = false → ∃ name, n = .x86 name) := by
    intro n a ha
    cases n with
    | abstract name =>
      obtain ⟨c, hac, -, -, hc⟩ := hcolor name a ha
      rw [hc]
      have hmem : a ∈ involved body := mem_selectOrder.mp (List.mem_of_find?_eq_some ha)
      exact ⟨hac, fun _ => hmem, fun hmachine =>
        absurd (isAbstract_of_mem_involved hmem) (by simp [hmachine])⟩
    | x86 name =>
      rw [← Option.some.inj ha]
      exact ⟨halloc.machine name, by simp [Register.isAbstract], fun _ => ⟨name, rfl⟩⟩
  refine ⟨phys, fun _ => rfl, ?_, ?_⟩
  · intro r hr size
    obtain ⟨name, size', rfl⟩ : ∃ name size', r = .abstract name size' := by
      cases r with
      | abstract name size' => exact ⟨name, size', rfl⟩
      | x86 => exact absurd (isAbstract_of_mem_involved hr) (by simp [Register.isAbstract])
    obtain ⟨a, ha⟩ : ∃ a, representative body (.abstract name) = some a := by
      rw [← Option.isSome_iff_exists, representative, List.find?_isSome]
      exact ⟨_, mem_selectOrder.mpr hr, decide_eq_true rfl⟩
    obtain ⟨c, -, hmap, hc, -⟩ := hcolor name a ha
    simp only [replaceRegister, hmap, hc, Option.bind_eq_bind, Option.bind_some, Register.regName]
    rfl
  · intro d l hconflict heq
    obtain ⟨⟨a, ha⟩, b, hb⟩ := hconflict.representative
    obtain ⟨hca, hina, hma⟩ := hordinal d a ha
    obtain ⟨hcb, hinb, hmb⟩ := hordinal l b hb
    have hsame : ∀ c, w.ig.colors a = some c → w.ig.colors b = some c := by
      intro c hc
      rw [hcb, ← heq, ← hca]
      exact hc
    have hne : d ≠ l := by
      obtain ⟨-, -, -, -, -, hne, -⟩ := hconflict
      exact hne
    by_cases habsa : a.isAbstract = true
    · have hedge := hedges a b (hsep cfg hcfg d l hconflict a b ha hb (.inl habsa))
      obtain ⟨c, -, hc, hapart⟩ := halloc.color a (hina habsa) (hnode a (hina habsa))
      refine hapart b hedge ?_ (hsame c hc)
      by_cases habsb : b.isAbstract = true
      · exact .inl (hnode b (hinb habsb))
      · exact .inr (Bool.not_eq_true _ ▸ habsb)
    · by_cases habsb : b.isAbstract = true
      · have hedge := hadj.symm _ _
          (hedges a b (hsep cfg hcfg d l hconflict a b ha hb (.inr habsb)))
        obtain ⟨c, -, hc, hapart⟩ := halloc.color b (hinb habsb) (hnode b (hinb habsb))
        refine hapart a hedge (.inr (Bool.not_eq_true _ ▸ habsa)) ?_
        rw [hca, heq, ← hcb]
        exact hc
      · -- Two machine registers stand for themselves.
        obtain ⟨name, rfl⟩ := hma (Bool.not_eq_true _ ▸ habsa)
        obtain ⟨name', rfl⟩ := hmb (Bool.not_eq_true _ ▸ habsb)
        exact hne (congrArg RegName.x86 heq)

/-! ## Bodies with one size for each name -/

/-- Registers of one name are the same, and machine registers have 64 bits. -/
structure OneSize (body : List Instruction) : Prop where
  eq : ∀ insn ∈ body, ∀ r ∈ insn.use ++ insn.def, ∀ insn' ∈ body, ∀ r' ∈ insn'.use ++ insn'.def,
    r.regName = r'.regName → r = r'
  machine : ∀ insn ∈ body, ∀ r ∈ insn.use ++ insn.def, ∀ name, r.regName = .x86 name → r = .x86 name

/-- A name that is live has a register that is. -/
theorem live_of_names (hcfg : LVA.build body = some cfg)
    (hedge : ∀ i j, LVA.MachineEdge body i j → j ∈ cfg.succs i) {n : RegName} {i : ℕ}
    (h : (machineGraph body).Live n i) :
    ∃ r, r.regName = n ∧ (registerGraph cfg).Live r i ∧ ∃ insn ∈ body, r ∈ insn.use := by
  induction h with
  | use huse =>
    obtain ⟨insn, hinsn, hn⟩ := huse
    obtain ⟨r, hr, hname⟩ := mem_names.mp hn
    obtain ⟨node, hnode, hinsn'⟩ := (mem_nodes_iff hcfg).mp hinsn
    exact ⟨r, hname, .use ⟨node, hnode, hinsn' ▸ hr⟩, insn,
      List.mem_of_mem_filter (List.mem_of_getElem? hinsn), hr⟩
  | pass hdef hstep _ ih =>
    obtain ⟨r, hname, hlive, hr⟩ := ih
    refine ⟨r, hname, .pass ?_ (hedge _ _ hstep) hlive, hr⟩
    rintro ⟨node, hnode, hremoved⟩
    exact hdef ⟨node.insn, (mem_nodes_iff hcfg).mpr ⟨node, hnode, rfl⟩,
      hname ▸ mem_names_of_removes hremoved⟩

/-- With one size for each name and no clash of labels, the representatives interfere. -/
theorem OneSize.separated (h : OneSize body) (hok : LVA.BodyOk body) (hclash : LVA.NoClash body) :
    Separated body := by
  rintro cfg hcfg d l ⟨i, insn, hi, hd, ⟨j, hstep, hlive⟩, hne, hsource⟩ a b ha hb -
  have hedge : ∀ i j, LVA.MachineEdge body i j → j ∈ cfg.succs i := by
    obtain ⟨cfg', hcfg', hnodes, hlookup⟩ := LVA.build_spec hok
    obtain rfl : cfg' = cfg := Option.some.inj (hcfg'.symm.trans hcfg)
    exact fun i j => ((hclash.exact hok hnodes hlookup).1 i j).mpr
  have hbody : insn ∈ body := List.mem_of_mem_filter (List.mem_of_getElem? hi)
  obtain ⟨node, hnode, hinsn⟩ := (mem_nodes_iff hcfg).mp hi
  obtain ⟨r, hr, hrd⟩ := mem_names.mp hd
  obtain ⟨r', hr'l, hr'live, insn', hinsn', hr'⟩ := live_of_names hcfg hedge hlive
  -- The representative of a name is the register that an instruction mentions under it.
  have hrep : ∀ n c, representative body n = some c → ∀ insn ∈ body, ∀ r ∈ insn.use ++ insn.def,
      r.regName = n → c = r := by
    intro n c hc insn hinsn r hr hn
    cases n with
    | x86 name => rw [h.machine insn hinsn r hr name hn, ← Option.some.inj hc]
    | abstract name =>
      obtain ⟨insn', hinsn', hc'⟩ := mem_involved.mp (mem_selectOrder.mp (List.mem_of_find?_eq_some hc))
      have hname : c.regName = .abstract name := by simpa using List.find?_some hc
      exact h.eq insn' hinsn' c (mem_of_mem_involved hc') insn hinsn r hr (hname.trans hn.symm)
  have har := hrep d a ha insn hbody r (List.mem_append_right _ hr) hrd
  have hbr := hrep l b hb insn' hinsn' r' (List.mem_append_left _ hr') hr'l
  refine ⟨i, node, hnode, r, hinsn ▸ hr, r', .inr ⟨⟨j, hedge i j hstep, hr'live⟩, ?_⟩, ?_,
    .inl ⟨har, hbr⟩⟩
  · intro hmove
    rw [← Bool.not_eq_true]
    intro hremoved
    rw [hinsn] at hmove hremoved
    exact hsource hmove (hr'l ▸ mem_names_of_removes hremoved)
  · rw [hr'l, hrd]
    exact hne.symm

/-! ## Runs -/

/-- The main loop, with the first register where one is spilled. -/
def Worklist.loop : ℕ → Worklist → Option Worklist
  | 0, _ => none
  | fuel + 1, w =>
    if w.simplifyWorkList ≠ [] then w.simplify.bind (loop fuel)
    else if w.freezeWorkList ≠ [] then w.freeze.bind (loop fuel)
    else if w.spillWorkList ≠ [] then
      (heuristic w.spillWorkList).head?.bind fun m => loop fuel (w.selectSpill m)
    else some w

/-- A round, with the nodes that the analysis picks. -/
def chitLoop (picks : List ℕ) (fuel : ℕ) (body : List Instruction) : Option Worklist := do
  let cfg ← LVA.build body
  let lva ← picks.foldlM (fun s i => if i ∈ s.worklist then some (s.process cfg i) else none)
    (start cfg)
  if lva.worklist = [] then
    let (g, m) ← build cfg lva body
    let w ← Worklist.init g 16 body m cfg.nodes.length
    let w ← Worklist.loop fuel w
    w.assignColors
  else none

/-- The loop makes steps until it is finished. -/
theorem loop_reaches {fuel : ℕ} {w w' : Worklist} (h : Worklist.loop fuel w = some w') :
    Reaches w w' ∧ w'.Finished := by
  induction fuel generalizing w with
  | zero => cases h
  | succ fuel ih =>
    rw [Worklist.loop] at h
    split_ifs at h with hsimplify hfreeze hspill
    · obtain ⟨w₁, h₁, h₂⟩ := Option.bind_eq_some_iff.mp h
      exact ⟨.head (.simplify h₁) (ih h₂).1, (ih h₂).2⟩
    · obtain ⟨w₁, h₁, h₂⟩ := Option.bind_eq_some_iff.mp h
      exact ⟨.head (.freeze (not_not.mp hsimplify) h₁) (ih h₂).1, (ih h₂).2⟩
    · obtain ⟨m, hm, h₂⟩ := Option.bind_eq_some_iff.mp h
      exact ⟨.head (.selectSpill (not_not.mp hsimplify) (not_not.mp hfreeze)
        (List.mem_of_head? hm)) (ih h₂).1, (ih h₂).2⟩
    · rw [← Option.some.inj h]
      exact ⟨.refl, not_not.mp hsimplify, not_not.mp hfreeze, not_not.mp hspill⟩

/-- A run of `chitLoop` is a round. -/
theorem round_of_chitLoop {picks : List ℕ} {fuel : ℕ} (h : chitLoop picks fuel body = some w) :
    Round body w := by
  obtain ⟨cfg, hcfg, h⟩ := Option.bind_eq_some_iff.mp h
  obtain ⟨lva, hlva, h⟩ := Option.bind_eq_some_iff.mp h
  split_ifs at h with hlist
  obtain ⟨⟨g, m⟩, hbuild, h⟩ := Option.bind_eq_some_iff.mp h
  obtain ⟨w₀, hinit, h⟩ := Option.bind_eq_some_iff.mp h
  obtain ⟨w₁, hloop, h⟩ := Option.bind_eq_some_iff.mp h
  have hrun : ∀ (picks : List ℕ) (s : LiveVariableAnalysis), picks.foldlM (fun s i =>
      if i ∈ s.worklist then some (s.process cfg i) else none) s = some lva →
      Relation.ReflTransGen (LiveVariableAnalysis.Step cfg) s lva := by
    intro picks
    induction picks with
    | nil =>
      intro s hs
      rw [Option.some.inj hs]
    | cons i picks ih =>
      intro s hs
      rw [List.foldlM_cons] at hs
      obtain ⟨s₁, h₁, h₂⟩ := Option.bind_eq_some_iff.mp hs
      split_ifs at h₁ with hi
      rw [← Option.some.inj h₁] at h₂
      exact .head (.pick hi) (ih _ h₂)
  exact .mk hcfg ⟨hrun picks _ hlva, hlist⟩ hbuild hinit (loop_reaches hloop).1
    (loop_reaches hloop).2 h

/-- A function that adds one to its argument. -/
def successor : List Instruction :=
  [.MOV (.registerDest (.abstract "a")) (.registerSrc (.x86 .RDI)),
    .INC (.registerDest (.abstract "a")),
    .MOV (.registerDest (.x86 .RAX)) (.registerSrc (.abstract "a")),
    .RET]

/-- In the body `successor` every register has its own name. -/
theorem successor_separated : Separated successor := by
  have hok : LVA.BodyOk successor := ⟨by simp [successor], successor.take 3, .RET, rfl, .inl rfl⟩
  have hclash : LVA.NoClash successor := fun x t j _ haddr => by
    simp [successor, LVA.address] at haddr
  have hsize : OneSize successor := by
    refine ⟨by decide, fun insn hinsn r hr name hname => ?_⟩
    have hregs : ∀ insn ∈ successor, ∀ r ∈ insn.use ++ insn.def,
        r.isAbstract = true ∨ r = .x86 .RDI ∨ r = .x86 .RAX ∨ r = .x86 .RSP ∨ r = .x86 .RBX ∨
          r = .x86 .R12 ∨ r = .x86 .R13 ∨ r = .x86 .R14 ∨ r = .x86 .R15 ∨ r = .x86 .RDX := by decide
    rcases hregs insn hinsn r hr with h | h | h | h | h | h | h | h | h | h
    · cases r with
      | abstract => cases hname
      | x86 => cases h
    all_goals
      rw [h] at hname ⊢
      exact congrArg (Register.x86 · 64) (RegName.x86.inj hname)
  exact hsize.separated hok hclash

/-- Its round spills nothing and colours by name. -/
theorem successor_colors :
    ∃ w, Round successor w ∧ w.spilledNodes = [] ∧ ColorsByName successor w := by
  have hrun : (chitLoop [3, 2, 1, 0] 3 successor).map Worklist.spilledNodes = some [] := by
    decide
  obtain ⟨w, hw, hspilled⟩ := Option.map_eq_some_iff.mp hrun
  have hround := round_of_chitLoop hw
  exact ⟨w, hround, hspilled, chitLoop_colors hround hspilled successor_separated⟩

/-- A function that compares its argument with itself, in blocks whose order is not that of the run. -/
def laterBlock : List Instruction :=
  [.jump .JMP "$L2",
    .label "$L1" false,
    .logic .XOR (.registerDest (.abstract "r")) (.registerSrc (.abstract "r")),
    .CMP (.registerDest (.abstract "a")) (.registerSrc (.abstract "a")),
    .jumpSet .SETZ (.abstract "r" 8),
    .MOV (.registerDest (.abstract "b")) (.registerSrc (.abstract "r")),
    .MOV (.registerDest (.x86 .RAX)) (.registerSrc (.abstract "b")),
    .RET,
    .label "$L2" false,
    .MOV (.registerDest (.abstract "a")) (.registerSrc (.x86 .RDI)),
    .jump .JMP "$L1"]

/-- The byte register of the result is coloured last, and may share with `a`, which is dead there. So the
result is zeroed in the register of `a` before the comparison reads `a`. -/
theorem laterBlock_colors :
    ¬ ∀ (body : List Instruction) (w : Worklist), Round body w → w.spilledNodes = [] →
      ColorsByName body w := by
  intro h
  have hrun : (chitLoop [6, 5, 4, 3, 2, 1, 8, 7, 0] 9 laterBlock).map
      (fun w => (w.spilledNodes, replaceMap w "a", replaceMap w "r")) = some ([], some 0, some 0) := by
    decide
  obtain ⟨w, hw, hmaps⟩ := Option.map_eq_some_iff.mp hrun
  simp only [Prod.mk.injEq] at hmaps
  obtain ⟨hspilled, ha, hr⟩ := hmaps
  obtain ⟨phys, -, hreplaced, hapart⟩ := h laterBlock w (round_of_chitLoop hw) hspilled
  have hphysA := hreplaced (.abstract "a") (by decide) 64
  have hphysR := hreplaced (.abstract "r") (by decide) 64
  simp only [replaceRegister, ha, Option.bind_eq_bind, Option.bind_some] at hphysA
  simp only [replaceRegister, hr, Option.bind_eq_bind, Option.bind_some] at hphysR
  have hsame := hphysR.symm.trans hphysA
  simp only [Option.some.injEq, Register.x86.injEq, and_true] at hsame
  -- `a` is live behind the instruction that zeroes `r`.
  have hlive : RegName.abstract "a" ∈ (machineGraph laterBlock).liveOut 1 :=
    ⟨2, rfl, .use ⟨_, rfl, by decide⟩⟩
  exact hapart (.abstract "r") (.abstract "a") ⟨1, _, rfl, by decide, hlive, by decide, by decide⟩ hsame

end Chaitin

end Jaek
