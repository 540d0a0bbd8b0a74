import Jaek.Assembly.Ralloc.Worklist

/-!
# Colours

`assignColors` takes the registers off the stack and gives each the least colour that no coloured or
machine neighbour has, or marks it to be spilled. That is a greedy colouring of the interference graph
(`assignColor_refines`), in which the machine registers have their colours from the start.

`chitLoop_allocates` is the whole of one round: the loop ends with every register of the body on the stack
once, and each is coloured or spilled after it.
-/

namespace Jaek

namespace Chaitin

namespace Worklist

/-- `okColors` after the loop over the neighbours. -/
def okColors (w : Worklist) (neighbours : List Register) : List ℕ :=
  neighbours.foldl (fun ok r =>
    if r ∈ w.coloredNodes ∨ r.isAbstract = false then
      match w.ig.colors r with
      | some c => ok.erase c
      | none => ok
    else ok) (List.range w.K)

/-- The body of the loop over the stack, for the register that was popped. -/
def assignColor (w : Worklist) (n : Register) : Option Worklist :=
  if n.isAbstract = false then some { w with coloredNodes := addNew w.coloredNodes n }
  else do
    let neighbours ← w.ig.adjList n
    match w.okColors neighbours with
    | [] => return { w with spilledNodes := addNew w.spilledNodes n }
    | c :: _ => return { w with
        coloredNodes := addNew w.coloredNodes n
        ig := { w.ig with colors := Function.update w.ig.colors n (some c) } }

/-- The machine registers have their place in the enumeration for a colour. -/
def machineColors (colors : Register → Option ℕ) : Register → Option ℕ
  | .x86 name 64 => some name.ordinal
  | r => colors r

def assignColors (w : Worklist) : Option Worklist :=
  w.selectStack.foldlM assignColor
    { w with selectStack := [], ig := { w.ig with colors := machineColors w.ig.colors } }

/-! ## A turn is greedy -/

variable {w w' : Worklist} {n : Register} {regs : List Register} {g : InterferenceGraph}

/-- The loop over the neighbours removes the colours of those that are coloured or machine registers. -/
theorem mem_foldl_okColors {neighbours : List Register} {ok : List ℕ} (hok : ok.Nodup) {c : ℕ} :
    c ∈ neighbours.foldl (fun ok r =>
        if r ∈ w.coloredNodes ∨ r.isAbstract = false then
          match w.ig.colors r with
          | some c => ok.erase c
          | none => ok
        else ok) ok ↔
      c ∈ ok ∧ ∀ r ∈ neighbours, r ∈ w.coloredNodes ∨ r.isAbstract = false →
        w.ig.colors r ≠ some c := by
  induction neighbours generalizing ok with
  | nil => simp
  | cons r neighbours ih =>
    rw [List.foldl_cons]
    by_cases hr : r ∈ w.coloredNodes ∨ r.isAbstract = false
    · rw [if_pos hr, List.forall_mem_cons, imp_iff_right hr]
      cases hcolor : w.ig.colors r with
      | none => simp [ih hok]
      | some k =>
        rw [ih (hok.erase k), hok.mem_erase_iff]
        simp only [ne_eq, Option.some.injEq, eq_comm (a := k)]
        tauto
    · rw [if_neg hr, List.forall_mem_cons, ih hok]
      tauto

theorem mem_okColors {neighbours : List Register} {c : ℕ} :
    c ∈ w.okColors neighbours ↔ c ∈ List.range w.K ∧
      ∀ r ∈ neighbours, r ∈ w.coloredNodes ∨ r.isAbstract = false → w.ig.colors r ≠ some c :=
  mem_foldl_okColors List.nodup_range

/-- The registers that had their turn are coloured or spilled, and a colour is that of a coloured or a
machine register. -/
structure Turns (g : InterferenceGraph) (K : ℕ) (done : Set Register) (w : Worklist) : Prop where
  adjList : w.ig.adjList = g.adjList
  K_eq : w.K = K
  colored : ∀ r, r ∈ w.coloredNodes → ∃ c, w.ig.colors r = some c
  known : ∀ r c, w.ig.colors r = some c → r ∈ w.coloredNodes ∨ r.isAbstract = false
  turn : ∀ r, r ∈ done ↔ r ∈ w.coloredNodes ∨ r ∈ w.spilledNodes
  once : ∀ r, ¬ (r ∈ w.coloredNodes ∧ r ∈ w.spilledNodes)

variable {K : ℕ} {done : Set Register}

/-- The step: a turn returns, and is one of the greedy colouring. -/
theorem assignColor_refines (hg : g.Adjacent regs) (hn : n ∈ regs) (habs : n.isAbstract = true)
    (h : Turns g K done w) (hdone : n ∉ done) :
    ∃ w', w.assignColor n = some w' ∧ Turns g K (insert n done) w' ∧
      GreedyStep g.simple (List.range K) n w.ig.colors w'.ig.colors := by
  obtain ⟨neighbours, hneighbours⟩ := (hg.lists.listed n).mpr hn
  have hmem : ∀ v, v ∈ neighbours ↔ g.simple.Adj n v := fun v =>
    (hg.lists.adjList n neighbours hneighbours v).trans hg.simple_adj.symm
  have hnot := mt (h.turn n).mpr hdone
  rw [not_or] at hnot
  rw [← h.adjList] at hneighbours
  have habs' : ¬ n.isAbstract = false := by simp [habs]
  -- the code's colours for `n` are those that no coloured neighbour has
  cases hok : w.okColors neighbours with
  | nil =>
    refine ⟨{ w with spilledNodes := addNew w.spilledNodes n },
      by simp [assignColor, habs', hneighbours, hok], ⟨h.adjList, h.K_eq, h.colored, h.known, ?_, ?_⟩,
      .spill ?_⟩
    · intro r
      rw [Set.mem_insert_iff, h.turn r, mem_addNew]
      tauto
    · intro r ⟨hcolored, hspilled⟩
      rcases mem_addNew.mp hspilled with hspilled | rfl
      · exact h.once r ⟨hcolored, hspilled⟩
      · exact hnot.1 hcolored
    · -- No colour is left: each is that of a neighbour.
      intro c hc
      by_contra hfree
      have hmemc : c ∈ w.okColors neighbours := by
        rw [mem_okColors, h.K_eq]
        exact ⟨hc, fun r hr _ hcolor => hfree ⟨r, (hmem r).mp hr, hcolor⟩⟩
      rw [hok] at hmemc
      exact List.not_mem_nil hmemc
  | cons c rest =>
    have hc : c ∈ w.okColors neighbours := by
      rw [hok]
      exact List.mem_cons_self
    rw [mem_okColors, h.K_eq] at hc
    refine ⟨{ w with
        coloredNodes := addNew w.coloredNodes n
        ig := { w.ig with colors := Function.update w.ig.colors n (some c) } },
      by simp [assignColor, habs', hneighbours, hok], ⟨h.adjList, h.K_eq, ?_, ?_, ?_, ?_⟩,
      .color hc.1 ?_⟩
    · intro r hr
      by_cases hrn : r = n
      · exact ⟨c, by simp [hrn]⟩
      · rw [mem_addNew, or_iff_left hrn] at hr
        simpa [hrn] using h.colored r hr
    · intro r k hr
      by_cases hrn : r = n
      · exact .inl (mem_addNew.mpr (.inr hrn))
      · exact (h.known r k (by simpa [hrn] using hr)).imp_left fun hr => mem_addNew.mpr (.inl hr)
    · intro r
      rw [Set.mem_insert_iff, h.turn r, mem_addNew]
      tauto
    · intro r ⟨hcolored, hspilled⟩
      rcases mem_addNew.mp hcolored with hcolored | rfl
      · exact h.once r ⟨hcolored, hspilled⟩
      · exact hnot.2 hspilled
    · intro v hadj hcolor
      exact hc.2 v ((hmem v).mpr hadj) (h.known v c hcolor) hcolor

/-- The run over the stack. -/
theorem foldlM_assignColor_refines (hg : g.Adjacent regs) {rs : List Register} (hrs : ∀ n ∈ rs, n ∈ regs)
    (habs : ∀ n ∈ rs, n.isAbstract = true) (hnodup : rs.Nodup) (h : Turns g K done w)
    (hdone : ∀ n ∈ rs, n ∉ done) :
    ∃ w', rs.foldlM assignColor w = some w' ∧ Turns g K (done ∪ {r | r ∈ rs}) w' ∧
      GreedyRun g.simple (List.range K) rs w.ig.colors w'.ig.colors := by
  induction rs generalizing w done with
  | nil => exact ⟨w, rfl, by simpa using h, .nil _⟩
  | cons n rs ih =>
    rw [List.forall_mem_cons] at hrs habs hdone
    rw [List.nodup_cons] at hnodup
    obtain ⟨w₁, h₁, hturns₁, hstep⟩ := assignColor_refines hg hrs.1 habs.1 h hdone.1
    have hdone₁ : ∀ r ∈ rs, r ∉ insert n done := by
      intro r hr hmem
      rcases hmem with rfl | hmem
      · exact hnodup.1 hr
      · exact hdone.2 r hr hmem
    obtain ⟨w₂, h₂, hturns₂, hrun⟩ := ih hrs.2 habs.2 hnodup.2 hturns₁ hdone₁
    refine ⟨w₂, by rw [List.foldlM_cons, h₁]; exact h₂, ?_, .cons hstep hrun⟩
    have heq : insert n done ∪ {r | r ∈ rs} = done ∪ {r | r ∈ n :: rs} := by
      ext r
      simp only [Set.mem_union, Set.mem_insert_iff, Set.mem_ofPred_eq, List.mem_cons]
      tauto
    rwa [heq] at hturns₂

/-! ## The colours at the start -/

theorem machineColors_eq_some {r : Register} {c : ℕ} :
    machineColors (fun _ => none) r = some c ↔ ∃ name, r = .x86 name ∧ name.ordinal = c := by
  unfold machineColors
  split
  · rename_i name
    simp
  · rename_i hne
    simp only [reduceCtorEq, false_iff, not_exists, not_and]
    intro name hr
    exact absurd hr (hne name)

/-- No two machine registers have one colour. -/
theorem machineColors_proper (G : SimpleGraph Register) : Proper G (machineColors fun _ => none) := by
  intro u v c hadj hu hv
  obtain ⟨name, rfl, hname⟩ := machineColors_eq_some.mp hu
  obtain ⟨name', rfl, hname'⟩ := machineColors_eq_some.mp hv
  exact hadj.ne (congrArg (Register.x86 · 64) (x86Name.ordinal_injective (hname.trans hname'.symm)))

end Worklist

/-! ## One round of the allocator -/

open Chaitin.InterferenceGraph Chaitin.Worklist

/-- The registers of a body after `assignColors`: each is coloured or spilled and not both. A colour is
below 16, and none of the neighbours that are coloured or machine registers has it. -/
structure Allocated (body : List Instruction) (g : InterferenceGraph) (w : Worklist) : Prop where
  once : ∀ r ∈ involved body, Xor (r ∈ w.coloredNodes) (r ∈ w.spilledNodes)
  color : ∀ r ∈ involved body, r ∈ w.coloredNodes → ∃ c < 16, w.ig.colors r = some c ∧
    ∀ v, (r, v) ∈ g.adjSet → v ∈ w.coloredNodes ∨ v.isAbstract = false → w.ig.colors v ≠ some c
  machine : ∀ name, w.ig.colors (.x86 name) = some name.ordinal

theorem assignColors_allocated {body : List Instruction} {g : InterferenceGraph} {w : Worklist}
    {except : Register → Prop} (hg : g.Adjacent (involved body))
    (h : Holds (involved body) g 16 except w) (hperm : w.selectStack.Perm (involved body)) :
    ∃ w', w.assignColors = some w' ∧ Allocated body g w' := by
  have hcolors : w.ig.colors = fun _ => none :=
    (congrArg (fun p => p.1.colors) h.fixed).trans hg.colors
  have hspilled : w.spilledNodes = [] := congrArg (fun p => p.2.2.1) h.fixed
  have hcolored : w.coloredNodes = [] := congrArg (fun p => p.2.2.2) h.fixed
  -- before the first turn only the machine registers have colours
  have hturns : Turns g 16 ∅
      { w with selectStack := [], ig := { w.ig with colors := machineColors w.ig.colors } } := by
    refine ⟨h.adjList, h.K_eq, by simp [hcolored], ?_, by simp [hcolored, hspilled],
      by simp [hcolored]⟩
    intro r c hr
    rw [hcolors] at hr
    obtain ⟨name, rfl, -⟩ := machineColors_eq_some.mp hr
    exact .inr rfl
  obtain ⟨w', hw', hturns', hrun⟩ := foldlM_assignColor_refines hg
    (fun n hn => hperm.mem_iff.mp hn)
    (fun n hn => isAbstract_of_mem_involved (hperm.mem_iff.mp hn))
    (hperm.nodup_iff.mpr (nodup_involved body)) hturns (by simp)
  rw [hcolors] at hrun
  have hproper := hrun.proper (machineColors_proper g.simple)
  refine ⟨w', hw', ?_, ?_, ?_⟩
  · intro r hr
    have hturn := (hturns'.turn r).mp (.inr (hperm.mem_iff.mpr hr))
    have honce := hturns'.once r
    rw [xor_iff_or_and_not_and]
    exact ⟨hturn, honce⟩
  · intro r hr hrc
    obtain ⟨c, hc⟩ := hturns'.colored r hrc
    refine ⟨c, ?_, hc, fun v hv _ => hproper r v c (hg.simple_adj.mpr hv) hc⟩
    rcases hrun.mem_palette hc with hmem | hbefore
    · exact List.mem_range.mp hmem
    · obtain ⟨name, rfl, -⟩ := machineColors_eq_some.mp hbefore
      exact absurd (isAbstract_of_mem_involved hr) (by simp [Register.isAbstract])
  · intro name
    have hnot : Register.x86 name ∉ w.selectStack := by
      intro hmem
      exact absurd (isAbstract_of_mem_involved (hperm.mem_iff.mp hmem)) (by simp [Register.isAbstract])
    rw [hrun.of_not_mem hnot]
    exact machineColors_eq_some.mpr ⟨name, rfl, rfl⟩

/-- For every body, every interference graph on its registers and every set of moves, the main loop ends:
no run goes on for ever, and none gets stuck before the lists are empty. Then each register of the body is
on the stack once, and `assignColors` allocates. -/
theorem chitLoop_allocates {body : List Instruction} {moveList : Register → List Move}
    {calls : List (Register × Register)} {g : InterferenceGraph}
    (hg : (create (involved body) moveList).addEdges calls = some g) (m : List Move) (next : ℕ) :
    ∃ w, Worklist.init g 16 body m next = some w ∧
      (¬ ∃ run : ℕ → Worklist, run 0 = w ∧ ∀ i, Step (run i) (run (i + 1))) ∧
      (∀ w', Reaches w w' → w'.Finished ∨ ∃ w'', Step w' w'') ∧
      ∀ w', Reaches w w' → w'.Finished →
        w'.selectStack.Nodup ∧ (∀ r, r ∈ w'.selectStack ↔ r ∈ involved body) ∧
          ∃ w'', w'.assignColors = some w'' ∧ Allocated body g w'' := by
  have hadj := (create_adjacent (involved body) moveList).addEdges
    (fun r hr => isAbstract_of_mem_involved hr) hg
  have hnodup := nodup_involved body
  obtain ⟨w, hw, hholds⟩ := init_holds hadj 16 m next
  refine ⟨w, hw, ?_, ?_, ?_⟩
  · exact no_infinite_run (I := fun w => Holds (involved body) g 16 w.Picked w)
      (fun w => w.queues.weight) (fun s s' hs hstep => hstep.holds hadj hnodup hs) hholds
  · intro w' hr
    exact (hr.holds hadj hnodup hholds).finished_or_step hadj hnodup
  · intro w' hr hfinished
    have hholds' := hr.holds hadj hnodup hholds
    have hperm := hholds'.stack_perm hfinished
    exact ⟨hperm.nodup_iff.mpr hnodup, fun r => hperm.mem_iff,
      assignColors_allocated hadj hholds' hperm⟩

/-- The body of a comparison, with the register of the result in two sizes. -/
def comparison : List Instruction :=
  [.logic .XOR (.registerDest (.abstract "r")) (.registerSrc (.abstract "r")),
    .CMP (.registerDest (.abstract "a")) (.registerSrc (.abstract "b")),
    .jumpSet .SETZ (.abstract "r" 8),
    .MOV (.registerDest (.x86 .RAX)) (.registerSrc (.abstract "r"))]

/-- Calls of `addEdge` for it. The second draws no edge, since it compares names. -/
def comparisonEdges : List (Register × Register) :=
  [(.abstract "a", .abstract "r"), (.abstract "r" 8, .abstract "r"), (.abstract "r", .x86 .RAX)]

theorem comparison_allocates :
    ∃ g, (create (involved comparison) fun _ => []).addEdges comparisonEdges = some g ∧
      ∃ w, Worklist.init g 16 comparison [⟨0, .x86 .RAX, .abstract "r"⟩] 1 = some w ∧
        (¬ ∃ run : ℕ → Worklist, run 0 = w ∧ ∀ i, Step (run i) (run (i + 1))) ∧
        (∀ w', Reaches w w' → w'.Finished ∨ ∃ w'', Step w' w'') ∧
        ∀ w', Reaches w w' → w'.Finished →
          w'.selectStack.Nodup ∧ (∀ r, r ∈ w'.selectStack ↔ r ∈ involved comparison) ∧
            ∃ w'', w'.assignColors = some w'' ∧ Allocated comparison g w'' := by
  have hret : ∃ g, (create (involved comparison) fun _ => []).addEdges comparisonEdges = some g :=
    ⟨_, rfl⟩
  obtain ⟨g, hg⟩ := hret
  exact ⟨g, hg, chitLoop_allocates hg [⟨0, .x86 .RAX, .abstract "r"⟩] 1⟩

end Chaitin

end Jaek
