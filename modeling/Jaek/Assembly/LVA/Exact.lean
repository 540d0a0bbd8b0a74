import Jaek.Assembly.LVA.CFGBuilder

/-!
# When the graph of liveness analysis is the real one

`pointed` is the node an invented name stands for and `address` the node a label of the body stands
for. The builder's map sends a name to the smaller of the two (`lookup_targets`), so an edge is wrong
exactly where the two differ and the name is used.
-/

namespace Jaek.LVA

/-- Different counts give different labels. -/
theorem freshLabel_injective : Function.Injective freshLabel := by
  intro j k h
  have hrepr : toString j = toString k := by simpa [freshLabel] using h
  exact Nat.repr_inj.mp hrepr

/-- Control may go to the next instruction. -/
def falls : Instruction → Bool
  | .RET => false
  | .jump .JMP _ => false
  | _ => true

/-- The label an instruction jumps to. -/
def jumpTargets : Instruction → List String
  | .jump _ loc => [loc]
  | _ => []

/-- The names an instruction continues at, where the counter stands at `count`. -/
def dests (insn : Instruction) (count : ℕ) : List String :=
  (if falls insn then [freshLabel (count + 1)] else []) ++ jumpTargets insn

/-- The counter behind an instruction. -/
def countBehind (insn : Instruction) (count : ℕ) : ℕ := if falls insn then count + 1 else count

/-- The nodes of a list of instructions. -/
def nodesFrom : List Instruction → ℕ → List CFGNode
  | [], _ => []
  | insn :: insns, count => ⟨insn, dests insn count⟩ :: nodesFrom insns (countBehind insn count)

/-- The first node an invented name points to: number `i` is the first of `insns`, and `count` the
counter in front of it. -/
def pointed : List Instruction → ℕ → ℕ → String → Option ℕ
  | [], _, _, _ => none
  | insn :: insns, count, i, x =>
    if x = freshLabel count then some i else pointed insns (countBehind insn count) (i + 1) x

/-- No name is used for two nodes: where a label of the body is an invented name, it stands at the
node that name points to, or behind it with no jump to it. -/
def NoClash (body : List Instruction) : Prop :=
  ∀ x t j, pointed (code body) 1 0 x = some t → address body x = some j →
    j = t ∨ (t < j ∧ ∀ op, Instruction.jump op x ∉ body)

/-! ## Invented names -/

section Pointed

variable {insns : List Instruction} {count i t : ℕ} {x : String}

/-- A label points to what comes behind it. -/
theorem le_of_pointed (h : pointed insns count i x = some t) : i ≤ t := by
  induction insns generalizing count i with
  | nil => simp [pointed] at h
  | cons insn insns ih =>
    rw [pointed] at h
    split at h
    · rw [Option.some.injEq] at h
      omega
    · have := ih h
      omega

/-- The counter does not go down. -/
theorem le_countBehind (insn : Instruction) (count : ℕ) : count ≤ countBehind insn count := by
  unfold countBehind
  split <;> omega

/-- The counter in front of a later instruction, seen from one instruction further on. -/
theorem countP_take_succ (insn : Instruction) (n : ℕ) :
    count + ((insn :: insns).take (n + 1)).countP falls
      = countBehind insn count + (insns.take n).countP falls := by
  rw [List.take_succ_cons, List.countP_cons, countBehind]
  split <;> omega

/-- The name an instruction invents points to the next one. -/
theorem pointed_freshLabel (count i : ℕ) {n : ℕ} {insn : Instruction} (hn : insns[n]? = some insn)
    (hfalls : falls insn) (hlast : n + 1 < insns.length) :
    pointed insns count i (freshLabel (count + (insns.take n).countP falls + 1)) = some (i + n + 1) := by
  induction n generalizing insns count i with
  | zero =>
    match insns with
    | insn' :: insn'' :: insns =>
      rw [List.getElem?_cons_zero, Option.some.injEq] at hn
      subst hn
      have hne : freshLabel (count + 1) ≠ freshLabel count := by
        simp [freshLabel_injective.eq_iff]
      simp [pointed, countBehind, hfalls, hne]
  | succ n ih =>
    match insns with
    | insn' :: insns =>
      rw [List.getElem?_cons_succ] at hn
      rw [List.length_cons] at hlast
      have hle := le_countBehind insn' count
      have hne : freshLabel (countBehind insn' count + (insns.take n).countP falls + 1)
          ≠ freshLabel count := by
        rw [Ne, freshLabel_injective.eq_iff]
        omega
      rw [countP_take_succ, pointed, if_neg hne, ih _ _ hn (by omega)]
      congr 1
      omega

/-- A name points to the first node, or was invented by the node before. -/
theorem eq_of_pointed (h : pointed insns count i x = some t) :
    t = i ∨ ∃ n insn, t = i + n + 1 ∧ insns[n]? = some insn ∧ falls insn ∧
      x = freshLabel (count + (insns.take n).countP falls + 1) := by
  induction insns generalizing count i with
  | nil => simp [pointed] at h
  | cons insn insns ih =>
    rw [pointed] at h
    split at h
    · rw [Option.some.injEq] at h
      exact .inl h.symm
    · right
      rename_i hx
      rcases ih h with rfl | ⟨n, insn', rfl, hn, hfalls, rfl⟩
      · -- the name of the second node is new, so the first one invented it
        cases insns with
        | nil => simp [pointed] at h
        | cons insn' insns =>
          rw [pointed] at h
          split at h
          · rename_i hx'
            by_cases hf : falls insn = true
            · exact ⟨0, insn, rfl, rfl, hf, by simpa [countBehind, hf] using hx'⟩
            · simp [countBehind, hf] at hx'
              exact (hx hx').elim
          · have := le_of_pointed h
            omega
      · exact ⟨n + 1, insn', by omega, by simpa using hn, hfalls, by rw [countP_take_succ]⟩

/-- The nodes are the instructions, each with where control goes from it. -/
theorem nodesFrom_getElem? (n : ℕ) :
    (nodesFrom insns count)[n]?
      = insns[n]?.map fun insn => ⟨insn, dests insn (count + (insns.take n).countP falls)⟩ := by
  induction insns generalizing count n with
  | nil => rfl
  | cons insn insns ih =>
    cases n with
    | zero => simp [nodesFrom]
    | succ n => rw [nodesFrom, List.getElem?_cons_succ, ih, List.getElem?_cons_succ,
        countP_take_succ]

/-- There are as many nodes as instructions. -/
theorem nodesFrom_length : (nodesFrom insns count).length = insns.length := by
  induction insns generalizing count with
  | nil => rfl
  | cons insn insns ih => simp [nodesFrom, ih]

end Pointed

/-! ## The map of the builder -/

namespace CFGBuilder

/-- One label is put in, unless it is there already. -/
theorem lookup_putTarget (n : ℕ) (targets : List (String × ℕ)) (l x : String) :
    List.lookup x (putTarget n targets l)
      = (List.lookup x targets).or (if x = l then some n else none) := by
  unfold putTarget
  by_cases hx : x = l
  · subst hx
    cases hm : List.lookup x targets with
    | none => simp [List.lookup_append, hm]
    | some m => simp [hm]
  · have hbeq : (x == l) = false := beq_eq_false_iff_ne.mpr hx
    split <;> simp [List.lookup_append, List.lookup, hbeq]

/-- So are several. -/
theorem lookup_foldl_putTarget (n : ℕ) (labels : List String) (targets : List (String × ℕ))
    (x : String) :
    List.lookup x (labels.foldl (putTarget n) targets)
      = (List.lookup x targets).or (if x ∈ labels then some n else none) := by
  induction labels generalizing targets with
  | nil => simp
  | cons l labels ih =>
    rw [List.foldl_cons, ih, lookup_putTarget]
    by_cases hx : x = l
    · simp [hx]
    · simp [hx]

/-- What `next` makes of an instruction. -/
theorem next_eq {b : CFGBuilder} (hb : b.pointingTo = freshLabel b.freshLabelCount)
    (insn : Instruction) :
    (b.next insn).1 = ⟨insn, dests insn b.freshLabelCount⟩ ∧
    (b.next insn).2.freshLabelCount = countBehind insn b.freshLabelCount ∧
    (b.next insn).2.pointingTo = freshLabel (b.next insn).2.freshLabelCount := by
  cases insn with
  | jump op loc => cases op <;> first | exact ⟨rfl, rfl, rfl⟩ | exact ⟨rfl, rfl, hb⟩
  | _ => first | exact ⟨rfl, rfl, rfl⟩ | exact ⟨rfl, rfl, hb⟩

/-- Where a name leads: to the labels read so far, or to the smaller of its two meanings. -/
def lead (insns : List Instruction) (labels : List String) (count i : ℕ) (x : String) : Option ℕ :=
  if x ∈ labels then some i
  else Option.merge min (pointed (code insns) count i x) ((address insns x).map (· + i))

/-- An instruction and the labels in front of it take their names; the others lead further. -/
theorem lead_cons {insn : Instruction} (hc : isComment insn = false) (hl : isLabel insn = false)
    (insns : List Instruction) (labels : List String) (count i : ℕ) (x : String) :
    lead (insn :: insns) labels count i x
      = (if x ∈ freshLabel count :: labels then some i else none).or
        (lead insns [] (countBehind insn count) (i + 1) x) := by
  have hcode : code (insn :: insns) = insn :: code insns := by simp [code, hc, hl]
  have haddress : address (insn :: insns) x = (address insns x).map (· + 1) := by
    cases insn with
    | COMMENT str => simp [isComment] at hc
    | label l t => simp [isLabel] at hl
    | _ => rfl
  unfold lead
  by_cases hx : x ∈ labels
  · simp [hx]
  · rw [if_neg hx, hcode, haddress, pointed]
    by_cases hfresh : x = freshLabel count
    · cases haddr : address insns x with
      | none => simp [hfresh]
      | some j =>
        simp only [hfresh, if_true, Option.map_some, List.mem_cons, true_or]
        exact congrArg some (by omega)
    · simp [hfresh, hx, Function.comp_def, Nat.add_comm, Nat.add_left_comm]

/-- A label in front waits for the next instruction. -/
theorem lead_label (l : String) (isTopLevel : Bool) (insns : List Instruction)
    (labels : List String) (count i : ℕ) (x : String) :
    lead (.label l isTopLevel :: insns) labels count i x
      = lead insns (labels ++ [l]) count i x := by
  have hcode : code (.label l isTopLevel :: insns) = code insns := by simp [code, isLabel]
  unfold lead
  by_cases hx : x ∈ labels
  · simp [hx]
  · rw [if_neg hx, hcode, address]
    by_cases hl : l = x
    · subst hl
      cases hp : pointed (code insns) count i l with
      | none => simp
      | some t =>
        have := le_of_pointed hp
        simp only [if_true, Option.map_some, List.mem_append, List.mem_singleton, or_true]
        exact congrArg some (by omega)
    · simp [hl, hx, Ne.symm hl]

/-- The loop reads instructions that do not end in a label. -/
theorem loop_spec (insns : List Instruction) (labels : List String) (b : CFGBuilder)
    (hc : ∀ insn ∈ insns, isComment insn = false)
    (hlast : insns = [] ∧ labels = [] ∨ ∃ pre insn, insns = pre ++ [insn] ∧ isLabel insn = false)
    (hb : b.pointingTo = freshLabel b.freshLabelCount) :
    ∃ b', loop insns labels b = some b' ∧
      b'.nodes = b.nodes ++ nodesFrom (code insns) b.freshLabelCount ∧
      ∀ x, List.lookup x b'.targets = (List.lookup x b.targets).or
        (lead insns labels b.freshLabelCount b.nodes.length x) := by
  induction insns generalizing labels b with
  | nil =>
    rcases hlast with ⟨-, rfl⟩ | ⟨pre, insn, h, -⟩
    · exact ⟨b, rfl, by simp [code, nodesFrom],
        fun x => by simp [lead, code, pointed, address]⟩
    · simp at h
  | cons insn insns ih =>
    have hlast' : insns = [] ∧ isLabel insn = false ∨
        ∃ pre insn', insns = pre ++ [insn'] ∧ isLabel insn' = false := by
      rcases hlast with ⟨h, -⟩ | ⟨pre, insn', h, hl⟩
      · simp at h
      · cases pre with
        | nil =>
          rw [List.nil_append, List.cons.injEq] at h
          exact .inl ⟨h.2, h.1 ▸ hl⟩
        | cons p pre =>
          rw [List.cons_append, List.cons.injEq] at h
          exact .inr ⟨pre, insn', h.2, hl⟩
    have hc' : ∀ insn ∈ insns, isComment insn = false := fun insn h => hc insn (by simp [h])
    -- a label is kept for the next instruction, and the rest is not empty; any other instruction is a node
    -- that takes the labels kept so far
    by_cases hl : isLabel insn = true
    · obtain ⟨l, t, rfl⟩ : ∃ l t, insn = .label l t := by
        cases insn <;> first | exact ⟨_, _, rfl⟩ | simp [isLabel] at hl
      obtain ⟨b', hloop, hnodes, hlookup⟩ := ih (labels ++ [l]) b hc'
        (.inr (hlast'.resolve_left fun h => by simp [isLabel] at h)) hb
      refine ⟨b', hloop, ?_, fun x => ?_⟩
      · rw [hnodes]
        simp [code, isLabel]
      · rw [hlookup, lead_label]
    · have hl : isLabel insn = false := by simpa using hl
      have hc₀ := hc insn (by simp)
      have hcode : code (insn :: insns) = insn :: code insns := by simp [code, hc₀, hl]
      have hloop : loop (insn :: insns) labels b = loop insns [] (b.add insn labels) := by
        cases insn <;> first | rfl | simp [isLabel] at hl
      obtain ⟨hnode, hcount, hpoint⟩ := next_eq hb insn
      have hlen : (b.add insn labels).nodes.length = b.nodes.length + 1 := by
        simp [add]
      obtain ⟨b', hloop', hnodes, hlookup⟩ := ih [] (b.add insn labels) hc'
        (hlast'.imp (fun h => ⟨h.1, rfl⟩) id) hpoint
      refine ⟨b', hloop.trans hloop', ?_, fun x => ?_⟩
      · rw [hnodes, hcode, nodesFrom, ← hcount, ← hnode]
        simp [add]
      · have hadd : List.lookup x (b.add insn labels).targets = (List.lookup x b.targets).or
            (if x ∈ freshLabel b.freshLabelCount :: labels then some b.nodes.length else none) := by
          rw [← hb]
          exact lookup_foldl_putTarget _ _ _ _
        have hcount' : (b.add insn labels).freshLabelCount = countBehind insn b.freshLabelCount :=
          hcount
        rw [hlookup, hadd, lead_cons hc₀ hl, Option.or_assoc, hlen, hcount']

end CFGBuilder

/-! ## The edges of the graph -/

/-- An instruction leads to its jump target, and to the next one if it falls through. -/
theorem machineEdge_iff {body : List Instruction} {i j : ℕ} :
    MachineEdge body i j ↔ ∃ insn, (code body)[i]? = some insn ∧
      ((falls insn ∧ j = i + 1) ∨ ∃ loc ∈ jumpTargets insn, address body loc = some j) := by
  unfold MachineEdge
  cases (code body)[i]? with
  | none => simp
  | some insn =>
    cases insn with
    | jump op loc => cases op <;> simp [falls, jumpTargets]
    | _ => simp [falls, jumpTargets]

/-- Comments are not code. -/
theorem code_filter_comment (body : List Instruction) :
    code (body.filter (!isComment ·)) = code body := by
  simp only [code, List.filter_filter]
  congr 1
  funext insn
  cases isComment insn <;> simp

/-- They do not move a label. -/
theorem address_filter_comment (body : List Instruction) (l : String) :
    address (body.filter (!isComment ·)) l = address body l := by
  induction body with
  | nil => rfl
  | cons insn body ih =>
    by_cases hc : isComment insn = true
    · rw [List.filter_cons_of_neg (by simp [hc]), ih]
      cases insn <;> first | rfl | simp [isComment] at hc
    · rw [List.filter_cons_of_pos (by simp [hc])]
      cases insn with
      | COMMENT str => simp [isComment] at hc
      | _ => simp only [address, ih]

/-- A label of the body has an address. -/
theorem address_isSome {body : List Instruction} {l : String} {t : Bool}
    (h : Instruction.label l t ∈ body) : ∃ j, address body l = some j := by
  induction body with
  | nil => simp at h
  | cons insn body ih =>
    rcases List.mem_cons.mp h with rfl | h
    · exact ⟨0, by simp [address]⟩
    · obtain ⟨j, hj⟩ := ih h
      cases insn with
      | COMMENT str => exact ⟨j, hj⟩
      | label name t =>
        by_cases hname : name = l
        · exact ⟨0, by simp [address, hname]⟩
        · exact ⟨j, by simp [address, hname, hj]⟩
      | _ => exact ⟨j + 1, by simp [address, hj]⟩

/-- What the builder makes of a body: its nodes, and where each name leads. -/
theorem build_spec {body : List Instruction} (h : BodyOk body) :
    ∃ cfg, build body = some cfg ∧ cfg.nodes = nodesFrom (code body) 1 ∧
      ∀ x, List.lookup x cfg.targets
        = Option.merge min (pointed (code body) 1 0 x) (address body x) := by
  obtain ⟨pre, insn, hlast, hinsn⟩ := h.last
  have hl : isLabel insn = false := by
    rcases hinsn with rfl | ⟨loc, rfl⟩ <;> rfl
  obtain ⟨b, hloop, hnodes, hlookup⟩ := CFGBuilder.loop_spec (body.filter (!isComment ·)) [] {}
    (by simp) (.inr ⟨pre, insn, hlast, hl⟩) rfl
  rw [code_filter_comment] at hnodes
  have hne : b.nodes ≠ [] := by
    have hmem : insn ∈ code body := by
      rw [← code_filter_comment, code, List.mem_filter]
      exact ⟨by simp [hlast], by rcases hinsn with rfl | ⟨loc, rfl⟩ <;> rfl⟩
    intro hnil
    have hlen := congrArg List.length (hnodes.symm.trans hnil)
    simp only [List.nil_append, nodesFrom_length, List.length_nil] at hlen
    exact List.ne_nil_of_mem hmem (List.length_eq_zero_iff.mp hlen)
  refine ⟨⟨b.nodes, b.targets⟩, by simp [build, hloop, hne], by simpa using hnodes, fun x => ?_⟩
  rw [hlookup]
  simp [CFGBuilder.lead, code_filter_comment, address_filter_comment]

/-- The nodes hold the instructions of the body in order. -/
theorem CFGBuilder.insns_of_loop {insns : List Instruction} {labels : List String} {b b' : CFGBuilder}
    (h : loop insns labels b = some b') (hcomment : ∀ insn ∈ insns, isComment insn = false) :
    b'.nodes.map CFGNode.insn = b.nodes.map CFGNode.insn ++ code insns := by
  induction insns generalizing labels b with
  | nil =>
    cases labels with
    | nil =>
      rw [← Option.some.inj h]
      simp [code]
    | cons => cases h
  | cons insn insns ih =>
    rw [List.forall_mem_cons] at hcomment
    by_cases hl : isLabel insn = true
    · cases insn with
      | label name t => exact ih h hcomment.2
      | _ => simp [isLabel] at hl
    · have hloop : loop insns [] (b.add insn labels) = some b' := by
        cases insn with
        | label => simp [isLabel] at hl
        | _ => exact h
      have hnodes : (b.add insn labels).nodes.map CFGNode.insn = b.nodes.map CFGNode.insn ++ [insn] := by
        cases insn with
        | jump op loc => cases op <;> simp [add, next]
        | _ => simp [add, next]
      rw [ih hloop hcomment.2, hnodes, List.append_assoc, List.singleton_append]
      simp [code, hcomment.1, hl]

/-- The nodes are the instructions the machine executes. -/
theorem insns_of_build {body : List Instruction} {cfg : CFG} (h : build body = some cfg) :
    cfg.nodes.map CFGNode.insn = code body := by
  obtain ⟨b, hloop, h⟩ := Option.bind_eq_some_iff.mp h
  split_ifs at h
  rw [← Option.some.inj h, ← code_filter_comment]
  refine (CFGBuilder.insns_of_loop hloop fun insn hinsn => ?_).trans (List.nil_append _)
  simpa using (List.mem_filter.mp hinsn).2

/-- `preds` is the converse of `succs`. -/
theorem CFG.mem_preds {cfg : CFG} {i j : ℕ} : i ∈ cfg.preds j ↔ j ∈ cfg.succs i := by
  rw [preds, List.mem_filter, List.mem_range, decide_eq_true_iff]
  refine ⟨fun h => h.2, fun h => ⟨?_, h⟩⟩
  by_contra hlt
  simp [succs, List.getElem?_eq_none (not_lt.mp hlt)] at h

/-- The successors in terms of what the map says. -/
theorem mem_succs {cfg : CFG} {insns : List Instruction} (h : cfg.nodes = nodesFrom insns 1)
    {i j : ℕ} : j ∈ cfg.succs i ↔ ∃ insn, insns[i]? = some insn ∧
      ((falls insn ∧ List.lookup (freshLabel (1 + (insns.take i).countP falls + 1)) cfg.targets
        = some j) ∨ ∃ loc ∈ jumpTargets insn, List.lookup loc cfg.targets = some j) := by
  rw [CFG.succs, h, nodesFrom_getElem?]
  cases insns[i]? with
  | none => simp
  | some insn =>
    cases hf : falls insn <;> simp [dests, hf]

/-- Only a jump has a target. -/
theorem jumpTargets_eq {insn : Instruction} {x : String} (h : x ∈ jumpTargets insn) :
    ∃ op, insn = .jump op x := by
  cases insn with
  | jump op loc => exact ⟨op, by rw [List.mem_singleton.mp h]⟩
  | _ => simp [jumpTargets] at h

/-- The jumps of the body are those of its code. -/
theorem mem_code_iff {body : List Instruction} {op : Jump} {x : String} :
    Instruction.jump op x ∈ body ↔ Instruction.jump op x ∈ code body := by
  simp [code, isComment, isLabel]

/-- The last instruction does not fall through, so a next one exists where control falls. -/
theorem BodyOk.lt_length {body : List Instruction} (h : BodyOk body) {i : ℕ} {insn : Instruction}
    (hi : (code body)[i]? = some insn) (hfalls : falls insn) : i + 1 < (code body).length := by
  obtain ⟨pre, last, hlast, hor⟩ := h.last
  have hcode : code body = code pre ++ [last] := by
    rw [← code_filter_comment, hlast, code, List.filter_append]
    rcases hor with rfl | ⟨loc, rfl⟩ <;> rfl
  have hlt := (List.getElem?_eq_some_iff.mp hi).1
  rw [hcode, List.length_append, List.length_singleton] at hlt ⊢
  by_contra hge
  have hilen : i = (code pre).length := by omega
  rw [hcode, hilen, List.getElem?_concat_length, Option.some.injEq] at hi
  subst hi
  rcases hor with rfl | ⟨loc, rfl⟩ <;> simp [falls] at hfalls

/-- Where the graph is exact, no name of the body is in the way. -/
theorem Exact.noClash {body : List Instruction} {cfg : CFG} (h : BodyOk body)
    (hnodes : cfg.nodes = nodesFrom (code body) 1)
    (hlookup : ∀ x, List.lookup x cfg.targets
      = Option.merge min (pointed (code body) 1 0 x) (address body x))
    (hexact : Exact body cfg) : NoClash body := by
  -- a label that leads to a node leads no further than to its own place
  have hle : ∀ {l m j}, address body l = some j → List.lookup l cfg.targets = some m → m ≤ j := by
    intro l m j hj hm
    rw [hlookup, hj] at hm
    cases hp : pointed (code body) 1 0 l with
    | none =>
      simp only [hp, Option.merge_none_left, Option.some.injEq] at hm
      omega
    | some t =>
      simp only [hp, Option.merge_some_some, Option.some.injEq] at hm
      omega
  intro x t j hpoint haddr
  have hlead : List.lookup x cfg.targets = some (min t j) := by rw [hlookup, hpoint, haddr]; rfl
  by_contra hcon
  rw [not_or, not_and_or] at hcon
  obtain ⟨hne, hcon⟩ := hcon
  rcases Nat.lt_or_gt_of_ne hne with hjt | htj
  · -- the label stands in front of the node: the node before falls through to the label
    rcases eq_of_pointed hpoint with rfl | ⟨i, insn, rfl, hi, hfalls, hx⟩
    · omega
    · rw [min_eq_right hjt.le] at hlead
      have hedge : j ∈ cfg.succs i :=
        (mem_succs hnodes).mpr ⟨insn, hi, .inl ⟨hfalls, hx ▸ hlead⟩⟩
      obtain ⟨insn', hi', hor⟩ := machineEdge_iff.mp ((hexact.1 i j).mp hedge)
      obtain rfl : insn' = insn := Option.some.inj (hi'.symm.trans hi)
      obtain ⟨loc, hloc, hj⟩ : ∃ loc ∈ jumpTargets insn', address body loc = some j :=
        hor.resolve_left fun h => by omega
      -- the machine also goes to the next node, and no name leads there
      have hnext : i + 1 ∈ cfg.succs i := (hexact.1 i (i + 1)).mpr
        (machineEdge_iff.mpr ⟨insn', hi, .inl ⟨hfalls, rfl⟩⟩)
      obtain ⟨insn'', hi'', hor'⟩ := (mem_succs hnodes).mp hnext
      obtain rfl : insn'' = insn' := Option.some.inj (hi''.symm.trans hi)
      rcases hor' with ⟨-, hfresh⟩ | ⟨loc', hloc', hfresh⟩
      · rw [← hx, hlead, Option.some.injEq] at hfresh
        omega
      · obtain ⟨op, rfl⟩ := jumpTargets_eq hloc
        obtain rfl : loc' = loc := by simpa [jumpTargets] using hloc'
        have := hle hj hfresh
        omega
  · -- the label stands behind the node: a jump to it goes to the node
    obtain ⟨op, hop⟩ : ∃ op, Instruction.jump op x ∈ body := by
      rcases hcon with hcon | hcon
      · exact absurd htj hcon
      · simpa using hcon
    obtain ⟨p, hp⟩ := List.mem_iff_getElem?.mp (mem_code_iff.mp hop)
    rw [min_eq_left htj.le] at hlead
    have hedge : t ∈ cfg.succs p :=
      (mem_succs hnodes).mpr ⟨_, hp, .inr ⟨x, by simp [jumpTargets], hlead⟩⟩
    obtain ⟨insn, hp', hor⟩ := machineEdge_iff.mp ((hexact.1 p t).mp hedge)
    obtain rfl : insn = .jump op x := Option.some.inj (hp'.symm.trans hp)
    have hfallsp : falls (.jump op x) ∧ t = p + 1 := by
      refine hor.resolve_right ?_
      rintro ⟨loc, hloc, hlt⟩
      obtain rfl : loc = x := by simpa [jumpTargets] using hloc
      rw [haddr, Option.some.injEq] at hlt
      omega
    have hj : j ∈ cfg.succs p := (hexact.1 p j).mpr
      (machineEdge_iff.mpr ⟨_, hp, .inr ⟨x, by simp [jumpTargets], haddr⟩⟩)
    obtain ⟨insn, hp'', hor'⟩ := (mem_succs hnodes).mp hj
    obtain rfl : insn = .jump op x := Option.some.inj (hp''.symm.trans hp)
    have hfresh := pointed_freshLabel 1 0 hp hfallsp.1
      (h.lt_length hp hfallsp.1)
    rcases hor' with ⟨-, hlead'⟩ | ⟨loc, hloc, hlead'⟩
    · -- the name the jump itself invented points to the next node, which is before `j`
      rw [hlookup, hfresh] at hlead'
      cases haddr' : address body (freshLabel (1 + ((code body).take p).countP falls + 1)) with
      | none =>
        simp only [haddr', Option.merge_none_right, Option.some.injEq] at hlead'
        omega
      | some m =>
        simp only [haddr', Option.merge_some_some, Option.some.injEq] at hlead'
        omega
    · obtain rfl : loc = x := by simpa [jumpTargets] using hloc
      rw [hlead, Option.some.injEq] at hlead'
      omega

/-- Without a clash every name leads to the right node. -/
theorem NoClash.exact {body : List Instruction} {cfg : CFG} (h : BodyOk body)
    (hnodes : cfg.nodes = nodesFrom (code body) 1)
    (hlookup : ∀ x, List.lookup x cfg.targets
      = Option.merge min (pointed (code body) 1 0 x) (address body x))
    (hclash : NoClash body) : Exact body cfg := by
  suffices ∀ i j, j ∈ cfg.succs i ↔ MachineEdge body i j from
    ⟨this, fun i j => CFG.mem_preds.trans (this i j)⟩
  intro i j
  rw [mem_succs hnodes, machineEdge_iff]
  refine exists_congr fun insn => and_congr_right fun hi => or_congr
    (and_congr_right fun hfalls => ?_) (exists_congr fun loc => and_congr_right fun hloc => ?_)
  · have hpoint := pointed_freshLabel 1 0 hi hfalls (h.lt_length hi hfalls)
    rw [hlookup, hpoint, Nat.zero_add]
    cases haddr : address body (freshLabel (1 + ((code body).take i).countP falls + 1)) with
    | none => simp [eq_comm]
    | some m =>
      have := hclash _ _ m hpoint haddr
      simp only [Option.merge_some_some, Option.some.injEq]
      omega
  · obtain ⟨op, rfl⟩ := jumpTargets_eq hloc
    have hmem : Instruction.jump op loc ∈ body := mem_code_iff.mpr (List.mem_of_getElem? hi)
    obtain ⟨t, ht⟩ := h.targets op loc hmem
    obtain ⟨m, hm⟩ := address_isSome ht
    rw [hlookup, hm]
    cases hpoint : pointed (code body) 1 0 loc with
    | none => simp
    | some t =>
      rcases hclash loc t m hpoint hm with rfl | ⟨-, hno⟩
      · simp
      · exact (hno op hmem).elim

/-- The graph liveness analysis builds has the edges of the machine exactly when no label of the
body clashes with an invented name. -/
theorem build_exact_iff {body : List Instruction} (h : BodyOk body) :
    (∃ cfg, build body = some cfg ∧ Exact body cfg) ↔ NoClash body := by
  obtain ⟨cfg, hbuild, hnodes, hlookup⟩ := build_spec h
  constructor
  · rintro ⟨cfg', hbuild', hexact⟩
    obtain rfl : cfg' = cfg := Option.some.inj (hbuild'.symm.trans hbuild)
    exact hexact.noClash h hnodes hlookup
  · exact fun hclash => ⟨cfg, hbuild, hclash.exact h hnodes hlookup⟩

/-- A loop that counts `a` up to `b`. -/
def countLoop (l : String) : List Instruction :=
  [.label l false,
    .INC (.registerDest (.abstract "a")),
    .CMP (.registerDest (.abstract "a")) (.registerSrc (.abstract "b")),
    .jump .JL l,
    .RET]

/-- The loop is what the tiler makes. -/
theorem countLoop_bodyOk (l : String) : BodyOk (countLoop l) where
  targets op loc h := by
    simp only [countLoop, List.mem_cons, Instruction.jump.injEq, reduceCtorEq, List.not_mem_nil,
      false_or, or_false] at h
    exact ⟨false, by simp [countLoop, h.2]⟩
  last := ⟨(countLoop l).take 4, .RET, rfl, .inl rfl⟩

/-- It has the one label. -/
theorem address_countLoop {l x : String} {j : ℕ} (h : address (countLoop l) x = some j) :
    x = l ∧ j = 0 := by
  by_cases hl : l = x
  · simp only [countLoop, address, hl, if_true, Option.some.injEq] at h
    exact ⟨hl.symm, h.symm⟩
  · simp [countLoop, address, hl] at h

/-- With a label no instruction invents, the edges of the loop are exact. -/
theorem build_countLoop :
    ∃ cfg, build (countLoop "$X9") = some cfg ∧ Exact (countLoop "$X9") cfg :=
  (build_exact_iff (countLoop_bodyOk "$X9")).mpr fun x t j hpoint haddr => by
    obtain ⟨rfl, -⟩ := address_countLoop haddr
    exact absurd hpoint (by decide +revert)

/-- With the second label of `CFGDestroyer` they are not: control falls from the first instruction
to itself. -/
theorem build_countLoop_clash :
    BodyOk (countLoop "$X2") ∧
      ¬ ∃ cfg, build (countLoop "$X2") = some cfg ∧ Exact (countLoop "$X2") cfg := by
  refine ⟨countLoop_bodyOk _, ?_⟩
  rintro ⟨cfg, hbuild, hexact⟩
  obtain ⟨cfg', hbuild', hnodes, hlookup⟩ := build_spec (countLoop_bodyOk "$X2")
  obtain rfl : cfg = cfg' := Option.some.inj (hbuild.symm.trans hbuild')
  rcases hexact.noClash (countLoop_bodyOk _) hnodes hlookup "$X2" 1 0 (by decide) (by decide)
    with h | ⟨h, -⟩
  · omega
  · omega

end Jaek.LVA
