import Jaek.Optimize.CFG.KeptStmts
import Jaek.Lowered.Printing
import Jaek.Lowered.LIRSeq

/-!
# Building a graph and printing it again

The body and the code the destroyer prints are two printings of the kept nodes, so they behave alike
where the kept nodes are closed under jumps. Where they are not, a printed jump names a label that is not
printed. `roundTrip_iff` puts both together.
-/

namespace Jaek

open CFGBuilder CFGDestroyer

namespace CFGBuilder.Represents

variable {block : List FlatStmt} {items : List Item} {mm : MatchMaker}

/-- The statements and the exit of a node. -/
def stmtsAt (items : List Item) (i : ℕ) : List FlatStmt :=
  match items[i]? with
  | some it => it.node.stmts
  | none => []

/-- Where control goes behind an item. -/
def exitAt (items : List Item) (mm : MatchMaker) (i : ℕ) : Exit :=
  match items[i]? with
  | none => .off
  | some it =>
    match it.node with
    | .Return _ => .stop
    | .If cond _ _ =>
      match mm.jumpingTo i with
      | some j => .branch (CFGDestroyer.translateExpr cond) j (mm.fallThrough i)
      | none => .off
    | .Cricket _ =>
      match mm.jumpingTo i with
      | some j => .jump j
      | none => .off
    | _ =>
      match mm.fallThrough i with
      | some j => .fall j
      | none => .off

/-- What an exit says about the node. -/
theorem exitAt_inv (items : List Item) (mm : MatchMaker) (i : ℕ) :
    match exitAt items mm i with
    | .fall j => ∃ it, items[i]? = some it ∧ it.node.takes = none ∧ mm.fallThrough i = some j
    | .jump j => ∃ it dest, items[i]? = some it ∧ it.node = .Cricket dest ∧ mm.jumpingTo i = some j
    | .branch g j k => ∃ it cond take edge, items[i]? = some it ∧ it.node = .If cond take edge ∧
        g = CFGDestroyer.translateExpr cond ∧ mm.jumpingTo i = some j ∧ mm.fallThrough i = k
    | .stop => ∃ it rets, items[i]? = some it ∧ it.node = .Return rets
    | .off => True := by
  cases hit : items[i]? with
  | none => simp [exitAt, hit]
  | some it =>
    obtain ⟨ls, n⟩ := it
    rw [exitAt, hit]
    cases n with
    | Return rets => exact ⟨_, rets, rfl, rfl⟩
    | If cond take edge =>
      cases hj : mm.jumpingTo i with
      | none => trivial
      | some j => exact ⟨_, cond, take, edge, rfl, rfl, rfl, rfl, rfl⟩
    | Cricket dest =>
      cases hj : mm.jumpingTo i with
      | none => trivial
      | some j => exact ⟨_, dest, rfl, rfl, rfl⟩
    | _ =>
      cases hf : mm.fallThrough i with
      | none => trivial
      | some j => exact ⟨_, rfl, rfl, rfl⟩

/-- It goes along an edge of the graph. -/
theorem mem_targets_exitAt {i j : ℕ} (h : j ∈ (exitAt items mm i).targets) :
    mm.fallThrough i = some j ∨ mm.jumpingTo i = some j := by
  have hinv := exitAt_inv items mm i
  cases hexit : exitAt items mm i with
  | fall j' =>
    rw [hexit] at hinv h
    obtain ⟨it, -, -, hfall⟩ := hinv
    rw [List.mem_singleton.mp h]
    exact .inl hfall
  | jump j' =>
    rw [hexit] at hinv h
    obtain ⟨it, dest, -, -, hjump⟩ := hinv
    rw [List.mem_singleton.mp h]
    exact .inr hjump
  | branch g j' k =>
    rw [hexit] at hinv h
    obtain ⟨it, cond, take, edge, -, -, -, hjump, hfall⟩ := hinv
    rcases List.mem_cons.mp h with rfl | h
    · exact .inr hjump
    · rw [Option.mem_toList.mp h] at hfall
      exact .inl hfall
  | stop => rw [hexit] at h; cases h
  | off => rw [hexit] at h; cases h

/-- The statements of a node neither end a block nor are labels. -/
theorem stmts_plain {n : CFGNode} {st : FlatStmt} (h : st ∈ n.stmts) : st.Plain := by
  have hmov : ∀ m : Mov, m.stmt.Plain := fun m => by cases m <;> trivial
  cases n with
  | mov m edge => rw [List.mem_singleton.mp h]; exact hmov m
  | Funcking name movIntos args edge =>
    rcases List.mem_cons.mp h with rfl | h
    · trivial
    · obtain ⟨m, -, rfl⟩ := List.mem_map.mp h
      exact hmov m
  | Return rets => rw [List.mem_singleton.mp h]; trivial
  | _ => cases h

/-- The kept nodes as a graph of plain statements. -/
def shape (hr : Represents block items mm)
    (hclosed : ∀ i j, Kept mm i → mm.jumpingTo i = some j → Kept mm j) : Shape where
  nodes := {i | Kept mm i}
  stmts := stmtsAt items
  exit := exitAt items mm
  plain i _ st hst := by
    unfold stmtsAt at hst
    split at hst
    · exact stmts_plain hst
    · cases hst
  stop i _ hstop := by
    have hinv := exitAt_inv items mm i
    rw [hstop] at hinv
    obtain ⟨it, rets, hit, hn⟩ := hinv
    rw [stmtsAt, hit]
    simp only [hn]
    exact ⟨_, rfl⟩
  closed i hi j hj := by
    rcases mem_targets_exitAt hj with hfall | hjump
    · exact .next hi hfall
    · exact hclosed i j hi hjump
  progress i hi j hj hstmts k hk := by
    -- a node that control falls out of without a statement is the start, and nothing leads there
    have hpos : 0 < j := by
      rcases mem_targets_exitAt hj with hfall | hjump
      · have := (hr.fall_succ hfall).1
        omega
      · rcases Nat.eq_zero_or_pos j with rfl | hpos
        · exact absurd hjump (hr.jump_ne_zero i)
        · exact hpos
    have hinv := exitAt_inv items mm j
    rw [hk] at hinv
    obtain ⟨it, hit, htakes, -⟩ := hinv
    obtain ⟨j, rfl⟩ := Nat.exists_eq_add_of_lt hpos
    rw [Nat.zero_add] at hit hstmts
    apply hr.kinds j it hit
    rw [stmtsAt, hit] at hstmts
    rw [CFGNode.print, htakes]
    simpa using hstmts

/-! ## The body -/

/-- The code of the body behind the statements of a node. -/
def bodyTail (items : List Item) (i : ℕ) : List FlatStmt :=
  match items[i]? with
  | some it => (it.node.takes.map it.node.jumpStmt).toList ++
      (items.drop (i + 1)).flatMap Item.code
  | none => []

/-- The items from one on. -/
theorem drop_eq_cons {j : ℕ} {it : Item} (hit : items[j]? = some it) :
    items.drop j = it :: items.drop (j + 1) := by
  obtain ⟨hj, rfl⟩ := List.getElem?_eq_some_iff.mp hit
  exact List.drop_eq_getElem_cons hj

/-- Labels, statements and the rest of the body from a node on. -/
theorem drop_code {j : ℕ} {it : Item} (hit : items[j]? = some it) :
    (items.drop j).flatMap Item.code =
      it.labels.map .label ++ (stmtsAt items j ++ bodyTail items j) := by
  rw [drop_eq_cons hit, List.flatMap_cons, Item.code, CFGNode.print, stmtsAt, bodyTail, hit]
  simp only [List.append_assoc]

/-- Control that falls through arrives at the next node. -/
theorem arrives_next (hr : Represents block items mm) {i j : ℕ} (h : mm.fallThrough i = some j) :
    Arrives ((items.drop (i + 1)).flatMap Item.code) (stmtsAt items j ++ bodyTail items j) := by
  obtain ⟨rfl, hj⟩ := hr.fall_succ h
  exact ⟨_, drop_code (List.getElem?_eq_getElem hj)⟩

/-- A jump arrives at the node with the label. -/
theorem findLabel_block (hr : Represents block items mm) {j : ℕ} {it : Item} {l : String}
    (hit : items[j]? = some it) (hl : l ∈ it.labels) :
    ∃ rest, findLabel block l = some rest ∧
      Arrives rest (stmtsAt items j ++ bodyTail items j) := by
  obtain ⟨ls, ls', hls, hnot⟩ := List.eq_append_cons_of_mem hl
  have hbefore : l ∉ Jaek.labels ((items.take j).flatMap Item.code) := by
    rw [labels_flatMap_code, List.mem_flatMap]
    rintro ⟨it', hit', hl'⟩
    obtain ⟨i, hi⟩ := List.getElem?_of_mem hit'
    rw [List.getElem?_take] at hi
    split at hi
    · have := hr.label_unique hi hit hl' hl
      omega
    · cases hi
  have hlabels : l ∉ Jaek.labels (ls.map FlatStmt.label) := by rw [labels_map_label]; exact hnot
  have hsplit : block = (items.take j).flatMap Item.code ++ (ls.map .label ++
      .label l :: (ls'.map .label ++ (stmtsAt items j ++ bodyTail items j))) := by
    have hcode := hr.code
    rw [← List.take_append_drop j items, List.flatMap_append, drop_code hit, hls] at hcode
    rw [hcode]
    simp
  refine ⟨ls'.map .label ++ (stmtsAt items j ++ bodyTail items j), ?_, ⟨ls', rfl⟩⟩
  rw [hsplit, findLabel_append hbefore, findLabel_append hlabels, findLabel_self]

/-- The body contains the kept nodes. -/
def bodyPrinting (hr : Represents block items mm)
    (hclosed : ∀ i j, Kept mm i → mm.jumpingTo i = some j → Kept mm j) :
    Printing (hr.shape hclosed) block where
  tail := bodyTail items
  fall i _ j hexit := by
    have hinv := exitAt_inv items mm i
    have hexit : exitAt items mm i = .fall j := hexit
    rw [hexit] at hinv
    obtain ⟨it, hit, ht, hfall⟩ := hinv
    have htail : bodyTail items i = (items.drop (i + 1)).flatMap Item.code := by
      rw [bodyTail, hit]
      simp [ht]
    rw [htail]
    exact hr.arrives_next hfall
  jump i _ j hexit := by
    have hinv := exitAt_inv items mm i
    have hexit : exitAt items mm i = .jump j := hexit
    rw [hexit] at hinv
    obtain ⟨⟨ls, n⟩, dest, hit, rfl, hjump⟩ := hinv
    obtain ⟨it', l, it'', hit', ht, hit'', hl⟩ := hr.jump_some hjump
    rw [hit, Option.some.injEq] at hit'
    subst hit'
    cases ht
    obtain ⟨rest, hfind, harrive⟩ := hr.findLabel_block hit'' hl
    exact ⟨dest, _, rest, by rw [bodyTail, hit]; rfl, hfind, harrive⟩
  branch i _ g j k hexit := by
    have hinv := exitAt_inv items mm i
    have hexit : exitAt items mm i = .branch g j k := hexit
    rw [hexit] at hinv
    obtain ⟨⟨ls, n⟩, cond, take, edge, hit, rfl, rfl, hjump, hfall⟩ := hinv
    obtain ⟨it', l, it'', hit', ht, hit'', hl⟩ := hr.jump_some hjump
    rw [hit, Option.some.injEq] at hit'
    subst hit'
    cases ht
    obtain ⟨rest, hfind, harrive⟩ := hr.findLabel_block hit'' hl
    refine ⟨take, _, rest, by rw [bodyTail, hit]; rfl, hfind, harrive, ?_⟩
    intro k' hk'
    exact hr.arrives_next (hfall.trans hk')

/-- Control runs off the end of the body behind its last statement. -/
theorem bodyPrinting_ends (hr : Represents block items mm)
    (hclosed : ∀ i j, Kept mm i → mm.jumpingTo i = some j → Kept mm j) :
    (hr.bodyPrinting hclosed).Ends := by
  have hlast : ∀ {i it}, items[i]? = some it → it.node.falls.isSome → mm.fallThrough i = none →
      items.drop (i + 1) = [] := by
    intro i it hit hf hnone
    rw [hr.fall, hit, Option.bind_some] at hnone
    split at hnone
    · cases hnone
    · rename_i hcond
      rw [List.drop_eq_nil_iff]
      by_contra hlt
      exact hcond ⟨hf, by omega⟩
  constructor
  · intro i hi hoff
    have hoff : exitAt items mm i = .off := hoff
    show bodyTail items i = []
    cases hit : items[i]? with
    | none => rw [bodyTail, hit]
    | some it =>
      obtain ⟨ls, n⟩ := it
      rw [exitAt, hit] at hoff
      rw [bodyTail, hit]
      -- a node with a jump has its edge, so control falls out of this one
      cases n with
      | Return rets => cases hoff
      | If cond take edge =>
        obtain ⟨j, it', hj, -⟩ := hr.jump i _ take hit rfl
        simp [hj] at hoff
      | Cricket dest =>
        obtain ⟨j, it', hj, -⟩ := hr.jump i _ dest hit rfl
        simp [hj] at hoff
      | NOOP =>
        cases i with
        | zero =>
          obtain ⟨name, edge, hstart⟩ := hr.start
          rw [hstart] at hit
          cases hit
        | succ i => exact absurd rfl (hr.kinds i _ hit)
      | _ =>
        cases hf : mm.fallThrough i with
        | some j => simp [hf] at hoff
        | none =>
          simp only [hlast hit rfl hf]
          rfl
  · intro i hi g j hexit
    have hinv := exitAt_inv items mm i
    have hexit : exitAt items mm i = .branch g j none := hexit
    rw [hexit] at hinv
    obtain ⟨⟨ls, n⟩, cond, take, edge, hit, rfl, rfl, hjump, hfall⟩ := hinv
    refine ⟨take, ?_⟩
    show bodyTail items i = _
    rw [bodyTail, hit]
    simp only [hlast hit rfl hfall]
    rfl

/-! ## The printed code -/

/-- The nodes behind `i` in a list. -/
def after (nodes : List ℕ) (i : ℕ) : List ℕ := (nodes.dropWhile (· ≠ i)).tail

/-- What comes behind a node in a list without repetition. -/
theorem after_split {s t : List ℕ} {i : ℕ} (h : (s ++ i :: t).Nodup) : after (s ++ i :: t) i = t := by
  have hnot : ∀ a ∈ s, decide (a ≠ i) = true := by
    intro a ha
    rw [decide_eq_true_eq]
    rintro rfl
    exact (List.nodup_append.mp h).2.2 a ha a (by simp) rfl
  rw [after, List.dropWhile_append_of_pos hnot]
  simp

/-- The code printed behind the statements of a node. -/
def printedTail (items : List Item) (mm : MatchMaker) (jumpLabels : LinkedMap ℕ String)
    (nodes : List ℕ) (i : ℕ) : List FlatStmt :=
  (match items[i]? with
    | some it => (((mm.jumpingTo i).bind jumpLabels.get?).map it.node.jumpStmt).toList
    | none => []) ++ (after nodes i).flatMap (printed items mm jumpLabels)

/-- The destroyer prints the kept nodes. -/
structure Printed (items : List Item) (mm : MatchMaker) (jumpLabels : LinkedMap ℕ String)
    (nodes : List ℕ) : Prop where
  nodup : nodes.Nodup
  kept : ∀ i, i ∈ nodes ↔ Kept mm i
  follows : ∀ i j, i ∈ nodes → mm.fallThrough i = some j → [i, j] <:+: nodes
  jumped : ∀ i, (jumpLabels.get? i).isSome ↔ ∃ p, mm.jumpingTo p = some i
  inj : ∀ i j l, jumpLabels.get? i = some l → jumpLabels.get? j = some l → i = j

variable {jumpLabels : LinkedMap ℕ String} {nodes : List ℕ}

/-- The printed text from a node on. -/
theorem printed_eq {i : ℕ} (rest : List ℕ) (h : after nodes i = rest) :
    printed items mm jumpLabels i ++ rest.flatMap (printed items mm jumpLabels) =
      (match items[i]? with
        | some _ => (jumpLabels.get? i).toList.map .label
        | none => []) ++ (stmtsAt items i ++ printedTail items mm jumpLabels nodes i) := by
  rw [printed, printedTail, stmtsAt, h]
  cases items[i]? with
  | none => simp
  | some it => simp [CFGNode.print]

/-- Control arrives at the node printed next. -/
theorem Printed.arrives_next (hp : Printed items mm jumpLabels nodes) {i j : ℕ} (hi : Kept mm i)
    (h : mm.fallThrough i = some j) :
    Arrives ((after nodes i).flatMap (printed items mm jumpLabels))
      (stmtsAt items j ++ printedTail items mm jumpLabels nodes j) := by
  obtain ⟨s, t, hst⟩ := hp.follows i j ((hp.kept i).mpr hi) h
  have hsplit : nodes = s ++ i :: (j :: t) := by simp [← hst]
  have hsplit' : nodes = (s ++ [i]) ++ j :: t := by simp [← hst]
  have hnodup := hp.nodup
  have hi' : after nodes i = j :: t := by
    rw [hsplit] at hnodup ⊢
    exact after_split hnodup
  have hj' : after nodes j = t := by
    rw [hsplit'] at hnodup ⊢
    exact after_split hnodup
  rw [hi', List.flatMap_cons, printed_eq t hj']
  cases items[j]? with
  | none => exact ⟨[], rfl⟩
  | some it => exact ⟨(jumpLabels.get? j).toList, rfl⟩

/-- The labels in the text of a node are its own. -/
theorem labels_printed (i : ℕ) :
    ∀ l ∈ Jaek.labels (printed items mm jumpLabels i), jumpLabels.get? i = some l := by
  intro l hl
  unfold printed at hl
  split at hl
  · rw [labels_append, labels_map_label, labels_print, List.append_nil, Option.mem_toList] at hl
    exact hl
  · cases hl

/-- A jump arrives at the node it leads to. -/
theorem Printed.findLabel_code (hp : Printed items mm jumpLabels nodes) {j : ℕ} {l : String}
    (hj : Kept mm j) (hlt : j < items.length) (hl : jumpLabels.get? j = some l) :
    findLabel (nodes.flatMap (printed items mm jumpLabels)) l =
      some (stmtsAt items j ++ printedTail items mm jumpLabels nodes j) := by
  obtain ⟨s, t, hsplit⟩ := List.append_of_mem ((hp.kept j).mpr hj)
  have hnodup := hp.nodup
  have hbefore : l ∉ Jaek.labels (s.flatMap (printed items mm jumpLabels)) := by
    intro hmem
    obtain ⟨i, hi, hl'⟩ : ∃ i ∈ s, l ∈ Jaek.labels (printed items mm jumpLabels i) := by
      rw [mem_labels, List.mem_flatMap] at hmem
      obtain ⟨i, hi, hmem⟩ := hmem
      exact ⟨i, hi, mem_labels.mpr hmem⟩
    have heq := hp.inj i j l (labels_printed i l hl') hl
    rw [hsplit] at hnodup
    exact (List.nodup_append.mp hnodup).2.2 i hi j (by simp) heq
  have hafter : after nodes j = t := by
    rw [hsplit] at hnodup ⊢
    exact after_split hnodup
  rw [hsplit, List.flatMap_append, findLabel_append hbefore, List.flatMap_cons, ← hsplit,
    printed_eq t hafter, List.getElem?_eq_getElem hlt, hl]
  exact findLabel_self l _

/-- A printed jump goes to the label of the node it leads to. -/
theorem mem_targets_printed {i : ℕ} {st : FlatStmt} {l : String}
    (hst : st ∈ printed items mm jumpLabels i) (hl : l ∈ st.targets) :
    ∃ j, mm.jumpingTo i = some j ∧ jumpLabels.get? j = some l := by
  unfold printed at hst
  split at hst
  · rename_i it hit
    rcases List.mem_append.mp hst with hst | hst
    · obtain ⟨l', -, rfl⟩ := List.mem_map.mp hst
      cases hl
    · rcases List.mem_append.mp hst with hst | hst
      · rw [targets_stmts hst] at hl
        cases hl
      · obtain ⟨l', hl', rfl⟩ := Option.map_eq_some_iff.mp (Option.mem_toList.mp hst)
        rw [targets_jumpStmt, List.mem_singleton] at hl
        subst hl
        exact Option.bind_eq_some_iff.mp hl'
  · cases hst

/-- A node with a label is printed with it. -/
theorem label_mem_printed {j : ℕ} {l : String} (hj : j < items.length)
    (hl : jumpLabels.get? j = some l) : FlatStmt.label l ∈ printed items mm jumpLabels j := by
  rw [printed, List.getElem?_eq_getElem hj, hl]
  exact List.mem_append_left _ (by simp)

/-- A jump is printed with the label of its target. -/
theorem jump_mem_printed (hr : Represents block items mm) {i j : ℕ} {l : String}
    (hij : mm.jumpingTo i = some j) (hl : jumpLabels.get? j = some l) :
    ∃ st ∈ printed items mm jumpLabels i, l ∈ st.targets := by
  obtain ⟨it, l', it', hit, ht, -⟩ := hr.jump_some hij
  refine ⟨it.node.jumpStmt l, ?_, by rw [targets_jumpStmt]; exact List.mem_singleton_self l⟩
  rw [printed, hit, hij, Option.bind_some, hl]
  exact List.mem_append_right _ (List.mem_append_right _ (by simp))

/-- The printed code contains the kept nodes. -/
def codePrinting (hr : Represents block items mm) (hp : Printed items mm jumpLabels nodes)
    (hclosed : ∀ i j, Kept mm i → mm.jumpingTo i = some j → Kept mm j) :
    Printing (hr.shape hclosed) (nodes.flatMap (printed items mm jumpLabels)) where
  tail := printedTail items mm jumpLabels nodes
  fall i hi j hexit := by
    have hinv := exitAt_inv items mm i
    have hexit : exitAt items mm i = .fall j := hexit
    rw [hexit] at hinv
    obtain ⟨it, hit, ht, hfall⟩ := hinv
    have hnone : mm.jumpingTo i = none := hr.noJump i (by rw [hit, Option.bind_some, ht])
    have htail : printedTail items mm jumpLabels nodes i =
        (after nodes i).flatMap (printed items mm jumpLabels) := by
      rw [printedTail, hit, hnone]
      rfl
    rw [htail]
    exact hp.arrives_next hi hfall
  jump i hi j hexit := by
    have hinv := exitAt_inv items mm i
    have hexit : exitAt items mm i = .jump j := hexit
    rw [hexit] at hinv
    obtain ⟨⟨ls, n⟩, dest, hit, rfl, hjump⟩ := hinv
    obtain ⟨l, hl⟩ := Option.isSome_iff_exists.mp ((hp.jumped j).mpr ⟨i, hjump⟩)
    refine ⟨l, (after nodes i).flatMap (printed items mm jumpLabels), _, ?_,
      hp.findLabel_code (hclosed i j hi hjump) (hr.jump_lt hjump) hl, ⟨[], rfl⟩⟩
    rw [printedTail, hit, hjump, Option.bind_some, hl]
    rfl
  branch i hi g j k hexit := by
    have hinv := exitAt_inv items mm i
    have hexit : exitAt items mm i = .branch g j k := hexit
    rw [hexit] at hinv
    obtain ⟨⟨ls, n⟩, cond, take, edge, hit, rfl, rfl, hjump, hfall⟩ := hinv
    obtain ⟨l, hl⟩ := Option.isSome_iff_exists.mp ((hp.jumped j).mpr ⟨i, hjump⟩)
    refine ⟨l, (after nodes i).flatMap (printed items mm jumpLabels), _, ?_,
      hp.findLabel_code (hclosed i j hi hjump) (hr.jump_lt hjump) hl, ⟨[], rfl⟩, ?_⟩
    · rw [printedTail, hit, hjump, Option.bind_some, hl]
      rfl
    · intro k' hk'
      exact hp.arrives_next hi (hfall.trans hk')

end CFGBuilder.Represents

/-! ## The round trip -/

/-- The code printed for the graph of a body behaves like the body on every run that does not run off its
end; reachable nodes are printed once, jumps lead to printed labels, and a node stands behind the one that
falls through to it. -/
structure RoundTrips (M : Type*) (block : List FlatStmt) (cfg : CFG) (nodes : List ℕ)
    (out : List FlatStmt) : Prop where
  traces : ∀ (S : Storage M) (s₀ : Store M),
    (∀ s, ¬ (flat S block).Reachable (.running block s₀) (.running [] s)) →
    (flat S out).traces (.running out s₀) = (flat S block).traces (.running block s₀)
  once : ∀ i, Relation.ReflTransGen
    (fun p q => cfg.mm.fallThrough p = some q ∨ cfg.mm.jumpingTo p = some q) cfg.start i →
    nodes.count i = 1
  jumps : ∀ st ∈ out, ∀ l ∈ st.targets, FlatStmt.label l ∈ out
  follows : ∀ i ∈ nodes, ∀ j, cfg.mm.fallThrough i = some j → [i, j] <:+: nodes

namespace CFGBuilder.Represents

variable {M : Type*} {block : List FlatStmt} {items : List Item} {mm : MatchMaker}
  {jumpLabels : LinkedMap ℕ String} {nodes : List ℕ}

/-- Where the kept nodes are closed under jumps nothing is lost. -/
theorem roundTrips (hr : Represents block items mm) (hp : Printed items mm jumpLabels nodes)
    (hhead : nodes.head? = some 0)
    (hclosed : ∀ i j, Kept mm i → mm.jumpingTo i = some j → Kept mm j) (name : String) :
    RoundTrips M block ⟨0, name, mm⟩ nodes (nodes.flatMap (printed items mm jumpLabels)) := by
  obtain ⟨fname, edge, hstart⟩ := hr.start
  constructor
  · intro S s₀ hend
    -- both printings of the graph begin at the start node, so their traces are compared there
    have hzero : Kept mm 0 := .head (.inl rfl)
    have hnoJump : mm.jumpingTo 0 = none := hr.noJump 0 (by rw [hstart]; rfl)
    have hbody : (hr.bodyPrinting hclosed).tail 0 = block := by
      show bodyTail items 0 = block
      have hcode := drop_code hstart
      rw [stmtsAt, hstart, List.drop_zero, ← hr.code] at hcode
      exact hcode.symm
    have hnoLabel : jumpLabels.get? 0 = none := by
      by_contra hsome
      obtain ⟨p, hjump⟩ := (hp.jumped 0).mp (Option.isSome_iff_ne_none.mpr hsome)
      exact hr.jump_ne_zero p hjump
    have hcode : (hr.codePrinting hp hclosed).tail 0 =
        nodes.flatMap (printed items mm jumpLabels) := by
      show printedTail items mm jumpLabels nodes 0 = _
      obtain ⟨rest, rfl⟩ := List.head?_eq_some_iff.mp hhead
      have hafter := after_split (s := []) (t := rest) hp.nodup
      have heq : printed items mm jumpLabels 0 ++ rest.flatMap (printed items mm jumpLabels) = _ :=
        printed_eq rest hafter
      rw [hstart, hnoLabel, stmtsAt, hstart] at heq
      rw [List.flatMap_cons, heq]
      rfl
    have hexit : (hr.shape hclosed).exit 0 ≠ .stop := by
      show exitAt items mm 0 ≠ .stop
      rw [exitAt, hstart]
      cases mm.fallThrough 0 <;> simp
    have htraces := Printing.traces_eq (hr.bodyPrinting hclosed) (hr.codePrinting hp hclosed)
      (hr.bodyPrinting_ends hclosed) hzero hexit s₀ (S := S) (by rw [hbody]; exact hend)
    rw [hbody, hcode] at htraces
    exact htraces
  · intro i hreach
    have hkept : Kept mm i := by
      induction hreach with
      | refl => exact .head (.inl rfl)
      | tail _ hedge ih =>
        rcases hedge with hfall | hjump
        · exact .next ih hfall
        · exact hclosed _ _ ih hjump
    exact List.count_eq_one_of_mem hp.nodup ((hp.kept i).mpr hkept)
  · intro st hst l hl
    obtain ⟨i, hi, hst⟩ := List.mem_flatMap.mp hst
    obtain ⟨j, hij, hj⟩ := mem_targets_printed hst hl
    have hkept := hclosed i j ((hp.kept i).mp hi) hij
    exact List.mem_flatMap.mpr ⟨j, (hp.kept j).mpr hkept, label_mem_printed (hr.kept_lt hkept) hj⟩
  · intro i hi j hfall
    exact hp.follows i j hi hfall

/-- Where they are not, the label of some printed jump is missing. -/
theorem closed_of_jumps (hr : Represents block items mm) (hp : Printed items mm jumpLabels nodes)
    (hjumps : ∀ st ∈ nodes.flatMap (printed items mm jumpLabels), ∀ l ∈ st.targets,
      FlatStmt.label l ∈ nodes.flatMap (printed items mm jumpLabels)) :
    ∀ i j, Kept mm i → mm.jumpingTo i = some j → Kept mm j := by
  intro i j hi hij
  obtain ⟨l, hl⟩ := Option.isSome_iff_exists.mp ((hp.jumped j).mpr ⟨i, hij⟩)
  obtain ⟨st, hst, hmem⟩ := jump_mem_printed hr hij hl
  have hlabel := hjumps st (List.mem_flatMap.mpr ⟨i, (hp.kept i).mpr hi, hst⟩) l hmem
  obtain ⟨k, hk, hlabel⟩ := List.mem_flatMap.mp hlabel
  have hkl := labels_printed k l (mem_labels.mpr hlabel)
  rw [← hp.inj k j l hkl hl]
  exact (hp.kept k).mp hk

/-- The destroyer prints the kept nodes of the builder's graph. -/
theorem destroy_printed (hr : Represents block items mm) (name : String) (count : ℕ) :
    ∃ nodes jumpLabels count', order ⟨0, name, mm⟩ = some nodes ∧
      destroy ⟨0, name, mm⟩ count =
        some (nodes.flatMap (printed items mm jumpLabels), count') ∧
      Printed items mm jumpLabels nodes ∧ nodes.head? = some 0 := by
  obtain ⟨nodes, horder, hnodup, hkept, hfollows, hhead⟩ := hr.order_spec name
  obtain ⟨jumpLabels, count', hdestroy, hjumped, hinj⟩ :=
    hr.destroy_spec horder (fun i hi => (hkept i).mp hi) count
  exact ⟨nodes, jumpLabels, count', horder, hdestroy, ⟨hnodup, hkept, hfollows, hjumped, hinj⟩, hhead⟩

end CFGBuilder.Represents

/-- Building the graph of a body and printing it keeps the body exactly when every jump on a chain leads
to a label on a chain. -/
theorem roundTrip_iff {M : Type*} {name : String} {block : List FlatStmt} {cfg : CFG}
    (hok : BodyOk block) (h : CFGBuilder.build name block = some cfg) (count : ℕ) :
    ∃ nodes out count', order cfg = some nodes ∧ destroy cfg count = some (out, count') ∧
      (RoundTrips M block cfg nodes out ↔ JumpsKept block) := by
  obtain ⟨hstart, items, hr⟩ := build_spec hok h
  obtain ⟨start, fname, mm⟩ := cfg
  have hstart : start = 0 := hstart
  subst hstart
  obtain ⟨nodes, jumpLabels, count', horder, hdestroy, hp, hhead⟩ := hr.destroy_printed fname count
  refine ⟨nodes, _, count', horder, hdestroy, ?_⟩
  rw [hr.jumpsKept_iff]
  constructor
  · intro htrip
    exact hr.closed_of_jumps hp htrip.jumps
  · intro hclosed
    exact hr.roundTrips hp hhead hclosed fname

/-- A body whose block `$L2` is dead and falls into the live block `$L1`. -/
def deadSource : List FlatStmt :=
  [.endBlock (.cjump (.temp "g") "$L1" (some "$L3")), .label "$L3", .endBlock (.ret []),
    .label "$L2", .move (.temp "x") (.const 1), .label "$L1", .endBlock (.ret [.temp "x"])]

/-- The layout in which the dead block still falls into the live one. -/
def deadFirst : List FlatStmt :=
  [.label "$B1", .endBlock (.trueJump (.temp "g") "$L1"), .label "$B2", .label "$L3",
    .endBlock (.ret []), .label "$L2", .move (.temp "x") (.const 1), .label "$L1",
    .endBlock (.ret [.temp "x"])]

/-- The layout in which the dead block jumps to the live one. -/
def deadBehind : List FlatStmt :=
  [.label "$B1", .endBlock (.trueJump (.op .XOR (.temp "g") (.const 1)) "$L3"), .label "$L1",
    .endBlock (.ret [.temp "x"]), .label "$L2", .move (.temp "x") (.const 1),
    .endBlock (.jump "$L1"), .label "$L3", .endBlock (.ret [])]

/-- The two bodies come from one source, by the picks of the reordering. -/
theorem deadSource_layouts :
    (LIRSeq.blockReordering (fun _ => 1) deadSource 0).1 = deadFirst ∧
    (LIRSeq.blockReordering (fun _ => 0) deadSource 0).1 = deadBehind :=
  ⟨rfl, rfl⟩

/-- The body is what the pipeline hands to `CFGBuilder`. -/
theorem deadFirst_ok : BodyOk deadFirst where
  nodup := by decide
  targets := by simp [deadFirst, EndBlock.targets, labels]
  names := by
    intro l hl k
    have hlabels : ∀ l ∈ labels deadFirst, l.toList[1]? ≠ some 'G' := by decide
    exact ne_pointName (hlabels l hl)

/-- So is the other one. -/
theorem deadBehind_ok : BodyOk deadBehind where
  nodup := by decide
  targets := by simp [deadBehind, EndBlock.targets, labels]
  names := by
    intro l hl k
    have hlabels : ∀ l ∈ labels deadBehind, l.toList[1]? ≠ some 'G' := by decide
    exact ne_pointName (hlabels l hl)

/-- It builds. -/
theorem deadFirst_build : (CFGBuilder.build "f" deadFirst).isSome = true := by
  simp only [CFGBuilder.build, deadFirst, loop, createNode, init, pointToNext, addNode,
    translateMove, Option.bind_eq_bind, Option.bind_some, pointName, CFGBuilder.translateExpr,
    List.nil_append, List.cons_append]
  rfl

/-- So does the other one. -/
theorem deadBehind_build : (CFGBuilder.build "f" deadBehind).isSome = true := by
  simp only [CFGBuilder.build, deadBehind, loop, createNode, init, pointToNext, addNode,
    translateMove, Option.bind_eq_bind, Option.bind_some, pointName, CFGBuilder.translateExpr,
    List.nil_append, List.cons_append]
  rfl

/-- With the dead block behind, nothing is lost. -/
theorem deadBehind_roundTrip :
    ∃ cfg nodes out count', CFGBuilder.build "f" deadBehind = some cfg ∧ order cfg = some nodes ∧
      destroy cfg 2 = some (out, count') ∧ RoundTrips Unit deadBehind cfg nodes out := by
  obtain ⟨cfg, hbuild⟩ := Option.isSome_iff_exists.mp deadBehind_build
  obtain ⟨nodes, out, count', horder, hdestroy, hiff⟩ :=
    roundTrip_iff (M := Unit) deadBehind_ok hbuild 2
  exact ⟨cfg, nodes, out, count', hbuild, horder, hdestroy, hiff.mpr (by decide)⟩

/-- With the dead block in front of the live one, the live one is not printed. -/
theorem deadFirst_lost :
    (LIRSeq.blockReordering (fun _ => 1) deadSource 0).1 = deadFirst ∧ BodyOk deadFirst ∧
    ∃ cfg nodes out count', CFGBuilder.build "f" deadFirst = some cfg ∧ order cfg = some nodes ∧
      destroy cfg 2 = some (out, count') ∧ ¬ RoundTrips Unit deadFirst cfg nodes out := by
  obtain ⟨cfg, hbuild⟩ := Option.isSome_iff_exists.mp deadFirst_build
  obtain ⟨hstart, items, hr⟩ := build_spec deadFirst_ok hbuild
  obtain ⟨start, fname, mm⟩ := cfg
  have hstart : start = 0 := hstart
  subst hstart
  obtain ⟨nodes, jumpLabels, count', horder, hdestroy, hp, -⟩ := hr.destroy_printed fname 2
  refine ⟨deadSource_layouts.1, deadFirst_ok, _, nodes, _, count', hbuild, horder, hdestroy, ?_⟩
  intro htrip
  have hkept : JumpsKept deadFirst := hr.jumpsKept_iff.mpr (hr.closed_of_jumps hp htrip.jumps)
  exact absurd hkept (by decide)

end Jaek
