import Jaek.Assembly.Ralloc.InterferenceGraph
import Jaek.Semantics.Lts

/-!
# The order of selection

The main loop of `ChaitinRegisterAllocator` moves the registers of a body over three lists to
`selectStack`. A register that is spilled waits with the high degrees, one that a move mentions with the
frozen ones, and both go on to `simplifyWorkList`. The loop does not coalesce, so there are no aliases; its
deadline of ten seconds is left out.

A register only moves on (`Queues.Advance`), so the loop ends, and it ends with every register on the stack once.
The degrees decide when a register moves: one that is not waiting for its degree to fall has fewer than `K`
neighbours, or is the only one to simplify (`Holds`).
-/

namespace Jaek

namespace Chaitin

/-- The fields of `Worklist`: the graph, the moves by what has become of them, and the registers by the list
they are on. -/
structure Worklist where
  ig : InterferenceGraph
  K : ℕ
  simplifyWorkList : List Register
  freezeWorkList : List Register
  spillWorkList : List Register
  spilledNodes : List Register
  coloredNodes : List Register
  selectStack : List Register
  worklistMoves : List Move
  activeMoves : List Move
  frozenMoves : List Move

namespace Worklist

/-- `nodeMoves`: the moves of a register that have not been decided. -/
def nodeMoves (w : Worklist) (n : Register) : List Move :=
  (w.ig.moveList n).filter fun m => m ∈ w.activeMoves ∨ m ∈ w.worklistMoves

/-- `moveRelated`. -/
def moveRelated (w : Worklist) (n : Register) : Bool := !(w.nodeMoves n).isEmpty

/-- Put a register that has few neighbours on its list. -/
def addLow (w : Worklist) (n : Register) : Worklist :=
  if w.moveRelated n then { w with freezeWorkList := addNew w.freezeWorkList n }
  else { w with simplifyWorkList := addNew w.simplifyWorkList n }

/-- The body of the first loop of the constructor. -/
def place (w : Worklist) (reg : Register) : Option Worklist := do
  let degree ← w.ig.degrees reg
  if w.K ≤ degree then return { w with spillWorkList := addNew w.spillWorkList reg }
  else return w.addLow reg

/-- The moves that the second loop of the constructor makes, with identities from `next` on. -/
def insnMoves (insns : List Instruction) (next : ℕ) : List Move :=
  ((insns.filterMap fun
    | .MOV (.registerDest dest) (.registerSrc src) =>
      if dest.isAbstract || src.isAbstract then some (dest, src) else none
    | _ => none).zipIdx next).map fun move => ⟨move.2, move.1.1, move.1.2⟩

/-- The constructor. -/
def init (ig : InterferenceGraph) (K : ℕ) (insns : List Instruction) (m : List Move) (next : ℕ) :
    Option Worklist := do
  let w ← (involved insns).foldlM place
    { ig := ig, K := K, simplifyWorkList := [], freezeWorkList := [], spillWorkList := []
      spilledNodes := [], coloredNodes := [], selectStack := [], worklistMoves := m
      activeMoves := [], frozenMoves := [] }
  return { w with worklistMoves := w.worklistMoves ++ insnMoves insns next }

/-- The neighbours that are still in the graph. -/
def adjacent (w : Worklist) (n : Register) : Option (List Register) := do
  let neighbours ← w.ig.adjList n
  return neighbours.filter (· ∉ w.selectStack)

/-- The body of the loop of `enableMoves` over the moves. -/
def enableMove (w : Worklist) (m : Move) : Worklist :=
  if m ∈ w.activeMoves then
    { w with activeMoves := w.activeMoves.erase m, worklistMoves := addNew w.worklistMoves m }
  else w

/-- `enableMoves`: the moves of the nodes may be looked at again. -/
def enableMoves (w : Worklist) (nodes : List Register) : Worklist :=
  nodes.foldl (fun w n => (w.nodeMoves n).foldl enableMove w) w

/-- The assignment to the degree of a register. -/
def setDegree (w : Worklist) (m : Register) (d : ℤ) : Worklist :=
  { w with ig := { w.ig with degrees := Function.update w.ig.degrees m (some d) } }

/-- `decrementDegree`. It throws where the register has no degree. -/
def decrementDegree (w : Worklist) (m : Register) : Option Worklist := do
  let d ← w.ig.degrees m
  let w := w.setDegree m (d - 1)
  if d = w.K then
    let neighbours ← w.adjacent m
    let w := w.enableMoves (neighbours.foldl addNew [m])
    return { w with spillWorkList := w.spillWorkList.erase m }.addLow m
  else return w

/-- The body of the loop of `freezeMoves`, which compares registers by `==`. -/
def freezeMove (u : Register) (w : Worklist) (m : Move) : Worklist :=
  let v := if m.src.regName = u.regName then m.dest else m.src
  let w := { w with activeMoves := w.activeMoves.erase m, frozenMoves := addNew w.frozenMoves m }
  if v ∈ w.freezeWorkList ∧ w.nodeMoves v = [] then
    { w with
      freezeWorkList := w.freezeWorkList.erase v
      simplifyWorkList := addNew w.simplifyWorkList v }
  else w

/-- `freezeMoves`. -/
def freezeMoves (w : Worklist) (u : Register) : Worklist :=
  (w.nodeMoves u).foldl (freezeMove u) w

/-! ## The main loop -/

/-- What `simplify` does for one neighbour. -/
def lower (w : Worklist) (m : Register) : Option Worklist :=
  if m.isAbstract then w.decrementDegree m else some w

/-- `simplify`: a register goes on the stack and its neighbours lose a degree. -/
def simplify (w : Worklist) : Option Worklist :=
  match w.simplifyWorkList with
  | [] => none
  | n :: rest => do
    let w := { w with simplifyWorkList := rest, selectStack := n :: w.selectStack }
    let neighbours ← w.adjacent n
    neighbours.foldlM lower w

/-- `freeze`: a register gives up its moves. -/
def freeze (w : Worklist) : Option Worklist :=
  match w.freezeWorkList with
  | [] => none
  | u :: rest =>
    some ({ w with
      freezeWorkList := rest
      simplifyWorkList := addNew w.simplifyWorkList u }.freezeMoves u)

/-- The registers to spill before others: those that no spill has made. -/
def isNonSpill : Register → Bool
  | .abstract name _ => !name.startsWith "$S"
  | .x86 _ _ => false

/-- The registers the random pick is from. -/
def heuristic (regSet : List Register) : List Register :=
  if regSet.any isNonSpill then regSet.filter isNonSpill else regSet

/-- `selectSpill`, for the register that the heuristic picks. -/
def selectSpill (w : Worklist) (m : Register) : Worklist :=
  { w with
    spillWorkList := w.spillWorkList.erase m
    simplifyWorkList := addNew w.simplifyWorkList m }.freezeMoves m

/-- The guard of the loop fails. -/
structure Finished (w : Worklist) : Prop where
  simplify : w.simplifyWorkList = []
  freeze : w.freezeWorkList = []
  spill : w.spillWorkList = []

/-- A turn of the loop that does not throw. -/
inductive Step : Worklist → Worklist → Prop
  | simplify {w w'} : w.simplify = some w' → Step w w'
  | freeze {w w'} : w.simplifyWorkList = [] → w.freeze = some w' → Step w w'
  | selectSpill {w m} : w.simplifyWorkList = [] → w.freezeWorkList = [] →
      m ∈ heuristic w.spillWorkList → Step w (w.selectSpill m)

/-- The states of the loop. -/
def Reaches : Worklist → Worklist → Prop := Relation.ReflTransGen Step

end Worklist

/-! ## Registers move on -/

/-- Where the registers are. -/
structure Queues where
  stack : List Register
  simplify : List Register
  freeze : List Register
  spill : List Register

namespace Queues

/-- Every register of the queues. -/
def all (q : Queues) : List Register := q.stack ++ (q.simplify ++ (q.freeze ++ q.spill))

/-- How far the registers are from the stack. -/
def weight (q : Queues) : ℕ := q.simplify.length + 2 * q.freeze.length + 3 * q.spill.length

/-- A register moves on. -/
inductive Advance : Queues → Queues → Prop
  | push (stack rest freeze spill : List Register) (n : Register) :
      Advance ⟨stack, n :: rest, freeze, spill⟩ ⟨n :: stack, rest, freeze, spill⟩
  | thaw (stack simplify freeze spill : List Register) {v : Register} : v ∈ freeze →
      Advance ⟨stack, simplify, freeze, spill⟩ ⟨stack, addNew simplify v, freeze.erase v, spill⟩
  | simplify (stack simplify freeze spill : List Register) {v : Register} : v ∈ spill →
      Advance ⟨stack, simplify, freeze, spill⟩ ⟨stack, addNew simplify v, freeze, spill.erase v⟩
  | freeze (stack simplify freeze spill : List Register) {v : Register} : v ∈ spill →
      Advance ⟨stack, simplify, freeze, spill⟩ ⟨stack, simplify, addNew freeze v, spill.erase v⟩

/-- Any number of registers move on. -/
def Advances : Queues → Queues → Prop := Relation.ReflTransGen Advance

variable {q q' : Queues}

/-- A set grows by one at most. -/
theorem length_addNew_le (s : List Register) (v : Register) : (addNew s v).length ≤ s.length + 1 := by
  unfold addNew
  split_ifs <;> simp

/-- An advance makes the weight smaller, as it takes a register further along the queues. -/
theorem Advance.weight_lt (h : Advance q q') : q'.weight < q.weight := by
  cases h with
  | push stack rest freeze spill n => simp [weight]
  | thaw stack simplify freeze spill hv =>
    have hlen := length_addNew_le simplify ‹_›
    have herase := List.length_erase_of_mem hv
    have hpos := List.length_pos_of_mem hv
    simp only [weight]
    omega
  | simplify stack simplify freeze spill hv =>
    have hlen := length_addNew_le simplify ‹_›
    have herase := List.length_erase_of_mem hv
    have hpos := List.length_pos_of_mem hv
    simp only [weight]
    omega
  | freeze stack simplify freeze spill hv =>
    have hlen := length_addNew_le freeze ‹_›
    have herase := List.length_erase_of_mem hv
    have hpos := List.length_pos_of_mem hv
    simp only [weight]
    omega

/-- A register passes from one list to another. -/
theorem addNew_append_erase_perm {s t : List Register} {v : Register} (hs : v ∉ s) (ht : v ∈ t) :
    (addNew s v ++ t.erase v).Perm (s ++ t) := by
  rw [addNew, if_neg hs, List.append_assoc, List.singleton_append]
  exact (List.perm_cons_erase ht).symm.append_left s

/-- No register is lost, and none is there twice. -/
theorem Advance.perm (h : Advance q q') (hnodup : q.all.Nodup) : q'.all.Perm q.all := by
  cases h with
  | push stack rest freeze spill n => exact List.perm_middle.symm
  | @thaw stack simplify freeze spill v hv =>
    have hsimplify : v ∉ simplify := fun hv' =>
      (List.disjoint_of_nodup_append (List.nodup_append.mp hnodup).2.1) hv'
        (List.mem_append_left spill hv)
    rw [all, ← List.erase_append_left spill hv]
    exact (addNew_append_erase_perm hsimplify (List.mem_append_left spill hv)).append_left stack
  | @simplify stack simplify freeze spill v hv =>
    have hrest := List.nodup_append.mp (List.nodup_append.mp hnodup).2.1
    have hfreeze : v ∉ freeze := fun hv' => List.disjoint_of_nodup_append hrest.2.1 hv' hv
    have hsimplify : v ∉ simplify := fun hv' => hrest.2.2 v hv' v (List.mem_append_right freeze hv) rfl
    rw [all, ← List.erase_append_right spill hfreeze]
    exact (addNew_append_erase_perm hsimplify (List.mem_append_right freeze hv)).append_left stack
  | @freeze stack simplify freeze spill v hv =>
    have hrest := List.nodup_append.mp (List.nodup_append.mp hnodup).2.1
    have hfreeze : v ∉ freeze := fun hv' => List.disjoint_of_nodup_append hrest.2.1 hv' hv
    exact ((addNew_append_erase_perm hfreeze hv).append_left simplify).append_left stack

/-- Any number of them do not make it larger. -/
theorem Advances.weight_le (h : Advances q q') : q'.weight ≤ q.weight := by
  induction h with
  | refl => exact le_rfl
  | tail _ hs ih => exact hs.weight_lt.le.trans ih

/-- They neither lose a register nor take one up. -/
theorem Advances.perm (h : Advances q q') (hnodup : q.all.Nodup) : q'.all.Perm q.all := by
  induction h with
  | refl => exact .refl _
  | tail _ hs ih => exact (hs.perm (ih.nodup_iff.mpr hnodup)).trans ih

end Queues

namespace Worklist

variable {w w' : Worklist} {n m u : Register}

/-- The queues of the state. -/
def queues (w : Worklist) : Queues :=
  ⟨w.selectStack, w.simplifyWorkList, w.freezeWorkList, w.spillWorkList⟩

/-- What the loop never writes: all but the degrees, the lists and the moves. -/
def fixed (w : Worklist) : InterferenceGraph × ℕ × List Register × List Register :=
  ({ w.ig with degrees := fun _ => none }, w.K, w.spilledNodes, w.coloredNodes)

/-! ## What each operation does -/

/-- A fold over operations that write only the enabled moves writes only those. -/
theorem foldl_moves_eq {β : Type*} {f : Worklist → β → Worklist}
    (hf : ∀ w b, ∃ active moves, f w b = { w with activeMoves := active, worklistMoves := moves })
    (bs : List β) (w : Worklist) :
    ∃ active moves, bs.foldl f w = { w with activeMoves := active, worklistMoves := moves } := by
  induction bs generalizing w with
  | nil => exact ⟨w.activeMoves, w.worklistMoves, rfl⟩
  | cons b bs ih =>
    obtain ⟨active, moves, hb⟩ := hf w b
    rw [List.foldl_cons, hb]
    exact ih _

/-- Moves are enabled, and nothing else happens. -/
theorem enableMoves_eq (w : Worklist) (nodes : List Register) :
    ∃ active moves, w.enableMoves nodes = { w with activeMoves := active, worklistMoves := moves } := by
  apply foldl_moves_eq
  intro w n
  apply foldl_moves_eq
  intro w m
  unfold enableMove
  split_ifs
  · exact ⟨_, _, rfl⟩
  · exact ⟨w.activeMoves, w.worklistMoves, rfl⟩

/-- Moves are frozen, and registers that no move mentions any more are thawed. -/
structure Thawed (w w' : Worklist) : Prop where
  ig : w'.ig = w.ig
  fixed : w'.fixed = w.fixed
  stack : w'.selectStack = w.selectStack
  spill : w'.spillWorkList = w.spillWorkList
  advances : Queues.Advances w.queues w'.queues
  eq_of_nil : w.freezeWorkList = [] → w'.queues = w.queues

/-- Nothing has been thawed. -/
theorem Thawed.refl (w : Worklist) : Thawed w w := ⟨rfl, rfl, rfl, rfl, .refl, fun _ => rfl⟩

/-- One after the other. -/
theorem Thawed.trans {w₁ w₂ w₃ : Worklist} (h : Thawed w₁ w₂) (h' : Thawed w₂ w₃) : Thawed w₁ w₃ where
  ig := h'.ig.trans h.ig
  fixed := h'.fixed.trans h.fixed
  stack := h'.stack.trans h.stack
  spill := h'.spill.trans h.spill
  advances := Relation.ReflTransGen.trans h.advances h'.advances
  eq_of_nil hnil := by
    have hqueues := h.eq_of_nil hnil
    have hnil₂ : w₂.freezeWorkList = [] := (congrArg Queues.freeze hqueues).trans hnil
    exact (h'.eq_of_nil hnil₂).trans hqueues

/-- To freeze one move changes the move lists, and may take the other end to the registers to simplify. -/
theorem freezeMove_thawed (u : Register) (w : Worklist) (m : Move) : Thawed w (freezeMove u w m) := by
  simp only [freezeMove]
  generalize (if m.src.regName = u.regName then m.dest else m.src) = v
  split_ifs with hv
  · exact ⟨rfl, rfl, rfl, rfl, .single (.thaw _ _ _ _ hv.1),
      fun hnil => absurd hv.1 (by simp [hnil])⟩
  · exact ⟨rfl, rfl, rfl, rfl, .refl, fun _ => rfl⟩

/-- So does freezing all moves of a register. -/
theorem freezeMoves_thawed (w : Worklist) (u : Register) : Thawed w (w.freezeMoves u) := by
  unfold freezeMoves
  generalize w.nodeMoves u = moves
  induction moves generalizing w with
  | nil => exact .refl w
  | cons m moves ih => exact (freezeMove_thawed u w m).trans (ih _)

/-- A degree is lowered, and the register moves on when it falls below `K`. -/
structure Lowered (m : Register) (d : ℤ) (w w' : Worklist) : Prop where
  fixed : w'.fixed = w.fixed
  degrees : w'.ig.degrees = Function.update w.ig.degrees m (some (d - 1))
  stack : w'.selectStack = w.selectStack
  spill : ∀ u ∈ w.spillWorkList, u ≠ m ∨ d ≠ w.K → u ∈ w'.spillWorkList
  advances : (d = w.K → m ∈ w.spillWorkList) → Queues.Advances w.queues w'.queues

/-- A register of low degree goes to one of two lists, as it has moves or not. -/
theorem addLow_eq (w : Worklist) (n : Register) :
    w.addLow n = { w with freezeWorkList := addNew w.freezeWorkList n } ∨
      w.addLow n = { w with simplifyWorkList := addNew w.simplifyWorkList n } := by
  unfold addLow
  split_ifs
  · exact .inl rfl
  · exact .inr rfl

/-- `decrementDegree` returns for a register of the graph. -/
theorem decrementDegree_lowered {d : ℤ} {neighbours : List Register} (hd : w.ig.degrees m = some d)
    (hn : w.ig.adjList m = some neighbours) :
    ∃ w', w.decrementDegree m = some w' ∧ Lowered m d w w' := by
  have hadjacent : (w.setDegree m (d - 1)).adjacent m =
      some (neighbours.filter (· ∉ w.selectStack)) := by
    rw [adjacent, show (w.setDegree m (d - 1)).ig.adjList m = some neighbours from hn]
    rfl
  by_cases hK : d = (w.setDegree m (d - 1)).K
  · obtain ⟨active, moves, henable⟩ := (w.setDegree m (d - 1)).enableMoves_eq
      ((neighbours.filter (· ∉ w.selectStack)).foldl addNew [m])
    have hspill : ∀ u ∈ w.spillWorkList, u ≠ m ∨ d ≠ w.K → u ∈ w.spillWorkList.erase m := by
      intro u hu hum
      exact (List.mem_erase_of_ne (hum.resolve_right (not_not_intro hK))).mpr hu
    simp only [decrementDegree, hd, Option.bind_eq_bind, Option.bind_some, if_pos hK, hadjacent,
      henable]
    refine ⟨_, rfl, ?_⟩
    rcases addLow_eq { w.setDegree m (d - 1) with
      activeMoves := active, worklistMoves := moves, spillWorkList := w.spillWorkList.erase m } m
      with h | h
    · rw [setDegree] at h ⊢
      rw [h]
      exact ⟨rfl, rfl, rfl, hspill, fun hm => .single (.freeze _ _ _ _ (hm hK))⟩
    · rw [setDegree] at h ⊢
      rw [h]
      exact ⟨rfl, rfl, rfl, hspill, fun hm => .single (.simplify _ _ _ _ (hm hK))⟩
  · refine ⟨w.setDegree m (d - 1), ?_, rfl, rfl, rfl, fun u hu _ => hu, fun _ => .refl⟩
    simp only [decrementDegree, hd, Option.bind_eq_bind, Option.bind_some, if_neg hK]
    rfl

/-! ## The invariant of the loop -/

/-- Every register is somewhere once, and one whose degree is not below `K` waits for that on
`spillWorkList`, or is on the stack, or is an exception. -/
structure Holds (regs : List Register) (g : InterferenceGraph) (K : ℕ) (except : Register → Prop)
    (w : Worklist) : Prop where
  fixed : w.fixed = ({ g with degrees := fun _ => none }, K, [], [])
  counted : ∀ u ∈ regs, ∃ d, w.ig.degrees u = some d
  all : w.queues.all.Perm regs
  high : ∀ u ∈ regs, ∀ d, w.ig.degrees u = some d → K ≤ d →
    u ∈ w.spillWorkList ∨ u ∈ w.selectStack ∨ except u

/-- The register that was picked to spill, until it is simplified. -/
def Picked (w : Worklist) (u : Register) : Prop := w.simplifyWorkList = [u] ∧ w.freezeWorkList = []

variable {regs : List Register} {g : InterferenceGraph} {K : ℕ} {except : Register → Prop}

/-- The number of colours stays. -/
theorem Holds.K_eq (h : Holds regs g K except w) : w.K = K := congrArg (fun p => p.2.1) h.fixed

/-- The adjacency lists stay. -/
theorem Holds.adjList (h : Holds regs g K except w) : w.ig.adjList = g.adjList :=
  congrArg (fun p => p.1.adjList) h.fixed

/-- More registers may be left out of the degree condition. -/
theorem Holds.mono {except' : Register → Prop} (h : Holds regs g K except w)
    (himp : ∀ u, except u → except' u) : Holds regs g K except' w :=
  ⟨h.fixed, h.counted, h.all, fun u hu d hd hK =>
    (h.high u hu d hd hK).imp_right fun hs => hs.imp_right (himp u)⟩

/-- The step of `simplify` for one neighbour. -/
theorem lower_holds (hg : g.Adjacent regs) (hnodup : regs.Nodup)
    (h : Holds regs g K (fun _ => False) w) (hm : m.isAbstract = true → m ∈ regs)
    (hstack : m ∉ w.selectStack) :
    ∃ w', w.lower m = some w' ∧ Holds regs g K (fun _ => False) w' ∧
      w'.selectStack = w.selectStack ∧ Queues.Advances w.queues w'.queues := by
  by_cases habs : m.isAbstract = true
  · obtain ⟨d, hd⟩ := h.counted m (hm habs)
    obtain ⟨neighbours, hn⟩ := (hg.lists.listed m).mpr (hm habs)
    obtain ⟨w', hret, hlow⟩ := decrementDegree_lowered hd (h.adjList ▸ hn)
    -- a register whose degree falls from K is on the spill list: it is of high degree and not on the stack
    have hspill : d = w.K → m ∈ w.spillWorkList := by
      intro hK
      rcases h.high m (hm habs) d hd (by rw [hK, h.K_eq]) with hs | hs | hs
      · exact hs
      · exact absurd hs hstack
      · exact hs.elim
    have hadvances := hlow.advances hspill
    refine ⟨w', by rw [lower, if_pos habs, hret], ⟨?_, ?_, ?_, ?_⟩, hlow.stack, hadvances⟩
    · exact hlow.fixed.trans h.fixed
    · intro u hu
      rw [hlow.degrees]
      by_cases hum : u = m
      · exact ⟨d - 1, by simp [hum]⟩
      · rw [Function.update_of_ne hum]
        exact h.counted u hu
    · exact (hadvances.perm (h.all.nodup_iff.mpr hnodup)).trans h.all
    · intro u hu e he hK
      rw [hlow.degrees] at he
      rw [hlow.stack]
      by_cases hum : u = m
      · subst hum
        rw [Function.update_self, Option.some.injEq] at he
        have hne : d ≠ w.K := by
          rw [h.K_eq]
          omega
        exact (h.high u hu d hd (by omega)).imp_left fun hs => hlow.spill u hs (.inr hne)
      · rw [Function.update_of_ne hum] at he
        exact (h.high u hu e he hK).imp_left fun hs => hlow.spill u hs (.inl hum)
  · exact ⟨w, by rw [lower, if_neg habs], h, rfl, .refl⟩

/-- Lowering the degrees of a list of neighbours does not throw, and keeps the invariant. -/
theorem foldlM_lower_holds (hg : g.Adjacent regs) (hnodup : regs.Nodup) {ms : List Register}
    (h : Holds regs g K (fun _ => False) w) (hms : ∀ m ∈ ms, m.isAbstract = true → m ∈ regs)
    (hstack : ∀ m ∈ ms, m ∉ w.selectStack) :
    ∃ w', ms.foldlM lower w = some w' ∧ Holds regs g K (fun _ => False) w' ∧
      Queues.Advances w.queues w'.queues := by
  induction ms generalizing w with
  | nil => exact ⟨w, rfl, h, .refl⟩
  | cons m ms ih =>
    rw [List.forall_mem_cons] at hms hstack
    obtain ⟨w₁, h₁, hholds₁, hstack₁, hadv₁⟩ := lower_holds hg hnodup h hms.1 hstack.1
    obtain ⟨w₂, h₂, hholds₂, hadv₂⟩ := ih hholds₁ hms.2 (by rw [hstack₁]; exact hstack.2)
    refine ⟨w₂, by rw [List.foldlM_cons, h₁]; exact h₂, hholds₂, ?_⟩
    exact Relation.ReflTransGen.trans hadv₁ hadv₂

/-- `simplify` returns when its list is not empty. -/
theorem simplify_holds (hg : g.Adjacent regs) (hnodup : regs.Nodup)
    (h : Holds regs g K w.Picked w) (hne : w.simplifyWorkList ≠ []) :
    ∃ w', w.simplify = some w' ∧ Holds regs g K w'.Picked w' ∧
      w'.queues.weight < w.queues.weight := by
  obtain ⟨n, rest, hlist⟩ := List.exists_cons_of_ne_nil hne
  have hqueues : w.queues = ⟨w.selectStack, n :: rest, w.freezeWorkList, w.spillWorkList⟩ := by
    rw [queues, hlist]
  have hpush : Queues.Advance w.queues
      ⟨n :: w.selectStack, rest, w.freezeWorkList, w.spillWorkList⟩ := by
    rw [hqueues]
    exact .push _ _ _ _ n
  have hn : n ∈ regs := by
    rw [← h.all.mem_iff, hqueues]
    simp [Queues.all]
  obtain ⟨neighbours, hneighbours⟩ := (hg.lists.listed n).mpr hn
  -- The register that was picked is on the stack now, and nothing is an exception.
  have hstart : Holds regs g K (fun _ => False)
      { w with simplifyWorkList := rest, selectStack := n :: w.selectStack } := by
    refine ⟨h.fixed, h.counted, ?_, ?_⟩
    · exact (hpush.perm (h.all.nodup_iff.mpr hnodup)).trans h.all
    · intro u hu d hd hK
      rcases h.high u hu d hd hK with hs | hs | hs
      · exact .inl hs
      · exact .inr (.inl (List.mem_cons_of_mem n hs))
      · have hun : u = n := by
          have := hs.1.symm.trans hlist
          simp_all
        rw [hun]
        exact .inr (.inl List.mem_cons_self)
  have hcreated : ∀ m ∈ neighbours.filter (· ∉ n :: w.selectStack),
      m.isAbstract = true → m ∈ regs := fun m hm =>
    hg.created n m ((hg.lists.adjList n neighbours hneighbours m).mp (List.mem_of_mem_filter hm))
  have hleft : ∀ m ∈ neighbours.filter (· ∉ n :: w.selectStack), m ∉ n :: w.selectStack :=
    fun m hm => of_decide_eq_true (List.mem_filter.mp hm).2
  obtain ⟨w', hw', hholds, hadv⟩ := foldlM_lower_holds hg hnodup hstart hcreated hleft
  refine ⟨w', ?_, hholds.mono fun _ => False.elim, hadv.weight_le.trans_lt hpush.weight_lt⟩
  rw [← h.adjList] at hneighbours
  simp only [simplify, hlist, adjacent, hneighbours, Option.bind_eq_bind, Option.bind_some]
  exact hw'

/-- `freeze` keeps the invariant and makes the weight smaller. -/
theorem freeze_holds (hnodup : regs.Nodup) (h : Holds regs g K w.Picked w)
    (hne : w.freezeWorkList ≠ []) :
    ∃ w', w.freeze = some w' ∧ Holds regs g K w'.Picked w' ∧
      w'.queues.weight < w.queues.weight := by
  obtain ⟨u, rest, hlist⟩ := List.exists_cons_of_ne_nil hne
  have hthaw : Queues.Advance w.queues
      ⟨w.selectStack, addNew w.simplifyWorkList u, rest, w.spillWorkList⟩ := by
    have hstep := Queues.Advance.thaw w.selectStack w.simplifyWorkList (u :: rest) w.spillWorkList
      List.mem_cons_self
    rw [List.erase_cons_head] at hstep
    rw [queues, hlist]
    exact hstep
  have hmoves := freezeMoves_thawed
    { w with freezeWorkList := rest, simplifyWorkList := addNew w.simplifyWorkList u } u
  have hadv := Relation.ReflTransGen.head hthaw hmoves.advances
  refine ⟨_, by rw [freeze, hlist], ⟨hmoves.fixed.trans h.fixed, ?_, ?_, ?_⟩,
    hmoves.advances.weight_le.trans_lt hthaw.weight_lt⟩
  · rw [hmoves.ig]
    exact h.counted
  · exact (Queues.Advances.perm hadv (h.all.nodup_iff.mpr hnodup)).trans h.all
  · intro v hv d hd hK
    rw [hmoves.ig] at hd
    rw [hmoves.spill, hmoves.stack]
    exact (h.high v hv d hd hK).imp_right fun hs =>
      hs.imp_right fun hpicked => absurd hpicked.2 hne

/-- The heuristic picks among the registers it is given. -/
theorem mem_of_mem_heuristic {regSet : List Register} {r : Register} (h : r ∈ heuristic regSet) :
    r ∈ regSet := by
  unfold heuristic at h
  split_ifs at h
  · exact List.mem_of_mem_filter h
  · exact h

/-- `selectSpill` keeps the invariant and makes the weight smaller. -/
theorem selectSpill_holds (hnodup : regs.Nodup) (h : Holds regs g K w.Picked w)
    (hsimplify : w.simplifyWorkList = []) (hfreeze : w.freezeWorkList = [])
    (hm : m ∈ w.spillWorkList) :
    Holds regs g K (w.selectSpill m).Picked (w.selectSpill m) ∧
      (w.selectSpill m).queues.weight < w.queues.weight := by
  have hpick : Queues.Advance w.queues
      ⟨w.selectStack, addNew w.simplifyWorkList m, w.freezeWorkList, w.spillWorkList.erase m⟩ :=
    .simplify _ _ _ _ hm
  have hmoves := freezeMoves_thawed { w with
    spillWorkList := w.spillWorkList.erase m, simplifyWorkList := addNew w.simplifyWorkList m } m
  have hqueues := hmoves.eq_of_nil hfreeze
  have hadv := Relation.ReflTransGen.head hpick hmoves.advances
  refine ⟨⟨hmoves.fixed.trans h.fixed, ?_, ?_, ?_⟩,
    hmoves.advances.weight_le.trans_lt hpick.weight_lt⟩
  · rw [selectSpill, hmoves.ig]
    exact h.counted
  · exact (Queues.Advances.perm hadv (h.all.nodup_iff.mpr hnodup)).trans h.all
  · intro u hu d hd hK
    rw [selectSpill, hmoves.ig] at hd
    rw [selectSpill, hmoves.spill, hmoves.stack]
    by_cases hum : u = m
    · right; right
      subst hum
      constructor
      · refine (congrArg Queues.simplify hqueues).trans ?_
        simp [queues, hsimplify, addNew]
      · exact (congrArg Queues.freeze hqueues).trans hfreeze
    · rcases h.high u hu d hd hK with hs | hs | hs
      · exact .inl ((List.mem_erase_of_ne hum).mpr hs)
      · exact .inr (.inl hs)
      · exact absurd (hs.1.symm.trans hsimplify) (by simp)

/-- The step: every turn keeps the invariant, and brings a register nearer to the stack. -/
theorem Step.holds (hg : g.Adjacent regs) (hnodup : regs.Nodup) (hs : Step w w')
    (h : Holds regs g K w.Picked w) :
    Holds regs g K w'.Picked w' ∧ w'.queues.weight < w.queues.weight := by
  cases hs with
  | simplify hw' =>
    have hne : w.simplifyWorkList ≠ [] := by
      intro hnil
      simp [Worklist.simplify, hnil] at hw'
    obtain ⟨w₁, h₁, hholds⟩ := simplify_holds hg hnodup h hne
    obtain rfl : w₁ = w' := Option.some.inj (h₁.symm.trans hw')
    exact hholds
  | freeze _ hw' =>
    have hne : w.freezeWorkList ≠ [] := by
      intro hnil
      simp [Worklist.freeze, hnil] at hw'
    obtain ⟨w₁, h₁, hholds⟩ := freeze_holds hnodup h hne
    obtain rfl : w₁ = w' := Option.some.inj (h₁.symm.trans hw')
    exact hholds
  | selectSpill hsimplify hfreeze hm =>
    exact selectSpill_holds hnodup h hsimplify hfreeze (mem_of_mem_heuristic hm)

/-- No turn throws: while the guard of the loop holds, there is a next state. -/
theorem Holds.finished_or_step (hg : g.Adjacent regs) (hnodup : regs.Nodup)
    (h : Holds regs g K w.Picked w) : w.Finished ∨ ∃ w', Step w w' := by
  by_cases hsimplify : w.simplifyWorkList = []
  · by_cases hfreeze : w.freezeWorkList = []
    · by_cases hspill : w.spillWorkList = []
      · exact .inl ⟨hsimplify, hfreeze, hspill⟩
      · obtain ⟨m, hm⟩ : ∃ m, m ∈ heuristic w.spillWorkList := by
          unfold heuristic
          split_ifs with hany
          · obtain ⟨m, hm, hnon⟩ := List.any_eq_true.mp hany
            exact ⟨m, List.mem_filter.mpr ⟨hm, hnon⟩⟩
          · exact List.exists_mem_of_ne_nil _ hspill
        exact .inr ⟨_, .selectSpill hsimplify hfreeze hm⟩
    · obtain ⟨w', hw', -⟩ := freeze_holds hnodup h hfreeze
      exact .inr ⟨w', .freeze hsimplify hw'⟩
  · obtain ⟨w', hw', -⟩ := simplify_holds hg hnodup h hsimplify
    exact .inr ⟨w', .simplify hw'⟩

/-- The run. -/
theorem Reaches.holds (hg : g.Adjacent regs) (hnodup : regs.Nodup) (hr : Reaches w w')
    (h : Holds regs g K w.Picked w) : Holds regs g K w'.Picked w' := by
  induction hr with
  | refl => exact h
  | tail _ hs ih => exact (hs.holds hg hnodup ih).1

/-- At the end every register is on the stack, once. -/
theorem Holds.stack_perm (h : Holds regs g K except w) (hw : w.Finished) :
    w.selectStack.Perm regs := by
  have hall : w.queues.all = w.selectStack := by
    simp [queues, Queues.all, hw.simplify, hw.freeze, hw.spill]
  rw [← hall]
  exact h.all

/-! ## The start of the loop -/

/-- The invariant does not depend on the order of the registers. -/
theorem Holds.of_perm {regs' : List Register} (h : Holds regs g K except w) (hperm : regs.Perm regs') :
    Holds regs' g K except w :=
  ⟨h.fixed, fun u hu => h.counted u (hperm.mem_iff.mpr hu), h.all.trans hperm,
    fun u hu => h.high u (hperm.mem_iff.mpr hu)⟩

/-- A new element is added once. -/
theorem addNew_perm {s : List Register} {v : Register} (hv : v ∉ s) : (addNew s v).Perm (v :: s) := by
  rw [addNew, if_neg hv]
  exact List.perm_append_singleton v s

/-- The element may stand in front of both parts. -/
theorem append_perm_cons {α : Type*} {s s' : List α} {a : α} (h : s'.Perm (a :: s)) (t : List α) :
    (t ++ s').Perm (a :: (t ++ s)) := (h.append_left t).trans List.perm_middle

/-- The constructor puts a register on the list for its degree. -/
theorem place_eq {r : Register} {d : ℤ} (hd : w.ig.degrees r = some d) :
    (w.place r = some { w with spillWorkList := addNew w.spillWorkList r }) ∨
      d < w.K ∧ (w.place r = some { w with freezeWorkList := addNew w.freezeWorkList r } ∨
        w.place r = some { w with simplifyWorkList := addNew w.simplifyWorkList r }) := by
  by_cases hK : (w.K : ℤ) ≤ d
  · left
    simp only [place, hd, Option.bind_eq_bind, Option.bind_some, if_pos hK]
    rfl
  · right
    refine ⟨by omega, ?_⟩
    simp only [place, hd, Option.bind_eq_bind, Option.bind_some, if_neg hK]
    exact (addLow_eq w r).imp (congrArg some) (congrArg some)

/-- A register is placed next to those placed before. -/
theorem place_holds {r : Register} {d : ℤ} (h : Holds regs g K (fun _ => False) w) (hr : r ∉ regs)
    (hd : g.degrees r = some d) (hdegrees : w.ig.degrees = g.degrees) :
    ∃ w', w.place r = some w' ∧ Holds (r :: regs) g K (fun _ => False) w' ∧
      w'.ig.degrees = g.degrees := by
  have hdw : w.ig.degrees r = some d := by rw [hdegrees, hd]
  have hcounted : ∀ u ∈ r :: regs, ∃ e, w.ig.degrees u = some e :=
    List.forall_mem_cons.mpr ⟨⟨d, hdw⟩, h.counted⟩
  have hnot : r ∉ w.queues.all := fun hmem => hr (h.all.mem_iff.mp hmem)
  simp only [Queues.all, queues, List.mem_append, not_or] at hnot
  obtain ⟨hstack, hsimplify, hfreeze, hspill⟩ := hnot
  rcases place_eq hdw with hret | ⟨hlow, hret⟩
  · refine ⟨_, hret, ⟨h.fixed, hcounted, ?_, ?_⟩, hdegrees⟩
    · refine (append_perm_cons (append_perm_cons (append_perm_cons (addNew_perm hspill) _) _) _).trans ?_
      exact h.all.cons r
    · intro u hu e he hK
      rcases List.mem_cons.mp hu with rfl | hu
      · exact .inl (mem_addNew.mpr (.inr rfl))
      · exact (h.high u hu e he hK).imp_left fun hs => mem_addNew.mpr (.inl hs)
  · -- A register with few neighbours is not among those the invariant speaks of.
    have hhigh : ∀ u ∈ r :: regs, ∀ e, w.ig.degrees u = some e → K ≤ e →
        u ∈ w.spillWorkList ∨ u ∈ w.selectStack ∨ False := by
      intro u hu e he hK
      rcases List.mem_cons.mp hu with rfl | hu
      · rw [hdw, Option.some.injEq] at he
        rw [h.K_eq] at hlow
        omega
      · exact h.high u hu e he hK
    rcases hret with hret | hret
    · refine ⟨_, hret, ⟨h.fixed, hcounted, ?_, hhigh⟩, hdegrees⟩
      refine (append_perm_cons (append_perm_cons ((addNew_perm hfreeze).append_right _) _) _).trans ?_
      exact h.all.cons r
    · refine ⟨_, hret, ⟨h.fixed, hcounted, ?_, hhigh⟩, hdegrees⟩
      refine (append_perm_cons ((addNew_perm hsimplify).append_right _) _).trans ?_
      exact h.all.cons r

/-- Placing the registers one by one keeps the invariant for those placed so far. -/
theorem foldlM_place_holds {rs : List Register} (h : Holds regs g K (fun _ => False) w)
    (hrs : rs.Nodup) (hdisj : ∀ r ∈ rs, r ∉ regs) (hd : ∀ r ∈ rs, ∃ d, g.degrees r = some d)
    (hdegrees : w.ig.degrees = g.degrees) :
    ∃ w', rs.foldlM place w = some w' ∧ Holds (regs ++ rs) g K (fun _ => False) w' := by
  induction rs generalizing w regs with
  | nil => exact ⟨w, rfl, by rwa [List.append_nil]⟩
  | cons r rs ih =>
    rw [List.forall_mem_cons] at hdisj hd
    rw [List.nodup_cons] at hrs
    obtain ⟨d, hdr⟩ := hd.1
    obtain ⟨w₁, h₁, hholds₁, hdegrees₁⟩ := place_holds h hdisj.1 hdr hdegrees
    have hdisj₁ : ∀ a ∈ rs, a ∉ r :: regs := by
      intro a ha hmem
      rcases List.mem_cons.mp hmem with rfl | hmem
      · exact hrs.1 ha
      · exact hdisj.2 a ha hmem
    obtain ⟨w₂, h₂, hholds₂⟩ := ih hholds₁ hrs.2 hdisj₁ hd.2 hdegrees₁
    refine ⟨w₂, by rw [List.foldlM_cons, h₁]; exact h₂, hholds₂.of_perm ?_⟩
    exact List.perm_middle.symm

/-- The invariant at the start. -/
theorem init_holds {insns : List Instruction} (hg : g.Adjacent (involved insns)) (K : ℕ)
    (m : List Move) (next : ℕ) :
    ∃ w, init g K insns m next = some w ∧ Holds (involved insns) g K w.Picked w := by
  have hempty : Holds [] g K (fun _ => False)
      { ig := g, K := K, simplifyWorkList := [], freezeWorkList := [], spillWorkList := []
        spilledNodes := [], coloredNodes := [], selectStack := [], worklistMoves := m
        activeMoves := [], frozenMoves := [] } :=
    ⟨rfl, by simp, .refl _, by simp⟩
  obtain ⟨w, hw, hholds⟩ := foldlM_place_holds hempty (nodup_involved insns) (by simp)
    hg.lists.counted rfl
  refine ⟨{ w with worklistMoves := w.worklistMoves ++ insnMoves insns next }, ?_, ?_⟩
  · simp only [init, hw, Option.bind_eq_bind, Option.bind_some]
    rfl
  · exact ⟨hholds.fixed, hholds.counted, hholds.all,
      fun u hu d hd hK => (hholds.high u hu d hd hK).imp_right fun hs => hs.imp_right False.elim⟩

end Worklist

end Chaitin

end Jaek
