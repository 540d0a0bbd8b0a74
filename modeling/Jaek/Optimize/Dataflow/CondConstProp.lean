import Jaek.IR.Optimize.ConstantFolder
import Jaek.Optimize.CFG.CFGBuilder
import Jaek.Optimize.Dataflow.CFGFlow
import Jaek.Optimize.Dataflow.Element

/-!
# Conditional constant propagation

`CondConstProp.kt`: the transition and the meet, and where they are monotone. An `If` whose guard is known
makes one of its edges unreachable. From a larger value, whose guard is still unknown, both edges are
reachable. `transition_below_iff` says that this is the only case that is not monotone.
-/

namespace Jaek

open Element

/-- The values of the variables: a finite map whose missing keys mean `Top`. -/
structure VarVals where
  keys : Finset String
  val : String → Definition
  top_of_notMem : ∀ x, x ∉ keys → val x = .Top

namespace VarVals

/-- Equal maps have equal keys and values. -/
theorem ext_iff {m m' : VarVals} : m = m' ↔ m.keys = m'.keys ∧ ∀ x ∈ m.keys, m.val x = m'.val x := by
  constructor
  · rintro rfl
    exact ⟨rfl, fun _ _ => rfl⟩
  · rintro ⟨hkeys, hval⟩
    obtain ⟨keys, val, htop⟩ := m
    obtain ⟨keys', val', htop'⟩ := m'
    cases hkeys
    congr 1
    funext x
    by_cases hx : x ∈ keys
    · exact hval x hx
    · exact (htop x hx).trans (htop' x hx).symm

instance : DecidableEq VarVals := fun _ _ => decidable_of_iff _ ext_iff.symm

/-- The map without keys. -/
def empty : VarVals := ⟨∅, fun _ => .Top, fun _ _ => rfl⟩

/-- The map with a value at one key. -/
def set (m : VarVals) (x : String) (d : Definition) : VarVals where
  keys := insert x m.keys
  val := Function.update m.val x d
  top_of_notMem y hy := by
    rw [Finset.mem_insert, not_or] at hy
    rw [Function.update_of_ne hy.1, m.top_of_notMem y hy.2]

/-- `mapValues { Definition.Top }`. -/
def allTop (m : VarVals) : VarVals := ⟨m.keys, fun _ => .Top, fun _ _ => rfl⟩

/-- The meet of two maps, over the keys of both. -/
def meet (m m' : VarVals) : VarVals where
  keys := m.keys ∪ m'.keys
  val x := (m.val x).meet (m'.val x)
  top_of_notMem x hx := by
    rw [Finset.mem_union, not_or] at hx
    rw [m.top_of_notMem x hx.1, m'.top_of_notMem x hx.2]
    rfl

/-- Putting the value a variable has changes nothing. -/
theorem set_eq_self {m : VarVals} {x : String} {d : Definition} (h : m.val x = d) (hd : d ≠ .Top) :
    m.set x d = m := by
  have hx : x ∈ m.keys := by
    by_contra hx
    exact hd (h.symm.trans (m.top_of_notMem x hx))
  refine ext_iff.mpr ⟨Finset.insert_eq_of_mem hx, fun y _ => ?_⟩
  show Function.update m.val x d y = m.val y
  rw [← h, Function.update_eq_self]

end VarVals

/-- `CondConstProp.Info`. -/
structure Info where
  unreachability : Unreachability
  varVals : VarVals
deriving DecidableEq

/-- The order of the infos: reachable below unreachable, and every variable below. -/
def Info.Below (a b : Info) : Prop :=
  a.unreachability ≤ b.unreachability ∧ ∀ x, a.varVals.val x ≤ b.varVals.val x

namespace CondConstProp

/-- The value of an expression, from those of the variables. -/
def abstractInterpretation (varVals : VarVals) : CFGExpr → Definition
  | .BOp left right op =>
    match abstractInterpretation varVals left, abstractInterpretation varVals right with
    | .Data l, .Data r =>
      if op ≠ .DIV ∧ r ≠ 0 then .Data (ConstantFolder.calculate l r op) else .Bottom
    | .Data _, rightAbs => rightAbs
    | leftAbs, _ => leftAbs
  | .Const value => .Data value
  | .Label _ => .Bottom
  | .Mem _ => .Bottom
  | .Var name => varVals.val name

def meet (e1 e2 : Info) : Info :=
  ⟨e1.unreachability.meet e2.unreachability, e1.varVals.meet e2.varVals⟩

/-- The top value. -/
def top : Info := ⟨.Top, .empty⟩

/-- `unreachableInfo`. -/
def unreachableInfo (argumentInfo : Info) : Info := ⟨.Top, argumentInfo.varVals.allTop⟩

/-- What a guard of the form `x op e` says of `x` on the edge taken. -/
def refine (op : OpType) (cond : CFGExpr) (outInfo : Info) : Info :=
  match cond with
  | .BOp (.Var name) right op' =>
    if op' = op then
      { outInfo with
        varVals := outInfo.varVals.set name (abstractInterpretation outInfo.varVals right) }
    else outInfo
  | _ => outInfo

/-- The edges of a reachable `If`. -/
def branch (cond : CFGExpr) (outInfo : Info) : Option (Edge → Info) :=
  match abstractInterpretation outInfo.varVals cond with
  | .Bottom => some fun _ => outInfo
  | .Data t =>
    if t = 0 then
      some fun e => if e.jump then unreachableInfo outInfo else refine .NEQ cond outInfo
    else if t = 1 then
      some fun e => if e.jump then refine .EQ cond outInfo else unreachableInfo outInfo
    else none
  | .Top => some fun _ => outInfo

/-- `transition`. -/
def transition (mm : MatchMaker) (n : ℕ) (argumentInfo : Info) : Option (Edge → Info) :=
  match mm.nodes[n]? with
  | some (.Start _ _) => some fun _ => ⟨.Bottom, argumentInfo.varVals⟩
  | some (.If cond _ _) =>
    if argumentInfo.unreachability = .Bottom then branch cond argumentInfo
    else some fun _ => unreachableInfo argumentInfo
  | some (.mov (.Gets varName expr) _) =>
    if argumentInfo.unreachability = .Bottom then
      some fun _ => { argumentInfo with
        varVals := argumentInfo.varVals.set varName
          (abstractInterpretation argumentInfo.varVals expr) }
    else some fun _ => unreachableInfo argumentInfo
  | _ =>
    some fun _ =>
      if argumentInfo.unreachability = .Bottom then argumentInfo else unreachableInfo argumentInfo

/-- The analysis. -/
def analysis : CFGFlow Info := ⟨true, true, top, meet, transition⟩

/-! ## Monotonicity -/

/-- Lower values of the variables give a lower value of an expression. -/
theorem abstractInterpretation_mono {m m' : VarVals} (h : ∀ x, m.val x ≤ m'.val x) (e : CFGExpr) :
    abstractInterpretation m e ≤ abstractInterpretation m' e := by
  induction e with
  | Var name => exact h name
  | Const value => exact le_rfl
  | Label name => exact le_rfl
  | Mem loc => exact le_rfl
  | BOp left right op ihl ihr =>
    rw [abstractInterpretation, abstractInterpretation]
    rcases ihl with hl | hl | hl
    · rw [hl]
      exact Definition.bottom_le _
    · rw [hl]
      cases abstractInterpretation m' left with
      | Top => exact le_rfl
      | Bottom => exact le_rfl
      | Data l =>
        rcases ihr with hr | hr | hr
        · rw [hr]
          exact Definition.bottom_le _
        · rw [hr]
        · rw [hr]
          exact Definition.le_top _
    · rw [hl]
      exact Definition.le_top _

/-- A known value of an operation comes from known operands. -/
theorem abstractInterpretation_data {m : VarVals} {left right : CFGExpr} {op : OpType} {t : Word}
    (h : abstractInterpretation m (.BOp left right op) = .Data t) :
    ∃ l r, abstractInterpretation m left = .Data l ∧ abstractInterpretation m right = .Data r ∧
      op ≠ .DIV ∧ r ≠ 0 ∧ ConstantFolder.calculate l r op = t := by
  rw [abstractInterpretation] at h
  cases hl : abstractInterpretation m left with
  | Top => simp [hl] at h
  | Bottom => simp [hl] at h
  | Data l =>
    cases hr : abstractInterpretation m right with
    | Top => simp [hl, hr] at h
    | Bottom => simp [hl, hr] at h
    | Data r =>
      rw [hl, hr] at h
      dsimp only at h
      split_ifs at h with hop
      exact ⟨l, r, rfl, rfl, hop.1, hop.2, Definition.Data.inj h⟩

/-- A guard that compares for equality says of its variable what is known already. -/
theorem refine_eq {op : OpType} {cond : CFGExpr} {outInfo : Info} {t : Word}
    (hcond : abstractInterpretation outInfo.varVals cond = .Data t)
    (ht : op = .NEQ ∧ t = 0 ∨ op = .EQ ∧ t = 1) : refine op cond outInfo = outInfo := by
  unfold refine
  split
  · rename_i name right op'
    split_ifs with hop
    · subst hop
      obtain ⟨l, r, hl, hr, -, -, hcalc⟩ := abstractInterpretation_data hcond
      have hlr : l = r := by
        by_contra hne
        rcases ht with ⟨rfl, rfl⟩ | ⟨rfl, rfl⟩
        · simp [ConstantFolder.calculate, hne] at hcalc
        · simp [ConstantFolder.calculate, hne] at hcalc
      rw [hr, VarVals.set_eq_self (hl.trans (congrArg _ hlr)) (by simp)]
    · rfl
  · rfl

/-- The guard of a reachable `If` is known, and `e` is the edge not taken. -/
def RulesOut (mm : MatchMaker) (n : ℕ) (info : Info) (e : Edge) : Prop :=
  ∃ cond take edge t, mm.nodes[n]? = some (.If cond take edge) ∧ info.unreachability = .Bottom ∧
    abstractInterpretation info.varVals cond = .Data t ∧ e.jump = decide (t = 0)

/-- What a node passes on along the edges it does not rule out. -/
def passedOn (mm : MatchMaker) (n : ℕ) (info : Info) : Info :=
  match mm.nodes[n]? with
  | some (.Start _ _) => ⟨.Bottom, info.varVals⟩
  | some (.mov (.Gets varName expr) _) =>
    if info.unreachability = .Bottom then
      { info with varVals := info.varVals.set varName (abstractInterpretation info.varVals expr) }
    else unreachableInfo info
  | _ => if info.unreachability = .Bottom then info else unreachableInfo info

/-- The guard of a reachable `If`, where it is known, is 0 or 1. -/
def GuardOk (mm : MatchMaker) (n : ℕ) (info : Info) : Prop :=
  ∀ cond take edge t, mm.nodes[n]? = some (.If cond take edge) → info.unreachability = .Bottom →
    abstractInterpretation info.varVals cond = .Data t → t = 0 ∨ t = 1

variable {mm : MatchMaker} {n : ℕ}

/-- The edges of a reachable `If`. -/
theorem branch_cases {cond : CFGExpr} {info : Info} {f : Edge → Info} (h : branch cond info = some f)
    (e : Edge) :
    (∃ t, abstractInterpretation info.varVals cond = .Data t ∧ e.jump = decide (t = 0) ∧
      f e = unreachableInfo info) ∨
    ((∀ t, abstractInterpretation info.varVals cond = .Data t → e.jump ≠ decide (t = 0)) ∧
      f e = info) := by
  unfold branch at h
  cases hcond : abstractInterpretation info.varVals cond with
  | Top =>
    rw [hcond] at h
    exact .inr ⟨fun t ht => absurd ht (by simp), (congrFun (Option.some.inj h) e).symm⟩
  | Bottom =>
    rw [hcond] at h
    exact .inr ⟨fun t ht => absurd ht (by simp), (congrFun (Option.some.inj h) e).symm⟩
  | Data t =>
    rw [hcond] at h
    dsimp only at h
    -- the guard is a constant: one edge is unreachable, and refining the other changes nothing
    split_ifs at h with h0 h1
    · have hfe := congrFun (Option.some.inj h) e
      cases hjump : e.jump with
      | true =>
        rw [if_pos hjump] at hfe
        exact .inl ⟨t, rfl, (decide_eq_true h0).symm, hfe.symm⟩
      | false =>
        rw [if_neg (by simp [hjump]), refine_eq hcond (.inl ⟨rfl, h0⟩)] at hfe
        refine .inr ⟨fun t' ht' => ?_, hfe.symm⟩
        cases ht'
        simp [h0]
    · have hfe := congrFun (Option.some.inj h) e
      cases hjump : e.jump with
      | true =>
        rw [if_pos hjump, refine_eq hcond (.inr ⟨rfl, h1⟩)] at hfe
        refine .inr ⟨fun t' ht' => ?_, hfe.symm⟩
        cases ht'
        simp [h1]
      | false =>
        rw [if_neg (by simp [hjump])] at hfe
        exact .inl ⟨t, rfl, (decide_eq_false h0).symm, hfe.symm⟩

/-- What the transition gives the edges of a node. -/
theorem transition_cases {info : Info} {f : Edge → Info} (h : transition mm n info = some f) (e : Edge) :
    RulesOut mm n info e ∧ f e = unreachableInfo info ∨
      ¬ RulesOut mm n info e ∧ f e = passedOn mm n info := by
  unfold transition at h
  unfold passedOn
  have hother : (∀ cond take edge, mm.nodes[n]? ≠ some (.If cond take edge)) →
      ¬ RulesOut mm n info e := by
    rintro hnot ⟨cond, take, edge, t, hn, -⟩
    exact hnot cond take edge hn
  cases hn : mm.nodes[n]? with
  | none =>
    rw [hn] at h hother
    exact .inr ⟨hother (by simp), (congrFun (Option.some.inj h) e).symm⟩
  | some node =>
    rw [hn] at h hother
    cases node with
    | If cond take edge =>
      dsimp only at h ⊢
      split_ifs at h ⊢ with hreach
      · rcases branch_cases h e with ⟨t, hcond, hjump, hfe⟩ | ⟨hne, hfe⟩
        · exact .inl ⟨⟨cond, take, edge, t, hn, hreach, hcond, hjump⟩, hfe⟩
        · refine .inr ⟨?_, hfe⟩
          rintro ⟨cond', take', edge', t, hn', -, hcond, hjump⟩
          cases hn.symm.trans hn'
          exact hne t hcond hjump
      · refine .inr ⟨?_, (congrFun (Option.some.inj h) e).symm⟩
        rintro ⟨cond', take', edge', t, -, hreach', -⟩
        exact hreach hreach'
    | mov m edge =>
      cases m with
      | Gets varName expr =>
        dsimp only at h ⊢
        split_ifs at h ⊢
        · exact .inr ⟨hother (by simp), (congrFun (Option.some.inj h) e).symm⟩
        · exact .inr ⟨hother (by simp), (congrFun (Option.some.inj h) e).symm⟩
      | Mem loc expr => exact .inr ⟨hother (by simp), (congrFun (Option.some.inj h) e).symm⟩
    | _ => exact .inr ⟨hother (by simp), (congrFun (Option.some.inj h) e).symm⟩

/-- The transition throws nothing where the guard is 0 or 1. -/
theorem transition_isSome {info : Info} (hguard : GuardOk mm n info) :
    (transition mm n info).isSome := by
  unfold transition
  cases hn : mm.nodes[n]? with
  | none => rfl
  | some node =>
    cases node with
    | If cond take edge =>
      dsimp only
      split_ifs with hreach
      · unfold branch
        cases hcond : abstractInterpretation info.varVals cond with
        | Top => rfl
        | Bottom => rfl
        | Data t =>
          rcases hguard cond take edge t hn hreach hcond with rfl | rfl
          · rfl
          · rfl
      · rfl
    | mov m edge =>
      cases m with
      | Gets varName expr =>
        dsimp only
        split_ifs
        · rfl
        · rfl
      | Mem loc expr => rfl
    | _ => rfl

/-! ## Where the transition is monotone -/

/-- What is passed along an edge that is not taken is above everything. -/
theorem below_unreachableInfo (a b : Info) : a.Below (unreachableInfo b) :=
  ⟨Unreachability.le_top _, fun _ => Definition.le_top _⟩

/-- A node keeps the order of what it is given. -/
theorem passedOn_below {a b : Info} (h : a.Below b) : (passedOn mm n a).Below (passedOn mm n b) := by
  have hother : (if a.unreachability = .Bottom then a else unreachableInfo a).Below
      (if b.unreachability = .Bottom then b else unreachableInfo b) := by
    by_cases hb : b.unreachability = .Bottom
    · rw [if_pos hb, if_pos (Unreachability.le_bottom.mp (hb ▸ h.1))]
      exact h
    · rw [if_neg hb]
      exact below_unreachableInfo _ _
  unfold passedOn
  cases mm.nodes[n]? with
  | none => exact hother
  | some node =>
    cases node with
    | Start name edge => exact ⟨le_rfl, h.2⟩
    | mov m edge =>
      cases m with
      | Mem loc expr => exact hother
      | Gets varName expr =>
        dsimp only
        by_cases hb : b.unreachability = .Bottom
        · rw [if_pos hb, if_pos (Unreachability.le_bottom.mp (hb ▸ h.1))]
          refine ⟨h.1, fun x => ?_⟩
          by_cases hx : x = varName
          · subst hx
            simpa [VarVals.set] using abstractInterpretation_mono h.2 expr
          · simpa [VarVals.set, hx] using h.2 x
        · rw [if_neg hb]
          exact below_unreachableInfo _ _
    | _ => exact hother

/-- The transition is monotone along an edge unless only the smaller info rules it out. -/
theorem transition_below_iff {a b : Info} {fa fb : Edge → Info} (h : a.Below b)
    (ha : transition mm n a = some fa) (hb : transition mm n b = some fb) (e : Edge) :
    (fa e).Below (fb e) ↔
      (RulesOut mm n a e → b.unreachability = .Bottom → RulesOut mm n b e) := by
  rcases transition_cases hb e with ⟨hrb, hfb⟩ | ⟨hrb, hfb⟩
  · rw [hfb]
    exact iff_of_true (below_unreachableInfo _ _) fun _ _ => hrb
  · rcases transition_cases ha e with ⟨hra, hfa⟩ | ⟨hra, hfa⟩
    · obtain ⟨cond, take, edge, t, hn, -⟩ := id hra
      have hpass : passedOn mm n b = if b.unreachability = .Bottom then b else unreachableInfo b := by
        rw [passedOn, hn]
      rw [hfa, hfb, hpass]
      by_cases hreach : b.unreachability = .Bottom
      · rw [if_pos hreach]
        constructor
        · intro hbelow
          have hle := hbelow.1
          rw [hreach, Unreachability.le_bottom] at hle
          cases hle
        · intro hrules
          exact absurd (hrules hra hreach) hrb
      · rw [if_neg hreach]
        exact iff_of_true (below_unreachableInfo _ _) fun _ hbot => absurd hbot hreach
    · rw [hfa, hfb]
      exact iff_of_true (passedOn_below h) fun hra' => absurd hra' hra

end CondConstProp

end Jaek
