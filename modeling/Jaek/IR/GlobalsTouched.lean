import Jaek.IR.IRTranslator
import Jaek.Semantics.DepthFirst

/-!
# Globals touched by calls

While it translates a function, `IRTranslator` records the globals it assigns and the functions it calls.
`getGlobalsTouched` then visits, from every function, all functions it calls. The union it forms at each
of them is a new set that nothing keeps.

`getGlobalsTouched_returns` says that the visits end, and `translateFunctions_sameKeys` that the translation
records both maps for the same functions.
-/

namespace Jaek

namespace IRTranslator

open AST (Expr AssignTarget Statement Definition Method)

/-! ## The closure -/

namespace CallMaps

/-- `globalsByFunction[func] ?: emptySet()`. -/
def touched (maps : CallMaps) (func : String) : List String :=
  (maps.globalsByFunction.get? func).getD []

/-- The functions that are called in `func`. -/
def calls (maps : CallMaps) (func : String) : List String := (maps.functionCalls.get? func).getD []

/-- All names in the maps. -/
def names (maps : CallMaps) : List String :=
  maps.globalsByFunction.keys ++ maps.functionCalls.entries.flatMap Prod.snd

/-- `globalsByFunction[startFunc]?.union(...)`: the set it gives, and the map behind it. `union` makes a
new set and leaves the one in the map as it is. -/
def union (startFunc : String) (globalsByFunction : LinkedMap String (List String)) (func : String) :
    Option (List String) × LinkedMap String (List String) :=
  ((globalsByFunction.get? startFunc).map fun own => own ++ (globalsByFunction.get? func).getD [],
    globalsByFunction)

/-- `bfs`. -/
def bfs (maps : CallMaps) (globalsByFunction : LinkedMap String (List String)) (startFunc : String) :
    Option (LinkedMap String (List String)) :=
  (DepthFirst.visit maps.calls (fun g func => (union startFunc g func).2) (maps.names.length + 1)
    ([], globalsByFunction) startFunc).map Prod.snd

/-- `getGlobalsTouched`: the walk from `main`, over the functions in the order of the map. -/
def getGlobalsTouched (maps : CallMaps) : Option CallMaps :=
  (maps.globalsByFunction.keys.foldlM maps.bfs maps.globalsByFunction).map fun g =>
    { maps with globalsByFunction := g }

variable {maps maps' : CallMaps}

/-- A function that is called is a name of the maps. -/
theorem mem_names_of_mem_calls {f g : String} (h : g ∈ maps.calls f) : g ∈ maps.names := by
  unfold calls at h
  cases hget : maps.functionCalls.get? f with
  | none =>
    rw [hget] at h
    cases h
  | some fs =>
    rw [hget] at h
    exact List.mem_append_right _
      (List.mem_flatMap.mpr ⟨(f, fs), maps.functionCalls.mem_entries_iff.mpr hget, h⟩)

/-- The visits from a function end, and leave the map as it was. -/
theorem bfs_eq {f : String} (hf : f ∈ maps.names) (g : LinkedMap String (List String)) :
    maps.bfs g f = some g := by
  have hcard : (maps.names.toFinset.filter (· ∉ ([] : List String))).card < maps.names.length + 1 :=
    Nat.lt_succ_of_le ((Finset.card_filter_le _ _).trans maps.names.toFinset_card_le)
  have hinside : ∀ a ∈ maps.names.toFinset, ∀ b ∈ maps.calls a, b ∈ maps.names.toFinset :=
    fun a _ b hb => List.mem_toFinset.mpr (mem_names_of_mem_calls hb)
  have hreturns : ∃ p, DepthFirst.visit maps.calls (fun g func => (union f g func).2)
      (maps.names.length + 1) ([], g) f = some p ∧ [] ⊆ p.1 :=
    DepthFirst.visit_returns hinside (List.mem_toFinset.mpr hf) hcard
  obtain ⟨⟨visited, g'⟩, hvisit, -⟩ := hreturns
  have hsame : g' = g := DepthFirst.visit_invariant (I := fun g' => g' = g)
    (fun g' a h => h) hvisit rfl
  rw [bfs, hvisit, Option.map_some, hsame]

/-- The union is dropped, so the walk returns the maps it was given. -/
theorem getGlobalsTouched_returns (maps : CallMaps) : maps.getGlobalsTouched = some maps := by
  have hall : ∀ fs : List String, (∀ f ∈ fs, f ∈ maps.names) →
      fs.foldlM maps.bfs maps.globalsByFunction = some maps.globalsByFunction := by
    intro fs
    induction fs with
    | nil => exact fun _ => rfl
    | cons f fs ih =>
      intro hmem
      rw [List.foldlM_cons, bfs_eq (hmem f List.mem_cons_self)]
      exact ih fun f' hf' => hmem f' (List.mem_cons_of_mem _ hf')
  rw [getGlobalsTouched, hall _ fun f hf => List.mem_append_left _ hf]
  rfl

/-- Every function has the globals that were recorded for the functions it reaches by calls. -/
def ClosedFrom (maps maps' : CallMaps) : Prop :=
  ∀ f ∈ maps.globalsByFunction.keys, ∀ g, Relation.ReflTransGen (fun f g => g ∈ maps.calls f) f g →
    ∀ x ∈ maps.touched g, x ∈ maps'.touched f

/-- Both maps are about the same functions. -/
def SameKeys (maps : CallMaps) : Prop :=
  ∀ f, f ∈ maps.globalsByFunction.keys ↔ f ∈ maps.functionCalls.keys

/-- A function that calls has an entry in both maps. -/
theorem mem_keys_of_mem_calls (hkeys : maps.SameKeys) {f g : String} (h : g ∈ maps.calls f) :
    f ∈ maps.globalsByFunction.keys := by
  rw [hkeys f, LinkedMap.mem_keys_iff]
  unfold calls at h
  cases hget : maps.functionCalls.get? f with
  | none =>
    rw [hget] at h
    cases h
  | some fs => rfl

/-- Closed under single calls, the sets are closed under chains of calls. -/
theorem touched_of_reaches (hclosed : ∀ f g, g ∈ maps.calls f → ∀ x ∈ maps.touched g, x ∈ maps.touched f)
    {f g : String} (h : Relation.ReflTransGen (fun f g => g ∈ maps.calls f) f g) :
    ∀ x ∈ maps.touched g, x ∈ maps.touched f := by
  induction h with
  | refl => exact fun x hx => hx
  | tail _ hcall ih => exact fun x hx => ih x (hclosed _ _ hcall x hx)

end CallMaps

/-! ## What the translation records -/

/-- Adding to a set leaves the functions of the map as they are. -/
theorem mem_keys_addTo {map : LinkedMap String (List String)} {fn x f : String} :
    f ∈ (addTo map fn x).keys ↔ f ∈ map.keys := by
  unfold addTo
  split
  · rename_i xs hxs
    rw [LinkedMap.mem_keys_iff, LinkedMap.mem_keys_iff, LinkedMap.get?_insert]
    split_ifs with hf
    · simp [hf, hxs]
    · rfl
  · rfl

/-- The translation leaves the maps about the same functions, if they were. -/
def Keeps {α : Type} (x : Translation α) : Prop :=
  ∀ s a s', x.run s = some (a, s') → s.SameKeys → s'.SameKeys

namespace Keeps

variable {α β : Type}

/-- A value changes no map. -/
theorem pure (a : α) : Keeps (Pure.pure a) := by
  intro s b s' h hs
  cases h
  exact hs

/-- A translation that throws keeps everything, as it does not end. -/
theorem failure : Keeps (Alternative.failure : Translation α) := fun _ _ _ h => by cases h

/-- A lookup changes no map. -/
theorem lift (o : Option α) : Keeps (StateT.lift o) := by
  intro s a s' h hs
  obtain ⟨a', -, h⟩ := Option.bind_eq_some_iff.mp h
  cases h
  exact hs

/-- Two translations in a row keep what each of them keeps. -/
theorem bind {x : Translation α} {f : α → Translation β} (hx : Keeps x) (hf : ∀ a, Keeps (f a)) :
    Keeps (x >>= f) := by
  intro s b s' h hs
  obtain ⟨⟨a, s₁⟩, hrun, h⟩ := Option.bind_eq_some_iff.mp h
  exact hf a s₁ b s' h (hx s a s₁ hrun hs)

/-- The state is only read. -/
theorem get : Keeps (MonadState.get : Translation State) := by
  intro s a s' h hs
  cases h
  exact hs

/-- A change of the state that keeps the keys. -/
theorem modify {f : State → State} (hf : ∀ s, s.SameKeys → (f s).SameKeys) :
    Keeps (modify f : Translation Unit) := by
  intro s a s' h hs
  cases h
  exact hf s hs

/-- The label counter is no map. -/
theorem freshLabel : Keeps freshLabel := by
  intro s a s' h hs
  cases h
  exact hs

/-- Nor is the temp counter. -/
theorem freshTemp : Keeps freshTemp := by
  intro s a s' h hs
  cases h
  exact hs

/-- A recorded global belongs to a function of the map. -/
theorem recordGlobal (fn name : String) : Keeps (recordGlobal fn name) :=
  .modify fun _ hs f => mem_keys_addTo.trans (hs f)

/-- A recorded call too. -/
theorem recordCall (fn g : String) : Keeps (recordCall fn g) :=
  .modify fun _ hs f => (hs f).trans mem_keys_addTo.symm

/-- A function gets both sets at the same time. -/
theorem recordFunction (fn : String) : Keeps (recordFunction fn) := by
  refine .modify fun s hs f => ?_
  have hf := hs f
  rw [LinkedMap.mem_keys_iff, LinkedMap.mem_keys_iff] at hf ⊢
  rw [LinkedMap.get?_insert, LinkedMap.get?_insert]
  split_ifs
  · rfl
  · exact hf

/-- `raise` records nothing. -/
theorem raise (e : IRExpr) : Keeps (raise e) := by
  cases e with
  | eseq statement value => exact .pure _
  | _ => exact .bind .freshTemp fun _ => .pure _

end Keeps

section Traversal

variable (tables : Tables) (sourceFn : String)

mutual

/-- Translating an expression keeps the keys of the maps, by induction over the expression. -/
theorem translateExpr_keeps : (e : Expr Typed) → Keeps (translateExpr tables sourceFn e)
  | .arrayAccess _ arr idx => by
    rw [translateExpr]
    refine .bind .freshTemp fun _ => .bind .freshTemp fun _ => .bind .freshLabel fun _ =>
      .bind .freshLabel fun _ => ?_
    exact .bind (translateExpr_keeps arr) fun _ => .bind (translateExpr_keeps idx) fun _ => .pure _
  | .binaryOp etaType op left right => by
    have hleft := translateExpr_keeps left
    have hright := translateExpr_keeps right
    have hnames : Keeps freshConcatNames :=
      .bind .freshTemp fun _ => .bind .freshTemp fun _ => .bind .freshTemp fun _ =>
        .bind .freshTemp fun _ => .bind .freshLabel fun _ => .bind .freshLabel fun _ =>
        .bind .freshLabel fun _ => .bind .freshLabel fun _ => .bind .freshLabel fun _ =>
        .bind .freshLabel fun _ => .bind .freshTemp fun _ => .pure _
    rw [translateExpr]
    split_ifs
    · exact .bind hleft fun _ => .bind hright fun _ =>
        .bind (.raise _) fun _ => .bind (.raise _) fun _ => .bind hnames fun _ => .pure _
    · exact .bind .freshTemp fun _ => .bind .freshLabel fun _ => .bind .freshLabel fun _ =>
        .bind .freshLabel fun _ => .bind hleft fun _ => .bind hright fun _ => .pure _
    · exact .bind .freshTemp fun _ => .bind .freshLabel fun _ => .bind .freshLabel fun _ =>
        .bind .freshLabel fun _ => .bind hleft fun _ => .bind hright fun _ => .pure _
    · exact .bind hleft fun _ => .bind hright fun _ => .pure _
  | .functionCall _ fn args => by
    rw [translateExpr]
    split
    · exact .bind .freshTemp fun _ => .bind (translateStores_keeps _ _ args _ _) fun _ => .pure _
    · exact .bind (.lift _) fun _ => .bind (.recordCall _ _) fun _ =>
        .bind (translateExprs_keeps args) fun _ => .pure _
  | .identifier _ name => by
    rw [translateExpr]
    exact .pure _
  | .lengthFn _ arg => by
    rw [translateExpr]
    exact .bind .freshTemp fun _ => .bind .freshTemp fun _ =>
      .bind (translateExpr_keeps arg) fun _ => .pure _
  | .arrayLit _ list => by
    rw [translateExpr]
    exact .bind .freshTemp fun _ => .bind (translateStores_keeps _ _ list _ _) fun _ => .pure _
  | .boolLit _ bool => by
    rw [translateExpr]
    exact .pure _
  | .charLit _ char => by
    rw [translateExpr]
    exact .pure _
  | .intLit _ num => by
    rw [translateExpr]
    exact .pure _
  | .stringLit _ text => by
    rw [translateExpr]
    exact .bind .freshTemp fun _ => .pure _
  | .unaryOp _ op arg => by
    cases op <;> rw [translateExpr] <;> exact .bind (translateExpr_keeps arg) fun _ => .pure _
  | .field _ record name => by
    rw [translateExpr]
    split
    · exact .bind (.lift _) fun _ => .bind (translateExpr_keeps record) fun _ =>
        .bind (.lift _) fun _ => .pure _
    · exact .failure
  | .nullLit _ => by
    rw [translateExpr]
    exact .pure _

/-- Translating a list of expressions keeps them. -/
theorem translateExprs_keeps : (es : List (Expr Typed)) → Keeps (translateExprs tables sourceFn es)
  | [] => .pure _
  | e :: es => by
    rw [translateExprs]
    exact .bind (translateExpr_keeps e) fun _ => .bind (translateExprs_keeps es) fun _ => .pure _

/-- So do the stores of the elements of a literal. -/
theorem translateStores_keeps (tempM : IRExpr) (offset : ℕ → Word) : (es : List (Expr Typed)) → (i n : ℕ) →
    Keeps (translateStores tables sourceFn tempM offset es i n)
  | es, _, 0 => by
    rw [translateStores]
    exact .pure _
  | [], _, _ + 1 => by
    rw [translateStores]
    exact .failure
  | e :: es, i, n + 1 => by
    rw [translateStores]
    exact .bind (translateExpr_keeps e) fun _ =>
      .bind (translateStores_keeps tempM offset es (i + 1) n) fun _ => .pure _

end

/-- So does the translation of a guard. -/
theorem translateControl_keeps (e : Expr Typed) (trueLabel falseLabel : String) :
    Keeps (translateControl tables sourceFn e trueLabel falseLabel) := by
  fun_induction translateControl tables sourceFn e trueLabel falseLabel with
  | case1 => exact .pure _
  | case2 _ _ _ _ ih => exact ih
  | case3 => exact .failure
  | case4 _ _ _ _ _ ihl ihr =>
    exact .bind .freshLabel fun l => .bind (ihl l) fun _ => .bind ihr fun _ => .pure _
  | case5 _ _ _ _ _ _ ihl ihr =>
    exact .bind .freshLabel fun l => .bind (ihl l) fun _ => .bind ihr fun _ => .pure _
  | case6 => exact .bind (translateExpr_keeps _ _ _) fun _ => .pure _
  | case7 => exact .bind (translateExpr_keeps _ _ _) fun _ => .pure _

/-- So does the initialisation of an array. -/
theorem arrayInitHelp_keeps (es : List IRExpr) : Keeps (arrayInitHelp es) := by
  fun_induction arrayInitHelp es with
  | case1 => exact .failure
  | case2 => exact .bind .freshTemp fun _ => .bind .freshTemp fun _ => .pure _
  | case3 _ _ _ ih =>
    exact .bind .freshLabel fun _ => .bind .freshLabel fun _ => .bind .freshTemp fun _ =>
      .bind .freshTemp fun _ => .bind .freshTemp fun _ => .bind ih fun _ => .pure _

/-- So do the dimensions of an array. -/
theorem translateDimensions_keeps (es : List (Expr Typed)) :
    Keeps (translateDimensions tables sourceFn es) := by
  induction es with
  | nil => exact .pure _
  | cons e es ih =>
    exact .bind (translateExpr_keeps _ _ e) fun _ => .bind (.raise _) fun _ => .bind ih fun _ => .pure _

/-- So does the translation of a target. -/
theorem translateAssignTarget_keeps (target : AssignTarget Typed) :
    Keeps (translateAssignTarget tables sourceFn target) := by
  cases target with
  | declAssign decl =>
    rw [translateAssignTarget]
    split
    · exact .pure _
    · exact .failure
  | arrayAssign etaType arr idx => exact translateExpr_keeps _ _ _
  | idAssign name => exact .pure _
  | underscore => exact .freshTemp
  | fieldAssign etaType record name => exact translateExpr_keeps _ _ _

/-- A target that is a global is recorded. -/
theorem recordTarget_keeps (target : AssignTarget Typed) : Keeps (recordTarget tables sourceFn target) := by
  cases target with
  | idAssign name =>
    rw [recordTarget]
    split_ifs
    · exact .recordGlobal _ _
    · exact .pure _
  | _ => exact .pure _

/-- So does the translation of a list of targets. -/
theorem translateTargets_keeps (targets : List (AssignTarget Typed)) :
    Keeps (translateTargets tables sourceFn targets) := by
  induction targets with
  | nil => exact .pure _
  | cons target targets ih =>
    refine .bind (translateAssignTarget_keeps _ _ target) fun transl =>
      .bind (recordTarget_keeps _ _ target) fun _ => .bind ih fun _ => ?_
    cases transl <;> exact .pure _

/-- So do the moves into the temps of the values. -/
theorem translateValues_keeps (es : List IRExpr) : Keeps (translateValues es) := by
  induction es with
  | nil => exact .pure _
  | cons e es ih => exact .bind .freshTemp fun _ => .bind ih fun _ => .pure _

/-- So does the assignment of the results of a call. -/
theorem assignCall_keeps (stmts : List IRStmt) (targetList : List IRExpr) (fn : String)
    (args : List (Expr Typed)) : Keeps (assignCall tables sourceFn stmts targetList fn args) := by
  unfold assignCall
  split
  · refine .bind .freshTemp fun _ => .bind (translateStores_keeps _ _ _ _ args _ _) fun _ => ?_
    split
    · exact .pure _
    · exact .failure
  · exact .bind (.lift _) fun _ => .bind (.recordCall _ _) fun _ =>
      .bind (translateExprs_keeps _ _ args) fun _ => .pure _

/-- So does the assignment of values. -/
theorem assignValues_keeps (stmts : List IRStmt) (targetList : List IRExpr) (vals : List (Expr Typed)) :
    Keeps (assignValues tables sourceFn stmts targetList vals) :=
  .bind (translateExprs_keeps _ _ vals) fun _ => .bind (translateValues_keeps _) fun _ => .pure _

mutual

/-- Translating a statement keeps the keys of the maps, by induction over the statement. -/
theorem translateStatement_keeps : (st : Statement Typed) → Keeps (translateStatement tables sourceFn st)
  | .block stmts => by
    rw [translateStatement]
    exact .bind (translateStatements_keeps stmts) fun _ => .pure _
  | .ifElse guard thenBlock elseBlock => by
    rw [translateStatement]
    exact .bind .freshLabel fun _ => .bind .freshLabel fun _ => .bind .freshLabel fun _ =>
      .bind (translateControl_keeps _ _ guard _ _) fun _ => .bind (translateStatement_keeps thenBlock) fun _ =>
      .bind (translateElse_keeps elseBlock) fun _ => .pure _
  | .multiAssign targets vals => by
    rw [translateStatement]
    refine .bind (translateTargets_keeps _ _ targets) fun p => ?_
    obtain ⟨stmts, targetList⟩ := p
    show Keeps (match vals with
      | [] => failure
      | [.functionCall _ fn args] => assignCall tables sourceFn stmts targetList fn args
      | vals => assignValues tables sourceFn stmts targetList vals)
    split
    · exact .failure
    · exact assignCall_keeps _ _ _ _ _ _
    · exact assignValues_keeps _ _ _ _ _
  | .procedure id args => by
    rw [translateStatement]
    exact .bind (.lift _) fun _ => .bind (.recordCall _ _) fun _ =>
      .bind (translateExprs_keeps _ _ args) fun _ => .pure _
  | .return args => by
    rw [translateStatement]
    exact .bind (translateExprs_keeps _ _ args) fun _ => .pure _
  | .initArr id _ dimensions => by
    rw [translateStatement]
    exact .bind (translateDimensions_keeps _ _ _) fun _ => .bind (arrayInitHelp_keeps _) fun _ => .pure _
  | .rawVarDeclList decl => by
    rw [translateStatement]
    exact .pure _
  | .while guard body => by
    rw [translateStatement]
    exact .bind .freshLabel fun _ => .bind .freshLabel fun _ => .bind .freshLabel fun _ =>
      .bind .get fun _ => .bind (.modify fun _ hs => hs) fun _ =>
      .bind (translateControl_keeps _ _ guard _ _) fun _ => .bind (translateStatement_keeps body) fun _ =>
      .bind (.modify fun _ hs => hs) fun _ => .pure _
  | .break => by
    rw [translateStatement]
    refine .bind .get fun _ => ?_
    split
    · exact .pure _
    · exact .failure

/-- So does the translation of an else. -/
theorem translateElse_keeps : (st : Option (Statement Typed)) → Keeps (translateElse tables sourceFn st)
  | none => .pure _
  | some st => by
    rw [translateElse]
    exact .bind (translateStatement_keeps st) fun _ => .pure _

/-- So does that of a list of statements. -/
theorem translateStatements_keeps : (stmts : List (Statement Typed)) →
    Keeps (translateStatements tables sourceFn stmts)
  | [] => .pure _
  | st :: stmts => by
    rw [translateStatements]
    exact .bind (translateStatement_keeps st) fun _ =>
      .bind (translateStatements_keeps stmts) fun _ => .pure _

end

/-- So does that of a function. -/
theorem translateFuncDecl_keeps (n : Method Typed) (body : Statement Typed) :
    Keeps (translateFuncDecl tables n body) :=
  .bind (.lift _) fun _ => .bind (.lift _) fun _ => .bind (.recordFunction _) fun _ =>
    .bind (translateStatement_keeps _ _ body) fun _ => .pure _

/-- So does that of all functions. -/
theorem translateFunctions_keeps (definitions : List (Definition Typed)) :
    Keeps (translateFunctions tables definitions) := by
  fun_induction translateFunctions tables definitions with
  | case1 => exact .pure _
  | case2 _ _ _ ih => exact ih
  | case3 m _ body _ ih => exact .bind (translateFuncDecl_keeps _ m body) fun _ => .bind ih fun _ => .pure _
  | case4 _ _ ih => exact ih
  | case5 _ _ ih => exact ih

end Traversal

/-- The two maps are about the translated functions. -/
theorem translateFunctions_sameKeys {tables : Tables} {definitions : List (Definition Typed)} {labels temps : ℕ}
    {functions : List IRFuncDecl} {s : State}
    (h : (translateFunctions tables definitions).run (.start labels temps) = some (functions, s)) :
    s.SameKeys :=
  translateFunctions_keeps tables definitions _ _ _ h fun _ => Iff.rfl

/-- After `getGlobalsTouched` every function has the globals of all functions it reaches if and only if
each had those of the functions it calls itself. -/
theorem getGlobalsTouched_closed_iff {tables : Tables} {definitions : List (Definition Typed)} {labels temps : ℕ}
    {functions : List IRFuncDecl} {s : State}
    (h : (translateFunctions tables definitions).run (.start labels temps) = some (functions, s)) :
    ∃ maps', s.getGlobalsTouched = some maps' ∧ (s.ClosedFrom maps' ↔
      ∀ f g, g ∈ s.calls f → ∀ x ∈ s.touched g, x ∈ s.touched f) := by
  refine ⟨s.toCallMaps, s.getGlobalsTouched_returns, fun hclosed f g hcall x hx => ?_, ?_⟩
  · have hkeys : s.SameKeys := translateFunctions_sameKeys h
    exact hclosed f (CallMaps.mem_keys_of_mem_calls hkeys hcall) g (.single hcall) x hx
  · exact fun hdirect f _ g hreach => CallMaps.touched_of_reaches hdirect hreach

/-- `x : int`, `f() { x = 1 }`, `main() { f() }`. -/
def setterTables : Tables where
  mangledFunctionNames := ⟨[("f", "_If_p"), ("main", "_Imain_p")], by decide⟩
  globals := ["x"]
  records := .empty

/-- `f() { x = 1 }  main() { f() }`, with `x` a global. -/
def setterProgram : List (Definition Typed) :=
  [.globalDecl ⟨["x"], .int, none⟩,
    .method ⟨"f", [], [], some (.block [.multiAssign [.idAssign "x"] [.intLit none 1]])⟩,
    .method ⟨"main", [], [], some (.block [.procedure "f" []])⟩]

/-- The code of the two functions. -/
def setterFunctions : List IRFuncDecl :=
  [⟨"_If_p", .seq [.seq [.seq [.move (.temp "$T1") (.const 1), .move (.mem (.name "x")) (.temp "$T1")]], .ret []]⟩,
    ⟨"_Imain_p", .seq [.seq [.callStmt "_If_p" 0 []], .ret []]⟩]

/-- What its translation records. -/
def setterState : State where
  globalsByFunction := ⟨[("_If_p", ["x"]), ("_Imain_p", [])], by decide⟩
  functionCalls := ⟨[("_If_p", []), ("_Imain_p", ["_If_p"])], by decide⟩
  freshLabelCount := 0
  freshTempCount := 1
  enclosingWhileLabel := none

/-- What the translation of the program records. -/
theorem setterProgram_recorded : (translateFunctions setterTables setterProgram).run (.start 0 0) =
    some (setterFunctions, setterState) := rfl

/-- The maps of the program come out of the translation and are taken up by `getGlobalsTouched`. -/
theorem setterProgram_closed_iff : ∃ maps', setterState.getGlobalsTouched = some maps' ∧
    (setterState.ClosedFrom maps' ↔
      ∀ f g, g ∈ setterState.calls f → ∀ x ∈ setterState.touched g, x ∈ setterState.touched f) :=
  getGlobalsTouched_closed_iff setterProgram_recorded

/-- `main` does not get the global that `f` assigns. -/
theorem setterProgram_not_closed : ∃ functions s maps',
    (translateFunctions setterTables setterProgram).run (.start 0 0) = some (functions, s) ∧
      s.getGlobalsTouched = some maps' ∧ ¬s.ClosedFrom maps' := by
  refine ⟨_, _, _, setterProgram_recorded, CallMaps.getGlobalsTouched_returns _, fun hclosed => ?_⟩
  have hx := hclosed "_Imain_p" (by decide) "_If_p" (.single (by decide)) "x" (by decide)
  exact absurd hx (by decide)

end IRTranslator

end Jaek
