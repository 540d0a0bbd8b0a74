import Jaek.Assembly.TileCorrect
import Jaek.IR.IRTranslator
import Jaek.IR.IRLowerer

/-!
# Displacements

The displacement of a memory operand is 32 bits wide in the machine. The tiles take it from the source:
any sum of temps, a scaled temp and one constant becomes an operand with this constant, in a load and in
the `LEA` of a move to a temp.

`LIRExpr.AddressWith` says which sums these are, without the queue of the detector (`detected_iff`), and
`optimalTile_displacements` when all displacements in the tile of a function body fit.
-/

namespace Jaek

/-! ## The tiles of the other statements -/

/-- The tiles of a list of expressions, made in this order. -/
def optimalTiles : List LIRExpr → ℕ → Option (List Tile.Expr × ℕ)
  | [], k => some ([], k)
  | e :: es, k => do
    let (tile, k) ← e.optimalTile k
    let (tiles, k) ← optimalTiles es k
    some (tile :: tiles, k)

namespace ConventionalCaller

/-- The register of argument `index`, counted from 1. -/
def argRegister (index : ℕ) : Option x86Name :=
  match index with
  | 1 => some .RDI
  | 2 => some .RSI
  | 3 => some .RDX
  | 4 => some .RCX
  | 5 => some .R8
  | 6 => some .R9
  | _ => none

/-- Put an argument into its register or on the stack. More than two results take the first register. -/
def putArg (numReturns index : ℕ) (value : Register) : Instruction :=
  match argRegister (if numReturns > 2 then index + 1 else index) with
  | some reg => .MOV (.registerDest (.x86 reg)) (.registerSrc value)
  | none => .PUSH value

/-- Get result `index`, counted from 1. -/
def getReturn (index : ℕ) : Instruction :=
  match index with
  | 1 => .MOV (.registerDest (.abstract "_RV1")) (.registerSrc (.x86 .RAX))
  | 2 => .MOV (.registerDest (.abstract "_RV2")) (.registerSrc (.x86 .RDX))
  | _ => .POP (.abstract (retTemp index))

/-- Where a function finds argument `index`, counted from 1. -/
def getArg (numReturns index : ℕ) : Source :=
  let adjIdx := if numReturns > 2 then index + 1 else index
  match argRegister adjIdx with
  | some reg => .registerSrc (.x86 reg)
  | none => .memorySrc (.registerMem (some (.x86 .RBP)) none (16 + (BitVec.ofNat 64 adjIdx - 7) * 8) .ONE)

end ConventionalCaller

/-- The tile of a return: the first two values go to registers, the others where `RDI` points to. -/
def LIRReturn.optimalTile (valList : List LIRExpr) (k : ℕ) : Option (Tile × ℕ) := do
  let (tiles, k) ← optimalTiles valList k
  let registers := (tiles.take 2).zip [.RAX, .RDX] |>.map fun (tile, reg) =>
    Instruction.MOV (.registerDest (.x86 reg)) (.registerSrc tile.outputRegister)
  let pushed := (tiles.zipIdx.drop 2).reverse.map fun (tile, i) =>
    Instruction.MOV (.memoryDest (.registerMem (some (.x86 .RDI)) none (8 * (BitVec.ofNat 64 i - 2)) .ONE))
      (.registerSrc tile.outputRegister)
  some (⟨builderComment :: tiles.flatMap (·.instructions) ++ registers ++ pushed ++ [.LEAVE, .RET],
    1 + (tiles.map (·.cost)).sum⟩, k)

/-- The tile of a call. The arguments are computed from the last to the first, each into its place. -/
def LIRCallStmt.optimalTile (target : String) (n_returns : ℕ) (args : List LIRExpr) (k : ℕ) :
    Option (Tile × ℕ) := do
  let (tiles, k) ← optimalTiles args.reverse k
  let pushedReturns := n_returns - 2
  let pushedArgs := args.length - (if n_returns > 2 then 5 else 6)
  let padding := (pushedReturns + pushedArgs) % 2 > 0
  let rsp := Destination.registerDest (.x86 .RSP)
  let returnSpace := if n_returns ≥ 3 then
    [.arith .SUB rsp (.constSrc (8 * (BitVec.ofNat 64 n_returns - 2))),
      .MOV (.registerDest (.x86 .RDI)) (.registerSrc (.x86 .RSP))] else []
  let arguments := tiles.zipIdx.flatMap fun (tile, i) =>
    tile.instructions ++ [ConventionalCaller.putArg n_returns (args.length - i) tile.outputRegister]
  some (⟨[builderComment, .CALLERSAVEPUSH] ++
    (if padding then [.COMMENT "adding padding", .PAD] else []) ++ returnSpace ++ arguments ++
    [.CALL target] ++
    (if pushedArgs > 0 then [.COMMENT "THIS REMOVES THE EXTRA ARGS FROM THE STACK",
      .arith .ADD rsp (.constSrc (8 * BitVec.ofNat 64 pushedArgs))] else []) ++
    (List.range n_returns).map (fun i => ConventionalCaller.getReturn (i + 1)) ++
    (if padding then [.COMMENT "removing padding", .arith .ADD rsp (.constSrc 8)] else []) ++
    [.CALLERSAVEPOP], 1 + (tiles.map (·.cost)).sum⟩, k)

/-- The tile of a statement. Conditional jumps with two labels have none. -/
def FlatStmt.optimalTile : FlatStmt → ℕ → Option (Tile × ℕ)
  | .endBlock (.jump l), k => some (⟨[.jump .JMP l], 1⟩, k)
  | .endBlock (.cjump _ _ _), _ => none
  | .endBlock (.trueJump guard l), k => LIRTrueJump.optimalTile guard l k
  | .endBlock (.ret valList), k => LIRReturn.optimalTile valList k
  | .callStmt target n_returns args, k => LIRCallStmt.optimalTile target n_returns args k
  | .label l, k => some (⟨[.label l true], 0⟩, k)
  | .move dest expr, k => LIRMove.optimalTile dest expr k

/-- The tiles of the statements of a body, one behind the other. -/
def LIRSeq.tiles : List FlatStmt → ℕ → Option (List Tile × ℕ)
  | [], k => some ([], k)
  | stmt :: block, k => do
    let (tile, k) ← stmt.optimalTile k
    let (tiles, k) ← tiles block k
    some (tile :: tiles, k)

/-- The tile of a function body. -/
def LIRSeq.optimalTile (block : List FlatStmt) (k : ℕ) : Option (Tile × ℕ) := do
  let (tiles, k) ← LIRSeq.tiles block k
  some (⟨builderComment :: tiles.flatMap (·.instructions), (tiles.map (·.cost)).sum⟩, k)

/-! ## Displacements -/

/-- The displacements of 32 bits. -/
def FitsDisplacement (c : Word) : Prop := -2 ^ 31 ≤ c.toInt ∧ c.toInt < 2 ^ 31

/-- The constant that is added in an address, as the assembler has to encode it. -/
def Memory.displacements : Memory → List Word
  | registerMem _ _ offset _ => [offset]
  | labelMem _ => []

/-- The displacements of a destination. -/
def Destination.displacements : Destination → List Word
  | memoryDest m => m.displacements
  | registerDest _ => []

/-- The displacements of a source. -/
def Source.displacements : Source → List Word
  | memorySrc m => m.displacements
  | _ => []

/-- The displacements of the memory operands of an instruction. -/
def Instruction.displacements : Instruction → List Word
  | MOV dest src | arith _ dest src | logic _ dest src | CMP dest src =>
    dest.displacements ++ src.displacements
  | LEA dest src => dest.displacements ++ src.displacements
  | INC dest | DEC dest => dest.displacements
  | _ => []

/-- The displacements of a list of instructions. -/
def displacements (insns : List Instruction) : List Word := insns.flatMap Instruction.displacements

/-- The summands of a sum. A product of a constant and a temp has the constant first. -/
def LIRExpr.summands : LIRExpr → List LIRExpr
  | op .ADD left right => left.summands ++ right.summands
  | op .MUL (temp t) (const v) => [op .MUL (const v) (temp t)]
  | e => [e]

/-- What an address has next to its constant: one or two temps, a scaled temp, or both. -/
inductive LIRExpr.Terms : List LIRExpr → Prop
  | temp (t : String) : Terms [.temp t]
  | temps (t₁ t₂ : String) : Terms [.temp t₁, .temp t₂]
  | scaled (v : Word) (t : String) (hv : v ∈ [1, 2, 4, 8]) : Terms [.op .MUL (.const v) (.temp t)]
  | both (t₁ : String) (v : Word) (t₂ : String) (hv : v ∈ [1, 2, 4, 8]) :
    Terms [.temp t₁, .op .MUL (.const v) (.temp t₂)]

/-- A sum that is an address with a constant. -/
def LIRExpr.AddressWith (e : LIRExpr) (c : Word) : Prop :=
  ∃ rest, LIRExpr.Terms rest ∧ e.summands.Perm (.const c :: rest)

/-- The constant of the address, if the expression is one, fits. -/
def LIRExpr.Fits (e : LIRExpr) : Prop := ∀ c, e.AddressWith c → FitsDisplacement c

/-- The addresses an expression loads from. -/
def LIRExpr.loads : LIRExpr → List LIRExpr
  | mem address => address :: address.loads
  | op _ left right => left.loads ++ right.loads
  | _ => []

/-- The expressions of a statement that become the address of an operand. -/
def FlatStmt.addresses : FlatStmt → List LIRExpr
  | .endBlock (.jump _) | .label _ => []
  | .endBlock (.cjump guard _ _) | .endBlock (.trueJump guard _) => guard.loads
  | .endBlock (.ret valList) => valList.flatMap LIRExpr.loads
  | .callStmt _ _ args => args.flatMap LIRExpr.loads
  | .move (.temp _) expr => expr :: expr.loads
  | .move (.mem address) expr => expr.loads ++ address.loads
  | .move _ expr => expr.loads

/-- The constants of its addresses fit, and a return stores its last value no more than 2³¹ bytes from the
first it stores. -/
def FlatStmt.Fits (stmt : FlatStmt) : Prop :=
  (∀ e ∈ stmt.addresses, e.Fits) ∧
    ∀ valList, stmt = .endBlock (.ret valList) → valList.length ≤ 2 ^ 28 + 2

/-! ## The detector -/

namespace LIRExpr

/-- The constant of a summand. -/
def constOf : LIRExpr → Option Word
  | const c => some c
  | _ => none

/-- The temp of a summand. -/
def tempOf : LIRExpr → Option String
  | temp t => some t
  | _ => none

/-- The temp of a summand and what it is multiplied by. -/
def scaledOf : LIRExpr → Option (Word × String)
  | op .MUL (const v) (temp t) => some (v, t)
  | _ => none

/-- The summands that fit into an address. -/
def isTerm (e : LIRExpr) : Bool := e.constOf.isSome || e.tempOf.isSome || e.scaledOf.isSome

end LIRExpr

namespace Addends

/-- The scaled temp. -/
def scaledTerm (a : Addends) : Option (Word × String) :=
  match a.validScale, a.scaled with
  | some v, some t => some (v, t)
  | _, _ => none

/-- What has been collected, as summands. -/
def terms (a : Addends) : List LIRExpr :=
  a.const.toList.map .const ++ a.addedTemps.map .temp ++
    a.scaledTerm.toList.map fun p => .op .MUL (.const p.1) (.temp p.2)

/-- Scale and scaled temp are set together. -/
def Paired (a : Addends) : Prop := a.validScale.isSome = a.scaled.isSome

variable {a : Addends}

/-- The only constant among the summands of collected addends is the collected one. -/
theorem filterMap_constOf_terms (a : Addends) : a.terms.filterMap LIRExpr.constOf = a.const.toList := by
  simp [terms, List.filterMap_append, List.filterMap_map, Function.comp_def, LIRExpr.constOf]

/-- The temps among them are the collected ones. -/
theorem filterMap_tempOf_terms (a : Addends) : a.terms.filterMap LIRExpr.tempOf = a.addedTemps := by
  simp [terms, List.filterMap_append, List.filterMap_map, Function.comp_def, LIRExpr.tempOf]

/-- The only scaled temp among them is the collected one. -/
theorem filterMap_scaledOf_terms (a : Addends) :
    a.terms.filterMap LIRExpr.scaledOf = a.scaledTerm.toList := by
  simp [terms, List.filterMap_append, List.filterMap_map, Function.comp_def, LIRExpr.scaledOf]

/-- A constant goes from the summands that are left into the collected ones. -/
theorem perm_const (h : a.const = none) (c : Word) (rest : List LIRExpr) :
    ({ a with const := some c }.terms ++ rest).Perm (a.terms ++ .const c :: rest) := by
  simp only [terms, h, Option.toList_some, Option.toList_none, List.map_cons, List.map_nil,
    List.nil_append, List.cons_append]
  exact List.perm_middle.symm

/-- So does a temp. -/
theorem perm_temp (a : Addends) (t : String) (rest : List LIRExpr) :
    ({ a with addedTemps := a.addedTemps ++ [t] }.terms ++ rest).Perm (a.terms ++ .temp t :: rest) := by
  refine List.perm_iff_count.mpr fun e => ?_
  simp only [terms, scaledTerm, List.map_append, List.map_cons, List.map_nil, List.count_append,
    List.count_cons, List.count_nil]
  omega

/-- So does a scaled temp, when there is none yet. -/
theorem perm_scaled (h : a.validScale = none) (v : Word) (t : String) (rest : List LIRExpr) :
    ({ a with validScale := some v, scaled := some t }.terms ++ rest).Perm
      (a.terms ++ .op .MUL (.const v) (.temp t) :: rest) := by
  refine List.perm_iff_count.mpr fun e => ?_
  simp only [terms, scaledTerm, h, Option.toList_some, Option.toList_none, List.map_cons, List.map_nil,
    List.count_append, List.count_cons, List.count_nil]
  omega

end Addends

/-- A sum in the queue is replaced by its summands behind the others. -/
theorem perm_add (left right : LIRExpr) (queue rest : List LIRExpr) :
    (rest ++ (queue ++ [left, right]).flatMap LIRExpr.summands).Perm
      (rest ++ (.op .ADD left right :: queue).flatMap LIRExpr.summands) := by
  refine List.perm_iff_count.mpr fun e => ?_
  simp only [List.flatMap_append, List.flatMap_cons, List.flatMap_nil, LIRExpr.summands,
    List.count_append, List.append_nil]
  omega

/-- The loop collects the summands of its queue. -/
theorem detectMFAddends.loop_terms {queue : List LIRExpr} {a a' : Addends} (ha : a.Paired)
    (h : loop queue a = some a') :
    a'.Paired ∧ a'.terms.Perm (a.terms ++ queue.flatMap LIRExpr.summands) := by
  fun_induction loop queue a with
  | case1 a =>
    cases h
    exact ⟨ha, by simp⟩
  | case2 => cases h
  | case3 c queue a hc ih =>
    obtain ⟨ha', hperm⟩ := ih ha h
    exact ⟨ha', hperm.trans (Addends.perm_const (by simpa using hc) c _)⟩
  | case4 t queue a ih =>
    obtain ⟨ha', hperm⟩ := ih ha h
    exact ⟨ha', hperm.trans (Addends.perm_temp a t _)⟩
  | case5 left right queue a ih =>
    obtain ⟨ha', hperm⟩ := ih ha h
    exact ⟨ha', hperm.trans (perm_add left right queue _)⟩
  | case6 => cases h
  | case7 queue a hscale v t ih =>
    obtain ⟨ha', hperm⟩ := ih (by simp [Addends.Paired]) h
    exact ⟨ha', hperm.trans (Addends.perm_scaled (by simp_all) v t _)⟩
  | case8 queue a hscale t v ih =>
    obtain ⟨ha', hperm⟩ := ih (by simp [Addends.Paired]) h
    exact ⟨ha', hperm.trans (Addends.perm_scaled (by simp_all) v t _)⟩
  | case9 => cases h
  | case10 => cases h
  | case11 => cases h
  | case12 => cases h

/-- Summands among which there are at most one constant and one scaled temp, and otherwise temps. -/
structure Collectable (es : List LIRExpr) : Prop where
  term : ∀ e ∈ es, e.isTerm
  const : (es.filterMap LIRExpr.constOf).length ≤ 1
  scaled : (es.filterMap LIRExpr.scaledOf).length ≤ 1

/-- Whether summands can be collected does not depend on their order. -/
theorem Collectable.perm {es es' : List LIRExpr} (h : Collectable es) (hperm : es'.Perm es) :
    Collectable es' where
  term e he := h.term e (hperm.mem_iff.mp he)
  const := (hperm.filterMap _).length_eq.trans_le h.const
  scaled := (hperm.filterMap _).length_eq.trans_le h.scaled

/-- A product is a term only as a scaled temp. -/
theorem summands_mul (left right : LIRExpr) :
    (∃ v t, (left = .const v ∧ right = .temp t ∨ left = .temp t ∧ right = .const v) ∧
      (LIRExpr.op .MUL left right).summands = [.op .MUL (.const v) (.temp t)]) ∨
    (¬ (∃ v t, left = .const v ∧ right = .temp t ∨ left = .temp t ∧ right = .const v) ∧
      ∃ e ∈ (LIRExpr.op .MUL left right).summands, e.isTerm = false) := by
  cases left with
  | const v =>
    cases right with
    | temp t => exact .inl ⟨v, t, .inl ⟨rfl, rfl⟩, rfl⟩
    | _ => exact .inr ⟨by simp, _, List.mem_singleton_self _, rfl⟩
  | temp t =>
    cases right with
    | const v => exact .inl ⟨v, t, .inr ⟨rfl, rfl⟩, rfl⟩
    | _ => exact .inr ⟨by simp, _, List.mem_singleton_self _, rfl⟩
  | _ => exact .inr ⟨by simp, _, List.mem_singleton_self _, rfl⟩

/-- On such summands the loop does not fail. -/
theorem detectMFAddends.loop_isSome {queue : List LIRExpr} {a : Addends} (ha : a.Paired)
    (h : Collectable (a.terms ++ queue.flatMap LIRExpr.summands)) : (loop queue a).isSome := by
  -- The loop returns nothing at a second constant, a second scaled temporary or a summand of another form;
  -- a collectable sum has none of them.
  fun_induction loop queue a with
  | case1 a => rfl
  | case2 c queue a hc =>
    obtain ⟨c', hc'⟩ := Option.isSome_iff_exists.mp hc
    have hconst := h.const
    rw [List.filterMap_append, Addends.filterMap_constOf_terms, hc'] at hconst
    simp [LIRExpr.summands, LIRExpr.constOf] at hconst
  | case3 c queue a hc ih => exact ih ha (h.perm (Addends.perm_const (by simpa using hc) c _))
  | case4 t queue a ih => exact ih ha (h.perm (Addends.perm_temp a t _))
  | case5 left right queue a ih => exact ih ha (h.perm (perm_add left right queue _))
  | case6 left right queue a hset =>
    have hsome : a.scaledTerm.isSome := by
      unfold Addends.Paired at ha
      unfold Addends.scaledTerm
      cases hv : a.validScale <;> cases ht : a.scaled <;> simp_all
    obtain ⟨p, hp⟩ := Option.isSome_iff_exists.mp hsome
    rcases summands_mul left right with ⟨v, t, -, hsum⟩ | ⟨-, e, he, hterm⟩
    · have hscaled := h.scaled
      rw [List.filterMap_append, Addends.filterMap_scaledOf_terms, hp, List.flatMap_cons, hsum] at hscaled
      simp [LIRExpr.scaledOf] at hscaled
    · have hmem := h.term e (List.mem_append_right _ (List.mem_append_left _ he))
      simp [hterm] at hmem
  | case7 queue a hscale v t ih =>
    exact ih (by simp [Addends.Paired]) (h.perm (Addends.perm_scaled (by simp_all) v t _))
  | case8 queue a hscale t v ih =>
    exact ih (by simp [Addends.Paired]) (h.perm (Addends.perm_scaled (by simp_all) v t _))
  | case9 left right queue a hscale hleft hright =>
    rcases summands_mul left right with ⟨v, t, heq | heq, -⟩ | ⟨-, e, he, hterm⟩
    · exact (hleft v t heq.1 heq.2).elim
    · exact (hright t v heq.1 heq.2).elim
    · have hmem := h.term e (List.mem_append_right _ (List.mem_append_left _ he))
      simp [hterm] at hmem
  | case10 o left right queue a hadd hmul =>
    have hmem := h.term (.op o left right) (List.mem_append_right _ (List.mem_append_left _ ?_))
    · cases o <;> simp_all [LIRExpr.isTerm, LIRExpr.constOf, LIRExpr.tempOf, LIRExpr.scaledOf]
    · cases o <;> simp_all [LIRExpr.summands]
  | case11 address queue a =>
    have hmem := h.term (.mem address) (by simp [LIRExpr.summands])
    simp [LIRExpr.isTerm, LIRExpr.constOf, LIRExpr.tempOf, LIRExpr.scaledOf] at hmem
  | case12 l queue a =>
    have hmem := h.term (.name l) (by simp [LIRExpr.summands])
    simp [LIRExpr.isTerm, LIRExpr.constOf, LIRExpr.tempOf, LIRExpr.scaledOf] at hmem

/-- The four factors have a shift. -/
theorem convertToShift_isSome {v : Word} (hv : v ∈ [1, 2, 4, 8]) : ∃ shift, convertToShift v = some shift := by
  fin_cases hv <;> exact ⟨_, rfl⟩

/-- No other factor has. -/
theorem mem_of_convertToShift {v : Word} {shift : Shift} (h : convertToShift v = some shift) :
    v ∈ [1, 2, 4, 8] := by
  unfold convertToShift at h
  split_ifs at h <;> simp_all

/-- The scaled summand comes from the two fields. -/
theorem Addends.scale_of_some {a : Addends} {v : Word} {t : String} (h : a.scaledTerm = some (v, t)) :
    a.validScale = some v ∧ a.scaled = some t := by
  unfold scaledTerm at h
  split at h
  · cases h
    exact ⟨‹_›, ‹_›⟩
  · cases h

/-- Without one, both fields are empty. -/
theorem Addends.scale_of_none {a : Addends} (ha : a.Paired) (h : a.scaledTerm = none) :
    a.validScale = none ∧ a.scaled = none := by
  unfold scaledTerm at h
  unfold Paired at ha
  cases hv : a.validScale <;> cases ht : a.scaled <;> simp_all

/-- An option whose list is a rearrangement of one element is that element. -/
theorem toList_perm_singleton {α : Type} {o : Option α} {x : α} (h : o.toList.Perm [x]) : o = some x := by
  cases o with
  | none => simp at h
  | some y => simpa using h

/-- One whose list is a rearrangement of nothing is nothing. -/
theorem toList_perm_nil {α : Type} {o : Option α} (h : o.toList.Perm []) : o = none := by
  cases o with
  | none => rfl
  | some y => simp at h

/-- What was collected is an operand with the constant `c`, where `c` and the terms of an address were. -/
theorem Addends.memory_of_perm {a : Addends} (ha : a.Paired) {c : Word} {rest : List LIRExpr}
    (hrest : LIRExpr.Terms rest) (hperm : a.terms.Perm (.const c :: rest)) :
    ∃ m, a.memory = some m ∧ m.displacements = [c] := by
  have hconst := hperm.filterMap LIRExpr.constOf
  have htemps := hperm.filterMap LIRExpr.tempOf
  have hscaled := hperm.filterMap LIRExpr.scaledOf
  rw [filterMap_constOf_terms] at hconst
  rw [filterMap_tempOf_terms] at htemps
  rw [filterMap_scaledOf_terms] at hscaled
  cases hrest with
  | temp t =>
    have hc : a.const = some c := toList_perm_singleton hconst
    have ht : a.addedTemps = [t] := List.perm_singleton.mp htemps
    obtain ⟨hv, hs⟩ := scale_of_none ha (toList_perm_nil hscaled)
    exact ⟨_, by rw [memory, hc, ht, hv, hs], rfl⟩
  | temps t₁ t₂ =>
    have hc : a.const = some c := toList_perm_singleton hconst
    obtain ⟨u₁, u₂, ht⟩ : ∃ u₁ u₂, a.addedTemps = [u₁, u₂] := List.length_eq_two.mp htemps.length_eq
    obtain ⟨hv, hs⟩ := scale_of_none ha (toList_perm_nil hscaled)
    exact ⟨_, by rw [memory, hc, ht, hv, hs], rfl⟩
  | scaled v t hmem =>
    have hc : a.const = some c := toList_perm_singleton hconst
    have ht : a.addedTemps = [] := List.perm_nil.mp htemps
    obtain ⟨hv, hs⟩ := scale_of_some (toList_perm_singleton hscaled)
    obtain ⟨shift, hshift⟩ := convertToShift_isSome hmem
    exact ⟨_, by rw [memory, hc, ht, hv, hs]; exact congrArg (Option.map _) hshift, rfl⟩
  | both t₁ v t₂ hmem =>
    have hc : a.const = some c := toList_perm_singleton hconst
    have ht : a.addedTemps = [t₁] := List.perm_singleton.mp htemps
    obtain ⟨hv, hs⟩ := scale_of_some (toList_perm_singleton hscaled)
    obtain ⟨shift, hshift⟩ := convertToShift_isSome hmem
    exact ⟨_, by rw [memory, hc, ht, hv, hs]; exact congrArg (Option.map _) hshift, rfl⟩

/-- An operand that was made has no constant, or has the one collected next to the terms of an address. -/
theorem Addends.terms_of_memory {a : Addends} {m : Memory} (h : a.memory = some m) :
    m.displacements = [0] ∨ ∃ c rest, m.displacements = [c] ∧ LIRExpr.Terms rest ∧
      a.terms.Perm (.const c :: rest) := by
  obtain ⟨validScale, scaled, const, addedTemps⟩ := a
  unfold memory at h
  split at h
  · cases h
    exact .inl rfl
  · obtain ⟨shift, -, rfl⟩ := Option.map_eq_some_iff.mp h
    exact .inl rfl
  · rename_i t c htemps hv hs hc
    subst htemps hv hs hc
    cases h
    exact .inr ⟨c, _, rfl, .temp t, by simp [terms, scaledTerm]⟩
  · rename_i t₁ t₂ c htemps hv hs hc
    subst htemps hv hs hc
    cases h
    exact .inr ⟨c, _, rfl, .temps t₁ t₂, by simp [terms, scaledTerm]⟩
  · rename_i t₁ v t₂ c htemps hv hs hc
    subst htemps hv hs hc
    obtain ⟨shift, hshift, rfl⟩ := Option.map_eq_some_iff.mp h
    exact .inr ⟨c, _, rfl, .both t₁ v t₂ (mem_of_convertToShift hshift), by simp [terms, scaledTerm]⟩
  · rename_i v t₂ c htemps hv hs hc
    subst htemps hv hs hc
    obtain ⟨shift, hshift, rfl⟩ := Option.map_eq_some_iff.mp h
    exact .inr ⟨c, _, rfl, .scaled v t₂ (mem_of_convertToShift hshift), by simp [terms, scaledTerm]⟩
  · cases h

/-- Nothing collected has no summands. -/
theorem terms_nil : ({} : Addends).terms = [] := rfl

/-- A constant and temps can be collected. -/
theorem LIRExpr.Terms.collectable {c : Word} {rest : List LIRExpr} (h : Terms rest) :
    Collectable (.const c :: rest) := by
  cases h with
  | temp | temps => exact ⟨by simp [isTerm, constOf, tempOf, scaledOf], Nat.le_refl 1, Nat.zero_le 1⟩
  | scaled | both => exact ⟨by simp [isTerm, constOf, tempOf, scaledOf], Nat.le_refl 1, Nat.le_refl 1⟩

/-- A sum of a constant and the terms of an address is an operand with this constant. -/
theorem detected_of_addressWith {e : LIRExpr} {c : Word} (h : e.AddressWith c) :
    ∃ m, detectMemoryFriendly e = some m ∧ m.displacements = [c] := by
  obtain ⟨rest, hrest, hperm⟩ := h
  have hlength : 1 < e.summands.length := by
    rw [hperm.length_eq]
    cases hrest <;> simp
  -- only a sum has two summands
  have hadd : ∃ left right, e = .op .ADD left right := by
    cases e with
    | op o left right =>
      cases o with
      | ADD => exact ⟨left, right, rfl⟩
      | MUL =>
        rcases summands_mul left right with ⟨v, t, -, hsum⟩ | ⟨-, e, he, hterm⟩
        · simp [hsum] at hlength
        · have hmem := hrest.collectable.term e (hperm.mem_iff.mp he)
          simp [hterm] at hmem
      | _ => simp [LIRExpr.summands] at hlength
    | _ => simp [LIRExpr.summands] at hlength
  obtain ⟨left, right, rfl⟩ := hadd
  have hqueue : (({} : Addends).terms ++ [left, right].flatMap LIRExpr.summands).Perm
      (.const c :: rest) := by
    simpa [LIRExpr.summands, terms_nil] using hperm
  have hpaired : ({} : Addends).Paired := rfl
  obtain ⟨a, ha⟩ := Option.isSome_iff_exists.mp
    (detectMFAddends.loop_isSome hpaired (hrest.collectable.perm hqueue))
  obtain ⟨hpaired', hterms⟩ := detectMFAddends.loop_terms hpaired ha
  obtain ⟨m, hm, hdisp⟩ := Addends.memory_of_perm hpaired' hrest (hterms.trans hqueue)
  exact ⟨m, Option.bind_eq_some_iff.mpr ⟨a, ha, hm⟩, hdisp⟩

/-- The displacement of an operand the detector makes is 0, or the constant of the address. -/
theorem addressWith_of_detected {e : LIRExpr} {m : Memory} (h : detectMemoryFriendly e = some m) :
    m.displacements = [0] ∨ ∃ c, m.displacements = [c] ∧ e.AddressWith c := by
  unfold detectMemoryFriendly at h
  split at h
  · rename_i left right
    obtain ⟨a, ha, hm⟩ := Option.bind_eq_some_iff.mp h
    obtain ⟨-, hterms⟩ := detectMFAddends.loop_terms (a := {}) rfl ha
    refine (Addends.terms_of_memory hm).imp_right fun ⟨c, rest, hdisp, hrest, hperm⟩ => ?_
    refine ⟨c, hdisp, rest, hrest, ?_⟩
    simpa [LIRExpr.summands, terms_nil] using hterms.symm.trans hperm
  · left
    unfold detectMFFactors at h
    split at h
    · obtain ⟨shift, -, rfl⟩ := Option.map_eq_some_iff.mp h
      rfl
    · obtain ⟨shift, -, rfl⟩ := Option.map_eq_some_iff.mp h
      rfl
    · cases h
  · cases h

/-- Zero fits into the displacement. -/
theorem fits_zero : FitsDisplacement 0 := by
  unfold FitsDisplacement
  decide

/-- The operand the detector makes has a displacement that fits exactly when the constant does. -/
theorem detected_fits_iff {e : LIRExpr} {m : Memory} (h : detectMemoryFriendly e = some m) :
    (∀ d ∈ m.displacements, FitsDisplacement d) ↔ e.Fits := by
  constructor
  · intro hfits c hc
    obtain ⟨m', hm', hdisp⟩ := detected_of_addressWith hc
    cases h.symm.trans hm'
    exact hfits c (by simp [hdisp])
  · intro hfits d hd
    rcases addressWith_of_detected h with hdisp | ⟨c, hdisp, hc⟩
    · rw [hdisp, List.mem_singleton] at hd
      rw [hd]
      exact fits_zero
    · rw [hdisp, List.mem_singleton] at hd
      rw [hd]
      exact hfits c hc

/-- What the detector does not take has no constant of an address. -/
theorem fits_of_not_detected {e : LIRExpr} (h : detectMemoryFriendly e = none) : e.Fits := by
  intro c hc
  obtain ⟨m, hm, -⟩ := detected_of_addressWith hc
  cases h.symm.trans hm

/-! ## The tiles -/

section Tiles

/-- The displacements of instructions in a row. -/
theorem displacements_append (xs ys : List Instruction) :
    displacements (xs ++ ys) = displacements xs ++ displacements ys := List.flatMap_append

/-- The displacements in the list fit. -/
def AllFit (insns : List Instruction) : Prop := ∀ d ∈ displacements insns, FitsDisplacement d

/-- Instructions in a row have fitting displacements when each part has. -/
theorem allFit_append {xs ys : List Instruction} : AllFit (xs ++ ys) ↔ AllFit xs ∧ AllFit ys := by
  simp only [AllFit, displacements_append, List.forall_mem_append]

/-- Instructions without memory operands. -/
theorem allFit_of_nil {xs : List Instruction} (h : displacements xs = []) : AllFit xs := by
  simp [AllFit, h]

/-- An instruction with one memory operand. -/
theorem allFit_mem {x : Instruction} {m : Memory} (h : x.displacements = m.displacements) :
    AllFit [x] ↔ ∀ d ∈ m.displacements, FitsDisplacement d := by
  rw [AllFit, displacements, List.flatMap_singleton, h]

/-- The comment of a tile has no displacement. -/
theorem allFit_builder (xs : List Instruction) : AllFit (builderComment :: xs) ↔ AllFit xs := Iff.rfl

/-- The loads of an expression are those of its summands. -/
theorem LIRExpr.loads_eq (e : LIRExpr) : e.loads = e.summands.flatMap loads := by
  fun_induction summands e with
  | case1 left right ihl ihr => rw [loads, List.flatMap_append, ← ihl, ← ihr]
  | case2 => rfl
  | case3 e => simp

/-- What the detector takes reads no memory. -/
theorem loads_of_detected {e : LIRExpr} {m : Memory} (h : detectMemoryFriendly e = some m) :
    e.loads = [] := by
  unfold detectMemoryFriendly at h
  split at h
  · rename_i left right
    obtain ⟨a, ha, -⟩ := Option.bind_eq_some_iff.mp h
    obtain ⟨-, hterms⟩ := detectMFAddends.loop_terms (a := {}) rfl ha
    rw [LIRExpr.loads_eq, List.flatMap_eq_nil_iff]
    intro e he
    have hmem : e ∈ a.terms := hterms.mem_iff.mpr (by simpa [LIRExpr.summands, terms_nil] using he)
    simp only [Addends.terms, List.mem_append, List.mem_map] at hmem
    rcases hmem with (⟨c, -, rfl⟩ | ⟨t, -, rfl⟩) | ⟨p, -, rfl⟩ <;> rfl
  · unfold detectMFFactors at h
    split at h
    · rfl
    · rfl
    · cases h
  · cases h

/-- The instructions of an operator on registers have no displacement, and cost something. -/
theorem operation_fits (o : OpType) (left right : Register) (k : ℕ) :
    AllFit (LIROp.operation o left right k).2 ∧ 0 < (LIROp.operation o left right k).1 := by
  constructor
  · cases o <;> exact allFit_of_nil rfl
  · cases o <;> exact Nat.succ_pos _

/-- Any other tile of an address costs more than the one that takes it as an operand. -/
theorem cost_pos_of_detected {e : LIRExpr} {m : Memory} (h : detectMemoryFriendly e = some m) {k k' : ℕ}
    {t : Tile.Expr} (ht : e.optimalTile k = some (t, k')) : 0 < t.cost := by
  cases e with
  | op o left right =>
    simp only [LIRExpr.optimalTile, Option.bind_eq_bind, Option.bind_eq_some_iff, Option.some.injEq,
      Prod.mk.injEq, Prod.exists] at ht
    obtain ⟨leftTile, k₁, -, rightTile, k₂, -, rfl, -⟩ := ht
    have hpos := (operation_fits o leftTile.outputRegister rightTile.outputRegister (k₂ + 1)).2
    simp only [LIROp.defaultTile]
    omega
  | _ => simp [detectMemoryFriendly] at h

/-- The tile of an expression has displacements that fit exactly when the constants of the addresses it
loads from do. -/
theorem LIRExpr.optimalTile_allFit (e : LIRExpr) {k k' : ℕ} {t : Tile.Expr}
    (h : e.optimalTile k = some (t, k')) : AllFit t.instructions ↔ ∀ a ∈ e.loads, a.Fits := by
  induction e generalizing k k' t with
  | const value =>
    cases h
    simp [AllFit, displacements, Instruction.displacements, Destination.displacements,
      Source.displacements, loads]
  | temp x =>
    cases h
    simp [AllFit, displacements, loads]
  | name l => cases h
  | mem address ih =>
    by_cases hname : ∃ l, address = .name l
    · obtain ⟨l, rfl⟩ := hname
      cases h
      have hfits : (LIRExpr.name l).Fits := fits_of_not_detected rfl
      simp only [loads, List.forall_mem_cons, hfits, true_and]
      exact iff_of_true (allFit_of_nil rfl) (by simp)
    · rw [LIRExpr.optimalTile] at h
      · obtain ⟨⟨addressTile, k₁⟩, haddress, h⟩ := Option.bind_eq_some_iff.mp h
        cases h
        simp only [loads, List.forall_mem_cons]
        cases hdetect : detectMemoryFriendly address with
        | none =>
          have hload : AllFit [.MOV (.registerDest (freshRegister (k + 1)))
              (.memorySrc (.registerMem (some addressTile.outputRegister) none 0 .ONE))] := by
            intro d hd
            rw [List.mem_singleton.mp hd]
            exact fits_zero
          simp only [LIRMem.arrAccessTile, hdetect, Option.map_none, attempt, LIRMem.defaultTile,
            List.cons_append, allFit_builder, allFit_append, hload, and_true, ih haddress,
            fits_of_not_detected hdetect, true_and]
        | some m =>
          -- the operand is cheaper than the computed address, which has no loads
          have hcheap : 1 < 1 + addressTile.cost := by
            have := cost_pos_of_detected hdetect haddress
            omega
          have htile : attempt (·.cost) (LIRMem.defaultTile addressTile (k + 1))
              (LIRMem.arrAccessTile address (k₁ + 1)) =
              ⟨⟨[builderComment, .MOV (.registerDest (freshRegister (k₁ + 1))) (.memorySrc m)], 1⟩,
                freshRegister (k₁ + 1)⟩ := by
            rw [LIRMem.arrAccessTile, hdetect]
            exact if_pos hcheap
          rw [htile, allFit_builder, allFit_mem rfl, detected_fits_iff hdetect,
            loads_of_detected hdetect]
          simp
      · exact fun l hl => hname ⟨l, hl⟩
  | op o left right ihl ihr =>
    simp only [LIRExpr.optimalTile, Option.bind_eq_bind, Option.bind_eq_some_iff, Option.some.injEq,
      Prod.mk.injEq, Prod.exists] at h
    obtain ⟨leftTile, k₁, hleft, rightTile, k₂, hright, rfl, -⟩ := h
    have hop := (operation_fits o leftTile.outputRegister rightTile.outputRegister (k₂ + 1)).1
    simp only [LIROp.defaultTile, List.cons_append, allFit_builder, allFit_append, hop, ihl hleft,
      ihr hright, loads, List.forall_mem_append, and_true]

/-- The tiles of a list of expressions have fitting displacements when the addresses they load from fit. -/
theorem optimalTiles_allFit {es : List LIRExpr} {k k' : ℕ} {ts : List Tile.Expr}
    (h : optimalTiles es k = some (ts, k')) :
    ts.length = es.length ∧
      ((∀ t ∈ ts, AllFit t.instructions) ↔ ∀ a ∈ es.flatMap LIRExpr.loads, a.Fits) := by
  induction es generalizing k ts with
  | nil =>
    cases h
    simp
  | cons e es ih =>
    obtain ⟨⟨t, k₁⟩, ht, h⟩ := Option.bind_eq_some_iff.mp h
    obtain ⟨⟨ts', k₂⟩, hts, h⟩ := Option.bind_eq_some_iff.mp h
    cases h
    obtain ⟨hlength, hfits⟩ := ih hts
    refine ⟨by simp [hlength], ?_⟩
    rw [List.forall_mem_cons, hfits, LIRExpr.optimalTile_allFit e ht, List.flatMap_cons,
      List.forall_mem_append]

/-- The condition over a list of pieces. -/
theorem allFit_flatMap {α : Type} {xs : List α} {f : α → List Instruction} :
    AllFit (xs.flatMap f) ↔ ∀ x ∈ xs, AllFit (f x) := by
  induction xs with
  | nil => simp [AllFit, displacements]
  | cons x xs ih => rw [List.flatMap_cons, allFit_append, ih, List.forall_mem_cons]

/-- A move has fitting displacements when its addresses fit. -/
theorem LIRMove.optimalTile_allFit {dest expr : LIRExpr} {k k' : ℕ} {t : Tile}
    (h : LIRMove.optimalTile dest expr k = some (t, k')) :
    AllFit t.instructions ↔ ∀ e ∈ (FlatStmt.move dest expr).addresses, e.Fits := by
  obtain ⟨⟨srcTile, k₁⟩, hsrc, h⟩ := Option.bind_eq_some_iff.mp h
  obtain ⟨⟨tile, k₂⟩, hdefault, h⟩ := Option.bind_eq_some_iff.mp h
  have hloads := LIRExpr.optimalTile_allFit expr hsrc
  -- what the address hack replaces depends on the destination: it needs a temporary
  cases dest with
  | const | name | op => cases hdefault
  | temp x =>
    cases hdefault
    cases h
    have hmov : AllFit [.MOV (.registerDest (.abstract x)) (.registerSrc srcTile.outputRegister)] :=
      allFit_of_nil rfl
    simp only [FlatStmt.addresses, List.forall_mem_cons]
    cases hdetect : detectMemoryFriendly expr with
    | some m =>
      -- a detected address always costs less than the computed one, so the hack wins
      have hcheap : 1 < 1 + srcTile.cost := by
        have := cost_pos_of_detected hdetect hsrc
        omega
      have hzero : zeroTile (.temp x) expr = none := by
        cases expr with
        | op => rfl
        | _ => cases hdetect
      simp only [hzero, addressHack, hdetect, incOrDec, attempt, Option.map_some, if_pos hcheap,
        allFit_builder, loads_of_detected hdetect, ← detected_fits_iff hdetect]
      rw [allFit_mem (m := m) rfl]
      simp
    | none =>
      simp only [addressHack, hdetect, incOrDec, attempt, Option.map_none,
        fits_of_not_detected hdetect, true_and]
      cases hzero : zeroTile (.temp x) expr with
      | none =>
        simp only [List.cons_append, allFit_builder, allFit_append, hmov, and_true]
        exact hloads
      | some zero =>
        unfold zeroTile at hzero
        split at hzero
        · split_ifs at hzero
          cases hzero
          cases hsrc
          exact iff_of_true (allFit_of_nil rfl) (by simp [LIRExpr.loads])
        · cases hzero
  | mem address =>
    have hzero : zeroTile (.mem address) expr = none := rfl
    cases h
    simp only [hzero, addressHack, incOrDec, attempt, FlatStmt.addresses, List.forall_mem_append]
    -- a store to a label, or through the register of the address, with displacement 0
    unfold defaultTile at hdefault
    split at hdefault
    · rename_i l haddress
      cases haddress
      cases hdefault
      have hmov : AllFit [.MOV (.memoryDest (.labelMem l)) (.registerSrc srcTile.outputRegister)] :=
        allFit_of_nil rfl
      simp only [List.cons_append, allFit_builder, allFit_append, hmov, and_true, hloads]
      simp [LIRExpr.loads]
    · rename_i hname haddress
      cases haddress
      obtain ⟨⟨destTile, k₃⟩, hdest, hdefault⟩ := Option.bind_eq_some_iff.mp hdefault
      cases hdefault
      have hmov : AllFit [.MOV (.memoryDest (.registerMem (some destTile.outputRegister) none 0 .ONE))
          (.registerSrc srcTile.outputRegister)] := by
        intro d hd
        rw [List.mem_singleton.mp hd]
        exact fits_zero
      simp only [List.cons_append, allFit_builder, allFit_append, hmov, and_true, hloads,
        LIRExpr.optimalTile_allFit _ hdest]
    · rename_i haddress
      cases haddress
    · cases hdefault

/-- The test and the jump add no displacement. -/
theorem LIRTrueJump.zeroJump_allFit (jump : Jump) (tile : Tile.Expr) (l : String) :
    AllFit (zeroJump jump tile l).instructions ↔ AllFit tile.instructions := by
  have hcmp : AllFit [.CMP (.registerDest tile.outputRegister) (.constSrc 0), .jump jump l] :=
    allFit_of_nil rfl
  simp only [zeroJump, List.cons_append, allFit_builder, allFit_append, hcmp, and_true]

/-- A jump has fitting displacements when the loads of its guard fit. -/
theorem LIRTrueJump.optimalTile_allFit {guard : LIRExpr} {l : String} {k k' : ℕ} {t : Tile}
    (h : LIRTrueJump.optimalTile guard l k = some (t, k')) :
    AllFit t.instructions ↔ ∀ e ∈ guard.loads, e.Fits := by
  obtain ⟨⟨guardTile, k₁⟩, hguard, h⟩ := Option.bind_eq_some_iff.mp h
  obtain ⟨⟨exprGuardTile, zeroTile⟩, hop, h⟩ := Option.bind_eq_some_iff.mp h
  cases h
  let P (t : Tile) : Prop := AllFit t.instructions ↔ ∀ e ∈ guard.loads, e.Fits
  have hdefault : P (defaultTile guardTile l) := by
    have htest : AllFit [.TEST guardTile.outputRegister guardTile.outputRegister, .jump .JNZ l] :=
      allFit_of_nil rfl
    simp only [P, defaultTile, List.cons_append, allFit_builder, allFit_append, htest, and_true]
    exact LIRExpr.optimalTile_allFit guard hguard
  have hops : (∀ t, exprGuardTile = some t → P t) ∧ ∀ t, zeroTile = some t → P t := by
    cases guard with
    | op o left right =>
      obtain ⟨⟨leftTile, k₂⟩, hleft, hop⟩ := Option.bind_eq_some_iff.mp hop
      obtain ⟨⟨rightTile, k₃⟩, hright, hop⟩ := Option.bind_eq_some_iff.mp hop
      cases hop
      have hl := LIRExpr.optimalTile_allFit left hleft
      have hr := LIRExpr.optimalTile_allFit right hright
      simp only [P, LIRExpr.loads, List.forall_mem_append]
      constructor
      · intro t ht
        obtain ⟨jump, -, rfl⟩ := Option.map_eq_some_iff.mp ht
        have hcmp : AllFit [.CMP (.registerDest leftTile.outputRegister)
            (.registerSrc rightTile.outputRegister), .jump jump l] := allFit_of_nil rfl
        simp only [List.cons_append, allFit_builder, allFit_append, hl, hr, hcmp, and_true]
      · intro t ht
        -- the operand that is left out is a constant, which loads nothing
        unfold zeroNotZero at ht
        split at ht
        · split_ifs at ht with hzero hzero
          · cases ht
            simp [hzero, LIRExpr.loads, zeroJump_allFit, hr]
          · cases ht
            simp [hzero, LIRExpr.loads, zeroJump_allFit, hl]
        · split_ifs at ht with hzero hzero
          · cases ht
            simp [hzero, LIRExpr.loads, zeroJump_allFit, hr]
          · cases ht
            simp [hzero, LIRExpr.loads, zeroJump_allFit, hl]
        · cases ht
    | _ =>
      cases hop
      exact ⟨by simp, by simp⟩
  have hconst : ∀ v t, guard = .const v → displacements t.instructions = [] → P t := by
    rintro v t rfl ht
    exact iff_of_true (allFit_of_nil ht) (by simp [LIRExpr.loads])
  have hexpr := attempt_of (P := P) (fun t => t.cost) hdefault exprGuardTile hops.1
  have hzero := attempt_of (P := P) (fun t => t.cost) hexpr zeroTile hops.2
  have htrue := attempt_of (P := P) (fun t => t.cost) hzero (alwaysTrue guard l) fun t ht => by
    unfold alwaysTrue at ht
    split_ifs at ht with hguard
    cases ht
    exact hconst 1 _ hguard rfl
  exact attempt_of (P := P) (fun t => t.cost) htrue (alwaysFalse guard) fun t ht => by
    unfold alwaysFalse at ht
    split_ifs at ht with hguard
    cases ht
    exact hconst 0 _ hguard rfl

/-- An argument is put where it is passed without a displacement. -/
theorem putArg_fits (n i : ℕ) (r : Register) : AllFit [ConventionalCaller.putArg n i r] := by
  apply allFit_of_nil
  unfold ConventionalCaller.putArg
  split <;> rfl

/-- A result is popped or moved from a register. -/
theorem getReturn_displacements (i : ℕ) : (ConventionalCaller.getReturn i).displacements = [] := by
  unfold ConventionalCaller.getReturn
  split <;> rfl

/-- Instructions that are there on a condition. -/
theorem allFit_ite {c : Prop} [Decidable c] {xs : List Instruction} :
    AllFit (if c then xs else []) ↔ (c → AllFit xs) := by
  split_ifs with hc
  · exact ⟨fun h _ => h, fun h => h hc⟩
  · exact iff_of_true (allFit_of_nil rfl) fun h => absurd h hc

/-- What holds of the elements of a list holds of the numbered ones. -/
theorem forall_mem_zipIdx {α : Type} {P : α → Prop} (xs : List α) :
    (∀ p ∈ xs.zipIdx, P p.1) ↔ ∀ x ∈ xs, P x := by
  rw [← List.forall_mem_map (f := Prod.fst) (P := P), List.zipIdx_map_fst]

/-- A call has fitting displacements when the loads of its arguments fit. -/
theorem LIRCallStmt.optimalTile_allFit {target : String} {n_returns : ℕ} {args : List LIRExpr} {k k' : ℕ}
    {t : Tile} (h : LIRCallStmt.optimalTile target n_returns args k = some (t, k')) :
    AllFit t.instructions ↔ ∀ e ∈ args.flatMap LIRExpr.loads, e.Fits := by
  obtain ⟨⟨tiles, k₁⟩, htiles, h⟩ := Option.bind_eq_some_iff.mp h
  cases h
  obtain ⟨-, hfits⟩ := optimalTiles_allFit htiles
  have hreturns : AllFit ((List.range n_returns).map fun i => ConventionalCaller.getReturn (i + 1)) := by
    apply allFit_of_nil
    simp [displacements, List.flatMap_map, getReturn_displacements]
  have hnone : ∀ xs : List Instruction, displacements xs = [] → (AllFit xs ↔ True) :=
    fun xs h => iff_true_intro (allFit_of_nil h)
  simp only [allFit_append, allFit_ite, hreturns, allFit_flatMap, putArg_fits, and_true]
  rw [hnone [builderComment, .CALLERSAVEPUSH] rfl, hnone [.COMMENT "adding padding", .PAD] rfl,
    hnone [.CALL target] rfl, hnone [.CALLERSAVEPOP] rfl, hnone [.arith .SUB _ _, .MOV _ _] rfl,
    hnone [.COMMENT "THIS REMOVES THE EXTRA ARGS FROM THE STACK", _] rfl,
    hnone [.COMMENT "removing padding", _] rfl]
  simp only [implies_true, true_and, and_true]
  rw [forall_mem_zipIdx (P := fun t : Tile.Expr => AllFit t.instructions), hfits]
  simp [List.mem_flatMap]

/-- The numbered elements from one on. -/
theorem mem_drop_zipIdx {α : Type} {xs : List α} {n i : ℕ} {x : α} :
    (x, i) ∈ xs.zipIdx.drop n ↔ n ≤ i ∧ xs[i]? = some x := by
  simp only [List.mem_iff_getElem?, List.getElem?_drop, List.getElem?_zipIdx, Nat.zero_add,
    Option.map_eq_some_iff, Prod.mk.injEq]
  constructor
  · rintro ⟨j, y, hy, rfl, rfl⟩
    exact ⟨Nat.le_add_right n j, hy⟩
  · rintro ⟨hle, hx⟩
    obtain ⟨j, rfl⟩ := Nat.exists_eq_add_of_le hle
    exact ⟨j, x, hx, rfl, rfl⟩

/-- The offsets at which a return stores fit up to the one of value `2 ^ 28 + 2`. -/
theorem fits_offset {i : ℕ} (h2 : 2 ≤ i) (hi : i < 2 ^ 28 + 2) :
    FitsDisplacement (8 * (BitVec.ofNat 64 i - 2)) := by
  obtain ⟨j, rfl⟩ := Nat.exists_eq_add_of_le h2
  have hsub : BitVec.ofNat 64 (2 + j) - 2 = BitVec.ofNat 64 j := by
    rw [BitVec.ofNat_add]
    exact add_sub_cancel_left _ _
  have hnat : (8 * BitVec.ofNat 64 j).toNat = 8 * j := by
    rw [BitVec.toNat_mul, BitVec.toNat_ofNat, show (8 : BitVec 64).toNat = 8 from rfl]
    omega
  rw [hsub, FitsDisplacement, BitVec.toInt_eq_toNat_cond, hnat]
  split_ifs <;> omega

/-- A return has when its loads fit, and when the place of its last value can be written as a displacement. -/
theorem LIRReturn.optimalTile_allFit {valList : List LIRExpr} {k k' : ℕ} {t : Tile}
    (h : LIRReturn.optimalTile valList k = some (t, k')) :
    AllFit t.instructions ↔
      (∀ e ∈ valList.flatMap LIRExpr.loads, e.Fits) ∧ valList.length ≤ 2 ^ 28 + 2 := by
  obtain ⟨⟨tiles, k₁⟩, htiles, h⟩ := Option.bind_eq_some_iff.mp h
  cases h
  obtain ⟨hlength, hfits⟩ := optimalTiles_allFit htiles
  have hregisters : AllFit (((tiles.take 2).zip [x86Name.RAX, .RDX]).map fun (tile, reg) =>
      Instruction.MOV (.registerDest (.x86 reg)) (.registerSrc tile.outputRegister)) := by
    apply allFit_of_nil
    simp [displacements, List.flatMap_map, Instruction.displacements, Destination.displacements,
      Source.displacements]
  have hend : AllFit [.LEAVE, .RET] := allFit_of_nil rfl
  simp only [List.cons_append, allFit_builder, allFit_append, hregisters, hend, and_true, allFit_flatMap,
    hfits]
  refine and_congr_right fun _ => ?_
  rw [← hlength]
  constructor
  · intro hall
    by_contra hmany
    -- the value number `2 ^ 28 + 2` is stored `2 ^ 31` bytes behind the first
    have hlt : 2 ^ 28 + 2 < tiles.length := by omega
    have hmem : (tiles[2 ^ 28 + 2], 2 ^ 28 + 2) ∈ tiles.zipIdx.drop 2 :=
      mem_drop_zipIdx.mpr ⟨Nat.le_add_left _ _, List.getElem?_eq_getElem hlt⟩
    have hbad := hall (8 * (BitVec.ofNat 64 (2 ^ 28 + 2) - 2)) (by
      rw [displacements, List.mem_flatMap]
      refine ⟨_, List.mem_map.mpr ⟨_, List.mem_reverse.mpr hmem, rfl⟩, ?_⟩
      exact List.mem_append_left _ (List.mem_singleton_self _))
    exact absurd hbad.2 (by decide)
  · intro hfew d hd
    rw [displacements, List.mem_flatMap] at hd
    obtain ⟨insn, hinsn, hd⟩ := hd
    obtain ⟨⟨tile, i⟩, hmem, rfl⟩ := List.mem_map.mp hinsn
    obtain ⟨hle, htile⟩ := mem_drop_zipIdx.mp (List.mem_reverse.mp hmem)
    have hlt := (List.getElem?_eq_some_iff.mp htile).1
    simp only [Instruction.displacements, Destination.displacements, Source.displacements,
      Memory.displacements, List.append_nil, List.mem_singleton] at hd
    rw [hd]
    exact fits_offset hle (by omega)

/-- The displacements in the tile of a statement fit exactly when the statement does. -/
theorem FlatStmt.optimalTile_allFit {stmt : FlatStmt} {k k' : ℕ} {t : Tile}
    (h : stmt.optimalTile k = some (t, k')) : AllFit t.instructions ↔ stmt.Fits := by
  unfold FlatStmt.Fits
  cases stmt with
  | endBlock e =>
    cases e with
    | jump l =>
      cases h
      exact iff_of_true (allFit_of_nil rfl) (by simp [addresses])
    | cjump => cases h
    | trueJump guard l =>
      rw [LIRTrueJump.optimalTile_allFit h]
      simp [addresses]
    | ret valList =>
      rw [LIRReturn.optimalTile_allFit h]
      simp [addresses]
  | callStmt target n_returns args =>
    rw [LIRCallStmt.optimalTile_allFit h]
    simp [addresses]
  | label l =>
    cases h
    exact iff_of_true (allFit_of_nil rfl) (by simp [addresses])
  | move dest expr =>
    rw [LIRMove.optimalTile_allFit h]
    simp

/-- A block has when each of its statements has. -/
theorem LIRSeq.tiles_allFit {block : List FlatStmt} {k k' : ℕ} {ts : List Tile}
    (h : LIRSeq.tiles block k = some (ts, k')) :
    (∀ t ∈ ts, AllFit t.instructions) ↔ ∀ stmt ∈ block, stmt.Fits := by
  induction block generalizing k ts with
  | nil =>
    cases h
    simp
  | cons stmt block ih =>
    obtain ⟨⟨t, k₁⟩, ht, h⟩ := Option.bind_eq_some_iff.mp h
    obtain ⟨⟨ts', k₂⟩, hts, h⟩ := Option.bind_eq_some_iff.mp h
    cases h
    rw [List.forall_mem_cons, ih hts, FlatStmt.optimalTile_allFit ht, List.forall_mem_cons]

end Tiles

/-- The displacements in the tile of a function body fit in 32 bits exactly when in each statement the
constants of the addresses do, and no return has more than `2 ^ 28 + 2` values. -/
theorem optimalTile_displacements {block : List FlatStmt} {k k' : ℕ} {t : Tile}
    (h : LIRSeq.optimalTile block k = some (t, k')) :
    (∀ insn ∈ t.instructions, ∀ d ∈ insn.displacements, -2 ^ 31 ≤ d.toInt ∧ d.toInt < 2 ^ 31) ↔
      ∀ stmt ∈ block, stmt.Fits := by
  obtain ⟨⟨tiles, k₁⟩, htiles, h⟩ := Option.bind_eq_some_iff.mp h
  cases h
  rw [← LIRSeq.tiles_allFit htiles, ← allFit_flatMap, ← allFit_builder]
  simp only [AllFit, displacements, List.mem_flatMap, FitsDisplacement]
  exact ⟨fun h d ⟨insn, hinsn, hd⟩ => h insn hinsn d hd, fun h insn hinsn d hd => h d ⟨insn, hinsn, hd⟩⟩

/-- `y = x + 8`, where all displacements fit. -/
theorem optimalTile_displacements_small : ∃ t k',
    LIRSeq.optimalTile [.move (.temp "y") (.op .ADD (.temp "x") (.const 8))] 0 = some (t, k') ∧
    ((∀ insn ∈ t.instructions, ∀ d ∈ insn.displacements, -2 ^ 31 ≤ d.toInt ∧ d.toInt < 2 ^ 31) ↔
      ∀ stmt ∈ [FlatStmt.move (.temp "y") (.op .ADD (.temp "x") (.const 8))], stmt.Fits) :=
  ⟨_, _, rfl, optimalTile_displacements rfl⟩

/-- `y = x + 5000000000`: from the syntax tree to the tile, a `LEA` whose displacement does not fit. -/
theorem displacement_literal : ¬ ∀ (tables : IRTranslator.Tables) (fn : String)
    (e : AST.Expr IRTranslator.Typed) c ir c' (y : String) (block : List FlatStmt) k (t : Tile) k',
    IRTranslator.translateExpr tables fn e c = some (ir, c') →
    IRLowerer.lowerStatement tables.globals (.move (.temp y) ir) 0 = some (block, k) →
    LIRSeq.optimalTile block 0 = some (t, k') →
    ∀ insn ∈ t.instructions, ∀ d ∈ insn.displacements, -2 ^ 31 ≤ d.toInt ∧ d.toInt < 2 ^ 31 := by
  intro h
  let tables : IRTranslator.Tables := ⟨⟨[], List.nodup_nil⟩, [], ⟨[], List.nodup_nil⟩⟩
  let sum : LIRExpr := .op .ADD (.temp "x") (.const 5000000000)
  have htile : ∃ t k', LIRSeq.tiles [.move (.temp "y") sum] 0 = some (t, k') := ⟨_, _, rfl⟩
  obtain ⟨ts, k', hts⟩ := htile
  have hall := h tables "_If_i"
    (.binaryOp (some .intType) .PLUS (.identifier (some .intType) "x") (.intLit (some .intType) 5000000000))
    (.start 0 0) _ _ "y" [.move (.temp "y") sum] _ ⟨builderComment :: ts.flatMap (·.instructions), _⟩ k' rfl rfl
    (by rw [LIRSeq.optimalTile, hts]; rfl)
  have haddress : sum.AddressWith 5000000000 := ⟨[.temp "x"], .temp "x", List.Perm.swap ..⟩
  have hfits : ∀ t ∈ ts, AllFit t.instructions := by
    intro t ht d hd
    obtain ⟨insn, hinsn, hd⟩ := List.mem_flatMap.mp hd
    exact hall insn (List.mem_cons_of_mem _ (List.mem_flatMap.mpr ⟨t, ht, hinsn⟩)) d hd
  have hmove := (LIRSeq.tiles_allFit hts).mp hfits _ (List.mem_singleton_self _)
  exact absurd (hmove.1 sum List.mem_cons_self 5000000000 haddress).2 (by decide)

end Jaek
