import Jaek.Lowered.LIR
import Jaek.Assembly.Instruction

/-!
# Tiles of expressions, moves and conditional jumps

`optimalTile` of `LIRExpr`, `LIRMove` and `LIRTrueJump` with all the tiles they try. A tile is memoised
in its node, so a node is tiled once and tiles of one node share the tiles of its children.

The companion counter of `Abstract.freshRegister` is threaded as a number. `none` is an exception: a
name has no tile of its own, and a move goes to a temp or to memory. The comment a `TileBuilder` starts
with prints the node through an external library; here it is a fixed text.
-/

namespace Jaek

/-- `Tile.Regular`: the code of a statement. Costs are sums over a node and never negative. -/
structure Tile where
  instructions : List Instruction
  cost : ℕ

/-- The code of an expression and the register that holds its value. -/
structure Tile.Expr extends Tile where
  outputRegister : Register

/-- The name `freshRegister` hands out when its counter reaches `k`. -/
def freshName (k : ℕ) : String := "$A" ++ toString k

def freshRegister (k : ℕ) : Register := .abstract (freshName k)

/-- The comment a `TileBuilder` starts with. -/
def builderComment : Instruction := .COMMENT "[IR]"

/-- `attempt`: take a tile that is cheaper than the best one so far. -/
def attempt {T : Type} (cost : T → ℕ) (best : T) : Option T → T
  | some tile => if cost tile < cost best then tile else best
  | none => best

/-! ## Addressing modes -/

def convertToShift (n : Word) : Option Shift :=
  if n = 1 then some .ONE
  else if n = 2 then some .TWO
  else if n = 4 then some .FOUR
  else if n = 8 then some .EIGHT
  else none

/-- The operand `[v * t]`. -/
def detectMFFactors (left right : LIRExpr) : Option Memory :=
  match left, right with
  | .const v, .temp t =>
    (convertToShift v).map fun shift => .registerMem none (some (.abstract t)) 0 shift
  | .temp t, .const v =>
    (convertToShift v).map fun shift => .registerMem none (some (.abstract t)) 0 shift
  | _, _ => none

/-- What `detectMFAddends` has collected from a tree of additions. -/
structure Addends where
  validScale : Option Word := none
  scaled : Option String := none
  const : Option Word := none
  addedTemps : List String := []

/-- The size of an expression. -/
def LIRExpr.size : LIRExpr → ℕ
  | const _ => 1
  | temp _ => 1
  | name _ => 1
  | mem address => address.size + 1
  | op _ left right => left.size + right.size + 1

/-- The loop of `detectMFAddends` over its queue. -/
def detectMFAddends.loop : List LIRExpr → Addends → Option Addends
  | [], a => some a
  | .const c :: queue, a =>
    if a.const.isSome then none else loop queue { a with const := some c }
  | .temp t :: queue, a => loop queue { a with addedTemps := a.addedTemps ++ [t] }
  | .op .ADD left right :: queue, a => loop (queue ++ [left, right]) a
  | .op .MUL left right :: queue, a =>
    if a.validScale.isSome || a.scaled.isSome then none
    else
      match left, right with
      | .const v, .temp t => loop queue { a with validScale := some v, scaled := some t }
      | .temp t, .const v => loop queue { a with validScale := some v, scaled := some t }
      | _, _ => none
  | .op _ _ _ :: _, _ => none
  | .mem _ :: _, _ => none
  | .name _ :: _, _ => none
termination_by queue => (queue.map LIRExpr.size).sum
decreasing_by all_goals simp [LIRExpr.size]; try omega

/-- The operand the collected addends fit into. -/
def Addends.memory (a : Addends) : Option Memory :=
  match a.addedTemps, a.validScale, a.scaled, a.const with
  | [t1, t2], none, none, none =>
    some (.registerMem (some (.abstract t1)) (some (.abstract t2)) 0 .ONE)
  | [t1], some v, some t2, none =>
    (convertToShift v).map (.registerMem (some (.abstract t1)) (some (.abstract t2)) 0)
  | [t1], none, none, some c => some (.registerMem (some (.abstract t1)) none c .ONE)
  | [t1, t2], none, none, some c =>
    some (.registerMem (some (.abstract t1)) (some (.abstract t2)) c .ONE)
  | [t1], some v, some t2, some c =>
    (convertToShift v).map (.registerMem (some (.abstract t1)) (some (.abstract t2)) c)
  | [], some v, some t2, some c =>
    (convertToShift v).map (.registerMem none (some (.abstract t2)) c)
  | _, _, _, _ => none

def detectMFAddends (left right : LIRExpr) : Option Memory :=
  (detectMFAddends.loop [left, right] {}).bind Addends.memory

/-- A memory operand whose address is the value of an expression. -/
def detectMemoryFriendly : LIRExpr → Option Memory
  | .op .ADD left right => detectMFAddends left right
  | .op .MUL left right => detectMFFactors left right
  | _ => none

/-! ## Expressions -/

namespace LIROp

/-- `zeroAndCmp` behind the operands, and the `SETcc` of a comparison. -/
def compare (op : JumpSet) (left right out : Register) (outName : String) : List Instruction :=
  [.logic .XOR (.registerDest out) (.registerSrc out),
    .CMP (.registerDest left) (.registerSrc right),
    .jumpSet op (.abstract outName 8)]

/-- Copy the left operand and apply a two-operand instruction to the copy. -/
def copyAnd (insn : Destination → Source → Instruction) (left right out : Register) :
    List Instruction :=
  [.MOV (.registerDest out) (.registerSrc left), insn (.registerDest out) (.registerSrc right)]

/-- Sign-extend the left operand, divide, and take `result`. -/
def divide (result : x86Name) (left right out : Register) : List Instruction :=
  [.MOV (.registerDest (.x86 .RAX)) (.registerSrc left), .CQO, .DIV right,
    .MOV (.registerDest out) (.registerSrc (.x86 result))]

/-- The cost of an operator and its instructions behind those of the operands. The output register is
number `k` of the fresh ones. -/
def operation (op : OpType) (left right : Register) (k : ℕ) : ℕ × List Instruction :=
  let out := freshRegister k
  match op with
  | .ADD => (2, copyAnd (.arith .ADD) left right out)
  | .SUB => (2, copyAnd (.arith .SUB) left right out)
  | .MUL => (2, copyAnd (.arith .MUL) left right out)
  | .HMUL => (3,
    [.MOV (.registerDest (.x86 .RAX)) (.registerSrc right), .IMULSingle left,
      .MOV (.registerDest out) (.registerSrc (.x86 .RDX))])
  | .DIV => (4, divide .RAX left right out)
  | .MOD => (4, divide .RDX left right out)
  | .AND => (2, copyAnd (.logic .AND) left right out)
  | .OR => (2, copyAnd (.logic .OR) left right out)
  | .XOR => (2, copyAnd (.logic .XOR) left right out)
  | .LSHIFT => (2, copyAnd (.logic .SHL) left right out)
  | .RSHIFT => (2, copyAnd (.logic .SHR) left right out)
  | .ARSHIFT => (2, copyAnd (.logic .SAR) left right out)
  | .EQ => (3, compare .SETZ left right out (freshName k))
  | .NEQ => (3, compare .SETNZ left right out (freshName k))
  | .LT => (3, compare .SETL left right out (freshName k))
  | .ULT => (3, compare .SETB left right out (freshName k))
  | .GT => (3, compare .SETG left right out (freshName k))
  | .LEQ => (3, compare .SETLE left right out (freshName k))
  | .GEQ => (3, compare .SETGE left right out (freshName k))

/-- The tile of an operator over the tiles of its operands. -/
def defaultTile (op : OpType) (leftTile rightTile : Tile.Expr) (k : ℕ) : Tile.Expr where
  instructions := builderComment :: leftTile.instructions ++ rightTile.instructions ++
    (operation op leftTile.outputRegister rightTile.outputRegister k).2
  cost := (operation op leftTile.outputRegister rightTile.outputRegister k).1 + leftTile.cost +
    rightTile.cost
  outputRegister := freshRegister k

end LIROp

namespace LIRMem

/-- The tile of a global; its register is number `k`. -/
def labelTile (l : String) (k : ℕ) : Tile.Expr where
  instructions := [builderComment,
    .MOV (.registerDest (freshRegister k)) (.memorySrc (.labelMem l))]
  cost := 1
  outputRegister := freshRegister k

/-- The tile that loads from a computed address. -/
def defaultTile (addressTile : Tile.Expr) (k : ℕ) : Tile.Expr where
  instructions := builderComment :: addressTile.instructions ++
    [.MOV (.registerDest (freshRegister k))
      (.memorySrc (.registerMem (some addressTile.outputRegister) none 0 .ONE))]
  cost := 1 + addressTile.cost
  outputRegister := freshRegister k

/-- The tile that computes the address in the operand. -/
def arrAccessTile (address : LIRExpr) (k : ℕ) : Option Tile.Expr :=
  (detectMemoryFriendly address).map fun smartAccess =>
    { instructions := [builderComment,
        .MOV (.registerDest (freshRegister k)) (.memorySrc smartAccess)]
      cost := 1
      outputRegister := freshRegister k }

end LIRMem

/-- The tile of an expression, with the register counter before and after. -/
def LIRExpr.optimalTile : LIRExpr → ℕ → Option (Tile.Expr × ℕ)
  | const value, k =>
    some (⟨⟨[.MOV (.registerDest (freshRegister (k + 1))) (.constSrc value)], 1⟩,
      freshRegister (k + 1)⟩, k + 1)
  | temp x, k => some (⟨⟨[], 0⟩, .abstract x⟩, k)
  | name _, _ => none
  | mem (name l), k =>
    some (attempt (·.cost) (LIRMem.labelTile l (k + 1)) (LIRMem.arrAccessTile (name l) (k + 2)),
      k + 2)
  | mem address, k => do
    let (addressTile, k') ← address.optimalTile (k + 1)
    some (attempt (·.cost) (LIRMem.defaultTile addressTile (k + 1))
      (LIRMem.arrAccessTile address (k' + 1)), k' + 1)
  | op o left right, k => do
    let (leftTile, k) ← left.optimalTile k
    let (rightTile, k) ← right.optimalTile k
    some (LIROp.defaultTile o leftTile rightTile (k + 1), k + 1)

/-! ## Moves -/

namespace LIRMove

/-- The tile of a move behind the tile of its source. -/
def defaultTile (dest : LIRExpr) (srcTile : Tile.Expr) (k : ℕ) : Option (Tile × ℕ) :=
  match dest with
  | .mem (.name l) =>
    some (⟨builderComment :: srcTile.instructions ++
      [.MOV (.memoryDest (.labelMem l)) (.registerSrc srcTile.outputRegister)],
      1 + srcTile.cost⟩, k)
  | .mem address => do
    let (destTile, k) ← address.optimalTile k
    some (⟨builderComment :: srcTile.instructions ++ destTile.instructions ++
      [.MOV (.memoryDest (.registerMem (some destTile.outputRegister) none 0 .ONE))
        (.registerSrc srcTile.outputRegister)],
      1 + srcTile.cost + destTile.cost⟩, k)
  | .temp x =>
    some (⟨builderComment :: srcTile.instructions ++
      [.MOV (.registerDest (.abstract x)) (.registerSrc srcTile.outputRegister)],
      1 + srcTile.cost⟩, k)
  | _ => none

/-- A move of zero to a temp. -/
def zeroTile (dest expr : LIRExpr) : Option Tile :=
  match dest, expr with
  | .temp x, .const value =>
    if value = 0 then
      some ⟨[builderComment,
        .logic .XOR (.registerDest (.abstract x)) (.registerSrc (.abstract x))], 1⟩
    else none
  | _, _ => none

/-- `incOrDec` builds its tiles but returns `null` on every path. -/
def incOrDec (_dest _expr : LIRExpr) : Option Tile := none

/-- A move of an address-like value to a temp. -/
def addressHack (dest expr : LIRExpr) : Option Tile :=
  match dest with
  | .temp x => (detectMemoryFriendly expr).map fun smartAccess =>
    ⟨[builderComment, .LEA (.registerDest (.abstract x)) smartAccess], 1⟩
  | _ => none

/-- The tile of a move. -/
def optimalTile (dest expr : LIRExpr) (k : ℕ) : Option (Tile × ℕ) := do
  let (srcTile, k) ← expr.optimalTile k
  let (tile, k) ← defaultTile dest srcTile k
  let tile := attempt (·.cost) tile (zeroTile dest expr)
  let tile := attempt (·.cost) tile (incOrDec dest expr)
  let tile := attempt (·.cost) tile (addressHack dest expr)
  some (tile, k)

end LIRMove

/-! ## Conditional jumps -/

namespace LIRTrueJump

def defaultTile (guardTile : Tile.Expr) (trueBranch : String) : Tile where
  instructions := builderComment :: guardTile.instructions ++
    [.TEST guardTile.outputRegister guardTile.outputRegister, .jump .JNZ trueBranch]
  cost := 2 + guardTile.cost

/-- The jump of a comparison. -/
def compareJump : OpType → Option Jump
  | .EQ => some .JE
  | .NEQ => some .JNE
  | .LT => some .JL
  | .ULT => some .JB
  | .GT => some .JG
  | .LEQ => some .JLE
  | .GEQ => some .JGE
  | _ => none

/-- Compare the operands and jump. -/
def exprGuard (op : OpType) (leftTile rightTile : Tile.Expr) (trueBranch : String) : Option Tile :=
  (compareJump op).map fun jump =>
    ⟨builderComment :: leftTile.instructions ++ rightTile.instructions ++
      [.CMP (.registerDest leftTile.outputRegister) (.registerSrc rightTile.outputRegister),
        .jump jump trueBranch],
      2 + leftTile.cost + rightTile.cost⟩

/-- Compare one operand with zero and jump. -/
def zeroJump (jump : Jump) (tile : Tile.Expr) (trueBranch : String) : Tile :=
  ⟨builderComment :: tile.instructions ++
    [.CMP (.registerDest tile.outputRegister) (.constSrc 0), .jump jump trueBranch],
    2 + tile.cost⟩

/-- A guard that compares an operand with the constant zero. -/
def zeroNotZero (op : OpType) (left right : LIRExpr) (leftTile rightTile : Tile.Expr)
    (trueBranch : String) : Option Tile :=
  match op with
  | .EQ =>
    if left = .const 0 then some (zeroJump .JZ rightTile trueBranch)
    else if right = .const 0 then some (zeroJump .JZ leftTile trueBranch)
    else none
  | .NEQ =>
    if left = .const 0 then some (zeroJump .JNZ rightTile trueBranch)
    else if right = .const 0 then some (zeroJump .JNZ leftTile trueBranch)
    else none
  | _ => none

def alwaysTrue (guard : LIRExpr) (trueBranch : String) : Option Tile :=
  if guard = .const 1 then some ⟨[builderComment, .jump .JMP trueBranch], 1⟩ else none

def alwaysFalse (guard : LIRExpr) : Option Tile :=
  if guard = .const 0 then some ⟨[builderComment], 0⟩ else none

/-- The tiles `findBestTile` tries for an operator as guard. -/
def opTiles (guard : LIRExpr) (trueBranch : String) (k : ℕ) : Option (Option Tile × Option Tile) :=
  match guard with
  | .op o left right => do
    -- the tiles of the operands are those the tile of the guard was made of
    let (leftTile, k) ← left.optimalTile k
    let (rightTile, _) ← right.optimalTile k
    some (exprGuard o leftTile rightTile trueBranch,
      zeroNotZero o left right leftTile rightTile trueBranch)
  | _ => some (none, none)

/-- The tile of a conditional jump. -/
def optimalTile (guard : LIRExpr) (trueBranch : String) (k : ℕ) : Option (Tile × ℕ) := do
  let (guardTile, k') ← guard.optimalTile k
  let (exprGuard, zeroNotZero) ← opTiles guard trueBranch k
  let tile := attempt (·.cost) (defaultTile guardTile trueBranch) exprGuard
  let tile := attempt (·.cost) tile zeroNotZero
  let tile := attempt (·.cost) tile (alwaysTrue guard trueBranch)
  let tile := attempt (·.cost) tile (alwaysFalse guard)
  some (tile, k')

end LIRTrueJump

end Jaek
