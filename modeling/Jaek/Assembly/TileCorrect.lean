import Jaek.Assembly.AddressingMode

/-!
# Instruction selection is correct

The tile of an expression leaves the value of the expression in its output register and changes only
the fresh registers it draws, `RAX`, `RDX` and the flags (`Lands`). Every tile the selection tries has
this property, so the cheapest one has it too.
-/

namespace Jaek

/-- Names stand only directly under memory, and no temp is named like a register of a tile. -/
def LIRExpr.Tileable : LIRExpr → Prop
  | const _ => True
  | temp x => ∀ k, x ≠ freshName k
  | name _ => False
  | mem (name _) => True
  | mem address => address.Tileable
  | op _ left right => left.Tileable ∧ right.Tileable

/-- The destinations of a move. -/
def LIRExpr.TileableDest : LIRExpr → Prop
  | temp x => ∀ k, x ≠ freshName k
  | mem address => (mem address).Tileable
  | _ => False

/-- No division or remainder in the expression makes `IDIV` fault. -/
def LIRExpr.NoFault {M : Type*} (S : Storage M) (s : Store M) : LIRExpr → Prop
  | const _ => True
  | temp _ => True
  | name _ => True
  | mem address => address.NoFault S s
  | op o left right => left.NoFault S s ∧ right.NoFault S s ∧
    (o = .DIV ∨ o = .MOD → ∀ a b, left.eval S s = some a → right.eval S s = some b →
      b ≠ 0 ∧ ¬ (a = BitVec.intMin 64 ∧ b = -1))

/-- A state holds the temps and memory of a store, up to the fresh registers with numbers from `k + 1`
to `k'`, and its machine registers are those of `s`, up to `RAX` and `RDX`. -/
structure Lands (k k' : ℕ) (s : State) (st : Store Bytes) (s' : State) : Prop where
  abs : ∀ x, (∀ j, k < j → j ≤ k' → x ≠ freshName j) → s'.abs x = st.temps x
  mem : s'.mem = st.mem
  phys : ∀ r, r ≠ .RAX → r ≠ .RDX → s'.phys r = s.phys r

namespace Lands

variable {k k₁ k₂ : ℕ} {s s₁ s₂ : State} {st : Store Bytes}

/-- A state lands where it is. -/
theorem refl (k : ℕ) (s : State) : Lands k k s s.store s := ⟨fun _ _ => rfl, rfl, fun _ _ _ => rfl⟩

/-- Two pieces of code in a row. -/
theorem trans (hk : k ≤ k₁) (hk' : k₁ ≤ k₂) (h : Lands k k₁ s s.store s₁)
    (h' : Lands k₁ k₂ s₁ s₁.store s₂) : Lands k k₂ s s.store s₂ := by
  refine ⟨fun x hx => ?_, h'.mem.trans h.mem, fun r ha hd => ?_⟩
  · rw [h'.abs x fun j hj hj' => hx j (by omega) hj']
    exact h.abs x fun j hj hj' => hx j hj (by omega)
  · rw [h'.phys r ha hd, h.phys r ha hd]

/-- A wider range of fresh registers is a weaker claim. -/
theorem mono {k' k₁' : ℕ} (hk : k' ≤ k) (hk' : k₁ ≤ k₁') (h : Lands k k₁ s st s₁) :
    Lands k' k₁' s st s₁ :=
  ⟨fun x hx => h.abs x fun j hj hj' => hx j (by omega) (by omega), h.mem, h.phys⟩

/-- The flags may be anything. -/
theorem setFlags (h : Lands k k₁ s st s₁) (f : Flags) : Lands k k₁ s st (s₁.setFlags f) :=
  ⟨h.abs, h.mem, h.phys⟩

/-- Writing a fresh register in the range. -/
theorem set_fresh (h : Lands k k₁ s st s₁) {j : ℕ} (hj : k < j) (hj' : j ≤ k₁) (n : ℕ) (v : Word) :
    Lands k k₁ s st (s₁.set (.abstract (freshName j) n) v) := by
  refine ⟨fun x hx => ?_, h.mem, h.phys⟩
  show Function.update s₁.abs (freshName j) v x = st.temps x
  rw [Function.update_of_ne (hx j hj hj')]
  exact h.abs x hx

/-- `RAX` may be overwritten. -/
theorem set_RAX (h : Lands k k₁ s st s₁) (n : ℕ) (v : Word) :
    Lands k k₁ s st (s₁.set (.x86 .RAX n) v) := by
  refine ⟨h.abs, h.mem, fun r ha hd => ?_⟩
  show Function.update s₁.phys .RAX v r = s.phys r
  rw [Function.update_of_ne ha]
  exact h.phys r ha hd

/-- So may `RDX`. -/
theorem set_RDX (h : Lands k k₁ s st s₁) (n : ℕ) (v : Word) :
    Lands k k₁ s st (s₁.set (.x86 .RDX n) v) := by
  refine ⟨h.abs, h.mem, fun r ha hd => ?_⟩
  show Function.update s₁.phys .RDX v r = s.phys r
  rw [Function.update_of_ne hd]
  exact h.phys r ha hd

end Lands

/-- Different counts give different registers. -/
theorem freshName_inj {j k : ℕ} (h : freshName j = freshName k) : j = k := by
  have hrepr : toString j = toString k := by simpa [freshName] using h
  exact Nat.repr_inj.mp hrepr

/-! ## The value of an expression under a frame -/

section Frame

variable {L : String → Word} {s s' : State} {k k' : ℕ}

/-- Tiles do not change the values of expressions. -/
theorem LIRExpr.eval_lands {e : LIRExpr} (ht : e.Tileable) (h : Lands k k' s s.store s') :
    e.eval (Bytes.storage L) s'.store = e.eval (Bytes.storage L) s.store := by
  fun_induction Tileable e with
  | case1 => rfl
  | case2 x =>
    have hx : s'.abs x = s.abs x := h.abs x fun j _ _ => ht j
    simp [eval, State.store, hx]
  | case3 => exact ht.elim
  | case4 l => simp [eval, Bytes.storage, State.store, h.mem]
  | case5 address hname ih =>
    have hmem : s'.store.mem = s.store.mem := h.mem
    rw [eval, eval, ih ht, hmem]
  | case6 o left right ihl ihr => rw [eval, eval, ihl ht.1, ihr ht.2]

/-- An expression that does not fault does not fault after the code of another, which writes fresh registers
only. -/
theorem LIRExpr.noFault_lands {e : LIRExpr} (ht : e.Tileable) (h : Lands k k' s s.store s')
    (hf : e.NoFault (Bytes.storage L) s.store) : e.NoFault (Bytes.storage L) s'.store := by
  fun_induction Tileable e with
  | case1 => trivial
  | case2 => trivial
  | case3 => exact ht.elim
  | case4 => trivial
  | case5 address hname ih => exact ih ht hf
  | case6 o left right ihl ihr =>
    refine ⟨ihl ht.1 hf.1, ihr ht.2 hf.2.1, ?_⟩
    rw [eval_lands ht.1 h, eval_lands ht.2 h]
    exact hf.2.2

end Frame

/-! ## Operators -/

section Operation

variable (L : String → Word) {s : State} {x y : String} {k : ℕ}

/-- Copying an operand leaves the other one alone. -/
theorem run_copyAnd {insn : Destination → Source → Instruction} {f : Word → Word → Word}
    (hinsn : ∀ (r : Register) (x : String) (s : State), ∃ fl,
      exec L (insn (.registerDest r) (.registerSrc (.abstract x))) s =
        some ((s.set r (f (s.value r) (s.abs x))).setFlags fl))
    (hy : y ≠ freshName (k + 1)) :
    ∃ s', run L (LIROp.copyAnd insn (.abstract x) (.abstract y) (freshRegister (k + 1))) s =
        some (.next s') ∧
      s'.abs (freshName (k + 1)) = f (s.abs x) (s.abs y) ∧ Lands k (k + 1) s s.store s' := by
  let s₁ := s.set (freshRegister (k + 1)) (s.abs x)
  have hcopy : exec L (.MOV (.registerDest (freshRegister (k + 1))) (.registerSrc (.abstract x))) s =
      some s₁ := rfl
  have hout : s₁.value (freshRegister (k + 1)) = s.abs x := State.value_set_self _ _ _
  have hother : s₁.abs y = s.abs y := Function.update_of_ne hy _ _
  obtain ⟨fl, hexec⟩ := hinsn (freshRegister (k + 1)) y s₁
  rw [hout, hother] at hexec
  refine ⟨_, by rw [LIROp.copyAnd, run_cons hcopy, run_cons hexec, run], ?_, ?_⟩
  · exact Function.update_self _ _ _
  · apply Lands.setFlags
    apply Lands.set_fresh _ (by omega) (by omega)
    apply Lands.set_fresh _ (by omega) (by omega)
    exact (Lands.refl k s).mono le_rfl (by omega)

/-- Clearing the output, comparing and setting its low byte leaves the comparison as a word. -/
theorem run_compare (op : JumpSet) (hx : x ≠ freshName (k + 1)) (hy : y ≠ freshName (k + 1)) :
    ∃ s', run L (LIROp.compare op (.abstract x) (.abstract y) (freshRegister (k + 1))
        (freshName (k + 1))) s = some (.next s') ∧
      s'.abs (freshName (k + 1)) = boolWord (op.bit (.sub (s.abs x) (s.abs y))) ∧
      Lands k (k + 1) s s.store s' := by
  set out := freshRegister (k + 1) with hout
  let s₁ := (s.set out 0).setFlags (.logic 0)
  have hxor : exec L (.logic .XOR (.registerDest out) (.registerSrc out)) s = some s₁ := by
    show some ((s.set out (s.value out ^^^ s.value out)).setFlags
      (.logic (s.value out ^^^ s.value out))) = some s₁
    rw [BitVec.xor_self]
    rfl
  let s₂ := s₁.setFlags (.sub (s.abs x) (s.abs y))
  have hcmp : exec L (.CMP (.registerDest (.abstract x)) (.registerSrc (.abstract y))) s₁ =
      some s₂ := by
    have hleft : s₁.abs x = s.abs x := Function.update_of_ne hx _ _
    have hright : s₁.abs y = s.abs y := Function.update_of_ne hy _ _
    show some (s₁.setFlags (.sub (s₁.abs x) (s₁.abs y))) = some s₂
    rw [hleft, hright]
  let s₃ := s₂.setLow (.abstract (freshName (k + 1)) 8) (op.bit (.sub (s.abs x) (s.abs y)))
  have hset : exec L (.jumpSet op (.abstract (freshName (k + 1)) 8)) s₂ = some s₃ := rfl
  refine ⟨s₃, by rw [LIROp.compare, run_cons hxor, run_cons hcmp, run_cons hset, run], ?_, ?_⟩
  · have hzero : s₂.abs (freshName (k + 1)) = 0 := Function.update_self _ _ _
    have hlow : s₃.abs (freshName (k + 1)) =
        (s₂.abs (freshName (k + 1)) &&& 0xFFFFFFFFFFFFFF00) |||
          boolWord (op.bit (.sub (s.abs x) (s.abs y))) := Function.update_self _ _ _
    rw [hlow, hzero]
    simp
  · apply Lands.set_fresh _ (by omega) (by omega)
    apply Lands.setFlags
    apply Lands.setFlags
    apply Lands.set_fresh _ (by omega) (by omega)
    exact (Lands.refl k s).mono le_rfl (by omega)

/-- Sign extension, `IDIV` and a copy of the quotient or the remainder. -/
theorem run_divide {result : x86Name} {q r : Word}
    (hdiv : idiv (if (s.abs x).msb then -1 else 0) (s.abs x) (s.abs y) = some (q, r))
    (hresult : result = .RAX ∨ result = .RDX) :
    ∃ s', run L (LIROp.divide result (.abstract x) (.abstract y) (freshRegister (k + 1))) s =
        some (.next s') ∧
      s'.abs (freshName (k + 1)) = (if result = .RAX then q else r) ∧
      Lands k (k + 1) s s.store s' := by
  let s₁ := s.set (.x86 .RAX) (s.abs x)
  have hmov : exec L (.MOV (.registerDest (.x86 .RAX)) (.registerSrc (.abstract x))) s =
      some s₁ := rfl
  let s₂ := s₁.set (.x86 .RDX) (if (s.abs x).msb then -1 else 0)
  have hcqo : exec L .CQO s₁ = some s₂ := rfl
  let s₃ := (s₂.set (.x86 .RAX) q).set (.x86 .RDX) r
  have hidiv : exec L (.DIV (.abstract y)) s₂ = some s₃ := by
    have harg : idiv (s₂.phys .RDX) (s₂.phys .RAX) (s₂.value (.abstract y)) = some (q, r) := hdiv
    rw [exec, harg]
    rfl
  let s₄ := s₃.set (freshRegister (k + 1)) (s₃.phys result)
  have hout : exec L (.MOV (.registerDest (freshRegister (k + 1))) (.registerSrc (.x86 result))) s₃ =
      some s₄ := rfl
  refine ⟨s₄, ?_, ?_, ?_⟩
  · rw [LIROp.divide, run_cons hmov, run_cons hcqo, run_cons hidiv, run_cons hout, run]
  · have hval : s₄.abs (freshName (k + 1)) = s₃.phys result := Function.update_self _ _ _
    rw [hval]
    rcases hresult with rfl | rfl <;> rfl
  · apply Lands.set_fresh _ (by omega) (by omega)
    apply Lands.set_RDX
    apply Lands.set_RAX
    apply Lands.set_RDX
    apply Lands.set_RAX
    exact (Lands.refl k s).mono le_rfl (by omega)

/-- The high word of the product. -/
theorem run_HMUL :
    ∃ s', run L (LIROp.operation .HMUL (.abstract x) (.abstract y) (k + 1)).2 s =
        some (.next s') ∧
      s'.abs (freshName (k + 1)) = highMul (s.abs x) (s.abs y) ∧
      Lands k (k + 1) s s.store s' := by
  let s₁ := s.set (.x86 .RAX) (s.abs y)
  have hmov : exec L (.MOV (.registerDest (.x86 .RAX)) (.registerSrc (.abstract y))) s =
      some s₁ := rfl
  let s₂ := ((s₁.set (.x86 .RAX) (s.abs y * s.abs x)).set (.x86 .RDX)
    (highMul (s.abs y) (s.abs x))).setFlags (.mul (s.abs y) (s.abs x) s.flags)
  have himul : exec L (.IMULSingle (.abstract x)) s₁ = some s₂ := rfl
  let s₃ := s₂.set (freshRegister (k + 1)) (highMul (s.abs y) (s.abs x))
  have hout : exec L (.MOV (.registerDest (freshRegister (k + 1))) (.registerSrc (.x86 .RDX))) s₂ =
      some s₃ := rfl
  refine ⟨s₃, ?_, ?_, ?_⟩
  · show run L [_, _, _] s = _
    rw [run_cons hmov, run_cons himul, run_cons hout, run]
  · have hval : s₃.abs (freshName (k + 1)) = highMul (s.abs y) (s.abs x) :=
      Function.update_self _ _ _
    rw [hval, highMul, highMul, mul_comm]
  · apply Lands.set_fresh _ (by omega) (by omega)
    apply Lands.setFlags
    apply Lands.set_RDX
    apply Lands.set_RAX
    apply Lands.set_RAX
    exact (Lands.refl k s).mono le_rfl (by omega)

/-- The instructions of an operator compute it. -/
theorem run_operation {o : OpType} {v : Word} (hx : x ≠ freshName (k + 1))
    (hy : y ≠ freshName (k + 1)) (heval : o.eval (s.abs x) (s.abs y) = some v)
    (hfault : o = .DIV ∨ o = .MOD →
      s.abs y ≠ 0 ∧ ¬ (s.abs x = BitVec.intMin 64 ∧ s.abs y = -1)) :
    ∃ s', run L (LIROp.operation o (.abstract x) (.abstract y) (k + 1)).2 s = some (.next s') ∧
      s'.abs (freshName (k + 1)) = v ∧ Lands k (k + 1) s s.store s' := by
  -- three shapes of tile: copy and combine, divide, compare and set
  cases o with
  | ADD => cases heval; exact run_copyAnd L (f := fun a b => a + b) (fun _ _ _ => ⟨_, rfl⟩) hy
  | SUB => cases heval; exact run_copyAnd L (f := fun a b => a - b) (fun _ _ _ => ⟨_, rfl⟩) hy
  | MUL => cases heval; exact run_copyAnd L (f := fun a b => a * b) (fun _ _ _ => ⟨_, rfl⟩) hy
  | HMUL => cases heval; exact run_HMUL L
  | DIV =>
    obtain ⟨hzero, hover⟩ := hfault (.inl rfl)
    rw [OpType.eval, if_neg hzero] at heval
    cases heval
    exact run_divide L (idiv_signExtend hzero hover) (.inl rfl)
  | MOD =>
    obtain ⟨hzero, hover⟩ := hfault (.inr rfl)
    rw [OpType.eval, if_neg hzero] at heval
    cases heval
    exact run_divide L (idiv_signExtend hzero hover) (.inr rfl)
  | AND => cases heval; exact run_copyAnd L (f := fun a b => a &&& b) (fun _ _ _ => ⟨_, rfl⟩) hy
  | OR => cases heval; exact run_copyAnd L (f := fun a b => a ||| b) (fun _ _ _ => ⟨_, rfl⟩) hy
  | XOR => cases heval; exact run_copyAnd L (f := fun a b => a ^^^ b) (fun _ _ _ => ⟨_, rfl⟩) hy
  | LSHIFT =>
    cases heval
    exact run_copyAnd L (f := fun a b => a <<< (b.toNat % 64)) (fun _ _ _ => ⟨_, rfl⟩) hy
  | RSHIFT =>
    cases heval
    exact run_copyAnd L (f := fun a b => a >>> (b.toNat % 64)) (fun _ _ _ => ⟨_, rfl⟩) hy
  | ARSHIFT =>
    cases heval
    exact run_copyAnd L (f := fun a b => a.sshiftRight (b.toNat % 64)) (fun _ _ _ => ⟨_, rfl⟩) hy
  | EQ => cases heval; exact run_compare L .SETZ hx hy
  | NEQ =>
    have hnot : decide (s.abs x ≠ s.abs y) = !decide (s.abs x = s.abs y) := decide_not
    cases heval
    rw [hnot]
    exact run_compare L .SETNZ hx hy
  | LT =>
    cases heval
    rw [← Flags.sub_SF_bne_OF]
    exact run_compare L .SETL hx hy
  | ULT => cases heval; exact run_compare L .SETB hx hy
  | GT =>
    cases heval
    rw [← Flags.taken_sub_JG]
    exact run_compare L .SETG hx hy
  | LEQ =>
    cases heval
    rw [← Flags.taken_sub_JLE]
    exact run_compare L .SETLE hx hy
  | GEQ =>
    cases heval
    rw [← Flags.sub_SF_beq_OF]
    exact run_compare L .SETGE hx hy

end Operation

/-! ## Expressions -/

/-- The output of a tile is no fresh register, or one with a number from `k + 1` to `k'`. -/
def Output (k k' : ℕ) (x : String) : Prop :=
  (∀ j, x ≠ freshName j) ∨ ∃ j, k < j ∧ j ≤ k' ∧ x = freshName j

namespace Output

variable {k k₁ k₂ j : ℕ} {x : String} {s s' : State}

/-- A register that was made up on the way. -/
theorem fresh (hj : k < j) (hj' : j ≤ k₁) : Output k k₁ (freshName j) := .inr ⟨j, hj, hj', rfl⟩

/-- It is none that is made up later. -/
theorem ne (h : Output k k₁ x) (hj : k₁ < j) : x ≠ freshName j := by
  obtain h | ⟨i, hi, hi', rfl⟩ := h
  · exact h j
  · intro heq
    have := freshName_inj heq
    omega

/-- Later tiles leave the output alone. -/
theorem abs_eq (h : Output k k₁ x) (hl : Lands k₁ k₂ s s.store s') : s'.abs x = s.abs x :=
  hl.abs x fun _ hj _ => h.ne hj

/-- A wider range of the counter. -/
theorem mono (h : Output k k₁ x) {k' k₁' : ℕ} (hk : k' ≤ k) (hk' : k₁ ≤ k₁') :
    Output k' k₁' x := by
  obtain h | ⟨i, hi, hi', rfl⟩ := h
  · exact .inl h
  · exact fresh (by omega) (by omega)

end Output

/-- Running a tile puts the value of the expression into the output register. -/
structure Tile.Expr.Correct (L : String → Word) (e : LIRExpr) (k k' : ℕ) (t : Tile.Expr)
    (x : String) : Prop where
  register : t.outputRegister = .abstract x
  output : Output k k' x
  run : ∀ s : State, e.NoFault (Bytes.storage L) s.store →
    ∃ v s', e.eval (Bytes.storage L) s.store = some v ∧
      run L t.instructions s = some (.next s') ∧ s'.abs x = v ∧ Lands k k' s s.store s'

/-- Whichever tile `attempt` keeps. -/
theorem attempt_of {T : Type} {P : T → Prop} (cost : T → ℕ) {best : T} (hbest : P best)
    (tile : Option T) (htile : ∀ t, tile = some t → P t) : P (attempt cost best tile) := by
  unfold attempt
  split
  · split_ifs
    · exact htile _ rfl
    · exact hbest
  · exact hbest

section Expr

variable {L : String → Word} {k k₁ k₂ j : ℕ} {x y : String}

/-- The comment in front of a tile does nothing. -/
theorem run_builderComment (insns : List Instruction) (s : State) :
    run L (builderComment :: insns) s = run L insns s := run_cons rfl

/-- The tiles of two operands, one behind the other. -/
theorem run_operands {left right : LIRExpr} {leftTile rightTile : Tile.Expr} {s : State}
    (hk : k ≤ k₁) (hk' : k₁ ≤ k₂) (hl : leftTile.Correct L left k k₁ x)
    (hr : rightTile.Correct L right k₁ k₂ y) (ht : right.Tileable)
    (hfl : left.NoFault (Bytes.storage L) s.store)
    (hfr : right.NoFault (Bytes.storage L) s.store) :
    ∃ a b s', left.eval (Bytes.storage L) s.store = some a ∧
      right.eval (Bytes.storage L) s.store = some b ∧
      (∀ rest, Jaek.run L (leftTile.instructions ++ rightTile.instructions ++ rest) s =
        Jaek.run L rest s') ∧
      s'.abs x = a ∧ s'.abs y = b ∧ Lands k k₂ s s.store s' := by
  obtain ⟨a, s₁, heval₁, hrun₁, hval₁, hland₁⟩ := hl.run s hfl
  obtain ⟨b, s₂, heval₂, hrun₂, hval₂, hland₂⟩ := hr.run s₁ (LIRExpr.noFault_lands ht hland₁ hfr)
  rw [LIRExpr.eval_lands ht hland₁] at heval₂
  refine ⟨a, b, s₂, heval₁, heval₂, ?_, ?_, hval₂, hland₁.trans hk hk' hland₂⟩
  · intro rest
    rw [List.append_assoc, run_append hrun₁, run_append hrun₂]
  · rw [hl.output.abs_eq hland₂, hval₁]

/-- The tiles of the operands and the operation behind them. The value on the left stays in its register
while the right one is computed. -/
theorem LIROp.defaultTile_correct {o : OpType} {left right : LIRExpr}
    {leftTile rightTile : Tile.Expr} (hk : k ≤ k₁) (hk' : k₁ ≤ k₂)
    (hl : leftTile.Correct L left k k₁ x) (hr : rightTile.Correct L right k₁ k₂ y)
    (ht : right.Tileable) :
    (LIROp.defaultTile o leftTile rightTile (k₂ + 1)).Correct L (.op o left right) k (k₂ + 1)
      (freshName (k₂ + 1)) := by
  refine ⟨rfl, Output.fresh (by omega) le_rfl, fun s hf => ?_⟩
  obtain ⟨hfl, hfr, hdiv⟩ := hf
  obtain ⟨a, b, s₁, hleft, hright, hrun, hx, hy, hland⟩ := run_operands hk hk' hl hr ht hfl hfr
  have hfault := fun ho => hdiv ho a b hleft hright
  obtain ⟨v, heval⟩ : ∃ v, o.eval a b = some v := by
    cases o
    case DIV => exact ⟨_, if_neg (hfault (.inl rfl)).1⟩
    case MOD => exact ⟨_, if_neg (hfault (.inr rfl)).1⟩
    all_goals exact ⟨_, rfl⟩
  rw [← hx, ← hy] at heval hfault
  obtain ⟨s₂, hop, hval, hland'⟩ := run_operation L (k := k₂) ((hl.output.mono le_rfl hk').ne (by omega))
    (hr.output.ne (by omega)) heval hfault
  refine ⟨v, s₂, ?_, ?_, hval, hland.trans (hk.trans hk') (by omega) hland'⟩
  · rw [LIRExpr.eval, hleft, hright, ← hx, ← hy]
    exact heval
  · rw [LIROp.defaultTile, List.cons_append, List.cons_append, run_builderComment, hrun,
      hl.register, hr.register]
    exact hop

/-- A move into a fresh register. -/
theorem Tile.Expr.Correct.of_mov {e : LIRExpr} {src : Source} {cost : ℕ} (hj : k < j)
    (hj' : j ≤ k₁)
    (h : ∀ s : State, e.eval (Bytes.storage L) s.store = some (s.source L src)) :
    Tile.Expr.Correct L e k k₁
      ⟨⟨[builderComment, .MOV (.registerDest (freshRegister j)) src], cost⟩, freshRegister j⟩
      (freshName j) := by
  refine ⟨rfl, Output.fresh hj hj', fun s _ => ?_⟩
  let s' := s.set (freshRegister j) (s.source L src)
  refine ⟨s.source L src, s', h s, rfl, ?_, ?_⟩
  · exact Function.update_self _ _ _
  · exact ((Lands.refl k s).mono le_rfl (by omega)).set_fresh hj hj' _ _

/-- The tile that loads with one instruction. -/
theorem LIRMem.arrAccessTile_correct {address : LIRExpr} {t : Tile.Expr} (hj : k < j)
    (hj' : j ≤ k₁) (h : arrAccessTile address j = some t) :
    t.Correct L (.mem address) k k₁ (freshName j) := by
  obtain ⟨m, hm, rfl⟩ := Option.map_eq_some_iff.mp h
  apply Tile.Expr.Correct.of_mov hj hj'
  intro s
  rw [LIRExpr.eval, detectMemoryFriendly_eval L s hm]
  rfl

/-- The tile that computes the address first. -/
theorem LIRMem.defaultTile_correct {address : LIRExpr} {addressTile : Tile.Expr} (hk : k + 1 ≤ k₁)
    (h : addressTile.Correct L address (k + 1) k₁ x) :
    (defaultTile addressTile (k + 1)).Correct L (.mem address) k (k₁ + 1) (freshName (k + 1)) := by
  refine ⟨rfl, Output.fresh (by omega) (by omega), fun s hf => ?_⟩
  obtain ⟨a, s₁, heval, hrun, hval, hland⟩ := h.run s hf
  let s₂ := s₁.set (freshRegister (k + 1)) (s₁.mem.load (s₁.abs x + 0 * 1 + 0))
  have hmov : exec L (.MOV (.registerDest (freshRegister (k + 1)))
      (.memorySrc (.registerMem (some (.abstract x)) none 0 .ONE))) s₁ = some s₂ := rfl
  have haddr : s₁.abs x + 0 * 1 + 0 = a := by simp [hval]
  refine ⟨s.mem.load a, s₂, ?_, ?_, ?_, ?_⟩
  · rw [LIRExpr.eval, heval]
    rfl
  · rw [defaultTile, List.cons_append, run_builderComment, run_append hrun, h.register,
      run_cons hmov, run]
  · have hout : s₂.abs (freshName (k + 1)) = s₁.mem.load (s₁.abs x + 0 * 1 + 0) :=
      Function.update_self _ _ _
    have hmem : s₁.mem = s.mem := hland.mem
    rw [hout, haddr, hmem]
  · exact (hland.mono (by omega) (by omega)).set_fresh (by omega) (by omega) _ _

/-- Every expression with names only under memory has a tile, and it is correct. -/
theorem LIRExpr.optimalTile_correct (L : String → Word) (e : LIRExpr) (ht : e.Tileable) (k : ℕ) :
    ∃ t k' x, e.optimalTile k = some (t, k') ∧ k ≤ k' ∧ t.Correct L e k k' x := by
  fun_induction Tileable e generalizing k with
  | case1 value =>
    refine ⟨_, _, freshName (k + 1), rfl, by omega, rfl, Output.fresh (by omega) le_rfl, ?_⟩
    intro s _
    refine ⟨value, s.set (freshRegister (k + 1)) value, rfl, rfl, Function.update_self _ _ _, ?_⟩
    exact ((Lands.refl k s).mono le_rfl (by omega)).set_fresh (by omega) le_rfl _ _
  | case2 x =>
    refine ⟨_, _, x, rfl, le_rfl, rfl, .inl ht, ?_⟩
    intro s _
    exact ⟨s.abs x, s, rfl, rfl, rfl, Lands.refl k s⟩
  | case3 => exact ht.elim
  | case4 l =>
    have hlabel : (LIRMem.labelTile l (k + 1)).Correct L (.mem (.name l)) k (k + 2)
        (freshName (k + 1)) := Tile.Expr.Correct.of_mov (by omega) (by omega) fun _ => rfl
    obtain ⟨x, hx⟩ := attempt_of (P := fun t : Tile.Expr => ∃ x, t.Correct L _ k (k + 2) x)
      (fun t : Tile.Expr => t.cost) ⟨_, hlabel⟩ (LIRMem.arrAccessTile (name l) (k + 2))
      fun t h => ⟨_, LIRMem.arrAccessTile_correct (by omega) le_rfl h⟩
    exact ⟨_, _, x, rfl, by omega, hx⟩
  | case5 address hname ih =>
    obtain ⟨addressTile, k', x, htile, hk, hcorrect⟩ := ih ht (k + 1)
    obtain ⟨y, hy⟩ := attempt_of (P := fun t : Tile.Expr => ∃ x, t.Correct L _ k (k' + 1) x)
      (fun t : Tile.Expr => t.cost) ⟨_, LIRMem.defaultTile_correct hk hcorrect⟩
      (LIRMem.arrAccessTile address (k' + 1))
      fun t h => ⟨_, LIRMem.arrAccessTile_correct (by omega) le_rfl h⟩
    refine ⟨_, _, y, ?_, ?_, hy⟩
    · rw [optimalTile, htile]
      · rfl
      · exact hname
    · omega
  | case6 o left right ihl ihr =>
    obtain ⟨leftTile, k₁, x, hleft, hk₁, hl⟩ := ihl ht.1 k
    obtain ⟨rightTile, k₂, y, hright, hk₂, hr⟩ := ihr ht.2 k₁
    refine ⟨_, _, _, ?_, ?_, LIROp.defaultTile_correct hk₁ hk₂ hl hr ht.2⟩
    · simp only [optimalTile, hleft, hright, Option.bind_eq_bind, Option.bind_some]
    · omega

end Expr

/-! ## Moves -/

/-- Running a tile has the effect of a move. -/
def Tile.Moves (L : String → Word) (dest expr : LIRExpr) (k k' : ℕ) (t : Tile) : Prop :=
  ∀ s : State, dest.NoFault (Bytes.storage L) s.store → expr.NoFault (Bytes.storage L) s.store →
    ∃ e st s', Exec (Bytes.storage L) (.move dest expr) s.store e st ∧
      run L t.instructions s = some (.next s') ∧ Lands k k' s st s'

namespace LIRMove

variable {L : String → Word} {k k₁ k₂ : ℕ} {x y l : String} {s s₁ : State}

/-- Writing a temp. -/
theorem lands_set {v : Word} (h : Lands k k₁ s s.store s₁) :
    Lands k k₁ s (s.store.set x v) (s₁.set (.abstract x) v) := by
  refine ⟨fun z hz => ?_, h.mem, h.phys⟩
  show Function.update s₁.abs x v z = Function.update s.abs x v z
  by_cases hzx : z = x
  · rw [hzx, Function.update_self, Function.update_self]
  · rw [Function.update_of_ne hzx, Function.update_of_ne hzx]
    exact h.abs z hz

/-- Writing memory. -/
theorem lands_store {p v : Word} (h : Lands k k₁ s s.store s₁) :
    Lands k k₁ s ⟨s.abs, s.mem.store p v⟩ { s₁ with mem := s₁.mem.store p v } := by
  refine ⟨h.abs, ?_, h.phys⟩
  have hmem : s₁.mem = s.mem := h.mem
  show s₁.mem.store p v = s.mem.store p v
  rw [hmem]

/-- The default tile of a move to a temp. -/
theorem defaultTile_temp {expr : LIRExpr} {srcTile : Tile.Expr}
    (h : srcTile.Correct L expr k k₁ y) :
    Tile.Moves L (.temp x) expr k k₁ ⟨builderComment :: srcTile.instructions ++
      [.MOV (.registerDest (.abstract x)) (.registerSrc srcTile.outputRegister)],
      1 + srcTile.cost⟩ := by
  intro s _ hf
  obtain ⟨v, s₁, heval, hrun, hval, hland⟩ := h.run s hf
  refine ⟨_, _, s₁.set (.abstract x) v, .moveTemp heval, ?_, lands_set hland⟩
  rw [List.cons_append, run_builderComment, run_append hrun, h.register, ← hval]
  rfl

/-- The default tile of a move to a global. -/
theorem defaultTile_label {expr : LIRExpr} {srcTile : Tile.Expr}
    (h : srcTile.Correct L expr k k₁ y) :
    Tile.Moves L (.mem (.name l)) expr k k₁ ⟨builderComment :: srcTile.instructions ++
      [.MOV (.memoryDest (.labelMem l)) (.registerSrc srcTile.outputRegister)],
      1 + srcTile.cost⟩ := by
  intro s _ hf
  obtain ⟨v, s₁, heval, hrun, hval, hland⟩ := h.run s hf
  refine ⟨_, _, _, .moveMem rfl heval rfl, ?_, lands_store hland⟩
  rw [List.cons_append, run_builderComment, run_append hrun, h.register, ← hval]
  rfl

/-- The default tile of a move to memory, with the source in front of the address. -/
theorem defaultTile_mem {address expr : LIRExpr} {srcTile destTile : Tile.Expr} (hk : k ≤ k₁)
    (hk' : k₁ ≤ k₂) (ht : address.Tileable) (h : srcTile.Correct L expr k k₁ x)
    (h' : destTile.Correct L address k₁ k₂ y) :
    Tile.Moves L (.mem address) expr k k₂ ⟨builderComment :: srcTile.instructions ++
      destTile.instructions ++
      [.MOV (.memoryDest (.registerMem (some destTile.outputRegister) none 0 .ONE))
        (.registerSrc srcTile.outputRegister)],
      1 + srcTile.cost + destTile.cost⟩ := by
  intro s hfd hfs
  obtain ⟨v, p, s₁, hsrc, hdest, hrun, hx, hy, hland⟩ := run_operands hk hk' h h' ht hfs hfd
  refine ⟨_, _, _, .moveMem hdest hsrc rfl, ?_, lands_store hland⟩
  have haddr : s₁.abs y + 0 * 1 + 0 = p := by simp [hy]
  rw [List.cons_append, List.cons_append, run_builderComment, hrun, h.register, h'.register, ← hx,
    ← haddr]
  rfl

/-- The tile that clears a register. -/
theorem zeroTile_correct {dest expr : LIRExpr} {t : Tile} (hk : k ≤ k₁)
    (h : zeroTile dest expr = some t) : t.Moves L dest expr k k₁ := by
  unfold zeroTile at h
  split at h
  · rename_i x value
    split_ifs at h with hzero
    cases h
    intro s _ _
    have hland := lands_set (x := x) (v := 0) ((Lands.refl k s).mono le_rfl hk)
    refine ⟨_, _, _, .moveTemp (v := 0) (by rw [LIRExpr.eval, hzero]), ?_, hland.setFlags (.logic 0)⟩
    rw [run_builderComment]
    show some (Outcome.next ((s.set (.abstract x) (s.abs x ^^^ s.abs x)).setFlags
      (.logic (s.abs x ^^^ s.abs x)))) = _
    rw [BitVec.xor_self]
    rfl
  · cases h

/-- The tile that computes an address-like value with `LEA`. -/
theorem addressHack_correct {dest expr : LIRExpr} {t : Tile} (hk : k ≤ k₁)
    (h : addressHack dest expr = some t) : t.Moves L dest expr k k₁ := by
  unfold addressHack at h
  split at h
  · rename_i x
    obtain ⟨m, hm, rfl⟩ := Option.map_eq_some_iff.mp h
    intro s _ _
    have hland := lands_set (x := x) (v := s.address L m) ((Lands.refl k s).mono le_rfl hk)
    exact ⟨_, _, _, .moveTemp (detectMemoryFriendly_eval L s hm), rfl, hland⟩
  · cases h

/-- Behind the tile of its source, a move to a temp or to memory has a correct default tile. -/
theorem defaultTile_correct {dest expr : LIRExpr} {srcTile : Tile.Expr} (hd : dest.TileableDest)
    (hk : k ≤ k₁) (h : srcTile.Correct L expr k k₁ x) :
    ∃ t k₂, defaultTile dest srcTile k₁ = some (t, k₂) ∧ k₁ ≤ k₂ ∧ t.Moves L dest expr k k₂ := by
  unfold defaultTile
  split
  · exact ⟨_, _, rfl, le_rfl, defaultTile_label h⟩
  · rename_i address hname
    have ht : address.Tileable := by
      cases address
      case name l => exact absurd rfl (hname l)
      all_goals exact hd
    obtain ⟨destTile, k₂, y, htile, hk', h'⟩ := LIRExpr.optimalTile_correct L address ht k₁
    refine ⟨_, k₂, ?_, hk', defaultTile_mem hk hk' ht h h'⟩
    rw [htile]
    rfl
  · exact ⟨_, _, rfl, le_rfl, defaultTile_temp h⟩
  · rename_i hlabel hmem htemp
    cases dest
    case mem address => exact absurd rfl (hmem address)
    case temp x => exact absurd rfl (htemp x)
    all_goals exact hd.elim

/-- Every move has a tile, and it is correct. -/
theorem optimalTile_correct (L : String → Word) {dest expr : LIRExpr} (hd : dest.TileableDest)
    (ht : expr.Tileable) (k : ℕ) :
    ∃ t k', optimalTile dest expr k = some (t, k') ∧ t.Moves L dest expr k k' := by
  obtain ⟨srcTile, k₁, x, hsrc, hk, h⟩ := LIRExpr.optimalTile_correct L expr ht k
  obtain ⟨tile, k₂, hdefault, hk', hmoves⟩ := defaultTile_correct hd hk h
  -- each further tile replaces the best one only by another correct one
  have hzero := attempt_of (P := fun t : Tile => t.Moves L dest expr k k₂) (fun t => t.cost) hmoves
    (zeroTile dest expr) fun t h => zeroTile_correct (by omega) h
  have hinc := attempt_of (P := fun t : Tile => t.Moves L dest expr k k₂) (fun t => t.cost) hzero
    (incOrDec dest expr) fun t h => nomatch h
  have hhack := attempt_of (P := fun t : Tile => t.Moves L dest expr k k₂) (fun t => t.cost) hinc
    (addressHack dest expr) fun t h => addressHack_correct (by omega) h
  refine ⟨_, k₂, ?_, hhack⟩
  simp only [optimalTile, hsrc, hdefault, Option.bind_eq_bind, Option.bind_some]

end LIRMove

/-! ## Conditional jumps -/

/-- Running a tile jumps exactly when the guard is not zero. -/
def Tile.Jumps (L : String → Word) (guard : LIRExpr) (trueBranch : String) (k k' : ℕ) (t : Tile) :
    Prop :=
  ∀ s : State, guard.NoFault (Bytes.storage L) s.store →
    ∃ v s', guard.eval (Bytes.storage L) s.store = some v ∧
      run L t.instructions s = some (if v ≠ 0 then .jump trueBranch s' else .next s') ∧
      Lands k k' s s.store s'

/-- A wider range of the counter. -/
theorem Tile.Jumps.mono {L : String → Word} {guard : LIRExpr} {l : String} {k k₁ k₂ : ℕ} {t : Tile}
    (h : t.Jumps L guard l k k₁) (hk : k₁ ≤ k₂) : t.Jumps L guard l k k₂ := by
  intro s hf
  obtain ⟨v, s', heval, hrun, hland⟩ := h s hf
  exact ⟨v, s', heval, hrun, hland.mono le_rfl hk⟩

namespace LIRTrueJump

variable {L : String → Word} {k k₁ k₂ : ℕ} {x y l : String} {s : State}

/-- A list that sets the flags and jumps. -/
theorem run_jump {insn : Instruction} {jump : Jump} {f : Flags} {v : Word}
    (hexec : exec L insn s = some (s.setFlags f)) (htaken : jump.taken f = true ↔ v ≠ 0) :
    run L [insn, .jump jump l] s =
      some (if v ≠ 0 then .jump l (s.setFlags f) else .next (s.setFlags f)) := by
  rw [run_cons hexec, run, run, State.flags_setFlags]
  by_cases hv : v ≠ 0
  · rw [if_pos hv, if_pos (htaken.mpr hv)]
  · rw [if_neg hv, if_neg fun h => hv (htaken.mp h)]

/-- The word of a truth value is not zero when it is true. -/
theorem boolWord_ne_zero (b : Bool) : b = true ↔ boolWord b ≠ 0 := by
  rw [ne_eq, boolWord_eq_zero, Bool.not_eq_false]

/-- The default tile tests the value of the guard. -/
theorem defaultTile_correct {guard : LIRExpr} {guardTile : Tile.Expr}
    (h : guardTile.Correct L guard k k₁ x) : (defaultTile guardTile l).Jumps L guard l k k₁ := by
  intro s hf
  obtain ⟨v, s₁, heval, hrun, hval, hland⟩ := h.run s hf
  refine ⟨v, _, heval, ?_, hland.setFlags (.logic v)⟩
  rw [defaultTile, List.cons_append, run_builderComment, run_append hrun, h.register]
  apply run_jump
  · show some (s₁.setFlags (.logic (s₁.abs x &&& s₁.abs x))) = _
    rw [BitVec.and_self, hval]
  · simp [Jump.taken, Flags.logic]

/-- The jump behind a comparison decides the operator. -/
theorem compareJump_eval {o : OpType} {jump : Jump} (h : compareJump o = some jump) (a b : Word) :
    o.eval a b = some (boolWord (jump.taken (.sub a b))) := by
  cases o
  case EQ => cases h; rfl
  case NEQ =>
    cases h
    have hnot : decide (a ≠ b) = !decide (a = b) := decide_not
    rw [OpType.eval, hnot]
    rfl
  case LT => cases h; rw [Flags.taken_sub_JL]; rfl
  case ULT => cases h; rfl
  case GT => cases h; rw [Flags.taken_sub_JG]; rfl
  case LEQ => cases h; rw [Flags.taken_sub_JLE]; rfl
  case GEQ => cases h; rw [Flags.taken_sub_JGE]; rfl
  all_goals cases h

section Operands

variable {o : OpType} {left right : LIRExpr} {leftTile rightTile : Tile.Expr} {t : Tile}

/-- The tile that compares the operands of the guard itself. -/
theorem exprGuard_correct (hk : k ≤ k₁) (hk' : k₁ ≤ k₂) (hl : leftTile.Correct L left k k₁ x)
    (hr : rightTile.Correct L right k₁ k₂ y) (ht : right.Tileable)
    (h : exprGuard o leftTile rightTile l = some t) : t.Jumps L (.op o left right) l k k₂ := by
  obtain ⟨jump, hjump, rfl⟩ := Option.map_eq_some_iff.mp h
  intro s hf
  obtain ⟨a, b, s₁, hleft, hright, hrun, hx, hy, hland⟩ :=
    run_operands hk hk' hl hr ht hf.1 hf.2.1
  refine ⟨boolWord (jump.taken (.sub a b)), _, ?_, ?_, hland.setFlags (.sub a b)⟩
  · rw [LIRExpr.eval, hleft, hright]
    exact compareJump_eval hjump a b
  · rw [List.cons_append, List.cons_append, run_builderComment, hrun, hl.register, hr.register]
    apply run_jump
    · rw [← hx, ← hy]
      rfl
    · exact boolWord_ne_zero _

/-- Comparing one operand with zero. -/
theorem zeroJump_correct {guard e : LIRExpr} {tile : Tile.Expr} {jump : Jump}
    (hk : k ≤ k₁) (h : tile.Correct L e k₁ k₂ x)
    (hguard : ∀ s : State, guard.NoFault (Bytes.storage L) s.store →
      e.NoFault (Bytes.storage L) s.store ∧ ∀ a, e.eval (Bytes.storage L) s.store = some a →
        guard.eval (Bytes.storage L) s.store = some (boolWord (jump.taken (.sub a 0)))) :
    (zeroJump jump tile l).Jumps L guard l k k₂ := by
  intro s hf
  obtain ⟨hfe, heval⟩ := hguard s hf
  obtain ⟨a, s₁, ha, hrun, hval, hland⟩ := h.run s hfe
  refine ⟨boolWord (jump.taken (.sub a 0)), _, heval a ha, ?_,
    (hland.mono hk le_rfl).setFlags (.sub a 0)⟩
  rw [zeroJump, List.cons_append, run_builderComment, run_append hrun, h.register]
  apply run_jump
  · rw [← hval]
    rfl
  · exact boolWord_ne_zero _

/-- A comparison with the constant zero, on either side. -/
theorem eval_eq_zero (a : Word) : OpType.EQ.eval 0 a = some (boolWord (Jump.JZ.taken (.sub a 0))) ∧
    OpType.EQ.eval a 0 = some (boolWord (Jump.JZ.taken (.sub a 0))) := by
  refine ⟨?_, rfl⟩
  have hcomm : decide ((0 : Word) = a) = decide (a = 0) := decide_eq_decide.mpr eq_comm
  rw [OpType.eval, hcomm]
  rfl

/-- A comparison with zero, on either side. -/
theorem eval_ne_zero (a : Word) :
    OpType.NEQ.eval 0 a = some (boolWord (Jump.JNZ.taken (.sub a 0))) ∧
    OpType.NEQ.eval a 0 = some (boolWord (Jump.JNZ.taken (.sub a 0))) := by
  have hnot : decide (a ≠ 0) = !decide (a = 0) := decide_not
  have hcomm : decide ((0 : Word) ≠ a) = decide (a ≠ 0) := decide_eq_decide.mpr ne_comm
  rw [OpType.eval, OpType.eval, hcomm, hnot]
  exact ⟨rfl, rfl⟩

/-- Behind the tiles of its operands a comparison with zero needs only one of them. -/
theorem zeroNotZero_correct (hk : k ≤ k₁) (hk' : k₁ ≤ k₂) (hl : leftTile.Correct L left k k₁ x)
    (hr : rightTile.Correct L right k₁ k₂ y)
    (h : zeroNotZero o left right leftTile rightTile l = some t) :
    t.Jumps L (.op o left right) l k k₂ := by
  have hjump : ∀ jump : Jump, (∀ a, o.eval 0 a = some (boolWord (jump.taken (.sub a 0))) ∧
      o.eval a 0 = some (boolWord (jump.taken (.sub a 0)))) →
      (if left = .const 0 then some (zeroJump jump rightTile l)
        else if right = .const 0 then some (zeroJump jump leftTile l) else none) = some t →
      t.Jumps L (.op o left right) l k k₂ := by
    intro jump heval h
    split_ifs at h with hleft hright
    · cases h
      apply zeroJump_correct hk hr
      intro s hf
      refine ⟨hf.2.1, fun a ha => ?_⟩
      rw [LIRExpr.eval, hleft, ha]
      exact (heval a).1
    · cases h
      apply (zeroJump_correct le_rfl hl ?_).mono hk'
      intro s hf
      refine ⟨hf.1, fun a ha => ?_⟩
      rw [LIRExpr.eval, hright, ha]
      exact (heval a).2
  unfold zeroNotZero at h
  split at h
  · exact hjump .JZ eval_eq_zero h
  · exact hjump .JNZ eval_ne_zero h
  · cases h

end Operands

/-- A constant guard that is not zero jumps. -/
theorem alwaysTrue_correct {guard : LIRExpr} {t : Tile} (hk : k ≤ k₁)
    (h : alwaysTrue guard l = some t) : t.Jumps L guard l k k₁ := by
  unfold alwaysTrue at h
  split_ifs at h with hguard
  cases h
  intro s _
  exact ⟨1, s, by rw [hguard, LIRExpr.eval], rfl, (Lands.refl k s).mono le_rfl hk⟩

/-- A constant guard of zero does nothing. -/
theorem alwaysFalse_correct {guard : LIRExpr} {t : Tile} (hk : k ≤ k₁)
    (h : alwaysFalse guard = some t) : t.Jumps L guard l k k₁ := by
  unfold alwaysFalse at h
  split_ifs at h with hguard
  cases h
  intro s _
  exact ⟨0, s, by rw [hguard, LIRExpr.eval], rfl, (Lands.refl k s).mono le_rfl hk⟩

/-- The tiles tried for an operator as guard are correct, over the fresh registers of its tile. -/
theorem opTiles_correct {guard : LIRExpr} (ht : guard.Tileable) {guardTile : Tile.Expr}
    (hguard : guard.optimalTile k = some (guardTile, k₁)) :
    ∃ exprGuard zeroNotZero, opTiles guard l k = some (exprGuard, zeroNotZero) ∧
      (∀ t, exprGuard = some t → t.Jumps L guard l k k₁) ∧
      ∀ t, zeroNotZero = some t → t.Jumps L guard l k k₁ := by
  cases guard with
  | op o left right =>
    obtain ⟨leftTile, k₂, x, hleft, hk, hl⟩ := LIRExpr.optimalTile_correct L left ht.1 k
    obtain ⟨rightTile, k₃, y, hright, hk', hr⟩ := LIRExpr.optimalTile_correct L right ht.2 k₂
    have htile : (LIRExpr.op o left right).optimalTile k =
        some (LIROp.defaultTile o leftTile rightTile (k₃ + 1), k₃ + 1) := by
      simp only [LIRExpr.optimalTile, hleft, hright, Option.bind_eq_bind, Option.bind_some]
    have hk₁ : k₁ = k₃ + 1 := by
      rw [hguard, Option.some.injEq] at htile
      exact congrArg Prod.snd htile
    refine ⟨exprGuard o leftTile rightTile l,
      zeroNotZero o left right leftTile rightTile l, ?_, ?_, ?_⟩
    · simp only [opTiles, hleft, hright, Option.bind_eq_bind, Option.bind_some]
    · intro t h
      exact (exprGuard_correct hk hk' hl hr ht.2 h).mono (by omega)
    · intro t h
      exact (zeroNotZero_correct hk hk' hl hr h).mono (by omega)
  | _ =>
    refine ⟨none, none, rfl, ?_, ?_⟩ <;>
    · intro t h
      cases h

/-- Every conditional jump has a tile, and it is correct. -/
theorem optimalTile_correct (L : String → Word) {guard : LIRExpr} (ht : guard.Tileable) (l : String)
    (k : ℕ) : ∃ t k', optimalTile guard l k = some (t, k') ∧ t.Jumps L guard l k k' := by
  obtain ⟨guardTile, k', x, hguard, hk, h⟩ := LIRExpr.optimalTile_correct L guard ht k
  obtain ⟨exprGuard, zeroNotZero, hop, hexpr, hzero⟩ := opTiles_correct (L := L) (l := l) ht hguard
  have hdefault := defaultTile_correct (l := l) h
  have hexpr := attempt_of (P := fun t : Tile => t.Jumps L guard l k k') (fun t => t.cost) hdefault
    exprGuard hexpr
  have hzero := attempt_of (P := fun t : Tile => t.Jumps L guard l k k') (fun t => t.cost) hexpr
    zeroNotZero hzero
  have htrue := attempt_of (P := fun t : Tile => t.Jumps L guard l k k') (fun t => t.cost) hzero
    (alwaysTrue guard l) fun t h => alwaysTrue_correct hk h
  have hfalse := attempt_of (P := fun t : Tile => t.Jumps L guard l k k') (fun t => t.cost) htrue
    (alwaysFalse guard) fun t h => alwaysFalse_correct hk h
  refine ⟨_, k', ?_, hfalse⟩
  simp only [optimalTile, hguard, hop, Option.bind_eq_bind, Option.bind_some]

end LIRTrueJump

/-! ## Instruction selection -/

/-- The tiles chosen for expressions, moves and conditional jumps compute what the lowered
representation means. -/
theorem instructionSelection_correct (L : String → Word) (k : ℕ) :
    (∀ e : LIRExpr, e.Tileable →
      ∃ t k' x, e.optimalTile k = some (t, k') ∧ t.Correct L e k k' x) ∧
    (∀ dest expr : LIRExpr, dest.TileableDest → expr.Tileable →
      ∃ t k', LIRMove.optimalTile dest expr k = some (t, k') ∧ t.Moves L dest expr k k') ∧
    ∀ (guard : LIRExpr) (trueBranch : String), guard.Tileable →
      ∃ t k', LIRTrueJump.optimalTile guard trueBranch k = some (t, k') ∧
        t.Jumps L guard trueBranch k k' := by
  refine ⟨?_, ?_, ?_⟩
  · intro e ht
    obtain ⟨t, k', x, htile, -, h⟩ := LIRExpr.optimalTile_correct L e ht k
    exact ⟨t, k', x, htile, h⟩
  · intro dest expr hd ht
    exact LIRMove.optimalTile_correct L hd ht k
  · intro guard trueBranch ht
    exact LIRTrueJump.optimalTile_correct L ht trueBranch k

/-- A name without a dollar in front is no register that the tiles make up. -/
theorem ne_freshName {x : String} (h : x.toList.head? ≠ some '$') (k : ℕ) : x ≠ freshName k := by
  rintro rfl
  exact h (by simp [freshName])

/-- A division, a move through a sum and a comparison as guard, run where `a` is `-7` and every other
register is `2`. -/
theorem instructionSelection_divide :
    let L : String → Word := fun _ => 0
    let s : State := ⟨fun x => if x = "a" then -7 else 2, fun _ => 0, .logic 0, fun _ => 0⟩
    (∃ t k' x s', (LIRExpr.op .DIV (.temp "a") (.temp "b")).optimalTile 0 = some (t, k') ∧
      run L t.instructions s = some (.next s') ∧ t.outputRegister = .abstract x ∧
      s'.abs x = -3) ∧
    (∃ t k' s', LIRMove.optimalTile (.mem (.temp "a"))
        (.op .ADD (.temp "b") (.op .MUL (.const 8) (.temp "i"))) 0 = some (t, k') ∧
      run L t.instructions s = some (.next s') ∧ s'.mem = s.mem.store (-7) 18) ∧
    ∃ t k' s', LIRTrueJump.optimalTile (.op .ULT (.temp "a") (.temp "b")) "l" 0 = some (t, k') ∧
      run L t.instructions s = some (.next s') := by
  intro L s
  -- no fresh temporary has a name of one letter
  have hname : ∀ x ∈ ["a", "b", "i"], ∀ k, x ≠ freshName k := by
    intro x hx
    apply ne_freshName
    revert x
    decide
  have ha := hname "a" (by simp)
  have hb := hname "b" (by simp)
  have hi := hname "i" (by simp)
  obtain ⟨hexpr, hmove, hjump⟩ := instructionSelection_correct L 0
  refine ⟨?_, ?_, ?_⟩
  · obtain ⟨t, k', x, htile, h⟩ := hexpr (.op .DIV (.temp "a") (.temp "b")) ⟨ha, hb⟩
    obtain ⟨v, s', heval, hrun, hval, -⟩ := h.run s ⟨trivial, trivial, by
      rintro - a b ⟨⟩ ⟨⟩
      decide⟩
    refine ⟨t, k', x, s', htile, hrun, h.register, ?_⟩
    have hv : OpType.DIV.eval (-7) 2 = some (-3) := by decide
    rw [hval]
    exact Option.some.inj (heval.symm.trans hv)
  · obtain ⟨t, k', htile, h⟩ := hmove (.mem (.temp "a"))
      (.op .ADD (.temp "b") (.op .MUL (.const 8) (.temp "i"))) ha ⟨hb, trivial, hi⟩
    obtain ⟨e, st, s', hexec, hrun, hland⟩ := h s trivial ⟨trivial, ⟨trivial, trivial, by simp⟩,
      by simp⟩
    refine ⟨t, k', s', htile, hrun, ?_⟩
    rw [hland.mem]
    cases hexec with
    | moveMem haddr heval hwrite =>
      cases haddr
      cases heval
      cases hwrite
      rfl
  · obtain ⟨t, k', htile, h⟩ := hjump (.op .ULT (.temp "a") (.temp "b")) "l" ⟨ha, hb⟩
    obtain ⟨v, s', heval, hrun, -⟩ := h s ⟨trivial, trivial, by simp⟩
    have hv : some 0 = some v := heval
    cases hv
    exact ⟨t, k', s', htile, hrun⟩

end Jaek
