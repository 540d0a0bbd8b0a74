import Jaek.IR.LowerShape
import Jaek.Assembly.AddressingMode

/-!
# What `commutes` decides

`commutes` collects from a list of statements which temps are assigned and whether memory is written,
and looks for them in an expression. It does not look below a memory access, where it only asks about
memory, and it does not count the result temps a call sets.

`Detected` says for which list and expression it is right: the list jumps, where nothing but constants
commutes, or it changes something that `commutes` looks at, or it changes nothing that the expression reads.
The condition depends only on what the expression reads and where, and no weaker one of that kind will do
(`commutes_sound_iff`).
-/

namespace Jaek

/-! ## Where a temp is read -/

/-- The temp is read outside the memory accesses. -/
def LIRExpr.ReadsBare (x : String) : LIRExpr → Prop
  | .temp y => x = y
  | .op _ left right => left.ReadsBare x ∨ right.ReadsBare x
  | _ => False

/-- The temp is read for the address of a memory access. -/
def LIRExpr.ReadsBelow (x : String) : LIRExpr → Prop
  | .mem address => address.Reads x
  | .op _ left right => left.ReadsBelow x ∨ right.ReadsBelow x
  | _ => False

/-- Both expressions read the same temps in the same places. -/
structure LIRExpr.SameReads (e e' : LIRExpr) : Prop where
  bare : ∀ x, e'.ReadsBare x ↔ e.ReadsBare x
  below : ∀ x, e'.ReadsBelow x ↔ e.ReadsBelow x
  usesMem : e'.UsesMem ↔ e.UsesMem

/-- A temp is read in an address or outside of one. -/
theorem LIRExpr.reads_iff {e : LIRExpr} {x : String} : e.Reads x ↔ e.ReadsBare x ∨ e.ReadsBelow x := by
  induction e with
  | const | name => simp [Reads, ReadsBare, ReadsBelow]
  | temp | mem => simp [Reads, ReadsBare, ReadsBelow]
  | op o left right ihl ihr =>
    rw [Reads, ReadsBare, ReadsBelow, ihl, ihr]
    tauto

/-- An address is there to be loaded from. -/
theorem LIRExpr.usesMem_of_readsBelow {e : LIRExpr} {x : String} (h : e.ReadsBelow x) : e.UsesMem := by
  induction e with
  | const | temp | name => exact h.elim
  | mem => trivial
  | op o left right ihl ihr => exact Or.imp ihl ihr h

namespace IRLowerer

variable {globals : List String} {stmts rest : List FlatStmt} {x : String}

/-! ## What is collected -/

/-- What `commutes` knows about statements. -/
structure Used.Of (u : Used) (stmts : List FlatStmt) : Prop where
  mem : u.memUsed = true ↔ (∃ st ∈ stmts, st.WritesMem) ∨ ∃ b, .endBlock b ∈ stmts
  temps : ∀ x, x ∈ u.tempsUsed ↔ ∃ e, .move (.temp x) e ∈ stmts
  unknownTemps : u.unknownTempsUsed = true ↔ ∃ b, .endBlock b ∈ stmts
  unknownGlobals : u.unknownGlobalsUsed = true ↔ ∃ b, .endBlock b ∈ stmts
  globals : u.globalsUsed = []

/-- No statement uses anything. -/
theorem Used.of_nil : Used.Of {} [] := by
  constructor <;> simp

/-- One statement more. -/
theorem Used.Of.snoc {u u' : Used} {st : FlatStmt} (h : u.Of stmts)
    (hst : u.updateMemTempsUsed st = some u') : u'.Of (stmts ++ [st]) := by
  obtain ⟨hmem, htemps, hunknownT, hunknownG, hglobals⟩ := h
  cases st with
  | endBlock b =>
    cases hst
    constructor <;> simp_all
  | callStmt f n args =>
    cases hst
    constructor <;> simp_all [FlatStmt.WritesMem]
  | label l =>
    cases hst
    constructor <;> simp_all [FlatStmt.WritesMem]
  | move dest e =>
    cases dest with
    | temp y =>
      cases hst
      have htemps' : ∀ x, x ∈ y :: u.tempsUsed ↔ ∃ e', .move (.temp x) e' ∈ stmts ++ [.move (.temp y) e] := by
        intro x
        simp only [List.mem_cons, htemps, List.mem_append, FlatStmt.move.injEq, LIRExpr.temp.injEq,
          List.not_mem_nil, or_false, exists_or]
        constructor
        · rintro (rfl | h)
          · exact .inr ⟨e, rfl, rfl⟩
          · exact .inl h
        · rintro (h | ⟨-, rfl, -⟩)
          · exact .inr h
          · exact .inl rfl
      refine ⟨?_, htemps', ?_, ?_, hglobals⟩ <;> simp_all [FlatStmt.WritesMem]
    | mem a =>
      cases hst
      constructor <;> simp_all [FlatStmt.WritesMem]
    | const => cases hst
    | name => cases hst
    | op => cases hst

/-- Several statements more. -/
theorem Used.Of.foldlM {u u' : Used} {pre : List FlatStmt} (h : u.Of pre)
    (hfold : stmts.foldlM Used.updateMemTempsUsed u = some u') : u'.Of (pre ++ stmts) := by
  induction stmts generalizing u pre with
  | nil =>
    cases hfold
    rwa [List.append_nil]
  | cons st stmts ih =>
    obtain ⟨u₁, hu₁, hfold⟩ := Option.bind_eq_some_iff.mp hfold
    have happend := ih (h.snoc hu₁) hfold
    rwa [List.append_assoc] at happend

/-- `commutes` collects what the statements use and looks at the expression. -/
theorem commutes_iff {e : LIRExpr} {b : Bool} : commutes globals stmts e = some b ↔
    ∃ u, stmts.foldlM Used.updateMemTempsUsed {} = some u ∧ u.Of stmts ∧
      u.exprCommutes globals e = b := by
  rw [commutes, Option.map_eq_some_iff]
  constructor
  · rintro ⟨u, hu, hb⟩
    exact ⟨u, hu, Used.of_nil.foldlM hu, hb⟩
  · rintro ⟨u, hu, -, hb⟩
    exact ⟨u, hu, hb⟩

/-! ## Runs of a list -/

variable {M : Type*} {S : Storage M} {s s' : Store M} {evs : List (Event M)}

/-- The statements run from their first to behind their last. -/
def Runs (S : Storage M) (stmts : List FlatStmt) (s : Store M) (evs : List (Event M))
    (s' : Store M) : Prop := (flat S stmts).Run (.running stmts s) evs (.running [] s')

/-- Running the statements can change the temp. -/
def Changes (S : Storage M) (stmts : List FlatStmt) (x : String) : Prop :=
  ∃ s evs s', Runs S stmts s evs s' ∧ s'.temps x ≠ s.temps x

/-- What a list without memory writes and calls keeps: the memory, and the temps it does not assign. -/
structure Keeps (stmts : List FlatStmt) (s s' : Store M) : Prop where
  mem : s'.mem = s.mem
  temps : ∀ x, (∀ e, .move (.temp x) e ∉ stmts) → s'.temps x = s.temps x

/-- A run that ends has passed every statement, if none of them jumps. -/
theorem straight {body : List FlatStmt} (hjump : ∀ b, .endBlock b ∉ rest)
    (h : (flat S body).Run (.running rest s) evs (.running [] s')) :
    (∀ u : Used, ∃ u', rest.foldlM Used.updateMemTempsUsed u = some u') ∧
      ((∀ st ∈ rest, ¬st.WritesMem) → Keeps rest s s') := by
  induction rest generalizing s evs with
  | nil =>
    cases h with
    | refl => exact ⟨fun u => ⟨u, rfl⟩, fun _ => ⟨rfl, fun _ _ => rfl⟩⟩
    | silent hstep => cases hstep
    | event hstep => cases hstep
  | cons st rest ih =>
    have hrest : ∀ b, .endBlock b ∉ rest := fun b hb => hjump b (List.mem_cons_of_mem _ hb)
    have htail : (∀ st' ∈ st :: rest, ¬st'.WritesMem) → ∀ st' ∈ rest, ¬st'.WritesMem :=
      fun h st' hst' => h st' (List.mem_cons_of_mem _ hst')
    cases h with
    | silent hstep hrun =>
      cases hstep with
      | label =>
        obtain ⟨hfold, hkeeps⟩ := ih hrest hrun
        exact ⟨hfold, fun h => ⟨(hkeeps (htail h)).mem, fun x hx => (hkeeps (htail h)).temps x
          fun e he => hx e (List.mem_cons_of_mem _ he)⟩⟩
      | control => exact (hjump _ List.mem_cons_self).elim
    | event hstep hrun =>
      cases hstep with
      | exec hexec =>
        obtain ⟨hfold, hkeeps⟩ := ih hrest hrun
        cases hexec with
        | @moveTemp _ y e _ hv =>
          refine ⟨fun u => hfold _, fun h => ⟨(hkeeps (htail h)).mem, ?_⟩⟩
          intro x hx
          rw [(hkeeps (htail h)).temps x fun e he => hx e (List.mem_cons_of_mem _ he)]
          have hne : x ≠ y := by
            rintro rfl
            exact hx e List.mem_cons_self
          exact Function.update_of_ne hne _ _
        | moveMem => exact ⟨fun u => hfold _, fun h => (h _ List.mem_cons_self trivial).elim⟩
        | call => exact ⟨fun u => hfold _, fun h => (h _ List.mem_cons_self trivial).elim⟩
      | ret => exact (hjump _ List.mem_cons_self).elim

/-! ## Where it is right -/

/-- Behind a jump only what reads neither temps nor memory commutes. -/
theorem eval_eq_of_jump {u : Used} {e : LIRExpr} (hu : u.Of stmts) (hjump : ∃ b, .endBlock b ∈ stmts)
    (h : u.exprCommutes globals e = true) : e.eval S s' = e.eval S s := by
  induction e with
  | const value => rfl
  | temp x =>
    rw [Used.exprCommutes, hu.unknownTemps.mpr hjump] at h
    cases h
  | name l => rfl
  | mem address =>
    rw [Used.exprCommutes, hu.mem.mpr (.inr hjump)] at h
    cases h
  | op o left right ihl ihr =>
    rw [Used.exprCommutes, Bool.and_eq_true] at h
    rw [LIRExpr.eval, LIRExpr.eval, ihl h.1, ihr h.2]

/-- What `commutes` answers about a list without jumps. -/
theorem exprCommutes_iff {u : Used} {e : LIRExpr} (hu : u.Of stmts) (hjump : ∀ b, .endBlock b ∉ stmts) :
    u.exprCommutes globals e = true ↔
      (∀ x, e.ReadsBare x → ∀ r, .move (.temp x) r ∉ stmts) ∧
        (e.UsesMem → ∀ st ∈ stmts, ¬st.WritesMem) := by
  have hunknownTemps : u.unknownTempsUsed = false := by
    rw [← Bool.not_eq_true, hu.unknownTemps, not_exists]
    exact hjump
  have hunknownGlobals : u.unknownGlobalsUsed = false := by
    rw [← Bool.not_eq_true, hu.unknownGlobals, not_exists]
    exact hjump
  induction e with
  | const => simp [Used.exprCommutes, LIRExpr.ReadsBare, LIRExpr.UsesMem]
  | temp x =>
    simp only [Used.exprCommutes, hunknownTemps, Bool.not_false, Bool.true_and, decide_eq_true_eq,
      hu.temps, not_exists, LIRExpr.ReadsBare, forall_eq, LIRExpr.UsesMem, false_imp_iff, and_true]
  | name => simp [Used.exprCommutes, hunknownGlobals, hu.globals, LIRExpr.ReadsBare, LIRExpr.UsesMem]
  | mem address =>
    have hmem : u.memUsed = true ↔ ∃ st ∈ stmts, st.WritesMem := by
      rw [hu.mem, or_iff_left (not_exists.mpr hjump)]
    rw [Used.exprCommutes, Bool.not_eq_true', ← Bool.not_eq_true, hmem]
    simp [LIRExpr.ReadsBare, LIRExpr.UsesMem]
  | op o left right ihl ihr =>
    rw [Used.exprCommutes, Bool.and_eq_true]
    refine (and_congr ihl ihr).trans ?_
    simp only [LIRExpr.ReadsBare, LIRExpr.UsesMem, or_imp, forall_and]
    tauto

/-- `commutes` is right about the list and the expression. -/
def Sound (S : Storage M) (globals : List String) (stmts : List FlatStmt) (e : LIRExpr) : Prop :=
  commutes globals stmts e = some true → ∀ s evs s', Runs S stmts s evs s' → e.eval S s' = e.eval S s

/-- The list jumps, or it assigns a temp that the expression reads outside its memory accesses, or it
writes memory or calls where the expression reads memory, or it changes no temp that the expression reads. -/
def Detected (S : Storage M) (stmts : List FlatStmt) (e : LIRExpr) : Prop :=
  (∃ b, .endBlock b ∈ stmts) ∨ (∃ x, e.ReadsBare x ∧ ∃ r, .move (.temp x) r ∈ stmts) ∨
    (e.UsesMem ∧ ∃ st ∈ stmts, st.WritesMem) ∨ ∀ x, e.Reads x → ¬Changes S stmts x

variable {e : LIRExpr}

/-- The first three cases are those in which `commutes` says no, or has no say. -/
theorem Detected.sound (h : Detected S stmts e) : Sound S globals stmts e := by
  intro he s evs s' hrun
  obtain ⟨u, -, hu, hcomm⟩ := commutes_iff.mp he
  by_cases hjump : ∃ b, .endBlock b ∈ stmts
  · exact eval_eq_of_jump hu hjump hcomm
  obtain ⟨hbare, hmem⟩ := (exprCommutes_iff hu (not_exists.mp hjump)).mp hcomm
  rcases h with hj | ⟨x, hx, r, hr⟩ | ⟨huses, st, hst, hw⟩ | hchanges
  · exact (hjump hj).elim
  · exact (hbare x hx r hr).elim
  · exact (hmem huses st hst hw).elim
  · apply LIRExpr.eval_congr
    · intro x hx
      by_contra hne
      exact hchanges x hx ⟨s, evs, s', hrun, hne⟩
    · exact fun huses => ((straight (not_exists.mp hjump) hrun).2 (hmem huses)).mem

/-! ## Where it is not -/

/-- An expression that reads the temps of `e`, none of them for an address, and is zero. -/
def muteAddress : LIRExpr → LIRExpr
  | .const _ => .const 0
  | .temp x => .op .MUL (.const 0) (.temp x)
  | .name _ => .const 0
  | .mem address => muteAddress address
  | .op _ left right => .op .ADD (muteAddress left) (muteAddress right)

/-- An expression that reads what `e` reads, memory at the address `p`, and is zero. -/
def mute (p : Word) : LIRExpr → LIRExpr
  | .const _ => .const 0
  | .temp x => .op .MUL (.const 0) (.temp x)
  | .name _ => .const 0
  | .mem address => .op .MUL (.const 0) (.mem (.op .ADD (.const p) (muteAddress address)))
  | .op _ left right => .op .ADD (mute p left) (mute p right)

/-- It evaluates to zero in every store. -/
theorem eval_muteAddress (e : LIRExpr) : (muteAddress e).eval S s = some 0 := by
  induction e with
  | const | name | temp => simp [muteAddress, LIRExpr.eval, OpType.eval]
  | mem address ih => exact ih
  | op o left right ihl ihr => simp [muteAddress, LIRExpr.eval, OpType.eval, ihl, ihr]

/-- It reads the same temps. -/
theorem reads_muteAddress {x : String} : (muteAddress e).Reads x ↔ e.Reads x := by
  induction e with
  | const | name | temp => simp [muteAddress, LIRExpr.Reads]
  | mem address ih => exact ih
  | op o left right ihl ihr => rw [muteAddress, LIRExpr.Reads, LIRExpr.Reads, ihl, ihr]

/-- It evaluates to zero, as long as the word it loads is there. -/
theorem eval_mute {p : Word} (h : e.UsesMem → ∃ v, S.read s.mem p = some v) :
    (mute p e).eval S s = some 0 := by
  induction e with
  | const | name | temp => simp [mute, LIRExpr.eval, OpType.eval]
  | mem address =>
    obtain ⟨v, hv⟩ := h trivial
    simp [mute, LIRExpr.eval, OpType.eval, eval_muteAddress, hv]
  | op o left right ihl ihr =>
    simp [mute, LIRExpr.eval, OpType.eval, ihl fun hl => h (.inl hl), ihr fun hr => h (.inr hr)]

/-- It reads the same. -/
theorem sameReads_mute (p : Word) (e : LIRExpr) : e.SameReads (mute p e) := by
  induction e with
  | const | name | temp =>
    constructor <;> simp [mute, LIRExpr.ReadsBare, LIRExpr.ReadsBelow, LIRExpr.UsesMem]
  | mem address =>
    constructor <;> simp [mute, LIRExpr.ReadsBare, LIRExpr.ReadsBelow, LIRExpr.UsesMem, LIRExpr.Reads,
      reads_muteAddress]
  | op o left right ihl ihr =>
    constructor
    · intro x
      rw [mute, LIRExpr.ReadsBare, LIRExpr.ReadsBare, ihl.bare, ihr.bare]
    · intro x
      rw [mute, LIRExpr.ReadsBelow, LIRExpr.ReadsBelow, ihl.below, ihr.below]
    · rw [mute, LIRExpr.UsesMem, LIRExpr.UsesMem, ihl.usesMem, ihr.usesMem]

/-- A read that traps while the temp holds the value, and not any more when it does not. -/
def readUnless (x : String) (v p : Word) : LIRExpr :=
  .mem (.op .ADD (.const p) (.op .MUL (.const 0) (.op .DIV (.const 1) (.op .SUB (.temp x) (.const v)))))

/-- It traps as long as the temp has its value. -/
theorem eval_readUnless (p : Word) :
    (readUnless x (s.temps x) p).eval S s = none := by
  simp [readUnless, LIRExpr.eval, OpType.eval]

/-- With another value, it loads a word. -/
theorem eval_readUnless_of_ne {v p : Word} (h : s'.temps x ≠ v) :
    (readUnless x v p).eval S s' = S.read s'.mem p := by
  have hsub : s'.temps x - v ≠ 0 := fun h0 => h (by bv_omega)
  have hdiv : OpType.DIV.eval 1 (s'.temps x - v) = some ((1 : Word).sdiv (s'.temps x - v)) :=
    if_neg hsub
  simp only [readUnless, LIRExpr.eval, Option.bind_eq_bind, Option.bind_some,
    show OpType.SUB.eval (s'.temps x) v = some (s'.temps x - v) from rfl, hdiv]
  simp [OpType.eval]

/-- An expression with the same reads that commutes and has another value behind the list, if the list
changes a temp of `e` and nothing else gives it away. -/
theorem exists_unsound (hread : ∀ m : M, ∃ p v, S.read m p = some v) (h : ¬Detected S stmts e) :
    ∃ e', e.SameReads e' ∧ ¬Sound S globals stmts e' := by
  simp only [Detected, not_or, not_forall, not_not] at h
  obtain ⟨hjump, hbare, hmem, x, hx, s, evs, s', hrun, hne⟩ := h
  obtain ⟨hfold, hkeeps⟩ := straight (not_exists.mp hjump) hrun
  obtain ⟨u, hu⟩ := hfold {}
  obtain ⟨p, v, hpv⟩ := hread s'.mem
  -- Whatever reads the same temps in the same places commutes as well.
  have hcommutes : ∀ e', e.SameReads e' → commutes globals stmts e' = some true := by
    intro e' hsame
    refine commutes_iff.mpr ⟨u, hu, Used.of_nil.foldlM hu, ?_⟩
    refine (exprCommutes_iff (Used.of_nil.foldlM hu) (not_exists.mp hjump)).mpr ⟨?_, ?_⟩
    · exact fun y hy r hr => hbare ⟨y, (hsame.bare y).mp hy, r, hr⟩
    · exact fun huses st hst hw => hmem ⟨hsame.usesMem.mp huses, st, hst, hw⟩
  have hmute := sameReads_mute p e
  have hmem_eq : e.UsesMem → s'.mem = s.mem := fun huses =>
    (hkeeps fun st hst hw => hmem ⟨huses, st, hst, hw⟩).mem
  have hzero : (mute p e).eval S s = some 0 :=
    eval_mute fun huses => ⟨v, by rw [← hmem_eq huses]; exact hpv⟩
  have hzero' : (mute p e).eval S s' = some 0 := eval_mute fun _ => ⟨v, hpv⟩
  rcases LIRExpr.reads_iff.mp hx with hx | hx
  · -- The temp itself, next to the rest.
    have hsame : e.SameReads (.op .ADD (mute p e) (.temp x)) := by
      refine ⟨fun y => ?_, fun y => ?_, ?_⟩
      · rw [LIRExpr.ReadsBare, hmute.bare, LIRExpr.ReadsBare, or_iff_left_iff_imp]
        rintro rfl
        exact hx
      · simp [LIRExpr.ReadsBelow, hmute.below]
      · simp [LIRExpr.UsesMem, hmute.usesMem]
    refine ⟨_, hsame, fun hsound => ?_⟩
    have heval := hsound (hcommutes _ hsame) s evs s' hrun
    simp only [LIRExpr.eval, hzero, hzero', Option.bind_eq_bind, Option.bind_some, OpType.eval,
      Option.some.injEq, zero_add] at heval
    exact hne heval
  · -- A read that traps before the list runs.
    have hsame : e.SameReads (.op .ADD (mute p e) (readUnless x (s.temps x) p)) := by
      refine ⟨fun y => ?_, fun y => ?_, ?_⟩
      · simp [LIRExpr.ReadsBare, hmute.bare, readUnless]
      · rw [LIRExpr.ReadsBelow, hmute.below, or_iff_left_iff_imp]
        intro hy
        simp only [readUnless, LIRExpr.ReadsBelow, LIRExpr.Reads, false_or, or_false] at hy
        rw [hy]
        exact hx
      · simp [LIRExpr.UsesMem, hmute.usesMem, readUnless, LIRExpr.usesMem_of_readsBelow hx]
    refine ⟨_, hsame, fun hsound => ?_⟩
    have heval := hsound (hcommutes _ hsame) s evs s' hrun
    rw [LIRExpr.eval, LIRExpr.eval, hzero, hzero', eval_readUnless, eval_readUnless_of_ne hne, hpv] at heval
    cases heval

/-- `commutes` is right about a list and an expression in the cases of `Detected`. No condition that only
asks what the expression reads, and where, can be weaker. -/
theorem commutes_sound_iff (hread : ∀ m : M, ∃ p v, S.read m p = some v) :
    (Detected S stmts e → Sound S globals stmts e) ∧
      ((∀ e', e.SameReads e' → Sound S globals stmts e') ↔ Detected S stmts e) := by
  refine ⟨Detected.sound, ?_, ?_⟩
  · intro h
    by_contra hnot
    obtain ⟨e', hsame, hunsound⟩ := exists_unsound hread hnot
    exact hunsound (h e' hsame)
  · intro h e' hsame
    apply Detected.sound
    refine h.imp_right fun h => Or.imp ?_ (Or.imp ?_ ?_) h
    · rintro ⟨x, hx, hr⟩
      exact ⟨x, (hsame.bare x).mpr hx, hr⟩
    · rintro ⟨huses, hw⟩
      exact ⟨hsame.usesMem.mpr huses, hw⟩
    · intro hchanges x hx
      rw [LIRExpr.reads_iff, hsame.bare, hsame.below, ← LIRExpr.reads_iff] at hx
      exact hchanges x hx

/-- A list that changes one temp and an expression that reads another. -/
theorem commutes_sound_other :
    (Detected (Bytes.storage fun _ => 0) [.move (.temp "x") (.const 8)] (.temp "y") →
      Sound (Bytes.storage fun _ => 0) [] [.move (.temp "x") (.const 8)] (.temp "y")) ∧
    ((∀ e', (LIRExpr.temp "y").SameReads e' →
        Sound (Bytes.storage fun _ => 0) [] [.move (.temp "x") (.const 8)] e') ↔
      Detected (Bytes.storage fun _ => 0) [.move (.temp "x") (.const 8)] (.temp "y")) :=
  commutes_sound_iff fun m => ⟨0, m.load 0, rfl⟩

/-- The address of a read is set by a move that commutes with it. -/
theorem address_commutes :
    commutes [] [.move (.temp "x") (.const 8)] (.mem (.temp "x")) = some true ∧
      ∃ (s s' : Store Bytes) (evs : List (Event Bytes)),
        Runs (Bytes.storage fun _ => 0) [.move (.temp "x") (.const 8)] s evs s' ∧
        (LIRExpr.mem (.temp "x")).eval (Bytes.storage fun _ => 0) s ≠
          (LIRExpr.mem (.temp "x")).eval (Bytes.storage fun _ => 0) s' := by
  refine ⟨rfl, ⟨fun _ => 0, fun a => if a = 8 then 1 else 0⟩, _, _,
    .event (.exec (.moveTemp rfl)) (.refl _), ?_⟩
  decide

end IRLowerer

end Jaek
