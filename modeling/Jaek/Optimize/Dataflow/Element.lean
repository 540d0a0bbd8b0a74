import Jaek.Lowered.OpType

/-!
# The elements of the constant analysis

`Element.kt` and `Meet.kt`: what is known of a variable, and whether control gets to an edge. The top
element says that nothing has been seen yet. Two known values meet in the bottom, equal ones too.
-/

namespace Jaek

namespace Element

/-- `Definition`: no value known yet, one constant, or more than one. -/
inductive Definition
  | Top
  | Data (t : Word)
  | Bottom
deriving DecidableEq, Repr

/-- `Top` is an edge to which control has not got. -/
inductive Unreachability
  | Top
  | Bottom
deriving DecidableEq, Repr

/-- `RealMeet.meet` with the `meetData` of definitions. -/
def Definition.meet : Definition → Definition → Definition
  | Bottom, _ => Bottom
  | _, Bottom => Bottom
  | Top, e2 => e2
  | e1, Top => e1
  | Data _, Data _ => Bottom

/-- `meet` of the reachability. -/
def Unreachability.meet : Unreachability → Unreachability → Unreachability
  | Bottom, _ => Bottom
  | _, Bottom => Bottom
  | Top, Top => Top

/-! ## The orders -/

namespace Definition

/-- `Bottom` below `Data c` below `Top`. -/
instance : PartialOrder Definition where
  le a b := a = Bottom ∨ a = b ∨ b = Top
  le_refl a := .inr (.inl rfl)
  le_trans a b c := by
    rintro (rfl | rfl | rfl) hbc
    · exact .inl rfl
    · exact hbc
    · rcases hbc with hbot | rfl | rfl
      · cases hbot
      · exact .inr (.inr rfl)
      · exact .inr (.inr rfl)
  le_antisymm a b := by
    rintro (rfl | rfl | rfl) hba
    · rcases hba with hba | hba | hba
      · exact hba.symm
      · exact hba.symm
      · cases hba
    · rfl
    · rcases hba with hba | hba | hba
      · cases hba
      · exact hba.symm
      · exact hba

/-- The order, from the meet. -/
theorem le_iff {a b : Definition} : a ≤ b ↔ a = Bottom ∨ a = b ∨ b = Top := Iff.rfl

@[simp] theorem bottom_le (a : Definition) : Bottom ≤ a := .inl rfl

@[simp] theorem le_top (a : Definition) : a ≤ Top := .inr (.inr rfl)

@[simp] theorem top_le {a : Definition} : Top ≤ a ↔ a = Top := by
  rw [le_iff]
  simp [eq_comm]

@[simp] theorem le_bottom {a : Definition} : a ≤ Bottom ↔ a = Bottom := by
  rw [le_iff]
  simp

/-- What is below a constant. -/
theorem le_data {a : Definition} {t : Word} : a ≤ Data t ↔ a = Bottom ∨ a = Data t := by
  rw [le_iff]
  simp

@[simp] theorem meet_bottom (a : Definition) : a.meet Bottom = Bottom := by cases a <;> rfl

@[simp] theorem bottom_meet (a : Definition) : Bottom.meet a = Bottom := rfl

@[simp] theorem top_meet (a : Definition) : Top.meet a = a := by cases a <;> rfl

@[simp] theorem meet_top (a : Definition) : a.meet Top = a := by cases a <;> rfl

/-- The meet is a lower bound. -/
theorem meet_le_left (a b : Definition) : a.meet b ≤ a := by
  cases a with
  | Top => exact le_top _
  | Bottom => exact bottom_le _
  | Data t => cases b <;> simp [meet, le_data]

/-- The meet is a lower bound. -/
theorem meet_le_right (a b : Definition) : a.meet b ≤ b := by
  cases b with
  | Top => exact le_top _
  | Bottom => rw [meet_bottom]
  | Data t => cases a <;> simp [meet, le_data]

/-- The meet is monotone. -/
theorem meet_le_meet {a a' b b' : Definition} (ha : a ≤ a') (hb : b ≤ b') : a.meet b ≤ a'.meet b' := by
  rcases ha with rfl | rfl | rfl
  · exact bottom_le _
  · rcases hb with rfl | rfl | rfl
    · rw [meet_bottom]
      exact bottom_le _
    · exact le_rfl
    · rw [meet_top]
      exact meet_le_left a b
  · rw [top_meet]
    exact (meet_le_right a b).trans hb

/-- How often a value can still fall. -/
def rank : Definition → ℕ
  | Top => 2
  | Data _ => 1
  | Bottom => 0

/-- The rank does not go up along the order. -/
theorem rank_le {a b : Definition} (h : a ≤ b) : a.rank ≤ b.rank := by
  rcases h with rfl | rfl | rfl
  · exact Nat.zero_le _
  · exact le_rfl
  · cases a <;> simp [rank]

/-- It goes down along a strict step, so a value can be lowered twice at most. -/
theorem rank_lt {a b : Definition} (h : a ≤ b) (hne : a ≠ b) : a.rank < b.rank := by
  rcases h with rfl | rfl | rfl
  · cases b with
    | Bottom => exact absurd rfl hne
    | Data t => exact Nat.one_pos
    | Top => exact Nat.two_pos
  · exact absurd rfl hne
  · cases a with
    | Top => exact absurd rfl hne
    | Data t => exact Nat.one_lt_two
    | Bottom => exact Nat.two_pos

end Definition

namespace Unreachability

/-- Reachable below unreachable. -/
instance : PartialOrder Unreachability where
  le a b := a = Bottom ∨ b = Top
  le_refl a := by cases a <;> simp
  le_trans a b c := by
    rintro (rfl | rfl) hbc
    · exact .inl rfl
    · exact .inr (hbc.resolve_left (by decide))
  le_antisymm a b := by
    rintro (rfl | rfl) hba
    · exact (hba.resolve_right (by decide)).symm
    · exact hba.resolve_left (by decide)

/-- The order, from the meet. -/
theorem le_iff {a b : Unreachability} : a ≤ b ↔ a = Bottom ∨ b = Top := Iff.rfl

@[simp] theorem bottom_le (a : Unreachability) : Bottom ≤ a := .inl rfl

@[simp] theorem le_top (a : Unreachability) : a ≤ Top := .inr rfl

@[simp] theorem top_le {a : Unreachability} : Top ≤ a ↔ a = Top := by
  rw [le_iff]
  simp

@[simp] theorem le_bottom {a : Unreachability} : a ≤ Bottom ↔ a = Bottom := by
  rw [le_iff]
  simp

/-- A meet with a reachable edge is reachable. -/
theorem meet_eq_bottom {a b : Unreachability} : a.meet b = Bottom ↔ a = Bottom ∨ b = Bottom := by
  cases a <;> cases b <;> simp [meet]

/-- The meet is monotone. -/
theorem meet_le_meet {a a' b b' : Unreachability} (ha : a ≤ a') (hb : b ≤ b') :
    a.meet b ≤ a'.meet b' := by
  rcases ha with rfl | rfl
  · exact bottom_le _
  · rcases hb with rfl | rfl
    · rw [meet_eq_bottom.mpr (.inr rfl)]
      exact bottom_le _
    · exact le_top _

end Unreachability

end Element

end Jaek
