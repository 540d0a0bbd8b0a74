import Mathlib

/-!
# Maps that remember the order of insertion

A `LinkedMap` is a list of entries with distinct keys. Inserting under a new key appends; inserting
under an old one changes the value in place. `get?` is the lookup all other operations are described by.
-/

/-- A finite map whose entries stand in the order in which their keys came. -/
structure LinkedMap (α β : Type*) where
  entries : List (α × β)
  nodup : (entries.map Prod.fst).Nodup

namespace LinkedMap

variable {α β : Type*}

/-- The empty map. -/
def empty : LinkedMap α β := ⟨[], List.nodup_nil⟩

/-- The keys, in the order in which they were put in. -/
def keys (m : LinkedMap α β) : List α := m.entries.map Prod.fst

variable [DecidableEq α]

/-- The value of a key. -/
def get? (m : LinkedMap α β) (a : α) : Option β :=
  (m.entries.find? fun p => p.1 = a).map Prod.snd

/-- The entries after putting `b` under `a`. -/
def insertEntries (entries : List (α × β)) (a : α) (b : β) : List (α × β) :=
  match entries with
  | [] => [(a, b)]
  | p :: entries => if p.1 = a then (a, b) :: entries else p :: insertEntries entries a b

/-- A new key goes to the end, and one that is there keeps its place. -/
theorem map_fst_insertEntries (entries : List (α × β)) (a : α) (b : β) :
    (insertEntries entries a b).map Prod.fst =
      if a ∈ entries.map Prod.fst then entries.map Prod.fst else entries.map Prod.fst ++ [a] := by
  induction entries with
  | nil => simp [insertEntries]
  | cons p entries ih =>
    rw [insertEntries]
    by_cases h : p.1 = a
    · simp [h]
    · have h' : ¬ a = p.1 := Ne.symm h
      rw [if_neg h, List.map_cons, ih, List.map_cons]
      by_cases hmem : a ∈ entries.map Prod.fst
      · rw [if_pos hmem, if_pos (List.mem_cons_of_mem _ hmem)]
      · rw [if_neg hmem, if_neg (by simp only [List.mem_cons, not_or]; exact ⟨h', hmem⟩)]
        rfl

/-- Put `b` under `a`. -/
def insert (m : LinkedMap α β) (a : α) (b : β) : LinkedMap α β where
  entries := insertEntries m.entries a b
  nodup := by
    rw [map_fst_insertEntries]
    split
    · exact m.nodup
    · rename_i h
      exact List.nodup_append.mpr ⟨m.nodup, List.nodup_singleton a, by
        rintro x hx y hy rfl
        rw [List.mem_singleton] at hy
        exact h (hy ▸ hx)⟩

/-- Remove the entry under `a`. -/
def erase (m : LinkedMap α β) (a : α) : LinkedMap α β where
  entries := m.entries.filter fun p => p.1 ≠ a
  nodup := (List.filter_sublist.map _).nodup m.nodup

/-- Put `b` under `a` unless there is a value already. -/
def insertIfAbsent (m : LinkedMap α β) (a : α) (b : β) : LinkedMap α β :=
  if (m.get? a).isSome then m else m.insert a b

@[simp] theorem get?_empty (a : α) : (empty : LinkedMap α β).get? a = none := rfl

/-- Looking up a key after an insertion. -/
theorem get?_insert (m : LinkedMap α β) (a c : α) (b : β) :
    (m.insert a b).get? c = if c = a then some b else m.get? c := by
  obtain ⟨entries, nodup⟩ := m
  simp only [get?, insert]
  clear nodup
  induction entries with
  | nil =>
    by_cases h : c = a
    · simp [insertEntries, h]
    · simp [insertEntries, h, Ne.symm h]
  | cons p entries ih =>
    rw [insertEntries]
    by_cases hpa : p.1 = a
    · rw [if_pos hpa]
      by_cases h : c = a
      · simp [h]
      · simp [h, Ne.symm h, hpa]
    · rw [if_neg hpa]
      by_cases hpc : p.1 = c
      · have h : ¬ c = a := fun h => hpa (hpc.trans h)
        simp [hpc, h]
      · rw [List.find?_cons_of_neg (by simpa using hpc), ih,
          List.find?_cons_of_neg (by simpa using hpc)]

@[simp] theorem get?_insert_self (m : LinkedMap α β) (a : α) (b : β) :
    (m.insert a b).get? a = some b := by rw [get?_insert, if_pos rfl]

/-- An insertion changes one key. -/
theorem get?_insert_of_ne (m : LinkedMap α β) {a c : α} (b : β) (h : c ≠ a) :
    (m.insert a b).get? c = m.get? c := by rw [get?_insert, if_neg h]

/-- Looking up a key after a removal. -/
theorem get?_erase (m : LinkedMap α β) (a c : α) :
    (m.erase a).get? c = if c = a then none else m.get? c := by
  obtain ⟨entries, nodup⟩ := m
  simp only [get?, erase]
  clear nodup
  induction entries with
  | nil => simp
  | cons p entries ih =>
    by_cases hpa : p.1 = a
    · rw [List.filter_cons_of_neg (by simpa using hpa), ih]
      by_cases h : c = a
      · simp [h]
      · rw [if_neg h, if_neg h, List.find?_cons_of_neg (by simp [hpa, Ne.symm h])]
    · rw [List.filter_cons_of_pos (by simpa using hpa)]
      by_cases hpc : p.1 = c
      · have h : ¬ c = a := fun h => hpa (hpc.trans h)
        simp [hpc, h]
      · rw [List.find?_cons_of_neg (by simpa using hpc), ih,
          List.find?_cons_of_neg (by simpa using hpc)]

/-- Looking up a key after a value was put in for a key without one. -/
theorem get?_insertIfAbsent (m : LinkedMap α β) (a c : α) (b : β) :
    (m.insertIfAbsent a b).get? c = if c = a then some ((m.get? a).getD b) else m.get? c := by
  unfold insertIfAbsent
  cases h : m.get? a with
  | none => simp [get?_insert]
  | some v =>
    by_cases hc : c = a
    · simp [hc, h]
    · simp [hc]

/-- The entries are the graph of the lookup. -/
theorem mem_entries_iff (m : LinkedMap α β) {a : α} {b : β} :
    (a, b) ∈ m.entries ↔ m.get? a = some b := by
  obtain ⟨entries, nodup⟩ := m
  simp only [get?]
  induction entries with
  | nil => simp
  | cons p entries ih =>
    rw [List.map_cons, List.nodup_cons] at nodup
    have ih := ih nodup.2
    by_cases h : p.1 = a
    · have hnot : (a, b) ∉ entries := fun hmem => nodup.1 (h ▸ List.mem_map_of_mem hmem)
      have heq : (a, b) = p ↔ p.2 = b := by
        rw [Prod.ext_iff]
        exact ⟨fun hab => hab.2.symm, fun hb => ⟨h.symm, hb.symm⟩⟩
      simp [h, hnot, heq]
    · have hne : (a, b) ≠ p := fun heq => h (congrArg Prod.fst heq).symm
      rw [List.find?_cons_of_neg (by simpa using h), List.mem_cons, ih]
      exact or_iff_right hne

/-- The keys are what has a value. -/
theorem mem_keys_iff (m : LinkedMap α β) {a : α} : a ∈ m.keys ↔ (m.get? a).isSome := by
  rw [keys, List.mem_map]
  constructor
  · rintro ⟨⟨a', b⟩, hmem, rfl⟩
    rw [(m.mem_entries_iff).mp hmem]
    rfl
  · intro h
    obtain ⟨b, hb⟩ := Option.isSome_iff_exists.mp h
    exact ⟨(a, b), m.mem_entries_iff.mpr hb, rfl⟩

/-- A new key goes to the end. -/
theorem entries_insert_of_none {m : LinkedMap α β} {a : α} (b : β) (h : m.get? a = none) :
    (m.insert a b).entries = m.entries ++ [(a, b)] := by
  obtain ⟨entries, nodup⟩ := m
  simp only [get?, insert, Option.map_eq_none_iff] at h ⊢
  clear nodup
  induction entries with
  | nil => rfl
  | cons p entries ih =>
    rw [List.find?_cons] at h
    split at h
    · cases h
    · rename_i hpa
      rw [insertEntries, if_neg (by simpa using hpa), ih h, List.cons_append]

/-- Putting a value where it is changes nothing. -/
theorem insert_eq_self {m : LinkedMap α β} {a : α} {b : β} (h : m.get? a = some b) :
    m.insert a b = m := by
  obtain ⟨entries, nodup⟩ := m
  have hentries : insertEntries entries a b = entries := by
    simp only [get?] at h
    clear nodup
    induction entries with
    | nil => cases h
    | cons p entries ih =>
      rw [List.find?_cons] at h
      by_cases hpa : p.1 = a
      · simp only [hpa, decide_true, Option.map_some, Option.some.injEq] at h
        rw [insertEntries, if_pos hpa, ← hpa, ← h]
      · simp only [hpa, decide_false] at h
        rw [insertEntries, if_neg hpa, ih h]
  simp only [insert, hentries]

/-- Removing what is not there changes nothing. -/
theorem erase_eq_self {m : LinkedMap α β} {a : α} (h : m.get? a = none) : m.erase a = m := by
  have hentries : (m.erase a).entries = m.entries := by
    refine List.filter_eq_self.mpr fun p hp => ?_
    have hget := m.mem_entries_iff.mp hp
    rw [decide_eq_true_eq]
    rintro rfl
    cases h.symm.trans hget
  obtain ⟨entries, nodup⟩ := m
  simpa [erase] using hentries

/-- Apply a function to every value. -/
def mapValues {γ : Type*} (m : LinkedMap α β) (f : β → γ) : LinkedMap α γ where
  entries := m.entries.map fun p => (p.1, f p.2)
  nodup := by
    rw [List.map_map]
    exact m.nodup

/-- Looking up a key after every value was changed. -/
theorem get?_mapValues {γ : Type*} (m : LinkedMap α β) (f : β → γ) (a : α) :
    (m.mapValues f).get? a = (m.get? a).map f := by
  simp only [get?, mapValues, List.find?_map, Option.map_map]
  rfl

/-- The number of entries in front of the one under `a`. -/
def place (m : LinkedMap α β) (a : α) : Option ℕ := m.keys.idxOf? a

/-- A key with a value has a place. -/
theorem place_isSome (m : LinkedMap α β) (a : α) : (m.place a).isSome = (m.get? a).isSome := by
  rw [Bool.eq_iff_iff, ← mem_keys_iff, place, List.isSome_idxOf?]

/-- The place is that of the key among the keys. -/
theorem place_eq_some (m : LinkedMap α β) {a : α} {n : ℕ} :
    m.place a = some n ↔ m.keys[n]? = some a := by
  rw [place, List.idxOf?_eq_some_iff, List.getElem?_eq_some_iff]
  constructor
  · rintro ⟨h, ha, -⟩
    exact ⟨h, ha⟩
  · rintro ⟨h, ha⟩
    refine ⟨h, ha, ?_⟩
    rintro j hj heq
    have hij := (List.Nodup.getElem_inj_iff m.nodup).mp (heq.trans ha.symm)
    omega

end LinkedMap
