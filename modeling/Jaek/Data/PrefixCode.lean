import Mathlib

/-!
# Codes that can be read back

An encoding of values as words is prefix free when a text that starts with a code word starts with only
one, so that code words can be written one behind the other without separators. Also here: words that
end where a class of letters ends, and words whose delimiter is doubled inside.
-/

namespace PrefixCode

variable {α γ : Type*}

/-- The code words of the values in `P` can be told apart whatever follows them. -/
def PrefixFree (P : α → Prop) (f : α → List γ) : Prop :=
  ∀ ⦃a b s t⦄, P a → P b → f a ++ s = f b ++ t → a = b ∧ s = t

variable {P : α → Prop} {f : α → List γ}

/-- Sequences of equally many code words can be told apart whatever follows them. -/
theorem PrefixFree.flatMap (h : PrefixFree P f) {as bs : List α} {s t : List γ}
    (has : ∀ a ∈ as, P a) (hbs : ∀ b ∈ bs, P b) (hlen : as.length = bs.length)
    (heq : as.flatMap f ++ s = bs.flatMap f ++ t) : as = bs ∧ s = t := by
  induction as generalizing bs with
  | nil =>
    rw [List.length_nil, eq_comm, List.length_eq_zero_iff] at hlen
    subst hlen
    exact ⟨rfl, heq⟩
  | cons a as ih =>
    match bs, hlen with
    | b :: bs, hlen =>
      rw [List.flatMap_cons, List.flatMap_cons, List.append_assoc, List.append_assoc] at heq
      have hhead := h (has a List.mem_cons_self) (hbs b List.mem_cons_self) heq
      have htail := ih (fun x hx => has x (List.mem_cons_of_mem _ hx))
        (fun x hx => hbs x (List.mem_cons_of_mem _ hx)) (Nat.succ.inj hlen) hhead.2
      exact ⟨by rw [hhead.1, htail.1], htail.2⟩

/-- A text made of nonempty code words only is read in one way. -/
theorem PrefixFree.flatMap_injective (h : PrefixFree P f) (hne : ∀ a, P a → f a ≠ [])
    {as bs : List α} (has : ∀ a ∈ as, P a) (hbs : ∀ b ∈ bs, P b)
    (heq : as.flatMap f = bs.flatMap f) : as = bs := by
  induction as generalizing bs with
  | nil =>
    match bs with
    | [] => rfl
    | b :: bs =>
      rw [List.flatMap_nil, List.flatMap_cons, eq_comm, List.append_eq_nil_iff] at heq
      exact absurd heq.1 (hne b (hbs b List.mem_cons_self))
  | cons a as ih =>
    match bs with
    | [] =>
      rw [List.flatMap_nil, List.flatMap_cons, List.append_eq_nil_iff] at heq
      exact absurd heq.1 (hne a (has a List.mem_cons_self))
    | b :: bs =>
      rw [List.flatMap_cons, List.flatMap_cons] at heq
      have hhead := h (has a List.mem_cons_self) (hbs b List.mem_cons_self) heq
      rw [hhead.1, ih (fun x hx => has x (List.mem_cons_of_mem _ hx))
        (fun x hx => hbs x (List.mem_cons_of_mem _ hx)) hhead.2]

/-- A word ends where the letters it is made of end. -/
theorem append_inj_of_all {p : γ → Prop} {u v s t : List γ} (hu : ∀ c ∈ u, p c)
    (hv : ∀ c ∈ v, p c) (hs : ∀ c, s.head? = some c → ¬ p c) (ht : ∀ c, t.head? = some c → ¬ p c)
    (heq : u ++ s = v ++ t) : u = v ∧ s = t := by
  induction u generalizing v with
  | nil =>
    match v with
    | [] => exact ⟨rfl, heq⟩
    | c :: v =>
      have hhead : s.head? = some c := congrArg List.head? heq
      exact absurd (hv c List.mem_cons_self) (hs c hhead)
  | cons c u ih =>
    match v with
    | [] =>
      have hhead : t.head? = some c := congrArg List.head? heq.symm
      exact absurd (hu c List.mem_cons_self) (ht c hhead)
    | d :: v =>
      rw [List.cons_append, List.cons_append, List.cons.injEq] at heq
      have htail := ih (fun x hx => hu x (List.mem_cons_of_mem _ hx))
        (fun x hx => hv x (List.mem_cons_of_mem _ hx)) heq.2
      exact ⟨by rw [heq.1, htail.1], htail.2⟩

variable [DecidableEq γ]

/-- A word with every `d` doubled. -/
def double (d : γ) (w : List γ) : List γ := w.flatMap fun c => if c = d then [d, d] else [c]

/-- A doubled word ends at the first `d` that stands alone. -/
theorem double_inj {d : γ} {u v s t : List γ} (hs : s.head? ≠ some d) (ht : t.head? ≠ some d)
    (heq : double d u ++ d :: s = double d v ++ d :: t) : u = v ∧ s = t := by
  have hend : ∀ {w s t : List γ} {c : γ}, s.head? ≠ some d →
      d :: s ≠ double d (c :: w) ++ d :: t := by
    intro w s t c hs heq
    rw [double, List.flatMap_cons] at heq
    split_ifs at heq with hc
    · exact hs (by rw [(List.cons.inj heq).2]; rfl)
    · exact hc (List.cons.inj heq).1.symm
  induction u generalizing v with
  | nil =>
    match v with
    | [] => exact ⟨rfl, (List.cons.inj heq).2⟩
    | c :: v => exact absurd heq (hend hs)
  | cons c u ih =>
    match v with
    | [] => exact absurd heq.symm (hend ht)
    | e :: v =>
      have hstep : c = e ∧ double d u ++ d :: s = double d v ++ d :: t := by
        simp only [double, List.flatMap_cons] at heq ⊢
        split_ifs at heq with hc he he
        · exact ⟨hc.trans he.symm, by simpa using heq⟩
        · exact absurd (List.cons.inj heq).1.symm he
        · exact absurd (List.cons.inj heq).1 hc
        · exact ⟨(List.cons.inj heq).1, (List.cons.inj heq).2⟩
      have htail := ih hstep.2
      exact ⟨by rw [hstep.1, htail.1], htail.2⟩

end PrefixCode
