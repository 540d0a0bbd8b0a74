import Jaek.Optimize.CFG.Semantics

/-!
# Rewriting the nodes of a graph

A pass rewrites the first statement of a node, or its guard, with what is known when control enters the
node. `Rewritten.bisimulation` says that the graph then behaves as before.
-/

namespace Jaek

variable {M : Type*} {S : Storage M} {s : Store M}

/-- What a statement does from a store. -/
structure SameEffect (S : Storage M) (s : Store M) (st st' : FlatStmt) : Prop where
  exec : ∀ e s', Exec S st s e s' ↔ Exec S st' s e s'
  ret : ∀ vs, (∃ vals, st = .endBlock (.ret vals) ∧ evalList S s vals = some vs) ↔
    ∃ vals, st' = .endBlock (.ret vals) ∧ evalList S s vals = some vs

theorem SameEffect.refl (s : Store M) (st : FlatStmt) : SameEffect S s st st :=
  ⟨fun _ _ => Iff.rfl, fun _ => Iff.rfl⟩

theorem SameEffect.symm {st st' : FlatStmt} (h : SameEffect S s st st') : SameEffect S s st' st :=
  ⟨fun e s' => (h.exec e s').symm, fun vs => (h.ret vs).symm⟩

/-- Expressions with the same values make moves and calls with the same effect. -/
theorem SameEffect.gets {x : String} {e e' : LIRExpr} (h : e'.eval S s = e.eval S s) :
    SameEffect S s (.move (.temp x) e) (.move (.temp x) e') := by
  refine ⟨fun ev s' => ⟨?_, ?_⟩, fun vs => ?_⟩
  · rintro (hv | _)
    exact .moveTemp (h.trans hv)
  · rintro (hv | _)
    exact .moveTemp (h.symm.trans hv)
  · constructor <;> rintro ⟨vals, hst, -⟩ <;> cases hst

theorem SameEffect.store {a a' e e' : LIRExpr} (ha : a'.eval S s = a.eval S s)
    (he : e'.eval S s = e.eval S s) : SameEffect S s (.move (.mem a) e) (.move (.mem a') e') := by
  refine ⟨fun ev s' => ⟨?_, ?_⟩, fun vs => ?_⟩
  · rintro (_ | ⟨hp, hv, hwrite⟩)
    exact .moveMem (ha.trans hp) (he.trans hv) hwrite
  · rintro (_ | ⟨hp, hv, hwrite⟩)
    exact .moveMem (ha.symm.trans hp) (he.symm.trans hv) hwrite
  · constructor <;> rintro ⟨vals, hst, -⟩ <;> cases hst

theorem SameEffect.call {f : String} {n : ℕ} {args args' : List LIRExpr}
    (h : evalList S s args' = evalList S s args) :
    SameEffect S s (.callStmt f n args) (.callStmt f n args') := by
  refine ⟨fun ev s' => ⟨?_, ?_⟩, fun vs => ?_⟩
  · rintro (_ | _ | ⟨hvs, hlen⟩)
    exact .call (h.trans hvs) hlen
  · rintro (_ | _ | ⟨hvs, hlen⟩)
    exact .call (h.symm.trans hvs) hlen
  · constructor <;> rintro ⟨vals, hst, -⟩ <;> cases hst

theorem SameEffect.returns {vals vals' : List LIRExpr} (h : evalList S s vals' = evalList S s vals) :
    SameEffect S s (.endBlock (.ret vals)) (.endBlock (.ret vals')) := by
  refine ⟨fun ev s' => ⟨fun h => h.ne_endBlock.elim, fun h => h.ne_endBlock.elim⟩, fun vs => ⟨?_, ?_⟩⟩
  · rintro ⟨vals, hst, hvs⟩
    cases hst
    exact ⟨_, rfl, h.trans hvs⟩
  · rintro ⟨vals, hst, hvs⟩
    cases hst
    exact ⟨_, rfl, h.symm.trans hvs⟩

/-- `G'` is `G` with rewritten nodes, which do the same from the stores `P` on entry. -/
structure Rewritten (S : Storage M) (P : ℕ → Store M → Prop) (G G' : MatchMaker) : Prop where
  edge : ∀ p jump m, G.Edge p jump m ↔ G'.Edge p jump m
  nil : ∀ n, G.stmtsAt n = [] ↔ G'.stmtsAt n = []
  front : ∀ n s st rest, P n s → G.stmtsAt n = st :: rest →
    ∃ st', G'.stmtsAt n = st' :: rest ∧ SameEffect S s st st'
  leaves : ∀ n s, (G.stmtsAt n = [] → P n s) → G.leavesAt S s n = G'.leavesAt S s n

/-- The same point in the two graphs: on entry to a node, or behind its first statement. -/
inductive Matches (G G' : MatchMaker) : NodeConfig M → NodeConfig M → Prop
  | entry (n : ℕ) (s : Store M) : Matches G G' (G.entry n s) (G'.entry n s)
  | inside (n : ℕ) (rest : List FlatStmt) (s : Store M) (h : G.stmtsAt n ≠ []) :
      Matches G G' (.inside n rest s) (.inside n rest s)
  | returned : Matches G G' .returned .returned

namespace Rewritten

variable {P : ℕ → Store M → Prop} {G G' : MatchMaker}

theorem symm (h : Rewritten S P G G') : Rewritten S P G' G where
  edge p jump m := (h.edge p jump m).symm
  nil n := (h.nil n).symm
  front n s st' rest hP hst' := by
    cases hst : G.stmtsAt n with
    | nil =>
      rw [(h.nil n).mp hst] at hst'
      cases hst'
    | cons st rest₀ =>
      obtain ⟨st'', hst'', hsame⟩ := h.front n s st rest₀ hP hst
      cases hst''.symm.trans hst'
      exact ⟨st, rfl, hsame.symm⟩
  leaves n s hP := (h.leaves n s fun hnil => hP ((h.nil n).mp hnil)).symm

theorem matches_symm (h : Rewritten S P G G') {c c' : NodeConfig M} (hm : Matches G G' c c') :
    Matches G' G c' c := by
  cases hm with
  | entry n s => exact .entry n s
  | inside n rest s hne => exact .inside n rest s fun hnil => hne ((h.nil n).mpr hnil)
  | returned => exact .returned

/-- Behind its last statement a node is at the same point on both sides. -/
theorem matches_end (h : Rewritten S P G G') {c : NodeConfig M} {n : ℕ}
    (hm : Matches G G' c (.inside n [] s)) : c = .inside n [] s := by
  generalize hc' : NodeConfig.inside n [] s = c' at hm
  cases hm with
  | entry n' s' =>
    injection hc' with hn hrest hs
    subst hn hs
    rw [MatchMaker.entry, MatchMaker.entry, (h.nil n).mpr hrest.symm, ← hrest]
  | inside n' rest s' hne => rfl
  | returned => cases hc'

/-- Entering a node on both sides. -/
theorem match_leave (h : Rewritten S P G G') {n m : ℕ} {jump : Bool}
    (hP : G.stmtsAt n = [] → P n s) (hleaves : G.leavesAt S s n = some jump) (hedge : G.Edge n jump m) :
    (G'.lts S).step (.inside n [] s) none (G'.entry m s) :=
  .leave ((h.leaves n s hP).symm.trans hleaves) ((h.edge n jump m).mp hedge)

/-- A step is matched by a step. -/
theorem match_step (h : Rewritten S P G G') {c c' c₁ : NodeConfig M} {a : Option (Event M)}
    (hm : Matches G G' c c') (hP : ∀ n s, c = G.entry n s → c' = G'.entry n s → P n s)
    (hstep : (G.lts S).step c a c₁) : ∃ c₁', (G'.lts S).step c' a c₁' ∧ Matches G G' c₁ c₁' := by
  cases hm with
  | entry n s =>
    have hP := hP n s rfl rfl
    rw [MatchMaker.entry] at hstep ⊢
    cases hst : G.stmtsAt n with
    | nil =>
      rw [(h.nil n).mp hst]
      rw [hst] at hstep
      cases hstep with
      | leave hleaves hedge => exact ⟨_, h.match_leave (fun _ => hP) hleaves hedge, .entry _ _⟩
    | cons st rest =>
      have hne : G.stmtsAt n ≠ [] := by
        rw [hst]
        exact List.cons_ne_nil _ _
      obtain ⟨st', hst', hsame⟩ := h.front n s st rest hP hst
      rw [hst']
      rw [hst] at hstep
      cases hstep with
      | exec hexec => exact ⟨_, .exec ((hsame.exec _ _).mp hexec), .inside _ _ _ hne⟩
      | ret hvs =>
        obtain ⟨vals, rfl, hvs'⟩ := (hsame.ret _).mp ⟨_, rfl, hvs⟩
        exact ⟨_, .ret hvs', .returned⟩
  | inside n rest s hne =>
    cases hstep with
    | exec hexec => exact ⟨_, .exec hexec, .inside _ _ _ hne⟩
    | ret hvs => exact ⟨_, .ret hvs, .returned⟩
    | leave hleaves hedge =>
      exact ⟨_, h.match_leave (fun hnil => absurd hnil hne) hleaves hedge, .entry _ _⟩
  | returned => cases hstep

/-- If control enters nodes in stores with `P` only, the graphs behave alike. -/
theorem bisimulation (h : Rewritten S P G G') {I : NodeConfig M → Prop}
    (hI : ∀ c a c', I c → (G.lts S).step c a c' → I c') (hP : ∀ n s, I (G.entry n s) → P n s) :
    Lts.IsBisimulation (G.lts S) (G'.lts S) fun c c' => I c ∧ Matches G G' c c' := by
  constructor
  · rintro c c' a c₁ ⟨hc, hm⟩ hstep
    obtain ⟨c₁', hstep', hm₁⟩ := h.match_step hm (fun n s hcn _ => hP n s (hcn ▸ hc)) hstep
    exact ⟨c₁', .single hstep', hI _ _ _ hc hstep, hm₁⟩
  · rintro c' c a c₁' ⟨hc, hm⟩ hstep
    obtain ⟨c₁, hstep', hm₁⟩ := h.symm.match_step (h.matches_symm hm)
      (fun n s _ hcn => hP n s (hcn ▸ hc)) hstep
    exact ⟨c₁, .single hstep', hI _ _ _ hc hstep', h.symm.matches_symm hm₁⟩

end Rewritten

end Jaek
