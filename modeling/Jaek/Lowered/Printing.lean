import Jaek.Lowered.BlockGraph

/-!
# Two printings of one graph

A `Shape` is a graph whose nodes are plain statements with an exit. A `Printing` of it is a flat body that
contains the statements of every node, followed by code that does what the exit says, up to labels.
Two printings of one shape behave alike (`Printing.traces_eq`), as long as control does not run off the
end of the first one.
-/

namespace Jaek

variable {M : Type*} {S : Storage M}

/-- How control leaves a node: to the next node, by a jump, by a conditional jump with the node behind
it, by a return, or off the end of the body. -/
inductive Exit
  | fall (j : ℕ)
  | jump (j : ℕ)
  | branch (guard : LIRExpr) (j : ℕ) (k : Option ℕ)
  | stop
  | off

def Exit.targets : Exit → List ℕ
  | fall j => [j]
  | jump j => [j]
  | branch _ j k => j :: k.toList
  | stop => []
  | off => []

/-- A graph of plain statements. A node that is led to has statements or a jump. -/
structure Shape where
  nodes : Set ℕ
  stmts : ℕ → List FlatStmt
  exit : ℕ → Exit
  plain : ∀ i ∈ nodes, ∀ st ∈ stmts i, st.Plain
  stop : ∀ i ∈ nodes, exit i = .stop → ∃ vals, stmts i = [.endBlock (.ret vals)]
  closed : ∀ i ∈ nodes, ∀ j ∈ (exit i).targets, j ∈ nodes
  progress : ∀ i ∈ nodes, ∀ j ∈ (exit i).targets, stmts j = [] → ∀ k, exit j ≠ .fall k

/-- Control does not run off the end of the body behind node `i`. -/
def Shape.Goes (G : Shape) (S : Storage M) (i : ℕ) (s : Store M) : Prop :=
  G.exit i ≠ .off ∧ ∀ g j, G.exit i = .branch g j none → g.eval S s ≠ some 0

/-- Only labels stand before `p`. -/
def Arrives (rest p : List FlatStmt) : Prop := ∃ ls : List String, rest = ls.map .label ++ p

/-- A body that contains the graph: `tail i` is the code behind the statements of node `i`. -/
structure Printing (G : Shape) (code : List FlatStmt) where
  tail : ℕ → List FlatStmt
  fall : ∀ i ∈ G.nodes, ∀ j, G.exit i = .fall j → Arrives (tail i) (G.stmts j ++ tail j)
  jump : ∀ i ∈ G.nodes, ∀ j, G.exit i = .jump j → ∃ l rest rest',
    tail i = .endBlock (.jump l) :: rest ∧ findLabel code l = some rest' ∧
      Arrives rest' (G.stmts j ++ tail j)
  branch : ∀ i ∈ G.nodes, ∀ g j k, G.exit i = .branch g j k → ∃ l rest rest',
    tail i = .endBlock (.trueJump g l) :: rest ∧ findLabel code l = some rest' ∧
      Arrives rest' (G.stmts j ++ tail j) ∧
      ∀ k', k = some k' → Arrives rest (G.stmts k' ++ tail k')

namespace Printing

variable {G : Shape} {code code' : List FlatStmt}

/-- Points of two printings in the same node, or on the way to the same node. -/
inductive Rel (P : Printing G code) (Q : Printing G code') : Config M → Config M → Prop
  | inside {i : ℕ} {pending : List FlatStmt} {s : Store M} :
      i ∈ G.nodes → (∀ st ∈ pending, st.Plain) →
      (G.exit i = .stop → ∃ vals, pending = [.endBlock (.ret vals)]) →
      Rel P Q (.running (pending ++ P.tail i) s) (.running (pending ++ Q.tail i) s)
  | arrive {i : ℕ} {ls ls' : List String} {s : Store M} :
      i ∈ G.nodes → (G.stmts i = [] → ∀ k, G.exit i ≠ .fall k) →
      Rel P Q (.running (ls.map .label ++ (G.stmts i ++ P.tail i)) s)
        (.running (ls'.map .label ++ (G.stmts i ++ Q.tail i)) s)
  | returned : Rel P Q .returned .returned

theorem Rel.symm {P : Printing G code} {Q : Printing G code'} {c d : Config M} (h : Rel P Q c d) :
    Rel Q P d c := by
  cases h with
  | inside hi hplain hstop => exact .inside hi hplain hstop
  | arrive hi hprogress => exact .arrive hi hprogress
  | returned => exact .returned

/-- A point behind the statements of node `i`, up to labels. -/
inductive AtTail (P : Printing G code) : Config M → ℕ → Store M → Prop
  | mk {ls : List String} {i : ℕ} {s : Store M} :
      AtTail P (.running (ls.map .label ++ P.tail i) s) i s

theorem AtTail.self (P : Printing G code) (i : ℕ) (s : Store M) :
    AtTail P (.running (P.tail i) s) i s := by
  have h : AtTail P (.running (([] : List String).map .label ++ P.tail i) s) i s := .mk
  exact h

theorem run_labels (ls : List String) (p : List FlatStmt) (s : Store M) :
    (flat S code).Run (.running (ls.map .label ++ p) s) [] (.running p s) := by
  induction ls with
  | nil => exact .refl _
  | cons l ls ih => exact .silent .label ih

variable {P : Printing G code} {Q : Printing G code'}

/-- The jump of a node is matched by its jump in the other printing. -/
theorem step_tail {i : ℕ} {s : Store M} {a : Option (Event M)} {c : Config M} (hi : i ∈ G.nodes)
    (hfall : ∀ k, G.exit i ≠ .fall k) (hstop : G.exit i ≠ .stop) (hgoes : G.Goes S i s)
    (hstep : (flat S code).step (.running (P.tail i) s) a c) :
    ∃ d, (flat S code').Run (.running (Q.tail i) s) a.toList d ∧ Rel P Q c d := by
  -- both lists reach the node that `i` exits to, each behind its own labels
  have harrive : ∀ j ∈ (G.exit i).targets, ∀ rest rest', Arrives rest (G.stmts j ++ P.tail j) →
      Arrives rest' (G.stmts j ++ Q.tail j) →
      Rel P Q (.running rest s) (.running rest' s) := by
    rintro j hj _ _ ⟨ls, rfl⟩ ⟨ls', rfl⟩
    exact .arrive (G.closed i hi j hj) (G.progress i hi j hj)
  cases hexit : G.exit i with
  | fall j => exact absurd hexit (hfall j)
  | stop => exact absurd hexit hstop
  | off => exact absurd hexit hgoes.1
  | jump j =>
    rw [hexit] at harrive
    obtain ⟨l, rest, next, htail, hfind, hnext⟩ := P.jump i hi j hexit
    obtain ⟨l', rest', next', htail', hfind', hnext'⟩ := Q.jump i hi j hexit
    rw [htail] at hstep
    cases hstep with
    | exec he => exact he.ne_endBlock.elim
    | control hn hg =>
      cases hn
      rw [goto, hfind, Option.some.injEq] at hg
      subst hg
      refine ⟨.running next' s, ?_, harrive j (by simp [Exit.targets]) _ _ hnext hnext'⟩
      rw [htail']
      exact .single (.control rfl hfind')
  | branch g j k =>
    rw [hexit] at harrive
    obtain ⟨l, rest, next, htail, hfind, hnext, hrest⟩ := P.branch i hi g j k hexit
    obtain ⟨l', rest', next', htail', hfind', hnext', hrest'⟩ := Q.branch i hi g j k hexit
    rw [htail] at hstep
    cases hstep with
    | exec he => exact he.ne_endBlock.elim
    | control hn hg =>
      rw [EndBlock.next, Option.map_eq_some_iff] at hn
      obtain ⟨v, hv, rfl⟩ := hn
      by_cases hzero : v = 0
      · subst hzero
        cases k with
        | none => exact absurd hv (hgoes.2 g j hexit)
        | some k =>
          have hg : some rest = some _ := hg
          cases hg
          refine ⟨.running rest' s, ?_,
            harrive k (by simp [Exit.targets]) _ _ (hrest k rfl) (hrest' k rfl)⟩
          rw [htail']
          exact .single (.control (EndBlock.next_trueJump_of_zero hv l') rfl)
      · rw [if_pos hzero, goto, hfind, Option.some.injEq] at hg
        subst hg
        refine ⟨.running next' s, ?_, harrive j (by simp [Exit.targets]) _ _ hnext hnext'⟩
        rw [htail']
        exact .single (.control (EndBlock.next_trueJump_of_ne hv hzero l') hfind')

/-- A statement of a node is matched by itself. -/
theorem step_plain {i : ℕ} {st : FlatStmt} {pending : List FlatStmt} {s : Store M}
    {a : Option (Event M)} {c : Config M} (hi : i ∈ G.nodes)
    (hplain : ∀ st' ∈ st :: pending, st'.Plain)
    (hstop : G.exit i = .stop → ∃ vals, st :: pending = [.endBlock (.ret vals)])
    (hstep : (flat S code).step (.running (st :: pending ++ P.tail i) s) a c) :
    ∃ d, (flat S code').Run (.running (st :: pending ++ Q.tail i) s) a.toList d ∧ Rel P Q c d := by
  have hst := hplain st (by simp)
  cases hstep with
  | exec he =>
    refine ⟨_, .single (.exec he), .inside hi (fun st' h => hplain st' (by simp [h])) ?_⟩
    intro hexit
    obtain ⟨vals, hvals⟩ := hstop hexit
    rw [List.cons.injEq] at hvals
    exact (hvals.1 ▸ he).ne_endBlock.elim
  | label => exact hst.elim
  | control hnext _ => simp [hst.next_eq_none] at hnext
  | ret hv => exact ⟨_, .single (.ret hv), .returned⟩

/-- A step of one printing is matched by the other one. -/
theorem Rel.step {a : Option (Event M)} {c c' d : Config M} (h : Rel P Q c d)
    (hgoes : ∀ i s, i ∈ G.nodes → AtTail P c i s → AtTail Q d i s → G.Goes S i s)
    (hstep : (flat S code).step c a c') :
    ∃ d', (flat S code').Run d a.toList d' ∧ Rel P Q c' d' := by
  -- first for a point in front of a node
  have harrive : ∀ {i : ℕ} {ls ls' : List String} {s : Store M}, i ∈ G.nodes → (G.stmts i = [] → ∀ k, G.exit i ≠ .fall k) →
      c = .running (ls.map .label ++ (G.stmts i ++ P.tail i)) s →
      d = .running (ls'.map .label ++ (G.stmts i ++ Q.tail i)) s →
      ∃ d', (flat S code').Run d a.toList d' ∧ Rel P Q c' d' := by
    rintro i ls ls' s hi hprogress rfl rfl
    cases ls with
    | cons l ls =>
      cases hstep with
      | exec he => exact he.ne_label.elim
      | label => exact ⟨_, .refl _, .arrive hi hprogress⟩
    | nil =>
      rw [List.map_nil, List.nil_append] at hstep
      have hlabels : (flat S code').Run (.running (ls'.map .label ++ (G.stmts i ++ Q.tail i)) s) []
          (.running (G.stmts i ++ Q.tail i) s) := run_labels ls' _ s
      cases hstmts : G.stmts i with
      | nil =>
        rw [hstmts] at hstep hlabels hgoes
        have hstop : G.exit i ≠ .stop := by
          intro hexit
          obtain ⟨vals, hvals⟩ := G.stop i hi hexit
          rw [hstmts] at hvals
          cases hvals
        obtain ⟨d', hrun, hrel⟩ := step_tail (Q := Q) hi (hprogress hstmts) hstop
          (hgoes i s hi (.self P i s) .mk) hstep
        exact ⟨d', hlabels.trans hrun, hrel⟩
      | cons st pending =>
        rw [hstmts] at hstep hlabels
        obtain ⟨d', hrun, hrel⟩ := step_plain (Q := Q) hi (hstmts ▸ G.plain i hi)
          (fun hexit => hstmts ▸ G.stop i hi hexit) hstep
        exact ⟨d', hlabels.trans hrun, hrel⟩
  cases h with
  | returned => cases hstep
  | arrive hi hprogress => exact harrive hi hprogress rfl rfl
  | @inside i pending s hi hplain hstop =>
    cases pending with
    | cons st pending => exact step_plain hi hplain hstop hstep
    | nil =>
      cases hexit : G.exit i with
      | fall j =>
        obtain ⟨ls, hls⟩ := P.fall i hi j hexit
        obtain ⟨ls', hls'⟩ := Q.fall i hi j hexit
        have hj : j ∈ (G.exit i).targets := by simp [hexit, Exit.targets]
        exact harrive (G.closed i hi j hj) (G.progress i hi j hj) (by rw [List.nil_append, hls])
          (by rw [List.nil_append, hls'])
      | stop =>
        obtain ⟨vals, hvals⟩ := hstop hexit
        cases hvals
      | _ =>
        exact step_tail hi (by simp [hexit]) (by simp [hexit])
          (hgoes i s hi (.self P i s) (.self Q i s)) hstep

/-- The body ends where control runs off its end. -/
structure Ends (P : Printing G code) : Prop where
  off : ∀ i ∈ G.nodes, G.exit i = .off → P.tail i = []
  branch : ∀ i ∈ G.nodes, ∀ g j, G.exit i = .branch g j none →
    ∃ l, P.tail i = [.endBlock (.trueJump g l)]

/-- Where the first body does not run off its end, both behave alike. -/
theorem traces_eq (P : Printing G code) (Q : Printing G code') (hP : P.Ends) {i₀ : ℕ}
    (hi₀ : i₀ ∈ G.nodes) (hstop : G.exit i₀ ≠ .stop) (s₀ : Store M)
    (hend : ∀ s, ¬ (flat S code).Reachable (.running (P.tail i₀) s₀) (.running [] s)) :
    (flat S code').traces (.running (Q.tail i₀) s₀)
      = (flat S code).traces (.running (P.tail i₀) s₀) := by
  have hgoes : ∀ {c : Config M}, (flat S code).Reachable (.running (P.tail i₀) s₀) c →
      ∀ i s, i ∈ G.nodes → AtTail P c i s → G.Goes S i s := by
    rintro c hreach i s hi ⟨⟩
    rename_i ls
    have htail := hreach.trans ⟨_, run_labels ls (P.tail i) s⟩
    constructor
    · intro hoff
      rw [hP.off i hi hoff] at htail
      exact hend s htail
    · intro g j hexit hzero
      obtain ⟨l, hl⟩ := hP.branch i hi g j hexit
      rw [hl] at htail
      exact hend s (htail.snoc (.control (EndBlock.next_trueJump_of_zero hzero l) rfl))
  have hstart : Rel P Q (.running (P.tail i₀) s₀) (.running (Q.tail i₀) s₀) := by
    have hinside : Rel P Q (.running ([] ++ P.tail i₀) s₀) (.running ([] ++ Q.tail i₀) s₀) :=
      .inside hi₀ (by simp) fun hexit => absurd hexit hstop
    exact hinside
  have hforward : Lts.IsSimulation (flat S code) (flat S code') (fun c d => Rel P Q c d ∧
      (flat S code).Reachable (.running (P.tail i₀) s₀) c) := by
    rintro c d a c' ⟨hrel, hreach⟩ hstep
    obtain ⟨d', hrun, hrel'⟩ := hrel.step (fun i s hi hc _ => hgoes hreach i s hi hc) hstep
    exact ⟨d', hrun, hrel', hreach.snoc hstep⟩
  have hbackward : Lts.IsSimulation (flat S code') (flat S code) (fun d c => Rel P Q c d ∧
      (flat S code).Reachable (.running (P.tail i₀) s₀) c) := by
    rintro d c a d' ⟨hrel, hreach⟩ hstep
    obtain ⟨c', hrun, hrel'⟩ := hrel.symm.step (fun i s hi _ hc => hgoes hreach i s hi hc) hstep
    exact ⟨c', hrun, hrel'.symm, hreach.trans ⟨_, hrun⟩⟩
  exact Set.Subset.antisymm (hbackward.traces_subset ⟨hstart, .refl _⟩)
    (hforward.traces_subset ⟨hstart, .refl _⟩)

end Printing

end Jaek
