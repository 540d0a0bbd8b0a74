import Jaek.Lowered.BlockGraph

/-!
# Maximal basic blocks

`Split` says how the blocks of `maximalBasicBlocks` make up a body: written one after the other they
give it back, a block without a label of its own follows a jump, and the labels they add are fresh.
From that the body is a layout of its control-flow graph.
-/

namespace Jaek

variable {M : Type*} {S : Storage M}

/-- Different counts give different labels. -/
theorem LIRSeq.freshLabel_injective : Function.Injective LIRSeq.freshLabel := by
  intro j k h
  have hrepr : toString j = toString k := by
    simpa [LIRSeq.freshLabel] using h
  exact Nat.repr_inj.mp hrepr

/-- Neither a label nor a jump nor a return. -/
def FlatStmt.Ordinary : FlatStmt → Prop
  | .callStmt _ _ _ => True
  | .move _ _ => True
  | _ => False

/-- An ordinary statement neither ends a block nor is a label. -/
theorem FlatStmt.Ordinary.plain {st : FlatStmt} (h : st.Ordinary) : st.Plain := by
  cases st <;> trivial

/-- The statements of the node of a block. -/
def BasicBlock.stmts (b : BasicBlock) : List FlatStmt :=
  match b.end with
  | some (.ret vals) => b.ordinary ++ [.endBlock (.ret vals)]
  | _ => b.ordinary

/-- The jump behind the statements of a block. -/
def BasicBlock.glue (b : BasicBlock) : List FlatStmt :=
  match b.end with
  | some (.ret _) => []
  | some e => [.endBlock e]
  | none => []

/-- A block is its ordinary statements and its end. -/
theorem BasicBlock.stmts_append_glue (b : BasicBlock) :
    b.stmts ++ b.glue = b.ordinary ++ (b.end.map FlatStmt.endBlock).toList := by
  rcases b with ⟨l, ord, _ | e⟩
  · simp [stmts, glue]
  · cases e <;> simp [stmts, glue]

@[simp] theorem LIRSeq.buildNode_label (b : BasicBlock) (next : Option String) :
    (buildNode b next).label = b.label := by
  rcases b with ⟨l, ord, _ | e⟩
  · cases next <;> rfl
  · cases e <;> rfl

@[simp] theorem LIRSeq.buildNode_statements (b : BasicBlock) (next : Option String) :
    (buildNode b next).statements = b.stmts := by
  rcases b with ⟨l, ord, _ | e⟩
  · cases next <;> rfl
  · cases e <;> rfl

/-- The segment of a block; the flag says whether its label stands in the body. -/
def BasicBlock.segment (p : BasicBlock × Bool) : Segment := ⟨p.1.label, p.2, p.1.stmts, p.1.glue⟩

/-- `fs` cuts `code` into blocks, with fresh labels numbered from `count + 1` to `count'`. -/
structure Split (code : List FlatStmt) (fs : List (BasicBlock × Bool)) (count count' : ℕ) :
    Prop where
  code_eq : segCode (fs.map BasicBlock.segment) = code
  ordinary : ∀ p ∈ fs, ∀ st ∈ p.1.ordinary, st.Ordinary
  chain : fs.IsChain fun p q => q.2 = true ∨ p.1.end ≠ none
  explicit : (fs.filter (·.2)).map (·.1.label) = labels code
  fresh : (fs.filter (!·.2)).map (·.1.label)
    = (List.range' (count + 1) (count' - count)).map LIRSeq.freshLabel
  mono : count ≤ count'

/-! ## The loop of `maximalBasicBlocks` -/

namespace BasicBlock.Builder

/-- The code a builder has taken in. -/
def code (b : Builder) : List FlatStmt :=
  b.label.toList.map .label ++ (b.statements ++ (b.end.map FlatStmt.endBlock).toList)

/-- The finished block, with its flag. -/
def built (b : Builder) (count : ℕ) : BasicBlock × Bool := ((b.build count).1, b.label.isSome)

@[simp] theorem built_end (b : Builder) (count : ℕ) : (b.built count).1.end = b.end := by
  rcases b with ⟨_ | l, ss, e⟩ <;> rfl

@[simp] theorem built_ordinary (b : Builder) (count : ℕ) :
    (b.built count).1.ordinary = b.statements := by
  rcases b with ⟨_ | l, ss, e⟩ <;> rfl

@[simp] theorem built_flag (b : Builder) (count : ℕ) : (b.built count).2 = b.label.isSome := rfl

/-- Printing the finished block gives the code back. -/
theorem segCode_built (b : Builder) (count : ℕ) (gs : List Segment) :
    segCode (BasicBlock.segment (b.built count) :: gs) = b.code ++ segCode gs := by
  have h := (b.built count).1.stmts_append_glue
  have hcode : (b.built count).1.stmts ++ ((b.built count).1.glue ++ segCode gs)
      = b.statements ++ ((b.end.map FlatStmt.endBlock).toList ++ segCode gs) := by
    rw [← List.append_assoc, h, built_ordinary, built_end, List.append_assoc]
  rw [segCode, segment, hcode]
  rcases b with ⟨_ | l, ss, e⟩ <;> simp [built, build, code]

/-- Only an unlabelled block draws a fresh label. -/
theorem build_count (b : Builder) (count : ℕ) :
    (b.build count).2 = count + if b.label.isSome then 0 else 1 := by
  rcases b with ⟨_ | l, ss, e⟩ <;> rfl

/-- A statement that does not end the block is put behind the others. -/
theorem code_put {b : Builder} {st : FlatStmt} (hl : LIRSeq.isLabel st = false)
    (hc : b.complete = false) : (b.put st).code = b.code ++ [st] := by
  rcases b with ⟨l, ss, _ | e⟩
  · cases st with
    | label l => simp [LIRSeq.isLabel] at hl
    | endBlock e => simp [put, code]
    | callStmt f n args => simp [put, code]
    | move d e => simp [put, code]
  · simp [complete] at hc

/-- The first statement of a block. -/
theorem code_put_empty (st : FlatStmt) : (put {} st).code = [st] := by
  cases st <;> simp [put, code]

/-- What a block keeps as its statements stays ordinary. -/
theorem ordinary_put {b : Builder} (h : ∀ st ∈ b.statements, st.Ordinary) (st : FlatStmt) :
    ∀ st' ∈ (b.put st).statements, st'.Ordinary := by
  cases st with
  | label l => exact h
  | endBlock e => exact h
  | callStmt f n args =>
    intro st' hst'
    rcases List.mem_append.mp hst' with hst' | hst'
    · exact h st' hst'
    · exact List.mem_singleton.mp hst' ▸ trivial
  | move d e =>
    intro st' hst'
    rcases List.mem_append.mp hst' with hst' | hst'
    · exact h st' hst'
    · exact List.mem_singleton.mp hst' ▸ trivial

/-- The only label of a block is the one in front. -/
theorem labels_statements {b : Builder} (h : ∀ st ∈ b.statements, st.Ordinary) :
    labels b.code = b.label.toList := by
  have hss : labels b.statements = [] := by
    rw [labels, List.filterMap_eq_nil_iff]
    intro st hst
    cases st with
    | label l => exact (h _ hst).elim
    | endBlock e => rfl
    | callStmt f n args => rfl
    | move d e => rfl
  rcases b with ⟨_ | l, ss, _ | e⟩ <;> simpa [code] using hss

end BasicBlock.Builder

open BasicBlock in
/-- The finished block in front of a split of the code behind it. -/
theorem Split.cons {code : List FlatStmt} {fs : List (BasicBlock × Bool)} {count count' : ℕ}
    {b : Builder} (hb : ∀ st ∈ b.statements, st.Ordinary)
    (h : Split code fs (b.build count).2 count')
    (hchain : ∀ p ∈ fs.head?, p.2 = true ∨ b.end ≠ none) :
    Split (b.code ++ code) (b.built count :: fs) count count' where
  code_eq := by rw [List.map_cons, Builder.segCode_built, h.code_eq]
  ordinary := by
    intro p hp
    rcases List.mem_cons.mp hp with rfl | hp
    · simpa using hb
    · exact h.ordinary p hp
  chain := by
    rw [List.isChain_cons]
    exact ⟨by simpa using hchain, h.chain⟩
  explicit := by
    rw [labels_append, Builder.labels_statements hb, ← h.explicit]
    rcases b with ⟨_ | l, ss, e⟩ <;> simp [Builder.built, Builder.build]
  fresh := by
    have hmono := h.mono
    have hfresh := h.fresh
    rcases b with ⟨_ | l, ss, e⟩
    · simp only [Builder.build] at hmono hfresh
      obtain ⟨n, rfl⟩ := Nat.exists_eq_add_of_le hmono
      have h1 : count + 1 + n - (count + 1) = n := by omega
      have h2 : count + 1 + n - count = n + 1 := by omega
      simp only [h1] at hfresh
      simp [Builder.built, Builder.build, hfresh, h2, List.range'_succ]
    · simpa [Builder.built, Builder.build] using hfresh
  mono := by
    have hmono := h.mono
    rw [Builder.build_count] at hmono
    omega

/-- The loop splits the code taken in and the statements left. Its first block is labelled like the
builder. -/
theorem LIRSeq.maximalBasicBlocks.loop_split (statements : List FlatStmt)
    (b : BasicBlock.Builder) (count : ℕ) (hb : ∀ st ∈ b.statements, st.Ordinary) :
    ∃ p fs, (loop statements b count).1 = (p :: fs).map (·.1) ∧
      Split (b.code ++ statements) (p :: fs) count (loop statements b count).2 ∧
      p.2 = b.label.isSome := by
  induction statements generalizing b count with
  | nil =>
    have hnil : Split [] [] (b.build count).2 (b.build count).2 :=
      ⟨rfl, by simp, .nil, rfl, by simp, le_rfl⟩
    exact ⟨b.built count, [], rfl, .cons hb hnil (by simp), rfl⟩
  | cons st statements ih =>
    by_cases hcut : (isLabel st || b.complete) = true
    · -- the block ends here, and `st` opens the next one
      obtain ⟨p, fs, hfst, hsplit, hp⟩ :=
        ih (BasicBlock.Builder.put {} st) (b.build count).2
          (BasicBlock.Builder.ordinary_put (by simp) st)
      rw [BasicBlock.Builder.code_put_empty] at hsplit
      have hchain : p.2 = true ∨ b.end ≠ none := by
        rw [hp]
        rcases Bool.or_eq_true_iff.mp hcut with hl | hc
        · cases st <;> simp_all [isLabel, BasicBlock.Builder.put]
        · exact .inr (by simpa [BasicBlock.Builder.complete, Option.isSome_iff_ne_none] using hc)
      have hcons : Split (b.code ++ st :: statements) (b.built count :: p :: fs) count
          (loop (st :: statements) b count).2 := by
        have := Split.cons hb hsplit (by simpa using hchain)
        simpa [loop, hcut] using this
      exact ⟨b.built count, p :: fs, by simp [loop, hcut, hfst, BasicBlock.Builder.built],
        hcons, rfl⟩
    · have hl : isLabel st = false := by simp_all
      have hc : b.complete = false := by simp_all
      obtain ⟨p, fs, hfst, hsplit, hp⟩ :=
        ih (b.put st) count (BasicBlock.Builder.ordinary_put hb st)
      rw [BasicBlock.Builder.code_put hl hc] at hsplit
      have hlabel : (b.put st).label = b.label := by cases st <;> simp_all [isLabel] <;> rfl
      exact ⟨p, fs, by simp [loop, hl, hc, hfst], by simpa [loop, hl, hc] using hsplit,
        by rw [hp, hlabel]⟩

/-- The blocks of a body split it, and the first one has no label of its own. -/
theorem LIRSeq.maximalBasicBlocks_split (body : List FlatStmt) (count : ℕ) :
    ∃ p fs, (maximalBasicBlocks body count).1 = (p :: fs).map (·.1) ∧
      Split body (p :: fs) count (maximalBasicBlocks body count).2 ∧ p.2 = false :=
  maximalBasicBlocks.loop_split body {} count (by simp)

/-! ## The body as a layout of its graph -/

/-- What the callers of `blockReordering` promise about a body: its labels are distinct and do not
come from the companion's counter at a later value, and every jump has its targets. -/
structure LIRSeq.WellFormed (body : List FlatStmt) (count : ℕ) : Prop where
  nodup : (labels body).Nodup
  targets : ∀ e, FlatStmt.endBlock e ∈ body → ∀ l ∈ e.targets, l ∈ labels body
  falseBranch : ∀ guard t, FlatStmt.endBlock (.cjump guard t none) ∉ body
  fresh : ∀ k, count < k → LIRSeq.freshLabel k ∉ labels body

/-- What the runs of a body from `s₀` are assumed to do: guards that evaluate are `0` or `1`, and
control does not pass the last statement. A conditional jump in last place, which could only fall
off the end, does not trap. -/
structure LIRSeq.RunsWell (S : Storage M) (body : List FlatStmt) (s₀ : Store M) : Prop where
  cjump : ∀ guard t f rest s v,
    (flat S body).Reachable (.running body s₀) (.running (.endBlock (.cjump guard t f) :: rest) s) →
    guard.eval S s = some v → v = 0 ∨ v = 1
  trueJump : ∀ guard t rest s v,
    (flat S body).Reachable (.running body s₀)
      (.running (.endBlock (.trueJump guard t) :: rest) s) →
    guard.eval S s = some v → v = 0 ∨ v = 1
  last : ∀ guard t s,
    (flat S body).Reachable (.running body s₀) (.running [.endBlock (.trueJump guard t)] s) →
    guard.eval S s ≠ none
  complete : ∀ s, ¬ (flat S body).Reachable (.running body s₀) (.running [] s)

namespace Split

variable {body : List FlatStmt} {fs : List (BasicBlock × Bool)} {count count' : ℕ}

/-- A block without a label of its own got a fresh one. -/
theorem mem_freshLabels (h : Split body fs count count') {p : BasicBlock × Bool} (hp : p ∈ fs)
    (hflag : p.2 = false) : ∃ k, count < k ∧ k ≤ count' ∧ p.1.label = LIRSeq.freshLabel k := by
  have hmem : p.1.label ∈ (fs.filter (!·.2)).map (·.1.label) :=
    List.mem_map_of_mem (List.mem_filter.mpr ⟨hp, by simp [hflag]⟩)
  rw [h.fresh, List.mem_map] at hmem
  obtain ⟨k, hk, heq⟩ := hmem
  rw [List.mem_range'_1] at hk
  have hmono := h.mono
  exact ⟨k, by omega, by omega, heq.symm⟩

/-- A label of a block is a label of the body. -/
theorem mem_labels (h : Split body fs count count') {p : BasicBlock × Bool} (hp : p ∈ fs)
    (hflag : p.2 = true) : p.1.label ∈ labels body := by
  rw [← h.explicit]
  exact List.mem_map_of_mem (List.mem_filter.mpr ⟨hp, hflag⟩)

/-- Every label of the body is in front of a block. -/
theorem exists_of_mem_labels (h : Split body fs count count') {l : String}
    (hl : l ∈ labels body) : ∃ p ∈ fs, p.2 = true ∧ p.1.label = l := by
  rw [← h.explicit, List.mem_map] at hl
  obtain ⟨p, hp, rfl⟩ := hl
  exact ⟨p, (List.mem_filter.mp hp).1, (List.mem_filter.mp hp).2, rfl⟩

/-- Printed labels and fresh labels together are distinct. -/
theorem nodup (h : Split body fs count count') (hwf : LIRSeq.WellFormed body count) :
    (fs.map (·.1.label)).Nodup := by
  have hperm : (fs.map (·.1.label)).Perm
      ((fs.filter (·.2)).map (·.1.label) ++ (fs.filter (!·.2)).map (·.1.label)) := by
    rw [← List.map_append]
    exact (List.filter_append_perm (·.2) fs).symm.map _
  rw [hperm.nodup_iff, List.nodup_append]
  refine ⟨h.explicit ▸ hwf.nodup, ?_, ?_⟩
  · rw [h.fresh]
    exact List.Nodup.map LIRSeq.freshLabel_injective List.nodup_range'
  · rintro l hl l' hl' rfl
    rw [h.explicit] at hl
    rw [h.fresh, List.mem_map] at hl'
    obtain ⟨k, hk, rfl⟩ := hl'
    exact hwf.fresh k (by rw [List.mem_range'_1] at hk; omega) hl

/-- The statements of a block neither end it nor are labels. -/
theorem plain_stmts (h : Split body fs count count') {p : BasicBlock × Bool} (hp : p ∈ fs) :
    ∀ st ∈ p.1.stmts, st.Plain := by
  have hord := h.ordinary p hp
  rcases p with ⟨⟨l, ord, _ | e⟩, flag⟩
  · exact fun st hst => (hord st hst).plain
  · cases e with
    | ret vals =>
      intro st hst
      rcases List.mem_append.mp hst with hst | hst
      · exact (hord st hst).plain
      · exact List.mem_singleton.mp hst ▸ trivial
    | jump a => exact fun st hst => (hord st hst).plain
    | cjump g t f => exact fun st hst => (hord st hst).plain
    | trueJump g t => exact fun st hst => (hord st hst).plain

end Split

/-- Plain statements contain no label. -/
theorem labels_of_plain {stmts : List FlatStmt} (h : ∀ st ∈ stmts, st.Plain) :
    labels stmts = [] := by
  rw [labels, List.filterMap_eq_nil_iff]
  intro st hst
  cases st with
  | label l => exact (h _ hst).elim
  | endBlock e => rfl
  | callStmt f n args => rfl
  | move d e => rfl

/-- There is no label in what a block gets behind it. -/
theorem BasicBlock.labels_glue (b : BasicBlock) : labels b.glue = [] := by
  rcases b with ⟨l, ord, _ | e⟩
  · rfl
  · cases e <;> rfl

namespace Split

variable {body : List FlatStmt} {fs : List (BasicBlock × Bool)} {count count' : ℕ}

/-- The blocks of a body are segments that can be put in any order. -/
theorem segmentsOk (h : Split body fs count count') (hwf : LIRSeq.WellFormed body count) :
    SegmentsOk (fs.map BasicBlock.segment) where
  nodup := by simpa [BasicBlock.segment, Function.comp_def] using h.nodup hwf
  stmts := by
    intro g hg
    obtain ⟨p, hp, rfl⟩ := List.mem_map.mp hg
    exact labels_of_plain (h.plain_stmts hp)
  glue := by
    intro g hg l hl
    obtain ⟨p, hp, rfl⟩ := List.mem_map.mp hg
    simp [BasicBlock.segment, BasicBlock.labels_glue] at hl

/-- A jump to a label of the body arrives at its block. -/
theorem goto_eq (h : Split body fs count count') (hwf : LIRSeq.WellFormed body count) {l : String}
    (hl : l ∈ labels body) (rest : List FlatStmt) :
    goto body rest (some l) = some (segPos (fs.map BasicBlock.segment) l) := by
  obtain ⟨p, hp, hflag, rfl⟩ := h.exists_of_mem_labels hl
  obtain ⟨pre, post, hfs⟩ := List.append_of_mem hp
  have hok := h.segmentsOk hwf
  have hcode := h.code_eq
  rw [hfs, List.map_append, List.map_cons] at hok hcode ⊢
  have hfind := hok.findLabel_eq (g := BasicBlock.segment p) hflag
  rw [hcode] at hfind
  exact hfind

end Split

namespace LIRSeq

/-- A node is a block, with the label of the next one. -/
theorem mem_buildCFG {blocks : List BasicBlock} {n : Node} :
    n ∈ buildCFG blocks ↔
      ∃ pre b post, blocks = pre ++ b :: post ∧ n = buildNode b (post.head?.map (·.label)) := by
  induction blocks with
  | nil => simp [buildCFG]
  | cons b blocks ih =>
    rw [buildCFG, List.mem_cons, ih]
    constructor
    · rintro (rfl | ⟨pre, b', post, rfl, rfl⟩)
      · exact ⟨[], b, blocks, rfl, rfl⟩
      · exact ⟨b :: pre, b', post, rfl, rfl⟩
    · rintro ⟨_ | ⟨b'', pre⟩, b', post, heq, rfl⟩
      · rw [List.nil_append, List.cons.injEq] at heq
        exact .inl (by rw [heq.1, heq.2])
      · rw [List.cons_append, List.cons.injEq] at heq
        exact .inr ⟨pre, b', post, heq.2, rfl⟩

@[simp] theorem buildCFG_map_label (blocks : List BasicBlock) :
    (buildCFG blocks).map (·.label) = blocks.map (·.label) := by
  induction blocks with
  | nil => rfl
  | cons b blocks ih => simp [buildCFG, ih]

end LIRSeq

namespace Split

variable {body : List FlatStmt} {fs : List (BasicBlock × Bool)} {count count' : ℕ}

/-- The end of a block stands in the body. -/
theorem endBlock_mem (h : Split body fs count count') {p : BasicBlock × Bool} (hp : p ∈ fs)
    {e : EndBlock} (he : p.1.end = some e) : FlatStmt.endBlock e ∈ body := by
  have hmem : FlatStmt.endBlock e ∈ p.1.stmts ++ p.1.glue := by
    rw [BasicBlock.stmts_append_glue, he]
    simp
  obtain ⟨pre, post, rfl⟩ := List.append_of_mem hp
  rw [← h.code_eq, List.map_append, List.map_cons]
  exact mem_segCode hmem

/-- What the node of a block does next, the block does after its statements. -/
theorem glue (h : Split body fs count count') (hwf : LIRSeq.WellFormed body count)
    {pre post : List (BasicBlock × Bool)} {p : BasicBlock × Bool} (hfs : fs = pre ++ p :: post)
    {s : Store M} {l : String}
    (hnext : (LIRSeq.buildNode p.1 (post.head?.map (·.1.label))).next S s = some l) :
    Relation.TransGen (Silent S body s) (p.1.glue ++ segCode (post.map BasicBlock.segment))
      (segPos (fs.map BasicBlock.segment) l) := by
  have hp : p ∈ fs := by simp [hfs]
  have hok := h.segmentsOk hwf
  have hchain := h.chain
  have hcode := h.code_eq
  have hend : ∀ e, p.1.end = some e → FlatStmt.endBlock e ∈ body := fun e => h.endBlock_mem hp
  have hgoto : ∀ l ∈ labels body, ∀ rest,
      goto body rest (some l) = some (segPos (fs.map BasicBlock.segment) l) :=
    fun l hl rest => h.goto_eq hwf hl rest
  rw [hfs] at hchain
  rcases p with ⟨⟨pl, ord, _ | e⟩, flag⟩
  · -- a block without a jump: the next one has a label of its own
    cases post with
    | nil => simp [LIRSeq.buildNode, Node.next] at hnext
    | cons q post =>
      have hq : q.2 = true := by
        have := (List.isChain_append.mp hchain).2.1
        simpa using (List.isChain_cons_cons.mp this).1
      simp only [List.head?_cons, Option.map_some, LIRSeq.buildNode, Node.next,
        Option.some.injEq] at hnext
      subst hnext
      rw [hfs, List.map_append, List.map_cons, List.map_cons] at hok hcode ⊢
      have hfall := hok.fallThrough_explicit (S := S) hq s
      rw [hcode] at hfall
      exact hfall
  -- a block that ends in a jump: its target is a label of the body
  · cases e with
    | jump a =>
      simp only [LIRSeq.buildNode, Node.next, Option.some.injEq] at hnext
      subst hnext
      have ha := hwf.targets _ (hend _ rfl) a (by simp [EndBlock.targets])
      exact .single (.control rfl (hgoto a ha _))
    | cjump g t f =>
      cases f with
      | none => exact (hwf.falseBranch g t (hend _ rfl)).elim
      | some f =>
        have ht := hwf.targets _ (hend _ rfl) t (by simp [EndBlock.targets])
        have hf := hwf.targets _ (hend _ rfl) f (by simp [EndBlock.targets])
        simp only [LIRSeq.buildNode, Node.next, Option.bind_eq_some_iff] at hnext
        obtain ⟨v, hv, hl⟩ := hnext
        by_cases hv0 : v = 0
        · subst hv0
          rw [if_neg (by simp), Option.some.injEq] at hl
          subst hl
          exact .single (.control (EndBlock.next_cjump_of_zero hv t _) (hgoto f hf _))
        · rw [if_pos hv0, Option.some.injEq] at hl
          subst hl
          exact .single (.control (EndBlock.next_cjump_of_ne hv hv0 t _) (hgoto t ht _))
    | trueJump g t =>
      have ht := hwf.targets _ (hend _ rfl) t (by simp [EndBlock.targets])
      simp only [LIRSeq.buildNode, Node.next, Option.bind_eq_some_iff] at hnext
      obtain ⟨v, hv, hl⟩ := hnext
      by_cases hv0 : v = 0
      · subst hv0
        rw [if_neg (by simp)] at hl
        cases post with
        | nil => simp at hl
        | cons q post =>
          simp only [List.head?_cons, Option.map_some, Option.some.injEq] at hl
          subst hl
          rw [hfs, List.map_append, List.map_cons, List.map_cons] at hok hcode ⊢
          have hfall := hok.fallThrough (S := S) s
          rw [hcode] at hfall
          exact .head' (.control (EndBlock.next_trueJump_of_zero hv t) rfl) hfall
      · rw [if_pos hv0, Option.some.injEq] at hl
        subst hl
        exact .single (.control (EndBlock.next_trueJump_of_ne hv hv0 t) (hgoto t ht _))
    | ret vals => simp [LIRSeq.buildNode, Node.next] at hnext

/-- A block whose condition traps stops after its statements. -/
theorem stuck {p : BasicBlock × Bool} {next : Option String} {s : Store M}
    (htraps : (LIRSeq.buildNode p.1 next).Traps S s) (rest : List FlatStmt)
    (a : Option (Event M)) (c : Config M) :
    ¬ (flat S body).step (.running (p.1.glue ++ rest) s) a c := by
  rcases p with ⟨⟨pl, ord, _ | e⟩, flag⟩
  · cases next <;> exact htraps.elim
  · cases e with
    | jump a => exact htraps.elim
    | cjump g t f => exact stuck_of_cjump htraps
    | trueJump g t => exact stuck_of_trueJump htraps
    | ret vals => exact htraps.elim

/-- The nodes of the blocks that the body is split into. -/
theorem mem_nodes {n : Node} (hn : n ∈ LIRSeq.buildCFG (fs.map (·.1))) :
    ∃ pre p post, fs = pre ++ p :: post ∧
      n = LIRSeq.buildNode p.1 (post.head?.map (·.1.label)) := by
  obtain ⟨pre, b, post, heq, rfl⟩ := LIRSeq.mem_buildCFG.mp hn
  obtain ⟨fs₁, fs₂, rfl, rfl, hfs₂⟩ := List.map_eq_append_iff.mp heq
  obtain ⟨p, fs₃, rfl, rfl, rfl⟩ := List.map_eq_cons_iff.mp hfs₂
  exact ⟨fs₁, p, fs₃, rfl, by rw [List.head?_map, Option.map_map]; rfl⟩

/-- Their labels differ. -/
theorem label_injective (h : Split body fs count count') (hwf : LIRSeq.WellFormed body count) :
    ∀ n ∈ LIRSeq.buildCFG (fs.map (·.1)), ∀ n' ∈ LIRSeq.buildCFG (fs.map (·.1)),
      n.label = n'.label → n = n' := by
  have hnodup : ((LIRSeq.buildCFG (fs.map (·.1))).map (·.label)).Nodup := by
    simpa [Function.comp_def] using h.nodup hwf
  exact fun n hn n' hn' heq => List.inj_on_of_nodup_map hnodup hn hn' heq

/-- A body is a layout of its control-flow graph. -/
def layout (S : Storage M) (h : Split body fs count count') (hwf : LIRSeq.WellFormed body count) :
    Layout S body (LIRSeq.buildCFG (fs.map (·.1))) (fun _ _ => True) :=
  .ofSegments (h.segmentsOk hwf)
    (fun n hn => by
      obtain ⟨pre, p, post, hfs, rfl⟩ := mem_nodes hn
      rw [LIRSeq.buildNode_statements]
      exact h.plain_stmts (by simp [hfs]))
    (h.label_injective hwf)
    (fun n hn => by
      obtain ⟨pre, p, post, hfs, rfl⟩ := mem_nodes hn
      exact ⟨pre.map BasicBlock.segment, BasicBlock.segment p, post.map BasicBlock.segment,
        by simp [hfs], by simp [BasicBlock.segment], by simp [BasicBlock.segment],
        fun n' _ s _ hnext => h.glue hwf hfs hnext, fun s _ htraps => stuck htraps _⟩)

/-- A label of the body names a node. -/
theorem exists_node (h : Split body fs count count') {l : String} (hl : l ∈ labels body) :
    ∃ n ∈ LIRSeq.buildCFG (fs.map (·.1)), l = n.label := by
  obtain ⟨p, hp, -, rfl⟩ := h.exists_of_mem_labels hl
  have hmem : p.1.label ∈ (LIRSeq.buildCFG (fs.map (·.1))).map (·.label) := by
    rw [LIRSeq.buildCFG_map_label]
    exact List.mem_map_of_mem (List.mem_map_of_mem hp)
  obtain ⟨n, hn, heq⟩ := List.mem_map.mp hmem
  exact ⟨n, hn, heq.symm⟩

end Split

/-- The condition of a node, if it evaluates, is `0` or `1`, and it evaluates unless control can go
to either of two nodes. -/
def Node.GuardOk (S : Storage M) (s : Store M) : Node → Prop
  | .conditional _ _ guard _ f => (∀ v, guard.eval S s = some v → v = 0 ∨ v = 1) ∧
      (f = Option.none → guard.eval S s ≠ Option.none)
  | _ => True

section Runs

variable {body : List FlatStmt} {p₀ : BasicBlock × Bool} {fs : List (BasicBlock × Bool)}
  {count count' : ℕ} {s₀ : Store M} {n₀ : Node}

/-- The body starts at its first node. -/
theorem Split.layout_pos (h : Split body (p₀ :: fs) count count') (hp₀ : p₀.2 = false)
    (hwf : LIRSeq.WellFormed body count) (hlabel₀ : n₀.label = p₀.1.label) :
    (h.layout S hwf).pos n₀ = body := by
  have hcode := h.code_eq
  rw [List.map_cons, segCode, BasicBlock.segment, if_neg (by simp [hp₀])] at hcode
  change segPos _ n₀.label = body
  rw [← hcode, List.map_cons, segPos, BasicBlock.segment, if_pos hlabel₀.symm, List.nil_append]

/-- Where the graph ends a node, the body has arrived behind the statements of a block. -/
theorem Split.arrives (h : Split body (p₀ :: fs) count count') (hp₀ : p₀.2 = false)
    (hwf : LIRSeq.WellFormed body count) (hlabel₀ : n₀.label = p₀.1.label)
    (hn₀ : n₀ ∈ LIRSeq.buildCFG ((p₀ :: fs).map (·.1))) {n : Node} {s : Store M}
    (hreach : (graph S (LIRSeq.buildCFG ((p₀ :: fs).map (·.1)))).Reachable
      (.running n₀.statements n₀ s₀) (.running [] n s)) :
    ∃ pre p post, p₀ :: fs = pre ++ p :: post ∧
      n = LIRSeq.buildNode p.1 (post.head?.map (·.1.label)) ∧
      (flat S body).Reachable (.running body s₀)
        (.running (p.1.glue ++ segCode (post.map BasicBlock.segment)) s) := by
  obtain ⟨tr, hrun⟩ := hreach
  obtain ⟨c, hrun', hin, -⟩ := ((h.layout S hwf).isSimulation_graph _ fun _ _ _ => trivial).run
    hrun ⟨Layout.Inside.start (h.layout S hwf) hn₀ s₀, .refl _⟩
  rw [h.layout_pos hp₀ hwf hlabel₀] at hrun'
  cases hin with
  | running hn _ =>
    obtain ⟨pre, p, post, hfs, rfl⟩ := Split.mem_nodes hn
    have htail : (h.layout S hwf).tail (LIRSeq.buildNode p.1 (post.head?.map (·.1.label)))
        = p.1.glue ++ segCode (post.map BasicBlock.segment) := by
      change segTail _ _ = _
      have hok := h.segmentsOk hwf
      rw [hfs, List.map_append, List.map_cons] at hok ⊢
      rw [LIRSeq.buildNode_label]
      exact segTail_append _ hok.not_mem_pre
    rw [htail] at hrun'
    exact ⟨pre, p, post, hfs, rfl, tr, hrun'⟩

/-- In the runs of a body, control leaves every node for another one, or the condition traps. -/
theorem Split.leaves (h : Split body (p₀ :: fs) count count') (hp₀ : p₀.2 = false)
    (hwf : LIRSeq.WellFormed body count) (hlabel₀ : n₀.label = p₀.1.label)
    (hn₀ : n₀ ∈ LIRSeq.buildCFG ((p₀ :: fs).map (·.1))) (hruns : LIRSeq.RunsWell S body s₀)
    {n : Node} {s : Store M}
    (hreach : (graph S (LIRSeq.buildCFG ((p₀ :: fs).map (·.1)))).Reachable
      (.running n₀.statements n₀ s₀) (.running [] n s)) :
    n.GuardOk S s ∧ ((∃ n' ∈ LIRSeq.buildCFG ((p₀ :: fs).map (·.1)),
      n.next S s = some n'.label) ∨ n.Traps S s) := by
  have hend := graph_reachable_end hreach
  obtain ⟨pre, p, post, hfs, rfl, harrive⟩ := h.arrives hp₀ hwf hlabel₀ hn₀ hreach
  have hp : p ∈ p₀ :: fs := by simp [hfs]
  have hmem : ∀ e, p.1.end = some e → FlatStmt.endBlock e ∈ body := fun e he =>
    h.endBlock_mem hp he
  have htargets : ∀ e, p.1.end = some e → ∀ l ∈ e.targets,
      ∃ n' ∈ LIRSeq.buildCFG ((p₀ :: fs).map (·.1)), l = n'.label := fun e he l hl =>
    h.exists_node (hwf.targets e (hmem e he) l hl)
  have hsucc : ∀ q post', post = q :: post' →
      ∃ n' ∈ LIRSeq.buildCFG ((p₀ :: fs).map (·.1)), q.1.label = n'.label := by
    rintro q post' rfl
    have hq : q.1.label ∈ (LIRSeq.buildCFG ((p₀ :: fs).map (·.1))).map (·.label) := by
      rw [LIRSeq.buildCFG_map_label, hfs]
      simp
    obtain ⟨n', hn', heq⟩ := List.mem_map.mp hq
    exact ⟨n', hn', heq.symm⟩
  rcases p with ⟨⟨pl, ord, _ | e⟩, flag⟩
  · refine ⟨by cases post.head?.map (·.1.label) <;> trivial, .inl ?_⟩
    cases post with
    | nil => exact (hruns.complete s harrive).elim
    | cons q post =>
      obtain ⟨n', hn', heq⟩ := hsucc q post rfl
      exact ⟨n', hn', congrArg some heq⟩
  · cases e with
    | jump a =>
      obtain ⟨n', hn', heq⟩ := htargets _ rfl a (by simp [EndBlock.targets])
      exact ⟨trivial, .inl ⟨n', hn', congrArg some heq⟩⟩
    | cjump g t f =>
      cases f with
      | none => exact (hwf.falseBranch g t (hmem _ rfl)).elim
      | some f =>
        obtain ⟨nt, hnt, ht⟩ := htargets _ rfl t (by simp [EndBlock.targets])
        obtain ⟨nf, hnf, hf⟩ := htargets _ rfl f (by simp [EndBlock.targets])
        refine ⟨⟨fun v => hruns.cjump g t _ _ s v harrive, by simp⟩, ?_⟩
        cases hv : g.eval S s with
        | none => exact .inr hv
        | some v =>
          by_cases hv0 : v = 0
          · subst hv0
            exact .inl ⟨nf, hnf, (Node.next_conditional_of_zero hv).trans (congrArg some hf)⟩
          · exact .inl ⟨nt, hnt, (Node.next_conditional_of_ne hv hv0).trans (congrArg some ht)⟩
    | trueJump g t =>
      obtain ⟨nt, hnt, ht⟩ := htargets _ rfl t (by simp [EndBlock.targets])
      have hguard := fun v => hruns.trueJump g t _ s v harrive
      cases post with
      | nil =>
        -- the last statement of the body: control may only take the jump
        have hlast := hruns.last g t s harrive
        refine ⟨⟨hguard, fun _ => hlast⟩, ?_⟩
        obtain ⟨v, hv⟩ := Option.ne_none_iff_exists'.mp hlast
        by_cases hv0 : v = 0
        · subst hv0
          exact (hruns.complete s (harrive.snoc
            (.control (EndBlock.next_trueJump_of_zero hv t) rfl))).elim
        · exact .inl ⟨nt, hnt, (Node.next_conditional_of_ne hv hv0).trans (congrArg some ht)⟩
      | cons q post =>
        obtain ⟨nf, hnf, hf⟩ := hsucc q post rfl
        refine ⟨⟨hguard, by simp⟩, ?_⟩
        cases hv : g.eval S s with
        | none => exact .inr hv
        | some v =>
          by_cases hv0 : v = 0
          · subst hv0
            exact .inl ⟨nf, hnf, (Node.next_conditional_of_zero hv).trans (congrArg some hf)⟩
          · exact .inl ⟨nt, hnt, (Node.next_conditional_of_ne hv hv0).trans (congrArg some ht)⟩
    | ret vals => exact (hend (.ret vals) (by simp [BasicBlock.stmts])).elim

end Runs

end Jaek
