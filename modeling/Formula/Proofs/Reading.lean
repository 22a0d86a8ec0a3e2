/-
Formula/Proofs/Reading.lean

A pass reads what the grammar derives.

Reading the words of a tree adds the tree to the output, up to operators that
still wait for the end of their right operand (`Reads`).  An operand leaves
none of them, an operand with signs leaves the signs, and a formula leaves the
operators on the right edge of its tree.  That these are the right ones is
`reads_of_groups`: every binary operator releases those before it that bind at
least as tightly, so a chain is read as the tree that `Groups` gives it.

`Phrase.IsRead` says this for every kind of phrase, from any state in which
such a phrase may begin.  Each rule of the grammar has its lemma, and together
they give `Derives.isRead` by induction on the derivation.  For a whole text
it follows that a derived formula compiles to the postorder of its tree
(`compile_of_derives`).
-/
import Formula.Proofs.Coherence
import Formula.Proofs.Grammar

namespace Formula

variable {σ : Type}

open Operator

attribute [ext] Scan

theorem BinaryOp.yieldsTo_iff {o op : BinaryOp} :
    o.yieldsTo op = true ↔ op.precedence ≤ o.precedence := by
  unfold yieldsTo groupsLeft
  rw [Bool.and_true, Bool.or_eq_true, decide_eq_true_iff, beq_iff_eq]
  omega

theorem BinaryOp.yieldsTo_eq_false_iff {o op : BinaryOp} :
    o.yieldsTo op = false ↔ o.precedence < op.precedence := by
  rw [← Bool.not_eq_true, yieldsTo_iff, Nat.not_le]

namespace Scan

/-! ### States after a tree -/

/-- The state with a tree on the output. -/
def placing (s : Scan σ) (t : Tree σ) : Scan σ :=
  { s with
    output := t.items.reverse ++ s.output
    arity := max s.arity 1
    arities := t.arities.reverse ++ s.arities }

/-- The state with a binary operator and its right operand read. -/
def extend (s : Scan σ) (p : BinaryOp × Tree σ) : Scan σ := (s.pushBinary p.1).placing p.2

/-- From `s` to `s'` a tree has been read, up to a run of operators that wait
for the end of their right operand. -/
structure Reads (s s' : Scan σ) (t : Tree σ) (run : List Operator) : Prop where
  stack : s'.stack = above run s.stack
  output : placed run s'.output = t.items.reverse ++ s.output
  arity : s'.arity = max s.arity 1
  saved : s'.saved = s.saved
  arities : s'.arities = t.arities.reverse ++ s.arities

/-- From `s` to `s'` the arguments of a call have been read. -/
structure ReadsAll (s s' : Scan σ) (ts : List (Tree σ)) (run : List Operator) : Prop where
  stack : s'.stack = above run s.stack
  output : placed run s'.output = (Tree.itemsAll ts).reverse ++ s.output
  arity : s'.arity = ts.length
  saved : s'.saved = s.saved
  arities : s'.arities = (Tree.aritiesAll ts).reverse ++ s.arities

variable {s s₁ s₂ s' : Scan σ}

theorem reads_placing (s : Scan σ) (t : Tree σ) : Reads s (s.placing t) t [] :=
  ⟨rfl, rfl, rfl, rfl, rfl⟩

/-- The kinds of the last words do not matter. -/
theorem Reads.advance {t : Tree σ} {run : List Operator} (h : Reads s s' t run) (k : Kind) :
    Reads s (s'.advance k) t run :=
  ⟨h.stack, h.output, h.arity, h.saved, h.arities⟩

/-- A sign in front of a tree waits below the operators of the tree. -/
theorem Reads.sign {t : Tree σ} {run : List Operator} {u : UnaryOp} {k : Kind}
    (h : Reads ((s.push (.sign u)).advance k) s' t run) :
    Reads s s' (.unary u t) (run ++ [.sign u]) where
  stack := by
    rw [h.stack, above_append]
    rfl
  output := by
    rw [placed_append, h.output, Tree.items, List.reverse_append]
    rfl
  arity := h.arity
  saved := h.saved
  arities := h.arities

/-- A binary operator between two trees waits below those of the right one. -/
theorem Reads.binary {l r : Tree σ} {run runl : List Operator} {o : BinaryOp}
    (hl : Reads s s₁ l runl) (hpush : s₂ = { s₁ with
      stack := .binary o :: s.stack, output := placed runl s₁.output })
    (hr : Reads s₂ s' r run) : Reads s s' (.binary o l r) (run ++ [.binary o]) where
  stack := by
    rw [hr.stack, hpush, above_append]
    rfl
  output := by
    rw [placed_append, hr.output, hpush, hl.output, Tree.items]
    simp [placed, item]
  arity := by
    have harity : s₂.arity = max s.arity 1 := by
      rw [hpush]
      exact hl.arity
    rw [hr.arity, harity, Nat.max_assoc, Nat.max_self]
  saved := by
    rw [hr.saved, hpush]
    exact hl.saved
  arities := by
    have harities : s₂.arities = l.arities.reverse ++ s.arities := by
      rw [hpush]
      exact hl.arities
    rw [hr.arities, harities, Tree.arities, List.reverse_append, List.append_assoc]

/-- A chain is read as its tree: operators that bind as tightly as the next one
are released by it, and those that bind less tightly wait. -/
theorem reads_of_groups {first t : Tree σ} {rest : List (BinaryOp × Tree σ)}
    (hgroups : Groups first rest t) {run : List Operator} (hfirst : Reads s s₁ first run)
    (hsigns : ∀ q ∈ run, ∃ u, q = .sign u) (hholds : ∀ p ∈ rest, Pending.Holds p.1 s.stack) :
    ∃ run', Reads s (rest.foldl extend s₁) t run' ∧
      ∀ q ∈ run', (∃ u, q = .sign u) ∨ ∃ p ∈ rest, q = .binary p.1 := by
  induction hgroups generalizing s s₁ run with
  | single t =>
    refine ⟨run, hfirst, ?_⟩
    intro q hq
    exact .inl (hsigns q hq)
  | @split first next l r before after o hbefore hafter _ _ ihl ihr =>
    obtain ⟨runl, hl, hrunl⟩ := ihl hfirst hsigns fun p hp =>
      hholds p (List.mem_append_left _ hp)
    -- everything that the left part left waiting is released
    have hyield : ∀ q ∈ runl, q.yieldsTo o = true := by
      intro q hq
      rcases hrunl q hq with ⟨u, rfl⟩ | ⟨p, hp, rfl⟩
      · rfl
      · exact BinaryOp.yieldsTo_iff.mpr (hbefore p hp)
    have hpush := pushBinary_above hl.stack hyield
      (hholds (o, next) (List.mem_append_right _ List.mem_cons_self))
    -- and the operator itself holds against the right part
    have hwaits : ∀ p ∈ after, Pending.Holds p.1 ((before.foldl extend s₁).pushBinary o).stack := by
      intro p hp
      rw [hpush]
      exact BinaryOp.yieldsTo_eq_false_iff.mpr (hafter p hp)
    obtain ⟨runr, hr, hrunr⟩ := ihr (reads_placing _ next) (by simp) hwaits
    refine ⟨runr ++ [.binary o], ?_, ?_⟩
    · rw [List.foldl_append]
      exact hl.binary hpush hr
    · intro q hq
      rcases List.mem_append.mp hq with hq | hq
      · rcases hrunr q hq with hu | ⟨p, hp, rfl⟩
        · exact .inl hu
        · exact .inr ⟨p, List.mem_append_right _ (List.mem_cons_of_mem _ hp), rfl⟩
      · obtain rfl := List.mem_singleton.mp hq
        exact .inr ⟨(o, next), List.mem_append_right _ List.mem_cons_self, rfl⟩

/-- No function waits for its parenthesis. -/
def Free (s : Scan σ) : Prop := ∀ f S, s.stack ≠ .func f :: S

/-- A formula may begin: nothing waits above the innermost open parenthesis. -/
def Fresh (s : Scan σ) : Prop := s.stack = [] ∨ ∃ S, s.stack = .paren :: S

theorem Fresh.free (h : s.Fresh) : s.Free := by
  intro f S heq
  rcases h with h | ⟨S', h⟩
  · rw [h] at heq
    exact absurd heq nofun
  · rw [h] at heq
    exact absurd heq nofun

theorem Fresh.holds (h : s.Fresh) (op : BinaryOp) : Pending.Holds op s.stack := by
  rcases h with h | ⟨S, h⟩
  · rw [h]
    trivial
  · rw [h]
    trivial

/-- The state inside a call whose parenthesis has been read. -/
def inCall (s : Scan σ) (f : List Float → Eval σ Float) : Scan σ :=
  { s with
    last := .leftParen
    stack := .paren :: .func f :: s.stack
    arity := 0
    saved := max s.arity 1 :: s.saved }

theorem acceptAll_inCall {C : Context σ} {word : Bytes} {f : List Float → Eval σ Float}
    (hexp : s.last.expectsOperand = true) (hfind : C.find? word = some (.fn f))
    (ws : List Lexeme) :
    acceptAll C s (.name word true :: .leftParen :: ws) = acceptAll C (s.inCall f) ws := by
  have hopen : acceptAll C s [.name word true, .leftParen] = .ok (s.inCall f) := by
    apply acceptAll_cons_eq_ok.mpr
    refine ⟨_, .func hexp hfind, ?_⟩
    apply acceptAll_singleton_eq_ok.mpr
    exact .openCall rfl
  show acceptAll C s ([.name word true, .leftParen] ++ ws) = _
  rw [acceptAll_append, hopen]
  rfl

theorem Takes.last_literal {C : Context σ} {l : Literal} (h : Takes C s (.literal l) s') :
    s'.last = .literal := by
  cases h
  rfl

end Scan

open Scan

/-! ### What it is to be read -/

/-- From every state in which a phrase may begin, the pass reads the words as
the phrase. -/
def Phrase.IsRead (C : Context σ) (ws : List Lexeme) : Phrase σ → Prop
  | .operand t => ∀ s : Scan σ, s.last.expectsOperand = true → s.Free →
      ∃ k : Kind, k.endsOperand = true ∧ acceptAll C s ws = .ok ((s.placing t).advance k)
  | .signed t => ∀ s : Scan σ, s.last.allowsSign = true → s.Free →
      ∃ s' run, acceptAll C s ws = .ok s' ∧ s'.last.endsOperand = true ∧ Reads s s' t run ∧
        ∀ q ∈ run, ∃ u, q = .sign u
  | .chain first rest => ∀ s : Scan σ, s.last.allowsSign = true → s.Free →
      ∃ s₁ run, ∃ k : Kind, Reads s s₁ first run ∧ (∀ q ∈ run, ∃ u, q = .sign u) ∧
        k.endsOperand = true ∧ acceptAll C s ws = .ok ((rest.foldl extend s₁).advance k)
  | .formula t => ∀ s : Scan σ, s.last.allowsSign = true → s.Fresh →
      ∃ s' run, acceptAll C s ws = .ok s' ∧ s'.last.endsOperand = true ∧ Reads s s' t run
  | .arguments ts => ∀ (s : Scan σ) (S : List (Pending σ)), s.last.allowsSign = true →
      s.stack = .paren :: S → s.saved ≠ [] → s.arity = 0 →
      ∃ s' run, acceptAll C s ws = .ok s' ∧ s'.last.endsOperand = true ∧ ReadsAll s s' ts run

namespace Phrase.IsRead

variable {C : Context σ} {word : Bytes} {opensCall : Bool} {ws ws' : List Lexeme}
  {t₀ t : Tree σ} {rest : List (BinaryOp × Tree σ)} {ts : List (Tree σ)}

/-! ### Operands -/

theorem literal (l : Literal) : IsRead C [.literal l] (.operand (.const (l.value .float))) := by
  intro s hexp hfree
  exact ⟨.literal, rfl, acceptAll_singleton_eq_ok.mpr (.literal hexp)⟩

theorem const {x : Float} (hfind : C.find? word = some (.const x)) :
    IsRead C [.name word opensCall] (.operand (.const x)) := by
  intro s hexp hfree
  exact ⟨.const, rfl, acceptAll_singleton_eq_ok.mpr (.const hexp hfind)⟩

theorem var {read : StateM σ Float} (hfind : C.find? word = some (.var read)) :
    IsRead C [.name word opensCall] (.operand (.var read)) := by
  intro s hexp hfree
  exact ⟨.var, rfl, acceptAll_singleton_eq_ok.mpr (.var hexp hfind)⟩

theorem callEmpty {f : List Float → Eval σ Float} (hfind : C.find? word = some (.fn f)) :
    IsRead C [.name word true, .leftParen, .rightParen] (.operand (.call f [])) := by
  intro s hexp hfree
  refine ⟨.rightParen, rfl, ?_⟩
  rw [acceptAll_inCall hexp hfind]
  apply acceptAll_singleton_eq_ok.mpr
  have hclose := Takes.closeEmpty (C := C) (s := s.inCall f) rfl rfl
  exact hclose

theorem call {f : List Float → Eval σ Float} (hfind : C.find? word = some (.fn f))
    (h : IsRead C ws (.arguments ts)) :
    IsRead C (.name word true :: .leftParen :: (ws ++ [.rightParen])) (.operand (.call f ts)) := by
  intro s hexp hfree
  refine ⟨.rightParen, rfl, ?_⟩
  rw [acceptAll_inCall hexp hfind]
  apply acceptAll_append_eq_ok.mpr
  obtain ⟨s', run, hread, hends, hargs⟩ :=
    h (s.inCall f) (.func f :: s.stack) rfl rfl (List.cons_ne_nil _ _) rfl
  refine ⟨s', hread, ?_⟩
  apply acceptAll_singleton_eq_ok.mpr
  have hdrained := drained_above hargs.stack (.inr ⟨_, rfl⟩)
  have htail : s'.drained.stack.tail = .func f :: s.stack := by
    rw [hdrained]
    rfl
  have hclose := Takes.closeCall (C := C) (Kind.expectsOperand_of_endsOperand hends) htail
  -- the call is closed in the state in which its tree has been placed
  have hstate : ({ s'.drained with stack := s.stack }.finishCall f).advance .rightParen
      = (s.placing (.call f ts)).advance .rightParen := by
    rw [hdrained]
    ext1
    · rfl
    · rfl
    · show .fn f :: placed run s'.output = _
      rw [hargs.output, placing, Tree.items, List.reverse_append]
      rfl
    · show s'.saved.headD 0 = _
      rw [hargs.saved]
      rfl
    · show s'.saved.tail = _
      rw [hargs.saved]
      rfl
    · show s'.arity :: s'.arities = _
      rw [hargs.arity, hargs.arities, placing, Tree.arities, List.reverse_append]
      rfl
  rw [← hstate]
  exact hclose

theorem group (h : IsRead C ws (.formula t)) :
    IsRead C (.leftParen :: (ws ++ [.rightParen])) (.operand t) := by
  intro s hexp hfree
  refine ⟨.rightParen, rfl, ?_⟩
  apply acceptAll_cons_eq_ok.mpr
  refine ⟨_, .openGroup hexp, ?_⟩
  apply acceptAll_append_eq_ok.mpr
  obtain ⟨s', run, hread, hends, htree⟩ := h ((s.countOperand.push .paren).advance .leftParen)
    rfl (.inr ⟨_, rfl⟩)
  refine ⟨s', hread, ?_⟩
  apply acceptAll_singleton_eq_ok.mpr
  have hdrained := drained_above htree.stack (.inr ⟨_, rfl⟩)
  have hstack : s'.drained.stack = .paren :: s.stack := by
    rw [hdrained]
    rfl
  have hclose := Takes.closeGroup (C := C) (Kind.expectsOperand_of_endsOperand hends)
    (by rw [hstack]; exact List.cons_ne_nil _ _) (by rw [hstack]; exact hfree)
  have hstate : { s'.drained with stack := s'.drained.stack.tail }.advance .rightParen
      = (s.placing t).advance .rightParen := by
    rw [hdrained]
    ext1
    · rfl
    · rfl
    · exact htree.output
    · -- the group and its operand are counted as one
      show s'.arity = max s.arity 1
      rw [htree.arity]
      show max (max s.arity 1) 1 = max s.arity 1
      rw [Nat.max_assoc, Nat.max_self]
    · exact htree.saved
    · exact htree.arities
  rw [← hstate]
  exact hclose

/-! ### Chains -/

theorem unsigned (h : IsRead C ws (.operand t)) : IsRead C ws (.signed t) := by
  intro s hsign hfree
  obtain ⟨k, hk, hread⟩ := h s (Kind.expectsOperand_of_allowsSign hsign) hfree
  exact ⟨_, [], hread, hk, (reads_placing s t).advance k, by simp⟩

theorem sign {byte : UInt8} {u : UnaryOp} (hop : UnaryOp.ofByte? byte = some u)
    (hallow : C.allows u.feature = true) (h : IsRead C ws (.signed t)) :
    IsRead C (.other byte :: ws) (.signed (.unary u t)) := by
  intro s hsign hfree
  obtain ⟨s', run, hread, hends, htree, hrun⟩ := h ((s.push (.sign u)).advance .sign) rfl nofun
  refine ⟨s', run ++ [.sign u], ?_, hends, htree.sign, ?_⟩
  · apply acceptAll_cons_eq_ok.mpr
    exact ⟨_, .sign hsign hop hallow, hread⟩
  · intro q hq
    rcases List.mem_append.mp hq with hq | hq
    · exact hrun q hq
    · exact ⟨u, List.mem_singleton.mp hq⟩

theorem first (h : IsRead C ws (.signed t)) : IsRead C ws (.chain t []) := by
  intro s hsign hfree
  obtain ⟨s', run, hread, hends, htree, hrun⟩ := h s hsign hfree
  exact ⟨s', run, s'.last, htree, hrun, hends, hread⟩

/-- Once its operator is on the stack, an operand extends a chain. -/
theorem extended {s : Scan σ} {k : Kind} {o : BinaryOp} (h : IsRead C ws (.operand t)) :
    ∃ k' : Kind, k'.endsOperand = true ∧
      acceptAll C (((s.advance k).pushBinary o).advance .binary) ws
        = .ok ((s.extend (o, t)).advance k') :=
  h (((s.advance k).pushBinary o).advance .binary) rfl nofun

theorem operator {byte : UInt8} {o : BinaryOp} (h : IsRead C ws (.chain t₀ rest))
    (hop : BinaryOp.ofByte? byte = some o) (hallow : C.allows o.feature = true)
    (h' : IsRead C ws' (.operand t)) :
    IsRead C (ws ++ .other byte :: ws') (.chain t₀ (rest ++ [(o, t)])) := by
  intro s hsign hfree
  obtain ⟨s₁, run, k, htree, hrun, hends, hread⟩ := h s hsign hfree
  obtain ⟨k', hends', hread'⟩ := h'.extended (s := rest.foldl extend s₁) (k := k) (o := o)
  refine ⟨s₁, run, k', htree, hrun, hends', ?_⟩
  rw [List.foldl_append]
  apply acceptAll_append_eq_ok.mpr
  refine ⟨_, hread, ?_⟩
  apply acceptAll_cons_eq_ok.mpr
  exact ⟨_, .binary hends hop hallow, hread'⟩

/-- After a literal the name is read as if the `*` stood in front of it. -/
theorem juxtaposed {l : Literal} (hmul : C.allows .implicitMultiplication = true)
    (h : IsRead C (ws ++ [.literal l]) (.chain t₀ rest))
    (h' : IsRead C (.name word opensCall :: ws') (.operand t)) :
    IsRead C (ws ++ [.literal l] ++ .name word opensCall :: ws')
      (.chain t₀ (rest ++ [(.mul, t)])) := by
  intro s hsign hfree
  obtain ⟨s₁, run, k, htree, hrun, hends, hread⟩ := h s hsign hfree
  obtain ⟨k', hends', hread'⟩ := h'.extended (s := rest.foldl extend s₁) (k := k) (o := .mul)
  refine ⟨s₁, run, k', htree, hrun, hends', ?_⟩
  rw [List.foldl_append]
  apply acceptAll_append_eq_ok.mpr
  refine ⟨_, hread, ?_⟩
  have hlit : ((rest.foldl extend s₁).advance k).last = .literal := by
    obtain ⟨s₂, -, h₂⟩ := acceptAll_append_eq_ok.mp hread
    exact (acceptAll_singleton_eq_ok.mp h₂).last_literal
  obtain ⟨s₃, hname, hread'⟩ := acceptAll_cons_eq_ok.mp hread'
  apply acceptAll_cons_eq_ok.mpr
  exact ⟨s₃, .times hlit hmul hname, hread'⟩

/-! ### Formulas and arguments -/

theorem formula (h : IsRead C ws (.chain t₀ rest)) (hgroups : Groups t₀ rest t) :
    IsRead C ws (.formula t) := by
  intro s hsign hfresh
  obtain ⟨s₁, run, k, htree, hrun, hends, hread⟩ := h s hsign hfresh.free
  obtain ⟨run', htree', -⟩ := reads_of_groups hgroups htree hrun fun p _ => hfresh.holds p.1
  exact ⟨_, run', hread, hends, htree'.advance k⟩

theorem argument (h : IsRead C ws (.formula t)) : IsRead C ws (.arguments [t]) := by
  intro s S hsign hstack hsaved harity
  obtain ⟨s', run, hread, hends, htree⟩ := h s hsign (.inr ⟨S, hstack⟩)
  refine ⟨s', run, hread, hends, htree.stack, ?_, ?_, htree.saved, ?_⟩
  · rw [htree.output, Tree.itemsAll, Tree.itemsAll, List.append_nil]
  · rw [htree.arity, harity]
    rfl
  · rw [htree.arities, Tree.aritiesAll, Tree.aritiesAll, List.append_nil]

theorem comma (h : IsRead C ws (.arguments ts)) (h' : IsRead C ws' (.formula t)) :
    IsRead C (ws ++ .comma :: ws') (.arguments (ts ++ [t])) := by
  intro s S hsign hstack hsaved harity
  obtain ⟨s₁, run, hread, hends, hargs⟩ := h s S hsign hstack hsaved harity
  have habove : s₁.stack = above run (.paren :: S) := by
    rw [hargs.stack, hstack]
  -- the comma places what the argument left waiting
  have hdrained := drained_above habove (.inr ⟨S, rfl⟩)
  have hparen : s₁.drained.stack = .paren :: S := by
    rw [hdrained]
  obtain ⟨s', run', hread', hends', htree⟩ :=
    h' ({ s₁.drained with arity := s₁.arity + 1 }.advance .comma) rfl (.inr ⟨S, hparen⟩)
  refine ⟨s', run', ?_, hends', ?_, ?_, ?_, ?_, ?_⟩
  · apply acceptAll_append_eq_ok.mpr
    refine ⟨s₁, hread, ?_⟩
    apply acceptAll_cons_eq_ok.mpr
    refine ⟨_, .comma hends ?_ (.inl ?_), hread'⟩
    · rw [hargs.saved]
      exact hsaved
    · rw [hparen]
      exact List.cons_ne_nil _ _
  · rw [htree.stack, hstack]
    exact congrArg _ hparen
  · rw [htree.output]
    show _ ++ s₁.drained.output = _
    rw [hdrained, hargs.output]
    simp [Tree.itemsAll_eq_flatMap]
  · rw [htree.arity, List.length_append]
    show max (s₁.arity + 1) 1 = _
    rw [hargs.arity]
    exact Nat.max_eq_left (Nat.le_add_left 1 _)
  · rw [htree.saved]
    exact hargs.saved
  · rw [htree.arities]
    show _ ++ s₁.arities = _
    rw [hargs.arities]
    simp [Tree.aritiesAll_eq_flatMap]

end Phrase.IsRead

/-! ### Derivations -/

/-- The pass reads every phrase that the grammar derives. -/
theorem Derives.isRead {C : Context σ} {ws : List Lexeme} {phrase : Phrase σ}
    (h : Derives C ws phrase) : phrase.IsRead C ws := by
  induction h with
  | literal l => exact .literal l
  | const hfind => exact .const hfind
  | var hfind => exact .var hfind
  | callEmpty hfind => exact .callEmpty hfind
  | call hfind _ ih => exact .call hfind ih
  | group _ ih => exact .group ih
  | unsigned _ ih => exact .unsigned ih
  | sign hop hallow _ ih => exact .sign hop hallow ih
  | first _ ih => exact .first ih
  | operator _ hop hallow _ ih ih' => exact ih.operator hop hallow ih'
  | juxtaposed hmul _ _ ih ih' => exact .juxtaposed hmul ih ih'
  | formula _ hgroups ih => exact ih.formula hgroups
  | argument _ ih => exact ih.argument
  | comma _ _ ih ih' => exact ih.comma ih'

/-- A formula of the grammar compiles to the postorder of its tree. -/
theorem compile_of_derives {C : Context σ} {text : Bytes} {t : Tree σ}
    (h : Derives C (C.lex text) (.formula t)) : C.compile text = .ok t.postorder := by
  obtain ⟨s, run, hread, hends, htree⟩ := h.isRead ({} : Scan σ) rfl (.inl rfl)
  have hunwind : unwind C s s.stack
      = .ok { s with stack := [], output := placed run s.output } := by
    rw [htree.stack, unwind_above]
    rfl
  apply Context.compile_eq_ok_iff.mpr
  refine ⟨s, hread, finish_eq_ok_iff.mpr ?_⟩
  refine ⟨Kind.expectsOperand_of_endsOperand hends, _, hunwind, ?_⟩
  rw [htree.output, htree.arities]
  simp [Tree.postorder]

end Formula
