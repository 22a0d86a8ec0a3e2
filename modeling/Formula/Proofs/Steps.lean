/-
Formula/Proofs/Steps.lean

What a pass can do with one word, said once.

`Scan.Takes` lists the ways in which a pass goes on, each with all that it
requires and the state that it leads to; `accept_eq_ok_iff` says that there
are no others.  A name right after a literal may be multiplied with it, and
then it is read as if the `*` stood there, so that a name on its own is all
the other rules have to know.  Whatever every way keeps, a whole run keeps
(`acceptAll_induction`).
-/
import Mathlib.Data.List.Induction
import Formula.Proofs.Waiting

namespace Formula

variable {σ : Type}

/-! ### Computations in turn -/

section Bind

variable {ε α β : Type} {x : Except ε α} {k : α → Except ε β}

/-- A computation gives a result if its first part does and, after that part, its
second. -/
theorem bind_eq_ok {b : β} : (x >>= k) = .ok b ↔ ∃ a, x = .ok a ∧ k a = .ok b := by
  cases x with
  | error e => simp [bind, Except.bind]
  | ok a => simp [bind, Except.bind]

/-- A computation fails in its first part or, after that part, in its second. -/
theorem bind_eq_error {e : ε} :
    (x >>= k) = .error e ↔ x = .error e ∨ ∃ a, x = .ok a ∧ k a = .error e := by
  cases x with
  | error e' => simp [bind, Except.bind]
  | ok a => simp [bind, Except.bind]

end Bind

namespace Kind

theorem endsOperand_of_eq_literal {k : Kind} (h : k = .literal) : k.endsOperand = true := by
  rw [h]
  rfl

/-- After a complete operand none is expected. -/
theorem expectsOperand_of_endsOperand {k : Kind} (h : k.endsOperand = true) :
    k.expectsOperand = false := by
  cases k <;> simp_all [endsOperand, expectsOperand]

/-- Where a sign may stand an operand is expected. -/
theorem expectsOperand_of_allowsSign {k : Kind} (h : k.allowsSign = true) :
    k.expectsOperand = true := by
  cases k <;> simp_all [allowsSign, expectsOperand]

theorem allowsSign_of_endsOperand {k : Kind} (h : k.endsOperand = true) :
    k.allowsSign = false := by
  cases k <;> simp_all [endsOperand, allowsSign]

/-- Where no operand is expected one has ended, except after a function. -/
theorem endsOperand_of_ne_func {k : Kind} (h : k.expectsOperand = false) (hk : k ≠ .func) :
    k.endsOperand = true := by
  cases k <;> simp_all [endsOperand, expectsOperand]

end Kind

namespace Scan

variable {C : Context σ}

/-! ### Requirements -/

theorem require_bind {α : Type} (ok : Bool) (k : Unit → Except Error α) :
    (require ok >>= k) = if ok then k () else .error .malformed := by
  cases ok <;> rfl

theorem require_bind_eq_ok {α : Type} {ok : Bool} {k : Unit → Except Error α} {a : α} :
    (require ok >>= k) = .ok a ↔ ok = true ∧ k () = .ok a := by
  cases ok <;> simp [require_bind]

/-! ### The ways to go on -/

/-- The states that a pass may go on to with one word.  Words that make operands stand where
one is expected; a name behind a literal is multiplied with it.  A right parenthesis closes
a call without arguments, a call with arguments, a group, or nothing.  A comma and a binary
operator come after an operand, and a sign in front of one. -/
inductive Takes (C : Context σ) : Scan σ → Lexeme → Scan σ → Prop
  | literal {s : Scan σ} {l : Literal} (h : s.last.expectsOperand = true) :
      Takes C s (.literal l) ((s.countOperand.emit (.const (l.value .float))).advance .literal)
  | const {s : Scan σ} {word : Bytes} {opensCall : Bool} {x : Float}
      (h : s.last.expectsOperand = true) (hfind : C.find? word = some (.const x)) :
      Takes C s (.name word opensCall) ((s.countOperand.emit (.const x)).advance .const)
  | var {s : Scan σ} {word : Bytes} {opensCall : Bool} {read : StateM σ Float}
      (h : s.last.expectsOperand = true) (hfind : C.find? word = some (.var read)) :
      Takes C s (.name word opensCall) ((s.countOperand.emit (.var read)).advance .var)
  | func {s : Scan σ} {word : Bytes} {call : List Float → Eval σ Float}
      (h : s.last.expectsOperand = true) (hfind : C.find? word = some (.fn call)) :
      Takes C s (.name word true) ((s.countOperand.push (.func call)).advance .func)
  | times {s s' : Scan σ} {word : Bytes} {opensCall : Bool} (h : s.last = .literal)
      (hmul : C.allows .implicitMultiplication = true)
      (hname : Takes C ((s.pushBinary .mul).advance .binary) (.name word opensCall) s') :
      Takes C s (.name word opensCall) s'
  | openCall {s : Scan σ} (h : s.last = .func) :
      Takes C s .leftParen
        (({ s with saved := s.arity :: s.saved, arity := 0 }.push .paren).advance .leftParen)
  | openGroup {s : Scan σ} (h : s.last.expectsOperand = true) :
      Takes C s .leftParen ((s.countOperand.push .paren).advance .leftParen)
  | closeEmpty {s : Scan σ} {call : List Float → Eval σ Float} {stack : List (Pending σ)}
      (h : s.last = .leftParen) (hstack : s.stack.tail = .func call :: stack) :
      Takes C s .rightParen (({ s with stack }.finishCall call).advance .rightParen)
  | closeCall {s : Scan σ} {call : List Float → Eval σ Float} {stack : List (Pending σ)}
      (h : s.last.expectsOperand = false) (hstack : s.drained.stack.tail = .func call :: stack) :
      Takes C s .rightParen (({ s.drained with stack }.finishCall call).advance .rightParen)
  | closeGroup {s : Scan σ} (h : s.last.expectsOperand = false) (hne : s.drained.stack ≠ [])
      (hstack : ∀ call stack, s.drained.stack.tail ≠ .func call :: stack) :
      Takes C s .rightParen
        ({ s.drained with stack := s.drained.stack.tail }.advance .rightParen)
  | closeUnopened {s : Scan σ} (h : s.last.expectsOperand = false) (hnil : s.drained.stack = [])
      (himp : C.allows .implicitParentheses = true) :
      Takes C s .rightParen (s.drained.advance .rightParen)
  | comma {s : Scan σ} (h : s.last.endsOperand = true) (hsaved : s.saved ≠ [])
      (hstack : s.drained.stack ≠ [] ∨ C.allows .implicitParentheses = true) :
      Takes C s .comma ({ s.drained with arity := s.arity + 1 }.advance .comma)
  | binary {s : Scan σ} {byte : UInt8} {op : BinaryOp} (h : s.last.endsOperand = true)
      (hop : BinaryOp.ofByte? byte = some op) (hallow : C.allows op.feature = true) :
      Takes C s (.other byte) ((s.pushBinary op).advance .binary)
  | sign {s : Scan σ} {byte : UInt8} {op : UnaryOp} (h : s.last.allowsSign = true)
      (hop : UnaryOp.ofByte? byte = some op) (hallow : C.allows op.feature = true) :
      Takes C s (.other byte) ((s.push (.sign op)).advance .sign)

/-! ### There are no others -/

/-- A name that is multiplied with a literal is read as if the `*` stood
between them. -/
theorem name_times {s : Scan σ} (h : s.last = .literal)
    (hmul : C.allows .implicitMultiplication = true) (word : Bytes) (opensCall : Bool) :
    s.name C word opensCall = ((s.pushBinary .mul).advance .binary).name C word opensCall := by
  simp only [name, h, hmul, advance, require_bind]
  rfl

/-- Where an operand is expected there is no literal to multiply with. -/
theorem not_times_of_expectsOperand {s : Scan σ} (h : s.last.expectsOperand = true) :
    ¬ (s.last = .literal ∧ C.allows .implicitMultiplication = true) := by
  rintro ⟨hlit, -⟩
  rw [hlit] at h
  exact absurd h (by decide)

/-- A name that is not multiplied needs a place for an operand. -/
theorem name_of_not_times {s : Scan σ}
    (h : ¬ (s.last = .literal ∧ C.allows .implicitMultiplication = true)) (word : Bytes)
    (opensCall : Bool) :
    s.name C word opensCall =
      if s.last.expectsOperand then
        match C.find? word with
        | none => .error .undefinedName
        | some (.const x) => .ok ((s.countOperand.emit (.const x)).advance .const)
        | some (.var read) => .ok ((s.countOperand.emit (.var read)).advance .var)
        | some (.fn call) =>
          if opensCall then .ok ((s.countOperand.push (.func call)).advance .func)
          else .error .malformed
      else .error .malformed := by
  have hfalse : (s.last == .literal && C.allows .implicitMultiplication) = false := by
    simpa using h
  simp only [name, hfalse, Bool.false_or, require_bind]
  rfl

theorem name_ok_takes {s s' : Scan σ} {word : Bytes} {opensCall : Bool}
    (hexp : s.last.expectsOperand = true) (h : s.name C word opensCall = .ok s') :
    Takes C s (.name word opensCall) s' := by
  rw [name_of_not_times (not_times_of_expectsOperand hexp), if_pos hexp] at h
  rcases hfind : C.find? word with - | ⟨x | read | call⟩
  · rw [hfind] at h
    exact absurd h (by simp)
  · rw [hfind] at h
    cases h
    exact .const hexp hfind
  · rw [hfind] at h
    cases h
    exact .var hexp hfind
  · rw [hfind] at h
    cases opensCall with
    | false => exact absurd h (by simp)
    | true =>
      cases h
      exact .func hexp hfind

theorem takes_of_name {s s' : Scan σ} {word : Bytes} {opensCall : Bool}
    (h : s.name C word opensCall = .ok s') : Takes C s (.name word opensCall) s' := by
  by_cases htimes : s.last = .literal ∧ C.allows .implicitMultiplication = true
  · rw [name_times htimes.1 htimes.2] at h
    exact .times htimes.1 htimes.2 (name_ok_takes rfl h)
  · by_cases hexp : s.last.expectsOperand = true
    · exact name_ok_takes hexp h
    · rw [name_of_not_times htimes, if_neg hexp] at h
      exact absurd h (by simp)

theorem takes_of_leftParen {s s' : Scan σ} (h : s.leftParen = .ok s') :
    Takes C s .leftParen s' := by
  unfold leftParen at h
  split at h
  · next hfunc =>
    cases h
    exact .openCall hfunc
  · obtain ⟨hexp, h⟩ := require_bind_eq_ok.mp h
    cases h
    exact .openGroup hexp

theorem takes_of_rightParen {s s' : Scan σ} (h : s.rightParen C = .ok s') :
    Takes C s .rightParen s' := by
  unfold rightParen at h
  split at h
  · next hlast =>
    -- only a call closes right after it was opened
    unfold close at h
    split at h
    · next call stack hstack =>
      cases h
      exact .closeEmpty hlast hstack
    · exact absurd (require_bind_eq_ok.mp h).1 (by simp)
  · obtain ⟨hexp, h⟩ := require_bind_eq_ok.mp h
    have hexp : s.last.expectsOperand = false := by simpa using hexp
    dsimp only at h
    split at h
    · next hempty =>
      obtain ⟨himp, h⟩ := require_bind_eq_ok.mp h
      cases h
      exact .closeUnopened hexp (by simpa using hempty) himp
    · next hempty =>
      unfold close at h
      split at h
      · next call stack hstack =>
        cases h
        exact .closeCall hexp hstack
      · next hstack =>
        obtain ⟨-, h⟩ := require_bind_eq_ok.mp h
        cases h
        exact .closeGroup hexp (by simpa using hempty) hstack

theorem takes_of_comma {s s' : Scan σ} (h : s.comma C = .ok s') : Takes C s .comma s' := by
  unfold comma at h
  obtain ⟨hends, h⟩ := require_bind_eq_ok.mp h
  obtain ⟨hstack, h⟩ := require_bind_eq_ok.mp h
  cases h
  simp only [Bool.and_eq_true, Bool.not_eq_true', List.isEmpty_eq_false_iff] at hends
  simp only [Bool.or_eq_true, Bool.not_eq_true', List.isEmpty_eq_false_iff] at hstack
  exact .comma hends.1 hends.2 hstack

theorem binary?_eq_some_iff {last : Kind} {byte : UInt8} {op : BinaryOp} :
    binary? C last byte = some op ↔
      last.endsOperand = true ∧ BinaryOp.ofByte? byte = some op ∧ C.allows op.feature = true := by
  unfold binary?
  split
  · next h => rw [Option.filter_eq_some_iff]; simp [h]
  · next h => simp [h]

theorem sign?_eq_some_iff {last : Kind} {byte : UInt8} {op : UnaryOp} :
    sign? C last byte = some op ↔
      last.allowsSign = true ∧ UnaryOp.ofByte? byte = some op ∧ C.allows op.feature = true := by
  unfold sign?
  split
  · next h => rw [Option.filter_eq_some_iff]; simp [h]
  · next h => simp [h]

theorem takes_of_operator {s s' : Scan σ} {byte : UInt8} (h : s.operator C byte = .ok s') :
    Takes C s (.other byte) s' := by
  unfold operator at h
  split at h
  · next op hbin =>
    obtain ⟨hends, hop, hallow⟩ := binary?_eq_some_iff.mp hbin
    cases h
    exact .binary hends hop hallow
  · next op hbin hsign =>
    obtain ⟨hsign, hop, hallow⟩ := sign?_eq_some_iff.mp hsign
    cases h
    exact .sign hsign hop hallow
  · exact absurd h (by simp)

theorem takes_of_accept {s s' : Scan σ} {w : Lexeme} (h : accept C s w = .ok s') :
    Takes C s w s' := by
  cases w with
  | literal l =>
    obtain ⟨hexp, h⟩ := require_bind_eq_ok.mp h
    cases h
    exact .literal hexp
  | badLiteral => exact absurd h (by simp [accept])
  | name word opensCall => exact takes_of_name h
  | leftParen => exact takes_of_leftParen h
  | rightParen => exact takes_of_rightParen h
  | comma => exact takes_of_comma h
  | other byte => exact takes_of_operator h

/-- A right parenthesis after an operand. -/
theorem accept_rightParen {s : Scan σ} (h : s.last.expectsOperand = false) :
    accept C s .rightParen =
      if s.drained.stack.isEmpty then
        require (C.allows .implicitParentheses) >>= fun _ => pure (s.drained.advance .rightParen)
      else s.drained.close false := by
  have hlast : s.last ≠ .leftParen := by
    intro hlast
    rw [hlast] at h
    exact absurd h (by decide)
  show rightParen C s = _
  rw [rightParen, if_neg hlast, require_bind, h]
  rfl

theorem ne_func_of_expectsOperand {s : Scan σ} (h : s.last.expectsOperand = true) :
    s.last ≠ .func := by
  intro hlast
  rw [hlast] at h
  exact absurd h (by decide)

theorem accept_of_takes {s s' : Scan σ} {w : Lexeme} (h : Takes C s w s') :
    accept C s w = .ok s' := by
  induction h with
  | literal h => exact require_bind_eq_ok.mpr ⟨h, rfl⟩
  | const h hfind =>
    refine (name_of_not_times (not_times_of_expectsOperand h) _ _).trans ?_
    rw [if_pos h, hfind]
  | var h hfind =>
    refine (name_of_not_times (not_times_of_expectsOperand h) _ _).trans ?_
    rw [if_pos h, hfind]
  | func h hfind =>
    refine (name_of_not_times (not_times_of_expectsOperand h) _ _).trans ?_
    rw [if_pos h, hfind]
    rfl
  | times h hmul _ ih => exact (name_times h hmul _ _).trans ih
  | openCall h =>
    show leftParen _ = _
    rw [leftParen, if_pos h]
    rfl
  | openGroup h =>
    have hfunc := ne_func_of_expectsOperand h
    show leftParen _ = _
    rw [leftParen, if_neg hfunc]
    exact require_bind_eq_ok.mpr ⟨h, rfl⟩
  | closeEmpty h hstack =>
    show rightParen C _ = _
    rw [rightParen, if_pos h, close, hstack]
    rfl
  | @closeCall s call stack h hstack =>
    have hne : s.drained.stack ≠ [] := by
      intro hnil
      rw [hnil] at hstack
      exact absurd hstack (by simp)
    rw [accept_rightParen h, if_neg (by simpa using hne), close, hstack]
    rfl
  | closeGroup h hne hstack =>
    rw [accept_rightParen h, if_neg (by simpa using hne), close]
    split
    · next call stack hcall => exact absurd hcall (hstack call stack)
    · rfl
  | closeUnopened h hnil himp =>
    rw [accept_rightParen h, if_pos (by simpa using hnil)]
    exact require_bind_eq_ok.mpr ⟨himp, rfl⟩
  | comma h hsaved hstack =>
    refine require_bind_eq_ok.mpr ⟨by simp [h, hsaved], require_bind_eq_ok.mpr ⟨?_, rfl⟩⟩
    simpa using hstack
  | binary h hop hallow =>
    show operator C _ _ = _
    rw [operator, binary?_eq_some_iff.mpr ⟨h, hop, hallow⟩]
    rfl
  | @sign s byte op h hop hallow =>
    -- the byte may also be that of a binary operator, but none can stand here
    have hbin : binary? C s.last byte = none := by
      have hends : ¬ s.last.endsOperand = true := fun he =>
        absurd h (by rw [Kind.allowsSign_of_endsOperand he]; decide)
      rw [binary?, if_neg hends]
    show operator C _ _ = _
    rw [operator, hbin, sign?_eq_some_iff.mpr ⟨h, hop, hallow⟩]
    rfl

/-- A pass goes on in the listed ways and in no others. -/
theorem accept_eq_ok_iff {s s' : Scan σ} {w : Lexeme} :
    accept C s w = .ok s' ↔ Takes C s w s' :=
  ⟨takes_of_accept, accept_of_takes⟩

theorem Takes.last_leftParen {s s' : Scan σ} (h : Takes C s .leftParen s') :
    s'.last = .leftParen := by
  cases h <;> rfl

theorem Takes.eq_leftParen {s s' : Scan σ} {w : Lexeme} (h : Takes C s w s')
    (hlast : s'.last = .leftParen) : w = .leftParen := by
  induction h with
  | openCall => rfl
  | openGroup => rfl
  | times _ _ _ ih => exact ih hlast
  | _ => cases hlast

/-! ### Runs -/

theorem acceptAll_cons (C : Context σ) (s : Scan σ) (w : Lexeme) (ws : List Lexeme) :
    acceptAll C s (w :: ws) = accept C s w >>= fun s' => acceptAll C s' ws := rfl

theorem acceptAll_append (C : Context σ) (s : Scan σ) (ws ws' : List Lexeme) :
    acceptAll C s (ws ++ ws') = acceptAll C s ws >>= fun s' => acceptAll C s' ws' :=
  List.foldlM_append

theorem acceptAll_cons_eq_ok {s s' : Scan σ} {w : Lexeme} {ws : List Lexeme} :
    acceptAll C s (w :: ws) = .ok s' ↔ ∃ s₁, Takes C s w s₁ ∧ acceptAll C s₁ ws = .ok s' := by
  rw [acceptAll_cons, bind_eq_ok]
  simp only [accept_eq_ok_iff]

theorem acceptAll_append_eq_ok {s s' : Scan σ} {ws ws' : List Lexeme} :
    acceptAll C s (ws ++ ws') = .ok s' ↔
      ∃ s₁, acceptAll C s ws = .ok s₁ ∧ acceptAll C s₁ ws' = .ok s' := by
  rw [acceptAll_append, bind_eq_ok]

theorem acceptAll_singleton_eq_ok {s s' : Scan σ} {w : Lexeme} :
    acceptAll C s [w] = .ok s' ↔ Takes C s w s' := by
  rw [acceptAll_cons_eq_ok]
  constructor
  · rintro ⟨s₁, htakes, h⟩
    cases h
    exact htakes
  · exact fun htakes => ⟨s', htakes, rfl⟩

/-- What holds before the first word and is kept by every step holds after
every run.  `P` may speak of the words read so far. -/
theorem acceptAll_induction {P : List Lexeme → Scan σ → Prop} {s₀ : Scan σ} (hnil : P [] s₀)
    (hstep : ∀ ws w s s', P ws s → Takes C s w s' → P (ws ++ [w]) s') {ws : List Lexeme}
    {s : Scan σ} (h : acceptAll C s₀ ws = .ok s) : P ws s := by
  induction ws using List.reverseRecOn generalizing s with
  | nil =>
    cases h
    exact hnil
  | append_singleton ws w ih =>
    obtain ⟨s₁, h₁, h₂⟩ := acceptAll_append_eq_ok.mp h
    exact hstep ws w s₁ s (ih h₁) (acceptAll_singleton_eq_ok.mp h₂)

/-! ### Whole texts -/

/-- The text may end after an operand, if everything that waits can be placed. -/
theorem finish_eq_ok_iff {s : Scan σ} {p : Postfix σ} : s.finish C = .ok p ↔
    s.last.expectsOperand = false ∧
      ∃ s', unwind C s s.stack = .ok s' ∧ p = ⟨s'.output.reverse, s'.arities.reverse⟩ := by
  unfold finish
  rw [require_bind_eq_ok, bind_eq_ok, Bool.not_eq_true']
  refine and_congr_right fun _ => exists_congr fun s' => and_congr_right fun _ => ?_
  exact ⟨fun h => (Except.ok.inj h).symm, fun h => congrArg Except.ok h.symm⟩

end Scan

/-- A text compiles if all its words are read and it may end there. -/
theorem Context.compile_eq_ok_iff {C : Context σ} {text : Bytes} {p : Postfix σ} :
    C.compile text = .ok p ↔
      ∃ s, Scan.acceptAll C {} (C.lex text) = .ok s ∧ s.finish C = .ok p :=
  bind_eq_ok

end Formula
