/-
Formula/Proofs/ImplicitParentheses.lean

Implicit parentheses stand for the missing ones.

At the end of a text the pass with implicit parentheses and the pass over the
completed text have equal stacks.  What the first one places at once the second
one places one added right parenthesis after another (`close_all`).

The two ways to end part in one place only.  A call that is open without an
argument is closed by an added parenthesis, but the end of the text does not
close it (`compile_lenient`).
-/
import Formula.Proofs.Grammar
import Formula.Proofs.Lookup
import Formula.Proofs.SideBySide

namespace Formula

variable {σ : Type}

open Operator Pending

namespace Scan

variable {C : Context σ} {k : Nat} {i : Imbalance} {s s' : Scan σ}

/-! ### The end of the text -/

theorem unwind_paren (t : Scan σ) (stack : List (Pending σ)) :
    unwind C.lenient t (.paren :: stack) = unwind C.lenient t stack := by
  rw [unwind, Context.lenient_allows_implicitParentheses]
  rfl

theorem unwind_func {t : Scan σ} (h : t.arity ≠ 0) (f : List Float → Eval σ Float)
    (stack : List (Pending σ)) :
    unwind C t (.func f :: stack) = unwind C (t.finishCall f) stack := by
  rw [unwind, decide_eq_true h]
  rfl

/-- After an operand the first pass places everything at once, the second one
closes one parenthesis after another, and both come to the same. -/
theorem close_all {stack : List (Pending σ)} {n m : Nat} {t : Scan σ}
    (hawaits : Awaits stack t.arity t.saved n) (hm : (opens stack).length = m)
    (hends : s'.last.endsOperand = true) (hstack : s'.stack = stack)
    (houtput : s'.output = t.output) (harities : s'.arities = t.arities)
    (hcounters : SameCalls (t.arity :: t.saved) (s'.arity :: s'.saved)) :
    ∃ u, unwind C.lenient t stack = .ok u ∧
      (acceptAll C s' (List.replicate m .rightParen) >>= finish C)
        = .ok ⟨u.output.reverse, u.arities.reverse⟩ := by
  have hexp := Kind.expectsOperand_of_endsOperand hends
  -- one parenthesis of the stack, and one added parenthesis, at a time
  induction m generalizing stack n t s' with
  | zero =>
    obtain ⟨run, rest, -, habove, rfl | ⟨S, rfl⟩, -, -⟩ := hawaits.exists_run
    · rw [habove, unwind_above]
      refine ⟨_, rfl, ?_⟩
      show finish C s' = _
      rw [finish, require_bind, hexp, hstack, habove, unwind_above, houtput]
      show Except.ok _ = _
      rw [harities]
    · rw [habove, opens_above, length_opens_paren] at hm
      exact absurd hm (Nat.succ_ne_zero _)
  | succ m ih =>
    obtain ⟨run, rest, n', habove, rfl | ⟨S, rfl⟩, -, hawaits⟩ := hawaits.exists_run
    · rw [habove, opens_above] at hm
      exact absurd hm nofun
    · rw [habove, opens_above, length_opens_paren] at hm
      have hm := Nat.succ.inj hm
      rw [habove] at hstack
      have hdrained := drained_above hstack (.inr ⟨S, rfl⟩)
      have hparen : s'.drained.stack = .paren :: S := by
        rw [hdrained]
      have hplaced : s'.drained.output = placed run t.output := by
        rw [hdrained, houtput]
      rw [habove, unwind_above, unwind_paren, List.replicate_succ, acceptAll_cons]
      by_cases hfunc : ∃ f S', S = .func f :: S'
      · obtain ⟨f, S', rfl⟩ := hfunc
        obtain ⟨b, B, begun, m', harity, hsaved, -, hrest⟩ := hawaits.of_call
        -- the call has an argument, so the end of the text closes it too
        have hne : Scan.arity { t with output := placed run t.output } ≠ 0 := by
          show t.arity ≠ 0
          rw [harity]
          exact Nat.succ_ne_zero begun
        have hsame := hcounters.inCall (by rw [hsaved]; exact List.cons_ne_nil b B)
        have htail : s'.drained.stack.tail = .func f :: S' := by
          rw [hparen]
          rfl
        rw [unwind_func hne, accept_of_takes (.closeCall hexp htail)]
        refine ih (n := m') (t := Scan.finishCall { t with output := placed run t.output } f)
          ?_ hm rfl rfl (congrArg (Item.fn f :: ·) hplaced) ?_ hsame.2.tail rfl
        · show Awaits S' (t.saved.headD 0) t.saved.tail m'
          rw [hsaved]
          exact hrest
        · show s'.arity :: s'.arities = t.arity :: t.arities
          rw [hsame.1, harities]
      · -- the end of the text drops the parenthesis of a group
        have hfree : ∀ f S', S ≠ .func f :: S' := fun f S' heq => hfunc ⟨f, S', heq⟩
        have hne : s'.drained.stack ≠ [] := by
          rw [hparen]
          exact List.cons_ne_nil _ S
        have htail : ∀ f S', s'.drained.stack.tail ≠ .func f :: S' := by
          rw [hparen]
          exact hfree
        rw [accept_of_takes (.closeGroup hexp hne htail)]
        refine ih (t := { t with output := placed run t.output }) (hawaits.of_group hfree) hm rfl ?_
          hplaced harities hcounters rfl
        show s'.drained.stack.tail = S
        rw [hparen]
        rfl

/-- After an operand the end of the text does what the added right parentheses
do. -/
theorem Simulates.finish (h : Simulates k i s s') (hs : s.Coherent)
    (hends : s.last.endsOperand = true) (hk : k - i.unopened = 0) :
    ∃ p, s.finish C.lenient = .ok p ∧
      (acceptAll C s' (List.replicate i.unclosed .rightParen) >>= Scan.finish C) = .ok p := by
  obtain ⟨ts, -, hfits⟩ := hs
  obtain ⟨m, -, hawaits⟩ := hfits.ends hends
  have hstack : s'.stack = s.stack := by
    rw [h.stack, hk]
    exact List.append_nil _
  obtain ⟨u, hunwind, hclose⟩ := close_all (C := C) hawaits h.depth
    (h.endsOperand_eq.trans hends) hstack h.output h.arities h.counters
  refine ⟨_, ?_, hclose⟩
  rw [Scan.finish, require_bind, Kind.expectsOperand_of_endsOperand hends, hunwind]
  rfl

/-- Where an operand is missing the end of the text is refused. -/
theorem finish_of_expects (h : s.last.expectsOperand = true) : s.finish C = .error .malformed := by
  rw [finish, require_bind, h]
  rfl

theorem Takes.ne_badLiteral {w : Lexeme} (h : Takes C s w s') : w ≠ .badLiteral := by
  rintro rfl
  cases h

/-- A refused literal is refused. -/
theorem badLiteral_not_mem {ws : List Lexeme} (h : acceptAll C {} ws = .ok s) :
    .badLiteral ∉ ws := by
  refine acceptAll_induction (P := fun ws _ => .badLiteral ∉ ws) (by simp) ?_ h
  intro ws w s s' hws htakes hmem
  rcases List.mem_append.mp hmem with hmem | hmem
  · exact hws hmem
  · exact htakes.ne_badLiteral (List.mem_singleton.mp hmem).symm

end Scan

/-! ### Calls that are open without an argument -/

namespace Context

/-- Whether the last word is the parenthesis of a call: a left parenthesis that
stands right behind the name of a function.  Blanks are no words, so that in a
text this is its last byte that is no blank. -/
def endsInCall (C : Context σ) (ws : List Lexeme) : Bool :=
  match ws.reverse with
  | .leftParen :: .name word true :: _ => C.isFunction word
  | _ => false

variable {C : Context σ} {ws : List Lexeme}

theorem endsInCall_append (u : List Lexeme) (word : Bytes) :
    C.endsInCall (u ++ [.name word true, .leftParen]) = C.isFunction word := by
  rw [endsInCall, List.reverse_append]
  rfl

theorem lenient_endsInCall (C : Context σ) (ws : List Lexeme) :
    C.lenient.endsInCall ws = C.endsInCall ws := rfl

theorem exists_of_endsInCall (h : C.endsInCall ws = true) :
    ∃ u word, ws = u ++ [.name word true, .leftParen] := by
  unfold endsInCall at h
  split at h
  · next word u heq =>
    refine ⟨u.reverse, word, ?_⟩
    rw [← List.reverse_reverse ws, heq]
    simp
  · exact absurd h nofun

end Context

namespace Scan

variable {C : Context σ} {s s' : Scan σ} {ws : List Lexeme}

/-- Behind the parenthesis of a call an argument is expected. -/
theorem last_of_endsInCall (h : acceptAll C {} ws = .ok s) (hcall : C.endsInCall ws = true) :
    s.last = .leftParen := by
  obtain ⟨u, word, rfl⟩ := Context.exists_of_endsInCall hcall
  have hsplit : u ++ [.name word true, .leftParen] = (u ++ [.name word true]) ++ [.leftParen] := by
    rw [List.append_assoc]
    rfl
  rw [hsplit] at h
  obtain ⟨s₁, -, h₂⟩ := acceptAll_append_eq_ok.mp h
  exact (acceptAll_singleton_eq_ok.mp h₂).last_leftParen

/-- Right behind the parenthesis of a call that is the last word. -/
theorem endsInCall_of_last (h : Reached C ws s) (hlast : s.last = .leftParen)
    {f : List Float → Eval σ Float} {S : List (Pending σ)} (htail : s.stack.tail = .func f :: S) :
    C.endsInCall ws = true := by
  refine h.induction (P := fun ws s => s.last = .leftParen → ∀ f S,
    s.stack.tail = .func f :: S → C.endsInCall ws = true) (fun hlast => by cases hlast) ?_
    hlast f S htail
  intro ws w s s' hs htakes _ _ hlast f S htail
  obtain rfl := htakes.eq_leftParen hlast
  cases htakes with
  | openCall hfunc =>
    obtain ⟨u, word, f', rfl, hfind, -⟩ := exists_name_of_last hs.1 hfunc
    rw [List.append_assoc]
    exact (C.endsInCall_append u word).trans (Context.isFunction_iff.mpr ⟨f', hfind⟩)
  | openGroup hexp =>
    obtain ⟨ts, -, hfits⟩ := hs.coherent
    exact absurd htail ((hfits.expects hexp).ne_func f S)

/-- Where an operand is missing, a right parenthesis can only close a call
without arguments. -/
theorem endsInCall_of_close (h : Reached C ws s) (hexp : s.last.expectsOperand = true)
    (htakes : Takes C s .rightParen s') : C.endsInCall ws = true := by
  cases htakes with
  | closeEmpty hlast htail => exact endsInCall_of_last h hlast htail
  | closeCall hends => exact absurd hexp (by rw [hends]; exact nofun)
  | closeGroup hends => exact absurd hexp (by rw [hends]; exact nofun)
  | closeUnopened hends => exact absurd hexp (by rw [hends]; exact nofun)

theorem Takes.last_rightParen (h : Takes C s .rightParen s') : s'.last = .rightParen := by
  cases h <;> rfl

/-- Where an operand is missing the added right parentheses are refused too, or
the first one of them closes a call without arguments. -/
theorem Simulates.finish_or_call {i : Imbalance} (h : Simulates i.unopened i s s')
    (hs : Reached C.lenient ws s) (hexp : s.last.expectsOperand = true) (hfunc : s.last ≠ .func) :
    (acceptAll C s' (List.replicate i.unclosed .rightParen) >>= Scan.finish C) = .error .malformed ∨
      C.endsInCall ws = true ∧ ∃ p,
        (acceptAll C s' (List.replicate i.unclosed .rightParen) >>= Scan.finish C) = .ok p := by
  rcases hunclosed : i.unclosed with - | m
  · exact .inl (finish_of_expects (h.expectsOperand_eq.trans hexp))
  have hadd := Imbalance.add_right_of_eq_succ hunclosed
  have hagrees := h.rightParen (C := C) hs.coherent hfunc (Nat.le_of_eq (by rw [hadd]))
  rw [List.replicate_succ, acceptAll_cons]
  rcases hfirst : s.rightParen C.lenient with e | s₁
  · rw [hfirst] at hagrees
    obtain rfl := onlyMalformed_rightParen C.lenient s e hfirst
    have hsecond : Scan.accept C s' .rightParen = .error .malformed := by
      show s'.rightParen C = _
      generalize s'.rightParen C = other at hagrees
      cases hagrees
      rfl
    rw [hsecond]
    exact .inl rfl
  · -- behind the call stands an operand, and the rest of the parentheses is taken
    have htakes : Takes C.lenient s .rightParen s₁ := takes_of_accept hfirst
    have hs₁ : s₁.Coherent := hs.coherent.step htakes fun hlast => absurd hlast hfunc
    have hends₁ : s₁.last.endsOperand = true := by
      rw [htakes.last_rightParen]
      rfl
    rw [hfirst, hadd] at hagrees
    rcases hsecond : s'.rightParen C with e | s₁'
    · rw [hsecond] at hagrees
      cases hagrees
    · rw [hsecond] at hagrees
      cases hagrees with
      | ok h₁ =>
        obtain ⟨p, -, hok⟩ := h₁.finish (C := C) hs₁ hends₁ (Nat.sub_self _)
        have haccept : Scan.accept C s' .rightParen = .ok s₁' := hsecond
        rw [haccept]
        refine .inr ⟨?_, p, hok⟩
        rw [← C.lenient_endsInCall]
        exact endsInCall_of_close hs hexp htakes

/-- At the end of the text the passes come to the same, except behind the
parenthesis of a call. -/
theorem Simulates.finish_eq {i : Imbalance} (h : Simulates i.unopened i s s')
    (hs : Reached C.lenient ws s) (hfunc : s.last ≠ .func) {strict : Except Error (Postfix σ)}
    (hstrict : strict
      = acceptAll C s' (List.replicate i.unclosed .rightParen) >>= Scan.finish C) :
    s.finish C.lenient
      = if C.endsInCall ws && strict.isOk then .error .malformed else strict := by
  by_cases hends : s.last.endsOperand = true
  · obtain ⟨p, hfirst, hsecond⟩ := h.finish (C := C) hs.coherent hends (Nat.sub_self _)
    have hcall : ¬ C.endsInCall ws = true := by
      intro hcall
      rw [← C.lenient_endsInCall] at hcall
      have hlast : s.last = .leftParen := last_of_endsInCall hs.1 hcall
      rw [hlast] at hends
      exact absurd hends nofun
    rw [hfirst, hstrict, hsecond, Bool.eq_false_iff.mpr hcall]
    rfl
  · have hexp : s.last.expectsOperand = true := by
      by_contra hexp
      exact hends (Kind.endsOperand_of_ne_func (Bool.eq_false_iff.mpr hexp) hfunc)
    rw [finish_of_expects hexp]
    rcases h.finish_or_call hs hexp hfunc with herror | ⟨hcall, p, hok⟩
    · rw [hstrict, herror]
      simp
    · rw [hstrict, hcall, hok]
      rfl

end Scan

/-! ### Texts and their completions -/

open Scan

namespace Context

variable {C : Context σ} {text : Bytes}

theorem compile_eq (C : Context σ) (text : Bytes) :
    C.compile text = acceptAll C {} (C.lex text) >>= finish C := rfl

/-- The two passes over the words of the text itself. -/
theorem simulates_lex (C : Context σ) (text : Bytes) :
    Agrees (Simulates text.imbalance.unopened (imbalance (C.lex text)))
      (acceptAll C.lenient {} (C.lex text))
      (acceptAll C {} (List.replicate text.imbalance.unopened .leftParen ++ C.lex text)) := by
  have hj : Joined (C.lex text ++ []) := by
    rw [List.append_nil]
    exact joined_lex text
  exact simulates_acceptAll hj (unopened_lex_le text)

/-- With a refused literal both texts are refused with the same error. -/
theorem compile_of_badLiteral (h : .badLiteral ∈ C.lex text) :
    ∃ e, C.lenient.compile text = .error e ∧ C.compile text.completed = .error e := by
  have hagrees := simulates_lex C text
  rw [compile_eq, compile_eq, lenient_lex, lex_completed_of_bad h]
  rcases hrun : acceptAll C.lenient {} (C.lex text) with e | s
  · rw [hrun] at hagrees
    generalize acceptAll C {} (_ ++ C.lex text) = other at hagrees
    cases hagrees
    exact ⟨e, rfl, rfl⟩
  · exact absurd h (badLiteral_not_mem hrun)

/-- The pass over a completed text reads the words of the text between the added
parentheses. -/
theorem compile_completed (h : .badLiteral ∉ C.lex text) : C.compile text.completed
    = acceptAll C {} (List.replicate text.imbalance.unopened .leftParen ++ C.lex text)
      >>= fun s' => acceptAll C s' (List.replicate text.imbalance.unclosed .rightParen)
        >>= finish C := by
  rw [compile_eq, lex_completed h, acceptAll_append, bind_assoc]

/-- **Implicit parentheses stand for the missing ones.**  With implicit
parentheses a text compiles to what its completion compiles to without them, or
both are refused with the same error.  Only where the last word is the
parenthesis of a call is the text refused although its completion, which closes
the call without an argument, may compile. -/
theorem compile_lenient (C : Context σ) (text : Bytes) : C.lenient.compile text
    = if C.endsInCall (C.lex text) && (C.compile text.completed).isOk then .error .malformed
      else C.compile text.completed := by
  by_cases hbad : .badLiteral ∈ C.lex text
  · obtain ⟨e, hfirst, hsecond⟩ := compile_of_badLiteral hbad
    rw [hfirst, hsecond, if_neg]
    simp [Except.isOk, Except.toBool]
  -- the parentheses among the words are those of the text
  have hagrees := simulates_lex C text
  have himbalance : imbalance (C.lex text) = text.imbalance := imbalance_lex hbad
  rw [himbalance] at hagrees
  rw [compile_eq, lenient_lex, compile_completed hbad]
  rcases hrun : acceptAll C.lenient {} (C.lex text) with e | s
  · rw [hrun] at hagrees
    generalize acceptAll C {} (_ ++ C.lex text) = other at hagrees
    cases hagrees
    simp [Except.isOk, Except.toBool, bind, Except.bind]
  · rw [hrun] at hagrees
    generalize acceptAll C {} (_ ++ C.lex text) = other at hagrees
    cases hagrees with
    | ok h =>
      have hrun' : acceptAll C.lenient {} (C.lenient.lex text) = .ok s := by
        rw [lenient_lex]
        exact hrun
      have hreached : Reached C.lenient (C.lenient.lex text) s := reached_lex hrun'
      have hfunc : s.last ≠ .func := last_ne_func_of_lex hrun'
      rw [lenient_lex] at hreached
      exact h.finish_eq hreached hfunc rfl

end Context

end Formula
