/-
Formula/Proofs/Continuation.lean

A pass stops as early as it can, and never too early.

Words behind a blank are read after the words in front of it, so a text that is
refused there is refused however it goes on, and with the same error
(`compile_of_acceptAll_eq_error`).

In every other case a continuation is at hand (`Scan.continuation`): the literal `0`
where an operand is missing, and a right parenthesis for each one that is open.
Behind an operand the parentheses of groups and of calls close one after another,
whatever the features are (`Coherent.exists_close`).
-/
import Formula.Proofs.Encoding
import Formula.Proofs.ImplicitParentheses

namespace Formula

variable {σ : Type}

open Pending

/-! ### Going on behind a state -/

namespace Scan

variable {C : Context σ} {s : Scan σ}

/-- After an operand everything that is open can be closed, and the text can end
there. -/
theorem Coherent.exists_close (hs : s.Coherent) (hends : s.last.endsOperand = true) :
    ∃ p, (acceptAll C s (List.replicate (opens s.stack).length .rightParen) >>= finish C)
      = .ok p := by
  obtain ⟨ts, -, hfits⟩ := hs
  obtain ⟨m, -, hawaits⟩ := hfits.ends hends
  obtain ⟨u, -, hclose⟩ := close_all (C := C) (t := s) hawaits rfl hends rfl rfl rfl
    (.refl s.arity s.saved)
  exact ⟨_, hclose⟩

/-! ### Continuations of a text -/

/-- The literal `0`. -/
def zero : Literal := ⟨[48], none, none⟩

theorem lex_zero (scientific : Bool) : lex scientific [48] = [.literal zero] := by
  rw [lex_cons]
  cases scientific <;> decide +kernel

/-- The characters of the shortest text that completes what has been read: an
operand where one is missing, and the right parentheses of everything that is
open. -/
def continuation (s : Scan σ) : List Char :=
  (if s.last.expectsOperand then ['0'] else []) ++ List.replicate (opens s.stack).length ')'

theorem ofString_continuation (s : Scan σ) : Bytes.ofString (String.ofList s.continuation)
    = (if s.last.expectsOperand then [48] else [])
      ++ List.replicate (opens s.stack).length Byte.rightParen := by
  have hparen : String.utf8EncodeChar ')' = [Byte.rightParen] := by decide
  have hzero : String.utf8EncodeChar '0' = [48] := by decide
  rw [Bytes.ofString_ofList, continuation, List.flatMap_append, List.flatMap_replicate, hparen,
    List.flatten_replicate_singleton]
  split
  · rw [List.flatMap_singleton, hzero]
  · rfl

theorem lex_continuation (scientific : Bool) (s : Scan σ) :
    lex scientific (Bytes.ofString (String.ofList s.continuation))
      = (if s.last.expectsOperand then [.literal zero] else [])
        ++ List.replicate (opens s.stack).length .rightParen := by
  rw [ofString_continuation]
  split
  · rw [lex_append_replicate (by rw [lex_zero]; simp), lex_zero]
  · rw [List.nil_append, lex_replicate_rightParen]
    rfl

/-- Behind every word but a function the text can go on to its end. -/
theorem Coherent.exists_finish (hs : s.Coherent) (hfunc : s.last ≠ .func) (scientific : Bool) :
    ∃ p, (acceptAll C s (lex scientific (Bytes.ofString (String.ofList s.continuation)))
      >>= finish C) = .ok p := by
  rw [lex_continuation]
  by_cases hexp : s.last.expectsOperand = true
  · have htakes : Takes C s (.literal zero)
        ((s.countOperand.emit (.const (zero.value .float))).advance .literal) := .literal hexp
    have hclose := (hs.step htakes fun hlast => absurd hlast hfunc).exists_close (C := C) rfl
    rw [if_pos hexp, List.singleton_append, acceptAll_cons, accept_of_takes htakes]
    exact hclose
  · rw [if_neg hexp, List.nil_append]
    exact hs.exists_close (Kind.endsOperand_of_ne_func (Bool.eq_false_iff.mpr hexp) hfunc)

end Scan

/-! ### Texts that go on behind a blank -/

open Scan

namespace Context

variable {C : Context σ} {u : Bytes}

theorem lex_blank_end (C : Context σ) (u : Bytes) : C.lex (u ++ [Byte.blank]) = C.lex u := by
  unfold lex
  rw [lex_append_blank, lex_nil, List.append_nil, ite_self]

/-- A text that is refused is refused however it goes on behind a blank. -/
theorem compile_of_acceptAll_eq_error {e : Error} (h : acceptAll C {} (C.lex u) = .error e)
    (v : Bytes) : C.compile (u ++ Byte.blank :: v) = .error e := by
  have hlex : ∃ ws, C.lex (u ++ Byte.blank :: v) = C.lex u ++ ws := by
    unfold lex
    rw [lex_append_blank]
    split
    · exact ⟨[], (List.append_nil _).symm⟩
    · exact ⟨_, rfl⟩
  obtain ⟨ws, hlex⟩ := hlex
  rw [compile_eq, hlex, acceptAll_append, h]
  rfl

/-- A text that is read to its end has a continuation. -/
theorem exists_continuation {s : Scan σ} (h : acceptAll C {} (C.lex u) = .ok s) :
    ∃ p, C.compile (u ++ Byte.blank :: Bytes.ofString (String.ofList s.continuation)) = .ok p := by
  have hlex : C.lex (u ++ Byte.blank :: Bytes.ofString (String.ofList s.continuation))
      = C.lex u ++ C.lex (Bytes.ofString (String.ofList s.continuation)) :=
    (lex_append_blank _ _).trans (if_neg (badLiteral_not_mem h))
  have hs : s.Coherent := (reached_lex h).coherent
  rw [compile_eq, hlex, acceptAll_append, h]
  exact hs.exists_finish (last_ne_func_of_lex h) _

/-- **A pass stops as early as it can, and never too early.**  The words of a text
in front of a blank are refused if and only if no text behind the blank makes a
formula of the whole. -/
theorem refused_iff_no_continuation (C : Context σ) (u : Bytes) :
    (∃ e, acceptAll C {} (C.lex (u ++ [Byte.blank])) = .error e) ↔
      ¬ ∃ (v : String) (p : Postfix σ),
        C.compile (u ++ Byte.blank :: Bytes.ofString v) = .ok p := by
  rw [lex_blank_end]
  constructor
  · rintro ⟨e, h⟩ ⟨v, p, hok⟩
    rw [compile_of_acceptAll_eq_error h] at hok
    exact absurd hok nofun
  · intro hnone
    cases hrun : acceptAll C {} (C.lex u) with
    | error e => exact ⟨e, rfl⟩
    | ok s => exact absurd ⟨_, exists_continuation hrun⟩ hnone

end Context

end Formula
