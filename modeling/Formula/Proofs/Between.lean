/-
Formula/Proofs/Between.lean

What may be written between two words.

The pass over a text arrives in front of `v`, not right behind a function, and so it
has read the words of a text `u` of its own.  A blank or a `*` put there ends the last
word of `u` as the end of the text does, and the pass comes to it in the same state.

* A blank is no word, and from behind it the pass goes on with `v` as before
  (`compile_insert_blank`).  Only between a function and its parenthesis it makes the
  function one that is not called, and that is refused (`compile_insert_blank_of_func`).
* A `*` right behind a literal waits for its right operand.  The name with which `v`
  begins lets the same `*` wait before it is looked up, when names may be multiplied
  with literals (`compile_insert_star`).  The state differs in the kind of the last word
  alone, and the name is the next word in both.
-/
import Formula.Proofs.ImplicitParentheses
import Formula.Proofs.Position

namespace Formula

variable {σ : Type}

namespace Context

open Scan

variable {C : Context σ} {s : Scan σ} {u v after : Bytes} {b c : UInt8}

/-- The words that the pass has read in front of `v`, and `v`, make the whole text. -/
theorem Arrives.compile_eq (h : C.Arrives (u ++ v) v s) :
    C.compile (u ++ v) = acceptAll C s (C.lex v) >>= finish C := by
  rw [Context.compile_eq, h.acceptAll_eq]

/-- In front of a byte that ends the last word the pass is in the same state, whatever
the text behind it was. -/
theorem Arrives.compile_append (h : C.Arrives (u ++ v) v s) (hfunc : s.last ≠ .func)
    (hc : Byte.endsWord c = true) :
    C.compile (u ++ c :: after) = acceptAll C s (C.lex (c :: after)) >>= finish C := by
  have hread := h.acceptAll_lex hfunc
  have hwords : C.lex (u ++ c :: after) = C.lex u ++ C.lex (c :: after) :=
    (lex_append_endsWord hc u after).trans (if_neg (badLiteral_not_mem hread))
  rw [Context.compile_eq, hwords, acceptAll_append, hread]
  rfl

/-! ### A blank -/

/-- **Blanks between words change nothing.**  Where the pass over a text has arrived at
the start of a word or at the end of the text, and not right behind a function, a blank
may be put in: the text compiles to the same result, or is refused with the same error. -/
theorem compile_insert_blank (h : C.Arrives (u ++ v) v s) (hfunc : s.last ≠ .func) :
    C.compile (u ++ Byte.blank :: v) = C.compile (u ++ v) := by
  have hblank : C.lex (Byte.blank :: v) = C.lex v := lex_blank v
  rw [h.compile_append hfunc (by decide), hblank, h.compile_eq]

/-- In `f(2 x)` the pass arrives in front of `x` behind a literal and a blank, in an open
call. -/
theorem exists_sample_arrives : ∃ s, (sample .basic).Arrives (Bytes.ofString "f(2 " ++ [120, 41])
    [120, 41] s ∧ s.last = .literal := by
  have htext : Bytes.ofString "f(2 " ++ [120, 41] = [102, 40, 50, 32, 120, 41] := by
    decide +kernel
  rw [htext]
  have h₀ : (sample .basic).Arrives [102, 40, 50, 32, 120, 41] [102, 40, 50, 32, 120, 41] {} :=
    .refl
  have h₁ : (sample .basic).Arrives _ [40, 50, 32, 120, 41] _ :=
    h₀.turn (w := some (.name [102] true)) (by decide +kernel) rfl
  have h₂ : (sample .basic).Arrives _ [50, 32, 120, 41] _ :=
    h₁.turn (w := some .leftParen) (by decide +kernel) rfl
  have h₃ : (sample .basic).Arrives _ [32, 120, 41] _ :=
    h₂.turn (w := some (.literal ⟨[50], none, none⟩)) (by decide +kernel) rfl
  have h₄ : (sample .basic).Arrives _ [120, 41] _ :=
    h₃.turn (w := none) (by decide +kernel) rfl
  exact ⟨_, h₄, rfl⟩

/-- In `f(2 x)` one more blank may be put in front of `x`. -/
theorem sample_compile_insert_blank : ∃ s,
    (sample .basic).Arrives (Bytes.ofString "f(2 " ++ [120, 41]) [120, 41] s ∧
      s.last ≠ .func ∧ (sample .basic).compile (Bytes.ofString "f(2 " ++ [Byte.blank, 120, 41])
        = (sample .basic).compile (Bytes.ofString "f(2 " ++ [120, 41]) := by
  obtain ⟨s, h, hlast⟩ := exists_sample_arrives
  have hfunc : s.last ≠ .func := by
    rw [hlast]
    exact nofun
  exact ⟨s, h, hfunc, compile_insert_blank h hfunc⟩

/-- A function that is not called is refused. -/
theorem accept_of_not_called {word : Bytes} {f : List Float → Eval σ Float}
    (hfind : C.find? word = some (.fn f)) (s : Scan σ) :
    accept C s (.name word false) = .error .malformed := by
  show s.name C word false = _
  rw [name_eq, hfind]
  cases s.admitsName C <;> rfl

/-- Without its parenthesis a function at the end of a text is refused. -/
theorem Arrives.acceptAll_lex_of_func (h : C.Arrives (u ++ v) v s) (hlast : s.last = .func) :
    acceptAll C {} (C.lex u) = .error .malformed := by
  obtain ⟨b, bs, s₁, word, f, hbefore, hread, hfind, -, -⟩ := h.exists_of_func hlast
  obtain ⟨t, rfl⟩ : v <:+ bs := by
    have hsuffix := Lexeme.read_suffix (C.allows .scientificNotation) b bs
    rw [hread] at hsuffix
    exact hsuffix
  -- the text `u` ends with the name of the function
  have hu : C.Arrives u (b :: t) s₁ := Turns.cut hbefore nofun
  have hname : Lexeme.read (C.allows .scientificNotation) b t
      = (some (.name word false), []) := by
    rcases Lexeme.read_of_append (t := []) hread nofun with hsame | ⟨-, word', hword, hname⟩
    · obtain ⟨after, hafter⟩ := Lexeme.read_name (congrArg Prod.fst hsame)
      rw [hsame] at hafter
      exact absurd hafter nofun
    · obtain ⟨rfl, -⟩ := Lexeme.name.inj (Option.some.inj hword)
      exact hname
  have hwords : C.lex (b :: t) = [.name word false] := by
    rw [lex, lex_cons, hname, lex_nil]
    rfl
  rw [hu.acceptAll_eq, hwords, acceptAll_cons, accept_of_not_called hfind]
  rfl

/-- Between a function and its parenthesis a blank is refused. -/
theorem compile_insert_blank_of_func (h : C.Arrives (u ++ v) v s) (hlast : s.last = .func) :
    C.compile (u ++ Byte.blank :: v) = .error .malformed := by
  have hrefused := h.acceptAll_lex_of_func hlast
  rw [Context.compile_eq, lex, lex_append_blank]
  split
  · rw [← lex, hrefused]
    rfl
  · rw [acceptAll_append, ← lex, hrefused]
    rfl

/-! ### The sign of a multiplication -/

/-- A `*` behind a literal and the one that a name stands for do the same. -/
theorem acceptAll_star (hlast : s.last = .literal) (hmul : C.allows .multiplication = true)
    (himplicit : C.allows .implicitMultiplication = true) (word : Bytes) (opensCall : Bool)
    (ws : List Lexeme) :
    acceptAll C s (.other Byte.star :: .name word opensCall :: ws)
      = acceptAll C s (.name word opensCall :: ws) := by
  have hstar : Takes C s (.other Byte.star) ((s.pushBinary .mul).advance .binary) :=
    .binary (Kind.endsOperand_of_eq_literal hlast) rfl hmul
  have hname : accept C s (.name word opensCall)
      = accept C ((s.pushBinary .mul).advance .binary) (.name word opensCall) :=
    name_times hlast himplicit word opensCall
  rw [acceptAll_cons, accept_of_takes hstar, acceptAll_cons, hname]
  rfl

/-- **A name behind a literal is multiplied with it as if a `*` were written.**  Where
the pass over a text has arrived right behind a literal, blanks apart, and the text goes
on with a byte that starts a name, a `*` may be put in: the text compiles to the same
result, or is refused with the same error. -/
theorem compile_insert_star (h : C.Arrives (u ++ b :: v) (b :: v) s) (hlast : s.last = .literal)
    (hb : Byte.startsName b = true) (hmul : C.allows .multiplication = true)
    (himplicit : C.allows .implicitMultiplication = true) :
    C.compile (u ++ b :: v) = C.compile (u ++ Byte.star :: b :: v) := by
  have hfunc : s.last ≠ .func := by
    rw [hlast]
    exact nofun
  have hstar : C.lex (Byte.star :: b :: v) = .other Byte.star :: C.lex (b :: v) := by
    rw [lex, lex_cons]
    rfl
  obtain ⟨opensCall, hname⟩ : ∃ opensCall, C.lex (b :: v) = .name _ opensCall :: _ :=
    lex_of_startsName hb v
  have hends : Byte.endsWord Byte.star = true := by decide
  rw [h.compile_append hfunc hends, h.compile_eq, hstar, hname,
    acceptAll_star hlast hmul himplicit]

/-- In `f(2 x)` the `*` may be written in front of `x`. -/
theorem sample_compile_insert_star : ∃ s,
    (sample .basic).Arrives (Bytes.ofString "f(2 " ++ [120, 41]) [120, 41] s ∧
      s.last = .literal ∧ (sample .basic).compile (Bytes.ofString "f(2 " ++ [120, 41])
        = (sample .basic).compile (Bytes.ofString "f(2 " ++ [Byte.star, 120, 41]) := by
  obtain ⟨s, h, hlast⟩ := exists_sample_arrives
  exact ⟨s, h, hlast, compile_insert_star h hlast (by decide) (by decide) (by decide)⟩

end Context

end Formula
