/-
Formula/Proofs/Commas.lean

Where commas may stand.

A pass takes a comma behind an operand whenever some call is open
(`takes_comma_iff`): as many counters are saved as calls are open, and that a
counter has been saved is all that a comma asks for.  What is open inside the
innermost call does not matter.  So every comma of a text that compiles stands
in the parentheses of a call (`call_mem_of_comma`), but not always directly: it
may stand in a group there.  Such a comma still begins one more argument of the
call, and the operators in front of the group go on behind it.  `f(x+(x,x))` is
the call of `f` with the arguments `x` and `x+x` (`sample_compile_group`).
-/
import Formula.Proofs.Recognition

namespace Formula

variable {σ : Type}

open Pending

/-! ### Counters and calls -/

namespace Awaits

variable {stack : List (Pending σ)} {a : Nat} {A : List Nat} {n : Nat}

/-- As many counters are saved as calls are open. -/
theorem length_saved (h : Awaits stack a A n) : A.length = (opens stack).count .call := by
  induction h with
  | bottom => rfl
  | sign _ ih => exact ih
  | binary _ ih => exact ih
  | group h ih =>
    have hne : Bracket.group ≠ .call := by decide
    rw [opens_group h.ne_func, List.count_cons_of_ne hne, ih]
  | @call f stack a A n begun _ ih =>
    have hopens : opens (.paren :: .func f :: stack) = .call :: opens stack := rfl
    rw [hopens, List.count_cons_self, List.length_cons, ih]

theorem saved_ne_nil_iff (h : Awaits stack a A n) : A ≠ [] ↔ .call ∈ opens stack := by
  rw [← List.length_pos_iff, h.length_saved, List.count_pos_iff]

end Awaits

/-! ### Commas that a pass takes -/

namespace Scan

variable {C : Context σ} {s : Scan σ} {ws : List Lexeme}

/-- A comma is taken behind an operand inside a call, also where a group is open
in the call. -/
theorem Reached.takes_comma_iff (h : Reached C ws s) : (∃ s', Takes C s .comma s') ↔
    s.last.endsOperand = true ∧ .call ∈ (C.nesting ws).brackets := by
  rw [h.tracks.brackets]
  constructor
  · rintro ⟨s', htakes⟩
    cases htakes with
    | comma hends hsaved _ =>
      obtain ⟨ts, -, hfits⟩ := h.coherent
      obtain ⟨m, -, hawaits⟩ := hfits.ends hends
      exact ⟨hends, hawaits.saved_ne_nil_iff.mp hsaved⟩
  · rintro ⟨hends, hcall⟩
    obtain ⟨ts, -, m, -, hawaits, -⟩ := h.coherent.drained hends
    rw [← opens_drained] at hcall
    have hsaved : s.saved ≠ [] := hawaits.saved_ne_nil_iff.mpr hcall
    exact ⟨_, .comma hends hsaved (.inl (hawaits.ne_nil_of_saved hsaved))⟩

end Scan

namespace Context

/-- **Commas stand in calls.**  In a text that compiles every comma stands inside
the parentheses of a call, directly or in groups that are open there. -/
theorem call_mem_of_comma {C : Context σ} {text : Bytes} {p : Postfix σ}
    (h : C.compile text = .ok p) {u v : List Lexeme} (hcomma : C.lex text = u ++ .comma :: v) :
    .call ∈ (C.nesting u).brackets := by
  obtain ⟨s, s', ⟨hrun, rest, hj⟩, -⟩ := exists_of_compile h
  rw [hcomma] at hrun hj
  obtain ⟨s₁, hu, hv⟩ := Scan.acceptAll_append_eq_ok.mp hrun
  obtain ⟨s₂, htakes, -⟩ := Scan.acceptAll_cons_eq_ok.mp hv
  rw [List.append_assoc] at hj
  have hreached : Scan.Reached C u s₁ := ⟨hu, _, hj⟩
  exact (hreached.takes_comma_iff.mp ⟨s₂, htakes⟩).2

/-- A comma in a group, with an operator in front of the group. -/
theorem sample_compile_group :
    let u : List Lexeme := [.name [102] true, .leftParen, .name [120] false, .other Byte.plus,
      .leftParen, .name [120] false]
    (sample .basic).lex (Bytes.ofString "f(x+(x,x))")
        = u ++ .comma :: [.name [120] false, .rightParen, .rightParen] ∧
      (sample .basic).compile (Bytes.ofString "f(x+(x,x))")
        = .ok (Tree.call (fun _ => throw .wrongArgumentCount)
            [.const 2, .binary .add (.const 2) (.const 2)]).postorder ∧
      ((sample .basic).nesting u).brackets = [.group, .call] := by
  intro u
  have hlex : (sample .basic).lex (Bytes.ofString "f(x+(x,x))")
      = u ++ .comma :: [.name [120] false, .rightParen, .rightParen] := by
    decide +kernel
  refine ⟨hlex, ?_, by decide +kernel⟩
  rw [compile, hlex]
  rfl

/-- The comma of `f(x+(x,x))` stands in a call. -/
theorem sample_call_mem_of_comma : ∃ p u v,
    (sample .basic).compile (Bytes.ofString "f(x+(x,x))") = .ok p ∧
      (sample .basic).lex (Bytes.ofString "f(x+(x,x))") = u ++ .comma :: v ∧
      .call ∈ ((sample .basic).nesting u).brackets := by
  obtain ⟨hlex, hcompile, -⟩ := sample_compile_group
  exact ⟨_, _, _, hcompile, hlex, call_mem_of_comma hcompile hlex⟩

/-- The comma of `f(x+(x,x))` does not stand directly in the call. -/
theorem not_forall_comma_directly_in_call : ¬ ∀ (C : Context Unit) (text : Bytes)
    (p : Postfix Unit), C.compile text = .ok p → ∀ u v, C.lex text = u ++ .comma :: v →
      (C.nesting u).brackets.head? = some .call := by
  intro hall
  obtain ⟨hlex, hcompile, hnesting⟩ := sample_compile_group
  have hhead := hall _ _ _ hcompile _ _ hlex
  rw [hnesting] at hhead
  exact absurd hhead (by decide)

end Context

end Formula
