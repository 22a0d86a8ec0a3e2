/-
Formula/Proofs/Lookup.lean

Which names a pass looks up, and why it stops.

A name is looked up where a name may stand (`Scan.admitsName`), and only what it
stands for is read after that (`Scan.name_of_admitsName`).  So there are two
reasons to refuse a text.  A word is out of place, which is malformed whatever
the name of the word stands for; or a name that the pass looks up is not bound
(`Context.compile_eq_error`).

A text that compiles has been read to its end, so all names among its words have
been looked up, and each of them is bound (`Context.lookup_of_compile`).
-/
import Formula.Proofs.Steps

namespace Formula

variable {σ α : Type}

/-! ### Refusals because of the text alone -/

/-- The computation gives a result, or refuses the text as malformed. -/
def OnlyMalformed (x : Except Error α) : Prop := ∀ e, x = .error e → e = .malformed

theorem OnlyMalformed.ok (a : α) : OnlyMalformed (.ok a) := nofun

theorem OnlyMalformed.malformed : OnlyMalformed (.error .malformed : Except Error α) :=
  fun _ h => (Except.error.inj h).symm

theorem OnlyMalformed.bind {β : Type} {x : Except Error α} {k : α → Except Error β}
    (hx : OnlyMalformed x) (hk : ∀ a, OnlyMalformed (k a)) : OnlyMalformed (x >>= k) := by
  intro e h
  rcases bind_eq_error.mp h with h | ⟨a, -, h⟩
  · exact hx e h
  · exact hk a e h

namespace Scan

variable {C : Context σ} {s : Scan σ} {e : Error}

theorem onlyMalformed_require (ok : Bool) : OnlyMalformed (require ok) := by
  cases ok with
  | false => exact .malformed
  | true => exact .ok ()

/-- What is computed behind a requirement. -/
theorem onlyMalformed_require_bind {ok : Bool} {k : Unit → Except Error α}
    (hk : OnlyMalformed (k ())) : OnlyMalformed (require ok >>= k) :=
  (onlyMalformed_require ok).bind fun _ => hk

/-! ### Reading a name -/

/-- Whether a name may stand where the pass is: behind a literal that it is
multiplied with, or where an operand is expected. -/
def admitsName (C : Context σ) (s : Scan σ) : Bool :=
  (s.last == .literal && C.allows .implicitMultiplication) || s.last.expectsOperand

/-- The state in which the symbol of a name is read. -/
def beforeSymbol (C : Context σ) (s : Scan σ) : Scan σ :=
  (if s.last == .literal && C.allows .implicitMultiplication then s.pushBinary .mul
    else s).countOperand

/-- Reads the symbol of a name. -/
def symbol (s : Scan σ) (opensCall : Bool) : Symbol σ → Except Error (Scan σ)
  | .const x => .ok ((s.emit (.const x)).advance .const)
  | .var read => .ok ((s.emit (.var read)).advance .var)
  | .fn call => require opensCall >>= fun _ => .ok ((s.push (.func call)).advance .func)

/-- A name is looked up in its place only, and then what it stands for is read. -/
theorem name_eq (word : Bytes) (opensCall : Bool) :
    s.name C word opensCall = require (s.admitsName C) >>= fun _ =>
      match C.find? word with
      | none => .error .undefinedName
      | some sym => (s.beforeSymbol C).symbol opensCall sym := by
  unfold name
  refine bind_congr fun _ => ?_
  rcases C.find? word with - | ⟨x | read | call⟩ <;> rfl

/-- A name in its place is looked up, and what it stands for is read. -/
theorem name_of_admitsName (h : s.admitsName C = true) (word : Bytes) (opensCall : Bool) :
    s.name C word opensCall = match C.find? word with
      | none => .error .undefinedName
      | some sym => (s.beforeSymbol C).symbol opensCall sym := by
  rw [name_eq, h]
  rfl

/-- A name out of place is refused before it is looked up. -/
theorem name_of_not_admitsName (h : s.admitsName C = false) (word : Bytes) (opensCall : Bool) :
    s.name C word opensCall = .error .malformed := by
  rw [name_eq, h]
  rfl

theorem onlyMalformed_symbol (s : Scan σ) (opensCall : Bool) (sym : Symbol σ) :
    OnlyMalformed (s.symbol opensCall sym) := by
  cases sym with
  | const x => exact .ok _
  | var read => exact .ok _
  | fn call => exact onlyMalformed_require_bind (.ok _)

/-! ### Why a pass stops -/

theorem onlyMalformed_literal (s : Scan σ) (l : Literal) : OnlyMalformed (s.literal l) :=
  onlyMalformed_require_bind (.ok _)

theorem onlyMalformed_leftParen (s : Scan σ) : OnlyMalformed s.leftParen := by
  unfold leftParen
  split
  · exact .ok _
  · exact onlyMalformed_require_bind (.ok _)

theorem onlyMalformed_close (s : Scan σ) (empty : Bool) : OnlyMalformed (s.close empty) := by
  unfold close
  split
  · exact .ok _
  · exact onlyMalformed_require_bind (.ok _)

theorem onlyMalformed_rightParen (C : Context σ) (s : Scan σ) :
    OnlyMalformed (s.rightParen C) := by
  unfold rightParen
  split
  · exact onlyMalformed_close s true
  refine onlyMalformed_require_bind ?_
  dsimp only
  split
  · exact onlyMalformed_require_bind (.ok _)
  · exact onlyMalformed_close _ false

theorem onlyMalformed_comma (C : Context σ) (s : Scan σ) : OnlyMalformed (s.comma C) :=
  onlyMalformed_require_bind (onlyMalformed_require_bind (.ok _))

theorem onlyMalformed_operator (C : Context σ) (s : Scan σ) (byte : UInt8) :
    OnlyMalformed (s.operator C byte) := by
  unfold operator
  split
  · exact .ok _
  · exact .ok _
  · exact .malformed

/-- A word is refused because it is out of place, or because it is a name in its
place that is not bound. -/
theorem accept_eq_error {w : Lexeme} (h : accept C s w = .error e) :
    e = .malformed ∨ e = .undefinedName ∧
      ∃ word opensCall, w = .name word opensCall ∧ s.admitsName C = true ∧
        C.find? word = none := by
  cases w with
  | literal l => exact .inl (onlyMalformed_literal s l e h)
  | badLiteral => exact .inl (OnlyMalformed.malformed e h)
  | name word opensCall =>
    have hname : s.name C word opensCall = .error e := h
    cases hplace : s.admitsName C with
    | false =>
      rw [name_of_not_admitsName hplace] at hname
      exact .inl (OnlyMalformed.malformed e hname)
    | true =>
      rw [name_of_admitsName hplace] at hname
      cases hfind : C.find? word with
      | none =>
        rw [hfind] at hname
        exact .inr ⟨(Except.error.inj hname).symm, word, opensCall, rfl, rfl, hfind⟩
      | some sym =>
        rw [hfind] at hname
        exact .inl (onlyMalformed_symbol _ opensCall sym e hname)
  | leftParen => exact .inl (onlyMalformed_leftParen s e h)
  | rightParen => exact .inl (onlyMalformed_rightParen C s e h)
  | comma => exact .inl (onlyMalformed_comma C s e h)
  | other byte => exact .inl (onlyMalformed_operator C s byte e h)

/-- A pass stops at one of its words, having read those before. -/
theorem exists_of_acceptAll_eq_error {ws : List Lexeme} (h : acceptAll C s ws = .error e) :
    ∃ u w v s₁, ws = u ++ w :: v ∧ acceptAll C s u = .ok s₁ ∧ accept C s₁ w = .error e := by
  induction ws generalizing s with
  | nil => exact absurd h nofun
  | cons w ws ih =>
    rw [acceptAll_cons] at h
    rcases bind_eq_error.mp h with hw | ⟨s₁, hw, hws⟩
    · exact ⟨[], w, ws, s, rfl, rfl, hw⟩
    · obtain ⟨u, w', v, s₂, rfl, hu, hw'⟩ := ih hws
      refine ⟨w :: u, w', v, s₂, rfl, ?_, hw'⟩
      rw [acceptAll_cons, hw]
      exact hu

theorem onlyMalformed_unwind (C : Context σ) (s : Scan σ) (stack : List (Pending σ)) :
    OnlyMalformed (unwind C s stack) := by
  induction stack generalizing s with
  | nil => exact .ok _
  | cons p stack ih =>
    cases p with
    | paren => exact onlyMalformed_require_bind (ih s)
    | func call => exact onlyMalformed_require_bind (ih _)
    | sign u => exact ih _
    | binary o => exact ih _

/-- The end of the text is refused because it is out of place. -/
theorem onlyMalformed_finish (C : Context σ) (s : Scan σ) : OnlyMalformed (s.finish C) :=
  onlyMalformed_require_bind ((onlyMalformed_unwind C s s.stack).bind fun _ => .ok _)

end Scan

/-! ### The names that are looked up -/

namespace Context

/-- The pass over a text comes to a name in its place and looks it up. -/
def LooksUp (C : Context σ) (text word : Bytes) : Prop :=
  ∃ u opensCall v s, C.lex text = u ++ .name word opensCall :: v ∧
    Scan.acceptAll C {} u = .ok s ∧ s.admitsName C = true

variable {C : Context σ} {text word : Bytes} {p : Postfix σ} {e : Error}

/-- A text is refused because of its words or of a name that is looked up and is
not bound. -/
theorem compile_eq_error (h : C.compile text = .error e) :
    e = .malformed ∨ e = .undefinedName ∧ ∃ word, C.LooksUp text word ∧ C.find? word = none := by
  rcases bind_eq_error.mp h with h | ⟨s, -, h⟩
  · obtain ⟨u, w, v, s, hws, hu, hw⟩ := Scan.exists_of_acceptAll_eq_error h
    rcases Scan.accept_eq_error hw with he | ⟨he, word, opensCall, rfl, hplace, hfind⟩
    · exact .inl he
    · exact .inr ⟨he, word, ⟨u, opensCall, v, s, hws, hu, hplace⟩, hfind⟩
  · exact .inl (Scan.onlyMalformed_finish C s e h)

/-- In a text that compiles a name among the words is looked up and is bound. -/
theorem lookup_of_compile (h : C.compile text = .ok p) {opensCall : Bool}
    (hword : .name word opensCall ∈ C.lex text) :
    C.LooksUp text word ∧ C.find? word ≠ none := by
  obtain ⟨u, v, hws⟩ := List.append_of_mem hword
  obtain ⟨s, hrun, -⟩ := compile_eq_ok_iff.mp h
  rw [hws] at hrun
  obtain ⟨s₁, hu, hv⟩ := Scan.acceptAll_append_eq_ok.mp hrun
  obtain ⟨s₂, htakes, -⟩ := Scan.acceptAll_cons_eq_ok.mp hv
  have hname : s₁.name C word opensCall = .ok s₂ := Scan.accept_of_takes htakes
  have hplace : s₁.admitsName C = true := by
    by_contra hplace
    rw [Scan.name_of_not_admitsName (Bool.eq_false_iff.mpr hplace)] at hname
    exact absurd hname nofun
  refine ⟨⟨u, opensCall, v, s₁, hws, hu, hplace⟩, fun hfind => ?_⟩
  rw [Scan.name_of_admitsName hplace, hfind] at hname
  exact absurd hname nofun

/-- Only words of the text are looked up. -/
theorem LooksUp.exists_mem (h : C.LooksUp text word) :
    ∃ opensCall, .name word opensCall ∈ C.lex text := by
  obtain ⟨u, opensCall, v, s, hws, -, -⟩ := h
  rw [hws]
  exact ⟨opensCall, List.mem_append_right _ List.mem_cons_self⟩

end Context

end Formula
