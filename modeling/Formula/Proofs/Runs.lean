/-
Formula/Proofs/Runs.lean

The runs of operators on the stack of a pass.

Between things that are no operators, and up to the ends of the stack, operators wait in
runs.  Such a run is reduced (`Operator.Reduced`): it holds nothing but signs, or at most
one operator of rank 2 with at most one of rank 3 above it.

It is enough to look at two neighbours at a time (`Pending.RestsOn`): a sign waits above
signs only, and a binary operator above one that binds less tightly.  A binary operator
comes to the stack after it has released everything else, and a sign where no binary
operator is on top: at the start of the text, of a group or of an argument, and behind
another sign (`Scan.Layered`).  Since there are two ranks only, at most two binary
operators can stand above each other in this way.
-/
import Mathlib.Data.List.Chain
import Formula.Proofs.Position
import Formula.Proofs.Reading

namespace Formula

variable {σ : Type}

open Operator

/-! ### Neighbours on the stack -/

namespace Pending

/-- Whether the first may wait directly above the second. -/
def RestsOn : Pending σ → Pending σ → Prop
  | .sign _, .binary _ => False
  | .binary _, .sign _ => False
  | .binary upper, .binary lower => lower.precedence < upper.precedence
  | _, _ => True

variable {stack outer : List (Pending σ)} {run : List Operator} {op : BinaryOp}

/-- A parenthesis rests on everything. -/
theorem isChain_paren (h : stack.IsChain RestsOn) : (Pending.paren :: stack).IsChain RestsOn :=
  h.cons fun p _ => by cases p <;> trivial

/-- So does a function. -/
theorem isChain_func (h : stack.IsChain RestsOn) (f : List Float → Eval σ Float) :
    (Pending.func f :: stack).IsChain RestsOn :=
  h.cons fun p _ => by cases p <;> trivial

/-- A sign rests on everything but a binary operator. -/
theorem isChain_sign (h : stack.IsChain RestsOn) (htop : ∀ o S, stack ≠ .binary o :: S)
    (u : UnaryOp) : (Pending.sign u :: stack).IsChain RestsOn := by
  rcases stack with - | ⟨p, stack⟩
  · exact List.isChain_singleton _
  · refine List.isChain_cons_cons.mpr ⟨?_, h⟩
    cases p with
    | binary o => exact absurd rfl (htop o stack)
    | _ => trivial

/-- A binary operator rests on what it does not release. -/
theorem isChain_binary (h : stack.IsChain RestsOn) (htop : Holds op stack) :
    (Pending.binary op :: stack).IsChain RestsOn := by
  rcases stack with - | ⟨p, stack⟩
  · exact List.isChain_singleton _
  · refine List.isChain_cons_cons.mpr ⟨?_, h⟩
    cases p with
    | sign u => exact htop.elim
    | binary o => exact BinaryOp.yieldsTo_eq_false_iff.mp htop
    | _ => trivial

/-! ### Runs -/

/-- Above and below a run of operators there is none. -/
def IsRun (stack : List (Pending σ)) (run : List Operator) : Prop :=
  ∃ inner outer, stack = inner ++ above run outer ∧ Bare inner.reverse ∧ Bare outer

/-- Below a sign there are only signs. -/
theorem signs_of_isChain {u : UnaryOp} (h : (Pending.sign u :: above run outer).IsChain RestsOn) :
    ∃ signs : List UnaryOp, run = signs.map .sign := by
  induction run generalizing u with
  | nil => exact ⟨[], rfl⟩
  | cons p run ih =>
    obtain ⟨htop, hchain⟩ := List.isChain_cons_cons.mp h
    cases p with
    | sign u' =>
      obtain ⟨signs, rfl⟩ := ih hchain
      exact ⟨u' :: signs, rfl⟩
    | binary o => exact htop.elim

/-- Below a binary operator there are only binary operators that bind less tightly. -/
theorem lower_of_isChain (h : (Pending.binary op :: above run outer).IsChain RestsOn) :
    ∀ p ∈ run, ∃ o, p = .binary o ∧ o.precedence < op.precedence := by
  induction run generalizing op with
  | nil => exact nofun
  | cons p run ih =>
    obtain ⟨htop, hchain⟩ := List.isChain_cons_cons.mp h
    cases p with
    | sign u => exact htop.elim
    | binary o =>
      have hlower : o.precedence < op.precedence := htop
      refine List.forall_mem_cons.mpr ⟨⟨o, rfl, hlower⟩, fun q hq => ?_⟩
      obtain ⟨o', rfl, hlt⟩ := ih hchain q hq
      exact ⟨o', rfl, hlt.trans hlower⟩

end Pending

theorem BinaryOp.precedence_eq (op : BinaryOp) : op.precedence = 2 ∨ op.precedence = 3 := by
  cases op <;> simp [precedence]

namespace Operator

/-- Signs only, or at most one operator of rank 2 and at most one of rank 3 above it. -/
def Reduced (run : List Operator) : Prop :=
  (∃ signs : List UnaryOp, run = signs.map .sign) ∨
    ∃ tight loose : Option BinaryOp,
      run = tight.toList.map .binary ++ loose.toList.map .binary ∧
        (∀ o ∈ tight, o.precedence = 3) ∧ ∀ o ∈ loose, o.precedence = 2

variable {run : List Operator} {outer : List (Pending σ)} {op : BinaryOp}

/-- A sign and a binary operator do not share a reduced run. -/
theorem Reduced.not_mixed (h : Reduced run) (u : UnaryOp) (o : BinaryOp) (hu : .sign u ∈ run) :
    .binary o ∉ run := by
  rcases h with ⟨signs, rfl⟩ | ⟨tight, loose, rfl, -, -⟩
  · simp
  · simp at hu

/-- Nothing waits below an operator of the lower rank. -/
theorem eq_nil_of_isChain (hop : op.precedence = 2)
    (h : (Pending.binary op :: above run outer).IsChain Pending.RestsOn) : run = [] := by
  refine List.eq_nil_iff_forall_not_mem.mpr fun p hp => ?_
  obtain ⟨o, -, hlt⟩ := Pending.lower_of_isChain h p hp
  have := o.precedence_eq
  omega

/-- A run is reduced where every two neighbours rest on each other. -/
theorem reduced_of_isChain (h : (above run outer).IsChain Pending.RestsOn) : Reduced run := by
  rcases run with - | ⟨_ | op, run⟩
  · exact .inl ⟨[], rfl⟩
  · obtain ⟨signs, rfl⟩ := Pending.signs_of_isChain h
    exact .inl ⟨_ :: signs, rfl⟩
  · rcases op.precedence_eq with hop | hop
    · obtain rfl := eq_nil_of_isChain hop h
      exact .inr ⟨none, some op, rfl, nofun, fun o ho => Option.some.inj ho ▸ hop⟩
    · have htight : ∀ o ∈ some op, o.precedence = 3 := fun o ho => Option.some.inj ho ▸ hop
      rcases run with - | ⟨p, run⟩
      · exact .inr ⟨some op, none, rfl, htight, nofun⟩
      · obtain ⟨o, rfl, hlt⟩ := Pending.lower_of_isChain h p List.mem_cons_self
        have ho : o.precedence = 2 := by
          have := o.precedence_eq
          omega
        obtain rfl := eq_nil_of_isChain ho h.tail
        exact .inr ⟨some op, some o, rfl, htight, fun o' ho' => Option.some.inj ho' ▸ ho⟩

end Operator

/-! ### Every word keeps the runs reduced -/

namespace Scan

variable {C : Context σ} {s s' : Scan σ} {w : Lexeme}

/-- Neighbours on the stack rest on each other, and where a sign is allowed no binary
operator is on top. -/
structure Layered (s : Scan σ) : Prop where
  chain : s.stack.IsChain Pending.RestsOn
  sign : s.last.allowsSign = true → ∀ o S, s.stack ≠ .binary o :: S

theorem layered_start : ({} : Scan σ).Layered := ⟨.nil, fun _ => nofun⟩

/-- Behind an operand, a function or a binary operator no sign is allowed. -/
theorem Layered.of_not_allowsSign (hlast : s.last.allowsSign = false)
    (h : s.stack.IsChain Pending.RestsOn) : s.Layered :=
  ⟨h, fun hsign => absurd hsign (by rw [hlast]; exact Bool.false_ne_true)⟩

theorem isChain_drained (h : s.stack.IsChain Pending.RestsOn) :
    s.drained.stack.IsChain Pending.RestsOn :=
  h.suffix (Pending.drain_suffix s.stack s.output)

/-- A binary operator rests on what is left behind it. -/
theorem isChain_pushBinary (h : s.stack.IsChain Pending.RestsOn) (op : BinaryOp) :
    ∃ rest, (s.pushBinary op).stack = .binary op :: rest ∧
      (s.pushBinary op).stack.IsChain Pending.RestsOn := by
  obtain ⟨run, rest, hstack, hholds, hpush⟩ := s.exists_pushBinary op
  rw [hstack] at h
  rw [hpush]
  exact ⟨rest, rfl, Pending.isChain_binary h.right_of_append hholds⟩

/-- Every word keeps it. -/
theorem Layered.step (h : s.Layered) (htakes : Takes C s w s') : s'.Layered := by
  induction htakes with
  | literal | const | var => exact .of_not_allowsSign rfl h.chain
  | func => exact .of_not_allowsSign rfl (Pending.isChain_func h.chain _)
  | times _ _ _ ih =>
    obtain ⟨rest, -, hchain⟩ := isChain_pushBinary h.chain .mul
    exact ih (.of_not_allowsSign rfl hchain)
  | openCall | openGroup => exact ⟨Pending.isChain_paren h.chain, fun _ => nofun⟩
  | closeEmpty _ htail =>
    refine .of_not_allowsSign rfl ?_
    have hchain := h.chain.tail
    rw [htail] at hchain
    exact hchain.tail
  | closeCall _ htail =>
    refine .of_not_allowsSign rfl ?_
    have hchain := (isChain_drained h.chain).tail
    rw [htail] at hchain
    exact hchain.tail
  | closeGroup => exact .of_not_allowsSign rfl (isChain_drained h.chain).tail
  | closeUnopened => exact .of_not_allowsSign rfl (isChain_drained h.chain)
  | @comma s =>
    -- the next argument begins above a parenthesis
    refine ⟨isChain_drained h.chain, fun _ o S hstack => ?_⟩
    have hdrained : s.drained.stack = .binary o :: S := hstack
    rcases s.drained_stack with hnil | ⟨S', hparen⟩
    · exact absurd (hnil.symm.trans hdrained) nofun
    · exact absurd (hparen.symm.trans hdrained) nofun
  | binary =>
    obtain ⟨rest, -, hchain⟩ := isChain_pushBinary h.chain _
    exact .of_not_allowsSign rfl hchain
  | sign hsign => exact ⟨Pending.isChain_sign h.chain (h.sign hsign) _, fun _ => nofun⟩

theorem layered_of_acceptAll {ws : List Lexeme} (h : acceptAll C {} ws = .ok s) : s.Layered :=
  acceptAll_induction (P := fun _ s => s.Layered) layered_start
    (fun _ _ _ _ hs htakes => hs.step htakes) h

end Scan

namespace Context

variable {C : Context σ} {s : Scan σ} {text rest : Bytes}

/-- **Runs of operators stay reduced.**  Wherever a pass arrives, every run of operators
on its stack holds signs only, or at most one operator of rank 2 with at most one of rank
3 above it; a sign and a binary operator never share a run.  Hence a binary operator that
comes to the stack has below it, in its run, only binary operators that bind less
tightly. -/
theorem Arrives.runs_reduced (h : C.Arrives text rest s) :
    (∀ run, Pending.IsRun s.stack run →
      Operator.Reduced run ∧ ∀ u o, .sign u ∈ run → .binary o ∉ run) ∧
    ∀ op, ∃ run outer, (s.pushBinary op).stack = .binary op :: above run outer ∧
      Pending.Bare outer ∧ ∀ p ∈ run, ∃ o, p = .binary o ∧ o.precedence < op.precedence := by
  obtain ⟨ws, -, hrun⟩ := h.exists_words
  have hchain := (Scan.layered_of_acceptAll hrun).chain
  constructor
  · rintro run ⟨inner, outer, hstack, -, -⟩
    rw [hstack] at hchain
    have hreduced := Operator.reduced_of_isChain hchain.right_of_append
    exact ⟨hreduced, hreduced.not_mixed⟩
  · intro op
    obtain ⟨below, hpush, hchain⟩ := Scan.isChain_pushBinary hchain op
    obtain ⟨run, outer, rfl, hbare⟩ := Pending.exists_run below
    rw [hpush] at hchain
    exact ⟨run, outer, hpush, hbare, Pending.lower_of_isChain hchain⟩

/-- In `x-x*f(--(x` a `*` waits above a `-`, and two signs wait in front of a group. -/
theorem sample_runs_reduced : ∃ s f,
    (sample .full).Arrives (Bytes.ofString "x-x*f(--(x") [] s ∧
    s.stack = [.paren, .sign .minus, .sign .minus, .paren, .func f, .binary .mul, .binary .sub] ∧
    (∀ run, Pending.IsRun s.stack run →
      Operator.Reduced run ∧ ∀ u o, .sign u ∈ run → .binary o ∉ run) ∧
    ∀ op, ∃ run outer, (s.pushBinary op).stack = .binary op :: above run outer ∧
      Pending.Bare outer ∧ ∀ p ∈ run, ∃ o, p = .binary o ∧ o.precedence < op.precedence := by
  have hlex : (sample .full).lex (Bytes.ofString "x-x*f(--(x")
      = [.name [120] false, .other Byte.minus, .name [120] false, .other Byte.star,
        .name [102] true, .leftParen, .other Byte.minus, .other Byte.minus, .leftParen,
        .name [120] false] := by
    decide +kernel
  obtain ⟨s, f, hrun, hstack⟩ : ∃ s f,
      Scan.acceptAll (sample .full) {} ((sample .full).lex (Bytes.ofString "x-x*f(--(x")) = .ok s ∧
        s.stack = [.paren, .sign .minus, .sign .minus, .paren, .func f, .binary .mul,
          .binary .sub] := by
    rw [hlex]
    exact ⟨_, _, rfl, rfl⟩
  have harrives : (sample .full).Arrives (Bytes.ofString "x-x*f(--(x") [] s :=
    Arrives.end_iff.mpr hrun
  exact ⟨s, f, harrives, hstack, harrives.runs_reduced⟩

end Context

end Formula
