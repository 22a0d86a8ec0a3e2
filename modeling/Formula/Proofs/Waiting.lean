/-
Formula/Proofs/Waiting.lean

The operators at the top of the stack of a pass.

A stack is a run of operators above something that is no operator: an open
parenthesis, a function or nothing (`exists_run`).  Everything that moves
operators to the output takes them off such a run one by one, so its effect is
stated once for a whole run.  `Operator.placed` is the output behind the run;
`drain`, `release` and `unwind` all lead to it and differ only in where they
stop.

`Pending.opens` lists the open parentheses of a stack.  Only reading a
parenthesis changes it: operators move without touching it.
-/
import Formula.Scan

namespace Formula

/-- An operator that waits for its right operand. -/
inductive Operator where
  | sign (op : UnaryOp)
  | binary (op : BinaryOp)
deriving DecidableEq, Repr

/-- What an open parenthesis belongs to: a call, where a function stands immediately in front
of it, or a group. -/
inductive Bracket where
  | call
  | group
deriving DecidableEq, Repr

variable {σ : Type}

namespace Operator

/-- The operator on the stack. -/
def pending : Operator → Pending σ
  | sign u => .sign u
  | binary o => .binary o

/-- The operator on the output. -/
def item : Operator → Item σ
  | sign u => .unary u
  | binary o => .binary o

/-- Whether the operator takes its right operand before `op`. -/
def yieldsTo : Operator → BinaryOp → Bool
  | sign _, _ => true
  | binary o, op => o.yieldsTo op

/-- A stack with a run of operators on top, the latest first. -/
def above (run : List Operator) (stack : List (Pending σ)) : List (Pending σ) :=
  run.map pending ++ stack

/-- An output with a run of operators behind it, the first of the run first. -/
def placed (run : List Operator) (output : List (Item σ)) : List (Item σ) :=
  (run.map item).reverse ++ output

/-- How many of the operators of a run wait for a left and a right operand. -/
def binaries : List Operator → Nat
  | [] => 0
  | sign _ :: run => binaries run
  | binary _ :: run => binaries run + 1

@[simp] theorem above_nil (stack : List (Pending σ)) : above [] stack = stack := rfl

@[simp] theorem above_cons (p : Operator) (run : List Operator) (stack : List (Pending σ)) :
    above (p :: run) stack = p.pending :: above run stack := rfl

theorem above_append (run run' : List Operator) (stack : List (Pending σ)) :
    above (run ++ run') stack = above run (above run' stack) := by
  rw [above, List.map_append, List.append_assoc]
  rfl

@[simp] theorem placed_nil (output : List (Item σ)) : placed [] output = output := rfl

@[simp] theorem placed_cons (p : Operator) (run : List Operator) (output : List (Item σ)) :
    placed (p :: run) output = placed run (p.item :: output) := by
  simp [placed]

theorem placed_append (run run' : List Operator) (output : List (Item σ)) :
    placed (run ++ run') output = placed run' (placed run output) := by
  simp [placed]

end Operator

open Operator

namespace Pending

/-- No operator is on top. -/
def Bare : List (Pending σ) → Prop
  | .sign _ :: _ => False
  | .binary _ :: _ => False
  | _ => True

/-- What is on top waits at least until `op` has been placed. -/
def Holds (op : BinaryOp) : List (Pending σ) → Prop
  | .sign _ :: _ => False
  | .binary o :: _ => o.yieldsTo op = false
  | _ => True

/-- Every stack is a run of operators above something that is none. -/
theorem exists_run (stack : List (Pending σ)) :
    ∃ run rest, stack = above run rest ∧ Bare rest := by
  induction stack with
  | nil => exact ⟨[], [], rfl, trivial⟩
  | cons p stack ih =>
    obtain ⟨run, rest, rfl, hrest⟩ := ih
    cases p with
    | paren => exact ⟨[], _, rfl, trivial⟩
    | func call => exact ⟨[], _, rfl, trivial⟩
    | sign u => exact ⟨.sign u :: run, rest, rfl, hrest⟩
    | binary o => exact ⟨.binary o :: run, rest, rfl, hrest⟩

/-! ### Draining -/

theorem drain_above (run : List Operator) (stack : List (Pending σ)) (output : List (Item σ)) :
    drain (above run stack) output = drain stack (placed run output) := by
  induction run generalizing output with
  | nil => rfl
  | cons p run ih =>
    rw [above_cons, placed_cons, ← ih]
    cases p <;> rfl

/-- Draining stops at an open parenthesis or at the bottom. -/
theorem drain_eq (stack : List (Pending σ)) (output : List (Item σ)) :
    (drain stack output).1 = [] ∨ ∃ S, (drain stack output).1 = .paren :: S := by
  induction stack generalizing output with
  | nil => exact .inl rfl
  | cons p stack ih =>
    cases p with
    | paren => exact .inr ⟨stack, rfl⟩
    | func f => exact ih _
    | sign u => exact ih _
    | binary o => exact ih _

/-- Draining leaves the lower part of a stack. -/
theorem drain_suffix (stack : List (Pending σ)) (output : List (Item σ)) :
    (drain stack output).1 <:+ stack := by
  induction stack generalizing output with
  | nil => exact List.suffix_rfl
  | cons p stack ih =>
    cases p with
    | paren => exact List.suffix_rfl
    | func f => exact (ih _).trans (List.suffix_cons _ _)
    | sign u => exact (ih _).trans (List.suffix_cons _ _)
    | binary o => exact (ih _).trans (List.suffix_cons _ _)

/-! ### Releasing -/

theorem release_above {op : BinaryOp} {run : List Operator} (h : ∀ p ∈ run, p.yieldsTo op = true)
    (stack : List (Pending σ)) (output : List (Item σ)) :
    release op (above run stack) output = release op stack (placed run output) := by
  induction run generalizing output with
  | nil => rfl
  | cons p run ih =>
    have hp := h p List.mem_cons_self
    rw [above_cons, placed_cons, ← ih fun q hq => h q (List.mem_cons_of_mem _ hq)]
    cases p with
    | sign u => rfl
    | binary o =>
      have ho : o.yieldsTo op = true := hp
      show (if o.yieldsTo op = true then _ else _) = _
      rw [if_pos ho]
      rfl

theorem release_of_holds {op : BinaryOp} {stack : List (Pending σ)} (h : Holds op stack)
    (output : List (Item σ)) : release op stack output = (stack, output) := by
  match stack, h with
  | [], _ => rfl
  | .paren :: _, _ => rfl
  | .func _ :: _, _ => rfl
  | .sign _ :: _, h => exact h.elim
  | .binary o :: _, h =>
    have ho : ¬ o.yieldsTo op = true := Bool.not_eq_true _ ▸ h
    show (if o.yieldsTo op = true then _ else _) = _
    rw [if_neg ho]

/-- A binary operator releases a run and stops where something waits for it. -/
theorem exists_release (op : BinaryOp) (stack : List (Pending σ)) :
    ∃ run rest, stack = above run rest ∧ Holds op rest ∧
      ∀ output, release op stack output = (rest, placed run output) := by
  have hsplit : ∃ run rest, stack = above run rest ∧ Holds op rest ∧
      ∀ p ∈ run, p.yieldsTo op = true := by
    induction stack with
    | nil => exact ⟨[], [], rfl, trivial, by simp⟩
    | cons p stack ih =>
      obtain ⟨run, rest, rfl, hrest, hrun⟩ := ih
      cases p with
      | paren => exact ⟨[], _, rfl, trivial, by simp⟩
      | func call => exact ⟨[], _, rfl, trivial, by simp⟩
      | sign u => exact ⟨.sign u :: run, rest, rfl, hrest, by simpa [yieldsTo] using hrun⟩
      | binary o =>
        rcases ho : o.yieldsTo op with - | -
        · exact ⟨[], _, rfl, ho, by simp⟩
        · exact ⟨.binary o :: run, rest, rfl, hrest, by simpa [yieldsTo, ho] using hrun⟩
  obtain ⟨run, rest, rfl, hrest, hrun⟩ := hsplit
  refine ⟨run, rest, rfl, hrest, fun output => ?_⟩
  rw [release_above hrun, release_of_holds hrest]

/-! ### Parentheses below everything else -/

theorem release_append (op : BinaryOp) (stack : List (Pending σ)) (output : List (Item σ))
    (j : Nat) : release op (stack ++ List.replicate j .paren) output
      = ((release op stack output).1 ++ List.replicate j .paren, (release op stack output).2) := by
  induction stack generalizing output with
  | nil => cases j <;> rfl
  | cons p stack ih =>
    cases p with
    | paren => rfl
    | func f => rfl
    | sign u => exact ih _
    | binary o =>
      rw [List.cons_append, release, release]
      split
      · exact ih _
      · rfl

theorem drain_append (stack : List (Pending σ)) (output : List (Item σ)) (j : Nat) :
    drain (stack ++ List.replicate j .paren) output
      = ((drain stack output).1 ++ List.replicate j .paren, (drain stack output).2) := by
  induction stack generalizing output with
  | nil => cases j <;> rfl
  | cons p stack ih =>
    cases p with
    | paren => rfl
    | func f => exact ih _
    | sign u => exact ih _
    | binary o => exact ih _

/-- No function comes to the top. -/
theorem ne_func_append {stack : List (Pending σ)} (h : ∀ f S, stack ≠ .func f :: S) (j : Nat) :
    ∀ f S, stack ++ List.replicate j .paren ≠ .func f :: S := by
  intro f S heq
  rcases stack with - | ⟨p, stack⟩
  · cases j with
    | zero => exact absurd heq nofun
    | succ j => exact absurd heq nofun
  · obtain ⟨rfl, -⟩ := List.cons.inj heq
    exact h f stack rfl

/-! ### Open parentheses -/

/-- The parentheses that are open, the innermost first. -/
def opens : List (Pending σ) → List Bracket
  | [] => []
  | .paren :: .func _ :: stack => .call :: opens stack
  | .paren :: stack => .group :: opens stack
  | _ :: stack => opens stack

theorem opens_group {stack : List (Pending σ)} (h : ∀ f S, stack ≠ .func f :: S) :
    opens (.paren :: stack) = .group :: opens stack := by
  rcases stack with - | ⟨_ | f | u | o, stack⟩
  · rfl
  · rfl
  · exact absurd rfl (h f stack)
  · rfl
  · rfl

theorem opens_above (run : List Operator) (stack : List (Pending σ)) :
    opens (above run stack) = opens stack := by
  induction run with
  | nil => rfl
  | cons p run ih =>
    rw [above_cons, ← ih]
    cases p <;> rfl

theorem opens_drain (stack : List (Pending σ)) (output : List (Item σ)) :
    opens (drain stack output).1 = opens stack := by
  induction stack generalizing output with
  | nil => rfl
  | cons p stack ih =>
    cases p with
    | paren => rfl
    | func f => exact ih _
    | sign u => exact ih _
    | binary o => exact ih _

theorem length_opens_paren (stack : List (Pending σ)) :
    (opens (.paren :: stack)).length = (opens stack).length + 1 := by
  rcases stack with - | ⟨_ | f | u | o, stack⟩ <;> rfl

end Pending

namespace Scan

/-! ### Unwinding -/

theorem unwind_above (C : Context σ) (run : List Operator) (s : Scan σ)
    (stack : List (Pending σ)) :
    unwind C s (above run stack) = unwind C { s with output := placed run s.output } stack := by
  induction run generalizing s with
  | nil => rfl
  | cons p run ih =>
    rw [above_cons, placed_cons]
    cases p with
    | sign u => exact ih (s.emit (.unary u))
    | binary o => exact ih (s.emit (.binary o))

/-! ### Steps -/

theorem pushBinary_above {op : BinaryOp} {run : List Operator} {s : Scan σ}
    {rest : List (Pending σ)} (hstack : s.stack = above run rest)
    (hrun : ∀ p ∈ run, p.yieldsTo op = true) (hrest : Pending.Holds op rest) :
    s.pushBinary op = { s with stack := .binary op :: rest, output := placed run s.output } := by
  rw [pushBinary, hstack, Pending.release_above hrun, Pending.release_of_holds hrest]

/-- A binary operator waits above what it does not release. -/
theorem exists_pushBinary (s : Scan σ) (op : BinaryOp) :
    ∃ run rest, s.stack = above run rest ∧ Pending.Holds op rest ∧
      s.pushBinary op = { s with stack := .binary op :: rest, output := placed run s.output } := by
  obtain ⟨run, rest, hstack, hholds, hrelease⟩ := Pending.exists_release op s.stack
  refine ⟨run, rest, hstack, hholds, ?_⟩
  rw [pushBinary, hrelease]

/-- A call that is finished leads back to the counters around it. -/
theorem counters_finishCall {s : Scan σ} {b : Nat} {B : List Nat} (h : s.saved = b :: B)
    (f : List Float → Eval σ Float) :
    (s.finishCall f).arity = b ∧ (s.finishCall f).saved = B := by
  rw [finishCall, h]
  exact ⟨rfl, rfl⟩

theorem drained_stack (s : Scan σ) :
    s.drained.stack = [] ∨ ∃ S, s.drained.stack = .paren :: S :=
  Pending.drain_eq s.stack s.output

theorem drained_above {run : List Operator} {s : Scan σ} {rest : List (Pending σ)}
    (hstack : s.stack = above run rest) (hrest : rest = [] ∨ ∃ S, rest = .paren :: S) :
    s.drained = { s with stack := rest, output := placed run s.output } := by
  rw [drained, hstack, Pending.drain_above]
  rcases hrest with rfl | ⟨S, rfl⟩ <;> rfl

/-! ### The open parentheses of a state -/

theorem opens_drained (s : Scan σ) : Pending.opens s.drained.stack = Pending.opens s.stack :=
  Pending.opens_drain s.stack s.output

theorem opens_pushBinary (s : Scan σ) (op : BinaryOp) :
    Pending.opens (s.pushBinary op).stack = Pending.opens s.stack := by
  obtain ⟨run, rest, hstack, -, hpush⟩ := s.exists_pushBinary op
  rw [hpush, hstack, Pending.opens_above]
  rfl

/-- Where a call can be closed, its parenthesis is the innermost open one. -/
theorem drained_stack_of_call {s : Scan σ} {call : List Float → Eval σ Float}
    {stack : List (Pending σ)} (h : s.drained.stack.tail = .func call :: stack) :
    s.drained.stack = .paren :: .func call :: stack := by
  rcases s.drained_stack with hnil | ⟨S, hparen⟩
  · rw [hnil] at h
    exact absurd h nofun
  · rw [hparen] at h ⊢
    exact congrArg (Pending.paren :: ·) h

theorem drained_stack_of_group {s : Scan σ} (hne : s.drained.stack ≠ []) :
    s.drained.stack = .paren :: s.drained.stack.tail := by
  rcases s.drained_stack with hnil | ⟨S, hparen⟩
  · exact absurd hnil hne
  · rw [hparen]
    rfl

theorem opens_of_call {s : Scan σ} {call : List Float → Eval σ Float} {stack : List (Pending σ)}
    (h : s.drained.stack.tail = .func call :: stack) :
    Pending.opens s.stack = .call :: Pending.opens stack := by
  rw [← opens_drained, drained_stack_of_call h]
  rfl

theorem opens_of_group {s : Scan σ} (hne : s.drained.stack ≠ [])
    (h : ∀ call stack, s.drained.stack.tail ≠ .func call :: stack) :
    Pending.opens s.stack = .group :: Pending.opens s.drained.stack.tail := by
  rw [← opens_drained, drained_stack_of_group hne, Pending.opens_group h]
  rfl

end Scan

end Formula
