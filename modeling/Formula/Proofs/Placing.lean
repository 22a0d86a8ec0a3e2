/-
Formula/Proofs/Placing.lean

What is read is placed.

Whatever a pass reads waits on the stack or stands in the output (`Scan.items`).
Moving operators from the one to the other loses nothing and makes nothing up
(`items_drained`, `items_pushBinary`), and so does the end of the text: the items
of the postfix form are the items that have been read (`items_finish`).

So whatever stands in a postfix form was put there by a word of the text
(`Context.supplies_of_compile`).  The variables and functions are symbols of the
context, and an operator takes a feature (`Context.enables_of_compile`): the
feature of the operator or, for a product, implicit multiplication.  An evaluation
calls functions of the context only (`Context.exists_runs_of_compile`).
-/
import Formula.Proofs.Coherence

namespace Formula

variable {σ : Type}

/-! ### Items that wait -/

namespace Pending

/-- What something that waits is in the output.  An open parenthesis is never
put there. -/
def item? : Pending σ → Option (Item σ)
  | .paren => none
  | .func call => some (.fn call)
  | .sign u => some (.unary u)
  | .binary o => some (.binary o)

/-- The items of a stack and of an output. -/
def items (stack : List (Pending σ)) (output : List (Item σ)) : List (Item σ) :=
  stack.filterMap item? ++ output

/-- Moving what is on top to the output changes the order only. -/
theorem items_cons {p : Pending σ} {x : Item σ} (h : p.item? = some x)
    (stack : List (Pending σ)) (output : List (Item σ)) :
    (items stack (x :: output)).Perm (items (p :: stack) output) := by
  rw [items, items, List.filterMap_cons_some h]
  exact List.perm_middle

theorem items_drain (stack : List (Pending σ)) (output : List (Item σ)) :
    (items (drain stack output).1 (drain stack output).2).Perm (items stack output) := by
  induction stack generalizing output with
  | nil => exact .refl _
  | cons p stack ih =>
    cases p with
    | paren => exact .refl _
    | func f => exact (ih _).trans (items_cons rfl _ _)
    | sign u => exact (ih _).trans (items_cons rfl _ _)
    | binary o => exact (ih _).trans (items_cons rfl _ _)

theorem items_release (op : BinaryOp) (stack : List (Pending σ)) (output : List (Item σ)) :
    (items (release op stack output).1 (release op stack output).2).Perm
      (items stack output) := by
  induction stack generalizing output with
  | nil => exact .refl _
  | cons p stack ih =>
    cases p with
    | paren => exact .refl _
    | func f => exact .refl _
    | sign u => exact (ih _).trans (items_cons rfl _ _)
    | binary o =>
      unfold release
      split
      · exact (ih _).trans (items_cons rfl _ _)
      · exact .refl _

end Pending

open Pending

/-- Whether the features let an item stand in a postfix form.  They say nothing
about operands and functions. -/
def Context.Enables (C : Context σ) : Item σ → Prop
  | .unary u => C.allows u.feature = true
  | .binary o => C.allows o.feature = true ∨ o = .mul ∧ C.allows .implicitMultiplication = true
  | _ => True

/-- Where an item of a postfix form comes from: variables and functions are
symbols of the context, and the features let an operator stand. -/
def Context.Supplies (C : Context σ) : Item σ → Prop
  | .const _ => True
  | .var read => ∃ word, C.find? word = some (.var read)
  | .fn call => ∃ word, C.find? word = some (.fn call)
  | .unary u => C.allows u.feature = true
  | .binary o => C.allows o.feature = true ∨ o = .mul ∧ C.allows .implicitMultiplication = true

theorem Context.Supplies.enables {C : Context σ} {x : Item σ} (h : C.Supplies x) :
    C.Enables x := by
  cases x with
  | const x => trivial
  | var read => trivial
  | fn call => trivial
  | unary u => exact h
  | binary o => exact h

namespace Scan

variable {C : Context σ} {s s' : Scan σ} {x : Item σ}

/-- The items that have been read: those that wait and those that are placed. -/
def items (s : Scan σ) : List (Item σ) := Pending.items s.stack s.output

theorem items_drained (s : Scan σ) : s.drained.items.Perm s.items :=
  items_drain s.stack s.output

theorem items_pushBinary (s : Scan σ) (op : BinaryOp) :
    (s.pushBinary op).items.Perm (.binary op :: s.items) :=
  (items_release op s.stack s.output).cons _

theorem items_emit (s : Scan σ) (x : Item σ) : (s.emit x).items.Perm (x :: s.items) :=
  List.perm_middle

/-- A function whose arguments are complete is placed. -/
theorem items_finishCall (s : Scan σ) (call : List Float → Eval σ Float)
    (stack : List (Pending σ)) :
    ({ s with stack }.finishCall call).items.Perm (Pending.items (.func call :: stack) s.output) :=
  items_cons rfl stack s.output

theorem mem_of_mem_items_tail {stack : List (Pending σ)} {output : List (Item σ)}
    (h : x ∈ Pending.items stack.tail output) : x ∈ Pending.items stack output := by
  rcases stack with - | ⟨p, stack⟩
  · exact h
  · exact (((List.sublist_cons_self p stack).filterMap item?).append_right output).mem h

/-! ### Where items come from -/

/-- A right parenthesis that closes a call adds no item. -/
theorem mem_of_mem_finishCall {call : List Float → Eval σ Float} {stack : List (Pending σ)}
    (htail : s.stack.tail = .func call :: stack)
    (h : x ∈ ({ s with stack }.finishCall call).items) : x ∈ s.items := by
  have hfunc := (items_finishCall s call stack).mem_iff.mp h
  rw [← htail] at hfunc
  exact mem_of_mem_items_tail hfunc

/-- A step that adds one item, which the context supplies. -/
theorem mem_or_supplies {y : Item σ} (hperm : s'.items.Perm (y :: s.items)) (hy : C.Supplies y)
    (hx : x ∈ s'.items) : x ∈ s.items ∨ C.Supplies x := by
  rcases List.mem_cons.mp (hperm.mem_iff.mp hx) with rfl | hx
  · exact .inr hy
  · exact .inl hx

/-- A step adds items that the context supplies, or none. -/
theorem Takes.mem_items {w : Lexeme} (h : Takes C s w s') (hx : x ∈ s'.items) :
    x ∈ s.items ∨ C.Supplies x := by
  induction h with
  | @literal s l _ => exact mem_or_supplies (items_emit s.countOperand (.const _)) trivial hx
  | @const s _ _ _ _ _ => exact mem_or_supplies (items_emit s.countOperand (.const _)) trivial hx
  | @var s _ _ read _ hfind =>
    exact mem_or_supplies (items_emit s.countOperand (.var read)) ⟨_, hfind⟩ hx
  | @func s _ call _ hfind => exact mem_or_supplies (y := .fn call) (.refl _) ⟨_, hfind⟩ hx
  | @times s _ _ _ _ hmul _ ih =>
    -- the product is read first, then the name
    rcases ih hx with hx | hx
    · exact mem_or_supplies (items_pushBinary s .mul) (.inr ⟨rfl, hmul⟩) hx
    · exact .inr hx
  | openCall _ => exact .inl hx
  | openGroup _ => exact .inl hx
  | closeEmpty _ htail => exact .inl (mem_of_mem_finishCall htail hx)
  | @closeCall s _ _ _ htail =>
    exact .inl ((items_drained s).mem_iff.mp (mem_of_mem_finishCall htail hx))
  | @closeGroup s _ _ _ => exact .inl ((items_drained s).mem_iff.mp (mem_of_mem_items_tail hx))
  | @closeUnopened s _ _ _ => exact .inl ((items_drained s).mem_iff.mp hx)
  | @comma s _ _ _ => exact .inl ((items_drained s).mem_iff.mp hx)
  | @binary s _ op _ _ hallow => exact mem_or_supplies (items_pushBinary s op) (.inl hallow) hx
  | @sign s _ op _ _ hallow => exact mem_or_supplies (y := .unary op) (.refl _) hallow hx

/-- The context supplies everything that has been read. -/
theorem supplies_of_acceptAll {ws : List Lexeme} (h : acceptAll C {} ws = .ok s) :
    ∀ x ∈ s.items, C.Supplies x := by
  refine acceptAll_induction (P := fun _ s => ∀ x ∈ s.items, C.Supplies x)
    (fun _ hx => absurd hx List.not_mem_nil) ?_ h
  intro _ w s s' hs htakes x hx
  rcases htakes.mem_items hx with hx | hx
  · exact hs x hx
  · exact hx

/-! ### The end of the text -/

theorem items_unwind {stack : List (Pending σ)} (h : unwind C s stack = .ok s') :
    s'.output.Perm (Pending.items stack s.output) := by
  induction stack generalizing s with
  | nil =>
    cases h
    exact .refl _
  | cons p stack ih =>
    cases p with
    | paren => exact ih (require_bind_eq_ok.mp h).2
    | func call => exact (ih (require_bind_eq_ok.mp h).2).trans (items_cons rfl _ _)
    | sign u => exact (ih h).trans (items_cons rfl _ _)
    | binary o => exact (ih h).trans (items_cons rfl _ _)

/-- The items of a postfix form are those that have been read. -/
theorem items_finish {p : Postfix σ} (h : s.finish C = .ok p) : p.items.Perm s.items := by
  obtain ⟨-, s', hunwind, rfl⟩ := finish_eq_ok_iff.mp h
  exact s'.output.reverse_perm.trans (items_unwind hunwind)

end Scan

namespace Context

variable {C : Context σ} {text : Bytes} {p : Postfix σ}

/-- The context supplies every item of a postfix form. -/
theorem supplies_of_compile (h : C.compile text = .ok p) : ∀ x ∈ p.items, C.Supplies x := by
  obtain ⟨s, hrun, hfinish⟩ := compile_eq_ok_iff.mp h
  intro x hx
  exact Scan.supplies_of_acceptAll hrun x ((Scan.items_finish hfinish).mem_iff.mp hx)

/-- The features let every item of a postfix form stand. -/
theorem enables_of_compile (h : C.compile text = .ok p) : ∀ x ∈ p.items, C.Enables x :=
  fun x hx => (supplies_of_compile h x hx).enables

/-! ### Evaluating what has been placed -/

theorem evaluate_of_compile (h : C.compile text = .ok p) : C.evaluate text = p.start.exec := by
  rw [evaluate, h]
  rfl

/-- A formula that compiles runs to its end, or to a call of one of the functions of
the context that fails. -/
theorem exists_runs_of_compile (hp : C.compile text = .ok p) (w : σ) :
    (∃ x w', Machine.Runs (p.start, w) (⟨[], [], [x]⟩, w')) ∨
      ∃ c call args w₁ e w', Machine.Runs (p.start, w) (c, w₁) ∧ c.Calls call args ∧
        (call args).run.run w₁ = (.error e, w') ∧ ∃ name, C.find? name = some (.fn call) := by
  have hsupplies := supplies_of_compile hp
  obtain ⟨t, rfl⟩ := compile_eq_postorder hp
  have hbalanced : t.postorder.start.IsBalanced := t.balanced_postorder
  rcases hbalanced.exists_runs w with hruns | ⟨c, call, args, w₁, e, w', hruns, hcalls, hfails⟩
  · exact .inl hruns
  · have hmem : .fn call ∈ t.postorder.items := hruns.reaches.suffix.subset hcalls.mem
    exact .inr ⟨c, call, args, w₁, e, w', hruns, hcalls, hfails, hsupplies _ hmem⟩

end Context

end Formula
