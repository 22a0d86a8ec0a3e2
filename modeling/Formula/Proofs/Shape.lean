/-
Formula/Proofs/Shape.lean

The shape of the stack.

The functions on the stack of a pass are those of the open calls, and the stack, the
counters and the output tell of them in the same way (`Scan.Shaped`).  A function waits
directly below its parenthesis; only right after it has been read it is on top, and then
its parenthesis comes next.  For every function that waits a counter is saved, except for
the one that has just been read, and for every function on the output a number of
arguments is recorded.

Hence a pass finds what it takes from the stack and the counters (`Scan.Provided`).  What
is drained are operators and never a function; a comma finds the parenthesis of a call or
of a group in it; a call that is finished finds the counter of the call around it, at a
right parenthesis and at the end of the text; and a call that is still open there has an
argument.
-/
import Formula.Proofs.Arities
import Formula.Proofs.ImplicitParentheses
import Formula.Proofs.Position

namespace Formula

variable {σ : Type}

open Operator

/-! ### Functions on the stack -/

namespace Pending

/-- The function that waits, if it is one. -/
def function? : Pending σ → Option (List Float → Eval σ Float)
  | .func f => some f
  | _ => none

/-- The functions that wait, the latest first. -/
def functions (stack : List (Pending σ)) : List (List Float → Eval σ Float) :=
  stack.filterMap function?

/-- Every function has a parenthesis directly above it. -/
def Covered (stack : List (Pending σ)) : Prop :=
  ∀ inner f outer, stack = inner ++ .func f :: outer → ∃ inner', inner = inner' ++ [.paren]

variable {stack : List (Pending σ)} {p : Pending σ}

theorem mem_functions {f : List Float → Eval σ Float} (h : .func f ∈ stack) :
    f ∈ functions stack :=
  List.mem_filterMap.mpr ⟨_, h, rfl⟩

/-- A function further down is a function of the stack below the top. -/
theorem exists_of_cons_eq {inner outer : List (Pending σ)} {f : List Float → Eval σ Float}
    (h : p :: stack = inner ++ .func f :: outer) (hp : ∀ f, p ≠ .func f) :
    ∃ inner', inner = p :: inner' ∧ stack = inner' ++ .func f :: outer := by
  rcases inner with - | ⟨q, inner⟩
  · exact absurd (List.cons.inj h).1 (hp f)
  · obtain ⟨rfl, hstack⟩ := List.cons.inj h
    exact ⟨inner, rfl, hstack⟩

theorem Covered.cons (h : Covered stack) (hp : ∀ f, p ≠ .func f) : Covered (p :: stack) := by
  intro inner f outer heq
  obtain ⟨inner, rfl, hstack⟩ := exists_of_cons_eq heq hp
  obtain ⟨inner', rfl⟩ := h inner f outer hstack
  exact ⟨p :: inner', rfl⟩

/-- Above a function with its parenthesis. -/
theorem Covered.call (h : Covered stack) (f : List Float → Eval σ Float) :
    Covered (.paren :: .func f :: stack) := by
  intro inner g outer heq
  obtain ⟨inner, rfl, hfunc⟩ := exists_of_cons_eq heq nofun
  rcases inner with - | ⟨p, inner⟩
  · exact ⟨[], rfl⟩
  · obtain ⟨inner', rfl⟩ := h inner g outer (List.cons.inj hfunc).2
    exact ⟨.paren :: p :: inner', rfl⟩

end Pending

open Pending

namespace Scan

/-! ### The end of the text -/

/-- What is on the stack beside the one that is unwound does not matter. -/
theorem unwind_withStack (C : Context σ) (s : Scan σ) (stack outer : List (Pending σ)) :
    unwind C { s with stack } outer = unwind C s outer := by
  induction outer generalizing s with
  | nil => rfl
  | cons p outer ih =>
    cases p with
    | paren =>
      rw [unwind, unwind]
      exact bind_congr fun _ => ih s
    | func f =>
      rw [unwind, unwind]
      exact bind_congr fun _ => ih (s.finishCall f)
    | sign u => exact ih (s.emit (.unary u))
    | binary o => exact ih (s.emit (.binary o))

/-- The end of the text goes through the stack from the top. -/
theorem unwind_append (C : Context σ) (s : Scan σ) (inner outer : List (Pending σ)) :
    unwind C s (inner ++ outer) = unwind C s inner >>= fun s' => unwind C s' outer := by
  induction inner generalizing s with
  | nil => exact (unwind_withStack C s [] outer).symm
  | cons p inner ih =>
    cases p with
    | paren =>
      rw [List.cons_append, unwind, unwind, bind_assoc]
      exact bind_congr fun _ => ih s
    | func f =>
      rw [List.cons_append, unwind, unwind, bind_assoc]
      exact bind_congr fun _ => ih (s.finishCall f)
    | sign u => exact ih (s.emit (.unary u))
    | binary o => exact ih (s.emit (.binary o))

end Scan

/-! ### Functions and counters -/

namespace Awaits

variable {stack : List (Pending σ)} {a : Nat} {A : List Nat} {n : Nat}

theorem covered (h : Awaits stack a A n) : Covered stack := by
  induction h with
  | bottom => exact fun inner f outer heq => absurd heq (by simp)
  | sign _ ih => exact ih.cons nofun
  | binary _ ih => exact ih.cons nofun
  | group _ ih => exact ih.cons nofun
  | call _ _ ih => exact ih.call _

theorem length_functions (h : Awaits stack a A n) : A.length = (functions stack).length := by
  induction h with
  | bottom => rfl
  | sign _ ih => exact ih
  | binary _ ih => exact ih
  | group _ ih => exact ih
  | call _ _ ih => exact congrArg (· + 1) ih

/-- Where the end of the text comes to a function, the live counter is that of its call,
which has been begun, and the counter of the call around it has been saved. -/
theorem counters_of_unwind {C : Context σ} {s s' : Scan σ} {f : List Float → Eval σ Float}
    {inner outer : List (Pending σ)} (h : Awaits stack a A n) (harity : s.arity = a)
    (hsaved : s.saved = A) (hstack : stack = inner ++ .func f :: outer)
    (hrun : Scan.unwind C s inner = .ok s') : s'.arity ≠ 0 ∧ s'.saved ≠ [] := by
  induction h generalizing inner s with
  | bottom => exact absurd hstack (by simp)
  | @sign u stack a A n _ ih =>
    obtain ⟨inner, rfl, hbelow⟩ := exists_of_cons_eq hstack nofun
    exact ih (s := s.emit (.unary u)) harity hsaved hbelow hrun
  | @binary o stack a A n _ ih =>
    obtain ⟨inner, rfl, hbelow⟩ := exists_of_cons_eq hstack nofun
    exact ih (s := s.emit (.binary o)) harity hsaved hbelow hrun
  | group _ ih =>
    obtain ⟨inner, rfl, hbelow⟩ := exists_of_cons_eq hstack nofun
    exact ih harity hsaved hbelow (Scan.require_bind_eq_ok.mp hrun).2
  | @call g stack a A n begun _ ih =>
    obtain ⟨inner, rfl, hfunc⟩ := exists_of_cons_eq hstack nofun
    obtain ⟨-, hrun⟩ := Scan.require_bind_eq_ok.mp hrun
    rcases inner with - | ⟨p, inner⟩
    · -- nothing but its parenthesis is above the function
      cases hrun
      exact ⟨harity ▸ Nat.succ_ne_zero begun, hsaved ▸ List.cons_ne_nil a A⟩
    · obtain ⟨rfl, hbelow⟩ := List.cons.inj hfunc
      obtain ⟨-, hrun⟩ := Scan.require_bind_eq_ok.mp hrun
      obtain ⟨harity', hsaved'⟩ := Scan.counters_finishCall hsaved g
      exact ih harity' hsaved' hbelow hrun

end Awaits

namespace Scan

variable {C : Context σ} {s s' : Scan σ} {ws : List Lexeme}

/-! ### States that fit -/

/-- The stack, the counters and the output of a pass tell of the same calls, in front of
`rest`.
* Directly above a function is its parenthesis, unless the function has just been read;
  then it is on top, and its parenthesis comes next.
* A counter is saved for every function that waits, except one that has just been read,
  and a number of arguments is recorded for every function on the output.
* Right behind a left parenthesis it is on top.
* After an operand it has been counted, inside calls and outside of them. -/
structure Shaped (s : Scan σ) (rest : Bytes) : Prop where
  covered : ∀ inner f outer, s.stack = inner ++ .func f :: outer →
    (∃ inner', inner = inner' ++ [.paren]) ∨ inner = [] ∧ s.last = .func
  callee : s.last = .func →
    (∃ f outer, s.stack = .func f :: outer) ∧ ∃ after, rest = Byte.leftParen :: after
  saved : s.saved.length + (if s.last = .func then 1 else 0) = (functions s.stack).length
  arities : s.arities.length = (Item.functions s.output).length
  opened : s.last = .leftParen → ∃ outer, s.stack = .paren :: outer
  counted : s.last.expectsOperand = false → s.last ≠ .func → 1 ≤ s.arity

/-- What a pass takes from its stack and its counters, in front of `rest`, is there.
* A right parenthesis or a comma drains operators and never a function.
* A comma after an argument finds an open parenthesis.
* A right parenthesis that finishes a call, without arguments or with some, finds the
  counter of the call around it.
* At the end of the text, where everything above a function has been placed, its call has
  an argument and the counter of the call around it is saved, so that the call is
  finished. -/
structure Provided (C : Context σ) (s : Scan σ) (rest : Bytes) : Prop where
  drained : rest.head? ≠ some Byte.leftParen →
    ∃ run, s.stack = above run s.drained.stack ∧ s.drained.output = placed run s.output
  comma : s.last.endsOperand = true → s.saved ≠ [] → ∃ outer, s.drained.stack = .paren :: outer
  close : ∀ f outer, s.stack.tail = .func f :: outer ∨ s.drained.stack.tail = .func f :: outer →
    s.saved ≠ []
  finish : rest = [] → s.last.expectsOperand = false → ∀ inner f outer s',
    s.stack = inner ++ .func f :: outer → unwind C s inner = .ok s' →
      s'.arity ≠ 0 ∧ s'.saved ≠ [] ∧ unwind C s s.stack = unwind C (s'.finishCall f) outer

/-- Unless a function has just been read, one more operand lets everything on the stack be
placed; otherwise this holds of the stack below the function. -/
theorem Coherent.awaits_or_func (h : s.Coherent) :
    (s.last ≠ .func ∧ ∃ n, Awaits s.stack (max s.arity 1) s.saved n) ∨
      s.last = .func ∧ ∃ f outer n, s.stack = .func f :: outer ∧
        Awaits outer s.arity s.saved n := by
  obtain ⟨ts, -, hfits⟩ := h
  by_cases hlast : s.last = .func
  · obtain ⟨f, outer, hstack, hawaits⟩ := hfits.func hlast
    exact .inr ⟨hlast, f, outer, _, hstack, hawaits⟩
  · refine .inl ⟨hlast, ?_⟩
    by_cases hexp : s.last.expectsOperand = true
    · exact ⟨_, hfits.expects hexp⟩
    · have hends := Kind.endsOperand_of_ne_func (Bool.eq_false_iff.mpr hexp) hlast
      obtain ⟨m, -, hawaits⟩ := hfits.ends hends
      rw [hawaits.max_arity]
      exact ⟨m, hawaits⟩

theorem Coherent.covered (h : s.Coherent) {inner outer : List (Pending σ)}
    {f : List Float → Eval σ Float} (hstack : s.stack = inner ++ .func f :: outer) :
    (∃ inner', inner = inner' ++ [.paren]) ∨ inner = [] ∧ s.last = .func := by
  rcases h.awaits_or_func with ⟨-, n, hawaits⟩ | ⟨hlast, g, below, n, hbelow, hawaits⟩
  · exact .inl (hawaits.covered inner f outer hstack)
  · rw [hbelow] at hstack
    rcases inner with - | ⟨p, inner⟩
    · exact .inr ⟨rfl, hlast⟩
    · obtain ⟨inner', rfl⟩ := hawaits.covered inner f outer (List.cons.inj hstack).2
      exact .inl ⟨p :: inner', rfl⟩

theorem Coherent.length_saved (h : s.Coherent) :
    s.saved.length + (if s.last = .func then 1 else 0) = (functions s.stack).length := by
  rcases h.awaits_or_func with ⟨hlast, n, hawaits⟩ | ⟨hlast, f, outer, n, hstack, hawaits⟩
  · rw [if_neg hlast, hawaits.length_functions]
    rfl
  · rw [if_pos hlast, hstack, hawaits.length_functions]
    rfl

/-- Where a function waits below the top a counter is saved. -/
theorem Coherent.saved_ne_nil (h : s.Coherent) {f : List Float → Eval σ Float}
    (hf : .func f ∈ s.stack.tail) : s.saved ≠ [] := by
  rcases h.awaits_or_func with ⟨-, n, hawaits⟩ | ⟨-, g, outer, n, hstack, hawaits⟩
  · rw [← List.length_pos_iff, hawaits.length_functions]
    exact List.length_pos_of_mem (mem_functions (List.mem_of_mem_tail hf))
  · rw [hstack] at hf
    rw [← List.length_pos_iff, hawaits.length_functions]
    exact List.length_pos_of_mem (mem_functions hf)

/-- So it is where a call can be closed, before the stack is drained or after. -/
theorem Coherent.saved_of_tail (h : s.Coherent) {f : List Float → Eval σ Float}
    {outer : List (Pending σ)}
    (htail : s.stack.tail = .func f :: outer ∨ s.drained.stack.tail = .func f :: outer) :
    s.saved ≠ [] := by
  have hsublist : s.drained.stack.tail.Sublist s.stack.tail :=
    (drain_suffix s.stack s.output).sublist.tail
  refine h.saved_ne_nil (f := f) ?_
  rcases htail with htail | htail
  · rw [htail]
    exact List.mem_cons_self
  · refine hsublist.subset ?_
    rw [htail]
    exact List.mem_cons_self

/-- Where no function has just been read only operators are drained. -/
theorem Coherent.exists_drained (h : s.Coherent) (hlast : s.last ≠ .func) :
    ∃ run, s.stack = above run s.drained.stack ∧ s.drained.output = placed run s.output := by
  rcases h.awaits_or_func with ⟨-, n, hawaits⟩ | ⟨hfunc, -⟩
  · obtain ⟨run, rest, m, hstack, hrest, -, -⟩ := hawaits.exists_run
    rw [drained_above hstack hrest]
    exact ⟨run, hstack, rfl⟩
  · exact absurd hfunc hlast

/-- Inside a call, draining stops at a parenthesis. -/
theorem Coherent.exists_paren (h : s.Coherent) (hends : s.last.endsOperand = true)
    (hsaved : s.saved ≠ []) : ∃ outer, s.drained.stack = .paren :: outer := by
  obtain ⟨ts, -, m, -, hawaits, hnil | hparen⟩ := h.drained hends
  · exact absurd hnil (hawaits.ne_nil_of_saved hsaved)
  · exact hparen

/-- The end of the text finishes every call that it comes to. -/
theorem Coherent.unwind_eq (h : s.Coherent) (hends : s.last.endsOperand = true)
    {f : List Float → Eval σ Float} {inner outer : List (Pending σ)}
    (hstack : s.stack = inner ++ .func f :: outer) (hrun : unwind C s inner = .ok s') :
    s'.arity ≠ 0 ∧ s'.saved ≠ [] ∧ unwind C s s.stack = unwind C (s'.finishCall f) outer := by
  obtain ⟨ts, -, hfits⟩ := h
  obtain ⟨m, -, hawaits⟩ := hfits.ends hends
  obtain ⟨harity, hsaved⟩ := hawaits.counters_of_unwind rfl rfl hstack hrun
  refine ⟨harity, hsaved, ?_⟩
  rw [hstack, unwind_append, hrun]
  exact unwind_func harity f outer

/-- As many numbers of arguments are recorded as functions have been placed. -/
theorem Reached.length_arities (h : Reached C ws s) :
    s.arities.length = (Item.functions s.output).length := by
  obtain ⟨closed, opened, -, hcounts⟩ := h.exists_counts
  rw [hcounts.arities, hcounts.placed, List.length_map, List.length_map]

end Scan

/-! ### Wherever a pass arrives -/

namespace Context

variable {C : Context σ} {s : Scan σ} {text rest : Bytes}

theorem Arrives.shaped (h : C.Arrives text rest s) : s.Shaped rest := by
  obtain ⟨ws, hreached⟩ := h.exists_reached
  have hs := hreached.coherent
  obtain ⟨ts, -, hfits⟩ := id hs
  constructor
  case covered => exact fun inner f outer => hs.covered
  case callee =>
    intro hlast
    obtain ⟨f, outer, hstack, -⟩ := hfits.func hlast
    obtain ⟨_, _, _, _, _, -, -, -, hparen⟩ := h.exists_of_func hlast
    exact ⟨⟨f, outer, hstack⟩, hparen⟩
  case saved => exact hs.length_saved
  case arities => exact hreached.length_arities
  case opened =>
    intro hlast
    obtain ⟨outer, hstack, -⟩ := hfits.opened hlast
    exact ⟨outer, hstack⟩
  case counted =>
    exact fun hexp hlast => hs.arity_pos (Kind.endsOperand_of_ne_func hexp hlast)

/-- A function has just been read only in front of its parenthesis. -/
theorem Arrives.ne_func (h : C.Arrives text rest s) (hhead : rest.head? ≠ some Byte.leftParen) :
    s.last ≠ .func := by
  intro hlast
  obtain ⟨-, after, rfl⟩ := h.shaped.callee hlast
  exact hhead rfl

theorem Arrives.provided (h : C.Arrives text rest s) : s.Provided C rest := by
  obtain ⟨ws, hreached⟩ := h.exists_reached
  have hs := hreached.coherent
  constructor
  case drained => exact fun hhead => hs.exists_drained (h.ne_func hhead)
  case comma => exact hs.exists_paren
  case close => exact fun f outer => hs.saved_of_tail
  case finish =>
    rintro rfl hexp inner f outer s' hstack hrun
    exact hs.unwind_eq (Kind.endsOperand_of_ne_func hexp (h.ne_func nofun)) hstack hrun

/-- **The stack, the counters and the output keep step.**  Wherever a pass arrives they
tell of the same calls, and what the pass takes from them is there: it never drains a
function, a comma finds an open parenthesis, a call that is finished finds the counter of
the call around it, and one that is open at the end of the text has an argument. -/
theorem Arrives.shaped_and_provided (h : C.Arrives text rest s) :
    s.Shaped rest ∧ s.Provided C rest :=
  ⟨h.shaped, h.provided⟩

/-- Behind `f(x)-f(x,(f(x` one call has been closed and two are open, one of them in a group
in the other. -/
theorem sample_shaped_and_provided : ∃ s f g,
    (sample .full).Arrives (Bytes.ofString "f(x)-f(x,(f(x") [] s ∧
    s.stack = [.paren, .func f, .paren, .paren, .func g, .binary .sub] ∧
    s.saved = [2, 1] ∧ s.arities = [1] ∧ s.Shaped [] ∧ s.Provided (sample .full) [] := by
  have hlex : (sample .full).lex (Bytes.ofString "f(x)-f(x,(f(x")
      = [.name [102] true, .leftParen, .name [120] false, .rightParen, .other Byte.minus,
        .name [102] true, .leftParen, .name [120] false, .comma, .leftParen, .name [102] true,
        .leftParen, .name [120] false] := by
    decide +kernel
  obtain ⟨s, f, g, hrun, hstack, hsaved, harities⟩ : ∃ s f g,
      Scan.acceptAll (sample .full) {} ((sample .full).lex (Bytes.ofString "f(x)-f(x,(f(x"))
        = .ok s ∧ s.stack = [.paren, .func f, .paren, .paren, .func g, .binary .sub] ∧
        s.saved = [2, 1] ∧ s.arities = [1] := by
    rw [hlex]
    exact ⟨_, _, _, rfl, rfl, rfl, rfl⟩
  have harrives : (sample .full).Arrives (Bytes.ofString "f(x)-f(x,(f(x") [] s :=
    Arrives.end_iff.mpr hrun
  obtain ⟨hshaped, hprovided⟩ := harrives.shaped_and_provided
  exact ⟨s, f, g, harrives, hstack, hsaved, harities, hshaped, hprovided⟩

end Context

end Formula
