/-
Formula/Proofs/Constants.lean

Constants in place of variables.

Where a variable reads as the same number all the time, a constant can stand for it.
`Item.ReadsAs` says which items give the same in a world: an item and itself, and a variable
and the number that it reads as there.  What may follow a constant may follow a variable, so
two passes over the same words, one of them with constants for some variables, go the same
way (`Scan.Alike`) and fail with the same errors.

If no symbol changes the world, every variable is read in the world that the evaluation
started in, so a formula has the same outcome with the constants
(`Context.Settles.evaluate_world`).
-/
import Mathlib.Data.List.Forall2
import Formula.Proofs.Extension
import Formula.Proofs.Inert
import Formula.Proofs.SideBySide

namespace Formula

variable {σ : Type} {w : σ}

open Operator Pending

/-! ### Items that give the same -/

/-- In the world `w` the second item gives what the first one gives. -/
inductive Item.ReadsAs (w : σ) : Item σ → Item σ → Prop
  | same (x : Item σ) : ReadsAs w x x
  | const {read : StateM σ Float} {x : Float} (h : read.run w = (x, w)) :
      ReadsAs w (.var read) (.const x)

/-- Item by item, the second list gives in the world `w` what the first one gives. -/
abbrev Item.ReadAs (w : σ) : List (Item σ) → List (Item σ) → Prop := List.Forall₂ (ReadsAs w)

/-- `D` is the context `C` with constants in place of some variables, which read as these
numbers in the world `w`. -/
structure Context.Settles (w : σ) (C D : Context σ) : Prop where
  features : D.features = C.features
  find : ∀ word, D.find? word = C.find? word ∨ ∃ read x, C.find? word = some (.var read) ∧
    D.find? word = some (.const x) ∧ read.run w = (x, w)

theorem Context.Settles.allows_eq {C D : Context σ} (hD : C.Settles w D) (f : Feature) :
    D.allows f = C.allows f := by
  rw [allows, allows, hD.features]

namespace Item.ReadAs

variable {output output' : List (Item σ)}

theorem placed (h : ReadAs w output output') (run : List Operator) :
    ReadAs w (placed run output) (placed run output') := by
  induction run generalizing output output' with
  | nil => exact h
  | cons p run ih =>
    rw [placed_cons, placed_cons]
    exact ih (.cons (.same _) h)

/-- A binary operator releases the same operators. -/
theorem release (h : ReadAs w output output') (op : BinaryOp) (stack : List (Pending σ)) :
    (release op stack output').1 = (release op stack output).1 ∧
      ReadAs w (release op stack output).2 (release op stack output').2 := by
  obtain ⟨run, rest, -, -, hrelease⟩ := exists_release op stack
  rw [hrelease, hrelease]
  exact ⟨rfl, h.placed run⟩

/-- The same is drained. -/
theorem drain (h : ReadAs w output output') (stack : List (Pending σ)) :
    (drain stack output').1 = (drain stack output).1 ∧
      ReadAs w (drain stack output).2 (drain stack output').2 := by
  induction stack generalizing output output' with
  | nil => exact ⟨rfl, h⟩
  | cons p stack ih =>
    cases p with
    | paren => exact ⟨rfl, h⟩
    | func f => exact ih (.cons (.same _) h)
    | sign u => exact ih (.cons (.same _) h)
    | binary o => exact ih (.cons (.same _) h)

end Item.ReadAs

/-! ### Passes with and without the constants -/

namespace Scan

variable {C D : Context σ} {s s' : Scan σ}

/-- The passes differ only in constants that the second one has where the first one has
variables. -/
structure Alike (w : σ) (s s' : Scan σ) : Prop where
  last : s'.last = s.last ∨ s.last = .var ∧ s'.last = .const
  stack : s'.stack = s.stack
  output : Item.ReadAs w s.output s'.output
  arity : s'.arity = s.arity
  saved : s'.saved = s.saved
  arities : s'.arities = s.arities

namespace Alike

/-- No test of the last word tells constants from variables. -/
theorem test_eq {α : Type} (h : Alike w s s') (test : Kind → α) (htest : test .const = test .var) :
    test s'.last = test s.last := by
  rcases h.last with hlast | ⟨hlast, hlast'⟩
  · rw [hlast]
  · rw [hlast, hlast', htest]

theorem advance (h : Alike w s s') (kind : Kind) :
    Alike w (s.advance kind) (s'.advance kind) :=
  { h with last := .inl rfl }

theorem countOperand (h : Alike w s s') : Alike w s.countOperand s'.countOperand :=
  { h with arity := congrArg (max · 1) h.arity }

theorem emit {x x' : Item σ} (h : Alike w s s') (hx : x.ReadsAs w x') :
    Alike w (s.emit x) (s'.emit x') :=
  { h with output := .cons hx h.output }

/-- A variable is read here and a constant there. -/
theorem settle {read : StateM σ Float} {x : Float} (h : Alike w s s')
    (hread : read.run w = (x, w)) :
    Alike w ((s.emit (.var read)).advance .var) ((s'.emit (.const x)).advance .const) :=
  { h.emit (.const hread) with last := .inr ⟨rfl, rfl⟩ }

theorem push (h : Alike w s s') (p : Pending σ) : Alike w (s.push p) (s'.push p) :=
  { h with stack := congrArg (p :: ·) h.stack }

theorem withStack (h : Alike w s s') (stack : List (Pending σ)) :
    Alike w { s with stack } { s' with stack } :=
  { h with stack := rfl }

theorem pushBinary (h : Alike w s s') (op : BinaryOp) :
    Alike w (s.pushBinary op) (s'.pushBinary op) := by
  obtain ⟨hstack, houtput⟩ := h.output.release op s.stack
  rw [Scan.pushBinary, Scan.pushBinary, h.stack]
  exact { h with stack := congrArg (Pending.binary op :: ·) hstack, output := houtput }

theorem drained (h : Alike w s s') : Alike w s.drained s'.drained := by
  obtain ⟨hstack, houtput⟩ := h.output.drain s.stack
  rw [Scan.drained, Scan.drained, h.stack]
  exact { h with stack := hstack, output := houtput }

theorem finishCall (h : Alike w s s') (f : List Float → Eval σ Float) :
    Alike w (s.finishCall f) (s'.finishCall f) where
  last := h.last
  stack := h.stack
  output := .cons (.same _) h.output
  arity := congrArg (List.headD · 0) h.saved
  saved := congrArg List.tail h.saved
  arities := congrArg₂ List.cons h.arity h.arities

/-- The comma counts one more argument. -/
theorem nextArgument (h : Alike w s s') :
    Alike w { s with arity := s.arity + 1 } { s' with arity := s'.arity + 1 } :=
  { h with arity := congrArg (· + 1) h.arity }

/-- A call saves the counter of the call around it. -/
theorem save (h : Alike w s s') : Alike w
    { s with saved := s.arity :: s.saved, arity := 0 }
    { s' with saved := s'.arity :: s'.saved, arity := 0 } :=
  { h with saved := congrArg₂ List.cons h.arity h.saved, arity := rfl }

/-! ### One word -/

theorem literal (h : Alike w s s') (l : Literal) :
    Agrees (Alike w) (s.literal l) (s'.literal l) := by
  unfold Scan.literal
  rw [h.test_eq Kind.expectsOperand rfl]
  apply Agrees.require
  intro _
  exact .ok ((h.countOperand.emit (.same _)).advance _)

theorem name (hD : C.Settles w D) (h : Alike w s s') (word : Bytes) (opensCall : Bool) :
    Agrees (Alike w) (s.name C word opensCall) (s'.name D word opensCall) := by
  unfold Scan.name
  rw [h.test_eq Kind.expectsOperand rfl, h.test_eq (· == Kind.literal) rfl, hD.allows_eq]
  generalize (s.last == .literal && C.allows .implicitMultiplication) = multiplies
  apply Agrees.require
  intro _
  have halike : Alike w (if multiplies = true then s.pushBinary .mul else s).countOperand
      (if multiplies = true then s'.pushBinary .mul else s').countOperand := by
    split
    · exact (h.pushBinary .mul).countOperand
    · exact h.countOperand
  rcases hD.find word with hsame | ⟨read, x, hvar, hconst, hread⟩
  · rw [hsame]
    rcases C.find? word with - | ⟨x | read | f⟩
    · exact .error .undefinedName
    · exact .ok ((halike.emit (.same _)).advance _)
    · exact .ok ((halike.emit (.same _)).advance _)
    · apply Agrees.require
      intro _
      exact .ok ((halike.push _).advance _)
  · rw [hvar, hconst]
    exact .ok (halike.settle hread)

theorem leftParen (h : Alike w s s') : Agrees (Alike w) s.leftParen s'.leftParen := by
  have hfunc : s'.last = .func ↔ s.last = .func := (h.test_eq (· = .func) (by simp)).to_iff
  unfold Scan.leftParen
  rw [h.test_eq Kind.expectsOperand rfl]
  by_cases hlast : s.last = .func
  · rw [if_pos hlast, if_pos (hfunc.mpr hlast)]
    exact .ok ((h.save.push _).advance _)
  · rw [if_neg hlast, if_neg (mt hfunc.mp hlast)]
    apply Agrees.require
    intro _
    exact .ok ((h.countOperand.push _).advance _)

theorem close (h : Alike w s s') (empty : Bool) :
    Agrees (Alike w) (s.close empty) (s'.close empty) := by
  by_cases hfunc : ∃ f S, s.stack.tail = .func f :: S
  · obtain ⟨f, S, hstack⟩ := hfunc
    rw [close_call empty hstack, close_call empty (h.stack ▸ hstack)]
    exact .ok (((h.withStack S).finishCall f).advance _)
  · have hfree : ∀ f S, s.stack.tail ≠ .func f :: S := fun f S hstack => hfunc ⟨f, S, hstack⟩
    rw [close_group empty hfree, close_group empty (h.stack ▸ hfree), h.stack]
    apply Agrees.require
    intro _
    exact .ok ((h.withStack _).advance _)

theorem rightParen (hD : C.Settles w D) (h : Alike w s s') :
    Agrees (Alike w) (s.rightParen C) (s'.rightParen D) := by
  have hopen : s'.last = .leftParen ↔ s.last = .leftParen :=
    (h.test_eq (· = .leftParen) (by simp)).to_iff
  unfold Scan.rightParen
  rw [h.test_eq Kind.expectsOperand rfl, hD.allows_eq]
  by_cases hlast : s.last = .leftParen
  · rw [if_pos hlast, if_pos (hopen.mpr hlast)]
    exact h.close true
  · rw [if_neg hlast, if_neg (mt hopen.mp hlast)]
    apply Agrees.require
    intro _
    dsimp only
    rw [h.drained.stack]
    split
    · apply Agrees.require
      intro _
      exact .ok (h.drained.advance _)
    · exact h.drained.close false

theorem comma (hD : C.Settles w D) (h : Alike w s s') :
    Agrees (Alike w) (s.comma C) (s'.comma D) := by
  have hempty : s'.drained.stack.isEmpty = s.drained.stack.isEmpty := by rw [h.drained.stack]
  unfold Scan.comma
  rw [h.test_eq Kind.endsOperand rfl, h.saved, hD.allows_eq]
  apply Agrees.require
  intro _
  dsimp only
  rw [hempty]
  apply Agrees.require
  intro _
  exact .ok (h.drained.nextArgument.advance _)

theorem operator (hD : C.Settles w D) (h : Alike w s s') (byte : UInt8) :
    Agrees (Alike w) (s.operator C byte) (s'.operator D byte) := by
  have hbin : binary? D s'.last byte = binary? C s.last byte := by
    simp only [binary?, h.test_eq Kind.endsOperand rfl, hD.allows_eq]
  have hsign : sign? D s'.last byte = sign? C s.last byte := by
    simp only [sign?, h.test_eq Kind.allowsSign rfl, hD.allows_eq]
  unfold Scan.operator
  rw [hbin, hsign]
  rcases binary? C s.last byte with - | op
  · rcases sign? C s.last byte with - | u
    · exact .error .malformed
    · exact .ok ((h.push _).advance _)
  · exact .ok ((h.pushBinary op).advance _)

/-- The passes read a word in the same way. -/
theorem accept (hD : C.Settles w D) (h : Alike w s s') (word : Lexeme) :
    Agrees (Alike w) (accept C s word) (accept D s' word) := by
  cases word with
  | literal l => exact h.literal l
  | badLiteral => exact .error .malformed
  | name word opensCall => exact h.name hD word opensCall
  | leftParen => exact h.leftParen
  | rightParen => exact h.rightParen hD
  | comma => exact h.comma hD
  | other byte => exact h.operator hD byte

/-! ### Whole texts -/

theorem acceptAll (hD : C.Settles w D) (h : Alike w s s') (ws : List Lexeme) :
    Agrees (Alike w) (acceptAll C s ws) (acceptAll D s' ws) := by
  induction ws generalizing s s' with
  | nil => exact .ok h
  | cons word ws ih =>
    rw [acceptAll_cons, acceptAll_cons]
    exact (h.accept hD word).bind fun _ _ _ halike => ih halike

theorem unwind (hD : C.Settles w D) (h : Alike w s s') (stack : List (Pending σ)) :
    Agrees (Alike w) (unwind C s stack) (unwind D s' stack) := by
  induction stack generalizing s s' with
  | nil => exact .ok (h.withStack [])
  | cons p stack ih =>
    cases p with
    | paren =>
      rw [Scan.unwind, Scan.unwind, hD.allows_eq]
      apply Agrees.require
      exact fun _ => ih h
    | func f =>
      rw [Scan.unwind, Scan.unwind, h.arity]
      apply Agrees.require
      exact fun _ => ih (h.finishCall f)
    | sign u => exact ih (h.emit (.same _))
    | binary o => exact ih (h.emit (.same _))

end Alike

end Scan

namespace Context

variable {C D : Context σ}

/-- A text compiles with the constants as without them, item by item. -/
theorem Settles.compile (hD : C.Settles w D) (text : Bytes) :
    Agrees (fun p p' => Item.ReadAs w p.items p'.items ∧ p'.arities = p.arities)
      (C.compile text) (D.compile text) := by
  have hstart : Scan.Alike w {} {} := ⟨.inl rfl, rfl, .nil, rfl, rfl, rfl⟩
  unfold Context.compile
  rw [lex_of_features hD.features]
  refine (hstart.acceptAll hD _).bind fun s s' _ h => ?_
  unfold Scan.finish
  rw [h.test_eq Kind.expectsOperand rfl, h.stack]
  apply Agrees.require
  intro _
  refine (h.unwind hD _).bind fun s s' _ h => .ok ⟨?_, ?_⟩
  · exact List.rel_reverse h.output
  · exact congrArg List.reverse h.arities

end Context

/-! ### Evaluating with the constants -/

/-- Behind a step that leaves the world alone, only what happens in that world matters. -/
theorem Eval.run_bind_congr {α β : Type} {m : Eval σ α} {k k' : α → Eval σ β}
    (hm : (m.run.run w).2 = w) (hk : ∀ a, (k' a).run.run w = (k a).run.run w) :
    (m >>= k').run.run w = (m >>= k).run.run w := by
  rcases hrun : m.run.run w with ⟨e | a, w'⟩
  · rw [run_bind_error hrun, run_bind_error hrun]
  · rw [hrun] at hm
    obtain rfl : w' = w := hm
    rw [run_bind_ok hrun, run_bind_ok hrun, hk a]

namespace Postfix

variable {C : Context σ}

theorem exec_var (read : StateM σ Float) (items : List (Item σ)) (ns : List Nat)
    (stack : List Float) : exec (.var read :: items) ns stack
      = (liftM read : Eval σ Float) >>= fun x => exec items ns (x :: stack) := rfl

/-- Where no symbol changes the world, items that give the same there have the same
outcome. -/
theorem run_exec (hC : C.Inert) {items items' : List (Item σ)} (h : Item.ReadAs w items items')
    (hitems : ∀ x ∈ items, C.Supplies x) (ns : List Nat) (stack : List Float) :
    (exec items' ns stack).run.run w = (exec items ns stack).run.run w := by
  induction h generalizing ns stack with
  | nil => rfl
  | @cons x x' items items' hx _ ih =>
    obtain ⟨hsupplies, hrest⟩ := List.forall_mem_cons.mp hitems
    cases hx with
    | @const read x hread =>
      -- reading the variable gives the constant and leaves the world as it is
      have hlift : (liftM read : Eval σ Float).run.run w = (.ok x, w) := by
        rw [Eval.run_lift, hread]
      rw [exec_var, Eval.run_bind_ok hlift]
      exact ih hrest ns (x :: stack)
    | same x =>
      cases x with
      | const x => exact ih hrest ns (x :: stack)
      | var read =>
        obtain ⟨word, hfind⟩ := hsupplies
        rw [exec_var, exec_var]
        exact Eval.run_bind_congr (hC word _ hfind w) fun x => ih hrest ns (x :: stack)
      | unary op =>
        rcases stack with - | ⟨x, stack⟩
        · rfl
        · exact ih hrest ns (op.apply x :: stack)
      | binary op =>
        rcases stack with - | ⟨y, - | ⟨x, stack⟩⟩
        · rfl
        · rfl
        · exact ih hrest ns (op.apply x y :: stack)
      | fn call =>
        -- whatever the function gives, it leaves the world to the items behind it
        obtain ⟨word, hfind⟩ := hsupplies
        rcases ns with - | ⟨n, ns⟩
        · rfl
        · simp only [exec]
          split
          · exact Eval.run_bind_congr (hC word _ hfind _ w) fun x => ih hrest ns _
          · rfl

end Postfix

namespace Context

variable {C D : Context σ}

/-- **Constants can stand for variables that do not change.**  Where no symbol of a context
changes the world, a formula has the outcome that it has with constants for the variables,
and it leaves the world as it was. -/
theorem Settles.evaluate_world (hD : C.Settles w D) (hC : C.Inert) (text : Bytes) :
    (C.evaluate text).run.run w = (((D.evaluate text).run.run w).1, w) := by
  have hworld := hC.evaluate_world text w
  have houtcome : (D.evaluate text).run.run w = (C.evaluate text).run.run w := by
    have hagrees := hD.compile text
    unfold evaluate
    generalize hp : C.compile text = r at hagrees ⊢
    generalize D.compile text = r' at hagrees ⊢
    cases hagrees with
    | error e => rfl
    | @ok p p' h =>
      obtain ⟨hitems, harities⟩ := h
      have hrun := Postfix.run_exec hC hitems (supplies_of_compile hp) p.arities []
      show p'.run.run.run w = p.run.run.run w
      rw [Postfix.run, Postfix.run, harities]
      exact hrun
  rw [houtcome]
  exact Prod.ext rfl hworld

end Context

end Formula
