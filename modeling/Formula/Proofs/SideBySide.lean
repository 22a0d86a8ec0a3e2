/-
Formula/Proofs/SideBySide.lean

Two passes side by side: over a text with implicit parentheses, and over the
completed text without them.

The second pass begins with the added left parentheses at the bottom of its
stack; otherwise the two stacks are the same, and so is all that has been
placed (`Beside`).  A right parenthesis that nothing matches empties the stack of
the first pass and takes one of the added parentheses off the stack of the
second.  Every other word is read in the same way, so the passes stop at the
same word with the same error or reach the end of the text together
(`simulates_acceptAll`).
-/
import Formula.Proofs.Coherence
import Formula.Proofs.Completion

namespace Formula

variable {σ : Type}

open Operator Pending

/-! ### Passes side by side -/

/-- Two computations fail with the same error or give related results. -/
inductive Agrees {α β : Type} (R : α → β → Prop) : Except Error α → Except Error β → Prop
  | ok {a : α} {b : β} (h : R a b) : Agrees R (.ok a) (.ok b)
  | error (e : Error) : Agrees R (.error e) (.error e)

namespace Agrees

variable {α β : Type} {R : α → β → Prop}

theorem bind {α' β' : Type} {S : α' → β' → Prop} {x : Except Error α} {y : Except Error β}
    {k : α → Except Error α'} {k' : β → Except Error β'} (h : Agrees R x y)
    (hk : ∀ a b, x = .ok a → R a b → Agrees S (k a) (k' b)) : Agrees S (x >>= k) (y >>= k') := by
  cases h with
  | ok h => exact hk _ _ rfl h
  | error e => exact .error e

/-- The same requirement on both sides. -/
theorem require {ok : Bool} {k : Unit → Except Error α} {k' : Unit → Except Error β}
    (h : ok = true → Agrees R (k ()) (k' ())) :
    Agrees R (Scan.require ok >>= k) (Scan.require ok >>= k') := by
  cases ok with
  | false => exact .error .malformed
  | true => exact h rfl

end Agrees

/-- Counters that may differ in the outermost one, which counts no call. -/
def SameCalls (counters counters' : List Nat) : Prop :=
  ∃ calls n n', counters = calls ++ [n] ∧ counters' = calls ++ [n']

namespace SameCalls

variable {a a' : Nat} {A A' : List Nat}

/-- Either there is no call, or the counters of the innermost one are the same. -/
theorem cases (h : SameCalls (a :: A) (a' :: A')) :
    (A = [] ∧ A' = []) ∨ a' = a ∧ SameCalls A A' := by
  obtain ⟨calls, n, n', hA, hA'⟩ := h
  rcases calls with - | ⟨b, calls⟩
  · exact .inl ⟨(List.cons.inj hA).2, (List.cons.inj hA').2⟩
  · obtain ⟨rfl, rfl⟩ := List.cons.inj hA
    obtain ⟨rfl, rfl⟩ := List.cons.inj hA'
    exact .inr ⟨rfl, calls, n, n', rfl, rfl⟩

theorem outermost (n n' : Nat) : SameCalls [n] [n'] := ⟨[], n, n', rfl, rfl⟩

theorem cons (h : SameCalls A A') (a : Nat) : SameCalls (a :: A) (a :: A') := by
  obtain ⟨calls, n, n', rfl, rfl⟩ := h
  exact ⟨a :: calls, n, n', rfl, rfl⟩

theorem refl (a : Nat) (A : List Nat) : SameCalls (a :: A) (a :: A) := by
  induction A generalizing a with
  | nil => exact outermost a a
  | cons b A ih => exact (ih b).cons a

/-- The innermost counter changes in the same way on both sides. -/
theorem map (h : SameCalls (a :: A) (a' :: A')) (f : Nat → Nat) :
    SameCalls (f a :: A) (f a' :: A') := by
  rcases h.cases with ⟨rfl, rfl⟩ | ⟨rfl, htail⟩
  · exact outermost _ _
  · exact htail.cons _

theorem isEmpty_eq (h : SameCalls (a :: A) (a' :: A')) : A'.isEmpty = A.isEmpty := by
  rcases h.cases with ⟨rfl, rfl⟩ | ⟨rfl, calls, n, n', rfl, rfl⟩
  · rfl
  · cases calls <;> rfl

/-- Inside a call both counters are the same. -/
theorem inCall (h : SameCalls (a :: A) (a' :: A')) (hA : A ≠ []) : a' = a ∧ SameCalls A A' :=
  h.cases.resolve_left fun hnil => hA hnil.1

/-- The counters of the call around. -/
theorem tail (h : SameCalls A A') : SameCalls (A.headD 0 :: A.tail) (A'.headD 0 :: A'.tail) := by
  obtain ⟨calls, n, n', rfl, rfl⟩ := h
  rcases calls with - | ⟨b, calls⟩
  · exact outermost n n'
  · exact ⟨b :: calls, n, n', rfl, rfl⟩

end SameCalls

namespace Scan

variable {C : Context σ} {k : Nat} {i : Imbalance} {s s' : Scan σ}

/-- What the passes over a text and over its completion have placed and what
waits in them, after parentheses of the text with the imbalance `i`.  The
second pass began with `k` parentheses more, and as many of them as are not used
up lie at the bottom of its stack. -/
structure Beside (k : Nat) (i : Imbalance) (s s' : Scan σ) : Prop where
  stack : s'.stack = s.stack ++ List.replicate (k - i.unopened) .paren
  output : s'.output = s.output
  arities : s'.arities = s.arities
  counters : SameCalls (s.arity :: s.saved) (s'.arity :: s'.saved)
  depth : (opens s.stack).length = i.unclosed

/-- The passes stand at the same word: its kind is the same in both, except
that the second one begins behind its added parentheses. -/
structure Simulates (k : Nat) (i : Imbalance) (s s' : Scan σ) : Prop extends Beside k i s s' where
  last : s'.last = s.last ∨ s.last = .start ∧ s'.last = .leftParen ∧ s.stack = []

/-! ### Steps that are the same on both sides -/

namespace Beside

theorem advance (h : Beside k i s s') (kind : Kind) :
    Simulates k i (s.advance kind) (s'.advance kind) where
  stack := h.stack
  output := h.output
  arities := h.arities
  counters := h.counters
  depth := h.depth
  last := .inl rfl

theorem countOperand (h : Beside k i s s') : Beside k i s.countOperand s'.countOperand where
  stack := h.stack
  output := h.output
  arities := h.arities
  counters := h.counters.map fun n => max n 1
  depth := h.depth

theorem emit (h : Beside k i s s') (item : Item σ) : Beside k i (s.emit item) (s'.emit item) where
  stack := h.stack
  output := congrArg (item :: ·) h.output
  arities := h.arities
  counters := h.counters
  depth := h.depth

/-- Anything but a parenthesis may wait. -/
theorem push (h : Beside k i s s') {p : Pending σ}
    (hp : opens (p :: s.stack) = opens s.stack) : Beside k i (s.push p) (s'.push p) where
  stack := congrArg (p :: ·) h.stack
  output := h.output
  arities := h.arities
  counters := h.counters
  depth := by
    show (opens (p :: s.stack)).length = _
    rw [hp]
    exact h.depth

theorem pushParen (h : Beside k i s s') :
    Beside k (i.add .left) (s.push .paren) (s'.push .paren) where
  stack := congrArg (Pending.paren :: ·) h.stack
  output := h.output
  arities := h.arities
  counters := h.counters
  depth := by
    show (opens (.paren :: s.stack)).length = i.unclosed + 1
    rw [length_opens_paren, h.depth]

theorem pushBinary (h : Beside k i s s') (op : BinaryOp) :
    Beside k i (s.pushBinary op) (s'.pushBinary op) where
  stack := by
    show .binary op :: (release op s'.stack s'.output).1 = _
    rw [h.stack, h.output, release_append]
    rfl
  output := by
    show (release op s'.stack s'.output).2 = _
    rw [h.stack, h.output, release_append]
    rfl
  arities := h.arities
  counters := h.counters
  depth := by
    rw [opens_pushBinary]
    exact h.depth

theorem drained (h : Beside k i s s') : Beside k i s.drained s'.drained where
  stack := by
    show (drain s'.stack s'.output).1 = _
    rw [h.stack, h.output, drain_append]
    rfl
  output := by
    show (drain s'.stack s'.output).2 = _
    rw [h.stack, h.output, drain_append]
    rfl
  arities := h.arities
  counters := h.counters
  depth := by
    rw [opens_drained]
    exact h.depth

/-- The comma counts one more argument. -/
theorem nextArgument (h : Beside k i s s') :
    Beside k i { s with arity := s.arity + 1 } { s' with arity := s'.arity + 1 } where
  stack := h.stack
  output := h.output
  arities := h.arities
  counters := h.counters.map (· + 1)
  depth := h.depth

/-- A call saves the counter of the call around it. -/
theorem save (h : Beside k i s s') : Beside k i
    { s with saved := s.arity :: s.saved, arity := 0 }
    { s' with saved := s'.arity :: s'.saved, arity := 0 } where
  stack := h.stack
  output := h.output
  arities := h.arities
  counters := h.counters.cons 0
  depth := h.depth

/-- The number of arguments of a call that ends is the same. -/
theorem finishCall (h : Beside k i s s') (hsaved : s.saved ≠ [])
    (f : List Float → Eval σ Float) : Beside k i (s.finishCall f) (s'.finishCall f) where
  stack := h.stack
  output := congrArg (Item.fn f :: ·) h.output
  arities := by
    show s'.arity :: s'.arities = s.arity :: s.arities
    rw [(h.counters.inCall hsaved).1, h.arities]
  counters := (h.counters.inCall hsaved).2.tail
  depth := h.depth

end Beside

namespace Simulates

/-! ### The kinds of the last words -/

theorem expectsOperand_eq (h : Simulates k i s s') :
    s'.last.expectsOperand = s.last.expectsOperand := by
  rcases h.last with h | ⟨h, h', -⟩
  · rw [h]
  · rw [h, h']
    rfl

theorem endsOperand_eq (h : Simulates k i s s') : s'.last.endsOperand = s.last.endsOperand := by
  rcases h.last with h | ⟨h, h', -⟩
  · rw [h]
  · rw [h, h']
    rfl

theorem allowsSign_eq (h : Simulates k i s s') : s'.last.allowsSign = s.last.allowsSign := by
  rcases h.last with h | ⟨h, h', -⟩
  · rw [h]
  · rw [h, h']
    rfl

theorem literal_eq (h : Simulates k i s s') : (s'.last == .literal) = (s.last == .literal) := by
  rcases h.last with h | ⟨h, h', -⟩
  · rw [h]
  · rw [h, h']
    rfl

theorem func_iff (h : Simulates k i s s') : s'.last = .func ↔ s.last = .func := by
  rcases h.last with h | ⟨h, h', -⟩
  · rw [h]
  · rw [h, h']
    exact ⟨nofun, nofun⟩

/-! ### One word -/

theorem literal (h : Simulates k i s s') (l : Literal) :
    Agrees (Simulates k i) (s.literal l) (s'.literal l) := by
  unfold Scan.literal
  rw [h.expectsOperand_eq]
  apply Agrees.require
  intro _
  exact .ok ((h.countOperand.emit _).advance _)

theorem name (h : Simulates k i s s') (word : Bytes) (opensCall : Bool) :
    Agrees (Simulates k i) (s.name C.lenient word opensCall) (s'.name C word opensCall) := by
  have hallow := Context.lenient_allows_of_ne C (f := .implicitMultiplication) (by decide)
  unfold Scan.name
  rw [hallow, h.literal_eq, h.expectsOperand_eq, Context.lenient_find?]
  generalize (s.last == .literal && C.allows .implicitMultiplication) = multiplies
  apply Agrees.require
  intro _
  have hbeside : Beside k i
      (if multiplies = true then s.pushBinary .mul else s).countOperand
      (if multiplies = true then s'.pushBinary .mul else s').countOperand := by
    split
    · exact (h.pushBinary .mul).countOperand
    · exact h.countOperand
  rcases C.find? word with - | ⟨x | read | f⟩
  · exact .error .undefinedName
  · exact .ok ((hbeside.emit _).advance _)
  · exact .ok ((hbeside.emit _).advance _)
  · apply Agrees.require
    intro _
    exact .ok ((hbeside.push rfl).advance _)

theorem leftParen (h : Simulates k i s s') :
    Agrees (Simulates k (i.add .left)) s.leftParen s'.leftParen := by
  unfold Scan.leftParen
  by_cases hlast : s.last = .func
  · rw [if_pos hlast, if_pos (h.func_iff.mpr hlast)]
    exact .ok (h.save.pushParen.advance _)
  · rw [if_neg hlast, if_neg (mt h.func_iff.mp hlast), h.expectsOperand_eq]
    apply Agrees.require
    intro _
    exact .ok (h.countOperand.pushParen.advance _)

/-- A comma stands inside a call only, and then the call's parenthesis is on
both stacks. -/
theorem comma (h : Simulates k i s s') (hs : s.Coherent) :
    Agrees (Simulates k i) (s.comma C.lenient) (s'.comma C) := by
  have hempty : s'.saved.isEmpty = s.saved.isEmpty := h.counters.isEmpty_eq
  unfold Scan.comma
  rw [h.endsOperand_eq, hempty]
  apply Agrees.require
  intro hok
  simp only [Bool.and_eq_true, Bool.not_eq_true', List.isEmpty_eq_false_iff] at hok
  obtain ⟨hends, hsaved⟩ := hok
  obtain ⟨ts, -, m, -, hawaits, -⟩ := hs.drained hends
  have hne : s.drained.stack ≠ [] := hawaits.ne_nil_of_saved hsaved
  have hdrained := h.drained
  -- the first pass would go on even with an empty stack, but it has none here
  have hfirst : (!s.drained.stack.isEmpty || C.lenient.allows .implicitParentheses) = true := by
    rw [Context.lenient_allows_implicitParentheses, Bool.or_true]
  have hsecond : (!s'.drained.stack.isEmpty || C.allows .implicitParentheses) = true := by
    rw [hdrained.stack]
    simp [hne]
  dsimp only
  rw [hfirst, hsecond]
  exact .ok (hdrained.nextArgument.advance _)

theorem operator (h : Simulates k i s s') (byte : UInt8) :
    Agrees (Simulates k i) (s.operator C.lenient byte) (s'.operator C byte) := by
  have hbin : binary? C s'.last byte = binary? C s.last byte := by
    rw [binary?, binary?, h.endsOperand_eq]
  have hsign : sign? C s'.last byte = sign? C s.last byte := by
    rw [sign?, sign?, h.allowsSign_eq]
  unfold Scan.operator
  rw [Context.lenient_binary?, Context.lenient_sign?, hbin, hsign]
  rcases binary? C s.last byte with - | op
  · rcases sign? C s.last byte with - | op
    · exact .error .malformed
    · exact .ok ((h.push rfl).advance _)
  · exact .ok ((h.pushBinary op).advance _)

end Simulates

/-! ### Right parentheses -/

theorem close_call {f : List Float → Eval σ Float} {S : List (Pending σ)} (empty : Bool)
    (hstack : s.stack.tail = .func f :: S) :
    s.close empty = .ok (({ s with stack := S }.finishCall f).advance .rightParen) := by
  rw [close, hstack]
  rfl

theorem close_group (empty : Bool) (hstack : ∀ f S, s.stack.tail ≠ .func f :: S) :
    s.close empty = require (!empty) >>= fun _ =>
      .ok ({ s with stack := s.stack.tail }.advance .rightParen) := by
  unfold close
  split
  · next f S heq => exact absurd heq (hstack f S)
  · rfl

/-- A parenthesis of the text is closed in the same way on both sides. -/
theorem Beside.close (h : Beside k i s s') {S : List (Pending σ)} (hstack : s.stack = .paren :: S)
    (hsaved : ∀ f S', S = .func f :: S' → s.saved ≠ []) (empty : Bool) :
    Agrees (Simulates k (i.add .right)) (s.close empty) (s'.close empty) := by
  have hstack' : s'.stack = .paren :: (S ++ List.replicate (k - i.unopened) .paren) := by
    rw [h.stack, hstack]
    rfl
  have hdepth : i.unclosed = (opens S).length + 1 := by
    rw [← h.depth, hstack, length_opens_paren]
  rw [Imbalance.add_right_of_eq_succ hdepth]
  -- the added parentheses lie below those of the text, so both sides see the same function
  by_cases hfunc : ∃ f S', S = .func f :: S'
  · obtain ⟨f, S', rfl⟩ := hfunc
    rw [close_call empty (by rw [hstack]; rfl), close_call empty (by rw [hstack']; rfl)]
    have hbeside : Beside k ⟨i.unopened, (opens S').length⟩ { s with stack := S' }
        { s' with stack := S' ++ List.replicate (k - i.unopened) .paren } :=
      ⟨rfl, h.output, h.arities, h.counters, rfl⟩
    exact .ok ((hbeside.finishCall (hsaved f S' rfl) f).advance _)
  · have hfree : ∀ f S', S ≠ .func f :: S' := fun f S' heq => hfunc ⟨f, S', heq⟩
    rw [close_group empty (by rw [hstack]; exact hfree),
      close_group empty (by rw [hstack']; exact ne_func_append hfree _)]
    apply Agrees.require
    intro _
    have hbeside : Beside k ⟨i.unopened, (opens S).length⟩ { s with stack := s.stack.tail }
        { s' with stack := s'.stack.tail } := by
      refine ⟨?_, h.output, h.arities, h.counters, ?_⟩
      · rw [hstack, hstack']
        rfl
      · rw [hstack]
        rfl
    exact .ok (hbeside.advance _)

/-- A parenthesis that was never opened takes one of the added ones. -/
theorem Beside.closeUnopened (h : Beside k i s s') (hstack : s.stack = [])
    (hk : (i.add .right).unopened ≤ k) :
    ∃ s₁', s'.close false = .ok s₁' ∧ s'.stack ≠ [] ∧
      Simulates k (i.add .right) (s.advance .rightParen) s₁' := by
  have hdepth : i.unclosed = 0 := by
    rw [← h.depth, hstack]
    rfl
  rw [Imbalance.add_right_of_eq_zero hdepth] at hk ⊢
  have hj : k - i.unopened = k - (i.unopened + 1) + 1 := by
    have hle : i.unopened + 1 ≤ k := hk
    omega
  have hstack' : s'.stack = .paren :: List.replicate (k - (i.unopened + 1)) .paren := by
    rw [h.stack, hstack, hj]
    rfl
  have hfree : ∀ f S, s'.stack.tail ≠ .func f :: S := by
    rw [hstack']
    exact @ne_func_append σ [] (by simp) _
  have hbeside : Beside k ⟨i.unopened + 1, 0⟩ s { s' with stack := s'.stack.tail } := by
    refine ⟨?_, h.output, h.arities, h.counters, ?_⟩
    · rw [hstack, hstack']
      rfl
    · rw [hstack]
      rfl
  refine ⟨_, close_group false hfree, ?_, hbeside.advance _⟩
  rw [hstack']
  exact List.cons_ne_nil _ _

theorem Simulates.rightParen (h : Simulates k i s s') (hs : s.Coherent) (hfunc : s.last ≠ .func)
    (hk : (i.add .right).unopened ≤ k) :
    Agrees (Simulates k (i.add .right)) (s.rightParen C.lenient) (s'.rightParen C) := by
  by_cases hopen : s'.last = .leftParen
  · rcases h.last with hlast | ⟨hstart, -, hnil⟩
    · -- only a call closes right after it was opened, on both sides
      rw [hopen] at hlast
      obtain ⟨ts, -, hfits⟩ := hs
      obtain ⟨S, hstack, -⟩ := hfits.opened hlast.symm
      have hawaits := hfits.expects (by rw [← hlast]; rfl)
      rw [hstack] at hawaits
      unfold Scan.rightParen
      rw [if_pos hlast.symm, if_pos hopen]
      exact h.toBeside.close hstack hawaits.saved_ne_nil true
    · -- the text begins with the parenthesis, behind the added ones
      have hfirst : s.rightParen C.lenient = .error .malformed := by
        unfold Scan.rightParen
        rw [hstart, if_neg nofun]
        rfl
      have hsecond : s'.rightParen C = .error .malformed := by
        have hfree : ∀ f S, s'.stack.tail ≠ .func f :: S := by
          rw [h.stack, hnil, List.nil_append, List.tail_replicate]
          exact @ne_func_append σ [] (by simp) _
        unfold Scan.rightParen
        rw [if_pos hopen, close_group true hfree]
        rfl
      rw [hfirst, hsecond]
      exact .error .malformed
  · have hlast : s'.last = s.last := h.last.resolve_right fun hstart => hopen hstart.2.1
    have hne : s.last ≠ .leftParen := hlast ▸ hopen
    unfold Scan.rightParen
    rw [if_neg hne, if_neg hopen, hlast]
    apply Agrees.require
    intro hexp
    have hends := Kind.endsOperand_of_ne_func (by simpa using hexp) hfunc
    obtain ⟨ts, -, m, -, hawaits, hnil | ⟨S, hstack⟩⟩ := hs.drained hends
    · -- nothing is open in the text, and an added parenthesis is closed
      obtain ⟨s₁', hclose, hne', hsim⟩ := h.drained.closeUnopened hnil hk
      have hempty : ¬ s'.drained.stack.isEmpty = true := by simpa using hne'
      dsimp only
      rw [if_pos (by rw [hnil]; rfl), if_neg hempty, hclose,
        Context.lenient_allows_implicitParentheses]
      exact .ok hsim
    · have hempty : ¬ s.drained.stack.isEmpty = true := by
        rw [hstack]
        exact nofun
      have hempty' : ¬ s'.drained.stack.isEmpty = true := by
        rw [h.drained.stack, hstack]
        exact nofun
      rw [hstack] at hawaits
      dsimp only
      rw [if_neg hempty, if_neg hempty']
      exact h.drained.close hstack hawaits.saved_ne_nil false

/-! ### Whole texts -/

/-- The passes read a word in the same way. -/
theorem Simulates.accept {w : Lexeme} (h : Simulates k i s s') (hs : s.Coherent)
    (hfunc : s.last = .func → w = .leftParen)
    (hk : (i.addAll (parens [w])).unopened ≤ k) :
    Agrees (Simulates k (i.addAll (parens [w]))) (accept C.lenient s w) (accept C s' w) := by
  cases w with
  | literal l => exact h.literal l
  | badLiteral => exact .error .malformed
  | name word opensCall => exact h.name word opensCall
  | leftParen => exact h.leftParen
  | rightParen => exact h.rightParen hs (fun hlast => absurd (hfunc hlast) nofun) hk
  | comma => exact h.comma hs
  | other byte => exact h.operator byte

/-- The pass over the added left parentheses. -/
theorem exists_acceptAll_leftParens (C : Context σ) (k : Nat) :
    ∃ s', acceptAll C {} (List.replicate k .leftParen) = .ok s' ∧ Simulates k {} {} s' := by
  have hrun : ∃ s', acceptAll C {} (List.replicate k .leftParen) = .ok s' ∧
      (s'.last = .start ∨ s'.last = .leftParen) ∧ s'.stack = List.replicate k .paren ∧
      s'.output = [] ∧ s'.arities = [] ∧ s'.saved = [] := by
    induction k with
    | zero => exact ⟨{}, rfl, .inl rfl, rfl, rfl, rfl, rfl⟩
    | succ k ih =>
      obtain ⟨s', hread, hlast, hstack, houtput, harities, hsaved⟩ := ih
      have hexp : s'.last.expectsOperand = true := by
        rcases hlast with h | h
        · rw [h]
          rfl
        · rw [h]
          rfl
      refine ⟨(s'.countOperand.push .paren).advance .leftParen, ?_, .inr rfl, ?_, houtput,
        harities, hsaved⟩
      · rw [List.replicate_succ']
        apply acceptAll_append_eq_ok.mpr
        exact ⟨s', hread, acceptAll_singleton_eq_ok.mpr (.openGroup hexp)⟩
      · show .paren :: s'.stack = _
        rw [hstack]
        rfl
  obtain ⟨s', hread, hlast, hstack, houtput, harities, hsaved⟩ := hrun
  refine ⟨s', hread, ⟨?_, houtput, harities, ?_, rfl⟩, ?_⟩
  · rw [hstack]
    rfl
  · rw [hsaved]
    exact .outermost 0 s'.arity
  · exact hlast.imp id fun h => ⟨rfl, h, rfl⟩

/-- The passes read the words of a text in the same way. -/
theorem simulates_acceptAll {ws rest : List Lexeme} (hj : Joined (ws ++ rest))
    (hk : (imbalance ws).unopened ≤ k) : Agrees (Simulates k (imbalance ws))
      (acceptAll C.lenient {} ws) (acceptAll C {} (List.replicate k .leftParen ++ ws)) := by
  induction ws using List.reverseRecOn generalizing rest with
  | nil =>
    obtain ⟨s', hread, hsim⟩ := exists_acceptAll_leftParens C k
    rw [List.append_nil, hread]
    exact .ok hsim
  | append_singleton ws w ih =>
    rw [imbalance_append] at hk ⊢
    rw [List.append_assoc] at hj
    rw [← List.append_assoc, acceptAll_append, acceptAll_append]
    refine (ih hj (Nat.le_trans (Imbalance.unopened_le_addAll _ _) hk)).bind ?_
    intro s s' hread hsim
    have hreached : Reached C.lenient ws s := ⟨hread, _, hj⟩
    have hone : ∀ (D : Context σ) (t : Scan σ), acceptAll D t [w] = accept D t w :=
      fun D t => bind_pure (accept D t w)
    rw [hone, hone]
    exact hsim.accept hreached.coherent (Reached.eq_leftParen hread hj) hk

end Scan

end Formula
