/-
Formula/Proofs/Arities.lean

The numbers of arguments that a compiled formula records.

A pass keeps a counter for every open call: the one of the innermost call is live, and
those of the calls around it are saved.  While a call is open its counter, once an
operand has been counted, is one more than its commas, and the functions that wait on the
stack are those of the open calls; the functions on the output are those of the closed
calls, in the order in which they were closed, and the recorded numbers are their arities
(`Counts`).  One word after another keeps this (`Scan.step`), since all that a pass can do
with a word is one of a few things to the counters: an operand is counted once, a comma
adds to the live counter, and a call is begun or finished.

The end of the text finishes the calls that are still open, the innermost first
(`Counts.unwind`).  So the functions of a compiled formula are those of the closed calls
and then those of the open calls, and the numbers beside them are the arities of the same
calls (`arities_of_compile`).
-/
import Formula.Proofs.CallSites
import Formula.Proofs.Recognition

namespace Formula

variable {σ : Type}

open Operator

/-! ### Functions on the output and on the stack -/

namespace Item

/-- The function that an item calls. -/
def function? : Item σ → Option (List Float → Eval σ Float)
  | .fn call => some call
  | _ => none

/-- The functions that some items call. -/
def functions (items : List (Item σ)) : List (List Float → Eval σ Float) :=
  items.filterMap function?

theorem functions_placed (run : List Operator) (output : List (Item σ)) :
    functions (placed run output) = functions output := by
  induction run generalizing output with
  | nil => rfl
  | cons p run ih =>
    rw [placed_cons, ih]
    cases p <;> rfl

end Item

namespace Pending

/-- The functions whose parentheses are open, the innermost first. -/
def callees : List (Pending σ) → List (List Float → Eval σ Float)
  | [] => []
  | .paren :: .func f :: stack => f :: callees stack
  | _ :: stack => callees stack

theorem callees_group {stack : List (Pending σ)} (h : ∀ f S, stack ≠ .func f :: S) :
    callees (.paren :: stack) = callees stack := by
  rcases stack with - | ⟨_ | f | u | o, stack⟩
  · rfl
  · rfl
  · exact absurd rfl (h f stack)
  · rfl
  · rfl

theorem callees_above (run : List Operator) (stack : List (Pending σ)) :
    callees (above run stack) = callees stack := by
  induction run with
  | nil => rfl
  | cons p run ih =>
    rw [above_cons, ← ih]
    cases p <;> rfl

end Pending

open Pending

/-! ### Counters and calls -/

namespace Scan

/-- The counters of the open calls: each counts one more than the commas of its call, and
outside of all calls there is one operand. -/
def counters (C : Context σ) (opened : List (CallSite σ)) : List Nat :=
  opened.map (fun c => c.commas C + 1) ++ [1]

theorem counters_map_extend {C : Context σ} {w : Lexeme} {opened : List (CallSite σ)}
    (h : ∀ c ∈ opened, (c.extend w).commas C = c.commas C) :
    counters C (opened.map (CallSite.extend w)) = counters C opened := by
  rw [counters, counters, List.map_map]
  exact congrArg (· ++ [1]) (List.map_congr_left fun c hc => congrArg (· + 1) (h c hc))

/-- The output holds the functions of the closed calls and their arities; the functions of
the open calls wait on the stack that is given beside the state, and the counters are
theirs. -/
structure Counts (C : Context σ) (s : Scan σ) (stack : List (Pending σ))
    (closed opened : List (CallSite σ)) : Prop where
  placed : Item.functions s.output = closed.map CallSite.fn
  arities : s.arities = closed.map (CallSite.arity C)
  waiting : callees stack = opened.map CallSite.fn
  counters : max s.arity 1 :: s.saved = counters C opened

namespace Counts

variable {C : Context σ} {s s' : Scan σ} {stack : List (Pending σ)}
  {closed opened : List (CallSite σ)} {c : CallSite σ}

/-- An operand begins the first argument once. -/
theorem countOperand (h : Counts C s stack closed opened) :
    Counts C s.countOperand stack closed opened where
  placed := h.placed
  arities := h.arities
  waiting := h.waiting
  counters := by
    show max (max s.arity 1) 1 :: s.saved = _
    rw [Nat.max_assoc, Nat.max_self, h.counters]

theorem advance (h : Counts C s stack closed opened) (kind : Kind) :
    Counts C (s.advance kind) stack closed opened :=
  ⟨h.placed, h.arities, h.waiting, h.counters⟩

/-- A function waits for its parenthesis, and a sign waits. -/
theorem push (h : Counts C s s.stack closed opened) {p : Pending σ}
    (hp : callees (p :: s.stack) = callees s.stack) :
    Counts C (s.push p) (s.push p).stack closed opened :=
  ⟨h.placed, h.arities, hp.trans h.waiting, h.counters⟩

theorem emit (h : Counts C s stack closed opened) (item : Item σ) (hitem : item.function? = none) :
    Counts C (s.emit item) stack closed opened where
  placed := (List.filterMap_cons_none hitem).trans h.placed
  arities := h.arities
  waiting := h.waiting
  counters := h.counters

/-- Operators are placed without a change to the calls. -/
theorem of_above {run : List Operator} (h : Counts C s (above run stack) closed opened) :
    Counts C { s with output := Operator.placed run s.output } stack closed opened where
  placed := (Item.functions_placed run s.output).trans h.placed
  arities := h.arities
  waiting := (callees_above run stack).symm.trans h.waiting
  counters := h.counters

theorem pushBinary (h : Counts C s s.stack closed opened) (op : BinaryOp) :
    Counts C (s.pushBinary op) (s.pushBinary op).stack closed opened := by
  obtain ⟨run, rest, hstack, -, hpush⟩ := s.exists_pushBinary op
  rw [hstack] at h
  have h' := h.of_above
  rw [hpush]
  exact ⟨h'.placed, h'.arities, h'.waiting, h'.counters⟩

/-- After an operand, only operators wait above the innermost open parenthesis. -/
theorem drained (h : Counts C s s.stack closed opened) (hs : s.Coherent)
    (hends : s.last.endsOperand = true) : Counts C s.drained s.drained.stack closed opened := by
  obtain ⟨ts, -, hfits⟩ := hs
  obtain ⟨m, -, hawaits⟩ := hfits.ends hends
  obtain ⟨run, rest, -, hstack, hrest, -, -⟩ := hawaits.exists_run
  have hdrained := drained_above hstack hrest
  rw [hstack] at h
  have h' := h.of_above
  rw [hdrained]
  exact ⟨h'.placed, h'.arities, h'.waiting, h'.counters⟩

/-- The word is no comma. -/
theorem extend {w : Lexeme} (h : Counts C s stack closed opened) (hw : w ≠ .comma) :
    Counts C s stack closed (opened.map (CallSite.extend w)) where
  placed := h.placed
  arities := h.arities
  waiting := h.waiting.trans (CallSite.map_fn_extend _ opened).symm
  counters := by
    refine h.counters.trans (counters_map_extend fun c _ => ?_).symm
    rw [CallSite.commas_extend, if_neg fun hcomma => hw hcomma.1, Nat.add_zero]

/-- A call is finished. -/
theorem finishCall {f : List Float → Eval σ Float} {rest : List (CallSite σ)}
    (h : Counts C s (.paren :: .func f :: stack) closed (c :: rest))
    (harity : s.arity = c.arity C) : Counts C (s.finishCall f) stack (c :: closed) rest where
  placed := by
    obtain ⟨hf, -⟩ := List.cons.inj h.waiting
    show f :: Item.functions s.output = c.fn :: closed.map CallSite.fn
    rw [hf, h.placed]
  arities := by
    show s.arity :: s.arities = _
    rw [harity, h.arities, List.map_cons]
  waiting := (List.cons.inj h.waiting).2
  counters := by
    obtain ⟨-, hsaved⟩ := List.cons.inj h.counters
    show max (s.saved.headD 0) 1 :: s.saved.tail = _
    rw [hsaved]
    cases rest <;> simp [Scan.counters]

/-- A name is counted before it is looked up, also behind a literal. -/
theorem name {word : Bytes} {opensCall : Bool} (h : Counts C s s.stack closed opened)
    (htakes : Takes C s (.name word opensCall) s') : Counts C s' s'.stack closed opened := by
  generalize hw : Lexeme.name word opensCall = w at htakes
  induction htakes with
  | const => exact (h.countOperand.emit (.const _) rfl).advance _
  | var => exact (h.countOperand.emit (.var _) rfl).advance _
  | func => exact (h.countOperand.push rfl).advance _
  | times _ _ _ ih => exact ih ((h.pushBinary .mul).advance .binary) hw
  | _ => cases hw

/-- The parenthesis of a call begins a new counter. -/
theorem openCall {f : List Float → Eval σ Float} (h : Counts C s (.func f :: stack) closed opened)
    (harity : 1 ≤ s.arity) (u : List Lexeme) (word : Bytes) :
    Counts C { s with saved := s.arity :: s.saved, arity := 0 } (.paren :: .func f :: stack) closed
      (⟨u, word, f, []⟩ :: opened) where
  placed := h.placed
  arities := h.arities
  waiting := congrArg (f :: ·) h.waiting
  counters := by
    have hcounters := h.counters
    rw [Nat.max_eq_left harity] at hcounters
    exact congrArg (1 :: ·) hcounters

/-- The parenthesis of a group. -/
theorem of_group (h : Counts C s (.paren :: stack) closed opened)
    (hstack : ∀ f S, stack ≠ .func f :: S) : Counts C s stack closed opened :=
  ⟨h.placed, h.arities, (callees_group hstack).symm.trans h.waiting, h.counters⟩

/-- A comma begins the next argument of the innermost call. -/
theorem comma {ws : List Lexeme} (h : Counts C s stack closed opened)
    (hsurvey : Survey C ws closed opened) (harity : 1 ≤ s.arity) (hsaved : s.saved ≠ []) :
    Counts C { s with arity := s.arity + 1 } stack closed
      (opened.map (CallSite.extend .comma)) where
  placed := h.placed
  arities := h.arities
  waiting := h.waiting.trans (CallSite.map_fn_extend _ opened).symm
  counters := by
    have hcounters := h.counters
    rcases opened with - | ⟨c, rest⟩
    · exact absurd (List.cons.inj hcounters).2 hsaved
    obtain ⟨hlive, hrest⟩ := List.cons.inj hcounters
    obtain ⟨hc, hothers⟩ := hsurvey.commas_extend_comma
    rw [Nat.max_eq_left harity] at hlive
    show max (s.arity + 1) 1 :: s.saved
      = ((c.extend .comma).commas C + 1) :: Scan.counters C (rest.map (CallSite.extend .comma))
    rw [Nat.max_eq_left (Nat.le_add_left 1 s.arity), hlive, hrest, hc,
      counters_map_extend hothers]
    rfl

/-- The live counter is the arity of the innermost call once it has an argument. -/
theorem arity_eq {rest : List (CallSite σ)} (h : Counts C s stack closed (c :: rest))
    (harity : 1 ≤ s.arity) (hbody : c.body ≠ []) : s.arity = c.arity C := by
  have hlive := (List.cons.inj h.counters).1
  rw [Nat.max_eq_left harity] at hlive
  rw [CallSite.arity_of_ne_nil hbody, hlive]

end Counts

/-! ### Every word keeps the counters -/

section Step

variable {C : Context σ} {ws : List Lexeme} {w : Lexeme} {s s' : Scan σ}
  {closed opened : List (CallSite σ)}

/-- After an operand it has been counted. -/
theorem Coherent.arity_pos (h : s.Coherent) (hends : s.last.endsOperand = true) : 1 ≤ s.arity := by
  obtain ⟨ts, -, hfits⟩ := h
  obtain ⟨m, -, hawaits⟩ := hfits.ends hends
  exact hawaits.arity_pos

theorem last_eq_leftParen_iff (h : acceptAll C {} ws = .ok s) :
    s.last = .leftParen ↔ ∃ u, ws = u ++ [.leftParen] := by
  constructor
  · intro hlast
    rcases List.eq_nil_or_concat ws with rfl | ⟨u, w, rfl⟩
    · cases h
      cases hlast
    · rw [List.concat_eq_append] at h ⊢
      obtain ⟨s₁, -, h₂⟩ := acceptAll_append_eq_ok.mp h
      rw [(acceptAll_singleton_eq_ok.mp h₂).eq_leftParen hlast]
      exact ⟨u, rfl⟩
  · rintro ⟨u, rfl⟩
    obtain ⟨s₁, -, h₂⟩ := acceptAll_append_eq_ok.mp h
    exact (acceptAll_singleton_eq_ok.mp h₂).last_leftParen

/-- After an operand every open call has words inside. -/
theorem body_ne_nil (h : acceptAll C {} ws = .ok s) (hexp : s.last.expectsOperand = false)
    {c : CallSite σ} (hc : c.IsOpenIn C ws) : c.body ≠ [] := by
  intro hbody
  have hlast := (last_eq_leftParen_iff h).mpr ⟨_, hc.eq_append_leftParen hbody⟩
  rw [hlast] at hexp
  exact absurd hexp nofun

/-- A left parenthesis begins a call or a group. -/
theorem step_leftParen (hs : Reached C ws s) (htakes : Takes C s .leftParen s')
    (hsurvey : Survey C ws closed opened) (h : Counts C s s.stack closed opened) :
    ∃ closed' opened', Survey C (ws ++ [.leftParen]) closed' opened' ∧
      Counts C s' s'.stack closed' opened' := by
  obtain ⟨ts, -, hfits⟩ := hs.coherent
  have h' := h.extend (w := .leftParen) nofun
  cases htakes with
  | openCall hlast =>
    obtain ⟨u, word, f, hws, hfind, S, hstack⟩ := exists_name_of_last hs.1 hlast
    obtain ⟨f', S', -, hawaits⟩ := hfits.func hlast
    rw [hstack] at h'
    have hopen := h'.openCall hawaits.arity_pos u word
    refine ⟨_, _, hsurvey.openCall hws.symm hfind, hopen.placed, hopen.arities, ?_, hopen.counters⟩
    show callees (.paren :: s.stack) = _
    rw [hstack]
    exact hopen.waiting
  | openGroup hexp =>
    have hgroup := callees_group (hfits.expects hexp).ne_func
    have hcallee : (C.nesting ws).callee = false := Bool.eq_false_iff.mpr fun hcallee =>
      ne_func_of_expectsOperand hexp (hs.tracks.callee.mp hcallee)
    exact ⟨_, _, hsurvey.goOn (fun _ => hcallee) nofun, (h'.countOperand.push hgroup).advance _⟩

/-- A right parenthesis finishes a call, without arguments or with some, or ends a group, or
closes what was never opened. -/
theorem step_rightParen (hs : Reached C ws s) (htakes : Takes C s .rightParen s')
    (hfunc : s.last ≠ .func) (hsurvey : Survey C ws closed opened)
    (h : Counts C s s.stack closed opened) :
    ∃ closed' opened', Survey C (ws ++ [.rightParen]) closed' opened' ∧
      Counts C s' s'.stack closed' opened' := by
  have hbrackets := hs.tracks.brackets
  cases htakes with
  | @closeEmpty _ call stack hlast htail =>
    obtain ⟨ts, -, hfits⟩ := hs.coherent
    obtain ⟨S, hstack, hzero⟩ := hfits.opened hlast
    rw [hstack] at htail hbrackets h
    obtain rfl : S = .func call :: stack := htail
    obtain ⟨c, rest, rfl, hinside, hsurvey'⟩ := hsurvey.closeCall hbrackets
    -- the last word is the parenthesis that opened the call, so nothing stands in between
    obtain ⟨u, hws⟩ := (last_eq_leftParen_iff hs.1).mp hlast
    have hopen := (hsurvey.mem_opened c).mp List.mem_cons_self
    have harity : s.arity = c.arity C := by
      rw [hzero call stack rfl, CallSite.arity, if_pos (hopen.body_eq_nil hinside hws)]
    have h' := (h.finishCall harity).extend (w := .rightParen) nofun
    exact ⟨_, _, hsurvey', h'.placed, h'.arities, h'.waiting, h'.counters⟩
  | @closeCall _ call stack hexp htail =>
    have hends := Kind.endsOperand_of_ne_func hexp hfunc
    have hdrained := h.drained hs.coherent hends
    rw [drained_stack_of_call htail] at hdrained
    obtain ⟨c, rest, rfl, -, hsurvey'⟩ := hsurvey.closeCall (hbrackets.trans (opens_of_call htail))
    have hbody := body_ne_nil hs.1 hexp ((hsurvey.mem_opened c).mp List.mem_cons_self)
    have harity := hdrained.arity_eq (hs.coherent.arity_pos hends) hbody
    have h' := (hdrained.finishCall harity).extend (w := .rightParen) nofun
    exact ⟨_, _, hsurvey', h'.placed, h'.arities, h'.waiting, h'.counters⟩
  | closeGroup hexp hne htail =>
    have hdrained := h.drained hs.coherent (Kind.endsOperand_of_ne_func hexp hfunc)
    rw [drained_stack_of_group hne] at hdrained
    -- the bracket that ends is not one of a call, so no call ends with it
    have h' := (hdrained.of_group htail).extend (w := .rightParen) nofun
    have hhead : (C.nesting ws).brackets.head? ≠ some .call := by
      rw [hbrackets, opens_of_group hne htail]
      exact nofun
    exact ⟨_, _, hsurvey.goOn nofun fun _ => hhead, h'.placed, h'.arities, h'.waiting, h'.counters⟩
  | closeUnopened hexp hnil himp =>
    have hdrained := h.drained hs.coherent (Kind.endsOperand_of_ne_func hexp hfunc)
    have hhead : (C.nesting ws).brackets.head? ≠ some .call := by
      rw [hbrackets, ← opens_drained, hnil]
      exact nofun
    have h' := hdrained.extend (w := .rightParen) nofun
    exact ⟨_, _, hsurvey.goOn nofun fun _ => hhead, h'.advance _⟩

/-- Every word keeps the counters and the calls together. -/
theorem step (hs : Reached C ws s) (htakes : Takes C s w s')
    (hfunc : s.last = .func → w = .leftParen) (hsurvey : Survey C ws closed opened)
    (h : Counts C s s.stack closed opened) :
    ∃ closed' opened', Survey C (ws ++ [w]) closed' opened' ∧
      Counts C s' s'.stack closed' opened' := by
  cases w with
  | leftParen => exact step_leftParen hs htakes hsurvey h
  | rightParen => exact step_rightParen hs htakes (fun hlast => nomatch hfunc hlast) hsurvey h
  | badLiteral => cases htakes
  | name word opensCall =>
    exact ⟨_, _, hsurvey.goOn nofun nofun, (h.name htakes).extend nofun⟩
  | literal l =>
    refine ⟨_, _, hsurvey.goOn nofun nofun, ?_⟩
    cases htakes with
    | literal => exact ((h.countOperand.emit (.const _) rfl).advance _).extend nofun
  | other byte =>
    refine ⟨_, _, hsurvey.goOn nofun nofun, ?_⟩
    cases htakes with
    | binary => exact ((h.pushBinary _).advance _).extend nofun
    | sign => exact ((h.push rfl).advance _).extend nofun
  | comma =>
    refine ⟨_, _, hsurvey.goOn nofun nofun, ?_⟩
    cases htakes with
    | comma hends hsaved _ =>
      have h' := (h.drained hs.coherent hends).comma hsurvey (hs.coherent.arity_pos hends) hsaved
      exact h'.advance _

/-- In every state that is reached, the counters are those of the calls of the words. -/
theorem Reached.exists_counts (h : Reached C ws s) :
    ∃ closed opened, Survey C ws closed opened ∧ Counts C s s.stack closed opened := by
  refine h.induction (P := fun ws s => ∃ closed opened, Survey C ws closed opened ∧
    Counts C s s.stack closed opened) ⟨[], [], .nil C, rfl, rfl, rfl, rfl⟩ ?_
  rintro ws w s s' hs htakes hfunc ⟨closed, opened, hsurvey, hcounts⟩
  exact step hs htakes hfunc hsurvey hcounts

end Step

/-! ### The end of the text -/

/-- The calls that are still open are placed, the innermost first. -/
theorem Counts.unwind {C : Context σ} {s s' : Scan σ} {stack : List (Pending σ)} {m : Nat}
    (hawaits : Awaits stack s.arity s.saved m) {closed opened : List (CallSite σ)}
    (h : Counts C s stack closed opened) (hbody : ∀ c ∈ opened, c.body ≠ [])
    (hrun : unwind C s stack = .ok s') : Counts C s' [] (opened.reverse ++ closed) [] := by
  generalize harity : s.arity = a at hawaits
  generalize hsaved : s.saved = A at hawaits
  -- one call of the survey for every call on the stack
  induction hawaits generalizing s closed opened with
  | bottom =>
    cases hrun
    obtain rfl : opened = [] := List.map_eq_nil_iff.mp h.waiting.symm
    exact ⟨h.placed, h.arities, rfl, h.counters⟩
  | @sign u stack a A n _ ih =>
    have h' : Counts C s stack closed opened := ⟨h.placed, h.arities, h.waiting, h.counters⟩
    exact ih (h'.emit (.unary _) rfl) hbody hrun harity hsaved
  | @binary o stack a A n _ ih =>
    have h' : Counts C s stack closed opened := ⟨h.placed, h.arities, h.waiting, h.counters⟩
    exact ih (h'.emit (.binary _) rfl) hbody hrun harity hsaved
  | group hawaits ih =>
    exact ih (h.of_group hawaits.ne_func) hbody (require_bind_eq_ok.mp hrun).2 harity hsaved
  | @call f stack a A n begun _ ih =>
    obtain ⟨-, hrun⟩ := require_bind_eq_ok.mp hrun
    obtain ⟨-, hrun⟩ := require_bind_eq_ok.mp hrun
    rcases opened with - | ⟨c, rest⟩
    · exact absurd h.waiting nofun
    have hpos : 1 ≤ s.arity := by
      rw [harity]
      exact Nat.le_add_left 1 begun
    have hfinish := h.finishCall (h.arity_eq hpos (hbody c List.mem_cons_self))
    obtain ⟨harity', hsaved'⟩ := counters_finishCall hsaved f
    have hrest := ih hfinish (fun d hd => hbody d (List.mem_cons_of_mem c hd)) hrun harity' hsaved'
    rw [List.reverse_cons, List.append_assoc]
    exact hrest

end Scan

namespace Context

variable {C : Context σ} {text : Bytes} {p : Postfix σ}

/-- A call can only be left open with implicit parentheses. -/
theorem allows_of_isOpenIn (h : C.compile text = .ok p) {c : CallSite σ}
    (hc : c.IsOpenIn C (C.lex text)) : C.allows .implicitParentheses = true := by
  obtain ⟨s, s', hreached, -, hunwind, -⟩ := exists_of_compile h
  by_contra hF
  have hopens := Scan.opens_of_unwind (Bool.eq_false_iff.mpr hF) hunwind
  have hmem := call_mem_brackets_iff.mpr ⟨c, hc⟩
  rw [hreached.tracks.brackets, hopens] at hmem
  exact absurd hmem List.not_mem_nil

/-- **The arities are those of the calls.**  The functions of a compiled formula are
those of the calls in the text, in the order in which they end, and the numbers of
arguments beside them are the arities of these calls, one for each function.  A call
that is left open needs implicit parentheses and has an argument. -/
theorem arities_of_compile (h : C.compile text = .ok p) :
    p.arities.length = (Item.functions p.items).length ∧
      ∃ closed opened : List (CallSite σ), CallsInOrder C (C.lex text) closed opened ∧
        Item.functions p.items = (closed ++ opened).map CallSite.fn ∧
        p.arities = (closed ++ opened).map (CallSite.arity C) ∧
        ∀ c ∈ opened, C.allows .implicitParentheses = true ∧ 1 ≤ c.arity C := by
  obtain ⟨s, s', hreached, hends, hunwind, hp⟩ := exists_of_compile h
  obtain ⟨closed, opened, hsurvey, hcounts⟩ := hreached.exists_counts
  obtain ⟨ts, -, hfits⟩ := hreached.coherent
  obtain ⟨m, -, hawaits⟩ := hfits.ends hends
  have hbody : ∀ c ∈ opened, c.body ≠ [] := fun c hc =>
    Scan.body_ne_nil hreached.1 (Kind.expectsOperand_of_endsOperand hends)
      ((hsurvey.mem_opened c).mp hc)
  have hplaced := hcounts.unwind hawaits hbody hunwind
  have hreverse : (opened.reverse ++ closed).reverse = closed.reverse ++ opened := by
    rw [List.reverse_append, List.reverse_reverse]
  have hfunctions : Item.functions p.items = (closed.reverse ++ opened).map CallSite.fn := by
    rw [hp, Item.functions, List.filterMap_reverse, ← hreverse, List.map_reverse]
    exact congrArg List.reverse hplaced.placed
  have harities : p.arities = (closed.reverse ++ opened).map (CallSite.arity C) := by
    rw [hp, ← hreverse, List.map_reverse]
    exact congrArg List.reverse hplaced.arities
  refine ⟨?_, closed.reverse, opened, hsurvey.callsInOrder, hfunctions, harities, fun c hc => ?_⟩
  · rw [harities, hfunctions, List.length_map, List.length_map]
  · refine ⟨allows_of_isOpenIn h ((hsurvey.mem_opened c).mp hc), ?_⟩
    rw [CallSite.arity_of_ne_nil (hbody c hc)]
    exact Nat.le_add_left 1 _

/-- A call inside a call, a comma in a group and a call that is never closed. -/
theorem sample_arities_of_compile : ∃ p : Postfix Unit,
    (sample .full).compile (Bytes.ofString "f(f( ),(x,x))-f(x") = .ok p ∧ p.arities = [0, 3, 1] ∧
      p.arities.length = (Item.functions p.items).length ∧
      ∃ closed opened : List (CallSite Unit),
        CallsInOrder (sample .full) ((sample .full).lex (Bytes.ofString "f(f( ),(x,x))-f(x"))
          closed opened ∧
        Item.functions p.items = (closed ++ opened).map CallSite.fn ∧
        p.arities = (closed ++ opened).map (CallSite.arity (sample .full)) ∧
        ∀ c ∈ opened,
          (sample .full).allows .implicitParentheses = true ∧ 1 ≤ c.arity (sample .full) := by
  have hlex : (sample .full).lex (Bytes.ofString "f(f( ),(x,x))-f(x")
      = [.name [102] true, .leftParen, .name [102] true, .leftParen, .rightParen, .comma,
        .leftParen, .name [120] false, .comma, .name [120] false, .rightParen, .rightParen,
        .other Byte.minus, .name [102] true, .leftParen, .name [120] false] := by
    decide +kernel
  have h : (sample .full).compile (Bytes.ofString "f(f( ),(x,x))-f(x")
      = .ok ⟨[.fn fun _ => throw .wrongArgumentCount, .const 2, .const 2,
        .fn fun _ => throw .wrongArgumentCount, .const 2, .fn fun _ => throw .wrongArgumentCount,
        .binary .sub], [0, 3, 1]⟩ := by
    rw [compile, hlex]
    rfl
  exact ⟨_, h, rfl, arities_of_compile h⟩

end Context

end Formula
