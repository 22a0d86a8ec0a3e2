/-
Formula/Proofs/Callers.lean

What a foreign caller gets for its calls.

A call whose arguments cannot be used asks for nothing (`Call.Unusable`).  Every
other call asks for one operation on the context (`Call.Asks`): it has the effect of
that operation and reports its outcome (`Call.serve_of_asks`).  So the calls of any
history leave the context that the operations they ask for leave
(`Context.afterCalls_eq`), and the next call is answered as that context says
(`Context.refines_and_answers`).

Every call of a history is made in a world of its own, because a caller may do what
it likes with its numbers between two calls.
-/
import Formula.Proofs.Callbacks
import Formula.Proofs.Encoding
import Formula.Proofs.History

namespace Formula

variable {σ : Type}

namespace Foreign

/-! ### Strings of the caller -/

section Strings

variable {string? : Option Bytes} {text : String}

/-- A string holds a text: its bytes up to the first zero are those of the text. -/
def Holds (string? : Option Bytes) (text : String) : Prop :=
  ∃ bytes, string? = some bytes ∧ bytes.takeWhile (· != 0) = Bytes.ofString text

/-- There is no string, or its bytes up to the first zero are no text. -/
def Unreadable (string? : Option Bytes) : Prop :=
  string? = none ∨
    ∃ bytes, string? = some bytes ∧ ∀ text, bytes.takeWhile (· != 0) ≠ Bytes.ofString text

theorem text?_of_holds (h : Holds string? text) : text? string? = some (Bytes.ofString text) := by
  obtain ⟨bytes, rfl, hbytes⟩ := h
  rw [text?, Option.map_some, hbytes, Option.filter_some, Bytes.toString?_ofString]
  rfl

theorem text?_of_unreadable (h : Unreadable string?) : text? string? = none := by
  rcases h with rfl | ⟨bytes, rfl, hbytes⟩
  · rfl
  · have hnone : Bytes.toString? (bytes.takeWhile (· != 0)) = none :=
      Bytes.toString?_eq_none_iff.mpr fun ⟨t, ht⟩ => hbytes t ht.symm
    rw [text?, Option.map_some, Option.filter_some, hnone]
    rfl

theorem exists_holds (h : ¬ Unreadable string?) : ∃ text, Holds string? text := by
  simp only [Unreadable, not_or, not_exists, not_and, not_forall, not_not] at h
  obtain ⟨bytes, rfl⟩ := Option.ne_none_iff_exists'.mp h.1
  obtain ⟨text, htext⟩ := h.2 bytes rfl
  exact ⟨text, bytes, rfl, htext⟩

theorem Holds.not_unreadable (h : Holds string? text) : ¬ Unreadable string? := by
  intro hno
  have hnone := text?_of_unreadable hno
  rw [text?_of_holds h] at hnone
  exact absurd hnone nofun

end Strings

/-! ### Changes -/

namespace Edit

/-- A pointer that is needed is null, or the name is no text. -/
def Unusable : Edit σ → Prop
  | addVariable name? value? => Unreadable name? ∨ value? = none
  | addConstant name? _ => Unreadable name?
  | addFunction name? function? => Unreadable name? ∨ function? = none
  | remove name? => Unreadable name?

/-- The change that is asked for. -/
inductive Asks : Edit σ → Change σ → Prop
  | addVariable {name? name read} (h : Holds name? name) :
      Asks (.addVariable name? (some read)) (.add (Bytes.ofString name) (.var read))
  | addConstant {name? name x} (h : Holds name? name) :
      Asks (.addConstant name? x) (.add (Bytes.ofString name) (.const x))
  | addFunction {name? name f} (h : Holds name? name) :
      Asks (.addFunction name? (some f)) (.add (Bytes.ofString name) (Callback.symbol f))
  | remove {name? name} (h : Holds name? name) :
      Asks (.remove name?) (.remove (Bytes.ofString name))

variable {request : Edit σ} {c : Change σ}

theorem meaning?_of_asks (h : request.Asks c) : request.meaning? = some fun C => c.apply C := by
  cases h with
  | addVariable h | addConstant h | addFunction h | remove h =>
    rw [meaning?, text?_of_holds h]
    rfl

theorem meaning?_of_unusable (h : request.Unusable) : request.meaning? = none := by
  cases request with
  | addVariable name? value? =>
    rcases h with h | rfl
    · rw [meaning?, text?_of_unreadable h]
      rfl
    · rw [meaning?]
      cases text? name? <;> rfl
  | addFunction name? function? =>
    rcases h with h | rfl
    · rw [meaning?, text?_of_unreadable h]
      rfl
    · rw [meaning?]
      cases text? name? <;> rfl
  | addConstant name? x | remove name? =>
    rw [meaning?, text?_of_unreadable h]
    rfl

theorem exists_asks (h : ¬ request.Unusable) : ∃ c : Change σ, request.Asks c := by
  cases request with
  | addVariable name? value? =>
    obtain ⟨hname, hvalue⟩ := not_or.mp h
    obtain ⟨name, hname⟩ := exists_holds hname
    obtain ⟨read, rfl⟩ := Option.ne_none_iff_exists'.mp hvalue
    exact ⟨_, .addVariable hname⟩
  | addConstant name? x =>
    obtain ⟨name, hname⟩ := exists_holds h
    exact ⟨_, .addConstant hname⟩
  | addFunction name? function? =>
    obtain ⟨hname, hfunction⟩ := not_or.mp h
    obtain ⟨name, hname⟩ := exists_holds hname
    obtain ⟨f, rfl⟩ := Option.ne_none_iff_exists'.mp hfunction
    exact ⟨_, .addFunction hname⟩
  | remove name? =>
    obtain ⟨name, hname⟩ := exists_holds h
    exact ⟨_, .remove hname⟩

theorem Asks.not_unusable (h : request.Asks c) : ¬ request.Unusable := by
  intro hno
  have hnone := meaning?_of_unusable hno
  rw [meaning?_of_asks h] at hnone
  exact absurd hnone nofun

/-- A function that is added is one of the caller. -/
theorem Asks.exists_callback {call : List Float → Eval σ Float} (h : request.Asks c)
    (hcall : c.symbol? = some (.fn call)) : ∃ f : Callback σ, f.symbol = .fn call := by
  cases h with
  | addFunction _ => exact ⟨_, Option.some.inj hcall⟩
  | addVariable _ | addConstant _ | remove _ => exact absurd hcall nofun

end Edit

theorem edit_of_asks {request : Edit σ} {c : Change σ} (h : request.Asks c) (C : Context σ) :
    Foreign.edit (some C) request = (Status.ofOutcome (C.change c).1, some (C.change c).2) := by
  simp only [Foreign.edit, Edit.meaning?_of_asks h]
  cases hc : c.apply C with
  | ok D =>
    rw [Context.change_of_apply_ok hc]
    rfl
  | error e =>
    rw [Context.change_of_apply_error hc]
    rfl

theorem edit_of_unusable {request : Edit σ} (h : request.Unusable) (context? : Option (Context σ)) :
    Foreign.edit context? request = (.invalidArgument, context?) := by
  cases context? <;> simp only [Foreign.edit, Edit.meaning?_of_unusable h]

/-! ### Calls and the operations that they ask for -/

/-- A call about a context, the pointer to which may be null.  An evaluation comes with a cell
for the result and a buffer for a message. -/
inductive Call (σ : Type) where
  | edit (null : Bool) (request : Edit σ)
  | evaluate (null : Bool) (formula? : Option Bytes) (result? : Option Float)
      (buffer? : Option Bytes)

/-- An operation on a context. -/
inductive Operation (σ : Type) where
  | change (c : Change σ)
  | evaluate (text : Bytes)

/-- Serves a call about the context `C`, which may leave another context there. -/
def Call.serve (C : Context σ) : Call σ → StateM σ (Reply × Context σ)
  | edit null request =>
    let (status, left?) := Foreign.edit (if null then none else some C) request
    pure (⟨status, none, none⟩, left?.getD C)
  | evaluate null formula? result? buffer? => do
    let reply ← Foreign.evaluate (if null then none else some C) formula? result? buffer?
    pure (reply, C)

/-- Performs an operation.  Only an evaluation gives a value. -/
def Operation.perform (C : Context σ) :
    Operation σ → StateM σ (Except Error (Option Float) × Context σ)
  | change c => pure ((C.change c).1.map fun _ => none, (C.change c).2)
  | evaluate text => do
    let outcome ← (C.evaluate text).run
    pure (outcome.map some, C)

/-- The status is that of the outcome, and the cell holds the value if there is one. -/
structure Reply.Reports (reply : Reply) (outcome : Except Error (Option Float)) : Prop where
  status : reply.status = Status.ofOutcome outcome
  result : ∀ x, outcome = .ok (some x) → reply.result? = some x

namespace Call

variable {C : Context σ} {call : Call σ} {op : Operation σ} {w : σ}

/-- A pointer that is needed is null, or a string is no text. -/
def Unusable : Call σ → Prop
  | edit null request => null = true ∨ request.Unusable
  | evaluate null formula? result? _ => null = true ∨ Unreadable formula? ∨ result? = none

/-- The operation that is asked for. -/
inductive Asks : Call σ → Operation σ → Prop
  | edit {request c} (h : request.Asks c) : Asks (.edit false request) (.change c)
  | evaluate {formula? text x buffer?} (h : Holds formula? text) :
      Asks (.evaluate false formula? (some x) buffer?) (.evaluate (Bytes.ofString text))

/-- A call that can be used asks for something. -/
theorem exists_asks (h : ¬ call.Unusable) : ∃ op : Operation σ, call.Asks op := by
  cases call with
  | edit null request =>
    obtain ⟨hnull, hrequest⟩ := not_or.mp h
    obtain ⟨c, hc⟩ := Edit.exists_asks hrequest
    rw [Bool.not_eq_true] at hnull
    subst hnull
    exact ⟨_, .edit hc⟩
  | evaluate null formula? result? buffer? =>
    obtain ⟨hnull, h⟩ := not_or.mp h
    obtain ⟨hformula, hresult⟩ := not_or.mp h
    obtain ⟨text, htext⟩ := exists_holds hformula
    obtain ⟨x, rfl⟩ := Option.ne_none_iff_exists'.mp hresult
    rw [Bool.not_eq_true] at hnull
    subst hnull
    exact ⟨_, .evaluate htext⟩

theorem Asks.not_unusable (h : call.Asks op) : ¬ call.Unusable := by
  cases h with
  | edit h => exact not_or.mpr ⟨nofun, h.not_unusable⟩
  | evaluate h => exact not_or.mpr ⟨nofun, not_or.mpr ⟨h.not_unreadable, nofun⟩⟩

/-! ### One call -/

/-- A call that cannot be used changes neither the context nor the world. -/
theorem serve_of_unusable (h : call.Unusable) (C : Context σ) (w : σ) :
    ∃ reply, (call.serve C).run w = ((reply, C), w) ∧
      reply.status = Status.invalidArgument := by
  cases call with
  | edit null request =>
    rcases h with rfl | h
    · exact ⟨_, rfl, rfl⟩
    · rw [serve, edit_of_unusable h]
      cases null <;> exact ⟨_, rfl, rfl⟩
  | evaluate null formula? result? buffer? =>
    -- the pointers are looked at before the string
    simp only [serve, Foreign.evaluate]
    rcases h with rfl | h | rfl
    · exact ⟨_, rfl, rfl⟩
    · rw [text?_of_unreadable h]
      cases null <;> cases result? <;> exact ⟨_, rfl, rfl⟩
    · cases null <;> exact ⟨_, rfl, rfl⟩

/-- Any other call does what the operation does and reports how that went. -/
theorem serve_of_asks (h : call.Asks op) (C : Context σ) (w : σ) :
    ∃ reply outcome D w', (call.serve C).run w = ((reply, D), w') ∧
      (op.perform C).run w = ((outcome, D), w') ∧ reply.Reports outcome := by
  cases h with
  | @edit request c h =>
    refine ⟨⟨Status.ofOutcome (C.change c).1, none, none⟩, (C.change c).1.map fun _ => none,
      (C.change c).2, w, ?_, rfl, ?_, ?_⟩
    · have hedit := edit_of_asks h C
      simp only [serve, Bool.false_eq_true, if_false, hedit]
      rfl
    · cases (C.change c).1 <;> rfl
    · intro x hx
      cases hc : (C.change c).1 <;> simp [hc, Except.map] at hx
  | @evaluate formula? text x buffer? h =>
    simp only [serve, Foreign.evaluate, text?_of_holds h, Operation.perform, Bool.false_eq_true,
      if_false, StateT.run_bind]
    rcases (C.evaluate (Bytes.ofString text)).run.run w with ⟨e | y, w'⟩
    · refine ⟨_, _, C, w', rfl, rfl, rfl, ?_⟩
      intro x hx
      exact absurd hx nofun
    · refine ⟨_, _, C, w', rfl, rfl, rfl, ?_⟩
      intro z hz
      obtain rfl : y = z := Option.some.inj (Except.ok.inj hz)
      rfl

/-- The status of a formula that is evaluated. -/
theorem Asks.status_eq {text : Bytes} (h : call.Asks (.evaluate text)) :
    ((call.serve C).run w).1.1.status = Status.ofOutcome ((C.evaluate text).run.run w).1 := by
  obtain ⟨reply, outcome, D, w', hserve, hperform, hreports⟩ := serve_of_asks h C w
  have houtcome : ((C.evaluate text).run.run w).1.map some = outcome := by
    rw [Operation.perform, StateT.run_bind] at hperform
    exact congrArg (·.1.1) hperform
  rw [hserve, hreports.status, ← houtcome]
  cases ((C.evaluate text).run.run w).1 <;> rfl

end Call

/-! ### Histories of calls -/

/-- The operations that calls ask for, each in the world of its call.  Calls that
cannot be used ask for none. -/
inductive Asked : List (σ × Call σ) → List (σ × Operation σ) → Prop
  | nil : Asked [] []
  | unusable {w call history ops} (h : call.Unusable) (hrest : Asked history ops) :
      Asked ((w, call) :: history) ops
  | asks {w call op history ops} (h : call.Asks op) (hrest : Asked history ops) :
      Asked ((w, call) :: history) ((w, op) :: ops)

theorem exists_asked (history : List (σ × Call σ)) : ∃ ops, Asked history ops := by
  induction history with
  | nil => exact ⟨[], .nil⟩
  | cons entry history ih =>
    obtain ⟨w, call⟩ := entry
    obtain ⟨ops, hrest⟩ := ih
    by_cases h : call.Unusable
    · exact ⟨ops, .unusable h hrest⟩
    · obtain ⟨op, hop⟩ := Call.exists_asks h
      exact ⟨(w, op) :: ops, .asks hop hrest⟩

end Foreign

open Foreign

namespace Context

variable {C : Context σ}

/-- The context after calls, each of them in a world of its own. -/
def afterCalls (C : Context σ) (history : List (σ × Call σ)) : Context σ :=
  history.foldl (fun C (w, call) => ((call.serve C).run w).1.2) C

/-- The context after operations, each of them in a world of its own. -/
def afterOperations (C : Context σ) (ops : List (σ × Operation σ)) : Context σ :=
  ops.foldl (fun C (w, op) => ((op.perform C).run w).1.2) C

theorem afterCalls_cons (C : Context σ) (w : σ) (call : Call σ) (history : List (σ × Call σ)) :
    C.afterCalls ((w, call) :: history) = ((call.serve C).run w).1.2.afterCalls history := rfl

theorem afterOperations_cons (C : Context σ) (w : σ) (op : Operation σ)
    (ops : List (σ × Operation σ)) :
    C.afterOperations ((w, op) :: ops) = ((op.perform C).run w).1.2.afterOperations ops := rfl

/-- Calls leave the context that the operations leave. -/
theorem afterCalls_eq {history : List (σ × Call σ)} {ops : List (σ × Operation σ)}
    (h : Asked history ops) (C : Context σ) :
    C.afterCalls history = C.afterOperations ops := by
  induction h generalizing C with
  | nil => rfl
  | @unusable w call history ops h _ ih =>
    obtain ⟨reply, hserve, -⟩ := Call.serve_of_unusable h C w
    rw [afterCalls_cons, hserve]
    exact ih C
  | @asks w call op history ops h _ ih =>
    obtain ⟨reply, outcome, D, w', hserve, hperform, -⟩ := Call.serve_of_asks h C w
    rw [afterCalls_cons, afterOperations_cons, hserve, hperform]
    exact ih D

/-! ### Functions of a context that is the caller's -/

/-- A change that adds a function of the caller, or no function. -/
theorem OfCallbacks.change (hC : C.OfCallbacks) {c : Change σ}
    (h : ∀ call, c.symbol? = some (.fn call) → ∃ f : Callback σ, f.symbol = .fn call) :
    (C.change c).2.OfCallbacks := by
  by_cases haccepts : C.Accepts c
  · intro word call hfind
    rw [find?_change haccepts] at hfind
    split at hfind
    · exact h call hfind
    · exact hC word call hfind
  · rw [change_of_not_accepts haccepts]
    exact hC

theorem OfCallbacks.serve (hC : C.OfCallbacks) (call : Call σ) (w : σ) :
    ((call.serve C).run w).1.2.OfCallbacks := by
  by_cases h : call.Unusable
  · obtain ⟨reply, hserve, -⟩ := Call.serve_of_unusable h C w
    rw [hserve]
    exact hC
  · obtain ⟨op, hop⟩ := Call.exists_asks h
    obtain ⟨reply, outcome, D, w', hserve, hperform, -⟩ := Call.serve_of_asks hop C w
    rw [hserve]
    cases hop with
    | evaluate _ =>
      obtain rfl : C = D := by
        rw [Operation.perform, StateT.run_bind] at hperform
        exact congrArg (·.1.2) hperform
      exact hC
    | edit hc =>
      obtain rfl : (C.change _).2 = D := congrArg (·.1.2) hperform
      exact hC.change fun call hcall => hc.exists_callback hcall

/-- All functions that a caller puts into an empty context are its own. -/
theorem ofCallbacks_afterCalls (F : Features) (history : List (σ × Call σ)) :
    ((empty F).afterCalls history).OfCallbacks := by
  induction history using List.reverseRecOn with
  | nil => exact fun name call h => absurd h nofun
  | append_singleton history entry ih =>
    rw [afterCalls, List.foldl_append]
    exact ih.serve entry.2 entry.1

end Context

/-! ### The answer to a call -/

namespace Foreign

open Context

/-- How a call about `C` is answered in the world `w`.
* Its status is minus one exactly if an argument cannot be used, and then neither the
  context nor the world changes.
* Every other call asks for an operation, has the effect of it and reports its outcome.
* The status of an evaluation is zero exactly if it succeeds.  A function that aborts it,
  in whatever place, sets the status, and a formula that compiles fails in no other way. -/
structure Call.Answered (call : Call σ) (C : Context σ) (w : σ) : Prop where
  invalid : ((call.serve C).run w).1.1.status = Status.invalidArgument ↔ call.Unusable
  unchanged : call.Unusable → ((call.serve C).run w).1.2 = C ∧ ((call.serve C).run w).2 = w
  asks : (∃ op : Operation σ, call.Asks op) ↔ ¬ call.Unusable
  effect : ∀ op, call.Asks op → ∃ reply outcome D w',
    (call.serve C).run w = ((reply, D), w') ∧ (op.perform C).run w = ((outcome, D), w') ∧
      reply.Reports outcome
  success : ∀ text, call.Asks (.evaluate text) →
    (((call.serve C).run w).1.1.status = Status.success ↔
      ∃ x, ((C.evaluate text).run.run w).1 = .ok x)
  aborted : ∀ text f code, call.Asks (.evaluate text) → C.AbortedBy text w f code →
    ((call.serve C).run w).1.1.status = if 1 ≤ code ∧ code ≤ 5 then code else 6
  aborts : ∀ text p, call.Asks (.evaluate text) → C.compile text = .ok p →
    ((call.serve C).run w).1.1.status ≠ Status.success →
      ∃ name f code, C.find? name = some (Callback.symbol f) ∧ C.AbortedBy text w f code

theorem Call.answered (call : Call σ) {C : Context σ} (hC : C.OfCallbacks) (w : σ) :
    call.Answered C w where
  invalid := by
    constructor
    · intro hstatus
      -- otherwise the call would report an outcome, and none has this status
      by_contra h
      obtain ⟨op, hop⟩ := exists_asks h
      obtain ⟨reply, outcome, D, w', hserve, -, hreports⟩ := serve_of_asks hop C w
      rw [hserve, hreports.status] at hstatus
      exact Status.ofOutcome_ne_invalidArgument outcome hstatus
    · intro h
      obtain ⟨reply, hserve, hstatus⟩ := serve_of_unusable h C w
      rw [hserve]
      exact hstatus
  unchanged h := by
    obtain ⟨reply, hserve, -⟩ := serve_of_unusable h C w
    rw [hserve]
    exact ⟨rfl, rfl⟩
  asks := ⟨fun ⟨_, hop⟩ => hop.not_unusable, exists_asks⟩
  effect op h := serve_of_asks h C w
  success text h := by
    rw [h.status_eq, Status.ofOutcome_eq_success_iff]
  aborted text f code h habort := by
    rw [h.status_eq, habort.evaluate_eq]
    exact Status.ofError_toError code
  aborts text p h hp hstatus := by
    rw [h.status_eq] at hstatus
    cases hrun : ((C.evaluate text).run.run w).1 with
    | ok x => exact absurd (Status.ofOutcome_eq_success_iff.mpr ⟨x, hrun⟩) hstatus
    | error e => exact hC.exists_abortedBy hp hrun

end Foreign

namespace Context

/-- **The foreign interface refines the operations on a context.**  After any calls
about a new context, the context is the one that the operations they ask for leave,
and the next call is answered as that context says. -/
theorem refines_and_answers (flags : Nat) (history : List (σ × Call σ)) :
    (∃ ops, Asked history ops ∧ (empty (.ofNat flags)).afterCalls history
        = (empty (.ofNat flags)).afterOperations ops) ∧
      ∀ call w, Call.Answered call ((empty (.ofNat flags)).afterCalls history) w := by
  obtain ⟨ops, hops⟩ := exists_asked history
  exact ⟨⟨ops, hops, afterCalls_eq hops _⟩,
    fun call w => call.answered (ofCallbacks_afterCalls _ history) w⟩

/-- A function that returns minus one is called for its own argument. -/
example :
    let f : Callback Unit := fun _ => pure (-1, 99)
    let add : Call Unit := .edit false (.addFunction (some [102, 0, 7]) (some f))
    let evaluate : Call Unit := .evaluate false (some (Bytes.ofString "2+f(f())")) (some 0) none
    let C := (empty .basic).afterCalls [((), add)]
    ((evaluate.serve C).run ()).1.1.status = 6 := by
  intro f add evaluate C
  decide +kernel

end Context

end Formula
