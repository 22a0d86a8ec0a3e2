/-
Formula/Proofs/Callbacks.lean

Functions of a foreign caller, and what their codes come out as.

A function of the caller returns a code.  Inside a formula it is an error, and
the status of the evaluation is the code of that error.  The two translations
agree on the codes from one to five and send every other one to six
(`Status.ofError_toError`), so no code of a function is taken for an argument that
cannot be used.

An evaluation that comes to a call with a code other than success ends there,
whatever the call left as its result (`AbortedBy.evaluate_eq`).  Where the
functions of a context are functions of the caller, a formula that compiles fails
in no other way (`exists_abortedBy`).
-/
import Formula.Foreign
import Formula.Proofs.Placing

namespace Formula

variable {σ : Type}

/-! ### Codes -/

namespace Status

/-- The code of an outcome. -/
def ofOutcome {α : Type} : Except Error α → Status
  | .ok _ => success
  | .error e => ofError e

/-- The code of an error lies between one and six. -/
theorem ofError_bounds (e : Error) : 1 ≤ ofError e ∧ ofError e ≤ 6 := by
  cases e <;> simp only [ofError] <;> decide

theorem ofError_ne_success (e : Error) : ofError e ≠ success := by
  intro h
  have hpos := (ofError_bounds e).1
  rw [h] at hpos
  exact absurd hpos (by decide)

theorem ofError_ne_invalidArgument (e : Error) : ofError e ≠ invalidArgument := by
  intro h
  have hpos := (ofError_bounds e).1
  rw [h] at hpos
  exact absurd hpos (by decide)

theorem ofOutcome_eq_success_iff {α : Type} {outcome : Except Error α} :
    ofOutcome outcome = success ↔ ∃ a, outcome = .ok a := by
  cases outcome with
  | ok a => simp [ofOutcome]
  | error e => simp [ofOutcome, ofError_ne_success]

theorem ofOutcome_ne_invalidArgument {α : Type} (outcome : Except Error α) :
    ofOutcome outcome ≠ invalidArgument := by
  cases outcome with
  | ok a => exact nofun
  | error e => exact ofError_ne_invalidArgument e

/-- The codes from one to five come out as they are, all others as six. -/
theorem ofError_toError (code : Status) :
    ofError (toError code) = if 1 ≤ code ∧ code ≤ 5 then code else 6 := by
  by_cases h : code = 1 ∨ code = 2 ∨ code = 3 ∨ code = 4 ∨ code = 5
  · rcases h with rfl | rfl | rfl | rfl | rfl <;> decide
  · simp only [not_or] at h
    obtain ⟨h1, h2, h3, h4, h5⟩ := h
    have hrange : ¬ (1 ≤ code ∧ code ≤ 5) := by
      simp only [Int32.le_iff_toInt_le, ← Int32.toInt_inj] at h1 h2 h3 h4 h5 ⊢
      simp at h1 h2 h3 h4 h5 ⊢
      omega
    rw [if_neg hrange, toError, if_neg h1, if_neg h2, if_neg h3, if_neg h4, if_neg h5]
    rfl

end Status

/-! ### A function of the caller -/

open Foreign

namespace Foreign.Callback

variable {f : Callback σ} {call : List Float → Eval σ Float} {args : List Float}
  {code : Status} {result : Float} {w w' : σ}

/-- A call succeeds with the result that the function leaves, or it fails with the
error of the code. -/
theorem run_call (h : f.symbol = .fn call) (hrun : (f args).run w = ((code, result), w')) :
    (call args).run.run w
      = (if code = Status.success then .ok result else .error code.toError, w') := by
  obtain rfl := (Symbol.fn.inj h).symm
  have hlift : (liftM (f args) : Eval σ (Status × Float)).run.run w
      = (.ok (code, result), w') := by
    rw [Eval.run_lift, hrun]
  refine (Eval.run_bind_ok hlift _).trans ?_
  dsimp only
  split <;> rfl

end Foreign.Callback

/-! ### Evaluations that a function ends -/

namespace Context

variable {C : Context σ} {text : Bytes} {p : Postfix σ} {w : σ} {f : Callback σ} {code : Status}

/-- The evaluation of a text comes to a call of `f`, in whatever place, and the call
returns `code`, which is not the code of success, with any result. -/
def AbortedBy (C : Context σ) (text : Bytes) (w : σ) (f : Callback σ) (code : Status) : Prop :=
  ∃ p c w₁ call args result w₂, C.compile text = .ok p ∧ Machine.Runs (p.start, w) (c, w₁) ∧
    f.symbol = .fn call ∧ c.Calls call args ∧ (f args).run w₁ = ((code, result), w₂) ∧
    code ≠ Status.success

/-- The error of the code is the error of the evaluation. -/
theorem AbortedBy.evaluate_eq (h : C.AbortedBy text w f code) :
    ((C.evaluate text).run.run w).1 = .error code.toError := by
  obtain ⟨p, c, w₁, call, args, result, w₂, hp, hruns, hcall, hcalls, hrun, hcode⟩ := h
  have hfails := Callback.run_call hcall hrun
  rw [if_neg hcode] at hfails
  rw [evaluate_of_compile hp, hruns.exec_eq, hcalls.exec_eq hfails]

/-- All functions of a context are functions of the caller. -/
def OfCallbacks (C : Context σ) : Prop :=
  ∀ name call, C.find? name = some (.fn call) → ∃ f : Callback σ, f.symbol = .fn call

/-- Where all functions are functions of the caller, one of them has aborted an
evaluation that fails. -/
theorem OfCallbacks.exists_abortedBy (hC : C.OfCallbacks) (hp : C.compile text = .ok p)
    {e : Error} (h : ((C.evaluate text).run.run w).1 = .error e) :
    ∃ name f code, C.find? name = some f.symbol ∧ C.AbortedBy text w f code := by
  rw [evaluate_of_compile hp] at h
  rcases exists_runs_of_compile hp w with
    ⟨x, w', hruns⟩ | ⟨c, call, args, w₁, e', w', hruns, hcalls, hfails, name, hfind⟩
  · -- a run to the end gives a value
    rw [hruns.exec_eq] at h
    exact absurd h nofun
  · obtain ⟨f, hf⟩ := hC name call hfind
    rcases hrun : (f args).run w₁ with ⟨⟨code, result⟩, w₂⟩
    refine ⟨name, f, code, hfind.trans (congrArg some hf.symm), p, c, w₁, call, args, result, w₂,
      hp, hruns, hf, hcalls, hrun, ?_⟩
    rintro rfl
    rw [Callback.run_call hf hrun, if_pos rfl] at hfails
    exact absurd hfails nofun

end Context

end Formula
