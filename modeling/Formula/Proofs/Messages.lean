/-
Formula/Proofs/Messages.lean

What an evaluation leaves in the memory of a foreign caller.

The caller owns a cell for the result and a buffer of some length for a message; behind
the buffer its memory goes on (`Memory`).  A call writes to one of the two at most.  If the
formula has a value, that goes to the cell.  Otherwise there is one `Cause`, and its
message goes to the buffer: as many of its bytes as fit in front of a zero, then the zero
(`Memory.Shows`).  Nothing else changes, behind the buffer least of all
(`Foreign.leaves_evaluateInto`).

The arguments are looked at in turn, the context first and the formula last, and the first
one that cannot be used is the cause (`Foreign.Stops`).
-/
import Formula.Proofs.Callers

namespace Formula

variable {σ : Type}

/-! ### Memory -/

/-- The bytes from an address on. -/
abbrev Memory := Nat → UInt8

namespace Memory

variable {m : Memory} {bs : Bytes} {n i : Nat}

/-- The first bytes. -/
def front (m : Memory) (n : Nat) : Bytes := (List.range n).map m

/-- The memory with bytes written to its front. -/
def write (m : Memory) (bs : Bytes) : Memory := fun i => bs[i]?.getD (m i)

theorem length_front (m : Memory) (n : Nat) : (m.front n).length = n := by
  rw [front, List.length_map, List.length_range]

theorem getElem?_front (h : i < n) : (m.front n)[i]? = some (m i) := by
  rw [front, List.getElem?_map, List.getElem?_range h]
  rfl

theorem write_of_getElem? {b : UInt8} (h : bs[i]? = some b) : m.write bs i = b := by
  rw [write, h]
  rfl

theorem write_of_length_le (h : bs.length ≤ i) : m.write bs i = m i := by
  rw [write, List.getElem?_eq_none h]
  rfl

/-- What is at the front already can be written there. -/
theorem write_front (m : Memory) (n : Nat) : m.write (m.front n) = m := by
  funext i
  by_cases h : i < n
  · exact write_of_getElem? (getElem?_front h)
  · refine write_of_length_le ?_
    rw [length_front]
    exact Nat.le_of_not_lt h

/-- A message is shown in a buffer of `n` bytes at the front of `before`, unless the
pointer to the buffer is null; `after` is the memory with the message.  As much of it as
there is room for stands at the front, a zero ends it, and the bytes behind the zero are as
before.  Without a buffer, or without room in it, nothing is written. -/
structure Shows (msg : Bytes) (null : Bool) (n : Nat) (before after : Memory) : Prop where
  nothing : null = true ∨ n = 0 → after = before
  message : null = false → 1 ≤ n → ∀ i < min msg.length (n - 1), msg[i]? = some (after i)
  zero : null = false → 1 ≤ n → after (min msg.length (n - 1)) = 0
  behind : null = false → 1 ≤ n → ∀ i, min msg.length (n - 1) < i → after i = before i

end Memory

namespace Foreign

/-! ### The buffer -/

section Buffer

variable {message : String} {buffer : Bytes} {i : Nat}

theorem writeMessage_eq (h : buffer ≠ []) : writeMessage message buffer
    = (Bytes.ofString message).take (buffer.length - 1)
      ++ 0 :: buffer.drop (min (Bytes.ofString message).length (buffer.length - 1) + 1) := by
  have hempty : ¬ buffer.isEmpty = true := fun hnil => h (List.isEmpty_iff.mp hnil)
  rw [Nat.min_comm, ← List.length_take, writeMessage, if_neg hempty]

/-- The buffer keeps its length. -/
theorem length_writeMessage (message : String) (buffer : Bytes) :
    (writeMessage message buffer).length = buffer.length := by
  by_cases h : buffer = []
  · rw [h]
    rfl
  · have hpos := List.length_pos_iff.mpr h
    rw [writeMessage_eq h, List.length_append, List.length_take, List.length_cons,
      List.length_drop]
    omega

theorem getElem?_writeMessage_of_lt
    (h : i < min (Bytes.ofString message).length (buffer.length - 1)) :
    (writeMessage message buffer)[i]? = (Bytes.ofString message)[i]? := by
  have hne : buffer ≠ [] := by
    rintro rfl
    exact absurd h (by simp)
  rw [writeMessage_eq hne, List.getElem?_append_left (by rw [List.length_take]; omega),
    List.getElem?_take_of_lt (by omega)]

theorem getElem?_writeMessage_zero (message : String) (h : buffer ≠ []) :
    (writeMessage message buffer)[min (Bytes.ofString message).length (buffer.length - 1)]?
      = some 0 := by
  rw [writeMessage_eq h, List.getElem?_append_right (by rw [List.length_take]; omega),
    List.length_take, Nat.min_comm, Nat.sub_self]
  rfl

theorem getElem?_writeMessage_of_gt
    (h : min (Bytes.ofString message).length (buffer.length - 1) < i) :
    (writeMessage message buffer)[i]? = buffer[i]? := by
  by_cases hne : buffer = []
  · rw [hne]
    rfl
  · obtain ⟨k, rfl⟩ := Nat.exists_eq_add_of_lt h
    rw [writeMessage_eq hne, List.getElem?_append_right (by rw [List.length_take]; omega),
      List.length_take, Nat.min_comm, Nat.add_assoc, Nat.add_sub_cancel_left,
      List.getElem?_cons_succ, List.getElem?_drop]
    congr 1
    omega

/-- The memory behind the call, when `written` is what the call made of the buffer. -/
def memoryAfter (memory : Memory) (written? : Option Bytes) : Memory :=
  written?.elim memory memory.write

/-- A message in the buffer is shown in the memory. -/
theorem shows_writeMessage (message : String) (null : Bool) (n : Nat) (memory : Memory) :
    Memory.Shows (Bytes.ofString message) null n memory
      (memoryAfter memory ((if null then none else some (memory.front n)).map
        (writeMessage message))) := by
  cases null with
  | true => exact ⟨fun _ => rfl, nofun, nofun, nofun⟩
  | false =>
    have hlength := memory.length_front n
    show Memory.Shows _ _ _ _ (memory.write (writeMessage message (memory.front n)))
    constructor
    · rintro (h | rfl)
      · exact absurd h nofun
      · rfl
    · intro _ hn i hi
      have hlt : i < (Bytes.ofString message).length := by omega
      rw [← hlength] at hi
      rw [List.getElem?_eq_getElem hlt, Memory.write_of_getElem?]
      rw [getElem?_writeMessage_of_lt hi, List.getElem?_eq_getElem hlt]
    · intro _ hn
      have hne : memory.front n ≠ [] := by
        rw [← List.length_pos_iff, hlength]
        exact hn
      have hzero := getElem?_writeMessage_zero message hne
      rw [hlength] at hzero
      exact Memory.write_of_getElem? hzero
    · intro _ hn i hi
      -- in the buffer these bytes are written back as they were, behind it they are not written
      by_cases hin : i < n
      · rw [← hlength] at hi
        refine Memory.write_of_getElem? ?_
        rw [getElem?_writeMessage_of_gt hi, Memory.getElem?_front hin]
      · refine Memory.write_of_length_le ?_
        rw [length_writeMessage, hlength]
        omega

/-- Nothing is written behind a buffer that keeps its length. -/
theorem memoryAfter_of_le {memory : Memory} {written? : Option Bytes} {n : Nat}
    (h : ∀ bs, written? = some bs → bs.length = n) (hi : n ≤ i) :
    memoryAfter memory written? i = memory i := by
  cases written? with
  | none => rfl
  | some bs => exact Memory.write_of_length_le (h bs rfl ▸ hi)

end Buffer

/-! ### Causes -/

/-- Why a call does not give a value: the pointer to the context or to the cell for the result
is null, the formula is null or no text, or it is refused or its evaluation fails. -/
inductive Cause where
  | noContext
  | noCell
  | noText
  | failed (e : Error)

/-- The status that reports a cause. -/
def Cause.status : Cause → Status
  | noContext | noCell | noText => .invalidArgument
  | failed e => .ofError e

/-- The message for a cause. -/
def Cause.message : Cause → String
  | noContext => "Invalid config pointer!"
  | noCell => "Invalid result pointer!"
  | noText => "Failed to convert the expression to a Rust string!"
  | failed e => "Failed to evaluate the expression: " ++ e.message

/-- The cause that stops a call in the world `w`.  Without a context nothing else is looked
at, and without a cell the formula is not. -/
inductive Stops (w : σ) :
    Option (Context σ) → Option Float → Option Bytes → Cause → Prop
  | noContext {result? formula?} : Stops w none result? formula? .noContext
  | noCell {C formula?} : Stops w (some C) none formula? .noCell
  | noText {C x formula?} (h : Unreadable formula?) : Stops w (some C) (some x) formula? .noText
  | failed {C x formula? text e} (h : Holds formula? text)
      (hfail : ((C.evaluate (Bytes.ofString text)).run.run w).1 = .error e) :
      Stops w (some C) (some x) formula? (.failed e)

/-! ### The call -/

/-- What a call leaves behind: its status, the cell for the result if there is one, and the
memory from the buffer on. -/
structure Left where
  status : Status
  result? : Option Float
  memory : Memory

/-- Evaluates a formula in the world `w`, with a buffer of `n` bytes at the front of
`memory`, unless the pointer to the buffer is null. -/
def evaluateInto (w : σ) (context? : Option (Context σ)) (formula? : Option Bytes)
    (result? : Option Float) (null : Bool) (n : Nat) (memory : Memory) : Left :=
  let buffer? := if null then none else some (memory.front n)
  let reply := ((evaluate context? formula? result? buffer?).run w).1
  ⟨reply.status, reply.result?, memoryAfter memory reply.buffer?⟩

/-- What a call promises to leave behind.  With status zero the cell holds the value of the
formula, and the memory is as before.  With any other status the cell is as before, and the
buffer shows the message for the cause.  Nothing is written behind the buffer. -/
structure Leaves (w : σ) (context? : Option (Context σ)) (formula? : Option Bytes)
    (result? : Option Float) (null : Bool) (n : Nat) (memory : Memory) (left : Left) : Prop where
  success : left.status = .success → ∃ C x text v, context? = some C ∧ result? = some x ∧
    Holds formula? text ∧ ((C.evaluate (Bytes.ofString text)).run.run w).1 = .ok v ∧
    left.result? = some v ∧ left.memory = memory
  failure : left.status ≠ .success → left.result? = result? ∧
    ∃ cause, Stops w context? result? formula? cause ∧ left.status = cause.status ∧
      Memory.Shows (Bytes.ofString cause.message) null n memory left.memory
  behind : ∀ i, n ≤ i → left.memory i = memory i

variable {w : σ} {context? : Option (Context σ)} {formula? : Option Bytes}
  {result? : Option Float} {null : Bool} {n : Nat} {memory : Memory} {cause : Cause}

theorem Cause.status_ne_success (cause : Cause) : cause.status ≠ .success := by
  cases cause with
  | noContext | noCell | noText => exact nofun
  | failed e => exact Status.ofError_ne_success e

/-- A call has a cause that stops it, or its formula has a value. -/
theorem stops_or_value (w : σ) (context? : Option (Context σ)) (result? : Option Float)
    (formula? : Option Bytes) : (∃ cause, Stops w context? result? formula? cause) ∨
      ∃ C x text v, context? = some C ∧ result? = some x ∧ Holds formula? text ∧
        ((C.evaluate (Bytes.ofString text)).run.run w).1 = .ok v := by
  -- in the order in which the arguments are looked at
  rcases context? with - | C
  · exact .inl ⟨_, .noContext⟩
  rcases result? with - | x
  · exact .inl ⟨_, .noCell⟩
  by_cases hformula : Unreadable formula?
  · exact .inl ⟨_, .noText hformula⟩
  obtain ⟨text, htext⟩ := exists_holds hformula
  cases hrun : ((C.evaluate (Bytes.ofString text)).run.run w).1 with
  | error e => exact .inl ⟨_, .failed htext hrun⟩
  | ok v => exact .inr ⟨C, x, text, v, rfl, rfl, htext, hrun⟩

/-- A call that is stopped reports the cause and leaves the cell alone. -/
theorem evaluateInto_of_stops (h : Stops w context? result? formula? cause) :
    evaluateInto w context? formula? result? null n memory
      = ⟨cause.status, result?, memoryAfter memory
          ((if null then none else some (memory.front n)).map (writeMessage cause.message))⟩ := by
  cases h with
  | noContext => rfl
  | noCell => rfl
  | noText h =>
    simp only [evaluateInto, evaluate, text?_of_unreadable h]
    rfl
  | @failed C x formula? text e h hfail =>
    simp only [evaluateInto, evaluate, text?_of_holds h, StateT.run_bind]
    rcases hrun : (C.evaluate (Bytes.ofString text)).run.run w with ⟨outcome, w'⟩
    rw [hrun] at hfail
    obtain rfl : outcome = .error e := hfail
    rfl

/-- A call whose formula has a value puts it into the cell. -/
theorem evaluateInto_of_value {C : Context σ} {x v : Float} {text : String}
    (h : Holds formula? text)
    (hv : ((C.evaluate (Bytes.ofString text)).run.run w).1 = .ok v) :
    evaluateInto w (some C) formula? (some x) null n memory = ⟨.success, some v, memory⟩ := by
  have hkeep : memoryAfter memory (if null then none else some (memory.front n)) = memory := by
    cases null with
    | true => rfl
    | false => exact Memory.write_front memory n
  simp only [evaluateInto, evaluate, text?_of_holds h, StateT.run_bind]
  rcases hrun : (C.evaluate (Bytes.ofString text)).run.run w with ⟨outcome, w'⟩
  rw [hrun] at hv
  obtain rfl : outcome = .ok v := hv
  exact congrArg (Left.mk .success (some v)) hkeep

/-- **An evaluation writes what it promises.**  Whatever the pointers, the formula, the
length of the buffer and the memory are, a call writes its value to the cell and nothing
else, or the message for its cause to the buffer and nothing else. -/
theorem leaves_evaluateInto (w : σ) (context? : Option (Context σ)) (formula? : Option Bytes)
    (result? : Option Float) (null : Bool) (n : Nat) (memory : Memory) :
    Leaves w context? formula? result? null n memory
      (evaluateInto w context? formula? result? null n memory) := by
  rcases stops_or_value w context? result? formula? with
    ⟨cause, hstops⟩ | ⟨C, x, text, v, rfl, rfl, htext, hv⟩
  · rw [evaluateInto_of_stops hstops]
    refine ⟨fun hsuccess => absurd hsuccess cause.status_ne_success, fun _ => ?_, fun i hi => ?_⟩
    · exact ⟨rfl, cause, hstops, rfl, shows_writeMessage cause.message null n memory⟩
    · refine memoryAfter_of_le (fun bs hbs => ?_) hi
      cases null with
      | true => exact absurd hbs nofun
      | false =>
        rw [← Option.some.inj hbs, length_writeMessage, memory.length_front]
  · rw [evaluateInto_of_value htext hv]
    exact ⟨fun _ => ⟨C, x, text, v, rfl, rfl, htext, hv, rfl, rfl⟩,
      fun hfail => absurd rfl hfail, fun _ _ => rfl⟩

end Foreign

end Formula
