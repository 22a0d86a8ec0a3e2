/-
Formula/Foreign.lean

The interface for callers that have no types to rely on.

Such a caller passes pointers, any of which may be null, and byte strings
that end at their first zero byte and may be no text at all.  It gets a
status back: zero for success, the positive code of an `Error`, or minus one
for an argument that cannot be used.  Here a pointer is an `Option`, `none`
when it is null, and memory that a call may write to is passed in and
returned.

An unusable argument is found before anything is done, so such a call
changes nothing but the message buffer.
-/
import Formula.Scan

namespace Formula

/-- What a call reports. -/
abbrev Status := Int32

namespace Status

/-- The call did what it was asked to. -/
def success : Status := 0

/-- A required pointer is null, or a byte string is no text. -/
def invalidArgument : Status := -1

/-- The code of an error. -/
def ofError : Error → Status
  | .illegalName => 1
  | .alreadyDefined => 2
  | .undefinedName => 3
  | .malformed => 4
  | .wrongArgumentCount => 5
  | .custom _ => 6

/-- The error that a function means by a code other than success. -/
def toError (code : Status) : Error :=
  if code = 1 then .illegalName
  else if code = 2 then .alreadyDefined
  else if code = 3 then .undefinedName
  else if code = 4 then .malformed
  else if code = 5 then .wrongArgumentCount
  else .custom s!"function failed with code {code}"

end Status

namespace Foreign

variable {σ : Type}

/-! ### Arguments -/

/-- The text that a byte string holds: its bytes up to the first zero, if
they are well-formed UTF-8. -/
def text? (string? : Option Bytes) : Option Bytes :=
  (string?.map (List.takeWhile (· != 0))).filter fun bs => bs.toString?.isSome

/-- A function of the caller: from its arguments, its status and what it
leaves in the cell for its result, which holds zero before. -/
abbrev Callback (σ : Type) := List Float → StateM σ (Status × Float)

/-- The symbol of a function of the caller. -/
def Callback.symbol (f : Callback σ) : Symbol σ :=
  .fn fun args => do
    let (code, result) ← f args
    if code = Status.success then pure result else throw code.toError

/-! ### Changing a context -/

/-- A change of a context, as the caller asks for it; a pointer that may be null is optional. -/
inductive Edit (σ : Type) where
  | addVariable (name? : Option Bytes) (value? : Option (StateM σ Float))
  | addConstant (name? : Option Bytes) (value : Float)
  | addFunction (name? : Option Bytes) (function? : Option (Callback σ))
  | remove (name? : Option Bytes)

/-- The change that is meant, if every argument can be used. -/
def Edit.meaning? : Edit σ → Option (Context σ → Except Error (Context σ))
  | addVariable name? value? => do
    let name ← text? name?
    let read ← value?
    return fun C => C.add name (.var read)
  | addConstant name? value => do
    let name ← text? name?
    return fun C => C.add name (.const value)
  | addFunction name? function? => do
    let name ← text? name?
    let f ← function?
    return fun C => C.add name (Callback.symbol f)
  | remove name? => do
    let name ← text? name?
    return fun C => C.remove name

/-- Changes the context that a pointer refers to. -/
def edit (context? : Option (Context σ)) (request : Edit σ) : Status × Option (Context σ) :=
  match context?, request.meaning? with
  | some C, some change =>
    match change C with
    | .ok C' => (.success, some C')
    | .error e => (.ofError e, some C)
  | _, _ => (.invalidArgument, context?)

/-! ### Evaluating -/

/-- The buffer with a message and a zero behind it, as much of the message as
there is room for.  Bytes behind the zero stay as they are; a buffer without
any byte stays empty. -/
def writeMessage (message : String) (buffer : Bytes) : Bytes :=
  if buffer.isEmpty then buffer
  else
    let shown := (Bytes.ofString message).take (buffer.length - 1)
    shown ++ 0 :: buffer.drop (shown.length + 1)

/-- What an evaluation reports and leaves in the caller's memory: in the cell for the result
and in the buffer for a message, where there are such. -/
structure Reply where
  status : Status
  result? : Option Float
  buffer? : Option Bytes

/-- Evaluates a formula.  The result goes to its cell and an explanation of a
failure to the buffer; neither is touched otherwise. -/
def evaluate (context? : Option (Context σ)) (formula? : Option Bytes) (result? : Option Float)
    (buffer? : Option Bytes) : StateM σ Reply :=
  let refuse (status : Status) (message : String) : Reply :=
    ⟨status, result?, buffer?.map (writeMessage message)⟩
  match context?, result?, text? formula? with
  | none, _, _ => pure (refuse .invalidArgument "Invalid config pointer!")
  | some _, none, _ => pure (refuse .invalidArgument "Invalid result pointer!")
  | some _, some _, none =>
    pure (refuse .invalidArgument "Failed to convert the expression to a Rust string!")
  | some C, some _, some text => do
    match ← (C.evaluate text).run with
    | .ok x => return ⟨.success, some x, buffer?⟩
    | .error e =>
      return refuse (.ofError e) s!"Failed to evaluate the expression: {e.message}"

end Foreign

end Formula
