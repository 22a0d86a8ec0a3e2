/-
Formula/Standard.lean

The standard symbols: two constants, the common functions of one argument
and four functions of any positive number of arguments.

They are added to a context one after the other, in the order of
`Standard.symbols`.  The first name that is taken ends the registration; the
symbols added before it stay.
-/
import Formula.Binary64
import Formula.Context

namespace Formula

namespace Standard

variable {σ : Type}

/-! ### Functions -/

/-- A function of exactly one argument. -/
def unary (f : Float → Float) : Symbol σ :=
  .fn fun
    | [x] => pure (f x)
    | _ => throw .wrongArgumentCount

/-- A function of at least one argument. -/
def variadic (f : List Float → Float) : Symbol σ :=
  .fn fun
    | [] => throw .wrongArgumentCount
    | args => pure (f args)

/-- The least of the arguments that are no NaN, infinity if there is none. -/
def minimum (args : List Float) : Float := args.foldl Binary64.lesser (1.0 / 0.0)

/-- The greatest of the arguments that are no NaN, minus infinity if there is
none. -/
def maximum (args : List Float) : Float := args.foldl Binary64.greater (-1.0 / 0.0)

/-- The sum from left to right.  It starts from the negative zero, which
changes no number that it is added to. -/
def sum (args : List Float) : Float := args.foldl (· + ·) (-0.0)

/-- The arithmetic mean. -/
def mean (args : List Float) : Float := sum args / Float.ofNat args.length

/-! ### The table -/

/-- The ratio of a circle's circumference to its diameter. -/
def pi : Float := Float.ofBits 0x400921FB54442D18

/-- The base of the natural logarithms. -/
def e : Float := Float.ofBits 0x4005BF0A8B145769

/-- The standard symbols with their names, in the order of registration. -/
def symbols : List (String × Symbol σ) :=
  [("pi", .const pi),
    ("e", .const e),
    ("abs", unary Float.abs),
    ("sqrt", unary Float.sqrt),
    ("cbrt", unary Binary64.cubeRoot),
    ("exp", unary Float.exp),
    ("ln", unary Float.log),
    ("log10", unary Float.log10),
    ("log2", unary Float.log2),
    ("sin", unary Float.sin),
    ("cos", unary Float.cos),
    ("tan", unary Float.tan),
    ("asin", unary Float.asin),
    ("acos", unary Float.acos),
    ("atan", unary Float.atan),
    ("floor", unary Float.floor),
    ("ceil", unary Float.ceil),
    ("round", unary Float.round),
    ("trunc", unary Binary64.truncate),
    ("min", variadic minimum),
    ("max", variadic maximum),
    ("sum", variadic sum),
    ("avg", variadic mean)]

end Standard

namespace Context

variable {σ : Type}

/-- Adds symbols in turn up to the first that is refused, and tells whether
all were added. -/
def addAll (C : Context σ) : List (String × Symbol σ) → Context σ × Except Error Unit
  | [] => (C, .ok ())
  | (name, s) :: rest =>
    match C.add (Bytes.ofString name) s with
    | .ok C' => addAll C' rest
    | .error e => (C, .error e)

/-- Adds the standard symbols. -/
def register (C : Context σ) : Context σ × Except Error Unit := C.addAll Standard.symbols

end Context

end Formula
