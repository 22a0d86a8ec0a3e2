/-
Formula/Calculator/Options.lean

The arguments of the calculator.

    calculate [SWITCH | --var NAME=VALUE]... [FORMULA]

Switches, bindings and the formula may come in any order.  An argument that
starts with a minus and is no option is refused, except for a single minus;
behind `--` every argument is a formula, so a formula that starts with a
sign is given there.  A switch may be given once and takes no value.
-/
import Formula.Decimal.Numeral
import Formula.Feature
import Formula.Text.Blank

namespace Formula.Calculator

/-! ### What can be asked for -/

/-- An option without a value.  `exponentiation` and `modulus` enable `^` and `%`, and
`noStandard` leaves out the standard symbols. -/
inductive Switch where
  | exponentiation
  | modulus
  | implicitParentheses
  | noStandard
  | verbose
deriving DecidableEq, Repr

/-- The switch that an argument names. -/
def Switch.ofArgument? : String → Option Switch
  | "--exponentiation" => some exponentiation
  | "--modulus" => some modulus
  | "--implicit-parentheses" => some implicitParentheses
  | "--no-builtins" => some noStandard
  | "--verbose" | "-v" => some verbose
  | _ => none

/-- The feature that a switch enables. -/
def Switch.feature? : Switch → Option Feature
  | exponentiation => some .exponentiation
  | modulus => some .modulus
  | implicitParentheses => some .implicitParentheses
  | noStandard | verbose => none

/-- A variable and its first value.  Nothing has been checked about the name. -/
structure Binding where
  name : String
  value : Float

/-- What the arguments ask for: the bindings in their order, and the switches, the latest
first. -/
structure Options where
  formula? : Option String := none
  bindings : List Binding := []
  switches : List Switch := []

/-- The features that formulas may use. -/
def Options.features (o : Options) : Features :=
  .basic ∪ .ofList (o.switches.filterMap Switch.feature?)

/-- Whether the standard symbols are wanted. -/
def Options.wantsStandard (o : Options) : Bool := !o.switches.contains .noStandard

/-! ### Refusals -/

/-- Why the arguments are refused: an argument that starts with a minus is no option, a
switch is given twice, no binding comes after the option that announces one, a binding
has no `=`, or no number behind it, or there is a second formula. -/
inductive Refusal where
  | unknownOption (argument : String)
  | repeated (argument : String)
  | missingBinding
  | noValue (binding : String)
  | badValue (name : String) (cause : NumeralError)
  | secondFormula (argument : String)
deriving DecidableEq, Repr

/-- The wording of each cause. -/
def Refusal.message : Refusal → String
  | unknownOption argument => s!"unexpected argument '{argument}'"
  | repeated argument => s!"the argument '{argument}' cannot be used multiple times"
  | missingBinding => "a value is required for '--var NAME=VALUE'"
  | noValue binding => s!"expected name=value, got '{binding}'"
  | badValue name cause => s!"invalid value for '{name}': {cause.message}"
  | secondFormula argument => s!"unexpected argument '{argument}'"

/-! ### Reading the arguments -/

/-- The name and the value, both trimmed, that `name = value` gives. -/
def splitAssignment? (cs : List Char) : Option (List Char × List Char) :=
  (Text.splitAt? '=' cs).map fun (name, value) => (Text.trim name, Text.trim value)

/-- The binding that a text writes. -/
def Binding.read (text : String) : Except Refusal Binding :=
  match splitAssignment? text.toList with
  | none => .error (.noValue text)
  | some (name, value) =>
    match Numeral.read value with
    | .ok x => .ok ⟨String.ofList name, x⟩
    | .error cause => .error (.badValue (String.ofList name) cause)

namespace Options

/-- Adds the binding that a text writes. -/
def bind (o : Options) (text : String) : Except Refusal Options := do
  let b ← Binding.read text
  return { o with bindings := o.bindings ++ [b] }

/-- Adds a formula, which has to be the only one. -/
def take (o : Options) (text : String) : Except Refusal Options :=
  if o.formula?.isSome then .error (.secondFormula text) else .ok { o with formula? := some text }

/-- Adds a switch, which has to be new. -/
def turnOn (o : Options) (switch : Switch) (argument : String) : Except Refusal Options :=
  if o.switches.contains switch then .error (.repeated argument)
  else .ok { o with switches := switch :: o.switches }

/-- Whether an argument is meant as an option. -/
def isOption (argument : String) : Bool := argument.startsWith "-" && argument != "-"

/-- Adds what a single argument asks for. -/
def add (o : Options) (argument : String) : Except Refusal Options :=
  match Switch.ofArgument? argument with
  | some switch => o.turnOn switch argument
  | none =>
    if argument.startsWith "--var=" then o.bind (String.ofList (argument.toList.drop 6))
    else if isOption argument then .error (.unknownOption argument)
    else o.take argument

/-- Adds what a list of arguments asks for. -/
def addAll (o : Options) : List String → Except Refusal Options
  | [] => .ok o
  | "--" :: rest => rest.foldlM take o
  | ["--var"] => .error .missingBinding
  | "--var" :: text :: rest =>
    if isOption text then .error .missingBinding else do addAll (← o.bind text) rest
  | argument :: rest => do addAll (← o.add argument) rest

/-- What the arguments ask for, unless they are refused. -/
def read (arguments : List String) : Except Refusal Options := addAll {} arguments

end Options

end Formula.Calculator
