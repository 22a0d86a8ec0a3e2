/-
Formula/Error.lean

Why a formula, a name or a call is refused.

Errors are causes.  Five of them belong to this library; the sixth,
`custom`, carries whatever text a caller's own function chose to fail with
and is passed on unchanged.  The wording shown to people stands in one
place, `Error.message`; `Error.name` is the name that a program knows a
cause by.
-/
import Formula.Text.Quoted

namespace Formula

/-- The cause of a refusal: a name that is no name, one that is bound already, or one that is
not bound; a text that the enabled grammar does not derive; a call with a number of
arguments that its function does not take; or a failure that a caller's function reports
in its own words. -/
inductive Error where
  | illegalName
  | alreadyDefined
  | undefinedName
  | malformed
  | wrongArgumentCount
  | custom (text : String)
deriving DecidableEq, Repr, Inhabited

/-- The wording of each cause. -/
def Error.message : Error → String
  | .illegalName => "illegal name"
  | .alreadyDefined => "name is already defined"
  | .undefinedName => "undefined name"
  | .malformed => "syntax error"
  | .wrongArgumentCount => "incorrect number of arguments"
  | .custom text => text

/-- The published name of each cause. -/
def Error.name : Error → String
  | .illegalName => "IllegalName"
  | .alreadyDefined => "AlreadyDefined"
  | .undefinedName => "Undefined"
  | .malformed => "SyntaxError"
  | .wrongArgumentCount => "IncorrectArgsNum"
  | .custom _ => "Custom"

/-- The name of a cause, with the text that it carries. -/
def Error.describe : Error → String
  | .custom text => s!"Custom({Text.quoted text})"
  | e => e.name

instance : ToString Error := ⟨Error.message⟩

end Formula
