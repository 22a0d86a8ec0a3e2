/-
Formula/Context.lean

What a formula is read against: the symbols that its names stand for and
the features of the grammar that are switched on.

A context is changed by adding and removing symbols.  A name is checked
before anything else; a name that is bound stays bound to the same symbol
until it is removed; and a refused change leaves the context as it was,
because a change is a function that returns the new context or an error.
-/
import Std.Data.TreeMap
import Formula.Feature
import Formula.Name
import Formula.Symbol

namespace Formula

/-- Symbols by name, in the order of the bytes, and the enabled features. -/
structure Context (σ : Type) where
  symbols : Std.TreeMap Bytes (Symbol σ)
  features : Features

namespace Context

variable {σ : Type}

/-- The context without symbols. -/
def empty (F : Features) : Context σ := ⟨∅, F⟩

/-! ### Looking up -/

/-- What a name stands for. -/
def find? (C : Context σ) (name : Bytes) : Option (Symbol σ) := C.symbols[name]?

/-- Whether a name is bound. -/
def contains (C : Context σ) (name : Bytes) : Bool := C.symbols.contains name

/-- The bound names, ascending in the order of their bytes. -/
def names (C : Context σ) : List Bytes := C.symbols.keys

/-- Whether a feature is enabled. -/
def allows (C : Context σ) (f : Feature) : Bool := C.features.contains f

/-! ### Changing -/

/-- The context with other features. -/
def withFeatures (C : Context σ) (F : Features) : Context σ := { C with features := F }

/-- The context with a symbol under a valid name that is not bound yet. -/
def add (C : Context σ) (name : Bytes) (s : Symbol σ) : Except Error (Context σ) :=
  if !Name.isValid name then .error .illegalName
  else if C.contains name then .error .alreadyDefined
  else .ok { C with symbols := C.symbols.insert name s }

/-- The context without a name that is bound. -/
def remove (C : Context σ) (name : Bytes) : Except Error (Context σ) :=
  if C.contains name then .ok { C with symbols := C.symbols.erase name }
  else .error .undefinedName

end Context

end Formula
