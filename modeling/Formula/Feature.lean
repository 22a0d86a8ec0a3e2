/-
Formula/Feature.lean

The parts of the grammar that a context may switch on.

A `Feature` is one operator or one syntactic liberty; a set of them,
`Features`, is a word of eleven bits, so that membership, union,
intersection, difference and complement are the bitwise operations and
every word of eleven bits is a set of features and nothing else.  The view
of a set is membership: each operation is described by what it does to
`f ∈ F`, and two sets with the same members are equal (`Features.ext`).
-/

namespace Formula

/-- One operator or syntactic liberty of the grammar.  `identity` and `negation` are the
signs.  With `implicitMultiplication` a literal followed by a name multiplies the two, as
in `2pi`; with `implicitParentheses` unmatched parentheses are opened or closed where that
is needed; with `scientificNotation` a literal may carry an exponent, as in `2.4e-2`. -/
inductive Feature where
  | addition
  | subtraction
  | multiplication
  | division
  | exponentiation
  | modulus
  | identity
  | negation
  | implicitMultiplication
  | implicitParentheses
  | scientificNotation
deriving DecidableEq, Repr, Inhabited

namespace Feature

/-- The place of the feature's bit in a word, least significant first. -/
def index : Feature → Fin 11
  | addition => 0
  | subtraction => 1
  | multiplication => 2
  | division => 3
  | exponentiation => 4
  | modulus => 5
  | identity => 6
  | negation => 7
  | implicitMultiplication => 8
  | implicitParentheses => 9
  | scientificNotation => 10

/-- All features in the order of their bits. -/
def all : List Feature :=
  [addition, subtraction, multiplication, division, exponentiation, modulus,
    identity, negation, implicitMultiplication, implicitParentheses, scientificNotation]

/-- The published name of a feature. -/
def name : Feature → String
  | addition => "ADDITION"
  | subtraction => "SUBTRACTION"
  | multiplication => "MULTIPLICATION"
  | division => "DIVISION"
  | exponentiation => "EXPONENTIATION"
  | modulus => "MODULUS"
  | identity => "IDENTITY"
  | negation => "NEGATION"
  | implicitMultiplication => "IMPLICIT_MULTIPLICATION"
  | implicitParentheses => "IMPLICIT_PARENTHESES"
  | scientificNotation => "SCIENTIFIC_NOTATION"

end Feature

/-- A set of features, one bit each. -/
@[ext] structure Features where
  /-- Bit `f.index` is on exactly when `f` is a member. -/
  bits : BitVec 11
deriving DecidableEq, Repr, Inhabited

namespace Features

/-- Whether `f` is enabled. -/
def contains (F : Features) (f : Feature) : Bool := F.bits.getLsb f.index

instance : Membership Feature Features := ⟨fun F f => F.contains f = true⟩

instance (f : Feature) (F : Features) : Decidable (f ∈ F) :=
  inferInstanceAs (Decidable (F.contains f = true))

/-- The set given by the low eleven bits of a number; higher bits name no
feature and are dropped. -/
def ofNat (n : Nat) : Features := ⟨BitVec.ofNat 11 n⟩

/-- The number whose bits are the members. -/
def toNat (F : Features) : Nat := F.bits.toNat

/-- The set of the listed features. -/
def ofList (fs : List Feature) : Features :=
  ⟨fs.foldl (fun w f => w ||| BitVec.twoPow 11 f.index) 0#11⟩

/-- The members, in the order of their bits. -/
def toList (F : Features) : List Feature := Feature.all.filter F.contains

instance : EmptyCollection Features := ⟨⟨0#11⟩⟩

/-- Every feature. -/
def full : Features := ⟨BitVec.allOnes 11⟩

/-- The common arithmetic: the four basic operations, both signs, implicit
multiplication and scientific notation. -/
def basic : Features :=
  ofList [.addition, .subtraction, .multiplication, .division, .identity, .negation,
    .implicitMultiplication, .scientificNotation]

instance : Union Features := ⟨fun F G => ⟨F.bits ||| G.bits⟩⟩

instance : Inter Features := ⟨fun F G => ⟨F.bits &&& G.bits⟩⟩

instance : SDiff Features := ⟨fun F G => ⟨F.bits &&& ~~~G.bits⟩⟩

instance : XorOp Features := ⟨fun F G => ⟨F.bits ^^^ G.bits⟩⟩

/-- The features that are not members. -/
def complement (F : Features) : Features := ⟨~~~F.bits⟩

/-- Inclusion: every member of `F` is one of `G`. -/
instance : HasSubset Features := ⟨fun F G => ∀ f, f ∈ F → f ∈ G⟩

/-- Whether `F` holds every member of `G`. -/
def includes (F G : Features) : Bool := F.bits &&& G.bits == G.bits

/-- Whether `F` and `G` have a member in common. -/
def meets (F G : Features) : Bool := F.bits &&& G.bits != 0#11

/-- The set `F` with the members of `G` switched on or off. -/
def assign (F G : Features) (on : Bool) : Features := if on then F ∪ G else F \ G

end Features

end Formula
