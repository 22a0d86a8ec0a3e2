/-
Formula/Proofs/Grammar.lean

The grammar of formulas.

    formula   ::=  sign* operand (operator operand)*
    operand   ::=  literal | constant | variable
                |  function '(' [ formula (',' formula)* ] ')'
                |  '(' formula ')'

The parenthesis of a call follows its function immediately.  An operator may
be left out between a literal and a name right after it, and means `*` then.
Signs stand in front of the first operand only and bind more tightly than any
operator.

`Derives` says which words make up which phrase, without a stack and without
an order of reading.  A formula is first a chain of operands, and `Groups`
makes it a tree: the operator that is applied last is the last one among those
that bind least tightly.  Every chain has such a tree (`exists_groups`).

A comma is an operand's end in a call and nowhere else in the grammar, so the
grammar is compared only with texts whose commas stand directly in calls
(`CommasInCalls`).
-/
import Formula.Proofs.Tree
import Formula.Proofs.Waiting

namespace Formula

variable {σ : Type}

/-! ### Chains of operands -/

/-- The tree of a chain, given by its first operand and by the operators with
the operands after them.  The operator that is applied last binds no more tightly than
those before it and less tightly than those after it. -/
inductive Groups : Tree σ → List (BinaryOp × Tree σ) → Tree σ → Prop
  | single (t : Tree σ) : Groups t [] t
  | split {first next l r : Tree σ} {before after : List (BinaryOp × Tree σ)} {o : BinaryOp}
      (hbefore : ∀ p ∈ before, o.precedence ≤ p.1.precedence)
      (hafter : ∀ p ∈ after, o.precedence < p.1.precedence)
      (hl : Groups first before l) (hr : Groups next after r) :
      Groups first (before ++ (o, next) :: after) (.binary o l r)

/-- Among operators there is a last one of those that bind least tightly. -/
theorem exists_split (p : BinaryOp × Tree σ) (rest : List (BinaryOp × Tree σ)) :
    ∃ before q after, p :: rest = before ++ q :: after ∧
      (∀ x ∈ before, q.1.precedence ≤ x.1.precedence) ∧
      ∀ x ∈ after, q.1.precedence < x.1.precedence := by
  induction rest generalizing p with
  | nil => exact ⟨[], p, [], rfl, by simp, by simp⟩
  | cons p' rest ih =>
    obtain ⟨before, q, after, heq, hbefore, hafter⟩ := ih p'
    by_cases hle : q.1.precedence ≤ p.1.precedence
    · refine ⟨p :: before, q, after, by rw [heq]; rfl, ?_, hafter⟩
      intro x hx
      rcases List.mem_cons.mp hx with rfl | hx
      · exact hle
      · exact hbefore x hx
    · -- the first operator binds less tightly than all the others
      have hlt : p.1.precedence < q.1.precedence := Nat.lt_of_not_le hle
      refine ⟨[], p, p' :: rest, rfl, by simp, ?_⟩
      intro x hx
      rw [heq] at hx
      rcases List.mem_append.mp hx with hx | hx
      · exact Nat.lt_of_lt_of_le hlt (hbefore x hx)
      · rcases List.mem_cons.mp hx with rfl | hx
        · exact hlt
        · exact Nat.lt_trans hlt (hafter x hx)

/-- Every chain has a tree. -/
theorem exists_groups (first : Tree σ) (rest : List (BinaryOp × Tree σ)) :
    ∃ t, Groups first rest t := by
  -- both parts of a split are shorter than the chain
  generalize hlen : rest.length = len
  induction len using Nat.strongRecOn generalizing first rest with
  | _ len ih =>
    rcases rest with - | ⟨p, rest⟩
    · exact ⟨first, .single first⟩
    · obtain ⟨before, ⟨o, next⟩, after, heq, hbefore, hafter⟩ := exists_split p rest
      rw [heq] at hlen ⊢
      rw [List.length_append, List.length_cons] at hlen
      obtain ⟨l, hl⟩ := ih before.length (by omega) first before rfl
      obtain ⟨r, hr⟩ := ih after.length (by omega) next after rfl
      exact ⟨.binary o l r, .split hbefore hafter hl hr⟩

/-! ### Phrases -/

/-- What some words may be: an operand, one with signs in front of it, operands with
operators between them, a formula, or the arguments of a call, at least one. -/
inductive Phrase (σ : Type) where
  | operand (t : Tree σ)
  | signed (t : Tree σ)
  | chain (first : Tree σ) (rest : List (BinaryOp × Tree σ))
  | formula (t : Tree σ)
  | arguments (ts : List (Tree σ))

/-- The grammar.  Signs stand only in front of the first operand of a chain, and there need
not be any.  A call may be without arguments.  The `*` between a literal and a name may be
left out, and need not be enabled then. -/
inductive Derives (C : Context σ) : List Lexeme → Phrase σ → Prop
  | literal (l : Literal) : Derives C [.literal l] (.operand (.const (l.value .float)))
  | const {word : Bytes} {opensCall : Bool} {x : Float} (hfind : C.find? word = some (.const x)) :
      Derives C [.name word opensCall] (.operand (.const x))
  | var {word : Bytes} {opensCall : Bool} {read : StateM σ Float}
      (hfind : C.find? word = some (.var read)) :
      Derives C [.name word opensCall] (.operand (.var read))
  | callEmpty {word : Bytes} {f : List Float → Eval σ Float}
      (hfind : C.find? word = some (.fn f)) :
      Derives C [.name word true, .leftParen, .rightParen] (.operand (.call f []))
  | call {word : Bytes} {f : List Float → Eval σ Float} {ws : List Lexeme} {ts : List (Tree σ)}
      (hfind : C.find? word = some (.fn f)) (hargs : Derives C ws (.arguments ts)) :
      Derives C (.name word true :: .leftParen :: (ws ++ [.rightParen])) (.operand (.call f ts))
  | group {ws : List Lexeme} {t : Tree σ} (h : Derives C ws (.formula t)) :
      Derives C (.leftParen :: (ws ++ [.rightParen])) (.operand t)
  | unsigned {ws : List Lexeme} {t : Tree σ} (h : Derives C ws (.operand t)) :
      Derives C ws (.signed t)
  | sign {byte : UInt8} {u : UnaryOp} {ws : List Lexeme} {t : Tree σ}
      (hop : UnaryOp.ofByte? byte = some u) (hallow : C.allows u.feature = true)
      (h : Derives C ws (.signed t)) : Derives C (.other byte :: ws) (.signed (.unary u t))
  | first {ws : List Lexeme} {t : Tree σ} (h : Derives C ws (.signed t)) :
      Derives C ws (.chain t [])
  | operator {byte : UInt8} {o : BinaryOp} {ws ws' : List Lexeme} {first t : Tree σ}
      {rest : List (BinaryOp × Tree σ)} (h : Derives C ws (.chain first rest))
      (hop : BinaryOp.ofByte? byte = some o) (hallow : C.allows o.feature = true)
      (h' : Derives C ws' (.operand t)) :
      Derives C (ws ++ .other byte :: ws') (.chain first (rest ++ [(o, t)]))
  | juxtaposed {l : Literal} {word : Bytes} {opensCall : Bool} {ws ws' : List Lexeme}
      {first t : Tree σ} {rest : List (BinaryOp × Tree σ)}
      (hmul : C.allows .implicitMultiplication = true)
      (h : Derives C (ws ++ [.literal l]) (.chain first rest))
      (h' : Derives C (.name word opensCall :: ws') (.operand t)) :
      Derives C (ws ++ [.literal l] ++ .name word opensCall :: ws')
        (.chain first (rest ++ [(.mul, t)]))
  | formula {ws : List Lexeme} {first t : Tree σ} {rest : List (BinaryOp × Tree σ)}
      (h : Derives C ws (.chain first rest)) (hgroups : Groups first rest t) :
      Derives C ws (.formula t)
  | argument {ws : List Lexeme} {t : Tree σ} (h : Derives C ws (.formula t)) :
      Derives C ws (.arguments [t])
  | comma {ws ws' : List Lexeme} {ts : List (Tree σ)} {t : Tree σ}
      (h : Derives C ws (.arguments ts)) (h' : Derives C ws' (.formula t)) :
      Derives C (ws ++ .comma :: ws') (.arguments (ts ++ [t]))

/-! ### Commas -/

/-- Where some words leave off: whether the last one is a function whose parenthesis comes
next, and the parentheses that are still open, the innermost first. -/
structure Nesting where
  callee : Bool := false
  brackets : List Bracket := []
deriving DecidableEq, Repr

namespace Context

/-- Whether a name stands for a function. -/
def isFunction (C : Context σ) (word : Bytes) : Bool :=
  match C.find? word with
  | some (.fn _) => true
  | _ => false

theorem isFunction_iff {C : Context σ} {word : Bytes} :
    C.isFunction word = true ↔ ∃ f, C.find? word = some (.fn f) := by
  unfold isFunction
  rcases C.find? word with - | ⟨x | read | f⟩ <;> simp

/-- Where one more word leaves off. -/
def nest (C : Context σ) (n : Nesting) : Lexeme → Nesting
  | .name word opensCall => ⟨opensCall && C.isFunction word, n.brackets⟩
  | .leftParen => ⟨false, (if n.callee then .call else .group) :: n.brackets⟩
  | .rightParen => ⟨false, n.brackets.tail⟩
  | _ => ⟨false, n.brackets⟩

/-- Where words leave off. -/
def nesting (C : Context σ) (ws : List Lexeme) : Nesting := ws.foldl C.nest {}

theorem nesting_append_singleton (C : Context σ) (ws : List Lexeme) (w : Lexeme) :
    C.nesting (ws ++ [w]) = C.nest (C.nesting ws) w := List.foldl_append

/-- No comma has the parenthesis of a group as its innermost open one. -/
def CommasInCalls (C : Context σ) (ws : List Lexeme) : Prop :=
  ∀ u v, ws = u ++ .comma :: v → (C.nesting u).brackets.head? ≠ some .group

variable {C : Context σ} {ws : List Lexeme}

theorem CommasInCalls.of_append {ws' : List Lexeme} (h : C.CommasInCalls (ws ++ ws')) :
    C.CommasInCalls ws := by
  intro u v heq
  refine h u (v ++ ws') ?_
  rw [heq, List.append_assoc]
  rfl

/-- The condition, place by place. -/
theorem commasInCalls_iff : C.CommasInCalls ws ↔ ∀ i < ws.length, ws[i]? = some .comma →
    (C.nesting (ws.take i)).brackets.head? ≠ some .group := by
  constructor
  · intro h i _ hi
    obtain ⟨hlt, hget⟩ := List.getElem?_eq_some_iff.mp hi
    refine h (ws.take i) (ws.drop (i + 1)) ?_
    rw [← hget, List.getElem_cons_drop, List.take_append_drop]
  · intro h u v heq
    have hi := h u.length (by rw [heq]; simp) (by rw [heq]; simp)
    rw [heq, List.take_left] at hi
    exact hi

instance (C : Context σ) (ws : List Lexeme) : Decidable (C.CommasInCalls ws) :=
  decidable_of_iff' _ commasInCalls_iff

end Context

end Formula
