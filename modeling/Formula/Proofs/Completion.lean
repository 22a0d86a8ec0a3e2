/-
Formula/Proofs/Completion.lean

Texts with their missing parentheses.

`Bytes.completed` adds to a text as many left parentheses in front as it has
right ones that nothing matches, and as many right ones behind as it has left
ones that stay open.  The words of a completed text are the words of the text
with the added parentheses around them (`lex_completed`), unless a refused
literal takes the rest of the text.

`Context.lenient` is the context with implicit parentheses.  It differs from the
context itself in that feature only, so it has the same words, the same symbols
and the same operators.
-/
import Formula.Proofs.Lexing
import Formula.Scan

namespace Formula

variable {σ : Type}

/-! ### Counting parentheses -/

/-- How far some parentheses are from being balanced: the right ones that no earlier left one
matches, and the left ones that are still open. -/
structure Imbalance where
  unopened : Nat := 0
  unclosed : Nat := 0
deriving DecidableEq, Repr

namespace Imbalance

/-- One more parenthesis. -/
def add (i : Imbalance) : Paren → Imbalance
  | .left => { i with unclosed := i.unclosed + 1 }
  | .right =>
    if i.unclosed = 0 then { i with unopened := i.unopened + 1 }
    else { i with unclosed := i.unclosed - 1 }

theorem add_right_of_eq_zero {i : Imbalance} (h : i.unclosed = 0) :
    i.add .right = ⟨i.unopened + 1, 0⟩ := by
  rw [add, if_pos h, h]

theorem add_right_of_eq_succ {i : Imbalance} {n : Nat} (h : i.unclosed = n + 1) :
    i.add .right = ⟨i.unopened, n⟩ := by
  have hne : i.unclosed ≠ 0 := by
    rw [h]
    exact Nat.succ_ne_zero n
  rw [add, if_neg hne, h]
  rfl

/-- Parentheses one after another. -/
def addAll (i : Imbalance) (ps : List Paren) : Imbalance := ps.foldl add i

theorem addAll_append (i : Imbalance) (ps qs : List Paren) :
    i.addAll (ps ++ qs) = (i.addAll ps).addAll qs :=
  List.foldl_append

/-- What is unopened stays so. -/
theorem unopened_le_addAll (i : Imbalance) (ps : List Paren) :
    i.unopened ≤ (i.addAll ps).unopened := by
  induction ps generalizing i with
  | nil => exact Nat.le_refl _
  | cons p ps ih =>
    have hadd : i.unopened ≤ (i.add p).unopened := by
      cases p with
      | left => exact Nat.le_refl _
      | right =>
        unfold add
        dsimp only
        split
        · exact Nat.le_succ _
        · exact Nat.le_refl _
    exact Nat.le_trans hadd (ih (i.add p))

end Imbalance

/-- The imbalance of a text. -/
def Bytes.imbalance (text : Bytes) : Imbalance := Imbalance.addAll {} text.parens

/-- The imbalance of words. -/
def imbalance (ws : List Lexeme) : Imbalance := Imbalance.addAll {} (parens ws)

/-- A text with its missing parentheses. -/
def Bytes.completed (text : Bytes) : Bytes :=
  List.replicate text.imbalance.unopened Byte.leftParen ++ text
    ++ List.replicate text.imbalance.unclosed Byte.rightParen

theorem imbalance_append (ws ws' : List Lexeme) :
    imbalance (ws ++ ws') = (imbalance ws).addAll (parens ws') := by
  rw [imbalance, parens_append, Imbalance.addAll_append]
  rfl

/-! ### The words of a completed text -/

section Words

variable {scientific : Bool}

theorem lex_replicate_leftParen (k : Nat) (bs : Bytes) :
    lex scientific (List.replicate k Byte.leftParen ++ bs)
      = List.replicate k .leftParen ++ lex scientific bs := by
  induction k with
  | zero => rfl
  | succ k ih =>
    rw [List.replicate_succ, List.replicate_succ, List.cons_append, List.cons_append,
      lex_leftParen, ih]

theorem lex_replicate_rightParen (m : Nat) :
    lex scientific (List.replicate m Byte.rightParen) = List.replicate m .rightParen := by
  induction m with
  | zero => exact lex_nil
  | succ m ih => rw [List.replicate_succ, List.replicate_succ, lex_rightParen, ih]

theorem lex_append_replicate {bs : Bytes} (h : .badLiteral ∉ lex scientific bs) (m : Nat) :
    lex scientific (bs ++ List.replicate m Byte.rightParen)
      = lex scientific bs ++ List.replicate m .rightParen := by
  cases m with
  | zero => rw [List.replicate_zero, List.replicate_zero, List.append_nil, List.append_nil]
  | succ m =>
    rw [List.replicate_succ, lex_append_rightParen, if_neg h, lex_replicate_rightParen]
    rfl

/-- A refused literal takes the parentheses behind the text. -/
theorem lex_append_replicate_of_bad {bs : Bytes} (h : .badLiteral ∈ lex scientific bs) (m : Nat) :
    lex scientific (bs ++ List.replicate m Byte.rightParen) = lex scientific bs := by
  cases m with
  | zero => rw [List.replicate_zero, List.append_nil]
  | succ m => rw [List.replicate_succ, lex_append_rightParen, if_pos h]

/-- Every parenthesis among the words is one of the text. -/
theorem unopened_lex_le (text : Bytes) :
    (imbalance (lex scientific text)).unopened ≤ text.imbalance.unopened := by
  obtain ⟨tail, htail, -⟩ := @parens_lex scientific text
  rw [Bytes.imbalance, htail, Imbalance.addAll_append]
  exact Imbalance.unopened_le_addAll _ tail

theorem imbalance_lex {text : Bytes} (h : .badLiteral ∉ lex scientific text) :
    imbalance (lex scientific text) = text.imbalance := by
  obtain ⟨tail, htail, hnil⟩ := @parens_lex scientific text
  rw [Bytes.imbalance, htail, hnil h, List.append_nil]
  rfl

end Words

/-! ### The context with implicit parentheses -/

namespace Features

theorem contains_union (F G : Features) (f : Feature) :
    (F ∪ G).contains f = (F.contains f || G.contains f) :=
  BitVec.getLsbD_or

theorem contains_ofList_singleton (f g : Feature) : (ofList [f]).contains g = decide (g = f) := by
  cases f <;> cases g <;> rfl

end Features

namespace Context

/-- The context with implicit parentheses added to its features. -/
def lenient (C : Context σ) : Context σ :=
  C.withFeatures (C.features ∪ .ofList [.implicitParentheses])

theorem lenient_find? (C : Context σ) (word : Bytes) : C.lenient.find? word = C.find? word := rfl

theorem lenient_allows (C : Context σ) (f : Feature) :
    C.lenient.allows f = (C.allows f || decide (f = .implicitParentheses)) := by
  show (C.features ∪ Features.ofList [.implicitParentheses]).contains f = _
  rw [Features.contains_union, Features.contains_ofList_singleton]
  rfl

theorem lenient_allows_implicitParentheses (C : Context σ) :
    C.lenient.allows .implicitParentheses = true := by
  rw [lenient_allows, Bool.or_eq_true]
  exact .inr rfl

/-- No other feature is touched. -/
theorem lenient_allows_of_ne (C : Context σ) {f : Feature} (h : f ≠ .implicitParentheses) :
    C.lenient.allows f = C.allows f := by
  rw [lenient_allows, decide_eq_false h, Bool.or_false]

theorem lenient_lex (C : Context σ) (text : Bytes) : C.lenient.lex text = C.lex text := by
  rw [lex, lex, lenient_allows_of_ne C (by decide)]

theorem lenient_binary? (C : Context σ) (last : Kind) (byte : UInt8) :
    Scan.binary? C.lenient last byte = Scan.binary? C last byte := by
  have hallow : ∀ o : BinaryOp, C.lenient.allows o.feature = C.allows o.feature :=
    fun o => lenient_allows_of_ne C (by cases o <;> decide)
  rw [Scan.binary?, Scan.binary?, funext hallow]

theorem lenient_sign? (C : Context σ) (last : Kind) (byte : UInt8) :
    Scan.sign? C.lenient last byte = Scan.sign? C last byte := by
  have hallow : ∀ u : UnaryOp, C.lenient.allows u.feature = C.allows u.feature :=
    fun u => lenient_allows_of_ne C (by cases u <;> decide)
  rw [Scan.sign?, Scan.sign?, funext hallow]

variable {C : Context σ} {text : Bytes}

/-- The words of a completed text. -/
theorem lex_completed (h : .badLiteral ∉ C.lex text) : C.lex text.completed
    = List.replicate text.imbalance.unopened .leftParen ++ C.lex text
      ++ List.replicate text.imbalance.unclosed .rightParen := by
  unfold Bytes.completed lex
  rw [List.append_assoc, lex_replicate_leftParen, lex_append_replicate h, List.append_assoc]

theorem lex_completed_of_bad (h : .badLiteral ∈ C.lex text) : C.lex text.completed
    = List.replicate text.imbalance.unopened .leftParen ++ C.lex text := by
  unfold Bytes.completed lex
  rw [List.append_assoc, lex_replicate_leftParen, lex_append_replicate_of_bad h]

end Context

end Formula
