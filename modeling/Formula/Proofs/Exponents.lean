/-
Formula/Proofs/Exponents.lean

Markers that no exponent follows.

A mantissa is read up to the first byte that cannot continue it
(`readMantissa_append_stop`), so a marker behind it is where an exponent is looked
for.  The sign behind the marker is read with it; when no digit comes after
that, the literal goes back to its mantissa, and the marker and its sign are left
for the next word.

There is one exception.  A point behind the marker or its sign is refused like a
point behind a complete literal, although the marker is no part of a literal
there: `2e+x` starts with the literal `2` and the name `e`, and `2e+.5` is refused
(`readAt_of_dangling_marker`).
-/
import Formula.Proofs.Lexing

namespace Formula

/-! ### Mantissas -/

/-- A literal that is a mantissa as it is written: digits with at most one point
among or around them, and at least one digit. -/
structure Literal.IsMantissa (m : Literal) : Prop where
  whole : ∀ b ∈ m.whole, Byte.isDigit b = true
  fraction : ∀ b ∈ m.fraction, Byte.isDigit b = true
  hasDigit : m.hasDigit = true
  exponent? : m.exponent? = none

namespace Byte

variable {b : UInt8}

theorem eq_of_isMarker (h : Literal.isMarker b = true) : b = 101 ∨ b = 69 := by
  rw [Literal.isMarker, Bool.or_eq_true, beq_iff_eq, beq_iff_eq] at h
  exact h

theorem eq_of_isSign (h : Literal.isSign b = true) : b = plus ∨ b = minus := by
  rw [Literal.isSign, Bool.or_eq_true, beq_iff_eq, beq_iff_eq] at h
  exact h

theorem isDigit_of_isMarker (h : Literal.isMarker b = true) : isDigit b = false := by
  rcases eq_of_isMarker h with rfl | rfl <;> decide

theorem ne_point_of_isMarker (h : Literal.isMarker b = true) : b ≠ point := by
  rcases eq_of_isMarker h with rfl | rfl <;> decide

theorem startsName_of_isMarker (h : Literal.isMarker b = true) : startsName b = true := by
  rcases eq_of_isMarker h with rfl | rfl <;> decide

end Byte

namespace Literal

variable {m : Literal} {c marker : UInt8} {bs ds rest : Bytes} {p : UInt8 → Bool}

/-- Digits are read up to a byte that is none. -/
theorem readDigits_append_stop (hds : ∀ b ∈ ds, Byte.isDigit b = true)
    (hc : Byte.isDigit c = false) (rest : Bytes) :
    readDigits (ds ++ c :: rest) = (ds, c :: rest) := by
  have hstop : ¬ Byte.isDigit c = true := by
    rw [hc]
    exact Bool.false_ne_true
  rw [readDigits, List.takeWhile_append_of_pos hds, List.dropWhile_append_of_pos hds,
    List.takeWhile_cons_of_neg hstop, List.dropWhile_cons_of_neg hstop, List.append_nil]

/-- A mantissa is read up to a byte that cannot continue it. -/
theorem readMantissa_append_stop (hm : m.IsMantissa) (hdigit : Byte.isDigit c = false)
    (hpoint : c ≠ Byte.point) (rest : Bytes) :
    readMantissa (m.bytes ++ c :: rest) = (m, c :: rest) := by
  obtain ⟨whole, fraction?, exponent?⟩ := m
  obtain rfl : exponent? = none := hm.exponent?
  cases fraction? with
  | none =>
    have hbytes : bytes ⟨whole, none, none⟩ = whole := by simp [bytes, mantissaBytes]
    have hdigits := readDigits_append_stop hm.whole hdigit rest
    have hnone : ∀ r, (readDigits (whole ++ c :: rest)).2 ≠ Byte.point :: r := by
      -- the digits stop at `c`, which is no point
      intro r h
      rw [hdigits] at h
      exact hpoint (List.cons.inj h).1
    rw [hbytes, readMantissa_of_no_point hnone, hdigits]
  | some fraction =>
    have hbytes : bytes ⟨whole, some fraction, none⟩ ++ c :: rest
        = whole ++ Byte.point :: (fraction ++ c :: rest) := by
      simp [bytes, mantissaBytes]
    have hdigits : readDigits (whole ++ Byte.point :: (fraction ++ c :: rest))
        = (whole, Byte.point :: (fraction ++ c :: rest)) :=
      readDigits_append_stop hm.whole (by decide) _
    have hfraction := readDigits_append_stop hm.fraction hdigit rest
    have hpoint' : (readDigits (whole ++ Byte.point :: (fraction ++ c :: rest))).2
        = Byte.point :: (fraction ++ c :: rest) := by
      rw [hdigits]
    rw [hbytes, readMantissa_of_point hpoint', hdigits]
    exact congrArg (fun x => (Literal.mk whole (some x.1) none, x.2)) hfraction

/-! ### What comes behind a marker -/

/-- The text goes on with a byte of the class `p`, or with a sign and then such a
byte. -/
def ComesNext (p : UInt8 → Bool) (rest : Bytes) : Prop :=
  (∃ b r, rest = b :: r ∧ p b = true) ∨
    ∃ s b r, rest = s :: b :: r ∧ isSign s = true ∧ p b = true

/-- In other words, such a byte is the first behind the sign, if there is one. -/
theorem comesNext_iff (hp : ∀ s, isSign s = true → p s = false) :
    ComesNext p rest ↔ ∃ b r, (readSign rest).2 = b :: r ∧ p b = true := by
  rcases rest with - | ⟨s, rest⟩
  · simp [ComesNext, readSign]
  cases hs : isSign s with
  | false =>
    have hread : (readSign (s :: rest)).2 = s :: rest := by simp [readSign, hs]
    rw [hread]
    constructor
    · rintro (h | ⟨s', b, r, heq, hs', -⟩)
      · exact h
      · rw [(List.cons.inj heq).1, hs'] at hs
        exact absurd hs (by decide)
    · exact .inl
  | true =>
    have hread : (readSign (s :: rest)).2 = rest := by simp [readSign, hs]
    rw [hread]
    constructor
    · rintro (⟨b, r, heq, hb⟩ | ⟨s', b, r, heq, -, hb⟩)
      · rw [← (List.cons.inj heq).1, hp s hs] at hb
        exact absurd hb (by decide)
      · exact ⟨b, r, (List.cons.inj heq).2, hb⟩
    · rintro ⟨b, r, rfl, hb⟩
      exact .inr ⟨s, b, r, rfl, hs, hb⟩

/-- The digits of an exponent come next. -/
abbrev StartsExponent (rest : Bytes) : Prop := ComesNext Byte.isDigit rest

/-- A point comes where the digits of an exponent would. -/
abbrev StartsPoint (rest : Bytes) : Prop := ComesNext (· == Byte.point) rest

/-- Without digits behind it, a marker is read with its sign alone. -/
theorem readExponent?_of_dangling (hmarker : isMarker marker = true)
    (hrest : ¬ StartsExponent rest) : readExponent? (marker :: rest)
      = some (⟨marker, (readSign rest).1, []⟩, (readSign rest).2) := by
  have hdigits : readDigits (readSign rest).2 = ([], (readSign rest).2) := by
    rcases hafter : (readSign rest).2 with - | ⟨b, r⟩
    · rfl
    · have hb : ¬ Byte.isDigit b = true := by
        intro hb
        refine hrest ((comesNext_iff fun s hs => ?_).mpr ⟨b, r, hafter, hb⟩)
        rcases Byte.eq_of_isSign hs with rfl | rfl <;> decide
      rw [readDigits, List.takeWhile_cons_of_neg hb, List.dropWhile_cons_of_neg hb]
  rw [readExponent?, if_pos hmarker]
  dsimp only
  rw [hdigits]

theorem startsPoint_iff : StartsPoint rest ↔ (readSign rest).2.head? = some Byte.point := by
  have hsign : ∀ s, isSign s = true → (s == Byte.point) = false := by
    intro s hs
    rcases Byte.eq_of_isSign hs with rfl | rfl <;> decide
  rw [StartsPoint, comesNext_iff hsign]
  rcases (readSign rest).2 with - | ⟨b, r⟩ <;> simp

/-- Behind a mantissa a dangling marker is left where it stands. -/
theorem read?_of_dangling (hm : m.IsMantissa) (hmarker : isMarker marker = true)
    (hrest : ¬ StartsExponent rest) (hpoint : ¬ StartsPoint rest) :
    read? true (m.bytes ++ marker :: rest) = some (m, marker :: rest) := by
  rw [startsPoint_iff] at hpoint
  rw [read?, readMantissa_append_stop hm (Byte.isDigit_of_isMarker hmarker)
    (Byte.ne_point_of_isMarker hmarker)]
  simp [hm.hasDigit, readExponent?_of_dangling hmarker hrest, hpoint]

/-- A point behind the marker refuses the text. -/
theorem read?_of_startsPoint (hm : m.IsMantissa) (hmarker : isMarker marker = true)
    (hrest : ¬ StartsExponent rest) (hpoint : StartsPoint rest) :
    read? true (m.bytes ++ marker :: rest) = none := by
  rw [startsPoint_iff] at hpoint
  rw [read?, readMantissa_append_stop hm (Byte.isDigit_of_isMarker hmarker)
    (Byte.ne_point_of_isMarker hmarker)]
  simp [hm.hasDigit, readExponent?_of_dangling hmarker hrest, hpoint]

/-- A mantissa starts with a byte that may start a literal. -/
theorem IsMantissa.exists_cons (hm : m.IsMantissa) :
    ∃ b bs, m.bytes = b :: bs ∧ Byte.startsLiteral b = true ∧ b ≠ Byte.blank := by
  have hdigit : ∀ b, Byte.isDigit b = true → Byte.startsLiteral b = true ∧ b ≠ Byte.blank := by
    intro b hb
    refine ⟨by rw [Byte.startsLiteral, hb, Bool.true_or], ?_⟩
    rintro rfl
    exact absurd hb (by decide)
  obtain ⟨whole, fraction?, exponent?⟩ := m
  obtain rfl : exponent? = none := hm.exponent?
  rcases whole with - | ⟨b, whole⟩
  · cases fraction? with
    | none => exact absurd hm.hasDigit (by decide)
    | some fraction => exact ⟨Byte.point, _, rfl, by decide, by decide⟩
  · exact ⟨b, _, rfl, hdigit b (hm.whole b List.mem_cons_self)⟩

/-! ### A dangling marker in a text -/

/-- The words of a text whose first literal is read. -/
theorem lex_of_read? {scientific : Bool} (hm : m.IsMantissa)
    (h : read? scientific (m.bytes ++ rest) = some (m, rest)) :
    lex scientific (m.bytes ++ rest) = .literal m :: lex scientific rest := by
  obtain ⟨b, tail, hbytes, hstarts, hblank⟩ := hm.exists_cons
  rw [hbytes, List.cons_append] at h ⊢
  have hread : Lexeme.read scientific b (tail ++ rest) = (some (.literal m), rest) := by
    rw [Lexeme.read, if_neg hblank, if_pos hstarts, h]
  rw [lex_cons, hread]
  rfl

/-- A marker where a word starts is the start of a name. -/
theorem lex_of_isMarker (scientific : Bool) (hmarker : isMarker marker = true) (rest : Bytes) :
    ∃ opensCall, lex scientific (marker :: rest)
      = .name (marker :: (Name.split rest).1) opensCall :: lex scientific (Name.split rest).2 :=
  lex_of_startsName (Byte.startsName_of_isMarker hmarker) rest

/-- **Dangling markers.**  A marker behind a mantissa that no exponent follows is
left unread: the literal is the mantissa and ends in front of the marker, which is
the start of a name.  Only where a point comes instead of the exponent is the text
refused. -/
theorem readAt_of_dangling_marker {start : Nat} (hm : m.IsMantissa)
    (hmarker : isMarker marker = true) (hrest : ¬ StartsExponent rest)
    (hbs : bs.drop start = m.bytes ++ marker :: rest) :
    (¬ StartsPoint rest →
      readAt true bs start = .ok (m.mantissa .float, start + m.bytes.length) ∧
      ∃ opensCall, lex true (bs.drop start) = .literal m
        :: .name (marker :: (Name.split rest).1) opensCall :: lex true (Name.split rest).2) ∧
    (StartsPoint rest → readAt true bs start = .error .malformed) := by
  constructor
  · intro hpoint
    have hread := read?_of_dangling hm hmarker hrest hpoint
    obtain ⟨opensCall, hname⟩ := lex_of_isMarker true hmarker rest
    refine ⟨?_, opensCall, ?_⟩
    · rw [readAt, hbs, hread]
      simp [value, hm.exponent?]
    · rw [hbs, lex_of_read? hm hread, hname]
  · intro hpoint
    rw [readAt, hbs, read?_of_startsPoint hm hmarker hrest hpoint]

/-- The literal `2`. -/
def two : Literal := ⟨[50], none, none⟩

theorem isMantissa_two : two.IsMantissa where
  whole := List.forall_mem_singleton.mpr (by decide)
  fraction := List.forall_mem_nil _
  hasDigit := rfl
  exponent? := rfl

/-- In `1+2e+x` the literal `2` is read at position 2 and ends at the marker. -/
theorem sample_readAt_of_dangling_marker :
    readAt true (Bytes.ofString "1+2e+x") 2 = .ok (two.mantissa .float, 3) ∧
      ∃ opensCall, lex true ((Bytes.ofString "1+2e+x").drop 2)
        = .literal two :: .name [101] opensCall :: lex true [43, 120] := by
  have hbs : (Bytes.ofString "1+2e+x").drop 2 = two.bytes ++ 101 :: [43, 120] := by
    decide +kernel
  have hrest : ¬ StartsExponent [43, 120] := by
    simp [ComesNext, Byte.isDigit]
  have hpoint : ¬ StartsPoint [43, 120] := by
    rw [startsPoint_iff]
    decide
  exact (readAt_of_dangling_marker isMantissa_two (by decide) hrest hbs).1 hpoint

/-- In `2e+.5` no digit follows the marker or its sign, and nothing is read. -/
theorem not_forall_dangling_marker_left : ¬ ∀ (bs : Bytes) (start : Nat) (m : Literal)
    (marker : UInt8) (rest : Bytes), m.IsMantissa → isMarker marker = true →
      ¬ StartsExponent rest → bs.drop start = m.bytes ++ marker :: rest →
      readAt true bs start = .ok (m.mantissa .float, start + m.bytes.length) := by
  intro hall
  have hrest : ¬ StartsExponent [43, 46, 53] := by
    simp [ComesNext, Byte.isDigit]
  have hbs : (Bytes.ofString "2e+.5").drop 0 = two.bytes ++ 101 :: [43, 46, 53] := by
    decide +kernel
  have hok := hall _ 0 two 101 [43, 46, 53] isMantissa_two (by decide) hrest hbs
  have hnone : read? true ((Bytes.ofString "2e+.5").drop 0) = none := by
    decide +kernel
  rw [readAt, hnone] at hok
  cases hok

end Literal

end Formula
