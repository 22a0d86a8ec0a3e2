/-
Formula/Proofs/Extent.lean

How far a literal goes.

The format of literals is told here without reading.  A mantissa is digits with at
most one point among or around them (`MantissaForm`); behind the marker of an exponent
stand a sign, or none, and digits (`ExponentForm`).  Either of them may lack digits.
Of all the parts at the front of a text that have a form one is the longest
(`Longest`), and that is the one that is read, whatever follows it
(`longest_readMantissa`, `longest_readSign_readDigits`).

So the longest mantissa settles whether there is a literal, since without a digit in
it there is none.  Where a marker comes next and exponents are read, the longest
exponent behind it settles the end: the literal takes it if it has a digit, and goes
back to the mantissa if it has none.  Either way a point behind what has been looked
at refuses the text (`readAt_extent`).
-/
import Formula.Proofs.Exponents

namespace Formula

/-! ### The format -/

/-- Of the parts at the front of a text that have the form `P`, `front` is the
longest; `rest` is the text behind it. -/
structure Longest (P : Bytes → Prop) (text front rest : Bytes) : Prop where
  append : front ++ rest = text
  form : P front
  length_le : ∀ front' rest', front' ++ rest' = text → P front' →
    front'.length ≤ front.length

/-- Whether there is a digit among some bytes. -/
def Bytes.hasDigit (bs : Bytes) : Bool := bs.any Byte.isDigit

namespace Literal

/-- Digits, with at most one point among or around them. -/
inductive MantissaForm : Bytes → Prop
  | digits {ds : Bytes} (hds : ∀ b ∈ ds, Byte.isDigit b = true) : MantissaForm ds
  | point {ds ds' : Bytes} (hds : ∀ b ∈ ds, Byte.isDigit b = true)
      (hds' : ∀ b ∈ ds', Byte.isDigit b = true) : MantissaForm (ds ++ Byte.point :: ds')

/-- Digits, with at most one sign in front of them. -/
inductive ExponentForm : Bytes → Prop
  | unsigned {ds : Bytes} (hds : ∀ b ∈ ds, Byte.isDigit b = true) : ExponentForm ds
  | signed {s : UInt8} {ds : Bytes} (hs : isSign s = true)
      (hds : ∀ b ∈ ds, Byte.isDigit b = true) : ExponentForm (s :: ds)

variable {bs ds rest text : Bytes}

/-! ### Reading takes the longest part -/

theorem isDigit_of_mem_readDigits (bs : Bytes) : ∀ b ∈ (readDigits bs).1, Byte.isDigit b = true :=
  fun _ hb => List.mem_takeWhile_imp hb

/-- No longer run of digits stands at the front. -/
theorem length_le_readDigits (hds : ∀ b ∈ ds, Byte.isDigit b = true) (h : ds ++ rest = bs) :
    ds.length ≤ (readDigits bs).1.length := by
  rw [← h, readDigits, List.takeWhile_append_of_pos hds, List.length_append]
  exact Nat.le_add_right _ _

theorem bytes_readMantissa_of_point (h : (readDigits bs).2 = Byte.point :: rest) :
    (readMantissa bs).1.bytes = (readDigits bs).1 ++ Byte.point :: (readDigits rest).1 := by
  rw [readMantissa_of_point h]
  simp [bytes, mantissaBytes]

theorem bytes_readMantissa_of_no_point (h : ∀ rest, (readDigits bs).2 ≠ Byte.point :: rest) :
    (readMantissa bs).1.bytes = (readDigits bs).1 := by
  rw [readMantissa_of_no_point h]
  simp [bytes, mantissaBytes]

/-- The digits in front of a point are part of the mantissa in any case. -/
theorem length_readDigits_le (bs : Bytes) :
    (readDigits bs).1.length ≤ (readMantissa bs).1.bytes.length := by
  by_cases hpoint : ∃ rest, (readDigits bs).2 = Byte.point :: rest
  · obtain ⟨rest, hrest⟩ := hpoint
    rw [bytes_readMantissa_of_point hrest, List.length_append]
    exact Nat.le_add_right _ _
  · rw [bytes_readMantissa_of_no_point fun rest hrest => hpoint ⟨rest, hrest⟩]

theorem mantissaForm_readMantissa (bs : Bytes) : MantissaForm (readMantissa bs).1.bytes := by
  by_cases hpoint : ∃ rest, (readDigits bs).2 = Byte.point :: rest
  · obtain ⟨rest, hrest⟩ := hpoint
    rw [bytes_readMantissa_of_point hrest]
    exact .point (isDigit_of_mem_readDigits bs) (isDigit_of_mem_readDigits rest)
  · rw [bytes_readMantissa_of_no_point fun rest hrest => hpoint ⟨rest, hrest⟩]
    exact .digits (isDigit_of_mem_readDigits bs)

/-- The mantissa that is read is the longest at the front of the text. -/
theorem longest_readMantissa (text : Bytes) :
    Longest MantissaForm text (readMantissa text).1.bytes (readMantissa text).2 where
  append := readMantissa_append text
  form := mantissaForm_readMantissa text
  length_le := by
    intro front rest happend hform
    cases hform with
    | digits hds =>
      exact Nat.le_trans (length_le_readDigits hds happend) (length_readDigits_le text)
    | @point ds ds' hds hds' =>
      -- the point of `front` is where the digits of the text stop
      rw [List.append_assoc, List.cons_append] at happend
      have hdigits : readDigits text = (ds, Byte.point :: (ds' ++ rest)) := by
        rw [← happend]
        exact readDigits_append_stop hds (by decide) _
      have hpoint : (readDigits text).2 = Byte.point :: (ds' ++ rest) := by
        rw [hdigits]
      have hle := length_le_readDigits hds' (rfl : ds' ++ rest = ds' ++ rest)
      rw [bytes_readMantissa_of_point hpoint, hdigits, List.length_append, List.length_append,
        List.length_cons, List.length_cons]
      exact Nat.add_le_add_left (Nat.succ_le_succ hle) _

theorem readSign_of_isSign {s : UInt8} (hs : isSign s = true) (rest : Bytes) :
    readSign (s :: rest) = (some s, rest) := by
  rw [readSign, if_pos hs]

/-- A digit is no sign. -/
theorem readSign_of_isDigit {d : UInt8} (hd : Byte.isDigit d = true) (rest : Bytes) :
    readSign (d :: rest) = (none, d :: rest) := by
  have hsign : ¬ isSign d = true := by
    intro hs
    rcases Byte.eq_of_isSign hs with rfl | rfl <;> exact absurd hd (by decide)
  rw [readSign, if_neg hsign]

theorem isSign_of_readSign {s : UInt8} (h : (readSign bs).1 = some s) : isSign s = true := by
  unfold readSign at h
  split at h
  · split at h
    · next hs => exact Option.some.inj h ▸ hs
    · exact absurd h nofun
  · exact absurd h nofun

theorem readExponent?_of_isMarker {marker : UInt8} (h : isMarker marker = true) (tail : Bytes) :
    readExponent? (marker :: tail) = some
      (⟨marker, (readSign tail).1, (readDigits (readSign tail).2).1⟩,
        (readDigits (readSign tail).2).2) := by
  rw [readExponent?, if_pos h]

/-- The exponent that is read is the longest behind the marker. -/
theorem longest_readSign_readDigits (tail : Bytes) :
    Longest ExponentForm tail ((readSign tail).1.toList ++ (readDigits (readSign tail).2).1)
      (readDigits (readSign tail).2).2 where
  append := by
    rw [List.append_assoc, readDigits_append, readSign_append]
  form := by
    have hdigits := isDigit_of_mem_readDigits (readSign tail).2
    cases hsign : (readSign tail).1 with
    | none => exact .unsigned hdigits
    | some s => exact .signed (isSign_of_readSign hsign) hdigits
  length_le := by
    intro front rest happend hform
    rw [List.length_append]
    cases hform with
    | unsigned hds =>
      rcases front with - | ⟨d, ds⟩
      · exact Nat.zero_le _
      · -- the text starts with a digit, so there is no sign to skip
        have hsign := readSign_of_isDigit (hds d List.mem_cons_self) (ds ++ rest)
        rw [← happend, List.cons_append, hsign]
        exact Nat.le_trans (length_le_readDigits hds rfl) (Nat.le_add_left _ _)
    | @signed s ds hs hds =>
      rw [← happend, List.cons_append, readSign_of_isSign hs, List.length_cons, Nat.add_comm]
      exact Nat.add_le_add_left (length_le_readDigits hds rfl) 1

/-! ### Digits in the longest part -/

theorem hasDigit_of_isDigit (hds : ∀ b ∈ ds, Byte.isDigit b = true) :
    ds.hasDigit = !ds.isEmpty := by
  rcases ds with - | ⟨d, ds⟩
  · rfl
  · rw [Bytes.hasDigit, List.any_cons, hds d List.mem_cons_self]
    rfl

theorem hasDigit_readMantissa (bs : Bytes) :
    (readMantissa bs).1.bytes.hasDigit = (readMantissa bs).1.hasDigit := by
  have hwhole := hasDigit_of_isDigit (isDigit_of_mem_readDigits bs)
  by_cases hpoint : ∃ rest, (readDigits bs).2 = Byte.point :: rest
  · obtain ⟨rest, hrest⟩ := hpoint
    have hfraction := hasDigit_of_isDigit (isDigit_of_mem_readDigits rest)
    have hpoint : Byte.isDigit Byte.point = false := by decide
    rw [bytes_readMantissa_of_point hrest, readMantissa_of_point hrest]
    unfold Bytes.hasDigit at hwhole hfraction ⊢
    rw [List.any_append, List.any_cons, hwhole, hfraction, hpoint, Bool.false_or, hasDigit,
      Bool.not_and]
    rfl
  · have hnone : ∀ rest, (readDigits bs).2 ≠ Byte.point :: rest :=
      fun rest hrest => hpoint ⟨rest, hrest⟩
    rw [bytes_readMantissa_of_no_point hnone, readMantissa_of_no_point hnone, hwhole]
    simp [hasDigit, fraction]

theorem hasDigit_readSign_readDigits (tail : Bytes) :
    Bytes.hasDigit ((readSign tail).1.toList ++ (readDigits (readSign tail).2).1)
      = !(readDigits (readSign tail).2).1.isEmpty := by
  rw [← hasDigit_of_isDigit (isDigit_of_mem_readDigits _)]
  unfold Bytes.hasDigit readSign
  rw [List.any_append]
  split
  · split
    · next hs =>
      rcases Byte.eq_of_isSign hs with rfl | rfl <;> rfl
    · rfl
  · rfl

/-! ### Where a literal ends -/

section Cases

variable {scientific : Bool} {m : Literal} {marker : UInt8} {tail : Bytes}

theorem read?_of_no_digit (hm : readMantissa text = (m, rest)) (h : m.hasDigit = false) :
    read? scientific text = none := by
  unfold read?
  rw [hm]
  dsimp only
  rw [h]
  rfl

/-- Behind a mantissa a marker starts an exponent, which may turn out to be none. -/
theorem read?_of_marker (hm : readMantissa text = (m, marker :: tail)) (h : m.hasDigit = true)
    (hmarker : isMarker marker = true) :
    read? true text =
      if (readDigits (readSign tail).2).2.head? == some Byte.point then none
      else if (readDigits (readSign tail).2).1.isEmpty then some (m, marker :: tail)
      else some (m.withExponent ⟨marker, (readSign tail).1, (readDigits (readSign tail).2).1⟩,
        (readDigits (readSign tail).2).2) := by
  unfold read?
  rw [hm]
  dsimp only
  rw [h, if_pos rfl, readExponent?_of_isMarker hmarker]
  rfl

/-- Without a marker the mantissa is the literal. -/
theorem read?_of_no_marker (hm : readMantissa text = (m, rest)) (h : m.hasDigit = true)
    (hmarker : ¬ ∃ marker tail, scientific = true ∧ rest = marker :: tail ∧
      isMarker marker = true) :
    read? scientific text = if rest.head? == some Byte.point then none else some (m, rest) := by
  have hnone : (if scientific then readExponent? rest else none) = none := by
    split
    · next hs =>
      unfold readExponent?
      split
      · next marker tail =>
        rw [if_neg fun hm => hmarker ⟨marker, tail, hs, rfl, hm⟩]
      · rfl
    · rfl
  unfold read?
  rw [hm]
  dsimp only
  rw [h, hnone]
  rfl

end Cases

/-- What comes of reading at `start` when the text up to `behind` has been looked at: in
front of a point it is refused, and otherwise it gives the value of the literal that
is written `written` and the position just after it. -/
def Outcome (result : Except Error (Float × Nat)) (start : Nat) (written behind : Bytes) : Prop :=
  if behind.head? = some Byte.point then result = .error .malformed
  else ∃ l : Literal, l.bytes = written ∧ result = .ok (l.value .float, start + written.length)

theorem outcome_readAt {scientific : Bool} {bs behind : Bytes} {start : Nat} {l : Literal}
    (h : read? scientific (bs.drop start)
      = if behind.head? == some Byte.point then none else some (l, rest)) :
    Outcome (readAt scientific bs start) start l.bytes behind := by
  unfold Outcome readAt
  rw [h]
  by_cases hpoint : behind.head? = some Byte.point
  · rw [if_pos hpoint, hpoint]
    rfl
  · have hne : (behind.head? == some Byte.point) = false := by simpa using hpoint
    rw [if_neg hpoint, hne]
    exact ⟨l, rfl, rfl⟩

/-- **The extent of a literal.**  Let `M` be the longest mantissa at a position of a
text.  Without a digit in it the text is refused.  If a marker follows `M`, and exponents
are read, let `X` be the longest exponent behind the marker: the text is refused if a
point follows `X`, and otherwise the literal ends behind `X` or, if `X` has no digit,
behind `M`.  Without a marker the text is refused if a point follows `M`, and otherwise
the literal ends behind `M`. -/
theorem readAt_extent (scientific : Bool) (bs : Bytes) (start : Nat) :
    ∃ M rest, Longest MantissaForm (bs.drop start) M rest ∧
      (M.hasDigit = false → readAt scientific bs start = .error .malformed) ∧
      (M.hasDigit = true →
        (∀ marker tail, scientific = true ∧ rest = marker :: tail ∧ isMarker marker = true →
          ∃ X after, Longest ExponentForm tail X after ∧
            Outcome (readAt scientific bs start) start
              (if X.hasDigit then M ++ marker :: X else M) after) ∧
        ((¬ ∃ marker tail, scientific = true ∧ rest = marker :: tail ∧ isMarker marker = true) →
          Outcome (readAt scientific bs start) start M rest)) := by
  have hM := longest_readMantissa (bs.drop start)
  have hdigit := hasDigit_readMantissa (bs.drop start)
  have hnone := readMantissa_exponent? (bs.drop start)
  rcases hm : readMantissa (bs.drop start) with ⟨m, rest⟩
  rw [hm] at hM hdigit hnone
  refine ⟨m.bytes, rest, hM, fun h => ?_, fun h => ⟨?_, fun hmarker => ?_⟩⟩
  · rw [readAt, read?_of_no_digit hm (hdigit.symm.trans h)]
  · rintro marker tail ⟨rfl, rfl, hmarker⟩
    refine ⟨_, _, longest_readSign_readDigits tail, ?_⟩
    have hread := read?_of_marker hm (hdigit.symm.trans h) hmarker
    rw [hasDigit_readSign_readDigits]
    cases hempty : (readDigits (readSign tail).2).1.isEmpty with
    | true =>
      rw [hempty] at hread
      exact outcome_readAt hread
    | false =>
      -- the literal is written with its exponent
      rw [hempty] at hread
      have houtcome := outcome_readAt hread
      rw [bytes_withExponent hnone] at houtcome
      exact houtcome
  · exact outcome_readAt (read?_of_no_marker hm (hdigit.symm.trans h) hmarker)

end Literal

end Formula
