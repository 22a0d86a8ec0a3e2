/-
Formula/Proofs/Denotation.lean

The number that a literal denotes.

In exact fractions, one tenth being one tenth, the rules for the value of a literal lose
nothing: the digits before the point write a natural number, every digit behind it adds
its share, and the exponent is a power of ten (`value_exact`).  So the automaton, when
its operations are exact, gives the number that the literal denotes, and so does the
automaton on the text that is cut off where the literal ends: what stands behind that
place, a marker and its sign among it, adds nothing (`scanAt_exact`).

What is read is a literal as the format has it (`IsWritten`), so its digits and its
exponent are those that stand in the text.
-/
import Mathlib.Algebra.BigOperators.Field
import Mathlib.Algebra.BigOperators.Fin
import Mathlib.Data.Nat.Digits.Defs
import Mathlib.Tactic.FieldSimp
import Mathlib.Tactic.Ring
import Formula.Proofs.Automaton
import Formula.Proofs.Position

namespace Formula

/-! ### Exact arithmetic -/

/-- Exact fractions.  The exponent of a power is always a whole number, which is its own
numerator. -/
def Arithmetic.exact : Arithmetic ℚ where
  ofNat n := n
  tenth := 1 / 10
  add := (· + ·)
  mul := (· * ·)
  div := (· / ·)
  pow b x := b ^ x.num

/-- The natural number that digits write, the most significant first. -/
def Bytes.decimal (ds : Bytes) : Nat := Nat.ofDigits 10 (ds.reverse.map Byte.digitValue)

/-- The fraction that digits behind a point write. -/
def Bytes.decimalFraction (ds : Bytes) : ℚ :=
  ∑ i : Fin ds.length, (Byte.digitValue ds[i] : ℚ) / 10 ^ (i.val + 1)

namespace Literal

/-- The power of ten that the exponent of a literal stands for. -/
def power (l : Literal) : ℤ :=
  match l.exponent? with
  | none => 0
  | some x => if x.isNegative then -(x.digits.decimal : ℤ) else x.digits.decimal

/-- The number that a literal denotes. -/
def denoted (l : Literal) : ℚ :=
  (l.whole.decimal + Bytes.decimalFraction l.fraction) * 10 ^ l.power

variable {d : UInt8} {ds bs rest : Bytes}

theorem decimal_cons (d : UInt8) (ds : Bytes) :
    Bytes.decimal (d :: ds) = Byte.digitValue d * 10 ^ ds.length + ds.decimal := by
  rw [Bytes.decimal, List.reverse_cons, List.map_append, Nat.ofDigits_append, List.length_map,
    List.length_reverse, List.map_singleton, Nat.ofDigits_singleton, Nat.add_comm, Nat.mul_comm]
  rfl

theorem continueNumber_exact (n : Nat) (ds : Bytes) :
    continueNumber .exact (n : ℚ) ds = ((n * 10 ^ ds.length + ds.decimal : Nat) : ℚ) := by
  -- from the first digit on, so the number so far changes along the way
  induction ds generalizing n with
  | nil => simp [continueNumber, Bytes.decimal]
  | cons d ds ih =>
    have hd : continueNumber .exact (n : ℚ) (d :: ds)
        = continueNumber .exact ((n * 10 + Byte.digitValue d : Nat) : ℚ) ds := by
      push_cast
      rfl
    rw [hd, ih, decimal_cons, List.length_cons]
    push_cast
    ring

theorem number_exact (ds : Bytes) : number .exact ds = (ds.decimal : ℚ) := by
  have h := continueNumber_exact 0 ds
  rwa [Nat.zero_mul, Nat.zero_add] at h

theorem decimalFraction_cons (d : UInt8) (ds : Bytes) :
    Bytes.decimalFraction (d :: ds) = (Byte.digitValue d + Bytes.decimalFraction ds) / 10 := by
  have hsucc : Bytes.decimalFraction (d :: ds)
      = ∑ i : Fin (ds.length + 1), (Byte.digitValue (d :: ds)[i] : ℚ) / 10 ^ (i.val + 1) := rfl
  have hshift (i : Fin ds.length) : (Byte.digitValue ds[i] : ℚ) / 10 ^ (i.val + 1 + 1)
      = (Byte.digitValue ds[i] : ℚ) / 10 ^ (i.val + 1) / 10 := by
    rw [pow_succ (10 : ℚ) (i.val + 1), div_mul_eq_div_div]
  rw [hsucc, Fin.sum_univ_succ, add_div, Bytes.decimalFraction, Finset.sum_div]
  simp only [Fin.val_zero, zero_add, pow_one, Fin.val_succ]
  exact congrArg _ (Finset.sum_congr rfl fun i _ => hshift i)

/-- The digits behind a point, from the place `10 ^ -(k + 1)` on. -/
theorem addFraction_exact (x : ℚ) (k : Nat) (ds : Bytes) :
    addFraction .exact x (10 ^ (k + 1)) ds = x + Bytes.decimalFraction ds / 10 ^ k := by
  induction ds generalizing x k with
  | nil => simp [addFraction, Bytes.decimalFraction]
  | cons d ds ih =>
    -- the next digit stands one place further on
    have hplace : (10 : ℚ) ^ (k + 1) * 10 = 10 ^ (k + 1 + 1) := (pow_succ _ _).symm
    have hd : addFraction .exact x (10 ^ (k + 1)) (d :: ds)
        = addFraction .exact (x + Byte.digitValue d / 10 ^ (k + 1)) (10 ^ (k + 1 + 1)) ds := by
      rw [← hplace]
      rfl
    rw [hd, ih, decimalFraction_cons]
    field_simp
    ring

theorem mantissa_exact (l : Literal) :
    l.mantissa .exact = l.whole.decimal + Bytes.decimalFraction l.fraction := by
  have hten : Arithmetic.exact.ofNat 10 = (10 : ℚ) ^ (0 + 1) := by norm_num [Arithmetic.exact]
  rw [mantissa, number_exact, hten, addFraction_exact, pow_zero, div_one]

/-- A power of ten, or of a tenth, is the power of ten with the sign of the exponent. -/
theorem exponentFactor_exact (x : Exponent) : exponentFactor .exact x
    = 10 ^ (if x.isNegative then -(x.digits.decimal : ℤ) else x.digits.decimal) := by
  have hnum : ((x.digits.decimal : ℚ)).num = x.digits.decimal := Rat.num_natCast _
  rw [exponentFactor, number_exact]
  cases x.isNegative with
  | false =>
    show (10 : ℚ) ^ (x.digits.decimal : ℚ).num = _
    rw [hnum]
    rfl
  | true =>
    show (1 / 10 : ℚ) ^ (x.digits.decimal : ℚ).num = _
    rw [hnum, one_div, inv_zpow']
    rfl

/-- The rules for the value of a literal give the number that it denotes. -/
theorem value_exact (l : Literal) : l.value .exact = l.denoted := by
  rw [value, denoted, power]
  cases l.exponent? with
  | none => rw [mantissa_exact, zpow_zero, mul_one]
  | some x =>
    show l.mantissa .exact * exponentFactor .exact x = _
    rw [mantissa_exact, exponentFactor_exact]

end Literal

/-! ### Literals as they are written -/

/-- An exponent as the format has it: a marker, perhaps a sign, and one digit or more. -/
structure Exponent.IsWritten (x : Exponent) : Prop where
  marker : Literal.isMarker x.marker = true
  sign? : ∀ s, x.sign? = some s → Literal.isSign s = true
  digits : ∀ b ∈ x.digits, Byte.isDigit b = true
  digits_ne_nil : x.digits ≠ []

/-- A literal as the format has it: digits before the point and behind it, at least one in
all, and an exponent only where exponents are enabled. -/
structure Literal.IsWritten (scientific : Bool) (l : Literal) : Prop where
  whole : ∀ b ∈ l.whole, Byte.isDigit b = true
  fraction : ∀ b ∈ l.fraction, Byte.isDigit b = true
  hasDigit : l.hasDigit = true
  exponent? : ∀ x, l.exponent? = some x → scientific = true ∧ x.IsWritten

namespace Literal

variable {scientific : Bool} {m l : Literal} {x : Exponent} {bs ds rest text tail : Bytes}

theorem readSign_toList_append (x : Exponent) (hx : x.IsWritten) :
    readSign (x.sign?.toList ++ x.digits) = (x.sign?, x.digits) := by
  cases hsign : x.sign? with
  | some s => exact readSign_of_isSign (hx.sign? s hsign) x.digits
  | none =>
    obtain ⟨d, ds, hds⟩ := List.exists_cons_of_ne_nil hx.digits_ne_nil
    rw [hds]
    exact readSign_of_isDigit (hx.digits d (hds ▸ List.mem_cons_self)) ds

theorem readDigits_of_isDigit (hds : ∀ b ∈ ds, Byte.isDigit b = true) :
    readDigits ds = (ds, []) :=
  Prod.ext (List.takeWhile_eq_self_iff.mpr hds) (List.dropWhile_eq_nil_iff.mpr hds)

/-- A mantissa is read back. -/
theorem readMantissa_bytes (hm : m.IsMantissa) : readMantissa m.bytes = (m, []) :=
  -- with a blank behind it, which is then cut off
  readMantissa_of_append (v := [Byte.blank])
    (readMantissa_append_stop hm (by decide) (by decide) [])

/-- A literal that is written as the format has it is read back. -/
theorem IsWritten.read?_bytes (hl : l.IsWritten scientific) :
    read? scientific l.bytes = some (l, []) := by
  obtain ⟨whole, fraction?, exponent?⟩ := l
  have hm : IsMantissa ⟨whole, fraction?, none⟩ := ⟨hl.whole, hl.fraction, hl.hasDigit, rfl⟩
  cases exponent? with
  | none =>
    have hmarker : ¬ ∃ marker tail, scientific = true ∧ ([] : Bytes) = marker :: tail ∧
        isMarker marker = true := fun ⟨_, _, _, hnil, _⟩ => absurd hnil nofun
    show read? scientific (bytes ⟨whole, fraction?, none⟩) = _
    rw [read?_of_no_marker (readMantissa_bytes hm) hl.hasDigit hmarker]
    rfl
  | some x =>
    obtain ⟨rfl, hx⟩ := hl.exponent? x rfl
    have hmantissa := readMantissa_append_stop hm (Byte.isDigit_of_isMarker hx.marker)
      (Byte.ne_point_of_isMarker hx.marker) (x.sign?.toList ++ x.digits)
    have hempty : ¬ x.digits.isEmpty = true :=
      fun h => hx.digits_ne_nil (List.isEmpty_iff.mp h)
    have hbytes : bytes ⟨whole, fraction?, some x⟩
        = bytes ⟨whole, fraction?, none⟩ ++ x.marker :: (x.sign?.toList ++ x.digits) :=
      bytes_withExponent hm.exponent? x
    rw [hbytes, read?_of_marker hmantissa hl.hasDigit hx.marker, readSign_toList_append x hx,
      readDigits_of_isDigit hx.digits, if_neg nofun, if_neg hempty]
    rfl

/-- No other literal is written with the same bytes. -/
theorem IsWritten.eq_of_bytes {l' : Literal} (hl : l.IsWritten scientific)
    (hl' : l'.IsWritten scientific) (h : l'.bytes = l.bytes) : l' = l := by
  have hread := hl'.read?_bytes
  rw [h, hl.read?_bytes] at hread
  exact (Prod.mk.inj (Option.some.inj hread)).1.symm

theorem isMantissa_readMantissa (hm : readMantissa text = (m, rest)) (hdigit : m.hasDigit = true) :
    m.IsMantissa := by
  have hnone := readMantissa_exponent? text
  rw [hm] at hnone
  by_cases hpoint : ∃ rest, (readDigits text).2 = Byte.point :: rest
  · obtain ⟨rest', hrest⟩ := hpoint
    rw [readMantissa_of_point hrest] at hm
    obtain ⟨rfl, -⟩ := Prod.mk.inj hm
    exact ⟨isDigit_of_mem_readDigits text, isDigit_of_mem_readDigits rest', hdigit, hnone⟩
  · rw [readMantissa_of_no_point fun rest hrest => hpoint ⟨rest, hrest⟩] at hm
    obtain ⟨rfl, -⟩ := Prod.mk.inj hm
    exact ⟨isDigit_of_mem_readDigits text, List.forall_mem_nil _, hdigit, hnone⟩

theorem IsMantissa.isWritten (hm : m.IsMantissa) : m.IsWritten scientific :=
  ⟨hm.whole, hm.fraction, hm.hasDigit, fun _ hx => absurd (hm.exponent?.symm.trans hx) nofun⟩

/-- An exponent that is read is written as the format has it, if it has a digit. -/
theorem isWritten_of_readExponent? {x : Exponent} (h : readExponent? text = some (x, rest))
    (hne : x.digits ≠ []) : x.IsWritten := by
  obtain ⟨tail, -, hmarker, hsign, hdigits, -⟩ := readExponent?_eq_some h
  refine ⟨hmarker, fun s hs => isSign_of_readSign (hsign.symm.trans hs), ?_, hne⟩
  rw [hdigits]
  exact isDigit_of_mem_readDigits _

/-- What is read is written as the format has it. -/
theorem isWritten_of_read? (h : read? scientific text = some (l, rest)) :
    l.IsWritten scientific := by
  obtain ⟨m, tail, hm, hdigit, hcases⟩ := read?_eq_some h
  have hmantissa := isMantissa_readMantissa hm hdigit
  rcases hcases with ⟨rfl, -⟩ | ⟨hs, x, hx, hne, rfl⟩
  · exact hmantissa.isWritten
  · refine ⟨hmantissa.whole, hmantissa.fraction, hdigit, fun x' hx' => ⟨hs, ?_⟩⟩
    obtain rfl := Option.some.inj hx'
    exact isWritten_of_readExponent? hx hne

/-- **A literal has the number that it denotes.**  Whatever is read at a position of a
text is the one literal that stands between there and the place where reading ends.  Its
value in floating point is that of the rules, and the same operations on exact fractions
give the number that it denotes.  With the text behind the end cut off nothing changes. -/
theorem scanAt_exact {start stop : Nat} {v : Float}
    (h : readAt scientific bs start = .ok (v, stop)) :
    ∃ l : Literal, l.IsWritten scientific ∧
      (∀ l' : Literal, l'.IsWritten scientific → l'.bytes = l.bytes → l' = l) ∧
      (bs.take stop).drop start = l.bytes ∧ stop = start + l.bytes.length ∧
      v = l.value .float ∧
      scanAt .exact scientific bs start = .ok (l.denoted, stop) ∧
      readAt scientific (bs.take stop) start = .ok (v, stop) ∧
      scanAt .exact scientific (bs.take stop) start = .ok (l.denoted, stop) := by
  unfold readAt at h
  cases hread : read? scientific (bs.drop start) with
  | none =>
    rw [hread] at h
    exact absurd h nofun
  | some found =>
    obtain ⟨l, rest⟩ := found
    rw [hread] at h
    obtain ⟨rfl, rfl⟩ := Prod.mk.inj (Except.ok.inj h)
    have hl := isWritten_of_read? hread
    have hslice : (bs.take (start + l.bytes.length)).drop start = l.bytes := by
      rw [List.drop_take, Nat.add_sub_cancel_left, ← (read?_append hread).1, List.take_left]
    refine ⟨l, hl, fun l' hl' => hl.eq_of_bytes hl', hslice, rfl, rfl, ?_, ?_, ?_⟩
    · rw [scanAt_eq, hread, numberOf, value_exact]
    · rw [readAt, hslice, hl.read?_bytes]
    · rw [scanAt_eq, hslice, hl.read?_bytes, numberOf, value_exact]

/-- The literal `12.5e-3`. -/
def twelveHalfThousandths : Literal := ⟨[49, 50], some [53], some ⟨101, some Byte.minus, [51]⟩⟩

/-- In `1+12.5e-3e+` the literal `12.5e-3`, one eightieth, is read at position 2. -/
theorem sample_scanAt_exact :
    readAt true (Bytes.ofString "1+12.5e-3e+") 2 = .ok (twelveHalfThousandths.value .float, 9) ∧
      scanAt .exact true (Bytes.ofString "1+12.5e-3e+") 2 = .ok (1 / 80, 9) := by
  have hread : read? true ((Bytes.ofString "1+12.5e-3e+").drop 2)
      = some (twelveHalfThousandths, [101, 43]) := by
    decide +kernel
  have hok : readAt true (Bytes.ofString "1+12.5e-3e+") 2
      = .ok (twelveHalfThousandths.value .float, 9) := by
    rw [readAt, hread]
    rfl
  have hslice : ((Bytes.ofString "1+12.5e-3e+").take 9).drop 2 = twelveHalfThousandths.bytes := by
    decide +kernel
  obtain ⟨l, -, hunique, hbytes, -, -, hexact, -⟩ := scanAt_exact hok
  obtain rfl := hunique twelveHalfThousandths (isWritten_of_read? hread)
    (hslice.symm.trans hbytes)
  refine ⟨hok, hexact.trans ?_⟩
  have hwhole : Bytes.decimal [49, 50] = 12 := by decide
  have hfraction : Bytes.decimalFraction [53] = 5 / 10 := by
    rw [decimalFraction_cons, Bytes.decimalFraction]
    exact congrArg (· / 10) (add_zero _)
  have hpower : twelveHalfThousandths.power = -3 := by decide
  have hdenoted : twelveHalfThousandths.denoted = 1 / 80 := by
    show (((Bytes.decimal [49, 50] : Nat) : ℚ) + Bytes.decimalFraction [53]) * 10 ^ _ = _
    rw [hwhole, hfraction, hpower]
    norm_num
  rw [hdenoted]

end Literal

end Formula
