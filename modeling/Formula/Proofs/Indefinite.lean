/-
Formula/Proofs/Indefinite.lean

Literals whose value is NaN.

The mantissa of a literal and the power that stands for its exponent are computed apart and
multiplied at the end.  Each of them may leave the range of doubles on its own: a power of ten
is infinite from 309 on and a power of a tenth is zero from 400 on, digits that are all zero
write zero, and enough other digits write infinity.  So `0e400` is zero times infinity, which
is NaN although the digits write zero, and a long number with a large negative exponent is
infinity times zero (`IsIndefinite`).  In all other cases the value is a number
(`isNaN_value_iff`).

The digits behind the point are divided by powers of ten that are infinite themselves from the
309th digit on, so these digits do not count.

The power function is a parameter: only what is known of it at the ends of the range is used
(`IsPower`).
-/
import Formula.Proofs.Denotation
import Formula.Proofs.Naturals

namespace Formula

open Binary64 Float.Model Float.Model.UnpackedFloat

/-! ### Powers -/

/-- What is known of the powers of ten and of a tenth: from 309 on those of ten are infinite,
and from 400 on those of a tenth are zero; before, they are in the range of doubles. -/
structure IsPower (pow : Float → Float → Float) : Prop where
  overflow {x : Float} : 309 ≤ x → pow 10 x = 1.0 / 0.0
  finite {n : Nat} : n ≤ 308 → 0 < pow 10 (Float.ofNat n) ∧ pow 10 (Float.ofNat n) < 1.0 / 0.0
  underflow {x : Float} : 400 ≤ x → pow 0.1 x = 0
  small {n : Nat} :
    n ≤ 399 → 0 ≤ pow 0.1 (Float.ofNat n) ∧ pow 0.1 (Float.ofNat n) < 1.0 / 0.0

/-- Floating point with a power function of choice. -/
def Arithmetic.floatWith (pow : Float → Float → Float) : Arithmetic Float :=
  { Arithmetic.float with pow := pow }

namespace Literal

/-- With the power function of floating point the automaton gives what is read. -/
theorem scanAt_floatWith_pow (scientific : Bool) (bs : Bytes) (start : Nat) :
    scanAt (.floatWith Float.pow) scientific bs start = readAt scientific bs start :=
  scanAt_float scientific bs start

/-! ### Digits -/

section Digits

variable {d : UInt8} {ds : Bytes}

theorem digitValue_lt (hd : Byte.isDigit d = true) : Byte.digitValue d < 10 := by
  simp only [Byte.isDigit, Bool.and_eq_true, decide_eq_true_eq, UInt8.le_iff_toNat_le] at hd
  have h57 : (57 : UInt8).toNat = 57 := rfl
  unfold Byte.digitValue
  omega

theorem digitValue_eq_zero_iff (hd : Byte.isDigit d = true) : Byte.digitValue d = 0 ↔ d = 48 := by
  simp only [Byte.isDigit, Bool.and_eq_true, decide_eq_true_eq, UInt8.le_iff_toNat_le] at hd
  have h48 : (48 : UInt8).toNat = 48 := rfl
  rw [← UInt8.toNat_inj]
  unfold Byte.digitValue
  omega

theorem decimal_append (ds : Bytes) (d : UInt8) :
    Bytes.decimal (ds ++ [d]) = ds.decimal * 10 + Byte.digitValue d := by
  simp [Bytes.decimal, Nat.ofDigits_cons]
  omega

/-- Digits write zero where all of them are zero. -/
theorem decimal_eq_zero_iff (hds : ∀ d ∈ ds, Byte.isDigit d = true) :
    ds.decimal = 0 ↔ ∀ d ∈ ds, d = 48 := by
  induction ds using List.reverseRecOn with
  | nil => simp [Bytes.decimal]
  | append_singleton ds d ih =>
    have hd := hds d (by simp)
    have hds' : ∀ d ∈ ds, Byte.isDigit d = true := fun d hd => hds d (by simp [hd])
    rw [decimal_append, Nat.add_eq_zero_iff, digitValue_eq_zero_iff hd]
    simp [ih hds', or_imp, forall_and]

theorem number_append (ds : Bytes) (d : UInt8) : number .float (ds ++ [d])
    = number .float ds * Float.ofNat 10 + Float.ofNat (Byte.digitValue d) := by
  simp only [number, continueNumber, List.foldl_append, List.foldl_cons, List.foldl_nil]
  rfl

/-- Digits are read exactly while they write a number below `2 ^ 53`. -/
theorem form_number (hds : ∀ d ∈ ds, Byte.isDigit d = true) (hlt : ds.decimal < 2 ^ 53) :
    form (number .float ds) = ofNatural ds.decimal := by
  induction ds using List.reverseRecOn with
  | nil => rfl
  | append_singleton ds d ih =>
    have hd := digitValue_lt (hds d (by simp))
    rw [decimal_append] at hlt ⊢
    have hform := ih (fun d hd => hds d (by simp [hd])) (by omega)
    rw [number_append]
    refine form_add_natural ?_ (form_ofNat (by omega)) hlt
    rcases Nat.eq_zero_or_pos (Bytes.decimal ds) with hzero | hpos
    · rw [hzero] at hform ⊢
      rw [form_mul, hform, form_ten]
      rfl
    · exact form_mul_natural hform (form_ofNat (by decide)) (by omega) hpos (by decide)

theorem number_eq_ofNat (hds : ∀ d ∈ ds, Byte.isDigit d = true) (hlt : ds.decimal < 2 ^ 53) :
    number .float ds = Float.ofNat ds.decimal :=
  form_injective ((form_number hds hlt).trans (form_ofNat hlt).symm)

/-- Larger numbers are read as large ones. -/
theorem atLeast_number (hds : ∀ d ∈ ds, Byte.isDigit d = true) (hle : 2 ^ 53 ≤ ds.decimal) :
    AtLeast 49 (form (number .float ds)) := by
  induction ds using List.reverseRecOn with
  | nil => simp [Bytes.decimal] at hle
  | append_singleton ds d ih =>
    have hd := digitValue_lt (hds d (by simp))
    have hds' : ∀ d ∈ ds, Byte.isDigit d = true := fun d hd => hds d (by simp [hd])
    rw [decimal_append] at hle
    -- one digit less may be read exactly still
    have hleast : AtLeast 49 (form (number .float ds)) := by
      by_cases hlt : Bytes.decimal ds < 2 ^ 53
      · rw [form_number hds' hlt]
        exact atLeast_ofNatural (k := 49) (by omega)
      · exact ih hds' (by omega)
    have hten := (hleast.mul_ten (by decide)).mono (show (49 : Int) ≤ 49 + 3 by decide)
    have hdigit : IsNonneg (form (Float.ofNat (Byte.digitValue d))) :=
      form_ofNat (show Byte.digitValue d < 2 ^ 53 by omega) ▸ isNonneg_ofNatural _
    rw [number_append]
    exact AtLeast.add (by decide) hten.isNonneg hdigit (.inl hten)

/-- Digits are read as zero where all of them are zero, and as a positive number otherwise. -/
theorem number_spec (hds : ∀ d ∈ ds, Byte.isDigit d = true) :
    IsNonneg (form (number .float ds)) ∧
      (form (number .float ds) = .zero .positive ↔ ∀ d ∈ ds, d = 48) := by
  rw [← decimal_eq_zero_iff hds]
  by_cases hlt : Bytes.decimal ds < 2 ^ 53
  · rw [form_number hds hlt]
    refine ⟨isNonneg_ofNatural _, fun h => ?_, fun h => by rw [h]; rfl⟩
    by_contra hne
    exact (atLeast_ofNatural (k := 0) (Nat.pos_of_ne_zero hne)).ne_zero _ h
  · have hleast := atLeast_number hds (by omega)
    exact ⟨hleast.isNonneg, fun h => absurd h (hleast.ne_zero _), fun h => by omega⟩

/-- A bound below `2 ^ 49` that digits reach is reached by the number that they are read as. -/
theorem ofNat_le_number {n : Nat} (hds : ∀ d ∈ ds, Byte.isDigit d = true) (hn : 0 < n)
    (hlt : n < 2 ^ 49) (hle : n ≤ ds.decimal) : Float.ofNat n ≤ number .float ds := by
  have hform := form_ofNat (hlt.trans (by decide))
  by_cases hsmall : ds.decimal < 2 ^ 53
  · exact le_of_natural hform (form_number hds hsmall) hle
  · refine le_of_atLeast hform hn ?_ (atLeast_number hds (by omega))
    exact_mod_cast (Nat.log2_lt hn.ne').mpr hlt

end Digits

/-! ### Fractions -/

section Fractions

variable {x y : Float} {d : UInt8} {ds : Bytes} {i : Nat}

/-- The power of ten that the digit at a place behind the point is divided by. -/
def place : Nat → Float
  | 0 => Float.ofNat 10
  | i + 1 => place i * Float.ofNat 10

theorem infinity_mul_ten (hx : form x = .infinity .positive) :
    form (x * Float.ofNat 10) = .infinity .positive :=
  form_mul_of_eq (.infinity _) (by rw [hx, form_ten]; rfl)

theorem atLeast_place (i : Nat) : AtLeast 0 (form (place i)) := by
  induction i with
  | zero => exact atLeast_ofNatural (k := 0) (n := 10) (by decide)
  | succ i ih => exact (ih.mul_ten (by decide)).mono (by decide)

/-- Once infinite, the places stay so. -/
theorem place_infinite_of_le {j : Nat} (hi : form (place i) = .infinity .positive) (hij : i ≤ j) :
    form (place j) = .infinity .positive := by
  induction hij with
  | refl => exact hi
  | step _ ih => exact infinity_mul_ten ih

/-- The first 308 places are finite and the others infinite. -/
theorem form_place (i : Nat) :
    (i < 308 ∧ ∃ m e h, form (place i) = .finite .positive m e h) ∨
    (308 ≤ i ∧ form (place i) = .infinity .positive) := by
  by_cases hi : i < 308
  · -- an infinite place would make the later ones infinite, but the last of them is not
    have hlast : place 307 ≠ 1.0 / 0.0 := by decide +kernel
    have hleast := atLeast_place i
    generalize hu : form (place i) = u at hleast
    cases hleast with
    | infinity => exact absurd (eq_infinity_iff.mpr (place_infinite_of_le hu (by omega))) hlast
    | finite _ => exact .inl ⟨hi, _, _, _, rfl⟩
  · have hfirst : place 308 = 1.0 / 0.0 := by decide +kernel
    exact .inr ⟨by omega, place_infinite_of_le (eq_infinity_iff.mp hfirst) (by omega)⟩

/-- What a digit behind the point adds: nothing where the digit is zero or the place
infinite. -/
theorem share_spec (hd : Byte.isDigit d = true) (i : Nat) :
    IsNonneg (form (Float.ofNat (Byte.digitValue d) / place i)) ∧
      (form (Float.ofNat (Byte.digitValue d) / place i) = .zero .positive ↔ d = 48 ∨ 308 ≤ i) := by
  have hlt := digitValue_lt hd
  have hform := form_ofNat (show Byte.digitValue d < 2 ^ 53 by omega)
  rw [← digitValue_eq_zero_iff hd]
  rcases Nat.eq_zero_or_pos (Byte.digitValue d) with hzero | hpos
  · have hshare := zero_div_of_pos (hform.trans (by rw [hzero]; rfl)) (atLeast_place i)
    exact ⟨hshare ▸ .zero, iff_of_true hshare (.inl hzero)⟩
  have hone : (0 : Int) ≤ (Byte.digitValue d * 2 ^ (52 - (Byte.digitValue d).log2)).log2
      + ((Byte.digitValue d).log2 - 52) := by
    have hlog := log2_shiftLeft hpos (52 - (Byte.digitValue d).log2)
    rw [Nat.shiftLeft_eq] at hlog
    omega
  rw [ofNatural_of_pos hpos] at hform
  rcases form_place i with ⟨hi, m, e, h, hplace⟩ | ⟨hi, hplace⟩
  · have hshare := div_of_finite hform hone hplace
    exact ⟨hshare.isNonneg, fun h => absurd h (hshare.ne_zero _), fun h => by omega⟩
  · have hshare := div_infinity_of_finite hform hplace
    exact ⟨hshare ▸ .zero, iff_of_true hshare (.inr hi)⟩

/-- Behind the point, too, a number is zero where all digits are, up to the place from which
they do not count any more. -/
theorem addFraction_spec (hds : ∀ d ∈ ds, Byte.isDigit d = true) (hx : IsNonneg (form x)) :
    IsNonneg (form (addFraction .float x (place i) ds)) ∧
      (form (addFraction .float x (place i) ds) = .zero .positive ↔
        form x = .zero .positive ∧ ∀ d ∈ ds.take (308 - i), d = 48) := by
  induction ds generalizing x i with
  | nil => exact ⟨hx, by simp [addFraction]⟩
  | cons d ds ih =>
    have hstep : addFraction .float x (place i) (d :: ds)
        = addFraction .float (x + Float.ofNat (Byte.digitValue d) / place i) (place (i + 1)) ds :=
      rfl
    obtain ⟨hshare, hzero⟩ := share_spec (hds d (by simp)) i
    obtain ⟨hnonneg, hiff⟩ :=
      ih (i := i + 1) (fun d hd => hds d (by simp [hd])) (hx.add hshare)
    rw [hstep, hiff, add_eq_zero_iff hx hshare, hzero, and_assoc]
    refine ⟨hnonneg, and_congr_right fun _ => ?_⟩
    by_cases hi : 308 ≤ i
    · simp [show 308 - i = 0 by omega, show 308 - (i + 1) = 0 by omega, hi]
    · rw [show 308 - i = 308 - (i + 1) + 1 by omega, List.take_succ_cons, List.forall_mem_cons]
      simp [hi]

/-- A mantissa is zero where the digits before the point and the first 308 digits behind it
are. -/
theorem mantissa_spec {scientific : Bool} {l : Literal} (hl : l.IsWritten scientific) :
    IsNonneg (form (l.mantissa .float)) ∧
      (form (l.mantissa .float) = .zero .positive ↔
        ∀ d ∈ l.whole ++ l.fraction.take 308, d = 48) := by
  obtain ⟨hwhole, hzero⟩ := number_spec hl.whole
  obtain ⟨hnonneg, hiff⟩ := addFraction_spec (i := 0) hl.fraction hwhole
  rw [hzero] at hiff
  exact ⟨hnonneg, hiff.trans (by simp [or_imp, forall_and])⟩

end Fractions

/-! ### Values -/

section Values

variable {pow : Float → Float → Float} {scientific : Bool} {l : Literal} {x : Exponent}

/-- A literal whose value is indefinite: its mantissa and the power that stands for its exponent
meet at the two ends of the range of doubles.  Either the mantissa is read as zero and the
power of ten is infinite, or the mantissa is read as infinite and the power of a tenth is
zero. -/
inductive IsIndefinite (pow : Float → Float → Float) (l : Literal) : Prop
  | zero {x : Exponent} (hx : l.exponent? = some x) (hsign : x.isNegative = false)
      (hlarge : 309 ≤ x.digits.decimal)
      (hdigits : ∀ d ∈ l.whole ++ l.fraction.take 308, d = 48) : IsIndefinite pow l
  | infinity {x : Exponent} (hx : l.exponent? = some x) (hsign : x.isNegative = true)
      (hmantissa : l.mantissa .float = 1.0 / 0.0)
      (hfactor : pow 0.1 (number .float x.digits) == 0) : IsIndefinite pow l

/-- The power that stands for a positive exponent. -/
theorem factor_of_pos (hpow : IsPower pow) (hx : x.IsWritten) :
    (309 ≤ x.digits.decimal ∧ form (pow 10 (number .float x.digits)) = .infinity .positive) ∨
    (x.digits.decimal ≤ 308 ∧
      ∃ m e h, form (pow 10 (number .float x.digits)) = .finite .positive m e h) := by
  by_cases hlarge : 309 ≤ x.digits.decimal
  · have hle : (309 : Float) ≤ number .float x.digits :=
      ofNat_le_number hx.digits (by decide) (by decide) hlarge
    exact .inl ⟨hlarge, eq_infinity_iff.mp (hpow.overflow hle)⟩
  · rw [number_eq_ofNat hx.digits (by omega)]
    exact .inr ⟨by omega, exists_form_eq_finite (hpow.finite (by omega))⟩

/-- The power that stands for a negative exponent. -/
theorem factor_of_neg (hpow : IsPower pow) (hx : x.IsWritten) :
    (∃ s, form (pow 0.1 (number .float x.digits)) = .zero s) ∨
      ∃ m e h, form (pow 0.1 (number .float x.digits)) = .finite .positive m e h := by
  by_cases hlarge : 400 ≤ x.digits.decimal
  · have hle : (400 : Float) ≤ number .float x.digits :=
      ofNat_le_number hx.digits (by decide) (by decide) hlarge
    exact .inl ⟨.positive, by rw [hpow.underflow hle]; rfl⟩
  · rw [number_eq_ofNat hx.digits (by omega)]
    exact form_eq_zero_or_finite (hpow.small (by omega))

/-- Only exponents need a power. -/
theorem mantissa_floatWith (l : Literal) : l.mantissa (.floatWith pow) = l.mantissa .float := by
  have haddFraction (v p : Float) (ds : Bytes) :
      addFraction (.floatWith pow) v p ds = addFraction .float v p ds := by
    induction ds generalizing v p with
    | nil => rfl
    | cons d ds ih => exact ih ..
  exact haddFraction ..

theorem value_of_exponent (hx : l.exponent? = some x) : l.value (.floatWith pow)
    = l.mantissa .float * pow (if x.isNegative then 0.1 else 10) (number .float x.digits) := by
  rw [value, hx]
  change l.mantissa (.floatWith pow) * _ = _
  rw [mantissa_floatWith]
  rfl

/-- With a positive exponent the value is NaN where zero meets an infinite power. -/
theorem isNaN_value_of_pos (hpow : IsPower pow) (hl : l.IsWritten scientific)
    (hx : l.exponent? = some x) (hsign : x.isNegative = false) :
    (l.value (.floatWith pow)).isNaN = true ↔
      309 ≤ x.digits.decimal ∧ ∀ d ∈ l.whole ++ l.fraction.take 308, d = 48 := by
  obtain ⟨hnonneg, hzero⟩ := mantissa_spec hl
  rw [value_of_exponent hx, hsign, ← hzero]
  simp only [Bool.false_eq_true, if_false]
  rcases factor_of_pos hpow (hl.exponent? x hx).2 with ⟨hlarge, hinf⟩ | ⟨hsmall, m, e, h, hfin⟩
  · rw [isNaN_mul_iff hnonneg (.inr (hinf ▸ .infinity)), hinf]
    simp [hlarge]
  · rw [isNaN_mul_iff hnonneg (.inr (atLeast_of_finite hfin)), hfin]
    simp [show ¬ 309 ≤ Bytes.decimal x.digits by omega]

/-- With a negative exponent the value is NaN where an infinite mantissa meets a power that is
zero. -/
theorem isNaN_value_of_neg (hpow : IsPower pow) (hl : l.IsWritten scientific)
    (hx : l.exponent? = some x) (hsign : x.isNegative = true) :
    (l.value (.floatWith pow)).isNaN = true ↔
      l.mantissa .float = 1.0 / 0.0 ∧ (pow 0.1 (number .float x.digits) == 0) = true := by
  obtain ⟨hnonneg, -⟩ := mantissa_spec hl
  rw [value_of_exponent hx, hsign, eq_infinity_iff, beq_zero_iff]
  simp only [if_true]
  have hfactor := factor_of_neg hpow (hl.exponent? x hx).2
  rw [isNaN_mul_iff hnonneg (hfactor.imp_right fun ⟨_, _, _, hfin⟩ => atLeast_of_finite hfin)]
  -- powers of a tenth are not infinite, so zero does not meet infinity here
  refine or_iff_right fun ⟨_, hinf⟩ => ?_
  rcases hfactor with ⟨s, hs⟩ | ⟨m, e, h, hfin⟩
  · exact absurd (hinf.symm.trans hs) nofun
  · exact absurd (hinf.symm.trans hfin) nofun

/-- A value is NaN exactly where it is indefinite. -/
theorem isNaN_value_iff (hpow : IsPower pow) (hl : l.IsWritten scientific) :
    (l.value (.floatWith pow)).isNaN = true ↔ l.IsIndefinite pow := by
  constructor
  · intro hnan
    cases hx : l.exponent? with
    | none =>
      rw [isNaN_iff_form, value, hx] at hnan
      exact absurd ((congrArg form (mantissa_floatWith l)).symm.trans hnan)
        (mantissa_spec hl).1.ne_notANumber
    | some x =>
      cases hsign : x.isNegative with
      | false =>
        obtain ⟨hlarge, hdigits⟩ := (isNaN_value_of_pos hpow hl hx hsign).mp hnan
        exact .zero hx hsign hlarge hdigits
      | true =>
        obtain ⟨hmantissa, hfactor⟩ := (isNaN_value_of_neg hpow hl hx hsign).mp hnan
        exact .infinity hx hsign hmantissa hfactor
  · rintro (⟨hx, hsign, hlarge, hdigits⟩ | ⟨hx, hsign, hmantissa, hfactor⟩)
    · exact (isNaN_value_of_pos hpow hl hx hsign).mpr ⟨hlarge, hdigits⟩
    · exact (isNaN_value_of_neg hpow hl hx hsign).mpr ⟨hmantissa, hfactor⟩

/-- Where all digits of the mantissa are zero the value is, unless it is NaN. -/
theorem value_of_zero_digits (hpow : IsPower pow) (hl : l.IsWritten scientific)
    (hdigits : ∀ d ∈ l.whole ++ l.fraction, d = 48)
    (hnum : ¬ (l.value (.floatWith pow)).isNaN = true) :
    (l.value (.floatWith pow) == 0) = true := by
  have hzero : form (l.mantissa .float) = .zero .positive := by
    refine (mantissa_spec hl).2.mpr fun d hd => hdigits d ?_
    rw [List.mem_append] at hd ⊢
    exact hd.imp_right List.mem_of_mem_take
  rw [beq_zero_iff]
  cases hx : l.exponent? with
  | none =>
    rw [value, hx]
    exact ⟨.positive, (congrArg form (mantissa_floatWith l)).trans hzero⟩
  | some x =>
    have hwritten := (hl.exponent? x hx).2
    rw [value_of_exponent hx] at hnum ⊢
    refine zero_mul_of_finite hzero ?_
    cases hsign : x.isNegative with
    | false =>
      rw [hsign] at hnum
      rcases factor_of_pos hpow hwritten with ⟨-, hinf⟩ | ⟨-, hfin⟩
      · -- zero times infinity is the NaN that is excluded
        refine absurd ?_ hnum
        rw [isNaN_mul_iff (hzero ▸ .zero) (.inr (hinf ▸ .infinity))]
        exact .inl ⟨hzero, hinf⟩
      · exact .inr hfin
    | true => exact factor_of_neg hpow hwritten

/-- **When a literal is NaN.**  Whatever the automaton reads at a position of a text is NaN
exactly where the literal is indefinite: where its digits are zero and its exponent makes the
power infinite, or the other way round.  A literal whose digits are all zero has the value zero
wherever it is not NaN. -/
theorem isNaN_scanAt_iff (hpow : IsPower pow) {bs : Bytes} {start stop : Nat} {v : Float}
    (h : scanAt (.floatWith pow) scientific bs start = .ok (v, stop)) :
    ∃ l : Literal, l.IsWritten scientific ∧ (bs.take stop).drop start = l.bytes ∧
      (v.isNaN = true ↔ l.IsIndefinite pow) ∧
      ((∀ d ∈ l.whole ++ l.fraction, d = 48) → ¬ v.isNaN = true → (v == 0) = true) := by
  rw [scanAt_eq] at h
  cases hread : read? scientific (bs.drop start) with
  | none =>
    rw [hread] at h
    exact absurd h nofun
  | some found =>
    obtain ⟨l, rest⟩ := found
    rw [hread] at h
    obtain ⟨rfl, rfl⟩ := Prod.mk.inj (Except.ok.inj h)
    have hl := isWritten_of_read? hread
    have hslice : (bs.take (start + l.bytes.length)).drop start = l.bytes := by
      rw [List.drop_take, Nat.add_sub_cancel_left, ← (read?_append hread).1, List.take_left]
    exact ⟨l, hl, hslice, isNaN_value_iff hpow hl, value_of_zero_digits hpow hl⟩

end Values

/-- A power function that is right where the powers leave the range of doubles and coarse
before. -/
def coarsePow (b x : Float) : Float :=
  if b == 10 then if 309 ≤ x then 1.0 / 0.0 else 1
  else if 400 ≤ x then 0 else 1

theorem isPower_coarsePow : IsPower coarsePow := by
  have hten : ((10 : Float) == 10) = true := by decide +kernel
  have htenth : ((0.1 : Float) == 10) = false := by decide +kernel
  have hone : (0 : Float) < 1 ∧ (0 : Float) ≤ 1 ∧ (1 : Float) < 1.0 / 0.0 := by decide +kernel
  have hbelow {n b : Nat} (hn : n ≤ b) (hb : b < 2 ^ 53) (c : Float) (hc : ¬ c ≤ Float.ofNat b) :
      ¬ c ≤ Float.ofNat n := fun h =>
    hc (le_of_le_of_le h (le_of_natural (form_ofNat (hn.trans_lt hb)) (form_ofNat hb) hn))
  refine ⟨fun hx => ?_, fun {n} hn => ?_, fun hx => ?_, fun {n} hn => ?_⟩
  · rw [coarsePow, if_pos hten, if_pos hx]
  · rw [coarsePow, if_pos hten, if_neg (hbelow hn (by decide) _ (by decide +kernel))]
    exact ⟨hone.1, hone.2.2⟩
  · rw [coarsePow, htenth, if_neg nofun, if_pos hx]
  · rw [coarsePow, htenth, if_neg nofun, if_neg (hbelow hn (by decide) _ (by decide +kernel))]
    exact hone.2

/-- The literal `0e400`. -/
def zeroWithHugeExponent : Literal := ⟨[48], none, some ⟨101, none, [52, 48, 48]⟩⟩

theorem scanAt_zeroWithHugeExponent (pow : Float → Float → Float) :
    scanAt (.floatWith pow) true (Bytes.ofString "0e400") 0
      = .ok (zeroWithHugeExponent.value (.floatWith pow), 5) := by
  have hread : read? true ((Bytes.ofString "0e400").drop 0)
      = some (zeroWithHugeExponent, []) := by
    decide +kernel
  rw [scanAt_eq, hread]
  rfl

/-- The literal `0e400` is zero times infinity. -/
theorem sample_isNaN_scanAt_iff : IsPower coarsePow ∧ ∃ v,
    scanAt (.floatWith coarsePow) true (Bytes.ofString "0e400") 0 = .ok (v, 5) ∧
      v.isNaN = true := by
  refine ⟨isPower_coarsePow, _, scanAt_zeroWithHugeExponent coarsePow, ?_⟩
  obtain ⟨l, hl, hbytes, hnan, -⟩ :=
    isNaN_scanAt_iff isPower_coarsePow (scanAt_zeroWithHugeExponent coarsePow)
  have hread : read? true (Bytes.ofString "0e400") = some (zeroWithHugeExponent, []) := by
    decide +kernel
  have hslice : ((Bytes.ofString "0e400").take 5).drop 0 = zeroWithHugeExponent.bytes := by
    decide +kernel
  obtain rfl := hl.eq_of_bytes (isWritten_of_read? hread) (hslice.symm.trans hbytes)
  exact hnan.mpr (.zero rfl rfl (by decide +kernel) (by decide +kernel))

/-- So a literal may be NaN, though all its digits are zero. -/
theorem not_forall_isNaN_eq_false : ¬ ∀ (pow : Float → Float → Float), IsPower pow →
    ∀ (scientific : Bool) (bs : Bytes) (start stop : Nat) (v : Float),
      scanAt (.floatWith pow) scientific bs start = .ok (v, stop) → v.isNaN = false := by
  intro h
  have hnum := h coarsePow isPower_coarsePow _ _ _ _ _ (scanAt_zeroWithHugeExponent coarsePow)
  have hnan : (zeroWithHugeExponent.value (.floatWith coarsePow)).isNaN = true := by
    decide +kernel
  exact absurd (hnum.symm.trans hnan) nofun

end Literal

end Formula
