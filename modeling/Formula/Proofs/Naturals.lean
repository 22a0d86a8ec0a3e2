/-
Formula/Proofs/Naturals.lean

Natural numbers as doubles.

A natural number below `2 ^ 53` is a double (`form_ofNat`), and sums and products of natural
numbers are exact as long as they stay below this bound (`form_add_natural`,
`form_mul_natural`).  The reason is that rounding keeps what is a double already
(`roundWithAccuracy_exact`).
-/
import Formula.Proofs.Rounding

namespace Formula.Binary64

open Float.Model Float.Model.UnpackedFloat

/-! ### Exact rounding -/

theorem shiftRight_exact (m n : Nat) :
    (⟨m * 2 ^ n, false, false⟩ : ExtendedMantissa) >>> n = ⟨m, false, false⟩ := by
  induction n generalizing m with
  | zero => simp [HShiftRight.hShiftRight, Nat.repeat]
  | succ n ih =>
    -- the first bits go last
    have hm : m * 2 ^ (n + 1) = m * 2 * 2 ^ n := by rw [Nat.pow_succ]; ac_rfl
    change ((⟨m * 2 ^ (n + 1), false, false⟩ : ExtendedMantissa) >>> n).shiftRightOne = _
    rw [hm, ih]
    simp [ExtendedMantissa.shiftRightOne]

/-- A number that is a double is not changed by rounding. -/
theorem roundWithAccuracy_exact {s : Sign} {m : Nat} {e : Int} (fits : Fits m e) (n : Nat) :
    roundWithAccuracy .binary64 s (m * 2 ^ n) (e - n) .exact = .finite s m e fits.pos := by
  have hlog : (m * 2 ^ n).log2 = m.log2 + n := by
    rw [← Nat.shiftLeft_eq, log2_shiftLeft fits.pos]
  have htarget : targetOf m e = e := by
    have := fits.le_log2
    have := fits.log2_le
    have := fits.min
    unfold targetOf
    omega
  have htarget' : targetOf (m * 2 ^ n) (e - n) = e := by
    unfold targetOf at htarget ⊢
    omega
  have hn : (e - (e - (n : Int))).toNat = n := by omega
  have hround : (⟨m, false, false⟩ : ExtendedMantissa).roundedMantissa = m := rfl
  obtain ⟨hkeep, -⟩ := shiftToTargetExponent_rounded (r := m) fits.min
  obtain ⟨hm, he⟩ := hkeep fits.lt
  simp only [roundWithAccuracy]
  have hfirst : shiftToTargetExponent .binary64 (m * 2 ^ n) (e - n) .exact
      = (⟨m, false, false⟩, e) := by
    simp only [shiftToTargetExponent, shiftToExponent, targetExponent_eq, htarget', hn,
      ExtendedMantissa.ofMantissaAndAccuracy, shiftRight_exact, Int.sub_add_cancel]
  simp only [hfirst, hround, hm, he, dif_neg fits.pos.ne']

/-! ### Natural numbers -/

/-- The form of a natural number below `2 ^ 53`. -/
def ofNatural (n : Nat) : UnpackedFloat :=
  if h : n = 0 then .zero .positive
  else .finite .positive (n * 2 ^ (52 - n.log2)) (n.log2 - 52) (by positivity)

theorem ofNatural_of_pos {n : Nat} (hn : 0 < n) : ofNatural n
    = .finite .positive (n * 2 ^ (52 - n.log2)) (n.log2 - 52) (by positivity) :=
  dif_neg hn.ne'

theorem fits_natural {n : Nat} (hn : 0 < n) (hlt : n < 2 ^ 53) :
    Fits (n * 2 ^ (52 - n.log2)) (n.log2 - 52) := by
  have hlog : n.log2 ≤ 52 := Nat.le_of_lt_succ ((Nat.log2_lt hn.ne').mpr hlt)
  refine ⟨by positivity, ?_, by omega, .inl ?_⟩
  · calc n * 2 ^ (52 - n.log2) < 2 ^ (n.log2 + 1) * 2 ^ (52 - n.log2) :=
          Nat.mul_lt_mul_of_pos_right Nat.lt_log2_self (by positivity)
      _ = 2 ^ 53 := by rw [← Nat.pow_add]; congr 1; omega
  · calc 2 ^ 52 = 2 ^ n.log2 * 2 ^ (52 - n.log2) := by rw [← Nat.pow_add]; congr 1; omega
      _ ≤ n * 2 ^ (52 - n.log2) := Nat.mul_le_mul_right _ (Nat.log2_self_le hn.ne')

/-- A natural number that is rounded and made a double. -/
theorem unpack_pack_natural {n j : Nat} (hn : 0 < n) (hlt : n < 2 ^ 53) (hj : 52 ≤ n.log2 + j) :
    UnpackedFloat.unpack .binary64 (UnpackedFloat.pack .binary64
      (roundWithAccuracy .binary64 .positive (n * 2 ^ j) (-j) .exact)) = ofNatural n := by
  have fits := fits_natural hn hlt
  have hlog : n.log2 ≤ 52 := Nat.le_of_lt_succ ((Nat.log2_lt hn.ne').mpr hlt)
  obtain ⟨i, hi⟩ : ∃ i, j = 52 - n.log2 + i := ⟨j - (52 - n.log2), by omega⟩
  have hm : n * 2 ^ j = n * 2 ^ (52 - n.log2) * 2 ^ i := by rw [hi, Nat.pow_add]; ac_rfl
  have he : (-j : Int) = (n.log2 : Int) - 52 - i := by omega
  rw [hm, he, roundWithAccuracy_exact fits, unpack_pack_of_fits fits (by omega),
    ofNatural_of_pos hn]

theorem unpack_pack_normalize_natural {n : Nat} (hn : 0 < n) (hlt : n < 2 ^ 53) (j : Nat) :
    UnpackedFloat.unpack .binary64 (UnpackedFloat.pack .binary64
      (UnpackedFloat.normalize .binary64 ((n * 2 ^ j : Nat) : Int) (-j) .positive))
        = ofNatural n := by
  have hpos : 0 < n * 2 ^ j := by positivity
  have hlog : (n * 2 ^ j).log2 = n.log2 + j := by
    rw [← Nat.shiftLeft_eq, log2_shiftLeft hn]
  obtain ⟨d, hd⟩ : ∃ d, d = (-j - targetOf (n * 2 ^ j) (-j)).toNat := ⟨_, rfl⟩
  have hm : (n * 2 ^ j) <<< d = n * 2 ^ (j + d) := by
    rw [Nat.shiftLeft_eq, Nat.pow_add, Nat.mul_assoc]
  have he : (-j : Int) - d = -((j + d : Nat) : Int) := by omega
  rw [normalize_of_pos hpos, ← hd, hm, he]
  refine unpack_pack_natural hn hlt ?_
  unfold targetOf at hd
  omega

section Operations

variable {x y : Float} {a b n : Nat}

/-- A product of natural numbers is exact while it is below `2 ^ 53`. -/
theorem form_mul_natural (hx : form x = ofNatural a) (hy : form y = ofNatural b)
    (hlt : a * b < 2 ^ 53) (ha : 0 < a) (hb : 0 < b) : form (x * y) = ofNatural (a * b) := by
  have hpos : 0 < a * b := Nat.mul_pos ha hb
  have hlog := log2_add_log2_le ha hb
  have hlt' : (a * b).log2 < 53 := (Nat.log2_lt hpos.ne').mpr hlt
  have hmul : UnpackedFloat.mul .binary64 (form x) (form y)
      = roundWithAccuracy .binary64 .positive
        (a * 2 ^ (52 - a.log2) * (b * 2 ^ (52 - b.log2))) (a.log2 - 52 + (b.log2 - 52)) .exact := by
    rw [hx, hy, ofNatural_of_pos ha, ofNatural_of_pos hb]
    rfl
  have hm : a * 2 ^ (52 - a.log2) * (b * 2 ^ (52 - b.log2))
      = a * b * 2 ^ (52 - a.log2 + (52 - b.log2)) := by
    rw [Nat.pow_add]
    ac_rfl
  have he : (a.log2 - 52 + (b.log2 - 52) : Int) = -((52 - a.log2 + (52 - b.log2) : Nat) : Int) := by
    omega
  rw [form_mul, hmul, hm, he]
  exact unpack_pack_natural hpos hlt (by omega)

/-- A natural number is a double while it is below `2 ^ 53`. -/
theorem form_ofNat (hlt : n < 2 ^ 53) : form (Float.ofNat n) = ofNatural n := by
  rcases Nat.eq_zero_or_pos n with rfl | hn
  · rfl
  have hone : form Float.exactlyRepresentablePowersOfTen[0] = ofNatural 1 := rfl
  have hofNat : Float.ofNat n = n.toUInt64.toFloat * Float.exactlyRepresentablePowersOfTen[0] := by
    change Float.ofScientific n false 0 = _
    rw [Float.ofScientific, dif_pos ⟨hlt, by decide⟩]
    rfl
  have hn' : n.toUInt64.toNat = n := by
    rw [Nat.toUInt64_eq, UInt64.toNat_ofNat']
    omega
  have hword : form n.toUInt64.toFloat = ofNatural n := by
    have h := unpack_pack_normalize_natural hn hlt 0
    rw [Nat.pow_zero, Nat.mul_one] at h
    change UnpackedFloat.unpack .binary64 (UnpackedFloat.pack .binary64
      (UnpackedFloat.normalize .binary64 (n.toUInt64.toNat : Int) 0 .positive)) = _
    rwa [hn']
  have hmul := form_mul_natural hword hone (by omega) hn (by decide)
  rwa [Nat.mul_one, ← hofNat] at hmul

theorem atLeast_ofNatural {k : Nat} (hk : 2 ^ k ≤ n) : AtLeast k (ofNatural n) := by
  have hn : 0 < n := (Nat.two_pow_pos k).trans_le hk
  have hlog : k ≤ n.log2 := (Nat.le_log2 hn.ne').mpr hk
  have hshift := log2_shiftLeft hn (52 - n.log2)
  rw [Nat.shiftLeft_eq] at hshift
  rw [ofNatural_of_pos hn]
  exact .finite (by omega)

theorem isNonneg_ofNatural (n : Nat) : IsNonneg (ofNatural n) := by
  rcases Nat.eq_zero_or_pos n with rfl | hn
  · exact .zero
  · exact .pos ((atLeast_ofNatural (k := 0) hn).mono (by decide))

/-- A sum of natural numbers is exact while it is below `2 ^ 53`. -/
theorem form_add_natural (hx : form x = ofNatural a) (hy : form y = ofNatural b)
    (hlt : a + b < 2 ^ 53) : form (x + y) = ofNatural (a + b) := by
  rcases Nat.eq_zero_or_pos a with rfl | ha
  · rcases Nat.eq_zero_or_pos b with rfl | hb
    · rw [form_add, hx, hy]
      rfl
    · rw [Nat.zero_add, ← hy]
      exact (zero_add_of_pos hx (hy ▸ atLeast_ofNatural (k := 0) hb)).1
  rcases Nat.eq_zero_or_pos b with rfl | hb
  · rw [Nat.add_zero, ← hx]
    exact (zero_add_of_pos hy (hx ▸ atLeast_ofNatural (k := 0) ha)).2
  have hlog {c : Nat} (hc : 0 < c) (hcle : c ≤ a + b) : c.log2 ≤ 52 :=
    Nat.le_of_lt_succ ((Nat.log2_lt hc.ne').mpr (by omega))
  have hloga := hlog ha (Nat.le_add_right a b)
  have hlogb := hlog hb (Nat.le_add_left b a)
  -- both on the smaller exponent
  obtain ⟨j, hj⟩ : ∃ j : Nat, min (a.log2 - 52 : Int) (b.log2 - 52) = -j :=
    ⟨52 - min a.log2 b.log2, by omega⟩
  have hshift {c : Nat} (hc : c.log2 ≤ 52) (hcj : (-j : Int) ≤ c.log2 - 52) :
      (c * 2 ^ (52 - c.log2)) <<< ((c.log2 - 52 : Int) - -j).toNat = c * 2 ^ j := by
    rw [Nat.shiftLeft_eq, Nat.mul_assoc, ← Nat.pow_add]
    congr 2
    omega
  rw [form_add, hx, hy, ofNatural_of_pos ha, ofNatural_of_pos hb, add_finite_eq_normalize, hj,
    hshift hloga (by omega), hshift hlogb (by omega), ← Nat.add_mul]
  exact unpack_pack_normalize_natural (by omega) hlt j

theorem isNaN_of_natural (hx : form x = ofNatural a) : x.isNaN = false := by
  rw [isNaN_eq_false_iff, hx, ofNatural]
  split <;> nofun

/-- Natural numbers are ordered as doubles are. -/
theorem le_of_natural (hx : form x = ofNatural a) (hy : form y = ofNatural b) (hab : a ≤ b) :
    x ≤ y := by
  refine (le_iff_rank ..).mpr ⟨isNaN_of_natural hx, isNaN_of_natural hy, ?_⟩
  rw [hx, hy]
  rcases Nat.eq_zero_or_pos a with rfl | ha
  · rcases Nat.eq_zero_or_pos b with rfl | hb
    · exact le_rfl
    · rw [ofNatural_of_pos hb]
      simp [rank, ofNatural, Prod.Lex.toLex_le_toLex]
  · have hlog := log2_le_log2 ha hab
    rw [ofNatural_of_pos ha, ofNatural_of_pos (ha.trans_le hab), rank_finite_le_iff]
    rcases hlog.lt_or_eq with hlt | heq
    · exact .inl (by omega)
    · exact .inr ⟨by omega, heq ▸ Nat.mul_le_mul_right _ hab⟩

/-- A natural number is no greater than what is at least a power of two above it. -/
theorem le_of_atLeast {k : Int} (hx : form x = ofNatural a) (ha : 0 < a) (hk : (a.log2 : Int) < k)
    (hy : AtLeast k (form y)) : x ≤ y := by
  have hform := isForm_form y
  have hnan := isNaN_of_natural hx
  rw [le_iff_rank, isNaN_eq_false_iff y, hx, ofNatural_of_pos ha]
  generalize form y = u at hy hform ⊢
  cases hy with
  | infinity => exact ⟨hnan, nofun, (rank_lt_infinity (by simp)).le⟩
  | finite hm =>
    cases hform with
    | finite fits =>
      have hlog := fits.log2_le
      exact ⟨hnan, nofun, rank_finite_le_iff.mpr (.inl (by omega))⟩

end Operations

end Formula.Binary64
