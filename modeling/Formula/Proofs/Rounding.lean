/-
Formula/Proofs/Rounding.lean

Sums, products and quotients of doubles by magnitude.

An operation on doubles computes a mantissa and an exponent and rounds them.  Rounding gives
zero, where the number is below the least one, or a mantissa and an exponent that fit, and it
never goes below a power of two that the number reaches (`roundWithAccuracy_cases`).  From this
follows how large results are at least: a sum is no less than its summands (`AtLeast.add`), ten
times a number is at least eight times as much (`AtLeast.mul_ten`), and a number that is at
least one, divided by a finite one, does not vanish (`div_of_finite`).

A product is NaN only where zero meets infinity (`isNaN_mul_iff`).
-/
import Formula.Proofs.Doubles

namespace Formula.Binary64

open Float.Model Float.Model.UnpackedFloat

/-! ### Rounding -/

/-- The exponent that a number is brought to before its mantissa is rounded. -/
def targetOf (m : Nat) (e : Int) : Int := max (m.log2 + e - 52) (-1074)

theorem targetExponent_eq (m : Nat) (e : Int) :
    Format.binary64.targetExponent (totalExponent m e) = targetOf m e := by
  change max ((m.log2 : Int) + 1 + e - 53) (-1074) = max (m.log2 + e - 52) (-1074)
  omega

theorem mantissa_shiftRight (em : ExtendedMantissa) (n : Nat) :
    (em >>> n).mantissa = em.mantissa / 2 ^ n := by
  induction n with
  | zero => exact (Nat.div_one _).symm
  | succ n ih =>
    change (em >>> n).mantissa / 2 = _
    rw [ih, Nat.div_div_eq_div_mul, Nat.pow_succ]

theorem mantissa_ofMantissaAndAccuracy (m : Nat) (acc : Accuracy) :
    (ExtendedMantissa.ofMantissaAndAccuracy m acc).mantissa = m := by
  rcases acc with _ | (_ | _ | _) <;> rfl

theorem roundedMantissa_bounds (em : ExtendedMantissa) :
    em.mantissa ≤ em.roundedMantissa ∧ em.roundedMantissa ≤ em.mantissa + 1 := by
  rcases em with ⟨m, _ | _, _ | _⟩ <;>
    simp [ExtendedMantissa.roundedMantissa, ExtendedMantissa.accuracy,
      Accuracy.roundToNearestEven]
  omega

/-- A number brought to its target exponent has its mantissa divided. -/
theorem shiftToTargetExponent_eq (m : Nat) (e : Int) (acc : Accuracy) :
    (shiftToTargetExponent .binary64 m e acc).1.mantissa = m / 2 ^ (targetOf m e - e).toNat ∧
      (shiftToTargetExponent .binary64 m e acc).2 = e + (targetOf m e - e).toNat := by
  simp only [shiftToTargetExponent, shiftToExponent, targetExponent_eq, mantissa_shiftRight,
    mantissa_ofMantissaAndAccuracy, and_self]

/-- The mantissa at the target exponent has at most 53 bits, and it has 53 where the exponent
is not the least one.  Rounding it up does not lose magnitude. -/
theorem div_target_bounds {m n : Nat} {e : Int} (hm : 0 < m) (hn : e + n = targetOf m e) :
    m / 2 ^ n < 2 ^ 53 ∧ (2 ^ 52 ≤ m / 2 ^ n ∨ targetOf m e = -1074) ∧
      ∀ r, m / 2 ^ n ≤ r → 0 < r → (m.log2 : Int) + e ≤ r.log2 + targetOf m e := by
  have hlow := Nat.log2_self_le hm.ne'
  have hhigh := Nat.lt_log2_self (n := m)
  have htarget : targetOf m e = max (m.log2 + e - 52) (-1074) := rfl
  generalize targetOf m e = t at *
  generalize m.log2 = L at *
  have hq : ∀ k, k + n ≤ L → 2 ^ k ≤ m / 2 ^ n := fun k hk =>
    (Nat.le_div_iff_mul_le (by positivity)).mpr
      ((Nat.pow_add 2 k n ▸ Nat.pow_le_pow_right (by decide) hk).trans hlow)
  refine ⟨?_, ?_, fun r hqr hr => ?_⟩
  · refine (Nat.div_lt_iff_lt_mul (by positivity)).mpr (hhigh.trans_le ?_)
    rw [← Nat.pow_add]
    exact Nat.pow_le_pow_right (by decide) (by omega)
  · by_cases hmin : t = -1074
    · exact .inr hmin
    · exact .inl (hq 52 (by omega))
  · -- where all bits are shifted out the target is the least exponent
    by_cases hnL : n ≤ L
    · have hlog : L - n ≤ r.log2 := (Nat.le_log2 hr.ne').mpr ((hq (L - n) (by omega)).trans hqr)
      omega
    · omega

/-- A mantissa that fits stays as it is, and one with a bit too many loses it. -/
theorem shiftToTargetExponent_rounded {r : Nat} {t : Int} (ht : -1074 ≤ t) :
    (r < 2 ^ 53 → (shiftToTargetExponent .binary64 r t .exact).1.mantissa = r ∧
      (shiftToTargetExponent .binary64 r t .exact).2 = t) ∧
    (r = 2 ^ 53 → (shiftToTargetExponent .binary64 r t .exact).1.mantissa = 2 ^ 52 ∧
      (shiftToTargetExponent .binary64 r t .exact).2 = t + 1) := by
  rw [(shiftToTargetExponent_eq r t .exact).1, (shiftToTargetExponent_eq r t .exact).2]
  constructor
  · intro hr
    have hlog : r.log2 ≤ 52 := by
      rcases Nat.eq_zero_or_pos r with rfl | hpos
      · decide
      · exact Nat.le_of_lt_succ ((Nat.log2_lt hpos.ne').mpr hr)
    have hshift : (targetOf r t - t).toNat = 0 := by
      unfold targetOf
      omega
    simp [hshift]
  · rintro rfl
    have hshift : (targetOf (2 ^ 53) t - t).toNat = 1 := by
      unfold targetOf
      rw [Nat.log2_two_pow]
      omega
    rw [hshift]
    exact ⟨rfl, rfl⟩

/-- What rounding gives: zero, where the number is less than the least one, or a mantissa and an
exponent that fit, with no less a magnitude. -/
theorem roundWithAccuracy_cases (s : Sign) {m : Nat} {e : Int} (acc : Accuracy) (hm : 0 < m)
    (he : e ≤ targetOf m e) :
    (roundWithAccuracy .binary64 s m e acc = .zero s ∧ (m.log2 : Int) + e < -1074) ∨
    ∃ m' e' h, roundWithAccuracy .binary64 s m e acc = .finite s m' e' h ∧ Fits m' e' ∧
      (m.log2 : Int) + e ≤ m'.log2 + e' := by
  obtain ⟨n, hn⟩ : ∃ n : Nat, e + n = targetOf m e := ⟨(targetOf m e - e).toNat, by omega⟩
  obtain ⟨hlt, hfull, hlog⟩ := div_target_bounds hm hn
  have hmin : -1074 ≤ targetOf m e := le_max_right _ _
  obtain ⟨hmantissa, hexponent⟩ := shiftToTargetExponent_eq m e acc
  rw [show (targetOf m e - e).toNat = n by omega] at hmantissa hexponent
  rw [hn] at hexponent
  obtain ⟨hqr, hrq⟩ := roundedMantissa_bounds (shiftToTargetExponent .binary64 m e acc).1
  rw [hmantissa] at hqr hrq
  simp only [roundWithAccuracy, hexponent]
  generalize (shiftToTargetExponent .binary64 m e acc).1.roundedMantissa = r at hqr hrq ⊢
  obtain ⟨hkeep, hcarry⟩ := shiftToTargetExponent_rounded (r := r) hmin
  -- the rounded mantissa is zero, has at most 53 bits, or is the power of two that needs one more
  rcases Nat.eq_zero_or_pos r with rfl | hpos
  · have hzero := (hkeep (by decide)).1
    have hsmall : m.log2 < n :=
      (Nat.log2_lt hm.ne').mpr ((Nat.div_eq_zero_iff_lt (by positivity)).mp (by omega))
    rw [dif_pos hzero]
    exact .inl ⟨rfl, by omega⟩
  · right
    rcases Nat.lt_or_ge r (2 ^ 53) with hr | hr
    · obtain ⟨hm', he'⟩ := hkeep hr
      refine ⟨r, targetOf m e, hpos, ?_, ⟨hpos, hr, hmin, by omega⟩, hlog r hqr hpos⟩
      simp only [hm', he', dif_neg hpos.ne']
    · obtain ⟨hm', he'⟩ := hcarry (by omega)
      have hbound := hlog r hqr hpos
      rw [show r = 2 ^ 53 by omega, Nat.log2_two_pow] at hbound
      have fits : Fits (2 ^ 52) (targetOf m e + 1) :=
        ⟨by decide, by decide, by omega, by omega⟩
      refine ⟨2 ^ 52, targetOf m e + 1, fits.pos, ?_, fits, ?_⟩
      · simp only [hm', he', dif_neg (show ¬ 2 ^ 52 = 0 by decide)]
      · rw [Nat.log2_two_pow]
        omega

/-! ### Magnitudes -/

/-- A positive number, infinity among them, that is at least `2 ^ k`. -/
inductive AtLeast (k : Int) : UnpackedFloat → Prop
  | infinity : AtLeast k (.infinity .positive)
  | finite {m : Nat} {e : Int} {h : 0 < m} (hk : k ≤ m.log2 + e) :
      AtLeast k (.finite .positive m e h)

/-- Zero or a positive number. -/
inductive IsNonneg : UnpackedFloat → Prop
  | zero : IsNonneg (.zero .positive)
  | pos {u : UnpackedFloat} (h : AtLeast (-1074) u) : IsNonneg u

theorem AtLeast.mono {k l : Int} {u : UnpackedFloat} (h : AtLeast k u) (hl : l ≤ k) :
    AtLeast l u := by
  cases h with
  | infinity => exact .infinity
  | finite hk => exact .finite (hl.trans hk)

theorem AtLeast.ne_zero {k : Int} {u : UnpackedFloat} (h : AtLeast k u) (s : Sign) :
    u ≠ .zero s := by
  cases h <;> nofun

theorem IsNonneg.eq_zero_or_pos {u : UnpackedFloat} (h : IsNonneg u) :
    u = .zero .positive ∨ AtLeast (-1074) u := by
  cases h with
  | zero => exact .inl rfl
  | pos h => exact .inr h

theorem IsNonneg.ne_notANumber {u : UnpackedFloat} (h : IsNonneg u) : u ≠ .notANumber := by
  rcases h with _ | (_ | _) <;> nofun

theorem AtLeast.isNonneg {k : Int} {x : Float} (h : AtLeast k (form x)) : IsNonneg (form x) := by
  have hx := isForm_form x
  generalize form x = u at h hx
  cases h with
  | infinity => exact .pos .infinity
  | finite hk =>
    cases hx with
    | finite fits =>
      have hmin := fits.min
      exact .pos (.finite (by omega))

theorem Fits.log2_le {m : Nat} {e : Int} (h : Fits m e) : m.log2 ≤ 52 :=
  Nat.le_of_lt_succ ((Nat.log2_lt h.pos.ne').mpr h.lt)

theorem Fits.le_log2 {m : Nat} {e : Int} (h : Fits m e) : 52 ≤ m.log2 ∨ e = -1074 :=
  h.full.imp_left (Nat.le_log2 h.pos.ne').mpr

theorem isForm_of_form_eq {x : Float} {s : Sign} {m : Nat} {e : Int} {h : 0 < m}
    (hx : form x = .finite s m e h) : Fits m e ∧ e ≤ 971 := by
  have hform := isForm_form x
  rw [hx] at hform
  cases hform with
  | finite fits hmax => exact ⟨fits, hmax⟩

theorem atLeast_of_finite {x : Float} {m : Nat} {e : Int} {h : 0 < m}
    (hx : form x = .finite .positive m e h) : AtLeast (-1074) (form x) := by
  have hmin := (isForm_of_form_eq hx).1.min
  exact hx ▸ .finite (by omega)

theorem log2_add_log2_le {a b : Nat} (ha : 0 < a) (hb : 0 < b) :
    a.log2 + b.log2 ≤ (a * b).log2 :=
  (Nat.le_log2 (Nat.mul_pos ha hb).ne').mpr (Nat.pow_add 2 a.log2 b.log2 ▸
    Nat.mul_le_mul (Nat.log2_self_le ha.ne') (Nat.log2_self_le hb.ne'))

/-- A positive number that is rounded and made a double. -/
theorem unpack_pack_round {m : Nat} {e : Int} (acc : Accuracy) (hm : 0 < m)
    (he : e ≤ targetOf m e) :
    IsNonneg (UnpackedFloat.unpack .binary64 (UnpackedFloat.pack .binary64
      (roundWithAccuracy .binary64 .positive m e acc))) ∧
    ∀ k : Int, -1074 ≤ k → k ≤ m.log2 + e → AtLeast k (UnpackedFloat.unpack .binary64
      (UnpackedFloat.pack .binary64 (roundWithAccuracy .binary64 .positive m e acc))) := by
  rcases roundWithAccuracy_cases .positive acc hm he with
    ⟨hzero, hsmall⟩ | ⟨m', e', h', hfinite, fits, hlog⟩
  · rw [hzero]
    exact ⟨.zero, fun k hk hkm => by omega⟩
  · rw [hfinite]
    by_cases hmax : e' ≤ 971
    · rw [unpack_pack_of_fits fits hmax]
      have hmin := fits.min
      exact ⟨.pos (.finite (by omega)), fun k _ hkm => .finite (by omega)⟩
    · rw [pack_overflow (by omega)]
      exact ⟨.pos .infinity, fun _ _ _ => .infinity⟩

theorem rank_finite_le_iff {m₁ m₂ : Nat} {e₁ e₂ : Int} {h₁ : 0 < m₁} {h₂ : 0 < m₂} :
    rank (.finite .positive m₁ e₁ h₁) ≤ rank (.finite .positive m₂ e₂ h₂) ↔
      e₁ < e₂ ∨ e₁ = e₂ ∧ m₁ ≤ m₂ := by
  simp [rank, Prod.Lex.toLex_le_toLex]

/-! ### Products -/

section Products

variable {x y : Float} {k : Int}

theorem form_mul (x y : Float) : form (x * y) = UnpackedFloat.unpack .binary64
    (UnpackedFloat.pack .binary64 (UnpackedFloat.mul .binary64 (form x) (form y))) := rfl

/-- The product of two positive finite numbers. -/
theorem mul_of_finite {m₁ m₂ : Nat} {e₁ e₂ : Int} {h₁ : 0 < m₁} {h₂ : 0 < m₂}
    (hx : form x = .finite .positive m₁ e₁ h₁) (hy : form y = .finite .positive m₂ e₂ h₂) :
    IsNonneg (form (x * y)) ∧ ∀ k : Int, -1074 ≤ k → k ≤ m₁.log2 + e₁ + (m₂.log2 + e₂) →
      AtLeast k (form (x * y)) := by
  have fits₁ := (isForm_of_form_eq hx).1
  have fits₂ := (isForm_of_form_eq hy).1
  have hlog := log2_add_log2_le h₁ h₂
  have htarget : e₁ + e₂ ≤ targetOf (m₁ * m₂) (e₁ + e₂) := by
    have := fits₁.le_log2
    have := fits₂.le_log2
    unfold targetOf
    omega
  rw [form_mul, hx, hy]
  obtain ⟨hnonneg, hleast⟩ :=
    unpack_pack_round .exact (Nat.mul_pos h₁ h₂) htarget
  exact ⟨hnonneg, fun k hk hkm => hleast k hk (by omega)⟩

/-- Ten, as a double. -/
theorem form_ten : form (Float.ofNat 10) = .finite .positive 5629499534213120 (-49) (by decide) :=
  rfl

/-- Ten times a number is at least eight times as much. -/
theorem AtLeast.mul_ten (h : AtLeast k (form x)) (hk : -1074 ≤ k + 3) :
    AtLeast (k + 3) (form (x * Float.ofNat 10)) := by
  generalize hu : form x = u at h
  cases h with
  | infinity =>
    rw [form_mul, hu, form_ten]
    exact .infinity
  | finite hkm =>
    have hten : (5629499534213120 : Nat).log2 = 52 := by decide
    exact (mul_of_finite hu form_ten).2 _ hk (by omega)

end Products

/-! ### Sums -/

section Sums

variable {x y : Float} {k : Int}

theorem form_add (x y : Float) : form (x + y) = UnpackedFloat.unpack .binary64
    (UnpackedFloat.pack .binary64 (UnpackedFloat.add .binary64 (form x) (form y))) := rfl

theorem log2_le_log2 {a b : Nat} (ha : 0 < a) (hab : a ≤ b) : a.log2 ≤ b.log2 :=
  (Nat.le_log2 (by omega)).mpr ((Nat.log2_self_le ha.ne').trans hab)

theorem log2_shiftLeft {a : Nat} (ha : 0 < a) (n : Nat) : (a <<< n).log2 = a.log2 + n := by
  rw [Nat.shiftLeft_eq]
  refine (Nat.log2_eq_iff (by positivity)).mpr ⟨?_, ?_⟩
  · rw [Nat.pow_add]
    exact Nat.mul_le_mul_right _ (Nat.log2_self_le ha.ne')
  · rw [show a.log2 + n + 1 = a.log2 + 1 + n by omega, Nat.pow_add]
    exact Nat.mul_lt_mul_of_pos_right Nat.lt_log2_self (by positivity)

/-- A positive sum before it is rounded: it is first given enough bits. -/
theorem normalize_of_pos {m : Nat} (hm : 0 < m) (e : Int) :
    UnpackedFloat.normalize .binary64 m e .positive = roundWithAccuracy .binary64 .positive
      (m <<< (e - targetOf m e).toNat) (e - (e - targetOf m e).toNat) .exact := by
  have hcompare : compare (m : Int) 0 = .gt := compare_gt_iff_gt.mpr (by omega)
  simp only [UnpackedFloat.normalize, hcompare, UnpackedFloat.round, decreaseExponent,
    targetExponent_eq, Int.toNat_natCast]

/-- A positive sum that is rounded and made a double. -/
theorem unpack_pack_normalize {m : Nat} (hm : 0 < m) {e k : Int} (hk : -1074 ≤ k)
    (hkm : k ≤ m.log2 + e) : AtLeast k (UnpackedFloat.unpack .binary64
      (UnpackedFloat.pack .binary64 (UnpackedFloat.normalize .binary64 m e .positive))) := by
  have hlog := log2_shiftLeft hm (e - targetOf m e).toNat
  rw [normalize_of_pos hm]
  refine (unpack_pack_round .exact (Nat.shiftLeft_pos_iff.mpr hm) ?_).2 k hk (by omega)
  unfold targetOf at hlog ⊢
  omega

/-- The sum of two positive finite numbers, on their smaller exponent. -/
theorem add_finite_eq_normalize {m₁ m₂ : Nat} (e₁ e₂ : Int) (h₁ : 0 < m₁) (h₂ : 0 < m₂) :
    UnpackedFloat.add .binary64 (.finite .positive m₁ e₁ h₁) (.finite .positive m₂ e₂ h₂)
      = UnpackedFloat.normalize .binary64
        ((m₁ <<< (e₁ - min e₁ e₂).toNat + m₂ <<< (e₂ - min e₁ e₂).toNat : Nat) : Int)
        (min e₁ e₂) .positive := by
  rw [Int.natCast_add]
  rfl

/-- The sum of two positive finite numbers. -/
theorem add_of_finite {m₁ m₂ : Nat} {e₁ e₂ : Int} {h₁ : 0 < m₁} {h₂ : 0 < m₂}
    (hx : form x = .finite .positive m₁ e₁ h₁) (hy : form y = .finite .positive m₂ e₂ h₂)
    (hk : -1074 ≤ k) (hkm : k ≤ m₁.log2 + e₁ ∨ k ≤ m₂.log2 + e₂) :
    AtLeast k (form (x + y)) := by
  rw [form_add, hx, hy, add_finite_eq_normalize]
  have hlog₁ := log2_shiftLeft h₁ (e₁ - min e₁ e₂).toNat
  have hlog₂ := log2_shiftLeft h₂ (e₂ - min e₁ e₂).toNat
  have hpos₁ : 0 < m₁ <<< (e₁ - min e₁ e₂).toNat := Nat.shiftLeft_pos_iff.mpr h₁
  have hpos₂ : 0 < m₂ <<< (e₂ - min e₁ e₂).toNat := Nat.shiftLeft_pos_iff.mpr h₂
  have hsum₁ := log2_le_log2 hpos₁ (Nat.le_add_right _ (m₂ <<< (e₂ - min e₁ e₂).toNat))
  have hsum₂ := log2_le_log2 hpos₂ (Nat.le_add_left _ (m₁ <<< (e₁ - min e₁ e₂).toNat))
  exact unpack_pack_normalize (Nat.add_pos_left hpos₁ _) hk (by omega)

/-- The sum with a zero. -/
theorem zero_add_of_pos (hx : form x = .zero .positive) (hy : AtLeast k (form y)) :
    form (x + y) = form y ∧ form (y + x) = form y := by
  have hadd {v : UnpackedFloat} (hv : AtLeast k v) :
      UnpackedFloat.add .binary64 (.zero .positive) v = v ∧
        UnpackedFloat.add .binary64 v (.zero .positive) = v := by
    cases hv <;> simp [UnpackedFloat.add]
  rw [form_add, form_add, hx, (hadd hy).1, (hadd hy).2, unpack_pack (isForm_form y)]
  exact ⟨rfl, rfl⟩

/-- The sum with infinity. -/
theorem infinity_add_of_pos (hx : form x = .infinity .positive) (hy : AtLeast k (form y)) :
    form (x + y) = .infinity .positive ∧ form (y + x) = .infinity .positive := by
  have hadd {v : UnpackedFloat} (hv : AtLeast k v) :
      UnpackedFloat.add .binary64 (.infinity .positive) v = .infinity .positive ∧
        UnpackedFloat.add .binary64 v (.infinity .positive) = .infinity .positive := by
    cases hv <;> simp [UnpackedFloat.add]
  rw [form_add, form_add, hx, (hadd hy).1, (hadd hy).2]
  exact ⟨rfl, rfl⟩

/-- A sum is at least as much as its summands. -/
theorem AtLeast.add (hk : -1074 ≤ k) (hx : IsNonneg (form x)) (hy : IsNonneg (form y))
    (h : AtLeast k (form x) ∨ AtLeast k (form y)) : AtLeast k (form (x + y)) := by
  generalize hu : form x = u at hx h
  generalize hv : form y = v at hy h
  cases hx with
  | zero =>
    have hvk := h.resolve_left nofun
    rwa [(zero_add_of_pos hu (hv ▸ hvk)).1, hv]
  | @pos u hx =>
    cases hy with
    | zero =>
      have huk := h.resolve_right nofun
      rwa [(zero_add_of_pos hv (hu ▸ huk)).2, hu]
    | @pos v hy =>
      cases hx with
      | infinity =>
        rw [(infinity_add_of_pos hu (hv ▸ hy)).1]
        exact .infinity
      | @finite m₁ e₁ h₁ hx =>
        cases hy with
        | infinity =>
          rw [(infinity_add_of_pos hv (hu ▸ AtLeast.finite hx)).2]
          exact .infinity
        | finite hy =>
          refine add_of_finite hu hv hk (h.imp ?_ ?_) <;>
          · rintro ⟨⟩
            assumption

theorem IsNonneg.add (hx : IsNonneg (form x)) (hy : IsNonneg (form y)) :
    IsNonneg (form (x + y)) := by
  generalize hu : form x = u at hx
  generalize hv : form y = v at hy
  cases hx with
  | zero =>
    cases hy with
    | zero =>
      rw [form_add, hu, hv]
      exact .zero
    | pos hy =>
      exact (AtLeast.add (by decide) (hu ▸ .zero) (hv ▸ .pos hy) (.inr (hv ▸ hy))).isNonneg
  | pos hx =>
    exact (AtLeast.add (by decide) (hu ▸ .pos hx) (hv ▸ hy) (.inl (hu ▸ hx))).isNonneg

/-- A sum is zero only where both summands are. -/
theorem add_eq_zero_iff (hx : IsNonneg (form x)) (hy : IsNonneg (form y)) :
    form (x + y) = .zero .positive ↔ form x = .zero .positive ∧ form y = .zero .positive := by
  constructor
  · intro hsum
    have hnone : ¬ (AtLeast (-1074) (form x) ∨ AtLeast (-1074) (form y)) := fun h =>
      (AtLeast.add (by decide) hx hy h).ne_zero _ hsum
    exact ⟨hx.eq_zero_or_pos.resolve_right fun h => hnone (.inl h),
      hy.eq_zero_or_pos.resolve_right fun h => hnone (.inr h)⟩
  · rintro ⟨hx, hy⟩
    rw [form_add, hx, hy]
    rfl

end Sums

/-! ### Quotients -/

section Quotients

variable {x y : Float}

theorem form_div (x y : Float) : form (x / y) = UnpackedFloat.unpack .binary64
    (UnpackedFloat.pack .binary64 (UnpackedFloat.div .binary64 (form x) (form y))) := rfl

/-- A quotient of positive finite numbers before it is rounded. -/
theorem divCore_bounds {m₁ m₂ : Nat} (e₁ e₂ : Int) (h₁ : 0 < m₁) (h₂ : 0 < m₂)
    (hbound : -1074 ≤ (m₁.log2 + e₁ : Int) - (m₂.log2 + e₂) - 1) :
    ∃ m e acc, divCore .binary64 m₁ e₁ m₂ e₂ = (m, e, acc) ∧ 0 < m ∧ e ≤ targetOf m e ∧
      (m₁.log2 + e₁ : Int) - (m₂.log2 + e₂) - 1 ≤ m.log2 + e := by
  have htarget : Format.binary64.targetExponent (totalExponent m₁ e₁ - totalExponent m₂ e₂)
      = max ((m₁.log2 + e₁ : Int) - (m₂.log2 + e₂) - 53) (-1074) := by
    change max (((m₁.log2 : Int) + 1 + e₁) - (m₂.log2 + 1 + e₂) - 53) (-1074) = _
    omega
  obtain ⟨t, ht⟩ : ∃ t, t = min (e₁ - e₂)
    (max ((m₁.log2 + e₁ : Int) - (m₂.log2 + e₂) - 53) (-1074)) := ⟨_, rfl⟩
  obtain ⟨n, hn⟩ : ∃ n : Nat, n = (e₁ - e₂ - t).toNat := ⟨_, rfl⟩
  have hlog := log2_shiftLeft h₁ n
  have hpos : 0 < m₁ <<< n := Nat.shiftLeft_pos_iff.mpr h₁
  have hle : m₂.log2 + 1 ≤ m₁.log2 + n := by omega
  -- the dividend is at least one power of two, and the divisor is less than another
  have hpow : 2 ^ (m₁.log2 + n - (m₂.log2 + 1)) ≤ m₁ <<< n / m₂ := by
    refine (Nat.le_div_iff_mul_le h₂).mpr ?_
    calc 2 ^ (m₁.log2 + n - (m₂.log2 + 1)) * m₂
        ≤ 2 ^ (m₁.log2 + n - (m₂.log2 + 1)) * 2 ^ (m₂.log2 + 1) :=
          Nat.mul_le_mul_left _ Nat.lt_log2_self.le
      _ = 2 ^ (m₁ <<< n).log2 := by rw [← Nat.pow_add, Nat.sub_add_cancel hle, hlog]
      _ ≤ m₁ <<< n := Nat.log2_self_le hpos.ne'
  have hquot : 0 < m₁ <<< n / m₂ := (Nat.two_pow_pos _).trans_le hpow
  have hlogquot := (Nat.le_log2 hquot.ne').mpr hpow
  refine ⟨m₁ <<< n / m₂, t, accuracyOfFraction (m₁ <<< n % m₂) m₂, ?_, hquot, ?_, ?_⟩
  · simp only [divCore, htarget, ← ht, ← hn]
  · unfold targetOf
    omega
  · omega

/-- The quotient of a finite number that is at least one by a positive finite number. -/
theorem div_of_finite {m₁ m₂ : Nat} {e₁ e₂ : Int} {h₁ : 0 < m₁} {h₂ : 0 < m₂}
    (hx : form x = .finite .positive m₁ e₁ h₁) (hone : 0 ≤ (m₁.log2 : Int) + e₁)
    (hy : form y = .finite .positive m₂ e₂ h₂) : AtLeast (-1024) (form (x / y)) := by
  obtain ⟨fits, hmax⟩ := isForm_of_form_eq hy
  have hlog := fits.log2_le
  obtain ⟨m, e, acc, hdiv, hm, he, hbound⟩ :=
    divCore_bounds e₁ e₂ h₁ h₂ (by omega)
  have hquot : UnpackedFloat.div .binary64 (form x) (form y)
      = roundWithAccuracy .binary64 .positive m e acc := by
    rw [hx, hy]
    simp only [UnpackedFloat.div, hdiv]
    rfl
  rw [form_div, hquot]
  exact (unpack_pack_round acc hm he).2 _ (by decide) (by omega)

theorem zero_div_of_pos {k : Int} (hx : form x = .zero .positive) (hy : AtLeast k (form y)) :
    form (x / y) = .zero .positive := by
  have hdiv {v : UnpackedFloat} (hv : AtLeast k v) :
      UnpackedFloat.div .binary64 (.zero .positive) v = .zero .positive := by
    cases hv <;> simp only [UnpackedFloat.div] <;> rfl
  rw [form_div, hx, hdiv hy]
  rfl

/-- A finite number divided by infinity. -/
theorem div_infinity_of_finite {m : Nat} {e : Int} {h : 0 < m}
    (hx : form x = .finite .positive m e h) (hy : form y = .infinity .positive) :
    form (x / y) = .zero .positive := by
  have hdiv : UnpackedFloat.div .binary64 (form x) (form y) = .zero .positive := by
    rw [hx, hy]
    simp only [UnpackedFloat.div]
    rfl
  rw [form_div, hdiv]
  rfl

end Quotients

/-! ### Zero and infinity -/

theorem beq_zero_iff {x : Float} : (x == 0) = true ↔ ∃ s, form x = .zero s := by
  have hbeq : (x == 0) = (form x).beq (.zero .positive) := rfl
  rw [hbeq]
  rcases form x with (_ | _) | _ | _ | ⟨_ | _, m, e, h⟩ <;>
    simp [UnpackedFloat.beq, UnpackedFloat.compare]

theorem eq_infinity_iff {x : Float} : x = 1.0 / 0.0 ↔ form x = .infinity .positive :=
  ⟨fun h => h ▸ rfl, fun h => form_injective h⟩

/-- Doubles from zero on and below infinity. -/
theorem form_eq_zero_or_finite {x : Float} (h : 0 ≤ x ∧ x < 1.0 / 0.0) :
    (∃ s, form x = .zero s) ∨ ∃ m e h, form x = .finite .positive m e h := by
  obtain ⟨-, hnan, hpos⟩ := (le_iff_rank ..).mp h.1
  obtain ⟨-, -, hfinite⟩ := (lt_iff_rank ..).mp h.2
  have hzero : form 0 = .zero .positive := rfl
  have hinf : form (1.0 / 0.0) = .infinity .positive := rfl
  rw [hzero] at hpos
  rw [hinf] at hfinite
  rw [isNaN_eq_false_iff] at hnan
  generalize form x = u at hpos hfinite hnan ⊢
  rcases u with (_ | _) | _ | s | ⟨_ | _, m, e, h⟩
  · simp [rank, Prod.Lex.toLex_le_toLex] at hpos
  · exact absurd hfinite (lt_irrefl _)
  · exact absurd rfl hnan
  · exact .inl ⟨s, rfl⟩
  · simp [rank, Prod.Lex.toLex_le_toLex] at hpos
  · exact .inr ⟨m, e, h, rfl⟩

/-- Positive doubles below infinity. -/
theorem exists_form_eq_finite {x : Float} (h : 0 < x ∧ x < 1.0 / 0.0) :
    ∃ m e h, form x = .finite .positive m e h := by
  obtain ⟨hnum, hnan, hrank⟩ := (lt_iff_rank ..).mp h.1
  have hle : 0 ≤ x := (le_iff_rank ..).mpr ⟨hnum, hnan, hrank.le⟩
  refine (form_eq_zero_or_finite ⟨hle, h.2⟩).resolve_left ?_
  rintro ⟨s, hs⟩
  rw [hs] at hrank
  exact lt_irrefl _ hrank

section Indefinite

variable {x y : Float}

/-- A product of doubles that needs no rounding. -/
theorem form_mul_of_eq {u : UnpackedFloat} (hu : IsForm u)
    (h : UnpackedFloat.mul .binary64 (form x) (form y) = u) : form (x * y) = u := by
  rw [form_mul, h, unpack_pack hu]

/-- The product of zero with a number that is not infinite. -/
theorem zero_mul_of_finite (hx : form x = .zero .positive)
    (hy : (∃ s, form y = .zero s) ∨ ∃ m e h, form y = .finite .positive m e h) :
    ∃ s, form (x * y) = .zero s := by
  rcases hy with ⟨s, hy⟩ | ⟨m, e, h, hy⟩
  · exact ⟨.positive * s, form_mul_of_eq (.zero _) (by rw [hx, hy]; rfl)⟩
  · exact ⟨.positive, form_mul_of_eq (.zero _) (by rw [hx, hy]; rfl)⟩

/-- Zero times infinity is NaN, and so is infinity times zero.  The other products of a number
that is zero or positive with a zero or a positive number are none. -/
theorem isNaN_mul_iff (hx : IsNonneg (form x))
    (hy : (∃ s, form y = .zero s) ∨ AtLeast (-1074) (form y)) :
    (x * y).isNaN = true ↔
      (form x = .zero .positive ∧ form y = .infinity .positive) ∨
      (form x = .infinity .positive ∧ ∃ s, form y = .zero s) := by
  rw [isNaN_iff_form]
  generalize hu : form x = u at hx
  generalize hv : form y = v at hy
  have hmul {w : UnpackedFloat} (hw : IsForm w) (h : UnpackedFloat.mul .binary64 u v = w) :
      form (x * y) = w := form_mul_of_eq hw (by rw [hu, hv, h])
  rcases hx with _ | (_ | ⟨_⟩) <;> rcases hy with ⟨s, rfl⟩ | (_ | ⟨_⟩)
  · simp [hmul (.zero _) rfl]
  · simp [hmul .notANumber rfl]
  · simp [hmul (.zero _) rfl]
  · simp [hmul .notANumber rfl]
  · simp [hmul (.infinity _) rfl]
  · simp [hmul (.infinity _) rfl]
  · simp [hmul (.zero _) rfl]
  · simp [hmul (.infinity _) rfl]
  · simp [(mul_of_finite hu hv).1.ne_notANumber]

end Indefinite

end Formula.Binary64
