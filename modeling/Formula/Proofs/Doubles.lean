/-
Formula/Proofs/Doubles.lean

Doubles by sign, mantissa and exponent.

The bits of a double have a form: a NaN, an infinity, a zero or a finite number
`± mantissa * 2 ^ exponent`, where the mantissa has 53 bits unless the exponent is the least
one (`IsForm`).  Bits and form determine each other (`form_injective`, `unpack_pack`), so what
an operation does to doubles can be read off what it does to forms.

Doubles that are no NaN compare as their ranks do, in a linear order with the sign and kind of
the number first, then the exponent and then the mantissa (`lt_iff_rank`, `le_iff_rank`).
-/
import Mathlib
import Formula.Binary64

namespace Formula.Binary64

open Float.Model Float.Model.UnpackedFloat

/-! ### Forms -/

/-- The form of a double. -/
def form (x : Float) : UnpackedFloat := x.toModel.unpack

/-- A mantissa and an exponent in the form that a double has, where the exponent may be too
large: the mantissa has 53 bits, or fewer with the least exponent. -/
structure Fits (m : Nat) (e : Int) : Prop where
  pos : 0 < m
  lt : m < 2 ^ 53
  min : -1074 ≤ e
  full : 2 ^ 52 ≤ m ∨ e = -1074

/-- The forms of doubles. -/
inductive IsForm : UnpackedFloat → Prop
  | notANumber : IsForm .notANumber
  | infinity (s : Sign) : IsForm (.infinity s)
  | zero (s : Sign) : IsForm (.zero s)
  | finite {s : Sign} {m : Nat} {e : Int} {h : 0 < m} (fits : Fits m e) (hmax : e ≤ 971) :
      IsForm (.finite s m e h)

section Fields

variable {s : Sign} {e : BitVec 11} {m : BitVec 52}

/-- The leading bit of a mantissa with all its bits. -/
theorem toNat_one_append (m : BitVec 52) : (1#1 ++ m).toNat = 2 ^ 52 + m.toNat := by
  rw [BitVec.toNat_append, ← Nat.shiftLeft_add_eq_or_of_lt m.isLt]
  simp [Nat.shiftLeft_eq]

/-- The bits of a number with all bits of its mantissa. -/
theorem unpack_normal (htop : e ≠ -1#11) (hbottom : e ≠ 0#11) :
    UnpackedFloat.unpack .binary64 (packComponents .binary64 s e m)
      = .finite s (2 ^ 52 + m.toNat) (e.toNat - 1075) (by omega) := by
  simp only [UnpackedFloat.unpack, unpackMantissa_packComponents, unpackExponent_packComponents,
    unpackSign_packComponents, Sign.ofBitVec_toBitVec, if_neg htop, if_neg hbottom,
    toNat_one_append]
  rfl

/-- The bits of a number of the least exponent whose mantissa is short. -/
theorem unpack_subnormal (hm : 0 < m.toNat) :
    UnpackedFloat.unpack .binary64 (packComponents .binary64 s 0#11 m)
      = .finite s m.toNat (-1074) hm := by
  have hne : m ≠ 0#52 := by rintro rfl; simp at hm
  simp only [UnpackedFloat.unpack, unpackMantissa_packComponents, unpackExponent_packComponents,
    unpackSign_packComponents, Sign.ofBitVec_toBitVec, dif_neg hne]
  rfl

/-- Bits are valid unless they are those of a NaN. -/
theorem valid_packComponents (htop : e ≠ -1#11) :
    Format.binary64.Valid (packComponents .binary64 s e m) :=
  ⟨fun h => absurd (unpackExponent_packComponents.symm.trans h) htop⟩

end Fields

/-- Bits in the form of the number that they stand for. -/
theorem isForm_unpack (b : BitVec Format.binary64.numBits) :
    IsForm (UnpackedFloat.unpack .binary64 b) := by
  rw [← packComponents_unpackSign_unpackExponent_unpackMantissa b]
  generalize Sign.ofBitVec (unpackSign b) = s, unpackExponent b = e, unpackMantissa b = m
  by_cases htop : e = -1#11
  · subst htop
    by_cases hm : m = 0#52
    · subst hm
      simpa [UnpackedFloat.unpack] using .infinity _
    · simpa [UnpackedFloat.unpack, hm] using .notANumber
  by_cases hbottom : e = 0#11
  · subst hbottom
    by_cases hm : m = 0#52
    · subst hm
      simpa [UnpackedFloat.unpack] using .zero _
    · have hpos : 0 < m.toNat := Nat.pos_of_ne_zero fun h => hm (BitVec.eq_of_toNat_eq h)
      have hlt : m.toNat < 2 ^ 52 := m.isLt
      rw [unpack_subnormal hpos]
      exact .finite ⟨hpos, by omega, by omega, .inr rfl⟩ (by omega)
  · have hm : m.toNat < 2 ^ 52 := m.isLt
    have he : e.toNat < 2 ^ 11 := e.isLt
    have htop' : e.toNat ≠ 2047 := fun h => htop (BitVec.eq_of_toNat_eq h)
    have hbottom' : e.toNat ≠ 0 := fun h => hbottom (BitVec.eq_of_toNat_eq h)
    rw [unpack_normal htop hbottom]
    exact .finite ⟨by omega, by omega, by omega, .inl (by omega)⟩ (by omega)

theorem isForm_form (x : Float) : IsForm (form x) := isForm_unpack _

/-- Doubles of one form are equal. -/
theorem form_injective : Function.Injective form := by
  intro ⟨⟨⟨x⟩, hx⟩⟩ ⟨⟨⟨y⟩, hy⟩⟩ h
  obtain rfl : x = y := (unpack_inj_of_valid hx hy).mp h
  rfl

/-- What valid bits stand for is kept by packing. -/
theorem unpack_pack_of_valid {b : BitVec Format.binary64.numBits} {u : UnpackedFloat}
    (hb : Format.binary64.Valid b) (h : UnpackedFloat.unpack .binary64 b = u) :
    UnpackedFloat.unpack .binary64 (UnpackedFloat.pack .binary64 u) = u := by
  rw [← h, pack_unpack_of_valid hb]

/-- A mantissa and an exponent that fit are those of a double, if the exponent is not too
large. -/
theorem unpack_pack_of_fits {s : Sign} {m : Nat} {e : Int} {h : 0 < m} (fits : Fits m e)
    (hmax : e ≤ 971) :
    UnpackedFloat.unpack .binary64 (UnpackedFloat.pack .binary64 (.finite s m e h))
      = .finite s m e h := by
  obtain ⟨-, hlt, hmin, hfull⟩ := fits
  by_cases hm : 2 ^ 52 ≤ m
  · obtain ⟨v, rfl⟩ : ∃ v : BitVec 52, m = 2 ^ 52 + v.toNat :=
      ⟨BitVec.ofNat 52 (m - 2 ^ 52), by simp; omega⟩
    obtain ⟨w, rfl, hw⟩ : ∃ w : BitVec 11, e = w.toNat - 1075 ∧ 0 < w.toNat ∧ w.toNat < 2047 :=
      ⟨BitVec.ofNat 11 (e + 1075).toNat, by simp; omega⟩
    have htop : w ≠ -1#11 := by rintro rfl; simp at hw
    have hbottom : w ≠ 0#11 := by rintro rfl; simp at hw
    exact unpack_pack_of_valid (valid_packComponents htop) (unpack_normal htop hbottom)
  · obtain rfl : e = -1074 := hfull.resolve_left hm
    obtain ⟨v, rfl⟩ : ∃ v : BitVec 52, m = v.toNat := ⟨BitVec.ofNat 52 m, by simp; omega⟩
    exact unpack_pack_of_valid (valid_packComponents (by decide)) (unpack_subnormal h)

/-- The form of a double is kept by its bits. -/
theorem unpack_pack {u : UnpackedFloat} (hu : IsForm u) :
    UnpackedFloat.unpack .binary64 (UnpackedFloat.pack .binary64 u) = u := by
  cases hu with
  | notANumber => rfl
  | infinity s => cases s <;> rfl
  | zero s => cases s <;> rfl
  | finite fits hmax => exact unpack_pack_of_fits fits hmax

/-- A number too large for a finite double. -/
theorem pack_overflow {s : Sign} {m : Nat} {e : Int} {h : 0 < m} (he : 972 ≤ e) :
    UnpackedFloat.pack .binary64 (.finite s m e h) = packedInfinity .binary64 s := by
  have hlarge : 2 ^ Format.binary64.exponentBits
      ≤ (e + ((Format.binary64.exponentBias : Nat) : Int)
        + ((Format.binary64.mantissaBitsWithoutImplicit : Nat) : Int)).toNat + 1 := by
    change 2048 ≤ (e + 1023 + 52).toNat + 1
    omega
  simp only [UnpackedFloat.pack]
  rw [if_pos hlarge]

theorem isNaN_iff_form (x : Float) : x.isNaN = true ↔ form x = .notANumber :=
  UnpackedFloat.isNaN_iff

theorem isNaN_eq_false_iff (x : Float) : x.isNaN = false ↔ form x ≠ .notANumber := by
  rw [Bool.eq_false_iff, Ne, isNaN_iff_form]

/-! ### Order -/

/-- The place of a form in the order of numbers: its sign and kind, then the exponent and then
the mantissa, downwards for negative numbers. -/
def rank : UnpackedFloat → ℤ ×ₗ ℤ ×ₗ ℤ
  | .infinity .negative => toLex (-2, toLex (0, 0))
  | .finite .negative m e _ => toLex (-1, toLex (-e, -m))
  | .zero _ | .notANumber => toLex (0, toLex (0, 0))
  | .finite .positive m e _ => toLex (1, toLex (e, m))
  | .infinity .positive => toLex (2, toLex (0, 0))

theorem compare_toLex {α β : Type} [LinearOrder α] [LinearOrder β] (a c : α) (b d : β) :
    compare (toLex (a, b)) (toLex (c, d)) = (compare a c).then (compare b d) := by
  rw [Prod.Lex.compare_def]
  rfl

theorem compare_neg (a b : ℤ) : compare (-a) (-b) = (compare a b).swap := by
  rcases lt_trichotomy a b with h | rfl | h
  · rw [compare_lt_iff_lt.mpr h, compare_gt_iff_gt.mpr (by omega), Ordering.swap]
  · simp
  · rw [compare_gt_iff_gt.mpr h, compare_lt_iff_lt.mpr (by omega), Ordering.swap]

theorem compare_natCast (a b : ℕ) : compare (a : ℤ) (b : ℤ) = compare a b := by
  rcases lt_trichotomy a b with h | rfl | h
  · rw [compare_lt_iff_lt.mpr h, compare_lt_iff_lt.mpr (by omega)]
  · simp
  · rw [compare_gt_iff_gt.mpr h, compare_gt_iff_gt.mpr (by omega)]

/-- Forms that are no NaN compare as their ranks do. -/
theorem compare_eq {u v : UnpackedFloat} (hu : u ≠ .notANumber) (hv : v ≠ .notANumber) :
    u.compare v = some (compare (rank u) (rank v)) := by
  rcases u with (_ | _) | _ | (_ | _) | ⟨_ | _, m₁, e₁, h₁⟩ <;>
    rcases v with (_ | _) | _ | (_ | _) | ⟨_ | _, m₂, e₂, h₂⟩ <;>
    first
    | exact absurd rfl hu
    | exact absurd rfl hv
    | rfl
    | simp [UnpackedFloat.compare, rank, compare_toLex, compare_neg, compare_natCast,
        Ordering.swap_then]

theorem compare_eq_none {u v : UnpackedFloat} (h : u = .notANumber ∨ v = .notANumber) :
    u.compare v = none := by
  rcases h with rfl | rfl
  · rfl
  · cases u <;> rfl

/-- A double is less than another one where both are numbers and rank so. -/
theorem lt_iff_rank (x y : Float) : x < y ↔
    x.isNaN = false ∧ y.isNaN = false ∧ rank (form x) < rank (form y) := by
  have hlt : x < y ↔ (form x).lt (form y) = true := decide_eq_true_iff
  rw [hlt, UnpackedFloat.lt, isNaN_eq_false_iff, isNaN_eq_false_iff]
  by_cases hnan : form x = .notANumber ∨ form y = .notANumber
  · rw [compare_eq_none hnan]
    grind
  · simp only [not_or] at hnan
    rw [compare_eq hnan.1 hnan.2]
    simp [hnan, compare_lt_iff_lt]

/-- A double is at most another one where both are numbers and rank so. -/
theorem le_iff_rank (x y : Float) : x ≤ y ↔
    x.isNaN = false ∧ y.isNaN = false ∧ rank (form x) ≤ rank (form y) := by
  have hle : x ≤ y ↔ (form x).le (form y) = true := decide_eq_true_iff
  rw [hle, UnpackedFloat.le, isNaN_eq_false_iff, isNaN_eq_false_iff]
  by_cases hnan : form x = .notANumber ∨ form y = .notANumber
  · rw [compare_eq_none hnan]
    grind
  · simp only [not_or] at hnan
    rw [compare_eq hnan.1 hnan.2]
    simp [hnan, Ordering.isLE_iff_ne_gt, compare_le_iff_le]

theorem le_of_le_of_le {x y z : Float} (hxy : x ≤ y) (hyz : y ≤ z) : x ≤ z := by
  obtain ⟨hx, -, hrank⟩ := (le_iff_rank ..).mp hxy
  obtain ⟨-, hz, hrank'⟩ := (le_iff_rank ..).mp hyz
  exact (le_iff_rank ..).mpr ⟨hx, hz, hrank.trans hrank'⟩

theorem rank_lt_infinity {u : UnpackedFloat} (h : u ≠ .infinity .positive) :
    rank u < rank (.infinity .positive) := by
  rcases u with (_ | _) | _ | _ | ⟨_ | _, m, e, _⟩ <;>
    first
    | exact absurd rfl h
    | simp [rank, Prod.Lex.toLex_lt_toLex]

theorem infinity_lt_rank {u : UnpackedFloat} (h : u ≠ .infinity .negative) :
    rank (.infinity .negative) < rank u := by
  rcases u with (_ | _) | _ | _ | ⟨_ | _, m, e, _⟩ <;>
    first
    | exact absurd rfl h
    | simp [rank, Prod.Lex.toLex_lt_toLex]

end Formula.Binary64
