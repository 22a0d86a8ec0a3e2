/-
Formula/Proofs/Selection.lean

What `min` and `max` return.

Both go through their arguments from left to right with a choice between two numbers, where a
NaN is never chosen over a number.  They start from an infinity, the number that comes last in
the order of preference; it is no argument, but it is chosen only while no number has come.  So
the result is an argument that no argument is preferred to, if one of them is a number
(`Selects`).  Where all arguments are NaN the start value is what is left, and the result is an
infinity that nobody passed.

The choice between two zeros is open (`Chooses`): what is proved of the functions holds for
every choice that keeps to the order.
-/
import Formula.Standard
import Formula.Proofs.Doubles

namespace Formula.Standard

open Binary64 Float.Model

/-! ### Choosing one number -/

/-- An order of preference among numbers: `before x y` says that `x` is preferred to `y`, and
so to everything that `y` is not behind.  A NaN takes no part in it, and `last` is the only
number that is behind or beside all the others. -/
structure IsPreference (before : Float → Float → Prop) (last : Float) : Prop where
  isNaN {x y : Float} : before x y → x.isNaN = false ∧ y.isNaN = false
  asymm {x y : Float} : before x y → ¬ before y x
  trans {x y z : Float} : z.isNaN = false → before x y → ¬ before z y → before x z
  last_isNaN : last.isNaN = false
  eq_last {x : Float} : x.isNaN = false → ¬ before x last → x = last

theorem IsPreference.irrefl {before : Float → Float → Prop} {last : Float}
    (hp : IsPreference before last) (x : Float) : ¬ before x x :=
  fun h => hp.asymm h h

/-- The choice between two numbers in an order of preference.  A NaN is passed over, and which
of two numbers is chosen that are not preferred to each other is open. -/
structure Chooses (before : Float → Float → Prop) (choose : Float → Float → Float) : Prop where
  left {x y : Float} : x.isNaN = true → choose x y = y
  right {x y : Float} : x.isNaN = false → y.isNaN = true → choose x y = x
  first {x y : Float} : before x y → choose x y = x
  second {x y : Float} : before y x → choose x y = y
  mem (x y : Float) : choose x y = x ∨ choose x y = y

/-- `r` is what an order of preference selects among the arguments: one of them that no other
is preferred to, and the last number if all of them are NaN. -/
structure Selects (before : Float → Float → Prop) (last : Float) (args : List Float) (r : Float) :
    Prop where
  mem : (∃ x ∈ args, x.isNaN = false) → r ∈ args
  eq_last : (∀ x ∈ args, x.isNaN = true) → r = last
  not_before : ∀ x ∈ args, ¬ before x r
  isNaN : r.isNaN = false

section Folding

variable {before : Float → Float → Prop} {last r y : Float} {choose : Float → Float → Float}
  {args : List Float}

/-- A NaN among the arguments changes nothing. -/
theorem Selects.append_nan (hp : IsPreference before last) (h : Selects before last args r)
    (hy : y.isNaN = true) : Selects before last (args ++ [y]) r where
  mem := by
    rintro ⟨x, hx, hnum⟩
    rcases List.mem_append.mp hx with hx | hx
    · exact List.mem_append_left _ (h.mem ⟨x, hx, hnum⟩)
    · obtain rfl := List.mem_singleton.mp hx
      exact absurd (hy.symm.trans hnum) nofun
  eq_last hall := h.eq_last fun x hx => hall x (List.mem_append_left _ hx)
  not_before x hx hbefore := by
    rcases List.mem_append.mp hx with hx | hx
    · exact h.not_before x hx hbefore
    · obtain rfl := List.mem_singleton.mp hx
      exact absurd (hy.symm.trans (hp.isNaN hbefore).1) nofun
  isNaN := h.isNaN

/-- A number that the result so far is not preferred to becomes the result. -/
theorem Selects.append_new (hp : IsPreference before last) (h : Selects before last args r)
    (hy : y.isNaN = false) (hry : ¬ before r y) : Selects before last (args ++ [y]) y where
  mem _ := List.mem_append_right _ (List.mem_singleton.mpr rfl)
  eq_last hall := absurd ((hall y (by simp)).symm.trans hy) nofun
  not_before x hx hbefore := by
    rcases List.mem_append.mp hx with hx | hx
    · exact h.not_before x hx (hp.trans h.isNaN hbefore hry)
    · obtain rfl := List.mem_singleton.mp hx
      exact hp.irrefl x hbefore
  isNaN := hy

/-- The result so far stays where a number comes that is not preferred to it.  If it is still
the start value, the number is the start value as well. -/
theorem Selects.append_kept (hp : IsPreference before last) (h : Selects before last args r)
    (hy : y.isNaN = false) (hyr : ¬ before y r) : Selects before last (args ++ [y]) r where
  mem _ := by
    by_cases hnum : ∃ x ∈ args, x.isNaN = false
    · exact List.mem_append_left _ (h.mem hnum)
    · have hr : r = last := h.eq_last fun x hx =>
        Bool.of_not_eq_false fun hx' => hnum ⟨x, hx, hx'⟩
      subst hr
      obtain rfl := hp.eq_last hy hyr
      simp
  eq_last hall := absurd ((hall y (by simp)).symm.trans hy) nofun
  not_before x hx hbefore := by
    rcases List.mem_append.mp hx with hx | hx
    · exact h.not_before x hx hbefore
    · obtain rfl := List.mem_singleton.mp hx
      exact hyr hbefore
  isNaN := h.isNaN

/-- One more argument. -/
theorem Selects.append (hp : IsPreference before last) (hc : Chooses before choose)
    (h : Selects before last args r) (y : Float) :
    Selects before last (args ++ [y]) (choose r y) := by
  cases hy : y.isNaN with
  | true =>
    rw [hc.right h.isNaN hy]
    exact h.append_nan hp hy
  | false =>
    -- the number that was not chosen is not preferred: it would have been chosen
    rcases hc.mem r y with hr | hr
    · have hyr : ¬ before y r := fun hbefore => by
        obtain rfl : y = r := (hc.second hbefore).symm.trans hr
        exact hp.irrefl y hbefore
      exact hr.symm ▸ h.append_kept hp hy hyr
    · have hry : ¬ before r y := fun hbefore => by
        obtain rfl : r = y := (hc.first hbefore).symm.trans hr
        exact hp.irrefl r hbefore
      exact hr.symm ▸ h.append_new hp hy hry

/-- Choosing from left to right, with the last number to start from, selects. -/
theorem selects_foldl (hp : IsPreference before last) (hc : Chooses before choose)
    (args : List Float) : Selects before last args (args.foldl choose last) := by
  induction args using List.reverseRecOn with
  | nil => exact ⟨by simp, by simp, by simp, hp.last_isNaN⟩
  | append_singleton args y ih =>
    rw [List.foldl_append]
    exact ih.append hp hc y

end Folding

/-! ### The lesser and the greater number -/

/-- Numbers are preferred by a key of their forms, and the last one is the only one of its
key. -/
theorem isPreference_of_key {α : Type} [LinearOrder α] (key : UnpackedFloat → α)
    {before : Float → Float → Prop} {last : Float}
    (hbefore : ∀ x y, before x y ↔
      x.isNaN = false ∧ y.isNaN = false ∧ key (form x) < key (form y))
    (hnum : last.isNaN = false) (hlast : ∀ u, u ≠ form last → key u < key (form last)) :
    IsPreference before last where
  isNaN h := ⟨((hbefore ..).mp h).1, ((hbefore ..).mp h).2.1⟩
  asymm h h' := lt_asymm ((hbefore ..).mp h).2.2 ((hbefore ..).mp h').2.2
  trans {x y z} hz hxy hzy := by
    obtain ⟨hx, hy, hkey⟩ := (hbefore ..).mp hxy
    have hle : key (form y) ≤ key (form z) :=
      not_lt.mp fun hlt => hzy ((hbefore ..).mpr ⟨hz, hy, hlt⟩)
    exact (hbefore ..).mpr ⟨hx, hz, hkey.trans_le hle⟩
  last_isNaN := hnum
  eq_last {x} hx h := form_injective (by_contra fun hne =>
    h ((hbefore ..).mpr ⟨hx, hnum, hlast _ hne⟩))

/-- Numbers in ascending order, infinity last. -/
theorem isPreference_lt : IsPreference (· < ·) (1.0 / 0.0) :=
  isPreference_of_key rank lt_iff_rank rfl fun _ hu => rank_lt_infinity hu

/-- Numbers in descending order, minus infinity last. -/
theorem isPreference_gt : IsPreference (· > ·) (-1.0 / 0.0) :=
  isPreference_of_key (OrderDual.toDual ∘ rank)
    (fun x y => (lt_iff_rank y x).trans (by simp; tauto)) rfl fun _ hu => infinity_lt_rank hu

/-- The choice that takes the number on the left unless the other one is preferred. -/
theorem chooses_of_isPreference {before : Float → Float → Prop} [DecidableRel before]
    {last : Float} (hp : IsPreference before last) : Chooses before fun x y =>
      if x.isNaN then y else if y.isNaN then x else if before y x then y else x where
  left hx := if_pos hx
  right hx hy := by simp only [hx, hy, Bool.false_eq_true, ↓reduceIte]
  first h := by simp only [hp.isNaN h, hp.asymm h, Bool.false_eq_true, ↓reduceIte]
  second h := by simp only [hp.isNaN h, h, Bool.false_eq_true, ↓reduceIte]
  mem x y := by split_ifs <;> simp

/-! ### The standard functions -/

/-- A call of a standard function with these arguments gives this number, and does nothing
else. -/
def Gives (σ : Type) (name : String) (args : List Float) (r : Float) : Prop :=
  ∃ call, (name, (.fn call : Symbol σ)) ∈ symbols ∧ call args = pure r

theorem gives_variadic {σ : Type} {name : String} {f : List Float → Float}
    (h : (name, (variadic f : Symbol σ)) ∈ symbols) (x : Float) (xs : List Float) :
    Gives σ name (x :: xs) (f (x :: xs)) :=
  ⟨_, h, rfl⟩

/-- `min` and `max` select: called with any arguments, `min` gives one of them that no argument
is less than, and `max` gives one of them that no argument is greater than, unless all arguments
are NaN; then `min` gives infinity and `max` minus infinity.  This does not depend on which of
two equal numbers is taken. -/
theorem minimum_and_maximum_select (σ : Type) (x : Float) (xs : List Float) :
    (Gives σ "min" (x :: xs) (minimum (x :: xs)) ∧
      Selects (· < ·) (1.0 / 0.0) (x :: xs) (minimum (x :: xs)) ∧
      ∀ choose, Chooses (· < ·) choose →
        Selects (· < ·) (1.0 / 0.0) (x :: xs) ((x :: xs).foldl choose (1.0 / 0.0))) ∧
    (Gives σ "max" (x :: xs) (maximum (x :: xs)) ∧
      Selects (· > ·) (-1.0 / 0.0) (x :: xs) (maximum (x :: xs)) ∧
      ∀ choose, Chooses (· > ·) choose →
        Selects (· > ·) (-1.0 / 0.0) (x :: xs) ((x :: xs).foldl choose (-1.0 / 0.0))) := by
  have hmin : (("min", variadic minimum) : String × Symbol σ) ∈ symbols := by simp [symbols]
  have hmax : (("max", variadic maximum) : String × Symbol σ) ∈ symbols := by simp [symbols]
  exact
    ⟨⟨gives_variadic hmin x xs,
        selects_foldl isPreference_lt (chooses_of_isPreference isPreference_lt) _,
        fun _ hc => selects_foldl isPreference_lt hc _⟩,
      gives_variadic hmax x xs,
      selects_foldl isPreference_gt (chooses_of_isPreference isPreference_gt) _,
      fun _ hc => selects_foldl isPreference_gt hc _⟩

/-- A NaN is passed over, whichever choice between equal numbers is made. -/
theorem sample_minimum_and_maximum_select :
    Selects (· < ·) (1.0 / 0.0) [0.0 / 0.0, 2, 1] 1 ∧
    Selects (· < ·) (1.0 / 0.0) [0.0 / 0.0, 2, 1] ([0.0 / 0.0, 2, 1].foldl lesser (1.0 / 0.0)) := by
  have hmin : minimum [0.0 / 0.0, 2, 1] = 1 := by decide +kernel
  have hselect := (minimum_and_maximum_select Unit (0.0 / 0.0) [2, 1]).1
  rw [hmin] at hselect
  exact ⟨hselect.2.1, hselect.2.2 lesser (chooses_of_isPreference isPreference_lt)⟩

/-- The start value of `min` is returned although it is no argument, where no number is among
the arguments. -/
theorem not_forall_minimum_mem : ¬ ∀ args : List Float, args ≠ [] →
    ∃ x ∈ args, minimum args = x ∨ minimum args == x := by
  intro h
  obtain ⟨x, hx, hmin⟩ := h [0.0 / 0.0] (by simp)
  obtain rfl := List.mem_singleton.mp hx
  revert hmin
  decide +kernel

end Formula.Standard
