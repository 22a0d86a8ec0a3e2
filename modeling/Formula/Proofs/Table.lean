/-
Formula/Proofs/Table.lean

What adding and removing symbols does to a context.

Each of the two, where it is not refused, changes what one name stands for and
nothing else: no other name (`find?_of_add`, `find?_of_remove`) and no feature
(`features_of_add`, `features_of_remove`).
-/
import Std.Data.TreeMap.Lemmas
import Formula.Context

namespace Formula

namespace Context

variable {σ : Type} {C D : Context σ} {name : Bytes} {sym : Symbol σ}

/-- A name is bound if it stands for something. -/
theorem contains_eq_false_iff : C.contains name = false ↔ C.find? name = none := by
  show C.symbols.contains name = false ↔ C.symbols[name]? = none
  rw [Std.TreeMap.contains_eq_isSome_getElem?, Option.isSome_eq_false_iff,
    Option.isNone_iff_eq_none]

/-! ### Adding -/

theorem add_eq_ok_iff : C.add name sym = .ok D ↔ Name.isValid name = true ∧
    C.contains name = false ∧ D = { C with symbols := C.symbols.insert name sym } := by
  unfold add
  cases Name.isValid name with
  | false => simp
  | true =>
    cases C.contains name with
    | false => simp [eq_comm]
    | true => simp

theorem find?_insert (C : Context σ) (name : Bytes) (sym : Symbol σ) (word : Bytes) :
    ({ C with symbols := C.symbols.insert name sym } : Context σ).find? word
      = if name = word then some sym else C.find? word := by
  show (C.symbols.insert name sym)[word]? = _
  rw [Std.TreeMap.getElem?_insert]
  simp only [Std.LawfulEqCmp.compare_eq_iff_eq]
  rfl

/-- A new symbol is found under its name. -/
theorem find?_of_add (h : C.add name sym = .ok D) (word : Bytes) :
    D.find? word = if name = word then some sym else C.find? word := by
  obtain ⟨-, -, rfl⟩ := add_eq_ok_iff.mp h
  exact C.find?_insert name sym word

theorem features_of_add (h : C.add name sym = .ok D) : D.features = C.features := by
  obtain ⟨-, -, rfl⟩ := add_eq_ok_iff.mp h
  rfl

/-! ### Removing -/

theorem remove_eq_ok_iff : C.remove name = .ok D ↔
    C.contains name = true ∧ D = { C with symbols := C.symbols.erase name } := by
  unfold remove
  cases C.contains name with
  | false => simp
  | true => simp [eq_comm]

/-- A removed name stands for nothing. -/
theorem find?_of_remove (h : C.remove name = .ok D) (word : Bytes) :
    D.find? word = if name = word then none else C.find? word := by
  obtain ⟨-, rfl⟩ := remove_eq_ok_iff.mp h
  show (C.symbols.erase name)[word]? = _
  rw [Std.TreeMap.getElem?_erase]
  simp only [Std.LawfulEqCmp.compare_eq_iff_eq]
  rfl

theorem features_of_remove (h : C.remove name = .ok D) : D.features = C.features := by
  obtain ⟨-, rfl⟩ := remove_eq_ok_iff.mp h
  rfl

end Context

end Formula
