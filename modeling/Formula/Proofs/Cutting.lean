/-
Formula/Proofs/Cutting.lean

Texts that are cut: up to a stop, at a separator, and free of white space.

What is taken or dropped up to a stop does not depend on what stands behind it
(`takeWhile_append_stop`, `dropWhile_append_stop`).  So a text that is trimmed keeps
what stands between two characters that are not blank (`Text.trim_append_cons`), and
a part of a text may be trimmed before or after the text is (`Text.trim_dropWhile`,
`Text.trim_rdropWhile`).
-/
import Mathlib.Data.List.DropRight
import Mathlib.Data.List.TakeDrop
import Formula.Text.Blank

namespace Formula

/-! ### Up to a stop -/

section Stop

variable {α : Type} {p : α → Bool} {c : α}

theorem takeWhile_append_stop (hc : p c = false) (before after : List α) :
    (before ++ c :: after).takeWhile p = before.takeWhile p := by
  induction before with
  | nil => simp [hc]
  | cons b before ih => rw [List.cons_append, List.takeWhile_cons, List.takeWhile_cons, ih]

theorem dropWhile_append_stop (hc : p c = false) (before after : List α) :
    (before ++ c :: after).dropWhile p = before.dropWhile p ++ c :: after := by
  induction before with
  | nil => simp [hc]
  | cons b before ih =>
    rw [List.cons_append, List.dropWhile_cons, List.dropWhile_cons, ih]
    split <;> rfl

theorem rdropWhile_append_stop (hc : p c = false) (before after : List α) :
    (before ++ c :: after).rdropWhile p = before ++ c :: after.rdropWhile p := by
  rw [List.rdropWhile, List.reverse_append, List.reverse_cons, List.append_assoc,
    List.singleton_append, dropWhile_append_stop hc]
  simp [List.rdropWhile]

end Stop

namespace Text

variable {c : Char} {cs before after : List Char}

/-! ### At a separator -/

theorem bne_of_not_mem (h : c ∉ cs) : ∀ d ∈ cs, (d != c) = true := by
  intro d hd
  rw [bne_iff_ne]
  rintro rfl
  exact h hd

/-- A text is cut at its first separator. -/
theorem splitAt?_append_cons (h : c ∉ before) (after : List Char) :
    splitAt? c (before ++ c :: after) = some (before, after) := by
  have hstop : (c != c) = false := bne_self_eq_false c
  have hbefore := bne_of_not_mem h
  rw [splitAt?, List.span_eq_takeWhile_dropWhile, takeWhile_append_stop (p := (· != c)) hstop,
    dropWhile_append_stop (p := (· != c)) hstop, List.takeWhile_eq_self_iff.mpr hbefore,
    List.dropWhile_eq_nil_iff.mpr hbefore]
  rfl

/-- A text without a separator is not cut. -/
theorem splitAt?_of_not_mem (h : c ∉ cs) : splitAt? c cs = none := by
  rw [splitAt?, List.span_eq_takeWhile_dropWhile,
    List.dropWhile_eq_nil_iff.mpr (bne_of_not_mem h)]

/-- What stands before the first separator and what stands behind it. -/
theorem exists_of_mem (h : c ∈ cs) : ∃ before after, cs = before ++ c :: after ∧ c ∉ before := by
  induction cs with
  | nil => exact absurd h List.not_mem_nil
  | cons d cs ih =>
    by_cases hd : c = d
    · exact ⟨[], cs, by rw [hd]; rfl, List.not_mem_nil⟩
    · obtain ⟨before, after, rfl, hbefore⟩ := ih (List.mem_of_ne_of_mem hd h)
      exact ⟨d :: before, after, rfl, List.not_mem_cons_of_ne_of_not_mem hd hbefore⟩

/-! ### White space at the ends -/

theorem trim_of_blank (h : ∀ c ∈ cs, isBlank c = true) : trim cs = [] := by
  rw [trim, List.dropWhile_eq_nil_iff.mpr h]
  rfl

/-- Only what stands before the first character that is not blank and what stands
behind the last one is trimmed. -/
theorem trim_append_cons (hc : isBlank c = false) (before after : List Char) :
    trim (before ++ c :: after) = before.dropWhile isBlank ++ c :: after.rdropWhile isBlank := by
  have htrim : trim (before ++ c :: after)
      = ((before ++ c :: after).dropWhile isBlank).rdropWhile isBlank := rfl
  rw [htrim, dropWhile_append_stop hc, rdropWhile_append_stop hc]

theorem exists_or_blank (cs : List Char) :
    (∃ before c after, cs = before ++ c :: after ∧ isBlank c = false) ∨
      ∀ c ∈ cs, isBlank c = true := by
  by_cases h : ∀ c ∈ cs, isBlank c = true
  · exact .inr h
  · simp only [not_forall, Bool.not_eq_true] at h
    obtain ⟨c, hmem, hc⟩ := h
    obtain ⟨before, after, rfl⟩ := List.append_of_mem hmem
    exact .inl ⟨before, c, after, rfl, hc⟩

/-- White space that is dropped at the front is trimmed anyway. -/
theorem trim_dropWhile (cs : List Char) : trim (cs.dropWhile isBlank) = trim cs := by
  rcases exists_or_blank cs with ⟨before, c, after, rfl, hc⟩ | h
  · rw [dropWhile_append_stop hc, trim_append_cons hc, trim_append_cons hc,
      List.dropWhile_idempotent]
  · rw [List.dropWhile_eq_nil_iff.mpr h, trim_of_blank h]
    rfl

/-- So is white space that is dropped at the end. -/
theorem trim_rdropWhile (cs : List Char) : trim (cs.rdropWhile isBlank) = trim cs := by
  rcases exists_or_blank cs with ⟨before, c, after, rfl, hc⟩ | h
  · rw [rdropWhile_append_stop hc, trim_append_cons hc, trim_append_cons hc,
      List.rdropWhile_idempotent]
  · rw [List.rdropWhile_eq_nil_iff.mpr h, trim_of_blank h]
    rfl

theorem mem_of_mem_trim (h : c ∈ trim cs) : c ∈ cs := by
  have hdrop : c ∈ cs.dropWhile isBlank :=
    (List.rdropWhile_prefix isBlank (cs.dropWhile isBlank)).subset h
  exact (List.dropWhile_suffix isBlank).subset hdrop

end Text

end Formula
