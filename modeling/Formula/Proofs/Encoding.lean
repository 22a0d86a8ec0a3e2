/-
Formula/Proofs/Encoding.lean

Texts and their bytes.

The bytes of a string are those of its characters, one after another
(`Bytes.ofString_ofList`).  Decoding is the inverse of that: bytes decode to a
string if and only if they are its bytes (`Bytes.toString?_eq_some_iff`), and no
two strings have the same bytes (`Bytes.ofString_injective`).
-/
import Formula.Name

namespace Formula

namespace Bytes

variable {bs : Bytes} {s : String}

theorem toList_loop (bs : ByteArray) (i : Nat) (r : Bytes) :
    ByteArray.toList.loop bs i r = r.reverse ++ bs.data.toList.drop i := by
  induction i, r using ByteArray.toList.loop.induct bs with
  | case1 i r h ih =>
    have hi : i < bs.data.toList.length := by simpa using h
    have hget : bs.get! i = bs.data.toList[i] := getElem!_pos bs.data i hi
    rw [ByteArray.toList.loop, if_pos h, ih, List.drop_eq_getElem_cons hi, hget]
    simp
  | case2 i r h =>
    have hi : bs.data.toList.length ≤ i := by simpa using h
    rw [ByteArray.toList.loop, if_neg h, List.drop_eq_nil_of_le hi, List.append_nil]

theorem ofString_eq (s : String) : ofString s = s.toByteArray.data.toList :=
  toList_loop s.toByteArray 0 []

/-- The bytes of a string are the bytes of its characters. -/
theorem ofString_ofList (cs : List Char) :
    ofString (String.ofList cs) = cs.flatMap String.utf8EncodeChar := by
  rw [ofString_eq, String.toByteArray_ofList, List.utf8Encode, List.data_toByteArray]

/-- Bytes decode to the string that they are the bytes of. -/
theorem toString?_eq_some_iff : toString? bs = some s ↔ ofString s = bs := by
  rw [toString?, String.fromUTF8?, ofString_eq]
  constructor
  · intro h
    split at h
    · obtain rfl := Option.some.inj h
      rfl
    · exact absurd h nofun
  · rintro rfl
    exact dif_pos s.isValidUTF8

theorem toString?_ofString (s : String) : toString? (ofString s) = some s :=
  toString?_eq_some_iff.mpr rfl

/-- Bytes that decode to nothing are the bytes of no string. -/
theorem toString?_eq_none_iff : toString? bs = none ↔ ¬ ∃ s, ofString s = bs := by
  simp only [Option.eq_none_iff_forall_ne_some, ne_eq, toString?_eq_some_iff, not_exists]

theorem ofString_injective : Function.Injective ofString := by
  intro s t h
  have hs := toString?_ofString s
  rw [h, toString?_ofString] at hs
  exact (Option.some.inj hs).symm

end Bytes

end Formula
