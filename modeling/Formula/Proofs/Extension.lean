/-
Formula/Proofs/Extension.lean

Contexts with more symbols and more features.

A context lies within another one if its symbols stand there under the same names
and its features are enabled there (`Context.Within`).  Whatever a pass can do, it
can do in every context around its own (`Takes.mono`), so whatever compiles
compiles there to the same, as long as the words are the same (`compile_mono`).

For features this is all: a smaller set refuses some texts and never reads one
otherwise (`compile_withFeatures`).

For symbols more is true, because the grammar does not ask for them.  The two
passes are at the same word with the same state until the smaller context misses a
name (`upToName_compile`).  So a new symbol changes nothing for a text whose names
are bound, not even the error, and a removed symbol changes something for those
texts only that look it up (`compile_of_add_and_remove`).
-/
import Formula.Proofs.Coherence
import Formula.Proofs.Lookup
import Formula.Proofs.Placing
import Formula.Proofs.Table

namespace Formula

variable {σ α β : Type}

/-! ### Contexts within contexts -/

/-- The symbols of `C` stand in `D` under the same names, and the features of `C`
are enabled in `D`. -/
structure Context.Within (C D : Context σ) : Prop where
  find? : ∀ {word sym}, C.find? word = some sym → D.find? word = some sym
  allows : ∀ {f}, C.allows f = true → D.allows f = true

namespace Scan

variable {C D : Context σ} {s s' : Scan σ}

/-- Every way to go on is open in the contexts around too. -/
theorem Takes.mono {w : Lexeme} (h : Takes C s w s') (hD : C.Within D) : Takes D s w s' := by
  induction h with
  | literal hexp => exact .literal hexp
  | const hexp hfind => exact .const hexp (hD.find? hfind)
  | var hexp hfind => exact .var hexp (hD.find? hfind)
  | func hexp hfind => exact .func hexp (hD.find? hfind)
  | times hlit hmul _ ih => exact .times hlit (hD.allows hmul) ih
  | openCall hfunc => exact .openCall hfunc
  | openGroup hexp => exact .openGroup hexp
  | closeEmpty hlast htail => exact .closeEmpty hlast htail
  | closeCall hexp htail => exact .closeCall hexp htail
  | closeGroup hexp hne htail => exact .closeGroup hexp hne htail
  | closeUnopened hexp hnil himp => exact .closeUnopened hexp hnil (hD.allows himp)
  | comma hends hsaved hstack => exact .comma hends hsaved (hstack.imp id hD.allows)
  | binary hends hop hallow => exact .binary hends hop (hD.allows hallow)
  | sign hsign hop hallow => exact .sign hsign hop (hD.allows hallow)

theorem acceptAll_mono (hD : C.Within D) {ws : List Lexeme} (h : acceptAll C s ws = .ok s') :
    acceptAll D s ws = .ok s' := by
  induction ws generalizing s with
  | nil => exact h
  | cons w ws ih =>
    obtain ⟨s₁, htakes, h⟩ := acceptAll_cons_eq_ok.mp h
    exact acceptAll_cons_eq_ok.mpr ⟨s₁, htakes.mono hD, ih h⟩

theorem unwind_mono (hD : C.Within D) {stack : List (Pending σ)}
    (h : unwind C s stack = .ok s') : unwind D s stack = .ok s' := by
  induction stack generalizing s with
  | nil => exact h
  | cons p stack ih =>
    cases p with
    | paren =>
      obtain ⟨himp, h⟩ := require_bind_eq_ok.mp h
      exact require_bind_eq_ok.mpr ⟨hD.allows himp, ih h⟩
    | func call =>
      obtain ⟨hargs, h⟩ := require_bind_eq_ok.mp h
      exact require_bind_eq_ok.mpr ⟨hargs, ih h⟩
    | sign u => exact ih h
    | binary o => exact ih h

theorem finish_mono (hD : C.Within D) {p : Postfix σ} (h : s.finish C = .ok p) :
    s.finish D = .ok p := by
  obtain ⟨hexp, s', hunwind, hp⟩ := finish_eq_ok_iff.mp h
  exact finish_eq_ok_iff.mpr ⟨hexp, s', unwind_mono hD hunwind, hp⟩

end Scan

namespace Context

variable {C D : Context σ} {text : Bytes} {p : Postfix σ}

/-- Whatever compiles compiles in the contexts around to the same. -/
theorem compile_mono (hD : C.Within D) (hlex : D.lex text = C.lex text)
    (h : C.compile text = .ok p) : D.compile text = .ok p := by
  obtain ⟨s, hrun, hfinish⟩ := compile_eq_ok_iff.mp h
  rw [← hlex] at hrun
  exact compile_eq_ok_iff.mpr ⟨s, Scan.acceptAll_mono hD hrun, Scan.finish_mono hD hfinish⟩

/-- A text that compiles compiles to the same in a context with the same names, or
it is malformed there. -/
theorem compile_of_within (hD : D.Within C) (hlex : D.lex text = C.lex text)
    (hnames : ∀ word, D.find? word = C.find? word) (h : C.compile text = .ok p) :
    D.compile text = .ok p ∨ D.compile text = .error .malformed := by
  rcases hcompile : D.compile text with e | p'
  · rcases compile_eq_error hcompile with rfl | ⟨-, word, hlook, hfind⟩
    · exact .inr rfl
    · -- the pass around has read the whole text, so it has found the name
      obtain ⟨opensCall, hword⟩ := hlook.exists_mem
      rw [hlex] at hword
      rw [hnames] at hfind
      exact absurd hfind (lookup_of_compile h hword).2
  · have hsame := compile_mono hD hlex.symm hcompile
    rw [h] at hsame
    obtain rfl := Except.ok.inj hsame
    exact .inl rfl

/-! ### More features -/

theorem within_withFeatures (C : Context σ) {F G : Features} (h : F ⊆ G) :
    (C.withFeatures F).Within (C.withFeatures G) := ⟨id, fun {f} => h f⟩

theorem lex_withFeatures (C : Context σ) {F G : Features}
    (h : Feature.scientificNotation ∈ F ↔ Feature.scientificNotation ∈ G) (text : Bytes) :
    (C.withFeatures G).lex text = (C.withFeatures F).lex text := by
  have hsame : F.contains .scientificNotation = G.contains .scientificNotation :=
    Bool.eq_iff_iff.mpr h
  show Formula.lex (G.contains .scientificNotation) text = Formula.lex (F.contains _) text
  rw [hsame]

/-- **Features extend the language.**  With the same literals, more features leave
what compiles as it is, and fewer features leave it or make the text malformed.
An operator stands in the result only if its feature is enabled, or it is a
product and implicit multiplication is. -/
theorem compile_withFeatures {C : Context σ} {F G : Features} {text : Bytes} {p : Postfix σ}
    (hliterals : Feature.scientificNotation ∈ F ↔ Feature.scientificNotation ∈ G)
    (h : (C.withFeatures F).compile text = .ok p) :
    (F ⊆ G → (C.withFeatures G).compile text = .ok p) ∧
      (G ⊆ F → (C.withFeatures G).compile text = .ok p ∨
        (C.withFeatures G).compile text = .error .malformed) ∧
      (∀ u, .unary u ∈ p.items → u.feature ∈ F) ∧
      (∀ o, .binary o ∈ p.items →
        o.feature ∈ F ∨ o = .mul ∧ Feature.implicitMultiplication ∈ F) := by
  have hlex := C.lex_withFeatures hliterals text
  refine ⟨fun hle => ?_, fun hle => ?_, fun u hu => ?_, fun o ho => ?_⟩
  · exact compile_mono (C.within_withFeatures hle) hlex h
  · exact compile_of_within (C.within_withFeatures hle) hlex (fun _ => rfl) h
  · exact enables_of_compile h _ hu
  · exact enables_of_compile h _ ho

/-- The text `-x` with more and with fewer features. -/
theorem sample_compile_withFeatures :
    let C := sample ∅
    let text := Bytes.ofString "-x"
    let few := Features.ofList [.multiplication, .scientificNotation]
    ∃ p, (C.withFeatures .basic).compile text = .ok p ∧
      (C.withFeatures .full).compile text = .ok p ∧
      ((C.withFeatures few).compile text = .ok p ∨
        (C.withFeatures few).compile text = .error .malformed) ∧
      .unary .minus ∈ p.items ∧ Feature.negation ∈ Features.basic := by
  have hlex : ((sample ∅).withFeatures .basic).lex (Bytes.ofString "-x")
      = [.other Byte.minus, .name [120] false] := by
    decide +kernel
  have h : ((sample ∅).withFeatures .basic).compile (Bytes.ofString "-x")
      = .ok ⟨[.const 2, .unary .minus], []⟩ := by
    rw [compile, hlex]
    rfl
  intro C text few
  have hmore : Features.basic ⊆ .full := by
    intro f _
    cases f <;> decide
  have hfewer : few ⊆ .basic := by
    intro f
    cases f <;> decide
  have hmem : Item.unary .minus ∈ ([.const 2, .unary .minus] : List (Item Unit)) :=
    .tail _ (.head _)
  obtain ⟨hfull, -, hunary, -⟩ := compile_withFeatures (G := .full) (by decide) h
  obtain ⟨-, hfew, -, -⟩ := compile_withFeatures (G := few) (by decide) h
  exact ⟨_, h, hfull hmore, hfew hfewer, hmem, hunary _ hmem⟩

end Context

/-! ### More symbols -/

/-- The second computation is the first one, unless that stops at a name that is
not bound. -/
def UpToName (x y : Except Error α) : Prop := x = .error .undefinedName ∨ x = y

theorem UpToName.bind {x y : Except Error α} {k k' : α → Except Error β} (h : UpToName x y)
    (hk : ∀ a, UpToName (k a) (k' a)) : UpToName (x >>= k) (y >>= k') := by
  rcases h with rfl | rfl
  · exact .inl rfl
  · cases x with
    | error e => exact .inr rfl
    | ok a => exact hk a

namespace Scan

variable {C D : Context σ}

/-- A name may be bound in the context around only; every other word is read
without the symbols. -/
theorem upToName_accept (hD : C.Within D) (hfeatures : D.features = C.features) (s : Scan σ)
    (w : Lexeme) : UpToName (accept C s w) (accept D s w) := by
  obtain ⟨symbols, F⟩ := D
  obtain rfl : F = C.features := hfeatures
  cases w with
  | name word opensCall =>
    show UpToName (s.name C word opensCall) (s.name ⟨symbols, C.features⟩ word opensCall)
    rw [name_eq, name_eq]
    apply UpToName.bind (.inr rfl)
    intro _
    cases hfind : C.find? word with
    | none => exact .inl rfl
    | some sym =>
      rw [hD.find? hfind]
      exact .inr rfl
  | literal l => exact .inr rfl
  | badLiteral => exact .inr rfl
  | leftParen => exact .inr rfl
  | rightParen => exact .inr rfl
  | comma => exact .inr rfl
  | other byte => exact .inr rfl

theorem upToName_acceptAll (hD : C.Within D) (hfeatures : D.features = C.features) (s : Scan σ)
    (ws : List Lexeme) : UpToName (acceptAll C s ws) (acceptAll D s ws) := by
  induction ws generalizing s with
  | nil => exact .inr rfl
  | cons w ws ih => exact (upToName_accept hD hfeatures s w).bind ih

/-- The end of the text is read without the symbols. -/
theorem unwind_congr (hfeatures : D.features = C.features) (s : Scan σ)
    (stack : List (Pending σ)) : unwind D s stack = unwind C s stack := by
  induction stack generalizing s with
  | nil => rfl
  | cons p stack ih =>
    cases p with
    | paren =>
      show require (D.features.contains _) >>= _ = require (C.features.contains _) >>= _
      rw [hfeatures, ih]
    | func call =>
      rw [unwind, unwind]
      exact bind_congr fun _ => ih _
    | sign u => exact ih _
    | binary o => exact ih _

end Scan

namespace Context

variable {C D : Context σ} {text name : Bytes} {p : Postfix σ} {sym : Symbol σ}

/-- The words of a text depend on the features alone. -/
theorem lex_of_features (hfeatures : D.features = C.features) (text : Bytes) :
    D.lex text = C.lex text := by
  rw [lex, lex, allows, allows, hfeatures]

/-- With the same features a text compiles in the context around as it does here,
unless it stops here at a name. -/
theorem upToName_compile (hD : C.Within D) (hfeatures : D.features = C.features)
    (text : Bytes) : UpToName (C.compile text) (D.compile text) := by
  unfold compile
  rw [lex_of_features hfeatures]
  apply (Scan.upToName_acceptAll hD hfeatures {} (C.lex text)).bind
  intro s
  unfold Scan.finish
  rw [Scan.unwind_congr hfeatures]
  exact .inr rfl

/-- A new symbol hides none. -/
theorem within_of_add (h : C.add name sym = .ok D) : C.Within D := by
  refine ⟨fun {word _} hfind => ?_, fun {f} => ?_⟩
  · have hne : name ≠ word := by
      rintro rfl
      rw [contains_eq_false_iff.mp (add_eq_ok_iff.mp h).2.1] at hfind
      exact absurd hfind nofun
    rw [find?_of_add h, if_neg hne]
    exact hfind
  · rw [allows, allows, features_of_add h]
    exact id

theorem within_of_remove (h : C.remove name = .ok D) : D.Within C := by
  refine ⟨fun {word _} hfind => ?_, fun {f} => ?_⟩
  · rw [find?_of_remove h] at hfind
    split at hfind
    · exact absurd hfind nofun
    · exact hfind
  · rw [allows, allows, features_of_remove h]
    exact id

/-- With a new symbol a text compiles as before, unless it stopped at a name. -/
theorem compile_of_add (hadd : C.add name sym = .ok D)
    (h : C.compile text ≠ .error .undefinedName) : D.compile text = C.compile text :=
  ((upToName_compile (within_of_add hadd) (features_of_add hadd) text).resolve_left h).symm

/-- Without a symbol a text compiles as before, unless it stops at a name. -/
theorem compile_of_remove (hremove : C.remove name = .ok D) (text : Bytes) :
    UpToName (D.compile text) (C.compile text) :=
  upToName_compile (within_of_remove hremove) (features_of_remove hremove).symm text

/-- A text that looks up a removed name stops there. -/
theorem compile_of_looksUp_removed (hremove : C.remove name = .ok D)
    (h : C.compile text = .ok p) (hlook : C.LooksUp text name) :
    D.compile text = .error .undefinedName := by
  rcases compile_of_remove hremove text with herror | hok
  · exact herror
  · -- the smaller context would have found the name too
    rw [h] at hok
    obtain ⟨opensCall, hword⟩ := hlook.exists_mem
    rw [← lex_of_features (features_of_remove hremove)] at hword
    have hbound := (lookup_of_compile hok hword).2
    rw [find?_of_remove hremove, if_pos rfl] at hbound
    exact absurd rfl hbound

/-- A text that does not look up a removed name does not miss it. -/
theorem compile_of_not_looksUp_removed (hremove : C.remove name = .ok D)
    (h : C.compile text = .ok p) (hlook : ¬ C.LooksUp text name) : D.compile text = .ok p := by
  rcases compile_of_remove hremove text with herror | hok
  · rcases compile_eq_error herror with habsurd | ⟨-, word, hmiss, hfind⟩
    · exact absurd habsurd nofun
    · -- the missed name is looked up in the whole context as well, so it is the removed one
      obtain ⟨opensCall, hword⟩ := hmiss.exists_mem
      rw [lex_of_features (features_of_remove hremove)] at hword
      obtain ⟨hlookup, hbound⟩ := lookup_of_compile h hword
      rw [find?_of_remove hremove] at hfind
      split at hfind
      · next heq =>
        rw [heq] at hlook
        exact absurd hlookup hlook
      · exact absurd hfind hbound
  · rw [hok, h]

/-- **Only the symbols that a text looks up matter.**  A new symbol under a valid
name leaves every result and every error but a missed name.  Without a symbol a
text that compiles misses the name if it looks it up, and compiles to the same if
it does not. -/
theorem compile_of_add_and_remove (C : Context σ) (text : Bytes) :
    (∀ name sym, Name.isValid name = true → C.contains name = false →
      ∃ D, C.add name sym = .ok D ∧
        (C.compile text ≠ .error .undefinedName → D.compile text = C.compile text)) ∧
    (∀ name p, C.contains name = true → C.compile text = .ok p →
      ∃ D, C.remove name = .ok D ∧
        (C.LooksUp text name → D.compile text = .error .undefinedName) ∧
        (¬ C.LooksUp text name → D.compile text = .ok p)) := by
  constructor
  · intro name sym hvalid hnew
    have hadd : C.add name sym = .ok _ := add_eq_ok_iff.mpr ⟨hvalid, hnew, rfl⟩
    exact ⟨_, hadd, compile_of_add hadd⟩
  · intro name p hbound h
    have hremove := remove_eq_ok_iff.mpr ⟨hbound, rfl⟩
    refine ⟨_, hremove, ?_, ?_⟩
    · exact compile_of_looksUp_removed hremove h
    · exact compile_of_not_looksUp_removed hremove h

/-- The text `x-x` looks up `x`, and neither `y` nor `f`. -/
theorem sample_compile_of_add_and_remove :
    let C := sample .basic
    let text := Bytes.ofString "x-x"
    (∃ D, C.add [121] (.const 0) = .ok D ∧ D.compile text = C.compile text) ∧
    (∃ D, C.remove [120] = .ok D ∧ D.compile text = .error .undefinedName) ∧
    (∃ D, C.remove [102] = .ok D ∧ D.compile text = C.compile text) := by
  have hlex : (sample .basic).lex (Bytes.ofString "x-x")
      = [.name [120] false, .other Byte.minus, .name [120] false] := by
    decide +kernel
  have h : (sample .basic).compile (Bytes.ofString "x-x")
      = .ok ⟨[.const 2, .const 2, .binary .sub], []⟩ := by
    rw [compile, hlex]
    rfl
  have hdefined : (sample .basic).compile (Bytes.ofString "x-x") ≠ .error .undefinedName := by
    rw [h]
    simp
  intro C text
  have hx : C.LooksUp text [120] := ⟨[], false, _, {}, hlex, rfl, rfl⟩
  have hf : ¬ C.LooksUp text [102] := by
    intro hlook
    obtain ⟨opensCall, hword⟩ := hlook.exists_mem
    rw [hlex] at hword
    simp at hword
  obtain ⟨hadd, hremove⟩ := compile_of_add_and_remove C text
  refine ⟨?_, ?_, ?_⟩
  · obtain ⟨D, hD, hsame⟩ := hadd [121] (.const 0) (by decide) (by decide)
    exact ⟨D, hD, hsame hdefined⟩
  · obtain ⟨D, hD, hmiss, -⟩ := hremove [120] _ (by decide) h
    exact ⟨D, hD, hmiss hx⟩
  · obtain ⟨D, hD, -, hsame⟩ := hremove [102] _ (by decide) h
    exact ⟨D, hD, (hsame hf).trans h.symm⟩

end Context

end Formula
