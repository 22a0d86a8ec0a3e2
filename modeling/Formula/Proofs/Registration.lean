/-
Formula/Proofs/Registration.lean

What registering symbols leaves behind.

Symbols are added in turn up to the first that is refused.  Where all the names are
valid and no two of them are equal, only a name that was bound before can be refused:
a symbol never stands in the way of a later one.  So either all names are free and all
symbols are added (`Context.addAll_of_free`), or the registration stops at the first
name that is bound, with the symbols in front of it added
(`Context.addAll_of_first_bound`).

In both cases the new context is the old one with some symbols more and with nothing
else changed (`Context.Extends`).  The standard symbols have valid and distinct names
(`Standard.addable_symbols`), so they are registered in that way
(`Context.registered_register`).
-/
import Formula.Standard
import Formula.Proofs.Encoding
import Formula.Proofs.History

namespace Formula

variable {σ : Type}

/-- Symbols that do not stand in each other's way: all names are valid, and no two are
equal. -/
structure Addable (entries : List (String × Symbol σ)) : Prop where
  valid : ∀ entry ∈ entries, Name.isValid (Bytes.ofString entry.1) = true
  nodup : (entries.map Prod.fst).Nodup

theorem addable_cons_iff {name : String} {s : Symbol σ} {entries : List (String × Symbol σ)} :
    Addable ((name, s) :: entries) ↔ Name.isValid (Bytes.ofString name) = true ∧
      (∀ entry ∈ entries, entry.1 ≠ name) ∧ Addable entries := by
  constructor
  · rintro ⟨hvalid, hnodup⟩
    obtain ⟨hname, hvalid⟩ := List.forall_mem_cons.mp hvalid
    obtain ⟨hnew, hnodup⟩ := List.nodup_cons.mp hnodup
    refine ⟨hname, fun entry hentry heq => hnew ?_, hvalid, hnodup⟩
    exact List.mem_map.mpr ⟨entry, hentry, heq⟩
  · rintro ⟨hname, hnew, hvalid, hnodup⟩
    refine ⟨List.forall_mem_cons.mpr ⟨hname, hvalid⟩, List.nodup_cons.mpr ⟨?_, hnodup⟩⟩
    intro hmem
    obtain ⟨entry, hentry, heq⟩ := List.mem_map.mp hmem
    exact hnew entry hentry heq

namespace Context

variable {C D D' : Context σ} {name : String} {s : Symbol σ}
  {u v entries : List (String × Symbol σ)}

/-- The name of no entry is bound. -/
def IsFree (C : Context σ) (entries : List (String × Symbol σ)) : Prop :=
  ∀ entry ∈ entries, C.contains (Bytes.ofString entry.1) = false

/-! ### Contexts with more symbols -/

/-- The context `D` is `C` with the given symbols added and is the same otherwise. -/
structure Extends (D C : Context σ) (entries : List (String × Symbol σ)) : Prop where
  find : ∀ word s, D.find? word = some s ↔
    C.find? word = some s ∨ ∃ name, Bytes.ofString name = word ∧ (name, s) ∈ entries
  features : D.features = C.features

theorem extends_refl (C : Context σ) : C.Extends C [] := ⟨by simp, rfl⟩

/-- A symbol under a free name, and then further ones. -/
theorem Extends.cons (h : D.Extends D' entries) (hadd : C.add (Bytes.ofString name) s = .ok D') :
    D.Extends C ((name, s) :: entries) := by
  refine ⟨fun word t => ?_, h.features.trans (features_of_add hadd)⟩
  have hnone := contains_eq_false_iff.mp (add_eq_ok_iff.mp hadd).2.1
  rw [h.find, find?_of_add hadd]
  by_cases hword : Bytes.ofString name = word
  · -- the name was free, so its only meaning is the new one
    subst hword
    rw [if_pos rfl, hnone]
    constructor
    · rintro (heq | ⟨name', hname', hmem⟩)
      · obtain rfl := Option.some.inj heq
        exact .inr ⟨name, rfl, List.mem_cons_self⟩
      · exact .inr ⟨name', hname', List.mem_cons_of_mem _ hmem⟩
    · rintro (heq | ⟨name', hname', hmem⟩)
      · exact absurd heq nofun
      · rcases List.mem_cons.mp hmem with heq | hmem
        · exact .inl (congrArg some (Prod.mk.inj heq).2.symm)
        · exact .inr ⟨name', hname', hmem⟩
  · rw [if_neg hword]
    refine or_congr_right ⟨?_, ?_⟩
    · rintro ⟨name', hname', hmem⟩
      exact ⟨name', hname', List.mem_cons_of_mem _ hmem⟩
    · rintro ⟨name', hname', hmem⟩
      rcases List.mem_cons.mp hmem with heq | hmem
      · exact absurd ((Prod.mk.inj heq).1 ▸ hname') hword
      · exact ⟨name', hname', hmem⟩

/-- No symbol is changed or lost. -/
theorem Extends.find?_eq (h : D.Extends C entries) {word : Bytes} (hword : C.find? word = some s) :
    D.find? word = some s :=
  (h.find word s).mpr (.inl hword)

/-- The names that are bound are the old ones and those of the entries. -/
theorem Extends.contains_iff (h : D.Extends C entries) (word : Bytes) :
    D.contains word = true ↔
      C.contains word = true ∨ ∃ entry ∈ entries, Bytes.ofString entry.1 = word := by
  simp only [contains_eq_true_iff, h.find, exists_or]
  refine or_congr_right ⟨?_, ?_⟩
  · rintro ⟨t, name, hname, hmem⟩
    exact ⟨(name, t), hmem, hname⟩
  · rintro ⟨⟨name, t⟩, hmem, hname⟩
    exact ⟨t, name, hname, hmem⟩

/-! ### Adding in turn -/

/-- A name that is added leaves the other names free. -/
theorem IsFree.of_add (h : C.IsFree entries) (hadd : C.add (Bytes.ofString name) s = .ok D)
    (hnew : ∀ entry ∈ entries, entry.1 ≠ name) : D.IsFree entries := by
  intro entry hentry
  have hne : Bytes.ofString name ≠ Bytes.ofString entry.1 :=
    fun heq => hnew entry hentry (Bytes.ofString_injective heq).symm
  rw [contains_eq_false_iff, find?_of_add hadd, if_neg hne]
  exact contains_eq_false_iff.mp (h entry hentry)

theorem addAll_cons_of_add (hadd : C.add (Bytes.ofString name) s = .ok D) :
    C.addAll ((name, s) :: entries) = D.addAll entries := by
  rw [addAll, hadd]

/-- Where all names are free all symbols are added. -/
theorem addAll_of_free (hentries : Addable entries) (h : C.IsFree entries) :
    ∃ D, C.addAll entries = (D, .ok ()) ∧ D.Extends C entries := by
  induction entries generalizing C with
  | nil => exact ⟨C, rfl, extends_refl C⟩
  | cons entry entries ih =>
    obtain ⟨name, s⟩ := entry
    obtain ⟨hvalid, hnew, hentries⟩ := addable_cons_iff.mp hentries
    obtain ⟨hfree, hrest⟩ := List.forall_mem_cons.mp h
    have hadd : C.add (Bytes.ofString name) s = .ok _ :=
      add_eq_ok_iff.mpr ⟨hvalid, hfree, rfl⟩
    obtain ⟨D, hD, hextends⟩ := ih hentries (IsFree.of_add hrest hadd hnew)
    exact ⟨D, (addAll_cons_of_add hadd).trans hD, hextends.cons hadd⟩

/-- What is added without a refusal is added first. -/
theorem addAll_append (h : C.addAll u = (D, .ok ())) (v : List (String × Symbol σ)) :
    C.addAll (u ++ v) = D.addAll v := by
  induction u generalizing C with
  | nil =>
    obtain rfl := (Prod.mk.inj h).1
    rfl
  | cons entry u ih =>
    obtain ⟨name, s⟩ := entry
    cases hadd : C.add (Bytes.ofString name) s with
    | ok C' =>
      rw [addAll_cons_of_add hadd] at h
      rw [List.cons_append, addAll_cons_of_add hadd, ih h]
    | error e =>
      rw [addAll, hadd] at h
      exact absurd (Prod.mk.inj h).2 nofun

/-- A valid name that is bound is refused. -/
theorem addAll_cons_of_bound (hvalid : Name.isValid (Bytes.ofString name) = true)
    (h : C.contains (Bytes.ofString name) = true) :
    C.addAll ((name, s) :: entries) = (C, .error .alreadyDefined) := by
  have hadd : C.add (Bytes.ofString name) s = .error .alreadyDefined := by
    rw [add, hvalid, h]
    rfl
  rw [addAll, hadd]

/-- The first name that is bound ends the registration, and what stands in front of it
is added. -/
theorem addAll_of_first_bound (hentries : Addable (u ++ (name, s) :: v)) (hu : C.IsFree u)
    (h : C.contains (Bytes.ofString name) = true) :
    ∃ D, C.addAll (u ++ (name, s) :: v) = (D, .error .alreadyDefined) ∧ D.Extends C u := by
  have haddable : Addable u := by
    refine ⟨fun entry hentry => hentries.valid entry (List.mem_append_left _ hentry), ?_⟩
    have hnodup := hentries.nodup
    rw [List.map_append] at hnodup
    exact (List.nodup_append.mp hnodup).1
  obtain ⟨D, hD, hextends⟩ := addAll_of_free haddable hu
  have hvalid := hentries.valid (name, s) (List.mem_append_right _ List.mem_cons_self)
  have hbound : D.contains (Bytes.ofString name) = true :=
    (hextends.contains_iff _).mpr (.inl h)
  exact ⟨D, (addAll_append hD _).trans (addAll_cons_of_bound hvalid hbound), hextends⟩

/-- Either all names are free or there is a first one that is bound. -/
theorem isFree_or_first_bound (C : Context σ) (entries : List (String × Symbol σ)) :
    C.IsFree entries ∨ ∃ u name s v, entries = u ++ (name, s) :: v ∧ C.IsFree u ∧
      C.contains (Bytes.ofString name) = true := by
  cases hfound : entries.find? fun entry => C.contains (Bytes.ofString entry.1) with
  | none =>
    rw [List.find?_eq_none] at hfound
    exact .inl fun entry hentry => Bool.eq_false_iff.mpr (hfound entry hentry)
  | some entry =>
    obtain ⟨hbound, u, v, heq, hu⟩ := List.find?_eq_some_iff_append.mp hfound
    refine .inr ⟨u, entry.1, entry.2, v, heq, fun entry' hentry' => ?_, hbound⟩
    exact Bool.not_eq_true' _ ▸ hu entry' hentry'

end Context

/-! ### The standard symbols -/

namespace Standard

/-- The names of the standard symbols: two constants, the functions of one argument, and
the functions of any positive number of arguments. -/
def names : List String :=
  ["pi", "e",
    "abs", "sqrt", "cbrt", "exp", "ln", "log10", "log2", "sin", "cos", "tan", "asin", "acos",
    "atan", "floor", "ceil", "round", "trunc",
    "min", "max", "sum", "avg"]

theorem map_fst_symbols : (symbols : List (String × Symbol σ)).map Prod.fst = names := rfl

theorem addable_symbols : Addable (symbols : List (String × Symbol σ)) where
  valid := by
    have hnames : ∀ name ∈ names, Name.isValid (Bytes.ofString name) = true := by
      decide +kernel
    intro entry hentry
    refine hnames entry.1 ?_
    rw [← map_fst_symbols (σ := σ)]
    exact List.mem_map_of_mem hentry
  nodup := by
    rw [map_fst_symbols]
    decide

end Standard

namespace Context

variable {C D : Context σ} {answer : Except Error Unit}

/-- How the registration of the standard symbols in `C` ends: with a context and an
answer.
* It succeeds exactly when none of the names is bound.  Then exactly the standard symbols
  are added, and a second registration fails and changes nothing.
* Otherwise there is a first name that is bound, and exactly the symbols in front of it
  are added.
* In no case a symbol is changed or lost, a feature is switched or a name illegal. -/
structure Registered (C D : Context σ) (answer : Except Error Unit) : Prop where
  succeeds : answer = .ok () ↔ C.IsFree Standard.symbols
  added : answer = .ok () → D.Extends C Standard.symbols
  again : answer = .ok () → D.register = (D, .error .alreadyDefined)
  clash : answer ≠ .ok () → answer = .error .alreadyDefined ∧
    ∃ u name s v, Standard.symbols = u ++ (name, s) :: v ∧ C.IsFree u ∧
      C.contains (Bytes.ofString name) = true ∧ D.Extends C u
  keeps : ∀ word s, C.find? word = some s → D.find? word = some s
  features : D.features = C.features
  legal : answer ≠ .error .illegalName

/-- After a successful registration the first name is bound. -/
theorem Extends.register_eq (h : D.Extends C Standard.symbols) :
    D.register = (D, .error .alreadyDefined) := by
  have hvalid := Standard.addable_symbols.valid (σ := σ) _ List.mem_cons_self
  refine addAll_cons_of_bound hvalid ((h.contains_iff _).mpr (.inr ?_))
  exact ⟨_, List.mem_cons_self, rfl⟩

/-- **Registration only adds, in order, up to the first clash.** -/
theorem registered_register (C : Context σ) :
    Registered C C.register.1 C.register.2 ∧
      (Standard.symbols : List (String × Symbol σ)).map Prod.fst = Standard.names := by
  refine ⟨?_, Standard.map_fst_symbols⟩
  rcases C.isFree_or_first_bound Standard.symbols with hfree | ⟨u, name, s, v, heq, hu, hbound⟩
  · obtain ⟨D, hD, hextends⟩ := addAll_of_free Standard.addable_symbols hfree
    rw [show C.register = (D, .ok ()) from hD]
    exact {
      succeeds := iff_of_true rfl hfree
      added := fun _ => hextends
      again := fun _ => hextends.register_eq
      clash := fun hne => absurd rfl hne
      keeps := fun word s => hextends.find?_eq
      features := hextends.features
      legal := nofun }
  · have haddable := Standard.addable_symbols (σ := σ)
    rw [heq] at haddable
    obtain ⟨D, hD, hextends⟩ := addAll_of_first_bound haddable hu hbound
    have hregister : C.register = (D, .error .alreadyDefined) := by rw [register, heq, hD]
    -- the name that is bound stands among the standard ones
    have hnot : ¬ C.IsFree Standard.symbols := by
      intro hfree
      rw [heq] at hfree
      have hname := hfree (name, s) (List.mem_append_right _ List.mem_cons_self)
      rw [hbound] at hname
      exact absurd hname nofun
    rw [hregister]
    exact {
      succeeds := iff_of_false nofun hnot
      added := fun hok => absurd hok nofun
      again := fun hok => absurd hok nofun
      clash := fun _ => ⟨rfl, u, name, s, v, heq, hu, hbound, hextends⟩
      keeps := fun word s => hextends.find?_eq
      features := hextends.features
      legal := nofun }

end Context

end Formula
