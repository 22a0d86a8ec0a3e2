/-
Formula/Proofs/History.lean

What a context binds after any changes.

A change is made or refused, and a refused one leaves the context as it was
(`Context.change`).  What a change does to the symbols is one equation: where it
is made, the name that it mentions stands for what the change says, and every
other name for what it stood for before (`Context.find?_change`).

So the symbols are known from the changes alone.  A name stands for the symbol
that was added under it last, if it has not been removed since
(`Context.find?_after_iff`).
-/
import Mathlib.Data.List.Basic
import Mathlib.Data.List.Induction
import Formula.Proofs.Table

namespace Formula

variable {σ : Type}

/-! ### Changes -/

/-- A change of a context. -/
inductive Change (σ : Type) where
  | add (name : Bytes) (s : Symbol σ)
  | remove (name : Bytes)
  | setFeatures (F : Features)

namespace Change

/-- The changed context, unless the change is refused. -/
def apply (C : Context σ) : Change σ → Except Error (Context σ)
  | add name s => C.add name s
  | remove name => C.remove name
  | setFeatures F => .ok (C.withFeatures F)

/-- The name that a change is about. -/
def name? : Change σ → Option Bytes
  | add name _ | remove name => some name
  | setFeatures _ => none

/-- What that name stands for after the change. -/
def symbol? : Change σ → Option (Symbol σ)
  | add _ s => some s
  | remove _ | setFeatures _ => none

/-- The features that a change enables, if it is about features. -/
def features? : Change σ → Option Features
  | add _ _ | remove _ => none
  | setFeatures F => some F

end Change

namespace Context

variable {C : Context σ} {c : Change σ} {cs : List (Change σ)} {name word : Bytes} {s : Symbol σ}

/-- Makes a change, and tells why it is refused if it is. -/
def change (C : Context σ) (c : Change σ) : Except Error Unit × Context σ :=
  match c.apply C with
  | .ok D => (.ok (), D)
  | .error e => (.error e, C)

/-- The context after changes in turn, any of which may be refused. -/
def after (C : Context σ) (cs : List (Change σ)) : Context σ :=
  cs.foldl (fun C c => (C.change c).2) C

theorem after_append_singleton (C : Context σ) (cs : List (Change σ)) (c : Change σ) :
    C.after (cs ++ [c]) = ((C.after cs).change c).2 :=
  List.foldl_append

/-- The change is made. -/
def Accepts (C : Context σ) (c : Change σ) : Prop := (C.change c).1 = .ok ()

/-! ### One change -/

theorem change_of_apply_ok {D : Context σ} (h : c.apply C = .ok D) :
    C.change c = (.ok (), D) := by
  rw [change, h]

theorem change_of_apply_error {e : Error} (h : c.apply C = .error e) :
    C.change c = (.error e, C) := by
  rw [change, h]

theorem accepts_iff : C.Accepts c ↔ ∃ D, c.apply C = .ok D := by
  rw [Accepts]
  cases h : c.apply C with
  | ok D => simp [change_of_apply_ok h]
  | error e => simp [change_of_apply_error h]

theorem apply_of_accepts (h : C.Accepts c) : c.apply C = .ok (C.change c).2 := by
  obtain ⟨D, hD⟩ := accepts_iff.mp h
  rw [change_of_apply_ok hD, hD]

/-- A refused change leaves the context as it was. -/
theorem change_of_not_accepts (h : ¬ C.Accepts c) : (C.change c).2 = C := by
  cases hc : c.apply C with
  | ok D => exact absurd (accepts_iff.mpr ⟨D, hc⟩) h
  | error e => rw [change_of_apply_error hc]

/-- A change gives the name that it is about its new meaning and leaves all other
names alone. -/
theorem find?_change (h : C.Accepts c) (word : Bytes) :
    (C.change c).2.find? word = if c.name? = some word then c.symbol? else C.find? word := by
  have hc := apply_of_accepts h
  cases c with
  | add name s =>
    have hadd : C.add name s = .ok _ := hc
    simp [find?_of_add hadd, Change.name?, Change.symbol?]
  | remove name =>
    have hremove : C.remove name = .ok _ := hc
    simp [find?_of_remove hremove, Change.name?, Change.symbol?]
  | setFeatures F =>
    rw [Change.name?, if_neg (by simp), ← Except.ok.inj hc]
    rfl

/-- A change leaves the features as they are, unless it is about them. -/
theorem features_change (h : C.Accepts c) :
    (C.change c).2.features = c.features?.getD C.features := by
  have hc := apply_of_accepts h
  cases c with
  | add name s => exact features_of_add hc
  | remove name => exact features_of_remove hc
  | setFeatures F =>
    rw [← Except.ok.inj hc]
    rfl

/-! ### Many changes -/

/-- Among the changes, the last one that is made and is about `name` adds `s`
under it. -/
def LastBound (C : Context σ) (cs : List (Change σ)) (name : Bytes) (s : Symbol σ) : Prop :=
  ∃ u v, cs = u ++ .add name s :: v ∧ (C.after u).Accepts (.add name s) ∧
    ∀ x c y, v = x ++ c :: y → (C.after (u ++ .add name s :: x)).Accepts c → c.name? ≠ some name

/-- A change that is made and is about `name` is the last one. -/
theorem lastBound_of_accepts (h : (C.after cs).Accepts c) (hname : c.name? = some name) :
    C.LastBound (cs ++ [c]) name s ↔ c.symbol? = some s := by
  constructor
  · rintro ⟨u, v, heq, -, hlast⟩
    rcases v.eq_nil_or_concat' with rfl | ⟨v, c', rfl⟩
    · obtain ⟨-, rfl⟩ := List.append_singleton_inj.mp heq
      rfl
    · have heq' : cs ++ [c] = (u ++ .add name s :: v) ++ [c'] := by
        rw [heq, List.append_assoc, List.cons_append]
      obtain ⟨rfl, rfl⟩ := List.append_singleton_inj.mp heq'
      exact absurd hname (hlast v c [] rfl h)
  · intro hsymbol
    cases c with
    | add name' s' =>
      obtain rfl := Option.some.inj hname
      obtain rfl := Option.some.inj hsymbol
      refine ⟨cs, [], rfl, h, fun x c y hnil => ?_⟩
      exact absurd hnil (by simp)
    | remove name' => exact absurd hsymbol nofun
    | setFeatures F => exact absurd hname nofun

/-- A change that is refused or is about something else is passed over. -/
theorem lastBound_append_singleton (h : (C.after cs).Accepts c → c.name? ≠ some name) :
    C.LastBound (cs ++ [c]) name s ↔ C.LastBound cs name s := by
  constructor
  · rintro ⟨u, v, heq, hadd, hlast⟩
    rcases v.eq_nil_or_concat' with rfl | ⟨v, c', rfl⟩
    · obtain ⟨rfl, rfl⟩ := List.append_singleton_inj.mp heq
      exact absurd rfl (h hadd)
    · have heq' : cs ++ [c] = (u ++ .add name s :: v) ++ [c'] := by
        rw [heq, List.append_assoc, List.cons_append]
      obtain ⟨rfl, rfl⟩ := List.append_singleton_inj.mp heq'
      refine ⟨u, v, rfl, hadd, ?_⟩
      rintro x d y rfl
      exact hlast x d (y ++ [c]) (by simp)
  · rintro ⟨u, v, rfl, hadd, hlast⟩
    refine ⟨u, v ++ [c], by simp, hadd, ?_⟩
    intro x d y heq
    rcases y.eq_nil_or_concat' with rfl | ⟨y, c', rfl⟩
    · obtain ⟨rfl, rfl⟩ := List.append_singleton_inj.mp heq
      exact h
    · have heq' : v ++ [c] = (x ++ d :: y) ++ [c'] := by
        rw [heq, List.append_assoc, List.cons_append]
      obtain ⟨rfl, -⟩ := List.append_singleton_inj.mp heq'
      exact hlast x d y rfl

/-- A name stands for what was added under it last and not removed since. -/
theorem find?_after_iff (F : Features) (cs : List (Change σ)) (name : Bytes) (s : Symbol σ) :
    ((empty F).after cs).find? name = some s ↔ (empty F).LastBound cs name s := by
  induction cs using List.reverseRecOn with
  | nil =>
    have hnone : ((empty F).after []).find? name = (none : Option (Symbol σ)) := rfl
    rw [hnone]
    constructor
    · exact fun h => absurd h nofun
    · rintro ⟨u, v, heq, -⟩
      exact absurd heq (by simp)
  | append_singleton cs c ih =>
    rw [after_append_singleton]
    by_cases h : ((empty F).after cs).Accepts c
    · rw [find?_change h]
      by_cases hname : c.name? = some name
      · rw [if_pos hname, lastBound_of_accepts h hname]
      · rw [if_neg hname, lastBound_append_singleton fun _ => hname, ih]
    · rw [change_of_not_accepts h, lastBound_append_singleton fun h' => absurd h' h, ih]

/-- Only valid names are bound. -/
theorem isValid_of_lastBound (h : C.LastBound cs name s) : Name.isValid name = true := by
  obtain ⟨u, v, -, hadd, -⟩ := h
  have hok : (C.after u).add name s = .ok _ := apply_of_accepts hadd
  exact (add_eq_ok_iff.mp hok).1

/-! ### The rules of a context -/

theorem contains_eq_true_iff : C.contains name = true ↔ ∃ s, C.find? name = some s := by
  rw [← Option.isSome_iff_exists, ← Bool.not_eq_false, contains_eq_false_iff,
    ← Option.ne_none_iff_isSome]

theorem mem_names_iff : name ∈ C.names ↔ C.contains name = true := by
  rw [names, Std.TreeMap.mem_keys, contains, Std.TreeMap.mem_iff_contains]

theorem nodup_names (C : Context σ) : C.names.Nodup := Std.TreeMap.nodup_keys

/-- The symbols of a context are a finite map from valid names, and each name in it is listed
once. -/
structure IsMap (C : Context σ) (binds : Bytes → Symbol σ → Prop) : Prop where
  valid : ∀ name ∈ C.names, Name.isValid name = true
  find : ∀ name s, C.find? name = some s ↔ binds name s
  contains : ∀ name, C.contains name = true ↔ ∃ s, C.find? name = some s
  names : ∀ name, name ∈ C.names ↔ C.contains name = true
  nodup : C.names.Nodup

/-- The rules for the next change of a context.
* A name that is not valid is refused, bound or not; a valid name is refused if it is
  bound, and every other name is added.
* Exactly the names that are bound can be removed.  Features can always be changed.
* A refused change leaves symbols and features as they were.  One that is made sets the
  one name that it is about, and only a change of the features changes them. -/
structure Rules (C : Context σ) : Prop where
  illegalName : ∀ name s,
    (C.change (.add name s)).1 = .error .illegalName ↔ Name.isValid name = false
  alreadyDefined : ∀ name s, (C.change (.add name s)).1 = .error .alreadyDefined ↔
    Name.isValid name = true ∧ C.contains name = true
  added : ∀ name s, C.Accepts (.add name s) ↔ Name.isValid name = true ∧ C.contains name = false
  undefinedName : ∀ name,
    (C.change (.remove name)).1 = .error .undefinedName ↔ C.contains name = false
  removed : ∀ name, C.Accepts (.remove name) ↔ C.contains name = true
  switched : ∀ F, C.Accepts (.setFeatures F)
  refused : ∀ c e, (C.change c).1 = .error e → (C.change c).2 = C
  symbols : ∀ c, C.Accepts c → ∀ word,
    (C.change c).2.find? word = if c.name? = some word then c.symbol? else C.find? word
  features : ∀ c, C.Accepts c → (C.change c).2.features = c.features?.getD C.features

/-- The three answers to a new symbol. -/
theorem add_cases (C : Context σ) (name : Bytes) (s : Symbol σ) :
    (C.change (.add name s)).1 = if Name.isValid name then
      if C.contains name then .error .alreadyDefined else .ok () else .error .illegalName := by
  rw [change, Change.apply, add]
  cases Name.isValid name with
  | false => simp
  | true => cases C.contains name <;> simp

/-- The two answers to the removal of a name. -/
theorem remove_cases (C : Context σ) (name : Bytes) :
    (C.change (.remove name)).1
      = if C.contains name then .ok () else .error .undefinedName := by
  rw [change, Change.apply, remove]
  cases C.contains name <;> simp

theorem rules (C : Context σ) : C.Rules where
  illegalName name s := by
    rw [add_cases]
    cases Name.isValid name <;> cases C.contains name <;> simp
  alreadyDefined name s := by
    rw [add_cases]
    cases Name.isValid name <;> cases C.contains name <;> simp
  added name s := by
    rw [Accepts, add_cases]
    cases Name.isValid name <;> cases C.contains name <;> simp
  undefinedName name := by
    rw [remove_cases]
    cases C.contains name <;> simp
  removed name := by
    rw [Accepts, remove_cases]
    cases C.contains name <;> simp
  switched F := rfl
  refused c e h := change_of_not_accepts fun hok => by
    rw [Accepts, h] at hok
    exact absurd hok nofun
  symbols c h := find?_change h
  features c h := features_change h

/-- **A context is a finite map from valid names.**  After any changes of an empty
context a name stands for what was added under it last and not removed since, and
the next change is answered by the rules. -/
theorem isMap_and_rules_after (F : Features) (cs : List (Change σ)) :
    ((empty F).after cs).IsMap ((empty F).LastBound cs) ∧ ((empty F).after cs).Rules := by
  refine ⟨⟨?_, find?_after_iff F cs, fun _ => contains_eq_true_iff, fun _ => mem_names_iff,
    nodup_names _⟩, rules _⟩
  intro name hname
  obtain ⟨s, hs⟩ := contains_eq_true_iff.mp (mem_names_iff.mp hname)
  exact isValid_of_lastBound ((find?_after_iff F cs name s).mp hs)

end Context

end Formula
