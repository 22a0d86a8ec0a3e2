/-
Formula/Proofs/Sessions.lean

What the lines of a session leave behind.

A line assigns a number if what stands before its first `=` is a name and what
stands behind it is a numeral, both trimmed (`Assigns`).  An assignment to a name
that was bound at the start sets the cell of that name (`Session.step_of_assigns`),
and every other line leaves the session as it was (`Session.Holds.step_cases`):
the symbols of a session do not change the cells that they read
(`Session.Holds.inert`).

So the cell of a bound name always holds the number that was assigned to it last
(`Session.Started.lastAssigned`), and this is what the name reads as in a formula
(`Session.Holds.reads`).
-/
import Mathlib.Data.List.Induction
import Formula.Calculator.Session
import Formula.Proofs.Encoding
import Formula.Proofs.Inert

namespace Formula.Calculator

open Text

/-! ### Assignments -/

/-- The line has an `=`, and the trimmed parts before and behind the first one are a
name and a numeral. -/
def Assigns (line name : String) (x : Float) : Prop :=
  ∃ before after, line.toList = before ++ '=' :: after ∧ '=' ∉ before ∧
    trim before = name.toList ∧ Numeral.read (trim after) = .ok x

/-- A line may be trimmed before it is cut. -/
theorem splitAssignment?_trim {before : List Char} (h : '=' ∉ before) (after : List Char) :
    splitAssignment? (trim (before ++ '=' :: after)) = some (trim before, trim after) := by
  have hblank : isBlank '=' = false := by decide
  have hbefore : '=' ∉ before.dropWhile isBlank :=
    fun hmem => h ((List.dropWhile_suffix isBlank).subset hmem)
  rw [trim_append_cons hblank, splitAssignment?, splitAt?_append_cons hbefore, Option.map_some]
  dsimp only
  rw [trim_dropWhile, trim_rdropWhile]

namespace Session

variable {s s' : Session} {line name : String} {x : Float} {b : Binding} {bs : List Binding}

/-! ### A line with an equals sign -/

/-- It is an assignment, and nothing else. -/
theorem step_of_equals {before after : List Char} (s : Session)
    (hline : line.toList = before ++ '=' :: after) (h : '=' ∉ before) :
    s.step line = s.assign (trim before) (trim after) := by
  have hne : (trim (before ++ '=' :: after)).isEmpty = false := by
    rw [trim_append_cons (by decide)]
    simp
  simp only [step, hline, hne, splitAssignment?_trim h, Bool.false_eq_true, if_false]

/-- No formula is evaluated: whatever the symbols and features are, the line does the
same and gives no value. -/
theorem step_withContext (s : Session) (h : '=' ∈ line.toList) (D : Context Cells) :
    ({ s with context := D } : Session).step line
      = ({ (s.step line).1 with context := D }, (s.step line).2) ∧
      ∀ x, (s.step line).2 ≠ .value x := by
  obtain ⟨before, after, hline, hbefore⟩ := exists_of_mem h
  rw [step_of_equals _ hline hbefore, step_of_equals _ hline hbefore, assign, assign]
  dsimp only
  split
  · exact ⟨rfl, nofun⟩
  · cases Numeral.read (trim after) with
    | ok x => exact ⟨rfl, nofun⟩
    | error e => exact ⟨rfl, nofun⟩

/-- An assignment to a bound name sets its cell. -/
theorem step_of_assigns (hbound : name ∈ s.bound) (h : Assigns line name x) :
    s.step line = ({ s with cells := s.cells.set name x }, .silence) := by
  obtain ⟨before, after, hline, hbefore, hname, hread⟩ := h
  have hcontains : s.bound.contains name = true := List.contains_iff_mem.mpr hbound
  rw [step_of_equals s hline hbefore, assign, hname, hread, String.ofList_toList, hcontains]
  rfl

/-! ### A line without one -/

theorem step_of_no_equals (s : Session) (h : '=' ∉ line.toList) :
    s.step line = if (trim line.toList).isEmpty then (s, .silence)
      else s.calculate (String.ofList (trim line.toList)) := by
  have hsplit : splitAssignment? (trim line.toList) = none := by
    rw [splitAssignment?, splitAt?_of_not_mem fun hmem => h (mem_of_mem_trim hmem)]
    rfl
  simp only [step, hsplit]

/-- A formula leaves the session as it was. -/
theorem calculate_fst (hC : s.context.Inert) (text : String) : (s.calculate text).1 = s := by
  have hcells := hC.evaluate_world (Bytes.ofString text) s.cells
  rw [calculate]
  rcases hrun : (s.context.evaluate (Bytes.ofString text)).run s.cells with ⟨outcome, cells⟩
  obtain rfl : cells = s.cells := (congrArg Prod.snd hrun).symm.trans hcells
  cases outcome <;> rfl

/-- A line that assigns to no bound name leaves the session as it was. -/
theorem step_eq_self (hC : s.context.Inert)
    (h : ∀ name ∈ s.bound, ∀ x, ¬ Assigns line name x) : (s.step line).1 = s := by
  by_cases hmem : '=' ∈ line.toList
  · obtain ⟨before, after, hline, hbefore⟩ := exists_of_mem hmem
    rw [step_of_equals s hline hbefore, assign]
    split
    · rfl
    · rename_i hbound
      cases hread : Numeral.read (trim after) with
      | error e => rfl
      | ok x =>
        have hname : String.ofList (trim before) ∈ s.bound := by simpa using hbound
        exact absurd ⟨before, after, hline, hbefore, String.toList_ofList.symm, hread⟩
          (h _ hname x)
  · rw [step_of_no_equals s hmem]
    split
    · rfl
    · exact calculate_fst hC _

/-! ### Sessions with bindings -/

/-- A session with the given bindings: exactly their names may be assigned to, in a formula
each of them stands for its cell, and no symbol changes a cell. -/
structure Holds (s : Session) (bs : List Binding) : Prop where
  inert : s.context.Inert
  bound : ∀ name, name ∈ s.bound ↔ ∃ b ∈ bs, b.name = name
  find : ∀ b ∈ bs, s.context.find? (Bytes.ofString b.name) = some (.var (Cells.read b.name))

theorem Holds.mem_bound (h : s.Holds bs) (hb : b ∈ bs) : b.name ∈ s.bound :=
  (h.bound b.name).mpr ⟨b, hb, rfl⟩

/-- A line that assigns to none of the names leaves the session as it was. -/
theorem Holds.step_of_not_assigns (h : s.Holds bs)
    (hline : ∀ b ∈ bs, ∀ x, ¬ Assigns line b.name x) : (s.step line).1 = s := by
  refine step_eq_self h.inert fun name hbound => ?_
  obtain ⟨b, hb, rfl⟩ := (h.bound name).mp hbound
  exact hline b hb

/-- Every line sets the cell of one of the names or leaves the session as it was. -/
theorem Holds.step_cases (h : s.Holds bs) (line : String) :
    (∃ b ∈ bs, ∃ x, Assigns line b.name x ∧
      (s.step line).1 = { s with cells := s.cells.set b.name x }) ∨ (s.step line).1 = s := by
  by_cases hline : ∃ b ∈ bs, ∃ x, Assigns line b.name x
  · obtain ⟨b, hb, x, hassigns⟩ := hline
    exact .inl ⟨b, hb, x, hassigns, by rw [step_of_assigns (h.mem_bound hb) hassigns]⟩
  · exact .inr (h.step_of_not_assigns fun b hb x hassigns => hline ⟨b, hb, x, hassigns⟩)

/-- A line keeps the bindings. -/
theorem Holds.step (h : s.Holds bs) (line : String) : (s.step line).1.Holds bs := by
  rcases h.step_cases line with ⟨b, -, x, -, hstep⟩ | hstep
  · rw [hstep]
    exact ⟨h.inert, h.bound, h.find⟩
  · rw [hstep]
    exact h

/-- A line that is no assignment to a name leaves the cell of that name alone. -/
theorem Holds.cells_step (h : s.Holds bs) (hline : ∀ x, ¬ Assigns line name x) :
    (s.step line).1.cells name = s.cells name := by
  rcases h.step_cases line with ⟨b, -, x, hassigns, hstep⟩ | hstep
  · have hne : name ≠ b.name := by
      rintro rfl
      exact hline x hassigns
    rw [hstep]
    exact if_neg hne
  · rw [hstep]

/-! ### Start -/

/-- A new session: the cells hold the values of the bindings. -/
structure Started (s : Session) (bs : List Binding) : Prop extends s.Holds bs where
  cells : ∀ b ∈ bs, s.cells b.name = b.value

theorem started_base {o : Options} (h : base o = .ok s) : s.Started [] := by
  rw [base] at h
  split at h
  · split at h
    · rename_i C hregister
      obtain rfl := Except.ok.inj h
      have hinert := Context.inert_register (Context.inert_empty (σ := Cells) o.features)
      rw [hregister] at hinert
      exact ⟨⟨hinert, by simp, by simp⟩, by simp⟩
    · exact absurd h nofun
  · obtain rfl := Except.ok.inj h
    exact ⟨⟨Context.inert_empty _, by simp, by simp⟩, by simp⟩

/-- Another variable is bound to a name that is new. -/
theorem Started.bind (h : s.Started bs) (hbind : s.bind b = .ok s') : s'.Started (bs ++ [b]) := by
  rw [Session.bind] at hbind
  cases hadd : s.context.add (Bytes.ofString b.name) (.var (Cells.read b.name)) with
  | error e =>
    rw [hadd] at hbind
    exact absurd hbind nofun
  | ok D =>
    rw [hadd] at hbind
    obtain rfl := Except.ok.inj hbind
    -- a name that is bound twice would be refused, so no cell of another binding is set
    have hnew : ∀ b' ∈ bs, b'.name ≠ b.name := by
      intro b' hb' heq
      have hnone := Context.contains_eq_false_iff.mp (Context.add_eq_ok_iff.mp hadd).2.1
      rw [← heq, h.find b' hb'] at hnone
      exact absurd hnone nofun
    refine ⟨⟨h.inert.add (Symbol.inert_read _) hadd, fun name => ?_, ?_⟩, ?_⟩
    · simp [h.bound, or_and_right, exists_or, or_comm, eq_comm]
    · refine List.forall_mem_append.mpr ⟨fun b' hb' => ?_, List.forall_mem_singleton.mpr ?_⟩
      · have hne : Bytes.ofString b.name ≠ Bytes.ofString b'.name :=
          fun heq => hnew b' hb' (Bytes.ofString_injective heq).symm
        rw [Context.find?_of_add hadd, if_neg hne, h.find b' hb']
      · rw [Context.find?_of_add hadd, if_pos rfl]
    · refine List.forall_mem_append.mpr ⟨fun b' hb' => ?_, List.forall_mem_singleton.mpr ?_⟩
      · exact (if_neg (hnew b' hb')).trans (h.cells b' hb')
      · exact if_pos rfl

theorem Started.bindAll {bs₀ : List Binding} (h : s.Started bs₀)
    (hbind : bs.foldlM Session.bind s = .ok s') : s'.Started (bs₀ ++ bs) := by
  induction bs generalizing s bs₀ with
  | nil =>
    obtain rfl := Except.ok.inj hbind
    rw [List.append_nil]
    exact h
  | cons b bs ih =>
    rw [List.foldlM_cons] at hbind
    obtain ⟨s₁, hb, hrest⟩ := bind_eq_ok.mp hbind
    rw [List.append_cons]
    exact ih (h.bind hb) hrest

/-- What is bound at the start. -/
theorem started_of_start {o : Options} (h : start o = .ok s) : s.Started o.bindings := by
  rw [start] at h
  obtain ⟨s₀, hbase, hbind⟩ := bind_eq_ok.mp h
  exact (started_base hbase).bindAll hbind

/-! ### Many lines -/

/-- The session after lines in turn. -/
def after (s : Session) (texts : List String) : Session :=
  texts.foldl (fun s line => (s.step line).1) s

theorem after_append_singleton (s : Session) (texts : List String) (line : String) :
    s.after (texts ++ [line]) = ((s.after texts).step line).1 :=
  List.foldl_append

theorem Holds.after (h : s.Holds bs) (texts : List String) : (s.after texts).Holds bs := by
  induction texts using List.reverseRecOn with
  | nil => exact h
  | append_singleton texts line ih =>
    rw [after_append_singleton]
    exact ih.step line

/-- The number that was assigned to a bound name last, the first value if there is
none. -/
def LastAssigned (b : Binding) (texts : List String) (x : Float) : Prop :=
  (∃ u line v, texts = u ++ line :: v ∧ Assigns line b.name x ∧
    ∀ l ∈ v, ∀ y, ¬ Assigns l b.name y) ∨
  ((∀ l ∈ texts, ∀ y, ¬ Assigns l b.name y) ∧ x = b.value)

theorem lastAssigned_of_assigns {texts : List String} (h : Assigns line b.name x) :
    LastAssigned b (texts ++ [line]) x :=
  .inl ⟨texts, line, [], rfl, h, fun _ hl => absurd hl List.not_mem_nil⟩

/-- A line that assigns nothing to the name is passed over. -/
theorem LastAssigned.append_singleton {texts : List String} (h : LastAssigned b texts x)
    (hline : ∀ y, ¬ Assigns line b.name y) : LastAssigned b (texts ++ [line]) x := by
  rcases h with ⟨u, l, v, rfl, hassigns, hv⟩ | ⟨hnone, hx⟩
  · refine .inl ⟨u, l, v ++ [line], by simp, hassigns, ?_⟩
    exact List.forall_mem_append.mpr ⟨hv, List.forall_mem_singleton.mpr hline⟩
  · exact .inr ⟨List.forall_mem_append.mpr ⟨hnone, List.forall_mem_singleton.mpr hline⟩, hx⟩

/-- The cell of a bound name holds the number that was assigned last. -/
theorem Started.lastAssigned (h : s.Started bs) (hb : b ∈ bs) (texts : List String) :
    LastAssigned b texts ((s.after texts).cells b.name) := by
  induction texts using List.reverseRecOn with
  | nil => exact .inr ⟨fun _ hl => absurd hl List.not_mem_nil, h.cells b hb⟩
  | append_singleton texts line ih =>
    have hafter : (s.after texts).Holds bs := h.toHolds.after texts
    rw [after_append_singleton]
    -- the last line decides, unless it assigns nothing to the name
    by_cases hline : ∃ y, Assigns line b.name y
    · obtain ⟨y, hy⟩ := hline
      have hcell : ((s.after texts).step line).1.cells b.name = y := by
        rw [step_of_assigns (hafter.mem_bound hb) hy]
        exact if_pos rfl
      rw [hcell]
      exact lastAssigned_of_assigns hy
    · have hnone : ∀ y, ¬ Assigns line b.name y := not_exists.mp hline
      rw [hafter.cells_step hnone]
      exact ih.append_singleton hnone

/-- Inside a formula the name stands for a variable that gives `x` when it is read
now. -/
def Reads (s : Session) (name : String) (x : Float) : Prop :=
  ∃ read, s.context.find? (Bytes.ofString name) = some (.var read) ∧
    read.run s.cells = (x, s.cells)

theorem Holds.reads (h : s.Holds bs) (hb : b ∈ bs) : s.Reads b.name (s.cells b.name) :=
  ⟨Cells.read b.name, h.find b hb, rfl⟩

end Session

end Formula.Calculator
