/-
Formula/Proofs/Startup.lean

How the calculator starts.

The bindings are taken from the arguments in their order, with name and value trimmed
(`Options.grows_addAll`), and added to the symbols one after another.  A binding is
refused when its name is no valid one, or is the name of a binding in front of it or of a
standard symbol (`Options.Refuses`).  Which names a session knows at any moment of the
start follows from the bindings so far (`Session.Knows`), so the calculator starts exactly
when no binding is refused (`Session.exists_start_of_accepts`).

The first binding that is refused ends the program before a formula is evaluated or a line
is read, and all it prints is a complaint that names this binding.  Otherwise a formula
among the arguments is evaluated as if every bound name were a constant
(`Session.Started.settles`) and its outcome is printed, and the bound names are those that
lines can assign to (`begins_of_read`).
-/
import Mathlib.Data.List.Forall2
import Formula.Proofs.Constants
import Formula.Proofs.Conversation
import Formula.Proofs.Naming
import Formula.Proofs.Registration

namespace Formula.Calculator

open Text

/-! ### The bindings among the arguments -/

/-- What is asked for by an argument in front of `--`, or by two of them: a binding, given as
`--var=TEXT` or as `--var TEXT`, or something else. -/
inductive Word where
  | binding (text : String)
  | other (argument : String)

namespace Word

/-- What a single argument asks for. -/
def ofArgument (argument : String) : Word :=
  if argument.startsWith "--var=" then binding (String.ofList (argument.toList.drop 6))
  else other argument

/-- What the arguments in front of `--` ask for. -/
def list : List String → List Word
  | [] => []
  | "--" :: _ => []
  | "--var" :: text :: rest => binding text :: list rest
  | argument :: rest => ofArgument argument :: list rest

/-- The text of a binding. -/
def text? : Word → Option String
  | binding text => some text
  | other _ => none

end Word

/-- Where an assignment is read, its parts stand before and behind the first `=`. -/
theorem assigns_of_splitAssignment? {text : String} {name value : List Char} {x : Float}
    (h : splitAssignment? text.toList = some (name, value)) (hvalue : Numeral.read value = .ok x) :
    Assigns text (String.ofList name) x := by
  by_cases hmem : '=' ∈ text.toList
  · obtain ⟨before, after, hline, hbefore⟩ := exists_of_mem hmem
    rw [hline, splitAssignment?, splitAt?_append_cons hbefore] at h
    obtain ⟨rfl, rfl⟩ := Prod.mk.inj (Option.some.inj h)
    exact ⟨before, after, hline, hbefore, String.toList_ofList.symm, hvalue⟩
  · rw [splitAssignment?, splitAt?_of_not_mem hmem, Option.map_none] at h
    cases h

theorem assigns_of_read {text : String} {b : Binding} (h : Binding.read text = .ok b) :
    Assigns text b.name b.value := by
  rw [Binding.read] at h
  split at h
  · exact absurd h nofun
  · next name value hsplit =>
    split at h
    · next x hvalue =>
      obtain rfl := Except.ok.inj h
      exact assigns_of_splitAssignment? hsplit hvalue
    · exact absurd h nofun

namespace Options

variable {o o₁ o₂ : Options} {ws ws' : List Word} {text argument : String}

/-- The options `o₁` are `o` with what the words ask for. -/
def Grows (o o₁ : Options) (ws : List Word) : Prop :=
  (∃ bs, o₁.bindings = o.bindings ++ bs ∧
    List.Forall₂ (fun text b => Assigns text b.name b.value) (ws.filterMap Word.text?) bs) ∧
  (.noStandard ∈ o₁.switches ↔ .noStandard ∈ o.switches ∨ .other "--no-builtins" ∈ ws)

theorem Grows.append (h : o.Grows o₁ ws) (h' : o₁.Grows o₂ ws') : o.Grows o₂ (ws ++ ws') := by
  obtain ⟨⟨bs, hbs, hall⟩, hswitch⟩ := h
  obtain ⟨⟨bs', hbs', hall'⟩, hswitch'⟩ := h'
  refine ⟨⟨bs ++ bs', ?_, ?_⟩, ?_⟩
  · rw [hbs', hbs, List.append_assoc]
  · rw [List.filterMap_append]
    exact List.rel_append hall hall'
  · rw [hswitch', hswitch, List.mem_append, or_assoc]

theorem grows_bind (h : o.bind text = .ok o₁) : o.Grows o₁ [.binding text] := by
  obtain ⟨b, hb, hok⟩ := bind_eq_ok.mp h
  obtain rfl := Except.ok.inj hok
  exact ⟨⟨[b], rfl, .cons (assigns_of_read hb) .nil⟩, by simp⟩

theorem grows_take (h : o.take text = .ok o₁) : o.Grows o₁ [] := by
  rw [take] at h
  split at h
  · exact absurd h nofun
  · obtain rfl := Except.ok.inj h
    exact ⟨⟨[], (List.append_nil _).symm, .nil⟩, by simp⟩

theorem grows_foldlM_take {rest : List String} (h : rest.foldlM take o = .ok o₁) :
    o.Grows o₁ [] := by
  induction rest generalizing o with
  | nil =>
    obtain rfl := Except.ok.inj h
    exact ⟨⟨[], (List.append_nil _).symm, .nil⟩, by simp⟩
  | cons text rest ih =>
    rw [List.foldlM_cons] at h
    obtain ⟨o', htake, hrest⟩ := bind_eq_ok.mp h
    exact (grows_take htake).append (ih hrest)

/-- A word of its own asks for nothing but what it says. -/
theorem grows_other (hbindings : o₁.bindings = o.bindings)
    (hswitch : .noStandard ∈ o₁.switches ↔ .noStandard ∈ o.switches ∨ argument = "--no-builtins") :
    o.Grows o₁ [.other argument] := by
  refine ⟨⟨[], ?_, .nil⟩, ?_⟩
  · rw [hbindings, List.append_nil]
  · rw [hswitch, List.mem_singleton, Word.other.injEq, eq_comm (a := argument)]

theorem ofArgument?_eq_some {switch : Switch} (h : Switch.ofArgument? argument = some switch) :
    Word.ofArgument argument = .other argument ∧
      (switch = .noStandard ↔ argument = "--no-builtins") := by
  unfold Switch.ofArgument? at h
  split at h
  case h_7 => exact absurd h nofun
  all_goals
    obtain rfl := Option.some.inj h
    exact ⟨if_neg (by decide +kernel), by decide⟩

theorem grows_add (h : o.add argument = .ok o₁) : o.Grows o₁ [Word.ofArgument argument] := by
  rw [add] at h
  split at h
  · next switch hswitch =>
    obtain ⟨hword, hiff⟩ := ofArgument?_eq_some hswitch
    rw [turnOn] at h
    split at h
    · exact absurd h nofun
    · obtain rfl := Except.ok.inj h
      rw [hword]
      refine grows_other rfl ?_
      rw [List.mem_cons, ← hiff, or_comm, eq_comm]
  · next hnone =>
    split at h
    · next hvar =>
      rw [Word.ofArgument, if_pos hvar]
      exact grows_bind h
    · next hvar =>
      split at h
      · exact absurd h nofun
      · -- the formula, which is no switch and asks for no binding
        obtain ⟨⟨bs, hbs, hall⟩, hswitch⟩ := grows_take h
        have hne : argument ≠ "--no-builtins" := by
          rintro rfl
          exact absurd hnone nofun
        rw [Word.ofArgument, if_neg hvar]
        refine grows_other ?_ ?_
        · cases hall
          rw [hbs, List.append_nil]
        · simpa [hne] using hswitch

theorem addAll_var (h : isOption text = false) (o : Options) (rest : List String) :
    o.addAll ("--var" :: text :: rest) = o.bind text >>= fun o => o.addAll rest := by
  rw [addAll, h]
  rfl

/-- The options are what the arguments ask for. -/
theorem grows_addAll {arguments : List String} (h : o.addAll arguments = .ok o₁) :
    o.Grows o₁ (Word.list arguments) := by
  induction o, arguments using addAll.induct with
  | case1 o =>
    obtain rfl := Except.ok.inj h
    have hnil : ([] : List String).foldlM take o = .ok o := rfl
    exact grows_foldlM_take hnil
  | case2 o rest => exact grows_foldlM_take h
  | case3 o =>
    rw [addAll] at h
    cases h
  | case4 o text rest hoption =>
    rw [addAll, if_pos hoption] at h
    cases h
  | case5 o text rest hoption ih =>
    rw [addAll_var (Bool.eq_false_iff.mpr hoption)] at h
    obtain ⟨o', hbind, hrest⟩ := bind_eq_ok.mp h
    exact (grows_bind hbind).append (ih o' hrest)
  | case6 o argument rest h₁ h₂ h₃ ih =>
    rw [addAll] at h
    · obtain ⟨o', hadd, hrest⟩ := bind_eq_ok.mp h
      rw [Word.list]
      · exact (grows_add hadd).append (ih o' hrest)
      · exact h₁
      · exact h₃
    · exact h₁
    · exact h₂
    · exact h₃

/-! ### Bindings that are refused -/

/-- Behind the bindings `u` the binding `b` is refused with the error `e`: its name is not
valid, or it is bound already, by an earlier binding or to a standard symbol. -/
inductive Refuses (o : Options) (u : List Binding) (b : Binding) : Error → Prop
  | illegal (hname : Name.isValid (Bytes.ofString b.name) = false) : Refuses o u b .illegalName
  | taken (hname : Name.isValid (Bytes.ofString b.name) = true)
      (hbound : (∃ b' ∈ u, b'.name = b.name) ∨
        o.wantsStandard = true ∧ b.name ∈ Standard.names) : Refuses o u b .alreadyDefined

/-- Behind those in front of it, none of the bindings is refused. -/
def Accepts (o : Options) (bs : List Binding) : Prop :=
  ∀ u b v e, bs = u ++ b :: v → ¬ o.Refuses u b e

variable {u v bs : List Binding} {b : Binding} {e : Error}

theorem not_refuses (hvalid : Name.isValid (Bytes.ofString b.name) = true)
    (hnew : ∀ b' ∈ u, b'.name ≠ b.name)
    (hstandard : o.wantsStandard = true → b.name ∉ Standard.names) : ¬ o.Refuses u b e := by
  intro hb
  cases hb with
  | illegal hname =>
    rw [hvalid] at hname
    exact absurd hname nofun
  | taken _ hbound =>
    rcases hbound with ⟨b', hb', hname⟩ | ⟨hwants, hmem⟩
    · exact hnew b' hb' hname
    · exact hstandard hwants hmem

theorem accepts_nil (o : Options) : o.Accepts [] := fun u b v e h => absurd h (by simp)

theorem Accepts.append_singleton (h : o.Accepts bs) (hb : ∀ e, ¬ o.Refuses bs b e) :
    o.Accepts (bs ++ [b]) := by
  intro u b' v e heq he
  -- a refused binding would be the last one or one of those before
  rcases v.eq_nil_or_concat' with rfl | ⟨v, b'', rfl⟩
  · obtain ⟨rfl, hsingle⟩ := List.append_inj' heq rfl
    obtain rfl := List.singleton_inj.mp hsingle
    exact hb e he
  · have heq' : bs ++ [b] = (u ++ b' :: v) ++ [b''] := by
      rw [heq, List.append_assoc, List.cons_append]
    obtain ⟨rfl, -⟩ := List.append_singleton_inj.mp heq'
    exact h u b' v e rfl he

theorem Accepts.valid (h : o.Accepts bs) :
    ∀ b ∈ bs, Name.isValid (Bytes.ofString b.name) = true := by
  intro b hb
  obtain ⟨u, v, rfl⟩ := List.append_of_mem hb
  exact Bool.of_not_eq_false fun hname => h u b v _ rfl (.illegal hname)

/-- Either no binding is refused or there is a first one that is. -/
theorem accepts_or_refuses (o : Options) (bs : List Binding) :
    o.Accepts bs ∨ ∃ u b v e, bs = u ++ b :: v ∧ o.Accepts u ∧ o.Refuses u b e := by
  induction bs using List.reverseRecOn with
  | nil => exact .inl o.accepts_nil
  | append_singleton bs b ih =>
    rcases ih with haccepts | ⟨u, b', v, e, rfl, hu, hb'⟩
    · by_cases hb : ∃ e, o.Refuses bs b e
      · obtain ⟨e, he⟩ := hb
        exact .inr ⟨bs, b, [], e, rfl, haccepts, he⟩
      · exact .inl (haccepts.append_singleton (not_exists.mp hb))
    · exact .inr ⟨u, b', v ++ [b], e, by rw [List.append_assoc, List.cons_append], hu, hb'⟩

end Options

/-! ### The names that a session knows -/

namespace Session

open Options (Refuses Accepts)

variable {o : Options} {s : Session} {u v bs : List Binding} {b : Binding} {e : Error}

/-- The complaint about a binding that is refused. -/
def complaint (b : Binding) (e : Error) : String :=
  s!"Failed to bind variable '{b.name}': {e.message}"

/-- The names in the context are those of the bindings `u` and, unless they are left out,
those of the standard symbols. -/
def Knows (o : Options) (u : List Binding) (s : Session) : Prop :=
  ∀ name, s.context.contains (Bytes.ofString name) = true ↔
    (∃ b ∈ u, b.name = name) ∨ o.wantsStandard = true ∧ name ∈ Standard.names

/-- Without bindings the calculator always starts. -/
theorem exists_base (o : Options) : ∃ s, base o = .ok s ∧ Knows o [] s := by
  have hfree : (Context.empty o.features : Context Cells).IsFree Standard.symbols :=
    fun _ _ => rfl
  rw [base]
  cases hwants : o.wantsStandard with
  | false =>
    refine ⟨_, rfl, fun name => ?_⟩
    have hnone : (Context.empty o.features : Context Cells).contains (Bytes.ofString name)
        = false := rfl
    simp [hnone, hwants]
  | true =>
    obtain ⟨D, hD, hextends⟩ := Context.addAll_of_free Standard.addable_symbols hfree
    have hregister : (Context.empty o.features : Context Cells).register = (D, .ok ()) := hD
    refine ⟨⟨D, [], .zero⟩, ?_, fun name => ?_⟩
    · rw [if_pos rfl, hregister]
    · have hmem : name ∈ Standard.names ↔
          ∃ entry ∈ (Standard.symbols : List (String × Symbol Cells)),
            Bytes.ofString entry.1 = Bytes.ofString name := by
        rw [← Standard.map_fst_symbols (σ := Cells), List.mem_map]
        simp only [Bytes.ofString_injective.eq_iff]
      have hnone : (Context.empty o.features : Context Cells).contains (Bytes.ofString name)
          = false := rfl
      simp [hextends.contains_iff, hnone, hwants, hmem]

/-- A binding that is not refused is added. -/
theorem Knows.exists_bind (h : Knows o u s) (hb : ∀ e, ¬ o.Refuses u b e) :
    ∃ s', s.bind b = .ok s' ∧ Knows o (u ++ [b]) s' := by
  have hvalid : Name.isValid (Bytes.ofString b.name) = true :=
    Bool.of_not_eq_false fun hname => hb _ (.illegal hname)
  have hfree : s.context.contains (Bytes.ofString b.name) = false :=
    Bool.eq_false_iff.mpr fun hbound => hb _ (.taken hvalid ((h b.name).mp hbound))
  have hadd : s.context.add (Bytes.ofString b.name) (.var (Cells.read b.name)) = .ok _ :=
    Context.add_eq_ok_iff.mpr ⟨hvalid, hfree, rfl⟩
  refine ⟨_, by rw [Session.bind, hadd], fun name => ?_⟩
  rw [((Context.extends_refl _).cons hadd).contains_iff, h]
  simp [Bytes.ofString_injective.eq_iff, or_and_right, exists_or, or_comm, or_left_comm]

/-- A binding that is refused is complained about. -/
theorem Knows.bind_eq_error (h : Knows o u s) (hb : o.Refuses u b e) :
    s.bind b = .error (complaint b e) := by
  have hadd : s.context.add (Bytes.ofString b.name) (.var (Cells.read b.name)) = .error e := by
    cases hb with
    | illegal hname =>
      rw [Context.add, hname]
      rfl
    | taken hname hbound =>
      rw [Context.add, hname, (h b.name).mpr hbound]
      rfl
  rw [Session.bind, hadd]
  rfl

theorem Knows.exists_bindAll (h : Knows o u s) (hbs : o.Accepts (u ++ bs)) :
    ∃ s', bs.foldlM Session.bind s = .ok s' ∧ Knows o (u ++ bs) s' := by
  induction bs generalizing s u with
  | nil => exact ⟨s, rfl, by rwa [List.append_nil]⟩
  | cons b bs ih =>
    obtain ⟨s₁, hb, hknows⟩ := h.exists_bind fun e => hbs u b bs e rfl
    rw [List.append_cons] at hbs ⊢
    obtain ⟨s', hs', hknows'⟩ := ih hknows hbs
    refine ⟨s', ?_, hknows'⟩
    rw [List.foldlM_cons, hb]
    exact hs'

/-- Where no binding is refused the calculator starts. -/
theorem exists_start_of_accepts (h : o.Accepts o.bindings) : ∃ s, start o = .ok s := by
  obtain ⟨s₀, hbase, hknows⟩ := exists_base o
  obtain ⟨s, hs, -⟩ := hknows.exists_bindAll h
  refine ⟨s, ?_⟩
  rw [start, hbase]
  exact hs

/-- The first binding that is refused ends the start. -/
theorem start_of_refuses (hbindings : o.bindings = u ++ b :: v) (hu : o.Accepts u)
    (hb : o.Refuses u b e) : start o = .error (complaint b e) := by
  obtain ⟨s₀, hbase, hknows⟩ := exists_base o
  obtain ⟨s, hs, hknows⟩ := hknows.exists_bindAll hu
  have hrest : (b :: v).foldlM Session.bind s = .error (complaint b e) := by
    rw [List.foldlM_cons, hknows.bind_eq_error hb]
    rfl
  have hstart : start o
      = (u.foldlM Session.bind s₀ >>= fun s => (b :: v).foldlM Session.bind s) := by
    rw [start, hbase, hbindings]
    exact List.foldlM_append
  rw [hstart, hs]
  exact hrest

/-! ### Bound names as constants -/

/-- `D` is the context of the session with constants for the bound names: each of them
stands for its value, and every other name for what it stands for in the session. -/
structure Fixes (s : Session) (bs : List Binding) (D : Context Cells) : Prop where
  features : D.features = s.context.features
  bound : ∀ b ∈ bs, D.find? (Bytes.ofString b.name) = some (.const b.value)
  free : ∀ word, (∀ b ∈ bs, Bytes.ofString b.name ≠ word) →
    D.find? word = s.context.find? word

/-- Constants can be put in place of any names. -/
theorem exists_constants (C : Context Cells) (cells : Cells) (bs : List Binding) :
    ∃ D : Context Cells, D.features = C.features ∧
      (∀ b ∈ bs, D.find? (Bytes.ofString b.name) = some (.const (cells b.name))) ∧
      ∀ word, (∀ b ∈ bs, Bytes.ofString b.name ≠ word) → D.find? word = C.find? word := by
  induction bs using List.reverseRecOn with
  | nil => exact ⟨C, rfl, nofun, fun _ _ => rfl⟩
  | append_singleton bs b ih =>
    obtain ⟨D, hfeatures, hbound, hfree⟩ := ih
    let symbols := D.symbols.insert (Bytes.ofString b.name) (.const (cells b.name))
    have hfind := D.find?_insert (Bytes.ofString b.name) (.const (cells b.name))
    refine ⟨{ D with symbols }, hfeatures, ?_, fun word hword => ?_⟩
    · refine List.forall_mem_append.mpr ⟨fun b' hb' => ?_, List.forall_mem_singleton.mpr ?_⟩
      · -- a name that is given twice stands for the same number
        rw [hfind, hbound b' hb']
        split
        · next heq => rw [Bytes.ofString_injective heq]
        · rfl
      · rw [hfind, if_pos rfl]
    · obtain ⟨hbs, hb⟩ := List.forall_mem_append.mp hword
      rw [hfind, if_neg (hb b List.mem_cons_self), hfree word hbs]

theorem Started.exists_fixes (h : s.Started bs) : ∃ D, s.Fixes bs D := by
  obtain ⟨D, hfeatures, hbound, hfree⟩ := exists_constants s.context s.cells bs
  refine ⟨D, hfeatures, fun b hb => ?_, hfree⟩
  rw [hbound b hb, h.cells b hb]

theorem Started.settles {D : Context Cells} (h : s.Started bs) (hD : s.Fixes bs D) :
    s.context.Settles s.cells D := by
  refine ⟨hD.features, fun word => ?_⟩
  by_cases hword : ∃ b ∈ bs, Bytes.ofString b.name = word
  · obtain ⟨b, hb, rfl⟩ := hword
    have hread : (Cells.read b.name).run s.cells = (b.value, s.cells) := by
      rw [← h.cells b hb]
      rfl
    exact .inr ⟨Cells.read b.name, b.value, h.find b hb, hD.bound b hb, hread⟩
  · exact .inl (hD.free word fun b hb heq => hword ⟨b, hb, heq⟩)

/-! ### What a session serves -/

/-- What the bindings are good for in a session that has just started.  Every bound name
reads as its value, and no formula changes a cell: whatever is evaluated has the outcome
that it has where the bound names are constants (`evaluates`).  Lines can assign to the
bound names, at any time and to no others (`assigns`, `unknown`). -/
structure Serves (s : Session) (bs : List Binding) : Prop where
  inert : s.context.Inert
  reads : ∀ b ∈ bs, s.Reads b.name b.value
  evaluates : ∃ D, s.Fixes bs D ∧ ∀ text,
    (s.context.evaluate text).run s.cells = (((D.evaluate text).run s.cells).1, s.cells)
  answers : ∀ b ∈ bs, s.calculate b.name = (s, .value b.value)
  assigns : ∀ texts line name x, Assigns line name x → (∃ b ∈ bs, b.name = name) →
    (s.after texts).step line
      = ({ s.after texts with cells := (s.after texts).cells.set name x }, .silence)
  unknown : ∀ texts line name x, Assigns line name x → (¬ ∃ b ∈ bs, b.name = name) →
    (s.after texts).step line = (s.after texts, .complaint s!"Unknown variable '{name}'")

/-- The name of a cell is answered with what is in the cell. -/
theorem Holds.calculate_name (h : s.Holds bs) (hb : b ∈ bs)
    (hvalid : Name.isValid (Bytes.ofString b.name) = true) :
    s.calculate b.name = (s, .value (s.cells b.name)) := by
  have hcompile := Context.compile_name hvalid (h.find b hb) rfl 0 0
  have hrun : (s.context.evaluate (Bytes.ofString b.name)).run s.cells
      = (.ok (s.cells b.name), s.cells) := by
    rw [List.replicate_zero, List.nil_append, List.append_nil] at hcompile
    rw [Context.evaluate, hcompile]
    rfl
  rw [calculate, hrun]

/-- A name that is not bound cannot be assigned to. -/
theorem Holds.step_of_unknown (h : s.Holds bs) {line name : String} {x : Float}
    (hline : Assigns line name x) (hname : ¬ ∃ b ∈ bs, b.name = name) :
    s.step line = (s, .complaint s!"Unknown variable '{name}'") := by
  obtain ⟨before, after, hline, hbefore, htrim, -⟩ := hline
  have hcontains : s.bound.contains name = false := by
    rw [← h.bound] at hname
    simpa using hname
  rw [step_of_equals s hline hbefore, assign, htrim, String.ofList_toList, hcontains]
  rfl

theorem serves_of_start (h : start o = .ok s) (haccepts : o.Accepts o.bindings) :
    s.Serves o.bindings := by
  have hstarted := started_of_start h
  have hafter := hstarted.toHolds.after
  constructor
  case inert => exact hstarted.inert
  case reads =>
    intro b hb
    rw [← hstarted.cells b hb]
    exact hstarted.reads hb
  case evaluates =>
    obtain ⟨D, hD⟩ := hstarted.exists_fixes
    exact ⟨D, hD, (hstarted.settles hD).evaluate_world hstarted.inert⟩
  case answers =>
    intro b hb
    rw [hstarted.calculate_name hb (haccepts.valid b hb), hstarted.cells b hb]
  case assigns =>
    intro texts line name x hline hname
    exact step_of_assigns ((hafter texts).bound name |>.mpr hname) hline
  case unknown => exact fun texts line name x => (hafter texts).step_of_unknown

end Session

/-! ### A run -/

open Session (start complaint)

/-- A session that does not start ends the run. -/
theorem run_of_complaint {arguments : List String} {o : Options} {message : String}
    (hread : Options.read arguments = .ok o) (hstart : start o = .error message) (input : Bytes) :
    run arguments input = .failure 1 message := by
  simp only [run, hread, hstart]

/-- What a run prints for the outcome of its formula, and the code that it ends with. -/
def Outcome.ofFormula : Except Error Float → Outcome
  | .ok x => { stdout := numberText x ++ "\n" }
  | .error e => .failure 1 s!"Failed to evaluate the expression: {e.message}"

/-- What the formula evaluates to is printed, and evaluating it changes no cell. -/
theorem Session.exists_answerOnce {s : Session} (hC : s.context.Inert) (formula : String) :
    ∃ outcome, (s.context.evaluate (Bytes.ofString formula)).run s.cells = (outcome, s.cells) ∧
      s.answerOnce formula = Outcome.ofFormula outcome := by
  have hcells := hC.evaluate_world (Bytes.ofString formula) s.cells
  rcases hrun : (s.context.evaluate (Bytes.ofString formula)).run s.cells with ⟨outcome, cells⟩
  obtain rfl : cells = s.cells := (congrArg Prod.snd hrun).symm.trans hcells
  refine ⟨outcome, rfl, ?_⟩
  rw [answerOnce, calculate, hrun]
  cases outcome <;> rfl

/-- How a run with the given arguments begins, where `o` are the options that they ask for.

* `bindings`: the bindings are those of the arguments in their order; each has the trimmed
  name in front of the first `=` and the number that the trimmed text behind it writes.
* `standard`: the standard symbols are left out on demand.
* `cases`: either no binding is refused or there is a first one that is.
* `refused`: the first binding that is refused decides the run, whatever the formula and
  the input are: a complaint with its name and the cause is all that is printed, and the
  code is one.
* `accepted`: if no binding is refused, a session that serves all of them starts.  A formula
  is evaluated in it, and what is printed is its value or why it failed; without a formula
  the lines are answered one after another. -/
structure Begins (arguments : List String) (o : Options) : Prop where
  bindings : List.Forall₂ (fun text b => Assigns text b.name b.value)
    ((Word.list arguments).filterMap Word.text?) o.bindings
  standard : o.wantsStandard = false ↔ .other "--no-builtins" ∈ Word.list arguments
  cases : o.Accepts o.bindings ∨
    ∃ u b v e, o.bindings = u ++ b :: v ∧ o.Accepts u ∧ o.Refuses u b e
  refused : ∀ u b v e, o.bindings = u ++ b :: v → o.Accepts u → o.Refuses u b e →
    ∀ input, run arguments input
      = .failure 1 s!"Failed to bind variable '{b.name}': {e.message}"
  accepted : o.Accepts o.bindings → ∃ s : Session, start o = .ok s ∧ s.Serves o.bindings ∧
    (∀ formula, o.formula? = some formula → ∀ input, ∃ outcome,
      (s.context.evaluate (Bytes.ofString formula)).run s.cells = (outcome, s.cells) ∧
        run arguments input = Outcome.ofFormula outcome) ∧
    (o.formula? = none → ∀ input,
      run arguments input = (s.outcomes input).foldr .andThen (ending (splitLines input)))

/-- **All bindings are bound, or the first one that cannot be ends the run.** -/
theorem begins_of_read {arguments : List String} {o : Options}
    (hread : Options.read arguments = .ok o) : Begins arguments o := by
  obtain ⟨⟨bs, hbs, hall⟩, hswitch⟩ := Options.grows_addAll hread
  constructor
  case bindings =>
    have heq : o.bindings = bs := hbs
    rwa [heq]
  case standard =>
    have hnone : Switch.noStandard ∉ ({} : Options).switches := List.not_mem_nil
    rw [Options.wantsStandard, Bool.not_eq_false', List.contains_iff_mem, hswitch]
    exact or_iff_right hnone
  case cases => exact o.accepts_or_refuses o.bindings
  case refused =>
    intro u b v e hbindings hu hb input
    exact run_of_complaint hread (Session.start_of_refuses hbindings hu hb) input
  case accepted =>
    intro haccepts
    obtain ⟨s, hstart⟩ := Session.exists_start_of_accepts haccepts
    have hserves := Session.serves_of_start hstart haccepts
    refine ⟨s, hstart, hserves, fun formula hformula input => ?_, fun hformula input => ?_⟩
    · have hrun : run arguments input = s.answerOnce formula := by
        simp only [run, hread, hstart, hformula]
      obtain ⟨outcome, hevaluate, hprints⟩ := Session.exists_answerOnce hserves.inert formula
      exact ⟨outcome, hevaluate, hrun.trans hprints⟩
    · rw [Session.run_of_lines hread hstart hformula]
      exact s.converse_eq _

/-- The bindings `x = 1`, `pi = 3` and `1y = 2`. -/
def Options.clash : Options :=
  ⟨none, [⟨"x", Numeral.nearest 1 0⟩, ⟨"pi", Numeral.nearest 3 0⟩, ⟨"1y", Numeral.nearest 2 0⟩], []⟩

theorem Options.read_clash :
    read ["--var", " x = 1", "--var", "pi=3", "--var", "1y=2"] = .ok clash := by
  have hx : isOption " x = 1" = false := by decide +kernel
  have hpi : isOption "pi=3" = false := by decide +kernel
  have hy : isOption "1y=2" = false := by decide +kernel
  simp only [read, addAll_var hx, addAll_var hpi, addAll_var hy]
  rfl

/-- The first binding is accepted. -/
theorem Options.accepts_clash : clash.Accepts [⟨"x", Numeral.nearest 1 0⟩] := by
  refine (accepts_nil _).append_singleton fun e => not_refuses ?_ nofun fun _ => ?_
  · decide +kernel
  · decide

/-- The bindings `x = 2` and `y = 1`, and a formula that reads both. -/
def Options.pair : Options :=
  ⟨some "x*max(x,y)", [⟨"x", Numeral.nearest 2 0⟩, ⟨"y", Numeral.nearest 1 0⟩], []⟩

theorem Options.read_pair :
    read ["--var", "x=2", "--var", "y = 1", "--", "x*max(x,y)"] = .ok pair := by
  have hx : isOption "x=2" = false := by decide +kernel
  have hy : isOption "y = 1" = false := by decide +kernel
  simp only [read, addAll_var hx, addAll_var hy]
  rfl

theorem Options.accepts_pair : pair.Accepts pair.bindings := by
  have hx : pair.Accepts [⟨"x", Numeral.nearest 2 0⟩] := by
    refine (accepts_nil _).append_singleton fun e => not_refuses ?_ nofun fun _ => ?_
    · decide +kernel
    · decide
  refine hx.append_singleton fun e => not_refuses ?_ ?_ fun _ => ?_
  · decide +kernel
  · decide
  · decide

/-- Of three bindings the second one is the first that is refused, and the third one is not
looked at.  Two bindings that are accepted are read by the formula among the arguments. -/
theorem sample_begins_of_read :
    (Options.read ["--var", " x = 1", "--var", "pi=3", "--var", "1y=2"] = .ok .clash ∧
      Begins ["--var", " x = 1", "--var", "pi=3", "--var", "1y=2"] .clash ∧
      run ["--var", " x = 1", "--var", "pi=3", "--var", "1y=2"] []
        = .failure 1 "Failed to bind variable 'pi': name is already defined") ∧
    Options.read ["--var", "x=2", "--var", "y = 1", "--", "x*max(x,y)"] = .ok .pair ∧
      Begins ["--var", "x=2", "--var", "y = 1", "--", "x*max(x,y)"] .pair ∧
      ∃ s, start .pair = .ok s ∧ s.Serves Options.pair.bindings ∧
        (s.context.evaluate (Bytes.ofString "x*max(x,y)")).run s.cells = (.ok 4, s.cells) ∧
        run ["--var", "x=2", "--var", "y = 1", "--", "x*max(x,y)"] [] = { stdout := "4\n" } := by
  have hclash := begins_of_read Options.read_clash
  have hpi : Options.clash.Refuses [⟨"x", Numeral.nearest 1 0⟩] ⟨"pi", Numeral.nearest 3 0⟩
      .alreadyDefined := .taken (by decide +kernel) (.inr ⟨rfl, by decide⟩)
  have hrefused := hclash.refused _ _ _ _ rfl Options.accepts_clash hpi []
  have hpair := begins_of_read Options.read_pair
  obtain ⟨s, hstart, hserves, hformula, -⟩ := hpair.accepted Options.accepts_pair
  obtain ⟨outcome, hevaluate, hrun⟩ := hformula _ rfl []
  -- the outcome does not depend on how the session is written
  have hfour : (match start .pair with
      | .ok s => ((s.context.evaluate (Bytes.ofString "x*max(x,y)")).run s.cells).1
      | .error _ => .error .malformed) = .ok (4 : Float) := by
    decide +kernel
  rw [hstart] at hfour
  dsimp only at hfour
  rw [hevaluate] at hfour
  obtain rfl : outcome = .ok 4 := hfour
  have hprints : Outcome.ofFormula (.ok 4) = { stdout := "4\n" } := by decide +kernel
  exact ⟨⟨Options.read_clash, hclash, hrefused⟩, Options.read_pair, hpair, s, hstart, hserves,
    hevaluate, hrun.trans hprints⟩

end Formula.Calculator
