/-
Formula/Proofs/Conversation.lean

What the calculator prints for its lines.

The lines that are answered are those up to the first one that is no text
(`legible`).  Each of them has an outcome of its own (`Session.outcomes`), and a run
prints these outcomes one after another (`Session.converse_eq`).

A line that assigns to no bound name leaves the session as it was, so it can be
deleted from the input: its outcome goes and every other one stays
(`Session.Holds.transcript_eraseIdx`).  Lines affect later lines through assignments
only (`Session.converses_of_start`).
-/
import Formula.Calculator.Program
import Formula.Proofs.Sessions

namespace Formula.Calculator

/-! ### The lines of an input -/

/-- The input without a line and without the newline that ends it, where the lines are
counted from zero. -/
def deleteLine : Nat → Bytes → Bytes
  | _, [] => []
  | 0, 10 :: rest => rest
  | 0, _ :: rest => deleteLine 0 rest
  | k + 1, 10 :: rest => 10 :: deleteLine k rest
  | k + 1, b :: rest => b :: deleteLine (k + 1) rest

theorem splitLines_newline (rest : Bytes) : splitLines (10 :: rest) = [] :: splitLines rest := by
  rw [splitLines]

/-- A byte that is no newline stands in the first line. -/
theorem splitLines_cons {b : UInt8} (hb : b ≠ 10) (rest : Bytes) : splitLines (b :: rest)
    = (b :: (splitLines rest).headD []) :: (splitLines rest).tail := by
  rw [splitLines]
  · cases splitLines rest <;> rfl
  · exact hb

theorem splitLines_deleteLine (k : Nat) (input : Bytes) :
    splitLines (deleteLine k input) = (splitLines input).eraseIdx k := by
  -- one case for each equation of `deleteLine`
  induction k, input using deleteLine.induct with
  | case1 k => simp [deleteLine, splitLines]
  | case2 rest => rw [deleteLine, splitLines_newline, List.eraseIdx_cons_zero]
  | case3 b rest hb ih =>
    rw [deleteLine, ih, splitLines_cons hb, List.eraseIdx_cons_zero, List.eraseIdx_zero]
    · exact hb
  | case4 k rest ih =>
    rw [deleteLine, splitLines_newline, splitLines_newline, ih, List.eraseIdx_cons_succ]
  | case5 k b rest hb ih =>
    rw [deleteLine, splitLines_cons hb, splitLines_cons hb, ih, List.eraseIdx_cons_succ]
    · cases splitLines rest <;> rfl
    · exact hb

/-- The texts of the lines, up to the first line that is no text. -/
def legible : List Bytes → List String
  | [] => []
  | line :: lines =>
    match line.toString? with
    | some text => text :: legible lines
    | none => []

/-- What is printed after these lines: the last prompt, and a complaint if there is a
line that is no text. -/
def ending : List Bytes → Outcome
  | [] => { stdout := prompt }
  | line :: lines =>
    match line.toString? with
    | some _ => ending lines
    | none => { stdout := prompt, stderr := unreadable ++ "\n" }

/-- A line that is no text ends the reading, whatever stands behind it. -/
theorem legible_append {u v : List Bytes} {bad : Bytes} (hu : ∀ line ∈ u, line.toString?.isSome)
    (hbad : bad.toString? = none) : legible (u ++ bad :: v) = legible u ∧
      ending u = { stdout := prompt } ∧
      ending (u ++ bad :: v) = { stdout := prompt, stderr := unreadable ++ "\n" } := by
  induction u with
  | nil => simp [legible, ending, hbad]
  | cons line u ih =>
    obtain ⟨hline, hu⟩ := List.forall_mem_cons.mp hu
    obtain ⟨text, htext⟩ := Option.isSome_iff_exists.mp hline
    obtain ⟨hlegible, hending, hbad⟩ := ih hu
    simp [legible, ending, htext, hlegible, hending, hbad]

namespace Session

variable {s : Session} {bs : List Binding}

/-! ### Outcomes -/

/-- What is printed for a line: the prompt and the answer. -/
def outcome (s : Session) (line : String) : Outcome :=
  ({ stdout := prompt } : Outcome).andThen (s.step line).2.outcome

/-- The outcomes of lines in turn. -/
def transcript (s : Session) : List String → List Outcome
  | [] => []
  | line :: lines => s.outcome line :: (s.step line).1.transcript lines

/-- The outcomes of the lines of an input. -/
def outcomes (s : Session) (input : Bytes) : List Outcome :=
  s.transcript (legible (splitLines input))

/-- The outcomes are printed in turn. -/
theorem converse_eq (s : Session) (lines : List Bytes) :
    s.converse lines = (s.transcript (legible lines)).foldr .andThen (ending lines) := by
  induction lines generalizing s with
  | nil => rfl
  | cons line lines ih =>
    rw [converse, legible, ending]
    cases hline : line.toString? with
    | none => rfl
    | some text =>
      dsimp only
      rw [transcript, List.foldr_cons, ← ih]
      rfl

theorem code_converse (s : Session) (lines : List Bytes) : (s.converse lines).code = 0 := by
  induction lines generalizing s with
  | nil => rfl
  | cons line lines ih =>
    rw [converse]
    cases line.toString? with
    | none => rfl
    | some text => exact ih _

/-- Without a line that assigns to no bound name, all other lines have the outcomes that
they have with it. -/
theorem Holds.transcript_eraseIdx (h : s.Holds bs) {lines : List Bytes} {k : Nat} {line : String}
    (hk : lines[k]? = some (Bytes.ofString line)) (hline : ∀ b ∈ bs, ∀ x, ¬ Assigns line b.name x) :
    s.transcript (legible (lines.eraseIdx k)) = (s.transcript (legible lines)).eraseIdx k ∧
      ending (lines.eraseIdx k) = ending lines := by
  induction lines generalizing s k with
  | nil => exact absurd hk (by simp)
  | cons l lines ih =>
    cases k with
    | zero =>
      -- the line itself: what follows is answered by the session that it finds
      obtain rfl : l = Bytes.ofString line := by simpa using hk
      have hstep : (s.step line).1 = s := h.step_of_not_assigns hline
      simp [legible, ending, transcript, Bytes.toString?_ofString, hstep]
    | succ k =>
      have hk' : lines[k]? = some (Bytes.ofString line) := by simpa using hk
      rw [List.eraseIdx_cons_succ, legible, legible, ending, ending]
      cases l.toString? with
      | none => exact ⟨rfl, rfl⟩
      | some text =>
        obtain ⟨htranscript, hending⟩ := ih (h.step text) hk'
        exact ⟨congrArg (_ :: ·) htranscript, hending⟩

/-! ### A run -/

/-- Without a formula among the arguments the lines are answered. -/
theorem run_of_lines {arguments : List String} {o : Options}
    (hread : Options.read arguments = .ok o) (hstart : start o = .ok s)
    (hformula : o.formula? = none) (input : Bytes) :
    run arguments input = s.converse (splitLines input) := by
  simp only [run, hread, hstart, hformula]

/-- How the calculator deals with its lines, where `arguments` start the session `s`
with the bindings `bs`.
* A bound name reads as the number that was assigned to it last.
* A line that assigns to no bound name changes nothing.
* A line with an `=` is not evaluated: it does the same in every context, and its answer
  is no value.
* The outcomes of the lines are printed one after another, and the code is zero.
* Deleting a line that assigns to no bound name leaves the outcome of every other line,
  and of the end of the input, as it was.
* The lines before the first that is no text have the outcomes that they have where the
  input ends behind them, and no line behind it is answered. -/
structure Converses (s : Session) (bs : List Binding) (arguments : List String) : Prop where
  reads : ∀ texts, ∀ b ∈ bs, ∃ x, LastAssigned b texts x ∧ (s.after texts).Reads b.name x
  keeps : ∀ texts line, (∀ b ∈ bs, ∀ x, ¬ Assigns line b.name x) →
    ((s.after texts).step line).1 = s.after texts
  equals : ∀ texts line, '=' ∈ line.toList → ∀ D,
    ({ s.after texts with context := D } : Session).step line
      = ({ ((s.after texts).step line).1 with context := D }, ((s.after texts).step line).2) ∧
      ∀ x, ((s.after texts).step line).2 ≠ .value x
  prints : ∀ input, run arguments input
    = (s.outcomes input).foldr .andThen (ending (splitLines input)) ∧
      (run arguments input).code = 0
  deletes : ∀ input k line, (splitLines input)[k]? = some (Bytes.ofString line) →
    (∀ b ∈ bs, ∀ x, ¬ Assigns line b.name x) →
      s.outcomes (deleteLine k input) = (s.outcomes input).eraseIdx k ∧
        ending (splitLines (deleteLine k input)) = ending (splitLines input)
  ends : ∀ input start bad rest, splitLines input = splitLines start ++ bad :: rest →
    (∀ line ∈ splitLines start, ∃ text, Bytes.ofString text = line) →
      (¬ ∃ text, Bytes.ofString text = bad) → s.outcomes input = s.outcomes start ∧
        ending (splitLines start) = { stdout := prompt } ∧
        ending (splitLines input) = { stdout := prompt, stderr := unreadable ++ "\n" }

/-- **Lines affect later lines through assignments only.** -/
theorem converses_of_start {arguments : List String} {o : Options}
    (hread : Options.read arguments = .ok o) (hformula : o.formula? = none)
    (hstart : start o = .ok s) : s.Converses o.bindings arguments := by
  have hstarted := started_of_start hstart
  have hafter := hstarted.toHolds.after
  constructor
  case reads => exact fun texts b hb => ⟨_, hstarted.lastAssigned hb texts, (hafter texts).reads hb⟩
  case keeps => exact fun texts line hline => (hafter texts).step_of_not_assigns hline
  case equals => exact fun texts line hline D => (s.after texts).step_withContext hline D
  case prints =>
    intro input
    rw [run_of_lines hread hstart hformula]
    exact ⟨s.converse_eq _, s.code_converse _⟩
  case deletes =>
    intro input k line hk hline
    rw [outcomes, outcomes, splitLines_deleteLine]
    exact hstarted.transcript_eraseIdx hk hline
  case ends =>
    intro input start bad rest hinput hlegible hbad
    have hsome : ∀ line ∈ splitLines start, line.toString?.isSome := by
      intro line hline
      obtain ⟨text, rfl⟩ := hlegible line hline
      rw [Bytes.toString?_ofString]
      rfl
    obtain ⟨hlegible, hstart, hending⟩ :=
      legible_append (v := rest) hsome (Bytes.toString?_eq_none_iff.mpr hbad)
    rw [outcomes, hinput, hlegible]
    exact ⟨rfl, hstart, hending⟩

end Session

/-- The variable `x`, which is one, and no standard symbols. -/
def Options.sample : Options := ⟨none, [⟨"x", Numeral.nearest 1 0⟩], [.noStandard]⟩

theorem Options.read_sample : read ["--var", "x=1", "--no-builtins"] = .ok sample := by
  have hoption : isOption "x=1" = false := by decide +kernel
  rw [read, addAll, hoption]
  rfl

theorem Session.exists_start_sample : ∃ s, start .sample = .ok s := by
  have hadd : ∃ D, (Context.empty Options.sample.features).add (Bytes.ofString "x")
      (.var (Cells.read "x")) = .ok D :=
    ⟨_, Context.add_eq_ok_iff.mpr ⟨by decide +kernel, rfl, rfl⟩⟩
  obtain ⟨D, hD⟩ := hadd
  have hbind : bind ⟨.empty Options.sample.features, [], .zero⟩ ⟨"x", Numeral.nearest 1 0⟩
      = .ok ⟨D, ["x"], Cells.zero.set "x" (Numeral.nearest 1 0)⟩ := by
    rw [bind, hD]
  exact ⟨⟨D, ["x"], Cells.zero.set "x" (Numeral.nearest 1 0)⟩,
    bind_eq_ok.mpr ⟨_, rfl, bind_eq_ok.mpr ⟨_, hbind, rfl⟩⟩⟩

theorem Session.sample_converses_of_start :
    Options.read ["--var", "x=1", "--no-builtins"] = .ok .sample ∧
      Options.sample.formula? = none ∧ ∃ s, start .sample = .ok s ∧
        s.Converses Options.sample.bindings ["--var", "x=1", "--no-builtins"] := by
  obtain ⟨s, hstart⟩ := exists_start_sample
  exact ⟨Options.read_sample, rfl, s, hstart,
    converses_of_start Options.read_sample rfl hstart⟩

end Formula.Calculator
