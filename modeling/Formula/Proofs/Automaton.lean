/-
Formula/Proofs/Automaton.lean

Literals read a byte at a time.

`Literal.read?` takes a literal apart into runs of digits and leaves the number to
`Literal.value`.  An automaton does both in one pass: it looks at every byte once, knows
only in which part of a literal it is, and computes as it goes (`Progress.step`).  At a
byte that cannot go on it stops, and at a point there it refuses the text.  It may have
gone too far by then: behind a marker, or the sign of one, without a digit it steps back
over them (`Part.excess`).

What it has passed since the start covers the digits of the mantissa and the bytes that
it may have to step back over.  That is kept by every step (`Passes.spec`), so stepping back
never leads in front of the start, and a literal ends strictly behind it
(`excess_add_digits_le`).

The automaton and the reader refuse the same texts, and otherwise come to the same
position with the same number, whatever arithmetic the number is computed in
(`scanAt_eq`).
-/
import Formula.Proofs.Extent

namespace Formula

namespace Literal

variable {α : Type} {scientific : Bool}

/-! ### The automaton -/

/-- Where in a literal the automaton is: among the digits before the point or behind it,
right behind the marker or the sign of an exponent, or among the digits of one. -/
inductive Part where
  | whole
  | fraction
  | marker
  | sign
  | power
deriving DecidableEq, Repr

/-- How many bytes the automaton steps back over when it stops in a part. -/
def Part.excess : Part → Nat
  | marker => 1
  | sign => 2
  | whole | fraction | power => 0

/-- Where the automaton is and what it has computed: the number that the mantissa writes so
far, the power of ten of the next place behind the point, the number that the digits of
the exponent write and whether a minus stands in front of them, how many digits the
mantissa has, and the position of the next byte. -/
structure Progress (α : Type) where
  part : Part
  value : α
  place : α
  power : α
  negative : Bool
  digits : Nat
  position : Nat

namespace Progress

section Steps

variable (A : Arithmetic α)

/-- Before the first byte. -/
def start (position : Nat) : Progress α :=
  ⟨.whole, A.ofNat 0, A.ofNat 10, A.ofNat 0, false, 0, position⟩

/-- Passes a byte and is in `part` behind it. -/
def passTo (p : Progress α) (part : Part) : Progress α :=
  { p with part, position := p.position + 1 }

/-- Passes a digit before the point. -/
def passWhole (p : Progress α) (d : UInt8) : Progress α :=
  { p.passTo .whole with
    value := A.add (A.mul p.value (A.ofNat 10)) (A.ofNat (Byte.digitValue d))
    digits := p.digits + 1 }

/-- Passes a digit behind the point. -/
def passFraction (p : Progress α) (d : UInt8) : Progress α :=
  { p.passTo .fraction with
    value := A.add p.value (A.div (A.ofNat (Byte.digitValue d)) p.place)
    place := A.mul p.place (A.ofNat 10)
    digits := p.digits + 1 }

/-- Passes the sign of an exponent. -/
def passSign (p : Progress α) (s : UInt8) : Progress α :=
  { p.passTo .sign with negative := s == Byte.minus }

/-- Passes a digit of an exponent. -/
def passPower (p : Progress α) (d : UInt8) : Progress α :=
  { p.passTo .power with
    power := A.add (A.mul p.power (A.ofNat 10)) (A.ofNat (Byte.digitValue d)) }

/-- At a byte that cannot go on the automaton stops; at a point it refuses the text. -/
def halt (b : UInt8) : Except Error (Option (Progress α)) :=
  if b = Byte.point then .error .malformed else .ok none

/-- One byte: the automaton passes it, stops in front of it or refuses the text. -/
def step (scientific : Bool) (p : Progress α) (b : UInt8) :
    Except Error (Option (Progress α)) :=
  match p.part with
  | .whole =>
    if Byte.isDigit b then .ok (some (p.passWhole A b))
    else if b = Byte.point then .ok (some (p.passTo .fraction))
    else if scientific && isMarker b then .ok (some (p.passTo .marker))
    else halt b
  | .fraction =>
    if scientific && isMarker b then .ok (some (p.passTo .marker))
    else if Byte.isDigit b then .ok (some (p.passFraction A b))
    else halt b
  | .marker =>
    if isSign b then .ok (some (p.passSign b))
    else if Byte.isDigit b then .ok (some (p.passPower A b))
    else halt b
  | .sign | .power =>
    if Byte.isDigit b then .ok (some (p.passPower A b)) else halt b

/-- All bytes up to the place where the automaton stops. -/
def run (scientific : Bool) (p : Progress α) : Bytes → Except Error (Progress α)
  | [] => .ok p
  | b :: bs =>
    match p.step A scientific b with
    | .error e => .error e
    | .ok none => .ok p
    | .ok (some q) => run scientific q bs

/-- The number that has been read. -/
def result (p : Progress α) : α :=
  if p.part = .power then
    A.mul p.value (A.pow (if p.negative then A.tenth else A.ofNat 10) p.power)
  else p.value

end Steps

end Progress

open Progress

/-- What comes of a run: a literal needs a digit, and ends where the automaton has
stepped back to. -/
def settle (A : Arithmetic α) : Except Error (Progress α) → Except Error (α × Nat)
  | .error e => .error e
  | .ok p =>
    if p.digits = 0 then .error .malformed else .ok (p.result A, p.position - p.part.excess)

/-- The number at position `start` of a text and the position just after it, computed by
the automaton. -/
def scanAt (A : Arithmetic α) (scientific : Bool) (bs : Bytes) (start : Nat) :
    Except Error (α × Nat) :=
  settle A ((Progress.start A start).run A scientific (bs.drop start))

namespace Progress

variable {A : Arithmetic α} {p q : Progress α} {b : UInt8} {bs ds rest text : Bytes}

/-! ### The ways to pass a byte -/

/-- The progress that a byte which is passed leads to, in each part. -/
inductive Passes (A : Arithmetic α) (scientific : Bool) (p : Progress α) (b : UInt8) :
    Progress α → Prop
  | whole (hp : p.part = .whole) (hb : Byte.isDigit b = true) :
      Passes A scientific p b (p.passWhole A b)
  | point (hp : p.part = .whole) (hb : b = Byte.point) :
      Passes A scientific p b (p.passTo .fraction)
  | fraction (hp : p.part = .fraction) (hb : Byte.isDigit b = true) :
      Passes A scientific p b (p.passFraction A b)
  | marker (hp : p.part = .whole ∨ p.part = .fraction) (hs : scientific = true)
      (hb : isMarker b = true) : Passes A scientific p b (p.passTo .marker)
  | sign (hp : p.part = .marker) (hb : isSign b = true) :
      Passes A scientific p b (p.passSign b)
  | power (hp : p.part = .marker ∨ p.part = .sign ∨ p.part = .power)
      (hb : Byte.isDigit b = true) : Passes A scientific p b (p.passPower A b)

theorem not_isMarker_of_isDigit (hb : Byte.isDigit b = true) : isMarker b = false := by
  by_contra hmarker
  rw [Bool.not_eq_false] at hmarker
  rw [Byte.isDigit_of_isMarker hmarker] at hb
  exact absurd hb nofun

theorem not_isSign_of_isDigit (hb : Byte.isDigit b = true) : isSign b = false := by
  by_contra hsign
  rw [Bool.not_eq_false] at hsign
  rcases Byte.eq_of_isSign hsign with rfl | rfl <;> exact absurd hb (by decide)

theorem halt_ne_ok_some : halt b ≠ .ok (some q) := by
  unfold halt
  split <;> exact nofun

theorem passes_of_step (h : p.step A scientific b = .ok (some q)) :
    Passes A scientific p b q := by
  unfold step at h
  -- in every part the last branch halts, and each of the others is a way of passing
  cases hp : p.part with
  | whole =>
    simp only [hp] at h
    split_ifs at h with hdigit hpoint hmarker
    · cases h
      exact .whole hp hdigit
    · cases h
      exact .point hp hpoint
    · cases h
      rw [Bool.and_eq_true] at hmarker
      exact .marker (.inl hp) hmarker.1 hmarker.2
    · exact absurd h halt_ne_ok_some
  | fraction =>
    simp only [hp] at h
    split_ifs at h with hmarker hdigit
    · cases h
      rw [Bool.and_eq_true] at hmarker
      exact .marker (.inr hp) hmarker.1 hmarker.2
    · cases h
      exact .fraction hp hdigit
    · exact absurd h halt_ne_ok_some
  | marker =>
    simp only [hp] at h
    split_ifs at h with hsign hdigit
    · cases h
      exact .sign hp hsign
    · cases h
      exact .power (.inl hp) hdigit
    · exact absurd h halt_ne_ok_some
  | sign =>
    simp only [hp] at h
    split_ifs at h with hdigit
    · cases h
      exact .power (.inr (.inl hp)) hdigit
    · exact absurd h halt_ne_ok_some
  | power =>
    simp only [hp] at h
    split_ifs at h with hdigit
    · cases h
      exact .power (.inr (.inr hp)) hdigit
    · exact absurd h halt_ne_ok_some

theorem step_of_passes (h : Passes A scientific p b q) :
    p.step A scientific b = .ok (some q) := by
  unfold step
  cases h with
  | whole hp hb => simp only [hp, hb, if_true]
  | point hp hb =>
    have hdigit : Byte.isDigit Byte.point = false := by decide
    simp [hp, hb, hdigit]
  | fraction hp hb => simp [hp, hb, not_isMarker_of_isDigit hb]
  | marker hp hs hb =>
    rcases hp with hp | hp <;>
      simp [hp, hs, hb, Byte.isDigit_of_isMarker hb, Byte.ne_point_of_isMarker hb]
  | sign hp hb => simp [hp, hb]
  | power hp hb =>
    rcases hp with hp | hp | hp <;> simp [hp, hb, not_isSign_of_isDigit hb]

theorem run_cons_of_passes (h : Passes A scientific p b q) (bs : Bytes) :
    p.run A scientific (b :: bs) = q.run A scientific bs := by
  rw [run, step_of_passes h]

/-! ### What has been passed -/

/-- A byte that is passed adds at most one to the excess and the digits together. -/
theorem Passes.spec (h : Passes A scientific p b q) :
    q.position = p.position + 1 ∧
      q.part.excess + q.digits ≤ p.part.excess + p.digits + 1 := by
  refine ⟨by cases h <;> rfl, ?_⟩
  cases h with
  | whole hp hb | point hp hb | fraction hp hb | sign hp hb =>
    simp only [passTo, passWhole, passFraction, passSign, hp, Part.excess]
    omega
  | marker hp hs hb =>
    simp only [passTo, Part.excess]
    omega
  | power hp hb =>
    simp only [passTo, passPower, Part.excess]
    omega

/-- So does every run, for each byte that it passes. -/
theorem run_spec (h : p.run A scientific bs = .ok q) :
    q.position ≤ p.position + bs.length ∧
      q.part.excess + q.digits + p.position ≤ p.part.excess + p.digits + q.position := by
  induction bs generalizing p with
  | nil =>
    cases h
    exact ⟨Nat.le_refl _, Nat.le_refl _⟩
  | cons b bs ih =>
    unfold run at h
    split at h
    · exact absurd h nofun
    · cases h
      exact ⟨Nat.le_add_right _ _, Nat.le_refl _⟩
    · next p₁ hstep =>
      obtain ⟨hposition, hpassed⟩ := (passes_of_step hstep).spec
      obtain ⟨hend, hrun⟩ := ih h
      rw [List.length_cons]
      constructor <;> omega

/-- The digits of the mantissa and the bytes that are stepped back over lie behind the
start. -/
theorem excess_add_digits_le {start : Nat}
    (h : (Progress.start A start).run A scientific bs = .ok q) :
    start + (q.part.excess + q.digits) ≤ q.position ∧ q.position ≤ start + bs.length := by
  obtain ⟨hend, hpassed⟩ := run_spec h
  have hstart : (Progress.start A start).part.excess + (Progress.start A start).digits = 0 := rfl
  have hposition : (Progress.start A start).position = start := rfl
  constructor <;> omega

/-! ### Runs of digits -/

/-- The digits before the point make the number that they write. -/
theorem run_whole (hp : p.part = .whole) (hds : ∀ d ∈ ds, Byte.isDigit d = true)
    (rest : Bytes) :
    p.run A scientific (ds ++ rest)
      = run A scientific { p with
          value := continueNumber A p.value ds
          digits := p.digits + ds.length
          position := p.position + ds.length } rest := by
  induction ds generalizing p with
  | nil => rfl
  | cons d ds ih =>
    obtain ⟨hd, hds⟩ := List.forall_mem_cons.mp hds
    have hpart : (p.passWhole A d).part = .whole := rfl
    rw [List.cons_append, run_cons_of_passes (.whole hp hd), ih hpart hds]
    simp [passWhole, passTo, continueNumber, hp, Nat.add_assoc, Nat.add_comm 1]

/-- The digits behind the point are added, each over the power of ten of its place. -/
theorem run_fraction (hp : p.part = .fraction) (hds : ∀ d ∈ ds, Byte.isDigit d = true)
    (rest : Bytes) :
    ∃ place, p.run A scientific (ds ++ rest)
      = run A scientific { p with
          value := addFraction A p.value p.place ds
          place
          digits := p.digits + ds.length
          position := p.position + ds.length } rest := by
  induction ds generalizing p with
  | nil => exact ⟨p.place, rfl⟩
  | cons d ds ih =>
    obtain ⟨hd, hds⟩ := List.forall_mem_cons.mp hds
    have hpart : (p.passFraction A d).part = .fraction := rfl
    obtain ⟨place, hrun⟩ := ih hpart hds
    refine ⟨place, ?_⟩
    rw [List.cons_append, run_cons_of_passes (.fraction hp hd), hrun]
    simp [passFraction, passTo, addFraction, hp, Nat.add_assoc, Nat.add_comm 1]

/-- The digits of an exponent make the number that they write. -/
theorem run_power (hp : p.part = .marker ∨ p.part = .sign ∨ p.part = .power)
    (hds : ∀ d ∈ ds, Byte.isDigit d = true) (rest : Bytes) :
    p.run A scientific (ds ++ rest)
      = run A scientific { p with
          part := if ds.isEmpty then p.part else .power
          power := continueNumber A p.power ds
          position := p.position + ds.length } rest := by
  induction ds generalizing p with
  | nil => rfl
  | cons d ds ih =>
    obtain ⟨hd, hds⟩ := List.forall_mem_cons.mp hds
    have hpart : (p.passPower A d).part = .power := rfl
    rw [List.cons_append, run_cons_of_passes (.power hp hd), ih (.inr (.inr hpart)) hds]
    simp [passPower, passTo, continueNumber, Nat.add_assoc, Nat.add_comm 1]

/-! ### Where the automaton stops -/

/-- Whether a point comes next. -/
def pointNext (rest : Bytes) : Bool := rest.head? == some Byte.point

/-- At a byte that cannot be passed the automaton stops, or refuses the text. -/
theorem run_of_halt (h : ∀ b tail, rest = b :: tail → p.step A scientific b = halt b) :
    p.run A scientific rest = if pointNext rest then .error .malformed else .ok p := by
  rcases rest with - | ⟨b, tail⟩
  · rfl
  · rw [run, h b tail rfl]
    by_cases hb : b = Byte.point
    · simp [halt, pointNext, hb]
    · simp [halt, pointNext, hb]

theorem readDigits_stop {tail : Bytes} (h : (readDigits bs).2 = b :: tail) :
    Byte.isDigit b = false := by
  have hdrop : bs.dropWhile Byte.isDigit = b :: tail := h
  have hne : bs.dropWhile Byte.isDigit ≠ [] := by
    rw [hdrop]
    exact List.cons_ne_nil b tail
  have hhead := List.head_dropWhile_not Byte.isDigit hne
  have hb : (bs.dropWhile Byte.isDigit).head hne = b := by
    simp [hdrop]
  rwa [hb] at hhead

/-- What stands behind a mantissa is no digit, and no point unless the mantissa has
one. -/
theorem readMantissa_stop {m : Literal} {tail : Bytes}
    (h : readMantissa text = (m, b :: tail)) :
    Byte.isDigit b = false ∧ (m.fraction? = none → b ≠ Byte.point) := by
  by_cases hpoint : ∃ rest, (readDigits text).2 = Byte.point :: rest
  · obtain ⟨rest, hrest⟩ := hpoint
    rw [readMantissa_of_point hrest] at h
    obtain ⟨rfl, hstop⟩ := Prod.mk.inj h
    exact ⟨readDigits_stop hstop, nofun⟩
  · have hnone : ∀ rest, (readDigits text).2 ≠ Byte.point :: rest :=
      fun rest hrest => hpoint ⟨rest, hrest⟩
    rw [readMantissa_of_no_point hnone] at h
    obtain ⟨rfl, hstop⟩ := Prod.mk.inj h
    refine ⟨readDigits_stop hstop, fun _ => ?_⟩
    rintro rfl
    exact hnone tail hstop

/-! ### Mantissas and exponents -/

/-- Behind a mantissa. -/
def behind (A : Arithmetic α) (start : Nat) (m : Literal) (place : α) : Progress α :=
  ⟨if m.fraction?.isSome then .fraction else .whole, m.mantissa A, place, A.ofNat 0, false,
    m.whole.length + m.fraction.length, start + m.bytes.length⟩

/-- The automaton passes the mantissa that is read. -/
theorem run_mantissa (A : Arithmetic α) (scientific : Bool) (start : Nat) (text : Bytes) :
    ∃ place, (Progress.start A start).run A scientific text
      = (behind A start (readMantissa text).1 place).run A scientific
          (readMantissa text).2 := by
  have hwhole : (Progress.start A start).run A scientific
      ((readDigits text).1 ++ (readDigits text).2) = _ :=
    run_whole rfl (isDigit_of_mem_readDigits text) _
  rw [readDigits_append] at hwhole
  rw [hwhole]
  by_cases hpoint : ∃ rest, (readDigits text).2 = Byte.point :: rest
  · obtain ⟨rest, hrest⟩ := hpoint
    rw [readMantissa_of_point hrest, hrest, run_cons_of_passes (.point rfl rfl)]
    generalize hp : passTo _ .fraction = p
    have hpart : p.part = .fraction := hp ▸ rfl
    obtain ⟨place, hfraction⟩ : ∃ place, p.run A scientific
        ((readDigits rest).1 ++ (readDigits rest).2) = _ :=
      run_fraction hpart (isDigit_of_mem_readDigits rest) _
    rw [readDigits_append] at hfraction
    refine ⟨place, hfraction.trans ?_⟩
    rw [← hp]
    simp [behind, passTo, mantissa, number, fraction, bytes, mantissaBytes, Progress.start,
      Nat.add_assoc, Nat.add_comm 1]
  · have hnone : ∀ rest, (readDigits text).2 ≠ Byte.point :: rest :=
      fun rest hrest => hpoint ⟨rest, hrest⟩
    refine ⟨A.ofNat 10, ?_⟩
    rw [readMantissa_of_no_point hnone]
    simp [behind, mantissa, number, fraction, bytes, mantissaBytes, Progress.start, addFraction]

/-- Behind a mantissa that no marker follows the automaton stops. -/
theorem run_behind_of_no_marker {start : Nat} {m : Literal} {place : α}
    (hm : readMantissa text = (m, rest))
    (hmarker : ¬ ∃ marker tail, scientific = true ∧ rest = marker :: tail ∧
      isMarker marker = true) :
    (behind A start m place).run A scientific rest
      = if pointNext rest then .error .malformed else .ok (behind A start m place) := by
  refine run_of_halt fun b tail hrest => ?_
  obtain ⟨hdigit, hpoint⟩ := readMantissa_stop (hrest ▸ hm)
  have hb : (scientific && isMarker b) = false := by
    rw [Bool.and_eq_false_imp, ← Bool.not_eq_true]
    exact fun hs hb => hmarker ⟨b, tail, hs, hrest, hb⟩
  unfold step behind
  cases hfraction : m.fraction? with
  | none => simp [hdigit, hpoint hfraction, hb]
  | some ds => simp [hdigit, hb]

/-- Behind the sign in front of a text, if there is one. -/
def behindSign (p : Progress α) (tail : Bytes) : Progress α :=
  { p with
    part := if (readSign tail).1.isSome then .sign else .marker
    negative := (readSign tail).1 == some Byte.minus
    position := p.position + (readSign tail).1.toList.length }

/-- Behind the exponent in front of a text, in which the digits may be missing. -/
def behindExponent (A : Arithmetic α) (p : Progress α) (tail : Bytes) : Progress α :=
  let ds := (readDigits (readSign tail).2).1
  { p.behindSign tail with
    part := if ds.isEmpty then (p.behindSign tail).part else .power
    power := continueNumber A p.power ds
    position := (p.behindSign tail).position + ds.length }

theorem run_behindSign (hp : p.part = .marker) (hnegative : p.negative = false)
    (tail : Bytes) :
    p.run A scientific tail = (p.behindSign tail).run A scientific (readSign tail).2 := by
  rcases p with ⟨part, value, place, power, negative, digits, position⟩
  obtain rfl : part = .marker := hp
  obtain rfl : negative = false := hnegative
  rcases tail with - | ⟨b, tail⟩
  · rfl
  by_cases hb : isSign b = true
  · rw [run_cons_of_passes (.sign rfl hb), behindSign, readSign_of_isSign hb]
    rfl
  · rw [behindSign, readSign, if_neg hb]
    rfl

/-- A byte that is read as no sign is none. -/
theorem readSign_stop {tail : Bytes} (h : (readSign (b :: tail)).1 = none) :
    isSign b = false := by
  by_contra hb
  rw [Bool.not_eq_false] at hb
  rw [readSign_of_isSign hb] at h
  exact absurd h nofun

/-- Behind a marker the automaton passes the exponent that is read, and stops. -/
theorem run_marker (hp : p.part = .marker) (hnegative : p.negative = false) (tail : Bytes) :
    p.run A scientific tail = if pointNext (readDigits (readSign tail).2).2 then
        .error .malformed
      else .ok (p.behindExponent A tail) := by
  have hpart : (p.behindSign tail).part = .marker ∨ (p.behindSign tail).part = .sign ∨
      (p.behindSign tail).part = .power := by
    unfold behindSign
    cases (readSign tail).1 with
    | none => exact .inl rfl
    | some s => exact .inr (.inl rfl)
  have hpower : (p.behindSign tail).run A scientific
      ((readDigits (readSign tail).2).1 ++ (readDigits (readSign tail).2).2) = _ :=
    run_power hpart (isDigit_of_mem_readDigits (readSign tail).2) _
  rw [readDigits_append] at hpower
  rw [run_behindSign hp hnegative, hpower]
  refine run_of_halt fun b rest hrest => ?_
  have hdigit := readDigits_stop hrest
  unfold step
  dsimp only
  cases hempty : (readDigits (readSign tail).2).1.isEmpty with
  | false => simp [hdigit]
  | true =>
    unfold behindSign
    cases hsign : (readSign tail).1 with
    | some s => simp [hdigit]
    | none =>
      -- neither a sign nor a digit has been passed, so the text still starts with `b`
      have htail : tail = b :: rest := by
        have happend := readSign_append tail
        have hdigits := readDigits_append (readSign tail).2
        rw [hrest, List.isEmpty_iff.mp hempty] at hdigits
        rw [hsign, ← hdigits] at happend
        exact happend.symm
      rw [htail] at hsign
      simp [hdigit, readSign_stop hsign]

end Progress

open Progress

/-! ### The automaton and the reader -/

section Settle

variable {A : Arithmetic α} {p : Progress α} {point : Bool}

theorem settle_of_no_digit (h : p.digits = 0) :
    settle A (if point then .error .malformed else .ok p) = .error .malformed := by
  cases point with
  | true => rfl
  | false => exact if_pos h

theorem settle_of_digits (h : p.digits ≠ 0) :
    settle A (if point then .error .malformed else .ok p)
      = if point then .error .malformed else .ok (p.result A, p.position - p.part.excess) := by
  cases point with
  | true => rfl
  | false => exact if_neg h

end Settle

section Outcomes

variable (A : Arithmetic α) (start : Nat) (place : α) {m : Literal} {marker : UInt8}
  {text rest tail : Bytes}

theorem hasDigit_eq_false_iff (m : Literal) :
    m.hasDigit = false ↔ m.whole.length + m.fraction.length = 0 := by
  simp [hasDigit]

/-- Behind a mantissa the number is that of the mantissa. -/
theorem result_behind (hnone : m.exponent? = none) :
    (behind A start m place).result A = m.value A ∧
      (behind A start m place).position - (behind A start m place).part.excess
        = start + m.bytes.length := by
  unfold behind result value
  rw [hnone]
  cases m.fraction? <;> simp [Part.excess]

/-- Behind a marker without digits the automaton steps back to the mantissa. -/
theorem result_behindExponent_of_isEmpty (hnone : m.exponent? = none)
    (hempty : (readDigits (readSign tail).2).1.isEmpty = true) :
    let p := ((behind A start m place).passTo .marker).behindExponent A tail
    p.result A = m.value A ∧ p.position - p.part.excess = start + m.bytes.length := by
  intro p
  unfold p behindExponent behindSign behind passTo result value
  rw [hnone]
  cases (readSign tail).1 <;> simp_all [Part.excess]

/-- Behind the digits of an exponent the number is that of the whole literal. -/
theorem result_behindExponent_of_digits (hnone : m.exponent? = none) (marker : UInt8)
    (hempty : (readDigits (readSign tail).2).1.isEmpty = false) :
    let p := ((behind A start m place).passTo .marker).behindExponent A tail
    let l := m.withExponent ⟨marker, (readSign tail).1, (readDigits (readSign tail).2).1⟩
    p.result A = l.value A ∧ p.position - p.part.excess = start + l.bytes.length := by
  intro p l
  constructor
  · simp [p, l, behindExponent, behindSign, behind, passTo, result, value, withExponent, hempty,
      exponentFactor, number, Exponent.isNegative, mantissa, fraction]
  · simp [p, l, behindExponent, behindSign, behind, passTo, bytes_withExponent hnone,
      Exponent.bytes, hempty, Part.excess]
    omega

/-- What the automaton gives for what the reader gives. -/
def numberOf :
    Option (Literal × Bytes) → Except Error (α × Nat)
  | none => .error .malformed
  | some (l, _) => .ok (l.value A, start + l.bytes.length)

theorem settle_behind (hm : readMantissa text = (m, rest)) (hnone : m.exponent? = none)
    (hmarker : ¬ ∃ marker tail, scientific = true ∧ rest = marker :: tail ∧
      isMarker marker = true) :
    settle A ((behind A start m place).run A scientific rest)
      = numberOf A start (read? scientific text) := by
  rw [run_behind_of_no_marker hm hmarker]
  cases hdigit : m.hasDigit with
  | false =>
    rw [read?_of_no_digit hm hdigit, settle_of_no_digit ((hasDigit_eq_false_iff m).mp hdigit)]
    rfl
  | true =>
    have hdigits : (behind A start m place).digits ≠ 0 := by
      intro hzero
      rw [(hasDigit_eq_false_iff m).mpr hzero] at hdigit
      exact absurd hdigit nofun
    obtain ⟨hvalue, hposition⟩ := result_behind A start place hnone
    rw [read?_of_no_marker hm hdigit hmarker, settle_of_digits hdigits, hvalue, hposition]
    unfold pointNext
    cases (rest.head? == some Byte.point) <;> rfl

theorem settle_marker (hm : readMantissa text = (m, marker :: tail))
    (hnone : m.exponent? = none) (hmarker : isMarker marker = true) :
    settle A ((behind A start m place).run A true (marker :: tail))
      = numberOf A start (read? true text) := by
  have hpart : (behind A start m place).part = .whole ∨
      (behind A start m place).part = .fraction := by
    unfold behind
    cases m.fraction? <;> simp
  rw [run_cons_of_passes (.marker hpart rfl hmarker), run_marker rfl rfl]
  cases hdigit : m.hasDigit with
  | false =>
    rw [read?_of_no_digit hm hdigit, settle_of_no_digit ((hasDigit_eq_false_iff m).mp hdigit)]
    rfl
  | true =>
    have hdigits : (((behind A start m place).passTo .marker).behindExponent A tail).digits ≠ 0 := by
      intro hzero
      rw [(hasDigit_eq_false_iff m).mpr hzero] at hdigit
      exact absurd hdigit nofun
    rw [read?_of_marker hm hdigit hmarker, settle_of_digits hdigits]
    -- without digits behind the marker the reader and the automaton both go back to it
    cases hempty : (readDigits (readSign tail).2).1.isEmpty with
    | true =>
      obtain ⟨hvalue, hposition⟩ :=
        result_behindExponent_of_isEmpty A start place hnone hempty
      rw [hvalue, hposition]
      unfold pointNext
      cases ((readDigits (readSign tail).2).2.head? == some Byte.point) <;> rfl
    | false =>
      obtain ⟨hvalue, hposition⟩ :=
        result_behindExponent_of_digits A start place hnone marker hempty
      rw [hvalue, hposition]
      unfold pointNext
      cases ((readDigits (readSign tail).2).2.head? == some Byte.point) <;> rfl

end Outcomes

/-- **The automaton reads what the reader reads.**  In any arithmetic it refuses the same
texts, and otherwise it gives the number of the literal and the position just after
it. -/
theorem scanAt_eq (A : Arithmetic α) (scientific : Bool) (bs : Bytes) (start : Nat) :
    scanAt A scientific bs start = numberOf A start (read? scientific (bs.drop start)) := by
  rcases hm : readMantissa (bs.drop start) with ⟨m, rest⟩
  have hnone := readMantissa_exponent? (bs.drop start)
  obtain ⟨place, hrun⟩ := run_mantissa A scientific start (bs.drop start)
  rw [hm] at hnone hrun
  rw [scanAt, hrun]
  by_cases hmarker : ∃ marker tail, scientific = true ∧ rest = marker :: tail ∧
      isMarker marker = true
  · obtain ⟨marker, tail, rfl, rfl, hmarker⟩ := hmarker
    exact settle_marker A start place hm hnone hmarker
  · exact settle_behind A start place hm hnone hmarker

/-- In floating point it gives what is read at a position. -/
theorem scanAt_float (scientific : Bool) (bs : Bytes) (start : Nat) :
    scanAt .float scientific bs start = readAt scientific bs start := by
  rw [scanAt_eq, readAt]
  cases read? scientific (bs.drop start) <;> rfl

end Literal

end Formula
