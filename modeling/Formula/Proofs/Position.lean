/-
Formula/Proofs/Position.lean

Where a pass stands in a text.

A pass takes one word, or one blank, off the text and reads it (`Scan.Turn`); after some
turns it has arrived in front of what is left (`Context.Arrives`).  From there it goes
on as if it had begun there (`Arrives.acceptAll_eq`).

A word ends where reading it stops, and what stands behind that place had no part in
it: with another text there, or none, the word is the same (`Literal.read?_of_append`,
`Lexeme.read_of_append`).  For literals this is not plain, because they look at up to
three bytes behind the place where they end: a marker, its sign and one byte more.

The one thing that a word keeps of the byte behind it is whether a name is followed by
a left parenthesis, and only functions ask for that.  So a pass takes the same turns when
the text is cut off where it comes to, unless it comes there with a function
(`Scan.Turns.cut`): in front of a place, not right behind a function, it has read just
the words of the text up to there (`Arrives.acceptAll_lex`).
-/
import Formula.Proofs.Coherence
import Formula.Proofs.Extent

namespace Formula

variable {σ : Type}

/-! ### Texts that are cut off where reading stops -/

section Stop

variable {α : Type} {p : α → Bool} {u v t : List α}

theorem dropWhile_of_append (h : (u ++ v).dropWhile p = t ++ v) : u.dropWhile p = t := by
  induction u with
  | nil =>
    have hlen := (List.dropWhile_suffix (l := v) p).length_le
    rw [List.nil_append] at h
    rw [h, List.length_append] at hlen
    rw [List.dropWhile_nil, List.length_eq_zero_iff.mp (by omega : t.length = 0)]
  | cons b u ih =>
    rw [List.cons_append, List.dropWhile_cons] at h
    rw [List.dropWhile_cons]
    split
    · next hb =>
      rw [if_pos hb] at h
      exact ih h
    · next hb =>
      rw [if_neg hb, ← List.cons_append] at h
      exact List.append_cancel_right h

theorem takeWhile_of_append (h : (u ++ v).dropWhile p = t ++ v) :
    (u ++ v).takeWhile p = u.takeWhile p := by
  have hwhole : (u ++ v).takeWhile p ++ (t ++ v) = u ++ v := by
    rw [← h, List.takeWhile_append_dropWhile]
  have hpart : u.takeWhile p ++ t = u := by
    rw [← dropWhile_of_append h, List.takeWhile_append_dropWhile]
  rw [← List.append_assoc] at hwhole
  exact List.append_cancel_right ((List.append_cancel_right hwhole).trans hpart.symm)

theorem head?_ne_of_append {c : α} (h : (t ++ v).head? ≠ some c) : t.head? ≠ some c := by
  rcases t with - | ⟨b, t⟩
  · exact nofun
  · exact h

end Stop

namespace Literal

variable {u v t : Bytes} {m l : Literal}

theorem readDigits_of_append (h : (readDigits (u ++ v)).2 = t ++ v) :
    readDigits u = ((readDigits (u ++ v)).1, t) :=
  Prod.ext (takeWhile_of_append h).symm (dropWhile_of_append h)

theorem readMantissa_of_append (h : readMantissa (u ++ v) = (m, t ++ v)) :
    readMantissa u = (m, t) := by
  by_cases hpoint : ∃ rest, (readDigits (u ++ v)).2 = Byte.point :: rest
  · obtain ⟨rest, hrest⟩ := hpoint
    rw [readMantissa_of_point hrest] at h
    obtain ⟨rfl, hstop⟩ := Prod.mk.inj h
    -- both runs of digits end within `u`
    have hsplit : (readDigits rest).1 ++ t ++ v = rest := by
      rw [List.append_assoc, ← hstop, readDigits_append]
    have hwhole : (readDigits (u ++ v)).2 = (Byte.point :: ((readDigits rest).1 ++ t)) ++ v := by
      rw [hrest, List.cons_append, hsplit]
    have hfraction : (readDigits ((readDigits rest).1 ++ t ++ v)).2 = t ++ v := by
      rw [hsplit, hstop]
    have hu := readDigits_of_append hwhole
    have hf := readDigits_of_append hfraction
    rw [hsplit] at hf
    have hpoint : (readDigits u).2 = Byte.point :: ((readDigits rest).1 ++ t) := by
      rw [hu]
    rw [readMantissa_of_point hpoint, hf, hu]
  · have hnone : ∀ rest, (readDigits (u ++ v)).2 ≠ Byte.point :: rest :=
      fun rest hrest => hpoint ⟨rest, hrest⟩
    rw [readMantissa_of_no_point hnone] at h
    obtain ⟨rfl, hstop⟩ := Prod.mk.inj h
    have hu := readDigits_of_append hstop
    have hnone' : ∀ rest, (readDigits u).2 ≠ Byte.point :: rest := by
      intro rest hrest
      rw [hu] at hrest
      obtain rfl : t = Byte.point :: rest := hrest
      exact hnone (rest ++ v) hstop
    rw [readMantissa_of_no_point hnone', hu]

theorem readSign_of_append (h : (readSign (u ++ v)).2 = t ++ v) :
    readSign u = ((readSign (u ++ v)).1, t) := by
  rcases u with - | ⟨b, u⟩
  · -- nothing but `v` was read, so there is no sign in it and nothing in `t`
    rw [List.nil_append] at h ⊢
    have hlen := congrArg List.length (readSign_append v)
    rw [h, List.length_append, List.length_append] at hlen
    have ht : t = [] := List.length_eq_zero_iff.mp (by omega)
    have hsign : (readSign v).1 = none := by
      rcases hs : (readSign v).1 with - | s
      · rfl
      · rw [hs, Option.toList_some, List.length_singleton] at hlen
        omega
    rw [ht, hsign]
    rfl
  · rw [List.cons_append, readSign] at h ⊢
    rw [readSign]
    split
    · next hb =>
      rw [if_pos hb] at h
      rw [List.append_cancel_right h]
    · next hb =>
      rw [if_neg hb, ← List.cons_append] at h
      rw [List.append_cancel_right h]

/-- Where no digit follows the sign of a marker, none follows it in the text that is cut
off behind it, and no point does where none did. -/
theorem dangling_of_append (hdigits : (readDigits (readSign (u ++ v)).2).1 = [])
    (hpoint : (readDigits (readSign (u ++ v)).2).2.head? ≠ some Byte.point) :
    (readDigits (readSign u).2).1 = [] ∧
      (readDigits (readSign u).2).2.head? ≠ some Byte.point := by
  rcases u with - | ⟨b, u⟩
  · exact ⟨rfl, nofun⟩
  have hsign : (readSign (b :: u ++ v)).2 = (readSign (b :: u)).2 ++ v := by
    rw [List.cons_append, readSign, readSign]
    split <;> rfl
  have hstop := readDigits_append (readSign (b :: u ++ v)).2
  rw [hdigits, List.nil_append, hsign] at hstop
  rw [hsign] at hdigits hpoint
  rw [readDigits_of_append hstop]
  rw [hstop] at hpoint
  exact ⟨hdigits, head?_ne_of_append hpoint⟩

section Marker

variable {marker : UInt8} {tail : Bytes}

/-- The literal goes back to its mantissa, and the text may be cut off anywhere behind
it. -/
theorem read?_of_append_of_dangling (hm : readMantissa (u ++ v) = (m, marker :: tail))
    (hdigit : m.hasDigit = true) (hmarker : isMarker marker = true)
    (htail : marker :: tail = t ++ v) (hdigits : (readDigits (readSign tail).2).1 = [])
    (hpoint : (readDigits (readSign tail).2).2.head? ≠ some Byte.point) :
    read? true u = some (m, t) := by
  rw [htail] at hm
  have hu : readMantissa u = (m, t) := readMantissa_of_append hm
  rcases t with - | ⟨b, t⟩
  · have hnone : ¬ ∃ marker tail, true = true ∧ ([] : Bytes) = marker :: tail ∧
        isMarker marker = true := by
      rintro ⟨_, _, -, habsurd, -⟩
      exact absurd habsurd nofun
    rw [read?_of_no_marker hu hdigit hnone]
    rfl
  · obtain ⟨rfl, rfl⟩ := List.cons.inj htail
    obtain ⟨hdigits', hpoint'⟩ := dangling_of_append hdigits hpoint
    rw [read?_of_marker hu hdigit hmarker, if_neg (by simpa using hpoint'), hdigits']
    rfl

/-- The literal ends with its exponent. -/
theorem read?_of_append_of_exponent (hm : readMantissa (u ++ v) = (m, marker :: tail))
    (hdigit : m.hasDigit = true) (hmarker : isMarker marker = true)
    (hstop : (readDigits (readSign tail).2).2 = t ++ v)
    (hdigits : ¬ (readDigits (readSign tail).2).1.isEmpty = true)
    (hpoint : (readDigits (readSign tail).2).2.head? ≠ some Byte.point) :
    read? true u = some (m.withExponent
      ⟨marker, (readSign tail).1, (readDigits (readSign tail).2).1⟩, t) := by
  -- what stands behind the marker is the sign, the digits, `t` and `v`
  obtain ⟨power, hpower⟩ : ∃ power, (readSign tail).2 = power ++ v := by
    refine ⟨(readDigits (readSign tail).2).1 ++ t, ?_⟩
    rw [List.append_assoc, ← hstop, readDigits_append]
  obtain ⟨tail', rfl⟩ : ∃ tail', tail = tail' ++ v := by
    refine ⟨(readSign tail).1.toList ++ power, ?_⟩
    rw [List.append_assoc, ← hpower, readSign_append]
  have hu : readMantissa u = (m, marker :: tail') := readMantissa_of_append hm
  have hsign : readSign tail' = ((readSign (tail' ++ v)).1, power) := readSign_of_append hpower
  rw [hpower] at hstop hdigits hpoint ⊢
  have hcut : readDigits power = ((readDigits (power ++ v)).1, t) := readDigits_of_append hstop
  rw [hstop] at hpoint
  have hpoint' := head?_ne_of_append hpoint
  rw [read?_of_marker hu hdigit hmarker, hsign, hcut, if_neg (by simpa using hpoint'),
    if_neg hdigits]

end Marker

/-- A literal does not depend on the text behind the place where reading it stops. -/
theorem read?_of_append {scientific : Bool} (h : read? scientific (u ++ v) = some (l, t ++ v)) :
    read? scientific u = some (l, t) := by
  rcases hm : readMantissa (u ++ v) with ⟨m, rest⟩
  cases hdigit : m.hasDigit with
  | false =>
    rw [read?_of_no_digit hm hdigit] at h
    exact absurd h nofun
  | true =>
    by_cases hmarker : ∃ marker tail, scientific = true ∧ rest = marker :: tail ∧
        isMarker marker = true
    · obtain ⟨marker, tail, rfl, rfl, hmarker⟩ := hmarker
      rw [read?_of_marker hm hdigit hmarker] at h
      split at h
      · exact absurd h nofun
      next hpoint =>
      have hpoint : (readDigits (readSign tail).2).2.head? ≠ some Byte.point := by
        simpa using hpoint
      split at h
      · next hempty =>
        -- the literal goes back to its mantissa, so `v` may begin at the marker or behind it
        obtain ⟨rfl, htail⟩ := Prod.mk.inj (Option.some.inj h)
        have hdigits := List.isEmpty_iff.mp hempty
        exact read?_of_append_of_dangling hm hdigit hmarker htail hdigits hpoint
      · next hempty =>
        obtain ⟨rfl, hstop⟩ := Prod.mk.inj (Option.some.inj h)
        exact read?_of_append_of_exponent hm hdigit hmarker hstop hempty hpoint
    · rw [read?_of_no_marker hm hdigit hmarker] at h
      split at h
      · exact absurd h nofun
      next hpoint =>
      obtain ⟨rfl, rfl⟩ := Prod.mk.inj (Option.some.inj h)
      have hmarker' : ¬ ∃ marker tail, scientific = true ∧ t = marker :: tail ∧
          isMarker marker = true := by
        rintro ⟨marker, tail, hs, rfl, hmark⟩
        exact hmarker ⟨marker, tail ++ v, hs, rfl, hmark⟩
      have hpoint' := head?_ne_of_append fun hp => hpoint (beq_iff_eq.mpr hp)
      rw [read?_of_no_marker (readMantissa_of_append hm) hdigit hmarker',
        if_neg (by simpa using hpoint')]

end Literal

namespace Lexeme

variable {scientific : Bool} {b : UInt8} {u v t : Bytes} {w : Option Lexeme}

/-- What is left behind a word is the end of the text. -/
theorem read_suffix (scientific : Bool) (b : UInt8) (bs : Bytes) :
    (read scientific b bs).2 <:+ bs := by
  unfold read
  split
  · exact List.suffix_rfl
  split
  · split
    · next l rest h =>
      obtain ⟨happend, hdigit⟩ := Literal.read?_append h
      rcases hbytes : l.bytes with - | ⟨c, cs⟩
      · exact absurd hbytes (Literal.bytes_ne_nil hdigit)
      · rw [hbytes, List.cons_append] at happend
        exact ⟨cs, (List.cons.inj happend).2⟩
    · exact List.nil_suffix
  split
  · exact List.dropWhile_suffix _
  · exact List.suffix_rfl

/-- A word does not depend on the text behind the place where reading it stops, except
that a name at the end may lose the parenthesis that followed it. -/
theorem read_of_append (h : read scientific b (u ++ v) = (w, t ++ v))
    (hbad : w ≠ some .badLiteral) : read scientific b u = (w, t) ∨
      t = [] ∧ ∃ word, w = some (.name word true) ∧
        read scientific b u = (some (.name word false), []) := by
  unfold read at h ⊢
  split at h
  · next hblank =>
    obtain ⟨rfl, htail⟩ := Prod.mk.inj h
    rw [if_pos hblank, List.append_cancel_right htail]
    exact .inl rfl
  next hblank =>
  rw [if_neg hblank]
  split at h
  · next hliteral =>
    rw [if_pos hliteral]
    rcases hread : Literal.read? scientific (b :: (u ++ v)) with - | ⟨l, rest⟩
    · rw [hread] at h
      exact absurd (Prod.mk.inj h).1.symm hbad
    · rw [hread] at h
      obtain ⟨rfl, rfl⟩ := Prod.mk.inj h
      rw [← List.cons_append] at hread
      rw [Literal.read?_of_append hread]
      exact .inl rfl
  next hliteral =>
  rw [if_neg hliteral]
  split at h
  · next hname =>
    rw [if_pos hname]
    dsimp only [Name.split] at h ⊢
    obtain ⟨hw, hrest⟩ := Prod.mk.inj h
    rw [takeWhile_of_append hrest, hrest] at hw
    rw [dropWhile_of_append hrest]
    rcases t with - | ⟨c, t⟩
    · -- the name ends the text, and `v` may start with the parenthesis
      cases hparen : (v.head? == some Byte.leftParen) with
      | false =>
        rw [List.nil_append, hparen] at hw
        rw [← hw]
        exact .inl rfl
      | true =>
        rw [List.nil_append, hparen] at hw
        exact .inr ⟨rfl, _, hw.symm, rfl⟩
    · rw [← hw]
      exact .inl rfl
  · next hname =>
    obtain ⟨rfl, htail⟩ := Prod.mk.inj h
    rw [if_neg hname, List.append_cancel_right htail]
    exact .inl rfl

end Lexeme

/-! ### Turns of a pass -/

namespace Scan

/-- One turn of a pass: a word, or a blank, is taken off the text and read. -/
inductive Turn (C : Context σ) : Bytes × Scan σ → Bytes × Scan σ → Prop
  | mk {b : UInt8} {bs rest : Bytes} {w : Option Lexeme} {s s' : Scan σ}
      (hread : Lexeme.read (C.allows .scientificNotation) b bs = (w, rest))
      (haccept : acceptAll C s w.toList = .ok s') : Turn C (b :: bs, s) (rest, s')

/-- Some turns, one after another. -/
abbrev Turns (C : Context σ) : Bytes × Scan σ → Bytes × Scan σ → Prop :=
  Relation.ReflTransGen (Turn C)

variable {C : Context σ} {s s' : Scan σ} {text u v t : Bytes}

/-- A turn takes at least the first byte off the text. -/
theorem Turn.exists_cons {x y : Bytes × Scan σ} (h : Turn C x y) :
    ∃ b bs, x.1 = b :: bs ∧ y.1 <:+ bs := by
  cases h with
  | @mk b bs rest w s s' hread haccept =>
    have hsuffix := Lexeme.read_suffix (C.allows .scientificNotation) b bs
    rw [hread] at hsuffix
    exact ⟨b, bs, rfl, hsuffix⟩

theorem Turns.suffix {x y : Bytes × Scan σ} (h : Turns C x y) : y.1 <:+ x.1 := by
  induction h with
  | refl => exact List.suffix_rfl
  | tail _ hturn ih =>
    obtain ⟨b, bs, hbs, hsuffix⟩ := hturn.exists_cons
    rw [hbs] at ih
    exact (hsuffix.trans (List.suffix_cons b bs)).trans ih

/-- A turn reads the first word. -/
theorem Turn.acceptAll_eq {x y : Bytes × Scan σ} (h : Turn C x y) :
    acceptAll C x.2 (C.lex x.1) = acceptAll C y.2 (C.lex y.1) := by
  cases h with
  | @mk b bs rest w s s' hread haccept =>
    show acceptAll C s (Formula.lex _ (b :: bs)) = _
    rw [lex_cons, hread, acceptAll_append, haccept]
    rfl

theorem Turns.acceptAll_eq {x y : Bytes × Scan σ} (h : Turns C x y) :
    acceptAll C x.2 (C.lex x.1) = acceptAll C y.2 (C.lex y.1) := by
  induction h with
  | refl => rfl
  | tail _ hturn ih => exact ih.trans hturn.acceptAll_eq

/-- Only functions ask whether a parenthesis follows. -/
theorem Takes.name_of_ne_func {word : Bytes} {opensCall : Bool}
    (h : Takes C s (.name word opensCall) s') (hlast : s'.last ≠ .func) (opensCall' : Bool) :
    Takes C s (.name word opensCall') s' := by
  generalize hw : Lexeme.name word opensCall = w at h
  induction h with
  | const hexp hfind =>
    cases hw
    exact .const hexp hfind
  | var hexp hfind =>
    cases hw
    exact .var hexp hfind
  | func hexp hfind => exact absurd rfl hlast
  | times hlit hmul _ ih =>
    cases hw
    exact .times hlit hmul (ih hlast rfl)
  | _ => cases hw

/-- A text that is read to its end has been read in turns. -/
theorem turns_of_acceptAll (h : acceptAll C s (C.lex text) = .ok s') :
    Turns C (text, s) ([], s') := by
  unfold Context.lex at h
  induction text using lex.induct (C.allows .scientificNotation) generalizing s with
  | case1 =>
    rw [lex_nil] at h
    cases h
    exact .refl
  | case2 b bs ih =>
    rw [lex_cons] at h
    obtain ⟨s₁, h₁, h₂⟩ := acceptAll_append_eq_ok.mp h
    exact .head (.mk rfl h₁) (ih h₂)

/-- A pass takes the same turns when the text behind the place where it comes to is cut
off, unless it comes to that place with a function. -/
theorem Turns.cut (h : Turns C (u ++ v, s) (t ++ v, s')) (hlast : t = [] → s'.last ≠ .func) :
    Turns C (u, s) (t, s') := by
  generalize hx : (u ++ v, s) = x at h
  -- from the last turn to the first
  induction h using Relation.ReflTransGen.head_induction_on generalizing u s with
  | refl =>
    obtain ⟨huv, rfl⟩ := Prod.mk.inj hx
    rw [List.append_cancel_right huv]
  | @head x y hturn hturns ih =>
    subst hx
    obtain ⟨r, s₁⟩ := y
    obtain ⟨t', rfl⟩ := Turns.suffix hturns
    rcases u with - | ⟨b, u⟩
    · -- a turn on `v` would leave less than `v`
      obtain ⟨b, bs, rfl, hsuffix⟩ := hturn.exists_cons
      have hlen := hsuffix.length_le
      simp only [List.length_append, List.length_cons] at hlen
      omega
    cases hturn with
    | @mk _ _ _ w _ _ hread haccept =>
      rw [← List.append_assoc] at hread ih
      have hrest := ih rfl
      have hbad : w ≠ some .badLiteral := by
        rintro rfl
        exact absurd haccept nofun
      rcases Lexeme.read_of_append hread hbad with hsame | ⟨hnil, word, rfl, hname⟩
      · exact .head (.mk hsame haccept) hrest
      · -- the last word is a name, which is no function
        rw [hnil] at hrest
        obtain ⟨rfl, rfl⟩ := List.append_eq_nil_iff.mp hnil
        have hs : s₁ = s' := by
          have heq := Turns.acceptAll_eq hrest
          rw [Context.lex, lex_nil] at heq
          exact Except.ok.inj heq
        subst hs
        have htakes : Takes C s (.name word true) s₁ := acceptAll_singleton_eq_ok.mp haccept
        exact .single (.mk hname
          (acceptAll_singleton_eq_ok.mpr (htakes.name_of_ne_func (hlast rfl) false)))

end Scan

/-! ### Arriving -/

/-- The pass over a text arrives in front of `rest` in the state `s`. -/
def Context.Arrives (C : Context σ) (text rest : Bytes) (s : Scan σ) : Prop :=
  Scan.Turns C (text, {}) (rest, s)

namespace Context.Arrives

variable {C : Context σ} {s : Scan σ} {text rest u v : Bytes}

/-- The pass takes one more turn. -/
theorem turn {b : UInt8} {bs : Bytes} {w : Option Lexeme} {s' : Scan σ}
    (h : C.Arrives text (b :: bs) s)
    (hread : Lexeme.read (C.allows .scientificNotation) b bs = (w, rest))
    (haccept : Scan.acceptAll C s w.toList = .ok s') : C.Arrives text rest s' :=
  Relation.ReflTransGen.tail h (.mk hread haccept)

/-- From the place where it has arrived the pass goes on as if it had begun there. -/
theorem acceptAll_eq (h : C.Arrives text rest s) :
    Scan.acceptAll C {} (C.lex text) = Scan.acceptAll C s (C.lex rest) :=
  Scan.Turns.acceptAll_eq h

/-- The words in front of that place lead to the state there. -/
theorem exists_words (h : C.Arrives text rest s) :
    ∃ ws, C.lex text = ws ++ C.lex rest ∧ Scan.acceptAll C {} ws = .ok s := by
  unfold Arrives at h
  generalize hy : (rest, s) = y at h
  induction h generalizing rest s with
  | refl =>
    obtain ⟨rfl, rfl⟩ := Prod.mk.inj hy
    exact ⟨[], rfl, rfl⟩
  | tail _ hturn ih =>
    subst hy
    cases hturn with
    | @mk b bs _ w s₁ _ hread haccept =>
      obtain ⟨ws, hlex, hrun⟩ := ih rfl
      refine ⟨ws ++ w.toList, ?_, Scan.acceptAll_append_eq_ok.mpr ⟨s₁, hrun, haccept⟩⟩
      rw [hlex, List.append_assoc]
      refine congrArg (ws ++ ·) ?_
      show Formula.lex _ (b :: bs) = _
      rw [lex_cons, hread]
      rfl

/-- These words begin a text. -/
theorem exists_reached (h : C.Arrives text rest s) : ∃ ws, Scan.Reached C ws s := by
  obtain ⟨ws, hlex, hrun⟩ := h.exists_words
  exact ⟨ws, hrun, C.lex rest, hlex ▸ joined_lex text⟩

/-- The pass arrives at the end of a text when all its words are read. -/
theorem end_iff : C.Arrives text [] s ↔ Scan.acceptAll C {} (C.lex text) = .ok s := by
  refine ⟨fun h => ?_, Scan.turns_of_acceptAll⟩
  rw [h.acceptAll_eq, Context.lex, lex_nil]
  rfl

/-- In front of that place, unless it stands behind a function, the pass has read a
text of its own. -/
theorem acceptAll_lex (h : C.Arrives (u ++ v) v s) (hlast : s.last ≠ .func) :
    Scan.acceptAll C {} (C.lex u) = .ok s :=
  end_iff.mp (Scan.Turns.cut (t := []) h fun _ => hlast)

/-- Behind a function the pass stands in front of its parenthesis, and the function is the
last turn. -/
theorem exists_of_func (h : C.Arrives text rest s) (hlast : s.last = .func) :
    ∃ b bs s₁ word f, C.Arrives text (b :: bs) s₁ ∧
      Lexeme.read (C.allows .scientificNotation) b bs = (some (.name word true), rest) ∧
      C.find? word = some (.fn f) ∧ ∃ after, rest = Byte.leftParen :: after := by
  unfold Arrives at h
  generalize hy : (rest, s) = y at h
  induction h generalizing rest s with
  | refl =>
    obtain ⟨-, rfl⟩ := Prod.mk.inj hy
    exact absurd hlast nofun
  | tail hturns hturn ih =>
    subst hy
    cases hturn with
    | @mk b bs _ w s₁ _ hread haccept =>
      rcases w with - | w
      · -- a blank keeps the state, but the function has its parenthesis in front of it
        obtain rfl : s₁ = s := Except.ok.inj haccept
        obtain ⟨_, _, _, _, _, -, -, -, after, hafter⟩ := ih hlast rfl
        obtain ⟨rfl, -⟩ := List.cons.inj hafter
        have hblank := Lexeme.read_eq_none (congrArg Prod.fst hread)
        exact absurd hblank (by decide)
      · obtain ⟨word, f, rfl, hfind, -⟩ := (Scan.acceptAll_singleton_eq_ok.mp haccept).eq_name hlast
        have hparen := Lexeme.read_name (congrArg Prod.fst hread)
        rw [hread] at hparen
        exact ⟨b, bs, s₁, word, f, hturns, hread, hfind, hparen⟩

end Context.Arrives

end Formula
