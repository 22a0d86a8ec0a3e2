/-
Formula/Proofs/Lexing.lean

What the words of a formula keep of its text.

Some bytes continue no word, right parentheses and blanks among them
(`Byte.endsWord`).  A text may be followed by one without a change to the words
before it (`lex_append_endsWord`); only a refused literal, which takes the rest
of the text, takes it too.  A left parenthesis in front of a text is a word of
its own (`lex_leftParen`), and a blank is none (`lex_blank`).

Literals and names hold no parentheses.  So the parentheses of a text are the
parentheses among its words, again up to a refused literal (`parens_lex`), and
a name that opens a call stands right in front of its parenthesis
(`joined_lex`).
-/
import Formula.Lexeme
import Formula.Proofs.Cutting

namespace Formula

variable {scientific : Bool}

/-! ### Bytes that continue no word -/

/-- A byte that continues no word: neither a literal nor a name goes on over it,
and behind a name it opens no call. -/
def Byte.endsWord (c : UInt8) : Bool :=
  !continuesName c && c != point && !Literal.isSign c && c != leftParen

namespace Byte

variable {c : UInt8}

/-- A byte that may start a name starts no literal. -/
theorem startsLiteral_of_startsName (h : startsName c = true) : startsLiteral c = false := by
  grind [startsName, isLetter, startsLiteral, isDigit]

theorem continuesName_of_endsWord (hc : endsWord c = true) : continuesName c = false := by
  simp only [endsWord, Bool.and_eq_true, Bool.not_eq_true'] at hc
  exact hc.1.1.1

theorem isDigit_of_endsWord (hc : endsWord c = true) : isDigit c = false := by
  have h := continuesName_of_endsWord hc
  simp only [continuesName, Bool.or_eq_false_iff] at h
  exact h.1.2

theorem ne_point_of_endsWord (hc : endsWord c = true) : c ≠ point := by
  simp only [endsWord, Bool.and_eq_true, bne_iff_ne] at hc
  exact hc.1.1.2

theorem ne_leftParen_of_endsWord (hc : endsWord c = true) : c ≠ leftParen := by
  simp only [endsWord, Bool.and_eq_true, bne_iff_ne] at hc
  exact hc.2

theorem isSign_of_endsWord (hc : endsWord c = true) : Literal.isSign c = false := by
  simp only [endsWord, Bool.and_eq_true, Bool.not_eq_true'] at hc
  exact hc.1.2

/-- The markers of exponents are letters. -/
theorem isMarker_of_endsWord (hc : endsWord c = true) : Literal.isMarker c = false := by
  have h := continuesName_of_endsWord hc
  rw [Literal.isMarker, Bool.or_eq_false_iff, beq_eq_false_iff_ne, beq_eq_false_iff_ne]
  constructor
  · rintro rfl
    exact absurd h (by decide)
  · rintro rfl
    exact absurd h (by decide)

end Byte

section EndsWord

variable {c : UInt8} (hc : Byte.endsWord c = true)

include hc

namespace Literal

theorem readDigits_append_endsWord (bs after : Bytes) :
    readDigits (bs ++ c :: after) = ((readDigits bs).1, (readDigits bs).2 ++ c :: after) := by
  have hdigit := Byte.isDigit_of_endsWord hc
  rw [readDigits, takeWhile_append_stop hdigit, dropWhile_append_stop hdigit]
  rfl

omit hc in
/-- A mantissa with a point. -/
theorem readMantissa_of_point {bs rest : Bytes} (h : (readDigits bs).2 = Byte.point :: rest) :
    readMantissa bs
      = (⟨(readDigits bs).1, some (readDigits rest).1, none⟩, (readDigits rest).2) := by
  unfold readMantissa
  rcases hdigits : readDigits bs with ⟨whole, tail⟩
  rw [hdigits] at h
  obtain rfl : tail = Byte.point :: rest := h
  rfl

omit hc in
/-- A mantissa without a point. -/
theorem readMantissa_of_no_point {bs : Bytes}
    (h : ∀ rest, (readDigits bs).2 ≠ Byte.point :: rest) :
    readMantissa bs = (⟨(readDigits bs).1, none, none⟩, (readDigits bs).2) := by
  unfold readMantissa
  split
  · next whole rest heq => exact absurd (by rw [heq]; rfl) (h rest)
  · next whole rest _ heq => rw [heq]

theorem readMantissa_append_endsWord (bs after : Bytes) :
    readMantissa (bs ++ c :: after)
      = ((readMantissa bs).1, (readMantissa bs).2 ++ c :: after) := by
  have hdigits := readDigits_append_endsWord hc bs after
  by_cases hpoint : ∃ rest, (readDigits bs).2 = Byte.point :: rest
  · obtain ⟨rest, hrest⟩ := hpoint
    have hrest' : (readDigits (bs ++ c :: after)).2 = Byte.point :: (rest ++ c :: after) := by
      rw [hdigits, hrest, List.cons_append]
    rw [readMantissa_of_point hrest, readMantissa_of_point hrest', hdigits,
      readDigits_append_endsWord hc]
  · have hnone : ∀ rest, (readDigits bs).2 ≠ Byte.point :: rest :=
      fun rest hrest => hpoint ⟨rest, hrest⟩
    -- what follows the digits is what followed before, or the byte
    have hnone' : ∀ rest, (readDigits (bs ++ c :: after)).2 ≠ Byte.point :: rest := by
      intro rest
      rw [hdigits]
      rcases hdrop : (readDigits bs).2 with - | ⟨b, tail⟩
      · exact fun h => absurd (List.cons.inj h).1 (Byte.ne_point_of_endsWord hc)
      · intro h
        rw [List.cons_append] at h
        obtain rfl := (List.cons.inj h).1
        exact hnone tail hdrop
    rw [readMantissa_of_no_point hnone, readMantissa_of_no_point hnone', hdigits]

theorem readSign_append_endsWord (bs after : Bytes) :
    readSign (bs ++ c :: after) = ((readSign bs).1, (readSign bs).2 ++ c :: after) := by
  cases bs with
  | nil =>
    have hsign : ¬ isSign c = true := by
      rw [Byte.isSign_of_endsWord hc]
      exact nofun
    rw [List.nil_append, readSign, if_neg hsign]
    rfl
  | cons b bs =>
    rw [List.cons_append, readSign, readSign]
    split <;> rfl

theorem readExponent?_append_endsWord (bs after : Bytes) :
    readExponent? (bs ++ c :: after)
      = (readExponent? bs).map fun x => (x.1, x.2 ++ c :: after) := by
  cases bs with
  | nil =>
    have hmarker : ¬ isMarker c = true := by
      rw [Byte.isMarker_of_endsWord hc]
      exact nofun
    rw [List.nil_append, readExponent?, if_neg hmarker]
    rfl
  | cons b bs =>
    rw [List.cons_append, readExponent?, readExponent?]
    split
    · rw [readSign_append_endsWord hc]
      dsimp only
      rw [readDigits_append_endsWord hc]
      rfl
    · rfl

theorem head?_append_endsWord (bs after : Bytes) :
    ((bs ++ c :: after).head? == some Byte.point) = (bs.head? == some Byte.point) := by
  cases bs with
  | nil =>
    have hpoint := Byte.ne_point_of_endsWord hc
    simpa using hpoint
  | cons b bs => rfl

theorem read?_append_endsWord (bs after : Bytes) :
    read? scientific (bs ++ c :: after)
      = (read? scientific bs).map fun x => (x.1, x.2 ++ c :: after) := by
  unfold read?
  rw [readMantissa_append_endsWord hc]
  rcases readMantissa bs with ⟨mantissa, rest⟩
  dsimp only
  split
  · rfl
  have hexp : (if scientific then readExponent? (rest ++ c :: after) else none)
      = (if scientific then readExponent? rest else none).map
          fun x => (x.1, x.2 ++ c :: after) := by
    split
    · exact readExponent?_append_endsWord hc rest after
    · rfl
  rw [hexp]
  rcases (if scientific then readExponent? rest else none) with - | ⟨x, behind⟩
  · dsimp only [Option.map_none]
    rw [head?_append_endsWord hc]
    split <;> rfl
  · dsimp only [Option.map_some]
    rw [head?_append_endsWord hc]
    split
    · rfl
    · split <;> rfl

end Literal

namespace Lexeme

/-- A byte after the text that continues no word stays in the rest, except behind
a refused literal. -/
theorem read_append_endsWord (b : UInt8) (bs after : Bytes) :
    read scientific b (bs ++ c :: after)
      = if (read scientific b bs).1 = some .badLiteral then read scientific b bs
        else ((read scientific b bs).1, (read scientific b bs).2 ++ c :: after) := by
  unfold read
  split
  · rfl
  split
  · rw [← List.cons_append, Literal.read?_append_endsWord hc]
    rcases Literal.read? scientific (b :: bs) with - | ⟨l, rest⟩ <;> rfl
  split
  · have hname := Byte.continuesName_of_endsWord hc
    rw [Name.split, Name.split, takeWhile_append_stop hname, dropWhile_append_stop hname]
    dsimp only
    rw [if_neg (by simp)]
    rcases List.dropWhile Byte.continuesName bs with - | ⟨d, rest⟩
    · -- the name ended the text, and the byte opens no call
      have hparen : (some c == some Byte.leftParen) = false := by
        simpa using Byte.ne_leftParen_of_endsWord hc
      show (some (name _ (some c == some Byte.leftParen)), _) = _
      rw [hparen]
      rfl
    · rfl
  · rw [if_neg]
    unfold ofByte
    split <;> simp

end Lexeme

end EndsWord

/-- Nothing is left behind a refused literal. -/
theorem Lexeme.read_badLiteral {b : UInt8} {bs : Bytes}
    (h : (read scientific b bs).1 = some .badLiteral) : (read scientific b bs).2 = [] := by
  unfold read at h ⊢
  split at h
  · exact absurd h (by simp)
  · rename_i hblank
    rw [if_neg hblank]
    split at h
    · rename_i hlit
      rw [if_pos hlit]
      split at h
      · exact absurd h (by simp)
      · rfl
    · split at h
      · exact absurd h (by simp)
      · unfold ofByte at h
        split at h <;> exact absurd h (by simp)

/-- Only a blank gives no word. -/
theorem Lexeme.read_eq_none {b : UInt8} {bs : Bytes} (h : (read scientific b bs).1 = none) :
    b = Byte.blank := by
  by_contra hblank
  rw [read, if_neg hblank] at h
  split at h
  · split at h <;> exact absurd h (by simp)
  · split at h <;> exact absurd h (by simp)

theorem lex_cons (b : UInt8) (bs : Bytes) :
    lex scientific (b :: bs) = (Lexeme.read scientific b bs).1.toList
      ++ lex scientific (Lexeme.read scientific b bs).2 := by
  rw [lex]

theorem lex_nil : lex scientific [] = [] := by
  rw [lex]

/-- Where a word starts with a byte of names it is a name. -/
theorem lex_of_startsName {b : UInt8} (hb : Byte.startsName b = true) (rest : Bytes) :
    ∃ opensCall, lex scientific (b :: rest)
      = .name (b :: (Name.split rest).1) opensCall :: lex scientific (Name.split rest).2 := by
  have hblank : b ≠ Byte.blank := by
    rintro rfl
    exact absurd hb (by decide)
  have hliteral : ¬ Byte.startsLiteral b = true := by
    rw [Byte.startsLiteral_of_startsName hb]
    exact Bool.false_ne_true
  refine ⟨(Name.split rest).2.head? == some Byte.leftParen, ?_⟩
  rw [lex_cons, Lexeme.read, if_neg hblank, if_neg hliteral, if_pos hb]
  rfl

/-- A left parenthesis in front of the text is a word. -/
theorem lex_leftParen (bs : Bytes) :
    lex scientific (Byte.leftParen :: bs) = .leftParen :: lex scientific bs := by
  rw [lex_cons]
  rfl

theorem lex_rightParen (bs : Bytes) :
    lex scientific (Byte.rightParen :: bs) = .rightParen :: lex scientific bs := by
  rw [lex_cons]
  rfl

/-- A blank in front of the text is no word. -/
theorem lex_blank (bs : Bytes) : lex scientific (Byte.blank :: bs) = lex scientific bs := by
  rw [lex_cons]
  rfl

/-- A text without words holds nothing but blanks. -/
theorem lex_eq_nil_iff (bs : Bytes) : lex scientific bs = [] ↔ ∀ b ∈ bs, b = Byte.blank := by
  induction bs with
  | nil => simp [lex_nil]
  | cons b bs ih =>
    by_cases hblank : b = Byte.blank
    · rw [hblank, lex_blank, ih, List.forall_mem_cons, and_iff_right rfl]
    · rw [lex_cons]
      refine ⟨fun h => ?_, fun h => absurd (h b List.mem_cons_self) hblank⟩
      have hnone := Option.toList_eq_nil_iff.mp (List.append_eq_nil_iff.mp h).1
      exact absurd (Lexeme.read_eq_none hnone) hblank

/-- The words of a text stay the same in front of a byte that continues none of
them, unless a refused literal takes the rest. -/
theorem lex_append_endsWord {c : UInt8} (hc : Byte.endsWord c = true) (bs after : Bytes) :
    lex scientific (bs ++ c :: after)
      = if .badLiteral ∈ lex scientific bs then lex scientific bs
        else lex scientific bs ++ lex scientific (c :: after) := by
  -- along the words of `bs`
  induction bs using lex.induct scientific with
  | case1 =>
    rw [List.nil_append, lex_nil]
    rfl
  | case2 b bs ih =>
    rw [List.cons_append, lex_cons, lex_cons b bs, Lexeme.read_append_endsWord hc]
    by_cases hbad : (Lexeme.read scientific b bs).1 = some .badLiteral
    · rw [if_pos hbad, if_pos]
      rw [hbad]
      exact List.mem_cons_self
    · have hmem : .badLiteral ∉ (Lexeme.read scientific b bs).1.toList := by
        rw [Option.mem_toList]
        exact hbad
      rw [if_neg hbad, ih]
      by_cases htail : .badLiteral ∈ lex scientific (Lexeme.read scientific b bs).2
      · rw [if_pos htail, if_pos (List.mem_append_right _ htail)]
      · rw [if_neg htail, if_neg, List.append_assoc]
        rw [List.mem_append]
        exact fun h => h.elim hmem htail

/-- A right parenthesis after the text is a word, unless a refused literal
takes it. -/
theorem lex_append_rightParen (bs after : Bytes) :
    lex scientific (bs ++ Byte.rightParen :: after)
      = if .badLiteral ∈ lex scientific bs then lex scientific bs
        else lex scientific bs ++ .rightParen :: lex scientific after := by
  rw [lex_append_endsWord (by decide), lex_rightParen]

/-- A blank after the text separates its words from those behind it. -/
theorem lex_append_blank (bs after : Bytes) :
    lex scientific (bs ++ Byte.blank :: after)
      = if .badLiteral ∈ lex scientific bs then lex scientific bs
        else lex scientific bs ++ lex scientific after := by
  rw [lex_append_endsWord (by decide), lex_blank]

/-! ### A call and its parenthesis -/

/-- Every name that opens a call stands in front of a left parenthesis. -/
def Joined (ws : List Lexeme) : Prop :=
  ∀ u word v, ws = u ++ .name word true :: v → ∃ v', v = .leftParen :: v'

theorem Joined.cons {w : Lexeme} {ws : List Lexeme} (h : Joined ws)
    (hw : ∀ word, w = .name word true → ∃ v', ws = .leftParen :: v') : Joined (w :: ws) := by
  intro u word v heq
  rcases u with - | ⟨x, u⟩
  · obtain ⟨rfl, rfl⟩ := List.cons.inj heq
    exact hw word rfl
  · obtain ⟨-, heq⟩ := List.cons.inj heq
    exact h u word v heq

/-- Behind a name that opens a call the text goes on with a parenthesis. -/
theorem Lexeme.read_name {b : UInt8} {bs : Bytes} {word : Bytes}
    (h : (read scientific b bs).1 = some (.name word true)) :
    ∃ rest, (read scientific b bs).2 = Byte.leftParen :: rest := by
  unfold read at h ⊢
  split at h
  · exact absurd h (by simp)
  split at h
  · split at h <;> exact absurd h (by simp)
  split at h
  · next hblank hlit hname =>
    rw [if_neg hblank, if_neg hlit, if_pos hname]
    dsimp only at h ⊢
    -- the flag of the name was read off the rest
    simp only [Option.some.injEq, name.injEq, beq_iff_eq, List.head?_eq_some_iff] at h
    exact h.2
  · unfold ofByte at h
    split at h <;> exact absurd h (by simp)

theorem joined_lex (bs : Bytes) : Joined (lex scientific bs) := by
  induction bs using lex.induct scientific with
  | case1 =>
    rw [lex_nil]
    intro u word v heq
    exact absurd heq.symm (by simp)
  | case2 b bs ih =>
    rw [lex_cons]
    rcases hword : (Lexeme.read scientific b bs).1 with - | w
    · exact ih
    · refine ih.cons fun word hw => ?_
      subst hw
      obtain ⟨rest, hrest⟩ := Lexeme.read_name hword
      rw [hrest, lex_leftParen]
      exact ⟨_, rfl⟩

/-! ### Parentheses -/

/-- A parenthesis. -/
inductive Paren where
  | left
  | right
deriving DecidableEq, Repr

/-- The parenthesis that a byte writes. -/
def Byte.paren? : UInt8 → Option Paren
  | Byte.leftParen => some .left
  | Byte.rightParen => some .right
  | _ => none

/-- The parenthesis that a word is. -/
def Lexeme.paren? : Lexeme → Option Paren
  | .leftParen => some .left
  | .rightParen => some .right
  | _ => none

/-- The parentheses of a text. -/
def Bytes.parens (bs : Bytes) : List Paren := bs.filterMap Byte.paren?

/-- The parentheses among words. -/
def parens (ws : List Lexeme) : List Paren := ws.filterMap Lexeme.paren?

theorem parens_append (ws ws' : List Lexeme) : parens (ws ++ ws') = parens ws ++ parens ws' :=
  List.filterMap_append

theorem Bytes.parens_append (bs bs' : Bytes) :
    Bytes.parens (bs ++ bs') = Bytes.parens bs ++ Bytes.parens bs' :=
  List.filterMap_append

/-- Bytes of which none is a parenthesis. -/
theorem Bytes.parens_eq_nil {bs : Bytes} (h : ∀ b ∈ bs, Byte.paren? b = none) :
    Bytes.parens bs = [] :=
  List.filterMap_eq_nil_iff.mpr h

/-- A class of bytes without parentheses. -/
theorem Bytes.parens_takeWhile {p : UInt8 → Bool} (hl : p Byte.leftParen = false)
    (hr : p Byte.rightParen = false) (bs : Bytes) : Bytes.parens (bs.takeWhile p) = [] := by
  refine Bytes.parens_eq_nil fun b hb => ?_
  have hp : p b = true := List.all_eq_true.mp List.all_takeWhile b hb
  unfold Byte.paren?
  split
  · exact absurd hp (by simp [hl])
  · exact absurd hp (by simp [hr])
  · rfl

namespace Literal

theorem parens_readDigits (bs : Bytes) : Bytes.parens (readDigits bs).1 = [] :=
  Bytes.parens_takeWhile (by decide) (by decide) bs

theorem parens_readMantissa (bs : Bytes) : Bytes.parens (readMantissa bs).1.bytes = [] := by
  by_cases hpoint : ∃ rest, (readDigits bs).2 = Byte.point :: rest
  · obtain ⟨rest, hrest⟩ := hpoint
    have hbytes : (readMantissa bs).1.bytes
        = (readDigits bs).1 ++ ([Byte.point] ++ (readDigits rest).1) := by
      rw [readMantissa_of_point hrest]
      simp [bytes, mantissaBytes]
    rw [hbytes, Bytes.parens_append, Bytes.parens_append, parens_readDigits, parens_readDigits]
    rfl
  · have hbytes : (readMantissa bs).1.bytes = (readDigits bs).1 := by
      rw [readMantissa_of_no_point fun rest hrest => hpoint ⟨rest, hrest⟩]
      simp [bytes, mantissaBytes]
    rw [hbytes, parens_readDigits]

theorem parens_readSign (bs : Bytes) : Bytes.parens (readSign bs).1.toList = [] := by
  unfold readSign
  split
  · next b rest =>
    split
    · next hsign =>
      refine Bytes.parens_eq_nil fun c hc => ?_
      obtain rfl : c = b := by simpa using hc
      simp only [isSign, Bool.or_eq_true, beq_iff_eq] at hsign
      rcases hsign with rfl | rfl <;> rfl
    · rfl
  · rfl

theorem parens_readExponent? {bs rest : Bytes} {x : Exponent}
    (h : readExponent? bs = some (x, rest)) : Bytes.parens x.bytes = [] := by
  obtain ⟨tail, -, hmarker, hsign, hdigits, -⟩ := readExponent?_eq_some h
  have hb : Bytes.parens [x.marker] = [] := by
    simp only [isMarker, Bool.or_eq_true, beq_iff_eq] at hmarker
    rcases hmarker with h | h <;> rw [h] <;> rfl
  show Bytes.parens ([x.marker] ++ (x.sign?.toList ++ x.digits)) = []
  rw [Bytes.parens_append, Bytes.parens_append, hb, hsign, hdigits, parens_readSign,
    parens_readDigits]
  rfl

/-- A literal holds no parentheses. -/
theorem parens_read? {bs rest : Bytes} {l : Literal} (h : read? scientific bs = some (l, rest)) :
    Bytes.parens l.bytes = [] := by
  obtain ⟨m, tail, hm, -, hcases⟩ := read?_eq_some h
  have hparens := parens_readMantissa bs
  have hnone := readMantissa_exponent? bs
  rw [hm] at hparens hnone
  rcases hcases with ⟨rfl, -⟩ | ⟨-, x, hx, -, rfl⟩
  · exact hparens
  · rw [bytes_withExponent hnone, Bytes.parens_append, hparens, parens_readExponent? hx]
    rfl

end Literal

/-- The parentheses at the front of a text are those of the word there, unless
it is a refused literal. -/
theorem Lexeme.parens_read {b : UInt8} {bs : Bytes}
    (h : (read scientific b bs).1 ≠ some .badLiteral) :
    Bytes.parens (b :: bs)
      = parens (read scientific b bs).1.toList ++ Bytes.parens (read scientific b bs).2 := by
  unfold read at h ⊢
  split
  · next hblank =>
    subst hblank
    rfl
  · next hblank =>
    rw [if_neg hblank] at h
    split
    · next hlit =>
      rw [if_pos hlit] at h
      rcases hread : Literal.read? scientific (b :: bs) with - | ⟨l, rest⟩
      · rw [hread] at h
        exact absurd rfl h
      · dsimp only
        rw [← (Literal.read?_append hread).1, Bytes.parens_append, Literal.parens_read? hread]
        rfl
    · next hlit =>
      split
      · next hname =>
        -- neither the first byte of a name nor one that continues it is a parenthesis
        have hb : Bytes.parens [b] = [] := by
          refine Bytes.parens_eq_nil fun c hc => ?_
          obtain rfl : c = b := by simpa using hc
          unfold Byte.paren?
          split
          · exact absurd hname (by decide)
          · exact absurd hname (by decide)
          · rfl
        have hsplit : b :: bs = [b] ++ (bs.takeWhile Byte.continuesName
            ++ bs.dropWhile Byte.continuesName) := by
          rw [List.takeWhile_append_dropWhile]
          rfl
        rw [hsplit, Bytes.parens_append, Bytes.parens_append, hb,
          Bytes.parens_takeWhile (by decide) (by decide)]
        rfl
      · -- any other byte is a word of its own
        have hword : Byte.paren? b = (ofByte b).paren? := by
          unfold Byte.paren? ofByte
          split
          · rfl
          · rfl
          · split
            · next hl _ => exact absurd rfl hl
            · next hr => exact absurd rfl hr
            · rfl
            · rfl
        show List.filterMap Byte.paren? (b :: bs) = List.filterMap paren? [ofByte b] ++ _
        rw [List.filterMap_cons, List.filterMap_cons, hword]
        rcases (ofByte b).paren? with - | p <;> rfl

/-- The parentheses among the words are those of the text, up to a refused
literal. -/
theorem parens_lex (bs : Bytes) :
    ∃ tail, bs.parens = parens (lex scientific bs) ++ tail ∧
      (.badLiteral ∉ lex scientific bs → tail = []) := by
  induction bs using lex.induct scientific with
  | case1 => exact ⟨[], by rw [lex_nil]; rfl, fun _ => rfl⟩
  | case2 b bs ih =>
    obtain ⟨tail, htail, hnil⟩ := ih
    rw [lex_cons]
    by_cases hbad : (Lexeme.read scientific b bs).1 = some .badLiteral
    · -- nothing is left of the text, and the tail is all that was refused
      refine ⟨Bytes.parens (b :: bs), ?_, fun h => absurd ?_ h⟩
      · rw [hbad, Lexeme.read_badLiteral hbad, lex_nil]
        rfl
      · rw [hbad]
        exact List.mem_cons_self
    · refine ⟨tail, ?_, fun h => hnil fun hmem => h (List.mem_append_right _ hmem)⟩
      rw [Lexeme.parens_read hbad, htail, parens_append, List.append_assoc]

end Formula
