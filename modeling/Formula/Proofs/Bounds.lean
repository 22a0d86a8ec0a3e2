/-
Formula/Proofs/Bounds.lean

A pass stays within its text.

Some of what a pass does is possible only within bounds.  A name is sliced out of the
text between two positions, which must be boundaries of characters and in order.  A
position that steps back must not step back behind the place where its literal starts.
A counter must not run over.  Here each of these is checked, and `none` stands for a
check that fails: `Bytes.slice?`, `Literal.scanAt?`, `Scan.turnAt?`.

No check ever fails (`Context.staysWithin`).  A literal is read as without the checks
(`Literal.scanAt?_eq`), a turn is the turn of the pass (`Within.turnAt?_eq`), and the whole
pass takes no more turns than the text has bytes (`Within.passAt?_eq`).  What carries this
is that a pass goes on only behind ASCII (`Within.isAscii`): a byte of a longer character
is refused where it stands, so in front of every place that the pass comes to there are
whole characters.
-/
import Formula.Proofs.Denotation
import Formula.Proofs.Encoding
import Formula.Proofs.Naming

namespace Formula

variable {σ : Type}

/-- A counter below this limit does not run over. -/
def counterLimit : Nat := 2 ^ 31

/-! ### Boundaries of characters -/

namespace Bytes

/-- Whether bytes are ASCII. -/
def IsAscii (bs : Bytes) : Prop := ∀ b ∈ bs, b < 128

variable {bs bs' : Bytes} {text : String} {start stop p : Nat}

theorem IsAscii.append (h : bs.IsAscii) (h' : bs'.IsAscii) : IsAscii (bs ++ bs') :=
  fun _ hb => (List.mem_append.mp hb).elim (h _) (h' _)

theorem utf8EncodeChar_ofUInt8 {b : UInt8} (hb : b < 128) :
    String.utf8EncodeChar (Char.ofUInt8 b) = [b] := by
  have hnat : b.toNat ≤ 127 := Nat.le_of_lt_succ (UInt8.lt_iff_toNat_lt.mp hb)
  have hval : (Char.ofUInt8 b).val.toNat = b.toNat := UInt8.toNat_toUInt32 b
  rw [String.utf8EncodeChar, hval, if_pos hnat, UInt8.ofNat_toNat]

/-- ASCII is encoded as it is. -/
theorem IsAscii.isValidUTF8 (h : bs.IsAscii) : ByteArray.IsValidUTF8 ⟨bs.toArray⟩ := by
  refine .intro (bs.map Char.ofUInt8) ?_
  have hencode : (bs.map Char.ofUInt8).flatMap String.utf8EncodeChar = bs := by
    rw [List.flatMap_map, List.flatMap_congr fun b hb => utf8EncodeChar_ofUInt8 (h b hb)]
    exact List.flatMap_singleton' bs
  rw [List.utf8Encode, hencode]
  exact ByteArray.ext List.data_toByteArray.symm

/-- Behind ASCII there is a boundary of characters. -/
theorem isValid_of_isAscii (hp : p ≤ (ofString text).length)
    (h : IsAscii ((ofString text).take p)) : String.Pos.Raw.IsValid text ⟨p⟩ := by
  rw [ofString_eq] at hp h
  refine String.Pos.Raw.isValid_iff_isValidUTF8_extract_zero.mpr ⟨?_, ?_⟩
  · rw [String.Pos.Raw.le_iff, String.byteIdx_rawEndPos, ← String.size_toByteArray]
    exact hp
  · have hextract : text.toByteArray.extract 0 p
        = ⟨(text.toByteArray.data.toList.take p).toArray⟩ := by
      refine ByteArray.ext (Array.toList_inj.mp ?_)
      rw [ByteArray.data_extract]
      simp
    rw [hextract]
    exact h.isValidUTF8

/-- The bytes of a text between two positions, when these are boundaries of characters
and in order. -/
def slice? (text : String) (start stop : Nat) : Option Bytes :=
  if h : String.Pos.Raw.IsValid text ⟨start⟩ ∧ String.Pos.Raw.IsValid text ⟨stop⟩ ∧
      start ≤ stop then
    some (ofString (text.extract ⟨⟨start⟩, h.1⟩ ⟨⟨stop⟩, h.2.1⟩))
  else none

theorem slice?_eq (hstart : String.Pos.Raw.IsValid text ⟨start⟩)
    (hstop : String.Pos.Raw.IsValid text ⟨stop⟩) (h : start ≤ stop) :
    slice? text start stop = some (((ofString text).take stop).drop start) := by
  rw [slice?, dif_pos ⟨hstart, hstop, h⟩, ofString_eq, ofString_eq, String.toByteArray_extract,
    ByteArray.data_extract]
  simp [List.drop_take]

end Bytes

/-! ### Literals -/

namespace Literal

variable {α : Type} {A : Arithmetic α} {scientific : Bool} {bs : Bytes} {start stop : Nat}

/-- The automaton with its counter of digits checked at every byte. -/
def Progress.run? (A : Arithmetic α) (scientific : Bool) (p : Progress α) :
    Bytes → Option (Except Error (Progress α))
  | [] => some (.ok p)
  | b :: bs =>
    match p.step A scientific b with
    | .error e => some (.error e)
    | .ok none => some (.ok p)
    | .ok (some q) => if q.digits < counterLimit then run? A scientific q bs else none

/-- The number at position `start` of a text and the position just after it; where the
automaton steps back it is checked that it stays behind `start`. -/
def scanAt? (A : Arithmetic α) (scientific : Bool) (bs : Bytes) (start : Nat) :
    Option (Except Error (α × Nat)) :=
  match (Progress.start A start).run? A scientific (bs.drop start) with
  | none => none
  | some (.error e) => some (.error e)
  | some (.ok q) => if start + q.part.excess ≤ q.position then some (settle A (.ok q)) else none

theorem Progress.run?_eq {p : Progress α}
    (h : p.part.excess + p.digits + bs.length < counterLimit) :
    p.run? A scientific bs = some (p.run A scientific bs) := by
  induction bs generalizing p with
  | nil => rfl
  | cons b bs ih =>
    rw [List.length_cons] at h
    rw [Progress.run?, Progress.run]
    rcases hstep : p.step A scientific b with e | - | q
    · rfl
    · rfl
    · -- excess and digits together grow by one at most, as the bytes get fewer
      have hpassed := (Progress.passes_of_step hstep).spec.2
      show (if q.digits < counterLimit then _ else _) = _
      rw [if_pos (by omega)]
      exact ih (by omega)

/-- No check fails in a literal. -/
theorem scanAt?_eq (h : bs.length < counterLimit) :
    scanAt? A scientific bs start = some (scanAt A scientific bs start) := by
  have hlen : (Progress.start A start).part.excess + (Progress.start A start).digits
      + (bs.drop start).length < counterLimit := by
    rw [List.length_drop]
    show 0 + (bs.length - start) < counterLimit
    omega
  rw [scanAt?, scanAt, Progress.run?_eq hlen]
  cases hrun : (Progress.start A start).run A scientific (bs.drop start) with
  | error e => rfl
  | ok q =>
    obtain ⟨hback, -⟩ := Progress.excess_add_digits_le hrun
    exact if_pos (by omega)

/-- A literal takes at least one byte and ends within the text. -/
theorem lt_of_readAt {v : Float} (h : readAt scientific bs start = .ok (v, stop)) :
    start < stop ∧ stop ≤ bs.length := by
  unfold readAt at h
  split at h
  · exact absurd h nofun
  · next l rest hread =>
    obtain ⟨-, rfl⟩ := Prod.mk.inj (Except.ok.inj h)
    obtain ⟨happend, hdigit⟩ := read?_append hread
    have hpos := List.length_pos_iff.mpr (bytes_ne_nil hdigit)
    have hlen := congrArg List.length happend
    rw [List.length_append, List.length_drop] at hlen
    omega

end Literal

/-! ### What is read is ASCII -/

namespace Byte

variable {b : UInt8}

theorem lt_of_continuesName (h : continuesName b = true) : b < 128 := by
  grind [continuesName, isLetter, isDigit]

theorem lt_of_isDigit (h : isDigit b = true) : b < 128 := by
  grind [isDigit]

end Byte

/-- A name is written in ASCII. -/
theorem Name.isAscii_of_isValid {n : Bytes} (h : isValid n = true) : n.IsAscii := by
  cases n with
  | nil => exact absurd h nofun
  | cons b bs =>
    obtain ⟨hb, hbs⟩ := isValid_cons_iff.mp h
    exact List.forall_mem_cons.mpr ⟨Byte.lt_of_continuesName (Byte.startsName_iff.mp hb).2,
      fun c hc => Byte.lt_of_continuesName (hbs c hc)⟩

namespace Literal

variable {scientific : Bool} {l : Literal} {x : Exponent}

theorem isAscii_exponent (hx : x.IsWritten) : x.bytes.IsAscii := by
  intro b hb
  rw [Exponent.bytes, List.mem_cons, List.mem_append, Option.mem_toList] at hb
  rcases hb with rfl | hsign | hdigit
  · have hname := Byte.startsName_iff.mp (Byte.startsName_of_isMarker hx.marker)
    exact Byte.lt_of_continuesName hname.2
  · rcases Byte.eq_of_isSign (hx.sign? b hsign) with rfl | rfl <;> decide
  · exact Byte.lt_of_isDigit (hx.digits b hdigit)

/-- A literal is written in ASCII. -/
theorem IsWritten.isAscii (hl : l.IsWritten scientific) : l.bytes.IsAscii := by
  have hwhole : Bytes.IsAscii l.whole := fun b hb => Byte.lt_of_isDigit (hl.whole b hb)
  have hfraction : Bytes.IsAscii l.fraction := fun b hb => Byte.lt_of_isDigit (hl.fraction b hb)
  refine (hwhole.append ?_).append ?_
  · cases hfr : l.fraction? with
    | none => exact nofun
    | some ds =>
      unfold Literal.fraction at hfraction
      rw [hfr] at hfraction
      exact List.forall_mem_cons.mpr ⟨by decide, hfraction⟩
  · cases hx : l.exponent? with
    | none => exact nofun
    | some x => exact isAscii_exponent (hl.exponent? x hx).2

end Literal

namespace Lexeme

variable {C : Context σ} {s s' : Scan σ} {b : UInt8} {bs rest : Bytes} {w : Option Lexeme}

/-- A byte of a longer character is no operator. -/
theorem lt_of_takes_other (h : Scan.Takes C s (.other b) s') : b < 128 := by
  cases h with
  | binary _ hop _ =>
    unfold BinaryOp.ofByte? at hop
    split at hop <;> first | decide | exact absurd hop nofun
  | sign _ hop _ =>
    unfold UnaryOp.ofByte? at hop
    split at hop <;> first | decide | exact absurd hop nofun

theorem lt_of_takes_ofByte (h : Scan.Takes C s (.ofByte b) s') : b < 128 := by
  unfold Lexeme.ofByte at h
  split at h
  · decide
  · decide
  · decide
  · exact lt_of_takes_other h

/-- A word that a pass takes is written in ASCII. -/
theorem isAscii_of_read (hread : read (C.allows .scientificNotation) b bs = (w, rest))
    (h : Scan.acceptAll C s w.toList = .ok s') :
    ∃ front : Bytes, b :: bs = front ++ rest ∧ front.IsAscii := by
  unfold read at hread
  split at hread
  · next hblank =>
    obtain ⟨-, rfl⟩ := Prod.mk.inj hread
    subst hblank
    exact ⟨[Byte.blank], rfl, List.forall_mem_singleton.mpr (by decide)⟩
  split at hread
  · split at hread
    · next l rest' hliteral =>
      obtain ⟨-, rfl⟩ := Prod.mk.inj hread
      exact ⟨l.bytes, (Literal.read?_append hliteral).1.symm,
        (Literal.isWritten_of_read? hliteral).isAscii⟩
    · obtain ⟨rfl, -⟩ := Prod.mk.inj hread
      exact absurd h nofun
  split at hread
  · next hname =>
    obtain ⟨-, rfl⟩ := Prod.mk.inj hread
    exact ⟨b :: (Name.split bs).1, congrArg (b :: ·) (Name.split_append bs).symm,
      Name.isAscii_of_isValid (Name.isValid_split hname bs)⟩
  · obtain ⟨rfl, rfl⟩ := Prod.mk.inj hread
    exact ⟨[b], rfl, List.forall_mem_singleton.mpr
      (lt_of_takes_ofByte (Scan.acceptAll_singleton_eq_ok.mp h))⟩

end Lexeme

/-! ### Turns with checks -/

namespace Scan

/-- Reads the literal at a position. -/
def literalAt? (C : Context σ) (text : String) (p : Nat) (s : Scan σ) :
    Option (Except Error (Nat × Scan σ)) :=
  (Literal.scanAt? .float (C.allows .scientificNotation) (Bytes.ofString text) p).map fun r => do
    require s.last.expectsOperand
    let (x, stop) ← r
    return (stop, (s.countOperand.emit (.const x)).advance .literal)

/-- Reads the name at a position, which is sliced out of the text. -/
def nameAt? (C : Context σ) (text : String) (p : Nat) (s : Scan σ) :
    Option (Except Error (Nat × Scan σ)) :=
  let bs := Bytes.ofString text
  let stop := Name.endOfNameAt bs p
  (Bytes.slice? text p stop).map fun word => do
    let s' ← s.name C word (bs[stop]? == some Byte.leftParen)
    return (stop, s')

/-- Reads the word, or the blank, at a position. -/
def wordAt? (C : Context σ) (text : String) (p : Nat) (s : Scan σ) :
    Option (Except Error (Nat × Scan σ)) :=
  match (Bytes.ofString text)[p]? with
  | none => none
  | some b =>
    if b = Byte.blank then some (.ok (p + 1, s))
    else if Byte.startsLiteral b then s.literalAt? C text p
    else if Byte.startsName b then s.nameAt? C text p
    else some do
      let s' ← s.accept C (.ofByte b)
      return (p + 1, s')

/-- One turn at a position, and the position behind it.  The counter of arguments is
checked behind it. -/
def turnAt? (C : Context σ) (text : String) (p : Nat) (s : Scan σ) :
    Option (Except Error (Nat × Scan σ)) :=
  match s.wordAt? C text p with
  | some (.ok x) => if x.2.arity < counterLimit then some (.ok x) else none
  | r => r

/-- At most `turns` turns from a position to the end of the text. -/
def passAt? (C : Context σ) (text : String) (turns : Nat) (p : Nat) (s : Scan σ) :
    Option (Except Error (Scan σ)) :=
  if (Bytes.ofString text).length ≤ p then some (.ok s)
  else match turns with
    | 0 => none
    | turns + 1 =>
      match s.turnAt? C text p with
      | none => none
      | some (.error e) => some (.error e)
      | some (.ok (q, s')) => passAt? C text turns q s'

/-- From the start of a text the turns come to a position. -/
def ReachesAt (C : Context σ) (text : String) (p : Nat) (s : Scan σ) : Prop :=
  Relation.ReflTransGen
    (fun x y : Nat × Scan σ => x.2.turnAt? C text x.1 = some (.ok y)) (0, {}) (p, s)

/-! ### No check fails -/

variable {C : Context σ} {text : String} {s s' : Scan σ} {p q n : Nat} {b : UInt8}
  {tail rest : Bytes} {w : Option Lexeme}

/-- A word adds at most one to the counters. -/
theorem Takes.counters {w : Lexeme} (h : Takes C s w s') (harity : s.arity ≤ n)
    (hsaved : ∀ k ∈ s.saved, k ≤ n) : s'.arity ≤ n + 1 ∧ ∀ k ∈ s'.saved, k ≤ n + 1 := by
  have hkeep : ∀ k ∈ s.saved, k ≤ n + 1 := fun k hk => Nat.le_succ_of_le (hsaved k hk)
  have hoperand : s.countOperand.arity ≤ n + 1 :=
    Nat.max_le.mpr ⟨Nat.le_succ_of_le harity, Nat.succ_le_succ (Nat.zero_le n)⟩
  have hfinish : s.saved.headD 0 ≤ n + 1 ∧ ∀ k ∈ s.saved.tail, k ≤ n + 1 := by
    refine ⟨?_, fun k hk => hkeep k (List.mem_of_mem_tail hk)⟩
    cases hs : s.saved with
    | nil => exact Nat.zero_le _
    | cons k ks => exact hkeep k (hs ▸ List.mem_cons_self)
  induction h with
  | literal | const | var | func | openGroup => exact ⟨hoperand, hkeep⟩
  -- the operator that stands for the `*` leaves the counters alone
  | times _ _ _ ih => exact ih harity hsaved hkeep hoperand hfinish
  | openCall =>
    exact ⟨Nat.zero_le _, List.forall_mem_cons.mpr ⟨Nat.le_succ_of_le harity, hkeep⟩⟩
  | closeEmpty | closeCall => exact hfinish
  | closeGroup | closeUnopened | binary | sign => exact ⟨Nat.le_succ_of_le harity, hkeep⟩
  | comma => exact ⟨Nat.succ_le_succ harity, hkeep⟩

/-- What holds at every position that a pass comes to: everything in front of it is ASCII,
and no counter exceeds it. -/
structure Within (text : String) (p : Nat) (s : Scan σ) : Prop where
  le_length : p ≤ (Bytes.ofString text).length
  isAscii : Bytes.IsAscii ((Bytes.ofString text).take p)
  arity : s.arity ≤ p
  saved : ∀ k ∈ s.saved, k ≤ p

theorem within_start (text : String) : Within text 0 ({} : Scan σ) where
  le_length := Nat.zero_le _
  isAscii := nofun
  arity := Nat.le_refl 0
  saved := nofun

theorem length_of_drop {bs : Bytes} (hp : bs.drop p = b :: tail) :
    p + 1 + tail.length = bs.length := by
  have hlen := congrArg List.length hp
  rw [List.length_drop, List.length_cons] at hlen
  omega

/-- Where a name starts it can be sliced out of the text. -/
theorem Within.slice?_eq (h : Within text p s) (hp : (Bytes.ofString text).drop p = b :: tail)
    (hb : Byte.startsName b = true) :
    let stop := Name.endOfNameAt (Bytes.ofString text) p
    p < stop ∧ stop ≤ (Bytes.ofString text).length ∧ String.Pos.Raw.IsValid text ⟨p⟩ ∧
      String.Pos.Raw.IsValid text ⟨stop⟩ ∧
      Bytes.slice? text p stop = some (b :: (Name.split tail).1) ∧
      (Bytes.ofString text).drop stop = (Name.split tail).2 := by
  intro stop
  have hstop : stop = p + (b :: (Name.split tail).1).length := by
    show p + (Name.split ((Bytes.ofString text).drop p)).1.length = _
    rw [hp, Name.split_cons (Byte.startsName_iff.mp hb).2]
  have happend : (b :: (Name.split tail).1) ++ (Name.split tail).2 = b :: tail :=
    congrArg (b :: ·) (Name.split_append tail)
  have hname : Bytes.IsAscii (b :: (Name.split tail).1) :=
    Name.isAscii_of_isValid (Name.isValid_split hb tail)
  have hslice : ((Bytes.ofString text).take stop).drop p = b :: (Name.split tail).1 := by
    rw [List.drop_take, hp, ← happend, hstop, Nat.add_sub_cancel_left, List.take_left]
  have hlen := length_of_drop hp
  have hlen' := congrArg List.length happend
  rw [List.length_append, List.length_cons] at hlen'
  rw [List.length_cons] at hstop
  have hle : stop ≤ (Bytes.ofString text).length := by
    rw [List.length_cons] at hlen'
    omega
  have htake : (Bytes.ofString text).take stop
      = (Bytes.ofString text).take p ++ (b :: (Name.split tail).1) := by
    rw [← hslice, List.drop_take, hstop, Nat.add_sub_cancel_left, List.take_add]
  -- the name is ASCII, as is everything in front of it, so both of its ends are boundaries
  have hstart := Bytes.isValid_of_isAscii h.le_length h.isAscii
  have hend := Bytes.isValid_of_isAscii hle (htake ▸ h.isAscii.append hname)
  refine ⟨by omega, hle, hstart, hend, ?_, ?_⟩
  · rw [Bytes.slice?_eq hstart hend (by omega), hslice]
  · rw [hstop, ← List.drop_drop, hp, ← happend]
    exact List.drop_left

theorem acceptAll_singleton (C : Context σ) (s : Scan σ) (w : Lexeme) :
    acceptAll C s [w] = s.accept C w :=
  bind_pure _

/-- A literal is read where it stands. -/
theorem literalAt?_of_read? {l : Literal} (hlimit : (Bytes.ofString text).length < counterLimit)
    (hp : (Bytes.ofString text).drop p = b :: tail)
    (hl : Literal.read? (C.allows .scientificNotation) (b :: tail) = some (l, rest)) :
    s.literalAt? C text p
      = some ((s.literal l).map fun s' => ((Bytes.ofString text).length - rest.length, s')) := by
  have hlen := length_of_drop hp
  have hlen' := congrArg List.length (Literal.read?_append hl).1
  rw [List.length_append, List.length_cons] at hlen'
  have hstop : (Bytes.ofString text).length - rest.length = p + l.bytes.length := by omega
  rw [literalAt?, Literal.scanAt?_eq hlimit, Literal.scanAt_float, Literal.readAt, hp, hl, hstop,
    Scan.literal]
  cases s.last.expectsOperand <;> rfl

theorem literalAt?_of_no_literal (hlimit : (Bytes.ofString text).length < counterLimit)
    (hp : (Bytes.ofString text).drop p = b :: tail)
    (hl : Literal.read? (C.allows .scientificNotation) (b :: tail) = none) :
    s.literalAt? C text p = some (.error .malformed) := by
  rw [literalAt?, Literal.scanAt?_eq hlimit, Literal.scanAt_float, Literal.readAt, hp, hl]
  cases s.last.expectsOperand <;> rfl

/-- A name is read where it stands. -/
theorem Within.nameAt?_eq (h : Within text p s) (hp : (Bytes.ofString text).drop p = b :: tail)
    (hb : Byte.startsName b = true) :
    s.nameAt? C text p = some ((s.name C (b :: (Name.split tail).1)
      ((Name.split tail).2.head? == some Byte.leftParen)).map fun s' =>
        ((Bytes.ofString text).length - (Name.split tail).2.length, s')) := by
  obtain ⟨-, hle, -, -, hslice, hdrop⟩ := h.slice?_eq hp hb
  generalize hstop : Name.endOfNameAt (Bytes.ofString text) p = stop at *
  have hend : (Bytes.ofString text).length - (Name.split tail).2.length = stop := by
    rw [← hdrop, List.length_drop]
    omega
  have hnext : (Bytes.ofString text)[stop]? = (Name.split tail).2.head? := by
    rw [← hdrop, List.head?_drop]
  rw [nameAt?, hstop, hslice, hend, hnext, Option.map_some]
  cases s.name C (b :: (Name.split tail).1)
    ((Name.split tail).2.head? == some Byte.leftParen) <;> rfl

/-- The word, or the blank, at a position is read as the pass reads it. -/
theorem Within.wordAt?_eq (h : Within text p s)
    (hlimit : (Bytes.ofString text).length < counterLimit)
    (hp : (Bytes.ofString text).drop p = b :: tail)
    (hread : Lexeme.read (C.allows .scientificNotation) b tail = (w, rest)) :
    s.wordAt? C text p = some ((acceptAll C s w.toList).map
      fun s' => ((Bytes.ofString text).length - rest.length, s')) := by
  have hlen := length_of_drop hp
  have hget : (Bytes.ofString text)[p]? = some b := by
    rw [← List.head?_drop, hp]
    rfl
  have hone : (Bytes.ofString text).length - tail.length = p + 1 := by omega
  -- both readers look at the same byte and ask the same questions in the same order
  unfold Lexeme.read at hread
  rw [wordAt?, hget]
  dsimp only
  split at hread
  · next hblank =>
    obtain ⟨rfl, rfl⟩ := Prod.mk.inj hread
    rw [if_pos hblank, hone]
    rfl
  next hblank =>
  rw [if_neg hblank]
  split at hread
  · next hliteral =>
    rw [if_pos hliteral]
    split at hread
    · next l rest' hl =>
      obtain ⟨rfl, rfl⟩ := Prod.mk.inj hread
      rw [literalAt?_of_read? hlimit hp hl, Option.toList_some, acceptAll_singleton]
      rfl
    · next hnone =>
      obtain ⟨rfl, rfl⟩ := Prod.mk.inj hread
      rw [literalAt?_of_no_literal hlimit hp hnone]
      rfl
  next hliteral =>
  rw [if_neg hliteral]
  split at hread
  · next hname =>
    obtain ⟨rfl, rfl⟩ := Prod.mk.inj hread
    rw [if_pos hname, h.nameAt?_eq hp hname, Option.toList_some, acceptAll_singleton]
    rfl
  · next hname =>
    obtain ⟨rfl, rfl⟩ := Prod.mk.inj hread
    rw [if_neg hname, hone, Option.toList_some, acceptAll_singleton]
    cases s.accept C (.ofByte b) <;> rfl

/-- A turn goes forward and stays in the text. -/
theorem Within.next (h : Within text p s) (hp : (Bytes.ofString text).drop p = b :: tail)
    (hread : Lexeme.read (C.allows .scientificNotation) b tail = (w, rest))
    (haccept : acceptAll C s w.toList = .ok s') :
    let q := (Bytes.ofString text).length - rest.length
    p < q ∧ (Bytes.ofString text).drop q = rest ∧ Within text q s' := by
  intro q
  obtain ⟨front, hfront, hascii⟩ := Lexeme.isAscii_of_read hread haccept
  have hsuffix := Lexeme.read_suffix (C.allows .scientificNotation) b tail
  rw [hread] at hsuffix
  have hshort : rest.length ≤ tail.length := hsuffix.length_le
  have hlen := length_of_drop hp
  have hlen' := congrArg List.length hfront
  rw [List.length_cons, List.length_append] at hlen'
  have hq : q = p + front.length := by
    show (Bytes.ofString text).length - rest.length = _
    omega
  have hdrop : (Bytes.ofString text).drop q = rest := by
    rw [hq, ← List.drop_drop, hp, hfront, List.drop_left]
  have htake : (Bytes.ofString text).take q = (Bytes.ofString text).take p ++ front := by
    rw [hq, List.take_add, hp, hfront, List.take_left]
  -- a blank leaves the counters alone, and a word adds one to them where it takes a byte
  have hcounters : s'.arity ≤ p + 1 ∧ ∀ k ∈ s'.saved, k ≤ p + 1 := by
    cases w with
    | none =>
      cases haccept
      exact ⟨Nat.le_succ_of_le h.arity, fun k hk => Nat.le_succ_of_le (h.saved k hk)⟩
    | some w => exact (acceptAll_singleton_eq_ok.mp haccept).counters h.arity h.saved
  have hlt : p + 1 ≤ q := by omega
  exact ⟨hlt, hdrop, Nat.sub_le _ _, htake ▸ h.isAscii.append hascii,
    hcounters.1.trans hlt, fun k hk => (hcounters.2 k hk).trans hlt⟩

theorem Within.turnAt?_eq (h : Within text p s)
    (hlimit : (Bytes.ofString text).length < counterLimit)
    (hp : (Bytes.ofString text).drop p = b :: tail)
    (hread : Lexeme.read (C.allows .scientificNotation) b tail = (w, rest)) :
    s.turnAt? C text p = some ((acceptAll C s w.toList).map
      fun s' => ((Bytes.ofString text).length - rest.length, s')) := by
  rw [turnAt?, h.wordAt?_eq hlimit hp hread]
  cases haccept : acceptAll C s w.toList with
  | error e => rfl
  | ok s' =>
    have hnext := (h.next hp hread haccept).2.2
    exact if_pos ((hnext.arity.trans hnext.le_length).trans_lt hlimit)

/-- A turn that does not fail leads to a place further on, within the text. -/
theorem Within.of_turnAt? (h : Within text p s)
    (hlimit : (Bytes.ofString text).length < counterLimit)
    (hturn : s.turnAt? C text p = some (.ok (q, s'))) : p < q ∧ Within text q s' := by
  rcases hp : (Bytes.ofString text).drop p with - | ⟨b, tail⟩
  · have hget : (Bytes.ofString text)[p]? = none := by
      rw [← List.head?_drop, hp]
      rfl
    rw [turnAt?, wordAt?, hget] at hturn
    exact absurd hturn nofun
  · rcases hread : Lexeme.read (C.allows .scientificNotation) b tail with ⟨w, rest⟩
    rw [h.turnAt?_eq hlimit hp hread] at hturn
    cases haccept : acceptAll C s w.toList with
    | error e =>
      rw [haccept] at hturn
      exact absurd hturn nofun
    | ok s₁ =>
      rw [haccept] at hturn
      obtain ⟨rfl, rfl⟩ := Prod.mk.inj (Except.ok.inj (Option.some.inj hturn))
      obtain ⟨hlt, -, hnext⟩ := h.next hp hread haccept
      exact ⟨hlt, hnext⟩

/-- So do all turns, one after another. -/
theorem ReachesAt.within (h : ReachesAt C text p s)
    (hlimit : (Bytes.ofString text).length < counterLimit) : Within text p s := by
  unfold ReachesAt at h
  generalize hy : (p, s) = y at h
  induction h generalizing p s with
  | refl =>
    obtain ⟨rfl, rfl⟩ := Prod.mk.inj hy
    exact within_start text
  | @tail x y _ hturn ih =>
    subst hy
    exact ((ih rfl).of_turnAt? hlimit hturn).2

/-- A turn for every byte that is left is enough. -/
theorem Within.passAt?_eq {turns : Nat} (h : Within text p s)
    (hlimit : (Bytes.ofString text).length < counterLimit)
    (hturns : (Bytes.ofString text).length ≤ p + turns) :
    passAt? C text turns p s = some (acceptAll C s (C.lex ((Bytes.ofString text).drop p))) := by
  -- every turn uses up at least one byte
  induction turns generalizing p s with
  | zero =>
    have hend : (Bytes.ofString text).length ≤ p := hturns
    rw [passAt?, if_pos hend, List.drop_eq_nil_of_le hend, Context.lex, lex_nil]
    rfl
  | succ turns ih =>
    rcases hp : (Bytes.ofString text).drop p with - | ⟨b, tail⟩
    · rw [passAt?, if_pos (List.drop_eq_nil_iff.mp hp), Context.lex, lex_nil]
      rfl
    have hlen := length_of_drop hp
    have hne : ¬ (Bytes.ofString text).length ≤ p := by omega
    rcases hread : Lexeme.read (C.allows .scientificNotation) b tail with ⟨w, rest⟩
    rw [passAt?, if_neg hne, h.turnAt?_eq hlimit hp hread, Context.lex, lex_cons, hread,
      acceptAll_append]
    cases haccept : acceptAll C s w.toList with
    | error e => rfl
    | ok s₁ =>
      obtain ⟨hlt, hdrop, hnext⟩ := h.next hp hread haccept
      have hrest := ih hnext (by omega)
      rw [hdrop] at hrest
      exact hrest

end Scan

/-! ### Whole texts -/

namespace Context

variable {C : Context σ} {text : String}

/-- The postfix form of a formula, by at most `turns` turns with checks. -/
def compileAt? (C : Context σ) (text : String) (turns : Nat) :
    Option (Except Error (Postfix σ)) :=
  (Scan.passAt? C text turns 0 {}).map fun r => r >>= fun s => s.finish C

/-- A pass over a text ends, and no check fails in it.
* A turn for every byte of the text is enough to compile it.
* In front of the end no check fails in a turn, and one that is not refused leads further
  on, to a position in the text or at its end and at a boundary of characters.
* A name that a turn comes to, also one that is then refused, stands between two
  boundaries of characters, so it can be sliced out.
* At any position no check fails where a literal is read.  A literal takes at least one
  byte and ends within the text, and stepping back from a marker and its sign does not
  lead behind its start, also when the literal is then refused. -/
structure StaysWithin (C : Context σ) (text : String) : Prop where
  compiles : ∀ turns, (Bytes.ofString text).length ≤ turns →
    C.compileAt? text turns = some (C.compile (Bytes.ofString text))
  turns : ∀ p s, Scan.ReachesAt C text p s → p < (Bytes.ofString text).length →
    ∃ r, s.turnAt? C text p = some r ∧ ∀ q s', r = .ok (q, s') →
      p < q ∧ q ≤ (Bytes.ofString text).length ∧ String.Pos.Raw.IsValid text ⟨q⟩
  names : ∀ p s b, Scan.ReachesAt C text p s → (Bytes.ofString text)[p]? = some b →
    Byte.startsName b = true →
    let stop := Name.endOfNameAt (Bytes.ofString text) p
    p < stop ∧ stop ≤ (Bytes.ofString text).length ∧ String.Pos.Raw.IsValid text ⟨p⟩ ∧
      String.Pos.Raw.IsValid text ⟨stop⟩ ∧ ∃ name, Bytes.slice? text p stop = some name
  literals : ∀ scientific start,
    Literal.scanAt? .float scientific (Bytes.ofString text) start
      = some (Literal.readAt scientific (Bytes.ofString text) start)
  literals_end : ∀ scientific start v stop,
    Literal.readAt scientific (Bytes.ofString text) start = .ok (v, stop) →
      start < stop ∧ stop ≤ (Bytes.ofString text).length
  literals_back : ∀ scientific start q,
    (Literal.Progress.start .float start).run .float scientific
        ((Bytes.ofString text).drop start) = .ok q →
      start + q.part.excess ≤ q.position

/-- **A pass ends and stays within its text**, if its counters cannot run over: in no
context does a check fail. -/
theorem staysWithin (C : Context σ) (hlimit : (Bytes.ofString text).length < counterLimit) :
    C.StaysWithin text where
  compiles := by
    intro turns hturns
    rw [compileAt?, (Scan.within_start text).passAt?_eq hlimit (by omega), List.drop_zero]
    rfl
  turns := by
    intro p s hreach hp
    have h := hreach.within hlimit
    have hturn : s.turnAt? C text p = _ :=
      h.turnAt?_eq hlimit (List.drop_eq_getElem_cons hp) rfl
    refine ⟨_, hturn, fun q s' hr => ?_⟩
    rw [hr] at hturn
    obtain ⟨hlt, hnext⟩ := h.of_turnAt? hlimit hturn
    exact ⟨hlt, hnext.le_length, Bytes.isValid_of_isAscii hnext.le_length hnext.isAscii⟩
  names := by
    intro p s b hreach hb hname
    obtain ⟨hp, rfl⟩ := List.getElem?_eq_some_iff.mp hb
    obtain ⟨hlt, hle, hstart, hstop, hslice, -⟩ :=
      (hreach.within hlimit).slice?_eq (List.drop_eq_getElem_cons hp) hname
    exact ⟨hlt, hle, hstart, hstop, _, hslice⟩
  literals := by
    intro scientific start
    rw [Literal.scanAt?_eq hlimit, Literal.scanAt_float]
  literals_end := fun _ _ _ _ => Literal.lt_of_readAt
  literals_back := by
    intro scientific start q hrun
    obtain ⟨hback, -⟩ := Literal.Progress.excess_add_digits_le hrun
    omega

/-- The text `2e+x×3`, with a marker and its sign to step back over and a character that
is refused. -/
theorem sample_staysWithin : (Bytes.ofString "2e+x×3").length < counterLimit ∧
    (empty .full : Context Unit).StaysWithin "2e+x×3" := by
  have hlimit : (Bytes.ofString "2e+x×3").length < counterLimit := by
    decide +kernel
  exact ⟨hlimit, staysWithin _ hlimit⟩

end Context

end Formula
