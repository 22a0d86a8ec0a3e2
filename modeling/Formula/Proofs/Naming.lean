/-
Formula/Proofs/Naming.lean

Names that can be bound are names that can be read.

Whether a name may be bound is asked of its bytes: the first is no digit, and all of them
may continue a name.  Where a name in a text starts and ends is asked in another way: it
starts with a letter or an underscore, and goes on as far as bytes may continue it.  Both
say the same (`Name.isValid_iff`), for bytes of longer characters too, which no name has.

So every name among the words of a text is valid (`isValid_of_mem_lex`), and a valid name
is one word, also between blanks (`lex_name`).  A constant or a variable, written on its
own, compiles to itself (`Context.compile_name`).
-/
import Formula.Proofs.History
import Formula.Proofs.Lexing
import Formula.Proofs.Lookup

namespace Formula

variable {σ : Type}

/-! ### Valid names -/

/-- A byte may start a name if it may continue one and is no digit. -/
theorem Byte.startsName_iff {b : UInt8} :
    startsName b = true ↔ isDigit b = false ∧ continuesName b = true := by
  grind [startsName, continuesName, isLetter, isDigit]

namespace Name

variable {b : UInt8} {n : Bytes}

theorem split_append (bs : Bytes) : (split bs).1 ++ (split bs).2 = bs :=
  List.takeWhile_append_dropWhile

theorem continuesName_of_mem_split (bs : Bytes) :
    ∀ c ∈ (split bs).1, Byte.continuesName c = true :=
  fun _ hc => List.mem_takeWhile_imp hc

theorem split_cons (hb : Byte.continuesName b = true) (bs : Bytes) :
    split (b :: bs) = (b :: (split bs).1, (split bs).2) := by
  rw [split, List.takeWhile_cons_of_pos hb, List.dropWhile_cons_of_pos hb, split]

theorem isValid_cons_iff {bs : Bytes} : isValid (b :: bs) = true ↔
    Byte.startsName b = true ∧ ∀ c ∈ bs, Byte.continuesName c = true := by
  rw [isValid, Bool.and_eq_true, Bool.not_eq_true', List.all_cons, Bool.and_eq_true,
    List.all_eq_true, ← and_assoc, ← Byte.startsName_iff]

/-- What is split off behind a byte that starts a name makes a valid name with it. -/
theorem isValid_split (hb : Byte.startsName b = true) (bs : Bytes) :
    isValid (b :: (split bs).1) = true :=
  isValid_cons_iff.mpr ⟨hb, continuesName_of_mem_split bs⟩

/-- The name at the start of a text is the whole text if every byte may continue it. -/
theorem endOfNameAt_zero_eq_length_iff :
    endOfNameAt n 0 = n.length ↔ ∀ b ∈ n, Byte.continuesName b = true := by
  rw [endOfNameAt, Nat.zero_add, List.drop_zero, split, ← List.takeWhile_eq_self_iff]
  exact ⟨(List.takeWhile_prefix _).eq_of_length, congrArg List.length⟩

/-- A name is valid if it starts with a byte of names and is read to its end. -/
theorem isValid_iff (n : Bytes) : isValid n = true ↔
    (∃ b bs, n = b :: bs ∧ Byte.startsName b = true) ∧ endOfNameAt n 0 = n.length := by
  rw [endOfNameAt_zero_eq_length_iff]
  cases n with
  | nil => exact ⟨fun h => absurd h nofun, fun ⟨⟨_, _, hnil, _⟩, _⟩ => absurd hnil nofun⟩
  | cons b bs =>
    rw [isValid_cons_iff]
    constructor
    · rintro ⟨hb, hbs⟩
      exact ⟨⟨b, bs, rfl, hb⟩, List.forall_mem_cons.mpr ⟨(Byte.startsName_iff.mp hb).2, hbs⟩⟩
    · rintro ⟨⟨b', bs', heq, hb⟩, hall⟩
      obtain ⟨rfl, rfl⟩ := List.cons.inj heq
      exact ⟨hb, (List.forall_mem_cons.mp hall).2⟩

end Name

/-! ### Names among the words of a text -/

section Words

variable {scientific : Bool} {name word : Bytes} {opensCall : Bool}

theorem Lexeme.isValid_of_read {b : UInt8} {bs : Bytes}
    (h : (read scientific b bs).1 = some (.name word opensCall)) : Name.isValid word = true := by
  unfold read at h
  split at h
  · exact absurd h nofun
  split at h
  · split at h <;> exact absurd h nofun
  split at h
  · next hb =>
    obtain ⟨rfl, -⟩ := Lexeme.name.inj (Option.some.inj h)
    exact Name.isValid_split hb bs
  · unfold ofByte at h
    split at h <;> exact absurd h nofun

/-- Every name among the words of a text is valid. -/
theorem isValid_of_mem_lex {bs : Bytes} (h : .name word opensCall ∈ lex scientific bs) :
    Name.isValid word = true := by
  induction bs using lex.induct scientific with
  | case1 =>
    rw [lex_nil] at h
    exact absurd h List.not_mem_nil
  | case2 b bs ih =>
    rw [lex_cons, List.mem_append, Option.mem_toList] at h
    rcases h with hread | hrest
    · exact Lexeme.isValid_of_read hread
    · exact ih hrest

theorem lex_blanks_append (i : Nat) (bs : Bytes) :
    lex scientific (List.replicate i Byte.blank ++ bs) = lex scientific bs := by
  induction i with
  | zero => rfl
  | succ i ih => rw [List.replicate_succ, List.cons_append, lex_blank, ih]

/-- A valid name is one word, also in front of blanks. -/
theorem lex_name (h : Name.isValid name = true) (j : Nat) :
    ∃ opensCall, lex scientific (name ++ List.replicate j Byte.blank)
      = [.name name opensCall] := by
  cases name with
  | nil => exact absurd h nofun
  | cons b bs =>
    obtain ⟨hb, hbs⟩ := Name.isValid_cons_iff.mp h
    obtain ⟨opensCall, hlex⟩ : ∃ opensCall,
        lex scientific (b :: (bs ++ List.replicate j Byte.blank)) = _ := lex_of_startsName hb _
    -- the first blank ends the name
    have hblank : ¬ Byte.continuesName Byte.blank = true := by decide
    have hsplit : Name.split (bs ++ List.replicate j Byte.blank)
        = (bs, List.replicate j Byte.blank) := by
      rw [Name.split, List.takeWhile_append_of_pos hbs, List.dropWhile_append_of_pos hbs,
        List.takeWhile_replicate, List.dropWhile_replicate, if_neg hblank, if_neg hblank,
        List.append_nil]
    have hblanks : lex scientific (List.replicate j Byte.blank) = [] :=
      (lex_eq_nil_iff _).mpr fun c hc => List.eq_of_mem_replicate hc
    refine ⟨opensCall, ?_⟩
    rw [List.cons_append, hlex, hsplit, hblanks]

end Words

/-! ### Names that are bound -/

/-- The item of a constant or a variable. -/
def Symbol.item? : Symbol σ → Option (Item σ)
  | const x => some (.const x)
  | var read => some (.var read)
  | fn _ => none

namespace Context

variable {C : Context σ} {name : Bytes} {sym : Symbol σ} {item : Item σ}

/-- A constant or a variable on its own, between blanks, compiles to itself. -/
theorem compile_name (hvalid : Name.isValid name = true) (hfind : C.find? name = some sym)
    (hitem : sym.item? = some item) (i j : Nat) :
    C.compile (List.replicate i Byte.blank ++ name ++ List.replicate j Byte.blank)
      = .ok ⟨[item], []⟩ := by
  obtain ⟨opensCall, hname⟩ : ∃ opensCall,
      C.lex (name ++ List.replicate j Byte.blank) = [.name name opensCall] := lex_name hvalid j
  have hlex : C.lex (List.replicate i Byte.blank ++ name ++ List.replicate j Byte.blank)
      = [.name name opensCall] := by
    rw [List.append_assoc, lex, lex_blanks_append]
    exact hname
  have hexpects : ({} : Scan σ).last.expectsOperand = true := rfl
  refine compile_eq_ok_iff.mpr ?_
  rw [hlex]
  cases sym with
  | const x =>
    obtain rfl := Option.some.inj hitem
    exact ⟨_, Scan.acceptAll_singleton_eq_ok.mpr (.const hexpects hfind), rfl⟩
  | var read =>
    obtain rfl := Option.some.inj hitem
    exact ⟨_, Scan.acceptAll_singleton_eq_ok.mpr (.var hexpects hfind), rfl⟩
  | fn call => exact absurd hitem nofun

/-- **Names that are bound and names that are read agree.**  A name is valid if and only if
it starts with a byte of names and is read to its end.  Every name that a pass over a text
looks up, in any context, could be bound wherever it is free.  And after any changes of an
empty context a name that is bound to a constant or a variable, with any blanks around it,
compiles to that one item. -/
theorem names_agree (F : Features) (cs : List (Change σ)) :
    (∀ n, Name.isValid n = true ↔
      (∃ b bs, n = b :: bs ∧ Byte.startsName b = true) ∧ Name.endOfNameAt n 0 = n.length) ∧
    (∀ (C : Context σ) text word, C.LooksUp text word → Name.isValid word = true ∧
      ∀ (D : Context σ) sym, D.contains word = false → D.Accepts (.add word sym)) ∧
    (∀ name sym item, ((empty F).after cs).find? name = some sym → sym.item? = some item →
      ∀ i j, ((empty F).after cs).compile
          (List.replicate i Byte.blank ++ name ++ List.replicate j Byte.blank)
        = .ok ⟨[item], []⟩) := by
  refine ⟨Name.isValid_iff, fun C text word h => ?_, fun name sym item hfind hitem => ?_⟩
  · obtain ⟨opensCall, hmem⟩ := h.exists_mem
    have hvalid := isValid_of_mem_lex hmem
    exact ⟨hvalid, fun D sym hfree => ((rules D).added word sym).mpr ⟨hvalid, hfree⟩⟩
  · have hvalid := isValid_of_lastBound ((find?_after_iff F cs name sym).mp hfind)
    exact compile_name hvalid hfind hitem

end Context

end Formula
