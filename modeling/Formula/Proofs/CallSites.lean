/-
Formula/Proofs/CallSites.lean

The calls among some words.

A call is the name of a function with its left parenthesis and the words behind it
(`CallSite`).  It is open at the end of these words as long as no right parenthesis
among them closes it, and it is closed by a right parenthesis in front of which the
words inside are balanced.  Both are said with the words alone (`IsOpenIn`,
`IsClosedIn`), and a call has one argument more than there are commas inside it and in
no call inside it (`arity`).

The open calls of a text are nested: what is open inside each of them is the beginning of
what is open in the text, up to the bracket of the call itself (`Bracket.insides`).  So,
word by word, the open calls get one word longer (`Survey.goOn`); a call begins with its
parenthesis (`Survey.openCall`), and a right parenthesis closes the innermost open call if
its bracket is the innermost one (`Survey.closeCall`).  A comma belongs to the innermost
open call only (`Survey.commas_extend_comma`).
-/
import Formula.Proofs.Completion
import Formula.Proofs.Grammar

namespace Formula

variable {σ : Type}

/-! ### Brackets that stay open -/

section Nesting

variable {C : Context σ} {n : Nesting} {w : Lexeme} {ws : List Lexeme}

/-- Only parentheses open and close. -/
theorem brackets_nest (hl : w ≠ .leftParen) (hr : w ≠ .rightParen) :
    (C.nest n w).brackets = n.brackets := by
  cases w with
  | leftParen => exact absurd rfl hl
  | rightParen => exact absurd rfl hr
  | _ => rfl

theorem parens_singleton (hl : w ≠ .leftParen) (hr : w ≠ .rightParen) : parens [w] = [] := by
  cases w with
  | leftParen => exact absurd rfl hl
  | rightParen => exact absurd rfl hr
  | _ => rfl

/-- As many brackets are open as parentheses are not closed. -/
theorem length_brackets (C : Context σ) (ws : List Lexeme) :
    (C.nesting ws).brackets.length = (imbalance ws).unclosed := by
  induction ws using List.reverseRecOn with
  | nil => rfl
  | append_singleton ws w ih =>
    rw [Context.nesting_append_singleton, imbalance_append]
    by_cases hl : w = .leftParen
    · subst hl
      exact congrArg (· + 1) ih
    by_cases hr : w = .rightParen
    · subst hr
      show (C.nesting ws).brackets.tail.length = ((imbalance ws).add .right).unclosed
      rw [List.length_tail, ih, Imbalance.add]
      split
      · next hzero => rw [hzero]
      · rfl
    · rw [brackets_nest hl hr, parens_singleton hl hr]
      exact ih

/-- A right parenthesis has a left one if a bracket is open in front of it. -/
theorem unopened_append_singleton (C : Context σ) (ws : List Lexeme) (w : Lexeme) :
    (imbalance (ws ++ [w])).unopened = 0 ↔
      (imbalance ws).unopened = 0 ∧ (w = .rightParen → (C.nesting ws).brackets ≠ []) := by
  rw [imbalance_append, ← List.length_pos_iff, length_brackets]
  by_cases hl : w = .leftParen
  · subst hl
    exact ⟨fun h => ⟨h, nofun⟩, And.left⟩
  by_cases hr : w = .rightParen
  · subst hr
    show ((imbalance ws).add .right).unopened = 0 ↔ _
    rw [Imbalance.add]
    split
    · next hzero => simp [hzero]
    · next hne => simp [Nat.pos_of_ne_zero hne]
  · rw [parens_singleton hl hr]
    exact ⟨fun h => ⟨h, fun heq => absurd heq hr⟩, And.left⟩

/-- Words that close nothing in front of them leave it open. -/
theorem foldl_nest (h : (imbalance ws).unopened = 0) (B : List Bracket) :
    ws.foldl C.nest ⟨false, B⟩ = ⟨(C.nesting ws).callee, (C.nesting ws).brackets ++ B⟩ := by
  induction ws using List.reverseRecOn with
  | nil => rfl
  | append_singleton ws w ih =>
    obtain ⟨hws, hopen⟩ := (unopened_append_singleton C ws w).mp h
    rw [List.foldl_append, ih hws, Context.nesting_append_singleton]
    cases w with
    | rightParen =>
      show (⟨false, ((C.nesting ws).brackets ++ B).tail⟩ : Nesting) = _
      rw [List.tail_append_of_ne_nil (hopen rfl)]
      rfl
    | _ => rfl

end Nesting

/-! ### Calls -/

/-- A place where a function is called: the words in front of its name, the name, what it
stands for, and the words behind the parenthesis that opens the call. -/
structure CallSite (σ : Type) where
  before : List Lexeme
  word : Bytes
  fn : List Float → Eval σ Float
  body : List Lexeme

namespace CallSite

/-- The words up to the end of the body. -/
def words (c : CallSite σ) : List Lexeme := c.before ++ .name c.word true :: .leftParen :: c.body

/-- The call is not closed at the end of the words, so that it extends to it. -/
structure IsOpenIn (C : Context σ) (ws : List Lexeme) (c : CallSite σ) : Prop where
  words_eq : c.words = ws
  find?_eq : C.find? c.word = some (.fn c.fn)
  unopened : (imbalance c.body).unopened = 0

/-- A right parenthesis among the words closes the call behind its body. -/
structure IsClosedIn (C : Context σ) (ws : List Lexeme) (c : CallSite σ) : Prop where
  isPrefix : c.words ++ [.rightParen] <+: ws
  find?_eq : C.find? c.word = some (.fn c.fn)
  balanced : imbalance c.body = {}

/-- What is open inside the call at the end of its body. -/
def inside (C : Context σ) (c : CallSite σ) : List Bracket := (C.nesting c.body).brackets

/-- The number of commas inside the call and in no call inside it. -/
def commas (C : Context σ) (c : CallSite σ) : Nat :=
  (List.range c.body.length).countP fun i =>
    c.body[i]? = some .comma ∧ .call ∉ (C.nesting (c.body.take i)).brackets

/-- The number of arguments: none if there are no words inside the call. -/
def arity (C : Context σ) (c : CallSite σ) : Nat := if c.body = [] then 0 else c.commas C + 1

/-- The call with one more word inside. -/
def extend (w : Lexeme) (c : CallSite σ) : CallSite σ := { c with body := c.body ++ [w] }

variable {C : Context σ} {c : CallSite σ} {w : Lexeme} {ws : List Lexeme}

theorem words_extend (w : Lexeme) (c : CallSite σ) : (c.extend w).words = c.words ++ [w] := by
  simp [words, extend]

theorem map_fn_extend (w : Lexeme) (calls : List (CallSite σ)) :
    (calls.map (extend w)).map fn = calls.map fn := by
  rw [List.map_map]
  rfl

theorem inside_extend (C : Context σ) (w : Lexeme) (c : CallSite σ) :
    (c.extend w).inside C = (C.nest (C.nesting c.body) w).brackets :=
  congrArg Nesting.brackets (Context.nesting_append_singleton C c.body w)

theorem inside_extend_rightParen (C : Context σ) (c : CallSite σ) :
    (c.extend .rightParen).inside C = (c.inside C).tail :=
  inside_extend C .rightParen c

theorem inside_extend_of_ne (hl : w ≠ .leftParen) (hr : w ≠ .rightParen) (c : CallSite σ) :
    (c.extend w).inside C = c.inside C :=
  (inside_extend C w c).trans (brackets_nest hl hr)

theorem arity_of_ne_nil (h : c.body ≠ []) : c.arity C = c.commas C + 1 := if_neg h

/-- A comma inside the call counts where no call is open inside. -/
theorem commas_extend (C : Context σ) (w : Lexeme) (c : CallSite σ) :
    (c.extend w).commas C
      = c.commas C + if w = .comma ∧ .call ∉ c.inside C then 1 else 0 := by
  unfold commas extend
  rw [List.length_append, List.length_singleton, List.range_succ, List.countP_append]
  congr 1
  · refine List.countP_congr fun i hi => ?_
    have hi : i < c.body.length := List.mem_range.mp hi
    rw [List.getElem?_append_left hi, List.take_append_of_le_length hi.le]
  · rw [List.countP_singleton, List.getElem?_concat_length, List.take_left, inside]
    simp

namespace IsOpenIn

/-- Where the words of an open call leave off. -/
theorem nesting_eq (h : c.IsOpenIn C ws) : C.nesting ws
    = ⟨(C.nesting c.body).callee, c.inside C ++ .call :: (C.nesting c.before).brackets⟩ := by
  have hcallee : C.isFunction c.word = true := Context.isFunction_iff.mpr ⟨_, h.find?_eq⟩
  have hopen : C.nest (C.nest (C.nesting c.before) (.name c.word true)) .leftParen
      = ⟨false, .call :: (C.nesting c.before).brackets⟩ := by
    show (⟨false, (if true && C.isFunction c.word then _ else _) :: _⟩ : Nesting) = _
    rw [hcallee]
    rfl
  rw [← h.words_eq, words, Context.nesting, List.foldl_append, List.foldl_cons, List.foldl_cons]
  show List.foldl C.nest (C.nest (C.nest (C.nesting c.before) _) _) c.body = _
  rw [hopen, foldl_nest h.unopened]
  rfl

/-- Where no call is open inside it, the call is the innermost open one. -/
theorem head?_eq (h : c.IsOpenIn C ws) (hinside : c.inside C = []) :
    (C.nesting ws).brackets.head? = some .call := by
  rw [h.nesting_eq, hinside]
  rfl

/-- The text and the words inside the call leave off behind the same function. -/
theorem inside_extend_leftParen (h : c.IsOpenIn C ws) : (c.extend .leftParen).inside C
    = (if (C.nesting ws).callee then .call else .group) :: c.inside C := by
  rw [h.nesting_eq]
  exact inside_extend C .leftParen c

/-- A call without words inside has just been opened. -/
theorem eq_append_leftParen (h : c.IsOpenIn C ws) (hbody : c.body = []) :
    ws = c.before ++ [.name c.word true] ++ [.leftParen] := by
  rw [← h.words_eq, words, hbody, List.append_assoc]
  rfl

/-- Behind a left parenthesis there are no words inside the innermost call. -/
theorem body_eq_nil (h : c.IsOpenIn C ws) (hinside : c.inside C = []) {u : List Lexeme}
    (hws : ws = u ++ [.leftParen]) : c.body = [] := by
  rcases List.eq_nil_or_concat c.body with hnil | ⟨body, w, hbody⟩
  · exact hnil
  rw [List.concat_eq_append] at hbody
  have hsplit : c.words = (c.before ++ .name c.word true :: .leftParen :: body) ++ [w] := by
    rw [words, hbody, List.append_assoc]
    rfl
  rw [h.words_eq, hws] at hsplit
  obtain ⟨-, rfl⟩ := List.append_singleton_inj.mp hsplit
  -- the parenthesis would be open inside the call
  rw [inside, hbody, Context.nesting_append_singleton] at hinside
  exact absurd hinside nofun

theorem before_lt (h : c.IsOpenIn C ws) : c.before.length + 1 < ws.length := by
  rw [← h.words_eq, words, List.length_append, List.length_cons, List.length_cons]
  omega

end IsOpenIn

/-- An open call was open before the last word, which does not close it, or begins with
it. -/
theorem isOpenIn_append_singleton : c.IsOpenIn C (ws ++ [w]) ↔
    (∃ d : CallSite σ, d.IsOpenIn C ws ∧ (w = .rightParen → d.inside C ≠ []) ∧ d.extend w = c) ∨
      w = .leftParen ∧ c.body = [] ∧ c.before ++ [.name c.word true] = ws ∧
        C.find? c.word = some (.fn c.fn) := by
  constructor
  · rintro ⟨hwords, hfind, hunopened⟩
    obtain ⟨before, word, f, body⟩ := c
    -- either the last word opens the call or the call has it at the end of its body
    rcases List.eq_nil_or_concat body with rfl | ⟨body, w', rfl⟩
    · have hsplit : before ++ [.name word true] ++ [.leftParen] = ws ++ [w] := by
        rw [← hwords]
        simp [words]
      obtain ⟨hws, rfl⟩ := List.append_singleton_inj.mp hsplit
      exact .inr ⟨rfl, rfl, hws, hfind⟩
    · rw [List.concat_eq_append] at hwords hunopened ⊢
      obtain ⟨hbody, hopen⟩ := (unopened_append_singleton C body w').mp hunopened
      have hsplit := (words_extend w' ⟨before, word, f, body⟩).symm.trans hwords
      obtain ⟨hws, rfl⟩ := List.append_singleton_inj.mp hsplit
      exact .inl ⟨_, ⟨hws, hfind, hbody⟩, hopen, rfl⟩
  · rintro (⟨d, ⟨hwords, hfind, hunopened⟩, hopen, rfl⟩ | ⟨rfl, hbody, hws, hfind⟩)
    · refine ⟨?_, hfind, (unopened_append_singleton C d.body w).mpr ⟨hunopened, hopen⟩⟩
      rw [words_extend, hwords]
    · refine ⟨?_, hfind, ?_⟩
      · rw [words, hbody, ← hws, List.append_assoc]
        rfl
      · rw [hbody]
        rfl

/-- A closed call was closed before the last word, or the last word closes it. -/
theorem isClosedIn_append_singleton : c.IsClosedIn C (ws ++ [w]) ↔
    c.IsClosedIn C ws ∨ w = .rightParen ∧ c.IsOpenIn C ws ∧ c.inside C = [] := by
  have hbalanced : imbalance c.body = {} ↔
      (imbalance c.body).unopened = 0 ∧ c.inside C = [] := by
    rw [inside, ← List.length_eq_zero_iff, length_brackets]
    rcases imbalance c.body with ⟨a, b⟩
    exact Imbalance.mk.injEq a b 0 0 ▸ Iff.rfl
  constructor
  · rintro ⟨hfront, hfind, hbody⟩
    rcases List.prefix_concat_iff.mp hfront with heq | hfront
    · obtain ⟨hwords, rfl⟩ := List.append_singleton_inj.mp heq
      obtain ⟨hunopened, hinside⟩ := hbalanced.mp hbody
      exact .inr ⟨rfl, ⟨hwords, hfind, hunopened⟩, hinside⟩
    · exact .inl ⟨hfront, hfind, hbody⟩
  · rintro (⟨hfront, hfind, hbody⟩ | ⟨rfl, ⟨hwords, hfind, hunopened⟩, hinside⟩)
    · exact ⟨hfront.trans (List.prefix_append _ _), hfind, hbody⟩
    · refine ⟨⟨[], ?_⟩, hfind, hbalanced.mpr ⟨hunopened, hinside⟩⟩
      rw [hwords, List.append_nil]

end CallSite

/-! ### What is open inside each open call -/

namespace Bracket

/-- For each call among some brackets, the brackets in front of it. -/
def insides : List Bracket → List (List Bracket)
  | [] => []
  | .call :: B => [] :: (insides B).map (.call :: ·)
  | .group :: B => (insides B).map (.group :: ·)

theorem insides_eq_nil_iff {B : List Bracket} : insides B = [] ↔ .call ∉ B := by
  induction B with
  | nil => simp [insides]
  | cons b B ih => cases b <;> simp [insides, ih]

/-- Only inside the first call no call is open. -/
theorem call_mem_of_insides {B X : List Bracket} {Xs : List (List Bracket)}
    (h : insides B = X :: Xs) : .call ∉ X ∧ ∀ Y ∈ Xs, .call ∈ Y := by
  induction B generalizing X Xs with
  | nil => exact absurd h nofun
  | cons b B ih =>
    cases b with
    | call =>
      obtain ⟨rfl, rfl⟩ := List.cons.inj h
      refine ⟨List.not_mem_nil, fun Y hY => ?_⟩
      obtain ⟨Z, -, rfl⟩ := List.mem_map.mp hY
      exact List.mem_cons_self
    | group =>
      obtain ⟨Z, Zs, hB, rfl, rfl⟩ := List.map_eq_cons_iff.mp h
      obtain ⟨hZ, hZs⟩ := ih hB
      refine ⟨fun hmem => ?_, fun Y hY => ?_⟩
      · rcases List.mem_cons.mp hmem with habsurd | hmem
        · exact absurd habsurd nofun
        · exact hZ hmem
      · obtain ⟨Z', hZ', rfl⟩ := List.mem_map.mp hY
        exact List.mem_cons_of_mem _ (hZs Z' hZ')

/-- Without the outermost bracket inside them. -/
theorem map_tail_insides (B : List Bracket) (b : Bracket) :
    ((insides B).map (b :: ·)).map List.tail = insides B := by
  rw [List.map_map]
  exact List.map_id _

end Bracket

/-! ### The calls of some words in order -/

open CallSite

/-- The calls of some words in the order in which they end: the closed ones as they are
closed, and the open ones, which end with the words, from the innermost outwards. -/
structure CallsInOrder (C : Context σ) (ws : List Lexeme) (closed opened : List (CallSite σ)) :
    Prop where
  mem_closed : ∀ c, c ∈ closed ↔ c.IsClosedIn C ws
  sorted_closed : closed.Pairwise fun c d => c.words.length < d.words.length
  mem_opened : ∀ c, c ∈ opened ↔ c.IsOpenIn C ws
  sorted_opened : opened.Pairwise fun c d => d.before.length < c.before.length

/-- The calls of some words while they are read, the latest first, and what is open inside
those that are open. -/
structure Survey (C : Context σ) (ws : List Lexeme) (closed opened : List (CallSite σ)) :
    Prop where
  mem_closed : ∀ c, c ∈ closed ↔ c.IsClosedIn C ws
  sorted_closed : closed.Pairwise fun c d => d.words.length < c.words.length
  mem_opened : ∀ c, c ∈ opened ↔ c.IsOpenIn C ws
  sorted_opened : opened.Pairwise fun c d => d.before.length < c.before.length
  insides : opened.map (inside C) = Bracket.insides (C.nesting ws).brackets

namespace Survey

variable {C : Context σ} {ws : List Lexeme} {w : Lexeme} {closed opened : List (CallSite σ)}
  {c : CallSite σ}

theorem nil (C : Context σ) : Survey C [] [] [] where
  mem_closed c := by
    refine ⟨nofun, fun h => ?_⟩
    have hlen := h.isPrefix.length_le
    rw [List.length_append] at hlen
    exact absurd hlen (Nat.not_succ_le_zero _)
  sorted_closed := .nil
  mem_opened c := by
    refine ⟨nofun, fun h => absurd h.before_lt (Nat.not_lt_zero _)⟩
  sorted_opened := .nil
  insides := rfl

theorem callsInOrder (h : Survey C ws closed opened) :
    CallsInOrder C ws closed.reverse opened where
  mem_closed c := List.mem_reverse.trans (h.mem_closed c)
  sorted_closed := List.pairwise_reverse.mpr h.sorted_closed
  mem_opened := h.mem_opened
  sorted_opened := h.sorted_opened

/-- No call is open where no bracket of a call is. -/
theorem opened_eq_nil_iff (h : Survey C ws closed opened) :
    opened = [] ↔ .call ∉ (C.nesting ws).brackets := by
  rw [← Bracket.insides_eq_nil_iff, ← h.insides, List.map_eq_nil_iff]

/-- The open calls after one more word, of which none begins with it. -/
theorem mem_map_extend (h : Survey C ws closed opened)
    (hclose : w = .rightParen → ∀ d ∈ opened, d.inside C ≠ []) :
    c ∈ opened.map (extend w) ↔
      ∃ d : CallSite σ, d.IsOpenIn C ws ∧ (w = .rightParen → d.inside C ≠ []) ∧ d.extend w = c := by
  rw [List.mem_map]
  constructor
  · rintro ⟨d, hd, rfl⟩
    exact ⟨d, (h.mem_opened d).mp hd, fun hw => hclose hw d hd, rfl⟩
  · rintro ⟨d, hd, -, rfl⟩
    exact ⟨d, (h.mem_opened d).mpr hd, rfl⟩

/-- A left parenthesis is one bracket more inside every open call. -/
theorem map_inside_leftParen (h : Survey C ws closed opened) :
    (opened.map (extend .leftParen)).map (inside C)
      = (Bracket.insides (C.nesting ws).brackets).map
          ((if (C.nesting ws).callee then .call else .group) :: ·) := by
  rw [← h.insides, List.map_map, List.map_map]
  exact List.map_congr_left fun d hd => ((h.mem_opened d).mp hd).inside_extend_leftParen

/-- A right parenthesis is one bracket less inside calls that it does not close. -/
theorem map_inside_rightParen (C : Context σ) (calls : List (CallSite σ)) :
    (calls.map (extend .rightParen)).map (inside C) = (calls.map (inside C)).map List.tail := by
  rw [List.map_map, List.map_map]
  exact List.map_congr_left fun d _ => inside_extend_rightParen C d

/-- What is open inside the calls after a word that neither opens nor closes one. -/
theorem map_inside_extend (h : Survey C ws closed opened)
    (hopen : w = .leftParen → (C.nesting ws).callee = false)
    (hclose : w = .rightParen → (C.nesting ws).brackets.head? ≠ some .call) :
    (opened.map (extend w)).map (inside C)
      = Bracket.insides (C.nest (C.nesting ws) w).brackets := by
  by_cases hl : w = .leftParen
  · subst hl
    rw [h.map_inside_leftParen, Context.nest, hopen rfl]
    rfl
  by_cases hr : w = .rightParen
  · subst hr
    rw [map_inside_rightParen, h.insides, Context.nest]
    rcases hB : (C.nesting ws).brackets with - | ⟨_ | _, B⟩
    · rfl
    · rw [hB] at hclose
      exact absurd rfl (hclose rfl)
    · exact Bracket.map_tail_insides B .group
  · rw [brackets_nest hl hr, ← h.insides, List.map_map]
    exact List.map_congr_left fun d _ => inside_extend_of_ne hl hr d

/-- A word that neither opens nor closes a call. -/
theorem goOn (h : Survey C ws closed opened)
    (hopen : w = .leftParen → (C.nesting ws).callee = false)
    (hclose : w = .rightParen → (C.nesting ws).brackets.head? ≠ some .call) :
    Survey C (ws ++ [w]) closed (opened.map (extend w)) where
  mem_closed c := by
    rw [h.mem_closed, isClosedIn_append_singleton, or_iff_left]
    rintro ⟨hw, hc, hinside⟩
    exact hclose hw (hc.head?_eq hinside)
  sorted_closed := h.sorted_closed
  mem_opened c := by
    rw [isOpenIn_append_singleton, or_iff_left, h.mem_map_extend]
    · intro hw d hd hinside
      exact hclose hw (((h.mem_opened d).mp hd).head?_eq hinside)
    · rintro ⟨hw, -, hws, hfind⟩
      have hcallee := hopen hw
      rw [← hws, Context.nesting_append_singleton] at hcallee
      exact absurd (Context.isFunction_iff.mpr ⟨_, hfind⟩) (Bool.eq_false_iff.mp hcallee)
  sorted_opened := List.pairwise_map.mpr h.sorted_opened
  insides := by
    rw [Context.nesting_append_singleton]
    exact h.map_inside_extend hopen hclose

/-- The parenthesis of a function opens a call. -/
theorem openCall (h : Survey C ws closed opened) {u : List Lexeme} {word : Bytes}
    {f : List Float → Eval σ Float} (hws : u ++ [.name word true] = ws)
    (hfind : C.find? word = some (.fn f)) :
    Survey C (ws ++ [.leftParen]) closed (⟨u, word, f, []⟩ :: opened.map (extend .leftParen)) where
  mem_closed c := by
    rw [h.mem_closed, isClosedIn_append_singleton, or_iff_left]
    rintro ⟨habsurd, -⟩
    exact absurd habsurd nofun
  sorted_closed := h.sorted_closed
  mem_opened c := by
    have hmap := h.mem_map_extend (w := .leftParen) (c := c) nofun
    rw [isOpenIn_append_singleton, List.mem_cons, hmap, or_comm]
    refine or_congr_right ⟨?_, ?_⟩
    · rintro rfl
      exact ⟨rfl, rfl, hws, hfind⟩
    · rintro ⟨-, hbody, hws', hfind'⟩
      obtain ⟨before, word', f', body⟩ := c
      obtain ⟨rfl, hname⟩ := List.append_singleton_inj.mp (hws'.trans hws.symm)
      obtain ⟨rfl, -⟩ := Lexeme.name.inj hname
      obtain rfl : body = [] := hbody
      obtain rfl : f' = f := Symbol.fn.inj (Option.some.inj (hfind'.symm.trans hfind))
      rfl
  sorted_opened := by
    refine .cons (fun d' hd' => ?_) (List.pairwise_map.mpr h.sorted_opened)
    obtain ⟨d, hd, rfl⟩ := List.mem_map.mp hd'
    have hlt := ((h.mem_opened d).mp hd).before_lt
    rw [← hws, List.length_append] at hlt
    exact Nat.lt_of_succ_lt_succ hlt
  insides := by
    have hcallee : (C.nesting ws).callee = true := by
      rw [← hws, Context.nesting_append_singleton]
      exact Context.isFunction_iff.mpr ⟨f, hfind⟩
    rw [List.map_cons, h.map_inside_leftParen, Context.nesting_append_singleton, Context.nest,
      hcallee]
    rfl

/-- Where the innermost bracket is one of a call, the latest call is the open one inside
which nothing is open. -/
theorem exists_innermost (h : Survey C ws closed opened) {B : List Bracket}
    (hB : (C.nesting ws).brackets = .call :: B) :
    ∃ c rest, opened = c :: rest ∧
      rest.map (inside C) = (Bracket.insides B).map (.call :: ·) ∧
      (∀ d, d = c ↔ d.IsOpenIn C ws ∧ d.inside C = []) ∧
      ∀ d, d ∈ rest ↔ d.IsOpenIn C ws ∧ d.inside C ≠ [] := by
  have hinsides := h.insides
  rw [hB] at hinsides
  obtain ⟨c, rest, rfl, hc, hrest⟩ := List.map_eq_cons_iff.mp hinsides
  -- inside all the others the call itself is open
  have hne : ∀ d ∈ rest, d.inside C ≠ [] := fun d hd =>
    List.ne_nil_of_mem ((Bracket.call_mem_of_insides hinsides.symm).2 _ (List.mem_map_of_mem hd))
  refine ⟨c, rest, rfl, hrest, fun d => ⟨?_, ?_⟩, fun d => ⟨?_, ?_⟩⟩
  · rintro rfl
    exact ⟨(h.mem_opened d).mp List.mem_cons_self, hc⟩
  · rintro ⟨hopen, hinside⟩
    rcases List.mem_cons.mp ((h.mem_opened d).mpr hopen) with heq | hd
    · exact heq
    · exact absurd hinside (hne d hd)
  · intro hd
    exact ⟨(h.mem_opened d).mp (List.mem_cons_of_mem c hd), hne d hd⟩
  · rintro ⟨hopen, hinside⟩
    rcases List.mem_cons.mp ((h.mem_opened d).mpr hopen) with rfl | hd
    · exact absurd hc hinside
    · exact hd

/-- The right parenthesis of the innermost call closes it. -/
theorem closeCall (h : Survey C ws closed opened) {B : List Bracket}
    (hB : (C.nesting ws).brackets = .call :: B) :
    ∃ c rest, opened = c :: rest ∧ c.inside C = [] ∧
      Survey C (ws ++ [.rightParen]) (c :: closed) (rest.map (extend .rightParen)) := by
  obtain ⟨c, rest, rfl, hinsides, hfirst, hrest⟩ := h.exists_innermost hB
  obtain ⟨hopen, hc⟩ := (hfirst c).mp rfl
  refine ⟨c, rest, rfl, hc, ?_, ?_, ?_, ?_, ?_⟩
  · intro d
    rw [isClosedIn_append_singleton, List.mem_cons, h.mem_closed, hfirst, or_comm,
      and_iff_right rfl]
  · refine .cons (fun d hd => ?_) h.sorted_closed
    have hlen := ((h.mem_closed d).mp hd).isPrefix.length_le
    rw [List.length_append, ← hopen.words_eq] at hlen
    exact hlen
  · intro d
    rw [isOpenIn_append_singleton, or_iff_left (fun habsurd => nomatch habsurd.1), List.mem_map]
    refine exists_congr fun d => ?_
    rw [hrest, and_assoc, imp_iff_right rfl]
  · exact List.pairwise_map.mpr h.sorted_opened.of_cons
  · rw [map_inside_rightParen, hinsides, Context.nesting_append_singleton, Context.nest, hB]
    exact Bracket.map_tail_insides B .call

/-- A comma counts for the innermost open call only. -/
theorem commas_extend_comma {rest : List (CallSite σ)} (h : Survey C ws closed (c :: rest)) :
    (c.extend .comma).commas C = c.commas C + 1 ∧
      ∀ d ∈ rest, (d.extend .comma).commas C = d.commas C := by
  obtain ⟨hc, hrest⟩ := Bracket.call_mem_of_insides h.insides.symm
  refine ⟨?_, fun d hd => ?_⟩
  · rw [commas_extend, if_pos ⟨rfl, hc⟩]
  · have hd : .call ∈ d.inside C := hrest _ (List.mem_map_of_mem hd)
    rw [commas_extend, if_neg fun hnot => hnot.2 hd, Nat.add_zero]

end Survey

/-! ### Calls and brackets -/

section Brackets

variable {C : Context σ} {ws : List Lexeme}

theorem exists_name_of_callee (h : (C.nesting ws).callee = true) :
    ∃ u word f, u ++ [.name word true] = ws ∧ C.find? word = some (.fn f) := by
  rcases List.eq_nil_or_concat ws with rfl | ⟨u, w, rfl⟩
  · exact absurd h nofun
  rw [List.concat_eq_append, Context.nesting_append_singleton] at h
  cases w with
  | name word opensCall =>
    obtain ⟨rfl, hfunction⟩ := Bool.and_eq_true_iff.mp h
    obtain ⟨f, hfind⟩ := Context.isFunction_iff.mp hfunction
    exact ⟨u, word, f, List.concat_eq_append.symm, hfind⟩
  | _ => exact absurd h nofun

/-- All words have their calls in order. -/
theorem exists_survey (C : Context σ) (ws : List Lexeme) :
    ∃ closed opened, Survey C ws closed opened := by
  induction ws using List.reverseRecOn with
  | nil => exact ⟨[], [], .nil C⟩
  | append_singleton ws w ih =>
    obtain ⟨closed, opened, h⟩ := ih
    by_cases hopen : w = .leftParen ∧ (C.nesting ws).callee = true
    · obtain ⟨rfl, hcallee⟩ := hopen
      obtain ⟨u, word, f, hws, hfind⟩ := exists_name_of_callee hcallee
      exact ⟨_, _, h.openCall hws hfind⟩
    by_cases hclose : w = .rightParen ∧ (C.nesting ws).brackets.head? = some .call
    · obtain ⟨rfl, hhead⟩ := hclose
      obtain ⟨B, hB⟩ := List.head?_eq_some_iff.mp hhead
      obtain ⟨c, rest, -, -, hsurvey⟩ := h.closeCall hB
      exact ⟨_, _, hsurvey⟩
    · refine ⟨_, _, h.goOn (fun hw => ?_) fun hw hhead => hclose ⟨hw, hhead⟩⟩
      exact Bool.eq_false_iff.mpr fun hcallee => hopen ⟨hw, hcallee⟩

/-- A bracket of a call is open where some call is. -/
theorem call_mem_brackets_iff :
    .call ∈ (C.nesting ws).brackets ↔ ∃ c : CallSite σ, c.IsOpenIn C ws := by
  constructor
  · intro hmem
    obtain ⟨closed, opened, h⟩ := exists_survey C ws
    obtain ⟨c, hc⟩ := List.exists_mem_of_ne_nil opened fun hnil => h.opened_eq_nil_iff.mp hnil hmem
    exact ⟨c, (h.mem_opened c).mp hc⟩
  · rintro ⟨c, hc⟩
    rw [hc.nesting_eq]
    exact List.mem_append_right _ List.mem_cons_self

end Brackets

end Formula
