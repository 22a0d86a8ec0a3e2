/-
Formula/Proofs/Recognition.lean

What a pass reads, the grammar derives.

While a text is read its derivation is incomplete in two ways.  Some
parentheses are still open, and `Begun` says that each of them stands where an
operand may stand, with complete arguments in front of the current one if it
belongs to a call.  Behind the last place where a formula begins there is the
beginning of a formula: signs, a chain, a chain with an operator, or a function
(`Segment`).  The stack of the pass knows which parentheses are open, and the
kind of the last word knows which of the beginnings it is, so every step keeps
`Recognized`, as long as no comma stands directly in a group.

At the end no parenthesis is open, and the words are a formula.  Together with
`compile_of_derives` this makes the compiler exactly the grammar
(`compile_iff_derives`).
-/
import Formula.Proofs.Reading

namespace Formula

variable {σ : Type}

open Operator

open Pending

namespace Scan

/-! ### Words and stack agree on the open parentheses -/

/-- The words leave off where the pass stands. -/
structure Tracks (n : Nesting) (s : Scan σ) : Prop where
  brackets : n.brackets = opens s.stack
  callee : n.callee = true ↔ s.last = .func

variable {C : Context σ} {s s' : Scan σ} {w : Lexeme} {ws : List Lexeme}

/-- After a word that is no function the callee is gone. -/
theorem tracks_of_ne_func {B : List Bracket} (hB : B = opens s.stack) (hlast : s.last ≠ .func) :
    Tracks ⟨false, B⟩ s :=
  ⟨hB, fun h => absurd h (by simp), fun h => absurd h hlast⟩

theorem Tracks.step {n : Nesting} (h : Tracks n s) (hs : s.Coherent) (htakes : Takes C s w s') :
    Tracks (C.nest n w) s' := by
  induction htakes with
  | literal hexp => exact tracks_of_ne_func h.brackets nofun
  | @const s word opensCall x hexp hfind =>
    have hcallee : (opensCall && C.isFunction word) = false := by
      rw [Context.isFunction, hfind, Bool.and_false]
    rw [Context.nest, hcallee]
    exact tracks_of_ne_func h.brackets nofun
  | @var s word opensCall read hexp hfind =>
    have hcallee : (opensCall && C.isFunction word) = false := by
      rw [Context.isFunction, hfind, Bool.and_false]
    rw [Context.nest, hcallee]
    exact tracks_of_ne_func h.brackets nofun
  | @func s word f hexp hfind =>
    have hcallee : (true && C.isFunction word) = true := by
      rw [Context.isFunction, hfind, Bool.and_true]
    rw [Context.nest, hcallee]
    exact ⟨h.brackets, fun _ => rfl, fun _ => rfl⟩
  | @times s s' word opensCall hlit hmul _ ih =>
    -- the `*` is no word, so the words still leave off behind the literal
    have hfalse : ¬ n.callee = true := by
      rw [h.callee, hlit]
      exact nofun
    refine ih ⟨?_, fun hc => absurd hc hfalse, nofun⟩ (hs.pushBinary ?_ .mul)
    · rw [h.brackets]
      exact (opens_pushBinary s .mul).symm
    · exact Kind.endsOperand_of_eq_literal hlit
  | @openCall s hlast =>
    obtain ⟨ts, -, hfits⟩ := hs
    obtain ⟨f, S, hstack, -⟩ := hfits.func hlast
    have hcallee := h.callee.mpr hlast
    refine tracks_of_ne_func ?_ nofun
    show _ = opens (.paren :: s.stack)
    rw [hcallee, if_pos rfl, h.brackets, hstack]
    rfl
  | @openGroup s hexp =>
    obtain ⟨ts, -, hfits⟩ := hs
    have hcallee : ¬ n.callee = true := by
      rw [h.callee]
      exact ne_func_of_expectsOperand hexp
    refine tracks_of_ne_func ?_ nofun
    show _ = opens (.paren :: s.stack)
    rw [if_neg hcallee, h.brackets, opens_group (hfits.expects hexp).ne_func]
  | @closeEmpty s call stack hlast htail =>
    obtain ⟨ts, -, hfits⟩ := hs
    obtain ⟨S, hstack, -⟩ := hfits.opened hlast
    refine tracks_of_ne_func ?_ nofun
    rw [hstack] at htail
    obtain rfl : S = .func call :: stack := htail
    rw [h.brackets, hstack]
    rfl
  | closeCall hexp htail =>
    refine tracks_of_ne_func ?_ nofun
    rw [h.brackets, opens_of_call htail]
    rfl
  | closeGroup hexp hne htail =>
    refine tracks_of_ne_func ?_ nofun
    rw [h.brackets, opens_of_group hne htail]
    rfl
  | @closeUnopened s hexp hnil himp =>
    -- no parenthesis is open on either side, and none is after it
    refine tracks_of_ne_func ?_ nofun
    show n.brackets.tail = opens s.drained.stack
    rw [h.brackets, ← opens_drained, hnil]
    rfl
  | @comma s hends hsaved hstack =>
    refine tracks_of_ne_func ?_ nofun
    rw [h.brackets]
    exact (opens_drained s).symm
  | @binary s byte op hends hop hallow =>
    refine tracks_of_ne_func ?_ nofun
    rw [h.brackets]
    exact (opens_pushBinary s op).symm
  | sign hsign hop hallow => exact tracks_of_ne_func h.brackets nofun

/-- In every state that is reached, the parentheses that are open among the
words are those on the stack. -/
theorem Reached.tracks (h : Reached C ws s) : Tracks (C.nesting ws) s := by
  refine h.induction (P := fun ws s => Tracks (C.nesting ws) s) ⟨rfl, nofun, nofun⟩ ?_
  intro ws w s s' hs htakes _ ih
  rw [Context.nesting_append_singleton]
  exact ih.step hs.coherent htakes

end Scan

/-! ### Incomplete derivations -/

/-- After the words `lead` an operand that starts with `head` ends a chain. -/
def Leads (C : Context σ) (lead : List Lexeme) (head : Lexeme) : Prop :=
  ∀ ws t, Derives C (head :: ws) (.operand t) →
    ∃ first rest, Derives C (lead ++ head :: ws) (.chain first rest)

/-- The beginning of the arguments of a call: none, or some with a comma. -/
def Arguments (C : Context σ) (args : List Lexeme) : Prop :=
  args = [] ∨ ∃ ws ts, args = ws ++ [.comma] ∧ Derives C ws (.arguments ts)

/-- Words up to a place where a formula begins, with the parentheses that are
open there. -/
inductive Begun (C : Context σ) : List Lexeme → List Bracket → Prop
  | start : Begun C [] []
  | group {pre lead : List Lexeme} {B : List Bracket} (h : Begun C pre B)
      (hlead : Leads C lead .leftParen) : Begun C (pre ++ (lead ++ [.leftParen])) (.group :: B)
  | call {pre lead args : List Lexeme} {B : List Bracket} {word : Bytes}
      {f : List Float → Eval σ Float} (h : Begun C pre B) (hlead : Leads C lead (.name word true))
      (hfind : C.find? word = some (.fn f)) (hargs : Arguments C args) :
      Begun C (pre ++ (lead ++ .name word true :: .leftParen :: args)) (.call :: B)

/-- The beginning of a formula that ends with a word of the given kind: signs or nothing yet,
a chain and an operator, a chain, or a function without its parenthesis where an operand
may stand. -/
inductive Segment (C : Context σ) : List Lexeme → Kind → Prop
  | signs {cur : List Lexeme} {k : Kind} (hk : k.allowsSign = true)
      (h : ∀ ws t, Derives C ws (.signed t) → ∃ t', Derives C (cur ++ ws) (.signed t')) :
      Segment C cur k
  | operator {cur : List Lexeme} (h : ∀ head, Leads C cur head) : Segment C cur .binary
  | chain {cur : List Lexeme} {k : Kind} {first : Tree σ} {rest : List (BinaryOp × Tree σ)}
      (hk : k.endsOperand = true) (h : Derives C cur (.chain first rest))
      (hliteral : k = .literal → ∃ u l, cur = u ++ [.literal l]) : Segment C cur k
  | func {lead : List Lexeme} {word : Bytes} {f : List Float → Eval σ Float}
      (hlead : Leads C lead (.name word true)) (hfind : C.find? word = some (.fn f)) :
      Segment C (lead ++ [.name word true]) .func

namespace Segment

variable {C : Context σ} {cur : List Lexeme} {k : Kind}

/-- Nothing of the formula has been read. -/
theorem nil (hk : k.allowsSign = true) : Segment C [] k := .signs hk fun _ t h => ⟨t, h⟩

/-- Where a sign may stand there are only signs. -/
theorem signed (h : Segment C cur k) (hk : k.allowsSign = true) {ws : List Lexeme} {t : Tree σ}
    (hws : Derives C ws (.signed t)) : ∃ t', Derives C (cur ++ ws) (.signed t') := by
  cases h with
  | signs _ h => exact h ws t hws
  | operator => exact absurd hk nofun
  | chain hends => exact absurd hk (by rw [Kind.allowsSign_of_endsOperand hends]; exact nofun)
  | func => exact absurd hk nofun

/-- Where an operand is expected any operand ends a chain. -/
theorem leads (h : Segment C cur k) (hexp : k.expectsOperand = true) (head : Lexeme) :
    Leads C cur head := by
  intro ws t hws
  cases h with
  | signs _ h =>
    obtain ⟨t', ht'⟩ := h _ _ hws.unsigned
    exact ⟨t', [], ht'.first⟩
  | operator h => exact h head ws t hws
  | chain hends =>
    exact absurd hexp (by rw [Kind.expectsOperand_of_endsOperand hends]; exact nofun)
  | func => exact absurd hexp nofun

/-- After an operand there is a chain. -/
theorem derives_chain (h : Segment C cur k) (hends : k.endsOperand = true) :
    ∃ first rest, Derives C cur (.chain first rest) := by
  cases h with
  | signs hk => exact absurd hk (by rw [Kind.allowsSign_of_endsOperand hends]; exact nofun)
  | operator => exact absurd hends nofun
  | chain _ h => exact ⟨_, _, h⟩
  | func => exact absurd hends nofun

/-- After an operand there is a formula. -/
theorem derives_formula (h : Segment C cur k) (hends : k.endsOperand = true) :
    ∃ t, Derives C cur (.formula t) := by
  obtain ⟨first, rest, hchain⟩ := h.derives_chain hends
  obtain ⟨t, hgroups⟩ := exists_groups first rest
  exact ⟨t, hchain.formula hgroups⟩

/-- After an operand an operator leads on. -/
theorem of_operator (h : Segment C cur k) (hends : k.endsOperand = true) {byte : UInt8}
    {o : BinaryOp} (hop : BinaryOp.ofByte? byte = some o) (hallow : C.allows o.feature = true) :
    Segment C (cur ++ [.other byte]) .binary := by
  obtain ⟨first, rest, hchain⟩ := h.derives_chain hends
  refine .operator fun head ws t hws => ?_
  rw [List.append_assoc]
  exact ⟨_, _, hchain.operator hop hallow hws⟩

/-- After a literal a name leads on. -/
theorem leads_literal (h : Segment C cur .literal) (hmul : C.allows .implicitMultiplication = true)
    (word : Bytes) (opensCall : Bool) : Leads C cur (.name word opensCall) := by
  cases h with
  | signs hk => exact absurd hk nofun
  | chain _ hchain hliteral =>
    obtain ⟨u, l, rfl⟩ := hliteral rfl
    exact fun ws t hws => ⟨_, _, hchain.juxtaposed hmul hws⟩

theorem exists_func (h : Segment C cur .func) : ∃ lead word f, cur = lead ++ [.name word true] ∧
    Leads C lead (.name word true) ∧ C.find? word = some (.fn f) := by
  cases h with
  | signs hk => exact absurd hk nofun
  | chain hends => exact absurd hends nofun
  | func hlead hfind => exact ⟨_, _, _, rfl, hlead, hfind⟩

end Segment

/-! ### Closing and going on -/

namespace Arguments

variable {C : Context σ} {args ws : List Lexeme}

/-- One more argument completes the arguments. -/
theorem derives (h : Arguments C args) {t : Tree σ} (hws : Derives C ws (.formula t)) :
    ∃ ts, Derives C (args ++ ws) (.arguments ts) := by
  rcases h with rfl | ⟨ws', ts, rfl, hargs⟩
  · exact ⟨[t], hws.argument⟩
  · rw [List.append_assoc]
    exact ⟨ts ++ [t], hargs.comma hws⟩

/-- Right after the parenthesis of the call there are no arguments. -/
theorem eq_nil (h : Arguments C args) {u v : List Lexeme} (heq : v ++ args = u ++ [.leftParen]) :
    args = [] := by
  rcases h with rfl | ⟨ws', ts, rfl, -⟩
  · rfl
  · rw [← List.append_assoc] at heq
    exact absurd (List.append_inj_right' heq rfl) (by simp)

end Arguments

namespace Begun

variable {C : Context σ} {pre cur : List Lexeme} {B : List Bracket}

theorem of_nil (h : Begun C pre []) : pre = [] := by
  cases h
  rfl

/-- The parenthesis that closes a group leaves a chain. -/
theorem close_group (h : Begun C pre (.group :: B)) {t : Tree σ}
    (hcur : Derives C cur (.formula t)) :
    ∃ pre' cur', pre ++ (cur ++ [.rightParen]) = pre' ++ cur' ∧ Begun C pre' B ∧
      Segment C cur' .rightParen := by
  cases h with
  | @group pre lead _ h hlead =>
    obtain ⟨first, rest, hchain⟩ := hlead (cur ++ [.rightParen]) t hcur.group
    exact ⟨pre, _, by simp, h, .chain rfl hchain nofun⟩

/-- The parenthesis that closes a call leaves a chain. -/
theorem close_call (h : Begun C pre (.call :: B)) {t : Tree σ}
    (hcur : Derives C cur (.formula t)) :
    ∃ pre' cur', pre ++ (cur ++ [.rightParen]) = pre' ++ cur' ∧ Begun C pre' B ∧
      Segment C cur' .rightParen := by
  cases h with
  | @call pre lead args _ word f h hlead hfind hargs =>
    obtain ⟨ts, hts⟩ := hargs.derives hcur
    obtain ⟨first, rest, hchain⟩ :=
      hlead (.leftParen :: (args ++ cur ++ [.rightParen])) _ (hts.call hfind)
    exact ⟨pre, _, by simp, h, .chain rfl hchain nofun⟩

/-- The parenthesis that closes a call without arguments leaves a chain. -/
theorem close_empty (h : Begun C pre (.call :: B)) (hopen : ∃ u, pre = u ++ [.leftParen]) :
    ∃ pre' cur', pre ++ [.rightParen] = pre' ++ cur' ∧ Begun C pre' B ∧
      Segment C cur' .rightParen := by
  cases h with
  | @call pre lead args _ word f h hlead hfind hargs =>
    obtain ⟨u, hu⟩ := hopen
    have hnil : args = [] := by
      refine hargs.eq_nil (u := u) (v := pre ++ (lead ++ [.name word true, .leftParen])) ?_
      rw [← hu]
      simp
    subst hnil
    obtain ⟨first, rest, hchain⟩ := hlead [.leftParen, .rightParen] _ (.callEmpty hfind)
    exact ⟨pre, _, by simp, h, .chain rfl hchain nofun⟩

/-- A comma in a call begins the next argument. -/
theorem next (h : Begun C pre (.call :: B)) {t : Tree σ} (hcur : Derives C cur (.formula t)) :
    Begun C (pre ++ (cur ++ [.comma])) (.call :: B) := by
  cases h with
  | @call pre lead args _ word f h hlead hfind hargs =>
    obtain ⟨ts, hts⟩ := hargs.derives hcur
    have hargs' : Arguments C (args ++ cur ++ [.comma]) := .inr ⟨_, ts, rfl, hts⟩
    have h' := Begun.call h hlead hfind hargs'
    simpa using h'

end Begun

namespace Scan

/-! ### Every step keeps the derivation -/

/-- The words have an incomplete derivation that the state knows of. -/
def Recognized (C : Context σ) (ws : List Lexeme) (s : Scan σ) : Prop :=
  ∃ pre cur, ws = pre ++ cur ∧ Begun C pre (opens s.stack) ∧ Segment C cur s.last ∧
    (s.last = .leftParen → cur = [] ∧ ∃ u, pre = u ++ [.leftParen])

variable {C : Context σ} {s s' : Scan σ} {w : Lexeme} {ws pre cur : List Lexeme}

theorem recognized_start : Recognized C [] ({} : Scan σ) :=
  ⟨[], [], rfl, .start, .nil rfl, nofun⟩

/-- A word that goes on with the current formula. -/
theorem recognized_append {S : List (Pending σ)} (hws : ws = pre ++ cur)
    (hpre : Begun C pre (opens S)) (hstack : opens s'.stack = opens S)
    (hcur : Segment C (cur ++ [w]) s'.last) (hlast : s'.last ≠ .leftParen) :
    Recognized C (ws ++ [w]) s' := by
  refine ⟨pre, cur ++ [w], ?_, ?_, hcur, fun h => absurd h hlast⟩
  · rw [hws, List.append_assoc]
  · rw [hstack]
    exact hpre

/-- A word that an operand may start with, where an operand leads on. -/
theorem recognized_name {word : Bytes} {opensCall : Bool} (hws : ws = pre ++ cur)
    (hpre : Begun C pre (opens s.stack)) (hlead : Leads C cur (.name word opensCall))
    (hexp : s.last.expectsOperand = true) (htakes : Takes C s (.name word opensCall) s') :
    Recognized C (ws ++ [.name word opensCall]) s' := by
  cases htakes with
  | const _ hfind =>
    obtain ⟨first, rest, hchain⟩ := hlead [] _ (.const hfind)
    exact recognized_append hws hpre rfl (.chain rfl hchain nofun) nofun
  | var _ hfind =>
    obtain ⟨first, rest, hchain⟩ := hlead [] _ (.var hfind)
    exact recognized_append hws hpre rfl (.chain rfl hchain nofun) nofun
  | func _ hfind => exact recognized_append hws hpre rfl (.func hlead hfind) nofun
  | times hlit _ _ =>
    rw [hlit] at hexp
    exact absurd hexp nofun

/-- Where no group is the innermost open parenthesis, a call is. -/
theorem exists_opens_call (hne : s.drained.stack ≠ [])
    (hgroup : (opens s.drained.stack).head? ≠ some .group) :
    ∃ B, opens s.drained.stack = .call :: B := by
  rcases s.drained_stack with hnil | ⟨S, hparen⟩
  · exact absurd hnil hne
  rw [hparen] at hgroup ⊢
  rcases S with - | ⟨_ | f | u | o, S⟩
  · exact absurd rfl hgroup
  · exact absurd rfl hgroup
  · exact ⟨opens S, rfl⟩
  · exact absurd rfl hgroup
  · exact absurd rfl hgroup

/-- Every step keeps the derivation, provided that no comma stands directly in a
group. -/
theorem Recognized.step (h : Recognized C ws s) (hF : C.allows .implicitParentheses = false)
    (hs : s.Coherent) (htracks : Tracks (C.nesting ws) s)
    (hcomma : C.CommasInCalls (ws ++ [w])) (htakes : Takes C s w s')
    (hfunc : s.last = .func → w = .leftParen) : Recognized C (ws ++ [w]) s' := by
  obtain ⟨pre, cur, hws, hpre, hcur, hopen⟩ := h
  cases htakes with
  | @literal _ l hexp =>
    obtain ⟨first, rest, hchain⟩ := hcur.leads hexp (.literal l) [] _ (.literal l)
    exact recognized_append hws hpre rfl (.chain rfl hchain fun _ => ⟨cur, l, rfl⟩) nofun
  | const hexp hfind =>
    exact recognized_name hws hpre (hcur.leads hexp _) hexp (.const hexp hfind)
  | var hexp hfind =>
    exact recognized_name hws hpre (hcur.leads hexp _) hexp (.var hexp hfind)
  | func hexp hfind =>
    exact recognized_name hws hpre (hcur.leads hexp _) hexp (.func hexp hfind)
  | times hlit hmul hname =>
    -- the name is read behind a `*` that is on the stack but no word
    rw [hlit] at hcur
    refine recognized_name hws ?_ (hcur.leads_literal hmul _ _) rfl hname
    show Begun C pre (opens (s.pushBinary .mul).stack)
    rw [opens_pushBinary]
    exact hpre
  | openCall hlast =>
    obtain ⟨ts, -, hfits⟩ := hs
    obtain ⟨f, S, hstack, -⟩ := hfits.func hlast
    rw [hlast] at hcur
    obtain ⟨lead, word, f', rfl, hlead, hfind⟩ := hcur.exists_func
    have hopens : opens (.paren :: s.stack) = .call :: opens s.stack := by
      rw [hstack]
      rfl
    refine ⟨pre ++ (lead ++ .name word true :: .leftParen :: []), [], ?_, ?_, .nil rfl, ?_⟩
    · rw [hws]
      simp
    · show Begun C _ (opens (.paren :: s.stack))
      rw [hopens]
      exact .call hpre hlead hfind (.inl rfl)
    · intro _
      exact ⟨rfl, pre ++ (lead ++ [.name word true]), by simp⟩
  | openGroup hexp =>
    obtain ⟨ts, -, hfits⟩ := hs
    refine ⟨pre ++ (cur ++ [.leftParen]), [], ?_, ?_, .nil rfl, ?_⟩
    · rw [hws]
      simp
    · show Begun C _ (opens (.paren :: s.stack))
      rw [opens_group (hfits.expects hexp).ne_func]
      exact .group hpre (hcur.leads hexp _)
    · intro _
      exact ⟨rfl, pre ++ cur, by simp⟩
  | @closeEmpty _ call stack hlast htail =>
    -- the current formula is empty, right behind the parenthesis of the call
    obtain ⟨ts, -, hfits⟩ := hs
    obtain ⟨S, hstack, -⟩ := hfits.opened hlast
    obtain ⟨rfl, hu⟩ := hopen hlast
    rw [hstack] at htail
    obtain rfl : S = .func call :: stack := htail
    rw [hstack] at hpre
    obtain ⟨pre', cur', heq, hpre', hcur'⟩ := hpre.close_empty hu
    refine ⟨pre', cur', ?_, hpre', hcur', nofun⟩
    rw [hws, List.append_nil, heq]
  | @closeCall _ call stack hexp htail =>
    have hends := Kind.endsOperand_of_ne_func hexp fun hlast => absurd (hfunc hlast) nofun
    obtain ⟨t, ht⟩ := hcur.derives_formula hends
    rw [opens_of_call htail] at hpre
    obtain ⟨pre', cur', heq, hpre', hcur'⟩ := hpre.close_call ht
    refine ⟨pre', cur', ?_, hpre', hcur', nofun⟩
    rw [hws, List.append_assoc, heq]
  | closeGroup hexp hne htail =>
    have hends := Kind.endsOperand_of_ne_func hexp fun hlast => absurd (hfunc hlast) nofun
    obtain ⟨t, ht⟩ := hcur.derives_formula hends
    rw [opens_of_group hne htail] at hpre
    obtain ⟨pre', cur', heq, hpre', hcur'⟩ := hpre.close_group ht
    refine ⟨pre', cur', ?_, hpre', hcur', nofun⟩
    rw [hws, List.append_assoc, heq]
  | closeUnopened hexp hnil himp =>
    rw [hF] at himp
    exact absurd himp nofun
  | comma hends hsaved hstack =>
    obtain ⟨t, ht⟩ := hcur.derives_formula hends
    have hgroup : (opens s.drained.stack).head? ≠ some .group := by
      rw [opens_drained, ← htracks.brackets]
      exact hcomma ws [] rfl
    have hne : s.drained.stack ≠ [] := hstack.resolve_right (by rw [hF]; exact nofun)
    obtain ⟨B, hB⟩ := exists_opens_call hne hgroup
    rw [← opens_drained s, hB] at hpre
    refine ⟨pre ++ (cur ++ [.comma]), [], ?_, ?_, .nil rfl, nofun⟩
    · rw [hws]
      simp
    · show Begun C _ (opens s.drained.stack)
      rw [hB]
      exact hpre.next ht
  | binary hends hop hallow =>
    have hcur' := hcur.of_operator hends hop hallow
    exact recognized_append hws hpre (opens_pushBinary s _) hcur' nofun
  | sign hsign hop hallow =>
    refine recognized_append hws hpre rfl (.signs rfl ?_) nofun
    intro ws' t hws'
    rw [List.append_assoc]
    exact hcur.signed hsign (hws'.sign hop hallow)

/-- In every state that is reached the words have an incomplete derivation. -/
theorem Reached.recognized (h : Reached C ws s) (hF : C.allows .implicitParentheses = false)
    (hcomma : C.CommasInCalls ws) : Recognized C ws s := by
  refine h.induction (P := fun ws s => C.CommasInCalls ws → Recognized C ws s)
    (fun _ => recognized_start) ?_ hcomma
  intro ws w s s' hs htakes hfunc ih hcomma
  exact (ih hcomma.of_append).step hF hs.coherent hs.tracks hcomma htakes hfunc

/-- Without implicit parentheses none may be open at the end. -/
theorem opens_of_unwind (hF : C.allows .implicitParentheses = false) {stack : List (Pending σ)}
    (h : unwind C s stack = .ok s') : opens stack = [] := by
  induction stack generalizing s with
  | nil => rfl
  | cons p stack ih =>
    cases p with
    | paren =>
      have himp := (require_bind_eq_ok.mp h).1
      rw [hF] at himp
      exact absurd himp nofun
    | func f => exact ih (require_bind_eq_ok.mp h).2
    | sign u => exact ih h
    | binary o => exact ih h

end Scan

/-- The words of a text that compiles are a formula. -/
theorem derives_of_compile {C : Context σ} {text : Bytes} {p : Postfix σ}
    (hF : C.allows .implicitParentheses = false) (hcomma : C.CommasInCalls (C.lex text))
    (h : C.compile text = .ok p) : ∃ t, Derives C (C.lex text) (.formula t) := by
  obtain ⟨s, s', hreached, hends, hunwind, -⟩ := Context.exists_of_compile h
  obtain ⟨pre, cur, hws, hpre, hcur, -⟩ := hreached.recognized hF hcomma
  rw [Scan.opens_of_unwind hF hunwind] at hpre
  rw [hws, hpre.of_nil]
  exact hcur.derives_formula hends

/-- **The compiler is the grammar.**  Without implicit parentheses, and where
no comma stands directly in a group, a text compiles exactly when its words are
a formula; what it compiles to is the postorder of the formula's tree, and
there is only one such tree. -/
theorem Context.compile_iff_derives {C : Context σ} {text : Bytes}
    (hF : C.allows .implicitParentheses = false) (hcomma : C.CommasInCalls (C.lex text)) :
    (∀ p, C.compile text = .ok p ↔ ∃ t, Derives C (C.lex text) (.formula t) ∧ t.postorder = p) ∧
      ∀ t t', Derives C (C.lex text) (.formula t) → Derives C (C.lex text) (.formula t') →
        t = t' := by
  constructor
  · intro p
    constructor
    · intro h
      obtain ⟨t, ht⟩ := derives_of_compile hF hcomma h
      have hp := compile_of_derives ht
      rw [h] at hp
      exact ⟨t, ht, (Except.ok.inj hp).symm⟩
    · rintro ⟨t, ht, rfl⟩
      exact compile_of_derives ht
  · intro t t' ht ht'
    have h := compile_of_derives ht
    rw [compile_of_derives ht'] at h
    exact Tree.postorder_injective (Except.ok.inj h).symm

/-- Nested calls with commas, a sign, a group, operators of both ranks and a product without
its `*`: the words are a formula, and this is its tree. -/
theorem Context.sample_compile_iff_derives :
    let C := sample .basic
    let text := Bytes.ofString "-f(x,f(),2x)*(x+x)-x"
    let f := fun _ => throw .wrongArgumentCount
    C.allows .implicitParentheses = false ∧ C.CommasInCalls (C.lex text) ∧
      (∀ p, C.compile text = .ok p ↔ ∃ t, Derives C (C.lex text) (.formula t) ∧ t.postorder = p) ∧
      (∀ t t', Derives C (C.lex text) (.formula t) → Derives C (C.lex text) (.formula t') →
        t = t') ∧
      Derives C (C.lex text) (.formula (.binary .sub (.binary .mul
        (.unary .minus (.call f [.const 2, .call f [], .binary .mul (.const 2) (.const 2)]))
        (.binary .add (.const 2) (.const 2))) (.const 2))) := by
  have hlex : (sample .basic).lex (Bytes.ofString "-f(x,f(),2x)*(x+x)-x")
      = [.other Byte.minus, .name [102] true, .leftParen, .name [120] false, .comma,
        .name [102] true, .leftParen, .rightParen, .comma, .literal ⟨[50], none, none⟩,
        .name [120] false, .rightParen, .other Byte.star, .leftParen, .name [120] false,
        .other Byte.plus, .name [120] false, .rightParen, .other Byte.minus,
        .name [120] false] := by
    decide +kernel
  have hcompile : (sample .basic).compile (Bytes.ofString "-f(x,f(),2x)*(x+x)-x")
      = .ok (Tree.postorder (.binary .sub (.binary .mul
        (.unary .minus (.call (fun _ => throw .wrongArgumentCount) [.const 2,
          .call (fun _ => throw .wrongArgumentCount) [],
          .binary .mul (.const ((⟨[50], none, none⟩ : Literal).value .float)) (.const 2)]))
        (.binary .add (.const 2) (.const 2))) (.const 2))) := by
    rw [Context.compile, hlex]
    rfl
  have htwo : (⟨[50], none, none⟩ : Literal).value .float = (2 : Float) := by decide +kernel
  rw [htwo] at hcompile
  intro C text f
  have hF : C.allows .implicitParentheses = false := by decide
  have hcomma : C.CommasInCalls (C.lex text) := by decide +kernel
  obtain ⟨hiff, hunique⟩ := compile_iff_derives hF hcomma
  obtain ⟨t, ht, hpostorder⟩ := (hiff _).mp hcompile
  rw [Tree.postorder_injective hpostorder] at ht
  exact ⟨hF, hcomma, hiff, hunique, ht⟩

end Formula
