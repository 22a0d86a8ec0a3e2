/-
Formula/Proofs/Coherence.lean

What the parts of a pass say about each other.

The output of a pass is a row of trees (`Places`), and the stack says how many
of them there are: a binary operator waits with its left operand placed, an
open call with all its arguments but the one that is being read (`Awaits`).
The counters of the open calls agree with it.  Only the kind of the last word
decides whether the tree that is being read has been placed already (`Fits`).

Every step keeps this (`Coherent.step`), so it holds after any words in which
a name that opens a call is followed by its parenthesis.  The end of the text
combines what is left into one tree.  Hence whatever compiles is the postorder
of a tree (`compile_eq_postorder`), with implicit parentheses or without, and
the stack machine runs it from its first item to its last whatever the host
answers: it can only fail when a call does.
-/
import Formula.Proofs.Lexing
import Formula.Proofs.Machine
import Formula.Proofs.Steps

namespace Formula

variable {σ : Type}

open Operator

/-! ### The trees on the output -/

/-- The output and the numbers of arguments are those of trees, the latest
first. -/
def Places (output : List (Item σ)) (arities : List Nat) (ts : List (Tree σ)) : Prop :=
  output = ts.flatMap (fun t => t.items.reverse) ∧
    arities = ts.flatMap (fun t => t.arities.reverse)

namespace Places

variable {output : List (Item σ)} {arities : List Nat} {ts : List (Tree σ)}

theorem nil : Places ([] : List (Item σ)) [] [] := ⟨rfl, rfl⟩

theorem const (h : Places output arities ts) (x : Float) :
    Places (.const x :: output) arities (.const x :: ts) := by
  obtain ⟨rfl, rfl⟩ := h
  exact ⟨rfl, rfl⟩

theorem var (h : Places output arities ts) (read : StateM σ Float) :
    Places (.var read :: output) arities (.var read :: ts) := by
  obtain ⟨rfl, rfl⟩ := h
  exact ⟨rfl, rfl⟩

theorem unary {t : Tree σ} (h : Places output arities (t :: ts)) (u : UnaryOp) :
    Places (.unary u :: output) arities (.unary u t :: ts) := by
  obtain ⟨rfl, rfl⟩ := h
  exact ⟨by simp [Tree.items], rfl⟩

theorem binary {l r : Tree σ} (h : Places output arities (r :: l :: ts)) (o : BinaryOp) :
    Places (.binary o :: output) arities (.binary o l r :: ts) := by
  obtain ⟨rfl, rfl⟩ := h
  exact ⟨by simp [Tree.items], by simp [Tree.arities]⟩

/-- A function takes as many trees as its number of arguments says. -/
theorem call (h : Places output arities ts) (f : List Float → Eval σ Float) {n : Nat}
    (hn : n ≤ ts.length) :
    Places (.fn f :: output) (n :: arities) (.call f (ts.take n).reverse :: ts.drop n) := by
  obtain ⟨rfl, rfl⟩ := h
  have hlen : (ts.take n).reverse.length = n := by
    rw [List.length_reverse, List.length_take, Nat.min_eq_left hn]
  refine ⟨?_, ?_⟩
  · rw [List.flatMap_cons, Tree.items, Tree.itemsAll_eq_flatMap, List.reverse_append,
      List.reverse_flatMap, List.reverse_reverse, List.append_assoc]
    show _ = [_] ++ ((ts.take n).flatMap (fun t => t.items.reverse) ++ _)
    rw [← List.flatMap_append, List.take_append_drop]
    rfl
  · rw [List.flatMap_cons, Tree.arities, Tree.aritiesAll_eq_flatMap, List.reverse_append,
      List.reverse_flatMap, List.reverse_reverse, List.append_assoc, hlen]
    show _ = [_] ++ ((ts.take n).flatMap (fun t => t.arities.reverse) ++ _)
    rw [← List.flatMap_append, List.take_append_drop]
    rfl

/-- A run of operators takes one tree for each binary operator in it. -/
theorem placed (run : List Operator) {m : Nat} (h : Places output arities ts)
    (hlen : ts.length = m + binaries run + 1) :
    ∃ ts', Places (placed run output) arities ts' ∧ ts'.length = m + 1 := by
  induction run generalizing output ts with
  | nil => exact ⟨ts, h, hlen⟩
  | cons p run ih =>
    rw [placed_cons]
    cases p with
    | sign u =>
      rcases ts with - | ⟨t, ts⟩
      · exact absurd hlen (by simp)
      · exact ih (h.unary u) hlen
    | binary o =>
      rcases ts with - | ⟨r, - | ⟨l, ts⟩⟩
      · exact absurd hlen (by simp)
      · exact absurd hlen (by simp [binaries])
      · exact ih (h.binary o) (Nat.succ.inj hlen)

/-- A single tree is placed as its postorder. -/
theorem postorder {t : Tree σ} (h : Places output arities [t]) :
    (⟨output.reverse, arities.reverse⟩ : Postfix σ) = t.postorder := by
  obtain ⟨rfl, rfl⟩ := h
  simp [Tree.postorder]

end Places

/-! ### What the stack waits for -/

/-- `Awaits stack arity saved n`: with `n` trees placed, one more operand lets
everything on the stack be placed and gives a single tree.  `arity` is the
counter of the innermost open call and counts that operand, `saved` are those
of the calls around it. -/
inductive Awaits : List (Pending σ) → Nat → List Nat → Nat → Prop
  | bottom : Awaits [] 1 [] 0
  | sign {u stack a A n} (h : Awaits stack a A n) : Awaits (.sign u :: stack) a A n
  | binary {o stack a A n} (h : Awaits stack a A n) : Awaits (.binary o :: stack) a A (n + 1)
  | group {stack a A n} (h : Awaits stack a A n) : Awaits (.paren :: stack) a A n
  | call {f stack a A n} (begun : Nat) (h : Awaits stack a A n) :
      Awaits (.paren :: .func f :: stack) (begun + 1) (a :: A) (n + begun)

namespace Awaits

variable {stack : List (Pending σ)} {a : Nat} {A : List Nat} {n : Nat}

/-- An operand is counted. -/
theorem arity_pos (h : Awaits stack a A n) : 1 ≤ a := by
  induction h with
  | bottom => exact Nat.le_refl 1
  | sign _ ih => exact ih
  | binary _ ih => exact ih
  | group _ ih => exact ih
  | call begun _ _ => exact Nat.le_add_left 1 begun

theorem max_arity (h : Awaits stack a A n) : max a 1 = a := Nat.max_eq_left h.arity_pos

/-- A function waits below its parenthesis only. -/
theorem ne_func (h : Awaits stack a A n) (f : List Float → Eval σ Float) (rest : List (Pending σ)) :
    stack ≠ .func f :: rest := by
  rintro rfl
  cases h

/-- The parenthesis of a group changes nothing. -/
theorem of_group (h : Awaits (.paren :: stack) a A n)
    (hstack : ∀ f rest, stack ≠ .func f :: rest) : Awaits stack a A n := by
  cases h with
  | group h => exact h
  | @call f rest => exact absurd rfl (hstack f rest)

/-- An open call has its earlier arguments placed and the counter of the call
around it saved. -/
theorem of_call {f : List Float → Eval σ Float} (h : Awaits (.paren :: .func f :: stack) a A n) :
    ∃ b B begun m, a = begun + 1 ∧ A = b :: B ∧ n = m + begun ∧ Awaits stack b B m := by
  cases h with
  | group h => exact absurd rfl (h.ne_func f stack)
  | @call _ _ b B m begun h => exact ⟨b, B, begun, m, rfl, rfl, rfl, h⟩

/-- Inside a call a counter has been saved. -/
theorem saved_ne_nil (h : Awaits (.paren :: stack) a A n) :
    ∀ f rest, stack = .func f :: rest → A ≠ [] := by
  rintro f rest rfl
  obtain ⟨b, B, -, -, -, hA, -, -⟩ := h.of_call
  rw [hA]
  exact List.cons_ne_nil b B

/-- Below a run of operators the trees for its binary operators are missing. -/
theorem of_above {run : List Operator} (h : Awaits (above run stack) a A n) :
    ∃ m, n = m + binaries run ∧ Awaits stack a A m := by
  induction run generalizing n with
  | nil => exact ⟨n, rfl, h⟩
  | cons p run ih =>
    rw [above_cons] at h
    cases p with
    | sign u =>
      cases h with
      | sign h => exact ih h
    | binary o =>
      cases h with
      | binary h =>
        obtain ⟨m, rfl, hm⟩ := ih h
        exact ⟨m, rfl, hm⟩

/-- Below the operators at the top is an open parenthesis or nothing. -/
theorem exists_run (h : Awaits stack a A n) :
    ∃ run rest m, stack = above run rest ∧ (rest = [] ∨ ∃ S, rest = .paren :: S) ∧
      n = m + binaries run ∧ Awaits rest a A m := by
  obtain ⟨run, rest, rfl, hbare⟩ := Pending.exists_run stack
  obtain ⟨m, hn, hrest⟩ := h.of_above
  refine ⟨run, rest, m, rfl, ?_, hn, hrest⟩
  rcases rest with - | ⟨_ | f | u | o, S⟩
  · exact .inl rfl
  · exact .inr ⟨S, rfl⟩
  · exact absurd rfl (hrest.ne_func f S)
  · exact hbare.elim
  · exact hbare.elim

/-- A comma inside a call, also inside groups there, begins one more argument
of it. -/
theorem next (h : Awaits stack a A n) (hA : A ≠ []) : Awaits stack (a + 1) A (n + 1) := by
  induction h with
  | bottom => exact absurd rfl hA
  | sign _ ih => exact .sign (ih hA)
  | binary _ ih => exact .binary (ih hA)
  | group _ ih => exact .group (ih hA)
  | call begun h _ => exact .call (begun + 1) h

/-- A call is open whenever a counter has been saved. -/
theorem ne_nil_of_saved (h : Awaits stack a A n) (hA : A ≠ []) : stack ≠ [] := by
  rintro rfl
  cases h
  exact hA rfl

end Awaits

/-! ### The invariant of the pass -/

namespace Scan

/-- The stack and the counters fit `n` trees on the output.  Where an operand is expected it
has not been placed, and after an operand it has.  Between a function and its parenthesis
the function is on top, and right after the parenthesis no argument has been begun. -/
structure Fits (s : Scan σ) (n : Nat) : Prop where
  expects : s.last.expectsOperand = true → Awaits s.stack (max s.arity 1) s.saved n
  ends : s.last.endsOperand = true → ∃ m, n = m + 1 ∧ Awaits s.stack s.arity s.saved m
  func : s.last = .func → ∃ f S, s.stack = .func f :: S ∧ Awaits S s.arity s.saved n
  opened : s.last = .leftParen →
    ∃ S, s.stack = .paren :: S ∧ ∀ f S', S = .func f :: S' → s.arity = 0

/-- The output holds trees, and the rest of the state fits them. -/
def Coherent (s : Scan σ) : Prop :=
  ∃ ts : List (Tree σ), Places s.output s.arities ts ∧ s.Fits ts.length

theorem coherent_start : ({} : Scan σ).Coherent :=
  ⟨[], .nil, fun _ => .bottom, nofun, nofun, nofun⟩

/-! ### Every step keeps it -/

variable {C : Context σ} {s s' : Scan σ}

/-- A state in which an operand is expected. -/
theorem Fits.of_expects {n : Nat} (hlast : s.last.expectsOperand = true)
    (h : Awaits s.stack (max s.arity 1) s.saved n) (hparen : s.last ≠ .leftParen) : s.Fits n where
  expects _ := h
  ends hends := absurd hlast (by rw [Kind.expectsOperand_of_endsOperand hends]; decide)
  func hfunc := absurd hlast (by rw [hfunc]; decide)
  opened hopen := absurd hopen hparen

/-- A state in which an operand has been placed. -/
theorem Fits.of_ends {m : Nat} (hlast : s.last.endsOperand = true)
    (h : Awaits s.stack s.arity s.saved m) : s.Fits (m + 1) where
  expects hexp := absurd hexp (by rw [Kind.expectsOperand_of_endsOperand hlast]; decide)
  ends _ := ⟨m, rfl, h⟩
  func hfunc := absurd hlast (by rw [hfunc]; decide)
  opened hopen := absurd hlast (by rw [hopen]; decide)

/-- After an operand the stack is a run of operators above an open parenthesis
or nothing, and draining places the run. -/
theorem Coherent.drained (h : s.Coherent) (hends : s.last.endsOperand = true) :
    ∃ ts : List (Tree σ), Places s.drained.output s.drained.arities ts ∧
      ∃ m, ts.length = m + 1 ∧ Awaits s.drained.stack s.arity s.saved m ∧
        (s.drained.stack = [] ∨ ∃ S, s.drained.stack = .paren :: S) := by
  obtain ⟨ts, hts, hfits⟩ := h
  obtain ⟨m, hlen, hawaits⟩ := hfits.ends hends
  obtain ⟨run, rest, m', hstack, hrest, hm, hawaits⟩ := hawaits.exists_run
  rw [hm] at hlen
  obtain ⟨ts', hts', hlen'⟩ := hts.placed run hlen
  rw [drained_above hstack hrest]
  exact ⟨ts', hts', m', hlen', hawaits, hrest⟩

/-- A binary operator leaves its left operand as the last tree. -/
theorem Coherent.pushBinary (h : s.Coherent) (hends : s.last.endsOperand = true) (op : BinaryOp) :
    ((s.pushBinary op).advance .binary).Coherent := by
  obtain ⟨ts, hts, hfits⟩ := h
  obtain ⟨m, hlen, hawaits⟩ := hfits.ends hends
  obtain ⟨run, rest, hstack, -, hpush⟩ := s.exists_pushBinary op
  rw [hstack] at hawaits
  obtain ⟨m', rfl, hrest⟩ := hawaits.of_above
  -- the run that is released makes one tree of the trees above those of `rest`
  obtain ⟨ts', hts', hlen'⟩ := hts.placed run hlen
  rw [hpush]
  refine ⟨ts', hts', .of_expects rfl ?_ fun hparen => by cases hparen⟩
  rw [hlen']
  show Awaits (.binary op :: rest) (max s.arity 1) s.saved (m' + 1)
  rw [hrest.max_arity]
  exact .binary hrest

/-- A function takes its arguments and is itself the last tree of the call
around it. -/
theorem places_finishCall {ts : List (Tree σ)} (h : Places s.output s.arities ts) {m b : Nat}
    {B : List Nat} (hlen : ts.length = m + s.arity) (hsaved : s.saved = b :: B)
    (f : List Float → Eval σ Float) :
    ∃ ts', Places (s.finishCall f).output (s.finishCall f).arities ts' ∧ ts'.length = m + 1 ∧
      (s.finishCall f).arity = b ∧ (s.finishCall f).saved = B := by
  have hle : s.arity ≤ ts.length := by
    rw [hlen]
    exact Nat.le_add_left _ _
  refine ⟨_, h.call f hle, ?_, counters_finishCall hsaved f⟩
  rw [List.length_cons, List.length_drop, hlen, Nat.add_sub_cancel]

/-- A call may be closed when everything above its parenthesis is placed. -/
theorem coherent_finishCall {ts : List (Tree σ)} (h : Places s.output s.arities ts) {m b : Nat}
    {B : List Nat} (hlen : ts.length = m + s.arity) (hsaved : s.saved = b :: B)
    (hstack : Awaits s.stack b B m) (f : List Float → Eval σ Float) :
    ((s.finishCall f).advance .rightParen).Coherent := by
  obtain ⟨ts', hts', hlen', harity, hsaved'⟩ := places_finishCall h hlen hsaved f
  refine ⟨ts', hts', ?_⟩
  rw [hlen']
  refine .of_ends rfl ?_
  show Awaits s.stack (s.finishCall f).arity (s.finishCall f).saved m
  rw [harity, hsaved']
  exact hstack

/-- Every step keeps the invariant, provided that the parenthesis of a call
follows its function. -/
theorem Coherent.step {w : Lexeme} (h : s.Coherent) (htakes : Takes C s w s')
    (hfunc : s.last = .func → w = .leftParen) : s'.Coherent := by
  induction htakes with
  | literal hexp =>
    obtain ⟨ts, hts, hfits⟩ := h
    exact ⟨_, hts.const _, .of_ends rfl (hfits.expects hexp)⟩
  | const hexp hfind =>
    obtain ⟨ts, hts, hfits⟩ := h
    exact ⟨_, hts.const _, .of_ends rfl (hfits.expects hexp)⟩
  | var hexp hfind =>
    obtain ⟨ts, hts, hfits⟩ := h
    exact ⟨_, hts.var _, .of_ends rfl (hfits.expects hexp)⟩
  | func hexp hfind =>
    obtain ⟨ts, hts, hfits⟩ := h
    exact ⟨ts, hts, nofun, nofun, fun _ => ⟨_, _, rfl, hfits.expects hexp⟩, nofun⟩
  | times hlit hmul _ ih =>
    exact ih (h.pushBinary (Kind.endsOperand_of_eq_literal hlit) .mul) nofun
  | openCall hlast =>
    obtain ⟨ts, hts, hfits⟩ := h
    obtain ⟨f, S, hstack, hawaits⟩ := hfits.func hlast
    refine ⟨ts, hts, fun _ => ?_, nofun, nofun, fun _ => ⟨_, rfl, fun _ _ _ => rfl⟩⟩
    show Awaits (.paren :: _) (0 + 1) _ _
    rw [hstack]
    exact .call 0 hawaits
  | openGroup hexp =>
    -- the group is counted here, and its operand does not count once more
    obtain ⟨ts, hts, hfits⟩ := h
    have hawaits := hfits.expects hexp
    refine ⟨ts, hts, fun _ => ?_, nofun, nofun, fun _ => ⟨_, rfl, fun f S' hS => ?_⟩⟩
    · show Awaits (.paren :: _) (max (max _ 1) 1) _ _
      rw [hawaits.max_arity]
      exact .group hawaits
    · exact absurd hS (hawaits.ne_func f S')
  | @closeEmpty s call stack hlast htail =>
    -- nothing waits above the parenthesis, and no argument has been counted
    obtain ⟨ts, hts, hfits⟩ := h
    obtain ⟨S, hstack, hzero⟩ := hfits.opened hlast
    have hawaits := hfits.expects (by rw [hlast]; rfl)
    rw [hstack] at htail hawaits
    obtain rfl : S = .func call :: stack := htail
    have harity : s.arity = 0 := hzero call stack rfl
    obtain ⟨b, B, begun, m, hbegun, hsaved, hlen, hrest⟩ := hawaits.of_call
    obtain rfl : begun = 0 := by
      rw [harity] at hbegun
      exact (Nat.succ.inj hbegun).symm
    refine coherent_finishCall (s := { s with stack }) hts ?_ hsaved hrest call
    rw [hlen]
    exact congrArg (m + ·) harity.symm
  | @closeCall s call stack hexp htail =>
    -- draining leaves one tree for each argument on top of the output
    have hends := Kind.endsOperand_of_ne_func hexp fun hlast => absurd (hfunc hlast) nofun
    obtain ⟨ts, hts, m, hlen, hawaits, hnil | ⟨S, hstack⟩⟩ := h.drained hends
    · rw [hnil] at htail
      exact absurd htail (by simp)
    · rw [hstack] at htail hawaits
      obtain rfl : S = .func call :: stack := htail
      obtain ⟨b, B, begun, m', harity, hsaved, rfl, hrest⟩ := hawaits.of_call
      refine coherent_finishCall (s := { s.drained with stack }) hts ?_ hsaved hrest call
      rw [hlen, Nat.add_assoc]
      exact congrArg (m' + ·) harity.symm
  | @closeGroup s hexp hne htail =>
    have hends := Kind.endsOperand_of_ne_func hexp fun hlast => absurd (hfunc hlast) nofun
    obtain ⟨ts, hts, m, hlen, hawaits, hnil | ⟨S, hstack⟩⟩ := h.drained hends
    · exact absurd hnil hne
    · rw [hstack] at htail hawaits
      refine ⟨ts, hts, ?_⟩
      rw [hlen]
      refine .of_ends rfl ?_
      show Awaits s.drained.stack.tail s.arity s.saved m
      rw [hstack]
      exact hawaits.of_group htail
  | @closeUnopened s hexp hnil himp =>
    have hends := Kind.endsOperand_of_ne_func hexp fun hlast => absurd (hfunc hlast) nofun
    obtain ⟨ts, hts, m, hlen, hawaits, -⟩ := h.drained hends
    refine ⟨ts, hts, ?_⟩
    rw [hlen]
    exact .of_ends rfl hawaits
  | @comma s hends hsaved hstack =>
    -- the argument that ends is a tree, and the next one is counted at once
    obtain ⟨ts, hts, m, hlen, hawaits, -⟩ := h.drained hends
    refine ⟨ts, hts, .of_expects rfl ?_ nofun⟩
    rw [hlen]
    show Awaits s.drained.stack (max (s.arity + 1) 1) s.saved (m + 1)
    rw [Nat.max_eq_left (Nat.le_add_left 1 s.arity)]
    exact hawaits.next hsaved
  | binary hends hop hallow => exact h.pushBinary hends _
  | sign hsign hop hallow =>
    obtain ⟨ts, hts, hfits⟩ := h
    exact ⟨ts, hts, .of_expects rfl
      (.sign (hfits.expects (Kind.expectsOperand_of_allowsSign hsign))) nofun⟩

/-! ### Every run keeps it -/

/-- Only a name that opens a call and stands for a function is read as one, and the
function waits. -/
theorem Takes.eq_name {w : Lexeme} (h : Takes C s w s') (hlast : s'.last = .func) :
    ∃ word f, w = .name word true ∧ C.find? word = some (.fn f) ∧ ∃ S, s'.stack = .func f :: S := by
  induction h with
  | func _ hfind => exact ⟨_, _, rfl, hfind, _, rfl⟩
  | times _ _ _ ih => exact ih hlast
  | _ => cases hlast

theorem exists_name_of_last {ws : List Lexeme} (h : acceptAll C {} ws = .ok s)
    (hlast : s.last = .func) : ∃ u word f, ws = u ++ [.name word true] ∧
      C.find? word = some (.fn f) ∧ ∃ S, s.stack = .func f :: S := by
  refine acceptAll_induction
    (P := fun ws s => s.last = .func → ∃ u word f, ws = u ++ [.name word true] ∧
      C.find? word = some (.fn f) ∧ ∃ S, s.stack = .func f :: S)
    (fun hlast => by cases hlast) ?_ h hlast
  intro ws w s s' _ htakes hlast
  obtain ⟨word, f, rfl, hfind, hstack⟩ := htakes.eq_name hlast
  exact ⟨ws, word, f, rfl, hfind, hstack⟩

/-- The state after words that begin a text: a name that opens a call is
followed by its parenthesis there. -/
def Reached (C : Context σ) (ws : List Lexeme) (s : Scan σ) : Prop :=
  acceptAll C {} ws = .ok s ∧ ∃ rest, Joined (ws ++ rest)

theorem reached_lex {text : Bytes} (h : acceptAll C {} (C.lex text) = .ok s) :
    Reached C (C.lex text) s := by
  refine ⟨h, [], ?_⟩
  rw [List.append_nil]
  exact joined_lex text

namespace Reached

variable {ws : List Lexeme}

/-- Only a left parenthesis follows a function. -/
theorem eq_leftParen {w : Lexeme} {rest : List Lexeme} (h : acceptAll C {} ws = .ok s)
    (hj : Joined (ws ++ w :: rest)) (hlast : s.last = .func) : w = .leftParen := by
  obtain ⟨u, word, f, rfl, -⟩ := exists_name_of_last h hlast
  rw [List.append_assoc] at hj
  obtain ⟨rest', hrest⟩ := hj u word (w :: rest) rfl
  exact (List.cons.inj hrest).1

/-- What holds before the first word and is kept by every step holds in every
state that is reached. -/
theorem induction {P : List Lexeme → Scan σ → Prop} (hnil : P [] {})
    (hstep : ∀ ws w s s', Reached C ws s → Takes C s w s' →
      (s.last = .func → w = .leftParen) → P ws s → P (ws ++ [w]) s')
    (h : Reached C ws s) : P ws s := by
  obtain ⟨hrun, rest, hj⟩ := h
  induction ws using List.reverseRecOn generalizing s rest with
  | nil =>
    cases hrun
    exact hnil
  | append_singleton ws w ih =>
    obtain ⟨s₁, h₁, h₂⟩ := acceptAll_append_eq_ok.mp hrun
    rw [List.append_assoc] at hj
    exact hstep ws w s₁ s ⟨h₁, _, hj⟩ (acceptAll_singleton_eq_ok.mp h₂) (eq_leftParen h₁ hj)
      (ih h₁ _ hj)

/-- The invariant holds in every state that is reached. -/
theorem coherent (h : Reached C ws s) : s.Coherent :=
  h.induction (P := fun _ s => s.Coherent) coherent_start
    fun _ _ _ _ _ htakes hfunc hs => hs.step htakes hfunc

end Reached

/-- The words of a text do not end between a function and its parenthesis. -/
theorem last_ne_func_of_lex {text : Bytes} (h : acceptAll C {} (C.lex text) = .ok s) :
    s.last ≠ .func := by
  intro hlast
  obtain ⟨u, word, f, hlex, -⟩ := exists_name_of_last h hlast
  obtain ⟨v', hv'⟩ := joined_lex text u word [] hlex
  exact absurd hv' nofun

/-! ### The end of the text -/

/-- After the last operand, everything that still waits is combined into one
tree. -/
theorem places_unwind {stack : List (Pending σ)} {m : Nat}
    (hawaits : Awaits stack s.arity s.saved m) {ts : List (Tree σ)}
    (hts : Places s.output s.arities ts) (hlen : ts.length = m + 1)
    (h : unwind C s stack = .ok s') : ∃ t, Places s'.output s'.arities [t] := by
  -- what waits is placed from the top downwards, and each time the output
  -- holds one tree more than the rest of the stack waits for
  generalize harity : s.arity = a at hawaits
  generalize hsaved : s.saved = A at hawaits
  induction hawaits generalizing s ts with
  | bottom =>
    cases h
    obtain ⟨t, rfl⟩ := List.length_eq_one_iff.mp hlen
    exact ⟨t, hts⟩
  | sign _ ih =>
    rcases ts with - | ⟨t, ts⟩
    · exact absurd hlen (by simp)
    · refine ih (hts.unary _) ?_ h harity hsaved
      exact hlen
  | binary _ ih =>
    rcases ts with - | ⟨r, - | ⟨l, ts⟩⟩
    · exact absurd hlen (by simp)
    · exact absurd hlen (by simp)
    · refine ih (hts.binary _) ?_ h harity hsaved
      exact Nat.succ.inj hlen
  | group _ ih =>
    obtain ⟨-, h⟩ := require_bind_eq_ok.mp h
    exact ih hts hlen h harity hsaved
  | @call f _ a A n begun _ ih =>
    obtain ⟨-, h⟩ := require_bind_eq_ok.mp h
    obtain ⟨-, h⟩ := require_bind_eq_ok.mp h
    have hlen' : ts.length = n + s.arity := by
      rw [hlen, harity, Nat.add_assoc]
    obtain ⟨ts', hts', hlen', harity', hsaved'⟩ := places_finishCall hts hlen' hsaved f
    exact ih hts' hlen' h harity' hsaved'

end Scan

/-- A text that compiles is read to its end and ends with an operand. -/
theorem Context.exists_of_compile {C : Context σ} {text : Bytes} {p : Postfix σ}
    (h : C.compile text = .ok p) : ∃ s s', Scan.Reached C (C.lex text) s ∧
      s.last.endsOperand = true ∧ Scan.unwind C s s.stack = .ok s' ∧
      p = ⟨s'.output.reverse, s'.arities.reverse⟩ := by
  obtain ⟨s, hrun, hfinish⟩ := compile_eq_ok_iff.mp h
  obtain ⟨hexp, s', hunwind, hp⟩ := Scan.finish_eq_ok_iff.mp hfinish
  have hends := Kind.endsOperand_of_ne_func hexp (Scan.last_ne_func_of_lex hrun)
  exact ⟨s, s', Scan.reached_lex hrun, hends, hunwind, hp⟩

/-- Whatever compiles is the postorder of a tree. -/
theorem Context.compile_eq_postorder {C : Context σ} {text : Bytes} {p : Postfix σ}
    (h : C.compile text = .ok p) : ∃ t : Tree σ, p = t.postorder := by
  obtain ⟨s, s', hreached, hends, hunwind, rfl⟩ := exists_of_compile h
  obtain ⟨ts, hts, hfits⟩ := hreached.coherent
  obtain ⟨m, hlen, hawaits⟩ := hfits.ends hends
  obtain ⟨t, ht⟩ := Scan.places_unwind hawaits hts hlen hunwind
  exact ⟨t, ht.postorder⟩

/-- Whatever compiles runs through: with any symbols and any features, and
also with commas inside groups, a compiled formula never fails by itself. -/
theorem Context.runsThrough_of_compile {C : Context σ} {text : Bytes} {p : Postfix σ}
    (h : C.compile text = .ok p) : p.RunsThrough := by
  obtain ⟨t, rfl⟩ := compile_eq_postorder h
  exact t.runsThrough_postorder

/-- A small context: a function `f` that refuses its arguments and a constant
`x`. -/
def Context.sample (F : Features) : Context Unit where
  symbols := ((∅ : Std.TreeMap Bytes (Symbol Unit)).insert [102]
    (.fn fun _ => throw .wrongArgumentCount)).insert [120] (.const 2)
  features := F

/-- A comma inside a group, a parenthesis that was never opened and a call that
is never closed, in one formula. -/
theorem Context.sample_runsThrough :
    ∃ p, (sample .full).compile (Bytes.ofString "f((x,x))+x)-f(x") = .ok p ∧ p.RunsThrough := by
  have hlex : (sample .full).lex (Bytes.ofString "f((x,x))+x)-f(x")
      = [.name [102] true, .leftParen, .leftParen, .name [120] false, .comma, .name [120] false,
        .rightParen, .rightParen, .other Byte.plus, .name [120] false, .rightParen,
        .other Byte.minus, .name [102] true, .leftParen, .name [120] false] := by
    decide +kernel
  have h : (sample .full).compile (Bytes.ofString "f((x,x))+x)-f(x")
      = .ok ⟨[.const 2, .const 2, .fn fun _ => throw .wrongArgumentCount, .const 2, .binary .add,
        .const 2, .fn fun _ => throw .wrongArgumentCount, .binary .sub], [2, 1]⟩ := by
    rw [compile, hlex]
    rfl
  exact ⟨_, h, runsThrough_of_compile h⟩

end Formula
