/-
Formula/Proofs/Machine.lean

The stack machine behind `Postfix.exec`, and items that it never gets stuck on.

A machine holds the items to come, the numbers of arguments to come and the stack of
values.  `Step` is one turn of it in which the host is free: a variable may read as any
number and a call may return any number.  `Turn` is the turn that is taken in a given
world, with the answers that this world gives.  Turns do not change what a run ends with
(`Runs.exec_eq`), so every run of a formula follows the machine until it ends with a
value or until a call fails (`exec_follows`).

Whether the machine can go on depends on the height of the stack alone, since
items and numbers of arguments say how many values each turn takes and gives.
`Balanced` is the condition that there are always enough and that exactly one
value is left at the end.  A step keeps it, and the postorder of a tree has it
(`balanced_postorder`), so the machine never gets stuck there.
-/
import Mathlib.Logic.Relation
import Formula.Kind
import Formula.Proofs.Evaluation

namespace Formula

variable {σ : Type}

/-- The machine between two turns: the items to come, the numbers of arguments of the calls
among them, and the values, top first. -/
structure Machine (σ : Type) where
  items : List (Item σ)
  arities : List Nat
  stack : List Float

namespace Machine

/-! ### Turns of the machine -/

/-- One turn, whatever the host answers. -/
inductive Step : Machine σ → Machine σ → Prop
  | const {x items ns stack} :
      Step ⟨.const x :: items, ns, stack⟩ ⟨items, ns, x :: stack⟩
  | var {read items ns stack} (x : Float) :
      Step ⟨.var read :: items, ns, stack⟩ ⟨items, ns, x :: stack⟩
  | unary {op items ns x stack} :
      Step ⟨.unary op :: items, ns, x :: stack⟩ ⟨items, ns, op.apply x :: stack⟩
  | binary {op items ns y x stack} :
      Step ⟨.binary op :: items, ns, y :: x :: stack⟩ ⟨items, ns, op.apply x y :: stack⟩
  | fn {call items n ns stack} (x : Float) (h : n ≤ stack.length) :
      Step ⟨.fn call :: items, n :: ns, stack⟩ ⟨items, ns, x :: stack.drop n⟩

/-- Some turns, one after another. -/
abbrev Reaches : Machine σ → Machine σ → Prop := Relation.ReflTransGen Step

/-- What the next item needs is there; at the end there is a single value and
no number of arguments is left over. -/
def Ready (c : Machine σ) : Prop :=
  match c.items with
  | [] => c.arities = [] ∧ ∃ x, c.stack = [x]
  | .const _ :: _ => True
  | .var _ :: _ => True
  | .unary _ :: _ => 1 ≤ c.stack.length
  | .binary _ :: _ => 2 ≤ c.stack.length
  | .fn _ :: _ => ∃ n ns, c.arities = n :: ns ∧ n ≤ c.stack.length

/-- The call whose turn it is, with its arguments in call order. -/
inductive Calls : Machine σ → (List Float → Eval σ Float) → List Float → Prop
  | fn {call items n ns stack} (h : n ≤ stack.length) :
      Calls ⟨.fn call :: items, n :: ns, stack⟩ call (stack.take n).reverse

/-- The run from here on. -/
def exec (c : Machine σ) : Eval σ Float := Postfix.exec c.items c.arities c.stack

/-- The turn that is taken in a world, and the world after it. -/
inductive Turn : Machine σ × σ → Machine σ × σ → Prop
  | const {x items ns stack w} :
      Turn (⟨.const x :: items, ns, stack⟩, w) (⟨items, ns, x :: stack⟩, w)
  | var {read items ns stack w} :
      Turn (⟨.var read :: items, ns, stack⟩, w)
        (⟨items, ns, (read.run w).1 :: stack⟩, (read.run w).2)
  | unary {op items ns x stack w} :
      Turn (⟨.unary op :: items, ns, x :: stack⟩, w) (⟨items, ns, op.apply x :: stack⟩, w)
  | binary {op items ns y x stack w} :
      Turn (⟨.binary op :: items, ns, y :: x :: stack⟩, w)
        (⟨items, ns, op.apply x y :: stack⟩, w)
  | fn {call items n ns stack x w w'} (hn : n ≤ stack.length)
      (hcall : (call (stack.take n).reverse).run.run w = (.ok x, w')) :
      Turn (⟨.fn call :: items, n :: ns, stack⟩, w) (⟨items, ns, x :: stack.drop n⟩, w')

/-- Some of these turns, one after another. -/
abbrev Runs : Machine σ × σ → Machine σ × σ → Prop := Relation.ReflTransGen Turn

theorem exec_fn {call : List Float → Eval σ Float} {items : List (Item σ)} {n : Nat}
    {ns : List Nat} {stack : List Float} (hn : n ≤ stack.length) :
    (Machine.mk (.fn call :: items) (n :: ns) stack).exec
      = call (stack.take n).reverse >>= fun x =>
        (Machine.mk items ns (x :: stack.drop n)).exec := by
  simp only [exec, Postfix.exec]
  rw [if_pos hn]

/-- The turn in a world is one of those in which the host is free. -/
theorem Turn.step {c c' : Machine σ} {w w' : σ} (h : Turn (c, w) (c', w')) : Step c c' := by
  cases h with
  | const => exact .const
  | var => exact .var _
  | unary => exact .unary
  | binary => exact .binary
  | fn hn hcall => exact .fn _ hn

/-- After a turn the run ends with what it would have ended with before. -/
theorem Turn.exec_eq {c c' : Machine σ} {w w' : σ} (h : Turn (c, w) (c', w')) :
    c.exec.run.run w = c'.exec.run.run w' := by
  cases h with
  | const => rfl
  | var => rfl
  | unary => rfl
  | binary => rfl
  | fn hn hcall =>
    rw [exec_fn hn]
    exact Eval.run_bind_ok hcall _

theorem Runs.exec_eq {a b : Machine σ × σ} (h : Runs a b) :
    a.1.exec.run.run a.2 = b.1.exec.run.run b.2 := by
  induction h with
  | refl => rfl
  | tail _ hturn ih => exact ih.trans hturn.exec_eq

/-- The call whose turn it is ends the run if it fails. -/
theorem Calls.exec_eq {c : Machine σ} {call : List Float → Eval σ Float} {args : List Float}
    {e : Error} {w w' : σ} (h : c.Calls call args)
    (hfails : (call args).run.run w = (.error e, w')) :
    c.exec.run.run w = (.error e, w') := by
  cases h with
  | fn hn =>
    rw [exec_fn hn]
    exact Eval.run_bind_error hfails _

/-- In every world a turn is taken, or the call that is next fails. -/
theorem exists_turn {c : Machine σ} (h : c.Ready) (hne : c.items ≠ []) (w : σ) :
    (∃ c' w', Turn (c, w) (c', w')) ∨
      ∃ call args e w', c.Calls call args ∧ (call args).run.run w = (.error e, w') := by
  obtain ⟨items, ns, stack⟩ := c
  rcases items with - | ⟨item, items⟩
  · exact absurd rfl hne
  cases item with
  | const x => exact .inl ⟨_, _, .const⟩
  | var read => exact .inl ⟨_, _, .var⟩
  | unary op =>
    rcases stack with - | ⟨x, stack⟩
    · exact absurd h (by simp [Ready])
    · exact .inl ⟨_, _, .unary⟩
  | binary op =>
    rcases stack with - | ⟨y, - | ⟨x, stack⟩⟩
    · exact absurd h (by simp [Ready])
    · exact absurd h (by simp [Ready])
    · exact .inl ⟨_, _, .binary⟩
  | fn call =>
    obtain ⟨n, ns', hns, hn⟩ := h
    obtain rfl : ns = n :: ns' := hns
    -- the call is the only item at which a run may end early
    rcases hcall : (call (stack.take n).reverse).run.run w with ⟨e | x, w'⟩
    · exact .inr ⟨call, _, e, w', .fn hn, hcall⟩
    · exact .inl ⟨_, _, .fn hn hcall⟩

/-- A turn takes one item off. -/
theorem Step.items_eq {c c' : Machine σ} (h : Step c c') : ∃ item, c.items = item :: c'.items := by
  cases h <;> exact ⟨_, rfl⟩

/-- The items to come are the last of the items. -/
theorem Reaches.suffix {c c' : Machine σ} (h : Reaches c c') : c'.items <:+ c.items := by
  induction h with
  | refl => exact List.suffix_rfl
  | tail _ hstep ih =>
    obtain ⟨item, hitems⟩ := hstep.items_eq
    rw [hitems] at ih
    exact (List.suffix_cons _ _).trans ih

theorem Calls.mem {c : Machine σ} {call : List Float → Eval σ Float} {args : List Float}
    (h : c.Calls call args) : .fn call ∈ c.items := by
  cases h
  exact List.mem_cons_self

end Machine

/-! ### Balanced items -/

/-- From a stack of a given height every item finds the values that it takes,
every function finds its number of arguments, and one value and no number of
arguments are left at the end. -/
def Balanced : List (Item σ) → List Nat → Nat → Prop
  | [], ns, height => ns = [] ∧ height = 1
  | .const _ :: items, ns, height => Balanced items ns (height + 1)
  | .var _ :: items, ns, height => Balanced items ns (height + 1)
  | .unary _ :: items, ns, height => 1 ≤ height ∧ Balanced items ns height
  | .binary _ :: items, ns, height => 2 ≤ height ∧ Balanced items ns (height - 1)
  | .fn _ :: items, n :: ns, height => n ≤ height ∧ Balanced items ns (height - n + 1)
  | .fn _ :: _, [], _ => False

namespace Tree

mutual

/-- The postorder of a tree raises the stack by one. -/
theorem balanced_items (t : Tree σ) {items : List (Item σ)} {ns : List Nat} {height : Nat}
    (h : Balanced items ns (height + 1)) :
    Balanced (t.items ++ items) (t.arities ++ ns) height := by
  cases t with
  | const x => exact h
  | var read => exact h
  | unary op t =>
    rw [Tree.items, arities, List.append_assoc]
    exact balanced_items t ⟨Nat.le_add_left _ _, h⟩
  | binary op l r =>
    rw [Tree.items, arities, List.append_assoc, List.append_assoc, List.append_assoc]
    exact balanced_items l (balanced_items r ⟨Nat.le_add_left _ _, h⟩)
  | call fn ts =>
    rw [Tree.items, arities, List.append_assoc, List.append_assoc]
    refine balanced_itemsAll ts ⟨Nat.le_add_left _ _, ?_⟩
    rw [Nat.add_sub_cancel]
    exact h

/-- The postorder of several trees raises the stack by their number. -/
theorem balanced_itemsAll (ts : List (Tree σ)) {items : List (Item σ)} {ns : List Nat}
    {height : Nat} (h : Balanced items ns (height + ts.length)) :
    Balanced (itemsAll ts ++ items) (aritiesAll ts ++ ns) height := by
  cases ts with
  | nil => exact h
  | cons t ts =>
    rw [itemsAll, aritiesAll, List.append_assoc, List.append_assoc]
    refine balanced_items t (balanced_itemsAll ts ?_)
    rw [Nat.add_assoc, Nat.add_comm 1]
    exact h

end

theorem balanced_postorder (t : Tree σ) : Balanced t.postorder.items t.postorder.arities 0 := by
  have h : Balanced ([] : List (Item σ)) [] (0 + 1) := ⟨rfl, rfl⟩
  have h' := balanced_items t h
  rw [List.append_nil, List.append_nil] at h'
  exact h'

end Tree

namespace Machine

/-- The condition on the items to come. -/
def IsBalanced (c : Machine σ) : Prop := Balanced c.items c.arities c.stack.length

theorem IsBalanced.ready {c : Machine σ} (h : c.IsBalanced) : c.Ready := by
  obtain ⟨items, ns, stack⟩ := c
  rcases items with - | ⟨item, items⟩
  · exact ⟨h.1, List.length_eq_one_iff.mp h.2⟩
  cases item with
  | const x => trivial
  | var read => trivial
  | unary op => exact h.1
  | binary op => exact h.1
  | fn call =>
    rcases ns with - | ⟨n, ns⟩
    · exact h.elim
    · exact ⟨n, ns, rfl, h.1⟩

/-- A turn keeps the balance, whatever the host answers. -/
theorem IsBalanced.step {c c' : Machine σ} (h : c.IsBalanced) (hstep : Step c c') :
    c'.IsBalanced := by
  cases hstep with
  | const => exact h
  | var x => exact h
  | unary => exact h.2
  | binary => exact h.2
  | fn x hn =>
    have h' := h.2
    rw [← List.length_drop] at h'
    exact h'

/-- A balanced machine stays ready. -/
theorem IsBalanced.ready_of_reaches {c c' : Machine σ} (h : c.IsBalanced) (hr : Reaches c c') :
    c'.Ready := by
  have hc' : c'.IsBalanced := by
    induction hr with
    | refl => exact h
    | tail _ hstep ih => exact ih.step hstep
  exact hc'.ready

/-- In every world a balanced machine runs to its end, or to a call that fails. -/
theorem IsBalanced.exists_runs {c : Machine σ} (h : c.IsBalanced) (w : σ) :
    (∃ x w', Runs (c, w) (⟨[], [], [x]⟩, w')) ∨
      ∃ c' call args w₁ e w', Runs (c, w) (c', w₁) ∧ c'.Calls call args ∧
        (call args).run.run w₁ = (.error e, w') := by
  -- every turn takes one item off
  generalize hlen : c.items.length = len
  induction len generalizing c w with
  | zero =>
    obtain ⟨items, ns, stack⟩ := c
    obtain rfl : items = [] := List.length_eq_zero_iff.mp hlen
    obtain ⟨hns, x, hx⟩ := h.ready
    obtain rfl : ns = [] := hns
    obtain rfl : stack = [x] := hx
    exact .inl ⟨x, w, .refl⟩
  | succ len ih =>
    have hne : c.items ≠ [] := by
      intro hnil
      rw [hnil] at hlen
      simp at hlen
    rcases exists_turn h.ready hne w with ⟨c₁, w₁, hturn⟩ | ⟨call, args, e, w', hcalls, hfails⟩
    · obtain ⟨item, hitems⟩ := hturn.step.items_eq
      have hlen' : c₁.items.length = len := by
        rw [hitems, List.length_cons] at hlen
        exact Nat.succ.inj hlen
      rcases ih (h.step hturn.step) w₁ hlen' with
        ⟨x, w', hr⟩ | ⟨c', call, args, w₂, e, w', hr, hcalls, hfails⟩
      · exact .inl ⟨x, w', .head hturn hr⟩
      · exact .inr ⟨c', call, args, w₂, e, w', .head hturn hr, hcalls, hfails⟩
    · exact .inr ⟨c, call, args, w, e, w', .refl, hcalls, hfails⟩

theorem Runs.reaches {a b : Machine σ × σ} (h : Runs a b) : Reaches a.1 b.1 :=
  h.lift Prod.fst fun _ _ hturn => hturn.step

/-- A run of a balanced machine goes to its end and gives the value found there, or it
comes to a call that fails in the world of that moment, and fails with it. -/
theorem exec_follows {c : Machine σ} (h : c.IsBalanced) (w : σ) :
    (∃ x w', c.exec.run.run w = (.ok x, w') ∧ Runs (c, w) (⟨[], [], [x]⟩, w')) ∨
      ∃ c' call args w₁ e w', Runs (c, w) (c', w₁) ∧ c'.Calls call args ∧
        (call args).run.run w₁ = (.error e, w') ∧ c.exec.run.run w = (.error e, w') := by
  rcases h.exists_runs w with ⟨x, w', hr⟩ | ⟨c', call, args, w₁, e, w', hr, hcalls, hfails⟩
  · exact .inl ⟨x, w', hr.exec_eq, hr⟩
  · exact .inr ⟨c', call, args, w₁, e, w', hr, hcalls, hfails,
      hr.exec_eq.trans (hcalls.exec_eq hfails)⟩

end Machine

/-! ### Formulas that run through -/

/-- The kind of the word that an item comes from. -/
def Item.kind : Item σ → Kind
  | .const _ => .const
  | .var _ => .var
  | .fn _ => .func
  | .unary _ => .sign
  | .binary _ => .binary

namespace Postfix

/-- A formula before its first turn. -/
def start (p : Postfix σ) : Machine σ := ⟨p.items, p.arities, []⟩

/-- A formula that can only fail when the host does.  No parenthesis and no comma is among
its items.  Whatever variables and calls answer, each item finds what it needs, and at the
end there is one value and no number of arguments is left over (`ready`).  In every world a
run ends with the value that the machine finds there, or it comes to a call that fails in
the world that the run has led to, and ends with the error of that call (`outcome`). -/
structure RunsThrough (p : Postfix σ) : Prop where
  kinds : ∀ item ∈ p.items, item.kind ∉ [Kind.start, .leftParen, .rightParen, .comma]
  ready : ∀ c, Machine.Reaches p.start c → c.Ready
  outcome : ∀ w : σ,
    (∃ x w', p.run.run.run w = (.ok x, w') ∧
      Machine.Runs (p.start, w) (⟨[], [], [x]⟩, w')) ∨
      ∃ c call args w₁ e w', Machine.Runs (p.start, w) (c, w₁) ∧ c.Calls call args ∧
        (call args).run.run w₁ = (.error e, w') ∧ p.run.run.run w = (.error e, w')

end Postfix

/-- The postorder of a tree runs through. -/
theorem Tree.runsThrough_postorder (t : Tree σ) : t.postorder.RunsThrough where
  kinds item _ := by cases item <;> simp [Item.kind]
  ready c hr := by
    have h : t.postorder.start.IsBalanced := balanced_postorder t
    exact h.ready_of_reaches hr
  outcome w := by
    have h : t.postorder.start.IsBalanced := balanced_postorder t
    exact Machine.exec_follows h w

end Formula
