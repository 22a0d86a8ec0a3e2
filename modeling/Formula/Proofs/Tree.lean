/-
Formula/Proofs/Tree.lean

Formulas as trees.

A tree says what a formula means without a stack: its operators hold their
operands and its calls hold their arguments.  Two readings of a tree are
compared everywhere else.

* `Tree.postorder` lists it in postorder, with the number of arguments of each
  call beside the items, in the order of the calls.
* `Tree.evaluate` computes it directly, from left to right.

`rebuild_postorder` reads the tree off its postorder again, so two trees with
the same postorder are the same tree (`postorder_injective`).
-/
import Formula.Postfix

namespace Formula

/-- A formula as a tree.  A variable is read when its turn comes. -/
inductive Tree (σ : Type) where
  | const (value : Float)
  | var (read : StateM σ Float)
  | unary (op : UnaryOp) (operand : Tree σ)
  | binary (op : BinaryOp) (left right : Tree σ)
  | call (fn : List Float → Eval σ Float) (args : List (Tree σ))

variable {σ : Type}

namespace Tree

/-! ### Postorder -/

mutual

/-- The items of a tree in postorder. -/
def items : Tree σ → List (Item σ)
  | .const x => [.const x]
  | .var read => [.var read]
  | .unary op t => t.items ++ [.unary op]
  | .binary op l r => l.items ++ r.items ++ [.binary op]
  | .call fn ts => itemsAll ts ++ [.fn fn]

/-- The items of several trees, one tree after another. -/
def itemsAll : List (Tree σ) → List (Item σ)
  | [] => []
  | t :: ts => t.items ++ itemsAll ts

end

mutual

/-- The numbers of arguments of the calls of a tree in postorder. -/
def arities : Tree σ → List Nat
  | .const _ => []
  | .var _ => []
  | .unary _ t => t.arities
  | .binary _ l r => l.arities ++ r.arities
  | .call _ ts => aritiesAll ts ++ [ts.length]

/-- The numbers of arguments of the calls of several trees. -/
def aritiesAll : List (Tree σ) → List Nat
  | [] => []
  | t :: ts => t.arities ++ aritiesAll ts

end

/-- A tree in postfix form. -/
def postorder (t : Tree σ) : Postfix σ := ⟨t.items, t.arities⟩

theorem itemsAll_eq_flatMap (ts : List (Tree σ)) : itemsAll ts = ts.flatMap items := by
  induction ts with
  | nil => rfl
  | cons t ts ih => rw [itemsAll, ih, List.flatMap_cons]

theorem aritiesAll_eq_flatMap (ts : List (Tree σ)) : aritiesAll ts = ts.flatMap arities := by
  induction ts with
  | nil => rfl
  | cons t ts ih => rw [aritiesAll, ih, List.flatMap_cons]

/-! ### Direct evaluation -/

mutual

/-- The value of a tree, its operands taken from left to right. -/
def evaluate : Tree σ → Eval σ Float
  | .const x => pure x
  | .var read => liftM read
  | .unary op t => do
    let x ← t.evaluate
    return op.apply x
  | .binary op l r => do
    let x ← l.evaluate
    let y ← r.evaluate
    return op.apply x y
  | .call fn ts => do
    let xs ← evaluateAll ts
    fn xs

/-- The values of several trees, taken from left to right. -/
def evaluateAll : List (Tree σ) → Eval σ (List Float)
  | [] => pure []
  | t :: ts => do
    let x ← t.evaluate
    let xs ← evaluateAll ts
    return x :: xs

end

end Tree

/-! ### From the postorder back to the tree -/

namespace Postfix

/-- The trees that items and numbers of arguments build on a stack of trees,
top first, if they are in order. -/
def rebuild : List (Item σ) → List Nat → List (Tree σ) → Option (List (Tree σ))
  | [], [], stack => some stack
  | .const x :: items, ns, stack => rebuild items ns (.const x :: stack)
  | .var read :: items, ns, stack => rebuild items ns (.var read :: stack)
  | .unary op :: items, ns, t :: stack => rebuild items ns (.unary op t :: stack)
  | .binary op :: items, ns, r :: l :: stack => rebuild items ns (.binary op l r :: stack)
  | .fn fn :: items, n :: ns, stack =>
    rebuild items ns (.call fn (stack.take n).reverse :: stack.drop n)
  | _, _, _ => none

end Postfix

namespace Tree

open Postfix

mutual

/-- The postorder of a tree builds the tree. -/
theorem rebuild_items (t : Tree σ) (items : List (Item σ)) (ns : List Nat)
    (stack : List (Tree σ)) :
    rebuild (t.items ++ items) (t.arities ++ ns) stack = rebuild items ns (t :: stack) := by
  cases t with
  | const x => rfl
  | var read => rfl
  | unary op t =>
    rw [Tree.items, arities, List.append_assoc, rebuild_items t]
    rfl
  | binary op l r =>
    rw [Tree.items, arities, List.append_assoc, List.append_assoc, List.append_assoc,
      rebuild_items l, rebuild_items r]
    rfl
  | call fn ts =>
    rw [Tree.items, arities, List.append_assoc, List.append_assoc, rebuild_itemsAll ts]
    have hlen : ts.length = ts.reverse.length := List.length_reverse.symm
    simp only [List.cons_append, List.nil_append, rebuild, hlen, List.take_left, List.drop_left,
      List.reverse_reverse]

/-- Trees one after another are built one above another. -/
theorem rebuild_itemsAll (ts : List (Tree σ)) (items : List (Item σ)) (ns : List Nat)
    (stack : List (Tree σ)) :
    rebuild (itemsAll ts ++ items) (aritiesAll ts ++ ns) stack
      = rebuild items ns (ts.reverse ++ stack) := by
  cases ts with
  | nil => rfl
  | cons t ts =>
    rw [itemsAll, aritiesAll, List.append_assoc, List.append_assoc, rebuild_items t,
      rebuild_itemsAll ts, List.reverse_cons, List.append_assoc]
    rfl

end

theorem rebuild_postorder (t : Tree σ) :
    rebuild t.postorder.items t.postorder.arities [] = some [t] := by
  have h := rebuild_items t [] [] []
  rw [List.append_nil, List.append_nil] at h
  exact h

/-- A tree is determined by its postorder. -/
theorem postorder_injective : Function.Injective (postorder (σ := σ)) := by
  intro t t' h
  have ht := rebuild_postorder t
  rw [h, rebuild_postorder t'] at ht
  simpa using ht.symm

end Tree

end Formula
