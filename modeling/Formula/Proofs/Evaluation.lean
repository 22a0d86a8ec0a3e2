/-
Formula/Proofs/Evaluation.lean

Running the postorder of a tree is evaluating the tree.

`exec_items` is the central equation.  In front of any items, above any stack
and before any numbers of arguments, the postorder of a tree does what its
evaluation does and pushes the value.  It is an equation between steps of the
host's world, so it covers every variable and every function at once, whatever
they look at, change or fail with.

What is asked of the host is made visible by watching it.  A watched world
carries a record of the requests, the latest first, and a watched formula adds
to it each variable that it reads, with the number found, and each function
that it calls, with the arguments and the outcome.  Watching changes no value
and no world, and the record ends at the first call that fails
(`Watches`).  `run_postorder_watched` puts the two together.
-/
import Formula.Proofs.Tree

namespace Formula

variable {σ : Type}

/-! ### Steps of a world that may fail -/

namespace Eval

variable {α β : Type} {m : Eval σ α} {w w₁ : σ}

/-- A step of the world alone always gives a value. -/
theorem run_lift (m : StateM σ α) (w : σ) :
    (liftM m : Eval σ α).run.run w = (.ok (m.run w).1, (m.run w).2) :=
  rfl

theorem run_bind_ok {a : α} (h : m.run.run w = (.ok a, w₁)) (k : α → Eval σ β) :
    (m >>= k).run.run w = (k a).run.run w₁ := by
  have hm : m w = (.ok a, w₁) := h
  show ExceptT.bind m k w = k a w₁
  simp only [ExceptT.bind, ExceptT.mk, bind, StateT.bind, hm, ExceptT.bindCont]

theorem run_bind_error {e : Error} (h : m.run.run w = (.error e, w₁)) (k : α → Eval σ β) :
    (m >>= k).run.run w = (.error e, w₁) := by
  have hm : m w = (.error e, w₁) := h
  show ExceptT.bind m k w = (.error e, w₁)
  simp only [ExceptT.bind, ExceptT.mk, bind, StateT.bind, hm, ExceptT.bindCont]
  rfl

end Eval

namespace Tree

open Postfix

/-! ### The postorder is run like the tree -/

/-- Several trees have as many values as they are, so what follows their
evaluation is only asked about lists of that length. -/
theorem evaluateAll_bind_congr {α : Type} (ts : List (Tree σ)) {k k' : List Float → Eval σ α}
    (h : ∀ xs, xs.length = ts.length → k xs = k' xs) :
    evaluateAll ts >>= k = evaluateAll ts >>= k' := by
  induction ts generalizing k k' with
  | nil =>
    rw [evaluateAll, pure_bind, pure_bind]
    exact h [] rfl
  | cons t ts ih =>
    rw [evaluateAll, bind_assoc, bind_assoc]
    refine congrArg _ (funext fun x => ?_)
    simp only [bind_assoc, pure_bind]
    refine ih fun xs hxs => h (x :: xs) ?_
    rw [List.length_cons, List.length_cons, hxs]

mutual

/-- The postorder of a tree pushes the value of the tree. -/
theorem exec_items (t : Tree σ) (items : List (Item σ)) (ns : List Nat) (stack : List Float) :
    exec (t.items ++ items) (t.arities ++ ns) stack
      = t.evaluate >>= fun x => exec items ns (x :: stack) := by
  cases t with
  | const x =>
    rw [evaluate, pure_bind]
    rfl
  | var read => rfl
  | unary op t =>
    rw [Tree.items, arities, List.append_assoc, exec_items t, evaluate, bind_assoc]
    simp only [List.cons_append, List.nil_append, exec, pure_bind]
  | binary op l r =>
    rw [Tree.items, arities, List.append_assoc, List.append_assoc, List.append_assoc,
      exec_items l, evaluate, bind_assoc]
    refine congrArg _ (funext fun x => ?_)
    rw [exec_items r, bind_assoc]
    simp only [List.cons_append, List.nil_append, exec, pure_bind]
  | call fn ts =>
    rw [Tree.items, arities, List.append_assoc, List.append_assoc, exec_itemsAll ts, evaluate,
      bind_assoc]
    refine evaluateAll_bind_congr ts fun xs hxs => ?_
    -- the arguments lie on the stack the last one first, above what was there
    have hlen : ts.length = xs.reverse.length := by rw [List.length_reverse, hxs]
    have hle : xs.reverse.length ≤ (xs.reverse ++ stack).length := by
      rw [List.length_append]
      exact Nat.le_add_right _ _
    simp only [List.cons_append, List.nil_append, exec, hlen, if_pos hle, List.take_left,
      List.drop_left, List.reverse_reverse]

/-- Trees one after another push their values one above another. -/
theorem exec_itemsAll (ts : List (Tree σ)) (items : List (Item σ)) (ns : List Nat)
    (stack : List Float) :
    exec (itemsAll ts ++ items) (aritiesAll ts ++ ns) stack
      = evaluateAll ts >>= fun xs => exec items ns (xs.reverse ++ stack) := by
  cases ts with
  | nil => simp only [itemsAll, aritiesAll, evaluateAll, List.nil_append, pure_bind,
      List.reverse_nil]
  | cons t ts =>
    rw [itemsAll, aritiesAll, List.append_assoc, List.append_assoc, exec_items t, evaluateAll,
      bind_assoc]
    refine congrArg _ (funext fun x => ?_)
    rw [exec_itemsAll ts, bind_assoc]
    simp only [pure_bind, List.reverse_cons, List.append_assoc, List.cons_append, List.nil_append]

end

/-- Running the postorder of a tree is evaluating the tree. -/
theorem run_postorder (t : Tree σ) : t.postorder.run = t.evaluate := by
  have h := exec_items t [] [] []
  rw [List.append_nil, List.append_nil] at h
  refine h.trans ?_
  simp only [exec, bind_pure]

end Tree

/-! ### Watching the host -/

/-- Something that a formula asked of its host, and the answer. -/
inductive Request (σ : Type) where
  | read (read : StateM σ Float) (value : Float)
  | call (fn : List Float → Eval σ Float) (args : List Float) (outcome : Except Error Float)

/-- Whether the host did what it was asked for. -/
def Request.Granted : Request σ → Prop
  | .read _ _ => True
  | .call _ _ (.ok _) => True
  | .call _ _ (.error _) => False

/-- A world with the record of the requests made in it, the latest first. -/
abbrev Watched (σ : Type) := σ × List (Request σ)

namespace Watched

/-- Reads a variable and notes the number. -/
def read (read : StateM σ Float) : StateM (Watched σ) Float := fun v =>
  let (x, w) := read.run v.1
  (x, w, .read read x :: v.2)

/-- Calls a function and notes the outcome. -/
def call (fn : List Float → Eval σ Float) (args : List Float) : Eval (Watched σ) Float :=
  ExceptT.mk fun v =>
    let (outcome, w) := (fn args).run.run v.1
    (outcome, w, .call fn args outcome :: v.2)

end Watched

/-- An item whose requests are noted. -/
def Item.watched : Item σ → Item (Watched σ)
  | .const x => .const x
  | .var read => .var (Watched.read read)
  | .fn call => .fn (Watched.call call)
  | .unary op => .unary op
  | .binary op => .binary op

/-- A formula in postfix form whose requests are noted. -/
def Postfix.watched (p : Postfix σ) : Postfix (Watched σ) := ⟨p.items.map Item.watched, p.arities⟩

namespace Tree

mutual

/-- A tree whose requests are noted. -/
def watched : Tree σ → Tree (Watched σ)
  | .const x => .const x
  | .var read => .var (Watched.read read)
  | .unary op t => .unary op t.watched
  | .binary op l r => .binary op l.watched r.watched
  | .call fn ts => .call (Watched.call fn) (watchedAll ts)

/-- Several trees whose requests are noted. -/
def watchedAll : List (Tree σ) → List (Tree (Watched σ))
  | [] => []
  | t :: ts => t.watched :: watchedAll ts

end

theorem length_watchedAll (ts : List (Tree σ)) : (watchedAll ts).length = ts.length := by
  induction ts with
  | nil => rfl
  | cons t ts ih => rw [watchedAll, List.length_cons, ih, List.length_cons]

mutual

theorem items_watched (t : Tree σ) : t.watched.items = t.items.map Item.watched := by
  cases t with
  | const x => rfl
  | var read => rfl
  | unary op t =>
    rw [watched, Tree.items, Tree.items, items_watched t, List.map_append]
    rfl
  | binary op l r =>
    rw [watched, Tree.items, Tree.items, items_watched l, items_watched r, List.map_append,
      List.map_append]
    rfl
  | call fn ts =>
    rw [watched, Tree.items, Tree.items, itemsAll_watchedAll ts, List.map_append]
    rfl

theorem itemsAll_watchedAll (ts : List (Tree σ)) :
    itemsAll (watchedAll ts) = (itemsAll ts).map Item.watched := by
  cases ts with
  | nil => rfl
  | cons t ts =>
    rw [watchedAll, itemsAll, itemsAll, items_watched t, itemsAll_watchedAll ts, List.map_append]

end

mutual

theorem arities_watched (t : Tree σ) : t.watched.arities = t.arities := by
  cases t with
  | const x => rfl
  | var read => rfl
  | unary op t => rw [watched, arities, arities, arities_watched t]
  | binary op l r => rw [watched, arities, arities, arities_watched l, arities_watched r]
  | call fn ts =>
    rw [watched, arities, arities, aritiesAll_watchedAll ts, length_watchedAll]

theorem aritiesAll_watchedAll (ts : List (Tree σ)) :
    aritiesAll (watchedAll ts) = aritiesAll ts := by
  cases ts with
  | nil => rfl
  | cons t ts =>
    rw [watchedAll, aritiesAll, aritiesAll, arities_watched t, aritiesAll_watchedAll ts]

end

/-- Watching a tree watches its postorder. -/
theorem postorder_watched (t : Tree σ) : t.watched.postorder = t.postorder.watched := by
  rw [postorder, items_watched, arities_watched]
  rfl

end Tree

/-! ### The record of an evaluation -/

/-- A record that goes with an outcome: every request was granted, except
that the latest one of a failed evaluation is the call that failed, with the
same error. -/
def EndsAtFailure {α : Type} : Except Error α → List (Request σ) → Prop
  | .ok _, log => ∀ q ∈ log, q.Granted
  | .error e, log => ∃ fn args earlier, log = .call fn args (.error e) :: earlier ∧
      ∀ q ∈ earlier, q.Granted

/-- Granted requests may have come before. -/
theorem EndsAtFailure.append {α : Type} {outcome : Except Error α} {new log : List (Request σ)}
    (h : EndsAtFailure outcome new) (hlog : ∀ q ∈ log, q.Granted) :
    EndsAtFailure outcome (new ++ log) := by
  cases outcome with
  | ok a =>
    intro q hq
    rcases List.mem_append.mp hq with hq | hq
    · exact h q hq
    · exact hlog q hq
  | error e =>
    obtain ⟨fn, args, earlier, rfl, hearlier⟩ := h
    refine ⟨fn, args, earlier ++ log, rfl, fun q hq => ?_⟩
    rcases List.mem_append.mp hq with hq | hq
    · exact hearlier q hq
    · exact hlog q hq

/-- A computation that does what another one does and notes its requests. -/
def Watches {α : Type} (m' : Eval (Watched σ) α) (m : Eval σ α) : Prop :=
  ∀ w log, ∃ new, m'.run.run (w, log) = ((m.run.run w).1, (m.run.run w).2, new ++ log) ∧
    EndsAtFailure (m.run.run w).1 new

namespace Watches

theorem pure {α : Type} (a : α) :
    Watches (Pure.pure a : Eval (Watched σ) α) (Pure.pure a : Eval σ α) := by
  intro w log
  refine ⟨[], rfl, ?_⟩
  show ∀ q ∈ ([] : List (Request σ)), q.Granted
  simp

theorem bind {α β : Type} {m' : Eval (Watched σ) α} {m : Eval σ α}
    {k' : α → Eval (Watched σ) β} {k : α → Eval σ β} (hm : Watches m' m)
    (hk : ∀ a, Watches (k' a) (k a)) : Watches (m' >>= k') (m >>= k) := by
  intro w log
  obtain ⟨new, hrun, hend⟩ := hm w log
  rcases h : m.run.run w with ⟨e | a, w₁⟩
  · -- the continuation is not run on either side
    rw [h] at hrun hend
    have hbind := Eval.run_bind_error h k
    refine ⟨new, ?_, ?_⟩
    · rw [Eval.run_bind_error hrun, hbind]
    · rw [hbind]
      exact hend
  · rw [h] at hrun hend
    obtain ⟨new', hrun', hend'⟩ := hk a w₁ (new ++ log)
    have hbind := Eval.run_bind_ok h k
    refine ⟨new' ++ new, ?_, ?_⟩
    · rw [Eval.run_bind_ok hrun, hbind, hrun', List.append_assoc]
    · rw [hbind]
      exact hend'.append hend

theorem read (read : StateM σ Float) :
    Watches (liftM (Watched.read read)) (liftM read : Eval σ Float) := by
  intro w log
  refine ⟨[.read read (read.run w).1], rfl, ?_⟩
  show ∀ q ∈ [Request.read read (read.run w).1], q.Granted
  simp [Request.Granted]

theorem call (fn : List Float → Eval σ Float) (args : List Float) :
    Watches (Watched.call fn args) (fn args) := by
  intro w log
  refine ⟨[.call fn args ((fn args).run.run w).1], rfl, ?_⟩
  rcases h : ((fn args).run.run w).1 with e | x
  · exact ⟨fn, args, [], rfl, by simp⟩
  · simp [EndsAtFailure, Request.Granted]

end Watches

namespace Tree

mutual

/-- The evaluation of a watched tree is the evaluation of the tree, watched. -/
theorem watches_evaluate (t : Tree σ) : Watches t.watched.evaluate t.evaluate := by
  cases t with
  | const x => exact .pure x
  | var read => exact .read read
  | unary op t => exact (watches_evaluate t).bind fun x => .pure _
  | binary op l r =>
    exact (watches_evaluate l).bind fun x => (watches_evaluate r).bind fun y => .pure _
  | call fn ts => exact (watches_evaluateAll ts).bind fun xs => .call fn xs

theorem watches_evaluateAll (ts : List (Tree σ)) :
    Watches (evaluateAll (watchedAll ts)) (evaluateAll ts) := by
  cases ts with
  | nil => exact .pure []
  | cons t ts =>
    exact (watches_evaluate t).bind fun x => (watches_evaluateAll ts).bind fun xs => .pure _

end

/-- Running the postorder of a tree and evaluating the tree give the same
outcome, leave the same world and make the same requests in the same order;
after the first call that fails nothing is asked for, and its error is the
outcome. -/
theorem run_postorder_watched (t : Tree σ) (w : σ) :
    ∃ (outcome : Except Error Float) (w' : σ) (log : List (Request σ)),
      t.postorder.run.run.run w = (outcome, w') ∧ t.evaluate.run.run w = (outcome, w') ∧
      t.postorder.watched.run.run.run (w, []) = (outcome, w', log) ∧
      t.watched.evaluate.run.run (w, []) = (outcome, w', log) ∧ EndsAtFailure outcome log := by
  obtain ⟨log, hlog, hend⟩ := watches_evaluate t w []
  rw [List.append_nil] at hlog
  refine ⟨(t.evaluate.run.run w).1, (t.evaluate.run.run w).2, log, ?_, rfl, ?_, hlog, hend⟩
  · rw [run_postorder]
    rfl
  · rw [← postorder_watched, run_postorder]
    exact hlog

end Tree

end Formula
