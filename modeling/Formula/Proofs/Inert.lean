/-
Formula/Proofs/Inert.lean

Symbols that leave the world alone.

A formula does to the world what its symbols do.  Where none of the symbols of a
context changes the world, no turn of the machine does (`Machine.Turn.world_eq`), so
no evaluation does, whether it succeeds or fails (`Context.Inert.evaluate_world`).
The standard symbols change nothing (`Context.inert_register`), and neither does
reading a cell (`Symbol.inert_read`).
-/
import Formula.Cells
import Formula.Standard
import Formula.Proofs.Placing
import Formula.Proofs.Table

namespace Formula

variable {σ : Type}

/-- Neither reading nor calling the symbol changes the world. -/
def Symbol.Inert : Symbol σ → Prop
  | .const _ => True
  | .var read => ∀ w, (read.run w).2 = w
  | .fn call => ∀ args w, ((call args).run.run w).2 = w

theorem Symbol.inert_const (x : Float) : (Symbol.const x : Symbol σ).Inert := trivial

theorem Symbol.inert_read (cell : String) : (Symbol.var (Cells.read cell)).Inert :=
  fun _ => rfl

namespace Context

variable {C D : Context σ}

/-- No symbol of the context changes the world. -/
def Inert (C : Context σ) : Prop := ∀ word s, C.find? word = some s → s.Inert

theorem inert_empty (F : Features) : (empty F : Context σ).Inert :=
  fun _ _ h => absurd h nofun

theorem Inert.add (hC : C.Inert) {name : Bytes} {s : Symbol σ} (hs : s.Inert)
    (h : C.add name s = .ok D) : D.Inert := by
  intro word s' hfind
  rw [find?_of_add h] at hfind
  split at hfind
  · obtain rfl := Option.some.inj hfind
    exact hs
  · exact hC word s' hfind

end Context

/-! ### Evaluating -/

namespace Machine

variable {C : Context σ}

/-- A turn leaves the world alone. -/
theorem Turn.world_eq (hC : C.Inert) {c c' : Machine σ} {w w' : σ}
    (hitems : ∀ x ∈ c.items, C.Supplies x) (h : Turn (c, w) (c', w')) : w' = w := by
  cases h with
  | const | unary | binary => rfl
  | @var read items ns stack w =>
    obtain ⟨word, hfind⟩ := hitems (.var read) List.mem_cons_self
    exact hC word _ hfind w
  | @fn call items n ns stack x w w' hn hcall =>
    obtain ⟨word, hfind⟩ := hitems (.fn call) List.mem_cons_self
    have hworld := hC word _ hfind (stack.take n).reverse w
    rw [hcall] at hworld
    exact hworld

theorem Runs.world_eq (hC : C.Inert) {a b : Machine σ × σ} (hitems : ∀ x ∈ a.1.items, C.Supplies x)
    (h : Runs a b) : b.2 = a.2 := by
  induction h with
  | refl => rfl
  | tail hruns hturn ih =>
    rw [← ih]
    exact hturn.world_eq hC fun x hx => hitems x ((Runs.reaches hruns).suffix.subset hx)

end Machine

namespace Context

variable {C : Context σ}

/-- An evaluation leaves the world alone. -/
theorem Inert.evaluate_world (hC : C.Inert) (text : Bytes) (w : σ) :
    ((C.evaluate text).run.run w).2 = w := by
  cases hp : C.compile text with
  | error e =>
    rw [evaluate, hp]
    rfl
  | ok p =>
    have hitems := supplies_of_compile hp
    rw [evaluate_of_compile hp]
    rcases exists_runs_of_compile hp w with
      ⟨x, w', hruns⟩ | ⟨c, call, args, w₁, e, w', hruns, hcalls, hfails, word, hfind⟩
    · rw [hruns.exec_eq]
      exact hruns.world_eq hC hitems
    · -- the call that fails is the last that could change the world
      have hcall := hC word _ hfind args w₁
      rw [hfails] at hcall
      rw [hruns.exec_eq, hcalls.exec_eq hfails]
      exact hcall.trans (hruns.world_eq hC hitems)

end Context

/-! ### The standard symbols -/

namespace Standard

theorem inert_unary (f : Float → Float) : (unary f : Symbol σ).Inert := by
  intro args w
  rcases args with - | ⟨x, - | ⟨y, args⟩⟩ <;> rfl

theorem inert_variadic (f : List Float → Float) : (variadic f : Symbol σ).Inert := by
  intro args w
  cases args <;> rfl

theorem inert_symbols : ∀ entry ∈ (symbols : List (String × Symbol σ)), entry.2.Inert := by
  simp [symbols, inert_unary, inert_variadic, Symbol.inert_const]

end Standard

namespace Context

theorem Inert.addAll {C : Context σ} (hC : C.Inert) {entries : List (String × Symbol σ)}
    (h : ∀ entry ∈ entries, entry.2.Inert) : (C.addAll entries).1.Inert := by
  induction entries generalizing C with
  | nil => exact hC
  | cons entry entries ih =>
    obtain ⟨name, s⟩ := entry
    obtain ⟨hs, hrest⟩ := List.forall_mem_cons.mp h
    rw [Context.addAll]
    cases hadd : C.add (Bytes.ofString name) s with
    | ok D => exact ih (hC.add hs hadd) hrest
    | error e => exact hC

theorem inert_register {C : Context σ} (hC : C.Inert) : C.register.1.Inert :=
  hC.addAll Standard.inert_symbols

end Context

end Formula
