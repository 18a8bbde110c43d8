import Mathlib.Data.ZMod.Basic

/- Postconditions of calls that may not come back. A call is an `Option`, with `none` for one
   that crashes or never ends. `Ends r P` is partial correctness: what the call returns, if it
   returns, meets `P`; `Returns r P` is total correctness. The rules follow the statements of a
   `do` block. -/
namespace Call

variable {α β : Type} {r : Option α} {P Q : α → Prop} {f : α → Option β} {R : β → Prop}

/-- What the call returns, if it returns, meets the condition. -/
def Ends (r : Option α) (P : α → Prop) : Prop := ∀ x, r = some x → P x

namespace Ends

theorem done {x : α} (h : P x) : Ends (some x) P := by
  intro y hy
  cases hy
  exact h

theorem fails : Ends none P := nofun

theorem mono (h : Ends r P) (hPQ : ∀ x, P x → Q x) : Ends r Q := fun x hx => hPQ x (h x hx)

theorem seq (hf : ∀ x, r = some x → Ends (f x) R) : Ends (r >>= f) R := by
  intro y hy
  obtain ⟨x, hx, hfx⟩ := Option.bind_eq_some_iff.mp hy
  exact hf x hx y hfx

theorem bind (h : Ends r P) (hf : ∀ x, P x → Ends (f x) R) : Ends (r >>= f) R :=
  seq fun x hx => hf x (h x hx)

theorem map {g : α → β} (h : Ends r fun x => R (g x)) : Ends (r.map g) R := by
  intro y hy
  obtain ⟨x, hx, rfl⟩ := Option.map_eq_some_iff.mp hy
  exact h x hx

theorem guard {p : Prop} [Decidable p] {x : α} (hx : P x) (h : p → Ends r P) : Ends (if p then r else some x) P := by
  split
  · exact h ‹p›
  · exact done hx

end Ends

/-- The call returns, and what it returns meets the condition. -/
def Returns (r : Option α) (P : α → Prop) : Prop := ∃ x, r = some x ∧ P x

namespace Returns

theorem done {x : α} (h : P x) : Returns (some x) P := ⟨x, rfl, h⟩

theorem mono (h : Returns r P) (hPQ : ∀ x, P x → Q x) : Returns r Q := by
  obtain ⟨x, hx, hP⟩ := h
  exact ⟨x, hx, hPQ x hP⟩

theorem bind (h : Returns r P) (hf : ∀ x, P x → Returns (f x) R) : Returns (r >>= f) R := by
  obtain ⟨x, rfl, hP⟩ := h
  exact hf x hP

theorem map {g : α → β} (h : Returns r fun x => R (g x)) : Returns (r.map g) R := by
  obtain ⟨x, rfl, hR⟩ := h
  exact ⟨g x, rfl, hR⟩

end Returns

end Call
