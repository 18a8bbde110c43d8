import Mathlib.Data.ZMod.Basic

/- Sorted lists of closed ranges. The elements of a list are ranges `lo e .. hi e` of numbers,
   each behind the one before it; `Sorted b l` says that besides all of them start at `b` or
   later, and `reach b l` is the first number behind them. With both, what a list says of its
   parts is an equivalence (`sorted_append`), so a part can be exchanged for another that
   reaches no further (`Sorted.exchange`).

   `find l x` is the element that holds a number. It is found in the parts separately
   (`find_append`), and in a sorted list it is the only one (`Sorted.find_of_mem`). -/
namespace Ranges

open List

variable {ε : Type} (lo hi : ε → Nat)

def Sorted : Nat → List ε → Prop
  | _, [] => True
  | b, e :: l => b ≤ lo e ∧ lo e ≤ hi e ∧ Sorted (hi e + 1) l

def reach : Nat → List ε → Nat
  | b, [] => b
  | _, e :: l => reach (hi e + 1) l

/-- The number lies in the range. -/
def Holds (e : ε) (x : Nat) : Prop := lo e ≤ x ∧ x ≤ hi e

instance (e : ε) (x : Nat) : Decidable (Holds lo hi e x) := inferInstanceAs (Decidable (_ ∧ _))

def find (l : List ε) (x : Nat) : Option ε := l.find? fun e => Holds lo hi e x

instance Sorted.decidable : ∀ (b : Nat) (l : List ε), Decidable (Sorted lo hi b l)
  | _, [] => isTrue trivial
  | b, e :: l =>
    have := Sorted.decidable (hi e + 1) l
    inferInstanceAs (Decidable (b ≤ lo e ∧ lo e ≤ hi e ∧ Sorted lo hi (hi e + 1) l))

variable {lo hi} {b c : Nat} {l l' pre mid mid' post : List ε} {e : ε} {x : Nat}

theorem sorted_append :
    Sorted lo hi b (l ++ l') ↔ Sorted lo hi b l ∧ Sorted lo hi (reach hi b l) l' := by
  induction l generalizing b with
  | nil => exact (and_iff_right trivial).symm
  | cons e l ih => simp only [cons_append, Sorted, ih, reach, and_assoc]

theorem Sorted.mono (h : Sorted lo hi b l) (hbc : c ≤ b) : Sorted lo hi c l := by
  cases l with
  | nil => trivial
  | cons e l => exact ⟨hbc.trans h.1, h.2⟩

theorem Sorted.le_reach (h : Sorted lo hi b l) : b ≤ reach hi b l := by
  induction l generalizing b with
  | nil => exact Nat.le_refl b
  | cons e l ih =>
    obtain ⟨h1, h2, h3⟩ := h
    exact Nat.le_trans (by omega) (ih h3)

theorem Sorted.bounds (h : Sorted lo hi b l) (he : e ∈ l) : b ≤ lo e ∧ lo e ≤ hi e ∧ hi e < reach hi b l := by
  induction l generalizing b with
  | nil => exact absurd he not_mem_nil
  | cons f l ih =>
    obtain ⟨h1, h2, h3⟩ := h
    rcases mem_cons.mp he with rfl | he
    · exact ⟨h1, h2, h3.le_reach⟩
    · have hb := ih h3 he
      exact ⟨by omega, hb.2⟩

theorem reach_le (hb : b ≤ x) (h : ∀ e ∈ l, hi e < x) : reach hi b l ≤ x := by
  induction l generalizing b with
  | nil => exact hb
  | cons e l ih => exact ih (h e mem_cons_self) fun f hf => h f (.tail _ hf)

theorem Sorted.raise (h : Sorted lo hi b l) (hc : ∀ e ∈ l, c ≤ lo e) : Sorted lo hi c l := by
  cases l with
  | nil => trivial
  | cons e l => exact ⟨hc e mem_cons_self, h.2⟩

theorem Sorted.sublist (h : Sorted lo hi b l) (hsub : List.Sublist l' l) : Sorted lo hi b l' := by
  induction hsub generalizing b with
  | slnil => trivial
  | cons e _ ih =>
    obtain ⟨h1, h2, h3⟩ := h
    exact (ih h3).mono (by omega)
  | cons_cons e _ ih => exact ⟨h.1, h.2.1, ih h.2.2⟩

theorem Sorted.exchange (h : Sorted lo hi b (pre ++ (mid ++ post)))
    (hmid : Sorted lo hi (reach hi b pre) mid')
    (hreach : reach hi (reach hi b pre) mid' ≤ reach hi (reach hi b pre) mid) :
    Sorted lo hi b (pre ++ (mid' ++ post)) := by
  obtain ⟨hpre, hrest⟩ := sorted_append.mp h
  obtain ⟨_, hpost⟩ := sorted_append.mp hrest
  exact sorted_append.mpr ⟨hpre, sorted_append.mpr ⟨hmid, hpost.mono hreach⟩⟩

theorem find_cons :
    find lo hi (e :: l) x = if Holds lo hi e x then some e else find lo hi l x := by
  unfold find
  by_cases hx : Holds lo hi e x
  · rw [find?_cons_of_pos (by simpa using hx), if_pos hx]
  · rw [find?_cons_of_neg (by simpa using hx), if_neg hx]

theorem find_append : find lo hi (l ++ l') x = (find lo hi l x).or (find lo hi l' x) := find?_append

theorem find_some (h : find lo hi l x = some e) : e ∈ l ∧ Holds lo hi e x := by
  have hx := find?_some h
  exact ⟨mem_of_find?_eq_some h, of_decide_eq_true hx⟩

theorem find_eq_none : find lo hi l x = none ↔ ∀ e ∈ l, ¬ Holds lo hi e x := by
  simp [find]

theorem Sorted.find_of_mem (h : Sorted lo hi b l) (he : e ∈ l) (hx : Holds lo hi e x) : find lo hi l x = some e := by
  induction l generalizing b with
  | nil => exact absurd he not_mem_nil
  | cons f l ih =>
    obtain ⟨h1, h2, h3⟩ := h
    rw [find_cons]
    rcases mem_cons.mp he with rfl | he
    · exact if_pos hx
    · have hlo := (h3.bounds he).1
      have hoff : ¬ Holds lo hi f x := fun hf => by
        have := hf.2
        have := hx.1
        omega
      exact (if_neg hoff).trans (ih h3 he)

end Ranges
