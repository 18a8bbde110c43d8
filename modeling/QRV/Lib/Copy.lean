import Mathlib.Data.ZMod.Basic

/- Copying along lists of addresses, one element after the other, over any type of
   addresses and contents.

   `moves l m` makes the moves of `l`, pairs of a destination and a source, in order.
   Where no destination is a source, the moved elements are the old ones
   (`moves_get`), moves may be made again (`moves_again`), and a copy that was stopped
   may go on from any place it had passed (`moves_resume`). -/
namespace Copy

open List
open Function (update_of_ne update_self)

variable {α β : Type} [DecidableEq α]

/-- The moves of `l`, in order. -/
def moves : List (α × α) → (α → β) → α → β
  | [], m => m
  | p :: l, m => moves l (Function.update m p.1 (m p.2))

/-- No destination is a source. -/
def Apart (l : List (α × α)) : Prop := ∀ a ∈ l.map Prod.fst, a ∉ l.map Prod.snd

variable {l l1 l2 : List (α × α)}

omit [DecidableEq α] in
theorem Apart.sublist (h : Apart l) (hs : l1.Sublist l) : Apart l1 := fun a ha h1 =>
  h a ((hs.map Prod.fst).subset ha) ((hs.map Prod.snd).subset h1)

theorem moves_append (l1 l2 : List (α × α)) (m : α → β) : moves (l1 ++ l2) m = moves l2 (moves l1 m) := by
  induction l1 generalizing m with
  | nil => rfl
  | cons p l1 ih => exact ih _

theorem moves_off {a : α} (h : a ∉ l.map Prod.fst) (m : α → β) : moves l m a = m a := by
  induction l generalizing m with
  | nil => rfl
  | cons p l ih =>
    rw [map_cons, mem_cons, not_or] at h
    rw [moves, ih h.2, update_of_ne h.1]

/-- Where no destination is a source, a destination gets what the last source that was
moved to it held. -/
theorem moves_last {p : α × α} (h : Apart (l1 ++ p :: l2)) (hp : p.1 ∉ l2.map Prod.fst) (m : α → β) :
    moves (l1 ++ p :: l2) m p.1 = m p.2 := by
  have hsrc : p.2 ∉ l1.map Prod.fst := by
    intro h1
    refine h p.2 ?_ (by simp)
    rw [map_append]
    exact mem_append_left _ h1
  rw [moves_append, moves, moves_off hp, update_self, moves_off hsrc]

/-- Where the destinations are distinct and none is a source, the destinations receive what
the sources held. -/
theorem moves_get (hd : (l.map Prod.fst).Nodup) (h : Apart l) {p : α × α} (hp : p ∈ l) (m : α → β) : moves l m p.1 = m p.2 := by
  obtain ⟨l1, l2, rfl⟩ := append_of_mem hp
  refine moves_last h ?_ m
  rw [map_append, map_cons] at hd
  exact (nodup_cons.mp (nodup_append.mp hd).2.1).1

/-- Two memories that agree off the destinations agree after the moves, if they agree on
the sources. -/
theorem moves_congr {m1 m2 : α → β} (hs : ∀ a ∈ l.map Prod.snd, m1 a = m2 a)
    (hoff : ∀ a, a ∉ l.map Prod.fst → m1 a = m2 a) : moves l m1 = moves l m2 := by
  induction l generalizing m1 m2 with
  | nil =>
    funext a
    exact hoff a (by simp)
  | cons p l ih =>
    apply ih
    · intro a ha
      by_cases hap : a = p.1
      · rw [hap, update_self, update_self]
        exact hs _ (by simp)
      · rw [update_of_ne hap, update_of_ne hap]
        exact hs a (by simp [ha])
    · intro a ha
      by_cases hap : a = p.1
      · rw [hap, update_self, update_self]
        exact hs _ (by simp)
      · rw [update_of_ne hap, update_of_ne hap]
        exact hoff a (by simp [hap, ha])

/-- Where no destination is a source, moves that were interrupted may be made again from
the start. -/
theorem moves_again (h : Apart l) (k : Nat) (m : α → β) :
    moves l (moves (l.take k) m) = moves l m := by
  have hsub : ∀ a ∈ (l.take k).map Prod.fst, a ∈ l.map Prod.fst := by
    intro a ha
    obtain ⟨p, hp, rfl⟩ := mem_map.mp ha
    exact mem_map_of_mem (mem_of_mem_take hp)
  refine moves_congr (fun a ha => ?_) fun a ha => ?_
  · exact moves_off (fun h1 => h a (hsub a h1) ha) m
  · exact moves_off (fun h1 => ha (hsub a h1)) m

/-- A copy that has made the moves up to `i` may go on from an earlier place `k`. -/
theorem moves_resume {k i : Nat} (hki : k ≤ i) (h : k < i → Apart (l.drop k)) (m : α → β) :
    moves (l.drop k) (moves (l.take i) m) = moves l m := by
  have hall : moves (l.drop k) (moves (l.take k) m) = moves l m := by
    rw [← moves_append, take_append_drop]
  cases Nat.lt_or_eq_of_le hki with
  | inr he => rw [← he, hall]
  | inl hlt =>
    have hi : l.take i = l.take k ++ (l.drop k).take (i - k) := by
      rw [← take_add, Nat.add_sub_cancel' hki]
    rw [hi, moves_append, moves_again (h hlt), hall]

end Copy
