import Mathlib.Data.ZMod.Basic

/- The stable priority queue over any type with a key in ℕ: larger keys first,
   and equal keys in the order they came. `Orders key q hist` says that `q` is
   the history `hist` (what came and has not left, oldest first) in that order:
   `q` is sorted, and on every key it is the history restricted to the key. -/
namespace StableQueue

open List

variable {α : Type} (key : α → Nat)

/-- Larger keys first. -/
def Desc (q : List α) : Prop := q.Pairwise (fun a b => key b ≤ key a)

/-- The elements of `q` with key `r`, in order: the level of `r`. -/
def level (r : Nat) (q : List α) : List α := q.filter (fun a => key a == r)

/-- `q` is the history `hist` in priority order. -/
structure Orders (q hist : List α) : Prop where
  desc : Desc key q
  levels : ∀ r, level key r q = level key r hist

/-- `x` behind every element whose key is at least its own. -/
def enqueue (x : α) : List α → List α
  | [] => [x]
  | a :: q => if key x ≤ key a then a :: enqueue x q else x :: a :: q

variable {key}
variable {r : Nat} {q : List α} {x : α}

theorem level_append (r : Nat) (q1 q2 : List α) :
    level key r (q1 ++ q2) = level key r q1 ++ level key r q2 := filter_append ..

theorem level_cons (r : Nat) (x : α) (q : List α) :
    level key r (x :: q) = level key r [x] ++ level key r q := level_append r [x] q

@[simp] theorem level_nil (r : Nat) : level key r ([] : List α) = [] := rfl

theorem mem_level : x ∈ level key r q ↔ x ∈ q ∧ key x = r := by
  simp [level]

theorem level_singleton (r : Nat) (x : α) :
    level key r [x] = if key x = r then [x] else [] := by
  by_cases h : key x = r <;> simp [level, h]

theorem level_eq_nil (h : ∀ x ∈ q, key x ≠ r) : level key r q = [] :=
  filter_eq_nil_iff.mpr (fun x hx => by simpa using h x hx)

theorem level_eq_self (h : ∀ x ∈ q, key x = r) : level key r q = q :=
  filter_eq_self.mpr (fun x hx => by simpa using h x hx)

theorem Desc.nil : Desc key [] := List.Pairwise.nil

theorem desc_append {q1 q2 : List α} :
    Desc key (q1 ++ q2) ↔ Desc key q1 ∧ Desc key q2 ∧ ∀ a ∈ q1, ∀ b ∈ q2, key b ≤ key a :=
  pairwise_append

theorem Orders.nil : Orders key [] [] := ⟨Desc.nil, fun _ => rfl⟩

theorem Orders.mem {q hist : List α} (h : Orders key q hist) : x ∈ q ↔ x ∈ hist := by
  have hx : ∀ l : List α, x ∈ l ↔ x ∈ level key (key x) l := fun l => by simp [mem_level]
  rw [hx q, hx hist, h.levels]

theorem Orders.perm [DecidableEq α] {q hist : List α} (h : Orders key q hist) : q.Perm hist := by
  refine perm_iff_count.mpr fun x => ?_
  have hx : ∀ l : List α, l.count x = (level key (key x) l).count x := fun l => by
    rw [level, count_filter (by simp)]
  rw [hx q, hx hist, h.levels]

theorem Orders.congr {key' : α → Nat} {q hist : List α} (h : Orders key q hist)
    (hk : ∀ x ∈ q, key' x = key x) : Orders key' q hist := by
  have hlevel : ∀ (r : Nat) (l : List α), (∀ x ∈ l, key' x = key x) →
      level key' r l = level key r l := fun r l hl =>
    filter_congr fun x hx => by rw [hl x hx]
  refine ⟨h.desc.imp_of_mem fun {a b} ha hb hab => ?_, fun r => ?_⟩
  · rw [hk a ha, hk b hb]; exact hab
  · rw [hlevel r q hk, hlevel r hist fun x hx => hk x (h.mem.mpr hx), h.levels]

/-- Between the elements of key at least its own and the smaller ones, a
newcomer is last of its level. -/
theorem Orders.insert {q1 q2 hist : List α} (h : Orders key (q1 ++ q2) hist)
    (h1 : ∀ a ∈ q1, key x ≤ key a) (h2 : ∀ b ∈ q2, key b < key x) :
    Orders key (q1 ++ x :: q2) (hist ++ [x]) := by
  obtain ⟨d1, d2, d12⟩ := desc_append.mp h.desc
  refine ⟨desc_append.mpr ⟨d1, pairwise_cons.mpr ⟨fun b hb => Nat.le_of_lt (h2 b hb), d2⟩, ?_⟩, ?_⟩
  · exact fun a ha => forall_mem_cons.mpr ⟨h1 a ha, d12 a ha⟩
  · intro r
    have hl := h.levels r
    rw [level_append] at hl
    rw [level_append, level_cons, level_append, ← hl]
    by_cases hr : key x = r
    · have h0 : level key r q2 = [] := level_eq_nil fun b hb => by have := h2 b hb; omega
      simp [h0]
    · simp [level_singleton, hr]

theorem Orders.erase [DecidableEq α] {q hist : List α} (h : Orders key q hist) (x : α) :
    Orders key (q.erase x) (hist.erase x) := by
  have herase : ∀ (r : Nat) (l : List α), level key r (l.erase x) = (level key r l).erase x :=
    fun _ _ => erase_filter.symm
  refine ⟨h.desc.sublist erase_sublist, fun r => ?_⟩
  rw [herase, herase, h.levels]

theorem Orders.filter {q hist : List α} (h : Orders key q hist) (p : α → Bool) :
    Orders key (q.filter p) (hist.filter p) := by
  refine ⟨h.desc.filter p, fun r => ?_⟩
  rw [level, level, List.filter_comm, List.filter_comm _ _ hist]
  exact congrArg (List.filter p) (h.levels r)

theorem enqueue_perm (x : α) (q : List α) : (enqueue key x q).Perm (x :: q) := by
  induction q with
  | nil => exact .refl _
  | cons a q ih =>
    rw [enqueue]
    split_ifs
    · exact (ih.cons a).trans (.swap x a q)
    · exact .refl _

theorem mem_enqueue {x y : α} : y ∈ enqueue key x q ↔ y = x ∨ y ∈ q := (enqueue_perm x q).mem_iff.trans mem_cons

theorem length_enqueue (x : α) (q : List α) : (enqueue key x q).length = q.length + 1 := (enqueue_perm x q).length_eq

theorem enqueue_split (x : α) (h : Desc key q) :
    ∃ q1 q2, q = q1 ++ q2 ∧ enqueue key x q = q1 ++ x :: q2 ∧
      (∀ a ∈ q1, key x ≤ key a) ∧ ∀ b ∈ q2, key b < key x := by
  induction q with
  | nil => exact ⟨[], [], rfl, rfl, by simp, by simp⟩
  | cons a q ih =>
    rw [Desc, pairwise_cons] at h
    by_cases ha : key x ≤ key a
    · obtain ⟨q1, q2, rfl, he, h1, h2⟩ := ih h.2
      exact ⟨a :: q1, q2, rfl, by simp [enqueue, ha, he], forall_mem_cons.mpr ⟨ha, h1⟩, h2⟩
    · refine ⟨[], a :: q, rfl, by simp [enqueue, ha], by simp, ?_⟩
      intro b hb
      rcases mem_cons.mp hb with rfl | hb
      · omega
      · have := h.1 b hb; omega

theorem enqueue_append {q1 q2 : List α} (h1 : ∀ a ∈ q1, key x ≤ key a)
    (h2 : ∀ b ∈ q2, key b < key x) : enqueue key x (q1 ++ q2) = q1 ++ x :: q2 := by
  induction q1 with
  | nil =>
    cases q2 with
    | nil => rfl
    | cons b q2 =>
      have := h2 b (by simp)
      simp only [nil_append, enqueue]
      rw [if_neg (by omega)]
  | cons a q1 ih =>
    have ha := h1 a (by simp)
    simp only [cons_append, enqueue]
    rw [if_pos ha, ih fun b hb => h1 b (.tail _ hb)]

/-- The last element of a level splits the queue at the level's end. -/
theorem Desc.split_level {t : α} (h : Desc key q)
    (ht : (level key r q).getLast? = some t) : ∃ q1 q2, q = q1 ++ t :: q2 ∧ key t = r ∧
      (∀ a ∈ q1, r ≤ key a) ∧ ∀ b ∈ q2, key b < r := by
  induction q with
  | nil => simp at ht
  | cons a q ih =>
    rw [Desc, pairwise_cons] at h
    rw [level_cons] at ht
    by_cases hq : level key r q = []
    · -- the level ends here: what follows has other keys, none larger
      rw [hq, append_nil, level_singleton] at ht
      by_cases ha : key a = r
      · rw [if_pos ha] at ht
        obtain rfl : a = t := by simpa using ht
        refine ⟨[], q, rfl, ha, by simp, fun b hb => ?_⟩
        have hle := h.1 b hb
        have hne : key b ≠ r := fun e => by
          have : b ∈ level key r q := mem_level.mpr ⟨hb, e⟩
          simp [hq] at this
        omega
      · simp [ha] at ht
    · rw [getLast?_append_of_ne_nil _ hq] at ht
      obtain ⟨q1, q2, rfl, hk, h1, h2⟩ := ih h.2 ht
      refine ⟨a :: q1, q2, rfl, hk, ?_, h2⟩
      intro b hb
      rcases mem_cons.mp hb with rfl | hb
      · have := h.1 t (by simp)
        omega
      · exact h1 b hb

theorem map_enqueue {β : Type} (key : β → Nat) (f : α → β) (x : α) (q : List α) :
    (enqueue (fun a => key (f a)) x q).map f = enqueue key (f x) (q.map f) := by
  induction q with
  | nil => rfl
  | cons a q ih =>
    rw [map_cons, enqueue, enqueue]
    split_ifs
    · rw [map_cons, ih]
    · rfl

theorem Orders.enqueue {q hist : List α} (h : Orders key q hist) (x : α) :
    Orders key (enqueue key x q) (hist ++ [x]) := by
  obtain ⟨q1, q2, rfl, he, h1, h2⟩ := enqueue_split x h.desc
  rw [he]
  exact h.insert h1 h2

end StableQueue
