import Mathlib.Data.ZMod.Basic

/- Extents of an address space. A collection of extents is looked at through two
   additive measures: how many of them cover a byte (`cover`) and how many bytes
   they hold together (`total`). Cutting an extent in two, joining two that meet
   and reordering change neither, so the bookkeeping of an allocator is linear
   arithmetic over these measures. Extents that cover no byte twice are apart
   (`pairwise_apart`). -/
namespace Extent

/-- The bytes from `base` up to `base + size`. -/
structure Ext where
  base : Nat
  size : Nat
  deriving DecidableEq, Repr

/-- The first byte behind an extent. -/
def Ext.stop (e : Ext) : Nat := e.base + e.size

/-- Two extents that share no byte. -/
def Apart (e f : Ext) : Prop := e.stop ≤ f.base ∨ f.stop ≤ e.base

instance (e f : Ext) : Decidable (Apart e f) := inferInstanceAs (Decidable (_ ∨ _))

/-- How often one extent covers the byte `x`. -/
def hit (e : Ext) (x : Nat) : Nat := if e.base ≤ x ∧ x < e.stop then 1 else 0

/-- How many extents of `l` cover the byte `x`. -/
def cover : List Ext → Nat → Nat
  | [], _ => 0
  | e :: l, x => hit e x + cover l x

/-- The bytes the extents of `l` hold together. -/
def total : List Ext → Nat
  | [] => 0
  | e :: l => e.size + total l

@[simp] theorem cover_nil (x : Nat) : cover [] x = 0 := rfl

@[simp] theorem cover_cons (e : Ext) (l : List Ext) (x : Nat) :
    cover (e :: l) x = hit e x + cover l x := rfl

@[simp] theorem cover_append (l l' : List Ext) (x : Nat) :
    cover (l ++ l') x = cover l x + cover l' x := by
  induction l with
  | nil => simp
  | cons e l ih => simp [ih, Nat.add_assoc]

@[simp] theorem total_nil : total [] = 0 := rfl

@[simp] theorem total_cons (e : Ext) (l : List Ext) : total (e :: l) = e.size + total l := rfl

@[simp] theorem total_append (l l' : List Ext) : total (l ++ l') = total l + total l' := by
  induction l with
  | nil => simp
  | cons e l ih => simp [ih, Nat.add_assoc]

theorem cover_perm {l l' : List Ext} (h : l.Perm l') (x : Nat) : cover l x = cover l' x := by
  induction h with
  | nil => rfl
  | cons e _ ih => simp [ih]
  | swap e f l => simp only [cover_cons]; omega
  | trans _ _ ih1 ih2 => exact ih1.trans ih2

theorem total_perm {l l' : List Ext} (h : l.Perm l') : total l = total l' := by
  induction h with
  | nil => rfl
  | cons e _ ih => simp [ih]
  | swap e f l => simp only [total_cons]; omega
  | trans _ _ ih1 ih2 => exact ih1.trans ih2

/-! ## One extent -/

theorem hit_of {e : Ext} {x : Nat} (h : e.base ≤ x) (h' : x < e.stop) : hit e x = 1 :=
  if_pos ⟨h, h'⟩

theorem hit_pos {e : Ext} {x : Nat} (h : hit e x ≠ 0) : e.base ≤ x ∧ x < e.stop := by
  by_contra hc
  exact h (if_neg hc)

theorem hit_join (a s t x : Nat) : hit ⟨a, s + t⟩ x = hit ⟨a, s⟩ x + hit ⟨a + s, t⟩ x := by
  grind [hit, Ext.stop]

theorem hit_cut (e : Ext) {n : Nat} (h : n ≤ e.size) (x : Nat) :
    hit e x = hit ⟨e.base, n⟩ x + hit ⟨e.base + n, e.size - n⟩ x := by
  rw [← hit_join, Nat.add_sub_cancel' h]

theorem le_cover {e : Ext} {l : List Ext} (h : e ∈ l) (x : Nat) : hit e x ≤ cover l x := by
  obtain ⟨l1, l2, rfl⟩ := List.append_of_mem h
  simp only [cover_append, cover_cons]
  omega

theorem exists_hit {l : List Ext} {x : Nat} (h : cover l x ≠ 0) :
    ∃ e ∈ l, e.base ≤ x ∧ x < e.stop := by
  induction l with
  | nil => exact absurd rfl h
  | cons e l ih =>
    by_cases he : hit e x = 0
    · rw [cover_cons, he, Nat.zero_add] at h
      obtain ⟨f, hf, hx⟩ := ih h
      exact ⟨f, .tail _ hf, hx⟩
    · exact ⟨e, List.mem_cons_self, hit_pos he⟩

theorem inside_of_hit {e f : Ext} (he : 0 < e.size) (h : ∀ x, hit e x ≤ hit f x) :
    f.base ≤ e.base ∧ e.stop ≤ f.stop := by
  have hbyte : ∀ x, e.base ≤ x → x < e.stop → f.base ≤ x ∧ x < f.stop := by
    intro x hlo hhi
    have hx := h x
    rw [hit_of hlo hhi] at hx
    exact hit_pos (by omega)
  have hfirst := hbyte e.base (Nat.le_refl _) (by simp only [Ext.stop]; omega)
  have hlast := hbyte (e.stop - 1) (by simp only [Ext.stop]; omega) (by simp only [Ext.stop]; omega)
  exact ⟨hfirst.1, by omega⟩

/-! ## Extents apart -/

/-- Two extents with a byte in common cover it twice: the first byte of one. -/
theorem apart_of_hit {e f : Ext} (he : 0 < e.size) (hf : 0 < f.size)
    (h : ∀ x, hit e x + hit f x ≤ 1) : Apart e f := by
  by_contra hc
  simp only [Apart, not_or, Nat.not_le] at hc
  rcases Nat.le_total e.base f.base with hb | hb
  · have h1 := hit_of hb hc.1
    have h2 : hit f f.base = 1 := hit_of (Nat.le_refl _) (by simp only [Ext.stop]; omega)
    have := h f.base
    omega
  · have h1 := hit_of hb hc.2
    have h2 : hit e e.base = 1 := hit_of (Nat.le_refl _) (by simp only [Ext.stop]; omega)
    have := h e.base
    omega

theorem pairwise_apart {l : List Ext} (hpos : ∀ e ∈ l, 0 < e.size) (h : ∀ x, cover l x ≤ 1) :
    l.Pairwise Apart := by
  induction l with
  | nil => exact List.Pairwise.nil
  | cons e l ih =>
    refine List.pairwise_cons.mpr ⟨fun f hf => ?_, ih (fun f hf => hpos f (by simp [hf])) fun x => ?_⟩
    · refine apart_of_hit (hpos e (by simp)) (hpos f (by simp [hf])) fun x => ?_
      have h1 := h x
      have h2 := le_cover hf x
      rw [cover_cons] at h1
      omega
    · have h1 := h x
      rw [cover_cons] at h1
      omega

end Extent
