import QRV.Lib.LinkCell

/- The dispatch table of the kernel: one ready list for each of the 256
   priorities, and three levels of bits that say which lists are not empty.

   The ready lists are the LINK3 lists of macros.h, kept word by word: a head and
   a tail word for each priority, a `next` and a `prev` word in each thread, where
   `prev` is the address of the word that links to the thread.

   `Bits d S` says that the bits describe the set `S` of priorities, on all three
   levels. DISPATCH_SET and DISPATCH_CLR add and remove a priority
   (`dispatchSet_bits`, `dispatchClr_bits`) and DISPATCH_HIGHEST_PRI is the
   greatest one (`highestPri_spec`).

   Correspondence (C ↔ Lean) where the names differ:
     `DISPATCH` (objects.h)                 ↔ `Dispatch`
     `byte_log2` (kexterns.c)               ↔ `byteLog2`
     `DISPATCH_ISSET`, `DISPATCH_THP`       ↔ `isset`, `thp`
     `DISPATCH_HIGHEST_PRI`                 ↔ `highestPri`
     `LINK3_BEG`, `LINK3_END`, `LINK3_REM`  ↔ `link3Beg`, `link3End`, `link3Rem` -/
namespace QRV.Nano
open Function (update update_self)

open LinkCell

/-- The dispatch table. The word `link (.head p)` is `ready[p].head`, the word
`link (.next t)` is `t->next.thread`. -/
structure Dispatch (τ : Type) where
  link : Links Nat τ
  prev : τ → Option (Cell Nat τ)
  tail : Nat → Option τ
  hi : BitVec 8
  mid : Nat → BitVec 8
  lo : Nat → Nat → BitVec 8

/-! ## The bits -/

/-- The table `byte_log2`. -/
def byteLog2Table : List Nat :=
  [0, 0, 1, 1, 2, 2, 2, 2, 3, 3, 3, 3, 3, 3, 3, 3,
   4, 4, 4, 4, 4, 4, 4, 4, 4, 4, 4, 4, 4, 4, 4, 4,
   5, 5, 5, 5, 5, 5, 5, 5, 5, 5, 5, 5, 5, 5, 5, 5,
   5, 5, 5, 5, 5, 5, 5, 5, 5, 5, 5, 5, 5, 5, 5, 5,
   6, 6, 6, 6, 6, 6, 6, 6, 6, 6, 6, 6, 6, 6, 6, 6,
   6, 6, 6, 6, 6, 6, 6, 6, 6, 6, 6, 6, 6, 6, 6, 6,
   6, 6, 6, 6, 6, 6, 6, 6, 6, 6, 6, 6, 6, 6, 6, 6,
   6, 6, 6, 6, 6, 6, 6, 6, 6, 6, 6, 6, 6, 6, 6, 6,
   7, 7, 7, 7, 7, 7, 7, 7, 7, 7, 7, 7, 7, 7, 7, 7,
   7, 7, 7, 7, 7, 7, 7, 7, 7, 7, 7, 7, 7, 7, 7, 7,
   7, 7, 7, 7, 7, 7, 7, 7, 7, 7, 7, 7, 7, 7, 7, 7,
   7, 7, 7, 7, 7, 7, 7, 7, 7, 7, 7, 7, 7, 7, 7, 7,
   7, 7, 7, 7, 7, 7, 7, 7, 7, 7, 7, 7, 7, 7, 7, 7,
   7, 7, 7, 7, 7, 7, 7, 7, 7, 7, 7, 7, 7, 7, 7, 7,
   7, 7, 7, 7, 7, 7, 7, 7, 7, 7, 7, 7, 7, 7, 7, 7,
   7, 7, 7, 7, 7, 7, 7, 7, 7, 7, 7, 7, 7, 7, 7, 7]

def byteLog2 (b : BitVec 8) : Nat := byteLog2Table.getD b.toNat 0

/-- The byte `1 << i`. -/
def bit (i : Nat) : BitVec 8 := 1#8 <<< i

/-- The three parts of a priority: which `mid`, which `lo` of it, which bit. -/
def hiOf (p : Nat) : Nat := p >>> 6
def midOf (p : Nat) : Nat := (p >>> 3) &&& 7
def loOf (p : Nat) : Nat := p &&& 7

namespace Dispatch
variable {τ : Type}
variable {d : Dispatch τ} {S : Nat → Prop}

/-- DISPATCH_ISSET. -/
def isset (d : Dispatch τ) (p : Nat) : Bool := (d.lo (hiOf p) (midOf p)).getLsbD (loOf p)

/-- DISPATCH_THP: the first thread of a ready list. -/
def thp (d : Dispatch τ) (p : Nat) : Option τ := d.link (.head p)

/-- DISPATCH_SET for a thread of priority `p`. -/
def dispatchSet (d : Dispatch τ) (p : Nat) : Dispatch τ :=
  { d with
    hi := d.hi ||| bit (hiOf p)
    mid := update d.mid (hiOf p) (d.mid (hiOf p) ||| bit (midOf p))
    lo := update d.lo (hiOf p)
      (update (d.lo (hiOf p)) (midOf p) (d.lo (hiOf p) (midOf p) ||| bit (loOf p))) }

/-- DISPATCH_CLR for a thread of priority `p`. -/
def dispatchClr (d : Dispatch τ) (p : Nat) : Dispatch τ :=
  let lo' := d.lo (hiOf p) (midOf p) &&& ~~~bit (loOf p)
  let d₁ := { d with
    lo := update d.lo (hiOf p) (update (d.lo (hiOf p)) (midOf p) lo') }
  if lo' = 0#8 then
    let mid' := d.mid (hiOf p) &&& ~~~bit (midOf p)
    let d₂ := { d₁ with mid := update d.mid (hiOf p) mid' }
    if mid' = 0#8 then { d₂ with hi := d.hi &&& ~~~bit (hiOf p) } else d₂
  else d₁

def dispatchHi (d : Dispatch τ) : Nat := byteLog2 d.hi
def dispatchMid (d : Dispatch τ) : Nat := byteLog2 (d.mid d.dispatchHi)
def dispatchLo (d : Dispatch τ) : Nat := byteLog2 (d.lo d.dispatchHi d.dispatchMid)

/-- DISPATCH_HIGHEST_PRI. -/
def highestPri (d : Dispatch τ) : Nat :=
  (d.dispatchHi <<< 6) ||| (d.dispatchMid <<< 3) ||| d.dispatchLo

/-! ## What the bits describe -/

/-- The bits describe the set `S` of priorities. -/
structure Bits (d : Dispatch τ) (S : Nat → Prop) : Prop where
  lo : ∀ h m l, m < 8 → l < 8 → ((d.lo h m).getLsbD l = true ↔ S (h * 64 + m * 8 + l))
  mid : ∀ h m, m < 8 → ((d.mid h).getLsbD m = true ↔ d.lo h m ≠ 0#8)
  hi : ∀ h, h < 8 → (d.hi.getLsbD h = true ↔ d.mid h ≠ 0#8)

theorem hiOf_eq (p : Nat) : hiOf p = p / 64 := Nat.shiftRight_eq_div_pow p 6

theorem midOf_eq (p : Nat) : midOf p = p / 8 % 8 := by
  rw [midOf, Nat.shiftRight_eq_div_pow]
  exact Nat.and_two_pow_sub_one_eq_mod _ 3

theorem loOf_eq (p : Nat) : loOf p = p % 8 := Nat.and_two_pow_sub_one_eq_mod p 3

theorem index_eq {h m l p : Nat} (hm : m < 8) (hl : l < 8) :
    h * 64 + m * 8 + l = p ↔ h = hiOf p ∧ m = midOf p ∧ l = loOf p := by
  rw [hiOf_eq, midOf_eq, loOf_eq]
  omega

theorem getLsbD_bit {i j : Nat} (hj : j < 8) : (bit i).getLsbD j = decide (j = i) := by
  rw [bit, BitVec.getLsbD_shiftLeft, BitVec.getLsbD_one]
  by_cases h : j = i
  · simp [h, h ▸ hj]
  · simp only [h, decide_false]
    have : j < i ∨ j - i ≠ 0 := by omega
    rcases this with h' | h' <;> simp [h', hj]

theorem ne_zero_iff (b : BitVec 8) : b ≠ 0#8 ↔ ∃ i < 8, b.getLsbD i = true := by
  constructor
  · intro h
    by_contra hn
    apply h
    apply BitVec.eq_of_getLsbD_eq
    intro i hi
    have : b.getLsbD i = false := by
      by_contra hb
      exact hn ⟨i, hi, by simpa using hb⟩
    simp [this]
  · rintro ⟨i, -, hi⟩ rfl
    simp at hi

theorem or_bit_ne_zero (b : BitVec 8) {i : Nat} (hi : i < 8) : b ||| bit i ≠ 0#8 :=
  (ne_zero_iff _).mpr ⟨i, hi, by simp [getLsbD_bit hi]⟩

theorem byteLog2_spec (b : BitVec 8) (h : b ≠ 0#8) :
    byteLog2 b < 8 ∧ b.getLsbD (byteLog2 b) = true ∧
      ∀ i < 8, b.getLsbD i = true → i ≤ byteLog2 b := by
  revert b
  decide +kernel

theorem midOf_lt (p : Nat) : midOf p < 8 := by rw [midOf_eq]; omega
theorem loOf_lt (p : Nat) : loOf p < 8 := by rw [loOf_eq]; omega

theorem dispatchSet_bits (h : Bits d S) (p : Nat) :
    Bits (d.dispatchSet p) (fun x => S x ∨ x = p) where
  lo := by
    intro a m l hm hl
    rw [index_eq hm hl]
    by_cases ha : a = hiOf p
    · subst ha
      by_cases hm' : m = midOf p
      · subst hm'
        simp [dispatchSet, BitVec.getLsbD_or, getLsbD_bit hl, h.lo _ _ _ hm hl]
      · simp [dispatchSet, hm', h.lo _ _ _ hm hl]
    · simp [dispatchSet, ha, h.lo _ _ _ hm hl]
  mid := by
    intro a m hm
    by_cases ha : a = hiOf p
    · subst ha
      by_cases hm' : m = midOf p
      · subst hm'
        simp only [dispatchSet, update_self, BitVec.getLsbD_or, getLsbD_bit hm, decide_true,
          Bool.or_true, true_iff]
        exact or_bit_ne_zero _ (loOf_lt p)
      · simpa [dispatchSet, BitVec.getLsbD_or, getLsbD_bit hm, hm'] using h.mid _ _ hm
    · simpa [dispatchSet, ha] using h.mid _ _ hm
  hi := by
    intro a ha
    by_cases ha' : a = hiOf p
    · subst ha'
      simp only [dispatchSet, update_self, BitVec.getLsbD_or, getLsbD_bit ha, decide_true,
        Bool.or_true, true_iff]
      exact or_bit_ne_zero _ (midOf_lt p)
    · simpa [dispatchSet, BitVec.getLsbD_or, getLsbD_bit ha, ha'] using h.hi _ ha

theorem getLsbD_and_not_bit (b : BitVec 8) {i j : Nat} (hj : j < 8) :
    (b &&& ~~~bit i).getLsbD j = true ↔ b.getLsbD j = true ∧ j ≠ i := by
  rw [BitVec.getLsbD_and, BitVec.getLsbD_not, getLsbD_bit hj]
  simp [hj]

/-- The last level of DISPATCH_CLR: the bit of `lo` goes and nothing else. -/
private def clrLo (d : Dispatch τ) (p : Nat) : Dispatch τ :=
  { d with
    lo := update d.lo (hiOf p)
      (update (d.lo (hiOf p)) (midOf p) (d.lo (hiOf p) (midOf p) &&& ~~~bit (loOf p))) }

private theorem clrLo_lo (h : Bits d S) (p a m l : Nat) (hm : m < 8)
    (hl : l < 8) : (((clrLo d p).lo a m).getLsbD l = true ↔ S (a * 64 + m * 8 + l) ∧ a * 64 + m * 8 + l ≠ p) := by
  rw [← h.lo a m l hm hl, Ne, index_eq hm hl]
  by_cases ha : a = hiOf p
  · subst ha
    by_cases hm' : m = midOf p
    · subst hm'
      simp only [clrLo, update_self]
      rw [getLsbD_and_not_bit _ hl]
      simp
    · simp [clrLo, hm']
  · simp [clrLo, ha]

private theorem clrLo_off (d : Dispatch τ) {p a m : Nat} (h : ¬(a = hiOf p ∧ m = midOf p)) :
    (clrLo d p).lo a m = d.lo a m := by
  by_cases ha : a = hiOf p
  · subst ha
    have hm : m ≠ midOf p := fun e => h ⟨rfl, e⟩
    simp [clrLo, hm]
  · simp [clrLo, ha]

theorem dispatchClr_bits (h : Bits d S) (p : Nat) :
    Bits (d.dispatchClr p) (fun x => S x ∧ x ≠ p) := by
  have hlo : (clrLo d p).lo (hiOf p) (midOf p) = d.lo (hiOf p) (midOf p) &&& ~~~bit (loOf p) := by
    simp [clrLo]
  by_cases hz : d.lo (hiOf p) (midOf p) &&& ~~~bit (loOf p) = 0#8
  · -- the byte is empty now, so its bit in `mid` goes too
    have hmid : ∀ a m, m < 8 → ((update d.mid (hiOf p) (d.mid (hiOf p) &&& ~~~bit (midOf p)) a).getLsbD m = true ↔
        (clrLo d p).lo a m ≠ 0#8) := by
      intro a m hm
      by_cases ha : a = hiOf p
      · subst ha
        rw [update_self, getLsbD_and_not_bit _ hm, h.mid _ _ hm]
        by_cases hm' : m = midOf p
        · subst hm'
          simp [hlo, hz]
        · rw [clrLo_off d fun e => hm' e.2]
          simp [hm']
      · rw [Function.update_of_ne ha, clrLo_off d fun e => ha e.1]
        exact h.mid a m hm
    by_cases hz' : d.mid (hiOf p) &&& ~~~bit (midOf p) = 0#8
    · have he : d.dispatchClr p = { clrLo d p with
          mid := update d.mid (hiOf p) (d.mid (hiOf p) &&& ~~~bit (midOf p))
          hi := d.hi &&& ~~~bit (hiOf p) } := by
        simp [dispatchClr, hz, hz', clrLo]
      rw [he]
      refine ⟨clrLo_lo h p, hmid, fun a ha => ?_⟩
      rw [getLsbD_and_not_bit _ ha, h.hi a ha]
      by_cases ha' : a = hiOf p
      · subst ha'; simp [hz']
      · simp [ha']
    · have he : d.dispatchClr p = { clrLo d p with
          mid := update d.mid (hiOf p) (d.mid (hiOf p) &&& ~~~bit (midOf p)) } := by
        simp [dispatchClr, hz, hz', clrLo]
      rw [he]
      refine ⟨clrLo_lo h p, hmid, fun a ha => ?_⟩
      by_cases ha' : a = hiOf p
      · subst ha'
        have hne : d.mid (hiOf p) ≠ 0#8 := fun e => hz' (by rw [e]; simp)
        simp only [update_self]
        exact iff_of_true ((h.hi _ ha).mpr hne) hz'
      · simpa [clrLo, ha'] using h.hi a ha
  · have he : d.dispatchClr p = clrLo d p := by simp [dispatchClr, hz, clrLo]
    rw [he]
    refine ⟨clrLo_lo h p, fun a m hm => ?_, h.hi⟩
    by_cases hc : a = hiOf p ∧ m = midOf p
    · obtain ⟨rfl, rfl⟩ := hc
      have hne : d.lo (hiOf p) (midOf p) ≠ 0#8 := fun e => hz (by rw [e]; simp)
      rw [hlo]
      exact iff_of_true ((h.mid _ _ hm).mpr hne) hz
    · rw [clrLo_off d hc]
      exact h.mid a m hm

theorem highestPri_eq (hm : d.dispatchMid < 8) (hl : d.dispatchLo < 8) :
    d.highestPri = d.dispatchHi * 64 + d.dispatchMid * 8 + d.dispatchLo := by
  have h1 : d.dispatchHi <<< 6 ||| d.dispatchMid <<< 3 = (d.dispatchHi * 8 + d.dispatchMid) <<< 3 := by
    rw [show (6 : Nat) = 3 + 3 from rfl, Nat.shiftLeft_add, ← Nat.shiftLeft_or_distrib,
      ← Nat.shiftLeft_add_eq_or_of_lt hm, Nat.shiftLeft_eq d.dispatchHi]
  rw [highestPri, h1, ← Nat.shiftLeft_add_eq_or_of_lt hl, Nat.shiftLeft_eq]
  omega

theorem highestPri_spec (h : Bits d S) {p : Nat} (hp : p < 256)
    (hS : S p) : S d.highestPri ∧ p ≤ d.highestPri := by
  have hh : hiOf p < 8 := by rw [hiOf_eq]; omega
  have hidx : hiOf p * 64 + midOf p * 8 + loOf p = p := (index_eq (midOf_lt p) (loOf_lt p)).mpr ⟨rfl, rfl, rfl⟩
  have hlo : d.lo (hiOf p) (midOf p) ≠ 0#8 :=
    (ne_zero_iff _).mpr ⟨loOf p, loOf_lt p, (h.lo _ _ _ (midOf_lt p) (loOf_lt p)).mpr (hidx.symm ▸ hS)⟩
  have hmid : d.mid (hiOf p) ≠ 0#8 :=
    (ne_zero_iff _).mpr ⟨midOf p, midOf_lt p, (h.mid _ _ (midOf_lt p)).mpr hlo⟩
  have hhi : d.hi ≠ 0#8 := (ne_zero_iff _).mpr ⟨hiOf p, hh, (h.hi _ hh).mpr hmid⟩
  -- each level picks the highest bit of a byte that is not zero
  obtain ⟨lt1, set1, max1⟩ := byteLog2_spec d.hi hhi
  obtain ⟨lt2, set2, max2⟩ := byteLog2_spec _ ((h.hi _ lt1).mp set1)
  obtain ⟨lt3, set3, max3⟩ := byteLog2_spec _ ((h.mid _ _ lt2).mp set2)
  rw [highestPri_eq (d := d) lt2 lt3]
  refine ⟨(h.lo _ _ _ lt2 lt3).mp set3, ?_⟩
  have le1 : hiOf p ≤ d.dispatchHi := max1 _ hh ((h.hi _ hh).mpr hmid)
  rcases Nat.lt_or_ge (hiOf p) d.dispatchHi with hlt | hge
  · have := midOf_lt p
    have := loOf_lt p
    omega
  have e1 : hiOf p = d.dispatchHi := Nat.le_antisymm le1 hge
  have le2 : midOf p ≤ d.dispatchMid := max2 _ (midOf_lt p) (by
    have := (h.mid _ _ (midOf_lt p)).mpr hlo
    rwa [e1] at this)
  rcases Nat.lt_or_ge (midOf p) d.dispatchMid with hlt | hge
  · have := loOf_lt p
    omega
  have e2 : midOf p = d.dispatchMid := Nat.le_antisymm le2 hge
  have le3 : loOf p ≤ d.dispatchLo := max3 _ (loOf_lt p) (by
    have := (h.lo _ _ _ (midOf_lt p) (loOf_lt p)).mpr (hidx.symm ▸ hS)
    rwa [e1, e2] at this)
  omega

/-! ## The lists -/

section Macros
variable [DecidableEq τ]

/-- LINK3_BEG: `t` becomes the first of `ready[p]`. -/
def link3Beg (d : Dispatch τ) (p : Nat) (t : τ) : Dispatch τ :=
  let link := d.link.set (.next t) (d.link (.head p))
  match d.link (.head p) with
  | some h =>
    { d with
      link := link.set (.head p) (some t)
      prev := update (update d.prev h (some (.next t))) t (some (.head p)) }
  | none =>
    { d with
      link := link.set (.head p) (some t)
      prev := update d.prev t (some (.head p))
      tail := update d.tail p (some t) }

/-- LINK3_END: `t` becomes the last of `ready[p]`. -/
def link3End (d : Dispatch τ) (p : Nat) (t : τ) : Dispatch τ :=
  match d.tail p with
  | some l =>
    { d with
      link := (d.link.set (.next l) (some t)).set (.next t) none
      prev := update d.prev t (some (.next l))
      tail := update d.tail p (some t) }
  | none =>
    { d with
      link := (d.link.set (.head p) (some t)).set (.next t) none
      prev := update d.prev t (some (.head p))
      tail := update d.tail p (some t) }

/-- LINK3_REM of `t` from `ready[p]`. A null `prev` is dereferenced, and the cast
of `prev` to a thread is only one when `prev` is the `next` word of a thread. -/
def link3Rem (d : Dispatch τ) (p : Nat) (t : τ) : Option (Dispatch τ) := do
  let c ← d.prev t
  let d₁ := { d with
    link := d.link.set c (d.link (.next t))
    prev := match d.link (.next t) with
      | some n => update d.prev n (some c)
      | none => d.prev }
  if d₁.tail p = some t then
    if d₁.link (.head p) = none then some { d₁ with tail := update d₁.tail p none }
    else match d₁.prev t with
      | some (.next x) => some { d₁ with tail := update d₁.tail p (some x) }
      | _ => none
  else some d₁

end Macros

end Dispatch

end QRV.Nano
