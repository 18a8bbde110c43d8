import QRV.Nano.Dispatch

/- What the words of the dispatch table describe.

   `Lists d q` says that the head, tail, `next` and `prev` words describe the lists
   `q`; each LINK3 macro is an insertion or a removal in `q` (`link3Beg_lists`,
   `link3End_lists`, `link3Rem_lists`).

   `Holds d M dirty` forgets the order: the table describes the relation `M`, "this
   thread is on the list of this priority", and the bits agree with it, but for the
   priority `dirty`. The sequences the scheduler is made of are then rules about `M`:
   remove (`Holds.rem`), remove and clear the bit (`Holds.clean`), link and set the
   bit (`Holds.begSet`, `Holds.finSet`), link where the bit is set already
   (`Holds.beg`, `Holds.fin`). -/
namespace QRV.Nano
open Function (update update_of_ne update_self)
open List Option

open LinkCell

namespace Dispatch
variable {τ : Type}

/-! ## What the links describe -/

/-- The words describe the lists `q`: heads and `next` run through them, `prev` is the
address of the word that links to a thread, `tail` is the last thread, and no
thread is on two lists. -/
structure Lists (d : Dispatch τ) (q : Nat → List τ) : Prop where
  chain : ∀ p, Chain d.link (.head p) (q p)
  back : ∀ p, Back some d.prev (.head p) (q p)
  tail : ∀ p, d.tail p = (q p).getLast?
  apart : ∀ p p' t, t ∈ q p → t ∈ q p' → p = p'

theorem bits_congr {d d' : Dispatch τ} {S : Nat → Prop} (h : Bits d S) (hhi : d'.hi = d.hi)
    (hmid : d'.mid = d.mid) (hlo : d'.lo = d.lo) : Bits d' S :=
  ⟨hlo ▸ h.lo, hmid ▸ hlo ▸ h.mid, hhi ▸ hmid ▸ h.hi⟩

theorem lists_congr {d d' : Dispatch τ} {q : Nat → List τ} (h : Lists d q) (hlink : d'.link = d.link)
    (hprev : d'.prev = d.prev) (htail : d'.tail = d.tail) : Lists d' q :=
  ⟨hlink ▸ h.chain, hprev ▸ h.back, htail ▸ h.tail, h.apart⟩

section
variable {d : Dispatch τ} {q : Nat → List τ} (h : Lists d q)
include h

theorem Lists.nodup (p : Nat) : (q p).Nodup :=
  (h.chain p).nodup

theorem Lists.thp_eq (p : Nat) : d.thp p = (q p).head? :=
  (h.chain p).first

theorem Lists.deques : Deques some d.link d.prev q :=
  ⟨h.chain, h.back, h.apart⟩

end

section Link3
variable [DecidableEq τ] {d : Dispatch τ} {q : Nat → List τ} {p : Nat} {t : τ}

theorem link3Beg_link : (d.link3Beg p t).link
    = (d.link.set (.next t) (d.link (.head p))).set (.head p) (some t) := by
  unfold link3Beg
  cases h : d.link (.head p) <;> rfl

/-- LINK3_BEG puts a thread that is on no list in front of a list. -/
theorem link3Beg_lists (h : Lists d q) (ht : ∀ p', t ∉ q p') :
    Lists (d.link3Beg p t) (update q p (t :: q p)) := by
  have hthp : d.link (.head p) = (q p).head? := h.thp_eq p
  have hd : Deques some (d.link3Beg p t).link (d.link3Beg p t).prev (update q p (t :: q p)) := by
    rw [link3Beg_link]
    refine h.deques.splice [] [t] (show q p = [] ++ q p from rfl) (by simpa using ht) ?_
      ⟨set_self _ _ _, trivial⟩ (by simp [endCell]) ⟨?_, trivial⟩ ?_ ?_
    · intro c hc hn
      exact (set_off hc _ _).trans (set_off (hn t (by simp)) _ _)
    · unfold link3Beg
      cases d.link (.head p) <;> simp
    · intro x hx
      have hxt : x ≠ t := fun e => ht p (e ▸ mem_of_mem_head? hx)
      simp [link3Beg, hthp.trans hx, hxt, endCell]
    · intro y hy hne
      have hyt : y ≠ t := by simpa using hy
      unfold link3Beg
      cases hh : d.link (.head p) with
      | none => simp [hyt]
      | some x => simp [hyt, show y ≠ x from fun e => hne (by rw [← hthp, hh, e])]
  refine ⟨hd.chain, hd.back, fun p' => ?_, hd.apart⟩
  have htl := h.tail p'
  by_cases hp : p' = p
  · subst hp
    unfold link3Beg
    cases hq : q p' with
    | nil =>
      rw [hq] at hthp
      simp [show d.link (.head p') = none from hthp]
    | cons x l =>
      rw [hq] at hthp htl
      simp [show d.link (.head p') = some x from hthp, htl]
  · unfold link3Beg
    cases d.link (.head p) <;> simp [hp, htl]

theorem link3Beg_bits {S : Nat → Prop} (h : Bits d S) : Bits (d.link3Beg p t) S := by
  apply bits_congr h <;> (unfold link3Beg; cases d.link (.head p) <;> rfl)

omit [DecidableEq τ] in
theorem tail_cell (h : Lists d q) (p : Nat) :
    (match d.tail p with | some l => Cell.next l | none => Cell.head p) = endCell (.head p) (q p) := by
  rw [h.tail p]
  cases hq : q p with
  | nil => rfl
  | cons x l =>
    have hne : (x :: l) ≠ [] := by simp
    rw [getLast?_eq_some_getLast hne, endCell_eq_getLast hne]

theorem link3End_eq (h : Lists d q) : d.link3End p t =
    { d with
      link := (d.link.set (endCell (.head p) (q p)) (some t)).set (.next t) none
      prev := update d.prev t (some (endCell (.head p) (q p)))
      tail := update d.tail p (some t) } := by
  rw [← tail_cell h p]
  unfold link3End
  cases d.tail p <;> rfl

theorem link3End_lists (h : Lists d q) (ht : ∀ p', t ∉ q p') :
    Lists (d.link3End p t) (update q p (q p ++ [t])) := by
  rw [link3End_eq h]
  have hne : endCell (.head p) (q p) ≠ Cell.next t := endCell_ne_next (ht p)
  have hd : Deques some ((d.link.set (endCell (.head p) (q p)) (some t)).set (.next t) none)
      (update d.prev t (some (endCell (.head p) (q p)))) (update q p (q p ++ [t])) := by
    refine h.deques.splice [] [t] (show q p = q p ++ [] by simp) (by simpa using ht) ?_
      ⟨?_, trivial⟩ ?_ ⟨update_self _ _ _, trivial⟩ (by simp) ?_
    · intro c hc hn
      rw [set_off (hn t (by simp)), set_off hc]
    · rw [set_off hne, set_self]
    · exact (set_self _ _ _).trans ((chain_iff_seg _ _ _).mp (h.chain p)).2.symm
    · intro y hy _
      exact update_of_ne (by simpa using hy) _ _
  refine ⟨hd.chain, hd.back, fun p' => ?_, hd.apart⟩
  by_cases hp : p' = p
  · subst hp
    simp
  · simp [hp, h.tail p']

theorem link3End_bits {S : Nat → Prop} (h : Bits d S) : Bits (d.link3End p t) S := by
  apply bits_congr h <;> (unfold link3End; cases d.tail p <;> rfl)

/-- What LINK3_REM stores in the `link` and `prev` words, once `c` is known to be the
word that links to the thread. -/
private def remLinks (d : Dispatch τ) (t : τ) (c : Cell Nat τ) : Dispatch τ :=
  { d with
    link := d.link.set c (d.link (.next t))
    prev := match d.link (.next t) with
      | some n => update d.prev n (some c)
      | none => d.prev }

theorem link3Rem_lists (h : Lists d q) {l1 l2 : List τ} (hq : q p = l1 ++ t :: l2) :
    ∃ d', d.link3Rem p t = some d' ∧ Lists d' (update q p (l1 ++ l2)) ∧
      d'.hi = d.hi ∧ d'.mid = d.mid ∧ d'.lo = d.lo := by
  have hnd : (l1 ++ t :: l2).Nodup := hq ▸ h.nodup p
  have ht2 : t ∉ l2 := (nodup_cons.mp (nodup_append.mp hnd).2.1).1
  obtain ⟨-, hprev, -⟩ := (back_append d.prev (.head p) l1 (t :: l2)).mp (hq ▸ h.back p)
  have hnext : d.link (.next t) = l2.head? :=
    ((chain_append d.link (.head p) l1 (t :: l2)).mp (hq ▸ h.chain p)).2.2.first
  -- every list but the tail words is as wanted after the first two stores
  have hpre : Deques some (remLinks d t (endCell (.head p) l1)).link (remLinks d t (endCell (.head p) l1)).prev
      (update q p (l1 ++ l2)) := by
    refine h.deques.splice [t] [] hq (by simp) ?_ trivial (set_self _ _ _) trivial ?_ ?_
    · exact fun c hc _ => set_off hc _ _
    · intro x hx
      rw [mem_def] at hx
      simp [remLinks, hnext, hx, endCell]
    · intro y _ hy
      simp only [remLinks, hnext]
      cases hh : l2.head? with
      | none => rfl
      | some n => exact update_of_ne (fun e => hy (by rw [hh, e])) _ _
  have htail : d.tail p = (l1 ++ t :: l2).getLast? := hq ▸ h.tail p
  by_cases hl2 : l2 = []
  · -- the last thread goes: the tail word follows
    subst hl2
    rw [getLast?_concat] at htail
    have hhead : (remLinks d t (endCell (.head p) l1)).link (.head p) = l1.head? := by
      rw [(hpre.chain p).first, update_self, append_nil]
    have hset : ∀ v, v = l1.getLast? → Lists { remLinks d t (endCell (.head p) l1) with
        tail := update d.tail p v } (update q p (l1 ++ [])) := by
      intro v hv
      refine ⟨hpre.chain, hpre.back, fun p' => ?_, hpre.apart⟩
      by_cases hp : p' = p
      · subst hp
        simp [hv]
      · simp [hp, h.tail p']
    cases hl1 : l1 with
    | nil =>
      subst hl1
      refine ⟨_, ?_, hset none rfl, rfl, rfl, rfl⟩
      simp only [link3Rem, hprev, bind_eq_bind, bind_some]
      rw [if_pos htail]
      exact if_pos hhead
    | cons x l =>
      rw [← hl1]
      have hne : l1 ≠ [] := by rw [hl1]; simp
      refine ⟨_, ?_, hset (some (l1.getLast hne)) (getLast?_eq_some_getLast hne).symm, rfl, rfl, rfl⟩
      have hprev' : (remLinks d t (endCell (.head p) l1)).prev t = some (.next (l1.getLast hne)) := by
        rw [← endCell_eq_getLast hne (.head p), ← hprev]
        simp [remLinks, hnext]
      simp only [link3Rem, hprev, bind_eq_bind, bind_some]
      rw [if_pos htail]
      refine (if_neg ?_).trans ?_
      · intro e
        have := hhead.symm.trans e
        rw [head?_eq_none_iff] at this
        exact hne this
      · split
        · next x hx => cases hprev'.symm.trans hx; rfl
        · next hx => exact absurd hprev' (hx _)
  · -- a thread follows: the tail word stays
    have hlast : (l1 ++ t :: l2).getLast? = l2.getLast? := by
      rw [getLast?_append_of_ne_nil _ (by simp), getLast?_cons_of_ne_nil hl2]
    refine ⟨remLinks d t (endCell (.head p) l1), ?_, ?_, rfl, rfl, rfl⟩
    · simp only [link3Rem, hprev, bind_eq_bind, bind_some]
      refine (if_neg ?_).trans rfl
      rw [htail, hlast]
      exact fun e => ht2 (mem_of_getLast? e)
    · refine ⟨hpre.chain, hpre.back, fun p' => ?_, hpre.apart⟩
      by_cases hp : p' = p
      · subst hp
        rw [update_self, getLast?_append_of_ne_nil _ hl2, ← hlast, ← htail]
        rfl
      · rw [update_of_ne hp, ← h.tail p']
        rfl

end Link3

/-! ## The table as a relation -/

/-- The table describes the relation `M`, "the thread is on the list of this
priority". With `dirty = some p` the bit of `p` may be set although its list is
empty. -/
def Holds (d : Dispatch τ) (M : τ → Nat → Prop) (dirty : Option Nat) : Prop :=
  ∃ q, Lists d q ∧ (∀ t p, t ∈ q p ↔ M t p) ∧ Bits d (fun p => (∃ t, M t p) ∨ dirty = some p)

/-- The relation without the thread `t`. -/
def Without (M : τ → Nat → Prop) (t : τ) : τ → Nat → Prop := fun u p => M u p ∧ u ≠ t

/-- The relation with the thread `t` on the list of `p`. -/
def With (M : τ → Nat → Prop) (t : τ) (p : Nat) : τ → Nat → Prop := fun u x => M u x ∨ (u = t ∧ x = p)

section Relation
variable {d : Dispatch τ} {M : τ → Nat → Prop} {x : Option Nat} {p : Nat} {t : τ}

theorem Holds.congr {M' : τ → Nat → Prop} (h : Holds d M x) (hM : ∀ u a, M u a ↔ M' u a) : Holds d M' x := by
  have : M = M' := by
    funext u a
    exact propext (hM u a)
  exact this ▸ h

theorem Holds.first (h : Holds d M x) (ht : d.thp p = some t) : M t p := by
  obtain ⟨q, hl, hm, -⟩ := h
  rw [hl.thp_eq] at ht
  exact (hm t p).mp (mem_of_mem_head? ht)

theorem Holds.empty (h : Holds d M x) (hp : d.thp p = none) (t : τ) : ¬M t p := by
  obtain ⟨q, hl, hm, -⟩ := h
  rw [hl.thp_eq, head?_eq_none_iff] at hp
  rw [← hm t p, hp]
  simp

/-- DISPATCH_HIGHEST_PRI is the greatest priority whose list is not empty. -/
theorem Holds.highest (h : Holds d M none) (hp : p < 256) (ht : M t p) :
    (∃ u, M u d.highestPri) ∧ p ≤ d.highestPri := by
  obtain ⟨q, -, -, hb⟩ := h
  obtain ⟨hS, hle⟩ := highestPri_spec hb hp (.inl ⟨t, ht⟩)
  exact ⟨hS.resolve_right (by simp), hle⟩

theorem bits_of_iff {S S' : Nat → Prop} (h : Bits d S) (hS : ∀ a, S a ↔ S' a) : Bits d S' := by
  have : S = S' := by
    funext a
    exact propext (hS a)
  exact this ▸ h

/-- The test of the head and the DISPATCH_CLR that follow a removal. -/
theorem Holds.clean (h : Holds d M (some p)) :
    Holds (if d.thp p = none then d.dispatchClr p else d) M none := by
  obtain ⟨q, hl, hm, hb⟩ := h
  by_cases hp : d.thp p = none
  · rw [if_pos hp]
    have hempty : ∀ t, ¬M t p := Holds.empty ⟨q, hl, hm, hb⟩ hp
    refine ⟨q, ?_, hm, bits_of_iff (dispatchClr_bits hb p) fun a => ?_⟩
    · have : (d.dispatchClr p).link = d.link ∧ (d.dispatchClr p).prev = d.prev ∧
          (d.dispatchClr p).tail = d.tail := by
        unfold dispatchClr
        dsimp only
        split_ifs <;> exact ⟨rfl, rfl, rfl⟩
      exact lists_congr hl this.1 this.2.1 this.2.2
    · constructor
      · rintro ⟨h1 | h1, h2⟩
        · exact .inl h1
        · exact absurd (some.inj h1).symm h2
      · rintro (⟨u, hu⟩ | h1)
        · exact ⟨.inl ⟨u, hu⟩, fun e => hempty u (e ▸ hu)⟩
        · cases h1
  · rw [if_neg hp]
    refine ⟨q, hl, hm, bits_of_iff hb fun a => ⟨?_, fun h1 => .inl (h1.resolve_right (by simp))⟩⟩
    rintro (h1 | h1)
    · exact .inl h1
    · obtain ⟨u, hu⟩ := ne_none_iff_exists'.mp hp
      have : M u p := Holds.first ⟨q, hl, hm, hb⟩ hu
      exact .inl ⟨u, some.inj h1 ▸ this⟩

theorem Holds.dispatchSet (h : Holds d M none) (p : Nat) : Holds (d.dispatchSet p) M (some p) := by
  obtain ⟨q, hl, hm, hb⟩ := h
  refine ⟨q, lists_congr hl rfl rfl rfl, hm, bits_of_iff (dispatchSet_bits hb p) fun a => ?_⟩
  simp [eq_comm]

theorem Holds.off {d' : Dispatch τ} (h : Holds d M x) (hhead : ∀ a, d'.link (.head a) = d.link (.head a))
    (hnext : ∀ u a, M u a → d'.link (.next u) = d.link (.next u))
    (hprev : ∀ u a, M u a → d'.prev u = d.prev u) (htail : d'.tail = d.tail) (hhi : d'.hi = d.hi)
    (hmid : d'.mid = d.mid) (hlo : d'.lo = d.lo) : Holds d' M x := by
  obtain ⟨q, hl, hm, hb⟩ := h
  refine ⟨q, ⟨fun a => ?_, fun a => ?_, htail ▸ hl.tail, hl.apart⟩, hm, bits_congr hb hhi hmid hlo⟩
  · exact chain_entry (hhead a) (fun u hu => hnext u a ((hm u a).mp hu)) (hl.chain a)
  · exact back_congr (fun u hu => hprev u a ((hm u a).mp hu)) (hl.back a)

theorem holds_link {d' : Dispatch τ} {q : Nat → List τ} {l : List τ} (hM : ∀ u a, u ∈ q a ↔ M u a)
    (hl : Lists d' (update q p l)) (hmem : ∀ u, u ∈ l ↔ u ∈ q p ∨ u = t)
    (hb : Bits d' (fun a => (∃ u, M u a) ∨ some p = some a)) : Holds d' (With M t p) none := by
  refine ⟨_, hl, fun u a => ?_, bits_of_iff hb fun a => ?_⟩
  · by_cases ha : a = p
    · subst ha
      rw [update_self, hmem, hM]
      simp [With]
    · rw [update_of_ne ha, hM]
      simp [With, ha]
  · constructor
    · rintro (⟨u, hu⟩ | h1)
      · exact .inl ⟨u, .inl hu⟩
      · exact .inl ⟨t, .inr ⟨rfl, (some.inj h1).symm⟩⟩
    · rintro (⟨u, hu | hu⟩ | h1)
      · exact .inl ⟨u, hu⟩
      · exact .inr (by rw [hu.2])
      · cases h1

variable [DecidableEq τ]

theorem Holds.beg (h : Holds d M (some p)) (ht : ∀ a, ¬M t a) :
    Holds (d.link3Beg p t) (With M t p) none := by
  obtain ⟨q, hl, hm, hb⟩ := h
  have hq : ∀ a, t ∉ q a := fun a => (hm t a).not.mpr (ht a)
  exact holds_link hm (link3Beg_lists hl hq) (by simp [or_comm]) (link3Beg_bits hb)

theorem Holds.fin (h : Holds d M (some p)) (ht : ∀ a, ¬M t a) :
    Holds (d.link3End p t) (With M t p) none := by
  obtain ⟨q, hl, hm, hb⟩ := h
  have hq : ∀ a, t ∉ q a := fun a => (hm t a).not.mpr (ht a)
  exact holds_link hm (link3End_lists hl hq) (by simp) (link3End_bits hb)

theorem Holds.begSet (h : Holds d M none) (ht : ∀ a, ¬M t a) :
    Holds ((d.link3Beg p t).dispatchSet p) (With M t p) none := by
  have he : (d.link3Beg p t).dispatchSet p = (d.dispatchSet p).link3Beg p t := by
    unfold link3Beg Dispatch.dispatchSet
    cases d.link (.head p) <;> rfl
  rw [he]
  exact (h.dispatchSet p).beg ht

theorem Holds.finSet (h : Holds d M none) (ht : ∀ a, ¬M t a) :
    Holds ((d.link3End p t).dispatchSet p) (With M t p) none := by
  have he : (d.link3End p t).dispatchSet p = (d.dispatchSet p).link3End p t := by
    unfold link3End Dispatch.dispatchSet
    cases d.tail p <;> rfl
  rw [he]
  exact (h.dispatchSet p).fin ht

theorem Holds.rem (h : Holds d M none) (ht : M t p) :
    ∃ d', d.link3Rem p t = some d' ∧ Holds d' (Without M t) (some p) := by
  obtain ⟨q, hl, hm, hb⟩ := h
  obtain ⟨l1, l2, hq⟩ := append_of_mem ((hm t p).mpr ht)
  obtain ⟨d', he, hl', hhi, hmid, hlo⟩ := link3Rem_lists hl hq
  have hnd : (l1 ++ t :: l2).Nodup := hq ▸ hl.nodup p
  refine ⟨d', he, _, hl', fun u a => ?_, bits_of_iff (bits_congr hb hhi hmid hlo) fun a => ?_⟩
  · by_cases ha : a = p
    · subst ha
      rw [update_self, ← erase_middle hnd, ← hq, (hl.nodup a).mem_erase_iff, hm]
      exact and_comm
    · rw [update_of_ne ha, hm]
      refine ⟨fun hu => ⟨hu, fun e => ?_⟩, fun hu => hu.1⟩
      subst e
      exact ha (hl.apart a p u ((hm u a).mpr hu) ((hm u p).mpr ht))
  · constructor
    · rintro (⟨u, hu⟩ | h1)
      · by_cases e : u = t
        · subst e
          have : a = p := hl.apart a p u ((hm u a).mpr hu) ((hm u p).mpr ht)
          exact .inr (by rw [this])
        · exact .inl ⟨u, hu, e⟩
      · cases h1
    · rintro (⟨u, hu⟩ | h1)
      · exact .inl ⟨u, hu.1⟩
      · exact .inl ⟨t, some.inj h1 ▸ ht⟩

end Relation

end Dispatch

end QRV.Nano
