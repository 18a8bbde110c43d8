import QRV.Nano.PrilRun

/- Many priority lists in one memory: the waiting lists of all synchronisation
   objects. `Waits m w` says that from every head the memory holds the list that `w`
   names, that no entry is on two of them, and that nobody has registered a position.
   An addition or a removal on one list is an update of `w` there (`Waits.add`,
   `Waits.rem`), and an entry that is on no list may be written to (`Waits.entry`).
   `Waits.add_some` and `Waits.rem_some` say the same for every fuel with which the
   loops end. -/
namespace QRV.Nano
open Function
open LinkCell StableQueue List

variable {Q A : Type}

/-! ## Fuel -/

theorem findLevel_mono {m : PrilMem Q A} {n fuel fuel' : Nat} {c : Cell Q A} {r : Level Q A}
    (h : findLevel m n fuel c = some r) (hle : fuel ≤ fuel') : findLevel m n fuel' c = some r := by
  induction fuel generalizing c fuel' with
  | zero => cases h
  | succ fuel ih =>
    obtain ⟨fuel', rfl⟩ : ∃ k, fuel' = k + 1 := ⟨fuel' - 1, by omega⟩
    rw [findLevel] at h ⊢
    split <;> rename_i hc <;> rw [hc] at h
    · exact h
    · dsimp only at h
      split_ifs at h ⊢ with hlt heq
      · exact h
      · exact h
      · split at h
        · cases h
        · exact ih h (by omega)

theorem remLevel_mono {m : PrilMem Q A} {n fuel fuel' : Nat} {c : Cell Q A} {r : Cell Q A × A}
    (h : remLevel m n fuel c = some r) (hle : fuel ≤ fuel') : remLevel m n fuel' c = some r := by
  induction fuel generalizing c fuel' with
  | zero => cases h
  | succ fuel ih =>
    obtain ⟨fuel', rfl⟩ : ∃ k, fuel' = k + 1 := ⟨fuel' - 1, by omega⟩
    rw [remLevel] at h ⊢
    split <;> rename_i hc <;> rw [hc] at h
    · exact h
    · dsimp only at h
      split_ifs at h ⊢ with heq
      · exact h
      · split at h
        · cases h
        · exact ih h (by omega)

section Mono
variable [DecidableEq Q] [DecidableEq A]

section
variable {m m' : PrilMem Q A} {fuel fuel' : Nat} {ph : Q} {e : A}

theorem prilAdd_mono (h : prilAdd fuel m ph e = some m') (hle : fuel ≤ fuel') : prilAdd fuel' m ph e = some m' := by
  rw [prilAdd, Option.map_eq_some_iff] at h ⊢
  obtain ⟨r, hr, rfl⟩ := h
  exact ⟨r, findLevel_mono hr hle, rfl⟩

theorem prilUnlink_mono
    (h : prilUnlink fuel m ph e = some m') (hle : fuel ≤ fuel') : prilUnlink fuel' m ph e = some m' := by
  unfold prilUnlink at h ⊢
  by_cases hf : ((m.type e).head || (m.type e).tail) = true
  · rw [if_pos hf] at h ⊢
    cases hr : remLevel m (prilPriority m e) fuel (.head ph) with
    | none =>
      rw [hr] at h
      cases h
    | some r =>
      rw [hr] at h
      rw [remLevel_mono hr hle]
      exact h
  · rw [if_neg hf] at h ⊢
    exact h

theorem prilRem_mono (h : prilRem fuel m ph e = some m') (hle : fuel ≤ fuel') : prilRem fuel' m ph e = some m' := by
  rw [prilRem, Option.bind_eq_some_iff] at h ⊢
  obtain ⟨m1, h1, h2⟩ := h
  exact ⟨m1, prilUnlink_mono h1 hle, h2⟩

end

end Mono

/-! ## The lists -/

/-- The list of every head. -/
structure Waits (m : PrilMem Q A) (w : Q → List A) : Prop where
  levels : ∀ q, ∃ ls, Levels m (.head q) ls ∧ ls.flatten = w q
  apart : ∀ q q' e, e ∈ w q → e ∈ w q' → q = q'
  flags : ∀ e, (m.type e).first = false
  updates : m.updateList = []

namespace Waits
variable {m m' : PrilMem Q A} {w : Q → List A} {q : Q} {e : A}

section
variable (h : Waits m w)
include h

theorem chain (q : Q) : Chain m.links (.head q) (w q) := by
  obtain ⟨ls, hls, hw⟩ := h.levels q
  exact hw ▸ hls.chain

theorem nodup (q : Q) : (w q).Nodup := (h.chain q).nodup

theorem prilList (q : Q) : PrilList m q (w q) (w q) := by
  obtain ⟨ls, hls, hw⟩ := h.levels q
  rw [← hw]
  exact hls.prilList ⟨hls.desc, fun _ => rfl⟩

theorem first (q : Q) : m.links (.head q) = (w q).head? := (h.chain q).first

theorem prio (e : A) : prilPriority m e = (m.priority e).toNat := by
  rw [prilPriority, h.flags e]
  rfl

theorem entry (he : ∀ q, e ∉ w q) (hlinks : m'.links = m.links)
    (hprev : ∀ x, x ≠ e → m'.prev x = m.prev x) (htype : ∀ x, x ≠ e → m'.type x = m.type x)
    (hprio : ∀ x, x ≠ e → m'.priority x = m.priority x) (hflag : (m'.type e).first = false)
    (hupd : m'.updateList = m.updateList) : Waits m' w := by
  refine ⟨fun q => ?_, h.apart, fun x => ?_, hupd.trans h.updates⟩
  · obtain ⟨ls, hls, hw⟩ := h.levels q
    have hne : ∀ x ∈ ls.flatten, x ≠ e := fun x hx hxe => he q (hw ▸ hxe ▸ hx)
    refine ⟨ls, levels_entry (congrFun hlinks _) ⟨fun x _ => congrFun hlinks _, fun x hx => hprev x (hne x hx),
      fun x hx => htype x (hne x hx), fun x hx => hprio x (hne x hx)⟩ hls, hw⟩
  · by_cases hx : x = e
    · exact hx ▸ hflag
    · rw [htype x hx]
      exact h.flags x

theorem setPriority [DecidableEq A] (he : ∀ q, e ∉ w q) (prio : UInt8) :
    Waits { m with priority := update m.priority e prio } w := by
  refine h.entry he rfl (fun _ _ => rfl) (fun _ _ => rfl) (fun x hx => ?_) (h.flags e) rfl
  exact update_of_ne hx prio m.priority

/-- An entry changes its priority in place, between the same entries as before. -/
theorem setPrio (he : e ∈ w q) (hlinks : m'.links = m.links) (hprev : m'.prev = m.prev)
    (htype : m'.type = m.type) (hprio : ∀ x, x ≠ e → m'.priority x = m.priority x)
    (hside : ∀ x ∈ w q, x ≠ e → m.priority e < m.priority x ∧ m'.priority e < m.priority x ∨
      m.priority x < m.priority e ∧ m.priority x < m'.priority e)
    (hupd : m'.updateList = m.updateList) : Waits m' w := by
  have hflag : ∀ x, (m'.type x).first = false := fun x => by
    rw [htype]
    exact h.flags x
  refine ⟨fun q' => ?_, h.apart, hflag, hupd.trans h.updates⟩
  obtain ⟨ls, hls, hw⟩ := h.levels q'
  refine ⟨ls, ?_, hw⟩
  have hsame : ∀ l : List A, e ∉ l → SameEntries m m' l := fun l hl =>
    ⟨fun x _ => congrFun hlinks _, fun x _ => congrFun hprev x, fun x _ => congrFun htype x,
      fun x hx => hprio x fun hxe => hl (hxe ▸ hx)⟩
  by_cases hq : q' = q
  · subst hq
    rw [← hw] at he hside
    obtain ⟨ls1, l, ls2, rfl, hel⟩ : ∃ ls1 l ls2, ls = ls1 ++ l :: ls2 ∧ e ∈ l := by
      obtain ⟨l, hl, hel⟩ := mem_flatten.mp he
      obtain ⟨ls1, ls2, rfl⟩ := append_of_mem hl
      exact ⟨ls1, l, ls2, rfl, hel⟩
    have hlev : Levels m (endCell (.head q') ls1.flatten) (l :: ls2) := levels_append hls
    have hkey : ∀ x, prilPriority m x = (m.priority x).toNat := h.prio
    have hkey' : ∀ x, prilPriority m' x = (m'.priority x).toNat := fun x => by
      rw [prilPriority, hflag x]
      rfl
    -- the entry is alone in its level
    have hnd := hls.chain.nodup
    rw [flatten_append, flatten_cons] at hnd
    have hall : ∀ x ∈ l, x = e := by
      intro x hx
      by_contra hne
      have heq := hlev.1.prio x hx e hel
      rw [hkey, hkey] at heq
      have hs := hside x (by simp [hx]) hne
      simp only [UInt8.lt_iff_toNat_lt] at hs
      omega
    obtain ⟨a, r, rfl⟩ := exists_cons_of_ne_nil (ne_nil_of_mem hel)
    obtain rfl : a = e := hall a mem_cons_self
    have hndl := (nodup_append.mp (nodup_append.mp hnd).2.1)
    obtain rfl : r = [] := eq_nil_iff_forall_not_mem.mpr fun x hx =>
      (nodup_cons.mp hndl.1).1 (hall x (.tail _ hx) ▸ hx)
    have hoff1 : a ∉ ls1.flatten := fun hm => (nodup_append.mp hnd).2.2 a hm a (by simp) rfl
    have hoff2 : a ∉ ls2.flatten := fun hm => hndl.2.2 a mem_cons_self a hm rfl
    have hs1 := hsame _ hoff1
    have hs2 := hsame _ hoff2
    have hup : ∀ x ∈ ls1.flatten, (m'.priority a).toNat < (m.priority x).toNat := by
      intro x hx
      have hs := hside x (by simp [hx]) fun hxe => hoff1 (hxe ▸ hx)
      have hlt := levels_lt hls x hx a (by simp)
      simp only [UInt8.lt_iff_toNat_lt] at hs
      rw [hkey, hkey] at hlt
      omega
    have hdown : ∀ x ∈ ls2.flatten, (m.priority x).toNat < (m'.priority a).toNat := by
      intro x hx
      have hs := hside x (by simp [hx]) fun hxe => hoff2 (hxe ▸ hx)
      have hlt := hlev.2.1 a mem_cons_self x hx
      simp only [UInt8.lt_iff_toNat_lt] at hs
      rw [hkey, hkey] at hlt
      omega
    refine levels_splice hls (fun d _ => congrFun hlinks d) hs1.prev hs1.type hs1.priority ?_ ⟨?_, ?_, ?_⟩
    · intro x hx y hy
      rw [hkey', hkey]
      rw [flatten_cons, singleton_append] at hy
      cases mem_cons.mp hy with
      | inl hya => exact hya ▸ hup x hx
      | inr hy =>
        rw [hs2.priority y hy]
        exact Nat.lt_trans (hdown y hy) (hup x hx)
    · have hok := hlev.1
      refine ⟨hok.ne, hlinks ▸ hok.seg, fun x hx y hy => ?_, ?_, ?_, ?_, ?_⟩
      · rw [hall x hx, hall y hy]
      · rw [htype]
        exact hok.tails
      · rw [htype]
        exact hok.heads
      · rw [hprev]
        exact hok.prevHead
      · rw [hprev]
        exact hok.prevRest
    · intro x hx y hy
      rw [hkey', hkey', hs2.priority y hy, hall x hx]
      exact hdown y hy
    · exact levels_entry (congrFun hlinks _) hs2 hlev.2.2
  · exact levels_entry (congrFun hlinks _) (hsame _ fun hm => hq (h.apart q' q e (hw ▸ hm) he)) hls

end

variable [DecidableEq Q] [DecidableEq A]

section
variable (h : Waits m w)
include h

omit [DecidableEq A] in
/-- What was done to the list of `q` with entries that are on no other list. -/
theorem update {l l' : List A} (ht : Touches m m' (.head q) l)
    (hl : ∀ x ∈ l, ∀ q', x ∈ w q' → q' = q) (hl' : ∀ x ∈ l', x ∈ l)
    (hlev : ∃ ls, Levels m' (.head q) ls ∧ ls.flatten = l') : Waits m' (update w q l') := by
  refine ⟨fun q' => ?_, apart_update h.apart fun x hx => hl x (hl' x hx), fun e => (ht.first e).trans (h.flags e),
    ht.updates.trans h.updates⟩
  by_cases hq : q' = q
  · rw [hq, update_self]
    exact hlev
  · rw [update_of_ne hq]
    obtain ⟨ls, hls, hw⟩ := h.levels q'
    have hoff : ∀ x ∈ ls.flatten, x ∉ l := fun x hx hxl => hq (hl x hxl q' (hw ▸ hx))
    exact ⟨ls, levels_entry (ht.links _ (head_off hq)) ⟨fun x hx => ht.links _ (next_off (hoff x hx)),
      fun x hx => ht.prev x (hoff x hx), fun x hx => ht.type x (hoff x hx), fun x _ => ht.priority x⟩ hls, hw⟩

theorem add (q : Q) (fuel : Nat) (he : ∀ q, e ∉ w q) (hf : (w q).length < fuel) :
    ∃ m', prilAdd fuel m q e = some m' ∧
      Waits m' (Function.update w q (enqueue (prilPriority m) e (w q))) ∧ m'.priority = m.priority := by
  obtain ⟨ls, hls, hw⟩ := h.levels q
  have hlen : ls.length < fuel := Nat.lt_of_le_of_lt hls.length_le (hw ▸ hf)
  obtain ⟨m', ls', q1, q2, hrun, hls', ht, hq, hq', h1, h2⟩ := prilAdd_levels hls (hw ▸ he q) hlen
  have henq : enqueue (prilPriority m) e (w q) = ls'.flatten := by
    rw [← hw, hq, hq']
    exact enqueue_append h1 h2
  refine ⟨m', hrun, h.update ht ?_ ?_ ⟨ls', hls', henq.symm⟩, funext ht.priority⟩
  · intro x hx q' hxq
    cases mem_cons.mp hx with
    | inl hxe => exact absurd (hxe ▸ hxq) (he q')
    | inr hx => exact h.apart q' q x hxq (hw ▸ hx)
  · intro x hx
    rw [henq, hq'] at hx
    rw [hq]
    simp only [mem_append, mem_cons] at hx ⊢
    tauto

theorem rem (q : Q) (fuel : Nat) (he : e ∈ w q) (hf : (w q).length < fuel) :
    ∃ m', prilRem fuel m q e = some m' ∧ Waits m' (Function.update w q ((w q).erase e)) ∧
      m'.priority = m.priority := by
  obtain ⟨ls, hls, hw⟩ := h.levels q
  have hlen : ls.length < fuel := Nat.lt_of_le_of_lt hls.length_le (hw ▸ hf)
  have hu : ∀ u ∈ m.updateList, u.pril ≠ some e := by
    rw [h.updates]
    exact nofun
  obtain ⟨m', ls', hrun, hls', ht, hq⟩ := prilRem_levels hls (hw ▸ he) hlen hu
  refine ⟨m', hrun, h.update ht (fun x hx q' hxq => h.apart q' q x hxq (hw ▸ hx)) ?_ ⟨ls', hls', hw ▸ hq⟩,
    funext ht.priority⟩
  intro x hx
  rw [hw]
  exact mem_of_mem_erase hx

omit h in
omit [DecidableEq A] in
theorem mem_add {key : A → Nat} {q' : Q} {x : A} :
    x ∈ Function.update w q (enqueue key e (w q)) q' ↔ x ∈ w q' ∨ q' = q ∧ x = e := by
  by_cases hq : q' = q
  · rw [hq, update_self, mem_enqueue]
    tauto
  · rw [update_of_ne hq]
    tauto

theorem mem_rem {q' : Q} {x : A} :
    x ∈ Function.update w q ((w q).erase e) q' ↔ x ∈ w q' ∧ (q' = q → x ≠ e) := by
  by_cases hq : q' = q
  · rw [hq, update_self, (h.nodup q).mem_erase_iff]
    tauto
  · rw [update_of_ne hq]
    tauto

theorem not_mem_rem (he : e ∈ w q) (q' : Q) : e ∉ Function.update w q ((w q).erase e) q' := by
  intro hm
  obtain ⟨hq, hne⟩ := h.mem_rem.mp hm
  exact hne (h.apart q' q e hq he) rfl

/-- An entry that is taken off its list and put back leaves the members as they were. -/
theorem mem_move (he : e ∈ w q) {key : A → Nat} {q' : Q} {x : A} :
    x ∈ Function.update (Function.update w q ((w q).erase e)) q
      (enqueue key e (Function.update w q ((w q).erase e) q)) q' ↔ x ∈ w q' := by
  rw [mem_add, h.mem_rem]
  constructor
  · rintro (⟨hx, -⟩ | ⟨rfl, rfl⟩)
    · exact hx
    · exact he
  · intro hx
    by_cases hxe : q' = q ∧ x = e
    · exact .inr hxe
    · exact .inl ⟨hx, fun hq hx => hxe ⟨hq, hx⟩⟩

theorem add_some {fuel : Nat} (he : ∀ q, e ∉ w q) (hrun : prilAdd fuel m q e = some m') :
    Waits m' (Function.update w q (enqueue (prilPriority m) e (w q))) ∧ m'.priority = m.priority := by
  obtain ⟨m1, hrun1, h1⟩ := h.add q (max fuel ((w q).length + 1)) he (by omega)
  rw [prilAdd_mono hrun (Nat.le_max_left _ _), Option.some.injEq] at hrun1
  exact hrun1 ▸ h1

theorem rem_some {fuel : Nat} (he : e ∈ w q) (hrun : prilRem fuel m q e = some m') :
    Waits m' (Function.update w q ((w q).erase e)) ∧ m'.priority = m.priority := by
  obtain ⟨m1, hrun1, h1⟩ := h.rem q (max fuel ((w q).length + 1)) he (by omega)
  rw [prilRem_mono hrun (Nat.le_max_left _ _), Option.some.injEq] at hrun1
  exact hrun1 ▸ h1

end

end Waits

end QRV.Nano
