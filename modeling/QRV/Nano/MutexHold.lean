import QRV.Nano.MutexLists

/- The hold lists of threads: the mutexes a thread owns and somebody waits for. The
   links of such a list are in the first waiters of its mutexes, so what a list is
   depends on who is first on the waiting lists. Read through the first waiters
   (`holdLinks`, `holdPrev`) it is a doubly linked list of mutexes.

   `HoldLists st hl` says that every hold list is the list `hl` names, with its back
   links, in descending order of the first waiters' priorities, and that no mutex is on
   two of them. mutex_holdlist_rem takes a mutex off its list (`HoldLists.rem`),
   mutex_holdlist_add puts it at its place (`HoldLists.add`), and nothing changes as long
   as the mutexes on hold lists keep their first waiters (`HoldLists.congr`). -/
namespace QRV.Nano.Mutex
open Function (update update_of_ne update_self)
open List
open LinkCell StableQueue

variable {T Q E : Type}

/-- The hold lists as links between mutexes. -/
def holdLinks (st : St T Q E) : Links T Q
  | .head thp => st.mutexHoldlist thp
  | .next syp => (st.first syp).bind st.muNext

/-- The address of a link. -/
def holdCell (st : St T Q E) : Cell T Q → Option (Cell T (Entry T Q E))
  | .head thp => some (.head thp)
  | .next syp => (st.first syp).map .next

def holdPrev (st : St T Q E) (syp : Q) : Option (Cell T (Entry T Q E)) := (st.first syp).bind st.muPrev

/-- The priority of the first waiter. -/
def firstPriority (st : St T Q E) (syp : Q) : Nat := ((st.first syp).map fun e => (st.pril.priority e).toNat).getD 0

/-- The hold list of every thread. -/
structure HoldLists (st : St T Q E) (hl : T → List Q) : Prop where
  first : ∀ thp, ∀ syp ∈ hl thp, ∃ e, st.first syp = some e ∧ e.isEvent = false
  inj : ∀ syp syp' e, st.first syp = some e → st.first syp' = some e → syp = syp'
  apart : ∀ thp thp' syp, syp ∈ hl thp → syp ∈ hl thp' → thp = thp'
  chain : ∀ thp, Chain (holdLinks st) (.head thp) (hl thp)
  back : ∀ thp, Back (holdCell st) (holdPrev st) (.head thp) (hl thp)
  desc : ∀ thp, Desc (firstPriority st) (hl thp)

/-! ## Reading and writing through the first waiters -/

section
variable {st st' : St T Q E} {hl : T → List Q} {d : Cell T Q} {c : Cell T (Entry T Q E)} {syp : Q} {e : Entry T Q E}

theorem held_holdCell (h : holdCell st d = some c) : st.held c = holdLinks st d := by
  cases d with
  | head thp =>
    cases h
    rfl
  | next syp =>
    obtain ⟨e, he, rfl⟩ := Option.map_eq_some_iff.mp h
    rw [holdLinks, he]
    rfl

theorem HoldLists.cell (h : HoldLists st hl) (thp : T) {l : List Q} (hl' : ∀ syp ∈ l, syp ∈ hl thp) :
    ∃ c, holdCell st (endCell (.head thp) l) = some c := by
  by_cases hne : l = []
  · rw [hne]
    exact ⟨_, rfl⟩
  · rw [endCell_eq_getLast hne]
    obtain ⟨e, he, -⟩ := h.first thp _ (hl' _ (getLast_mem hne))
    exact ⟨.next e, by rw [holdCell, he]; rfl⟩

variable {thp : T} {l1 l2 : List Q}

theorem HoldLists.deques (h : HoldLists st hl) : Deques (holdCell st) (holdLinks st) (holdPrev st) hl :=
  ⟨h.chain, h.back, h.apart⟩

theorem holdCell_congr (hfirst : st'.first = st.first) : holdCell st' = holdCell st := by
  funext d
  cases d with
  | head t => rfl
  | next q => rw [holdCell, holdCell, hfirst]

theorem firstPriority_congr (hfirst : st'.first = st.first) (hprio : st'.pril.priority = st.pril.priority) :
    firstPriority st' = firstPriority st := by
  funext q
  rw [firstPriority, firstPriority, hfirst, hprio]

/-- The loop of mutex_holdlist_add stops before the first mutex whose first waiter is lower. -/
theorem holdlistFind_spec (prio : UInt8) {fuel : Nat} {l : List Q} (hc : holdCell st d = some c)
    (hl : Chain (holdLinks st) d l) (hf : ∀ q ∈ l, ∃ e, st.first q = some e ∧ e.isEvent = false)
    (hlen : l.length < fuel) : ∃ l1 l2 c', l = l1 ++ l2 ∧
      holdlistFind st prio fuel c = some (c', l2.head?.bind st.first) ∧ holdCell st (endCell d l1) = some c' ∧
      (∀ q ∈ l1, prio.toNat ≤ firstPriority st q) ∧ ∀ q ∈ l2.head?, firstPriority st q < prio.toNat := by
  induction l generalizing d c fuel with
  | nil =>
    obtain ⟨fuel, rfl⟩ : ∃ k, fuel = k + 1 := ⟨fuel - 1, by simp at hlen; omega⟩
    refine ⟨[], [], c, rfl, ?_, hc, by simp, by simp⟩
    rw [holdlistFind, held_holdCell hc, show holdLinks st d = none from hl]
    rfl
  | cons q l ih =>
    obtain ⟨fuel, rfl⟩ : ∃ k, fuel = k + 1 := ⟨fuel - 1, by simp at hlen; omega⟩
    obtain ⟨e, he, hev⟩ := hf q mem_cons_self
    have hprio : firstPriority st q = (st.pril.priority e).toNat := by
      rw [firstPriority, he]
      rfl
    by_cases hlt : st.pril.priority e < prio
    · refine ⟨[], q :: l, c, rfl, ?_, hc, by simp, fun q' hq' => ?_⟩
      · rw [holdlistFind, held_holdCell hc, hl.1]
        simp [he, hlt]
      · cases hq'
        rw [hprio]
        exact UInt8.lt_iff_toNat_lt.mp hlt
    · have hcell : holdCell st (.next q) = some (.next e) := by
        rw [holdCell, he]
        rfl
      obtain ⟨l1, l2, c', hlist, hfind, hend, hup, hdown⟩ := ih hcell hl.2
        (fun q' hq' => hf q' (.tail _ hq')) (Nat.lt_of_succ_lt_succ hlen)
      refine ⟨q :: l1, l2, c', by rw [hlist]; rfl, ?_, hend, forall_mem_cons.mpr ⟨?_, hup⟩, hdown⟩
      · rw [holdlistFind, held_holdCell hc, hl.1]
        simp [he, hlt, hev, hfind]
      · rw [hprio]
        exact UInt8.le_iff_toNat_le.mp (UInt8.not_lt.mp hlt)

/-- As long as the mutexes on hold lists keep their first waiters, and these their priorities. -/
theorem HoldLists.congr (h : HoldLists st hl) (hnext : st'.muNext = st.muNext) (hprev : st'.muPrev = st.muPrev)
    (hhold : st'.mutexHoldlist = st.mutexHoldlist)
    (hinj : ∀ q q' e, st'.first q = some e → st'.first q' = some e → q = q')
    (hfirst : ∀ t, ∀ q ∈ hl t, st'.first q = st.first q)
    (hprio : ∀ t, ∀ q ∈ hl t, firstPriority st' q = firstPriority st q) : HoldLists st' hl := by
  refine ⟨fun t q hq => ?_, hinj, h.apart, fun t => ?_, fun t => ?_, fun t => ?_⟩
  · rw [hfirst t q hq]
    exact h.first t q hq
  · have hhead : holdLinks st' (.head t) = holdLinks st (.head t) := congrFun hhold t
    exact chain_entry hhead (fun q hq => by rw [holdLinks, holdLinks, hfirst t q hq, hnext]) (h.chain t)
  · refine back_congr_cells (fun d hd => ?_) (fun q hq => ?_) (h.back t)
    · cases mem_cons.mp (cells_subset hd) with
      | inl hd => rw [hd]; rfl
      | inr hd =>
        obtain ⟨q, hq, rfl⟩ := mem_map.mp hd
        rw [holdCell, holdCell, hfirst t q hq]
    · rw [holdPrev, holdPrev, hfirst t q hq, hprev]
  · exact List.Pairwise.imp_of_mem (fun ha hb hab => by rw [hprio t _ ha, hprio t _ hb]; exact hab) (h.desc t)

variable [DecidableEq T] [DecidableEq Q] [DecidableEq E]

@[simp] theorem first_setHeld (st : St T Q E) (c : Cell T (Entry T Q E)) (v : Option Q) :
    (st.setHeld c v).first = st.first := by
  cases c <;> rfl

@[simp] theorem first_setMuPrev (st : St T Q E) (e : Entry T Q E) (c : Option (Cell T (Entry T Q E))) :
    (st.setMuPrev e c).first = st.first := rfl

theorem bind_first_update {α : Type} (hinj : ∀ q q' e, st.first q = some e → st.first q' = some e → q = q')
    (he : st.first syp = some e) (f : Entry T Q E → Option α) (v : Option α) (q : Q) :
    (st.first q).bind (update f e v) = update (fun q => (st.first q).bind f) syp v q := by
  by_cases hq : q = syp
  · rw [hq, update_self, he]
    exact update_self _ _ _
  · rw [update_of_ne hq]
    cases hf : st.first q with
    | none => rfl
    | some x => exact update_of_ne (fun hx : x = e => hq (hinj q syp e (hx ▸ hf) he)) _ _

section
variable (hinj : ∀ syp syp' e, st.first syp = some e → st.first syp' = some e → syp = syp')
include hinj

theorem holdLinks_setHeld
    (h : holdCell st d = some c) (v : Option Q) : holdLinks (st.setHeld c v) = (holdLinks st).set d v := by
  funext x
  cases d with
  | head thp =>
    cases h
    cases x with
    | head t =>
      by_cases ht : t = thp
      · rw [ht, set_self]
        exact update_self _ _ _
      · rw [set_off (fun he => ht (Cell.head.inj he))]
        exact update_of_ne ht _ _
    | next q => rw [set_head_next]; rfl
  | next syp =>
    obtain ⟨e, he, rfl⟩ := Option.map_eq_some_iff.mp h
    cases x with
    | head t => rw [set_next_head]; rfl
    | next q =>
      refine (bind_first_update hinj he st.muNext v q).trans ?_
      by_cases hq : q = syp
      · rw [hq, set_self, update_self]
      · rw [set_off (fun hc => hq (Cell.next.inj hc)), update_of_ne hq]
        rfl

theorem holdPrev_setMuPrev (he : st.first syp = some e) (v : Option (Cell T (Entry T Q E))) :
    holdPrev (st.setMuPrev e v) = update (holdPrev st) syp v :=
  funext (bind_first_update hinj he st.muPrev v)

end

@[simp] theorem holdPrev_setHeld (st : St T Q E) (c : Cell T (Entry T Q E)) (v : Option Q) :
    holdPrev (st.setHeld c v) = holdPrev st := by
  cases c <;> rfl

theorem holdPrev_stores (hinj : ∀ syp syp' e, st.first syp = some e → st.first syp' = some e → syp = syp')
    (he : st.first syp = some e) (c : Cell T (Entry T Q E)) (v : Option Q) (w : Option (Cell T (Entry T Q E))) :
    holdPrev ((st.setHeld c v).setMuPrev e w) = update (holdPrev st) syp w := by
  rw [holdPrev_setMuPrev (by rwa [first_setHeld]) (by rwa [first_setHeld]), holdPrev_setHeld]

@[simp] theorem holdLinks_setMuPrev (st : St T Q E) (e : Entry T Q E) (v : Option (Cell T (Entry T Q E))) :
    holdLinks (st.setMuPrev e v) = holdLinks st := by
  funext x
  cases x <;> rfl

/-! ## mutex_holdlist_rem -/

omit [DecidableEq E] in
theorem HoldLists.unlinked (h : HoldLists st hl) (hlist : hl thp = l1 ++ syp :: l2) (hfirst : st'.first = st.first)
    (hprio : st'.pril.priority = st.pril.priority)
    (hlinks : holdLinks st' = (holdLinks st).set (endCell (.head thp) l1) (holdLinks st (.next syp)))
    (hhead : ∀ q ∈ l2.head?, holdPrev st' q = holdCell st (endCell (.head thp) l1))
    (hrest : ∀ q, l2.head? ≠ some q → holdPrev st' q = holdPrev st q) :
    HoldLists st' (update hl thp (l1 ++ l2)) := by
  have hd : Deques (holdCell st) (holdLinks st') (holdPrev st') (update hl thp (l1 ++ l2)) := by
    rw [hlinks]
    exact h.deques.splice [syp] [] hlist (by simp) (fun d hd _ => set_off hd _ _) trivial (set_self _ _ _) trivial
      hhead fun q _ => hrest q
  have hsub : ∀ t, (update hl thp (l1 ++ l2) t).Sublist (hl t) := by
    intro t
    by_cases ht : t = thp
    · rw [ht, update_self, hlist]
      exact (List.Sublist.refl l1).append (sublist_cons_self syp l2)
    · rw [update_of_ne ht]
  refine ⟨fun t q hq => ?_, hfirst ▸ h.inj, hd.apart, hd.chain, holdCell_congr hfirst ▸ hd.back, fun t => ?_⟩
  · rw [hfirst]
    exact h.first t q ((hsub t).subset hq)
  · rw [firstPriority_congr hfirst hprio]
    exact (h.desc t).sublist (hsub t)

theorem HoldLists.rem (h : HoldLists st hl) (hq : syp ∈ hl thp) :
    ∃ st', mutexHoldlistRem st syp = some st' ∧ OnlyHold st st' ∧
      HoldLists st' (update hl thp ((hl thp).erase syp)) := by
  obtain ⟨l1, l2, hlist⟩ := append_of_mem hq
  have hnd : (l1 ++ syp :: l2).Nodup := hlist ▸ (h.chain thp).nodup
  obtain ⟨e, he, hev⟩ := h.first thp syp hq
  obtain ⟨c, hc⟩ := h.cell thp (l := l1) fun q hq => by rw [hlist]; simp [hq]
  -- the links of the first waiter
  have hb := h.back thp
  have hch := h.chain thp
  rw [hlist] at hb hch
  have hprev : st.muPrev e = some c := by
    have := ((back_append _ _ _ _).mp hb).2.1
    rw [holdPrev, he, hc] at this
    exact this
  have hread : holdLinks st (.next syp) = st.muNext e := by
    rw [holdLinks, he]
    rfl
  have hnext : st.muNext e = l2.head? := hread.symm.trans ((chain_append _ _ _ _).mp hch).2.2.first
  have hlinks : holdLinks (st.setHeld c (st.muNext e)) =
      (holdLinks st).set (endCell (.head thp) l1) (holdLinks st (.next syp)) := by
    rw [holdLinks_setHeld h.inj hc, hread]
  rw [hlist, erase_middle hnd]
  cases l2 with
  | nil =>
    refine ⟨st.setHeld c (st.muNext e), ?_, setHeld_onlyHold _ _ _, h.unlinked hlist (first_setHeld _ _ _) ?_ hlinks
      (nofun) fun q _ => congrFun (holdPrev_setHeld st c _) q⟩
    · simp [mutexHoldlistRem, he, hev, hprev, hnext]
    · cases c <;> rfl
  | cons s2 r =>
    obtain ⟨e2, he2, hev2⟩ := h.first thp s2 (by rw [hlist]; simp)
    have hprev2 := holdPrev_stores h.inj he2 c (st.muNext e) (some c)
    refine ⟨(st.setHeld c (st.muNext e)).setMuPrev e2 (some c), ?_,
      (setHeld_onlyHold _ _ _).trans (setMuPrev_onlyHold _ _ _),
      h.unlinked hlist (first_setHeld _ _ _) ?_ (by rw [holdLinks_setMuPrev, hlinks]) ?_ ?_⟩
    · simp [mutexHoldlistRem, he, hev, hprev, hnext, he2, hev2]
    · cases c <;> rfl
    · intro q hq
      cases hq
      rw [hprev2, update_self, hc]
    · intro q hq
      rw [hprev2]
      exact update_of_ne (fun hqs : q = s2 => hq (by rw [hqs]; rfl)) _ _

/-! ## mutex_holdlist_add -/

omit [DecidableEq E] in
theorem HoldLists.linked (h : HoldLists st hl) (hlist : hl thp = l1 ++ l2) (hnew : ∀ t, syp ∉ hl t)
    (hsyp : ∃ e, st.first syp = some e ∧ e.isEvent = false) (hfirst : st'.first = st.first)
    (hprio : st'.pril.priority = st.pril.priority)
    (hlinks : holdLinks st' = ((holdLinks st).set (.next syp) (holdLinks st (endCell (.head thp) l1))).set
      (endCell (.head thp) l1) (some syp))
    (hself : holdPrev st' syp = holdCell st (endCell (.head thp) l1))
    (hhead : ∀ q ∈ l2.head?, holdPrev st' q = holdCell st (.next syp))
    (hrest : ∀ q, q ≠ syp → l2.head? ≠ some q → holdPrev st' q = holdPrev st q)
    (hup : ∀ q ∈ l1, firstPriority st syp ≤ firstPriority st q)
    (hdown : ∀ q ∈ l2, firstPriority st q < firstPriority st syp) :
    HoldLists st' (update hl thp (l1 ++ syp :: l2)) := by
  have hne : endCell (.head thp) l1 ≠ .next syp :=
    endCell_ne_next fun hm => hnew thp (hlist ▸ mem_append_left _ hm)
  have hd : Deques (holdCell st) (holdLinks st') (holdPrev st') (update hl thp (l1 ++ syp :: l2)) := by
    rw [hlinks]
    refine h.deques.splice [] [syp] hlist (by simpa using hnew) (fun d hd hn => ?_) ⟨set_self _ _ _, trivial⟩ ?_
      ⟨hself, trivial⟩ hhead fun q hq => hrest q (by simpa using hq)
    · rw [set_off hd, set_off (hn syp (by simp))]
    · exact (set_off hne.symm _ _).trans (set_self _ _ _)
  refine ⟨fun t q hq => ?_, hfirst ▸ h.inj, hd.apart, hd.chain, holdCell_congr hfirst ▸ hd.back, fun t => ?_⟩
  · rw [hfirst]
    by_cases ht : t = thp
    · rw [ht, update_self] at hq
      by_cases hqs : q = syp
      · exact hqs ▸ hsyp
      · exact h.first thp q (by rw [hlist]; simpa [hqs] using hq)
    · rw [update_of_ne ht] at hq
      exact h.first t q hq
  · rw [firstPriority_congr hfirst hprio]
    by_cases ht : t = thp
    · subst ht
      rw [update_self]
      have hd := h.desc t
      rw [hlist] at hd
      obtain ⟨d1, d2, d12⟩ := desc_append.mp hd
      exact desc_append.mpr ⟨d1, pairwise_cons.mpr ⟨fun q hq => Nat.le_of_lt (hdown q hq), d2⟩,
        fun a ha => forall_mem_cons.mpr ⟨hup a ha, d12 a ha⟩⟩
    · rw [update_of_ne ht]
      exact h.desc t

theorem HoldLists.add (h : HoldLists st hl) {fuel : Nat} (hnew : ∀ t, syp ∉ hl t) (he : st.first syp = some e)
    (hev : e.isEvent = false) (hlen : (hl thp).length < fuel) :
    ∃ st', mutexHoldlistAdd fuel st thp syp = some st' ∧ OnlyHold st st' ∧
      HoldLists st' (update hl thp (enqueue (firstPriority st) syp (hl thp))) := by
  obtain ⟨l1, l2, c, hlist, hfind, hc, hup, hhead⟩ := holdlistFind_spec (st.pril.priority e)
    (d := .head thp) (c := .head thp) rfl (h.chain thp) (h.first thp) hlen
  have hprio : firstPriority st syp = (st.pril.priority e).toNat := by
    rw [firstPriority, he]
    rfl
  rw [← hprio] at hup hhead
  have hdown : ∀ q ∈ l2, firstPriority st q < firstPriority st syp := by
    have hd := h.desc thp
    rw [hlist] at hd
    have hd2 := (desc_append.mp hd).2.1
    cases l2 with
    | nil => exact nofun
    | cons a l2 =>
      have ha := hhead a rfl
      exact forall_mem_cons.mpr ⟨ha, fun q hq => Nat.lt_of_le_of_lt ((pairwise_cons.mp hd2).1 q hq) ha⟩
  rw [hlist, enqueue_append hup hdown]
  -- the links of the new first waiter
  have hcell : holdCell st (.next syp) = some (.next e) := by
    rw [holdCell, he]
    rfl
  generalize hst1 : (st.setHeld (.next e) (st.held c)).setMuPrev e (some c) = st1
  have hfirst1 : st1.first = st.first := by
    rw [← hst1, first_setMuPrev, first_setHeld]
  have hinj1 : ∀ q q' x, st1.first q = some x → st1.first q' = some x → q = q' := hfirst1 ▸ h.inj
  have hlinks1 : holdLinks st1 = (holdLinks st).set (.next syp) (holdLinks st (endCell (.head thp) l1)) := by
    rw [← hst1, holdLinks_setMuPrev, holdLinks_setHeld h.inj hcell, held_holdCell hc]
  have hprev1 : holdPrev st1 = update (holdPrev st) syp (some c) := hst1 ▸ holdPrev_stores h.inj he _ _ _
  have hold1 : OnlyHold st st1 := hst1 ▸ (setHeld_onlyHold _ _ _).trans (setMuPrev_onlyHold _ _ _)
  have hpril : ∀ {x : St T Q E}, OnlyHold st x → x.pril.priority = st.pril.priority := by
    rintro x ⟨n, p, l, rfl⟩
    rfl
  have hc1 : holdCell st1 (endCell (.head thp) l1) = some c := holdCell_congr hfirst1 ▸ hc
  cases l2 with
  | nil =>
    have hold := hold1.trans (setHeld_onlyHold st1 c (some syp))
    refine ⟨st1.setHeld c (some syp), ?_, hold, h.linked hlist hnew ⟨e, he, hev⟩ (by rw [first_setHeld, hfirst1])
      (hpril hold) (by rw [holdLinks_setHeld hinj1 hc1, hlinks1]) ?_ (nofun) ?_ hup hdown⟩
    · simp [mutexHoldlistAdd, he, hev, hfind, hst1]
    · rw [holdPrev_setHeld, hprev1, update_self, hc]
    · intro q hq _
      rw [holdPrev_setHeld, hprev1, update_of_ne hq]
  | cons s2 r =>
    have hs2 : s2 ∈ hl thp := by
      rw [hlist]
      simp
    obtain ⟨e2, he2, hev2⟩ := h.first thp s2 hs2
    have hne : syp ≠ s2 := fun hs => hnew thp (hs ▸ hs2)
    generalize hst2 : st1.setMuPrev e2 (some (.next e)) = st2
    have hfirst2 : st2.first = st.first := by
      rw [← hst2, first_setMuPrev, hfirst1]
    have hprev2 : holdPrev st2 = update (update (holdPrev st) syp (some c)) s2 (some (.next e)) := by
      rw [← hst2, holdPrev_setMuPrev hinj1 (by rw [hfirst1, he2]), hprev1]
    have hlinks2 : holdLinks st2 = holdLinks st1 := by
      rw [← hst2, holdLinks_setMuPrev]
    have hold : OnlyHold st (st2.setHeld c (some syp)) :=
      (hold1.trans (hst2 ▸ setMuPrev_onlyHold st1 e2 _)).trans (setHeld_onlyHold _ _ _)
    have hc2 : holdCell st2 (endCell (.head thp) l1) = some c := holdCell_congr hfirst2 ▸ hc
    refine ⟨st2.setHeld c (some syp), ?_, hold, h.linked hlist hnew ⟨e, he, hev⟩ (by rw [first_setHeld, hfirst2])
      (hpril hold) ?_ ?_ ?_ ?_ hup hdown⟩
    · simp [mutexHoldlistAdd, he, hev, hfind, hst1, he2, hev2, hst2]
    · rw [holdLinks_setHeld (hfirst2 ▸ h.inj) hc2, hlinks2, hlinks1]
    · rw [holdPrev_setHeld, hprev2, update_of_ne hne, update_self, hc]
    · intro q hq
      cases hq
      rw [holdPrev_setHeld, hprev2, update_self, hcell]
    · intro q hq hq2
      have hqs : q ≠ s2 := fun hqs => hq2 (by rw [hqs]; rfl)
      rw [holdPrev_setHeld, hprev2, update_of_ne hqs, update_of_ne hq]

end

end QRV.Nano.Mutex
