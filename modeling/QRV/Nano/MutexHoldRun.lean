import QRV.Nano.MutexHolds

/- The hold lists along runs of sync_mutex_lock, sync_mutex_unlock, force_ready and
   adjust_priority, for mutexes without ceilings and events.

   Every call is shown to return, with the lists of `Holds` again: no link is null where it is
   followed, and the fuel is enough. A boost raises a thread at every step, and a drop lowers
   one, so 256 steps for every thread suffice.

   One call breaks the lists, as in `MutexLists.lean`: priority_chain_drop, called by
   force_ready for the owner of a mutex, can come back to the thread that is just taken off
   its list. `Ok` excludes it. -/
namespace QRV.Nano.Mutex
open Function (update update_eq_self update_of_ne update_self)
open LinkCell StableQueue List
open Option

variable {T Q E : Type} {tb : Table T} {fuel : Nat} {st st' st'' : St T Q E}
  {w : Q → List (Entry T Q E)} {hl : T → List Q} {off : Option T} {thp act : T} {syp : Q} {e : Entry T Q E}

/-! ## Calls that return -/

/-- The call returns, with all lists in order. -/
def Returns (tb : Table T) (off : Option T) (r : Option (St T Q E)) : Prop :=
  ∃ st' w' hl', r = some st' ∧ Holds tb off none st' w' hl'

/-- It leaves every thread in its state. -/
def Settles (tb : Table T) (off : Option T) (st : St T Q E) (r : Option (St T Q E)) : Prop :=
  ∃ st' w' hl', r = some st' ∧ Holds tb off none st' w' hl' ∧ Kept st st'

variable {r : Option (St T Q E)}
variable {opened : Option Q}

theorem Holds.returns (h : Holds tb off none st w hl) : Returns tb off (some st) := ⟨st, w, hl, rfl, h⟩

theorem Holds.settles (h : Holds tb off none st w hl) : Settles tb off st (some st) :=
  ⟨st, w, hl, rfl, h, ⟨rfl, rfl, rfl, rfl⟩⟩

theorem Settles.after (h : Settles tb off st' r) (hs : Kept st st') : Settles tb off st r := by
  obtain ⟨st'', w', hl', hrun, hh, hs'⟩ := h
  exact ⟨st'', w', hl', hrun, hh, hs.trans hs'⟩

theorem Settles.returns (h : Settles tb off st r) : Returns tb off r := by
  obtain ⟨st', w', hl', hrun, hh, -⟩ := h
  exact ⟨st', w', hl', hrun, hh⟩

theorem Returns.bind {f : St T Q E → Option (St T Q E)} {o : Option T} (h : Returns tb o r)
    (hf : ∀ {st w hl}, Holds tb o none st w hl → Returns tb off (f st)) : Returns tb off (r.bind f) := by
  obtain ⟨st', w', hl', rfl, hh⟩ := h
  exact hf hh

theorem Settles.bind {f : St T Q E → Option (St T Q E)} {o : Option T} {s : St T Q E} (h : Settles tb o s r)
    (hf : ∀ {st w hl}, Holds tb o none st w hl → Kept s st → Returns tb off (f st)) : Returns tb off (r.bind f) := by
  obtain ⟨st', w', hl', rfl, hh, hs⟩ := h
  exact hf hh hs

/-! ## Lists in order -/

section
variable (h : Holds tb off opened st w hl)
include h

theorem Holds.all_zero (hsyp : ∀ e, st.first syp = some e → st.muOwner e = 0) : ∀ e ∈ w syp, st.muOwner e = 0 := by
  have hfirst := h.first syp
  have htail := h.zero syp
  cases hl' : w syp with
  | nil => exact nofun
  | cons a l =>
    rw [hl'] at hfirst htail
    exact forall_mem_cons.mpr ⟨hsyp a hfirst, htail⟩

theorem Holds.exists_first (he : e ∈ w syp) :
    ∃ e', st.first syp = some e' :=
  ⟨_, (h.first syp).trans (head?_eq_some_head (ne_nil_of_mem he))⟩

theorem Holds.env (hpril : st'.pril = st.pril)
    (hs : st'.state = st.state) (hb : st'.blockedOn = st.blockedOn) (hp : st'.process = st.process)
    (hc : ∀ q, st.created q = true → st'.created q = true) (hmu : st'.muOwner = st.muOwner)
    (hnext : st'.muNext = st.muNext) (hprev : st'.muPrev = st.muPrev) (hhold : st'.mutexHoldlist = st.mutexHoldlist) :
    Holds tb off opened st' w hl := by
  exact h.relist (h.queues.create hpril hs hb hp hc) (fun _ _ => rfl) h.only (hmu ▸ h.zero) (fun _ e _ _ => by rw [hmu])
    (fun _ e _ _ => by rw [hpril]) hnext hprev hhold (hs ▸ hb ▸ h.blocked)

end

/-- Only the links of hold lists and the owners that waiters record change. -/
def OnlyMu (st st' : St T Q E) : Prop :=
  ∃ next prev holdlist owner,
    st' = { st with muNext := next, muPrev := prev, mutexHoldlist := holdlist, muOwner := owner }

theorem OnlyMu.trans (h : OnlyMu st st') (h' : OnlyMu st' st'') : OnlyMu st st'' := by
  obtain ⟨n, p, l, o, rfl⟩ := h
  obtain ⟨n', p', l', o', rfl⟩ := h'
  exact ⟨_, _, _, _, rfl⟩

theorem OnlyHold.onlyMu (h : OnlyHold st st') : OnlyMu st st' := by
  obtain ⟨n, p, l, rfl⟩ := h
  exact ⟨_, _, _, _, rfl⟩

theorem Holds.find_thread (h : Holds tb off opened st w hl) (hf : 0 < fuel) (syp : Q) :
    st.find Entry.isThread fuel (st.first syp) = some (st.first syp) := by
  obtain ⟨n, rfl⟩ := Nat.exists_eq_add_one.mpr hf
  cases he : st.first syp with
  | none => rfl
  | some e =>
    obtain ⟨t, rfl⟩ := h.first_thread he
    rfl

theorem find_none {test : Entry T Q E → Bool} {l : List (Entry T Q E)} {c : Cell Q (Entry T Q E)}
    (hc : Chain st.pril.links c l) (hl : ∀ e ∈ l, test e = false) (hf : l.length < fuel) :
    st.find test fuel (st.pril.links c) = some none := by
  induction l generalizing c fuel with
  | nil =>
    obtain ⟨n, rfl⟩ := Nat.exists_eq_add_one.mpr hf
    rw [show st.pril.links c = none from hc]
    rfl
  | cons a l ih =>
    obtain ⟨n, rfl⟩ := Nat.exists_eq_add_one.mpr (Nat.zero_lt_of_lt hf)
    obtain ⟨ha, hl⟩ := forall_mem_cons.mp hl
    rw [hc.1, St.find, ha]
    exact ih hc.2 hl (Nat.lt_of_succ_lt_succ hf)

theorem Holds.find_ceiling [Fintype T] (h : Holds tb off opened st w hl)
    (hf : Fintype.card T < fuel) (syp : Q) : st.find Entry.isCeiling fuel (st.first syp) = some none := by
  refine find_none (h.queues.waits.chain syp) (fun e he => ?_) ((h.length_waiting syp).trans_lt hf)
  have ht := h.only syp e he
  cases e with
  | thread t => rfl
  | ceiling | event => cases ht

theorem sum_priority_le [Fintype T] (st : St T Q E) : ∑ t, (st.priority t).toNat ≤ 255 * Fintype.card T := by
  calc ∑ t, (st.priority t).toNat
    _ ≤ ∑ _t : T, 255 := Finset.sum_le_sum fun t _ => Nat.le_of_lt_succ (UInt8.toNat_lt _)
    _ = 255 * Fintype.card T := by
      rw [Finset.sum_const_nat fun _ _ => rfl, Finset.card_univ, Nat.mul_comm]

/-- The calls without ceilings and events. -/
def Op.Plain : Op T Q E → Prop
  | .create _ (.protect _) | .setPrioceiling .. | .specretCeiling .. | .setEvent .. => False
  | _ => True

theorem Started.holds (h : Started st) : Holds tb none none st (fun _ => []) fun _ => [] := by
  have hfirst : ∀ q, st.first q = none := h.lists
  have hnone : ∀ {q e}, ¬ st.first q = some e := fun he => nomatch (hfirst _).symm.trans he
  refine ⟨h.queues, ⟨nofun, fun _ _ _ he => absurd he hnone, nofun, h.holdlists, fun t => trivial, fun t => .nil⟩, nofun,
    nofun, fun q t => ?_, fun q e _ he => absurd he hnone, fun t ht => absurd ht (h.state t)⟩
  rw [recorded, hfirst]
  simp

/-- `l` is the mutex_holdlist of the thread: linked both ways through the first waiters of the mutexes,
with the mutexes whose first waiter records the thread, in the order of their first waiters. -/
structure HoldList (tb : Table T) (st : St T Q E) (thp : T) (l : List Q) : Prop where
  chain : Chain (holdLinks st) (.head thp) l
  back : Back (holdCell st) (holdPrev st) (.head thp) l
  nodup : l.Nodup
  mem : ∀ syp, syp ∈ l ↔ ∃ e, st.first syp = some e ∧ tb.lookup (st.muOwner e) = some thp
  desc : Desc (firstPriority st) l

theorem Holds.holdList (h : Holds tb none none st w hl) (thp : T) : HoldList tb st thp (hl thp) := by
  refine ⟨h.lists.chain thp, h.lists.back thp, (h.lists.chain thp).nodup, fun q => ?_, h.lists.desc thp⟩
  rw [h.mem, recorded, bind_eq_some_iff]
  simp

section
variable [DecidableEq T] [DecidableEq Q] [DecidableEq E]

/-! ## Single changes -/

theorem Holds.setPriority (h : Holds tb off opened st w hl) (hthp : ∀ q, Entry.thread thp ∉ w q)
    (prio : UInt8) :
    Holds tb off opened (st.setPriority (.thread thp) prio) w hl :=
  h.relist (h.queues.setPriority hthp prio) (fun _ _ => rfl) h.only h.zero (fun _ _ _ _ => rfl)
    (fun q e _ he => update_of_ne (fun hee : e = .thread thp => hthp q (hee ▸ h.queues.first_mem he)) _ _) rfl rfl rfl h.blocked

theorem priority_update {prio : UInt8} (h : st'.pril.priority = update st.pril.priority (.thread thp) prio) :
    st'.priority = update st.priority thp prio := by
  funext t
  rw [St.priority, h]
  by_cases ht : t = thp
  · rw [ht, update_self, update_self]
  · have hne : Entry.thread t ≠ (Entry.thread thp : Entry T Q E) := fun he => ht (Entry.thread.inj he)
    rw [update_of_ne hne, update_of_ne ht]
    rfl

omit [DecidableEq Q] [DecidableEq E] in
theorem Holds.setState (h : Holds tb off opened st w hl) (hthp : ∀ q, Entry.thread thp ∉ w q)
    {s : ThState T} {off' : Option T} (hs : s = .mutex → off' = some thp)
    (hoff : ∀ t, t ≠ thp → (off = some t ↔ off' = some t)) : Holds tb off' opened (st.setState thp s) w hl := by
  refine h.relist (h.queues.setState hthp hs hoff) (fun _ _ => rfl) h.only h.zero (fun _ _ _ _ => rfl)
    (fun _ _ _ _ => rfl) rfl rfl rfl fun t ht ho => ?_
  dsimp only [St.setState] at ht
  by_cases he : t = thp
  · rw [he, update_self] at ht
    exact absurd (he ▸ hs ht) ho
  · rw [update_of_ne he] at ht
    exact h.blocked t ht fun hs => ho ((hoff t he).mp hs)

omit [DecidableEq Q] [DecidableEq E] in
theorem Holds.ready (h : Holds tb (some thp) opened st w hl) : Holds tb none opened (st.setState thp .ready) w hl :=
  h.setState (h.queues.off_list fun _ _ _ => rfl) nofun fun _ ht =>
    ⟨fun he => absurd (some.inj he).symm ht, nofun⟩

omit [DecidableEq Q] [DecidableEq E] in
theorem Holds.setBlockedOn (h : Holds tb (some act) none st w hl) (v : Option Q) :
    Holds tb (some act) none (st.setBlockedOn act v) w hl := by
  refine h.relist (h.queues.setBlockedOn v) (fun _ _ => rfl) h.only h.zero (fun _ _ _ _ => rfl) (fun _ _ _ _ => rfl)
    rfl rfl rfl fun t ht ho => ?_
  have hta : t ≠ act := fun hta => ho (by rw [hta])
  dsimp only [St.setBlockedOn]
  rw [update_of_ne hta]
  exact h.blocked t ht ho

theorem Holds.setMuOwner_off (h : Holds tb off opened st w hl) (he : ∀ q, e ∉ w q)
    (owner : UInt32) : Holds tb off opened (st.setMuOwner e owner) w hl := by
  have hmu : ∀ q, ∀ x ∈ w q, (st.setMuOwner e owner).muOwner x = st.muOwner x := fun q x hx =>
    update_of_ne (fun hxe : x = e => he q (hxe ▸ hx)) _ _
  refine h.relist (h.queues.same (setMuOwner_same _ _ _)) (fun _ _ => rfl) h.only (fun q x hx => ?_)
    (fun q x _ hx => hmu q x (h.queues.first_mem hx)) (fun _ _ _ _ => rfl) rfl rfl rfl h.blocked
  rw [hmu q x (mem_of_mem_tail hx)]
  exact h.zero q x hx

omit [DecidableEq T] [DecidableEq E] in
theorem Holds.setOwner (h : Holds tb off opened st w hl) (syp : Q) (owner : UInt32) :
    Holds tb off opened (st.setOwner syp owner) w hl :=
  h.env rfl rfl rfl rfl (fun _ hq => hq) rfl rfl rfl rfl

omit [DecidableEq T] [DecidableEq E] in
theorem syncLookup_holds (h : Holds tb off none st w hl) (hrun : syncLookup st syp = some st') :
    Holds tb off none st' w hl ∧ st'.state = st.state := by
  rw [syncLookup] at hrun
  split_ifs at hrun with hc ho ho
  · cases hrun
    exact ⟨h, rfl⟩
  · cases hrun
    exact ⟨h.env rfl rfl rfl rfl (fun _ => update_same syp) rfl rfl rfl rfl, rfl⟩

theorem Holds.zero_behind (h : Holds tb off opened st w hl) (he : st.first syp = some e)
    {x : Entry T Q E} (hx : x ∈ (w syp).erase e) : st.muOwner x = 0 := by
  obtain ⟨l, hl'⟩ := head?_eq_some_iff.mp ((h.first syp).symm.trans he)
  have hzero := h.zero syp x
  rw [hl', erase_cons_head] at hx
  rw [hl'] at hzero
  exact hzero hx

theorem mem_tail_erase {α : Type} [DecidableEq α] {l : List α} {a x : α} (h : x ∈ (l.erase a).tail) : x ∈ l.tail := by
  cases l with
  | nil => exact h
  | cons b l =>
    by_cases hb : b = a
    · rw [hb, erase_cons_head] at h
      exact mem_of_mem_tail h
    · rw [erase_cons_tail (by simpa using hb)] at h
      exact mem_of_mem_erase h

theorem head?_erase {α : Type} [DecidableEq α] {l : List α} {a : α} (h : l.head? ≠ some a) :
    (l.erase a).head? = l.head? := by
  cases l with
  | nil => rfl
  | cons b l =>
    have hb : b ≠ a := fun hb => h (by rw [hb]; rfl)
    rw [erase_cons_tail (by simpa using hb)]
    rfl

/-- A waiter is taken off its list, given a priority and put back. -/
theorem Queues.moved (h : Queues off st w) (hthp : Entry.thread thp ∈ w syp) (prio : UInt8)
    (hf : (w syp).length < fuel) :
    ∃ st1 m w', st.prilRem fuel syp (.thread thp) = some st1 ∧
      (st1.setPriority (.thread thp) prio).prilAdd fuel syp (.thread thp) = some { st with pril := m } ∧
      Queues off { st with pril := m } w' ∧ (∀ q, q ≠ syp → w' q = w q) ∧ (∀ q e, e ∈ w' q ↔ e ∈ w q) ∧
      m.priority = update st.pril.priority (.thread thp) prio := by
  obtain ⟨m1, hrem, hw1, hp1⟩ := h.waits.rem syp fuel hthp hf
  have hrem' : st.prilRem fuel syp (.thread thp) = some { st with pril := m1 } := by
    rw [St.prilRem, hrem]
    rfl
  have hoff := h.waits.not_mem_rem hthp
  have hlen : (update w syp ((w syp).erase (.thread thp)) syp).length < fuel := by
    rw [update_self]
    exact Nat.lt_of_le_of_lt (length_erase_le) hf
  obtain ⟨m2, hadd, hw2, hp2⟩ := (hw1.setPriority hoff prio).add syp fuel hoff hlen
  have hadd' : (St.setPriority { st with pril := m1 } (.thread thp) prio).prilAdd fuel syp (.thread thp) =
      some { st with pril := m2 } := by
    rw [St.prilAdd, St.setPriority, hadd]
    rfl
  refine ⟨_, m2, _, hrem', hadd', h.reorder ⟨rfl, rfl, rfl, rfl⟩ hw2 fun _ _ => h.waits.mem_move hthp, fun q hq => ?_,
    fun _ _ => h.waits.mem_move hthp, ?_⟩
  · rw [update_of_ne hq, update_of_ne hq]
  · rw [hp2, hp1]

omit [DecidableEq Q] [DecidableEq E] in
theorem card_below_lt [Fintype T] {f : T → UInt8} {p : UInt8} (hthp : f thp < p) :
    (Finset.univ.filter fun t => update f thp p t < p).card < (Finset.univ.filter fun t => f t < p).card := by
  refine Finset.card_lt_card ⟨fun t ht => ?_, fun hsub => ?_⟩
  · rw [Finset.mem_filter] at ht ⊢
    refine ⟨ht.1, ?_⟩
    by_cases he : t = thp
    · exact he ▸ hthp
    · exact update_of_ne he p f ▸ ht.2
  · have hin := (Finset.mem_filter.mp (hsub (Finset.mem_filter.mpr ⟨Finset.mem_univ thp, hthp⟩))).2
    rw [update_self] at hin
    exact (UInt8.lt_irrefl p hin).elim

section
variable [Fintype T] (hf : Fintype.card T < fuel)
include hf

/-! ## A waiter moves -/

theorem Holds.back (h : Holds tb off (some syp) st w hl) (he : st.first syp = some e)
    (hzero : st.muOwner e = 0) {owner : UInt32} (hlook : owner ≠ 0 → ∃ t, tb.lookup owner = some t) :
    ∃ st' hl', holdlistReturn fuel tb st syp owner = some st' ∧ OnlyMu st st' ∧ Holds tb off none st' w hl' := by
  by_cases ho : owner = 0
  · refine ⟨st, hl, if_pos ho, (OnlyHold.refl st).onlyMu, h.close fun x hx => ?_⟩
    rw [he] at hx
    rw [← some.inj hx, hzero]
  · obtain ⟨t, ht⟩ := hlook ho
    obtain ⟨st', hl', hrun, hold, hh⟩ := h.link he ht hf
    have he' : st'.first syp = some e := by rw [hold.first, he]
    refine ⟨st'.setMuOwner e owner, hl', ?_, hold.onlyMu.trans ⟨_, _, _, _, rfl⟩, hh⟩
    simp only [holdlistReturn, if_neg ho, ht, hrun, bind_eq_bind, bind_some, he']

theorem adjustWaiter_holds (h : Holds tb off none st w hl) (hthp : Entry.thread thp ∈ w syp) (prio : UInt8) :
    ∃ st' w' hl', adjustWaiter fuel tb st thp syp prio = some st' ∧ Holds tb off none st' w' hl' ∧
      Kept st st' ∧ st'.pril.priority = update st.pril.priority (.thread thp) prio := by
  obtain ⟨e, he⟩ := h.exists_first hthp
  obtain ⟨st1, hl1, hrun1, hold1, hh1⟩ := h.unlink he 0 fun ho => by
    rw [← ho, setMuOwner_self]
  have he1 : st1.first syp = some e := (congrFun hold1.first syp).trans he
  have hz1 : ∀ x ∈ w syp, st1.muOwner x = 0 := hh1.all_zero fun x hx => by
    rw [he1] at hx
    rw [← some.inj hx, hold1.muOwner]
    exact update_self _ _ _
  -- the waiter moves
  obtain ⟨st2, m, w', hrem, hadd, hq3, hoff, hmem, hprio⟩ := hh1.queues.moved hthp prio
    ((h.length_waiting syp).trans_lt hf)
  have hne : ∀ q, some syp ≠ some q → q ≠ syp := fun q hs hq => hs (by rw [hq])
  have hzero3 : ∀ q, ∀ x ∈ (w' q).tail, st1.muOwner x = 0 := by
    intro q x hx
    by_cases hq : q = syp
    · exact hz1 x ((hmem syp x).mp (hq ▸ mem_of_mem_tail hx))
    · rw [hoff q hq] at hx
      exact hh1.zero q x hx
  have hprio3 : ∀ q x, some syp ≠ some q → st1.first q = some x → m.priority x = st1.pril.priority x := by
    intro q x hs hx
    rw [hprio, update_of_ne]
    rintro rfl
    exact hne q hs (h.queues.waits.apart q syp _ (hh1.queues.first_mem hx) hthp)
  have hh3 := hh1.relist hq3 (fun q hs => by rw [hoff q (hne q hs)])
    (fun q x hx => h.only q x ((hmem q x).mp hx)) hzero3 (fun _ _ _ _ => rfl) hprio3 rfl rfl rfl hh1.blocked
  -- the mutex goes back
  obtain ⟨e', he'⟩ := hh3.exists_first ((hmem syp _).mpr hthp)
  obtain ⟨st', hl', hret, ⟨n, p, l, o, rfl⟩, hh'⟩ := hh3.back hf he'
    (hz1 e' ((hmem syp e').mp (hh3.queues.first_mem he'))) (h.live syp e (by simp) he)
  refine ⟨_, w', hl', ?_, hh', ?_⟩
  · simp only [adjustWaiter, he, h.first_not_event he, bind_eq_bind, bind_some, Bool.false_eq_true,
      if_false, hrun1, hrem, hadd, hret]
  · obtain ⟨n1, p1, l1, rfl⟩ := hold1
    exact ⟨⟨rfl, rfl, rfl, rfl⟩, hprio⟩

/-! ## Priorities -/

theorem adjustPriority_holds (h : Holds tb off none st w hl) (thp : T) (prio : UInt8)
    (hoff : off = some thp → st.blockedOn thp = none) :
    ∃ st' w' hl', adjustPriority fuel tb st thp prio = some st' ∧ Holds tb off none st' w' hl' ∧
      Kept st st' ∧ st'.pril.priority = update st.pril.priority (.thread thp) prio := by
  by_cases heq : st.priority thp = prio
  · refine ⟨st, w, hl, if_pos heq, h, ⟨rfl, rfl, rfl, rfl⟩, ?_⟩
    rw [← heq]
    exact (update_eq_self _ _).symm
  · rw [adjustPriority, if_neg heq]
    by_cases hon : ∃ syp, Entry.thread thp ∈ w syp
    · obtain ⟨syp, hthp⟩ := hon
      obtain ⟨hs, hb, -⟩ := (h.queues.thread thp syp).mp hthp
      simp only [hs, hb]
      exact adjustWaiter_holds hf h hthp prio
    · have hthp := not_exists.mp hon
      refine ⟨_, w, hl, ?_, h.setPriority hthp prio, ⟨rfl, rfl, rfl, rfl⟩, rfl⟩
      split
      · rename_i hs
        split
        · rfl
        · rename_i syp hb
          exact absurd ((h.queues.thread thp syp).mpr ⟨hs, hb, fun ho => by cases (hoff ho).symm.trans hb⟩) (hthp syp)
      · rfl

theorem adjustPriority_settles (h : Holds tb off none st w hl) (thp : T) (prio : UInt8)
    (hoff : off = some thp → st.blockedOn thp = none) : Settles tb off st (adjustPriority fuel tb st thp prio) := by
  obtain ⟨st', w', hl', hrun, hh, hs, -⟩ := adjustPriority_holds hf h thp prio hoff
  exact ⟨st', w', hl', hrun, hh, hs⟩

theorem raiseReceivers_holds (h : Holds tb none none st w hl) (act : T) (chp : Nat) :
    Settles tb none st (raiseReceivers fuel tb act chp st) := by
  rw [raiseReceivers]
  generalize tb.channelThreads chp = threads
  induction threads generalizing st w hl with
  | nil => exact h.settles
  | cons thp l ih =>
    rw [foldlM_cons]
    split
    · obtain ⟨st1, w1, hl1, hrun1, hh1, hs1⟩ := adjustPriority_settles hf h thp (st.priority act) (by simp)
      rw [hrun1]
      exact (ih hh1).after hs1
    · exact ih h

theorem boost_holds (h : Holds tb none none st w hl) {steps : Nat}
    (hsteps : (Finset.univ.filter fun t => st.priority t < st.priority act).card < steps) (owner : Option T) :
    Settles tb none st (boost fuel tb act steps owner st) := by
  induction steps generalizing owner st w hl with
  | zero => cases hsteps
  | succ steps ih =>
    cases owner with
    | none => exact h.settles
    | some thp =>
      rw [boost]
      split
      · exact h.settles
      · rename_i hle
        have hlt : st.priority thp < st.priority act := UInt8.not_le.mp hle
        obtain ⟨st1, w1, hl1, hrun1, hh1, hs1, hp1⟩ :=
          adjustPriority_holds hf h thp (st.priority act) (by simp)
        have hprio := priority_update hp1
        have hact : st1.priority act = st.priority act := by
          rw [hprio, update_of_ne]
          rintro rfl
          exact UInt8.lt_irrefl _ hlt
        have hsteps1 : (Finset.univ.filter fun t => st1.priority t < st1.priority act).card < steps := by
          rw [hact, hprio]
          exact Nat.lt_of_lt_of_le (card_below_lt hlt) (Nat.le_of_lt_succ hsteps)
        simp only [hrun1, bind_eq_bind, bind_some]
        -- whatever the loop does next starts from the lists of `st1`
        refine Settles.after ?_ hs1
        split
        · split
          · exact hh1.settles
          · exact raiseReceivers_holds hf hh1 act _
        · split
          · exact hh1.settles
          · exact ih hh1 hsteps1 _
        · rename_i hs
          obtain ⟨syp, hb⟩ := hh1.blocked thp hs (by simp)
          have hin : Entry.thread thp ∈ w1 syp := (hh1.queues.thread thp syp).mpr ⟨hs, hb, by simp⟩
          obtain ⟨e, he⟩ := hh1.exists_first hin
          simp only [hb, he, bind_some, hh1.first_not_event he, Bool.false_eq_true, if_false]
          exact ih hh1 hsteps1 _
        · exact hh1.settles

theorem priorityChainDrop_holds (h : Holds tb (some thp) none st w hl)
    {steps : Nat} (hsteps : ∑ t, (st.priority t).toNat < steps) {owner : T}
    (hpath : thp ∉ dropPath fuel tb steps owner st) :
    Settles tb (some thp) st (priorityChainDrop fuel tb steps owner st) := by
  induction steps generalizing owner st w hl with
  | zero => cases hsteps
  | succ steps ih =>
    rw [priorityChainDrop]
    rw [dropPath] at hpath
    split_ifs with hlt
    · rw [if_pos hlt] at hpath
      have hne : owner ≠ thp := by
        rintro rfl
        split at hpath
        · exact hpath mem_cons_self
        · split at hpath <;> exact hpath mem_cons_self
      obtain ⟨st1, w1, hl1, hrun1, hh1, hs1, hp1⟩ := adjustPriority_holds hf h owner (restorePriority st owner)
        fun ho => absurd (some.inj ho).symm hne
      have hsteps1 : ∑ t, (st1.priority t).toNat < steps := by
        refine Nat.lt_of_lt_of_le (Finset.sum_lt_sum (fun t _ => ?_) ⟨owner, Finset.mem_univ _, ?_⟩)
          (Nat.le_of_lt_succ hsteps)
        · rw [priority_update hp1]
          by_cases ht : t = owner
          · rw [ht, update_self]
            exact Nat.le_of_lt (UInt8.lt_iff_toNat_lt.mp hlt)
          · rw [update_of_ne ht]
        · rw [priority_update hp1, update_self]
          exact UInt8.lt_iff_toNat_lt.mp hlt
      rw [hrun1] at hpath
      simp only [hrun1, bind_eq_bind, bind_some]
      -- a thread that waits is on a list, so there is somebody to go on with or nobody
      obtain ⟨next, hnext⟩ : ∃ next, dropNext tb st1 owner = some next := by
        rw [dropNext]
        split
        · rename_i hs
          obtain ⟨syp, hb⟩ := hh1.blocked owner hs fun ho => hne (some.inj ho).symm
          rw [hb]
          dsimp only
          split_ifs <;> exact ⟨_, rfl⟩
        · exact ⟨_, rfl⟩
      dsimp only at hpath
      rw [hnext] at hpath
      rw [hnext, bind_some]
      cases next with
      | none => exact hh1.settles.after hs1
      | some t => exact (ih hh1 hsteps1 fun hm => hpath (.tail _ hm)).after hs1
    · exact h.settles

/-! ## On and off a list -/

/-- A waiter is taken off its list. The mutex is on no hold list, or keeps its first waiter. -/
theorem Holds.remove (h : Holds tb none opened st w hl)
    (hthp : Entry.thread thp ∈ w syp) (hfirst : opened = some syp ∨ st.first syp ≠ some (.thread thp)) :
    ∃ m, st.prilRem fuel syp (.thread thp) = some { st with pril := m } ∧
      Holds tb (some thp) opened { st with pril := m } (update w syp ((w syp).erase (.thread thp))) hl := by
  obtain ⟨m, hrem, hw, hp⟩ := h.queues.waits.rem syp fuel hthp ((h.length_waiting syp).trans_lt hf)
  have hq := h.queues.remThread ((h.queues.thread thp syp).mp hthp).2.1 hw
  have hhead : ∀ q, opened ≠ some q → (update w syp ((w syp).erase (.thread thp)) q).head? = (w q).head? := by
    intro q hopen
    by_cases hqs : q = syp
    · subst hqs
      rw [update_self]
      apply head?_erase
      rw [← h.first]
      exact hfirst.resolve_left hopen
    · rw [update_of_ne hqs]
  have hzero : ∀ q, ∀ x ∈ (update w syp ((w syp).erase (.thread thp)) q).tail, st.muOwner x = 0 := by
    intro q x hx
    by_cases hqs : q = syp
    · subst hqs
      rw [update_self] at hx
      exact h.zero q x (mem_tail_erase hx)
    · rw [update_of_ne hqs] at hx
      exact h.zero q x hx
  exact ⟨m, by rw [St.prilRem, hrem]; rfl,
    h.relist hq hhead (fun q x hx => h.only q x (h.queues.waits.mem_rem.mp hx).1) hzero (fun _ _ _ _ => rfl)
      (fun _ _ _ _ => congrFun hp _) rfl rfl rfl fun t ht _ => h.blocked t ht nofun⟩

/-- `act` takes its place on the list. The mutex is on no hold list, or keeps its first waiter. -/
theorem Holds.insert (h : Holds tb (some act) opened st w hl)
    (hs : st.state act = .mutex) (hb : st.blockedOn act = some syp) (hmu : st.muOwner (.thread act) = 0)
    (hplace : opened = some syp ∧ (∀ x ∈ w syp, st.muOwner x = 0) ∨
      ∃ e, st.first syp = some e ∧ st.pril.priority (.thread act) ≤ st.pril.priority e) :
    ∃ m w', st.prilAdd fuel syp (.thread act) = some { st with pril := m } ∧
      Holds tb none opened { st with pril := m } w' hl ∧ ∀ x, x ∈ w' syp ↔ x ∈ w syp ∨ x = .thread act := by
  have hact : ∀ q, Entry.thread act ∉ w q := h.queues.off_list fun _ _ _ => rfl
  obtain ⟨m, hadd, hw, hp⟩ := h.queues.waits.add syp fuel hact ((h.length_waiting syp).trans_lt hf)
  have hq := h.queues.addThread hs hb hw
  generalize hw' : update w syp (enqueue (prilPriority st.pril) (.thread act) (w syp)) = w' at hw hq
  have hmem : ∀ q x, x ∈ w' q ↔ x ∈ w q ∨ q = syp ∧ x = .thread act := by
    subst hw'
    exact fun _ _ => Waits.mem_add
  have hoff : ∀ q, q ≠ syp → w' q = w q := by
    subst hw'
    exact fun q hqs => update_of_ne hqs _ _
  -- a newcomer that does not go first comes behind the first waiter
  have hbehind : ∀ e, st.first syp = some e → st.pril.priority (.thread act) ≤ st.pril.priority e →
      ∃ l, w' syp = e :: l ∧ ∀ x ∈ l, x = .thread act ∨ x ∈ (w syp).tail := by
    intro e he hle
    obtain ⟨l, hl'⟩ := head?_eq_some_iff.mp ((h.first syp).symm.trans he)
    have hkey : prilPriority st.pril (.thread act) ≤ prilPriority st.pril e := by
      rw [h.queues.waits.prio, h.queues.waits.prio]
      exact UInt8.le_iff_toNat_le.mp hle
    refine ⟨enqueue (prilPriority st.pril) (.thread act) l, ?_, fun x hx => ?_⟩
    · rw [← hw', update_self, hl', enqueue, if_pos hkey]
    · rw [hl']
      exact mem_enqueue.mp hx
  have hhead : ∀ q, opened ≠ some q → (w' q).head? = (w q).head? := by
    intro q hopen
    by_cases hqs : q = syp
    · subst hqs
      obtain ⟨e, he, hle⟩ := hplace.resolve_left fun hpl => hopen hpl.1
      obtain ⟨l, hl', -⟩ := hbehind e he hle
      rw [hl', ← h.first, he]
      rfl
    · rw [hoff q hqs]
  have hzero : ∀ q, ∀ x ∈ (w' q).tail, st.muOwner x = 0 := by
    intro q x hx
    by_cases hqs : q = syp
    · subst hqs
      cases hplace with
      | inl hpl =>
        cases (hmem q x).mp (mem_of_mem_tail hx) with
        | inl hx => exact hpl.2 x hx
        | inr hx => rw [hx.2, hmu]
      | inr hpl =>
        obtain ⟨e, he, hle⟩ := hpl
        obtain ⟨l, hl', hin⟩ := hbehind e he hle
        rw [hl'] at hx
        cases hin x hx with
        | inl hx => rw [hx, hmu]
        | inr hx => exact h.zero q x hx
    · rw [hoff q hqs] at hx
      exact h.zero q x hx
  have honly : ∀ q, ∀ x ∈ w' q, x.isThread = true := by
    intro q x hx
    cases (hmem q x).mp hx with
    | inl hx => exact h.only q x hx
    | inr hx => rw [hx.2]; rfl
  have hblocked : ∀ t, st.state t = .mutex → none ≠ some t → ∃ q, st.blockedOn t = some q := by
    intro t ht _
    by_cases hta : t = act
    · exact ⟨syp, hta ▸ hb⟩
    · exact h.blocked t ht fun he => hta (some.inj he).symm
  refine ⟨m, w', by rw [St.prilAdd, hadd]; rfl, h.relist hq hhead honly hzero (fun _ _ _ _ => rfl)
    (fun _ _ _ _ => congrFun hp _) rfl rfl rfl hblocked, fun x => ?_⟩
  rw [hmem]
  simp

theorem syncWakeup_holds (h : Holds tb none (some syp) st w hl) (he : st.first syp = some e) :
    ∃ st' w', syncWakeup fuel st syp = some st' ∧ Holds tb none none st' w' hl ∧
      (∀ t, st.state t = .ready → st'.state t = .ready) ∧ ∀ e, st'.first syp = some e → st'.muOwner e = 0 := by
  obtain ⟨thp, rfl⟩ := h.first_thread he
  have hthp := h.queues.first_mem he
  obtain ⟨m, hrem, hh⟩ := h.remove hf hthp (.inl rfl)
  generalize hst' : ({ ({ st with pril := m } : St T Q E).setState thp .ready with
    acquire := update st.acquire thp true } : St T Q E) = st'
  have hh' : Holds tb none (some syp) st' (update w syp ((w syp).erase (.thread thp))) hl := by
    subst hst'
    exact hh.ready.env rfl rfl rfl rfl (fun _ hq => hq) rfl rfl rfl rfl
  have hzero : ∀ e, st'.first syp = some e → st'.muOwner e = 0 := by
    intro e he'
    have hm := hh'.queues.first_mem he'
    rw [update_self] at hm
    rw [← hst']
    exact h.zero_behind he hm
  refine ⟨st', _, ?_, hh'.close hzero, fun t ht => ?_, hzero⟩
  · rw [syncWakeup, he]
    simp only [hrem, bind_eq_bind, bind_some, hst']
  · rw [← hst']
    exact update_same thp ht

/-- force_ready of a waiter takes it off its list; the other waiters and the hold lists stay in order. -/
theorem forceUnlink_holds (h : Holds tb none none st w hl) (hs : st.state thp = .mutex)
    (hb : st.blockedOn thp = some syp) :
    ∃ st' thp2 w' hl', forceUnlink fuel tb st thp syp = some (st', thp2) ∧ Holds tb (some thp) none st' w' hl' := by
  have hthp : Entry.thread thp ∈ w syp := (h.queues.thread thp syp).mpr ⟨hs, hb, by simp⟩
  rw [forceUnlink]
  split
  · rename_i he
    obtain ⟨st1, hl1, hrun1, hold1, hh1⟩ := h.leave he
    obtain ⟨m, hrem, hh2⟩ := hh1.remove hf hthp (.inl rfl)
    generalize hst2 : ({ st1 with pril := m } : St T Q E) = st2 at hrem hh2
    generalize hw2 : update w syp ((w syp).erase (.thread thp)) = w2 at hh2
    -- those left record no owner
    have hzero : ∀ x, st2.first syp = some x → st2.muOwner x = 0 := by
      intro x hx
      have hm := hh2.queues.first_mem hx
      rw [← hw2, update_self] at hm
      have hmu : st2.muOwner = st.muOwner := by rw [← hst2]; exact hold1.muOwner
      rw [hmu]
      exact h.zero_behind he hm
    simp only [hrun1, hrem, bind_eq_bind, bind_some]
    split
    · rename_i first hfirst
      split
      · rename_i thp2 hlook
        obtain ⟨st3, hl3, hrun3, -, hh3⟩ := hh2.link hfirst hlook hf
        exact ⟨_, some thp2, w2, hl3, by rw [hrun3, bind_some], hh3⟩
      · refine ⟨_, none, w2, hl1, rfl, ?_⟩
        rw [← hzero _ hfirst, setMuOwner_self]
        exact hh2.close hzero
    · exact ⟨st2, _, w2, hl1, rfl, hh2.close hzero⟩
  · rename_i he
    obtain ⟨m, hrem, hh⟩ := h.remove hf hthp (.inr he)
    exact ⟨_, none, _, hl, by rw [hrem]; rfl, hh⟩

/-! ## sync_mutex_lock and sync_mutex_unlock -/

theorem lockEnqueue_holds (h : Holds tb (some act) none st w hl) (hs : st.state act = .mutex)
    (hb : st.blockedOn act = some syp) (hmu : st.muOwner (.thread act) = 0) :
    ∃ st' w' hl', lockEnqueue fuel st act syp = some st' ∧ Holds tb none none st' w' hl' ∧
      st'.muOwner (.thread act) = 0 := by
  have hact : ∀ q, Entry.thread act ∉ w q := h.queues.off_list fun _ _ _ => rfl
  -- `act` comes on the list of a mutex that is on no hold list
  have hopened : ∀ {st1 : St T Q E} {hl1}, Holds tb (some act) (some syp) st1 w hl1 → Same st st1 →
      st1.muOwner (.thread act) = 0 → (∀ x ∈ w syp, st1.muOwner x = 0) →
      ∃ st' w' hl', st1.prilAdd fuel syp (.thread act) = some st' ∧ Holds tb none none st' w' hl' ∧
        st'.muOwner (.thread act) = 0 := by
    intro st1 hl1 hh1 hsame hmu1 hz1
    obtain ⟨m, w', hadd, hh, hmem⟩ := hh1.insert hf (by rw [hsame.state, hs]) (by rw [hsame.blockedOn, hb]) hmu1
      (.inl ⟨rfl, hz1⟩)
    refine ⟨_, w', hl1, hadd, hh.close fun x hx => ?_, hmu1⟩
    cases (hmem x).mp (hh.queues.first_mem hx) with
    | inl hx => exact hz1 x hx
    | inr hx => rw [hx]; exact hmu1
  rw [lockEnqueue]
  cases he : st.first syp with
  | none =>
    have hempty : ∀ x, st.first syp = some x → st.muOwner x = 0 := fun x hx => by cases he.symm.trans hx
    exact hopened (h.open (recorded_of_zero hempty)) ⟨⟨rfl, rfl, rfl, rfl⟩, rfl⟩ hmu (h.all_zero hempty)
  | some e =>
    obtain ⟨t, rfl⟩ := h.first_thread he
    by_cases hlt : st.priority t < st.priority act
    · obtain ⟨st1, hl1, hrun1, hold1, hh1⟩ := h.clear he
      have hne : Entry.thread act ≠ (Entry.thread t : Entry T Q E) := fun hat =>
        hact syp (hat ▸ h.queues.first_mem he)
      have hsame := (setMuOwner_same st (.thread t) 0).trans hold1.same
      have hmu1 : st1.muOwner = update st.muOwner (.thread t) 0 := hold1.muOwner
      simp only [if_pos hlt, hrun1, bind_eq_bind, bind_some]
      refine hopened hh1 hsame ?_ (hh1.all_zero fun x hx => ?_)
      · rw [hmu1, update_of_ne hne, hmu]
      · rw [hold1.first] at hx
        rw [show x = .thread t from some.inj (hx.symm.trans he), hmu1, update_self]
    · simp only [if_neg hlt, bind_eq_bind, bind_some]
      obtain ⟨m, w', hadd, hh, -⟩ := h.insert hf hs hb hmu (.inr ⟨_, he, UInt8.not_lt.mp hlt⟩)
      exact ⟨_, w', hl, hadd, hh, hmu⟩

section
variable (h : Holds tb none none st w hl)
include h

/-- The caller records itself in the first waiter, if there is one. -/
theorem lockAcquire_holds (act : T) (syp : Q)
    (syncep : Option (Entry T Q E)) :
    ∃ st' hl', lockAcquire fuel tb st act syp 0 syncep (st.first syp) = some st' ∧ Holds tb none none st' w hl' := by
  have h0 := h.setOwner syp (tb.owner act)
  simp only [lockAcquire, ne_eq, not_true, if_false]
  cases he : st.first syp with
  | none => exact ⟨_, hl, rfl, h0⟩
  | some e =>
    obtain ⟨st1, hl1, hrun1, hold1, hh1⟩ := h0.leave he
    have he1 : st1.first syp = some e := (congrFun hold1.first syp).trans he
    have howner : st1.owner syp = tb.owner act := by
      obtain ⟨n, p, l, rfl⟩ := hold1
      exact update_self _ _ _
    have hh2 := (hh1.setMuOwner he1 (tb.owner act)).setOwner syp (tb.owner act ||| syncWaiting)
    obtain ⟨st', hl', hrun, hold, hh'⟩ := hh2.link he1 (tb.lookup_owner act) hf
    refine ⟨st', hl', ?_, ?_⟩
    · simp only [hrun1, bind_eq_bind, bind_some, howner]
      rw [show ((st1.setMuOwner e (tb.owner act)).owner syp) = tb.owner act from howner, hrun, bind_some]
    · have hself : st'.setMuOwner e (tb.owner act) = st' := by
        have hmu : st'.muOwner e = tb.owner act := by
          rw [hold.muOwner]
          exact update_self _ _ _
        rw [← hmu, setMuOwner_self]
      rwa [hself] at hh'

theorem lockWake_holds (syp : Q) :
    ∃ st' w' hl', lockWake fuel st syp = some st' ∧ Holds tb none none st' w' hl' ∧
      ∀ t, st.state t = .ready → st'.state t = .ready := by
  rw [lockWake]
  split
  · exact ⟨st, w, hl, rfl, h, fun _ ht => ht⟩
  · rename_i e he
    obtain ⟨st1, hl1, hrun1, hold1, hh1⟩ := h.clear he
    have he1 : st1.first syp = some e := (congrFun hold1.first syp).trans he
    obtain ⟨st2, w2, hrun2, hh2, hr2, hz2⟩ := syncWakeup_holds hf hh1 he1
    have hready : ∀ t, st.state t = .ready → st2.state t = .ready := fun t ht =>
      hr2 t ((congrFun hold1.same.state t).trans ht)
    simp only [h.first_not_event he, Bool.false_eq_true, if_false, hrun1, hrun2, bind_eq_bind, bind_some]
    split
    · exact ⟨st2, w2, hl1, rfl, hh2, hready⟩
    · rename_i x hx
      rw [hh2.first_not_event hx, ← hz2 x hx, setMuOwner_self]
      exact ⟨st2, w2, hl1, rfl, hh2, hready⟩

theorem unlockWake_holds (syp : Q) :
    Returns tb none (unlockWake fuel st syp) := by
  rw [unlockWake]
  split
  · exact h.returns
  · rename_i e he
    obtain ⟨st1, hl1, hrun1, hold1, hh1⟩ := h.leave he
    have he1 : st1.first syp = some e := by rw [hold1.first, he]
    obtain ⟨st2, w2, hrun2, hh2, -, hz2⟩ := syncWakeup_holds hf hh1 he1
    simp only [h.first_not_event he, Bool.false_eq_true, if_false, hrun1, hrun2, bind_eq_bind, bind_some]
    split
    · exact hh2.returns
    · rename_i x hx
      obtain ⟨t, rfl⟩ := hh2.first_thread hx
      have hmu : (st2.setOwner syp (st2.owner syp ||| syncWaiting)).muOwner (.thread t) = 0 := hz2 _ hx
      rw [if_pos (show st2.threadNear (.thread t) = true from rfl), hh2.first_not_event hx, ← hmu, setMuOwner_self]
      exact (hh2.setOwner _ _).returns

theorem syncMutexUnlock_holds (act : T) (syp : Q) :
    Returns tb none (syncMutexUnlock fuel tb st act syp) := by
  rw [syncMutexUnlock]
  split
  · exact h.returns
  · rename_i st0 hlook
    obtain ⟨h0, -⟩ := syncLookup_holds h hlook
    have h1 : Holds tb none none (unlockRelease tb st0 act syp) w hl := by
      rw [unlockRelease]
      split
      · exact h0.setOwner _ _
      · exact h0
    refine (unlockWake_holds hf h1 syp).bind fun {st2 w2 hl2} hh2 => ?_
    split
    · exact (adjustPriority_settles hf hh2 act (restorePriority st2 act) (by simp)).returns
    · exact hh2.returns

end

end

/-! ## Runs -/

section
variable [Fintype T] (hf : 256 * Fintype.card T < fuel) (h : Holds tb none none st w hl)
include hf h

theorem forceReady_holds (hpath : thp ∉ forcedPath fuel tb st thp) :
    Returns tb none (forceReady fuel tb st thp) := by
  have hf' : Fintype.card T < fuel := by omega
  rw [forceReady]
  rw [forcedPath] at hpath
  split
  · exact h.returns
  · rename_i hs
    obtain ⟨syp, hb⟩ := h.blocked thp hs (by simp)
    obtain ⟨st1, thp2, w1, hl1, hrun1, hh1⟩ := forceUnlink_holds hf' h hs hb
    rw [hs, hb] at hpath
    dsimp only at hpath
    rw [hrun1] at hpath
    simp only [hb, hrun1, bind_eq_bind, bind_some]
    -- the owner's priority drops, or not
    refine Returns.bind (o := some thp) ?_ fun hh2 => hh2.ready.returns
    cases thp2 with
    | none => exact hh1.returns
    | some thp2 =>
      dsimp only at hpath ⊢
      split_ifs at hpath ⊢ with hd
      · have hsum : ∑ t, (st1.priority t).toNat < fuel := Nat.lt_of_le_of_lt (sum_priority_le st1) (by omega)
        exact (priorityChainDrop_holds hf' hh1 hsum hpath).returns
      · exact hh1.returns
  · rename_i hs
    exact (h.setState (h.queues.off_list fun he => absurd he hs) (fun he => by cases he) fun _ _ => Iff.rfl).returns

theorem lockBlock_holds (hact : st.state act = .ready) (owner : UInt32)
    (imto : Bool) (drop : Option UInt8) :
    Returns tb none (lockBlock fuel tb st act syp owner imto drop) := by
  have hf' : Fintype.card T < fuel := by omega
  rw [lockBlock]
  split
  · exact h.returns
  · have hh0 : Holds tb (some act) none ((st.setState act .mutex).setBlockedOn act none) w hl :=
      (h.setState (h.queues.off_list fun hm => by cases hact.symm.trans hm) (fun _ => rfl) fun t ht =>
        ⟨by simp, fun he => absurd (some.inj he).symm ht⟩).setBlockedOn none
    -- unready, with the priority of a sporadic thread that stops running
    refine Settles.bind (s := (st.setState act .mutex).setBlockedOn act none) (o := some act) ?_ fun {st1 w1 hl1} hh1 hs1 => ?_
    · cases drop with
      | none => exact hh0.settles
      | some prio => exact adjustPriority_settles hf' hh0 act prio fun _ => update_self _ _ _
    have hstate : st1.state act = .mutex := by
      rw [hs1.state]
      exact update_self _ _ _
    have hh2 : Holds tb (some act) none ((st1.setBlockedOn act (some syp)).setMuOwner (.thread act) 0) w1 hl1 :=
      (hh1.setBlockedOn (some syp)).setMuOwner_off (hh1.queues.off_list fun _ _ _ => rfl) 0
    obtain ⟨st3, w3, hl3, hrun3, hh3, hz3⟩ := lockEnqueue_holds hf' hh2 hstate (update_self _ _ _)
      (update_self _ _ _)
    -- the mutex goes on the hold list of the owner if `act` is the first waiter
    simp only [hrun3, bind_eq_bind, bind_some]
    split
    · rw [← hz3, setMuOwner_self]
      exact hh3.returns
    · split
      · rename_i hfirst
        split
        · exact hh3.returns
        · rename_i thp hlook
          obtain ⟨st4, hl4, hrun4, hold4, hh4⟩ := (hh3.open_zero hfirst hz3).link hfirst hlook hf'
          have hcard : (Finset.univ.filter fun t => (st4.setMuOwner (.thread act) owner).priority t <
              (st4.setMuOwner (.thread act) owner).priority act).card < fuel :=
            Nat.lt_of_le_of_lt (Finset.card_le_univ _) hf'
          rw [hrun4, bind_some]
          exact (boost_holds hf' hh4 hcard (some thp)).returns
      · exact hh3.returns

theorem syncMutexLock_holds (hact : st.state act = .ready) (syp : Q)
    (noceiling imto : Bool) (drop : Option UInt8) :
    Returns tb none (syncMutexLock fuel tb st act syp noceiling imto drop) := by
  have hf' : Fintype.card T < fuel := by omega
  rw [syncMutexLock]
  split
  · exact h.returns
  · rename_i st0 hlook
    obtain ⟨h0, hs0⟩ := syncLookup_holds h hlook
    rw [← hs0] at hact
    -- there is no ceiling
    have hsyncep : (if (st0.prioceiling syp && !noceiling) = true then st0.find Entry.isCeiling fuel (st0.first syp)
        else some none) = some none := by
      split
      · exact h0.find_ceiling hf' syp
      · rfl
    have h1 := h0.setOwner syp (st0.owner syp ||| syncWaiting)
    have hfind : (st0.setOwner syp (st0.owner syp ||| syncWaiting)).find Entry.isThread fuel
        ((st0.setOwner syp (st0.owner syp ||| syncWaiting)).first syp) = some (st0.first syp) :=
      h1.find_thread (by omega) syp
    dsimp only
    rw [hsyncep]
    simp only [bind_eq_bind, bind_some, map_none, getD_none, hfind]
    split
    · exact h0.returns
    · split
      · exact h0.returns
      · split
        · split
          · obtain ⟨st', hl', hrun, hh⟩ := lockAcquire_holds hf' h1 act syp none
            exact ⟨st', w, hl', hrun, hh⟩
          · exact lockBlock_holds hf h1 hact _ imto drop
        · split
          · obtain ⟨st2, w2, hl2, hrun2, hh2, hr2⟩ := lockWake_holds hf' h1 syp
            rw [hrun2, bind_some]
            exact lockBlock_holds hf hh2 (hr2 act hact) _ imto drop
          · exact lockBlock_holds hf h1 hact _ imto drop

theorem step_holds {op : Op T Q E} (hplain : op.Plain)
    (hok : Ok fuel tb st op) :
    Returns tb none (step fuel tb st op) := by
  have hcard : ∀ _ : T, Fintype.card T < fuel := fun t => by
    omega
  have hadjust : ∀ thp prio, Returns tb none (adjustPriority fuel tb st thp prio) := fun thp prio =>
    (adjustPriority_settles (hcard thp) h thp prio (by simp)).returns
  cases op with
  | create syp protocol =>
    rw [step, syncCreate]
    split
    · exact h.returns
    · cases protocol with
      | inherit | none =>
        exact ⟨_, w, hl, rfl, h.env rfl rfl rfl rfl (fun _ => update_same syp) rfl rfl rfl rfl⟩
      | protect prio => exact hplain.elim
  | lock act syp noceiling imto drop =>
    rw [step]
    split
    · rename_i hact
      exact syncMutexLock_holds hf h hact syp noceiling imto drop
    · exact h.returns
  | unlock act syp =>
    rw [step]
    split
    · exact syncMutexUnlock_holds (hcard act) h act syp
    · exact h.returns
  | setPrioceiling | specretCeiling | setEvent => exact hplain.elim
  | forceReady thp => exact forceReady_holds hf h hok
  | adjustPriority thp prio => exact hadjust thp prio
  | schedThread thp prio =>
    exact (hadjust thp prio).bind fun {_ w hl} hh =>
      ⟨_, w, hl, rfl, hh.env rfl rfl rfl rfl (fun _ hq => hq) rfl rfl rfl rfl⟩
  | raise thp prio =>
    rw [step]
    split
    · exact (hadjust thp prio).bind fun {_ w hl} hh =>
        ⟨_, w, hl, rfl, hh.env rfl rfl rfl rfl (fun _ hq => hq) rfl rfl rfl rfl⟩
    · exact h.returns
  | deliver thp prio =>
    rw [step]
    split
    · rename_i hs
      have hoff : ∀ q, Entry.thread thp ∉ w q := h.queues.off_list fun hm => by cases hs.symm.trans hm
      exact ⟨_, w, hl, rfl, (h.setPriority hoff prio).env rfl rfl rfl rfl (fun _ hq => hq) rfl rfl rfl rfl⟩
    · exact h.returns
  | user syp owner => exact (h.setOwner syp owner).returns
  | flag | receive => exact ⟨_, w, hl, rfl, h.env rfl rfl rfl rfl (fun _ hq => hq) rfl rfl rfl rfl⟩
  | move thp s =>
    rw [step]
    split
    · rename_i hs
      exact (h.setState (h.queues.off_list fun hm => absurd hm hs.1) (fun he => absurd he hs.2) fun t _ => Iff.rfl).returns
    · exact h.returns

theorem run_holds {ops : List (Op T Q E)}
    (hplain : ∀ op ∈ ops, op.Plain) (hok : OkAlong fuel tb ops st) :
    Returns tb none (run fuel tb ops st) := by
  induction ops generalizing st w hl with
  | nil => exact h.returns
  | cons op ops ih =>
    obtain ⟨st1, w1, hl1, hrun1, hh1⟩ := step_holds hf h (hplain op mem_cons_self) hok.1
    rw [run, foldlM_cons, hrun1]
    exact ih hh1 (fun op hop => hplain op (.tail _ hop)) (hok.2 st1 hrun1)

end

/-- **The hold lists stay in order.** Every run of the calls without ceilings and events, with no
force_ready that comes to lower the priority of the thread it makes ready, returns, and leaves every
thread the hold list of the mutexes whose first waiter records it as owner. -/
theorem hold_lists [Fintype T] (fuel : Nat) (tb : Table T) (st : St T Q E) (ops : List (Op T Q E))
    (hf : 256 * Fintype.card T < fuel) (hst : Started st) (hplain : ∀ op ∈ ops, op.Plain)
    (hok : OkAlong fuel tb ops st) : ∃ st', run fuel tb ops st = some st' ∧ ∀ thp, ∃ l, HoldList tb st' thp l := by
  obtain ⟨st', w, hl, hrun, hh⟩ := run_holds hf hst.holds hplain hok
  exact ⟨st', hrun, fun thp => ⟨hl thp, hh.holdList thp⟩⟩

end

/-- Threads 1 and 2 wait for the mutex of thread 0, and the first of them is taken off. -/
theorem hold_lists_two :
    let ops : List (Op (Fin 3) (Fin 1) Empty) := [.create 0 .inherit, .lock 0 0 false false none,
      .lock 1 0 false false none, .lock 2 0 false false none, .forceReady 1]
    ∃ st', run 1000 (oneProcess 3 (by decide)) ops (idle fun _ => 10) = some st' ∧
      ∀ thp, ∃ l, HoldList (oneProcess 3 (by decide)) st' thp l := by
  intro ops
  refine hold_lists 1000 _ _ ops (by decide) (idle_started _) (fun op hop => ?_) ?_
  · simp only [ops, mem_cons, not_mem_nil, or_false] at hop
    obtain rfl | rfl | rfl | rfl | rfl := hop <;> trivial
  · have hpath : (run 1000 (oneProcess 3 (by decide)) (ops.take 4) (idle fun _ => 10)).all (fun st =>
        1 ∉ forcedPath 1000 (oneProcess 3 (by decide)) st 1) = true := by decide +kernel
    refine ⟨trivial, fun st₁ h₁ => ⟨trivial, fun st₂ h₂ => ⟨trivial, fun st₃ h₃ => ⟨trivial, fun st₄ h₄ => ⟨?_,
      fun _ _ => trivial⟩⟩⟩⟩⟩
    have hrun : run 1000 (oneProcess 3 (by decide)) (ops.take 4) (idle fun _ => 10) = some st₄ := by
      simp only [run, ops, take_succ_cons, take_zero, foldlM_cons, foldlM_nil, h₁, h₂, h₃, h₄,
        bind_eq_bind, bind_some, pure]
    have hok := (all_eq_true _ _).mp hpath st₄ hrun
    exact of_decide_eq_true (p := 1 ∉ forcedPath 1000 (oneProcess 3 (by decide)) st₄ 1) hok

/-- Threads 0 and 1 wait for each other's mutex. When thread 2 gives up waiting for another mutex of
thread 0, the drop goes around, and when thread 0 is made ready then, it comes back to thread 0, which
is put on the list of mutex 1 again. It is ready, waits for a mutex of thread 4, and mutex 1 is left
with a first waiter that records thread 4. -/
theorem hold_lists_cycle :
    let tb := oneProcess 5 (by decide)
    let prio : Fin 5 → UInt8 := fun thp => [5, 10, 20, 3, 4].getD thp.val 0
    let ops : List (Op (Fin 5) (Fin 4) Empty) := [.create 0 .inherit, .create 1 .inherit, .create 2 .inherit,
      .create 3 .inherit, .user 0 (tb.owner 0), .user 1 (tb.owner 1), .user 2 (tb.owner 0), .user 3 (tb.owner 4),
      .lock 0 1 false false none, .lock 3 1 false false none, .lock 1 0 false false none, .lock 2 2 false false none,
      .forceReady 2, .forceReady 0, .lock 0 3 false false none]
    ∃ st', run 2000 tb ops (idle prio) = some st' ∧ st'.first 1 = some (.thread 0) ∧
      tb.lookup (st'.muOwner (.thread 0)) = some 4 ∧ st'.mutexHoldlist 1 = some 1 ∧
      ¬ ∃ l, HoldList tb st' 1 l := by
  intro tb prio ops
  have hview : (run 2000 tb ops (idle prio)).any (fun st => st.first 1 = some (.thread 0) ∧
      tb.lookup (st.muOwner (.thread 0)) = some 4 ∧ st.mutexHoldlist 1 = some 1) = true := by decide +kernel
  obtain ⟨st', hrun, hst⟩ := (any_eq_true _ _).mp hview
  obtain ⟨hfirst, howner, hheld⟩ := of_decide_eq_true hst
  refine ⟨st', hrun, hfirst, howner, hheld, fun ⟨l, hl⟩ => ?_⟩
  -- the hold list of thread 1 starts with mutex 1
  have hin : 1 ∈ l := by
    have hc := hl.chain
    cases l with
    | nil => cases hheld.symm.trans hc
    | cons q l => exact some.inj (hheld.symm.trans hc.1) ▸ mem_cons_self
  obtain ⟨e, he, hlook⟩ := (hl.mem 1).mp hin
  rw [hfirst] at he
  rw [← some.inj he, howner] at hlook
  cases hlook

end QRV.Nano.Mutex
