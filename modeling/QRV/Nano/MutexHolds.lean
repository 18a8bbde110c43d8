import QRV.Nano.MutexHold

/- Waiting lists and hold lists together, for mutexes without ceilings and events.

   `Holds off opened st w hl` says that the waiting lists are `w` and the hold lists `hl`, that
   only the first waiter of a mutex records an owner, and that a mutex is on the hold list of
   the owner its first waiter records. A call that changes the first waiter of a mutex takes
   the mutex off its hold list before (`Holds.unlink`), changes the waiting list
   (`Holds.relist`) and puts it back (`Holds.link`) or leaves it off (`Holds.close`); in
   between the mutex is `opened`. -/
namespace QRV.Nano.Mutex
open Function
open StableQueue List Option

/-! ## The owner word -/

theorem getLsbD_owner : ∀ i < 32, (~~~0x80000000#32).getLsbD i = decide (i < 31) := by decide
theorem getLsbD_pid : ∀ i < 32, (0xfff#32).getLsbD i = decide (i < 12) := by decide
theorem getLsbD_tid : ∀ i < 32, (0xffff#32).getLsbD i = decide (i < 16) := by decide

theorem getLsbD_high {s : BitVec 32} (hs : s.toNat < 65536) {i : Nat} (hi : 16 ≤ i) : s.getLsbD i = false := by
  rw [BitVec.getLsbD]
  refine Nat.testBit_lt_two_pow (hs.trans_le ?_)
  exact Nat.pow_le_pow_right (Nat.succ_pos 1) hi

theorem syncPindex_bits {p s : BitVec 32} (hs : s.toNat < 65536) :
    (((p <<< 16) ||| s) &&& ~~~0x80000000#32 &&& ~~~0x80000000#32) >>> 16 &&& 0xfff#32 = p &&& 0xfff#32 := by
  refine BitVec.eq_of_getLsbD_eq fun i hi => ?_
  simp only [BitVec.getLsbD_and, getLsbD_pid i hi]
  by_cases h : i < 12
  · have h16 : 16 + i < 32 := by omega
    simp only [BitVec.getLsbD_ushiftRight, BitVec.getLsbD_and, BitVec.getLsbD_or, BitVec.getLsbD_shiftLeft,
      getLsbD_owner _ h16, getLsbD_high hs (Nat.le_add_right 16 i)]
    simp [show 16 + i < 31 by omega, show ¬ 16 + i < 16 by omega, h16]
  · simp [h]

theorem syncTid_bits {p s : BitVec 32} (hs : s.toNat < 65536) :
    ((p <<< 16) ||| s) &&& ~~~0x80000000#32 &&& 0xffff#32 = s := by
  refine BitVec.eq_of_getLsbD_eq fun i hi => ?_
  simp only [BitVec.getLsbD_and, BitVec.getLsbD_or, BitVec.getLsbD_shiftLeft, getLsbD_tid i hi, getLsbD_owner i hi]
  by_cases h : i < 16
  · simp [h, show i < 31 by omega]
  · simp [h, getLsbD_high hs (Nat.le_of_not_lt h)]

theorem tid_succ {tid : UInt32} (h : tid.toNat + 1 < 65536) : (tid + 1).toNat = tid.toNat + 1 := by
  rw [UInt32.toNat_add]
  exact Nat.mod_eq_of_lt (h.trans (by decide))

theorem syncPindex_owner {pid tid : UInt32} (h : tid.toNat + 1 < 65536) : syncPindex (syncOwnerBits pid tid) = pindex pid := by
  have hs : (tid + 1).toBitVec.toNat < 65536 := by
    rw [UInt32.toNat_toBitVec, tid_succ h]
    exact h
  apply UInt32.eq_of_toBitVec_eq
  exact syncPindex_bits hs

theorem syncTid_owner {pid tid : UInt32} (h : tid.toNat + 1 < 65536) : syncTid (syncOwnerBits pid tid) = tid := by
  have hs : (tid + 1).toBitVec.toNat < 65536 := by
    rw [UInt32.toNat_toBitVec, tid_succ h]
    exact h
  have hand : syncOwnerBits pid tid &&& 0xffff = tid + 1 := UInt32.eq_of_toBitVec_eq (syncTid_bits hs)
  rw [syncTid, hand]
  exact UInt32.add_sub_cancel tid 1

variable {T : Type} (tb : Table T)

theorem Table.lookup_owner (thp : T) : tb.lookup (tb.owner thp) = some thp := by
  have h := tb.tid_lt thp
  rw [Table.lookup, Table.owner, syncPindex_owner h, syncTid_owner h, if_neg (tb.pindex_ne thp)]
  exact tb.thread_self thp

theorem Table.lookup_zero : tb.lookup 0 = none := if_pos (by decide)

/-! ## The invariant -/

variable {Q E : Type}

/-- The owner that the first waiter of a mutex records. -/
def recorded (st : St T Q E) (syp : Q) : Option T := (st.first syp).bind fun e => tb.lookup (st.muOwner e)

/-- Waiting lists and hold lists, with the mutex `opened` on no hold list. -/
structure Holds (off : Option T) (opened : Option Q) (st : St T Q E) (w : Q → List (Entry T Q E))
    (hl : T → List Q) : Prop where
  queues : Queues off st w
  lists : HoldLists st hl
  only : ∀ syp, ∀ e ∈ w syp, e.isThread = true
  zero : ∀ syp, ∀ e ∈ (w syp).tail, st.muOwner e = 0
  mem : ∀ syp thp, syp ∈ hl thp ↔ opened ≠ some syp ∧ recorded tb st syp = some thp
  live : ∀ syp e, opened ≠ some syp → st.first syp = some e → st.muOwner e ≠ 0 →
    ∃ thp, tb.lookup (st.muOwner e) = some thp
  blocked : ∀ thp, st.state thp = .mutex → off ≠ some thp → ∃ syp, st.blockedOn thp = some syp

section
variable {tb} {st st' : St T Q E} {w : Q → List (Entry T Q E)} {hl : T → List Q} {off : Option T}
  {opened : Option Q} {syp : Q} {e : Entry T Q E} {owner : UInt32} {thp : T}

theorem recorded_of_first (he : st.first syp = some e) : recorded tb st syp = tb.lookup (st.muOwner e) := by
  rw [recorded, he]
  rfl

theorem recorded_of_zero (h : ∀ e, st.first syp = some e → st.muOwner e = 0) : recorded tb st syp = none := by
  cases he : st.first syp with
  | none =>
    rw [recorded, he]
    rfl
  | some e => rw [recorded_of_first he, h e he, tb.lookup_zero]

theorem OnlyHold.recorded (h : OnlyHold st st') : recorded tb st' = recorded tb st := by
  obtain ⟨n, p, l, rfl⟩ := h
  rfl

theorem OnlyHold.first (h : OnlyHold st st') : st'.first = st.first := by
  obtain ⟨n, p, l, rfl⟩ := h
  rfl

theorem OnlyHold.muOwner (h : OnlyHold st st') : st'.muOwner = st.muOwner := by
  obtain ⟨n, p, l, rfl⟩ := h
  rfl

section
variable (h : Holds tb off opened st w hl)
include h

theorem Holds.first (syp : Q) : st.first syp = (w syp).head? :=
  h.queues.waits.first syp

theorem Holds.first_thread (he : st.first syp = some e) :
    ∃ t, e = .thread t := by
  have hm := h.only syp e (h.queues.first_mem he)
  cases e with
  | thread t => exact ⟨t, rfl⟩
  | ceiling | event => cases hm

theorem Holds.first_not_event (he : st.first syp = some e) : e.isEvent = false := by
  obtain ⟨t, rfl⟩ := h.first_thread he
  rfl

end

theorem recorded_opened (hsyp : recorded tb st syp = none) (q : Q) (t : T) :
    none ≠ some q ∧ recorded tb st q = some t ↔ some syp ≠ some q ∧ recorded tb st q = some t := by
  refine and_congr_left fun hr => iff_of_true nofun fun hq => ?_
  rw [← some.inj hq, hsyp] at hr
  cases hr

theorem Holds.open (h : Holds tb off none st w hl) (hsyp : recorded tb st syp = none) :
    Holds tb off (some syp) st w hl :=
  ⟨h.queues, h.lists, h.only, h.zero, fun q t => (h.mem q t).trans (recorded_opened hsyp q t),
    fun q e _ => h.live q e nofun, h.blocked⟩

theorem Holds.close (h : Holds tb off (some syp) st w hl) (hsyp : ∀ e, st.first syp = some e → st.muOwner e = 0) :
    Holds tb off none st w hl := by
  refine ⟨h.queues, h.lists, h.only, h.zero, fun q t => (h.mem q t).trans
    (recorded_opened (recorded_of_zero hsyp) q t).symm, fun q e _ he ho => h.live q e (fun hq => ?_) he ho, h.blocked⟩
  cases hq
  exact ho (hsyp e he)

/-! ## Lengths -/

theorem exists_threads {l : List (Entry T Q E)} (h : ∀ e ∈ l, e.isThread = true) : ∃ ts : List T, l = ts.map .thread := by
  induction l with
  | nil => exact ⟨[], rfl⟩
  | cons e l ih =>
    obtain ⟨ts, rfl⟩ := ih fun e he => h e (.tail _ he)
    have he := h e mem_cons_self
    cases e with
    | thread t => exact ⟨t :: ts, rfl⟩
    | ceiling | event => cases he

theorem Holds.length_waiting [Fintype T] (h : Holds tb off opened st w hl) (syp : Q) :
    (w syp).length ≤ Fintype.card T := by
  obtain ⟨ts, hts⟩ := exists_threads (h.only syp)
  have hnd := h.queues.waits.nodup syp
  rw [hts] at hnd ⊢
  rw [length_map]
  exact (List.Nodup.of_map _ hnd).length_le_card

theorem Holds.length_hold [Fintype T] (h : Holds tb off opened st w hl) (thp : T) :
    (hl thp).length ≤ Fintype.card T := by
  -- the first waiters of the mutexes are different threads
  have hex : ∀ l : List Q, (∀ q ∈ l, q ∈ hl thp) → ∃ ts : List T, l.map st.first = ts.map fun t => some (.thread t) := by
    intro l
    induction l with
    | nil => exact fun _ => ⟨[], rfl⟩
    | cons q l ih =>
      intro hl'
      obtain ⟨ts, hts⟩ := ih fun q hq => hl' q (.tail _ hq)
      obtain ⟨e, he, -⟩ := h.lists.first thp q (hl' q mem_cons_self)
      obtain ⟨t, rfl⟩ := h.first_thread he
      exact ⟨t :: ts, by rw [map_cons, hts, he]; rfl⟩
  obtain ⟨ts, hts⟩ := hex (hl thp) fun _ hq => hq
  have hnd : ((hl thp).map st.first).Nodup := by
    refine List.Nodup.map_on (fun q hq q' hq' he => ?_) (h.lists.chain thp).nodup
    obtain ⟨e, hqe, -⟩ := h.lists.first thp q hq
    exact h.lists.inj q q' e hqe (he ▸ hqe)
  rw [hts] at hnd
  have hlen := congrArg length hts
  rw [length_map, length_map] at hlen
  rw [hlen]
  exact (List.Nodup.of_map _ hnd).length_le_card

/-! ## Off a hold list and on it -/

variable [DecidableEq T] [DecidableEq Q] [DecidableEq E]

theorem recorded_setMuOwner (hinj : ∀ q q' e, st.first q = some e → st.first q' = some e → q = q')
    (he : st.first syp = some e) (owner : UInt32) :
    recorded tb (st.setMuOwner e owner) = update (recorded tb st) syp (tb.lookup owner) := by
  funext q
  rw [← show _ = update (recorded tb st) syp _ q from bind_first_update hinj he (tb.lookup ∘ st.muOwner) _ q,
    ← comp_update]
  rfl

omit [DecidableEq T] [DecidableEq Q] [DecidableEq E] in
theorem Holds.tail_ne (h : Holds tb off opened st w hl) (he : st.first syp = some e) {q : Q} {x : Entry T Q E}
    (hx : x ∈ (w q).tail) : x ≠ e := by
  rintro rfl
  have hq : q = syp := h.queues.waits.apart q syp x (mem_of_mem_tail hx) (h.queues.first_mem he)
  subst hq
  have hnd := h.queues.waits.nodup q
  obtain ⟨l, hl'⟩ := head?_eq_some_iff.mp ((h.first q).symm.trans he)
  rw [hl'] at hx hnd
  exact (nodup_cons.mp hnd).1 hx

/-- The hold lists without the mutex, whatever its first waiter records. -/
theorem Holds.opened_of (h : Holds tb off opened st w hl) (hopen : ∀ q, q ≠ syp → opened ≠ some q)
    (he : st.first syp = some e) {owner : UInt32} (hold : OnlyHold (st.setMuOwner e owner) st') {hl' : T → List Q}
    (hlists : HoldLists st' hl') (hmem : ∀ q t, q ∈ hl' t ↔ q ∈ hl t ∧ q ≠ syp) :
    Holds tb off (some syp) st' w hl' := by
  have hrec : recorded tb st' = update (recorded tb st) syp (tb.lookup owner) := by
    rw [hold.recorded, recorded_setMuOwner h.lists.inj he]
  have howner : ∀ x, x ≠ e → st'.muOwner x = st.muOwner x := fun x hx => by
    rw [hold.muOwner]
    exact update_of_ne hx _ _
  have hne : ∀ q, some syp ≠ some q ↔ q ≠ syp := fun q =>
    ⟨fun hs hq => hs (by rw [hq]), fun hq hs => hq (some.inj hs).symm⟩
  refine ⟨(h.queues.same (setMuOwner_same st e owner)).same hold.same, hlists, h.only, fun q x hx => ?_, fun q t => ?_,
    fun q x hq hx ho => ?_, fun t hs => ?_⟩
  · rw [howner x (h.tail_ne he hx)]
    exact h.zero q x hx
  · rw [hmem, h.mem, hrec, hne]
    constructor
    · rintro ⟨⟨-, hr⟩, hq⟩
      exact ⟨hq, by rwa [update_of_ne hq]⟩
    · rintro ⟨hq, hr⟩
      rw [update_of_ne hq] at hr
      exact ⟨⟨hopen q hq, hr⟩, hq⟩
  · rw [hne] at hq
    rw [hold.first] at hx
    have hxe : x ≠ e := fun hxe => hq (h.lists.inj q syp e (hxe ▸ hx) he)
    rw [howner x hxe] at ho ⊢
    exact h.live q x (hopen q hq) hx ho
  · rw [hold.same.state] at hs
    rw [hold.same.blockedOn]
    exact h.blocked t hs

theorem Holds.setMuOwner (h : Holds tb off (some syp) st w hl) (he : st.first syp = some e) (owner : UInt32) :
    Holds tb off (some syp) (st.setMuOwner e owner) w hl := by
  refine h.opened_of (fun q hq hs => hq (some.inj hs).symm) he (OnlyHold.refl _)
    (h.lists.congr rfl rfl rfl h.lists.inj (fun _ _ _ => rfl) fun _ _ _ => rfl) fun q t => ?_
  refine ⟨fun hq => ⟨hq, fun hs => ?_⟩, fun hq => hq.1⟩
  exact ((h.mem q t).mp hq).1 (by rw [hs])

section
variable (h : Holds tb off none st w hl) (he : st.first syp = some e)
include h he

omit h he in
theorem setMuOwner_self (st : St T Q E) (e : Entry T Q E) : st.setMuOwner e (st.muOwner e) = st := by
  rw [St.setMuOwner, update_eq_self]

omit [DecidableEq T] [DecidableEq Q] [DecidableEq E] in
theorem Holds.open_zero (ho : st.muOwner e = 0) : Holds tb off (some syp) st w hl :=
  h.open (by rw [recorded_of_first he, ho, tb.lookup_zero])

/-- mutex_holdlist_rem if the first waiter records an owner, whatever it records from now on. -/
theorem Holds.unlink (owner : UInt32) (hz : st.muOwner e = 0 → st.setMuOwner e owner = st) :
    ∃ st' hl', (if st.muOwner e ≠ 0 then mutexHoldlistRem (st.setMuOwner e owner) syp else some st) = some st' ∧
      OnlyHold (st.setMuOwner e owner) st' ∧ Holds tb off (some syp) st' w hl' := by
  by_cases ho : st.muOwner e = 0
  · exact ⟨st, hl, if_neg (not_not_intro ho), (hz ho).symm ▸ OnlyHold.refl st, h.open_zero he ho⟩
  rw [if_pos ho]
  obtain ⟨t, ht⟩ := h.live syp e (by simp) he ho
  have hmem : syp ∈ hl t := (h.mem syp t).mpr ⟨by simp, (recorded_of_first he).trans ht⟩
  have hlists : HoldLists (st.setMuOwner e owner) hl :=
    h.lists.congr rfl rfl rfl h.lists.inj (fun _ _ _ => rfl) fun _ _ _ => rfl
  obtain ⟨st', hrun, hold, hlists'⟩ := hlists.rem hmem
  refine ⟨st', update hl t ((hl t).erase syp), hrun, hold,
    h.opened_of (fun _ _ => by simp) he hold hlists' fun q t' => ?_⟩
  by_cases htt : t' = t
  · rw [htt, update_self, (h.lists.chain t).nodup.mem_erase_iff]
    exact and_comm
  · rw [update_of_ne htt]
    refine ⟨fun hq => ⟨hq, fun hs => htt (h.lists.apart t' t syp (hs ▸ hq) hmem)⟩, fun hq => hq.1⟩

theorem Holds.leave :
    ∃ st' hl', holdlistLeave st e syp = some st' ∧ OnlyHold st st' ∧ Holds tb off (some syp) st' w hl' := by
  have hleave := h.unlink he (st.muOwner e) fun _ => setMuOwner_self st e
  rw [setMuOwner_self] at hleave
  exact hleave

theorem Holds.clear : ∃ st' hl', holdlistClear st e syp = some st' ∧ OnlyHold (st.setMuOwner e 0) st' ∧
      Holds tb off (some syp) st' w hl' := by
  have hclear : holdlistClear st e syp = (holdlistLeave st e syp).map (·.setMuOwner e 0) := by
    unfold holdlistClear holdlistLeave
    split
    · rfl
    · next ho => rw [map_some, ← not_not.mp ho, setMuOwner_self]
  obtain ⟨st', hl', hrun, hold, hh⟩ := h.leave he
  refine ⟨st'.setMuOwner e 0, hl', by rw [hclear, hrun]; rfl, ?_, hh.setMuOwner (by rw [hold.first, he]) 0⟩
  obtain ⟨n, p, l, rfl⟩ := hold
  exact ⟨n, p, l, rfl⟩

end

/-- The mutex goes on the hold list of the thread that its first waiter is to record. -/
theorem Holds.link [Fintype T] (h : Holds tb off (some syp) st w hl) (he : st.first syp = some e)
    (hlook : tb.lookup owner = some thp) {fuel : Nat} (hf : Fintype.card T < fuel) :
    ∃ st' hl', mutexHoldlistAdd fuel st thp syp = some st' ∧ OnlyHold st st' ∧
      Holds tb off none (st'.setMuOwner e owner) w hl' := by
  have hnew : ∀ t, syp ∉ hl t := fun t hm => ((h.mem syp t).mp hm).1 rfl
  obtain ⟨st', hrun, hold, hlists⟩ := h.lists.add hnew he (h.first_not_event he)
    ((h.length_hold thp).trans_lt hf)
  refine ⟨st', update hl thp (enqueue (firstPriority st) syp (hl thp)), hrun, hold, ?_⟩
  have hrec : recorded tb (st'.setMuOwner e owner) = update (recorded tb st) syp (some thp) := by
    rw [recorded_setMuOwner hlists.inj (by rw [hold.first, he]), hold.recorded, hlook]
  have howner : ∀ x, x ≠ e → (st'.setMuOwner e owner).muOwner x = st.muOwner x := fun x hx =>
    (update_of_ne hx _ _).trans (congrFun hold.muOwner x)
  refine ⟨(h.queues.same hold.same).same (setMuOwner_same _ _ _), hlists.congr rfl rfl rfl hlists.inj
    (fun _ _ _ => rfl) fun _ _ _ => rfl, h.only, fun q x hx => ?_, fun q t => ?_, fun q x _ hx ho => ?_, fun t hs => ?_⟩
  · rw [howner x (h.tail_ne he hx)]
    exact h.zero q x hx
  · rw [hrec]
    have hin : q ∈ update hl thp (enqueue (firstPriority st) syp (hl thp)) t ↔
        q ∈ hl t ∨ t = thp ∧ q = syp := Waits.mem_add
    rw [hin, h.mem]
    by_cases hq : q = syp
    · simp [hq, eq_comm]
    · simp [hq, Ne.symm hq]
  · by_cases hxe : x = e
    · refine ⟨thp, ?_⟩
      rw [hxe]
      exact (congrArg tb.lookup (update_self _ _ _)).trans hlook
    · rw [howner x hxe] at ho ⊢
      have hx' : st.first q = some x := by rw [← hold.first]; exact hx
      refine h.live q x (fun hs => hxe ?_) hx' ho
      rw [← some.inj hs, he] at hx'
      exact (some.inj hx').symm
  · have hs' : st.state t = .mutex := hold.same.state ▸ hs
    exact (congrFun hold.same.blockedOn t).symm ▸ h.blocked t hs'

omit [DecidableEq T] [DecidableEq Q] [DecidableEq E] in
/-- Waiters come and go, but the mutexes on hold lists keep their first waiters. -/
theorem Holds.relist (h : Holds tb off opened st w hl) {off' : Option T} {w' : Q → List (Entry T Q E)}
    (hq : Queues off' st' w') (hhead : ∀ q, opened ≠ some q → (w' q).head? = (w q).head?)
    (honly : ∀ q, ∀ e ∈ w' q, e.isThread = true) (hzero : ∀ q, ∀ e ∈ (w' q).tail, st'.muOwner e = 0)
    (howner : ∀ q e, opened ≠ some q → st.first q = some e → st'.muOwner e = st.muOwner e)
    (hprio : ∀ q e, opened ≠ some q → st.first q = some e → st'.pril.priority e = st.pril.priority e)
    (hnext : st'.muNext = st.muNext) (hprev : st'.muPrev = st.muPrev) (hhold : st'.mutexHoldlist = st.mutexHoldlist)
    (hblocked : ∀ t, st'.state t = .mutex → off' ≠ some t → ∃ syp, st'.blockedOn t = some syp) :
    Holds tb off' opened st' w' hl := by
  have hfirst : ∀ q, opened ≠ some q → st'.first q = st.first q := fun q hne => by
    rw [h.first, ← hhead q hne]
    exact hq.waits.first q
  have hne : ∀ t, ∀ q ∈ hl t, opened ≠ some q := fun t q hm => ((h.mem q t).mp hm).1
  refine ⟨hq, h.lists.congr hnext hprev hhold (fun q q' e h1 h2 => ?_) (fun t q hm => hfirst q (hne t q hm)) ?_,
    honly, hzero, fun q t => ?_, fun q x hqs hx ho => ?_, hblocked⟩
  · exact hq.waits.apart q q' e (hq.first_mem h1) (hq.first_mem h2)
  · intro t q hm
    rw [firstPriority, firstPriority, hfirst q (hne t q hm)]
    cases he : st.first q with
    | none => rfl
    | some x => simp [hprio q x (hne t q hm) he]
  · rw [h.mem]
    refine and_congr_right fun hs => ?_
    cases he : st.first q with
    | none => rw [recorded, recorded, hfirst q hs, he]; rfl
    | some x => rw [recorded_of_first he, recorded_of_first ((hfirst q hs).trans he), howner q x hs he]
  · rw [hfirst q hqs] at hx
    rw [howner q x hqs hx] at ho ⊢
    exact h.live q x hqs hx ho

end

end QRV.Nano.Mutex
