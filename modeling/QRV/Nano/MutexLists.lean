import QRV.Lib.Call
import QRV.Nano.Mutex
import QRV.Nano.PrilLists

/- The waiting lists of all mutexes along runs of the calls of `Mutex.lean`.

   `Queues off st w` says that the lists are the priority lists `w`, that a thread is on the
   list of the mutex it is blocked on and on no other, and that only created ceilings and
   events in use are on lists. While a thread is being put on a list or taken off one its
   state and the lists disagree: that thread is `off`. Hold lists and owners decide whose
   priority changes and which calls crash; they are never part of a list (`OnlyHold`), so
   the results here need nothing about them.

   Two steps break the lists. SyncCtl writes the new ceiling into an entry that stays where
   it is, and priority_chain_drop, called by force_ready for the owner of a mutex, can come
   back to the thread that is just taken off its list. `Ok` excludes the two. -/
namespace QRV.Nano.Mutex
open Function
open LinkCell StableQueue Call List Option

variable {T Q E : Type}
variable {e : Entry T Q E}

/-- The lists, and who is on them. -/
structure Queues (off : Option T) (st : St T Q E) (w : Q → List (Entry T Q E)) : Prop where
  waits : Waits st.pril w
  thread : ∀ thp syp, .thread thp ∈ w syp ↔ st.state thp = .mutex ∧ st.blockedOn thp = some syp ∧ off ≠ some thp
  ceiling : ∀ syp syp', .ceiling syp ∈ w syp' → st.created syp = true
  event : ∀ syncep syp, .event syncep ∈ w syp → st.process syncep ≠ none

/-- Only hold lists change. -/
def OnlyHold (st st' : St T Q E) : Prop :=
  ∃ next prev holdlist, st' = { st with muNext := next, muPrev := prev, mutexHoldlist := holdlist }

theorem OnlyHold.refl (st : St T Q E) : OnlyHold st st := ⟨_, _, _, rfl⟩

theorem OnlyHold.trans {st st' st'' : St T Q E} (h : OnlyHold st st') (h' : OnlyHold st' st'') : OnlyHold st st'' := by
  obtain ⟨n, p, l, rfl⟩ := h
  obtain ⟨n', p', l', rfl⟩ := h'
  exact ⟨_, _, _, rfl⟩

/-- What the changes of priorities leave alone besides the lists. -/
structure Kept (st st' : St T Q E) : Prop where
  state : st'.state = st.state
  blockedOn : st'.blockedOn = st.blockedOn
  created : st'.created = st.created
  process : st'.process = st.process

/-- The lists and who is on them are the same. -/
structure Same (st st' : St T Q E) : Prop extends Kept st st' where
  pril : st'.pril = st.pril

theorem Kept.trans {st st' st'' : St T Q E} (h : Kept st st') (h' : Kept st' st'') : Kept st st'' :=
  ⟨h'.state.trans h.state, h'.blockedOn.trans h.blockedOn, h'.created.trans h.created, h'.process.trans h.process⟩

theorem Same.trans {st st' st'' : St T Q E} (h : Same st st') (h' : Same st' st'') : Same st st'' :=
  ⟨h.toKept.trans h'.toKept, h'.pril.trans h.pril⟩

theorem OnlyHold.same {st st' : St T Q E} (h : OnlyHold st st') : Same st st' := by
  obtain ⟨n, p, l, rfl⟩ := h
  exact ⟨⟨rfl, rfl, rfl, rfl⟩, rfl⟩

theorem Queues.reorder {off : Option T} {st st' : St T Q E} {w w' : Q → List (Entry T Q E)} (h : Queues off st w)
    (hk : Kept st st') (hw : Waits st'.pril w') (hmem : ∀ syp e, e ∈ w' syp ↔ e ∈ w syp) : Queues off st' w' := by
  refine ⟨hw, fun t syp => ?_, fun syp syp' hm => ?_, fun e syp hm => ?_⟩
  · rw [hmem, h.thread, hk.state, hk.blockedOn]
  · rw [hk.created]
    exact h.ceiling syp syp' ((hmem _ _).mp hm)
  · rw [hk.process]
    exact h.event e syp ((hmem _ _).mp hm)

theorem Queues.same {off : Option T} {st st' : St T Q E} {w : Q → List (Entry T Q E)} (h : Queues off st w)
    (hs : Same st st') : Queues off st' w := h.reorder hs.toKept (hs.pril ▸ h.waits) fun _ _ => Iff.rfl

theorem Same.refl (st : St T Q E) : Same st st := ⟨⟨rfl, rfl, rfl, rfl⟩, rfl⟩

/-- The lists are priority lists. -/
def Listed (off : Option T) (st : St T Q E) : Prop := ∃ w, Queues off st w

/-- The lists are priority lists again, and priorities apart nothing else changed. -/
def Moves (off : Option T) (st st' : St T Q E) : Prop := Listed off st' ∧ Kept st st'

theorem Listed.same {off : Option T} {st st' : St T Q E} (h : Listed off st) (hs : Same st st') : Listed off st' :=
  h.imp fun _ hq => hq.same hs

theorem Listed.moves {off : Option T} {st : St T Q E} (h : Listed off st) : Moves off st st := ⟨h, rfl, rfl, rfl, rfl⟩

theorem Moves.trans {off : Option T} {st st' st'' : St T Q E} (hk : Kept st st') (h : Moves off st' st'') :
    Moves off st st'' := ⟨h.1, hk.trans h.2⟩

section
variable {fuel : Nat} {st st' : St T Q E} {w : Q → List (Entry T Q E)} {off : Option T} {thp : T} {syp : Q}

theorem Queues.off_list (h : Queues off st w)
    (hthp : st.state thp = .mutex → ∀ syp, st.blockedOn thp = some syp → off = some thp) :
    ∀ syp, .thread thp ∉ w syp := by
  intro syp hm
  obtain ⟨hs, hb, ho⟩ := (h.thread thp syp).mp hm
  exact ho (hthp hs syp hb)

theorem Queues.first_mem (h : Queues off st w) (he : st.first syp = some e) : e ∈ w syp := by
  rw [St.first, h.waits.first] at he
  exact mem_of_head? he

theorem Queues.next_mem (h : Queues off st w) {e e' : Entry T Q E} (he : e ∈ w syp) (hn : st.next e = some e') :
    e' ∈ w syp := by
  have hc := h.waits.chain syp
  obtain ⟨l1, l2, hl⟩ := append_of_mem he
  rw [hl] at hc
  have hc2 : Chain st.pril.links (.next e) l2 := ((chain_append _ _ _ _).mp hc).2.2
  cases l2 with
  | nil => cases hc2.symm.trans hn
  | cons x l2 =>
    obtain rfl := some.inj (hc2.1.symm.trans hn)
    simp [hl]

theorem Queues.create (h : Queues off st w) (hpril : st'.pril = st.pril) (hs : st'.state = st.state)
    (hb : st'.blockedOn = st.blockedOn) (hp : st'.process = st.process)
    (hc : ∀ syp, st.created syp = true → st'.created syp = true) : Queues off st' w := by
  refine ⟨hpril ▸ h.waits, fun t syp => ?_, fun syp syp' hm => hc syp (h.ceiling syp syp' hm), fun e syp hm => ?_⟩
  · rw [h.thread, hs, hb]
  · rw [hp]
    exact h.event e syp hm

theorem find_mem {test : Entry T Q E → Bool} {l : List (Entry T Q E)} {c : Cell Q (Entry T Q E)}
    (hc : Chain st.pril.links c l) (h : st.find test fuel (st.pril.links c) = some (some e)) : e ∈ l ∧ test e = true := by
  induction l generalizing c fuel with
  | nil =>
    rw [hc] at h
    cases fuel <;> cases h
  | cons a l ih =>
    rw [hc.1] at h
    cases fuel with
    | zero => cases h
    | succ fuel =>
      rw [St.find] at h
      split_ifs at h with ht
      · obtain rfl := some.inj (some.inj h)
        exact ⟨mem_cons_self, ht⟩
      · obtain ⟨hm, ht⟩ := ih hc.2 h
        exact ⟨.tail _ hm, ht⟩

/-- The ceiling can be changed where it is: it stays on the same side of every other entry. -/
def Fits (st : St T Q E) (syp : Q) (ceiling : UInt8) : Prop :=
  ∀ l, Chain st.pril.links (.head syp) l → ∀ c ∈ l, c.isCeiling = true → ceiling = st.pril.priority c ∨
    ∀ e ∈ l, e ≠ c → st.pril.priority c < st.pril.priority e ∧ ceiling < st.pril.priority e ∨
      st.pril.priority e < st.pril.priority c ∧ st.pril.priority e < ceiling

theorem Started.queues (h : Started st) : Queues none st fun _ => [] := by
  exact ⟨⟨fun syp => ⟨[], h.lists syp, rfl⟩, nofun, h.flags, h.updates⟩,
    fun t syp => ⟨nofun, fun he => absurd he.1 (h.state t)⟩, nofun, nofun⟩

end

section
variable [DecidableEq T] [DecidableEq Q] [DecidableEq E] {fuel : Nat} {tb : Table T} {st st' : St T Q E}
  {w : Q → List (Entry T Q E)} {off : Option T} {thp act : T} {syp : Q}
variable {prio ceiling : UInt8} {drop : Option UInt8}

theorem update_same {α β : Type} [DecidableEq α] {f : α → β} {b : β} {x : α} (a : α) (h : f x = b) :
    update f a b x = b := by
  rw [update_apply, h, ite_self]

/-! ## Hold lists leave the lists alone -/

theorem setHeld_onlyHold (st : St T Q E) (c : Cell T (Entry T Q E)) (v : Option Q) : OnlyHold st (st.setHeld c v) := by
  cases c <;> exact ⟨_, _, _, rfl⟩

theorem setMuPrev_onlyHold (st : St T Q E) (e : Entry T Q E) (c : Option (Cell T (Entry T Q E))) :
    OnlyHold st (st.setMuPrev e c) := ⟨_, _, _, rfl⟩

omit [DecidableEq T] [DecidableEq E] in
theorem setOwner_same (st : St T Q E) (syp : Q) (owner : UInt32) : Same st (st.setOwner syp owner) :=
  ⟨⟨rfl, rfl, rfl, rfl⟩, rfl⟩

theorem setMuOwner_same (st : St T Q E) (e : Entry T Q E) (owner : UInt32) : Same st (st.setMuOwner e owner) :=
  ⟨⟨rfl, rfl, rfl, rfl⟩, rfl⟩

theorem mutexHoldlistAdd_same : Ends (mutexHoldlistAdd fuel st thp syp) (Same st) := by
  rw [mutexHoldlistAdd]
  refine .seq fun new _ => ?_
  split
  · exact .fails
  · refine .seq fun ⟨owner, curr⟩ _ => ?_
    have hst := (setHeld_onlyHold st (.next new) (st.held owner)).trans (setMuPrev_onlyHold _ new (some owner))
    cases curr with
    | none => exact .done (hst.trans (setHeld_onlyHold _ _ _)).same
    | some thp =>
      dsimp only
      split_ifs
      · exact .fails
      · exact .done ((hst.trans (setMuPrev_onlyHold _ _ _)).trans (setHeld_onlyHold _ _ _)).same

theorem mutexHoldlistRem_same : Ends (mutexHoldlistRem st syp) (Same st) := by
  rw [mutexHoldlistRem]
  refine .seq fun first _ => ?_
  split
  · exact .fails
  · refine .seq fun prev _ => ?_
    have hst := setHeld_onlyHold st prev (st.muNext first)
    split
    · exact .done hst.same
    · refine .seq fun next _ => ?_
      split_ifs
      · exact .fails
      · exact .done (hst.trans (setMuPrev_onlyHold _ _ _)).same

theorem holdlistLeave_same : Ends (holdlistLeave st e syp) (Same st) := by
  rw [holdlistLeave]
  split_ifs
  · exact mutexHoldlistRem_same
  · exact .done (.refl st)

theorem holdlistClear_same : Ends (holdlistClear st e syp) (Same st) := by
  rw [holdlistClear]
  split_ifs
  · exact .map (mutexHoldlistRem_same.mono fun st1 h1 => h1.trans (setMuOwner_same _ _ _))
  · exact .done (.refl st)

/-! ## Single entries -/

theorem Queues.setPriority (h : Queues off st w) (he : ∀ syp, e ∉ w syp) (prio : UInt8) :
    Queues off (st.setPriority e prio) w := by
  exact ⟨h.waits.setPriority he prio, h.thread, h.ceiling, h.event⟩

omit [DecidableEq Q] [DecidableEq E] in
theorem Queues.setState (h : Queues off st w) (hthp : ∀ syp, .thread thp ∉ w syp) {s : ThState T} {off' : Option T}
    (hs : s = .mutex → off' = some thp) (hoff : ∀ t, t ≠ thp → (off = some t ↔ off' = some t)) :
    Queues off' (st.setState thp s) w := by
  refine ⟨h.waits, fun t syp => ?_, h.ceiling, h.event⟩
  by_cases ht : t = thp
  · subst ht
    simp only [St.setState, update_self]
    exact ⟨fun hm => absurd hm (hthp syp), fun ⟨hm, _, ho⟩ => absurd (hs hm) ho⟩
  · simp only [St.setState, update_of_ne ht, h.thread t syp, ne_eq, hoff t ht]

omit [DecidableEq Q] [DecidableEq E] in
theorem Queues.ready (h : Queues (some thp) st w) : Queues none (st.setState thp .ready) w :=
  h.setState (h.off_list fun _ _ _ => rfl) nofun fun _ ht => ⟨fun he => absurd (some.inj he).symm ht, nofun⟩

omit [DecidableEq E] in
/-- A thread takes its place on the list of the mutex it is blocked on. -/
theorem Queues.addThread (h : Queues (some thp) st w) (hs : st.state thp = .mutex)
    (hb : st.blockedOn thp = some syp) {m : PrilMem Q (Entry T Q E)}
    (hw : Waits m (update w syp (enqueue (prilPriority st.pril) (.thread thp) (w syp)))) :
    Queues none { st with pril := m } (update w syp (enqueue (prilPriority st.pril) (.thread thp) (w syp))) := by
  refine ⟨hw, fun t q => ?_, fun q q' hm => ?_, fun e q hm => ?_⟩
  · rw [Waits.mem_add, h.thread]
    by_cases ht : t = thp
    · simp [ht, hs, hb, eq_comm]
    · simp [ht, Ne.symm ht]
  · exact h.ceiling q q' ((Waits.mem_add.mp hm).resolve_right fun he => by cases he.2)
  · exact h.event e q ((Waits.mem_add.mp hm).resolve_right fun he => by cases he.2)

theorem Queues.remThread (h : Queues none st w) (hb : st.blockedOn thp = some syp)
    {m : PrilMem Q (Entry T Q E)} (hw : Waits m (update w syp ((w syp).erase (.thread thp)))) :
    Queues (some thp) { st with pril := m } (update w syp ((w syp).erase (.thread thp))) := by
  refine ⟨hw, fun t q => ?_, fun q q' hm => ?_, fun e q hm => ?_⟩
  · rw [h.waits.mem_rem, h.thread]
    by_cases ht : t = thp
    · simp [ht, hb, eq_comm]
    · simp [ht, Ne.symm ht]
  · exact h.ceiling q q' (h.waits.mem_rem.mp hm).1
  · exact h.event e q (h.waits.mem_rem.mp hm).1

/-- A waiter that is taken off its list, given a priority and put back. -/
theorem Queues.reposition {st1 : St T Q E} (h : Queues off st w)
    (hthp : Entry.thread thp ∈ w syp) (hrem : st.prilRem fuel syp (.thread thp) = some st1)
    (hadd : (st1.setPriority (.thread thp) prio).prilAdd fuel syp (.thread thp) = some st') :
    Moves off st st' := by
  obtain ⟨m1, hm1, rfl⟩ := map_eq_some_iff.mp hrem
  obtain ⟨m2, hm2, rfl⟩ := map_eq_some_iff.mp hadd
  obtain ⟨hw1, -⟩ := h.waits.rem_some hthp hm1
  have hoff := h.waits.not_mem_rem hthp
  obtain ⟨hw3, -⟩ := (hw1.setPriority hoff prio).add_some hoff hm2
  exact ⟨⟨_, h.reorder ⟨rfl, rfl, rfl, rfl⟩ hw3 fun _ _ => h.waits.mem_move hthp⟩, rfl, rfl, rfl, rfl⟩

/-! ## Priorities -/

theorem holdlistReturn_same {owner : UInt32} : Ends (holdlistReturn fuel tb st syp owner) (Same st) := by
  rw [holdlistReturn]
  split
  · exact .done (.refl st)
  · split
    · exact .done (.refl st)
    · refine mutexHoldlistAdd_same.bind fun st1 hs1 => .seq fun first _ => ?_
      exact .done (hs1.trans (setMuOwner_same st1 first owner))

theorem adjustWaiter_moves (h : Queues off st w) (hthp : Entry.thread thp ∈ w syp) :
    Ends (adjustWaiter fuel tb st thp syp prio) (Moves off st) := by
  rw [adjustWaiter]
  refine .seq fun first _ => ?_
  split
  · exact .fails
  · refine Ends.bind (P := Same st) ?_ fun st1 hs1 => ?_
    · split_ifs
      · exact mutexHoldlistRem_same.mono fun st1 hs1 => (setMuOwner_same st first 0).trans hs1
      · exact .done (.refl st)
    · refine .seq fun st2 h2 => .seq fun st3 h3 => ?_
      obtain ⟨hl3, hk3⟩ := (h.same hs1).reposition hthp h2 h3
      exact holdlistReturn_same.mono fun st4 hs4 => ⟨hl3.same hs4, (hs1.toKept.trans hk3).trans hs4.toKept⟩

theorem adjustPriority_moves (h : Listed off st) (hoff : off = some thp → st.blockedOn thp = none) :
    Ends (adjustPriority fuel tb st thp prio) (Moves off st) := by
  obtain ⟨w, hq⟩ := id h
  have hset : (∀ syp, Entry.thread thp ∉ w syp) → Ends (some (st.setPriority (.thread thp) prio)) (Moves off st) :=
    fun hthp => .done ⟨⟨w, hq.setPriority hthp prio⟩, rfl, rfl, rfl, rfl⟩
  rw [adjustPriority]
  split
  · exact .done h.moves
  · split
    · rename_i hs
      split
      · rename_i hb
        exact hset (hq.off_list fun _ syp hb' => nomatch hb.symm.trans hb')
      · rename_i syp hb
        exact adjustWaiter_moves hq ((hq.thread thp syp).mpr ⟨hs, hb, fun ho => nomatch (hoff ho).symm.trans hb⟩)
    · rename_i hs
      exact hset (hq.off_list fun hs' => absurd hs' hs)

theorem adjust_moves (h : Listed none st) : Ends (adjustPriority fuel tb st thp prio) (Moves none st) :=
  adjustPriority_moves h nofun

theorem raiseReceivers_moves (h : Listed none st) {chp : Nat} :
    Ends (raiseReceivers fuel tb act chp st) (Moves none st) := by
  rw [raiseReceivers]
  generalize tb.channelThreads chp = threads
  induction threads generalizing st with
  | nil => exact .done h.moves
  | cons thp l ih =>
    rw [foldlM_cons]
    refine Ends.bind (P := Moves none st) ?_ fun st1 ⟨h1, hk1⟩ => (ih h1).mono fun _ => .trans hk1
    split_ifs
    · exact adjust_moves h
    · exact .done h.moves

theorem boost_moves (h : Listed none st) {steps : Nat} {owner : Option T} :
    Ends (boost fuel tb act steps owner st) (Moves none st) := by
  induction steps generalizing owner st with
  | zero =>
    cases owner with
    | none => exact .done h.moves
    | some thp => exact .fails
  | succ steps ih =>
    cases owner with
    | none => exact .done h.moves
    | some thp =>
      rw [boost]
      split
      · exact .done h.moves
      · refine (adjust_moves h).bind fun st1 ⟨h1, hk1⟩ => Ends.mono (P := Moves none st1) ?_ fun _ => .trans hk1
        -- whatever the loop does next starts from lists again
        split
        · split_ifs
          · exact .done h1.moves
          · exact raiseReceivers_moves h1
        · split_ifs
          · exact .done h1.moves
          · exact ih h1
        · refine .seq fun syp _ => .seq fun first _ => ?_
          split_ifs
          · exact .fails
          · exact ih h1
        · exact .done h1.moves

/-- The drop that does not come to the thread that is off its list. -/
theorem priorityChainDrop_moves (h : Listed (some thp) st) {steps : Nat} {owner : T}
    (hpath : thp ∉ dropPath fuel tb steps owner st) :
    Ends (priorityChainDrop fuel tb steps owner st) (Moves (some thp) st) := by
  induction steps generalizing owner st with
  | zero => exact .fails
  | succ steps ih =>
    rw [priorityChainDrop]
    rw [dropPath] at hpath
    split_ifs at hpath ⊢ with hlt
    · refine .seq fun st1 h1 => .seq fun next hnext => ?_
      rw [h1] at hpath
      dsimp only at hpath
      rw [hnext] at hpath
      have hne : owner ≠ thp := by
        rintro rfl
        cases next <;> exact hpath mem_cons_self
      have hm1 := adjustPriority_moves h (fun ho => absurd (some.inj ho).symm hne) st1 h1
      cases next with
      | none => exact .done hm1
      | some t => exact (ih hm1.1 fun hm => hpath (.tail _ hm)).mono fun _ => .trans hm1.2
    · exact .done h.moves

/-! ## Waking threads -/

theorem Queues.wake (h : Queues none st w) (hthp : Entry.thread thp ∈ w syp)
    (hrem : st.prilRem fuel syp (.thread thp) = some st') : Listed none (st'.setState thp .ready) := by
  obtain ⟨m, hm, rfl⟩ := map_eq_some_iff.mp hrem
  exact ⟨_, (h.remThread ((h.thread thp syp).mp hthp).2.1 (h.waits.rem_some hthp hm).1).ready⟩

/-- The lists after a wakeup: no thread that was ready stops being so. -/
def Woken (st st' : St T Q E) : Prop :=
  Listed none st' ∧ ∀ t, st.state t = .ready → st'.state t = .ready

omit [DecidableEq T] [DecidableEq Q] [DecidableEq E] in
theorem Listed.woken (h : Listed none st) : Woken st st := ⟨h, fun _ ht => ht⟩

theorem syncWakeup_woken (hl : Listed none st) : Ends (syncWakeup fuel st syp) (Woken st) := by
  obtain ⟨w, h⟩ := id hl
  have hwake : ∀ thp, Entry.thread thp ∈ w syp → Ends (do
      let st ← st.prilRem fuel syp (.thread thp)
      some { st.setState thp .ready with acquire := update st.acquire thp true }) (Woken st) := by
    refine fun thp hthp => .seq fun st1 h1 => .done ?_
    have hl1 := h.wake hthp h1
    obtain ⟨m, -, rfl⟩ := map_eq_some_iff.mp h1
    exact ⟨hl1.same ⟨⟨rfl, rfl, rfl, rfl⟩, rfl⟩, fun _ => update_same thp⟩
  unfold syncWakeup
  split
  · exact .done hl.woken
  · rename_i thp hf
    exact hwake thp (h.first_mem hf)
  · rename_i e hne hf
    split
    · rename_i thp hn
      exact hwake thp (h.next_mem (h.first_mem hf) hn)
    · exact .done hl.woken

theorem forceUnlink_queues (h : Listed none st) (hs : st.state thp = .mutex) (hb : st.blockedOn thp = some syp) :
    Ends (forceUnlink fuel tb st thp syp) fun p => Listed (some thp) p.1 := by
  obtain ⟨w, h⟩ := h
  have hthp : Entry.thread thp ∈ w syp := (h.thread thp syp).mpr ⟨hs, hb, by simp⟩
  -- taking the thread off, whatever happened to the hold lists before
  have hrem : ∀ {st1 : St T Q E}, Same st st1 →
      Ends (st1.prilRem fuel syp (.thread thp)) (Listed (some thp)) := by
    refine fun hs1 => .map fun m hm => ?_
    have hq1 := h.same hs1
    exact ⟨_, hq1.remThread (hs1.blockedOn ▸ hb) (hq1.waits.rem_some hthp hm).1⟩
  rw [forceUnlink]
  split
  · refine holdlistLeave_same.bind fun st1 hs1 => (hrem hs1).bind fun st2 h2 => ?_
    split
    · split
      · exact mutexHoldlistAdd_same.bind fun st3 hs3 => .done ((h2.same hs3).same (setMuOwner_same _ _ _))
      · exact .done (h2.same (setMuOwner_same _ _ _))
    · exact .done h2
  · exact .map (hrem (.refl st))

theorem forceReady_queues (h : Listed none st) (hpath : thp ∉ forcedPath fuel tb st thp) :
    Ends (forceReady fuel tb st thp) (Listed none) := by
  rw [forceReady]
  rw [forcedPath] at hpath
  split
  · exact .done h
  · rename_i hs
    refine .seq fun syp hb => .seq fun ⟨st1, thp2⟩ h1 => ?_
    rw [hs, hb] at hpath
    dsimp only at hpath
    rw [h1] at hpath
    have hl1 := forceUnlink_queues h hs hb _ h1
    refine Ends.bind (P := Listed (some thp)) ?_ fun st2 ⟨w2, hq2⟩ => .done ⟨w2, hq2.ready⟩
    cases thp2 with
    | none => exact .done hl1
    | some thp2 =>
      dsimp only at hpath ⊢
      split_ifs at hpath ⊢ with hd
      · exact (priorityChainDrop_moves hl1 hpath).mono fun _ hm => hm.1
      · exact .done hl1
  · rename_i hs hs'
    exact .done (h.imp fun w hq => hq.setState (hq.off_list fun he => absurd he hs') nofun fun _ _ => Iff.rfl)

/-! ## sync_mutex_lock and sync_mutex_unlock -/

omit [DecidableEq T] [DecidableEq E] in
theorem syncLookup_queues (h : Listed off st) :
    Ends (syncLookup st syp) fun st' => Listed off st' ∧ st'.state = st.state ∧ st'.pril = st.pril := by
  rw [syncLookup]
  split_ifs with hc ho ho
  · exact .fails
  · exact .done ⟨h, rfl, rfl⟩
  · exact .done ⟨h.imp fun w hq => hq.create rfl rfl rfl rfl fun _ => update_same syp, rfl, rfl⟩
  · exact .fails

section
variable (h : Listed none st)
include h

theorem lockAcquire_queues {syncep thp : Option (Entry T Q E)} :
    Ends (lockAcquire fuel tb st act syp ceiling syncep thp) (Listed none) := by
  rw [lockAcquire]
  refine Ends.bind (P := Same st) ?_ fun st1 hs1 => ?_
  · split
    · exact .done (setOwner_same _ _ _)
    · refine holdlistLeave_same.bind fun st2 hs2 => mutexHoldlistAdd_same.mono fun st3 hs3 => ?_
      exact (((setOwner_same st _ _).trans hs2).trans ((setMuOwner_same _ _ _).trans (setOwner_same _ _ _))).trans hs3
  · split_ifs
    · exact (adjust_moves (h.same hs1)).mono fun _ hm => hm.1
    · exact .done (h.same hs1)

theorem lockWake_woken : Ends (lockWake fuel st syp) (Woken st) := by
  rw [lockWake]
  split
  · exact .done h.woken
  · split
    · exact .done h.woken
    · refine holdlistClear_same.bind fun st1 hs1 => (syncWakeup_woken (h.same hs1)).bind fun st2 ⟨h2, hr2⟩ => ?_
      rw [hs1.state] at hr2
      split
      · exact .done ⟨h2, hr2⟩
      · split_ifs
        · exact .done ⟨h2, hr2⟩
        · exact .done ⟨h2.same (setMuOwner_same _ _ _), hr2⟩

omit h in
theorem lockEnqueue_queues (h : Queues (some act) st w) (hs : st.state act = .mutex)
    (hb : st.blockedOn act = some syp) : Ends (lockEnqueue fuel st act syp) (Listed none) := by
  rw [lockEnqueue]
  refine Ends.bind (P := Same st) ?_ fun st1 hs1 => .map fun m hm => ?_
  · split
    · split_ifs
      · exact holdlistClear_same
      · exact .done (.refl st)
    · exact .done (.refl st)
  · have hq1 := h.same hs1
    have hw := (hq1.waits.add_some (hq1.off_list fun _ _ _ => rfl) hm).1
    exact ⟨_, hq1.addThread (hs1.state ▸ hs) (hs1.blockedOn ▸ hb) hw⟩

omit h in
omit [DecidableEq Q] [DecidableEq E] in
theorem Queues.setBlockedOn (h : Queues (some act) st w) (v : Option Q) : Queues (some act) (st.setBlockedOn act v) w := by
  refine ⟨h.waits, fun t syp => ?_, h.ceiling, h.event⟩
  rw [h.thread]
  by_cases ht : t = act
  · simp [ht]
  · simp [St.setBlockedOn, update_of_ne ht]

theorem lockBlock_queues (hact : st.state act = .ready) {owner : UInt32} {imto : Bool} :
    Ends (lockBlock fuel tb st act syp owner imto drop) (Listed none) := by
  rw [lockBlock]
  split
  · exact .done h
  · have h0 : Listed (some act) ((st.setState act .mutex).setBlockedOn act none) := by
      exact h.imp fun w hq => (hq.setState (hq.off_list fun hm => nomatch hact.symm.trans hm) (fun _ => rfl)
        fun t ht => ⟨nofun, fun he => absurd (some.inj he).symm ht⟩).setBlockedOn none
    refine Ends.bind (P := Moves (some act) ((st.setState act .mutex).setBlockedOn act none)) ?_
      fun st1 ⟨⟨w1, hq1⟩, hk1⟩ => ?_
    · split
      · exact .done h0.moves
      · exact adjustPriority_moves h0 fun _ => update_self _ _ _
    · have hstate : st1.state act = .mutex := (congrFun hk1.state act).trans (update_self _ _ _)
      refine (lockEnqueue_queues ((hq1.setBlockedOn (some syp)).same (setMuOwner_same _ _ _)) hstate
        (update_self _ _ _)).bind fun st2 h2 => ?_
      split_ifs
      · exact .done (h2.same (setMuOwner_same _ _ _))
      · split
        · exact .done h2
        · refine mutexHoldlistAdd_same.bind fun st3 hs3 => ?_
          exact (boost_moves ((h2.same hs3).same (setMuOwner_same _ _ _))).mono fun _ hm => hm.1
      · exact .done h2

theorem syncMutexLock_queues (hact : st.state act = .ready) {noceiling imto : Bool} :
    Ends (syncMutexLock fuel tb st act syp noceiling imto drop) (Listed none) := by
  rw [syncMutexLock]
  split
  · exact .done h
  · rename_i st0 hlook
    obtain ⟨h0, hs0, -⟩ := syncLookup_queues h st0 hlook
    rw [← hs0] at hact
    refine .seq fun syncep _ => ?_
    dsimp only
    split
    · exact .done h0
    · split
      · exact .done h0
      · have h1 := h0.same (setOwner_same st0 syp (st0.owner syp ||| syncWaiting))
        refine .seq fun thp _ => ?_
        split
        · split
          · exact lockAcquire_queues h1
          · exact lockBlock_queues h1 hact
        · split
          · exact (lockWake_woken h1).bind fun st2 ⟨h2, hr2⟩ => lockBlock_queues h2 (hr2 act hact)
          · exact lockBlock_queues h1 hact

theorem unlockWake_queues : Ends (unlockWake fuel st syp) (Listed none) := by
  rw [unlockWake]
  split
  · exact .done h
  · split
    · exact .done h
    · refine holdlistLeave_same.bind fun st1 hs1 => (syncWakeup_woken (h.same hs1)).bind fun st2 ⟨h2, _⟩ => ?_
      split
      · exact .done h2
      · split_ifs
        · exact .fails
        · exact .done ((h2.same (setOwner_same _ _ _)).same (setMuOwner_same _ _ _))
        · exact .done (h2.same (setMuOwner_same _ _ _))
        · exact .done h2

theorem syncMutexUnlock_queues :
    Ends (syncMutexUnlock fuel tb st act syp) (Listed none) := by
  rw [syncMutexUnlock]
  split
  · exact .done h
  · rename_i st0 hlook
    have h0 := (syncLookup_queues h st0 hlook).1
    have hrel : Listed none (unlockRelease tb st0 act syp) := by
      rw [unlockRelease]
      split
      · exact h0.same (setOwner_same _ _ _)
      · exact h0
    refine (unlockWake_queues hrel).bind fun st1 h1 => ?_
    split_ifs
    · exact (adjust_moves h1).mono fun _ hm => hm.1
    · exact .done h1

/-! ## Ceilings and events -/

theorem mutexSetPrioceiling_queues (hfit : Fits st syp ceiling) :
    Ends (mutexSetPrioceiling fuel st syp ceiling) (Listed none) := by
  rw [mutexSetPrioceiling]
  refine .seq fun syncep hfind => ?_
  cases syncep with
  | none => exact .done h
  | some c =>
    obtain ⟨w, h⟩ := h
    obtain ⟨hc, hceil⟩ := find_mem (h.waits.chain syp) hfind
    refine .done ⟨w, ⟨?_, h.thread, h.ceiling, h.event⟩⟩
    cases hfit (w syp) (h.waits.chain syp) c hc hceil with
    | inl heq =>
      rw [St.setPriority, heq, update_eq_self]
      exact h.waits
    | inr hside =>
      refine h.waits.setPrio hc rfl rfl rfl (fun x hx => update_of_ne hx _ _) (fun x hx hne => ?_) rfl
      rw [show (st.setPriority c ceiling).pril.priority c = ceiling from update_self _ _ _]
      exact hside x hx hne

omit h in
theorem Queues.addOther (h : Queues none st w) (he : ∀ syp, e ∉ w syp) (hthread : e.isThread = false)
    (hc : ∀ q, e = .ceiling q → st.created q = true) (hp : ∀ x, e = .event x → st.process x ≠ none) :
    Ends ((st.initSyncevent e prio).prilAdd fuel syp e) (Listed none) := by
  refine .map fun m hm => ?_
  have hw : Waits (st.initSyncevent e prio).pril w :=
    h.waits.entry he rfl (fun _ _ => rfl) (fun x hx => update_of_ne hx _ _)
      (fun x hx => update_of_ne hx _ _) (by simp [St.initSyncevent]) rfl
  refine ⟨_, (hw.add_some he hm).1, fun t q => ?_, fun q q' hq => ?_, fun x q hx => ?_⟩
  · rw [Waits.mem_add]
    refine Iff.trans ⟨fun hm => hm.resolve_right fun ⟨_, ht⟩ => ?_, .inl⟩ (h.thread t q)
    rw [← ht] at hthread
    cases hthread
  · cases Waits.mem_add.mp hq with
    | inl hq => exact h.ceiling q q' hq
    | inr hq => exact hc q hq.2.symm
  · cases Waits.mem_add.mp hx with
    | inl hx => exact h.event x q hx
    | inr hx => exact hp x hx.2.symm

theorem syncCreate_queues {protocol : Protocol} :
    Ends (syncCreate fuel st syp protocol) (Listed none) := by
  rw [syncCreate]
  split
  · exact .done h
  · rename_i hc
    cases protocol with
    | inherit | none => exact .done (h.imp fun w hq => hq.create rfl rfl rfl rfl fun _ => update_same syp)
    | protect prio =>
      dsimp only
      split
      · exact .done h
      · obtain ⟨w, h⟩ := h
        -- the links of the new entry are written before it is added
        have hlinks : Queues none (((({ st.setOwner syp 0 with
            created := update st.created syp true
            prioceiling := update st.prioceiling syp true } : St T Q E).setMuOwner (.ceiling syp) 0).setHeld
              (.next (.ceiling syp)) none).setMuPrev (.ceiling syp) none) w :=
          h.create rfl rfl rfl rfl fun _ => update_same syp
        refine hlinks.addOther (fun q hm => hc (h.ceiling syp q hm)) rfl (fun q he => ?_) (nofun)
        obtain rfl := Entry.ceiling.inj he
        exact update_self _ _ _

theorem setEvent_queues {prp : Nat} {event : Bool} {alloc : Option (E × UInt8)} :
    Ends (setEvent fuel st prp syp event alloc) (Listed none) := by
  rw [setEvent]
  split
  · exact .done h
  · rename_i st0 hlook
    obtain ⟨w, hq0⟩ := (syncLookup_queues h st0 hlook).1
    refine .seq fun syncep hfind => ?_
    split
    · rename_i x
      split_ifs
      · exact .done ⟨w, hq0⟩
      · -- the event is released
        refine .map (.map fun m hm => ?_)
        have hx := (find_mem (hq0.waits.chain syp) hfind).1
        refine ⟨_, (hq0.waits.rem_some hx hm).1, fun t q => ?_, fun q q' hq => ?_, fun y q hy => ?_⟩
        · rw [hq0.waits.mem_rem]
          exact Iff.trans ⟨fun hm => hm.1, fun hm => ⟨hm, nofun⟩⟩ (hq0.thread t q)
        · exact hq0.ceiling q q' (hq0.waits.mem_rem.mp hq).1
        · obtain ⟨hyq, hne⟩ := hq0.waits.mem_rem.mp hy
          have hyx : y ≠ x := by
            rintro rfl
            exact hne (hq0.waits.apart q syp _ hyq hx) rfl
          dsimp only
          rw [update_of_ne hyx]
          exact hq0.event y q hyq
    · split
      · rename_i x prio
        split_ifs with huse
        · exact .done ⟨w, hq0⟩
        · have hnone : st0.process x = none := not_isSome_iff_eq_none.mp huse
          have hq : Queues none { st0 with process := update st0.process x (some prp) } w := by
            refine ⟨hq0.waits, hq0.thread, hq0.ceiling, fun y q hy => ?_⟩
            dsimp only
            rw [update_apply]
            split
            · exact nofun
            · exact hq0.event y q hy
          refine hq.addOther (fun q hm => hq0.event x q hm hnone) rfl (nofun) fun y he => ?_
          obtain rfl := Entry.event.inj he
          simp
      · exact .done ⟨w, hq0⟩

end

/-! ## Runs -/

variable (fuel tb) in
/-- When mutex_set_prioceiling is called the new ceiling fits, and force_ready does not come to lower
the priority of the thread it makes ready. -/
def Ok (st : St T Q E) : Op T Q E → Prop
  | .setPrioceiling act syp ceiling imto drop => ∀ st₀, syncLookup st syp = some st₀ →
      (st₀.owner syp &&& ~~~syncWaiting = tb.owner act → Fits st₀ syp ceiling) ∧
      (st₀.owner syp &&& ~~~syncWaiting ≠ tb.owner act →
        ∀ st₁, syncMutexLock fuel tb st₀ act syp true imto drop = some st₁ →
          st₁.owner syp &&& ~~~syncWaiting = tb.owner act → Fits st₁ syp ceiling)
  | .specretCeiling _ syp ceiling => Fits st syp ceiling
  | .forceReady thp => thp ∉ forcedPath fuel tb st thp
  | _ => True

variable (fuel tb) in
/-- Every step of the run meets the condition. -/
def OkAlong : List (Op T Q E) → St T Q E → Prop
  | [], _ => True
  | op :: ops, st => Ok fuel tb st op ∧ ∀ st', step fuel tb st op = some st' → OkAlong ops st'

section
variable (h : Listed none st)
include h

theorem setPrioceiling_queues (hact : st.state act = .ready) {imto : Bool}
    (hok : Ok fuel tb st (.setPrioceiling act syp ceiling imto drop)) :
    Ends (setPrioceiling fuel tb st act syp ceiling imto drop) (Listed none) := by
  rw [setPrioceiling]
  split
  · exact .done h
  · rename_i st0 hlook
    obtain ⟨h0, hs0, -⟩ := syncLookup_queues h st0 hlook
    obtain ⟨hown, hlock⟩ := hok st0 hlook
    split
    · exact .done h0
    · split
      · rename_i ho
        exact mutexSetPrioceiling_queues h0 (hown ho)
      · rename_i hno
        refine .seq fun st1 h1 => ?_
        have hl1 := syncMutexLock_queues h0 (by rw [hs0, hact]) st1 h1
        split
        · rename_i ho
          exact (mutexSetPrioceiling_queues hl1 (hlock hno st1 h1 ho)).bind fun st2 h2 => syncMutexUnlock_queues h2
        · exact .done hl1

theorem specretCeiling_queues (hfit : Fits st syp ceiling) :
    Ends (specretCeiling fuel tb st act syp ceiling) (Listed none) := by
  rw [specretCeiling]
  split
  · exact .done h
  · rename_i st0 hlook
    obtain ⟨h0, -, hpril⟩ := syncLookup_queues h st0 hlook
    have hfit0 : Fits st0 syp ceiling := by
      rw [Fits, hpril]
      exact hfit
    exact (mutexSetPrioceiling_queues h0 hfit0).bind fun st1 h1 => syncMutexUnlock_queues h1

theorem step_queues {op : Op T Q E} (hok : Ok fuel tb st op) :
    Ends (step fuel tb st op) (Listed none) := by
  cases op with
  | create syp protocol => exact syncCreate_queues h
  | lock act syp noceiling imto drop => exact Ends.guard h fun hact => syncMutexLock_queues h hact
  | unlock act syp => exact Ends.guard h fun _ => syncMutexUnlock_queues h
  | setPrioceiling act syp ceiling imto drop => exact Ends.guard h fun hact => setPrioceiling_queues h hact hok
  | specretCeiling act syp ceiling => exact Ends.guard h fun _ => specretCeiling_queues h hok
  | setEvent prp syp event alloc => exact setEvent_queues h
  | forceReady thp => exact forceReady_queues h hok
  | adjustPriority thp prio => exact (adjust_moves h).mono fun _ hm => hm.1
  | schedThread thp prio =>
    exact (adjust_moves h).bind fun st1 hm => .done (hm.1.same ⟨⟨rfl, rfl, rfl, rfl⟩, rfl⟩)
  | raise thp prio =>
    exact Ends.guard h fun _ => (adjust_moves h).bind fun st1 hm => .done (hm.1.same ⟨⟨rfl, rfl, rfl, rfl⟩, rfl⟩)
  | deliver thp prio =>
    refine Ends.guard h fun hs => .done (h.imp fun w hq => ?_)
    have hoff : ∀ syp, Entry.thread thp ∉ w syp := hq.off_list fun hm => nomatch hs.symm.trans hm
    exact (hq.setPriority hoff prio).same ⟨⟨rfl, rfl, rfl, rfl⟩, rfl⟩
  | user syp owner => exact .done (h.same (setOwner_same _ _ _))
  | flag | receive => exact .done (h.same ⟨⟨rfl, rfl, rfl, rfl⟩, rfl⟩)
  | move thp s =>
    exact Ends.guard h fun hs => .done (h.imp fun w hq =>
      hq.setState (hq.off_list fun hm => absurd hm hs.1) (fun he => absurd he hs.2) fun t _ => Iff.rfl)

theorem run_queues {ops : List (Op T Q E)} (hok : OkAlong fuel tb ops st) :
    Ends (run fuel tb ops st) (Listed none) := by
  induction ops generalizing st with
  | nil => exact .done h
  | cons op ops ih =>
    rw [run, foldlM_cons]
    exact .seq fun st1 h1 => ih (step_queues h hok.1 st1 h1) (hok.2 st1 h1)

end

/-- **The waiting lists stay priority lists.** In every run of the calls, with a new ceiling that fits
where the old one was and no force_ready that comes to lower the priority of the thread it makes
ready, the waiting list of every SYNC is in the order of the priorities that its threads, ceilings
and events have, with HEAD, TAIL and the back links of a priority list. -/
theorem waiting_lists (fuel : Nat) (tb : Table T) (st st' : St T Q E) (ops : List (Op T Q E)) (hst : Started st)
    (hok : OkAlong fuel tb ops st) (hrun : run fuel tb ops st = some st') (syp : Q) :
    ∃ l, PrilList st'.pril syp l l := by
  obtain ⟨w, hq⟩ := run_queues ⟨_, hst.queues⟩ hok st' hrun
  exact ⟨w syp, hq.waits.prilList syp⟩

end

/-- A ceiling in front of one thread that waits, and above it. -/
def ceilingAbove (sync : Fin 1) (thp : Fin 2) (ceiling : UInt8) (st : St (Fin 2) (Fin 1) Empty) : Bool :=
  st.pril.links (.head sync) = some (.ceiling sync) ∧ st.pril.links (.next (.ceiling sync)) = some (.thread thp) ∧
    st.pril.links (.next (.thread thp)) = none ∧
    st.pril.priority (.thread thp) < st.pril.priority (.ceiling sync) ∧ st.pril.priority (.thread thp) < ceiling

theorem fits_of_ceilingAbove {sync : Fin 1} {thp : Fin 2} {ceiling : UInt8} {st : St (Fin 2) (Fin 1) Empty}
    (h : ceilingAbove sync thp ceiling st = true) : Fits st sync ceiling := by
  obtain ⟨hhead, hnext, hlast, hold, hnew⟩ := of_decide_eq_true h
  intro l hl c hc hceil
  obtain rfl : l = [.ceiling sync, .thread thp] := hl.unique ⟨hhead, hnext, hlast⟩
  have hc0 : c = .ceiling sync := (mem_cons.mp hc).resolve_right fun h1 => by
    rw [mem_singleton.mp h1] at hceil
    cases hceil
  subst hc0
  refine .inr fun e he hne => .inr ?_
  rw [mem_singleton.mp ((mem_cons.mp he).resolve_left hne)]
  exact ⟨hold, hnew⟩

/-- Thread 0 owns a mutex with ceiling 20 and thread 1 waits for it; the ceiling is set to 25, thread 1 is forced
off the list and waits again, and its priority is raised to 15. -/
theorem waiting_lists_ceiling :
    let ops : List (Op (Fin 2) (Fin 1) Empty) := [.create 0 (.protect 20), .lock 0 0 false false none,
      .lock 1 0 false false none, .setPrioceiling 0 0 25 false none, .forceReady 1, .lock 1 0 false false none,
      .adjustPriority 1 15]
    ∃ st', run 20 (oneProcess 2 (by decide)) ops (idle fun _ => 10) = some st' ∧
      st'.pril.priority (.ceiling 0) = 25 ∧ st'.pril.links (.next (.ceiling 0)) = some (.thread 1) ∧
      ∃ l, PrilList st'.pril 0 l l := by
  intro ops
  have hend : (run 20 (oneProcess 2 (by decide)) ops (idle fun _ => 10)).any (fun st =>
      st.pril.priority (.ceiling 0) = 25 ∧ st.pril.links (.next (.ceiling 0)) = some (.thread 1)) = true := by
    decide +kernel
  have hceil : (run 20 (oneProcess 2 (by decide)) (ops.take 3) (idle fun _ => 10)).all (fun st =>
      (syncLookup st 0).all fun st0 => ceilingAbove 0 1 25 st0 &&
        st0.owner 0 &&& ~~~syncWaiting == (oneProcess 2 (by decide)).owner 0) = true := by
    decide +kernel
  have hpath : (run 20 (oneProcess 2 (by decide)) (ops.take 4) (idle fun _ => 10)).all (fun st =>
      1 ∉ forcedPath 20 (oneProcess 2 (by decide)) st 1) = true := by decide +kernel
  obtain ⟨st', hrun, hst⟩ := (any_eq_true _ _).mp hend
  obtain ⟨hprio, hnext⟩ := of_decide_eq_true hst
  refine ⟨st', hrun, hprio, hnext, waiting_lists 20 _ _ st' ops (idle_started _) ?_ hrun 0⟩
  refine ⟨trivial, fun st₁ h₁ => ⟨trivial, fun st₂ h₂ => ⟨trivial, fun st₃ h₃ => ⟨fun st₀ h₀ => ?_, fun st₄ h₄ =>
    ⟨?_, fun _ _ => ⟨trivial, fun _ _ => ⟨trivial, fun _ _ => trivial⟩⟩⟩⟩⟩⟩⟩
  · have hrun3 : run 20 (oneProcess 2 (by decide)) (ops.take 3) (idle fun _ => 10) = some st₃ := by
      simp only [run, ops, take_succ_cons, take_zero, foldlM_cons, foldlM_nil, h₁, h₂, h₃, bind_eq_bind, bind_some, pure]
    have hok := (all_eq_true _ _).mp ((all_eq_true _ _).mp hceil st₃ hrun3) st₀ h₀
    rw [Bool.and_eq_true] at hok
    exact ⟨fun _ => fits_of_ceilingAbove hok.1, fun hno => absurd (eq_of_beq hok.2) hno⟩
  · have hrun4 : run 20 (oneProcess 2 (by decide)) (ops.take 4) (idle fun _ => 10) = some st₄ := by
      simp only [run, ops, take_succ_cons, take_zero, foldlM_cons, foldlM_nil, h₁, h₂, h₃, h₄, bind_eq_bind, bind_some,
        pure]
    have hok := (all_eq_true _ _).mp hpath st₄ hrun4
    exact of_decide_eq_true (p := 1 ∉ forcedPath 20 (oneProcess 2 (by decide)) st₄ 1) hok

theorem PrilList.first_le {Q A : Type} {m : PrilMem Q A} {q : Q} {l : List A} {a b : A} (h : PrilList m q l l)
    (ha : m.links (.head q) = some a) (hb : m.links (.next a) = some b) : prilPriority m b ≤ prilPriority m a := by
  have hc := h.chain
  have hd := h.orders.desc
  cases l with
  | nil => cases ha.symm.trans hc
  | cons x l =>
    obtain rfl := some.inj (ha.symm.trans hc.1)
    cases l with
    | nil => cases hb.symm.trans hc.2
    | cons y l =>
      obtain rfl := some.inj (hb.symm.trans hc.2.1)
      exact (pairwise_cons.mp hd).1 b mem_cons_self

/-- The owner sets the ceiling of its mutex from 20 to 7 while a thread of priority 10 waits: the ceiling
stays in front of the thread. -/
theorem waiting_lists_lowered :
    let ops : List (Op (Fin 2) (Fin 1) Empty) := [.create 0 (.protect 20), .lock 0 0 false false none,
      .lock 1 0 false false none, .setPrioceiling 0 0 7 false none]
    ∃ st', run 20 (oneProcess 2 (by decide)) ops (idle fun _ => 10) = some st' ∧
      st'.first 0 = some (.ceiling 0) ∧ st'.next (.ceiling 0) = some (.thread 1) ∧
      st'.pril.priority (.ceiling 0) = 7 ∧ st'.pril.priority (.thread 1) = 10 ∧ ¬ ∃ l, PrilList st'.pril 0 l l := by
  intro ops
  have hview : (run 20 (oneProcess 2 (by decide)) ops (idle fun _ => 10)).any (fun st =>
      st.first 0 = some (.ceiling 0) ∧ st.next (.ceiling 0) = some (.thread 1) ∧ st.pril.priority (.ceiling 0) = 7 ∧
      st.pril.priority (.thread 1) = 10 ∧ (st.pril.type (.ceiling 0)).first = false ∧
      (st.pril.type (.thread 1)).first = false) = true := by decide +kernel
  obtain ⟨st', hrun, hst⟩ := (any_eq_true _ _).mp hview
  obtain ⟨hfirst, hnext, hc, ht, hfc, hft⟩ := of_decide_eq_true hst
  refine ⟨st', hrun, hfirst, hnext, hc, ht, fun ⟨l, hl⟩ => ?_⟩
  have hle := PrilList.first_le hl hfirst hnext
  rw [prilPriority, prilPriority, hc, ht, hfc, hft] at hle
  exact absurd hle (by decide)

end QRV.Nano.Mutex
