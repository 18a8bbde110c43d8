import QRV.Nano.IntreventQueue

/- The overload handler, and the interrupt event queue over whole runs.

   Each turn of intrevent_error's second loop leaves the queue as `Sound` says, with the entry for the
   kill event on its way. This entry then goes to the head of the queue, and the tail pointer is left as
   it is: it is the end of the queue only if an event of another process is left. If all pending events
   are those of the process, the tail pointer is `&intrevent_pending` and the next event takes the place
   of the kill event, which is then lost (`kill_event_lost`).

   Both loops look at the process of each entry, and `preempt_ev` has none. -/
open Call (Returns)

namespace QRV.Nano.Intrevent
open List hiding Chain
open Function (update update_of_ne update_self)
open LinkCell

variable {P : Type} {st : State P} {dummy : Bool} {evs free work loose kept l : List Node}

/-! ## The pending entries -/

theorem Sound.fuel_evs (h : Sound st dummy evs free work loose) : evs.length < st.fuel := by
  have hnumber := h.number
  rw [State.fuel]
  omega

/-- The pending entries. -/
def State.pendingList (st : State P) : List Node := LinkCell.walk st.links st.fuel (.head .pending)

theorem Sound.pendingList_eq (h : Sound st dummy evs free work loose) : st.pendingList = pre dummy ++ evs := by
  refine h.pending.walk_eq ?_
  have hnumber := h.number
  have hpre : (pre dummy).length ≤ 1 := by cases dummy <;> decide
  rw [State.fuel, length_append]
  omega

theorem Sound.no_dummy (h : Sound st dummy evs free work loose) (hnot : .preemptEv ∉ st.pendingList) :
    dummy = false := by
  rw [h.pendingList_eq] at hnot
  cases dummy with
  | false => rfl
  | true => exact absurd (mem_append_left _ (mem_singleton_self _)) hnot

/-! ## What the second loop does -/

theorem Sound.unlink {curr : Node} (h : Sound st false (kept ++ curr :: l) free work loose) :
    Sound { st with
      links := st.links.set (endCell (.head .pending) kept) (st.links (.next curr))
      tail := if st.tail = .next curr then endCell (.head .pending) kept else st.tail
      cancelled := st.cancelled ++ [st.tag curr] } false (kept ++ l) free work (curr :: loose) := by
  have hnodup : (kept ++ curr :: l).Nodup := (nodup_append.mp h.nodup).1
  have hcurr : curr ∉ l := fun hmem => (nodup_cons.mp (nodup_middle.mp hnodup)).1 (mem_append_right _ hmem)
  have hsub : (kept ++ l).Sublist (kept ++ curr :: l) := (sublist_cons_self _ _).append_left _
  have hcell : endCell (.head .pending) kept ∈ .head .pending :: (kept ++ curr :: l).map (Cell.next (β := Head)) := by
    rcases mem_cons.mp (endCell_mem (.head Head.pending) kept) with heq | hmem
    · rw [heq]
      exact mem_cons_self
    · rw [map_append]
      exact .tail _ (mem_append_left _ hmem)
  refine ⟨?_, ?_, ?_, h.count, ?_, ?_, fun x hx => ?_, ?_, ?_, h.kills, h.bound⟩
  · change Chain _ (.head Head.pending) (kept ++ l)
    have hqueue : Chain st.links (.head .pending) (kept ++ curr :: l) := h.pending
    exact chain_remove (fun d hd _ => set_off hd _ _) hqueue (set_self _ _ _)
  · have hend : st.tail = endCell (.head .pending) (kept ++ curr :: l) := h.tail
    have htail : st.tail = endCell (.next curr) l := hend.trans (endCell_append _ _ _)
    cases l with
    | nil =>
      have hcase : st.tail = .next curr := htail
      change _ = endCell (.head Head.pending) (kept ++ [])
      rw [if_pos hcase, append_nil]
    | cons y l =>
      have hne : st.tail ≠ .next curr := by
        intro heq
        exact hcurr (mem_of_endCell (c := .next curr) (cons_ne_nil y l) (htail.symm.trans heq))
      change _ = endCell (.head Head.pending) (kept ++ y :: l)
      rw [if_neg hne, htail, endCell_append]
      rfl
  · exact (chain_set_off (cells_off (by decide) (fun x hx => (h.evs_apart hx).1) hcell)).mpr h.freeList
  · refine h.draining.congr fun x hx => set_off ?_ _ _
    intro heq
    rw [← heq] at hcell
    exact next_off (fun hmem => (h.evs_apart hmem).2.1 hx) hcell
  · refine h.moved fun a => ?_
    simp only [count_append, count_cons]
    omega
  · refine h.thread x ?_
    exact ((hsub.append_right _).append_left (st.phase.todo work)).subset hx
  · refine List.Perm.trans (perm_iff_count.mpr fun a => ?_) h.once
    simp only [map_append, map_cons, count_append, count_cons, count_nil]
    omega
  · refine h.order.sublist (List.Sublist.filter _ (List.Sublist.append_left ?_ _))
    exact (hsub.append_left _).map _

/-- The entry that was kept comes to the head of the queue; there is another event. -/
theorem Sound.pushKiller {killer : Node} (h : Sound st false evs free work [killer]) (hevs : evs ≠ []) (high : P) :
    Sound { st with
      links := (st.links.set (.next killer) (st.links (.head .pending))).set (.head .pending) (some killer)
      thread := update st.thread killer (some high)
      tag := update st.tag killer st.queued
      queued := st.queued + 1
      kills := st.queued :: st.kills } false (killer :: evs) free work [] := by
  have hmem : killer ∈ [killer] := mem_singleton_self _
  have hevs' : killer ∉ evs := fun hx => (h.evs_apart hx).2.2.1 hmem
  have hfree : killer ∉ free := fun hx => (h.free_apart hx).2.1 hmem
  have hwork : killer ∉ work := fun hx => (h.work_apart hx).1 hmem
  have htodo : killer ∉ st.phase.todo work := fun hx => hwork (todo_subset hx)
  have hmap : ∀ {m : List Node}, killer ∉ m → m.map (update st.tag killer st.queued) = m.map st.tag :=
    fun hm => map_congr_left fun x hx => update_of_ne (fun heq : x = killer => hm (heq ▸ hx)) _ _
  have htags : (st.phase.todo work ++ killer :: evs).map (update st.tag killer st.queued) =
      (st.phase.todo work).map st.tag ++ st.queued :: evs.map st.tag := by
    rw [map_append, map_cons, hmap htodo, hmap hevs', update_self]
  refine ⟨chain_push h.pending hevs', ?_, ?_, h.count, ?_, ?_, fun x hx => ?_, ?_, ?_, fun k hk => ?_, h.bound⟩
  · exact h.tail.trans (endCell_of_ne_nil hevs _ _)
  · refine (chain_set_off ?_).mpr ((chain_set_off (next_off hfree)).mpr h.freeList)
    exact head_off (by decide)
  · refine h.draining.congr fun x hx => ?_
    have hne : (.next x : Cell Head Node) ≠ .next killer := fun heq => hwork (Cell.next.inj heq ▸ hx)
    dsimp only
    rw [set_head_next, set_off hne]
  · refine h.moved fun a => ?_
    simp only [count_append, count_cons, count_nil]
    omega
  · dsimp only
    by_cases heq : x = killer
    · exact ⟨high, by rw [heq, update_self]⟩
    · rw [update_of_ne heq]
      refine h.thread x ?_
      simp only [mem_append, mem_cons] at hx ⊢
      tauto
  · rw [htags, range_succ]
    refine List.Perm.trans (perm_iff_count.mpr fun a => ?_) (h.once.append_right [st.queued])
    simp only [map_append, count_append, count_cons, count_nil]
    omega
  · -- the kill event is not one of the events that keep their order
    rw [htags]
    have hsame : ((st.executed ++ ((st.phase.todo work).map st.tag ++ st.queued :: evs.map st.tag)).filter
        (· ∉ st.queued :: st.kills)) =
        (st.executed ++ (st.phase.todo work ++ evs).map st.tag).filter (· ∉ st.kills) := by
      have hkeep : ∀ {m : List Nat}, (∀ n ∈ m, n < st.queued) →
          m.filter (· ∉ st.queued :: st.kills) = m.filter (· ∉ st.kills) := by
        intro m hm
        refine filter_congr fun n hn => ?_
        have hlt := hm n hn
        have hne : n ≠ st.queued := by omega
        simp [hne]
      have hlt := fun n => h.lt_queued (n := n)
      simp only [map_append, mem_append] at hlt
      rw [map_append, filter_append, filter_append, filter_cons_of_neg (by simp),
        filter_append, filter_append, hkeep fun n hn => hlt n (.inl hn),
        hkeep fun n hn => hlt n (.inr (.inl hn)), hkeep fun n hn => hlt n (.inr (.inr hn))]
    rw [hsame]
    exact h.order
  · rcases mem_cons.mp hk with rfl | hk
    · exact Nat.lt_succ_self _
    · exact Nat.lt_succ_of_lt (h.kills k hk)

theorem init_sound (num : Nat) : Queue (init num : State P) := by
  have hblank : Sound (blank : State P) false [] [] [] [] :=
    ⟨rfl, rfl, rfl, rfl, rfl, List.Perm.nil, by nofun, List.Perm.nil, List.Pairwise.nil, by nofun, Nat.two_pow_pos 32⟩
  rw [init]
  generalize hn : (if 2 ^ 31 ≤ _ then 0 else _) = n
  have hlt : (blank : State P).numPevAlloc + n < 2 ^ 32 := by
    rw [show (blank : State P).numPevAlloc = 0 from rfl]
    split_ifs at hn <;> omega
  exact (account_sound (alloc_sound hblank hlt rfl rfl) rfl).queue

variable [DecidableEq P]

/-! ## The first loop -/

theorem countLoop_some {L : Links Head Node} {thread : Node → Option P} {c : Cell Head Node} {fuel : Nat}
    (counts : P → Nat) (h : Chain L c l) (hthread : ∀ x ∈ l, ∃ prp, thread x = some prp) (hfuel : l.length < fuel) :
    ∃ counts', countLoop L thread fuel c counts = some counts' := by
  induction l generalizing c fuel counts with
  | nil =>
    obtain _ | fuel := fuel
    · cases hfuel
    rw [countLoop, h]
    exact ⟨counts, rfl⟩
  | cons x l ih =>
    obtain _ | fuel := fuel
    · cases hfuel
    obtain ⟨prp, hprp⟩ := hthread x mem_cons_self
    rw [countLoop, h.1]
    simp only [hprp]
    exact ih _ h.2 (fun y hy => hthread y (.tail _ hy)) (Nat.lt_of_succ_lt_succ hfuel)

theorem countPending_sound (h : Sound st false evs free work []) :
    Returns (countPending st) (Sound · false evs free work []) := by
  obtain ⟨counts, hcounts⟩ := countLoop_some st.pendingInterrupts h.pending
    (fun x hx => h.thread x (mem_append_right _ (mem_append_left _ hx))) h.fuel_evs
  rw [countPending, hcounts]
  exact .done ⟨h.pending, h.tail, h.freeList, h.count, h.draining, h.total, h.thread, h.once, h.order, h.kills, h.bound⟩

theorem survey_sound (h : Sound st dummy evs free work []) (table : List P) (c : Add P) :
    Sound (survey table c st) dummy evs free work [] := by
  have h' : Sound { st with pendingInterrupts := fun prp => if prp ∈ table then 0 else st.pendingInterrupts prp }
      dummy evs free work [] :=
    ⟨h.pending, h.tail, h.freeList, h.count, h.draining, h.total, h.thread, h.once, h.order, h.kills, h.bound⟩
  rw [survey]
  split
  split
  · exact h'
  · split
    · exact h'
    · exact h'.push rfl

/-! ## The second loop -/

theorem cancelLoop_sound (high : P) {fuel : Nat} {killer : Option Node}
    (h : Sound st false (kept ++ l) free work killer.toList) (hfuel : l.length < fuel) :
    ∃ st' killer' free', cancelLoop high fuel st (endCell (.head .pending) kept) killer = some (st', killer') ∧
      Sound st' false (kept ++ l.filter (st.thread · ≠ some high)) free' work killer'.toList ∧
      (killer' = none → killer = none ∧ ∀ x ∈ l, st.thread x ≠ some high) := by
  induction l generalizing st kept fuel killer free with
  | nil =>
    obtain _ | fuel := fuel
    · cases hfuel
    have hqueue : Chain st.links (.head .pending) (kept ++ []) := h.pending
    have hend : st.links (endCell (.head .pending) kept) = none := ((chain_append _ _ _ _).mp hqueue).2
    rw [cancelLoop, hend]
    exact ⟨st, killer, free, rfl, h, fun hnone => ⟨hnone, by simp⟩⟩
  | cons curr l ih =>
    obtain _ | fuel := fuel
    · cases hfuel
    have hlen : l.length < fuel := Nat.lt_of_succ_lt_succ hfuel
    have hqueue : Chain st.links (.head .pending) (kept ++ curr :: l) := h.pending
    have hcurr : st.links (endCell (.head .pending) kept) = some curr := ((chain_append _ _ _ _).mp hqueue).2.1
    obtain ⟨prp, hprp⟩ := h.thread curr (by simp)
    rw [cancelLoop, hcurr]
    simp only [hprp]
    by_cases hhigh : prp = high
    · rw [if_pos hhigh, filter_cons_of_neg (by simp [hprp, hhigh])]
      cases killer with
      | none =>
        rw [if_pos rfl]
        obtain ⟨st', killer', free', heq, h', hnone⟩ := ih
          (show Sound _ false (kept ++ l) free work (some curr).toList from h.unlink) hlen
        refine ⟨st', killer', free', heq, h', fun hk => ?_⟩
        cases (hnone hk).1
      | some k =>
        rw [if_neg nofun]
        obtain ⟨st', killer', free', heq, h', hnone⟩ := ih
          (show Sound _ false (kept ++ l) (curr :: free) work (some k).toList from h.unlink.giveBack) hlen
        refine ⟨st', killer', free', heq, h', fun hk => ?_⟩
        cases (hnone hk).1
    · have hne : st.thread curr ≠ some high := by simpa [hprp] using hhigh
      rw [if_neg hhigh, filter_cons_of_pos (by simpa using hne)]
      have hnext : Sound st false ((kept ++ [curr]) ++ l) free work killer.toList := by
        rw [append_assoc]
        exact h
      obtain ⟨st', killer', free', heq, h', hnone⟩ := ih hnext hlen
      rw [endCell_concat] at heq
      rw [append_assoc] at h'
      exact ⟨st', killer', free', heq, h', fun hk => ⟨(hnone hk).1, forall_mem_cons.mpr ⟨hne, (hnone hk).2⟩⟩⟩

/-- intrevent_error cancels the events of `high`, if it has one and another process has one too. -/
theorem cancelAll_sound (h : Sound st false evs free work []) {high : P}
    (hhigh : ∃ x ∈ evs, st.thread x = some high) (hother : ∃ x ∈ evs, st.thread x ≠ some high) :
    Returns (cancelAll high true st) Queue := by
  obtain ⟨st', killer, free', heq, h', hnone⟩ := cancelLoop_sound high
    (show Sound st false ([] ++ evs) free work (none : Option Node).toList from h) h.fuel_evs
  cases killer with
  | none =>
    obtain ⟨x, hx, hx'⟩ := hhigh
    exact absurd hx' ((hnone rfl).2 x hx)
  | some killer =>
    have hne : [] ++ evs.filter (st.thread · ≠ some high) ≠ [] := by
      obtain ⟨x, hx, hx'⟩ := hother
      refine ne_nil_of_mem (a := x) ?_
      simp [hx, hx']
    refine ⟨_, ?_, (h'.pushKiller hne high).queue⟩
    rw [cancelAll]
    rw [endCell_nil] at heq
    rw [heq]
    rfl

/-! ## Runs -/

/-- What the overload handler needs: `preempt_ev` is not pending, and when the events of a process are cancelled,
this process and another one have a pending event, and the process has a thread. A drain that gets more entries
finds room for them in the counters. -/
def Fits (st : State P) : Op P → Prop
  | .advance i env =>
    match st.calls[i]? with
    | some (.count _) => .preemptEv ∉ st.pendingList
    | some (.cancel _ high) => .preemptEv ∉ st.pendingList ∧ env.validThp = true ∧
        (∃ x ∈ st.pendingList, st.thread x = some high) ∧ ∃ x ∈ st.pendingList, st.thread x ≠ some high
    | _ => True
  | .drainStep got => st.room got
  | _ => True

theorem advance_sound (h : Sound st dummy evs free work []) {env : Env P} {i : Nat} (hfits : Fits st (.advance i env)) :
    Returns (advance env i st) Queue := by
  rw [advance]
  split
  · exact .done h.queue
  · next call hcall =>
    have hrel := h.release hcall
    simp only [Fits, hcall] at hfits
    cases call with
    | start c => exact .done (take_sound hrel env.nopreempt c)
    | masking c irp =>
      obtain ⟨prp, hprp⟩ := h.held_thread hcall
      exact .done (Sound.enqueue hrel hprp numPri).queue
    | count c =>
      obtain rfl := h.no_dummy hfits
      exact ((countPending_sound hrel).mono fun _ h' => (h'.push rfl).queue).map
    | survey c => exact .done (survey_sound hrel env.table c).queue
    | cancel c high =>
      obtain ⟨hnot, hvalid, hhigh, hother⟩ := hfits
      obtain rfl := h.no_dummy hnot
      rw [h.pendingList_eq] at hhigh hother
      simp only [hvalid]
      exact ((cancelAll_sound hrel hhigh hother).mono fun _ ⟨_, _, _, _, h'⟩ => (h'.push rfl).queue).map

theorem step_sound {op : Op P} (h : Queue st) (hop : Fits st op) : Returns (step st op) Queue := by
  obtain ⟨dummy, evs, free, work, h⟩ := h
  cases op with
  | add c => exact .done (h.push rfl).queue
  | advance i env => exact advance_sound h hop
  | eventAdd c nopreempt => exact eventAdd_sound h nopreempt c
  | preemption prio nopreempt => exact .done (preemption_sound h nopreempt prio)
  | drain =>
    rw [step]
    split
    · next hphase =>
      cases st
      cases hphase
      exact .done ⟨_, _, _, _, h.pending, h.tail, h.freeList, h.count, h.draining, h.total, h.thread, h.once, h.order,
        h.kills, h.bound⟩
    · exact .done h.queue
  | drainStep got => exact drainStep_sound h hop

/-- A drain that is left alone comes to its end, with the queue empty. -/
theorem drain_ends {got : Nat} (h : Sound st dummy evs free work [])
    (hclear : st.phase.active = false → dummy = false ∧ evs = []) (hroomy : st.roomy got) :
    ∃ n st', run (replicate n (.drainStep got)) st = some st' ∧ st'.phase = .idle ∧ st'.queued = st.queued ∧
      st'.cancelled = st.cancelled ∧ ∃ free', Sound st' false [] free' [] [] := by
  induction hleft : st.phase.left evs work using Nat.strong_induction_on generalizing st dummy evs free work with
  | _ left ih =>
    by_cases hphase : st.phase = .idle
    · obtain ⟨rfl, rfl⟩ := hclear (by rw [hphase]; rfl)
      have hwork := h.draining
      rw [hphase] at hwork
      obtain rfl : work = [] := hwork
      exact ⟨0, st, rfl, hphase, rfl, rfl, free, h⟩
    · obtain ⟨st1, hst1, dummy1, evs1, free1, work1, h1, hgoes⟩ := drainStep_drains h hphase hroomy.room
      obtain ⟨n, st', hrun, hidle, hqueued, hcancelled, hend⟩ :=
        ih _ (hleft ▸ hgoes.left) h1 (hgoes.clear hclear) (hgoes.roomy hroomy) rfl
      refine ⟨n + 1, st', ?_, hidle, hqueued.trans hgoes.queued, hcancelled.trans hgoes.cancelled, hend⟩
      rw [replicate_succ, run, Run.exec, foldlM_cons]
      simp only [step, hst1]
      exact hrun

/-- The queue in every state that a run from intrevent_init reaches: the entries are where they belong, each event
is executed once and in order or cancelled, and the entries add up. A drain that is called there and not interrupted
comes to its end with nothing pending: it has executed all that was queued and not cancelled before. -/
theorem queue_kept (num : Nat) (ops : List (Op P)) (hops : Run.Along step Fits ops (init num)) :
    ∃ st, run ops (init num) = some st ∧ (∃ dummy evs free work, Sound st dummy evs free work [] ∧
      .preemptEv ∉ evs ++ free ++ work ∧
      free.length + evs.length + (work.length + (held st.calls).length) = st.numPevAlloc + st.phase.uncounted) ∧
      (st.phase = .idle → ∀ got, st.numPevAlloc + got < 2 ^ 32 →
        ∃ n st', run (.drain :: List.replicate n (.drainStep got)) st = some st' ∧ st'.phase = .idle ∧
          st'.links (.head .pending) = none ∧ st'.cancelled = st.cancelled ∧
          (st'.executed ++ st.cancelled).Perm (List.range st.queued)) := by
  obtain ⟨st, hrun, dummy, evs, free, work, h⟩ := Run.total (I := Queue) step_sound (init_sound num) hops
  refine ⟨st, hrun, ⟨dummy, evs, free, work, h, fun hmem => h.ne_preemptEv ?_ rfl, ?_⟩, fun hidle got hgot => ?_⟩
  · simp only [mem_append] at hmem ⊢
    tauto
  · have hnumber := h.number
    simp only [length_nil] at hnumber
    omega
  · have hwork := h.draining
    rw [hidle] at hwork
    obtain rfl : work = [] := hwork
    have htop : Sound { st with phase := .top false } dummy evs free [] [] :=
      h.rephase rfl (by rw [hidle]; rfl) (by rw [hidle]; rfl) .rfl
    obtain ⟨n, st', hdrain, hidle', hqueued, hcancelled, free', h'⟩ := drain_ends htop (fun hno => nomatch hno) hgot
    refine ⟨n, st', ?_, hidle', h'.pending, hcancelled, ?_⟩
    · rw [run, Run.exec, foldlM_cons]
      simp only [step, hidle]
      exact hdrain
    · have honce := h'.once
      rw [hidle', hqueued, hcancelled] at honce
      exact honce

instance Fits.decidable (st : State P) : ∀ op, Decidable (Fits st op)
  | .advance i env =>
    match hcall : st.calls[i]? with
    | some (.count _) => decidable_of_iff (.preemptEv ∉ st.pendingList) (by simp [Fits, hcall])
    | some (.cancel _ high) =>
      decidable_of_iff (.preemptEv ∉ st.pendingList ∧ env.validThp = true ∧
        (∃ x ∈ st.pendingList, st.thread x = some high) ∧ ∃ x ∈ st.pendingList, st.thread x ≠ some high)
        (by simp only [Fits, hcall])
    | some (.start _) | some (.masking _ _) | some (.survey _) | none => isTrue (by simp [Fits, hcall])
  | .drainStep got =>
    match hphase : st.phase with
    | .grow true =>
      decidable_of_iff (st.numPevAlloc + min got (st.numPevAlloc / 4) < 2 ^ 32) (by simp [Fits, State.room, hphase])
    | .grow false | .idle | .top _ | .exec _ _ | .put _ _ _ | .account _ => isTrue (by simp [Fits, State.room, hphase])
  | .add _ | .eventAdd _ _ | .preemption _ _ | .drain => isTrue trivial

/-- The surroundings of the runs below: the processes 5 and 6 are in the table. -/
def twoProcesses : Env Nat := ⟨false, [5, 6], true⟩

/-- `n` events of the process, each queued at once. -/
def burst (n prp : Nat) : List (Op Nat) := (List.replicate n [.add ⟨prp, 10⟩, .advance 0 twoProcesses]).flatten

/-- One event more than there are entries: a call of intrevent_add that goes through intrevent_error. -/
def overload (prp : Nat) : List (Op Nat) := .add ⟨prp, 10⟩ :: List.replicate 5 (.advance 0 twoProcesses)

/-- Eleven events of one process and one of another fill the queue; the next event of the second process overflows
it, and the queue is drained. -/
def overloadOps : List (Op Nat) := burst 11 5 ++ burst 1 6 ++ overload 6 ++ .drain :: List.replicate 9 (.drainStep 4)

theorem queue_kept_overload : ∃ st, run overloadOps (init 12) = some st ∧
    ∃ dummy evs free work, Sound st dummy evs free work [] ∧ .preemptEv ∉ evs ++ free ++ work ∧
      free.length + evs.length + (work.length + (held st.calls).length) = st.numPevAlloc + st.phase.uncounted := by
  obtain ⟨st, hrun, hqueue, -⟩ := queue_kept 12 overloadOps (by decide +kernel)
  exact ⟨st, hrun, hqueue⟩

/-- Ten events of one process fill the queue, and its next event overflows it. -/
def lostOps : List (Op Nat) := burst 10 5 ++ overload 5

/-- The same with `preempt_ev` in the queue. -/
def preemptedOps : List (Op Nat) := .preemption 20 false :: lostOps

/-- All events are those of one process: the kill event is neither pending nor executed nor cancelled, for the event
that came with it has taken its place. With `preempt_ev` in the queue the kernel follows a null pointer. -/
theorem kill_event_lost : (∃ st, run lostOps (init 10) = some st ∧ 10 < st.queued ∧ st.kills = [10] ∧
      st.executed = [] ∧ 10 ∉ st.cancelled ∧ st.pendingList.map st.tag = [11] ∧
      ¬ ∃ dummy evs free work, Sound st dummy evs free work []) ∧
    run preemptedOps (init 10) = none := by
  have hrun : (run lostOps (init 10)).any (fun st => decide (st.phase = .idle ∧ 10 < st.queued ∧ st.kills = [10] ∧
      st.executed = [] ∧ 10 ∉ st.cancelled ∧ st.pendingList.map st.tag = [11])) = true := by
    decide +kernel
  obtain ⟨st, hst, hall⟩ := (Option.any_eq_true _ _).mp hrun
  obtain ⟨hphase, hqueued, hkills, hexec, hcancel, htags⟩ := of_decide_eq_true hall
  have hcrash : (run preemptedOps (init 10)).isNone = true := by decide +kernel
  refine ⟨⟨st, hst, hqueued, hkills, hexec, hcancel, htags, ?_⟩, Option.isNone_iff_eq_none.mp hcrash⟩
  rintro ⟨dummy, evs, free, work, h⟩
  have hmem : 10 ∈ st.executed ++ ((st.phase.todo work ++ evs).map st.tag ++ st.cancelled) :=
    h.once.mem_iff.mpr (mem_range.mpr hqueued)
  have hwork := h.draining
  rw [hphase] at hwork hmem
  obtain rfl : work = [] := hwork
  have hevs : ∀ n ∈ evs.map st.tag, n = 11 := by
    intro n hn
    rw [h.pendingList_eq, map_append] at htags
    exact mem_singleton.mp (htags ▸ mem_append_right _ hn)
  rw [hexec, nil_append] at hmem
  rcases mem_append.mp hmem with hno | hno
  · cases hevs 10 hno
  · exact hcancel hno

end QRV.Nano.Intrevent
