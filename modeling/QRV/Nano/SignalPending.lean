import Mathlib.Data.List.TakeWhile
import QRV.Nano.SignalStop

/- No pending signal is left behind: a signal on the process is blocked in every thread, and
   a thread with an unblocked signal on its own list has QRV_FLG_THR_SIG_ACTIVE.

   The calls that send signals and signal_block keep this in any case. The others keep it
   under a condition that the code does not check (`Op.Settles`): when specialret gives a thread
   that was suspended its mask back, no pending signal may be let through by it; when a
   handler is entered for a pulse that counts several signals, the signal has to be blocked;
   a fault that unblocks its signal may not find it on the process; a new thread has to block
   what is pending; the sum of the counts that signal_clear_thread adds up has to fit; and
   the process may not be dumped. -/
namespace QRV.Nano.Signal
open Call List Option

variable {prp prp' : Proc} {tid t : Nat} {thp thp' : Thread} {tag : Nat × Bool}
variable {mask : SigSet} {queue : List Pulse} {pup : Pulse} {kill : Kill} {op : Op}

/-- Signals are pending where they are looked for. -/
structure Settled (prp : Proc) : Prop where
  active : Active prp
  blocked : Blocked prp
  bound : ∀ tag, On prp tag → 1 ≤ tag.1 ∧ tag.1 ≤ sigMax

theorem Blocked.congr (h : Blocked prp) (hpending : prp'.sigPending = prp.sigPending)
    (hthreads : prp'.threads = prp.threads) : Blocked prp' :=
  fun tag htag t thp ht => h tag (hpending ▸ htag) t thp (thread_congr hthreads ▸ ht)

theorem Blocked.setThread (h : Blocked prp) (hthp : prp.thread tid = some thp)
    (hblocked : ∀ tag ∈ tags prp.sigPending, sigTst thp'.sigBlocked tag.1 = true) :
    Blocked (prp.setThread tid thp') := by
  intro tag htag t thp'' ht
  rw [thread_setThread hthp] at ht
  split at ht
  · cases ht
    exact hblocked tag htag
  · exact h tag htag t thp'' ht

theorem Blocked.masked (h : Blocked prp) (hmasked : Masked tid mask prp prp') : Blocked prp' := by
  intro tag htag t thp' ht
  obtain ⟨thp, hthp, hcase⟩ := hmasked.thread ht
  split at hcase
  · rw [hcase.sigBlocked]
    exact hmasked.free tag htag
  · rw [hcase.sigBlocked]
    exact h tag (hmasked.pending htag) t thp hthp

/-- What the calls keep of `Settled`; the bound is kept by all of them (`step_bound`). -/
def Placed (prp : Proc) : Prop := Active prp ∧ Blocked prp

theorem Settled.placed (h : Settled prp) : Placed prp := ⟨h.active, h.blocked⟩

theorem Placed.congr (h : Placed prp) (hpending : prp'.sigPending = prp.sigPending)
    (hthreads : prp'.threads = prp.threads) : Placed prp' := ⟨h.1.congr hthreads, h.2.congr hpending hthreads⟩

section
variable (h : Placed prp) (hthp : prp.thread tid = some thp)
include h hthp

/-- A thread changes: its flag says what is due, and it blocks what is on the process. -/
theorem Placed.setThread
    (hdue : ∀ tag ∈ tags thp'.sigPending, sigTst thp'.sigBlocked tag.1 = false → thp'.sigActive = true)
    (hblocked : ∀ tag ∈ tags prp.sigPending, sigTst thp'.sigBlocked tag.1 = true) : Placed (prp.setThread tid thp') := by
  refine ⟨Active.setThread h.1.off hthp fun hd => ?_, h.2.setThread hthp hblocked⟩
  obtain ⟨tag, htag, hfree⟩ := Thread.due_iff.mp hd
  exact hdue tag htag hfree

theorem Placed.setKept (hmask : thp'.sigBlocked = thp.sigBlocked)
    (hdue : ∀ tag ∈ tags thp'.sigPending, sigTst thp.sigBlocked tag.1 = false → thp'.sigActive = true) :
    Placed (prp.setThread tid thp') := by
  refine h.setThread hthp (hmask ▸ hdue) fun tag htag => ?_
  rw [hmask]
  exact h.2 tag htag tid thp hthp

theorem Placed.setSame (hmask : thp'.sigBlocked = thp.sigBlocked)
    (hpending : tags thp'.sigPending ⊆ tags thp.sigPending) (hactive : thp'.sigActive = thp.sigActive) :
    Placed (prp.setThread tid thp') := by
  refine h.setKept hthp hmask fun tag htag hfree => ?_
  rw [hactive]
  exact h.1 tid thp hthp (Thread.due_iff.mpr ⟨tag, hpending htag, hfree⟩)

end

/-- `Settled`, whatever the flag of one thread is. -/
structure SettledOff (tid : Nat) (prp : Proc) : Prop where
  active : ActiveOff tid prp
  blocked : Blocked prp
  bound : ∀ tag, On prp tag → 1 ≤ tag.1 ∧ tag.1 ≤ sigMax

theorem Settled.off (h : Settled prp) : SettledOff tid prp := ⟨h.active.off, h.blocked, h.bound⟩

section
variable (h : SettledOff tid prp) (hthp : prp.thread tid = some thp)
include h hthp

theorem SettledOff.setThread
    (hmask : thp'.sigBlocked = thp.sigBlocked) (hpending : tags thp'.sigPending ⊆ tags thp.sigPending) :
    SettledOff tid (prp.setThread tid thp') where
  active := h.active.setThread hthp
  blocked := by
    refine h.blocked.setThread hthp fun tag htag => ?_
    rw [hmask]
    exact h.blocked tag htag tid thp hthp
  bound tag hon := h.bound tag (Fewer.setThread hthp hpending tag hon)

section
variable (hpending : tags thp'.sigPending ⊆ tags thp.sigPending) (hones : thp'.sigBlocked = sigmaskOnes)
include hpending hones

theorem SettledOff.not_due_ones :
    thp'.due = false := by
  rw [Bool.eq_false_iff]
  intro hdue
  obtain ⟨tag, htag, hfree⟩ := Thread.due_iff.mp hdue
  rw [hones] at hfree
  cases (sigTst_ones (h.bound tag (.inr ⟨tid, thp, hthp, hpending htag⟩)).2).symm.trans hfree

/-- Giving a thread the mask of ones keeps everything in its place. -/
theorem SettledOff.setOnes :
    Placed (prp.setThread tid thp') := by
  constructor
  · exact Active.setThread h.active hthp fun hdue => nomatch (h.not_due_ones hthp hpending hones).symm.trans hdue
  · refine h.blocked.setThread hthp fun tag htag => ?_
    rw [hones]
    exact sigTst_ones (h.bound tag (.inl htag)).2

end

end

/-! ## Masks -/

theorem signalBlock_settled (h : Placed prp) : Ends (signalBlock prp tid mask) Placed := by
  intro prp' hblock
  cases hthp : prp.thread tid with
  | none =>
    rw [signalBlock, hthp] at hblock
    cases hblock
    exact h
  | some thp =>
    obtain ⟨hmasked, hactive⟩ := signalBlock_masked hthp hblock
    exact ⟨hactive h.1.off, h.2.masked hmasked⟩

theorem signalSuspend_settled {how : Suspend} (h : Settled prp)
    (htimeout : how = .timeout → ∀ thp, prp.thread tid = some thp → thp.sigActive = false) :
    Ends (signalSuspend prp tid mask how) Placed := by
  intro prp' hcall
  rcases signalSuspend_cases hcall with rfl | ⟨thp, prp1, thp1, hthp, hblock, hpending, hthp1, hthread, hcase⟩
  · exact h.placed
  · have h0 : Placed (prp.setThread tid { thp with saved := thp.sigBlocked }) :=
      h.placed.setSame hthp rfl (List.Subset.refl _) rfl
    have h1 := signalBlock_settled h0 prp1 hblock
    rcases hcase with ⟨-, rfl⟩ | ⟨-, ⟨htime, rfl⟩ | ⟨-, rfl⟩ | rfl⟩
    · exact h1.setSame hthp1 rfl (List.Subset.refl _) rfl
    · -- what was pending before the call is blocked by the mask that comes back
      have hall : ∀ tag ∈ tags prp.sigPending ++ tags thp.sigPending, sigTst thp1.saved tag.1 = true := by
        rw [show thp1.saved = thp.sigBlocked from hthread.saved]
        refine forall_mem_append.mpr ⟨fun tag hp => h.blocked tag hp tid thp hthp, fun tag ho => ?_⟩
        by_contra hfree
        have hdue := h.active tid thp hthp (Thread.due_iff.mpr ⟨tag, ho, Bool.eq_false_iff.mpr hfree⟩)
        cases (htimeout htime thp hthp).symm.trans hdue
      exact h1.setThread hthp1 (fun tag htag hfree => nomatch (hall tag (hthread.pending htag)).symm.trans hfree)
        fun tag htag => hall tag (mem_append_left _ (hpending htag))
    · exact h1
    · have hset : Placed (prp1.setThread tid { thp1 with state := .other, sigSuspend := true }) :=
        h1.setSame hthp1 rfl (List.Subset.refl _) rfl
      exact hset.congr rfl rfl

/-! ## Waiting and handlers -/

theorem signalWaitinfo_settled {sigWait : SigSet} {timeout : Bool} (h : Placed prp) :
    Placed (signalWaitinfo prp tid sigWait timeout) := by
  rw [signalWaitinfo]
  split
  · exact h
  · next thp hthp =>
    dsimp only
    split
    · exact h.setSame hthp rfl (tags_pulseRemove _ _) rfl
    · split
      · exact ⟨h.1.congr rfl, fun tag htag => h.2 tag (tags_pulseRemove _ _ htag)⟩
      · split
        · exact h
        · have hset : Placed (prp.setThread tid { thp with state := .sigwaitinfo (sigmaskNoKillstop sigWait) }) :=
            h.setSame hthp rfl (List.Subset.refl _) rfl
          exact hset.congr rfl rfl

theorem signalAction_settled {signo : Nat} {action : Action} {siginfo resetHand noDefer : Bool} (h : Placed prp) :
    Placed (signalAction prp signo action siginfo resetHand noDefer) := by
  have hreset : Placed (prp.resetAction signo siginfo resetHand noDefer) := h.congr rfl rfl
  unfold signalAction
  dsimp only
  generalize prp.resetAction signo siginfo resetHand noDefer = prp' at hreset
  have hignore : Placed (signalIgnore prp' signo) :=
    ⟨signalIgnore_active hreset.1, hreset.2.like (signalIgnore_like prp' signo) (signalIgnore_like prp' signo).pending⟩
  split
  · exact h
  · cases action with
    | ignore =>
      dsimp only
      split
      · exact h
      · exact hignore
    | default =>
      dsimp only
      split
      · exact hignore.congr rfl rfl
      · exact hreset.congr rfl rfl
    | reserved =>
      dsimp only
      split
      · exact h
      · exact hreset
    | handle sigBlocked alloc =>
      dsimp only
      split
      · exact h
      · split <;> exact hreset.congr rfl rfl

/-! ## Delivery -/

/-- Once a pulse is found, a scan that finds no second one has seen only blocked pulses. -/
theorem scanActive_found (h : scanActive mask true queue = false) :
    ∀ pup ∈ queue, sigTst mask pup.signo = true := by
  induction queue with
  | nil => exact nofun
  | cons head queue ih =>
    rw [scanActive] at h
    split at h
    · next hblocked => exact forall_mem_cons.mpr ⟨hblocked, ih h⟩
    · cases h

/-- If the scan leaves the thread inactive, the pulse that is delivered was the only unblocked one: what is left
of the list is blocked, or more of the same pulse. -/
theorem scanActive_removed
    (h : scanActive mask false queue = false) (hfind : queue.find? (fun pup => !sigTst mask pup.signo) = some pup)
    (htag : tag ∈ tags (pulseRemove (fun pup => !sigTst mask pup.signo) queue)) :
    sigTst mask tag.1 = true ∨ tag.1 = pup.signo ∧ pup.more ≠ 0 := by
  induction queue with
  | nil => cases hfind
  | cons head queue ih =>
    rw [scanActive] at h
    by_cases hblocked : sigTst mask head.signo = true
    · rw [if_pos hblocked] at h
      have htest : ¬ (!sigTst mask head.signo) = true := by rw [hblocked]; exact Bool.false_ne_true
      simp only [find?_cons, hblocked, Bool.not_true] at hfind
      rw [pulseRemove, if_neg htest, tags_cons] at htag
      rcases mem_cons.mp htag with rfl | htag
      · exact .inl hblocked
      · exact ih h hfind htag
    · rw [if_neg hblocked] at h
      have htest : (!sigTst mask head.signo) = true := by simpa using hblocked
      simp only [find?_cons, htest] at hfind
      cases hfind
      have hrest : ∀ pup ∈ queue, sigTst mask pup.signo = true := by
        simp only [Bool.false_eq_true, if_false] at h
        split at h
        · cases h
        · exact scanActive_found h
      rw [pulseRemove, if_pos htest] at htag
      split at htag
      · obtain ⟨q, hq, rfl⟩ := mem_tags.mp htag
        exact .inl (hrest q hq)
      · next hmore =>
        rcases mem_cons.mp htag with rfl | htag
        · exact .inr ⟨rfl, hmore⟩
        · obtain ⟨q, hq, rfl⟩ := mem_tags.mp htag
          exact .inl (hrest q hq)

theorem threadDestroy_settled (stage : Destroy) (h : SettledOff tid prp) (hthp : prp.thread tid = some thp) :
    Placed (threadDestroy prp tid thp stage) := by
  cases stage with
  | started => exact h.setOnes hthp (List.Subset.refl _) rfl
  | dead => exact h.setOnes hthp (nil_subset _) rfl
  | gone =>
    have hactive : Active { prp with threads := prp.threads.set tid none } :=
      fun t thp' ht => h.active t thp' (thread_gone ht).1 (thread_gone ht).2
    rw [threadDestroy]
    split
    · exact ⟨hactive.congr rfl, fun _ h => by cases h⟩
    · exact ⟨hactive, fun tag htag t thp' ht => h.blocked tag htag t thp' (thread_gone ht).2⟩

theorem threadDestroyall_settled (h : Settled prp) (hthp : prp.thread tid = some thp)
    (hpending : thp'.sigPending = thp.sigPending) : Placed (threadDestroyall prp tid thp') := by
  have hset : Placed (prp.setThread tid { thp' with sigActive := false, sigSuspend := false, dying := true
                                                    sigBlocked := sigmaskOnes }) :=
    h.off.setOnes hthp (by rw [hpending]; exact List.Subset.refl _) rfl
  exact hset.congr rfl rfl

/-- What may become of a thread that a signal kills: the debugger deals with all that the pulse stands for, and
the process is not dumped. -/
def Kill.Settles (pup : Pulse) : Kill → Prop
  | .debugged => siUser < pup.code → pup.count ≤ 1
  | .coredump => False
  | _ => True

instance (pup : Pulse) : (kill : Kill) → Decidable (kill.Settles pup)
  | .debugged => inferInstanceAs (Decidable (_ → _))
  | .coredump => isFalse id
  | .thread _ | .process => isTrue trivial

/-- What has to hold of the pulse that is delivered: after the handler is entered or the debugger has dealt with
it, nothing of it is left that is not blocked. -/
def Frame.Settles (pup : Pulse) (kill : Kill) : Option Handler → Frame → Prop
  | some shp, .ok => pup.count ≤ 1 ∨ shp.noDefer = false ∧ shp.resetHand = false ∨
      sigTst shp.sigBlocked pup.signo = true
  | some _, .fault => True
  | _, _ => kill.Settles pup

instance (pup : Pulse) (kill : Kill) : (shp : Option Handler) → (frame : Frame) →
    Decidable (Frame.Settles pup kill shp frame)
  | some _, .ok => inferInstanceAs (Decidable (_ ∨ _))
  | some _, .fault => isTrue trivial
  | some _, .outside | none, .ok | none, .outside | none, .fault => inferInstanceAs (Decidable (kill.Settles pup))

def Delivers (prp : Proc) (pup : Pulse) (frame : Frame) (kill : Kill) : Prop :=
  Frame.Settles pup kill ((prp.handlers pup.signo).filter (·.handler)) frame

instance (prp : Proc) (pup : Pulse) (frame : Frame) (kill : Kill) : Decidable (Delivers prp pup frame kill) :=
  inferInstanceAs (Decidable (Frame.Settles pup kill _ frame))

section
variable (h : Settled prp) (hthp : prp.thread tid = some thp)
include h hthp

theorem enterHandler_settled {shp : Handler}
    (hfind : thp.sigPending.find? (fun pup => !sigTst thp.sigBlocked pup.signo) = some pup)
    (hok : pup.count ≤ 1 ∨ shp.noDefer = false ∧ shp.resetHand = false ∨ sigTst shp.sigBlocked pup.signo = true) :
    Placed (enterHandler prp tid thp pup.signo shp (scanActive thp.sigBlocked false thp.sigPending)) := by
  have hmem : pup ∈ thp.sigPending := mem_of_find?_eq_some hfind
  have hsigno : pup.signo ≤ sigMax :=
    (h.bound (pup.signo, pup.boost) (.inr ⟨tid, thp, hthp, mem_tags.mpr ⟨pup, hmem, rfl⟩⟩)).2
  generalize hmask : (if (shp.noDefer || shp.resetHand) = true then thp.sigBlocked
    else sigSet thp.sigBlocked pup.signo) ||| shp.sigBlocked = mask
  -- the mask only grows
  have hgrows : ∀ n ≤ sigMax, sigTst thp.sigBlocked n = true → sigTst mask n = true := by
    intro n hn hset
    rw [← hmask, sigTst_or]
    split
    · rw [hset, Bool.true_or]
    · rw [sigTst_sigSet hn, hset, Bool.true_or, Bool.true_or]
  have hself : pup.count ≤ 1 ∨ sigTst mask pup.signo = true := by
    rcases hok with hone | ⟨hdefer, hreset⟩ | hhandler
    · exact .inl hone
    · refine .inr ?_
      rw [← hmask, hdefer, hreset, sigTst_or]
      simp only [Bool.or_self, Bool.false_eq_true, if_false]
      rw [sigTst_sigSet hsigno, decide_eq_true rfl, Bool.or_true, Bool.true_or]
    · refine .inr ?_
      rw [← hmask, sigTst_or, hhandler, Bool.or_true]
  have hset : Placed (prp.setThread tid { thp with
      sigActive := scanActive thp.sigBlocked false thp.sigPending, sigSuspend := false
      sigPending := pulseRemove (fun pup => !sigTst thp.sigBlocked pup.signo) thp.sigPending
      sigBlocked := mask }) := by
    refine h.placed.setThread hthp (fun tag htag hfree => ?_) fun tag htag =>
      hgrows tag.1 (h.bound tag (.inl htag)).2 (h.blocked tag htag tid thp hthp)
    by_contra hinactive
    rw [Bool.not_eq_true] at hinactive
    have hbound : tag.1 ≤ sigMax := (h.bound tag (.inr ⟨tid, thp, hthp, tags_pulseRemove _ _ htag⟩)).2
    rcases scanActive_removed hinactive hfind htag with hold | ⟨heq, hmore⟩
    · cases (hgrows tag.1 hbound hold).symm.trans hfree
    · rcases hself with hone | hblocked
      · simp only [Pulse.count] at hone
        omega
      · cases (heq ▸ hblocked).symm.trans hfree
  rw [enterHandler]
  rw [hmask]
  split
  · exact hset.congr rfl rfl
  · exact hset

theorem killit_settled (hfind : thp.sigPending.find? (fun pup => !sigTst thp.sigBlocked pup.signo) = some pup)
    (hok : kill.Settles pup) :
    Placed (killit prp tid thp pup (scanActive thp.sigBlocked false thp.sigPending) kill) := by
  unfold killit
  cases kill with
  | debugged =>
    dsimp only
    split
    · next hcode =>
      refine h.placed.setKept hthp rfl fun tag htag hfree => ?_
      by_contra hinactive
      rw [Bool.not_eq_true] at hinactive
      rcases scanActive_removed hinactive hfind htag with hold | ⟨-, hmore⟩
      · cases hold.symm.trans hfree
      · have hone := hok hcode
        simp only [Pulse.count] at hone
        omega
    · exact threadDestroyall_settled h hthp rfl
  | thread stage =>
    -- the flag need not be right any more, but the mask of ones follows
    have hset : SettledOff tid (prp.setThread tid
        { thp with sigActive := scanActive thp.sigBlocked false thp.sigPending }) :=
      h.off.setThread hthp rfl (List.Subset.refl _)
    exact threadDestroy_settled stage hset (thread_setThread_self hthp)
  | coredump => exact hok.elim
  | process => exact threadDestroyall_settled h hthp rfl

theorem signalSpecret_settled {debug : Bool} {frame : Frame}
    (hok : ∀ pup, thp.sigPending.find? (fun pup => !sigTst thp.sigBlocked pup.signo) = some pup →
      debug = true ∨ Delivers prp pup frame kill) : Placed (signalSpecret prp tid thp debug frame kill) := by
  rw [signalSpecret]
  split
  · next hnone =>
    refine h.placed.setKept hthp rfl fun tag htag hfree => ?_
    obtain ⟨pup, hpup, rfl⟩ := mem_tags.mp htag
    exact absurd (by simpa using hfree) (find?_eq_none.mp hnone pup hpup)
  · next pup hfind =>
    split
    · exact h.placed
    · next hdebug =>
      have hdel := (hok pup hfind).resolve_left hdebug
      unfold Delivers at hdel
      cases hshp : (prp.handlers pup.signo).filter (·.handler) with
      | none =>
        rw [hshp] at hdel
        cases frame <;> exact killit_settled h hthp hfind hdel
      | some shp =>
        rw [hshp] at hdel
        cases frame with
        | ok => exact enterHandler_settled h hthp hfind hdel
        | outside => exact killit_settled h hthp hfind hdel
        | fault =>
          have hcongr : Placed (prp.unhandle pup.signo) := h.placed.congr rfl rfl
          exact hcongr.setKept hthp rfl fun _ _ _ => rfl

end

theorem specret_settled {debug : Bool} {frame : Frame} (h : Settled prp)
    (hactive : ∀ thp, prp.thread tid = some thp → thp.sigActive = true → ∀ pup,
      thp.sigPending.find? (fun pup => !sigTst thp.sigBlocked pup.signo) = some pup →
        debug = true ∨ Delivers prp pup frame kill)
    (hsuspend : ∀ thp, prp.thread tid = some thp → thp.sigActive = false → thp.sigSuspend = true →
      ∀ tag ∈ tags prp.sigPending ++ tags thp.sigPending, sigTst thp.saved tag.1 = true) :
    Placed (specret prp tid debug frame kill) := by
  rw [specret]
  split
  · exact h.placed
  · next thp hthp =>
    split
    · next hact => exact signalSpecret_settled h hthp (hactive thp hthp hact)
    · next hact =>
      split
      · next hsus =>
        have hall := hsuspend thp hthp (Bool.eq_false_iff.mpr hact) hsus
        exact h.placed.setThread hthp
          (fun tag htag hfree => by cases (hall tag (mem_append_right _ htag)).symm.trans hfree)
          fun tag htag => hall tag (mem_append_left _ htag)
      · exact h.placed

/-! ## Faults and new threads -/

theorem deliverFault_settled {sig : Sig} {alloc : Bool} (h : Settled prp) (hsig : sig.ok = true)
    (hprocess : ∀ thp, prp.thread tid = some thp → sigTst thp.sigBlocked sig.signo = true →
      ∀ tag ∈ tags prp.sigPending, tag.1 ≠ sig.signo) : Ends (deliverFault prp tid sig alloc) Placed := by
  rw [deliverFault]
  split
  · exact .done h.placed
  · next thp hthp =>
    dsimp only
    split
    · exact .fails
    · have hprp : Placed (if sigTst thp.sigBlocked sig.signo = true then prp.unhandle sig.signo else prp) := by
        split
        · exact h.placed.congr rfl rfl
        · exact h.placed
      have hthp' : (if sigTst thp.sigBlocked sig.signo = true then prp.unhandle sig.signo else prp).thread tid =
          some thp := by
        split <;> exact hthp
      have hpending : (if sigTst thp.sigBlocked sig.signo = true then prp.unhandle sig.signo else prp).sigPending =
          prp.sigPending := by
        split <;> rfl
      refine .done (hprp.setThread hthp' (fun _ _ _ => rfl) fun tag htag => ?_)
      rw [hpending] at htag
      have hold := h.blocked tag htag tid thp hthp
      split
      · next hblocked =>
        have hne := hprocess thp hthp hblocked tag htag
        obtain ⟨hpos, hbound⟩ := h.bound tag (.inl htag)
        have hsigno : 1 ≤ sig.signo := by
          simp only [Sig.ok, Bool.and_eq_true, decide_eq_true_eq] at hsig
          exact hsig.1
        have hbits : ¬ tag.1 - 1 = sig.signo - 1 := by omega
        rw [sigTst_sigClr hbound, hold, decide_eq_false hbits]
        rfl
      · exact hold

theorem threadCreate_settled (h : Settled prp)
    (hmask : ∀ tag ∈ tags prp.sigPending, sigTst (sigmaskNoKillstop (sigmaskSpecial mask)) tag.1 = true) :
    Placed (threadCreate prp mask) := by
  have hpending : (threadCreate prp mask).sigPending = prp.sigPending := by
    rw [threadCreate]
    split <;> rfl
  constructor
  · intro t thp ht hdue
    rcases thread_threadCreate ht with hold | rfl
    · exact h.active t thp hold hdue
    · cases hdue
  · intro tag htag t thp ht
    rw [hpending] at htag
    rcases thread_threadCreate ht with hold | rfl
    · exact h.blocked tag htag t thp hold
    · exact hmask tag htag

/-! ## Clearing signals -/

/-- How many signals of the number the list stands for. -/
def countSum (signo : Nat) (queue : List Pulse) : Nat := ((queue.filter (·.signo = signo)).map Pulse.count).sum

theorem countSum_append (signo : Nat) (queue queue' : List Pulse) :
    countSum signo (queue ++ queue') = countSum signo queue + countSum signo queue' := by
  simp only [countSum, filter_append, map_append, sum_append]

theorem countSum_cons_self {signo : Nat} (h : pup.signo = signo) (queue : List Pulse) :
    countSum signo (pup :: queue) = pup.count + countSum signo queue := by
  simp [countSum, h]

theorem countSum_removeAt (signo n : Nat) (queue : List Pulse) :
    countSum signo (removeAt n queue) ≤ countSum signo queue := by
  induction queue generalizing n with
  | nil => cases n <;> exact le_rfl
  | cons pup queue ih =>
    have hcons : ∀ pup queue, countSum signo (pup :: queue) = countSum signo [pup] + countSum signo queue :=
      fun pup queue => countSum_append signo [pup] queue
    cases n with
    | zero =>
      rw [removeAt]
      split
      · rw [hcons]
        exact Nat.le_add_left _ _
      · rw [hcons, hcons pup]
        refine Nat.add_le_add_right ?_ _
        simp only [countSum, filter_cons, filter_nil]
        split <;> simp [Pulse.count]
    | succ n =>
      rw [removeAt, hcons pup (removeAt n queue), hcons pup queue]
      exact Nat.add_le_add_left (ih n) _

section
variable {test : Pulse → Bool} {signo count : Nat} {rest : List Pulse} (hpos : 1 ≤ count)
include hpos

theorem clearWalk_last (hlt : count < 2 ^ 32) (hlast : rest.head?.filter (·.signo = signo) = none) :
    (clearWalk test signo count (pup :: rest)).2 ≠ 0 ∨
      (clearWalk test signo count (pup :: rest)).1 = some 0 ∧ count = 1 := by
  have hmod : (count + 0) % 2 ^ 32 = count := Nat.mod_eq_of_lt hlt
  simp only [clearWalk, hlast, map_none, getD_none, hmod]
  split
  · by_cases hone : count = 1
    · exact .inr ⟨rfl, hone⟩
    · exact .inl (by dsimp only; omega)
  · exact .inl (by simp only [isNone_none, if_true]; omega)

/-- The count that the inner loop ends with is zero only if the pulse it removes was the last of its number. -/
theorem clearWalk_zero (hsum : count + countSum signo rest < 2 ^ 32) :
    (clearWalk test signo count (pup :: rest)).2 ≠ 0 ∨
      (clearWalk test signo count (pup :: rest)).1 = some 0 ∧ count = 1 ∧
        ∀ next ∈ rest.head?, next.signo ≠ signo := by
  have hlt : count < 2 ^ 32 := Nat.lt_of_le_of_lt (Nat.le_add_right _ _) hsum
  induction rest generalizing count pup with
  | nil => exact (clearWalk_last hpos hlt rfl).imp_right fun h => ⟨h.1, h.2, nofun⟩
  | cons next rest ih =>
    by_cases hnext : next.signo = signo
    · rw [countSum_cons_self hnext] at hsum
      have hcount : 1 ≤ next.count := Nat.le_add_left _ _
      have hmod : (count + next.count) % 2 ^ 32 = count + next.count := Nat.mod_eq_of_lt (by omega)
      have hfilter : ((next :: rest).head?.filter (·.signo = signo)).map (·.count) = some next.count := by
        simp [hnext]
      rw [clearWalk, hfilter]
      dsimp only [getD_some]
      rw [hmod]
      split
      · exact .inl (by dsimp only; omega)
      · have hrec : (clearWalk test signo (count + next.count) (next :: rest)).2 ≠ 0 ∨ _ :=
          ih (by omega) (by omega) (by omega)
        rcases hrec with hne | ⟨-, hone, -⟩
        · exact .inl hne
        · omega
    · exact (clearWalk_last hpos hlt (by simp [hnext])).imp_right fun h => ⟨h.1, h.2, by simpa using hnext⟩

end

theorem key_signo {pup pup' : Pulse} (h : pup.signo ≤ sigMax) (h' : pup'.signo ≤ sigMax) (hkey : pup.key = pup'.key) :
    pup.signo = pup'.signo := by
  simp only [Pulse.key, sigMax] at *
  split at hkey <;> split at hkey <;> omega

theorem signo_removeAt {P : Nat → Prop} (h : ∀ pup ∈ queue, P pup.signo) (n : Nat) :
    ∀ pup ∈ removeAt n queue, P pup.signo := by
  intro pup hpup
  obtain ⟨q, hq, heq⟩ := mem_tags.mp (tags_removeAt n queue (mem_tags.mpr ⟨pup, hpup, rfl⟩))
  exact (Prod.mk.inj heq).1 ▸ h q hq

/-- A level that is left by signal_clear_thread and not blocked has made CT_SIG_ACT true. -/
theorem clearLoop_active {test : Pulse → Bool} {signo fuel : Nat} {cleared act : Bool}
    (hbound : ∀ pup ∈ queue, pup.signo ≤ sigMax) (hsum : countSum signo queue < 2 ^ 32) :
    Ends (clearLoop mask test signo fuel cleared act queue) fun r =>
      (act = true → r.2 = true) ∧ ∀ pup ∈ r.1, sigTst mask pup.signo = false → r.2 = true := by
  induction fuel generalizing cleared act queue with
  | zero =>
    cases queue with
    | nil => exact .done ⟨id, by simp⟩
    | cons pup rest => exact .fails
  | succ fuel ih =>
    cases queue with
    | nil => exact .done ⟨id, by simp⟩
    | cons pup rest =>
      rw [clearLoop]
      dsimp only
      generalize hlevel : pup :: rest.takeWhile (fun x => decide (x.key = pup.key)) = level
      generalize hafter : rest.dropWhile (fun x => decide (x.key = pup.key)) = after
      have happend : pup :: rest = level ++ after := by
        rw [← hlevel, ← hafter]
        exact (level_append_after pup rest).symm
      -- one number to a level
      have hsame : ∀ q ∈ level, q.signo = pup.signo := by
        have hkey : ∀ q ∈ level, q.key = pup.key :=
          hlevel ▸ forall_mem_cons.mpr ⟨rfl, fun q hq => by simpa using mem_takeWhile_imp hq⟩
        intro q hq
        exact key_signo (hbound q (happend ▸ mem_append_left _ hq)) (hbound pup mem_cons_self) (hkey q hq)
      have hbound' : ∀ q ∈ after, q.signo ≤ sigMax := fun q hq => hbound q (happend ▸ mem_append_right _ hq)
      have hsum' : countSum signo after < 2 ^ 32 := by
        rw [happend, countSum_append] at hsum
        omega
      -- what is left of the level, and the loop over the levels after it
      have hfinish : ∀ {cleared prioAct level1 after1}, (∀ q ∈ after1, q.signo ≤ sigMax) →
          countSum signo after1 < 2 ^ 32 →
          (∀ q ∈ level1, q.signo = pup.signo ∧ (sigTst mask pup.signo = false → prioAct = true)) →
          Ends ((clearLoop mask test signo fuel cleared (act || prioAct) after1).map fun r => (level1 ++ r.1, r.2)) fun r =>
            (act = true → r.2 = true) ∧ ∀ q ∈ r.1, sigTst mask q.signo = false → r.2 = true := by
        intro cleared prioAct level1 after1 hb hs hlevel1
        refine ((ih hb hs).mono fun r hr => ?_).map
        obtain ⟨hact, hqueue⟩ := hr
        refine ⟨fun ha => hact (by rw [ha, Bool.true_or]), forall_mem_append.mpr ⟨fun q hq hfree => ?_, hqueue⟩⟩
        obtain ⟨heq, hprio⟩ := hlevel1 q hq
        rw [heq] at hfree
        exact hact (by rw [hprio hfree, Bool.or_true])
      split
      · next hcase =>
        have hsumrest : pup.count + countSum signo rest < 2 ^ 32 := by
          rw [← countSum_cons_self hcase.1]
          exact hsum
        have hwalk : (clearWalk test signo pup.count (pup :: rest)).2 ≠ 0 ∨ _ :=
          clearWalk_zero (Nat.le_add_left 1 pup.more) hsumrest
        split
        · next hpos =>
          have hne := hwalk.resolve_right fun hzero => by cases hpos.symm.trans hzero.1
          exact hfinish hbound' hsum' fun q hq => ⟨hsame q hq, fun hfree => by simp [hfree, hne]⟩
        · next n hpos =>
          split
          · refine hfinish hbound' hsum' fun q hq => ⟨signo_removeAt (P := (· = pup.signo)) hsame n q hq, fun hfree => ?_⟩
            rcases hwalk with hne | ⟨hzero, hone, hhead⟩
            · simp [hfree, hne]
            · -- the pulse was all there is at its level
              exfalso
              rw [hpos] at hzero
              cases hzero
              have hmore : pup.more = 0 := by simpa [Pulse.count] using hone
              have halone : level = [pup] := by
                rw [← hlevel]
                congr 1
                cases rest with
                | nil => rfl
                | cons next rest =>
                  refine takeWhile_cons_of_neg ?_
                  rw [decide_eq_true_eq]
                  intro hkey
                  refine hhead next rfl ?_
                  rw [← hcase.1]
                  exact key_signo (hbound next (by simp)) (hbound pup mem_cons_self) hkey
              rw [halone, removeAt, if_pos hmore] at hq
              cases hq
          · next hlen =>
            split
            · exact .fails
            · have hne : (clearWalk test signo pup.count (pup :: rest)).2 ≠ 0 := by
                rcases hwalk with hne | ⟨hzero, -⟩
                · exact hne
                · rw [hpos] at hzero
                  cases hzero
                  rw [← hlevel] at hlen
                  exact absurd (Nat.succ_pos _) hlen
              exact hfinish (signo_removeAt (P := (· ≤ sigMax)) hbound' _) ((countSum_removeAt _ _ _).trans_lt hsum')
                fun q hq => ⟨hsame q hq, fun hfree => by simp [hfree, hne]⟩
      · exact hfinish hbound' hsum' fun q hq => ⟨hsame q hq, fun hfree => by simp [hfree]⟩

theorem signalClearThread_settled {sig : Sig} (h : Settled prp)
    (hsum : ∀ thp, prp.thread tid = some thp → countSum sig.signo thp.sigPending < 2 ^ 32) :
    Ends (signalClearThread prp tid sig) Placed := by
  rw [signalClearThread]
  split
  · exact .done h.placed
  · next thp hthp =>
    have hbound : ∀ pup ∈ thp.sigPending, pup.signo ≤ sigMax := fun pup hpup =>
      (h.bound (pup.signo, pup.boost) (.inr ⟨tid, thp, hthp, mem_tags.mpr ⟨pup, hpup, rfl⟩⟩)).2
    refine .map fun r hloop => h.placed.setKept hthp rfl fun tag htag hfree => ?_
    have hold := h.active tid thp hthp (Thread.due_iff.mpr ⟨tag, tags_clearLoop _ hloop htag, hfree⟩)
    obtain ⟨pup, hpup, rfl⟩ := mem_tags.mp htag
    rw [hold]
    exact (clearLoop_active hbound (hsum thp hthp) _ hloop).2 pup hpup hfree

/-! ## Runs -/

/-- What the code does not check; see the head of the module. -/
def Op.Settles (prp : Proc) : Op → Prop
  | .specret tid debug frame kill => ∀ thp ∈ prp.thread tid,
      (thp.sigActive = true → ∀ pup ∈ thp.sigPending.find? (fun pup => !sigTst thp.sigBlocked pup.signo),
        debug = true ∨ Delivers prp pup frame kill) ∧
      (thp.sigActive = false → thp.sigSuspend = true →
        ∀ pup ∈ prp.sigPending ++ thp.sigPending, sigTst thp.saved pup.signo = true)
  | .suspend tid _ .timeout => ∀ thp ∈ prp.thread tid, thp.sigActive = false
  | .fault tid sig _ => ∀ thp ∈ prp.thread tid, sigTst thp.sigBlocked sig.signo = true →
      ∀ pup ∈ prp.sigPending, pup.signo ≠ sig.signo
  | .create sigBlocked => ∀ pup ∈ prp.sigPending, sigTst (sigmaskNoKillstop (sigmaskSpecial sigBlocked)) pup.signo = true
  | .clear tid sig => ∀ thp ∈ prp.thread tid, countSum sig.signo thp.sigPending < 2 ^ 32
  | _ => True

theorem step_bound (h : Settled prp) (hstep : step prp op = some prp') :
    ∀ tag, On prp' tag → 1 ≤ tag.1 ∧ tag.1 ≤ sigMax := by
  intro tag hon
  rcases (step_made _ hstep).on hon with hold | hnew
  · exact h.bound tag hold
  · -- a signal with another number is not sent
    have hsent : ∀ {sig : Sig} {boost : Bool}, tag ∈ [(sig.signo, boost)] → (sig.ok = false → some prp = some prp') →
        1 ≤ tag.1 ∧ tag.1 ≤ sigMax := by
      intro sig boost htag hsame
      cases hok : sig.ok with
      | false => exact h.bound tag (some.inj (hsame hok) ▸ hon)
      | true =>
        rw [mem_singleton.mp htag]
        simpa only [Sig.ok, Bool.and_eq_true, decide_eq_true_eq] using hok
    cases op with
    | killProcess sig env => exact hsent hnew fun hok => by simpa [step, hok] using hstep
    | killThread tid sig env => exact hsent hnew fun hok => by simpa [step, hok] using hstep
    | fault tid sig alloc => exact hsent hnew fun hok => by simpa [step, hok] using hstep
    | _ => cases hnew

theorem tags_forall {P : Nat → Prop} (h : ∀ pup ∈ queue, P pup.signo) :
    ∀ tag ∈ tags queue, P tag.1 := by
  intro tag htag
  obtain ⟨pup, hpup, rfl⟩ := mem_tags.mp htag
  exact h pup hpup

theorem step_places (h : Settled prp) (hop : op.Settles prp) : Ends (step prp op) Placed := by
  have hupdate : ∀ {tid : Nat} {f : Thread → Thread}, (∀ thp, prp.thread tid = some thp → Placed (prp.setThread tid (f thp))) →
      Placed (prp.update tid f) := by
    intro tid f hf
    rw [Proc.update]
    split
    · exact h.placed
    · exact hf _ ‹_›
  cases op with
  | killProcess sig env =>
    refine Ends.guard h.placed fun _ => .map fun r hkill => ?_
    have hkilled := signalKillProcess_killed _ hkill
    exact ⟨hkilled.active h.active, hkilled.blocked h.blocked⟩
  | killThread tid sig env =>
    refine .done ?_
    split
    · exact ⟨signalKillThread_active env tid sig h.active,
        h.blocked.like (signalKillThread_like env prp tid sig) (signalKillThread_pending env prp tid sig)⟩
    · exact h.placed
  | procmask tid how sigBlocked =>
    rw [step, signalProcmask]
    split
    · exact .done h.placed
    · exact signalBlock_settled h.placed
  | suspend tid sigBlocked how =>
    refine signalSuspend_settled h fun htime => ?_
    subst htime
    exact hop
  | sigreturn tid sigBlocked => exact signalBlock_settled h.placed
  | waitinfo tid sigWait timeout => exact .done (signalWaitinfo_settled h.placed)
  | action signo action siginfo resetHand noDefer => exact .done (signalAction_settled h.placed)
  | specret tid debug frame kill =>
    refine .done (specret_settled h (fun thp hthp hact => (hop thp hthp).1 hact) fun thp hthp hact hsus => ?_)
    rw [← tags_append]
    exact tags_forall (P := fun n => sigTst thp.saved n = true) ((hop thp hthp).2 hact hsus)
  | clear tid sig => exact signalClearThread_settled h hop
  | fault tid sig alloc =>
    exact Ends.guard h.placed fun hok => deliverFault_settled h hok fun thp hthp hblocked =>
      tags_forall (P := (· ≠ sig.signo)) (hop thp hthp hblocked)
  | create sigBlocked =>
    exact .done (threadCreate_settled h
      (tags_forall (P := fun n => sigTst (sigmaskNoKillstop (sigmaskSpecial sigBlocked)) n = true) hop))
  | killself tid => exact .done (hupdate fun thp hthp => h.off.setOnes hthp (List.Subset.refl _) rfl)
  | destroy tid stage =>
    rw [step]
    split
    · exact .done h.placed
    · next thp hthp => exact .done (threadDestroy_settled stage h.off hthp)
  | valid tid => exact .done (hupdate fun thp hthp => h.placed.setSame hthp rfl (List.Subset.refl _) rfl)
  | move tid state => exact .done (hupdate fun thp hthp => h.placed.setSame hthp rfl (List.Subset.refl _) rfl)


theorem newProc_settled (sigIgnore sigQueue : SigSet) : Settled (newProc sigIgnore sigQueue) where
  active t thp ht := by cases ht
  blocked tag htag := by cases htag
  bound tag hon := by
    rcases hon with hp | ⟨t, thp, ht, -⟩
    · cases hp
    · cases ht

/-- In a run that meets the condition a signal on the process is blocked in each thread, and a thread with an
unblocked signal of its own is active. -/
theorem none_stranded (sigIgnore sigQueue : SigSet) (ops : List Op) (prp : Proc)
    (hops : Run.Along step (fun prp op => op.Settles prp) ops (newProc sigIgnore sigQueue))
    (hrun : run ops (newProc sigIgnore sigQueue) = some prp) :
    (∀ pup ∈ prp.sigPending, ∀ tid thp, prp.thread tid = some thp → sigTst thp.sigBlocked pup.signo = true) ∧
      ∀ tid thp, prp.thread tid = some thp →
        (∃ pup ∈ thp.sigPending, sigTst thp.sigBlocked pup.signo = false) → thp.sigActive = true := by
  have hsettled := Run.inv (fun h hop hstep => ⟨(step_places h hop _ hstep).1, (step_places h hop _ hstep).2, step_bound h hstep⟩)
    (newProc_settled sigIgnore sigQueue) hops hrun
  constructor
  · intro pup hpup tid thp hthp
    exact hsettled.blocked (pup.signo, pup.boost) (mem_tags.mpr ⟨pup, hpup, rfl⟩) tid thp hthp
  · rintro tid thp hthp ⟨pup, hpup, hfree⟩
    exact hsettled.active tid thp hthp (Thread.due_iff.mpr ⟨(pup.signo, pup.boost), mem_tags.mpr ⟨pup, hpup, rfl⟩, hfree⟩)

instance (prp : Proc) : (op : Op) → Decidable (op.Settles prp)
  | .specret tid _ _ _ => inferInstanceAs (Decidable (∀ thp ∈ prp.thread tid, _ ∧ _))
  | .suspend tid _ .timeout => inferInstanceAs (Decidable (∀ thp ∈ prp.thread tid, _ = _))
  | .fault tid _ _ => inferInstanceAs (Decidable (∀ thp ∈ prp.thread tid, _ → _))
  | .create _ => inferInstanceAs (Decidable (∀ pup ∈ prp.sigPending, _ = _))
  | .clear tid _ => inferInstanceAs (Decidable (∀ thp ∈ prp.thread tid, _ < _))
  | .suspend _ _ .cancel | .suspend _ _ .block => isTrue trivial
  | .killProcess _ _ | .killThread _ _ _ | .procmask _ _ _ | .sigreturn _ _ | .waitinfo _ _ _ | .action _ _ _ _ _
  | .killself _ | .destroy _ _ | .valid _ | .move _ _ => isTrue trivial

/-- SIGUSR1 wakes a suspended thread, and comes again while the thread blocks it; it is moved to the thread when
the mask lets it through, and delivered. -/
theorem none_stranded_handler :
    let ops : List Op := [.create 0, .valid 0, .action 16 (.handle 0 true) false false false, .suspend 0 0 .block,
      .killProcess ⟨16, 0, 0, 0⟩ plainEnv, .specret 0 false .ok .process, .sigreturn 0 0xff00000000008000#64,
      .killProcess ⟨16, 0, 0, 0⟩ plainEnv, .procmask 0 .unblock 0x8000#64, .specret 0 false .ok .process]
    Run.Along step (fun prp op => op.Settles prp) ops (newProc 0 0) ∧
      (run (ops.take 8) (newProc 0 0)).any (fun prp => prp.sigPending.length = 1) = true ∧
      ∃ prp, run ops (newProc 0 0) = some prp ∧ ∀ pup ∈ prp.sigPending, ∀ tid thp, prp.thread tid = some thp →
        sigTst thp.sigBlocked pup.signo = true := by
  intro ops
  have hops : Run.Along step (fun prp op => op.Settles prp) ops (newProc 0 0) := by decide +kernel
  have hrun : (run ops (newProc 0 0)).isSome = true := by decide +kernel
  obtain ⟨prp, hprp⟩ := isSome_iff_exists.mp hrun
  exact ⟨hops, by decide +kernel, prp, hprp, (none_stranded 0 0 ops prp hops hprp).1⟩

/-- A thread is suspended with SIGUSR1 blocked. The signal goes on the process; then a timeout wakes the thread, and
specialret gives it the mask back that lets SIGUSR1 through. -/
theorem stranded_suspend :
    let ops : List Op := [.create 0, .valid 0, .suspend 0 0x8000#64 .block, .killProcess ⟨16, 0, 0, 0⟩ plainEnv,
      .move 0 .ready, .specret 0 false .ok .process]
    ∃ prp thp, run ops (newProc 0 0) = some prp ∧ prp.thread 0 = some thp ∧ thp.valid = true ∧
      thp.sigActive = false ∧ ∃ pup ∈ prp.sigPending, sigTst thp.sigBlocked pup.signo = false := by
  intro ops
  have hany : (run ops (newProc 0 0)).any (fun prp => (prp.thread 0).any fun thp => thp.valid = true ∧
      thp.sigActive = false ∧ ∃ pup ∈ prp.sigPending, sigTst thp.sigBlocked pup.signo = false) = true := by
    decide +kernel
  obtain ⟨prp, hrun, hthread⟩ := (any_eq_true _ _).mp hany
  obtain ⟨thp, hthp, hstate⟩ := (any_eq_true _ _).mp hthread
  exact ⟨prp, thp, hrun, hthp, of_decide_eq_true hstate⟩

end QRV.Nano.Signal
