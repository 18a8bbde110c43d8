import QRV.Lib.Call
import QRV.Nano.Signal

/- What the calls that send signals keep. No matter which branch they take, sending a
   signal, ignoring one and waiting for one change no mask and no handler, put nothing but
   the signal that is sent on a list, and set QRV_FLG_THR_SIG_ACTIVE where a signal becomes
   due.

   Part 1: the bits of a mask. Part 2: which signals are on a list (`tags`). Part 3: `Like`,
   the relation of the states before and after a call, and special_case_signalhandling.
   Part 4: signal_kill_thread and signal_kill_process; the scan misses no thread. -/
namespace QRV.Nano.Signal
open StableQueue Call List

/-! ## Bits of a mask -/

theorem sigTst_or (set set' : SigSet) (n : Nat) : sigTst (set ||| set') n = (sigTst set n || sigTst set' n) :=
  BitVec.getLsbD_or

theorem sigTst_bit {n signo : Nat} (h : n ≤ sigMax) :
    (1#64 <<< (signo - 1)).getLsbD (n - 1) = decide (n - 1 = signo - 1) := by
  have hn : n - 1 < 64 := by simp only [sigMax] at h; omega
  rw [BitVec.getLsbD_shiftLeft, BitVec.getLsbD_one]
  by_cases hlt : n - 1 < signo - 1
  · have hne : n - 1 ≠ signo - 1 := by omega
    simp [hlt, hne]
  · by_cases heq : n - 1 = signo - 1
    · simp [heq, heq ▸ hn]
    · have hpos : n - 1 - (signo - 1) ≠ 0 := by omega
      simp [heq, hpos]

variable {set : SigSet}

theorem sigTst_sigSet {n signo : Nat} (h : n ≤ sigMax) :
    sigTst (sigSet set signo) n = (sigTst set n || decide (n - 1 = signo - 1)) := by
  rw [sigTst, sigSet, BitVec.getLsbD_or, sigTst_bit h, sigTst]

theorem sigTst_sigClr {n signo : Nat} (h : n ≤ sigMax) :
    sigTst (sigClr set signo) n = (sigTst set n && !decide (n - 1 = signo - 1)) := by
  have hn : n - 1 < 64 := by simp only [sigMax] at h; omega
  rw [sigTst, sigClr, BitVec.getLsbD_and, BitVec.getLsbD_not, sigTst_bit h, sigTst]
  simp [hn]

variable {n : Nat}

theorem sigTst_noKillstop (h : n ≤ sigMax) :
    sigTst (sigmaskNoKillstop set) n = (sigTst set n && !decide (n = sigkill ∨ n = sigstop)) := by
  have hn : n - 1 < 64 := by simp only [sigMax] at h; omega
  rw [sigTst, sigmaskNoKillstop, BitVec.getLsbD_and, BitVec.getLsbD_not, BitVec.getLsbD_or, sigTst_bit h,
    sigTst_bit h, sigTst]
  have hkill : (n - 1 = sigkill - 1) ↔ n = sigkill := by simp only [sigkill]; omega
  have hstop : (n - 1 = sigstop - 1) ↔ n = sigstop := by simp only [sigstop]; omega
  simp only [hkill, hstop, hn, decide_true, Bool.true_and, Bool.decide_or]

theorem sigTst_special (h : n ≤ sigMax) :
    sigTst (sigmaskSpecial set) n = (sigTst set n || decide (57 ≤ n)) := by
  have htop : (0xff00000000000000#64).getLsbD (n - 1) = decide (57 ≤ n) := by
    have hall : ∀ n ≤ 64, (0xff00000000000000#64).getLsbD (n - 1) = decide (57 ≤ n) := by decide
    exact hall n h
  rw [sigTst, sigmaskSpecial, BitVec.getLsbD_or, htop, sigTst]

theorem sigTst_ones (h : n ≤ sigMax) : sigTst sigmaskOnes n = true := by
  have hn : n - 1 < 64 := by simp only [sigMax] at h; omega
  rw [sigTst, sigmaskOnes, BitVec.getLsbD_allOnes, decide_eq_true hn]

/-! ## The signals on a list -/

/-- The signals on a list, each with whether it is boosted. -/
def tags (queue : List Pulse) : List (Nat × Bool) := queue.map fun pup => (pup.signo, pup.boost)

theorem tags_cons (pup : Pulse) (queue : List Pulse) :
    tags (pup :: queue) = (pup.signo, pup.boost) :: tags queue := rfl

theorem tags_append (queue queue' : List Pulse) : tags (queue ++ queue') = tags queue ++ tags queue' :=
  map_append

variable {queue : List Pulse}

theorem mem_tags {tag : Nat × Bool} :
    tag ∈ tags queue ↔ ∃ pup ∈ queue, (pup.signo, pup.boost) = tag := mem_map

theorem tags_sublist {queue queue' : List Pulse} (h : List.Sublist queue queue') : tags queue ⊆ tags queue' :=
  (h.map _).subset

theorem tags_pulseReplace {new : Pulse} {queue queue' : List Pulse} (h : pulseReplace new queue = some queue') :
    tags queue' = tags queue := by
  induction queue generalizing queue' with
  | nil => cases h
  | cons pup queue ih =>
    rw [pulseReplace] at h
    split at h
    · cases h
      rfl
    · obtain ⟨rest, hrest, rfl⟩ := Option.map_eq_some_iff.mp h
      rw [tags_cons, tags_cons, ih hrest]

theorem tags_pulseCompress {new : Pulse} {queue queue' : List Pulse} (h : pulseCompress new queue = some queue') :
    tags queue' = tags queue := by
  induction queue generalizing queue' with
  | nil => cases h
  | cons pup queue ih =>
    rw [pulseCompress] at h
    split at h
    · split at h
      · cases h
        rfl
      · cases h
    · obtain ⟨rest, hrest, rfl⟩ := Option.map_eq_some_iff.mp h
      rw [tags_cons, tags_cons, ih hrest]

theorem tags_enqueue (new : Pulse) (queue : List Pulse) :
    tags (enqueue Pulse.key new queue) ⊆ [(new.signo, new.boost)] ++ tags queue := by
  intro tag htag
  obtain ⟨pup, hpup, rfl⟩ := mem_tags.mp htag
  rcases mem_enqueue.mp hpup with rfl | hmem
  · exact mem_cons_self
  · exact .tail _ (mem_tags.mpr ⟨pup, hmem, rfl⟩)

theorem tags_pulseAdd (queue : List Pulse) (new : Pulse) (replace alloc : Bool) :
    tags (pulseAdd queue new replace alloc).1 ⊆ [(new.signo, new.boost)] ++ tags queue := by
  rw [pulseAdd]
  split
  · next queue' h =>
    have htags : tags queue' = tags queue := by
      split at h
      · exact tags_pulseReplace h
      · exact tags_pulseCompress h
    rw [htags]
    exact subset_append_right _ _
  · split
    · exact tags_enqueue new queue
    · exact subset_append_right _ _

theorem tags_pulseRemove (test : Pulse → Bool) (queue : List Pulse) : tags (pulseRemove test queue) ⊆ tags queue := by
  induction queue with
  | nil => exact List.Subset.refl _
  | cons pup queue ih =>
    rw [pulseRemove]
    split
    · split
      · exact subset_cons_self _ _
      · exact List.Subset.refl _
    · rw [tags_cons, tags_cons]
      exact cons_subset_cons _ ih

theorem tags_signalDiscard (signo : Nat) (queue : List Pulse) : tags (signalDiscard signo queue) ⊆ tags queue :=
  tags_sublist filter_sublist

/-! ## Threads and the process before and after -/

theorem Thread.due_iff {thp : Thread} :
    thp.due = true ↔ ∃ tag ∈ tags thp.sigPending, sigTst thp.sigBlocked tag.1 = false := by
  rw [Thread.due, any_eq_true]
  constructor
  · rintro ⟨pup, hmem, hpup⟩
    exact ⟨_, mem_tags.mpr ⟨pup, hmem, rfl⟩, by simpa using hpup⟩
  · rintro ⟨tag, htag, hblocked⟩
    obtain ⟨pup, hmem, rfl⟩ := mem_tags.mp htag
    exact ⟨pup, hmem, by simpa using hblocked⟩

/-- Nothing but the signals of `new` comes to the thread, and its masks stay. -/
structure Thread.Like (new : List (Nat × Bool)) (thp thp' : Thread) : Prop where
  sigBlocked : thp'.sigBlocked = thp.sigBlocked
  sigSuspend : thp'.sigSuspend = thp.sigSuspend
  saved : thp'.saved = thp.saved
  dying : thp'.dying = thp.dying
  pending : tags thp'.sigPending ⊆ new ++ tags thp.sigPending

structure Like (new : List (Nat × Bool)) (prp prp' : Proc) : Prop where
  handlers : prp'.handlers = prp.handlers
  pending : tags prp'.sigPending ⊆ new ++ tags prp.sigPending
  thread : ∀ {tid : Nat} {thp' : Thread}, prp'.thread tid = some thp' →
    ∃ thp, prp.thread tid = some thp ∧ thp.Like new thp'

/-- A thread that has an unblocked signal on its list is active. -/
def Active (prp : Proc) : Prop := ∀ tid thp, prp.thread tid = some thp → thp.due = true → thp.sigActive = true

/-- `Active`, apart from one thread. -/
def ActiveOff (tid : Nat) (prp : Proc) : Prop :=
  ∀ tid' thp, tid' ≠ tid → prp.thread tid' = some thp → thp.due = true → thp.sigActive = true

/-- The signals on the process are blocked in every thread. -/
def Blocked (prp : Proc) : Prop :=
  ∀ tag ∈ tags prp.sigPending, ∀ tid thp, prp.thread tid = some thp → sigTst thp.sigBlocked tag.1 = true

variable {new : List (Nat × Bool)} {prp prp' prp'' : Proc} {tid t : Nat} {thp thp' : Thread}
variable {signo : Nat} {sig : Sig} {sc : Scan} {env : Env}

theorem Thread.Like.refl (thp : Thread) : thp.Like new thp := ⟨rfl, rfl, rfl, rfl, subset_append_right _ _⟩

theorem subset_append_trans {α : Type} {new l1 l2 l3 : List α} (h : l2 ⊆ new ++ l1) (h' : l3 ⊆ new ++ l2) :
    l3 ⊆ new ++ l1 := by
  intro a ha
  rcases mem_append.mp (h' ha) with hnew | h2
  · exact mem_append_left _ hnew
  · exact h h2

theorem Thread.Like.trans {thp'' : Thread} (h : thp.Like new thp') (h' : thp'.Like new thp'') :
    thp.Like new thp'' where
  sigBlocked := h'.sigBlocked.trans h.sigBlocked
  sigSuspend := h'.sigSuspend.trans h.sigSuspend
  saved := h'.saved.trans h.saved
  dying := h'.dying.trans h.dying
  pending := subset_append_trans h.pending h'.pending

theorem Like.refl (prp : Proc) : Like new prp prp :=
  ⟨rfl, subset_append_right _ _, fun h => ⟨_, h, Thread.Like.refl _⟩⟩

theorem Like.trans (h : Like new prp prp') (h' : Like new prp' prp'') : Like new prp prp'' where
  handlers := h'.handlers.trans h.handlers
  pending := subset_append_trans h.pending h'.pending
  thread := by
    intro tid thp'' hthp''
    obtain ⟨thp', hthp', hlike'⟩ := h'.thread hthp''
    obtain ⟨thp, hthp, hlike⟩ := h.thread hthp'
    exact ⟨thp, hthp, hlike.trans hlike'⟩

theorem Thread.Like.weaken (h : thp.Like [] thp') : thp.Like new thp' :=
  ⟨h.sigBlocked, h.sigSuspend, h.saved, h.dying, List.Subset.trans h.pending (subset_append_right _ _)⟩

theorem Like.weaken (h : Like [] prp prp') : Like new prp prp' where
  handlers := h.handlers
  pending := List.Subset.trans h.pending (subset_append_right _ _)
  thread hthp := by
    obtain ⟨thp, hthp, hlike⟩ := h.thread hthp
    exact ⟨thp, hthp, hlike.weaken⟩

theorem thread_lt (h : prp.thread tid = some thp) : tid < prp.threads.length := by
  by_contra hge
  rw [Proc.thread, getElem?_eq_none (Nat.le_of_not_lt hge)] at h
  cases h

theorem Proc.all_iff {P : Thread → Prop} : prp.All P ↔ ∀ tid thp, prp.thread tid = some thp → P thp := by
  constructor
  · intro h tid thp hthp
    rw [Proc.thread, Option.join_eq_some_iff] at hthp
    exact h _ (mem_of_getElem? hthp) thp rfl
  · intro h entry hentry thp hthp
    obtain ⟨tid, htid⟩ := mem_iff_getElem?.mp hentry
    refine h tid thp ?_
    rw [Proc.thread, htid, hthp]
    rfl

theorem Proc.All.thread {P : Thread → Prop} (h : prp.All P) (hthp : prp.thread tid = some thp) : P thp :=
  Proc.all_iff.mp h tid thp hthp

theorem thread_setThread (h : prp.thread tid = some thp) :
    (prp.setThread tid thp').thread t = if t = tid then some thp' else prp.thread t := by
  simp only [Proc.thread, Proc.setThread, getElem?_set]
  by_cases heq : tid = t
  · subst heq
    simp [thread_lt h]
  · simp [heq, Ne.symm heq]

theorem thread_setThread_self (h : prp.thread tid = some thp) :
    (prp.setThread tid thp').thread tid = some thp' := by
  rw [thread_setThread h, if_pos rfl]

theorem thread_signalRemove (signo : Nat) :
    (signalRemove prp signo).thread t = (prp.thread t).map (Thread.remove signo) := by
  rw [Proc.thread, signalRemove, getElem?_map, Proc.thread]
  rcases prp.threads[t]? with _ | _ | _ <;> rfl

theorem Like.setThread (h : prp.thread tid = some thp) (hlike : thp.Like new thp') :
    Like new prp (prp.setThread tid thp') where
  handlers := rfl
  pending := subset_append_right _ _
  thread := by
    intro t thp'' ht
    rw [thread_setThread h] at ht
    split at ht
    · next heq =>
      cases ht
      exact ⟨thp, heq ▸ h, hlike⟩
    · exact ⟨thp'', ht, Thread.Like.refl _⟩

theorem Active.off (h : Active prp) : ActiveOff tid prp := fun t thp _ hthp => h t thp hthp

theorem Active.of_off (h : ∀ tid, ActiveOff tid prp) : Active prp := fun t thp => h (t + 1) t thp (Nat.ne_of_lt t.lt_succ_self)

section
variable (h : ActiveOff tid prp) (hthp : prp.thread tid = some thp)
include h hthp

theorem ActiveOff.setThread : ActiveOff tid (prp.setThread tid thp') := by
  intro t thp'' hne ht
  rw [thread_setThread hthp, if_neg hne] at ht
  exact h t thp'' hne ht

theorem ActiveOff.active (hdue : thp.due = true → thp.sigActive = true) : Active prp := by
  intro t thp' ht
  by_cases heq : t = tid
  · subst heq
    rw [hthp] at ht
    cases ht
    exact hdue
  · exact h t thp' heq ht

theorem Active.setThread (hdue : thp'.due = true → thp'.sigActive = true) : Active (prp.setThread tid thp') :=
  (h.setThread hthp).active (thread_setThread_self hthp) hdue

end

theorem Blocked.like (h : Blocked prp) (hlike : Like new prp prp')
    (hpending : tags prp'.sigPending ⊆ tags prp.sigPending) : Blocked prp' := by
  intro tag htag t thp' ht
  obtain ⟨thp, hthp, hl⟩ := hlike.thread ht
  rw [hl.sigBlocked]
  exact h tag (hpending htag) t thp hthp

theorem Thread.remove_like (signo : Nat) (thp : Thread) : thp.Like [] (thp.remove signo) := by
  rw [Thread.remove]
  split
  · exact ⟨rfl, rfl, rfl, rfl, tags_signalDiscard _ _⟩
  · exact Thread.Like.refl _

theorem Thread.remove_active {thp : Thread} (h : thp.due = true → thp.sigActive = true) :
    (thp.remove signo).due = true → (thp.remove signo).sigActive = true := by
  intro hdue
  have hold : thp.due = true := by
    obtain ⟨tag, htag, hblocked⟩ := Thread.due_iff.mp hdue
    rw [(thp.remove_like signo).sigBlocked] at hblocked
    exact Thread.due_iff.mpr ⟨tag, (thp.remove_like signo).pending htag, hblocked⟩
  by_cases hvalid : thp.valid
  · simp only [Thread.remove, hvalid, if_true] at hdue ⊢
    rw [h hold, Bool.true_and]
    exact hdue
  · simp only [Thread.remove, hvalid]
    exact h hold

theorem signalRemove_like (prp : Proc) (signo : Nat) : Like [] prp (signalRemove prp signo) where
  handlers := rfl
  pending := tags_signalDiscard _ _
  thread := by
    intro t thp' ht
    rw [thread_signalRemove] at ht
    obtain ⟨thp, hthp, rfl⟩ := Option.map_eq_some_iff.mp ht
    exact ⟨thp, hthp, thp.remove_like signo⟩

theorem signalRemove_activeOff (h : ActiveOff tid prp) : ActiveOff tid (signalRemove prp signo) := by
  intro t thp' hne ht
  rw [thread_signalRemove] at ht
  obtain ⟨thp, hthp, rfl⟩ := Option.map_eq_some_iff.mp ht
  exact Thread.remove_active (h t thp hne hthp)

theorem signalRemove_active (h : Active prp) : Active (signalRemove prp signo) :=
  .of_off fun _ => signalRemove_activeOff h.off

/-! ## special_case_signalhandling -/

/-- What special_case_signalhandling does to the lists: nothing, or SIGCONT is removed for a stop signal, or the
stop signals for SIGCONT. -/
inductive Special (prp prp' : Proc) (signo : Nat) : Prop where
  | same (pending : prp'.sigPending = prp.sigPending) (threads : prp'.threads = prp.threads)
      (handlers : prp'.handlers = prp.handlers)
  | stop (pending : prp'.sigPending = (signalRemove prp sigcont).sigPending)
      (threads : prp'.threads = (signalRemove prp sigcont).threads) (handlers : prp'.handlers = prp.handlers)
      (signo : signo = sigstop ∨ signo = sigtstp ∨ signo = sigttin ∨ signo = sigttou)
  | cont (removed : Proc)
      (eq : removed = signalRemove (signalRemove (signalRemove (signalRemove prp sigstop) sigtstp) sigttin) sigttou)
      (pending : prp'.sigPending = removed.sigPending) (threads : prp'.threads = removed.threads)
      (handlers : prp'.handlers = prp.handlers) (signo : signo = sigcont)

theorem stopProcess_special
    (h : signo = sigstop ∨ signo = sigtstp ∨ signo = sigttin ∨ signo = sigttou) :
    Special prp (stopProcess prp).1 signo := by
  rw [stopProcess]
  split
  · exact .same rfl rfl rfl
  · split <;> exact .stop rfl rfl rfl h

theorem specialCase_special (prp : Proc) (there : Bool) (signo : Nat) (debug : Bool) :
    Special prp (specialCaseSignalhandling prp there signo debug).1 signo := by
  rw [specialCaseSignalhandling]
  split
  · next h =>
    split
    · exact .stop rfl rfl rfl (.inr h)
    · exact stopProcess_special (.inr h)
  · split
    · next h => exact stopProcess_special (.inl h)
    · split
      · next h =>
        split
        · exact .same rfl rfl rfl
        · exact .cont _ rfl rfl rfl rfl h
      · split
        · exact .same rfl rfl rfl
        · split <;> exact .same rfl rfl rfl

theorem thread_congr (h : prp'.threads = prp.threads) : prp'.thread t = prp.thread t := by
  rw [Proc.thread, Proc.thread, h]

theorem Like.congr (h : Like new prp prp') (hhandlers : prp''.handlers = prp'.handlers)
    (hpending : prp''.sigPending = prp'.sigPending) (hthreads : prp''.threads = prp'.threads) :
    Like new prp prp'' where
  handlers := hhandlers.trans h.handlers
  pending := hpending ▸ h.pending
  thread ht := h.thread (thread_congr hthreads ▸ ht)

theorem Active.congr (h : Active prp) (hthreads : prp'.threads = prp.threads) : Active prp' :=
  fun t thp ht => h t thp (thread_congr hthreads ▸ ht)

theorem ActiveOff.congr (h : ActiveOff tid prp) (hthreads : prp'.threads = prp.threads) : ActiveOff tid prp' :=
  fun t thp hne ht => h t thp hne (thread_congr hthreads ▸ ht)

theorem Special.like (h : Special prp prp' signo) : Like [] prp prp' := by
  cases h with
  | same pending threads handlers => exact (Like.refl prp).congr handlers pending threads
  | stop pending threads handlers _ => exact (signalRemove_like prp sigcont).congr handlers pending threads
  | cont removed eq pending threads handlers _ =>
    have hlike : Like [] prp removed := by
      rw [eq]
      exact (((signalRemove_like _ _).trans (signalRemove_like _ _)).trans (signalRemove_like _ _)).trans
        (signalRemove_like _ _)
    exact hlike.congr (handlers.trans hlike.handlers.symm) pending threads

theorem Special.activeOff (h : Special prp prp' signo) (hoff : ActiveOff tid prp) :
    ActiveOff tid prp' := by
  cases h with
  | same _ threads _ => exact hoff.congr threads
  | stop _ threads _ _ => exact (signalRemove_activeOff hoff).congr threads
  | cont removed eq _ threads _ _ =>
    refine ActiveOff.congr ?_ threads
    rw [eq]
    exact signalRemove_activeOff (signalRemove_activeOff (signalRemove_activeOff (signalRemove_activeOff hoff)))

theorem Special.active (h : Special prp prp' signo) (hact : Active prp) : Active prp' :=
  .of_off fun _ => h.activeOff hact.off

/-! ## Sending signals -/

theorem Thread.forceReady_like (thp : Thread) : thp.Like new thp.forceReady := by
  rw [Thread.forceReady]
  split <;> exact ⟨rfl, rfl, rfl, rfl, subset_append_right _ _⟩

theorem Thread.forceReady_sigActive (thp : Thread) : thp.forceReady.sigActive = thp.sigActive := by
  rw [Thread.forceReady]
  split <;> rfl

/-- The thread that queueThread leaves. -/
def Thread.queued (thp : Thread) (queue : List Pulse) (signo : Nat) : Thread :=
  if sigTst thp.sigBlocked signo then { thp with sigPending := queue }
  else { ({ thp with sigPending := queue }).forceReady with sigActive := true }

theorem queueThread_eq (env : Env) (prp : Proc) (tid : Nat) (thp : Thread) (sig : Sig) :
    (queueThread env prp tid thp sig).1 =
      prp.setThread tid (thp.queued
        (pulseAdd thp.sigPending sig.pulse (prp.replaces sig) (env.alloc (some tid))).1 sig.signo) := rfl

section
variable {boost : Bool} (h : tags queue ⊆ [(signo, boost)] ++ tags thp.sigPending)
include h

theorem Thread.queued_like :
    thp.Like [(signo, boost)] (thp.queued queue signo) := by
  rw [Thread.queued]
  split
  · exact ⟨rfl, rfl, rfl, rfl, h⟩
  · have hready : Thread.Like [] { thp with sigPending := queue } _ := Thread.forceReady_like _
    exact ⟨hready.sigBlocked, hready.sigSuspend, hready.saved, hready.dying, fun tag htag => h (hready.pending htag)⟩

theorem Thread.queued_active (hdue : thp.due = true → thp.sigActive = true) :
    (thp.queued queue signo).due = true → (thp.queued queue signo).sigActive = true := by
  rw [Thread.queued]
  split
  · next hblocked =>
    intro hdue'
    obtain ⟨tag, htag, hfree⟩ := Thread.due_iff.mp hdue'
    rcases mem_cons.mp (h htag) with rfl | hold
    · rw [hblocked] at hfree
      cases hfree
    · exact hdue (Thread.due_iff.mpr ⟨tag, hold, hfree⟩)
  · intro _
    rfl

end

theorem queueThread_like (env : Env) (sig : Sig) (h : prp.thread tid = some thp) :
    Like [(sig.signo, false)] prp (queueThread env prp tid thp sig).1 := by
  rw [queueThread_eq]
  exact Like.setThread h (Thread.queued_like (tags_pulseAdd _ _ _ _))

theorem queueThread_active (env : Env) (sig : Sig) (h : prp.thread tid = some thp) (hact : Active prp) :
    Active (queueThread env prp tid thp sig).1 := by
  rw [queueThread_eq]
  exact Active.setThread hact.off h (Thread.queued_active (tags_pulseAdd _ _ _ _) (hact tid thp h))

/-- What signal_kill_thread does: nothing, the thread gets the signal it waits for, or the special cases come
first and the signal goes on the list of the thread unless they have dealt with it. -/
inductive Killed (env : Env) (prp : Proc) (tid : Nat) (sig : Sig) (prp' : Proc) : Prop where
  | same (eq : prp' = prp)
  | waits (thp : Thread) (thread : prp.thread tid = some thp) (waits : thp.waits sig.signo = true)
      (eq : prp' = prp.setThread tid { thp with state := .ready })
  | special (eq : prp' = (specialCaseSignalhandling prp true sig.signo (env.debug tid)).1)
  | queued (thp : Thread)
      (thread : (specialCaseSignalhandling prp true sig.signo (env.debug tid)).1.thread tid = some thp)
      (eq : prp' = (queueThread env (specialCaseSignalhandling prp true sig.signo (env.debug tid)).1 tid thp sig).1)

theorem signalKillThread_killed (env : Env) (prp : Proc) (tid : Nat) (sig : Sig) :
    Killed env prp tid sig (signalKillThread env prp tid sig).1 := by
  rw [signalKillThread]
  split
  · exact .same rfl
  · next thp hthp =>
    split
    · exact .same rfl
    · split
      · next hwaits =>
        split
        · exact .same rfl
        · exact .waits thp hthp hwaits rfl
      · split
        · next prp' status heq => exact .special (by rw [heq])
        · next prp' heq =>
          split
          · exact .special (by rw [heq])
          · next thp' hthp' => exact .queued thp' (by rw [heq]; exact hthp') (by rw [heq])

theorem Killed.keeps {P : Proc → Prop} (h : Killed env prp tid sig prp') (hprp : P prp)
    (hwaits : ∀ thp, prp.thread tid = some thp → P (prp.setThread tid { thp with state := .ready }))
    (hspecial : ∀ prp1, Special prp prp1 sig.signo → P prp1)
    (hqueued : ∀ prp1 thp, prp1.thread tid = some thp → P prp1 → P (queueThread env prp1 tid thp sig).1) : P prp' := by
  have hsp := hspecial _ (specialCase_special prp true sig.signo (env.debug tid))
  cases h with
  | same eq => exact eq ▸ hprp
  | waits thp thread _ eq => exact eq ▸ hwaits thp thread
  | special eq => exact eq ▸ hsp
  | queued thp thread eq => exact eq ▸ hqueued _ thp thread hsp

/-- If the signal is not ignored and the thread does not wait for it, the special cases are looked at. -/
theorem signalKillThread_special (env : Env) (hthp : prp.thread tid = some thp)
    (hignore : sig.signo = sigcont ∨ sigTst prp.sigIgnore sig.signo = false) (hwaits : thp.waits sig.signo = false) :
    let prp1 := (specialCaseSignalhandling prp true sig.signo (env.debug tid)).1
    (signalKillThread env prp tid sig).1 = prp1 ∨
      ∃ thp1, prp1.thread tid = some thp1 ∧
        (signalKillThread env prp tid sig).1 = (queueThread env prp1 tid thp1 sig).1 := by
  have hign : ¬ (sigTst prp.sigIgnore sig.signo = true ∧ sig.signo ≠ sigcont) := by
    rintro ⟨htst, hne⟩
    rcases hignore with h | h
    · exact hne h
    · rw [h] at htst
      cases htst
  have hno : ¬ thp.waits sig.signo = true := by rw [hwaits]; exact Bool.false_ne_true
  intro prp1
  rw [signalKillThread, hthp]
  dsimp only
  rw [if_neg hign, if_neg hno]
  split
  · next prp2 status heq => exact .inl (by simp only [prp1, heq])
  · next prp2 heq =>
    have heq1 : prp1 = prp2 := by simp only [prp1, heq]
    rw [heq1]
    split
    · exact .inl rfl
    · next thp1 hthp1 => exact .inr ⟨thp1, hthp1, rfl⟩

theorem signalKillThread_like (env : Env) (prp : Proc) (tid : Nat) (sig : Sig) :
    Like [(sig.signo, false)] prp (signalKillThread env prp tid sig).1 :=
  (signalKillThread_killed env prp tid sig).keeps (Like.refl prp)
    (fun _ hthp => Like.setThread hthp ⟨rfl, rfl, rfl, rfl, subset_append_right _ _⟩) (fun _ h => h.like.weaken)
    fun _ _ hthp h => h.trans (queueThread_like env sig hthp)

theorem signalKillThread_active (env : Env) (tid : Nat) (sig : Sig) (h : Active prp) :
    Active (signalKillThread env prp tid sig).1 :=
  (signalKillThread_killed env prp tid sig).keeps h (fun thp hthp => Active.setThread h.off hthp (h tid thp hthp))
    (fun _ hsp => hsp.active h) fun _ _ hthp h => queueThread_active env sig hthp h

theorem signalKillThread_pending (env : Env) (prp : Proc) (tid : Nat) (sig : Sig) :
    tags (signalKillThread env prp tid sig).1.sigPending ⊆ tags prp.sigPending :=
  (signalKillThread_killed env prp tid sig).keeps (P := fun prp' => tags prp'.sigPending ⊆ tags prp.sigPending)
    (List.Subset.refl _) (fun _ _ => List.Subset.refl _) (fun _ h => h.like.pending) fun _ _ _ h => h

/-- Any number of signal_kill_thread calls for the signal. -/
def Kills (env : Env) (sig : Sig) : Proc → Proc → Prop :=
  Relation.ReflTransGen fun prp prp' => ∃ tid, prp' = (signalKillThread env prp tid sig).1

/-- The threads that the scan looks at. -/
def visit (n : Nat) : Nat → Nat → Nat
  | tid, 0 => tid
  | tid, j + 1 => visit n ((tid + 1) % n) j

theorem visit_succ {n tid : Nat} (j : Nat) : visit n tid (j + 1) = (tid + 1 + j) % n := by
  induction j generalizing tid with
  | zero => rfl
  | succ j ih =>
    rw [visit, ih, Nat.add_assoc, Nat.mod_add_mod, ← Nat.add_assoc]
    congr 1
    omega

theorem visit_surj (tid : Nat) {n t : Nat} (ht : t < n) : ∃ j < n + 1, visit n tid j = t := by
  have hn : 0 < n := Nat.lt_of_le_of_lt (Nat.zero_le t) ht
  have hr : (tid + 1) % n < n := Nat.mod_lt _ hn
  refine ⟨(t + (n - (tid + 1) % n)) % n + 1, Nat.succ_lt_succ (Nat.mod_lt _ hn), ?_⟩
  rw [visit_succ, Nat.add_mod_mod, ← Nat.mod_add_mod]
  have hsum : (tid + 1) % n + (t + (n - (tid + 1) % n)) = t + n := by omega
  rw [hsum, Nat.add_mod_right, Nat.mod_eq_of_lt ht]

/-- What the scan comes to: all threads block the signal, one accepts it, or SIGKILL was sent on the way. -/
inductive Scanned (env : Env) (sig : Sig) (iters tid : Nat) (sc sc' : Scan) : Prop where
  | passed (eq : sc' = sc) (blocked : ∀ j < iters, ∀ thp,
      sc.prp.thread (visit sc.prp.threads.length tid j) = some thp → sigTst thp.sigBlocked sig.signo = true)
  | found (t : Nat) (thp : Thread) (thread : sc.prp.thread t = some thp)
      (accepts : thp.waits sig.signo = true ∨ sigTst thp.sigBlocked sig.signo = false)
      (eq : sc' = { sc with target := some t })
  | killed (signo : sig.signo = sigkill) (kills : Kills env sig sc.prp sc'.prp) (target : sc'.target.isSome)
      (sent : sc'.sent.isSome)

/-- The scan goes past a thread that it cannot send the signal to. -/
theorem Scanned.next {iters tid : Nat} {sc' : Scan}
    (h : Scanned env sig iters ((tid + 1) % sc.prp.threads.length) sc sc')
    (hblocked : ∀ thp, sc.prp.thread tid = some thp → sigTst thp.sigBlocked sig.signo = true) :
    Scanned env sig (iters + 1) tid sc sc' := by
  cases h with
  | passed eq blocked =>
    refine .passed eq fun j hj => ?_
    cases j with
    | zero => exact hblocked
    | succ j => exact blocked j (Nat.lt_of_succ_lt_succ hj)
  | found t thp thread accepts eq => exact .found t thp thread accepts eq
  | killed signo kills target sent => exact .killed signo kills target sent

theorem scanThreads_scanned (env : Env) (sig : Sig) (iters tid : Nat) (sc : Scan) :
    Scanned env sig iters tid sc (scanThreads env sig iters tid sc) := by
  fun_induction scanThreads env sig iters tid sc with
  | case1 => exact .passed rfl nofun
  | case2 iters tid sc next hnone ih => exact ih.next fun thp hthp => by rw [hnone] at hthp; cases hthp
  | case3 iters tid sc thp hthp hwaits => exact .found tid thp hthp (.inl hwaits) rfl
  | case4 iters tid sc next thp hthp _ hblocked ih =>
    refine ih.next fun thp' hthp' => ?_
    rw [hthp] at hthp'
    cases hthp'
    exact hblocked
  | case5 iters tid sc next thp hthp _ hblocked _ _ ih =>
    -- a thread that waits for a reply is taken if no other comes
    cases ih with
    | passed eq _ => exact .found tid thp hthp (.inr (Bool.eq_false_iff.mpr hblocked)) eq
    | found t thp thread accepts eq => exact .found t thp thread accepts eq
    | killed signo kills target sent => exact .killed signo kills target sent
  | case6 iters tid sc next thp hthp _ _ hsig prp status heq _ ih =>
    have hkill : Kills env sig sc.prp prp := .single ⟨tid, by rw [heq]⟩
    cases ih with
    | passed eq _ => exact .killed hsig (by rw [eq]; exact hkill) (by rw [eq]; rfl) (by rw [eq]; rfl)
    | found t thp thread accepts eq =>
      exact .killed hsig (by rw [eq]; exact hkill) (by rw [eq]; rfl) (by rw [eq]; rfl)
    | killed signo kills target sent => exact .killed signo (hkill.trans kills) target sent
  | case7 iters tid sc thp hthp _ hblocked _ _ =>
    exact .found tid thp hthp (.inr (Bool.eq_false_iff.mpr hblocked)) rfl

/-- What signal_kill_process does. -/
inductive KilledProcess (env : Env) (prp : Proc) (sig : Sig) (prp' : Proc) : Prop where
  | ignored (ignored : sigTst prp.sigIgnore sig.signo = true) (cont : sig.signo ≠ sigcont) (eq : prp' = prp)
  | kill (signo : sig.signo = sigkill) (kills : Kills env sig prp prp')
  | thread (target : Nat) (thp : Thread) (thread : prp.thread target = some thp)
      (accepts : thp.waits sig.signo = true ∨ sigTst thp.sigBlocked sig.signo = false)
      (eq : prp' = (signalKillThread env { prp with sigtidCache := target } target sig).1)
  | unaccepted (blocked : ∀ t thp, prp.thread t = some thp → sigTst thp.sigBlocked sig.signo = true)
      (eq : prp' = (killUnaccepted env prp sig).1)

theorem signalKillProcess_killed : Ends (signalKillProcess env prp sig) fun r => KilledProcess env prp sig r.1 := by
  rw [signalKillProcess]
  split
  · next hign => exact .done (.ignored hign.1 hign.2 rfl)
  · split
    · exact .fails
    · generalize (if sig.signo = sigkill ∨ sig.signo = sigcont ∨ sig.signo = sigstop then 0
        else prp.sigtidCache) = tid
      have hscan := scanThreads_scanned env sig (prp.threads.length + 1) tid ⟨prp, none, none⟩
      dsimp only
      generalize scanThreads env sig (prp.threads.length + 1) tid ⟨prp, none, none⟩ = sc at hscan
      cases hscan with
      | passed eq blocked =>
        subst eq
        refine .done (.unaccepted (fun t thp hthp => ?_) rfl)
        obtain ⟨j, hj, rfl⟩ := visit_surj tid (thread_lt hthp)
        exact blocked j hj thp hthp
      | found t thp thread accepts eq =>
        subst eq
        exact .done (.thread t thp thread accepts rfl)
      | killed signo kills target sent =>
        obtain ⟨t, ht⟩ := Option.isSome_iff_exists.mp target
        obtain ⟨stat, hstat⟩ := Option.isSome_iff_exists.mp sent
        rw [ht, hstat]
        exact .done (.kill signo kills)

theorem queueProcess_like (env : Env) (prp : Proc) (sig : Sig) :
    Like [(sig.signo, false)] prp (queueProcess env prp sig).1 where
  handlers := rfl
  pending := tags_pulseAdd _ _ _ _
  thread ht := ⟨_, ht, Thread.Like.refl _⟩

/-- A signal that no thread accepts: it is dropped, or goes on the process once SIGCONT has had its effect. -/
theorem killUnaccepted_cases (env : Env) (prp : Proc) (sig : Sig) :
    ∃ prp0, (sig.signo ≠ sigcont ∧ prp0 = prp ∨
        sig.signo = sigcont ∧ prp0 = (specialCaseSignalhandling prp false sigcont false).1) ∧
      ((killUnaccepted env prp sig).1 = prp0 ∨ (killUnaccepted env prp sig).1 = (queueProcess env prp0 sig).1) := by
  rw [killUnaccepted]
  split
  · next hsig =>
    have hne : sig.signo ≠ sigcont := by rcases hsig.1 with h | h | h | h <;> rw [h] <;> decide
    exact ⟨prp, .inl ⟨hne, rfl⟩, .inl rfl⟩
  · split
    · next hcont =>
      refine ⟨_, .inr ⟨hcont, rfl⟩, ?_⟩
      rw [hcont]
      dsimp only
      split
      · exact .inl rfl
      · exact .inr rfl
    · next hcont => exact ⟨prp, .inl ⟨hcont, rfl⟩, .inr rfl⟩

theorem killUnaccepted_keeps {P : Proc → Prop} (hprp : P prp)
    (hspecial : P (specialCaseSignalhandling prp false sigcont false).1)
    (hqueued : ∀ prp0, P prp0 → P (queueProcess env prp0 sig).1) : P (killUnaccepted env prp sig).1 := by
  obtain ⟨prp0, hprp0, heq⟩ := killUnaccepted_cases env prp sig
  have h0 : P prp0 := by
    rcases hprp0 with ⟨-, rfl⟩ | ⟨-, rfl⟩
    · exact hprp
    · exact hspecial
  rcases heq with heq | heq <;> rw [heq]
  · exact h0
  · exact hqueued prp0 h0

theorem killUnaccepted_like (env : Env) (prp : Proc) (sig : Sig) :
    Like [(sig.signo, false)] prp (killUnaccepted env prp sig).1 :=
  killUnaccepted_keeps (Like.refl prp) (specialCase_special prp false sigcont false).like.weaken
    fun prp0 h => h.trans (queueProcess_like env prp0 sig)

theorem killUnaccepted_active (env : Env) (sig : Sig) (h : Active prp) : Active (killUnaccepted env prp sig).1 :=
  killUnaccepted_keeps h ((specialCase_special prp false sigcont false).active h) fun _ h => h

theorem killUnaccepted_blocked (env : Env) (h : Blocked prp)
    (hall : ∀ t thp, prp.thread t = some thp → sigTst thp.sigBlocked sig.signo = true) :
    Blocked (killUnaccepted env prp sig).1 := by
  have hlike := killUnaccepted_like env prp sig
  intro tag htag t thp' ht
  obtain ⟨thp, hthp, hl⟩ := hlike.thread ht
  rw [hl.sigBlocked]
  rcases mem_cons.mp (hlike.pending htag) with rfl | hold
  · exact hall t thp hthp
  · exact h tag hold t thp hthp

/-- What signal_kill_thread keeps, and keeps of a signal that all threads block, signal_kill_process keeps. -/
theorem KilledProcess.keeps {P : Proc → Prop} (h : KilledProcess env prp sig prp') (hprp : P prp)
    (hcache : ∀ target, P { prp with sigtidCache := target })
    (hthread : ∀ prp1 tid, P prp1 → P (signalKillThread env prp1 tid sig).1)
    (hblocked : (∀ t thp, prp.thread t = some thp → sigTst thp.sigBlocked sig.signo = true) →
      P (killUnaccepted env prp sig).1) : P prp' := by
  cases h with
  | ignored _ _ eq => exact eq ▸ hprp
  | kill _ kills =>
    induction kills with
    | refl => exact hprp
    | tail _ hstep ih =>
      obtain ⟨tid, rfl⟩ := hstep
      exact hthread _ tid ih
  | thread target _ _ _ eq => exact eq ▸ hthread _ target (hcache target)
  | unaccepted blocked eq => exact eq ▸ hblocked blocked

section
variable (h : KilledProcess env prp sig prp')
include h

theorem KilledProcess.like : Like [(sig.signo, false)] prp prp' :=
  h.keeps (Like.refl prp) (fun _ => (Like.refl prp).congr rfl rfl rfl)
    (fun _ tid h => h.trans (signalKillThread_like env _ tid sig)) fun _ => killUnaccepted_like env prp sig

theorem KilledProcess.active (hact : Active prp) : Active prp' :=
  h.keeps hact (fun _ => hact.congr rfl) (fun _ tid h => signalKillThread_active env tid sig h)
    fun _ => killUnaccepted_active env sig hact

/-- A signal goes on the process only when each thread blocks it. -/
theorem KilledProcess.blocked (hb : Blocked prp) : Blocked prp' :=
  h.keeps hb (fun _ => hb)
    (fun prp1 tid h => h.like (signalKillThread_like env prp1 tid sig) (signalKillThread_pending env prp1 tid sig))
    (killUnaccepted_blocked env hb)

end

theorem signalIgnore_like (prp : Proc) (signo : Nat) : Like [] prp (signalIgnore prp signo) := by
  have hignore : Like [] prp { prp with sigIgnore := sigSet prp.sigIgnore signo } :=
    (Like.refl prp).congr rfl rfl rfl
  exact hignore.trans (signalRemove_like _ signo)

theorem signalIgnore_active (h : Active prp) : Active (signalIgnore prp signo) :=
  signalRemove_active (h.congr rfl)

/-! ## Waiting for signals and clearing them -/

theorem signalWaitinfo_like (prp : Proc) (tid : Nat) (sigWait : SigSet) (timeout : Bool) :
    Like [] prp (signalWaitinfo prp tid sigWait timeout) := by
  rw [signalWaitinfo]
  split
  · exact Like.refl _
  · next thp hthp =>
    dsimp only
    split
    · exact Like.setThread hthp ⟨rfl, rfl, rfl, rfl, tags_pulseRemove _ _⟩
    · split
      · exact ⟨rfl, tags_pulseRemove _ _, fun ht => ⟨_, ht, Thread.Like.refl _⟩⟩
      · split
        · exact Like.refl _
        · have hset : thp.Like [] { thp with state := .sigwaitinfo (sigmaskNoKillstop sigWait) } :=
            ⟨rfl, rfl, rfl, rfl, List.Subset.refl _⟩
          exact (Like.setThread hthp hset).congr rfl rfl rfl

theorem tags_removeAt (n : Nat) (queue : List Pulse) : tags (removeAt n queue) ⊆ tags queue := by
  induction queue generalizing n with
  | nil => cases n <;> exact List.Subset.refl _
  | cons pup queue ih =>
    cases n with
    | zero =>
      rw [removeAt]
      split
      · exact subset_cons_self _ _
      · exact List.Subset.refl _
    | succ n => exact cons_subset_cons _ (ih n)

theorem tags_append_subset {queue1 queue2 queue1' queue2' : List Pulse} (h1 : tags queue1 ⊆ tags queue1')
    (h2 : tags queue2 ⊆ tags queue2') : tags (queue1 ++ queue2) ⊆ tags (queue1' ++ queue2') := by
  rw [tags_append, tags_append]
  exact append_subset.mpr ⟨List.Subset.trans h1 (subset_append_left _ _),
    List.Subset.trans h2 (subset_append_right _ _)⟩

/-- The list that the outer loop of signal_clear_thread comes to is a level and what follows it. -/
theorem level_append_after (pup : Pulse) (rest : List Pulse) :
    pup :: rest.takeWhile (·.key = pup.key) ++ rest.dropWhile (·.key = pup.key) = pup :: rest := by
  rw [cons_append, takeWhile_append_dropWhile]

theorem tags_clearLoop {sigBlocked : SigSet} {test : Pulse → Bool} {signo fuel : Nat} {cleared act : Bool} :
    Ends (clearLoop sigBlocked test signo fuel cleared act queue) fun r => tags r.1 ⊆ tags queue := by
  fun_induction clearLoop sigBlocked test signo fuel cleared act queue with
  | case1 => exact .done (List.Subset.refl _)
  | case2 => exact .fails
  | case3 _ _ _ pup rest =>
    rename_i ih
    rw [← level_append_after pup rest]
    exact (ih.mono fun _ h => tags_append_subset (List.Subset.refl _) h).map
  | case4 _ _ _ pup rest =>
    rename_i ih
    rw [← level_append_after pup rest]
    exact (ih.mono fun _ h => tags_append_subset (tags_removeAt _ _) h).map
  | case5 => exact .fails
  | case6 _ _ _ pup rest =>
    rename_i ih
    rw [← level_append_after pup rest]
    exact (ih.mono fun _ h => tags_append_subset (List.Subset.refl _) (List.Subset.trans h (tags_removeAt _ _))).map
  | case7 _ _ _ pup rest =>
    rename_i ih
    rw [← level_append_after pup rest]
    exact (ih.mono fun _ h => tags_append_subset (List.Subset.refl _) h).map

theorem signalClearThread_like : Ends (signalClearThread prp tid sig) (Like [] prp) := by
  rw [signalClearThread]
  split
  · exact .done (Like.refl _)
  · next thp hthp =>
    refine (tags_clearLoop.mono fun r h => ?_).map
    exact Like.setThread hthp ⟨rfl, rfl, rfl, rfl, h⟩

theorem update_like {f : Thread → Thread} (h : ∀ thp, Thread.Like [] thp (f thp)) :
    Like [] prp (prp.update tid f) := by
  rw [Proc.update]
  split
  · exact Like.refl _
  · next thp hthp => exact Like.setThread hthp (h thp)

end QRV.Nano.Signal
