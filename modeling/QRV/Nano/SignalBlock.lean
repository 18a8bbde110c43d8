import QRV.Nano.SignalKept

/- What signal_block does. It gives a thread its mask, moves the signals of the process
   that the mask lets through to the thread, and goes through the list of the thread:
   signals with a special case are dealt with or dropped, the others make the thread active.

   `blockLoop_kept` is the loop: what it has passed is kept, and an unblocked signal among it
   has made the thread active. `signalBlock_masked` says what the whole call does (`Masked`). -/
namespace QRV.Nano.Signal
open StableQueue List

variable {prp prp' prp'' : Proc} {tid t : Nat} {thp thp' : Thread}
variable {removed : Bool} {pup : Pulse} {rest : List Pulse}

/-! ## The loop of signal_block -/

/-- The pulses that the loop still finds. -/
def left (removed : Bool) (rest : List Pulse) : List Pulse := if removed then signalDiscard sigcont rest else rest

theorem left_cons_skip
    (h : (removed && decide (pup.signo = sigcont) && !pup.boost) = true) :
    left removed (pup :: rest) = left removed rest := by
  simp only [Bool.and_eq_true, decide_eq_true_eq, Bool.not_eq_true'] at h
  simp [left, signalDiscard, h.1.1, h.1.2, h.2]

theorem left_cons_keep
    (h : ¬ (removed && decide (pup.signo = sigcont) && !pup.boost) = true) :
    left removed (pup :: rest) = pup :: left removed rest := by
  cases removed with
  | false => rfl
  | true =>
    have hkeep : (decide (pup.signo ≠ sigcont) || pup.boost) = true := by
      by_cases hcont : pup.signo = sigcont <;> simp_all
    simp only [left, if_true, signalDiscard, filter_cons, hkeep]

theorem signalDiscard_left (removed : Bool) (rest : List Pulse) :
    signalDiscard sigcont (left removed rest) = left true rest := by
  cases removed with
  | false => rfl
  | true => simp [left, signalDiscard, filter_filter]

/-- The stop signals. -/
def Stops (n : Nat) : Prop := n = sigstop ∨ n = sigtstp ∨ n = sigttin ∨ n = sigttou

instance (n : Nat) : Decidable (Stops n) := inferInstanceAs (Decidable (_ ∨ _))

/-- special_case_signalhandling removes SIGCONT for the signal: one that stops the process does not do it any more
when the process is being destroyed. -/
def Frees (prp : Proc) (n : Nat) : Prop := Stops n ∧ (prp.destroyAll = false ∨ n ≠ sigstop ∧ prp.handles n)

instance (prp : Proc) (n : Nat) : Decidable (Frees prp n) := inferInstanceAs (Decidable (_ ∧ _))

/-- What special_case_signalhandling does for a signal other than SIGCONT. -/
theorem specialCase_frees {n : Nat} (hn : n ≠ sigcont) (hthp : prp.thread tid = some thp) :
    let prp' := (specialCaseSignalhandling prp true n false).1
    prp'.handlers = prp.handlers ∧ prp'.destroyAll = (prp.destroyAll || decide (n = sigkill)) ∧
      ∃ thp', prp'.thread tid = some thp' ∧ thp' = if Frees prp n then thp.remove sigcont else thp := by
  have hremoved : ∀ q : Proc, q.threads = prp.threads →
      (signalRemove q sigcont).thread tid = some (thp.remove sigcont) := by
    intro q hq
    rw [thread_signalRemove, thread_congr hq, hthp]
    rfl
  by_cases hs : Stops n
  · have hkill : decide (n = sigkill) = false := by rcases hs with rfl | rfl | rfl | rfl <;> rfl
    have heq : specialCaseSignalhandling prp true n false =
        if n ≠ sigstop ∧ prp.handles n then (signalRemove prp sigcont, none) else stopProcess prp := by
      rw [specialCaseSignalhandling]
      rcases hs with rfl | hs
      · rw [if_neg (by decide), if_pos rfl, if_neg fun h => h.1 rfl]
      · have hne : n ≠ sigstop := by rcases hs with rfl | rfl | rfl <;> decide
        simp only [if_pos hs, hne, ne_eq, not_false_eq_true, true_and]
    rw [heq, hkill, Bool.or_false]
    by_cases hhandles : n ≠ sigstop ∧ prp.handles n
    · rw [if_pos hhandles, if_pos (show Frees prp n from ⟨hs, .inr hhandles⟩)]
      exact ⟨rfl, rfl, _, hremoved prp rfl, rfl⟩
    · rw [if_neg hhandles, stopProcess]
      split
      · next hd =>
        rw [if_neg fun hf : Frees prp n => hf.2.elim (by simp [hd]) hhandles]
        exact ⟨rfl, rfl, _, hthp, rfl⟩
      · next hd =>
        rw [if_pos (show Frees prp n from ⟨hs, .inl (Bool.not_eq_true _ ▸ hd)⟩)]
        split <;> exact ⟨rfl, rfl, _, hremoved _ rfl, rfl⟩
  · rw [if_neg fun hf : Frees prp n => hs hf.1, specialCaseSignalhandling, if_neg fun h => hs (.inr h),
      if_neg fun h => hs (.inl h), if_neg hn]
    split
    · next hother =>
      have hnk : n ≠ sigkill := by rcases hother with rfl | rfl | rfl | rfl <;> decide
      exact ⟨rfl, by simp [hnk], _, hthp, rfl⟩
    · split <;> exact ⟨rfl, by simp [*], _, hthp, rfl⟩

theorem Thread.remove_split {kept rest : List Pulse}
    (hpend : thp.sigPending = kept ++ pup :: left removed rest) (hpup : pup.signo ≠ sigcont)
    (hgone : (thp.remove sigcont).sigPending ≠ thp.sigPending) :
    (thp.remove sigcont).sigPending = signalDiscard sigcont kept ++ pup :: left true rest := by
  by_cases hvalid : thp.valid
  · have hdiscard : (thp.remove sigcont).sigPending = signalDiscard sigcont thp.sigPending := by
      simp only [Thread.remove, hvalid, if_true]
    have hkeep : signalDiscard sigcont (pup :: left removed rest) =
        pup :: signalDiscard sigcont (left removed rest) := by
      simp [signalDiscard, hpup]
    rw [hdiscard, hpend, signalDiscard, filter_append]
    exact congrArg _ (hkeep.trans (by rw [signalDiscard_left]))
  · simp only [Thread.remove, hvalid] at hgone
    exact absurd rfl hgone

section
variable {kept rest : List Pulse} {gone : Bool} (hthp' : thp' = thp ∨ thp' = thp.remove sigcont)
  (hpend : thp.sigPending = kept ++ pup :: left removed rest) (hpup : pup.signo ≠ sigcont)
  (hgone : gone = decide (thp'.sigPending ≠ thp.sigPending))
include hthp' hpend hpup hgone

theorem Thread.special_pending :
    thp'.sigPending = (if gone then signalDiscard sigcont kept else kept) ++ pup :: left (removed || gone) rest := by
  cases gone with
  | false =>
    rw [Bool.or_false, (not_not.mp (of_decide_eq_false hgone.symm))]
    exact hpend
  | true =>
    rw [Bool.or_true]
    rcases hthp' with rfl | rfl
    · exact absurd rfl (of_decide_eq_true hgone.symm)
    · exact Thread.remove_split hpend hpup (of_decide_eq_true hgone.symm)

theorem Thread.special_active
    (hact : ∀ pup ∈ kept, sigTst thp.sigBlocked pup.signo = false → thp.sigActive = true) :
    ∀ pup ∈ (if gone then signalDiscard sigcont kept else kept),
      sigTst thp'.sigBlocked pup.signo = false → thp'.sigActive = true := by
  have hlist := Thread.special_pending hthp' hpend hpup hgone
  rcases hthp' with rfl | rfl
  · have hsame : gone = false := by simp [hgone]
    rw [hsame]
    exact hact
  · intro q hq hfree
    rw [(thp.remove_like sigcont).sigBlocked] at hfree
    have hkept : q ∈ kept := by
      cases gone with
      | false => exact hq
      | true => exact mem_of_mem_filter hq
    refine Thread.remove_active (fun _ => hact q hkept hfree) (Thread.due_iff.mpr ⟨(q.signo, q.boost), ?_, ?_⟩)
    · rw [hlist]
      exact mem_tags.mpr ⟨q, mem_append_left _ hq, rfl⟩
    · rw [(thp.remove_like sigcont).sigBlocked]
      exact hfree

end

/-- The loop of signal_block keeps masks, adds no signal and leaves the thread active if a signal is due. -/
theorem blockLoop_kept {kept : List Pulse} (hthp : prp.thread tid = some thp)
    (hpend : thp.sigPending = kept ++ left removed rest)
    (hact : ∀ pup ∈ kept, sigTst thp.sigBlocked pup.signo = false → thp.sigActive = true)
    (h : blockLoop tid prp removed kept rest = some prp') :
    Like [] prp prp' ∧ (ActiveOff tid prp → Active prp') := by
  induction rest generalizing prp removed kept thp with
  | nil =>
    cases h
    refine ⟨Like.refl _, fun hoff => hoff.active hthp fun hdue => ?_⟩
    rw [Thread.due, any_eq_true] at hdue
    obtain ⟨pup, hmem, hfree⟩ := hdue
    rw [hpend] at hmem
    have hkept : pup ∈ kept := by cases removed <;> simpa [left, signalDiscard] using hmem
    exact hact pup hkept (by simpa using hfree)
  | cons pup rest ih =>
    -- the two ways to go on with a changed thread: active because of the pulse, or without the pulse
    have hstay : ∀ {prp : Proc} {thp : Thread} {removed : Bool} {kept : List Pulse}, prp.thread tid = some thp →
        thp.sigPending = kept ++ pup :: left removed rest →
        blockLoop tid (prp.setThread tid { thp with sigActive := true }) removed (kept ++ [pup]) rest = some prp' →
        Like [] prp prp' ∧ (ActiveOff tid prp → Active prp') := by
      intro prp thp removed kept hthp hpend h
      have hself : (prp.setThread tid { thp with sigActive := true }).thread tid =
          some { thp with sigActive := true } := thread_setThread_self hthp
      have hpend' : thp.sigPending = kept ++ [pup] ++ left removed rest := by
        rw [hpend, append_assoc, singleton_append]
      obtain ⟨hlike, hactive⟩ := ih hself hpend' (fun _ _ _ => rfl) h
      have hset : thp.Like [] { thp with sigActive := true } := ⟨rfl, rfl, rfl, rfl, List.Subset.refl _⟩
      exact ⟨(Like.setThread hthp hset).trans hlike, fun hoff => hactive (hoff.setThread hthp)⟩
    have hdrop : ∀ {prp : Proc} {thp : Thread} {removed : Bool} {kept : List Pulse}, prp.thread tid = some thp →
        thp.sigPending = kept ++ pup :: left removed rest →
        (∀ pup ∈ kept, sigTst thp.sigBlocked pup.signo = false → thp.sigActive = true) →
        blockLoop tid (prp.setThread tid { thp with sigPending := kept ++ left removed rest }) removed kept rest =
          some prp' → Like [] prp prp' ∧ (ActiveOff tid prp → Active prp') := by
      intro prp thp removed kept hthp hpend hact h
      have hself : (prp.setThread tid { thp with sigPending := kept ++ left removed rest }).thread tid =
          some { thp with sigPending := kept ++ left removed rest } := thread_setThread_self hthp
      obtain ⟨hlike, hactive⟩ := ih hself rfl hact h
      have hset : thp.Like [] { thp with sigPending := kept ++ left removed rest } := by
        refine ⟨rfl, rfl, rfl, rfl, ?_⟩
        rw [hpend]
        exact tags_sublist ((sublist_cons_self _ _).append_left _)
      exact ⟨(Like.setThread hthp hset).trans hlike, fun hoff => hactive (hoff.setThread hthp)⟩
    rw [blockLoop, hthp] at h
    dsimp only at h
    split at h
    · next hskip =>
      rw [left_cons_skip hskip] at hpend
      exact ih hthp hpend hact h
    · next hkeep =>
      rw [left_cons_keep hkeep] at hpend
      split at h
      · next hblocked =>
        have hpend' : thp.sigPending = kept ++ [pup] ++ left removed rest := by
          rw [hpend, append_assoc, singleton_append]
        refine ih hthp hpend' (fun q hq hfree => ?_) h
        rcases mem_append.mp hq with hq | hq
        · exact hact q hq hfree
        · rw [mem_singleton.mp hq, hblocked] at hfree
          cases hfree
      · split at h
        · split at h
          · exact hstay hthp hpend h
          · exact hdrop hthp hpend hact h
        · next hcont =>
          have hspecial := specialCase_special prp true pup.signo false
          obtain ⟨-, -, thp1, hthp1, hif⟩ := specialCase_frees hcont hthp
          generalize specialCaseSignalhandling prp true pup.signo false = res at h hspecial hthp1
          obtain ⟨prp1, status⟩ := res
          have hcase : thp1 = thp ∨ thp1 = thp.remove sigcont := by rw [hif]; split <;> simp
          rw [hthp1] at h
          dsimp only at h
          have hpend1 := Thread.special_pending hcase hpend hcont rfl
          have hact1 := Thread.special_active hcase hpend hcont rfl hact
          split at h
          · cases h
          · split at h
            · obtain ⟨hlike, hactive⟩ := hstay hthp1 hpend1 h
              exact ⟨hspecial.like.trans hlike, fun hoff => hactive (hspecial.activeOff hoff)⟩
            · obtain ⟨hlike, hactive⟩ := hdrop hthp1 hpend1 hact1 h
              exact ⟨hspecial.like.trans hlike, fun hoff => hactive (hspecial.activeOff hoff)⟩

/-- A thread that signal_block has left: the mask is the new one, and a signal that is due makes it active. -/
structure Thread.Masked (mask : SigSet) (moved : List (Nat × Bool)) (thp thp' : Thread) : Prop where
  sigBlocked : thp'.sigBlocked = mask
  sigSuspend : thp'.sigSuspend = thp.sigSuspend
  saved : thp'.saved = thp.saved
  dying : thp'.dying = thp.dying
  pending : tags thp'.sigPending ⊆ moved ++ tags thp.sigPending

/-- What signal_block does: the thread has the mask, and signals come to it from the process. -/
structure Masked (tid : Nat) (mask : SigSet) (prp prp' : Proc) : Prop where
  handlers : prp'.handlers = prp.handlers
  pending : tags prp'.sigPending ⊆ tags prp.sigPending
  free : ∀ tag ∈ tags prp'.sigPending, sigTst mask tag.1 = true
  thread : ∀ {t : Nat} {thp' : Thread}, prp'.thread t = some thp' → ∃ thp, prp.thread t = some thp ∧
    if t = tid then thp.Masked mask (tags prp.sigPending) thp' else thp.Like [] thp'

theorem tags_foldl_enqueue (moved queue : List Pulse) :
    tags (moved.foldl (fun queue pup => enqueue Pulse.key pup queue) queue) ⊆ tags moved ++ tags queue := by
  induction moved generalizing queue with
  | nil => exact List.Subset.refl _
  | cons pup moved ih =>
    intro tag htag
    rcases mem_append.mp (ih _ htag) with hmoved | hqueue
    · exact mem_append_left _ (.tail _ hmoved)
    · rcases mem_cons.mp (tags_enqueue pup queue hqueue) with rfl | hold
      · exact mem_append_left _ mem_cons_self
      · exact mem_append_right _ hold

/-- The list of the thread once the signals of the process have come to it. -/
theorem tags_moved (prp : Proc) (thp : Thread) (mask : SigSet) :
    tags ((prp.sigPending.filter fun pup => !sigTst mask pup.signo).foldl
      (fun queue pup => enqueue Pulse.key pup queue) thp.sigPending) ⊆ tags prp.sigPending ++ tags thp.sigPending := by
  intro tag htag
  rcases mem_append.mp (tags_foldl_enqueue _ thp.sigPending htag) with hin | hin
  · exact mem_append_left _ (tags_sublist filter_sublist hin)
  · exact mem_append_right _ hin

theorem blocking_masked (mask : SigSet) {pending : List Pulse} (hthp : prp.thread tid = some thp)
    (hpending : tags pending ⊆ tags prp.sigPending ++ tags thp.sigPending) :
    Masked tid mask prp
      ({ prp with sigPending := prp.sigPending.filter fun pup => sigTst mask pup.signo }.setThread tid
        { thp with sigBlocked := mask, sigPending := pending, sigActive := false }) where
  handlers := rfl
  pending := tags_sublist filter_sublist
  free := by
    intro tag htag
    obtain ⟨pup, hpup, rfl⟩ := mem_tags.mp htag
    exact (mem_filter.mp hpup).2
  thread := by
    intro t thp' ht
    have hthp0 : { prp with sigPending := prp.sigPending.filter fun pup => sigTst mask pup.signo }.thread tid =
      some thp := hthp
    rw [thread_setThread hthp0] at ht
    split at ht
    · next heq =>
      cases ht
      refine ⟨thp, heq ▸ hthp, ?_⟩
      rw [if_pos heq]
      exact ⟨rfl, rfl, rfl, rfl, hpending⟩
    · next hne =>
      refine ⟨thp', ht, ?_⟩
      rw [if_neg hne]
      exact Thread.Like.refl _

theorem Masked.like {mask : SigSet} (h : Masked tid mask prp prp') (hlike : Like [] prp' prp'') :
    Masked tid mask prp prp'' where
  handlers := hlike.handlers.trans h.handlers
  pending := List.Subset.trans hlike.pending h.pending
  free tag htag := h.free tag (hlike.pending htag)
  thread := by
    intro t thp'' ht
    obtain ⟨thp', ht', hlike'⟩ := hlike.thread ht
    obtain ⟨thp, hthp, hold⟩ := h.thread ht'
    refine ⟨thp, hthp, ?_⟩
    split
    · next heq =>
      rw [if_pos heq] at hold
      exact ⟨hlike'.sigBlocked.trans hold.sigBlocked, hlike'.sigSuspend.trans hold.sigSuspend,
        hlike'.saved.trans hold.saved, hlike'.dying.trans hold.dying,
        List.Subset.trans hlike'.pending hold.pending⟩
    · next hne =>
      rw [if_neg hne] at hold
      exact hold.trans hlike'

theorem signalBlock_masked {sigBlocked : SigSet} (hthp : prp.thread tid = some thp)
    (h : signalBlock prp tid sigBlocked = some prp') :
    Masked tid (sigmaskNoKillstop sigBlocked) prp prp' ∧ (ActiveOff tid prp → Active prp') := by
  rw [signalBlock, hthp] at h
  dsimp only at h
  generalize hmask : sigmaskNoKillstop sigBlocked = mask at h ⊢
  have hpending := tags_moved prp thp mask
  generalize (prp.sigPending.filter _).foldl _ thp.sigPending = pending at h hpending
  have hstart := blocking_masked mask hthp hpending
  generalize hprp0 : { prp with sigPending := prp.sigPending.filter fun pup => sigTst mask pup.signo } = prp0
    at h hstart
  have hthp0 : prp0.thread tid = some thp := by rw [← hprp0]; exact hthp
  obtain ⟨prp1, hloop, rfl⟩ := Option.map_eq_some_iff.mp h
  obtain ⟨hlike, hactive⟩ := blockLoop_kept (thread_setThread_self hthp0) (nil_append _).symm
    (fun _ h => absurd h not_mem_nil) hloop
  refine ⟨(hstart.like hlike).like ?_, fun hoff => ?_⟩
  · split
    · exact Like.refl _
    · next thp1 hthp1 =>
      split
      · exact Like.setThread hthp1 (Thread.forceReady_like _)
      · exact Like.refl _
  · have hoff0 : ActiveOff tid prp0 := hoff.congr (by rw [← hprp0])
    have hact := hactive (hoff0.setThread hthp0)
    split
    · exact hact
    · next thp1 hthp1 =>
      split
      · next hsig =>
        refine Active.setThread hact.off hthp1 fun _ => ?_
        rw [Thread.forceReady_sigActive]
        exact hsig
      · exact hact

end QRV.Nano.Signal
