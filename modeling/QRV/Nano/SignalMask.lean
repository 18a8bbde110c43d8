import QRV.Nano.SignalBlock

/- Which signals a thread can block. SIGKILL and SIGSTOP are never blocked, and the eight
   signals of SIGMASK_SPECIAL always, in each mask that the kernel itself makes: the masks of
   new threads, of SignalProcmask and of SignalSuspend, the mask that SignalSuspend saves, and
   the mask of a handler. `Masks` collects these and each call keeps it.

   SignalReturn takes the mask from the stack of the user. It removes SIGKILL and SIGSTOP
   but does not add the special signals, so the second rule holds as long as the mask found
   there has them. -/
namespace QRV.Nano.Signal
open Call List Option

variable {new : List (Nat × Bool)} {prp prp' prp'' : Proc} {tid t : Nat} {thp thp' : Thread} {tag : Nat × Bool}
variable {mask : SigSet} {signo : Nat} {kill : Kill} {sig : Sig} {op : Op}

/-- SIGKILL and SIGSTOP are not in the mask. -/
def NoKillstop (mask : SigSet) : Prop := sigTst mask sigkill = false ∧ sigTst mask sigstop = false

/-- The signals of SIGMASK_SPECIAL are. -/
def HasSpecial (mask : SigSet) : Prop := ∀ n ≤ sigMax, 57 ≤ n → sigTst mask n = true

instance (mask : SigSet) : Decidable (NoKillstop mask) := inferInstanceAs (Decidable (_ ∧ _))
instance (mask : SigSet) : Decidable (HasSpecial mask) := inferInstanceAs (Decidable (∀ n ≤ sigMax, _ → _))

def MaskOk (mask : SigSet) : Prop := NoKillstop mask ∧ HasSpecial mask

theorem noKillstop_sigmask (mask : SigSet) : NoKillstop (sigmaskNoKillstop mask) :=
  ⟨by rw [sigTst_noKillstop (by decide)]; simp, by rw [sigTst_noKillstop (by decide)]; simp⟩

theorem HasSpecial.noKillstop (h : HasSpecial mask) : MaskOk (sigmaskNoKillstop mask) := by
  refine ⟨noKillstop_sigmask mask, fun n hn htop => ?_⟩
  have hne : ¬ (n = sigkill ∨ n = sigstop) := by simp only [sigkill, sigstop]; omega
  rw [sigTst_noKillstop hn, h n hn htop, decide_eq_false hne]
  rfl

theorem hasSpecial_sigmask (mask : SigSet) : HasSpecial (sigmaskSpecial mask) := by
  intro n hn htop
  rw [sigTst_special hn, decide_eq_true htop, Bool.or_true]

/-- Blocking more, for a handler: the mask of the handler, and the signal itself. -/
theorem MaskOk.or {mask mask' : SigSet} (h : MaskOk mask) (h' : NoKillstop mask') : MaskOk (mask ||| mask') := by
  refine ⟨⟨?_, ?_⟩, fun n hn htop => ?_⟩
  · rw [sigTst_or, h.1.1, h'.1]
    rfl
  · rw [sigTst_or, h.1.2, h'.2]
    rfl
  · rw [sigTst_or, h.2 n hn htop, Bool.true_or]

theorem MaskOk.sigSet (h : MaskOk mask) (hpos : 0 < signo)
    (hkill : signo ≠ sigkill) (hstop : signo ≠ sigstop) : MaskOk (sigSet mask signo) := by
  have hkill' : ¬ sigkill - 1 = signo - 1 := by simp only [sigkill] at hkill ⊢; omega
  have hstop' : ¬ sigstop - 1 = signo - 1 := by simp only [sigstop] at hstop ⊢; omega
  refine ⟨⟨?_, ?_⟩, fun n hn htop => ?_⟩
  · rw [sigTst_sigSet (by decide), h.1.1, decide_eq_false hkill']
    rfl
  · rw [sigTst_sigSet (by decide), h.1.2, decide_eq_false hstop']
    rfl
  · rw [sigTst_sigSet hn, h.2 n hn htop, Bool.true_or]

theorem MaskOk.sigClr (h : MaskOk mask) (hlow : signo < 57) :
    MaskOk (sigClr mask signo) := by
  refine ⟨⟨?_, ?_⟩, fun n hn htop => ?_⟩
  · rw [sigTst_sigClr (by decide), h.1.1, Bool.false_and]
  · rw [sigTst_sigClr (by decide), h.1.2, Bool.false_and]
  · have hne : n - 1 ≠ signo - 1 := by omega
    rw [sigTst_sigClr hn, h.2 n hn htop, decide_eq_false hne]
    rfl

/-! ## The masks of a process -/

/-- The mask of the thread, and the one that it has saved. -/
def Thread.MasksOk (thp : Thread) : Prop :=
  thp.dying = false → MaskOk thp.sigBlocked ∧ (thp.sigSuspend = true → MaskOk thp.saved)

/-- What is entered for a signal: there is no handler for SIGKILL and SIGSTOP, and none blocks them. -/
def Handler.MaskOk (signo : Nat) (shp : Handler) : Prop :=
  NoKillstop shp.sigBlocked ∧ (shp.handler = true → 0 < signo ∧ signo ≠ sigkill ∧ signo ≠ sigstop)

structure Masks (prp : Proc) : Prop where
  thread : ∀ {tid : Nat} {thp : Thread}, prp.thread tid = some thp → thp.MasksOk
  handler : ∀ {signo : Nat} {shp : Handler}, prp.handlers signo = some shp → shp.MaskOk signo

theorem Thread.MasksOk.like (h : thp.MasksOk) (hlike : thp.Like new thp') : thp'.MasksOk := by
  intro hdying
  rw [hlike.sigBlocked, hlike.sigSuspend, hlike.saved]
  exact h (hlike.dying ▸ hdying)

theorem Masks.like (h : Masks prp) (hlike : Like new prp prp') : Masks prp' where
  thread ht := by
    obtain ⟨thp, hthp, hl⟩ := hlike.thread ht
    exact (h.thread hthp).like hl
  handler hshp := h.handler (hlike.handlers ▸ hshp)

theorem Masks.setThread (h : Masks prp) (hthp : prp.thread tid = some thp) (hok : thp'.MasksOk) :
    Masks (prp.setThread tid thp') where
  thread ht := by
    rw [thread_setThread hthp] at ht
    split at ht
    · cases ht
      exact hok
    · exact h.thread ht
  handler := h.handler

theorem Masks.setHandler {shp : Option Handler} (h : Masks prp)
    (hshp : ∀ shp', shp = some shp' → shp'.MaskOk signo) :
    Masks { prp with handlers := Function.update prp.handlers signo shp } where
  thread := h.thread
  handler := by
    intro n shp' hn
    by_cases heq : n = signo
    · subst heq
      exact hshp shp' (by simpa using hn)
    · exact h.handler (by simpa [heq] using hn)

theorem Masks.masked (h : Masks prp) (hmasked : Masked tid mask prp prp') (hmask : MaskOk mask) :
    Masks prp' where
  thread := by
    intro t thp' ht
    obtain ⟨thp, hthp, hcase⟩ := hmasked.thread ht
    split at hcase
    · intro hdying
      rw [hcase.sigBlocked, hcase.sigSuspend, hcase.saved]
      exact ⟨hmask, (h.thread hthp (hcase.dying ▸ hdying)).2⟩
    · exact (h.thread hthp).like hcase
  handler hshp := h.handler (hmasked.handlers ▸ hshp)

theorem Thread.masksOk_of_dying (h : thp.dying = true) : thp.MasksOk := by
  intro hno
  rw [h] at hno
  cases hno

/-! ## Calls that send no signal -/

/-- The signal is on the list of the process or of a thread. -/
def On (prp : Proc) (tag : Nat × Bool) : Prop :=
  tag ∈ tags prp.sigPending ∨ ∃ tid thp, prp.thread tid = some thp ∧ tag ∈ tags thp.sigPending

theorem Like.on (h : Like new prp prp') (hon : On prp' tag) : tag ∈ new ∨ On prp tag := by
  rcases hon with hp | ⟨t, thp', ht, htag⟩
  · exact (mem_append.mp (h.pending hp)).imp id .inl
  · obtain ⟨thp, hthp, hlike⟩ := h.thread ht
    exact (mem_append.mp (hlike.pending htag)).imp id fun hold => .inr ⟨t, thp, hthp, hold⟩

/-- Nothing becomes pending. -/
def Fewer (prp prp' : Proc) : Prop := ∀ tag, On prp' tag → On prp tag

/-- Nothing becomes pending, and the masks stay as they should be. -/
structure Quiet (prp prp' : Proc) : Prop where
  fewer : Fewer prp prp'
  masks : Masks prp → Masks prp'

theorem Like.quiet (h : Like [] prp prp') : Quiet prp prp' :=
  ⟨fun _ hon => (h.on hon).resolve_left not_mem_nil, fun hmasks => hmasks.like h⟩

theorem Quiet.refl (prp : Proc) : Quiet prp prp := (Like.refl prp).quiet

theorem Quiet.trans (h : Quiet prp prp') (h' : Quiet prp' prp'') : Quiet prp prp'' :=
  ⟨fun tag hon => h.fewer tag (h'.fewer tag hon), fun hmasks => h'.masks (h.masks hmasks)⟩

theorem Quiet.congr (h : Quiet prp prp') (hhandlers : prp''.handlers = prp'.handlers)
    (hpending : prp''.sigPending = prp'.sigPending) (hthreads : prp''.threads = prp'.threads) : Quiet prp prp'' :=
  h.trans ((Like.refl prp').congr hhandlers hpending hthreads).quiet

theorem On.setThread (hthp : prp.thread tid = some thp) (hon : On (prp.setThread tid thp') tag) :
    On prp tag ∨ tag ∈ tags thp'.sigPending := by
  rcases hon with hp | ⟨t, thp'', ht, htag⟩
  · exact .inl (.inl hp)
  · rw [thread_setThread hthp] at ht
    split at ht
    · cases ht
      exact .inr htag
    · exact .inl (.inr ⟨t, thp'', ht, htag⟩)

theorem Fewer.setThread (hthp : prp.thread tid = some thp) (hpending : tags thp'.sigPending ⊆ tags thp.sigPending) :
    Fewer prp (prp.setThread tid thp') := fun _ hon =>
  (hon.setThread hthp).elim id fun hnew => .inr ⟨tid, thp, hthp, hpending hnew⟩

theorem Quiet.setThread (h : Quiet prp prp') (hthp : prp'.thread tid = some thp)
    (hpending : tags thp'.sigPending ⊆ tags thp.sigPending) (hok : Masks prp → thp'.MasksOk) :
    Quiet prp (prp'.setThread tid thp') :=
  ⟨fun tag hon => h.fewer tag (Fewer.setThread hthp hpending tag hon), fun hmasks =>
    (h.masks hmasks).setThread hthp (hok hmasks)⟩

theorem Quiet.setThread_like (hthp : prp.thread tid = some thp) (hlike : thp.Like [] thp') :
    Quiet prp (prp.setThread tid thp') := (Like.setThread hthp hlike).quiet

theorem Quiet.setHandler {shp : Option Handler} (h : Quiet prp prp')
    (hshp : Masks prp' → ∀ shp', shp = some shp' → shp'.MaskOk signo) :
    Quiet prp { prp' with handlers := Function.update prp'.handlers signo shp } :=
  ⟨fun tag hon => h.fewer tag hon, fun hmasks => (h.masks hmasks).setHandler (hshp (h.masks hmasks))⟩

theorem Quiet.reset (h : Quiet prp prp') {f : Handler → Handler}
    (hf : ∀ shp, (f shp).sigBlocked = shp.sigBlocked ∧ (f shp).handler = false) :
    Quiet prp { prp' with handlers := Function.update prp'.handlers signo ((prp'.handlers signo).map f) } := by
  refine h.setHandler fun hmasks shp' hshp' => ?_
  obtain ⟨shp, hshp, rfl⟩ := map_eq_some_iff.mp hshp'
  refine ⟨(hf shp).1 ▸ (hmasks.handler hshp).1, fun hno => ?_⟩
  rw [(hf shp).2] at hno
  cases hno

theorem Quiet.unhandle (h : Quiet prp prp') (signo : Nat) : Quiet prp (prp'.unhandle signo) :=
  h.reset fun _ => ⟨rfl, rfl⟩

/-! ## The calls -/

theorem Masked.fewer (h : Masked tid mask prp prp') : Fewer prp prp' := by
  rintro tag (hp | ⟨t, thp', ht, htag⟩)
  · exact .inl (h.pending hp)
  · obtain ⟨thp, hthp, hcase⟩ := h.thread ht
    split at hcase
    · rcases mem_append.mp (hcase.pending htag) with hmoved | hold
      · exact .inl hmoved
      · exact .inr ⟨t, thp, hthp, hold⟩
    · exact .inr ⟨t, thp, hthp, hcase.pending htag⟩

theorem signalBlock_cases (prp : Proc) (tid : Nat) (mask : SigSet) :
    Ends (signalBlock prp tid mask) fun prp' => prp' = prp ∨ Masked tid (sigmaskNoKillstop mask) prp prp' := by
  intro prp' h
  cases hthp : prp.thread tid with
  | none =>
    rw [signalBlock, hthp] at h
    exact .inl (some.inj h).symm
  | some thp => exact .inr (signalBlock_masked hthp h).1

theorem signalBlock_fewer : Ends (signalBlock prp tid mask) (Fewer prp) :=
  (signalBlock_cases prp tid mask).mono fun _ h => h.elim (fun heq => heq ▸ fun _ hon => hon) Masked.fewer

theorem signalBlock_quiet (hmask : HasSpecial mask) : Ends (signalBlock prp tid mask) (Quiet prp) :=
  (signalBlock_cases prp tid mask).mono fun _ h => h.elim (fun heq => heq ▸ .refl prp) fun hmasked =>
    ⟨hmasked.fewer, fun hmasks => hmasks.masked hmasked hmask.noKillstop⟩

theorem signalProcmask_quiet {how : How} : Ends (signalProcmask prp tid how mask) (Quiet prp) := by
  rw [signalProcmask]
  split
  · exact .done (.refl prp)
  · exact signalBlock_quiet (hasSpecial_sigmask _)

/-- What SignalSuspend does: it saves the mask and calls signal_block, and then waits, goes on for a signal
or restores the mask. -/
theorem signalSuspend_cases {how : Suspend} (hcall : signalSuspend prp tid mask how = some prp') :
    prp' = prp ∨ ∃ thp prp1 thp1, prp.thread tid = some thp ∧
      signalBlock (prp.setThread tid { thp with saved := thp.sigBlocked }) tid (sigmaskSpecial mask) = some prp1 ∧
      tags prp1.sigPending ⊆ tags prp.sigPending ∧ prp1.thread tid = some thp1 ∧
      Thread.Masked (sigmaskNoKillstop (sigmaskSpecial mask)) (tags prp.sigPending)
        { thp with saved := thp.sigBlocked } thp1 ∧
      (thp1.sigActive = true ∧ prp' = prp1.setThread tid { thp1 with sigSuspend := true } ∨
        thp1.sigActive = false ∧
          (how = .timeout ∧ prp' = prp1.setThread tid { thp1 with sigBlocked := thp1.saved } ∨
            how = .cancel ∧ prp' = prp1 ∨
            prp' = { prp1.setThread tid { thp1 with state := .other, sigSuspend := true } with
              sigtidCache := tid })) := by
  rw [signalSuspend] at hcall
  split at hcall
  · exact .inl (some.inj hcall).symm
  · next thp hthp =>
    simp only [bind_eq_bind, bind_eq_some_iff] at hcall
    obtain ⟨prp1, hblock, thp1, hthp1, hcall⟩ := hcall
    have hself : (prp.setThread tid { thp with saved := thp.sigBlocked }).thread tid =
        some { thp with saved := thp.sigBlocked } := thread_setThread_self hthp
    obtain ⟨hmasked, -⟩ := signalBlock_masked hself hblock
    obtain ⟨thp0, hthp0, hthread⟩ := hmasked.thread hthp1
    rw [hself] at hthp0
    cases hthp0
    rw [if_pos rfl] at hthread
    refine .inr ⟨thp, prp1, thp1, hthp, hblock, hmasked.pending, hthp1, hthread, ?_⟩
    split at hcall
    · next hact => exact .inl ⟨hact, (some.inj hcall).symm⟩
    · next hact =>
      refine .inr ⟨Bool.eq_false_iff.mpr hact, ?_⟩
      cases how with
      | timeout => exact .inl ⟨rfl, (some.inj hcall).symm⟩
      | cancel => exact .inr (.inl ⟨rfl, (some.inj hcall).symm⟩)
      | block => exact .inr (.inr (some.inj hcall).symm)

theorem signalSuspend_quiet {how : Suspend} : Ends (signalSuspend prp tid mask how) (Quiet prp) := by
  intro prp' hcall
  rcases signalSuspend_cases hcall with rfl | ⟨thp, prp1, thp1, hthp, hblock, -, hthp1, hthread, hcase⟩
  · exact .refl _
  · have hsaved : Quiet prp (prp.setThread tid { thp with saved := thp.sigBlocked }) :=
      (Quiet.refl prp).setThread hthp (List.Subset.refl _) fun h hdying =>
        ⟨(h.thread hthp hdying).1, fun _ => (h.thread hthp hdying).1⟩
    have hquiet := hsaved.trans (signalBlock_quiet (hasSpecial_sigmask mask) _ hblock)
    -- the mask of the thread before the call is what it has saved
    have hok : Masks prp → thp1.dying = false → MaskOk thp1.sigBlocked ∧ MaskOk thp1.saved := by
      intro h hdying
      rw [hthread.saved]
      exact ⟨((hquiet.masks h).thread hthp1 hdying).1, (h.thread hthp (hthread.dying ▸ hdying)).1⟩
    rcases hcase with ⟨-, rfl⟩ | ⟨-, ⟨-, rfl⟩ | ⟨-, rfl⟩ | rfl⟩
    · exact hquiet.setThread hthp1 (List.Subset.refl _) fun h hdying => ⟨(hok h hdying).1, fun _ => (hok h hdying).2⟩
    · exact hquiet.setThread hthp1 (List.Subset.refl _) fun h hdying => ⟨(hok h hdying).2, fun _ => (hok h hdying).2⟩
    · exact hquiet
    · have hset : Quiet prp (prp1.setThread tid { thp1 with state := .other, sigSuspend := true }) :=
        hquiet.setThread hthp1 (List.Subset.refl _) fun h hdying => ⟨(hok h hdying).1, fun _ => (hok h hdying).2⟩
      exact hset.congr rfl rfl rfl

theorem signalAction_quiet {action : Action} {siginfo resetHand noDefer : Bool} :
    Quiet prp (signalAction prp signo action siginfo resetHand noDefer) := by
  have hreset : Quiet prp (prp.resetAction signo siginfo resetHand noDefer) :=
    ((Quiet.refl prp).reset (f := ({ · with handler := false, resetHand := resetHand, noDefer := noDefer }))
      fun _ => ⟨rfl, rfl⟩).congr rfl rfl rfl
  unfold signalAction
  dsimp only
  generalize prp.resetAction signo siginfo resetHand noDefer = prp' at hreset
  have hignore := hreset.trans (signalIgnore_like prp' signo).quiet
  split
  · exact .refl _
  · next hrange =>
    cases action with
    | ignore =>
      dsimp only
      split
      · exact .refl _
      · exact hignore
    | default =>
      dsimp only
      split
      · exact hignore.congr rfl rfl rfl
      · exact hreset.congr rfl rfl rfl
    | reserved =>
      dsimp only
      split
      · exact .refl _
      · exact hreset
    | handle sigBlocked alloc =>
      dsimp only
      split
      · exact .refl _
      · next honly =>
        have hcleared : Quiet prp { prp' with sigIgnore := Signal.sigClr prp'.sigIgnore signo } :=
          hreset.congr rfl rfl rfl
        split
        · exact hcleared
        · refine hcleared.setHandler fun _ shp' hshp' => ?_
          cases hshp'
          exact ⟨noKillstop_sigmask sigBlocked, fun _ => ⟨by omega, fun hkill => honly (.inl hkill),
            fun hstop => honly (.inr hstop)⟩⟩

/-! ## Delivery, faults and threads -/

theorem thread_gone (ht : ({ prp with threads := prp.threads.set tid none } : Proc).thread t = some thp) :
    t ≠ tid ∧ prp.thread t = some thp := by
  simp only [Proc.thread, getElem?_set] at ht
  split at ht
  · split at ht <;> cases ht
  · next hne => exact ⟨Ne.symm hne, ht⟩

theorem threadDestroy_quiet (stage : Destroy) (hthp : prp.thread tid = some thp) :
    Quiet prp (threadDestroy prp tid thp stage) := by
  cases stage with
  | started =>
    exact (Quiet.refl prp).setThread hthp (List.Subset.refl _) fun _ => Thread.masksOk_of_dying rfl
  | dead => exact (Quiet.refl prp).setThread hthp (nil_subset _) fun _ => Thread.masksOk_of_dying rfl
  | gone =>
    have hless : Like [] prp { prp with threads := prp.threads.set tid none } :=
      ⟨rfl, List.Subset.refl _, fun ht => ⟨_, (thread_gone ht).2, Thread.Like.refl _⟩⟩
    rw [threadDestroy]
    split
    · exact Like.quiet ⟨rfl, nil_subset _, hless.thread⟩
    · exact hless.quiet

theorem threadDestroyall_quiet (hthp : prp.thread tid = some thp')
    (hpending : tags thp.sigPending ⊆ tags thp'.sigPending) : Quiet prp (threadDestroyall prp tid thp) := by
  have hset : Quiet prp (prp.setThread tid { thp with sigActive := false, sigSuspend := false, dying := true
                                                      sigBlocked := sigmaskOnes }) :=
    (Quiet.refl prp).setThread hthp hpending fun _ => Thread.masksOk_of_dying rfl
  exact hset.congr rfl rfl rfl

theorem killit_quiet {pup : Pulse} {active : Bool} (hthp : prp.thread tid = some thp) :
    Quiet prp (killit prp tid thp pup active kill) := by
  unfold killit
  cases kill with
  | debugged =>
    dsimp only
    split
    · exact .setThread_like hthp ⟨rfl, rfl, rfl, rfl, tags_pulseRemove _ _⟩
    · exact threadDestroyall_quiet hthp (List.Subset.refl _)
  | thread stage =>
    have hset : Quiet prp (prp.setThread tid { thp with sigActive := active }) :=
      .setThread_like hthp ⟨rfl, rfl, rfl, rfl, List.Subset.refl _⟩
    exact hset.trans (threadDestroy_quiet stage (thread_setThread_self hthp))
  | coredump =>
    exact (Quiet.refl prp).setThread hthp (List.Subset.refl _) fun h hdying =>
      ⟨(h.thread hthp hdying).1, fun hno => absurd hno Bool.false_ne_true⟩
  | process => exact threadDestroyall_quiet hthp (List.Subset.refl _)

theorem enterHandler_quiet {shp : Handler} {active : Bool} (hthp : prp.thread tid = some thp)
    (hshp : prp.handlers signo = some shp) (hhandler : shp.handler = true) :
    Quiet prp (enterHandler prp tid thp signo shp active) := by
  rw [enterHandler]
  generalize hmask' : (if (shp.noDefer || shp.resetHand) = true then thp.sigBlocked
    else Signal.sigSet thp.sigBlocked signo) ||| shp.sigBlocked = mask
  generalize hset : prp.setThread tid _ = prp'
  have hquiet : Quiet prp prp' := by
    rw [← hset]
    refine (Quiet.refl prp).setThread hthp (tags_pulseRemove _ _) fun h hdying =>
      ⟨?_, fun hno => absurd hno Bool.false_ne_true⟩
    obtain ⟨hmask, hsig⟩ := h.handler hshp
    obtain ⟨hpos, hkill, hstop⟩ := hsig hhandler
    have hok := (h.thread hthp hdying).1
    rw [← hmask']
    refine MaskOk.or ?_ hmask
    split
    · exact hok
    · exact hok.sigSet hpos hkill hstop
  split
  · exact (hquiet.unhandle signo).congr rfl rfl rfl
  · exact hquiet

theorem signalSpecret_quiet {debug : Bool} {frame : Frame} (hthp : prp.thread tid = some thp) :
    Quiet prp (signalSpecret prp tid thp debug frame kill) := by
  rw [signalSpecret]
  split
  · exact .setThread_like hthp ⟨rfl, rfl, rfl, rfl, List.Subset.refl _⟩
  · split
    · exact .refl _
    · split
      · next shp hshp =>
        obtain ⟨hshp, hhandler⟩ := filter_eq_some_iff.mp hshp
        exact enterHandler_quiet hthp hshp hhandler
      · exact ((Quiet.refl prp).unhandle _).setThread hthp (List.Subset.refl _) fun h => (h.thread hthp : thp.MasksOk)
      · exact killit_quiet hthp

theorem specret_quiet {debug : Bool} {frame : Frame} : Quiet prp (specret prp tid debug frame kill) := by
  rw [specret]
  split
  · exact .refl _
  · next thp hthp =>
    split
    · exact signalSpecret_quiet hthp
    · split
      · next hsuspend =>
        exact (Quiet.refl prp).setThread hthp (List.Subset.refl _) fun h hdying =>
          ⟨(h.thread hthp hdying).2 hsuspend, fun hno => absurd hno Bool.false_ne_true⟩
      · exact .refl _

/-- deliver_fault makes the signal of the fault pending, and no other. -/
theorem deliverFault_made {alloc : Bool} : Ends (deliverFault prp tid sig alloc) fun prp' =>
    (∀ tag, On prp' tag → On prp tag ∨ tag = (sig.signo, true)) ∧ (sig.signo < 57 → Masks prp → Masks prp') := by
  rw [deliverFault]
  split
  · exact .done ⟨fun _ => .inl, fun _ h => h⟩
  · next thp hthp =>
    dsimp only
    split
    · exact .fails
    · have hprp : Quiet prp (if sigTst thp.sigBlocked sig.signo = true then prp.unhandle sig.signo else prp) := by
        split
        · exact (Quiet.refl prp).unhandle _
        · exact .refl prp
      have hthp' : (if sigTst thp.sigBlocked sig.signo = true then prp.unhandle sig.signo else prp).thread tid =
          some thp := by
        split <;> exact hthp
      refine .done ⟨fun tag hon => ?_, fun hlow h => (hprp.masks h).setThread hthp' fun hdying => ?_⟩
      · rcases hon.setThread hthp' with hold | hnew
        · exact .inl (hprp.fewer tag hold)
        · rcases mem_cons.mp (tags_pulseAdd _ _ _ _ hnew) with rfl | hold
          · exact .inr rfl
          · exact .inl (.inr ⟨tid, thp, hthp, hold⟩)
      · obtain ⟨hmask, hsaved⟩ := h.thread hthp hdying
        refine ⟨?_, hsaved⟩
        split
        · exact hmask.sigClr hlow
        · exact hmask

theorem thread_threadCreate {t : Nat} {thp : Thread}
    (ht : (threadCreate prp mask).thread t = some thp) :
    prp.thread t = some thp ∨ thp =
      { valid := false, state := .ready, sigBlocked := sigmaskNoKillstop (sigmaskSpecial mask), sigPending := []
        sigActive := false, sigSuspend := false, saved := 0, dying := false } := by
  rw [threadCreate] at ht
  split at ht
  · simp only [Proc.thread, getElem?_set] at ht
    split at ht
    · split at ht
      · exact .inr (some.inj ht).symm
      · cases ht
    · exact .inl ht
  · simp only [Proc.thread, getElem?_append] at ht
    split at ht
    · exact .inl ht
    · rcases Nat.eq_zero_or_pos (t - prp.threads.length) with hz | hpos
      · rw [hz] at ht
        exact .inr (some.inj ht).symm
      · rw [getElem?_eq_none (by simp only [length_singleton]; omega)] at ht
        cases ht

theorem threadCreate_quiet : Quiet prp (threadCreate prp mask) := by
  have hsame : (threadCreate prp mask).sigPending = prp.sigPending ∧ (threadCreate prp mask).handlers = prp.handlers := by
    rw [threadCreate]
    split <;> exact ⟨rfl, rfl⟩
  refine ⟨?_, fun h => ⟨fun {t thp} ht => ?_, fun hshp => h.handler (hsame.2 ▸ hshp)⟩⟩
  · rintro tag (hp | ⟨t, thp, ht, htag⟩)
    · exact .inl (hsame.1 ▸ hp)
    · rcases thread_threadCreate ht with hold | rfl
      · exact .inr ⟨t, thp, hold, htag⟩
      · cases htag
  · rcases thread_threadCreate ht with hold | rfl
    · exact h.thread hold
    · exact fun _ => ⟨(hasSpecial_sigmask mask).noKillstop, fun hno => absurd hno Bool.false_ne_true⟩

/-! ## Runs -/

/-- The mask on the stack of the user has the special signals, and so has no fault a special signal. -/
def Op.KeepsSpecial : Op → Prop
  | .sigreturn _ sigBlocked => HasSpecial sigBlocked
  | .fault _ sig _ => sig.signo < 57
  | _ => True

/-- The signal that a call makes pending. -/
def Op.sends : Op → List (Nat × Bool)
  | .killProcess sig _ => [(sig.signo, false)]
  | .killThread _ sig _ => [(sig.signo, false)]
  | .fault _ sig _ => [(sig.signo, true)]
  | _ => []

/-- What a call makes pending, and when it keeps the masks as they should be. -/
structure Made (op : Op) (prp prp' : Proc) : Prop where
  on : ∀ {tag}, On prp' tag → On prp tag ∨ tag ∈ op.sends
  masks : op.KeepsSpecial → Masks prp → Masks prp'

theorem Quiet.made (h : Quiet prp prp') : Made op prp prp' := ⟨fun hon => .inl (h.fewer _ hon), fun _ => h.masks⟩

theorem Like.made (h : Like new prp prp') (hsends : op.sends = new) : Made op prp prp' :=
  ⟨fun hon => hsends ▸ (h.on hon).symm, fun _ hmasks => hmasks.like h⟩

theorem step_made : Ends (step prp op) (Made op prp) := by
  have hsame : Made op prp prp := (Quiet.refl prp).made
  cases op with
  | killProcess sig env => exact .guard hsame fun _ => (signalKillProcess_killed.mono fun _ h => h.like.made rfl).map
  | killThread tid sig env =>
    refine .done ?_
    split
    · exact (signalKillThread_like env prp tid sig).made rfl
    · exact hsame
  | procmask tid how sigBlocked => exact signalProcmask_quiet.mono fun _ h => h.made
  | suspend tid sigBlocked how => exact signalSuspend_quiet.mono fun _ h => h.made
  | sigreturn tid sigBlocked =>
    exact fun prp' hstep => ⟨fun hon => .inl (signalBlock_fewer prp' hstep _ hon), fun hop =>
      (signalBlock_quiet hop prp' hstep).masks⟩
  | waitinfo tid sigWait timeout => exact .done (signalWaitinfo_like prp tid sigWait timeout).quiet.made
  | action signo action siginfo resetHand noDefer => exact .done signalAction_quiet.made
  | specret tid debug frame kill => exact .done specret_quiet.made
  | clear tid sig => exact signalClearThread_like.mono fun _ h => h.quiet.made
  | fault tid sig alloc =>
    exact .guard hsame fun _ => deliverFault_made.mono fun _ h =>
      ⟨fun hon => (h.1 _ hon).imp id mem_singleton.mpr, h.2⟩
  | create sigBlocked => exact .done threadCreate_quiet.made
  | killself tid =>
    refine .done ?_
    rw [Proc.update]
    split
    · exact hsame
    · next thp hthp =>
      refine Quiet.made ((Quiet.refl prp).setThread hthp (List.Subset.refl _) fun _ => ?_)
      exact Thread.masksOk_of_dying rfl
  | destroy tid stage =>
    simp only [step]
    split
    · exact .done hsame
    · next thp hthp => exact .done (threadDestroy_quiet stage hthp).made
  | valid tid => exact .done (Quiet.made (Like.quiet (update_like fun _ => ⟨rfl, rfl, rfl, rfl, List.Subset.refl _⟩)))
  | move tid state => exact .done (Quiet.made (Like.quiet (update_like fun _ => ⟨rfl, rfl, rfl, rfl, List.Subset.refl _⟩)))


/-- In a run in which each mask that SignalReturn finds has the special signals, no thread blocks SIGKILL or
SIGSTOP and each thread blocks the special signals, until it is destroyed. -/
theorem mask_rules (sigIgnore sigQueue : SigSet) (ops : List Op) (prp : Proc) (tid : Nat) (thp : Thread)
    (hops : ∀ op ∈ ops, op.KeepsSpecial) (hrun : run ops (newProc sigIgnore sigQueue) = some prp)
    (hthp : prp.thread tid = some thp) (hlive : thp.dying = false) :
    sigTst thp.sigBlocked sigkill = false ∧ sigTst thp.sigBlocked sigstop = false ∧
      ∀ n, 57 ≤ n → n ≤ sigMax → sigTst thp.sigBlocked n = true := by
  have hmasks := Run.inv (P := fun _ op => op.KeepsSpecial) (fun h hop hstep => (step_made _ hstep).masks hop h)
    (show Masks (newProc sigIgnore sigQueue) from ⟨nofun, nofun⟩) (Run.along_of_forall hops) hrun
  obtain ⟨⟨hkill, hstop⟩, hspecial⟩ := (hmasks.thread hthp hlive).1
  exact ⟨hkill, hstop, fun n htop hn => hspecial n hn htop⟩

/-- A pulse can always be allocated, and no debugger takes signals. -/
def plainEnv : Env := ⟨fun _ => true, fun _ => false⟩

/-- A thread gets a handler for SIGUSR1, runs it and returns with a mask. -/
def handlerOps (sigBlocked : SigSet) : List Op :=
  [.create 0, .valid 0, .action 16 (.handle 0 true) false false false, .killThread 0 ⟨16, 0, 0, 0⟩ plainEnv,
    .specret 0 false .ok .process, .sigreturn 0 sigBlocked]

theorem mask_rules_handler : ∃ prp thp, run (handlerOps 0xff00000000000000#64) (newProc 0 0) = some prp ∧
    prp.thread 0 = some thp ∧ thp.dying = false ∧ thp.sigPending = [] ∧
    sigTst thp.sigBlocked sigkill = false ∧ sigTst thp.sigBlocked sigstop = false ∧
      ∀ n, 57 ≤ n → n ≤ sigMax → sigTst thp.sigBlocked n = true := by
  have hany : (run (handlerOps 0xff00000000000000#64) (newProc 0 0)).any (fun prp => (prp.thread 0).any
      fun thp => thp.dying = false ∧ thp.sigPending = []) = true := by decide +kernel
  obtain ⟨prp, hrun, hthread⟩ := (any_eq_true _ _).mp hany
  obtain ⟨thp, hthp, hstate⟩ := (any_eq_true _ _).mp hthread
  obtain ⟨hlive, hpending⟩ := of_decide_eq_true hstate
  have hops : ∀ op ∈ handlerOps 0xff00000000000000#64, op.KeepsSpecial := by
    simp only [handlerOps, forall_mem_cons, Op.KeepsSpecial, not_mem_nil, false_implies, implies_true,
      true_and, and_true]
    decide
  exact ⟨prp, thp, hrun, hthp, hlive, hpending, mask_rules 0 0 _ prp 0 thp hops hrun hthp hlive⟩

/-- The mask that SignalReturn finds on the stack of the user unblocks the special signals. -/
theorem special_unblocked : ∃ prp thp, run (handlerOps 0) (newProc 0 0) = some prp ∧ prp.thread 0 = some thp ∧
    thp.dying = false ∧ ∀ n, 57 ≤ n → n ≤ sigMax → sigTst thp.sigBlocked n = false := by
  have hany : (run (handlerOps 0) (newProc 0 0)).any (fun prp => (prp.thread 0).any
      fun thp => thp.dying = false ∧ thp.sigBlocked = 0) = true := by decide +kernel
  obtain ⟨prp, hrun, hthread⟩ := (any_eq_true _ _).mp hany
  obtain ⟨thp, hthp, hstate⟩ := (any_eq_true _ _).mp hthread
  obtain ⟨hlive, hmask⟩ := of_decide_eq_true hstate
  refine ⟨prp, thp, hrun, hthp, hlive, fun n _ _ => ?_⟩
  rw [hmask]
  exact BitVec.getLsbD_zero

end QRV.Nano.Signal
