import QRV.Nano.SignalMask

/- Stop signals and SIGCONT. A stop signal (SIGSTOP, SIGTSTP, SIGTTIN, SIGTTOU) that is sent
   takes every pending SIGCONT away, and SIGCONT takes every pending stop signal away: so
   the two are not pending together.

   special_case_signalhandling does this, and the calls that send a signal reach it unless
   the signal is ignored, a thread waits for it, no thread accepts it, the debugger takes it,
   or the process is being destroyed; signal_remove passes by threads whose entry in the
   vector is flagged. `Op.Discards` says that the call reaches it, or that there is nothing to
   take away. No other call makes a signal pending (`step_made`). -/
namespace QRV.Nano.Signal
open List

variable {prp prp' : Proc} {tid t : Nat} {thp : Thread}
variable {sig : Sig} {op : Op} {n : Nat} {env : Env}

/-! ## Stop signals and SIGCONT -/

/-- A signal takes away those of the other kind. -/
def Opposes (m n : Nat) : Prop := Stops m ∧ n = sigcont ∨ m = sigcont ∧ Stops n

theorem not_stops_sigcont : ¬ Stops sigcont := by decide

theorem Opposes.ne {m n : Nat} (h : Opposes m n) : n ≠ m := by
  rintro rfl
  rcases h with ⟨hm, hn⟩ | ⟨hm, hn⟩
  · exact not_stops_sigcont (hn ▸ hm)
  · exact not_stops_sigcont (hm ▸ hn)

/-- The signal is pending somewhere in the process. -/
def Pending (prp : Proc) (n : Nat) : Prop :=
  n ∈ prp.sigPending.map Pulse.signo ∨ ∃ tid thp, prp.thread tid = some thp ∧ n ∈ thp.sigPending.map Pulse.signo

theorem mem_signo {queue : List Pulse} : n ∈ queue.map Pulse.signo ↔ ∃ b, (n, b) ∈ tags queue := by
  simp only [mem_map, mem_tags]
  constructor
  · rintro ⟨pup, hpup, rfl⟩
    exact ⟨pup.boost, pup, hpup, rfl⟩
  · rintro ⟨b, pup, hpup, heq⟩
    exact ⟨pup, hpup, (Prod.mk.inj heq).1⟩

theorem pending_iff : Pending prp n ↔ ∃ b, On prp (n, b) := by
  constructor
  · rintro (h | ⟨t, thp, ht, h⟩) <;> obtain ⟨b, hb⟩ := mem_signo.mp h
    · exact ⟨b, .inl hb⟩
    · exact ⟨b, .inr ⟨t, thp, ht, hb⟩⟩
  · rintro ⟨b, h | ⟨t, thp, ht, h⟩⟩
    · exact .inl (mem_signo.mpr ⟨b, h⟩)
    · exact .inr ⟨t, thp, ht, mem_signo.mpr ⟨b, h⟩⟩

/-- No thread whose entry is flagged has the signal, so that signal_remove misses none. -/
def Reached (n : Nat) (prp : Proc) : Prop :=
  ∀ tid thp, prp.thread tid = some thp → thp.valid = false → (n, false) ∉ tags thp.sigPending

theorem tags_discarded (n : Nat) (queue : List Pulse) : (n, false) ∉ tags (signalDiscard n queue) := by
  intro hmem
  obtain ⟨pup, hpup, heq⟩ := mem_tags.mp hmem
  obtain ⟨hsigno, hboost⟩ := Prod.mk.inj heq
  have hkeep := (mem_filter.mp hpup).2
  simp [hsigno, hboost] at hkeep

theorem signalRemove_off (h : Reached n prp) : ¬ On (signalRemove prp n) (n, false) := by
  rintro (hp | ⟨t, thp', ht, htag⟩)
  · exact tags_discarded n _ hp
  · rw [thread_signalRemove] at ht
    obtain ⟨thp, hthp, rfl⟩ := Option.map_eq_some_iff.mp ht
    by_cases hvalid : thp.valid = true
    · simp only [Thread.remove, hvalid, if_true] at htag
      exact tags_discarded n _ htag
    · simp only [Thread.remove, hvalid] at htag
      exact h t thp hthp (Bool.eq_false_iff.mpr hvalid) htag

theorem Reached.signalRemove {m n : Nat} (h : Reached n prp) : Reached n (signalRemove prp m) := by
  intro t thp' ht hvalid
  rw [thread_signalRemove] at ht
  obtain ⟨thp, hthp, rfl⟩ := Option.map_eq_some_iff.mp ht
  have hsame : thp.valid = false := by
    rw [Thread.remove] at hvalid
    split at hvalid <;> exact hvalid
  intro hmem
  exact h t thp hthp hsame ((thp.remove_like m).pending hmem)

theorem off_signalRemove {m n : Nat} (h : ¬ On prp (n, false)) : ¬ On (signalRemove prp m) (n, false) :=
  fun hon => h ((signalRemove_like prp m).quiet.fewer _ hon)

/-- The special case of a stop signal and of SIGCONT, when nothing prevents it. -/
theorem specialCase_off {signo n : Nat} {there debug : Bool} (hopp : Opposes signo n) (hreached : Reached n prp)
    (halive : Stops signo → prp.destroyAll = false) (hdebug : signo = sigcont → (there && debug) = false) :
    ¬ On (specialCaseSignalhandling prp there signo debug).1 (n, false) := by
  intro hon
  rcases hopp with ⟨hstop, rfl⟩ | ⟨rfl, hstop⟩
  · have hprocess : ¬ On (stopProcess prp).1 (sigcont, false) := by
      intro hon
      have hdestroy : ¬ prp.destroyAll = true := by rw [halive hstop]; exact Bool.false_ne_true
      rw [stopProcess, if_neg hdestroy] at hon
      have hreached' : Reached sigcont
          (if prp.stopped = true then prp else { prp with stopped := true, continued := false }) := by
        split <;> exact hreached
      exact signalRemove_off hreached' hon
    rw [specialCaseSignalhandling] at hon
    split at hon
    · split at hon
      · exact signalRemove_off hreached hon
      · exact hprocess hon
    · next hno =>
      have hsig : signo = sigstop := hstop.resolve_right hno
      rw [if_pos hsig] at hon
      exact hprocess hon
  · have hcont : (specialCaseSignalhandling prp there sigcont debug).1 =
        signalRemove (signalRemove (signalRemove (signalRemove
          { prp with stopped := false, continued := true } sigstop) sigtstp) sigttin) sigttou := by
      have h1 : ¬ (sigcont = sigtstp ∨ sigcont = sigttin ∨ sigcont = sigttou) := by decide
      have h2 : ¬ sigcont = sigstop := by decide
      have h3 : ¬ (there && debug) = true := by rw [hdebug rfl]; exact Bool.false_ne_true
      rw [specialCaseSignalhandling, if_neg h1, if_neg h2, if_pos rfl, if_neg h3]
    rw [hcont] at hon
    have hreached0 : Reached n { prp with stopped := false, continued := true } := hreached
    rcases hstop with rfl | rfl | rfl | rfl
    · exact off_signalRemove (off_signalRemove (off_signalRemove (signalRemove_off hreached0))) hon
    · exact off_signalRemove (off_signalRemove (signalRemove_off hreached0.signalRemove)) hon
    · exact off_signalRemove (signalRemove_off hreached0.signalRemove.signalRemove) hon
    · exact signalRemove_off hreached0.signalRemove.signalRemove.signalRemove hon

/-! ## The calls that send signals -/

/-- Nothing prevents the special case of the signal. -/
structure Effective (prp : Proc) (sig : Sig) (env : Env) : Prop where
  ignored : Stops sig.signo → sigTst prp.sigIgnore sig.signo = false
  alive : Stops sig.signo → prp.destroyAll = false
  debug : sig.signo = sigcont → ∀ tid < prp.threads.length, env.debug tid = false
  waits : prp.All fun thp => thp.waits sig.signo = false
  flagged : prp.All fun thp => thp.valid = false → ∀ pup ∈ thp.sigPending,
    (Stops sig.signo → pup.signo ≠ sigcont) ∧ (sig.signo = sigcont → ¬ Stops pup.signo)

theorem Effective.reached (h : Effective prp sig env) (hopp : Opposes sig.signo n) :
    Reached n prp := by
  intro t thp ht hvalid hmem
  obtain ⟨pup, hpup, heq⟩ := mem_tags.mp hmem
  obtain ⟨hstop, hcont⟩ := h.flagged.thread ht hvalid pup hpup
  rw [(Prod.mk.inj heq).1] at hstop hcont
  rcases hopp with ⟨hm, hn⟩ | ⟨hm, hn⟩
  · exact hstop hm hn
  · exact hcont hm hn

theorem signalKillThread_off (h : Effective prp sig env) (hopp : Opposes sig.signo n)
    (hthp : prp.thread tid = some thp) : ¬ On (signalKillThread env prp tid sig).1 (n, false) := by
  have hignore : sig.signo = sigcont ∨ sigTst prp.sigIgnore sig.signo = false := by
    rcases hopp with ⟨hm, -⟩ | ⟨hm, -⟩
    · exact .inr (h.ignored hm)
    · exact .inl hm
  have hdebug : sig.signo = sigcont → (true && env.debug tid) = false := by
    intro hcont
    rw [h.debug hcont tid (thread_lt hthp)]
    rfl
  have hoff : ¬ On (specialCaseSignalhandling prp true sig.signo (env.debug tid)).1 (n, false) :=
    specialCase_off hopp (h.reached hopp) h.alive hdebug
  rcases signalKillThread_special env hthp hignore (h.waits.thread hthp) with heq | ⟨thp1, hthp1, heq⟩
  · rw [heq]
    exact hoff
  · rw [heq]
    intro hon
    rcases (queueThread_like env sig hthp1).on hon with hnew | hold
    · exact hopp.ne (Prod.mk.inj (mem_singleton.mp hnew)).1
    · exact hoff hold

theorem KilledProcess.off (hkill : KilledProcess env prp sig prp')
    (h : Effective prp sig env) (hopp : Opposes sig.signo n)
    (haccepts : Stops sig.signo → ¬ prp.All fun thp => sigTst thp.sigBlocked sig.signo = true) :
    ¬ On prp' (n, false) := by
  cases hkill with
  | ignored hignored hcont =>
    rcases hopp with ⟨hm, -⟩ | ⟨hm, -⟩
    · rw [h.ignored hm] at hignored
      cases hignored
    · exact absurd hm hcont
  | kill signo =>
    rcases hopp with ⟨hm, -⟩ | ⟨hm, -⟩
    · rw [signo] at hm
      exact absurd hm (by decide)
    · rw [signo] at hm
      exact absurd hm (by decide)
  | thread target thp hthp _ eq =>
    rw [eq]
    have heff : Effective { prp with sigtidCache := target } sig env := ⟨h.1, h.2, h.3, h.4, h.5⟩
    exact signalKillThread_off heff hopp hthp
  | unaccepted blocked eq =>
    rw [eq]
    rcases hopp with ⟨hm, -⟩ | ⟨hm, hn⟩
    · exact absurd (Proc.all_iff.mpr blocked) (haccepts hm)
    · obtain ⟨prp0, hprp0, hcase⟩ := killUnaccepted_cases env prp sig
      obtain ⟨-, rfl⟩ := hprp0.resolve_left fun hno => hno.1 hm
      have hopp' : Opposes sigcont n := .inr ⟨rfl, hn⟩
      have hoff : ¬ On (specialCaseSignalhandling prp false sigcont false).1 (n, false) := by
        refine specialCase_off hopp' (h.reached (.inr ⟨hm, hn⟩)) (fun hno => absurd hno not_stops_sigcont) ?_
        exact fun _ => rfl
      rcases hcase with heq | heq <;> rw [heq]
      · exact hoff
      · intro hon
        rcases (queueProcess_like env _ sig).on hon with hnew | hold
        · have hsame : n = sig.signo := (Prod.mk.inj (mem_singleton.mp hnew)).1
          exact hopp'.ne (hsame.trans hm)
        · exact hoff hold

/-! ## Runs -/

/-- Either there is nothing to take away, or the call gets to take it away. Faults are not signals of job
control. -/
def Op.Discards (prp : Proc) : Op → Prop
  | .killProcess sig env => (∀ n, Opposes sig.signo n → ¬ Pending prp n) ∨ Effective prp sig env ∧
      (Stops sig.signo → ¬ prp.All fun thp => sigTst thp.sigBlocked sig.signo = true)
  | .killThread _ sig env => (∀ n, Opposes sig.signo n → ¬ Pending prp n) ∨ Effective prp sig env
  | .fault _ sig _ => sig.signo ≠ sigcont ∧ ¬ Stops sig.signo
  | _ => True

theorem forall_opposes {m : Nat} {P : Nat → Prop} :
    (∀ n ∈ [sigcont, sigstop, sigtstp, sigttin, sigttou], Opposes m n → P n) ↔ ∀ n, Opposes m n → P n := by
  refine ⟨fun h n hopp => h n ?_ hopp, fun h n _ hopp => h n hopp⟩
  rcases hopp with ⟨-, rfl⟩ | ⟨-, hn⟩
  · exact mem_cons_self
  · refine mem_cons_of_mem _ ?_
    simpa [Stops] using hn

theorem pending_iff_all : (n ∈ prp.sigPending.map Pulse.signo ∨
    ¬ prp.All fun thp => n ∉ thp.sigPending.map Pulse.signo) ↔ Pending prp n := by
  rw [Proc.all_iff, Pending]
  simp only [not_forall, not_not, exists_prop]

instance (prp : Proc) (n : Nat) : Decidable (Pending prp n) := decidable_of_iff _ pending_iff_all

instance (m n : Nat) : Decidable (Opposes m n) := inferInstanceAs (Decidable (_ ∨ _))

instance (prp : Proc) (sig : Sig) (env : Env) : Decidable (Effective prp sig env) :=
  decidable_of_iff (_ ∧ _ ∧ _ ∧ _ ∧ _) ⟨fun h => ⟨h.1, h.2.1, h.2.2.1, h.2.2.2.1, h.2.2.2.2⟩,
    fun h => ⟨h.ignored, h.alive, h.debug, h.waits, h.flagged⟩⟩

instance (prp : Proc) (m : Nat) : Decidable (∀ n, Opposes m n → ¬ Pending prp n) :=
  decidable_of_iff _ forall_opposes

instance (prp : Proc) : (op : Op) → Decidable (op.Discards prp)
  | .killProcess _ _ => inferInstanceAs (Decidable (_ ∨ _))
  | .killThread _ _ _ => inferInstanceAs (Decidable (_ ∨ _))
  | .fault _ _ _ => inferInstanceAs (Decidable (_ ∧ _))
  | .procmask _ _ _ | .suspend _ _ _ | .sigreturn _ _ | .waitinfo _ _ _ | .action _ _ _ _ _ | .specret _ _ _ _
  | .clear _ _ | .create _ | .killself _ | .destroy _ _ | .valid _ | .move _ _ => isTrue trivial

/-- The operation sends the signal to the process or to a thread that exists. -/
def Op.Generates (prp : Proc) (m : Nat) : Op → Prop
  | .killProcess sig _ => sig.ok = true ∧ sig.signo = m
  | .killThread tid sig _ => sig.ok = true ∧ sig.signo = m ∧ (prp.thread tid).isSome = true
  | _ => False

/-- SIGCONT and a stop signal are not pending together, and no fault is one of them. -/
structure Calm (prp : Proc) : Prop where
  boost : ∀ n, On prp (n, true) → n ≠ sigcont ∧ ¬ Stops n
  apart : ∀ n, Stops n → ¬ (Pending prp n ∧ Pending prp sigcont)

section
variable (h : Calm prp) (hop : op.Discards prp) (hstep : step prp op = some prp')
include h hop hstep

theorem step_boost : ∀ n, On prp' (n, true) → n ≠ sigcont ∧ ¬ Stops n := by
  intro n hon
  rcases (step_made _ hstep).on hon with hold | hnew
  · exact h.boost n hold
  · cases op with
    | fault tid sig alloc =>
      obtain rfl := (Prod.mk.inj (mem_singleton.mp hnew)).1
      exact hop
    | killProcess sig env => cases (Prod.mk.inj (mem_singleton.mp hnew)).2
    | killThread tid sig env => cases (Prod.mk.inj (mem_singleton.mp hnew)).2
    | _ => cases hnew

/-- What is pending of a kind that the signal opposes, it takes away. -/
theorem step_discards {m n : Nat} (hgen : op.Generates prp m) (hopp : Opposes m n) : ¬ Pending prp' n := by
  intro hpending
  obtain ⟨b, hon⟩ := pending_iff.mp hpending
  have hplain : b = false := by
    cases b with
    | false => rfl
    | true =>
      obtain ⟨hcont, hstop⟩ := step_boost h hop hstep n hon
      rcases hopp with ⟨-, hn⟩ | ⟨-, hn⟩
      · exact absurd hn hcont
      · exact absurd hn hstop
  subst hplain
  -- with nothing to take away, the signal itself is all that becomes pending
  have hnothing : (∀ n, Opposes m n → ¬ Pending prp n) → op.sends = [(m, false)] → False := by
    intro hnone hsends
    rcases (step_made _ hstep).on hon with hold | hnew
    · exact hnone n hopp (pending_iff.mpr ⟨false, hold⟩)
    · rw [hsends] at hnew
      exact hopp.ne (Prod.mk.inj (mem_singleton.mp hnew)).1
  cases op with
  | killProcess sig env =>
    obtain ⟨hok, rfl⟩ := hgen
    rcases hop with hnone | ⟨heff, haccepts⟩
    · exact hnothing hnone rfl
    · simp only [step, hok, if_true] at hstep
      obtain ⟨⟨prp1, status⟩, hkill, rfl⟩ := Option.map_eq_some_iff.mp hstep
      exact (signalKillProcess_killed _ hkill).off heff hopp haccepts hon
  | killThread tid sig env =>
    obtain ⟨hok, rfl, hthere⟩ := hgen
    rcases hop with hnone | heff
    · exact hnothing hnone rfl
    · obtain ⟨thp, hthp⟩ := Option.isSome_iff_exists.mp hthere
      cases hstep
      rw [if_pos hok] at hon
      exact signalKillThread_off heff hopp hthp hon
  | _ => cases hgen

omit h hop hstep in
/-- An operation that does not send the signal does not make it pending. -/
theorem step_pending (hstep : step prp op = some prp') (hpending : Pending prp' n) :
    Pending prp n ∨ op.Generates prp n ∨ (n, true) ∈ op.sends := by
  obtain ⟨b, hon⟩ := pending_iff.mp hpending
  rcases (step_made _ hstep).on hon with hold | hnew
  · exact .inl (pending_iff.mpr ⟨b, hold⟩)
  · cases op with
    | killProcess sig env =>
      obtain ⟨rfl, rfl⟩ := Prod.mk.inj (mem_singleton.mp hnew)
      by_cases hok : sig.ok = true
      · exact .inr (.inl ⟨hok, rfl⟩)
      · simp only [step, hok] at hstep
        cases hstep
        exact .inl hpending
    | killThread tid sig env =>
      obtain ⟨rfl, rfl⟩ := Prod.mk.inj (mem_singleton.mp hnew)
      by_cases hok : sig.ok = true
      · cases hthp : prp.thread tid with
        | some thp => exact .inr (.inl ⟨hok, rfl, by rw [hthp]; rfl⟩)
        | none =>
          simp only [step, hok, if_true, signalKillThread, hthp] at hstep
          cases hstep
          exact .inl hpending
      · simp only [step, hok] at hstep
        cases hstep
        exact .inl hpending
    | fault tid sig alloc =>
      obtain ⟨rfl, rfl⟩ := Prod.mk.inj (mem_singleton.mp hnew)
      exact .inr (.inr mem_cons_self)
    | _ => cases hnew

theorem step_calm : Calm prp' := by
  refine ⟨step_boost h hop hstep, fun n hn hboth => ?_⟩
  obtain ⟨hstopped, hcontinued⟩ := hboth
  have hfault : ∀ k, (k, true) ∈ op.sends → k ≠ sigcont ∧ ¬ Stops k := by
    intro k hk
    cases op with
    | fault tid sig alloc =>
      obtain ⟨rfl, -⟩ := Prod.mk.inj (mem_singleton.mp hk)
      exact hop
    | killProcess sig env => cases (Prod.mk.inj (mem_singleton.mp hk)).2
    | killThread tid sig env => cases (Prod.mk.inj (mem_singleton.mp hk)).2
    | _ => cases hk
  rcases step_pending hstep hstopped with hold | hgen | hsent
  · rcases step_pending hstep hcontinued with hold' | hgen' | hsent'
    · exact h.apart n hn ⟨hold, hold'⟩
    · exact step_discards h hop hstep hgen' (.inr ⟨rfl, hn⟩) hstopped
    · exact (hfault _ hsent').1 rfl
  · exact step_discards h hop hstep hgen (.inl ⟨hn, rfl⟩) hcontinued
  · exact (hfault _ hsent).2 hn

end

theorem newProc_calm (sigIgnore sigQueue : SigSet) : Calm (newProc sigIgnore sigQueue) := by
  have hnone : ∀ tag, ¬ On (newProc sigIgnore sigQueue) tag := by
    rintro tag (hp | ⟨t, thp, ht, -⟩)
    · cases hp
    · cases ht
  refine ⟨fun n hon => absurd hon (hnone _), fun n _ hboth => ?_⟩
  obtain ⟨b, hon⟩ := pending_iff.mp hboth.1
  exact hnone _ hon

/-- In a run whose calls that send stop signals and SIGCONT all get to take away what they oppose, SIGCONT and a
stop signal are never pending together, and each such call leaves nothing pending that it opposes. -/
theorem stop_cont_apart (sigIgnore sigQueue : SigSet) (ops : List Op) (prp : Proc)
    (hops : Run.Along step (fun prp op => op.Discards prp) ops (newProc sigIgnore sigQueue))
    (hrun : run ops (newProc sigIgnore sigQueue) = some prp) :
    (∀ n, Stops n → ¬ (Pending prp n ∧ Pending prp sigcont)) ∧
      ∀ op prp' m n, op.Discards prp → step prp op = some prp' → op.Generates prp m → Opposes m n →
        ¬ Pending prp' n := by
  have hcalm := Run.inv step_calm (newProc_calm sigIgnore sigQueue) hops hrun
  exact ⟨hcalm.apart, fun op prp' m n hop hstep hgen hopp => step_discards hcalm hop hstep hgen hopp⟩

/-- SIGTSTP and SIGCONT in turn, to a thread that has SIGCONT pending at first. -/
theorem stop_cont_apart_blocked :
    let ops : List Op := [.create 0, .valid 0, .procmask 0 .block 0x1000000#64, .killProcess ⟨sigcont, 0, 0, 0⟩ plainEnv,
      .killProcess ⟨sigtstp, 0, 0, 0⟩ plainEnv, .killThread 0 ⟨sigcont, 0, 0, 0⟩ plainEnv]
    Run.Along step (fun prp op => op.Discards prp) ops (newProc 0 0) ∧
      (run (ops.take 4) (newProc 0 0)).any (fun prp => Pending prp sigcont) = true ∧
      ∃ prp, run ops (newProc 0 0) = some prp ∧ ∀ n, Stops n → ¬ (Pending prp n ∧ Pending prp sigcont) := by
  intro ops
  have hops : Run.Along step (fun prp op => op.Discards prp) ops (newProc 0 0) := by decide +kernel
  have hrun : (run ops (newProc 0 0)).isSome = true := by decide +kernel
  obtain ⟨prp, hprp⟩ := Option.isSome_iff_exists.mp hrun
  exact ⟨hops, by decide +kernel, prp, hprp, (stop_cont_apart 0 0 ops prp hops hprp).1⟩

/-- A thread blocks SIGTSTP and SIGCONT. The stop signal goes on the process past special_case_signalhandling,
and joins SIGCONT there. -/
theorem stop_cont_together :
    let ops : List Op := [.create 0, .valid 0, .procmask 0 .block 0x1800000#64,
      .killProcess ⟨sigcont, 0, 0, 0⟩ plainEnv, .killProcess ⟨sigtstp, 0, 0, 0⟩ plainEnv]
    ∃ prp, run ops (newProc 0 0) = some prp ∧ Pending prp sigtstp ∧ Pending prp sigcont := by
  intro ops
  have hany : (run ops (newProc 0 0)).any (fun prp => Pending prp sigtstp ∧ Pending prp sigcont) = true := by
    decide +kernel
  obtain ⟨prp, hrun, hboth⟩ := (Option.any_eq_true _ _).mp hany
  exact ⟨prp, hrun, of_decide_eq_true hboth⟩

/-! ## Freed pulses -/

/-- A pulse that signal_remove takes away for a stop signal. -/
def Pulse.Continues (pup : Pulse) : Prop := pup.signo = sigcont ∧ pup.boost = false

/-- The pulse behind the first one on the queue that the mask lets through and that removes SIGCONT. -/
def stopNext (mask : SigSet) : Proc → List Pulse → Option Pulse
  | _, [] => none
  | prp, pup :: rest =>
    if sigTst mask pup.signo then stopNext mask prp rest
    else if Frees prp pup.signo then rest.head?
    else stopNext mask { prp with destroyAll := prp.destroyAll || pup.signo = sigkill } rest

theorem mem_stopNext {mask : SigSet} {rest : List Pulse} {next : Pulse} (h : next ∈ stopNext mask prp rest) :
    next ∈ rest := by
  induction rest generalizing prp with
  | nil => cases h
  | cons pup rest ih =>
    rw [stopNext] at h
    split at h
    · exact .tail _ (ih h)
    · split at h
      · exact .tail _ (mem_of_head? h)
      · exact .tail _ (ih h)

theorem Thread.mem_remove {pup : Pulse} :
    pup ∈ (thp.remove sigcont).sigPending ↔ pup ∈ thp.sigPending ∧ (thp.valid → ¬ pup.Continues) := by
  rw [Thread.remove]
  split
  · next h =>
    simp only [h, forall_const, signalDiscard, mem_filter, Pulse.Continues, Bool.or_eq_true, decide_eq_true_eq, ne_eq,
      not_and, Bool.not_eq_false, Decidable.imp_iff_not_or]
  · next h => simp only [h, false_implies, and_true, Bool.false_eq_true]

theorem Thread.remove_eq_self (h : ∀ pup ∈ thp.sigPending, ¬ pup.Continues) :
    (thp.remove sigcont).sigPending = thp.sigPending := by
  rw [Thread.remove]
  split
  · refine filter_eq_self.mpr fun pup hpup => ?_
    have := h pup hpup
    simp_all [Pulse.Continues, Decidable.imp_iff_not_or]
  · rfl

section
variable {n : Nat} (hif : thp' = if Frees prp n then thp.remove sigcont else thp)
include hif

theorem Thread.special_same : thp'.valid = thp.valid ∧ thp'.sigBlocked = thp.sigBlocked := by
  rw [hif]
  split
  · exact ⟨by rw [Thread.remove]; split <;> rfl, (thp.remove_like sigcont).sigBlocked⟩
  · exact ⟨rfl, rfl⟩

theorem Thread.special_subset : thp'.sigPending ⊆ thp.sigPending := by
  rw [hif]
  split
  · exact fun pup hpup => (Thread.mem_remove.mp hpup).1
  · exact List.Subset.refl _

/-- A special case changes the list only by removing SIGCONT, which is not on it any more then. -/
theorem Thread.special_gone (hne : thp'.sigPending ≠ thp.sigPending) :
    Frees prp n ∧ thp.valid ∧ ∀ pup ∈ thp'.sigPending, ¬ pup.Continues := by
  by_cases hf : Frees prp n ∧ thp.valid
  · rw [if_pos hf.1] at hif
    exact ⟨hf.1, hf.2, fun pup hpup => (Thread.mem_remove.mp (hif ▸ hpup)).2 hf.2⟩
  · refine absurd ?_ hne
    rw [hif]
    split
    · next h => rw [Thread.remove, if_neg fun hv => hf ⟨h, hv⟩]
    · rfl

theorem Thread.special_kept (heq : thp'.sigPending = thp.sigPending) (hf : Frees prp n) (hv : thp.valid) :
    ∀ pup ∈ thp.sigPending, ¬ pup.Continues := by
  rw [hif, if_pos hf] at heq
  exact fun pup hpup => (Thread.mem_remove.mp (heq ▸ hpup)).2 hv

/-- What is asked of the rest of the queue when the loop goes on behind a special case. -/
theorem stopNext_special {q : Proc} {gone : Bool} {rest : List Pulse}
    (hrest : removed = false → ∀ next ∈ rest, next ∈ thp.sigPending)
    (hgone : decide (thp'.sigPending ≠ thp.sigPending) = gone)
    (hhead : ∀ next ∈ rest.head?, next.Continues → gone = false) :
    ((removed || gone) = false → thp'.valid → ∀ next ∈ stopNext thp'.sigBlocked q rest, ¬ next.Continues) ↔
      (removed = false → thp.valid → ∀ next ∈ if Frees prp n then rest.head? else stopNext thp.sigBlocked q rest,
        ¬ next.Continues) := by
  rw [(Thread.special_same hif).1, (Thread.special_same hif).2]
  by_cases hf : Frees prp n
  · have hnone : removed = false → gone = false → thp.valid → ∀ next ∈ rest, ¬ next.Continues := by
      intro hr hg hv next hnext
      have hsame : thp'.sigPending = thp.sigPending := not_not.mp (of_decide_eq_false (hgone.trans hg))
      exact Thread.special_kept hif hsame hf hv next (hrest hr next hnext)
    rw [if_pos hf]
    refine iff_of_true (fun hr hv next hnext => ?_) fun hr hv next hnext hc => ?_
    · rw [Bool.or_eq_false_iff] at hr
      exact hnone hr.1 hr.2 hv next (mem_stopNext hnext)
    · exact hnone hr (hhead next hnext hc) hv next (mem_of_head? hnext) hc
  · have hg : gone = false := hgone ▸ decide_eq_false fun hne => hf (Thread.special_gone hif hne).1
    rw [if_neg hf, hg, Bool.or_false]

end

/-- The loop of signal_block goes on with a freed pulse when the first pulse that removes SIGCONT has one behind
it: from then on there is none on the list of the thread. -/
theorem blockLoop_isSome (thp : Thread) {q : Proc} {removed : Bool} {kept rest : List Pulse}
    (hthp : prp.thread tid = some thp) (hpend : thp.sigPending = kept ++ left removed rest)
    (hgone : removed = true → ∀ pup ∈ thp.sigPending, ¬ pup.Continues)
    (hq : q.handlers = prp.handlers ∧ q.destroyAll = prp.destroyAll) :
    (blockLoop tid prp removed kept rest).isSome ↔
      (removed = false → thp.valid → ∀ next ∈ stopNext thp.sigBlocked q rest, ¬ next.Continues) := by
  induction rest generalizing prp q removed kept thp with
  | nil => simp [blockLoop, stopNext]
  | cons pup rest ih =>
    rw [blockLoop, hthp]
    dsimp only
    split
    · next hskip =>
      have hr : removed = true := by simp_all
      rw [left_cons_skip hskip] at hpend
      refine (ih thp hthp hpend hgone hq).trans ?_
      simp [hr]
    next hkeep =>
    rw [left_cons_keep hkeep] at hpend
    have hsub : ∀ {kept left : List Pulse} {next : Pulse}, next ∈ kept ++ left → next ∈ kept ++ pup :: left :=
      fun hnext => ((sublist_cons_self _ _).append_left _).subset hnext
    rw [stopNext]
    split
    · exact ih thp hthp (by simpa using hpend) hgone hq
    split
    · next hcont =>
      rw [if_neg fun hf : Frees q pup.signo => not_stops_sigcont (hcont ▸ hf.1)]
      have hkill : decide (pup.signo = sigkill) = false := by rw [hcont]; rfl
      rw [hkill, Bool.or_false]
      split
      · exact ih { thp with sigActive := true } (thread_setThread_self hthp) (by simpa using hpend) hgone hq
      · exact ih { thp with sigPending := kept ++ left removed rest } (thread_setThread_self hthp) rfl
          (fun hr next hnext => hgone hr next (hpend ▸ hsub hnext)) hq
    next hcont =>
    obtain ⟨hhandlers, hdestroy, thp1, hthp1, hif⟩ := specialCase_frees hcont hthp
    generalize specialCaseSignalhandling prp true pup.signo false = res at hhandlers hdestroy hthp1 ⊢
    obtain ⟨prp1, status⟩ := res
    dsimp only at hhandlers hdestroy hthp1 ⊢
    rw [hthp1]
    dsimp only
    have hcase : thp1 = thp ∨ thp1 = thp.remove sigcont := by rw [hif]; split <;> simp
    have hpend1 := Thread.special_pending hcase hpend hcont rfl
    have hfrees : Frees q pup.signo ↔ Frees prp pup.signo := by simp only [Frees, Proc.handles, hq.1, hq.2]
    rw [if_congr hfrees rfl rfl]
    generalize hd : decide (thp1.sigPending ≠ thp.sigPending) = gone at hpend1 ⊢
    have hgone1 : (removed || gone) = true → ∀ next ∈ thp1.sigPending, ¬ next.Continues := by
      intro hr next hnext
      rcases (Bool.or_eq_true _ _).mp hr with hr | hg
      · exact hgone hr next (Thread.special_subset hif hnext)
      · exact (Thread.special_gone hif (of_decide_eq_true (hd.trans hg))).2.2 next hnext
    split
    · next hnext =>
      obtain ⟨hg, hhead⟩ := (Bool.and_eq_true _ _).mp hnext
      obtain ⟨next, hnext, hc⟩ := (Option.any_eq_true _ _).mp hhead
      have hne := of_decide_eq_true (hd.trans hg)
      obtain ⟨hf, hv, -⟩ := Thread.special_gone hif hne
      rw [if_pos hf] at hif ⊢
      refine iff_of_false (by simp) fun h => h ?_ hv next hnext (by simpa [Pulse.Continues] using hc)
      by_contra hr
      exact hne (hif ▸ Thread.remove_eq_self (hgone (Bool.not_eq_false _ ▸ hr)))
    · next hnext =>
      have hrest : removed = false → ∀ next ∈ rest, next ∈ thp.sigPending := fun hr next hmem => by
        simp [hpend, hr, left, hmem]
      have hiff := stopNext_special (q := { q with destroyAll := q.destroyAll || decide (pup.signo = sigkill) }) hif
        hrest hd fun next hhead hc => Bool.eq_false_iff.mpr fun hg => hnext (by simp [hg, Option.mem_def.mp hhead, hc.1, hc.2])
      have hq1 : q.handlers = prp1.handlers ∧ (q.destroyAll || decide (pup.signo = sigkill)) = prp1.destroyAll :=
        ⟨hq.1.trans hhandlers.symm, by rw [hdestroy, hq.2]⟩
      split
      · exact (ih { thp1 with sigActive := true } (thread_setThread_self hthp1) (by simpa using hpend1) hgone1 hq1).trans hiff
      · exact (ih { thp1 with sigPending := _ ++ left (removed || gone) rest } (thread_setThread_self hthp1) rfl
          (fun hr next hnext => hgone1 hr next (hpend1 ▸ hsub hnext)) hq1).trans hiff

/-- The queue of the thread when the loop of signal_block starts: the pulses of the process that the mask lets
through have joined it. -/
def blockQueue (prp : Proc) (thp : Thread) (mask : SigSet) : List Pulse :=
  (prp.sigPending.filter fun pup => !sigTst mask pup.signo).foldl
    (fun queue pup => StableQueue.enqueue Pulse.key pup queue) thp.sigPending

/-- signal_block reads, unlinks and frees no pulse that was freed before, unless the first stop signal it lets
through is directly followed by SIGCONT on the queue of a valid thread. -/
theorem signalBlock_returns (prp : Proc) (tid : Nat) (sigBlocked : SigSet) :
    (∃ prp', signalBlock prp tid sigBlocked = some prp') ↔
      ∀ thp, prp.thread tid = some thp → thp.valid →
        ∀ next ∈ stopNext (sigmaskNoKillstop sigBlocked) prp (blockQueue prp thp (sigmaskNoKillstop sigBlocked)),
          ¬ next.Continues := by
  rw [← Option.isSome_iff_exists, signalBlock]
  cases hthp : prp.thread tid with
  | none => simp
  | some thp =>
    simp only [Option.isSome_map, Option.some.injEq, forall_eq']
    let mask := sigmaskNoKillstop sigBlocked
    let prp1 : Proc := { prp with sigPending := prp.sigPending.filter fun pup => sigTst mask pup.signo }
    have hset : prp1.thread tid = some thp := hthp
    have hloop := @blockLoop_isSome (prp1.setThread tid _) tid
      { thp with sigBlocked := mask, sigPending := blockQueue prp thp mask, sigActive := false } prp false [] _
      (thread_setThread_self hset) rfl (fun h => absurd h (by decide)) ⟨rfl, rfl⟩
    exact hloop.trans (forall_prop_of_true rfl)

/-- SIGCONT comes before SIGTTIN on the queue, and the mask lets both through. -/
example :
    let ops : List Op := [.create 0, .valid 0, .procmask 0 .block 0x3000000#64,
      .killProcess ⟨sigcont, 0, 0, 0⟩ plainEnv, .killProcess ⟨sigttin, 0, 0, 0⟩ plainEnv]
    (run ops (newProc 0 0)).any (fun prp =>
      Pending prp sigttin ∧ Pending prp sigcont ∧ (signalBlock prp 0 0).isSome) = true := by
  decide +kernel

/-- SIGTSTP and SIGCONT are let through together. The process stops, SIGCONT is freed, and the loop goes on
with it. -/
theorem signalBlock_freed :
    let ops : List Op := [.create 0, .valid 0, .procmask 0 .block 0x1800000#64,
      .killProcess ⟨sigcont, 0, 0, 0⟩ plainEnv, .killProcess ⟨sigtstp, 0, 0, 0⟩ plainEnv]
    (run ops (newProc 0 0)).any (fun prp => (signalBlock prp 0 0).isNone) = true := by
  decide +kernel

end QRV.Nano.Signal
