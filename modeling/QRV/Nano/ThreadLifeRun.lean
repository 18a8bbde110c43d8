import QRV.Nano.ThreadLife

/- Who points at a thread, over whole runs. While threads, timers, alarms and interrupts come and go,
   all pointers lead to threads that are not dead (`Sound`), so that none is left when the object is
   returned. `valid_thp` is found again in time (`findThread_mem`, `findThread_ne_none`), interrupts and
   the alarm follow it or go.

   Timers do so only if they are active and have the process for their target, and if a thread is left.
   A timer that has expired or has been disabled, or that signals a thread, keeps its pointer; and
   thread_create returns the object of a thread whose creation is refused by a hook, although it is in
   the thread vector. -/
namespace QRV.Nano.ThreadLife

open List Option
open Function (update update_of_ne update_self)

variable {T : Type} {prp : Process T}
variable {prp' : Process T} {thp : T}

/-- A thread of the process that is not dead. -/
def Alive (prp : Process T) (thp : T) : Prop := thp ∈ prp.threads ∧ prp.life thp ≠ .dead

/-- A pointer that is null or leads to a thread that is not dead. -/
def Points (prp : Process T) (p : Option T) : Prop := ∀ thp, p = some thp → Alive prp thp

structure Sound (prp : Process T) : Prop where
  nodup : prp.threads.Nodup
  owned : ∀ thp ∈ prp.threads, thp ∈ prp.allocated
  /-- Lookups do not find a dead thread. -/
  hidden : ∀ thp ∈ prp.threads, prp.life thp = .dead → prp.flagged thp = true
  count : prp.numActiveThreads = prp.threads.countP (prp.life · ≠ .dead)
  valid : Points prp prp.validThp
  found : 0 < prp.numActiveThreads → prp.validThp ≠ none
  timers : ∀ tip ∈ prp.timers, Points prp tip.thread
  alarm : ∀ tip, prp.alarm = some tip → Points prp tip.thread
  interrupts : ∀ itp ∈ prp.interrupts, Points prp itp.thread
  check : prp.interrupts ≠ [] → prp.checkIntr = true

theorem Sound.refs (h : Sound prp) {timers : List (Timer T)} {alarm : Option (Timer T)}
    {interrupts : List (Interrupt T)} {checkIntr : Bool} (ht : ∀ tip ∈ timers, Points prp tip.thread)
    (ha : ∀ tip, alarm = some tip → Points prp tip.thread) (hi : ∀ itp ∈ interrupts, Points prp itp.thread)
    (hc : interrupts ≠ [] → checkIntr = true) :
    Sound { prp with timers := timers, alarm := alarm, interrupts := interrupts, checkIntr := checkIntr } :=
  ⟨h.nodup, h.owned, h.hidden, h.count, h.valid, h.found, ht, ha, hi, hc⟩

theorem Points.mono {p : Option T} (h : Points prp p) (hle : ∀ thp, Alive prp thp → Alive prp' thp) :
    Points prp' p := fun thp hp => hle thp (h thp hp)

theorem points_none : Points prp none := nofun

theorem Points.but {p : Option T} (h : Points prp p) (hp : p ≠ some thp)
    (hle : ∀ t, Alive prp t → t ≠ thp → Alive prp' t) : Points prp' p := fun t ht =>
  hle t (h t ht) fun heq => hp (heq ▸ ht)

variable [DecidableEq T]

/-! ## Creation -/

theorem threadCreate_sound (h : Sound prp) (thp : T) (pos : Nat) : Sound (threadCreate thp pos false prp) := by
  rw [threadCreate]
  split
  · exact h
  · next hnew =>
    rw [not_or] at hnew
    obtain ⟨hfree, hnot⟩ := hnew
    have hperm : (prp.threads.insertIdx (min pos prp.threads.length) thp).Perm (thp :: prp.threads) :=
      perm_insertIdx thp prp.threads (Nat.min_le_right _ _)
    have hold : ∀ {t}, t ∈ prp.threads → t ≠ thp := fun ht heq => hnot (heq ▸ ht)
    rw [if_neg Bool.false_ne_true]
    have hle : ∀ t, Alive prp t → t ∈ prp.threads.insertIdx (min pos prp.threads.length) thp ∧
        update prp.life thp .live t ≠ .dead := by
      intro t ht
      refine ⟨hperm.mem_iff.mpr (.tail _ ht.1), ?_⟩
      rw [update_of_ne (hold ht.1)]
      exact ht.2
    refine ⟨?_, fun t ht => ?_, fun t ht hdead => ?_, ?_, fun t ht => ?_, fun _ => ?_, ?_, ?_, ?_, h.check⟩
    · exact hperm.nodup_iff.mpr (nodup_cons.mpr ⟨hnot, h.nodup⟩)
    · rcases mem_cons.mp (hperm.mem_iff.mp ht) with rfl | ht
      · exact mem_cons_self
      · exact .tail _ (h.owned t ht)
    · dsimp only at hdead ⊢
      rcases mem_cons.mp (hperm.mem_iff.mp ht) with rfl | ht
      · rw [update_self]
      · rw [update_of_ne (hold ht)] at hdead
        rw [update_of_ne (hold ht), update_of_ne (hold ht)]
        exact h.hidden t ht hdead
    · have hsame : prp.threads.countP (update prp.life thp .live · ≠ .dead) =
          prp.threads.countP (prp.life · ≠ .dead) := by
        refine countP_congr fun t ht => ?_
        rw [update_of_ne (hold ht)]
      have hone : decide (update prp.life thp .live thp ≠ .dead) = true := by
        rw [update_self]
        decide
      rw [hperm.countP_eq, countP_cons, hsame, h.count, if_pos hone]
    · split at ht
      · cases ht
        refine ⟨hperm.mem_iff.mpr mem_cons_self, ?_⟩
        dsimp only
        rw [update_self]
        decide
      · exact hle t (h.valid t ht)
    · split
      · nofun
      · assumption
    · exact fun tip htip => (h.timers tip htip).mono hle
    · exact fun tip htip => (h.alarm tip htip).mono hle
    · exact fun itp hitp => (h.interrupts itp hitp).mono hle

theorem threadStart_sound (h : Sound prp) (thp : T) : Sound (threadStart thp prp) := by
  rw [threadStart]
  split
  · next hlive =>
    refine ⟨h.nodup, h.owned, fun t ht hdead => ?_, h.count, h.valid, h.found, h.timers, h.alarm, h.interrupts, h.check⟩
    have hne : t ≠ thp := by
      rintro rfl
      rw [hlive.2] at hdead
      cases hdead
    dsimp only
    rw [update_of_ne hne]
    exact h.hidden t ht hdead
  · exact h

/-! ## Death -/

omit [DecidableEq T] in
theorem findThread_mem {flagged : T → Bool} {life : T → Life} {l : List T} {thp3 : Option T} {t : T}
    (h : findThread flagged life l thp3 = some t) :
    (t ∈ l ∧ (flagged t = false ∨ life t ≠ .dead)) ∨ thp3 = some t := by
  induction l generalizing thp3 with
  | nil => exact .inr h
  | cons x l ih =>
    rw [findThread] at h
    split at h
    · next hflag =>
      cases h
      exact .inl ⟨mem_cons_self, .inl hflag⟩
    · rcases ih h with ⟨hmem, hgood⟩ | hthp3
      · exact .inl ⟨.tail _ hmem, hgood⟩
      · split at hthp3
        · next hlife =>
          obtain rfl := some.inj hthp3
          exact .inl ⟨mem_cons_self, .inr hlife⟩
        · exact .inr hthp3

omit [DecidableEq T] in
theorem findThread_ne_none {flagged : T → Bool} {life : T → Life} {l : List T} {thp3 : Option T}
    (h : thp3 ≠ none ∨ ∃ t ∈ l, life t ≠ .dead) : findThread flagged life l thp3 ≠ none := by
  induction l generalizing thp3 with
  | nil =>
    rcases h with h | ⟨t, ht, -⟩
    · exact h
    · cases ht
  | cons x l ih =>
    rw [findThread]
    split
    · nofun
    · refine ih ?_
      rcases h with h | ⟨t, ht, hlife⟩
      · left
        split
        · nofun
        · exact h
      · rcases mem_cons.mp ht with rfl | ht
        · left
          rw [if_pos hlife]
          nofun
        · exact .inr ⟨t, ht, hlife⟩

theorem countP_kill (h : Sound prp) (hthp : Alive prp thp) :
    prp.threads.countP (update prp.life thp .dead · ≠ .dead) = prp.numActiveThreads - 1 ∧
      0 < prp.numActiveThreads := by
  have hperm := perm_cons_erase hthp.1
  have hrest : (prp.threads.erase thp).countP (update prp.life thp .dead · ≠ .dead) =
      (prp.threads.erase thp).countP (prp.life · ≠ .dead) := by
    refine countP_congr fun t ht => ?_
    have hne : t ≠ thp := ((List.Nodup.mem_erase_iff h.nodup).mp ht).1
    rw [update_of_ne hne]
  have hcount := h.count
  rw [hperm.countP_eq, countP_cons] at hcount
  have hone : decide (prp.life thp ≠ .dead) = true := decide_eq_true hthp.2
  simp only [hone, if_true] at hcount
  rw [hperm.countP_eq, countP_cons, hrest, update_self]
  have hzero : decide (Life.dead ≠ Life.dead) = false := by decide
  simp only [hzero, Bool.false_eq_true, if_false]
  omega

theorem alive_kill {thp t : T} (ht : Alive prp t) (hne : t ≠ thp) : Alive (kill thp prp) t := by
  refine ⟨ht.1, ?_⟩
  simp only [kill]
  rw [update_of_ne hne]
  exact ht.2

/-- `valid_thp` is another thread that is not dead, if there is one. -/
theorem kill_valid (h : Sound prp) (hthp : Alive prp thp) :
    Points (kill thp prp) (kill thp prp).validThp ∧ (0 < prp.numActiveThreads - 1 → (kill thp prp).validThp ≠ none) := by
  obtain ⟨hcount, hpos⟩ := countP_kill h hthp
  by_cases hn : prp.numActiveThreads - 1 = 0
  · have hnone : (kill thp prp).validThp = none := by simp [kill, hn]
    rw [hnone]
    exact ⟨points_none, fun hlt => absurd hn (Nat.ne_of_gt hlt)⟩
  · by_cases hvalid : prp.validThp = some thp
    · have heq : (kill thp prp).validThp = findThread (update prp.flagged thp true)
          (update prp.life thp .dead) prp.threads none := by
        simp [kill, hn, hvalid]
      rw [heq]
      refine ⟨fun t ht => ?_, fun _ => findThread_ne_none (.inr ?_)⟩
      · obtain ⟨hmem, hgood⟩ := (findThread_mem ht).resolve_right nofun
        refine ⟨hmem, fun hdead => ?_⟩
        simp only [kill] at hdead
        rcases hgood with hflag | hlife
        · by_cases hne : t = thp
          · rw [hne, update_self] at hflag
            cases hflag
          · rw [update_of_ne hne] at hflag hdead
            rw [h.hidden t hmem hdead] at hflag
            cases hflag
        · exact hlife hdead
      · have hlt : 0 < prp.threads.countP (update prp.life thp .dead · ≠ .dead) := by omega
        obtain ⟨t, ht, hlife⟩ := countP_pos_iff.mp hlt
        exact ⟨t, ht, of_decide_eq_true hlife⟩
    · have heq : (kill thp prp).validThp = prp.validThp := by simp [kill, hn, hvalid]
      rw [heq]
      exact ⟨h.valid.but hvalid fun t ht hne => alive_kill ht hne, fun _ => h.found hpos⟩

theorem retarget_points {n : Nat} {v : Option T} {tip : Timer T} (hv : Points prp v)
    (hfollow : tip.thread = some thp → tip.active = true ∧ tip.targetProcess = true ∧ v ≠ none)
    (hother : tip.thread ≠ some thp → Points prp tip.thread) : Points prp (retarget thp n v tip).thread := by
  rw [retarget]
  by_cases hthread : tip.thread = some thp
  · -- it follows valid_thp
    obtain ⟨hactive, htarget, hsome⟩ := hfollow hthread
    rw [if_pos ⟨hactive, .inr hthread⟩, if_pos ⟨htarget, hsome⟩]
    exact hv
  · split
    · split
      · exact hv
      · exact hother hthread
    · exact hother hthread

theorem retargetIntr_points {n : Nat} {v : Option T} {itp itp' : Interrupt T} (hv : Points prp v)
    (hother : itp.thread ≠ some thp → Points prp itp.thread) (h : retargetIntr thp n v itp = some itp') :
    Points prp itp'.thread := by
  rw [retargetIntr] at h
  split at h
  · cases h
  · split at h
    · next hthread => exact some.inj h ▸ hother hthread
    · split at h
      · exact some.inj h ▸ hv
      · cases h

/-- What a thread leaves behind: timers that point at it have to be active and to have the process for their target,
and another thread has to be left. -/
theorem kill_sound (h : Sound prp) (hthp : Alive prp thp)
    (htimers : ∀ tip ∈ prp.timers, tip.thread = some thp →
      tip.active = true ∧ tip.targetProcess = true ∧ 1 < prp.numActiveThreads) : Sound (kill thp prp) := by
  obtain ⟨hcount, hpos⟩ := countP_kill h hthp
  obtain ⟨hvalid, hfound⟩ := kill_valid h hthp
  have hbut : ∀ {p : Option T}, Points prp p → p ≠ some thp → Points (kill thp prp) p := fun hp hne =>
    hp.but hne fun t ht hne => alive_kill ht hne
  refine ⟨h.nodup, h.owned, fun t ht hdead => ?_, hcount.symm, hvalid, hfound, fun tip htip => ?_, fun tip htip => ?_,
    fun itp hitp => ?_, fun hne => ?_⟩
  · simp only [kill] at hdead ⊢
    by_cases hne : t = thp
    · rw [hne, update_self]
    · rw [update_of_ne hne] at hdead ⊢
      exact h.hidden t ht hdead
  · obtain ⟨tip, htip', rfl⟩ := mem_map.mp htip
    refine retarget_points hvalid (fun hthread => ?_) fun hthread => hbut (h.timers tip htip') hthread
    obtain ⟨hactive, htarget, hmore⟩ := htimers tip htip' hthread
    exact ⟨hactive, htarget, hfound (by omega)⟩
  · obtain ⟨tip, htip', rfl⟩ := map_eq_some_iff.mp htip
    rw [retargetAlarm]
    split
    · exact hvalid
    · next hthread => exact hbut (h.alarm tip htip') hthread
  · simp only [kill] at hitp
    by_cases hcheck : prp.checkIntr = true
    · rw [if_pos hcheck] at hitp
      obtain ⟨itp, hitp', heq⟩ := mem_filterMap.mp hitp
      exact retargetIntr_points hvalid (fun hthread => hbut (h.interrupts itp hitp') hthread) heq
    · -- no interrupt was ever attached
      rw [if_neg hcheck] at hitp
      exact absurd (h.check (ne_nil_of_mem hitp)) hcheck
  · simp only [kill] at hne ⊢
    refine h.check fun hnil => hne ?_
    rw [hnil]
    split <;> rfl

theorem remove_sound (h : Sound prp) (hdead : prp.life thp = .dead) (zombie : Bool) :
    Sound (remove thp zombie prp) := by
  rw [remove]
  split
  · exact h
  · have hle : ∀ t, Alive prp t → t ∈ prp.threads.erase thp ∧ prp.life t ≠ .dead := by
      intro t ht
      refine ⟨(mem_erase_of_ne ?_).mpr ht.1, ht.2⟩
      rintro rfl
      exact ht.2 hdead
    refine ⟨h.nodup.erase _, fun t ht => ?_, fun t ht => h.hidden t (mem_of_mem_erase ht), ?_, h.valid.mono hle,
      h.found, fun tip htip => (h.timers tip htip).mono hle, fun tip htip => (h.alarm tip htip).mono hle,
      fun itp hitp => (h.interrupts itp hitp).mono hle, h.check⟩
    · obtain ⟨hne, hmem⟩ := (List.Nodup.mem_erase_iff h.nodup).mp ht
      exact (mem_erase_of_ne hne).mpr (h.owned t hmem)
    · by_cases hmem : thp ∈ prp.threads
      · have hzero : decide (prp.life thp ≠ .dead) = false := by simp [hdead]
        rw [h.count, (perm_cons_erase hmem).countP_eq, countP_cons, hzero]
        rfl
      · rw [erase_of_not_mem hmem]
        exact h.count

theorem threadDestroy_sound (h : Sound prp) (thp : T) (env : Env)
    (htimers : prp.life thp ≠ .dead → env.later = false → env.stack = false → ∀ tip ∈ prp.timers,
      tip.thread = some thp → tip.active = true ∧ tip.targetProcess = true ∧ 1 < prp.numActiveThreads) :
    Sound (threadDestroy thp env prp) := by
  rw [threadDestroy]
  split
  · exact h
  · next hthp =>
    rw [not_not] at hthp
    split
    · next hdead => exact remove_sound h hdead _
    · next hlife =>
      split
      · exact h
      · next hlater =>
        split
        · -- STATE_STACK is not STATE_DEAD
          have hle : ∀ t, update prp.life thp .stack t ≠ .dead ↔ prp.life t ≠ .dead := by
            intro t
            by_cases hne : t = thp
            · rw [hne, update_self]
              exact iff_of_true nofun hlife
            · rw [update_of_ne hne]
          have hpoints : ∀ t, Alive prp t → t ∈ prp.threads ∧ update prp.life thp .stack t ≠ .dead :=
            fun t ht => ⟨ht.1, (hle t).mpr ht.2⟩
          refine ⟨h.nodup, h.owned, fun t ht hdead => ?_, ?_, h.valid.mono hpoints, h.found,
            fun tip htip => (h.timers tip htip).mono hpoints, fun tip htip => (h.alarm tip htip).mono hpoints,
            fun itp hitp => (h.interrupts itp hitp).mono hpoints, h.check⟩
          · exact h.hidden t ht (not_not.mp fun hno => (hle t).mpr hno hdead)
          · rw [h.count]
            refine countP_congr fun t _ => ?_
            rw [decide_eq_true_iff, decide_eq_true_iff]
            exact (hle t).symm
        · next hstack =>
          refine remove_sound (kill_sound h ⟨hthp, hlife⟩ ?_) (update_self _ _ _) _
          exact htimers hlife (Bool.not_eq_true _ ▸ hlater) (Bool.not_eq_true _ ▸ hstack)

/-! ## Runs -/

/-- No hook refuses a thread after it was entered, and a thread that dies is the target of no timer but of active
ones that follow another thread. -/
def Clean (prp : Process T) : Op T → Prop
  | .create _ _ hookFails => hookFails = false
  | .destroy thp env => prp.life thp ≠ .dead → env.later = false → env.stack = false → ∀ tip ∈ prp.timers,
      tip.thread = some thp → tip.active = true ∧ tip.targetProcess = true ∧ 1 < prp.numActiveThreads
  | _ => True

theorem step_sound (h : Sound prp) {op : Op T} (hop : Clean prp op)
    (hstep : step prp op = some prp') : Sound prp' := by
  cases op with
  | create thp pos hookFails =>
    cases hstep
    obtain rfl : hookFails = false := hop
    exact threadCreate_sound h thp pos
  | start thp =>
    cases hstep
    exact threadStart_sound h thp
  | destroy thp env =>
    cases hstep
    exact threadDestroy_sound h thp env hop
  | timerCreate act id signalThread =>
    rw [step] at hstep
    split at hstep
    · cases hstep
      refine h.refs (fun tip htip => ?_) h.alarm h.interrupts h.check
      rcases mem_append.mp htip with htip | htip
      · exact h.timers tip htip
      · rw [mem_singleton.mp htip]
        exact points_none
    · exact some.inj hstep ▸ h
  | timerDestroy id =>
    cases hstep
    exact h.refs (fun tip htip => h.timers tip (mem_of_mem_filter htip)) h.alarm h.interrupts h.check
  | timerSettime act id nsec =>
    rw [step] at hstep
    split at hstep
    · next hcalls =>
      cases hstep
      refine h.refs (fun tip htip => ?_) h.alarm h.interrupts h.check
      obtain ⟨tip, htip', rfl⟩ := mem_map.mp htip
      split
      · rw [timerSettime]
        split
        · intro t ht
          cases ht
          exact ⟨hcalls.1, by rw [hcalls.2]; decide⟩
        · exact h.timers tip htip'
      · exact h.timers tip htip'
    · exact some.inj hstep ▸ h
  | timerExpire id =>
    cases hstep
    refine h.refs (fun tip htip => ?_) h.alarm h.interrupts h.check
    obtain ⟨tip, htip', rfl⟩ := mem_map.mp htip
    split <;> exact h.timers tip htip'
  | timerInfo id =>
    rw [step] at hstep
    split at hstep
    · exact some.inj hstep ▸ h
    · rw [timerInfo] at hstep
      split at hstep
      · exact some.inj hstep ▸ h
      · split at hstep
        · cases hstep
        · split at hstep
          · exact some.inj hstep ▸ h
          · cases hstep
  | alarm act nsec =>
    rw [step] at hstep
    split at hstep
    · next hcalls =>
      cases hstep
      refine h.refs h.timers (fun tip htip => ?_) h.interrupts h.check
      rw [timerAlarm] at htip
      split at htip
      · cases htip
      · cases htip
        intro t ht
        cases ht
        exact ⟨hcalls.1, by rw [hcalls.2]; decide⟩
    · exact some.inj hstep ▸ h
  | alarmExpire =>
    cases hstep
    refine h.refs h.timers (fun tip htip => ?_) h.interrupts h.check
    obtain ⟨tip, htip', rfl⟩ := map_eq_some_iff.mp htip
    exact h.alarm tip htip'
  | attach act id process =>
    rw [step] at hstep
    split at hstep
    · next hcalls =>
      cases hstep
      refine h.refs h.timers h.alarm (fun itp hitp => ?_) fun _ => rfl
      rcases mem_append.mp hitp with hitp | hitp
      · exact h.interrupts itp hitp
      · rw [mem_singleton.mp hitp]
        intro t ht
        cases ht
        exact ⟨hcalls.1.1, by rw [hcalls.1.2]; decide⟩
    · exact some.inj hstep ▸ h
  | detach id =>
    cases hstep
    refine h.refs h.timers h.alarm (fun itp hitp => h.interrupts itp (mem_of_mem_filter hitp)) fun hne => h.check ?_
    rintro hnil
    rw [hnil] at hne
    exact hne rfl

/-- Nothing refers to a thread whose object was returned, and the threads are counted. -/
structure Refers (prp : Process T) : Prop where
  timers : ∀ tip ∈ prp.timers, ∀ thp, tip.thread = some thp → thp ∈ prp.allocated
  alarm : ∀ tip, prp.alarm = some tip → ∀ thp, tip.thread = some thp → thp ∈ prp.allocated
  interrupts : ∀ itp ∈ prp.interrupts, ∀ thp, itp.thread = some thp → thp ∈ prp.allocated
  valid : ∀ thp, prp.validThp = some thp → thp ∈ prp.allocated
  count : prp.numActiveThreads = prp.threads.countP (prp.life · ≠ .dead)
  found : 0 < prp.numActiveThreads → ∃ thp, prp.validThp = some thp ∧ Alive prp thp

omit [DecidableEq T] in
theorem Sound.refers (h : Sound prp) : Refers prp := by
  have howned : ∀ {p : Option T}, Points prp p → ∀ thp, p = some thp → thp ∈ prp.allocated := fun hp thp hthp =>
    h.owned thp (hp thp hthp).1
  refine ⟨fun tip htip => howned (h.timers tip htip), fun tip htip => howned (h.alarm tip htip),
    fun itp hitp => howned (h.interrupts itp hitp), howned h.valid, h.count, fun hpos => ?_⟩
  obtain ⟨thp, hthp⟩ := ne_none_iff_exists'.mp (h.found hpos)
  exact ⟨thp, hthp, h.valid thp hthp⟩

/-- Every state that a run from a process without threads reaches. -/
theorem references_kept (ops : List (Op T)) (prp : Process T) (hops : Run.Along step Clean ops newProcess)
    (hrun : run ops newProcess = some prp) : Refers prp := by
  have hnew : Sound (newProcess : Process T) :=
    ⟨nodup_nil, by nofun, by nofun, rfl, points_none, by nofun, by nofun, by nofun, by nofun, by nofun⟩
  exact (Run.inv (fun h hop hstep => step_sound h hop hstep) hnew hops hrun).refers

instance Clean.decidable (prp : Process T) : ∀ op, Decidable (Clean prp op)
  | .create _ _ hookFails => inferInstanceAs (Decidable (hookFails = false))
  | .destroy thp env =>
    inferInstanceAs (Decidable (prp.life thp ≠ .dead → env.later = false → env.stack = false →
      ∀ tip ∈ prp.timers, tip.thread = some thp →
        tip.active = true ∧ tip.targetProcess = true ∧ 1 < prp.numActiveThreads))
  | .start _ | .timerCreate .. | .timerDestroy _ | .timerSettime .. | .timerExpire _ | .timerInfo _ | .alarm ..
  | .alarmExpire | .attach .. | .detach _ => isTrue trivial

/-- The first thread goes while its timer, its alarm and its interrupt are active, at first without success, then
after its stack was freed, and as a zombie. -/
def mainExitOps : List (Op Nat) :=
  [.create 1 0 false, .start 1, .create 2 1 false, .start 2, .timerCreate 1 0 false, .timerSettime 1 0 100, .alarm 1 5,
    .attach 1 0 true, .attach 1 1 false, .destroy 1 ⟨true, false, true⟩, .destroy 1 ⟨false, true, true⟩,
    .destroy 1 ⟨false, false, true⟩, .destroy 1 ⟨false, false, false⟩, .timerInfo 0]

theorem references_kept_main_exit : ∃ prp, run mainExitOps newProcess = some prp ∧ prp.threads = [2] ∧ Refers prp := by
  have hrun : (run mainExitOps newProcess).any (fun prp => decide (prp.threads = [2])) = true := by decide +kernel
  obtain ⟨prp, hprp, hthreads⟩ := (any_eq_true _ _).mp hrun
  exact ⟨prp, hprp, of_decide_eq_true hthreads, references_kept mainExitOps prp (by decide +kernel) hprp⟩

/-- A thread sets a timer that is to signal it, and exits after the timer has expired. -/
def expiredOps : List (Op Nat) :=
  [.create 1 0 false, .start 1, .create 2 1 false, .start 2, .timerCreate 2 0 true, .timerSettime 2 0 100,
    .timerExpire 0, .destroy 2 ⟨false, false, false⟩]

/-- The timer refers to the thread that is gone, and ker_timer_info follows the pointer. -/
theorem expired_timer_dangles : (∃ prp, run expiredOps newProcess = some prp ∧ prp.allocated = [1] ∧
      (∃ tip ∈ prp.timers, tip.thread = some 2) ∧ ¬ Refers prp) ∧
    run (expiredOps ++ [.timerInfo 0]) newProcess = none := by
  have hrun : (run expiredOps newProcess).any (fun prp => decide (prp.allocated = [1] ∧
      ∃ tip ∈ prp.timers, tip.thread = some 2)) = true := by
    decide +kernel
  have hcrash : (run (expiredOps ++ [.timerInfo 0]) newProcess).isNone = true := by decide +kernel
  obtain ⟨prp, hprp, hall⟩ := (any_eq_true _ _).mp hrun
  obtain ⟨hallocated, hdangling⟩ := of_decide_eq_true hall
  refine ⟨⟨prp, hprp, hallocated, hdangling, fun h => ?_⟩, isNone_iff_eq_none.mp hcrash⟩
  obtain ⟨tip, htip, hthread⟩ := hdangling
  have hmem := h.timers tip htip 2 hthread
  rw [hallocated] at hmem
  revert hmem
  decide

end QRV.Nano.ThreadLife
