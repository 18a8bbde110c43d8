import QRV.Lib.StableQueue

/- Semaphores (ker_sync.c, nano_sync.c). The waiting list of a semaphore is a priority
   list, here the stable queue that pril_add and pril_rem keep (`pril_run`). Besides
   threads it can hold event entries: SyncCtl does not ask whether the object it
   attaches an event to is a mutex.

   `World` counts, beside the semaphore, the posts and waits that succeeded. A post
   succeeds when the call returns EOK; a wait succeeds when it finds the semaphore
   available, or when a post wakes the thread. A thread that is made ready otherwise
   (force_ready) returns an error.

   Correspondence (C ↔ Lean) where the names differ:
     `ker_sync_sem_wait`, `ker_sync_sem_post`   ↔ `semWait`, `semPost`
     `ker_sync_ctl` with _NTO_SCTL_SETEVENT     ↔ `setEvent`
     `force_ready` of a thread in STATE_SEM     ↔ `forceReady` -/
namespace QRV.Nano.Semaphore

open StableQueue List

/-- What a waiting list holds: threads, and the events of processes. -/
inductive Kind (T P : Type) where
  | thread (thp : T)
  | event (process : P)
  deriving DecidableEq, Repr

/-- An entry of the list with its priority. -/
structure Entry (T P : Type) where
  kind : Kind T P
  priority : Nat
  deriving DecidableEq, Repr

/-- The user's sync_t and the waiting list of its SYNC. -/
structure Sem (T P : Type) where
  /-- `owner` is _NTO_SYNC_SEM or, from old libraries, zero. -/
  isSem : Bool
  count : Int
  waiting : List (Entry T P)

variable {T P : Type} [DecidableEq T] [DecidableEq P]

/-- `pril_add` to the waiting list. -/
def Sem.add (s : Sem T P) (e : Entry T P) : Sem T P := { s with waiting := enqueue Entry.priority e s.waiting }

/-- sync_wakeup: the threads that are made ready, and the list without them. An entry in front
that is no thread is skipped, but only one. -/
def syncWakeup (all : Bool) : List (Entry T P) → List T × List (Entry T P)
  | [] => ([], [])
  | ⟨.thread thp, _⟩ :: rest =>
    if all then
      let (woken, rest) := syncWakeup all rest
      (thp :: woken, rest)
    else ([thp], rest)
  | ⟨.event prp, prio⟩ :: ⟨.thread thp, _⟩ :: rest =>
    if all then
      let (woken, rest) := syncWakeup all (⟨.event prp, prio⟩ :: rest)
      (thp :: woken, rest)
    else ([thp], ⟨.event prp, prio⟩ :: rest)
  | rest => ([], rest)
termination_by entries => entries.length

/-- What a call returns; ENOERROR leaves the status to what was set before. -/
inductive Ret where
  | eok | einval | eagain | etimedout | enoerror
  deriving DecidableEq, Repr

/-- ker_sync_sem_wait: what it returns at once, or `none` if the thread blocks. `imto` is an
immediate timeout, `pendcan` a pending cancellation. -/
def semWait (act : T) (priority : Nat) (try' imto pendcan : Bool) (s : Sem T P) : Sem T P × Option Ret :=
  if s.isSem = false then (s, some .einval)
  else if 0 < s.count then ({ s with count := s.count - 1 }, some .eok)
  else if try' then (s, some .eagain)
  else if imto then (s, some .etimedout)
  else if pendcan then (s, some .enoerror)
  else (s.add ⟨.thread act, priority⟩, none)

/-- ker_sync_sem_post, with the threads it wakes. -/
def semPost (s : Sem T P) : Sem T P × Ret × List T :=
  if s.isSem = false then (s, .einval, [])
  else if s.waiting = [] then ({ s with count := s.count + 1 }, .eok, [])
  else
    let (woken, rest) := syncWakeup false s.waiting
    ({ s with waiting := rest }, .eok, woken)

/-- The event of a process. -/
def Entry.isEvent (prp : P) (e : Entry T P) : Bool := e.kind = .event prp

/-- _NTO_SCTL_SETEVENT. `event` says whether there is an event to set, `alloc` whether
object_alloc succeeds; the priority of the new entry is what the object held. -/
def setEvent (prp : P) (event alloc : Bool) (priority : Nat) (s : Sem T P) : Sem T P × Ret :=
  match s.waiting.find? (Entry.isEvent prp) with
  | some e => if event then (s, .eok) else ({ s with waiting := s.waiting.erase e }, .eok)
  | none =>
    if event = false then (s, .eok)
    else if alloc = false then (s, .eagain)
    else (s.add ⟨.event prp, priority⟩, .eok)

/-- The entry of a thread. -/
def Entry.isThread (thp : T) (e : Entry T P) : Bool := e.kind = .thread thp

/-- force_ready of a thread that waits here. -/
def forceReady (thp : T) (s : Sem T P) : Sem T P :=
  match s.waiting.find? (Entry.isThread thp) with
  | some e => { s with waiting := s.waiting.erase e }
  | none => s

/-! ## Calls -/

inductive Op (T P : Type) where
  | wait (act : T) (priority : Nat) (try' imto pendcan : Bool)
  | post
  | forceReady (thp : T)
  | setEvent (prp : P) (event alloc : Bool) (priority : Nat)

/-- The semaphore, and the posts and waits that succeeded. -/
structure World (T P : Type) where
  sem : Sem T P
  posts : Nat
  waits : Nat

/-- A semaphore as ker_sync_create leaves it. -/
def World.start (count : Nat) : World T P := ⟨⟨true, count, []⟩, 0, 0⟩

def World.step (w : World T P) : Op T P → World T P
  | .wait act priority try' imto pendcan =>
    let (sem, ret) := semWait act priority try' imto pendcan w.sem
    ⟨sem, w.posts, if ret = some .eok then w.waits + 1 else w.waits⟩
  | .post =>
    let (sem, ret, woken) := semPost w.sem
    ⟨sem, if ret = .eok then w.posts + 1 else w.posts, w.waits + woken.length⟩
  | .forceReady thp => { w with sem := forceReady thp w.sem }
  | .setEvent prp event alloc priority => { w with sem := (setEvent prp event alloc priority w.sem).1 }

def World.run (ops : List (Op T P)) (w : World T P) : World T P := ops.foldl World.step w

/-! ## What a call keeps -/

/-- A thread is at one of the first two places, where a post finds it. -/
def InReach (waiting : List (Entry T P)) : Prop := ∃ e ∈ waiting.take 2, ∃ thp, e.kind = .thread thp

omit [DecidableEq T] [DecidableEq P] in
theorem syncWakeup_one {waiting : List (Entry T P)} (h : InReach waiting) :
    (syncWakeup false waiting).1.length = 1 ∧ ∀ e ∈ (syncWakeup false waiting).2, e ∈ waiting := by
  obtain ⟨e, he, thp, hk⟩ := h
  match waiting with
  | [] => cases he
  | ⟨.thread thp', prio⟩ :: rest =>
    rw [syncWakeup]
    exact ⟨rfl, fun e he => .tail _ he⟩
  | [⟨.event prp, prio⟩] =>
    obtain rfl := mem_singleton.mp he
    cases hk
  | ⟨.event prp, prio⟩ :: ⟨.event prp', prio'⟩ :: rest =>
    simp only [take_succ_cons, take_zero, mem_cons, not_mem_nil, or_false] at he
    cases he with
    | inl he =>
      rw [he] at hk
      cases hk
    | inr he =>
      rw [he] at hk
      cases hk
  | ⟨.event prp, prio⟩ :: ⟨.thread thp', prio'⟩ :: rest =>
    rw [syncWakeup]
    refine ⟨rfl, fun e he => ?_⟩
    cases mem_cons.mp he with
    | inl he => exact he ▸ mem_cons_self
    | inr he => exact .tail _ (.tail _ he)

/-- The count is what the successful calls make it, within its bounds, and zero while a thread
waits. -/
structure Balanced (max : Nat) (init : Nat) (w : World T P) : Prop where
  isSem : w.sem.isSem = true
  count : (init : Int) + w.posts - w.waits = w.sem.count
  pos : 0 ≤ w.sem.count
  le : w.sem.count ≤ max
  waiting : ∀ e ∈ w.sem.waiting, ∀ thp, e.kind = .thread thp → w.sem.count = 0

/-- Before a post either nobody waits and the count is below its maximum, or a thread is in
reach. -/
def Ok (max : Nat) (w : World T P) : Op T P → Prop
  | .post => (w.sem.waiting = [] ∧ w.sem.count < max) ∨ InReach w.sem.waiting
  | _ => True

def OkAlong (max : Nat) : List (Op T P) → World T P → Prop
  | [], _ => True
  | op :: ops, w => Ok max w op ∧ OkAlong max ops (w.step op)

variable {max init : Nat} {w : World T P}

section
variable (h : Balanced max init w)
include h

theorem wait_balanced (act : T) (priority : Nat) (try' imto pendcan : Bool) :
    Balanced max init (w.step (.wait act priority try' imto pendcan)) := by
  have hpos := h.pos
  have hle := h.le
  have hcount := h.count
  rw [World.step, semWait, if_neg (by simp [h.isSem])]
  split_ifs with h0
  · refine ⟨h.isSem, ?_, ?_, ?_, fun e he thp hk => ?_⟩
    · simp only [if_true]
      omega
    · dsimp only
      omega
    · dsimp only
      omega
    · -- nobody waits while the semaphore is available
      have := h.waiting e he thp hk
      omega
  all_goals try exact ⟨h.isSem, h.count, h.pos, h.le, h.waiting⟩
  refine ⟨h.isSem, h.count, h.pos, h.le, fun e he thp hk => ?_⟩
  show w.sem.count = 0
  omega

theorem post_balanced (hok : Ok max w .post) : Balanced max init (w.step .post) := by
  have hpos := h.pos
  have hle := h.le
  have hcount := h.count
  rw [World.step, semPost, if_neg (by simp [h.isSem])]
  by_cases hnil : w.sem.waiting = []
  · rw [if_pos hnil]
    have hlt : w.sem.count < max := by
      cases hok with
      | inl h => exact h.2
      | inr h =>
        obtain ⟨e, he, -⟩ := h
        rw [hnil] at he
        cases he
    refine ⟨h.isSem, ?_, ?_, ?_, fun e he => ?_⟩
    · simp only [if_true, length_nil]
      omega
    · dsimp only
      omega
    · dsimp only
      omega
    · rw [hnil] at he
      cases he
  · rw [if_neg hnil]
    have hreach := hok.resolve_left fun h => hnil h.1
    obtain ⟨hlen, hsub⟩ := syncWakeup_one hreach
    refine ⟨h.isSem, ?_, hpos, hle, fun e he thp hk => h.waiting e (hsub e he) thp hk⟩
    simp only [if_true, hlen]
    omega

theorem forceReady_balanced (thp : T) : Balanced max init (w.step (.forceReady thp)) := by
  rw [World.step, forceReady]
  cases w.sem.waiting.find? (Entry.isThread thp) with
  | none => exact ⟨h.isSem, h.count, h.pos, h.le, h.waiting⟩
  | some e =>
    exact ⟨h.isSem, h.count, h.pos, h.le, fun e' he' => h.waiting e' (mem_of_mem_erase he')⟩

theorem setEvent_balanced (prp : P) (event alloc : Bool) (priority : Nat) :
    Balanced max init (w.step (.setEvent prp event alloc priority)) := by
  rw [World.step, setEvent]
  cases w.sem.waiting.find? (Entry.isEvent prp) with
  | some e =>
    cases event with
    | true => exact ⟨h.isSem, h.count, h.pos, h.le, h.waiting⟩
    | false => exact ⟨h.isSem, h.count, h.pos, h.le, fun e' he' => h.waiting e' (mem_of_mem_erase he')⟩
  | none =>
    cases event with
    | false => exact ⟨h.isSem, h.count, h.pos, h.le, h.waiting⟩
    | true =>
      cases alloc with
      | false => exact ⟨h.isSem, h.count, h.pos, h.le, h.waiting⟩
      | true =>
        refine ⟨h.isSem, h.count, h.pos, h.le, fun e he thp hk => ?_⟩
        cases mem_enqueue.mp he with
        | inl he =>
          rw [he] at hk
          cases hk
        | inr he => exact h.waiting e he thp hk

theorem step_balanced {op : Op T P} (hok : Ok max w op) : Balanced max init (w.step op) := by
  cases op with
  | wait act priority try' imto pendcan => exact wait_balanced h act priority try' imto pendcan
  | post => exact post_balanced h hok
  | forceReady thp => exact forceReady_balanced h thp
  | setEvent prp event alloc priority => exact setEvent_balanced h prp event alloc priority

theorem run_balanced {ops : List (Op T P)} (hok : OkAlong max ops w) : Balanced max init (w.run ops) := by
  induction ops generalizing w with
  | nil => exact h
  | cons op ops ih => exact ih (step_balanced h hok.1) hok.2

end

/-- **No post is lost.** In every run of a semaphore with an initial value of at most SEM_VALUE_MAX
(`max`), in which each post finds the count below the maximum or a thread at one of the first
two places of the waiting list, the count is the initial value plus the successful posts minus
the successful waits, it is at most the maximum, and a thread waits only while it is zero. -/
theorem sem_balanced (max init : Nat) (hinit : init ≤ max) (ops : List (Op T P))
    (hok : OkAlong max ops (World.start init)) :
    let w := (World.start init : World T P).run ops
    (init : Int) + w.posts - w.waits = w.sem.count ∧ w.sem.count ≤ max ∧
      ∀ e ∈ w.sem.waiting, ∀ thp, e.kind = .thread thp → w.sem.count = 0 := by
  have hstart : Balanced max init (World.start init : World T P) := by
    refine ⟨rfl, ?_, Int.natCast_nonneg _, Int.ofNat_le.mpr hinit, nofun⟩
    simp [World.start]
  have h := run_balanced hstart hok
  exact ⟨h.count, h.le, h.waiting⟩

/-- Thread 1 blocks and is woken by the first post, the second post counts. -/
theorem sem_balanced_two :
    let w := (World.start 0 : World Nat Nat).run [.wait 1 10 false false false, .post, .post]
    w.sem.count = 1 ∧ w.posts = 2 ∧ w.waits = 1 ∧ ((0 : Nat) : Int) + w.posts - w.waits = w.sem.count := by
  have h := sem_balanced 1000000000 0 (by decide) ([.wait 1 10 false false false, .post, .post] : List (Op Nat Nat))
    ⟨trivial, .inr ⟨⟨.thread 1, 10⟩, by decide +kernel, 1, rfl⟩, .inl ⟨by decide +kernel, by decide +kernel⟩, trivial⟩
  exact ⟨by decide +kernel, by decide +kernel, by decide +kernel, h.1⟩

/-- An event is attached to the semaphore: the post finds the list not empty, wakes nobody and does
not count. -/
theorem sem_balanced_event :
    let w := (World.start 0 : World Nat Nat).run [.setEvent 5 true true 0, .post]
    w.posts = 1 ∧ w.waits = 0 ∧ w.sem.count = 0 ∧ ((0 : Nat) : Int) + w.posts - w.waits ≠ w.sem.count := by
  decide +kernel

end QRV.Nano.Semaphore
