import QRV.Lib.LinkCell
import QRV.Lib.Run

/- The queue of interrupt events of `kernel/nano/nano_event.c`. An interrupt handler that cannot act at
   once takes an INTREVENT from the free list and puts it at the end of `intrevent_pending`
   (intrevent_add); the kernel takes the whole list on its way out, acts on each event and puts it back
   (intrevent_drain). `intrevent_tail` is a pointer to a pointer, hence a cell. `preempt_ev` is a static
   entry that only makes the kernel enter intrevent_drain. If the free list is empty, intrevent_error
   cancels the events of the process with the most of them and queues a kill event in their place.

   One step is one section under `intrevent_lock`, or what a call does up to the next one. Any number of
   calls of intrevent_add can be under way (`calls`), for interrupts nest and there may be several
   processors; the kernel itself, and with it intrevent_drain, runs once (`phase`). What a step reads of
   its surroundings is in `Env`.

   Each event gets a number when it enters the queue; `executed`, `cancelled` and `kills` record what
   became of it. The fields of the event itself, the interrupt levels that are masked while the queue is
   drained, and events that are acted on at once are left out. The counters are 32 bits wide.

   `none` is a crash: a null pointer that is followed, or crash().

   Correspondence (C ↔ Lean) where the names differ:
     `intrevent_add`           ↔ `take`, `enqueue` (`Call.start`, `Call.masking`)
     `intrevent_error`         ↔ `countPending`, `survey`, `cancelAll`
     `intrevent_preemption`    ↔ `preemption`
     `intrevent_drain`         ↔ `drainStep`, over the phases of `Phase`
     `intrevent_alloc`         ↔ `alloc`, `Phase.account` -/
namespace QRV.Nano.Intrevent
open Function (update)
open LinkCell

/-- An INTREVENT: the static `preempt_ev`, or one of those that are allocated, in the order of allocation. -/
inductive Node where
  | preemptEv
  | ev (n : Nat)
  deriving DecidableEq, Repr

/-- Variables that hold the head of a list: `intrevent_pending`, `intrevent_free`, and `head` in
intrevent_alloc. -/
inductive Head where
  | pending
  | free
  | fresh
  deriving DecidableEq, Repr

/-- NUM_PRI -/
def numPri : Nat := 256

/-- MIN_INTRS_BAD -/
def minIntrsBad : Nat := 10

/-- The arguments of intrevent_add: the process of `thp`, and the priority of the pulse, or of `thp`. -/
structure Add (P : Type) where
  proc : P
  prio : Nat

/-- Where a call of intrevent_add is. -/
inductive Call (P : Type) where
  /-- at the head of its loop -/
  | start (c : Add P)
  /-- `irp` is taken, and the lock is open while the interrupt is masked -/
  | masking (c : Add P) (irp : Node)
  /-- in intrevent_error: before the first section, before the table is searched, before the second section -/
  | count (c : Add P)
  | survey (c : Add P)
  | cancel (c : Add P) (high : P)

/-- Where intrevent_drain is; the flag is `need_more`. -/
inductive Phase where
  | idle
  /-- before the list is taken -/
  | top (needMore : Bool)
  /-- before `irp` is acted on -/
  | exec (irp : Node) (needMore : Bool)
  /-- before `irp` is put back -/
  | put (irp : Node) (next : Option Node) (needMore : Bool)
  /-- the queue is empty; before intrevent_alloc -/
  | grow (needMore : Bool)
  /-- `n` more events are on the free list, and num_pev_alloc is to follow -/
  | account (n : Nat)
  deriving DecidableEq

structure State (P : Type) where
  links : Links Head Node
  /-- intrevent_tail -/
  tail : Cell Head Node
  numPevFree : Nat
  numPevAlloc : Nat
  numPevTrigger : Nat
  queuedEventPriority : Nat
  /-- irp->thread->process -/
  thread : Node → Option P
  /-- pending_interrupts of each process -/
  pendingInterrupts : P → Nat
  phase : Phase
  calls : List (Call P)
  /-- The number of the event that is in the entry. -/
  tag : Node → Nat
  /-- How many events have been queued. -/
  queued : Nat
  executed : List Nat
  cancelled : List Nat
  /-- Which events are kill events. -/
  kills : List Nat

/-- What a step finds: `nopreempt`, the process table from entry 2 on, and whether the process that is killed has a
thread (`valid_thp`). -/
structure Env (P : Type) where
  nopreempt : Bool
  table : List P
  validThp : Bool

variable {P : Type} [DecidableEq P]

/-- drain_active -/
def Phase.active : Phase → Bool
  | .top _ | .exec _ _ | .put _ _ _ => true
  | _ => false

/-- What is on the free list and not yet in num_pev_alloc. -/
def Phase.uncounted : Phase → Nat
  | .account n => n
  | _ => 0

/-- `irp` goes to the end of the queue. -/
def enqueue (irp : Node) (prio : Nat) (st : State P) : State P :=
  let links := st.links.set (.next irp) none
  { st with
    queuedEventPriority := max st.queuedEventPriority prio
    links := links.set st.tail (some irp)
    tail := .next irp
    tag := update st.tag irp st.queued
    queued := st.queued + 1 }

def Call.push (call : Call P) (st : State P) : State P := { st with calls := call :: st.calls }

/-- intrevent_add from the lock on. -/
def take (nopreempt : Bool) (c : Add P) (st : State P) : State P :=
  match st.links (.head .free) with
  | none => (Call.count c).push st
  | some irp =>
    let st := { st with
      links := st.links.set (.head .free) (st.links (.next irp))
      thread := update st.thread irp (some c.proc)
      numPevFree := (st.numPevFree + 2 ^ 32 - 1) % 2 ^ 32 }
    if st.numPevFree ≤ st.numPevTrigger then
      if st.phase.active then (Call.masking c irp).push st
      else enqueue irp numPri st
    else enqueue irp (if nopreempt then 0 else c.prio) st

def eventAdd (nopreempt : Bool) (c : Add P) (st : State P) : Option (State P) :=
  if (st.numPevTrigger + 1) % 2 ^ 32 < st.numPevFree then
    match st.links (.head .free) with
    | none => none
    | some irp =>
      let st := { st with
        links := st.links.set (.head .free) (st.links (.next irp))
        thread := update st.thread irp (some c.proc)
        numPevFree := (st.numPevFree + 2 ^ 32 - 1) % 2 ^ 32 }
      some (enqueue irp (if nopreempt then 0 else c.prio) st)
  else some st

def preemption (nopreempt : Bool) (prio : Nat) (st : State P) : State P :=
  if nopreempt then st
  else if st.queuedEventPriority < prio then
    let st := { st with queuedEventPriority := prio }
    if st.links (.head .pending) = none then
      let links := st.links.set (.next .preemptEv) none
      { st with links := links.set st.tail (some .preemptEv), tail := .next .preemptEv }
    else st
  else st

/-! ## The overload handler -/

/-- More turns than there are entries. -/
def State.fuel (st : State P) : Nat := st.numPevAlloc + st.phase.uncounted + 2

def countLoop (links : Links Head Node) (thread : Node → Option P) :
    Nat → Cell Head Node → (P → Nat) → Option (P → Nat)
  | 0, _, _ => none
  | fuel + 1, cell, counts =>
    match links cell with
    | none => some counts
    | some irp =>
      match thread irp with
      | none => none
      | some prp => countLoop links thread fuel (.next irp) (update counts prp (counts prp + 1))

def countPending (st : State P) : Option (State P) :=
  (countLoop st.links st.thread st.fuel (.head .pending) st.pendingInterrupts).map fun counts =>
    { st with pendingInterrupts := counts }

/-- The process with the most pending events, and how many. -/
def highest (counts : P → Nat) (table : List P) : Option P × Nat :=
  table.foldl (fun high prp => if high.2 < counts prp then (some prp, counts prp) else high) (none, 0)

/-- The walk through the process table. Too few events of one process: intrevent_add returns -1. -/
def survey (table : List P) (c : Add P) (st : State P) : State P :=
  let (high, count) := highest st.pendingInterrupts table
  let st := { st with pendingInterrupts := fun prp => if prp ∈ table then 0 else st.pendingInterrupts prp }
  match high with
  | none => st
  | some high => if count < minIntrsBad then st else (Call.cancel c high).push st

/-- The loop that cancels the events of a process; the first entry is kept for the kill event. -/
def cancelLoop (high : P) : Nat → State P → Cell Head Node → Option Node → Option (State P × Option Node)
  | 0, _, _, _ => none
  | fuel + 1, st, owner, killer =>
    match st.links owner with
    | none => some (st, killer)
    | some curr =>
      match st.thread curr with
      | none => none
      | some prp =>
        if prp = high then
          let st := { st with
            links := st.links.set owner (st.links (.next curr))
            tail := if st.tail = .next curr then owner else st.tail
            cancelled := st.cancelled ++ [st.tag curr] }
          if killer = none then cancelLoop high fuel st owner (some curr)
          else
            let links := st.links.set (.next curr) (st.links (.head .free))
            cancelLoop high fuel
              { st with links := links.set (.head .free) (some curr), numPevFree := (st.numPevFree + 1) % 2 ^ 32 }
              owner killer
        else cancelLoop high fuel st (.next curr) killer

def cancelAll (high : P) (validThp : Bool) (st : State P) : Option (State P) := do
  let (st, killer) ← cancelLoop high st.fuel st (.head .pending) none
  match killer with
  | none => none
  | some killer =>
    let links := st.links.set (.next killer) (st.links (.head .pending))
    some { st with
      links := links.set (.head .pending) (some killer)
      thread := update st.thread killer (if validThp then some high else none)
      tag := update st.tag killer st.queued
      queued := st.queued + 1
      kills := st.queued :: st.kills }

/-- The call at place `i` goes on. -/
def advance (env : Env P) (i : Nat) (st : State P) : Option (State P) :=
  match st.calls[i]? with
  | none => some st
  | some call =>
    let st := { st with calls := st.calls.eraseIdx i }
    match call with
    | .start c => some (take env.nopreempt c st)
    | .masking _ irp => some (enqueue irp numPri st)
    | .count c => (countPending st).map (Call.survey c).push
    | .survey c => some (survey env.table c st)
    | .cancel c high => (cancelAll high env.validThp st).map (Call.start c).push

/-! ## Draining -/

/-- The loop of intrevent_alloc; `tail` is its tail pointer. -/
def allocLoop (first : Nat) : Nat → Links Head Node → Cell Head Node → Links Head Node × Cell Head Node
  | 0, links, tail => (links, tail)
  | n + 1, links, tail => allocLoop (first + 1) n (links.set tail (some (.ev first))) (.next (.ev first))

/-- intrevent_alloc up to the end of its section, when `n` events could be allocated. -/
def alloc (n : Nat) (st : State P) : State P :=
  let (links, tail) := allocLoop st.numPevAlloc n st.links (.head .fresh)
  let links := links.set tail (links (.head .free))
  { st with links := links.set (.head .free) (links (.head .fresh)), numPevFree := (st.numPevFree + n) % 2 ^ 32 }

def account (n : Nat) (st : State P) : State P :=
  let alloc := (st.numPevAlloc + n) % 2 ^ 32
  { st with numPevAlloc := alloc, numPevTrigger := alloc / 4, phase := .idle }

/-- The next step of intrevent_drain; `got` says how many events there is memory for. -/
def drainStep (got : Nat) (st : State P) : Option (State P) :=
  match st.phase with
  | .idle => some st
  | .top needMore =>
    let irp := st.links (.head .pending)
    let links := st.links.set (.head .pending) none
    let needMore := needMore || st.numPevFree ≤ st.numPevTrigger
    -- preempt_ev is neither acted on nor put on the free list
    let irp := if irp = some .preemptEv then links (.next .preemptEv) else irp
    some { st with
      links := links
      tail := .head .pending
      queuedEventPriority := 0
      phase := match irp with
        | none => .grow needMore
        | some irp => .exec irp needMore }
  | .exec irp needMore =>
    -- sigevent_exe does not look at the thread of preempt_ev
    if irp ≠ .preemptEv ∧ st.thread irp = none then none
    else some { st with
      executed := if irp = .preemptEv then st.executed else st.executed ++ [st.tag irp]
      phase := .put irp (st.links (.next irp)) needMore }
  | .put irp next needMore =>
    let links := st.links.set (.next irp) (st.links (.head .free))
    some { st with
      links := links.set (.head .free) (some irp)
      numPevFree := (st.numPevFree + 1) % 2 ^ 32
      phase := match next with
        | none => .top needMore
        | some next => .exec next needMore }
  | .grow needMore =>
    if needMore then
      let n := min got (st.numPevAlloc / 4)
      some { alloc n st with phase := .account n }
    else some { st with phase := .idle }
  | .account n => some (account n st)

/-! ## Runs -/

inductive Op (P : Type) where
  /-- intrevent_add is called, and cannot act at once -/
  | add (c : Add P)
  | advance (i : Nat) (env : Env P)
  | eventAdd (c : Add P) (nopreempt : Bool)
  | preemption (prio : Nat) (nopreempt : Bool)
  /-- intrevent_drain is called -/
  | drain
  | drainStep (got : Nat)

def step (st : State P) : Op P → Option (State P)
  | .add c => some ((Call.start c).push st)
  | .advance i env => advance env i st
  | .eventAdd c nopreempt => eventAdd nopreempt c st
  | .preemption prio nopreempt => some (preemption nopreempt prio st)
  | .drain =>
    match st.phase with
    | .idle => some { st with phase := .top false }
    | _ => some st
  | .drainStep got => drainStep got st

def run (ops : List (Op P)) (st : State P) : Option (State P) := Run.exec step ops st

/-- Before there are any entries. -/
def blank : State P where
  links _ := none
  tail := .head .pending
  numPevFree := 0
  numPevAlloc := 0
  numPevTrigger := 0
  queuedEventPriority := 0
  thread _ := none
  pendingInterrupts _ := 0
  phase := .idle
  calls := []
  tag _ := 0
  queued := 0
  executed := []
  cancelled := []
  kills := []

/-- intrevent_init; intrevent_alloc takes an `int`. -/
def init (num : Nat) : State P :=
  let num := if num % 2 ^ 32 = 0 then 200 else num % 2 ^ 32
  let num := if 2 ^ 31 ≤ num then 0 else num
  account num (alloc num blank)

end QRV.Nano.Intrevent
