import QRV.Nano.Pril

/- Mutexes (ker_sync.c, nano_sync.c) and what moves the threads that wait for them:
   force_ready, priority_chain_drop and adjust_priority of nano_sched.c, and the
   priority changes of sched_thread and of message and pulse delivery.

   The waiting list of a SYNC is a priority list (`PrilMem`). It holds threads, the
   priority ceiling of the mutex and the events of SyncCtl. The first waiter of a mutex
   records the owner in args.mu.owner, and through args.mu.next and args.mu.prev of
   their first waiters the mutexes hang in the mutex_holdlist of their owner. The link
   `prev` is the address of a SYNC pointer: that of a mutex_holdlist, or of the
   args.mu.next of another entry, so a cell.

   The owner word of a mutex is in user memory; a thread stores to it without the kernel
   (`Op.user`). What another processor stores while a call runs counts as stored before
   the call. States are told apart as far as the code here does: a thread is READY or
   RUNNING, waits for a mutex, is SEND or REPLY blocked, or blocked otherwise. Ready queues
   and send queues are not part of the model.

   Loops take fuel; `none` is an access through a null pointer, to args of an object that
   has none (an event entry), or a loop that does not end.

   Correspondence (C ↔ Lean) where the names differ:
     `SYNC_OWNER`, `SYNC_PINDEX`, `SYNC_TID`       ↔ `Table.owner`, `syncPindex`, `syncTid`
     `adjust_priority_default`                     ↔ `adjustPriority`
     `sync_wakeup` (with `all` = 0)                ↔ `syncWakeup`
     `sync_mutex_lock`                             ↔ `syncMutexLock`, in the parts `lockAcquire`,
                                                     `lockWake`, `lockBlock`, `boost`
     `ker_sync_create`, `mutex_set_prioceiling`    ↔ `syncCreate`, `mutexSetPrioceiling`
     `ker_sync_ctl`                                ↔ `setPrioceiling`, `setEvent` -/
namespace QRV.Nano.Mutex
open Function (update)
open LinkCell

/-! ## The owner word -/

/-- QRV_SYNC_WAITING -/
def syncWaiting : UInt32 := 0x80000000

/-- QRV_SYNC_INITIALIZER -/
def syncInitializer : UInt32 := 0xffffffff

/-- QRV_SYNC_DESTROYED -/
def syncDestroyed : UInt32 := 0xfffffffe

/-- PINDEX -/
def pindex (pid : UInt32) : UInt32 := pid &&& 0xfff

/-- SYNC_OWNER_BITS -/
def syncOwnerBits (pid tid : UInt32) : UInt32 := ((pid <<< 16) ||| (tid + 1)) &&& ~~~syncWaiting

/-- SYNC_PINDEX -/
def syncPindex (owner : UInt32) : UInt32 := pindex ((owner &&& ~~~syncWaiting) >>> 16)

/-- SYNC_TID -/
def syncTid (owner : UInt32) : UInt32 := (owner &&& 0xffff) - 1

/-- The process vector and the thread vectors of the processes. Process index 0 is never used, and
thread ids leave room for the increment of SYNC_OWNER. -/
structure Table (T : Type) where
  pid : T → UInt32
  tid : T → UInt32
  /-- The thread `tid` of the process at an index, if there is one. -/
  thread : UInt32 → UInt32 → Option T
  thread_self : ∀ t, thread (pindex (pid t)) (tid t) = some t
  pindex_ne : ∀ t, pindex (pid t) ≠ 0
  tid_lt : ∀ t, (tid t).toNat + 1 < 65536
  /-- The threads of a channel's process. -/
  channelThreads : Nat → List T
  /-- _NTO_CHF_FIXED_PRIORITY of a channel. -/
  fixedPriority : Nat → Bool

/-- SYNC_OWNER -/
def Table.owner {T : Type} (tb : Table T) (thp : T) : UInt32 := syncOwnerBits (tb.pid thp) (tb.tid thp)

/-- The thread that an owner word names. -/
def Table.lookup {T : Type} (tb : Table T) (owner : UInt32) : Option T :=
  if syncPindex owner = 0 then none else tb.thread (syncPindex owner) (syncTid owner)

/-! ## Kernel state -/

/-- What a waiting list holds. -/
inductive Entry (T Q E : Type) where
  | thread (thp : T)
  /-- The priority ceiling of a mutex, an object of the size of a THREAD. -/
  | ceiling (syp : Q)
  | event (syncep : E)
  deriving DecidableEq, Repr

inductive ThState (T : Type) where
  | ready
  | mutex
  | send (chp : Nat)
  | reply (chp : Nat) (server : Option T)
  | other
  deriving DecidableEq, Repr

structure St (T Q E : Type) where
  /-- The waiting lists, and the priority of every entry. -/
  pril : PrilMem Q (Entry T Q E)
  state : T → ThState T
  /-- The SYNC of a thread in STATE_MUTEX. -/
  blockedOn : T → Option Q
  realPriority : T → UInt8
  lastChid : T → Nat
  mutexHoldlist : T → Option Q
  /-- QRV_FLG_THR_ACQUIRE_MUTEX -/
  acquire : T → Bool
  muOwner : Entry T Q E → UInt32
  muNext : Entry T Q E → Option Q
  muPrev : Entry T Q E → Option (Cell T (Entry T Q E))
  /-- The owner word in user memory. -/
  owner : Q → UInt32
  /-- The SYNC is in the hash. -/
  created : Q → Bool
  /-- QRV_SYNC_PRIOCEILING -/
  prioceiling : Q → Bool
  /-- QRV_SYNC_PRIONONE -/
  prionone : Q → Bool
  /-- The process of an event in use. -/
  process : E → Option Nat

section
variable {T Q E : Type}

def Entry.isThread : Entry T Q E → Bool
  | .thread _ => true
  | _ => false

def Entry.isCeiling : Entry T Q E → Bool
  | .ceiling _ => true
  | _ => false

def Entry.isEvent : Entry T Q E → Bool
  | .event _ => true
  | _ => false

/-- `pril_first(&syp->waiting)` -/
def St.first (st : St T Q E) (syp : Q) : Option (Entry T Q E) := st.pril.links (.head syp)

/-- `pril_next` -/
def St.next (st : St T Q E) (e : Entry T Q E) : Option (Entry T Q E) := st.pril.links (.next e)

def St.priority (st : St T Q E) (thp : T) : UInt8 := st.pril.priority (.thread thp)

/-- The loops that walk a waiting list: the first entry from `p` on that passes the test. -/
def St.find (st : St T Q E) (test : Entry T Q E → Bool) : Nat → Option (Entry T Q E) → Option (Option (Entry T Q E))
  | _, none => some none
  | 0, some _ => none
  | fuel + 1, some e => if test e then some (some e) else st.find test fuel (st.next e)

/-- What a cell of a hold list holds. -/
def St.held (st : St T Q E) : Cell T (Entry T Q E) → Option Q
  | .head thp => st.mutexHoldlist thp
  | .next e => st.muNext e

end

section
variable {T Q E : Type} [DecidableEq T] [DecidableEq Q] [DecidableEq E]

def St.setPriority (st : St T Q E) (e : Entry T Q E) (prio : UInt8) : St T Q E :=
  { st with pril := { st.pril with priority := update st.pril.priority e prio } }

def St.setState (st : St T Q E) (thp : T) (s : ThState T) : St T Q E :=
  { st with state := update st.state thp s }

def St.setBlockedOn (st : St T Q E) (thp : T) (syp : Option Q) : St T Q E :=
  { st with blockedOn := update st.blockedOn thp syp }

def St.setMuOwner (st : St T Q E) (e : Entry T Q E) (owner : UInt32) : St T Q E :=
  { st with muOwner := update st.muOwner e owner }

def St.setMuPrev (st : St T Q E) (e : Entry T Q E) (c : Option (Cell T (Entry T Q E))) : St T Q E :=
  { st with muPrev := update st.muPrev e c }

def St.setOwner (st : St T Q E) (syp : Q) (owner : UInt32) : St T Q E :=
  { st with owner := update st.owner syp owner }

def St.setHeld (st : St T Q E) (c : Cell T (Entry T Q E)) (syp : Option Q) : St T Q E :=
  match c with
  | .head thp => { st with mutexHoldlist := update st.mutexHoldlist thp syp }
  | .next e => { st with muNext := update st.muNext e syp }

variable (fuel : Nat) (tb : Table T)

def St.prilAdd (st : St T Q E) (syp : Q) (e : Entry T Q E) : Option (St T Q E) :=
  (Nano.prilAdd fuel st.pril syp e).map fun m => { st with pril := m }

def St.prilRem (st : St T Q E) (syp : Q) (e : Entry T Q E) : Option (St T Q E) :=
  (Nano.prilRem fuel st.pril syp e).map fun m => { st with pril := m }

/-! ## Hold lists -/

/-- The loop of mutex_holdlist_add: the cell to insert at, and the first waiter of the mutex that
the cell names. -/
def holdlistFind (st : St T Q E) (prio : UInt8) :
    Nat → Cell T (Entry T Q E) → Option (Cell T (Entry T Q E) × Option (Entry T Q E))
  | 0, _ => none
  | fuel + 1, owner =>
    match st.held owner with
    | none => some (owner, none)
    | some curr =>
      match st.first curr with
      | none => none
      | some thp =>
        if st.pril.priority thp < prio then some (owner, some thp)
        else if thp.isEvent then none
        else holdlistFind st prio fuel (.next thp)

def mutexHoldlistAdd (st : St T Q E) (thp : T) (syp : Q) : Option (St T Q E) := do
  let new ← st.first syp
  if new.isEvent then none
  else
    let (owner, curr) ← holdlistFind st (st.pril.priority new) fuel (.head thp)
    let st := (st.setHeld (.next new) (st.held owner)).setMuPrev new (some owner)
    match curr with
    | none => some (st.setHeld owner (some syp))
    | some thp =>
      if thp.isEvent then none
      else some ((st.setMuPrev thp (some (.next new))).setHeld owner (some syp))

def mutexHoldlistRem (st : St T Q E) (syp : Q) : Option (St T Q E) := do
  let thp ← st.first syp
  if thp.isEvent then none
  else
    let prev ← st.muPrev thp
    let st' := st.setHeld prev (st.muNext thp)
    match st.muNext thp with
    | none => some st'
    | some nextSyp =>
      let nextThp ← st'.first nextSyp
      if nextThp.isEvent then none else some (st'.setMuPrev nextThp (some prev))

/-- If the first waiter `e` records an owner, the mutex leaves the owner's hold list. -/
def holdlistLeave (st : St T Q E) (e : Entry T Q E) (syp : Q) : Option (St T Q E) :=
  if st.muOwner e ≠ 0 then mutexHoldlistRem st syp else some st

/-- As `holdlistLeave`, and `e` records no owner any more. -/
def holdlistClear (st : St T Q E) (e : Entry T Q E) (syp : Q) : Option (St T Q E) :=
  if st.muOwner e ≠ 0 then (mutexHoldlistRem st syp).map (·.setMuOwner e 0) else some st

/-! ## Priorities -/

/-- The mutex goes back on the hold list of the thread that `owner` names. -/
def holdlistReturn (st : St T Q E) (syp : Q) (owner : UInt32) : Option (St T Q E) :=
  if owner = 0 then some st
  else
    match tb.lookup owner with
    | none => some st
    | some thp => do
      let st ← mutexHoldlistAdd fuel st thp syp
      let first ← st.first syp
      some (st.setMuOwner first owner)

/-- A waiter of the mutex changes its priority: the mutex leaves the hold list of its owner while
the thread is moved. -/
def adjustWaiter (st : St T Q E) (thp : T) (syp : Q) (prio : UInt8) : Option (St T Q E) := do
  let first ← st.first syp
  if first.isEvent then none
  else
    let owner := st.muOwner first
    let st ← (if owner ≠ 0 then mutexHoldlistRem (st.setMuOwner first 0) syp else some st)
    let st ← st.prilRem fuel syp (.thread thp)
    let st ← (st.setPriority (.thread thp) prio).prilAdd fuel syp (.thread thp)
    holdlistReturn fuel tb st syp owner

def adjustPriority (st : St T Q E) (thp : T) (prio : UInt8) : Option (St T Q E) :=
  if st.priority thp = prio then some st
  else
    match st.state thp with
    | .mutex =>
      match st.blockedOn thp with
      | none => some (st.setPriority (.thread thp) prio)
      | some syp => adjustWaiter fuel tb st thp syp prio
    | _ => some (st.setPriority (.thread thp) prio)

/-- The priority of the owner without the boosts that have ended: its real priority, or that of the
highest thread that waits for one of its mutexes. -/
def restorePriority (st : St T Q E) (thp : T) : UInt8 :=
  match (st.mutexHoldlist thp).bind st.first with
  | none => st.realPriority thp
  | some first => max (st.realPriority thp) (st.pril.priority first)

/-- Whom priority_chain_drop goes on with: the owner of the mutex whose first waiter is `thp`. -/
def dropNext (st : St T Q E) (thp : T) : Option (Option T) :=
  match st.state thp with
  | .mutex =>
    match st.blockedOn thp with
    | none => none
    | some syp =>
      if st.first syp = some (.thread thp) then some (tb.lookup (st.muOwner (.thread thp))) else some none
  | _ => some none

/-- priority_chain_drop (with `why` = STATE_MUTEX). -/
def priorityChainDrop : Nat → T → St T Q E → Option (St T Q E)
  | 0, _, _ => none
  | steps + 1, thp, st =>
    if restorePriority st thp < st.priority thp then do
      let st ← adjustPriority fuel tb st thp (restorePriority st thp)
      match ← dropNext tb st thp with
      | none => some st
      | some owner => priorityChainDrop steps owner st
    else some st

/-- The threads whose priority priority_chain_drop lowers. -/
def dropPath : Nat → T → St T Q E → List T
  | 0, _, _ => []
  | steps + 1, thp, st =>
    if restorePriority st thp < st.priority thp then
      match adjustPriority fuel tb st thp (restorePriority st thp) with
      | none => [thp]
      | some st =>
        match dropNext tb st thp with
        | some (some owner) => thp :: dropPath steps owner st
        | _ => [thp]
    else []

/-! ## Waking threads -/

/-- sync_wakeup of one thread. An entry in front that is no thread is skipped, but only one. -/
def syncWakeup (st : St T Q E) (syp : Q) : Option (St T Q E) :=
  let wake (thp : T) : Option (St T Q E) := do
    let st ← st.prilRem fuel syp (.thread thp)
    some { st.setState thp .ready with acquire := update st.acquire thp true }
  match st.first syp with
  | none => some st
  | some (.thread thp) => wake thp
  | some e =>
    match st.next e with
    | some (.thread thp) => wake thp
    | _ => some st

/-- force_ready of a waiter of the mutex, up to the drop of the owner's priority. -/
def forceUnlink (st : St T Q E) (thp : T) (syp : Q) : Option (St T Q E × Option T) :=
  if st.first syp = some (.thread thp) then do
    let owner := st.muOwner (.thread thp)
    let st ← holdlistLeave st (.thread thp) syp
    let st ← st.prilRem fuel syp (.thread thp)
    match st.first syp with
    | some (.thread first) =>
      match tb.lookup owner with
      | some thp2 => do
        let st ← mutexHoldlistAdd fuel st thp2 syp
        some (st.setMuOwner (.thread first) owner, some thp2)
      | none => some (st.setMuOwner (.thread first) 0, none)
    | _ => some (st, tb.lookup owner)
  else (st.prilRem fuel syp (.thread thp)).map fun st => (st, none)

/-- Whether the owner got its priority from `thp`. -/
def drops (st : St T Q E) (thp thp2 : T) : Bool :=
  thp ≠ thp2 && st.priority thp = st.priority thp2 && st.realPriority thp2 < st.priority thp2

def forceReady (st : St T Q E) (thp : T) : Option (St T Q E) :=
  match st.state thp with
  | .ready => some st
  | .mutex => do
    let syp ← st.blockedOn thp
    let (st, thp2) ← forceUnlink fuel tb st thp syp
    let st ← (match thp2 with
      | some thp2 => if drops st thp thp2 then priorityChainDrop fuel tb fuel thp2 st else some st
      | none => some st)
    some (st.setState thp .ready)
  | _ => some (st.setState thp .ready)

/-- The threads whose priority force_ready lowers. -/
def forcedPath (st : St T Q E) (thp : T) : List T :=
  match st.state thp, st.blockedOn thp with
  | .mutex, some syp =>
    match forceUnlink fuel tb st thp syp with
    | some (st, some thp2) => if drops st thp thp2 then dropPath fuel tb fuel thp2 st else []
    | _ => []
  | _, _ => []

/-! ## sync_mutex_lock -/

/-- sync_lookup with QRV_SYNC_MUTEX_FREE: a statically initialised mutex is created. -/
def syncLookup (st : St T Q E) (syp : Q) : Option (St T Q E) :=
  if st.created syp then if st.owner syp = syncInitializer then none else some st
  else if st.owner syp = syncInitializer then
    some { st.setOwner syp 0 with created := update st.created syp true }
  else none

/-- The mutex was free and is ours. -/
def lockAcquire (st : St T Q E) (act : T) (syp : Q) (ceiling : UInt8) (syncep thp : Option (Entry T Q E)) :
    Option (St T Q E) := do
  let st := st.setOwner syp (tb.owner act)
  -- the hold list is linked through the ceiling
  let st ← (match if ceiling ≠ 0 then syncep else thp with
    | none => some st
    | some e => do
      let st ← holdlistLeave st e syp
      let st := st.setMuOwner e (st.owner syp)
      mutexHoldlistAdd fuel (st.setOwner syp (st.owner syp ||| syncWaiting)) act syp)
  if ceiling ≠ 0 then adjustPriority fuel tb st act ceiling else some st

/-- The mutex is free, but somebody waits for it who goes first. -/
def lockWake (st : St T Q E) (syp : Q) : Option (St T Q E) :=
  match st.first syp with
  | none => some st
  | some e =>
    if e.isEvent then some st
    else do
      let st ← holdlistClear st e syp
      let st ← syncWakeup fuel st syp
      match st.first syp with
      | none => some st
      | some e => if e.isEvent then some st else some (st.setMuOwner e 0)

/-- The threads of the channel's process that receive on it get the priority of `act`. -/
def raiseReceivers (act : T) (chp : Nat) (st : St T Q E) : Option (St T Q E) :=
  (tb.channelThreads chp).foldlM (fun st thp =>
    if st.priority thp < st.priority act ∧ st.lastChid thp = chp then adjustPriority fuel tb st thp (st.priority act)
    else some st) st

/-- The loop of sync_mutex_lock that passes the priority of `act` on, from owner to owner. -/
def boost (act : T) : Nat → Option T → St T Q E → Option (St T Q E)
  | _, none, st => some st
  | 0, some _, _ => none
  | steps + 1, some thp, st =>
    if st.priority act ≤ st.priority thp then some st
    else do
      let st ← adjustPriority fuel tb st thp (st.priority act)
      match st.state thp with
      | .send chp => if tb.fixedPriority chp then some st else raiseReceivers fuel tb act chp st
      | .reply chp server => if tb.fixedPriority chp then some st else boost act steps server st
      | .mutex => do
        let syp ← st.blockedOn thp
        let first ← st.first syp
        if first.isEvent then none else boost act steps (tb.lookup (st.muOwner first)) st
      | _ => some st

/-- `act` takes its place on the waiting list. A first waiter it passes leaves the hold list of the
owner. -/
def lockEnqueue (st : St T Q E) (act : T) (syp : Q) : Option (St T Q E) := do
  let st ← (match st.first syp with
    | some (.thread thp) =>
      if st.priority thp < st.priority act then holdlistClear st (.thread thp) syp else some st
    | _ => some st)
  st.prilAdd fuel syp (.thread act)

/-- `act` blocks. `owner` is what the word of the mutex was, `imto` an immediate timeout and `drop`
the priority a sporadic thread gets when it stops running. -/
def lockBlock (st : St T Q E) (act : T) (syp : Q) (owner : UInt32) (imto : Bool) (drop : Option UInt8) :
    Option (St T Q E) :=
  if imto then some st
  else do
    -- unready: the thread is on no list yet
    let st := (st.setState act .mutex).setBlockedOn act none
    let st ← (match drop with
      | none => some st
      | some prio => adjustPriority fuel tb st act prio)
    let st := (st.setBlockedOn act (some syp)).setMuOwner (.thread act) 0
    let st ← lockEnqueue fuel st act syp
    if st.prionone syp then some (st.setMuOwner (.thread act) 0)
    else if st.first syp = some (.thread act) then
      match tb.lookup owner with
      | none => some st
      | some thp => do
        let st ← mutexHoldlistAdd fuel st thp syp
        boost fuel tb act fuel (some thp) (st.setMuOwner (.thread act) owner)
    else some st

/-- sync_mutex_lock. _smp_cmpxchg(owp, 0, QRV_SYNC_WAITING) only reads: the waiting bit is set
before. -/
def syncMutexLock (st : St T Q E) (act : T) (syp : Q) (noceiling imto : Bool) (drop : Option UInt8) :
    Option (St T Q E) :=
  match syncLookup st syp with
  | none => some st
  | some st => do
    let checks := st.prioceiling syp && !noceiling
    let syncep ← (if checks then st.find Entry.isCeiling fuel (st.first syp) else some none)
    let ceiling := (syncep.map st.pril.priority).getD 0
    if checks ∧ ceiling < st.priority act then some st
    else if st.owner syp = syncDestroyed then some st
    else
      let st := st.setOwner syp (st.owner syp ||| syncWaiting)
      let owner := st.owner syp
      let thp ← st.find Entry.isThread fuel (st.first syp)
      if thp.all (st.pril.priority · < st.priority act) ∨ st.acquire act then
        if owner = syncWaiting then lockAcquire fuel tb st act syp ceiling syncep thp
        else lockBlock fuel tb st act syp owner imto drop
      else if owner = syncWaiting then do
        let st ← lockWake fuel st syp
        lockBlock fuel tb st act syp owner imto drop
      else lockBlock fuel tb st act syp owner imto drop

/-! ## sync_mutex_unlock -/

/-- The entry is a thread, or the one behind it is. -/
def St.threadNear (st : St T Q E) (e : Entry T Q E) : Bool :=
  e.isThread || (st.next e).any Entry.isThread

/-- A thread that owns the mutex gives it up. -/
def unlockRelease (st : St T Q E) (act : T) (syp : Q) : St T Q E :=
  if st.owner syp &&& ~~~syncWaiting = tb.owner act then
    st.setOwner syp (if (st.first syp).any st.threadNear then syncWaiting else 0)
  else st

/-- The first waiter is made ready. -/
def unlockWake (st : St T Q E) (syp : Q) : Option (St T Q E) :=
  match st.first syp with
  | none => some st
  | some e =>
    if e.isEvent then some st
    else do
      let st ← holdlistLeave st e syp
      let st ← syncWakeup fuel st syp
      match st.first syp with
      | none => some st
      | some e =>
        if st.threadNear e then
          if e.isEvent then none
          else some ((st.setOwner syp (st.owner syp ||| syncWaiting)).setMuOwner e 0)
        else if e.isCeiling then some (st.setMuOwner e 0)
        else some st

def syncMutexUnlock (st : St T Q E) (act : T) (syp : Q) : Option (St T Q E) :=
  match syncLookup st syp with
  | none => some st
  | some st => do
    let st ← unlockWake fuel (unlockRelease tb st act syp) syp
    -- adjust an inherited priority back
    if restorePriority st act < st.priority act then adjustPriority fuel tb st act (restorePriority st act)
    else some st

/-! ## Ceilings and events -/

/-- The protocol of a new mutex. -/
inductive Protocol where
  | inherit
  | none
  | protect (prioceiling : UInt8)

/-- `syncep->type = TYPE_SYNCEVENT`, with the priority of the entry. -/
def St.initSyncevent (st : St T Q E) (e : Entry T Q E) (prio : UInt8) : St T Q E :=
  { st with pril := { st.pril with type := update st.pril.type e { obj := .syncevent }
                                   priority := update st.pril.priority e prio } }

/-- ker_sync_create of a mutex. The allocations succeed; if they do not, nothing happens. -/
def syncCreate (st : St T Q E) (syp : Q) (protocol : Protocol) : Option (St T Q E) :=
  if st.created syp then some st
  else
    let st' := { st.setOwner syp 0 with created := update st.created syp true }
    match protocol with
    | .inherit => some st'
    | .none => some { st' with prionone := update st.prionone syp true }
    | .protect prio =>
      if prio < 1 then some st
      else
        let st' := { st' with prioceiling := update st.prioceiling syp true }
        let st' := (st'.initSyncevent (.ceiling syp) prio).setMuOwner (.ceiling syp) 0
        let st' := (st'.setHeld (.next (.ceiling syp)) none).setMuPrev (.ceiling syp) none
        st'.prilAdd fuel syp (.ceiling syp)

def mutexSetPrioceiling (st : St T Q E) (syp : Q) (ceiling : UInt8) : Option (St T Q E) := do
  let syncep ← st.find Entry.isCeiling fuel (st.first syp)
  match syncep with
  | none => some st
  | some e => some (st.setPriority e ceiling)

/-- ker_sync_ctl with _NTO_SCTL_SETPRIOCEILING, for a ceiling the caller may set. A thread that does
not get the mutex sets the ceiling later (`specretCeiling`). -/
def setPrioceiling (st : St T Q E) (act : T) (syp : Q) (ceiling : UInt8) (imto : Bool) (drop : Option UInt8) :
    Option (St T Q E) :=
  match syncLookup st syp with
  | none => some st
  | some st =>
    if ceiling < 1 ∨ st.prioceiling syp = false then some st
    else if st.owner syp &&& ~~~syncWaiting = tb.owner act then mutexSetPrioceiling fuel st syp ceiling
    else do
      let st ← syncMutexLock fuel tb st act syp true imto drop
      if st.owner syp &&& ~~~syncWaiting = tb.owner act then do
        let st ← mutexSetPrioceiling fuel st syp ceiling
        syncMutexUnlock fuel tb st act syp
      else some st

/-- QRV_FLG_THR_MUTEX_CEILING of specret. -/
def specretCeiling (st : St T Q E) (act : T) (syp : Q) (ceiling : UInt8) : Option (St T Q E) :=
  match syncLookup st syp with
  | none => some st
  | some st => do
    let st ← mutexSetPrioceiling fuel st syp ceiling
    syncMutexUnlock fuel tb st act syp

/-- The event of the process. -/
def St.isEventOf (st : St T Q E) (prp : Nat) : Entry T Q E → Bool
  | .event syncep => st.process syncep = some prp
  | _ => false

/-- ker_sync_ctl with _NTO_SCTL_SETEVENT. `event` says whether there is an event to set and `alloc` is
what object_alloc returns, with the priority the object held before. -/
def setEvent (st : St T Q E) (prp : Nat) (syp : Q) (event : Bool) (alloc : Option (E × UInt8)) :
    Option (St T Q E) :=
  match syncLookup st syp with
  | none => some st
  | some st => do
    let syncep ← st.find (st.isEventOf prp) fuel (st.first syp)
    match syncep with
    | some (.event syncep) =>
      if event then some st
      else (st.prilRem fuel syp (.event syncep)).map fun st =>
        { st with process := update st.process syncep none }
    | _ =>
      match event, alloc with
      | true, some (syncep, prio) =>
        -- an object in use is not allocated
        if (st.process syncep).isSome then some st
        else
          let st := { st with process := update st.process syncep (some prp) }
          (st.initSyncevent (.event syncep) prio).prilAdd fuel syp (.event syncep)
      | _, _ => some st

/-! ## Runs -/

inductive Op (T Q E : Type) where
  | create (syp : Q) (protocol : Protocol)
  | lock (act : T) (syp : Q) (noceiling imto : Bool) (drop : Option UInt8)
  | unlock (act : T) (syp : Q)
  | setPrioceiling (act : T) (syp : Q) (ceiling : UInt8) (imto : Bool) (drop : Option UInt8)
  | specretCeiling (act : T) (syp : Q) (ceiling : UInt8)
  | setEvent (prp : Nat) (syp : Q) (event : Bool) (alloc : Option (E × UInt8))
  | forceReady (thp : T)
  | adjustPriority (thp : T) (prio : UInt8)
  /-- sched_thread: the priority and the real priority. -/
  | schedThread (thp : T) (prio : UInt8)
  /-- The boost of a server thread by a message or a pulse. -/
  | raise (thp : T) (prio : UInt8)
  /-- A blocked receiver gets the priority of its message or pulse. -/
  | deliver (thp : T) (prio : UInt8)
  /-- A store of a user thread to the owner word. -/
  | user (syp : Q) (owner : UInt32)
  /-- QRV_FLG_THR_ACQUIRE_MUTEX as the other calls and specret leave it. -/
  | flag (thp : T) (acquire : Bool)
  | receive (thp : T) (chid : Nat)
  /-- A thread that does not wait for a mutex goes to another state than STATE_MUTEX. -/
  | move (thp : T) (s : ThState T)

/-- One call. A call of a thread that is blocked does not happen. -/
def step (st : St T Q E) : Op T Q E → Option (St T Q E)
  | .create syp protocol => syncCreate fuel st syp protocol
  | .lock act syp noceiling imto drop =>
    if st.state act = .ready then syncMutexLock fuel tb st act syp noceiling imto drop else some st
  | .unlock act syp => if st.state act = .ready then syncMutexUnlock fuel tb st act syp else some st
  | .setPrioceiling act syp ceiling imto drop =>
    if st.state act = .ready then setPrioceiling fuel tb st act syp ceiling imto drop else some st
  | .specretCeiling act syp ceiling =>
    if st.state act = .ready then specretCeiling fuel tb st act syp ceiling else some st
  | .setEvent prp syp event alloc => setEvent fuel st prp syp event alloc
  | .forceReady thp => forceReady fuel tb st thp
  | .adjustPriority thp prio => adjustPriority fuel tb st thp prio
  | .schedThread thp prio => do
    let st ← adjustPriority fuel tb st thp prio
    some { st with realPriority := update st.realPriority thp prio }
  | .raise thp prio =>
    if st.priority thp < prio then do
      let st ← adjustPriority fuel tb st thp prio
      some { st with realPriority := update st.realPriority thp (st.priority thp) }
    else some st
  | .deliver thp prio =>
    if st.state thp = .other then
      some { st.setPriority (.thread thp) prio with realPriority := update st.realPriority thp prio }
    else some st
  | .user syp owner => some (st.setOwner syp owner)
  | .flag thp acquire => some { st with acquire := update st.acquire thp acquire }
  | .receive thp chid => some { st with lastChid := update st.lastChid thp chid }
  | .move thp s => if st.state thp ≠ .mutex ∧ s ≠ .mutex then some (st.setState thp s) else some st

def run (ops : List (Op T Q E)) (st : St T Q E) : Option (St T Q E) := ops.foldlM (step fuel tb) st

end

/-- Nobody waits and nothing is created. -/
structure Started {T Q E : Type} (st : St T Q E) : Prop where
  lists : ∀ syp, st.pril.links (.head syp) = none
  flags : ∀ e, (st.pril.type e).first = false
  updates : st.pril.updateList = []
  state : ∀ thp, st.state thp ≠ .mutex
  holdlists : ∀ thp, st.mutexHoldlist thp = none
  created : ∀ syp, st.created syp = false
  process : ∀ syncep, st.process syncep = none

/-- The table of one process with `n` threads. -/
def oneProcess (n : Nat) (hn : n < 65535) : Table (Fin n) where
  pid _ := 1
  tid thp := UInt32.ofNat thp.val
  thread id tid := if id = 1 then if h : tid.toNat < n then some ⟨tid.toNat, h⟩ else none else none
  thread_self thp := by
    have htid : (UInt32.ofNat thp.val).toNat = thp.val :=
      UInt32.toNat_ofNat_of_lt' (Nat.lt_trans thp.isLt (Nat.lt_trans hn (by decide)))
    have hp : pindex 1 = 1 := by decide
    rw [if_pos hp]
    simp only [htid, thp.isLt, dite_true]
  pindex_ne thp := by decide
  tid_lt thp := by
    rw [UInt32.toNat_ofNat_of_lt' (Nat.lt_trans thp.isLt (Nat.lt_trans hn (by decide)))]
    omega
  channelThreads _ := []
  fixedPriority _ := false

/-- All threads are ready, with the priorities given. -/
def idle {T Q E : Type} (prio : T → UInt8) : St T Q E where
  pril :=
    { links := fun _ => none
      prev := fun e => .next e
      type := fun _ => { obj := .thread }
      priority := fun
        | .thread thp => prio thp
        | _ => 0 }
  state _ := .ready
  blockedOn _ := none
  realPriority := prio
  lastChid _ := 0
  mutexHoldlist _ := none
  acquire _ := false
  muOwner _ := 0
  muNext _ := none
  muPrev _ := none
  owner _ := 0
  created _ := false
  prioceiling _ := false
  prionone _ := false
  process _ := none

theorem idle_started {T Q E : Type} (prio : T → UInt8) : Started (idle prio : St T Q E) :=
  ⟨fun _ => rfl, fun _ => rfl, rfl, nofun, fun _ => rfl, fun _ => rfl, fun _ => rfl⟩

end QRV.Nano.Mutex
