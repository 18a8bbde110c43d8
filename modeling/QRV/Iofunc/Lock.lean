import Mathlib.Data.ZMod.Basic

/- The advisory record locks of a file: the list of its locks and the clients that wait on them.

   A request scans the list for the first lock of its own that it overlaps, and is merged with
   it, splits it, or is added where the scan ends. A lock that changes is stripped of the
   clients that wait on it; they are looked at again afterwards, and each waits on another lock
   or is granted its own, which may strip a further lock.

   Correspondence (C ↔ Lean)
     `_iofunc_lock_add`                        ↔ the lists `enter`, `lockSplit` and `unlockLoop` make
     `_iofunc_lock_find`                       ↔ `attach`, `lockFind`
     `locksplit`                               ↔ `lockSplit`
     `_iofunc_lock_scoid`                      ↔ `lockScoid` (`enter` without the clients)
     `_iofunc_unlock_scoid`                    ↔ `unlockScoid`
     `reblock_pending_locks`                   ↔ `reblock`
     `iofunc_lock`                             ↔ `LockState.step`
   Whether `malloc` succeeds is given with each request, for a lock that is added (`adds`) and
   for the pieces of one that is cut (`splits`), one value for each call; behind the end of such
   a list it succeeds. The checks of the mode of the file and of its size are left out. -/
namespace QRV.Iofunc

inductive LockType
  | rd
  | wr
  deriving DecidableEq, Repr

/-- A request for the bytes from `start` to `stop`. -/
structure Request where
  scoid : Nat
  type : LockType
  start : Nat
  stop : Nat
  le : start ≤ stop
  deriving DecidableEq, Repr

/-- A client that waits. Each time a client is made to wait it is given a number of its own. -/
structure Waiter where
  ticket : Nat
  rcvid : Nat
  req : Request
  deriving DecidableEq, Repr

structure Lock where
  scoid : Nat
  type : LockType
  start : Nat
  stop : Nat
  blocked : List Waiter
  deriving DecidableEq, Repr

inductive Status
  | eok
  | enomem
  | einval
  deriving DecidableEq, Repr

def overlap (start stop start' stop' : Nat) : Bool :=
  decide (start ≤ start' ∧ start' ≤ stop) || decide (start' ≤ start ∧ start ≤ stop')

/-- A lock of the same client that the request overlaps. -/
def Request.own (r : Request) (cl : Lock) : Bool := cl.scoid == r.scoid && overlap r.start r.stop cl.start cl.stop

/-- A lock of another client that is in the way of the request. -/
def Request.conflicts (r : Request) (cl : Lock) : Bool :=
  r.scoid != cl.scoid && overlap r.start r.stop cl.start cl.stop && (cl.type != r.type || r.type != .rd)

def lockFind (locks : List Lock) (r : Request) : Option Lock := locks.find? r.conflicts

/-! ## Entering a lock -/

def Request.lock (r : Request) : Lock := ⟨r.scoid, r.type, r.start, r.stop, []⟩

/-- The list with a lock entered, the clients stripped off a lock that has changed, and what is
left of the memory. -/
structure Entered where
  locks : List Lock
  pending : List Waiter
  status : Status
  adds : List Bool
  splits : List Bool
  deriving DecidableEq, Repr

/-- The lock `cl`, in the list between `before` and `behind`, is of another type than the request.
Without memory for the pieces the clients that waited on it are forgotten. -/
def lockSplit (before : List Lock) (cl : Lock) (behind : List Lock) (r : Request) (adds splits : List Bool) : Entered :=
  let bare := { cl with blocked := [] }
  let piece : Lock := ⟨cl.scoid, r.type, r.start, r.stop, []⟩
  if r.start ≤ cl.start ∧ cl.stop ≤ r.stop then
    ⟨before ++ { bare with type := r.type, start := r.start, stop := r.stop } :: behind, cl.blocked, .eok, adds, splits⟩
  else if cl.start < r.start ∧ r.stop < cl.stop then
    if splits.headD true = false then ⟨before ++ bare :: behind, [], .einval, adds, splits.tail⟩
    else if splits.tail.headD true = false then ⟨before ++ bare :: piece :: behind, [], .einval, adds, splits.tail.tail⟩
    else
      ⟨before ++ { bare with stop := r.start - 1 } :: piece :: ⟨cl.scoid, cl.type, r.stop + 1, cl.stop, []⟩ :: behind,
        cl.blocked, .eok, adds, splits.tail.tail⟩
  else if splits.headD true = false then ⟨before ++ bare :: behind, [], .einval, adds, splits.tail⟩
  else if r.start ≤ cl.start then
    ⟨before ++ { bare with type := r.type, start := r.start, stop := r.stop } ::
        ⟨cl.scoid, cl.type, r.stop + 1, cl.stop, []⟩ :: behind, cl.blocked, .eok, adds, splits.tail⟩
  else ⟨before ++ { bare with stop := r.start - 1 } :: piece :: behind, cl.blocked, .eok, adds, splits.tail⟩

/-- A new lock makes `locks` into `locks'`. -/
def lockAdd (locks locks' : List Lock) (adds splits : List Bool) : Entered :=
  if adds.headD true then ⟨locks', [], .eok, adds.tail, splits⟩ else ⟨locks, [], .enomem, adds.tail, splits⟩

/-- The scan goes on over a lock. -/
def Request.passes (r : Request) (cl : Lock) : Bool := !r.own cl && decide (cl.start ≤ r.start)

def enter (locks : List Lock) (r : Request) (adds splits : List Bool) : Entered :=
  match locks with
  | [] => lockAdd locks [r.lock] adds splits
  | first :: _ =>
    if r.stop < first.start then lockAdd locks (r.lock :: locks) adds splits
    else
      let before := locks.takeWhile r.passes
      match locks.dropWhile r.passes with
      | [] => lockAdd locks (before ++ [r.lock]) adds splits
      | cl :: behind =>
        if r.own cl then
          if cl.type = r.type then
            ⟨before ++ { cl with start := min cl.start r.start, stop := max cl.stop r.stop } :: behind, [], .eok, adds,
              splits⟩
          else lockSplit before cl behind r adds splits
        else
          match before with
          -- the new lock is linked to a local variable
          | [] => lockAdd locks locks adds splits
          | _ => lockAdd locks (before ++ r.lock :: cl :: behind) adds splits

/-! ## Unlocking -/

/-- The list without the bytes, the clients stripped off what has changed (`none` if memory for a
piece could not be had), and the memory left. -/
structure Unlocked where
  locks : List Lock
  pending : Option (List Waiter)
  splits : List Bool
  deriving DecidableEq, Repr

/-- What has been done with a lock is put in front of what is done with those behind it. -/
def Unlocked.after (u : Unlocked) (locks : List Lock) (blocked : List Waiter) : Unlocked :=
  { u with locks := locks ++ u.locks, pending := u.pending.map (blocked ++ ·) }

def unlockLoop (scoid start stop : Nat) : List Lock → List Bool → Unlocked
  | [], splits => ⟨[], some [], splits⟩
  | cl :: rest, splits =>
    let bare := { cl with blocked := [] }
    if cl.scoid ≠ scoid ∨ overlap start stop cl.start cl.stop = false then
      (unlockLoop scoid start stop rest splits).after [cl] []
    else if start ≤ cl.start ∧ cl.stop ≤ stop then (unlockLoop scoid start stop rest splits).after [] cl.blocked
    else if cl.start < start ∧ stop < cl.stop then
      if splits.headD true = false then ⟨bare :: rest, none, splits.tail⟩
      else
        (unlockLoop scoid start stop rest splits.tail).after
          [{ bare with stop := start - 1 }, ⟨cl.scoid, cl.type, stop + 1, cl.stop, []⟩] cl.blocked
    else if start ≤ cl.start ∧ stop < cl.stop then
      (unlockLoop scoid start stop rest splits).after [{ bare with start := stop + 1 }] cl.blocked
    else (unlockLoop scoid start stop rest splits).after [{ bare with stop := start - 1 }] cl.blocked

/-! ## Clients that wait -/

/-- The answer to a client that has waited. `fits` is whether its lock found its place in the list
(`Request.fits`) when it was entered, and `recorded` whether it was in the list then. -/
structure Answer where
  ticket : Nat
  rcvid : Nat
  status : Status
  fits : Bool
  recorded : Bool
  deriving DecidableEq, Repr

/-- The locks of a file, how many clients have been made to wait, and the answers to them. -/
structure LockState where
  locks : List Lock
  next : Nat
  answers : List Answer
  adds : List Bool
  splits : List Bool
  deriving DecidableEq, Repr

/-- A lock of the client and of the type, for all bytes of the request. -/
def Request.recorded (r : Request) (locks : List Lock) : Bool :=
  locks.any fun cl => cl.scoid == r.scoid && cl.type == r.type && decide (cl.start ≤ r.start ∧ r.stop ≤ cl.stop)

/-- The request does not begin before the first lock of the list and overlap it, unless that lock
is its own. -/
def Request.fits (r : Request) : List Lock → Bool
  | [] => true
  | first :: _ => decide (r.stop < first.start) || r.passes first || r.own first

/-- The client waits on the first lock that is in its way, behind those that wait there. -/
def attach (w : Waiter) : List Lock → Option (List Lock)
  | [] => none
  | cl :: rest =>
    if w.req.conflicts cl then some ({ cl with blocked := cl.blocked ++ [w] } :: rest)
    else (attach w rest).map (cl :: ·)

def lockScoid (reblock : LockState → List Waiter → Option LockState) (s : LockState) (r : Request) :
    Option (LockState × Status × Bool) :=
  let e := enter s.locks r s.adds s.splits
  let s := { s with locks := e.locks, adds := e.adds, splits := e.splits }
  (if e.pending = [] then some s else reblock s e.pending).map fun s => (s, e.status, r.recorded e.locks)

/-- The client is granted its lock, or told that it cannot have it. -/
def grant (reblock : LockState → List Waiter → Option LockState) (s : LockState) (w : Waiter) : Option LockState :=
  (lockScoid reblock s w.req).map fun (s', status, recorded) =>
    { s' with answers := s'.answers ++ [⟨w.ticket, w.rcvid, status, w.req.fits s.locks, recorded⟩] }

def reblockWith (grant : LockState → Waiter → Option LockState) : LockState → List Waiter → Option LockState
  | s, [] => some s
  | s, w :: ws =>
    match attach w s.locks with
    | some locks => reblockWith grant { s with locks := locks } ws
    | none => (grant s w).bind fun s => reblockWith grant s ws

/-- The depth of the recursion is bounded by the number of clients that wait. -/
def reblock : Nat → LockState → List Waiter → Option LockState
  | 0, s, ws => if ws = [] then some s else none
  | depth + 1, s, ws => reblockWith (grant (reblock depth)) s ws

/-- The clients that wait. -/
def waiting (locks : List Lock) : List Waiter := locks.flatMap Lock.blocked

def unlockScoid (s : LockState) (scoid start stop : Nat) : Option LockState :=
  let u := unlockLoop scoid start stop s.locks s.splits
  let s' := { s with locks := u.locks, splits := u.splits }
  match u.pending with
  | none => some s'
  | some pending => if pending = [] then some s' else reblock (waiting s.locks).length s' pending

/-! ## Requests -/

/-- `wait` is `F_SETLKW`, `mem` whether memory for the client that waits can be had. -/
inductive LockOp
  | lock (rcvid : Nat) (r : Request) (wait mem : Bool) (adds splits : List Bool)
  | unlock (scoid start stop : Nat) (adds splits : List Bool)
  deriving DecidableEq, Repr

def LockState.step (s : LockState) : LockOp → Option LockState
  | .lock rcvid r wait mem adds splits =>
    let s := { s with adds := adds, splits := splits }
    match attach ⟨s.next, rcvid, r⟩ s.locks with
    | some locks => if wait && mem then some { s with locks := locks, next := s.next + 1 } else some s
    | none => (lockScoid (reblock (waiting s.locks).length) s r).map Prod.fst
  | .unlock scoid start stop adds splits => unlockScoid { s with adds := adds, splits := splits } scoid start stop

def LockState.boot : LockState := ⟨[], 0, [], [], []⟩

end QRV.Iofunc
