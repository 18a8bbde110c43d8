import QRV.Lib.LinkCell
import QRV.Lib.Run
import QRV.Lib.StableQueue

/- Global channels: msgsend_gbl and msgreceive_gbl of `kernel/nano/nano_asyncmsg.c`. Messages wait in
   kernel buffers, in the order of their priority; the list starts in `reply_queue`, and `tail` is its
   last buffer. A sender that finds a receiver hands its message over at once; one that finds the
   channel full blocks in `send_queue`, and makes its call again when a message has been received. One
   buffer that is not in use is kept in `free`.

   The cell `.head ()` is `reply_queue`. The copying does not fault. A call that is preempted before it
   has locked the kernel starts again; all it can leave behind is a new buffer. Left out are the event
   that tells of the first message, the fields of the receiver's `_msg_info`, and `links` of the
   connection. A call returns the channel, what it came to, and the message it copied to a thread.

   `none` is a crash.

   Correspondence (C ↔ Lean) where the names differ:
     `LINK_PRI_MSG`     ↔ `linkPriMsg` (its loop `findPlace`)
     `pril_add`         ↔ `StableQueue.enqueue` -/
namespace QRV.Nano.GblMsg
open LinkCell StableQueue

structure Msg (M : Type) where
  priority : Nat
  data : M

/-- What a call comes to: `enoerror` is a call that is done; one that blocks, or is preempted before it
has locked the kernel, has done nothing yet and is made again. -/
inductive Errno where
  | enoerror
  | emsgsize
  | eagain
  | etimedout
  | enomem
  | blocked
  | restart
  deriving DecidableEq, Repr

/-- A CHANNELGBL with threads `T`, buffers `N` and messages `M`. -/
structure Channel (T N M : Type) where
  /-- reply_queue and `next` of the buffers -/
  links : Links Unit N
  tail : Option N
  free : Option N
  /-- what is in a buffer -/
  entry : N → Msg M
  allocated : List N
  numCurrMsg : Nat
  maxNumBuffer : Nat
  bufferSize : Nat
  receiveQueue : List T
  sendQueue : List T

/-- A message copied to a thread. -/
structure Copied (T M : Type) where
  thp : T
  msg : Msg M

/-- What a call finds. -/
structure Env (N : Type) where
  /-- _NTO_COF_NONBLOCK of the connection, or _NTO_CHF_ASYNC_NONBLOCK of the channel -/
  nonblock : Bool
  /-- IMTO: a timeout of zero -/
  imto : Bool
  preempted : Bool
  /-- the result of _smalloc; a buffer that is in use is not returned -/
  fresh : Option N

variable {T N M : Type} [DecidableEq T] [DecidableEq N]

/-- The loop of LINK_PRI_MSG: the buffer behind which the new one comes. -/
def findPlace (links : Links Unit N) (prio : N → Nat) (msg : N) : Nat → N → Option N
  | 0, _ => none
  | fuel + 1, m =>
    match links (.next m) with
    | none => none
    | some next => if prio msg ≤ prio next then findPlace links prio msg fuel next else some m

def linkPriMsg (links : Links Unit N) (tail : Option N) (prio : N → Nat) (fuel : Nat) (msg : N) :
    Option (Links Unit N × Option N) :=
  match links (.head ()) with
  | none => some ((links.set (.next msg) none).set (.head ()) (some msg), some msg)
  | some m =>
    match tail with
    | none => none
    | some last =>
      if prio msg ≤ prio last then
        some ((links.set (.next msg) none).set (.next last) (some msg), some msg)
      else if prio m < prio msg then
        some ((links.set (.next msg) (some m)).set (.head ()) (some msg), tail)
      else do
        let m ← findPlace links prio msg fuel m
        some ((links.set (.next msg) (links (.next m))).set (.next m) (some msg), tail)

/-- The messages in the queue. -/
def Channel.queued (chp : Channel T N M) : List (Msg M) :=
  (LinkCell.walk chp.links chp.numCurrMsg (.head ())).map chp.entry

/-- The buffer for a message: `free`, or a new one. -/
def Channel.buffer (chp : Channel T N M) (fresh : Option N) : Option (Channel T N M × N) :=
  match chp.free with
  | some gblmsg => some (chp, gblmsg)
  | none =>
    match fresh with
    | none => none
    | some gblmsg =>
      if gblmsg ∈ chp.allocated then none
      else some ({ chp with free := some gblmsg, allocated := gblmsg :: chp.allocated }, gblmsg)

/-- The message in the buffer enters the queue. -/
def Channel.queue (chp : Channel T N M) (gblmsg : N) (msg : Msg M) : Option (Channel T N M) := do
  let entry := Function.update chp.entry gblmsg msg
  let (links, tail) ← linkPriMsg chp.links chp.tail (fun n => (entry n).priority) (chp.numCurrMsg + 1) gblmsg
  some { chp with
    links := links
    tail := tail
    entry := entry
    numCurrMsg := chp.numCurrMsg + 1
    free := none }

/-- msgsend_gbl; `thrPrio` is the priority of each thread. -/
def msgsendGbl (thrPrio : T → Nat) (env : Env N) (act : T) (size : Nat) (msg : Msg M) (chp : Channel T N M) :
    Option (Channel T N M × Errno × Option (Copied T M)) :=
  if chp.bufferSize < size then some (chp, .emsgsize, none)
  else if chp.maxNumBuffer ≤ chp.numCurrMsg then
    if env.nonblock then some (chp, .eagain, none)
    else if env.imto then some (chp, .etimedout, none)
    else some ({ chp with sendQueue := enqueue thrPrio act chp.sendQueue }, .blocked, none)
  else
    match chp.receiveQueue with
    | thp :: rest =>
      -- somebody is waiting, deliver the message directly
      if env.preempted then some (chp, .restart, none)
      else some ({ chp with receiveQueue := rest }, .enoerror, some ⟨thp, msg⟩)
    | [] =>
      match chp.buffer env.fresh with
      | none => some (chp, .enomem, none)
      | some (chp, gblmsg) =>
        if env.preempted then some (chp, .restart, none)
        else (chp.queue gblmsg msg).map (·, .enoerror, none)

/-- The first message leaves the queue. -/
def Channel.dequeue (chp : Channel T N M) (gblmsg : N) : Channel T N M :=
  let links := chp.links.set (.head ()) (chp.links (.next gblmsg))
  { chp with
    links := links
    tail := if links (.head ()) = none then none else chp.tail
    numCurrMsg := chp.numCurrMsg - 1
    free := if chp.free = none then some gblmsg else chp.free
    allocated := if chp.free = none then chp.allocated else chp.allocated.erase gblmsg
    -- a sender makes its call again
    sendQueue := chp.sendQueue.tail }

def msgreceiveGbl (env : Env N) (act : T) (size : Nat) (chp : Channel T N M) :
    Option (Channel T N M × Errno × Option (Copied T M)) :=
  if size < chp.bufferSize then some (chp, .emsgsize, none)
  else if chp.numCurrMsg ≠ 0 then
    match chp.links (.head ()) with
    | none => none
    | some gblmsg =>
      if env.preempted then some (chp, .restart, none)
      else some (chp.dequeue gblmsg, .enoerror, some ⟨act, chp.entry gblmsg⟩)
  else if env.nonblock then some (chp, .eagain, none)
  else if env.imto then some (chp, .etimedout, none)
  else some ({ chp with receiveQueue := act :: chp.receiveQueue }, .blocked, none)

/-! ## Runs -/

inductive Op (T N M : Type) where
  | send (act : T) (size : Nat) (msg : Msg M) (env : Env N)
  | receive (act : T) (size : Nat) (env : Env N)

def Op.act : Op T N M → T
  | .send act _ _ _ => act
  | .receive act _ _ => act

/-- The message of a call that sends one. -/
def Op.msg : Op T N M → Option (Msg M)
  | .send _ _ msg _ => some msg
  | .receive _ _ _ => none

/-- A call and what came of it: the message copied, and the messages that stay. -/
structure Event (T N M : Type) where
  op : Op T N M
  err : Errno
  copied : Option (Copied T M)
  left : List (Msg M)

/-- The message of a send that is done. -/
def Event.sent (e : Event T N M) : Option (Msg M) :=
  if e.err = .enoerror then e.op.msg else none

def call (thrPrio : T → Nat) (chp : Channel T N M) : Op T N M → Option (Channel T N M × Errno × Option (Copied T M))
  | .send act size msg env => msgsendGbl thrPrio env act size msg chp
  | .receive act size env => msgreceiveGbl env act size chp

/-- A thread that is blocked makes no call. -/
def step (thrPrio : T → Nat) (s : Channel T N M × List (Event T N M)) (op : Op T N M) :
    Option (Channel T N M × List (Event T N M)) :=
  if op.act ∈ s.1.receiveQueue ∨ op.act ∈ s.1.sendQueue then some s
  else do
    let (chp, err, copied) ← call thrPrio s.1 op
    some (chp, s.2 ++ [⟨op, err, copied, chp.queued⟩])

/-- The channel after the calls, and what came of each. -/
def run (thrPrio : T → Nat) (ops : List (Op T N M)) (chp : Channel T N M) :
    Option (Channel T N M × List (Event T N M)) :=
  Run.exec (step thrPrio) ops (chp, [])

/-- ChannelCreate; `memory` is what is in the buffers before they are used. -/
def create (maxNumBuffer bufferSize : Nat) (memory : N → Msg M) : Channel T N M where
  links _ := none
  tail := none
  free := none
  entry := memory
  allocated := []
  numCurrMsg := 0
  maxNumBuffer := maxNumBuffer
  bufferSize := bufferSize
  receiveQueue := []
  sendQueue := []

end QRV.Nano.GblMsg
