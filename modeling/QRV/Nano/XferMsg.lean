import QRV.Nano.XferCopy

/- xfermsg (nano_xfer.c): the message of one thread is moved to another one, directly or
   through windows onto the address space of one of the two.

   An address space is a process, `none` the system's (aspace_prp NULL). `view c a` is
   the place of the byte at address `a` while the processor is in space `c`. The memory
   manager's map_xfer is a parameter, with the promises it makes as fields of `Mapper`.

   The kernel can be preempted at any point; `pre` says at which points it is. The
   thread then leaves the kernel, and the same call is made again later. What a call
   can change in between two points are the marks of the restart, `msglen` and the
   memory, so the points are those between two such changes.

   Offsets are `int`; they are compared with lengths as `size_t`.

   Correspondence (C ↔ Lean):
     `OFFSET_SKIP`, `OFFSET_SKIP_BR`     ↔ `offsetSkip`
     the table of address spaces         ↔ `route`
     the loops with map_xfer             ↔ `mapLoop`
     `xfermsg`                           ↔ `xfermsg` -/
namespace QRV.Nano.Xfer

/-! ## Offsets -/

/-- A value stored in an `int`. -/
def int32 (i : Int) : Int := i.bmod (2 ^ 32)

/-- An `int` converted to `size_t`. -/
def sizeT (i : Int) : Nat := (i % 2 ^ 64).toNat

/-- OFFSET_SKIP: the offset within the first part that it does not pass, and the parts from
there on. -/
def offsetSkip : Int → List Iov → Int × List Iov
  | off, [] => (off, [])
  | off, v :: vs =>
    if v.len ≤ sizeT off then offsetSkip (int32 ((sizeT off : Int) - v.len)) vs else (off, v :: vs)

/-! ## Messages and windows -/

/-- `args.ms.sparts` and `smsg`, or `rparts` and `rmsg`: a buffer if the parts are negative, else
that many parts. -/
inductive Msg where
  | buffer (base len : Nat)
  | iov (parts : List Iov)
  deriving DecidableEq, Repr

def Msg.parts : Msg → Int
  | .buffer _ len => -len
  | .iov parts => parts.length

/-- The parts, with a buffer turned into one. -/
def Msg.list : Msg → List Iov
  | .buffer base len => [⟨base, len⟩]
  | .iov parts => parts

/-- XFER_IOV_LIMIT. -/
def iovLimit : Int := 4 * 1024 * 1024 / 8

/-- What map_xfer returns: the window, its number of bytes, and the parts and the offset behind
it. -/
structure Window where
  iovs : List Iov
  nbytes : Nat
  rest : List Iov
  off : Nat

/-- The memory manager's map_xfer from space `prp` into space `cur`, on its `n`-th call: windows
that show the requested bytes in order, and the rest behind them. It fails with
`none`. -/
structure Mapper {A P : Type} (view : Option A → Nat → P) (cur prp : Option A) where
  map : Nat → List Iov → Nat → Option Window
  shows : ∀ {n l off w}, map n l off = some w →
    (stream w.iovs).map (view cur) = ((remain l off).take w.nbytes).map (view prp)
  behind : ∀ {n l off w}, map n l off = some w → remain w.rest w.off = (remain l off).drop w.nbytes
  bytes : ∀ {n l off w}, map n l off = some w → (stream w.iovs).length = w.nbytes
  small : ∀ {n l off w}, map n l off = some w → w.nbytes < 2 ^ 31
  ended : ∀ {n l off w}, map n l off = some w → w.nbytes = 0 → remain l off = []

section
variable {A P : Type} {view : Option A → Nat → P} {cur prp : Option A} (m : Mapper view cur prp) {n l off w}
  (h : m.map n l off = some w)
include m h

theorem Mapper.le : w.nbytes ≤ (remain l off).length := by
  have hlen := congrArg List.length (m.shows h)
  rw [List.length_map, List.length_map, m.bytes h, List.length_take] at hlen
  omega

theorem Mapper.lt (h0 : w.nbytes ≠ 0) :
    (remain w.rest w.off).length < (remain l off).length := by
  have := m.le h
  rw [m.behind h, List.length_drop]
  omega

end

/-! ## The transfer -/

/-- Where the kernel is preempted: on entry, behind each store that starts a transfer, before each
turn of a loop with map_xfer, behind a change of the address space, and at the end. -/
inductive Point where
  | entry | cleared | linked | marked | turn (n : Nat) | switched | finished
  deriving DecidableEq, Repr

/-- How a call ends. `crash` is a failed check of a debug build. -/
inductive Result where
  | done | fault (e : Stop) | preempted | crash
  deriving DecidableEq, Repr

/-- The `restart` of the threads, the `args.ms.dthp` of the source thread, and the state of the
copy. -/
structure Msgs (T P : Type) where
  restart : T → Option T
  dthp : Option T
  x : Xfer P

/-- The arguments of xfermsg that stay the same when the call is made again. -/
structure Args (T A : Type) where
  dthp : T
  sthp : T
  /-- The destination, `rparts` and `rmsg` of dthp. -/
  dst : Msg
  /-- The source, `sparts` and `smsg` of sthp. -/
  src : Msg
  /-- The aspace_prp of both threads. -/
  dprp : Option A
  sprp : Option A
  doff : Int
  soff : Int

/-- What a single call meets: the active thread, the current address space, when it is stopped
or preempted, and the windows it gets. -/
structure Env {T A P : Type} (view : Option A → Nat → P) (a : Args T A) where
  debug : Bool
  act : T
  cur : Option A
  pre : Point → Bool
  stop : Nat → Option (P × P) → Option Stop
  mapDst : Mapper view cur a.dprp
  mapSrc : Mapper view cur a.sprp

/-- How the bytes of both threads are reached. -/
inductive Route (A : Type) where
  | mapDst
  | mapSrc
  /-- Directly, in the current space. -/
  | direct
  /-- Directly, behind a change of the space. -/
  | switch (prp : A)
  deriving DecidableEq, Repr

/-- The table of address spaces. -/
def route {A : Type} [DecidableEq A] (cur dprp sprp : Option A) : Route A :=
  match dprp with
  | some d =>
    if sprp = cur then if some d ≠ cur then .mapDst else .direct
    else match sprp with
      | some _ => .mapSrc
      | none => if some d ≠ cur then .switch d else .direct
  | none =>
    if sprp ≠ cur then match sprp with
      | some s => .switch s
      | none => .direct
    else .direct

/-- The side that is mapped. -/
inductive Side where
  | dst | src
  deriving DecidableEq, Repr

/-- The fault of a side that can not be mapped. -/
def Side.fault : Side → Stop
  | .dst => .dstFault
  | .src => .srcFault

section
variable {T A P : Type} [DecidableEq T] [DecidableEq A] [DecidableEq P] {view : Option A → Nat → P} {a : Args T A}

/-- xferiov between a window onto one side and the other side. -/
def windowIov (side : Side) (e : Env view a) (window : List Iov) (other : List Iov) (off : Int) (x : Xfer P) :
    Option (Xfer P × Option Stop) :=
  match side with
  | .dst => xferiov (view e.cur) e.stop e.debug window other 0 (sizeT off) x
  | .src => xferiov (view e.cur) e.stop e.debug other window (sizeT off) 0 x

/-- XFER_FAULTRET. -/
def faultRet (e : Env view a) (f : Stop) (st : Msgs T P) : Msgs T P × Result :=
  ({ st with restart := Function.update st.restart e.act none }, .fault f)

/-- A loop with map_xfer: `side` is mapped from `parts` and `off`, the other side is at `other`
and `ooff`. -/
def mapLoop {prp : Option A} (side : Side) (e : Env view a) (m : Mapper view e.cur prp) (n : Nat) (parts : List Iov)
    (off : Nat) (other : List Iov) (ooff : Int) (st : Msgs T P) : Msgs T P × Result :=
  if e.pre (.turn n) then (st, .preempted)
  else
    match _hm : m.map n parts off with
    | none => faultRet e side.fault st
    | some w =>
      if _h0 : w.nbytes = 0 then (st, .done)
      else
        match windowIov side e w.iovs other ooff st.x with
        | none => (st, .crash)
        | some (x, r) =>
          let st := { st with x := x }
          match r with
          | some .preempt => (st, .preempted)
          | some f => faultRet e f st
          | none =>
            if w.rest = [] then (st, .done)
            else
              let (ooff, other) := offsetSkip (int32 (ooff + w.nbytes)) other
              if other = [] then (st, .done) else mapLoop side e m (n + 1) w.rest w.off other ooff st
termination_by (remain parts off).length
decreasing_by exact m.lt _hm _h0

/-- OFFSET_SKIP where there is an offset. -/
def skipTo (off : Int) (vs : List Iov) : Int × List Iov := if off ≠ 0 then offsetSkip off vs else (off, vs)

/-- The end of xfermsg, behind the choice of the address space `cur`. -/
def direct (e : Env view a) (cur : Option A) (doff soff : Int) (st : Msgs T P) : Msgs T P × Result :=
  let (doff, dst) := skipTo doff a.dst.list
  if dst = [] then (st, .done)
  else
    let (soff, src) := skipTo soff a.src.list
    if src = [] then (st, .done)
    else
      match xferiov (view cur) e.stop e.debug dst src (sizeT doff) (sizeT soff) st.x with
      | none => (st, .crash)
      | some (x, r) =>
        let st := { st with x := x }
        match r with
        | some .preempt => (st, .preempted)
        | some f => (st, .fault f)
        | none => (st, .done)

/-- xfermsg behind the test for a restart. -/
def transfer (e : Env view a) (doff soff : Int) (st : Msgs T P) : Msgs T P × Result :=
  if a.src.parts = 0 then (st, .done)
  else if iovLimit < a.src.parts then (st, .fault .srcFault)
  else if a.dst.parts = 0 then (st, .done)
  else if iovLimit < a.dst.parts then (st, .fault .dstFault)
  else
    match route e.cur a.dprp a.sprp with
    | .mapDst =>
      let (soff, src) := skipTo soff a.src.list
      if src = [] then (st, .done) else mapLoop .dst e e.mapDst 0 a.dst.list (sizeT doff) src soff st
    | .mapSrc =>
      let (doff, dst) := skipTo doff a.dst.list
      if dst = [] then (st, .done) else mapLoop .src e e.mapSrc 0 a.src.list (sizeT soff) dst doff st
    | .direct => direct e e.cur doff soff st
    | .switch prp => if e.pre .switched then (st, .preempted) else direct e (some prp) doff soff st

/-- The threads match: the call continues where it left off. -/
def Msgs.Resumes (a : Args T A) (st : Msgs T P) : Prop :=
  st.restart a.dthp = some a.sthp ∧ st.restart a.sthp = some a.sthp ∧ st.dthp = some a.dthp

instance (a : Args T A) (st : Msgs T P) : Decidable (st.Resumes a) :=
  inferInstanceAs (Decidable (_ ∧ _ ∧ _))

def Msgs.clear (st : Msgs T P) : Msgs T P := { st with x := { st.x with msglen := 0 } }
def Msgs.link (a : Args T A) (st : Msgs T P) : Msgs T P := { st with dthp := some a.dthp }
def Msgs.mark (a : Args T A) (t : T) (st : Msgs T P) : Msgs T P :=
  { st with restart := Function.update st.restart t (some a.sthp) }

/-- The kernel is preempted at the end of the transfer. -/
def atEnd (e : Env view a) : Msgs T P × Result → Msgs T P × Result
  | (st, .done) => if e.pre .finished then (st, .preempted) else (st, .done)
  | r => r

/-- xfermsg. -/
def xfermsg (e : Env view a) (st : Msgs T P) : Msgs T P × Result :=
  if e.pre .entry then (st, .preempted)
  else if st.Resumes a then
    atEnd e (transfer e (int32 (a.doff + st.x.msglen.toNat)) (int32 (a.soff + st.x.msglen.toNat)) st)
  else
    let st := st.clear
    if e.pre .cleared then (st, .preempted)
    else
      let st := st.link a
      if e.pre .linked then (st, .preempted)
      else
        let st := st.mark a a.dthp
        if e.pre .marked then (st, .preempted)
        else atEnd e (transfer e a.doff a.soff (st.mark a a.sthp))

/-- The call is made again as long as it is preempted. -/
def xfermsgRun : List (Env view a) → Msgs T P → Msgs T P × Result
  | [], st => (st, .preempted)
  | e :: es, st =>
    match xfermsg e st with
    | (st, .preempted) => xfermsgRun es st
    | r => r

end

end QRV.Nano.Xfer
