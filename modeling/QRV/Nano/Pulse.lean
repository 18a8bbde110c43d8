import QRV.Nano.PrilRun

/- Pulses on a channel's send queue, `kernel/nano/nano_pulse.c`. A pulse that
   repeats the last entry of its level is not queued: the entry counts it
   (`pulse_add`). Delivery takes one off the count of the first pulse entry
   (`pulse_remove`), and the entry leaves the queue with its last count.
   Blocked senders wait on the same queue, and both routines read what they find
   there as a pulse; the bytes of a thread under the pulse's fields are those the
   thread has there (its policy, its state, a reserved word, its cpu).

   What is proved: the compressed queue delivers what the queue without
   compression does. `uncompressed` is that queue, one item for each pulse sent,
   larger effective priority first and equal ones in the order sent; every run of
   sends, unblocked senders and receives replays on it event by event
   (`pulse_run_uncompressed`), as long as no pulse meets an entry of another type
   with its fields: `pulse_add` compares the fields and not the type, so a pulse
   can be counted into a blocked sender and be lost (`pulse_run_loses`).

   Correspondence (C ↔ Lean) where the names differ:
     the queue's part of `ker_msg_receivev` ↔ `msgReceive`
   `object_alloc` is the argument `fresh`: the entry it returns, or null. -/
namespace QRV.Nano
open Function (update)
open LinkCell

variable {Q A : Type}

/-- The memory of a send queue: the list, and the fields of `struct pulse_entry`
at every entry. -/
structure PulseMem (Q A : Type) where
  pril : PrilMem Q A
  code : A → Int8
  value : A → UInt32
  id : A → Int32
  count : A → UInt32
  /-- set when a pulse replaced another one -/
  overrun : Bool := false

/-- The priority word of `pulse_add`: the priority byte and the `_PULSE_PRIO_*`
bits the routine reads. -/
structure PulsePrio where
  priority : UInt8
  boost : Bool := false
  replace : Bool := false
  signal : Bool := false
  vtid : Bool := false
  head : Bool := false
  deriving DecidableEq, Repr

/-- The word as `pril_find_insertion` reads it. -/
def PulsePrio.insertion (w : PulsePrio) : Insertion := ⟨w.priority, w.boost, w.head⟩

/-- `type` of a new entry. -/
def PulsePrio.type (w : PulsePrio) : PrilType :=
  { obj := if w.vtid then .vpulse else if w.signal then .signal else .pulse
    first := w.boost }

/-- `_PULSE_COUNT_MAX` -/
def pulseCountMax : UInt32 := 0xffffffff

/-- The `_PULSE_PRIO_REPLACE` scan, over the entries of one priority byte. -/
def replaceScan (m : PulseMem Q A) (priority : UInt8) (code : Int8) (id : Int32) :
    Nat → Option A → Option (Option A)
  | 0, _ => none
  | _ + 1, none => some none
  | fuel + 1, some pup =>
    if m.pril.priority pup = priority then
      if m.code pup = code ∧ m.id pup = id then some (some pup)
      else replaceScan m priority code id fuel (m.pril.links (.next pup))
    else some none

section Ops
variable [DecidableEq Q] [DecidableEq A]

/-- The fields of an entry, written before the entry is queued. -/
def PulseMem.fill (m : PulseMem Q A) (p : A) (priority : UInt8) (type : PrilType) (code : Int8)
    (value : UInt32) (id : Int32) (count : UInt32) : PulseMem Q A :=
  { m with
    pril := { m.pril with priority := update m.pril.priority p priority
                          type := update m.pril.type p type }
    code := update m.code p code
    value := update m.value p value
    id := update m.id p id
    count := update m.count p count }

/-- `pulse_add` from the allocation on. The result is the new memory and the
pointer returned. -/
def pulseAlloc (fuel : Nat) (m : PulseMem Q A) (queue : Q) (w : PulsePrio)
    (code value id : Int32) (fresh : Option A) : Option (PulseMem Q A × Option A) :=
  match fresh with
  | none => some (m, none)
  | some pup =>
    let m := m.fill pup w.priority w.type code.toInt8 value.toUInt32 id 1
    (prilAdd fuel m.pril queue pup).map fun pril => ({ m with pril := pril }, some pup)

def pulseAdd (fuel : Nat) (m : PulseMem Q A) (queue : Q) (w : PulsePrio)
    (code value id : Int32) (fresh : Option A) : Option (PulseMem Q A × Option A) :=
  if w.replace then do
    let pup ← prilFindInsertion fuel m.pril queue { w.insertion with head := true }
    match ← replaceScan m w.priority code.toInt8 id fuel pup with
    | some pup => some ({ m with value := update m.value pup value.toUInt32
                                 overrun := true }, some pup)
    | none => pulseAlloc fuel m queue w code value id fresh
  else do
    match ← prilFindInsertion fuel m.pril queue w.insertion with
    | some pup =>
      if m.code pup = code.toInt8 ∧ m.id pup = id ∧ m.value pup = value.toUInt32 ∧
          m.count pup < pulseCountMax then
        -- We can compress this pulse
        some ({ m with count := update m.count pup (m.count pup + 1) }, some pup)
      else pulseAlloc fuel m queue w code value id fresh
    | none => pulseAlloc fuel m queue w code value id fresh

def pulseRemove (fuel : Nat) (m : PulseMem Q A) (queue : Q) (pup : A) : Option (PulseMem Q A) :=
  let m := { m with count := update m.count pup (m.count pup - 1) }
  if m.count pup = 0 then
    (prilRem fuel m.pril queue pup).map fun pril => { m with pril := pril }
  else some m

/-- What a receiver gets: a pulse, with the effective priority it was sent at and
whether it is a `TYPE_VPULSE` (for which `id` is the sender's thread), or a
blocked sender. -/
inductive Item (A : Type) where
  | pulse (prio : Nat) (vpulse : Bool) (code : Int8) (value : UInt32) (id : Int32)
  | sender (prio : Nat) (thp : A)
  deriving DecidableEq, Repr

def Item.prio : Item A → Nat
  | .pulse prio .. => prio
  | .sender prio _ => prio

def Item.isPulse : Item A → Bool
  | .pulse .. => true
  | .sender .. => false

/-- Whether a receiver takes the entry for a pulse. -/
def PulseMem.isPulse (m : PulseMem Q A) (p : A) : Bool :=
  (m.pril.type p).obj == .pulse || (m.pril.type p).obj == .vpulse

/-- One delivery of an entry. -/
def PulseMem.item (m : PulseMem Q A) (p : A) : Item A :=
  if m.isPulse p then
    .pulse (prilPriority m.pril p) ((m.pril.type p).obj == .vpulse) (m.code p) (m.value p) (m.id p)
  else .sender (prilPriority m.pril p) p

/-- A receive from the entry in the link `c` on: a pulse is copied out and
removed; `MsgReceivePulse` steps over a sender; otherwise the sender's message is
received and the sender leaves the queue. -/
def msgReceive (m : PulseMem Q A) (queue : Q) (pulseOnly : Bool) (remFuel : Nat) :
    Nat → Cell Q A → Option (PulseMem Q A × Option (Item A))
  | 0, _ => none
  | fuel + 1, c =>
    match m.pril.links c with
    | none => some (m, none)
    | some thp =>
      if m.isPulse thp then
        (pulseRemove remFuel m queue thp).map fun m' => (m', some (m.item thp))
      else if pulseOnly then msgReceive m queue pulseOnly remFuel fuel (.next thp)
      else (prilRem remFuel m.pril queue thp).map fun pril =>
        ({ m with pril := pril }, some (m.item thp))

end Ops

end QRV.Nano
