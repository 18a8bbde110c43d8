import QRV.Lib.LinkCell
import QRV.Lib.StableQueue

/- The priority list (PRIL) of the nanokernel, `kernel/nano/nano_misc.c`: every
   send queue, signal queue and waiting list of a synchronisation object.

   The memory of a list is its links (`next`, and the head word `ph->data`), the
   `prev` word, the `type` byte and the `priority` byte of every entry. `prev`
   is a union in the source: the tail of its level for a HEAD entry, the address
   of the link to the entry for every other one. `next` is the first field of an
   entry, so the address of `t->next` is `t` itself, and both readings of the
   union are one word: the cell `next t`.

   Loops take fuel; a run of the code that reads through a null or a list head
   as if it were an entry is `none`.

   Correspondence (C ↔ Lean) where the names differ:
     the level loop of `pril_find_insertion` and `pril_add` ↔ `findLevel`
     `pril_rem`                 ↔ `prilRem` -/
namespace QRV.Nano
open LinkCell

/-- `NUM_PRI`, the number of priorities. -/
def numPri : Nat := 256

/-- The `TYPE_*` values an entry's `type` byte holds under `TYPE_TYPE_MASK`. -/
inductive ObjType where
  | thread | pulse | signal | vthread | connection | channel | vpulse | syncevent
  deriving DecidableEq, Repr

/-- The `type` byte: the object type and the flag bits above it. -/
structure PrilType where
  obj : ObjType
  /-- `TYPE_FLAG_FIRST` -/
  first : Bool := false
  /-- `FLAG_TAIL` -/
  tail : Bool := false
  /-- `FLAG_HEAD` -/
  head : Bool := false
  /-- `FLAG_UPDATER` -/
  updater : Bool := false
  deriving DecidableEq, Repr

/-- A registered `struct pril_update`: somebody's position on some list. -/
structure PrilUpdate (A : Type) where
  upp : Nat
  pril : Option A
  deriving DecidableEq, Repr

/-- The fields the priority list routines read and write. -/
structure PrilMem (Q A : Type) where
  links : Links Q A
  prev : A → Cell Q A
  type : A → PrilType
  priority : A → UInt8
  updateList : List (PrilUpdate A) := []

variable {Q A : Type}

/-- `TYPE_FLAG_FIRST` is an extra priority bit. -/
def prilPriority (m : PrilMem Q A) (p : A) : Nat :=
  (m.priority p).toNat + if (m.type p).first then numPri else 0

/-- Where the level loop stops: at a level of the priority sought (its owner,
head and tail), or at the place of a new level (its owner and what follows). -/
inductive Level (Q A : Type) where
  | found (owner : Cell Q A) (head tail : A)
  | absent (owner : Cell Q A) (head : Option A)

/-- The loop over the HEAD entries, from the link `owner`. -/
def findLevel (m : PrilMem Q A) (nPrio : Nat) : Nat → Cell Q A → Option (Level Q A)
  | 0, _ => none
  | fuel + 1, owner =>
    match m.links owner with
    | none => some (.absent owner none)
    | some head =>
      if prilPriority m head < nPrio then some (.absent owner (some head))
      else match m.prev head with
        | .head _ => none
        | .next tail =>
          if prilPriority m head = nPrio then some (.found owner head tail)
          else findLevel m nPrio fuel (.next tail)

/-- The insertion word of `pril_find_insertion`: a priority byte with
`_PULSE_PRIO_BOOST` and `_PULSE_PRIO_HEAD`. -/
structure Insertion where
  priority : UInt8
  boost : Bool := false
  head : Bool := false
  deriving DecidableEq, Repr

/-- `n_prio` of `pril_find_insertion`. -/
def Insertion.prio (i : Insertion) : Nat := i.priority.toNat + if i.boost then numPri else 0

/-- The head or tail of the level, or `some none` for a null. -/
def prilFindInsertion (fuel : Nat) (m : PrilMem Q A) (ph : Q) (i : Insertion) :
    Option (Option A) :=
  match findLevel m i.prio fuel (.head ph) with
  | none => none
  | some (.absent _ _) => some none
  | some (.found _ head tail) => some (some (if i.head then head else tail))

section Stores
variable [DecidableEq Q] [DecidableEq A]

def PrilMem.setLink (m : PrilMem Q A) (c : Cell Q A) (v : Option A) : PrilMem Q A :=
  { m with links := m.links.set c v }

def PrilMem.setPrev (m : PrilMem Q A) (p : A) (c : Cell Q A) : PrilMem Q A :=
  { m with prev := Function.update m.prev p c }

def PrilMem.setType (m : PrilMem Q A) (p : A) (t : PrilType) : PrilMem Q A :=
  { m with type := Function.update m.type p t }

/-- What `pril_add` stores once the loop has stopped. -/
def prilInsert (m : PrilMem Q A) (new : A) : Level Q A → PrilMem Q A
  | .found _ head tail =>
    -- add to current level
    let m := m.setPrev head (.next new)
    let m := m.setLink (.next new) (m.links (.next tail))
    let m := m.setType new { m.type new with head := false, tail := true }
    let m := m.setType tail { m.type tail with tail := false }
    let m := m.setLink (.next tail) (some new)
    m.setPrev new (.next tail)
  | .absent owner head =>
    -- create new level
    let m := m.setLink (.next new) head
    let m := m.setType new { m.type new with head := true, tail := true }
    let m := m.setPrev new (.next new)
    m.setLink owner (some new)

def prilAdd (fuel : Nat) (m : PrilMem Q A) (ph : Q) (new : A) : Option (PrilMem Q A) :=
  (findLevel m (prilPriority m new) fuel (.head ph)).map (prilInsert m new)

/-- The loop of `pril_rem`: the link to, and the head of, the level `pPrio`. -/
def remLevel (m : PrilMem Q A) (pPrio : Nat) : Nat → Cell Q A → Option (Cell Q A × A)
  | 0, _ => none
  | fuel + 1, owner =>
    match m.links owner with
    | none => none
    | some head =>
      if prilPriority m head = pPrio then some (owner, head)
      else match m.prev head with
        | .head _ => none
        | .next tail => remLevel m pPrio fuel (.next tail)

/-- Somebody's position on the deleted entry moves to the next one. -/
def moveUpdaters (m : PrilMem Q A) (p : A) (next : Option A) : Option (PrilMem Q A) :=
  if m.updateList.any (fun u => u.pril == some p) then
    match next with
    | none => none
    | some n =>
      some { m.setType n { m.type n with updater := true } with
        updateList := m.updateList.map
          (fun u => if u.pril = some p then { u with pril := next } else u) }
  else some m

/-- `pril_rem` up to the updaters. -/
def prilUnlink (fuel : Nat) (m : PrilMem Q A) (ph : Q) (p : A) : Option (PrilMem Q A) :=
  let next := m.links (.next p)
  let f := m.type p
  if f.head || f.tail then
    match remLevel m (prilPriority m p) fuel (.head ph) with
    | none => none
    | some (owner, head) =>
      let clear := { f with head := false, tail := false }
      if !f.tail then
        -- just removing a head
        match next with
        | none => none
        | some n =>
          let m := m.setLink owner next
          let m := m.setPrev n (m.prev p)
          let m := m.setType n { m.type n with head := true }
          some (m.setType p clear)
      else if !f.head then
        -- just removing a tail
        match m.prev p with
        | .head _ => none
        | .next t =>
          let m := m.setLink (.next t) next
          let m := m.setPrev head (.next t)
          let m := m.setType t { m.type t with tail := true }
          some (m.setType p clear)
      else
        -- totally removing a level
        some ((m.setLink owner next).setType p clear)
  else
    match next with
    | none => none
    | some n =>
      let owner := m.prev p
      let m := m.setPrev n owner
      some (m.setLink owner next)

def prilRem (fuel : Nat) (m : PrilMem Q A) (ph : Q) (p : A) : Option (PrilMem Q A) :=
  (prilUnlink fuel m ph p).bind fun m' =>
    if (m.type p).updater then moveUpdaters m' p (m.links (.next p)) else some m'

end Stores

end QRV.Nano
