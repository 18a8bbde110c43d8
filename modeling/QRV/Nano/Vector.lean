import QRV.Lib.LinkCell

/- Vectors of object pointers, `kernel/nano/nano_vector.c`, on a machine with
   64-bit pointers and 32-bit `int`s. The bottom bit of a word of the table marks
   a free slot, and the free slots are chained through the table: the word of a
   free slot is the address of the next one with the bottom bit set, or that bit
   alone. The next bit of an occupied slot is a flag of the owner's.

   The memory is read and written one 64-bit word at a time, at byte addresses.
   `prev` of the source is a link: `vec->free` (the head) or the word of a slot.
   A loop takes fuel, and `none` is a crash or a loop that does not end.

   Correspondence (C ↔ Lean) where the names differ:
     the loops and the growth of `vector_add` ↔ `findFree`, `vectorGrow`, `fixChain`, `linkSlots`
   `_scalloc` is the argument `answers`, one answer for each call, and what
   `_sfree` leaves in the old table is `Growth.junk`. -/
namespace QRV.Nano
open LinkCell

/-- `VECTOR_MAX` -/
def vectorMax : Nat := 0xffff - 1

/-- A `VECTOR` and the memory around it. -/
structure VecMem where
  /-- `uint16_t` -/
  nentries : Nat
  /-- `uint16_t` -/
  nfree : Nat
  free : Nat
  /-- the address of the table -/
  vector : Nat
  mem : Nat → Nat

/-- `VECAND(w, ~3)` -/
def vecPtr (w : Nat) : Nat := w / 4 * 4

/-- `VECOR(w, 1)` -/
def vecFree (w : Nat) : Nat := w / 2 * 2 + 1

/-- `VECOR(w, 2)` and `VECAND(w, ~2)` -/
def vecFlag (w : Nat) (flag : Bool) : Nat := w / 4 * 4 + (if flag then 2 else 0) + w % 2

namespace VecMem

/-- The address of slot `i`. -/
def addr (v : VecMem) (i : Nat) : Nat := v.vector + 8 * i

def word (v : VecMem) (i : Nat) : Nat := v.mem (v.addr i)

def read (v : VecMem) : Cell Unit Nat → Nat
  | .head _ => v.free
  | .next a => v.mem a

def write (v : VecMem) (c : Cell Unit Nat) (w : Nat) : VecMem :=
  match c with
  | .head _ => { v with free := w }
  | .next a => { v with mem := Function.update v.mem a w }

/-- The links of the free chain, as addresses. -/
def links (v : VecMem) : Links Unit Nat :=
  fun c => if vecPtr (v.read c) = 0 then none else some (vecPtr (v.read c))

/-- `cur - &vec->vector[0]`, stored in an `unsigned`. -/
def slotIndex (v : VecMem) (cur : Nat) : Nat := (cur + 2 ^ 64 - v.vector) % 2 ^ 64 / 8 % 2 ^ 32

end VecMem

/-- An `unsigned` returned as an `int`. -/
def asInt (i : Nat) : Int := if i < 2 ^ 31 then i else i - 2 ^ 32

/-- The search of `vector_add` from the link `prev` on: the link to, the address
and the index of the first free slot from `index` on. -/
def findFree (v : VecMem) (index : Nat) : Nat → Cell Unit Nat →
    Option (Option (Cell Unit Nat × Nat × Nat))
  | 0, _ => none
  | fuel + 1, prev =>
    let cur := vecPtr (v.read prev)
    if cur = 0 then some none
    else if index ≤ v.slotIndex cur then some (some (prev, cur, v.slotIndex cur))
    else findFree v index fuel (.next cur)

/-- `nentries` of the grown vector. -/
def grownSize (n index : Nat) : Nat :=
  let nentries := if n ≤ index then index + 1 else n + (n + 4) / 4
  let nentries := if nentries < 8 then 8 else nentries
  if vectorMax < nentries then vectorMax else nentries

/-- `*(int *) prev += adjust`: the low half of the word. -/
def addInt (w adjust : Nat) : Nat := w / 2 ^ 32 * 2 ^ 32 + (w % 2 ^ 32 + adjust) % 2 ^ 32

/-- The fix-up of the free chain; the link it stops at. -/
def fixChain (adjust : Nat) : Nat → VecMem → Cell Unit Nat → Option (VecMem × Cell Unit Nat)
  | 0, _, _ => none
  | fuel + 1, v, prev =>
    if vecPtr (v.read prev) = 0 then some (v, prev)
    else
      let v := v.write prev (addInt (v.read prev) adjust)
      fixChain adjust fuel v (.next (vecPtr (v.read prev)))

/-- Chain the slots from `cur` on, `k` of them before the last. -/
def linkSlots : Nat → Nat → (Nat → Nat) → (Nat → Nat)
  | 0, cur, mem => Function.update mem cur (vecFree 0)
  | k + 1, cur, mem => linkSlots k (cur + 8) (Function.update mem cur (vecFree (cur + 8)))

/-- An answer of `_scalloc`: the new table, and what is in the old one once it is
freed. -/
structure Growth where
  ptr : Nat
  junk : Nat → Nat

def copyWords (mem : Nat → Nat) (dst src n : Nat) : Nat → Nat :=
  fun a => if dst ≤ a ∧ a < dst + 8 * n then mem (src + (a - dst)) else mem a

/-- `vector_add` behind the fix-up: the new table is in place, the old one freed,
and the new slots linked behind the link `prev`. -/
def growEnd (v : VecMem) (g : Growth) (optr nentries : Nat) (prev : Cell Unit Nat) : VecMem :=
  let v := { v with vector := g.ptr
                    mem := fun a => if optr ≤ a ∧ a < optr + 8 * v.nentries then g.junk a else v.mem a }
  let v := v.write prev (vecFree (v.addr v.nentries))
  { v with mem := linkSlots (nentries - v.nentries - 1) (v.addr v.nentries) v.mem
           nfree := (v.nfree + (nentries - v.nentries)) % 2 ^ 16
           nentries := nentries }

/-- The growth of `vector_add`. `adjust` is an `int`: the difference of the two
tables modulo 2³². -/
def vectorGrow (fuel : Nat) (v : VecMem) (index : Nat) (g : Growth) : Option VecMem :=
  let nentries := grownSize v.nentries index
  let optr := v.vector
  let v := { v with mem := copyWords v.mem g.ptr optr v.nentries }
  let adjust := (g.ptr + 2 ^ 64 - optr) % 2 ^ 32
  (fixChain adjust fuel v (.head ())).map fun p => growEnd p.1 g optr nentries p.2

/-- The object goes into the free slot at `cur`, and `prev` on to the next. -/
def takeSlot (v : VecMem) (prev : Cell Unit Nat) (cur object : Nat) : VecMem :=
  let v := v.write prev (v.mem cur)
  let v := v.write (.next cur) object
  { v with nfree := (v.nfree + 2 ^ 16 - 1) % 2 ^ 16 }

/-- `depth` bounds the recursion behind a growth. -/
def vectorAdd (fuel : Nat) : Nat → VecMem → Nat → Nat → List (Option Growth) → Option (VecMem × Int)
  | 0, _, _, _, _ => none
  | depth + 1, v, object, index, answers =>
    if object % 4 ≠ 0 then none
    else match findFree v index fuel (.head ()) with
      | none => none
      | some (some (prev, cur, i)) =>
        some (takeSlot v prev cur object, asInt i)
      | some none =>
        if v.nentries = vectorMax then some (v, -1)
        else match answers with
          | some g :: answers =>
            match vectorGrow fuel v index g with
            | none => none
            | some v =>
              if object ≠ 0 then vectorAdd fuel depth v object index answers
              else some (v, asInt index)
          | _ => some (v, -1)

/-- The backward scan of `vector_rem`, from the slot at `vecp`. -/
def scanBack (v : VecMem) : Nat → Nat → Option Nat
  | 0, _ => none
  | fuel + 1, vecp => if v.mem vecp % 2 = 0 then scanBack v fuel (vecp - 8) else some vecp

/-- The slot `index` goes behind the link `vecp`. -/
def giveSlot (v : VecMem) (vecp : Cell Unit Nat) (index : Nat) : VecMem :=
  let v := v.write (.next (v.addr index)) (v.read vecp)
  let v := v.write vecp (vecFree (v.addr index))
  { v with nfree := (v.nfree + 1) % 2 ^ 16 }

/-- `index - 1` is an `unsigned`: for slot 0 it is 2³² - 1, and `vecp` the address
of that slot, 32 GiB up. -/
def vectorRem (fuel : Nat) (v : VecMem) (index : Nat) : Option (VecMem × Nat) :=
  if v.nentries ≤ index ∨ v.word index % 2 = 1 then some (v, 0)
  else
    let ptr := vecPtr (v.word index)
    let vecp := v.addr ((index + 2 ^ 32 - 1) % 2 ^ 32) % 2 ^ 64
    let link : Option (Cell Unit Nat) :=
      if vecPtr v.free = 0 ∨ vecp < vecPtr v.free then some (.head ())
      else (scanBack v fuel vecp).map Cell.next
    link.map fun vecp => (giveSlot v vecp index, ptr)

def vectorFlag (v : VecMem) (index : Nat) (flag : Bool) : VecMem × Int :=
  if v.nentries ≤ index ∨ v.word index % 2 = 1 then (v, -1)
  else (v.write (.next (v.addr index)) (vecFlag (v.word index) flag), 0)

/-- `VECP`: the pointer, unless the slot is free or flagged. -/
def vectorLookup (v : VecMem) (id : Nat) : Nat :=
  if id < v.nentries ∧ v.word id % 4 = 0 then v.word id else 0

def vectorLookup2 (v : VecMem) (id : Nat) : Nat :=
  if id < v.nentries ∧ v.word id % 2 = 0 then vecPtr (v.word id) else 0

end QRV.Nano
