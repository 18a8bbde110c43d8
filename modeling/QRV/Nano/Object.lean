import QRV.Lib.LinkCell

/- The object allocator, `kernel/nano/nano_object.c`: objects of one kind on a
   soul list, grown from the system's allocator and billed to the limits record of
   a process.

   The free chain runs through the first words of the free blocks. A soul with an
   alignment hands out an aligned pointer into the block and saves the block's
   address in the word before it; `saved` is that word for every pointer handed
   out. The system's allocator is a parameter (`Allocator`), with its own state.
   The counts of a soul and those of a limits record are of 32 bits and wrap.

   Correspondence (C ↔ Lean) where the names differ:
     `object_grow`      ↔ `objectGrow` (`growOne` behind the first use)
   `none` is a crash. -/
namespace QRV.Nano
open LinkCell

/-- The system's allocator as the object routines call it. -/
structure Allocator (H : Type) where
  /-- `_scalloc` of a size, with `alloc_critical` raised or not -/
  scalloc : H → Nat → Bool → H × Option Nat
  /-- `_sfree` of a block and its size -/
  sfree : H → Nat → Nat → H
  /-- `IS_CRIT` -/
  isCrit : H → Nat → Bool

/-- A `uint32_t` -/
def u32 (n : Nat) : Nat := n % 2 ^ 32

/-- A `uint32_t` less one -/
def pred32 (n : Nat) : Nat := u32 (n + (2 ^ 32 - 1))

theorem u32_of_lt {n : Nat} (h : n < 2 ^ 32) : u32 n = n := Nat.mod_eq_of_lt h

theorem pred32_of_pos {n : Nat} (h0 : 0 < n) (h : n < 2 ^ 32) : pred32 n = n - 1 := by
  unfold pred32 u32
  omega

/-- A `SOUL`, the limits of its type, and what the routines share. -/
structure SoulMem (L H : Type) where
  /-- `next` (the head) and the first word of every block -/
  links : Links Unit Nat
  saved : Nat → Nat
  total : Nat
  used : Nat
  size : Nat
  newmin : Nat
  /-- `min`; every soul is defined with one of at least 1 -/
  min : Nat
  min_pos : 0 < min
  highwater : Nat
  counter : Nat
  align : Nat
  /-- `SOUL_CRITICAL` -/
  critical : Bool
  /-- `SOUL_NOFREE` -/
  noFree : Bool
  /-- `cur[type]` and `max[type]` of every limits record -/
  cur : L → Nat
  max : L → Nat
  /-- `soul_compact` -/
  compact : Bool
  heap : H

/-- What is asked of the system for an object: both are of at most 32 bits. -/
def SoulMem.bytes {L H : Type} (s : SoulMem L H) : Nat := u32 (s.size + s.align)

/-- `ALIGN_PTR` -/
def alignPtr (ptr align : Nat) : Nat := (ptr + align) / align * align

section Ops
variable {L H : Type} (al : Allocator H)

/-- One new soul for the list. -/
def growOne (s : SoulMem L H) : SoulMem L H × Option Nat :=
  match al.scalloc s.heap s.bytes s.critical with
  | (h, none) => ({ s with heap := h }, none)
  | (h, some ptr) =>
    ({ s with heap := h
              total := u32 (s.total + 1)
              links := (s.links.set (.next ptr) (s.links (.head ()))).set (.head ()) (some ptr) },
      some ptr)

def growMany : Nat → SoulMem L H → SoulMem L H
  | 0, s => s
  | k + 1, s => growMany k (growOne al s).1

/-- The first time, the minimum requested less one before the one asked for; the
calls in the loop find `newmin` set. -/
def objectGrow (s : SoulMem L H) : SoulMem L H × Option Nat :=
  if s.newmin = 0 then growOne al (growMany al (s.min - 1) { s with newmin := s.min })
  else growOne al s

/-- The high-water marks after an allocation. -/
def trackHighwater (s : SoulMem L H) : SoulMem L H :=
  let used := u32 (s.used + 1)
  let highwater := if s.highwater ≤ used then used else s.highwater
  let counter := (s.counter + 1) % 2 ^ 16
  if 100 ≤ counter then { s with used := used, newmin := highwater, highwater := s.min, counter := 0 }
  else { s with used := used, highwater := highwater, counter := counter }

/-- The first block of the chain is handed out. -/
def handOut (s : SoulMem L H) (ptr : Nat) : SoulMem L H × Nat :=
  let s := { s with links := (s.links.set (.head ()) (s.links (.next ptr))).set (.next ptr) none }
  let s := trackHighwater s
  if s.align ≠ 0 then
    let aligned := alignPtr ptr s.align
    ({ s with saved := Function.update s.saved aligned ptr }, aligned)
  else (s, ptr)

/-- `object_alloc` behind the limits check. -/
def takeObject (s : SoulMem L H) : SoulMem L H × Option Nat :=
  match s.links (.head ()) with
  | some ptr => ((handOut s ptr).1, some (handOut s ptr).2)
  | none =>
    match objectGrow al s with
    | (s, none) => (s, none)
    | (s, some ptr) => ((handOut s ptr).1, some (handOut s ptr).2)

variable [DecidableEq L]

/-- The limits record of `prp` and its `QRV_FLG_PROC_NO_LIMITS`, when it has one. -/
structure Billed (L : Type) where
  lip : L
  noLimits : Bool
  deriving DecidableEq, Repr

def objectAlloc (s : SoulMem L H) (bill : Option (Billed L)) : SoulMem L H × Option Nat :=
  match bill with
  | none => takeObject al s
  | some b =>
    if s.max b.lip ≤ s.cur b.lip ∧ b.noLimits = false then (s, none)
    else takeObject al { s with cur := Function.update s.cur b.lip (u32 (s.cur b.lip + 1)) }

/-- `object_free` from the block on: back to the system while there are too many,
back to the critical list, or onto the chain. -/
def releaseObject (s : SoulMem L H) (ptr : Nat) : SoulMem L H :=
  let s := { s with used := pred32 s.used }
  if s.noFree = false ∧ s.newmin < s.total then
    let s := { s with heap := al.sfree s.heap ptr s.bytes, total := pred32 s.total }
    if s.newmin < s.total then { s with compact := true } else s
  else if s.noFree = false ∧ al.isCrit s.heap ptr then
    { s with heap := al.sfree s.heap ptr s.bytes, total := pred32 s.total }
  else
    { s with links := (s.links.set (.next ptr) (s.links (.head ()))).set (.head ()) (some ptr) }

def objectFree (s : SoulMem L H) (bill : Option L) (ptr : Nat) : Option (SoulMem L H) :=
  let ptr := if s.align ≠ 0 then s.saved ptr else ptr
  match bill with
  | none => some (releaseObject al s ptr)
  | some lip =>
    if s.cur lip = 0 then none
    else some (releaseObject al { s with cur := Function.update s.cur lip (s.cur lip - 1) } ptr)

def objectCompact (s : SoulMem L H) : SoulMem L H :=
  match s.links (.head ()) with
  | none => s
  | some ptr =>
    if s.newmin < s.total then
      let s := { s with links := s.links.set (.head ()) (s.links (.next ptr))
                        heap := al.sfree s.heap ptr s.bytes
                        total := pred32 s.total }
      if s.newmin < s.total then { s with compact := true } else s
    else s

end Ops

/-! ## The saved pointer in memory

On the 64-bit machine `SAVED_PTR` is the eight bytes from four before the object
on, so its high half lies over the first four bytes of the object. -/

abbrev Bytes := BitVec 64 → BitVec 8

/-- `*(void **) a = w` -/
def storePtr (mem : Bytes) (a w : BitVec 64) : Bytes :=
  fun x => if (x - a).toNat < 8 then BitVec.ofNat 8 (w.toNat / 256 ^ (x - a).toNat) else mem x

/-- `*(void **) a` -/
def loadPtr (mem : Bytes) (a : BitVec 64) : BitVec 64 :=
  let byte (i : Nat) := (mem (a + BitVec.ofNat 64 i)).toNat * 256 ^ i
  BitVec.ofNat 64 (byte 0 + byte 1 + byte 2 + byte 3 + byte 4 + byte 5 + byte 6 + byte 7)

/-- `ALIGN_PTR` with the `uint8_t` of the soul. -/
def alignBits (ptr : BitVec 64) (align : BitVec 8) : BitVec 64 :=
  (ptr + align.setWidth 64) &&& ~~~(align.setWidth 64 - 1)

/-- `object_alloc` with the block `ptr`: memory, and the pointer handed out. -/
def saveBlock (mem : Bytes) (ptr : BitVec 64) (align : BitVec 8) : Bytes × BitVec 64 :=
  (storePtr mem (alignBits ptr align - 4) ptr, alignBits ptr align)

/-- The block `object_free` goes on with. -/
def savedBlock (mem : Bytes) (handle : BitVec 64) : BitVec 64 := loadPtr mem (handle - 4)

/-- A client's stores into the object: an offset and a byte each. -/
def clientWrites (mem : Bytes) (handle : BitVec 64) (writes : List (BitVec 32 × BitVec 8)) : Bytes :=
  writes.foldl (fun mem w => Function.update mem (handle + w.1.setWidth 64) w.2) mem

theorem loadPtr_eq_iff {mem : Bytes} {a w : BitVec 64} :
    loadPtr mem a = w ↔ ∀ i < 8, mem (a + BitVec.ofNat 64 i) = BitVec.ofNat 8 (w.toNat / 256 ^ i) := by
  have hbyte : ∀ i, (mem (a + BitVec.ofNat 64 i)).toNat < 256 := fun i => (mem _).isLt
  have hw := w.isLt
  simp only [← BitVec.toNat_inj, loadPtr, BitVec.toNat_ofNat, Nat.forall_lt_succ_right, Nat.not_lt_zero, false_implies,
    implies_true, true_and]
  have h0 := hbyte 0
  have h1 := hbyte 1
  have h2 := hbyte 2
  have h3 := hbyte 3
  have h4 := hbyte 4
  have h5 := hbyte 5
  have h6 := hbyte 6
  have h7 := hbyte 7
  constructor <;> intro h <;> omega

theorem clientWrites_off {handle x : BitVec 64} {writes : List (BitVec 32 × BitVec 8)} (mem : Bytes)
    (h : ∀ w ∈ writes, x ≠ handle + w.1.setWidth 64) : clientWrites mem handle writes x = mem x := by
  induction writes generalizing mem with
  | nil => rfl
  | cons w writes ih =>
    have hw : x ≠ handle + w.1.setWidth 64 := h w (by simp)
    calc clientWrites mem handle (w :: writes) x
        = Function.update mem (handle + w.1.setWidth 64) w.2 x := ih _ fun w hw => h w (by simp [hw])
      _ = mem x := Function.update_of_ne hw _ _

/-- The block comes back if and only if the first four bytes of the object still hold the high half of
its address: the low half lies in front of the object, where the client does not store. -/
theorem savedBlock_eq_iff {mem : Bytes} {ptr : BitVec 64} {align : BitVec 8} {writes : List (BitVec 32 × BitVec 8)} :
    savedBlock (clientWrites (saveBlock mem ptr align).1 (saveBlock mem ptr align).2 writes) (saveBlock mem ptr align).2 =
      ptr ↔ ∀ i < 4, clientWrites (saveBlock mem ptr align).1 (saveBlock mem ptr align).2 writes
        ((saveBlock mem ptr align).2 + BitVec.ofNat 64 i) = BitVec.ofNat 8 (ptr.toNat / 256 ^ (4 + i)) := by
  simp only [saveBlock, savedBlock, loadPtr_eq_iff]
  generalize alignBits ptr align = handle
  have hshift : ∀ i : Nat, handle - 4 + BitVec.ofNat 64 (4 + i) = handle + BitVec.ofNat 64 i := fun i => by bv_omega
  constructor
  · intro h i hi
    rw [← hshift]
    exact h (4 + i) (by omega)
  · intro h i hi
    by_cases h4 : i < 4
    · rw [clientWrites_off _ fun w _ => by bv_omega, storePtr]
      have hd : (handle - 4 + BitVec.ofNat 64 i - (handle - 4)).toNat = i := by bv_omega
      rw [hd, if_pos hi]
    · obtain ⟨k, rfl⟩ := Nat.exists_eq_add_of_le (Nat.not_lt.mp h4)
      rw [hshift]
      exact h k (by omega)

/-- That the block comes back whatever the client stores in the object, and that the saved pointer does
not lie over the object, is so exactly for an object of no bytes. Which stores lose the block is exact
too: those that leave one of the first four bytes of the object with another value than the address
has in its high half. -/
theorem savedBlock_recovered (mem : Bytes) (ptr : BitVec 64) (align : BitVec 8) (size : BitVec 32)
    (writes : List (BitVec 32 × BitVec 8)) (hwr : ∀ w ∈ writes, w.1 < size) :
    ((savedBlock (clientWrites (saveBlock mem ptr align).1 (saveBlock mem ptr align).2 writes)
        (saveBlock mem ptr align).2 = ptr ∧
      ∀ off < size, ¬ ((saveBlock mem ptr align).2 + off.setWidth 64 - ((saveBlock mem ptr align).2 - 4)).toNat < 8) ↔
      size = 0) ∧
    (savedBlock (clientWrites (saveBlock mem ptr align).1 (saveBlock mem ptr align).2 writes)
        (saveBlock mem ptr align).2 = ptr ↔
      ∀ i < 4, clientWrites (saveBlock mem ptr align).1 (saveBlock mem ptr align).2 writes
        ((saveBlock mem ptr align).2 + BitVec.ofNat 64 i) = BitVec.ofNat 8 (ptr.toNat / 256 ^ (4 + i))) := by
  refine ⟨⟨fun ⟨_, hover⟩ => ?_, ?_⟩, savedBlock_eq_iff⟩
  · -- the first byte of the object is under the saved pointer
    by_contra hsize
    exact hover 0 (by bv_omega) (by bv_omega)
  · rintro rfl
    obtain rfl : writes = [] := List.eq_nil_iff_forall_not_mem.mpr fun w hw => absurd (hwr w hw) (by bv_omega)
    refine ⟨loadPtr_eq_iff.mpr fun i hi => ?_, fun off hoff => absurd hoff (by bv_omega)⟩
    simp only [clientWrites, List.foldl_nil, saveBlock, storePtr]
    have hd : (alignBits ptr align - 4 + BitVec.ofNat 64 i - (alignBits ptr align - 4)).toNat = i := by bv_omega
    rw [hd, if_pos hi]

/-- A client of a 64-byte object stores a byte behind the fourth, and the first byte as it is. -/
theorem savedBlock_recovered_fifth :
    savedBlock (clientWrites (saveBlock (fun _ => 0) 0xffffffc080001008 16).1 0xffffffc080001010 [(4, 255), (0, 0xc0)])
        0xffffffc080001010 = 0xffffffc080001008 := by
  have h := (savedBlock_recovered (fun _ => 0) 0xffffffc080001008 16 64 [(4, 255), (0, 0xc0)] (by simp)).2.mpr
    (by decide +kernel)
  have hhandle : (saveBlock (fun _ => 0) 0xffffffc080001008 16).2 = 0xffffffc080001010 := by decide +kernel
  rwa [hhandle] at h

/-- A zero stored to the first byte of the object: the block that comes back is not
the one `object_alloc` started from. -/
theorem savedBlock_lost :
    savedBlock (clientWrites (saveBlock (fun _ => 0) 0xffffffc080001008 16).1 0xffffffc080001010 [(0, 0)])
        (saveBlock (fun _ => 0) 0xffffffc080001008 16).2 ≠ 0xffffffc080001008 := by
  decide +kernel

end QRV.Nano
