import Mathlib.Data.ZMod.Basic

/- Message transfers (nano_xfer_msg.c, nano_xfer_cpy.c): bytes are copied from the
   parts of one IOV list to the parts of another.

   A byte is accessed through the address space of the processor: `tr` translates an
   address to the place `P` of the byte in memory. A copy can be stopped before any
   byte and behind the last byte of a chunk, by a fault or by the preemption of the
   kernel; `stop` says so, given how many bytes were moved and which byte is next. The
   fault handler then returns to xfer_cpy, and xfer_restart leaves the kernel; both see
   the bytes already moved in memory and the `msglen` of the last full chunk.

   Lengths are `size_t` in an IOV and `unsigned` in the loops, `msglen` is `uint32_t`.

   Correspondence (C ↔ Lean):
     `xfer_memcpy`, `xfer_cpy`, `xferiov`  ↔ `xferMemcpy`, `xferCpy`, `xferiov` -/
namespace QRV.Nano

/-- A part of an IOV list. -/
structure Iov where
  base : Nat
  len : Nat
  deriving DecidableEq, Repr

/-- Why a copy stops: XFER_SRC_FAULT, XFER_DST_FAULT, or the thread is preempted. -/
inductive Stop where
  | srcFault | dstFault | preempt
  deriving DecidableEq, Repr

/-- The state of a transfer: the memory, `sthp->args.ms.msglen`, and the number of bytes
moved. -/
structure Xfer (P : Type) where
  mem : P → UInt8
  msglen : UInt32
  moved : Nat

namespace Xfer
variable {P : Type} [DecidableEq P] (tr : Nat → P) (stop : Nat → Option (P × P) → Option Stop)

/-- xfer_memcpy, byte by byte. It can still be preempted behind the last one. -/
def xferMemcpy : Nat → Nat → Nat → Xfer P → Xfer P × Option Stop
  | 0, _, _, x => (x, stop x.moved none)
  | n + 1, d, s, x =>
    match stop x.moved (some (tr d, tr s)) with
    | some r => (x, some r)
    | none => xferMemcpy n (d + 1) (s + 1)
        { x with mem := Function.update x.mem (tr d) (x.mem (tr s)), moved := x.moved + 1 }

/-- XFER_CHUNKSIZE. -/
def chunkSize : Nat := 4096

/-- xfer_cpy: the bytes in chunks, each counted when it is complete. -/
def xferCpy (nbytes d s : Nat) (x : Xfer P) : Xfer P × Option Stop :=
  let size := min nbytes chunkSize
  match xferMemcpy tr stop size d s x with
  | (x, some r) => (x, some r)
  | (x, none) =>
    let x := { x with msglen := x.msglen + UInt32.ofNat size }
    if nbytes - size = 0 then (x, none) else xferCpy (nbytes - size) (d + size) (s + size) x
termination_by nbytes
decreasing_by
  have : 0 < chunkSize := by decide
  omega

/-- An IOV length as the loop of xferiov stores it, in an `unsigned`. -/
def u32 (n : Nat) : Nat := n % 2 ^ 32

/-- The loop of xferiov. On each side there are the address and the length that are left of
the current part, and the parts behind it. -/
def xferLoop (daddr dlen : Nat) (drest : List Iov) (saddr slen : Nat) (srest : List Iov) (x : Xfer P) :
    Xfer P × Option Stop :=
  if slen < dlen then
    let (x, r) := xferCpy tr stop slen daddr saddr x
    match srest with
    | [] => (x, r)
    | w :: srest =>
      if r = none then xferLoop (daddr + slen) (dlen - slen) drest w.base (u32 w.len) srest x else (x, r)
  else if dlen < slen then
    let (x, r) := xferCpy tr stop dlen daddr saddr x
    match drest with
    | [] => (x, r)
    | v :: drest =>
      if r = none then xferLoop v.base (u32 v.len) drest (saddr + dlen) (slen - dlen) srest x else (x, r)
  else
    let (x, r) := xferCpy tr stop slen daddr saddr x
    match drest, srest with
    | v :: drest, w :: srest =>
      if r = none then xferLoop v.base (u32 v.len) drest w.base (u32 w.len) srest x else (x, r)
    | _, _ => (x, r)
termination_by drest.length + srest.length

/-- xferiov. It is called with at least one part on each side; a debug build crashes on an
offset behind the first part. The difference of a length and an offset is taken in
`size_t`. -/
def xferiov (debug : Bool) (dst src : List Iov) (doff soff : Nat) (x : Xfer P) :
    Option (Xfer P × Option Stop) :=
  match dst, src with
  | v :: drest, w :: srest =>
    if debug ∧ (v.len < doff ∨ w.len < soff) then none
    else some (xferLoop tr stop (v.base + doff) (u32 (v.len + 2 ^ 64 - doff)) drest
      (w.base + soff) (u32 (w.len + 2 ^ 64 - soff)) srest x)
  | _, _ => none

end Xfer

end QRV.Nano
