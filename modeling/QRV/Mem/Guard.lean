import QRV.Mem.MapRun

/- The guard of a stack: what `vmm_mmap` does with a request for a stack, up to the mapping from
   which the guard has been cut off.

   The size of the guard comes in `boff` and is compared with the size of the stack before both are
   rounded to pages; `map_split` looks for the end of the guard after that. It lies inside the new
   mapping exactly if the guard is still the smaller once both are rounded (`guard_inside`).

   Correspondence (C ↔ Lean)
     `vmm_mmap`, `MAP_STACK` without `MAP_FIXED`, from the first check to `map_split` ↔ `mmapStack`
     `ROUNDUP(x, __PAGESIZE)`                                                         ↔ `roundUp`
   Left out are the limits of the process, which are checked before a place is searched for, and
   what is done with the mappings behind `map_split`. Whether memory can be had is given with the
   call. `none` is a crash. -/
namespace QRV.Mem

def roundUp (x : Nat) : Nat := wrap (x + 4095) / 4096 * 4096

/-- A request for a stack at no fixed address. `anon` is `MAP_ANON`; `hint` is where the search for
a place starts, `bigPages` that it is to try for big pages. -/
structure StackReq where
  size : Nat
  boff : Nat
  anon : Bool
  flags : Nat
  hint : Nat
  bigPages : Bool
  deriving DecidableEq, Repr

namespace StackReq

/-- The unrounded sizes are compared. -/
def bad (q : StackReq) : Bool := !q.anon || decide (q.size ≤ q.boff)

def guardSize (q : StackReq) : Nat := roundUp q.boff

/-- `map_create` for a stack, which grows down. -/
def create (q : StackReq) (pgszlist : List Nat) (mh : MapHead) (mem : Bool × Bool × Bool) :
    Option (MapHead × Option MapSet × Nat × MapStatus) :=
  mapCreate pgszlist mh (.search (if q.bigPages then 1 else 0) true) (q.hint / 4096 * 4096) (roundUp q.size) mem

/-- The mapping that `map_create` has made. -/
def entry (q : StackReq) (id va : Nat) : MmMap := ⟨id, none, 0, va, va + roundUp q.size - 1, 0, q.flags, 0, 0⟩

end StackReq

/-- The mappings to be added, the guard first, and what is returned if it fails. `mem` is whether
`map_alloc` succeeds in `map_create` and in `map_split`. -/
def mmapStack (pgszlist : List Nat) (mh : MapHead) (q : StackReq) (mem : (Bool × Bool × Bool) × Bool) :
    Option (List MmMap × MapStatus) :=
  if q.bad then some ([], .einval)
  else if roundUp q.size < q.size then some ([], .enomem)
  else
    match q.create pgszlist mh mem.1 with
    | none => none
    | some (mh, _, va, .eok) =>
      if q.guardSize = 0 then some ([q.entry mh.fresh va], .eok)
      else mapSplit (q.entry mh.fresh va) [] q.guardSize (mh.fresh + 1) mem.2
    | some (_, _, _, st) => some ([], st)

variable {q : StackReq} {mh mh' : MapHead} {pgszlist : List Nat}

theorem roundUp_page (x : Nat) : roundUp x % 4096 = 0 ∧ roundUp x < 2 ^ 64 := by
  unfold roundUp wrap
  omega

/-- A request that is accepted has a guard that is no larger than the stack, also once rounded. -/
theorem StackReq.guardSize_le (hbad : q.bad = false) (hsize : q.size ≤ roundUp q.size) :
    q.guardSize ≤ roundUp q.size ∧ 0 < roundUp q.size := by
  simp only [bad, Bool.or_eq_false_iff, decide_eq_false_iff_not] at hbad
  unfold guardSize
  unfold roundUp wrap at *
  omega

theorem StackReq.create_room {repl : Option MapSet} {va : Nat} {mem : Bool × Bool × Bool} (hpg : PageSizes pgszlist)
    (h : mh.Good) (hbounds : mh.start < 2 ^ 64 ∧ mh.stop + 1 < 2 ^ 64) (hhint : q.hint < 2 ^ 64)
    (hpos : 0 < roundUp q.size) (hcreate : q.create pgszlist mh mem = some (mh', repl, va, .eok)) :
    va + roundUp q.size < 2 ^ 64 := by
  have hsize := roundUp_page q.size
  have ha : Asked mh ⟨q.hint / 4096 * 4096, roundUp q.size, if q.bigPages then 1 else 0, true⟩ :=
    ⟨⟨hpos, hsize.2, hsize.1⟩, by dsimp only; omega, by dsimp only; split <;> omega, by omega⟩
  rw [create, mapCreate, if_neg (by omega)] at hcreate
  split at hcreate
  · simp at hcreate
  · split at hcreate
    · simp at hcreate
    · next hfound =>
      cases hcreate
      exact (mapFindVa_free hpg ha (by dsimp only; split <;> omega) hbounds h.bound h.sorted hfound).1

/-- The cut is made exactly if the guard ends before the last address of the mapping. -/
theorem StackReq.split_isSome (q : StackReq) {va : Nat} (id id' : Nat) (mem : Bool) (hguard : q.guardSize ≠ 0)
    (hroom : va + q.guardSize < 2 ^ 64) :
    (mapSplit (q.entry id va) [] q.guardSize id' mem).isSome ↔ va + q.guardSize < va + roundUp q.size - 1 := by
  have hpoint : wrap (va + q.guardSize) = va + q.guardSize := Nat.mod_eq_of_lt hroom
  rw [mapSplit, if_neg hguard, splitPoint, entry, hpoint, Option.isSome_map]
  split <;> simp_all [splitPoint]

/-- Where `map_create` has found a place for a request that passes the checks, the end of the guard
is strictly inside the new mapping and `map_split` does not crash, exactly if the guard, rounded to
pages, is smaller than the stack, rounded to pages. Without a guard nothing is cut. -/
theorem guard_inside (pgszlist : List Nat) (hpg : PageSizes pgszlist) (mh : MapHead) (h : mh.Good)
    (hbounds : mh.start < 2 ^ 64 ∧ mh.stop + 1 < 2 ^ 64) (q : StackReq) (hhint : q.hint < 2 ^ 64) (hbad : q.bad = false)
    (hsize : q.size ≤ roundUp q.size) (mem : (Bool × Bool × Bool) × Bool) (mh' : MapHead) (repl : Option MapSet) (va : Nat)
    (hcreate : q.create pgszlist mh mem.1 = some (mh', repl, va, .eok)) :
    ((mmapStack pgszlist mh q mem).isSome = true ∧
      (q.guardSize ≠ 0 → va < va + q.guardSize ∧ va + q.guardSize < va + roundUp q.size - 1)) ↔
    (q.guardSize = 0 ∨ roundUp q.boff < roundUp q.size) := by
  obtain ⟨hle, hpos⟩ := StackReq.guardSize_le hbad hsize
  have hroom := StackReq.create_room hpg h hbounds hhint hpos hcreate
  have hguard := roundUp_page q.boff
  have hstack := roundUp_page q.size
  rw [mmapStack, if_neg (by simp [hbad]), if_neg (by omega), hcreate]
  dsimp only
  split
  · next hzero => simp [hzero]
  · next hne =>
    rw [q.split_isSome _ _ _ hne (by omega)]
    unfold StackReq.guardSize at *
    omega

/-- A stack of `size` bytes, `boff` of them a guard. -/
def stackReq (size boff : Nat) : StackReq := ⟨size, boff, true, 0x83302, 0x100000, false⟩

theorem guard_inside_page : ((mmapStack [4096] (mapInit 0x1000 0xffffff) (stackReq 0x2000 1) ((true, true, true), true)).isSome = true ∧
      ((stackReq 0x2000 1).guardSize ≠ 0 → 0x100000 < 0x100000 + (stackReq 0x2000 1).guardSize ∧
        0x100000 + (stackReq 0x2000 1).guardSize < 0x100000 + roundUp (stackReq 0x2000 1).size - 1)) ↔
    ((stackReq 0x2000 1).guardSize = 0 ∨ roundUp (stackReq 0x2000 1).boff < roundUp (stackReq 0x2000 1).size) :=
  guard_inside [4096] ⟨by decide, by decide, by decide⟩ (mapInit 0x1000 0xffffff)
    ⟨by decide, by decide, by decide, by decide, by decide⟩ (by decide) (stackReq 0x2000 1) (by decide) (by decide) (by decide)
    ((true, true, true), true) (mapInit 0x1000 0xffffff) none 0x100000 (by decide +kernel)

/-- A stack of two bytes, one of them a guard, passes the checks; both are rounded to a page, and
there is nothing behind the guard for `map_split` to find. -/
theorem guard_crashes : (stackReq 2 1).bad = false ∧
    (stackReq 2 1).create [4096] (mapInit 0x1000 0xffffff) (true, true, true) =
      some (mapInit 0x1000 0xffffff, none, 0x100000, .eok) ∧
    mmapStack [4096] (mapInit 0x1000 0xffffff) (stackReq 2 1) ((true, true, true), true) = none := by
  decide +kernel

end QRV.Mem
