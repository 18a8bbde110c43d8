import QRV.Lib.LinkCell

/- The system allocator, `kernel/nano/nano_alloc.c`: one routine that allocates,
   frees, shrinks and grows over an address-ordered list of free entries.

   Memory is a map from byte addresses to 64-bit words. A free entry at `a` has its
   `next` in the word at `a` and its `size` in the word at `a + 8`, so a pointer to
   a link (`pp`, `fit`) is a list head or the address of an entry: a cell of
   `LinkCell`. Sizes and addresses are 64 bits wide and wrap. The `alloc` callback
   is the environment: a call is given the list of its answers, and an answer of
   size 0, like none at all, is a failure. The build is the one with `NDEBUG`; the
   locks have no state here, and the calls on that of proc are `passLocks`.

   Correspondence (C ↔ Lean) where the names differ:
     `_sreallocfunc`                  ↔ `sreallocfunc` (`pass` from `addmem` on)
       the walk to the place of `data` ↔ `walk`
       growth into the next entry      ↔ `growInPlace`
       the first-fit loop              ↔ `search`, `takeEntry` (`takePp`, `takePrev`)
       the free with its joins         ↔ `release` (`linkIn`, `joinNext`)
   `none` is a crash. -/
namespace QRV.Nano
open LinkCell

/-- `proc_free_list`, `ker_free_list`, `ker_crit_list` -/
inductive FreeId where
  | proc
  | ker
  | crit
  deriving DecidableEq, Repr

/-- The heads of the free lists and the words of memory. -/
structure HeapMem where
  heads : FreeId → Nat
  mem : Nat → Nat

namespace HeapMem

/-- The pointer in a cell; `NULL` is 0. -/
def read (m : HeapMem) : Cell FreeId Nat → Nat
  | .head b => m.heads b
  | .next a => m.mem a

def store (m : HeapMem) (a v : Nat) : HeapMem := { m with mem := Function.update m.mem a v }

def write (m : HeapMem) : Cell FreeId Nat → Nat → HeapMem
  | .head b, v => { m with heads := Function.update m.heads b v }
  | .next a, v => m.store a v

/-- `p->size` -/
def size (m : HeapMem) (p : Nat) : Nat := m.mem (p + 8)

def setSize (m : HeapMem) (p v : Nat) : HeapMem := m.store (p + 8) v

/-- `memcpy`, of whole words -/
def memcpy (m : HeapMem) (dst src len : Nat) : HeapMem :=
  { m with mem := fun a => if dst ≤ a ∧ a < dst + len then m.mem (a - dst + src) else m.mem a }

/-- `memset` to 0 of `len` bytes from the word at `p` on: the low bytes of the last
word when it is not cleared whole. -/
def memzero (m : HeapMem) (p len : Nat) : HeapMem :=
  { m with mem := fun a =>
      if p ≤ a ∧ a < p + len then
        if 8 ≤ p + len - a then 0
        else m.mem a / 2 ^ (8 * (p + len - a)) * 2 ^ (8 * (p + len - a))
      else m.mem a }

end HeapMem

/-- 64-bit sums and differences. -/
def wadd (a b : Nat) : Nat := (a + b) % 2 ^ 64

def wsub (a b : Nat) : Nat := (a + (2 ^ 64 - b)) % 2 ^ 64

/-- `& ~(_MALLOC_ALIGN-1)` of a `size_t`: `_MALLOC_ALIGN` is `8U`, so the mask has 32 bits and the high
half of the size is dropped. -/
def alignMask (n : Nat) : Nat := n % 2 ^ 32 / 8 * 8

/-- `ALIGN` -/
def alignUp (n : Nat) : Nat := alignMask (wadd n 7)

/-- A requested size as it is worked with; `sizeof(struct free_entry)` is 16. -/
def roundNew (n : Nat) : Nat := if n = 0 then 0 else if n ≤ 16 then 16 else alignUp n

/-- The size of a block handed back. -/
def roundOld (n : Nat) : Nat := if n < 16 then 16 else alignUp n

/-- The largest size that `ALIGN` does not cut. -/
def maxSize : Nat := 2 ^ 32 - 8

/-- More entries of 16 bytes do not fit into the address space: the loops over a
free list are given this many turns. -/
def maxEntries : Nat := 2 ^ 60

section Loops
variable (m : HeapMem)

/-- The loop to the place of `data`: the cell `pp` of the entry behind it, the
entry `prev` before it and the cell `fit` of an entry that would do. -/
def walk (data newSize : Nat) :
    Nat → Cell FreeId Nat → Nat → Option (Cell FreeId Nat) →
      Option (Cell FreeId Nat × Nat × Option (Cell FreeId Nat))
  | 0, _, _, _ => none
  | n + 1, pp, prev, fit =>
    let p := m.read pp
    if p = 0 then some (pp, prev, fit)
    else
      let fit := if newSize ≠ 0 ∧ (m.size p = newSize ∨ (fit.isNone ∧ wadd newSize 16 ≤ m.size p))
        then some pp else fit
      -- freed an already freed area
      if data ≠ 0 ∧ p ≤ data ∧ data < wadd p (m.size p) then none
      else if data ≠ 0 ∧ data < p then some (pp, prev, fit)
      else walk data newSize n (.next p) p fit

/-- The first-fit loop: the cell of the entry to take from. -/
def search (newSize : Nat) : Nat → Cell FreeId Nat → Option (Option (Cell FreeId Nat))
  | 0, _ => none
  | n + 1, fit =>
    let new := m.read fit
    if new = 0 then some none
    else if m.size new = newSize ∨ wadd newSize 16 ≤ m.size new then some (some fit)
    else search newSize n (.next new)

end Loops

/-- The entry in the cell `fit` is unlinked, or gives up its start. -/
def takeEntry (m : HeapMem) (newSize : Nat) (fit : Cell FreeId Nat) : HeapMem :=
  let new := m.read fit
  if m.size new = newSize then m.write fit (m.mem new)
  else
    let p := wadd new newSize
    let m := m.setSize p (wsub (m.size new) newSize)
    let m := m.store p (m.mem new)
    m.write fit p

/-- The cursor `pp` behind the first-fit loop: it moves when the entry before the
old block is the one taken from. -/
def takePp (m : HeapMem) (newSize : Nat) (fit pp : Cell FreeId Nat) (prev : Nat) : Cell FreeId Nat :=
  let new := m.read fit
  if prev = new then if m.size new = newSize then fit else .next (wadd new newSize) else pp

/-- The cursor `prev` behind the first-fit loop. -/
def takePrev (m : HeapMem) (newSize : Nat) (fit : Cell FreeId Nat) (prev : Nat) : Nat :=
  let new := m.read fit
  if prev = new then if m.size new = newSize then 0 else wadd new newSize else prev

/-- A block goes back on the list: it is joined with the entry before it or becomes
an entry of its own. The result is the entry that holds it. -/
def linkIn (m : HeapMem) (pp : Cell FreeId Nat) (prev data oldSize : Nat) : HeapMem × Nat :=
  if prev ≠ 0 ∧ wadd prev (m.size prev) = data then
    (m.setSize prev (wadd (m.size prev) oldSize), prev)
  else (((m.store data (m.read pp)).setSize data oldSize).write pp data, data)

/-- An entry is joined with the one behind it when they touch. -/
def joinNext (m : HeapMem) (prev : Nat) : HeapMem :=
  let p := m.mem prev
  if wadd prev (m.size prev) = p then
    let m := m.store prev (m.mem p)
    m.setSize prev (wadd (m.size prev) (m.size p))
  else m

def link (m : HeapMem) (pp : Cell FreeId Nat) (prev data oldSize : Nat) : HeapMem :=
  let (m, prev) := linkIn m pp prev data oldSize
  joinNext m prev

/-- The old block is freed, if there is one. -/
def release (m : HeapMem) (pp : Cell FreeId Nat) (prev data oldSize : Nat) : HeapMem :=
  if data = 0 then m else link m pp prev data oldSize

/-- Growth of `data` into the entry `p` right behind it. -/
def growInPlace (m : HeapMem) (pp : Cell FreeId Nat) (data oldSize newSize p : Nat) :
    Option HeapMem :=
  if newSize = wadd oldSize (m.size p) then some (m.write pp (m.mem p))
  else if wadd newSize 16 ≤ wadd oldSize (m.size p) then
    -- `*p` is saved first: the new entry may overlap it
    let size := m.size p
    let next := m.mem p
    let prev := wadd data newSize
    some (((m.setSize prev (wsub (wadd oldSize size) newSize)).store prev next).write pp prev)
  else none

/-- The free of `oldSize` bytes at `data`: a pass with a new size of 0. -/
def freeAt (m : HeapMem) (b : FreeId) (data oldSize : Nat) : Option HeapMem :=
  match walk m data 0 maxEntries (.head b) 0 none with
  | none => none
  | some (pp, prev, _) => some (release m pp prev data oldSize)

/-- Where the routine runs and the bounds of the critical region. -/
structure AllocEnv where
  /-- `am_inkernel` -/
  inKernel : Bool
  /-- `alloc_critical` -/
  critical : Bool
  critStart : Nat
  critEnd : Nat

/-- `IS_CRIT` -/
def AllocEnv.isCrit (env : AllocEnv) (p : Nat) : Bool :=
  decide (env.critStart ≤ p) && decide (p ≤ env.critEnd)

/-- The list of a pass; `retry` is a `ker` of 2 at `addmem`. -/
def AllocEnv.pick (env : AllocEnv) (retry : Bool) (data : Nat) : FreeId :=
  if env.inKernel = false then .proc
  else if retry = false ∧ env.isCrit data = false then .ker
  else .crit

/-- What a call returns: memory, the block and the answers of `alloc` not used. -/
structure Realloc where
  m : HeapMem
  new : Nat
  rest : List (Nat × Nat)

/-- The old block, if there is one, copied to the new one and freed. -/
def moveOut (m : HeapMem) (new : Nat) (pp : Cell FreeId Nat) (prev data oldSize newSize : Nat) :
    HeapMem :=
  if data = 0 then m
  else link (m.memcpy new data (min newSize oldSize)) pp prev data oldSize

/-- The kernel goes on with the region `alloc` gave: the block is its start, and
what is left over is freed in a second pass. -/
def useRegion (env : AllocEnv) (m : HeapMem) (pp : Cell FreeId Nat) (prev data oldSize newSize : Nat)
    (region : Nat × Nat) (rest : List (Nat × Nat)) : Option Realloc :=
  let size := wsub region.2 newSize
  let add := wadd region.1 newSize
  if size = 0 then
    some ⟨moveOut m region.1 pp prev data oldSize newSize, region.1, rest⟩
  else
    let m := moveOut (m.setSize add size) region.1 pp prev data oldSize newSize
    match freeAt m (env.pick false add) add (roundOld (m.size add)) with
    | none => none
    | some m => some ⟨m, region.1, rest⟩

/-- The free of a region by another call, as outside of the kernel. -/
def freeRegion (m : HeapMem) (region : Nat × Nat) : Option HeapMem :=
  if region.1 % 8 ≠ 0 then none
  else freeAt m .proc region.1 (roundOld region.2)

section Pass
variable (env : AllocEnv)

/-- A place on the list: `pp`, `prev`, `fit` and `p` behind the walk. -/
structure Place where
  pp : Cell FreeId Nat
  prev : Nat
  fit : Cell FreeId Nat
  p : Nat

/-- The place of the old block, or the start of the list when there is none. -/
def place (m : HeapMem) (b : FreeId) (had : Bool) (data newSize : Nat) : Option Place :=
  if had then
    match walk m data newSize maxEntries (.head b) 0 none with
    | none => none
    | some (pp, prev, fit) => some ⟨pp, prev, fit.getD pp, m.read pp⟩
  else some ⟨.head b, 0, .head b, 0⟩

/-- No entry would do: the `alloc` callback is asked. `again` is `goto addmem` for a
new attempt, on the critical list or not. -/
def growHeap (again : Bool → HeapMem → List (Nat × Nat) → Option Realloc) (b : FreeId) (m : HeapMem)
    (pl : Place) (data oldSize newSize : Nat) (grants : List (Nat × Nat)) : Option Realloc :=
  -- on the critical list there is nothing to be had from the memory manager
  let answer := if b = .crit then (0, 0) else grants.headD (0, 0)
  let rest := if b = .crit then grants else grants.tail
  if answer.2 ≠ 0 then
    if b = .proc then
      match freeRegion m answer with
      | none => none
      | some m => again false m rest
    else useRegion env m pl.pp pl.prev data oldSize newSize answer rest
  else if b = .ker ∧ env.critical then again true m rest
  else some ⟨m, 0, rest⟩

/-- A pass of `_sreallocfunc` from `addmem` on; every `goto addmem` for a new
attempt costs one unit of fuel. A new attempt uses up an answer of `alloc` or is
the only one on the critical list, so `sreallocfunc` provides enough. -/
def pass : Nat → Bool → HeapMem → Nat → Nat → Nat → List (Nat × Nat) → Option Realloc
  | 0, _, _, _, _, _, _ => none
  | n + 1, retry, m, data, oldSize, newSize, grants =>
    let b := env.pick retry data
    let had := decide (data ≠ 0 ∧ oldSize ≠ 0)
    let oldSize := if had then roundOld oldSize else oldSize
    if had ∧ newSize = oldSize then some ⟨m, data, grants⟩
    else if had ∧ newSize ≠ 0 ∧ wadd newSize 16 ≤ oldSize then
      -- a shrink is a free of the end
      match freeAt m b (wadd data newSize) (wsub oldSize newSize) with
      | none => none
      | some m => some ⟨m, data, grants⟩
    else
      match place m b had data newSize with
      | none => none
      | some pl =>
        if newSize = 0 then
          some ⟨release m pl.pp pl.prev data oldSize, 0, grants⟩
        else
          let inPlace := if data ≠ 0 ∧ wadd data oldSize = pl.p then
            growInPlace m pl.pp data oldSize newSize pl.p else none
          match inPlace with
          | some m => some ⟨m, data, grants⟩
          | none =>
            match search m newSize maxEntries pl.fit with
            | none => none
            | some (some fit) =>
              some ⟨moveOut (takeEntry m newSize fit) (m.read fit) (takePp m newSize fit pl.pp pl.prev)
                (takePrev m newSize fit pl.prev) data oldSize newSize, m.read fit, grants⟩
            | some none =>
              growHeap env (fun retry m rest => pass n retry m data oldSize newSize rest) b m pl data
                oldSize newSize grants

/-- `_sreallocfunc`; `alloc` answers with `grants`. -/
def sreallocfunc (m : HeapMem) (data oldSize newSize : Nat) (grants : List (Nat × Nat)) :
    Option Realloc :=
  if data % 8 ≠ 0 then none
  else
    match pass env (grants.length + 2) false m data oldSize (roundNew newSize) grants with
    | none => none
    | some r => if r.new % 8 ≠ 0 then none else some r

/-- `_sfree`: of a block that is not aligned the aligned part is freed. -/
def sfree (m : HeapMem) (data size : Nat) : Option HeapMem :=
  let off := data % 8
  let r := if off ≠ 0 then sreallocfunc env m (data + 8 - off) (alignMask (wsub size (8 - off))) 0 []
    else sreallocfunc env m data size 0 []
  match r with
  | none => none
  | some r => some r.m

/-- `_scalloc`; a `memset` that runs off the end of the address space crashes. -/
def scalloc (m : HeapMem) (size : Nat) (grants : List (Nat × Nat)) : Option Realloc :=
  match sreallocfunc env m 0 0 size grants with
  | none => none
  | some r =>
    if r.new = 0 then some r
    else if 2 ^ 64 < r.new + size then none
    else some { r with m := r.m.memzero r.new size }

end Pass

/-- `CRIT_SIZE`, for a `__PAGESIZE` of 4096 -/
def critSize : Nat := 4 * 4096

/-- `heap_init` from the allocation of the reserve on: the memory, the bounds of
the critical region and the answers of `alloc` not used. -/
def heapInit (m : HeapMem) (grants : List (Nat × Nat)) :
    Option (HeapMem × Nat × Nat × List (Nat × Nat)) :=
  match sreallocfunc ⟨true, false, 2 ^ 64 - 1, 0⟩ m 0 0 critSize grants with
  | none => none
  | some r =>
    if r.new = 0 then none
    else
      let m := (r.m.write (.head .crit) r.new).store r.new 0
      some (m.setSize r.new critSize, r.new, r.new + (critSize - 1), r.rest)

/-! ## The mutex of proc -/

/-- The calls on `proc_alloc_mutex`. -/
inductive MutexOp where
  | lock
  | unlock
  deriving DecidableEq, Repr

/-- Locked only when free, unlocked only when held, and free at the end. -/
def released : Bool → List MutexOp → Bool
  | held, [] => !held
  | held, .lock :: ops => !held && released true ops
  | held, .unlock :: ops => held && released false ops

/-- The calls on `proc_alloc_mutex` of a pass outside of the kernel. -/
def passLocks : Nat → HeapMem → Nat → Nat → Nat → List (Nat × Nat) → Option (List MutexOp)
  | 0, _, _, _, _, _ => none
  | n + 1, m, data, oldSize, newSize, grants =>
    let had := decide (data ≠ 0 ∧ oldSize ≠ 0)
    let oldSize := if had then roundOld oldSize else oldSize
    if had ∧ newSize = oldSize then some [.lock, .unlock]
    else if had ∧ newSize ≠ 0 ∧ wadd newSize 16 ≤ oldSize then
      match freeAt m .proc (wadd data newSize) (wsub oldSize newSize) with
      | none => none
      | some _ => some [.lock, .unlock]
    else
      match place m .proc had data newSize with
      | none => none
      | some pl =>
        if newSize = 0 then some [.lock, .unlock]
        else
          let inPlace := if data ≠ 0 ∧ wadd data oldSize = pl.p then
            growInPlace m pl.pp data oldSize newSize pl.p else none
          match inPlace with
          | some _ => some [.lock, .unlock]
          | none =>
            match search m newSize maxEntries pl.fit with
            | none => none
            | some (some _) => some [.lock, .unlock]
            | some none =>
              -- unlocked for `alloc`; the free of its region is a call of its own
              if (grants.headD (0, 0)).2 ≠ 0 then
                match freeRegion m (grants.headD (0, 0)) with
                | none => none
                | some m => (passLocks n m data oldSize newSize grants.tail).map
                    ([.lock, .unlock, .lock, .unlock] ++ ·)
              -- and unlocked once more at the end
              else some [.lock, .unlock, .unlock]

/-- The list has nothing for the request: no change of size that is made at once, no growth in place and
no entry that fits. -/
def unserved (m : HeapMem) (data oldSize newSize : Nat) : Bool :=
  let had := decide (data ≠ 0 ∧ oldSize ≠ 0)
  let oldSize := if had then roundOld oldSize else oldSize
  if had ∧ newSize = oldSize then false
  else if had ∧ newSize ≠ 0 ∧ wadd newSize 16 ≤ oldSize then false
  else
    match place m .proc had data newSize with
    | none => false
    | some pl =>
      if newSize = 0 then false
      else
        let inPlace := if data ≠ 0 ∧ wadd data oldSize = pl.p then
          growInPlace m pl.pp data oldSize newSize pl.p else none
        inPlace.isNone && decide (search m newSize maxEntries pl.fit = some none)

/-- The size of the old block in the next attempt. -/
def nextOld (data oldSize : Nat) : Nat := if decide (data ≠ 0 ∧ oldSize ≠ 0) then roundOld oldSize else oldSize

/-- Whenever the list has nothing for the request `alloc` answers with a region. Its free is followed by
another attempt. -/
def Granted (data newSize : Nat) : HeapMem → Nat → List (Nat × Nat) → Prop
  | m, oldSize, [] => unserved m data oldSize newSize = false
  | m, oldSize, g :: rest => unserved m data oldSize newSize = true → g.2 ≠ 0 ∧
      ∀ m', freeRegion m g = some m' → Granted data newSize m' (nextOld data oldSize) rest

/-- A pass is served from the list, with the mutex locked and unlocked, or it asks `alloc`. -/
theorem passLocks_cases {env : AllocEnv} (henv : env.inKernel = false) (n : Nat) (m : HeapMem)
    (data oldSize newSize : Nat) (grants : List (Nat × Nat)) :
    (unserved m data oldSize newSize = false ∧ ∀ r, pass env (n + 1) false m data oldSize newSize grants = some r →
      passLocks (n + 1) m data oldSize newSize grants = some [.lock, .unlock]) ∨
    (unserved m data oldSize newSize = true ∧
      (∃ pl, pass env (n + 1) false m data oldSize newSize grants =
        growHeap env (fun retry m rest => pass env n retry m data (nextOld data oldSize) newSize rest) .proc m pl data
          (nextOld data oldSize) newSize grants) ∧
      passLocks (n + 1) m data oldSize newSize grants =
        if (grants.headD (0, 0)).2 ≠ 0 then
          match freeRegion m (grants.headD (0, 0)) with
          | none => none
          | some m => (passLocks n m data (nextOld data oldSize) newSize grants.tail).map
              ([.lock, .unlock, .lock, .unlock] ++ ·)
        else some [.lock, .unlock, .unlock]) := by
  have hpick : env.pick false data = .proc := if_pos henv
  rw [pass, passLocks, unserved]
  unfold nextOld
  simp only [hpick]
  generalize decide (data ≠ 0 ∧ oldSize ≠ 0) = had
  generalize (if had = true then roundOld oldSize else oldSize) = old
  by_cases hsame : had = true ∧ newSize = old
  · exact .inl ⟨if_pos hsame, fun _ _ => if_pos hsame⟩
  by_cases hless : had = true ∧ newSize ≠ 0 ∧ wadd newSize 16 ≤ old
  · refine .inl ⟨(if_neg hsame).trans (if_pos hless), fun r h => (if_neg hsame).trans ((if_pos hless).trans ?_)⟩
    rw [if_neg hsame, if_pos hless] at h
    split at h
    · cases h
    · rfl
  simp only [if_neg hsame, if_neg hless]
  cases place m .proc had data newSize with
  | none => exact .inl ⟨rfl, fun _ h => by cases h⟩
  | some pl =>
    by_cases hzero : newSize = 0
    · exact .inl ⟨if_pos hzero, fun _ _ => if_pos hzero⟩
    simp only [if_neg hzero]
    generalize (if data ≠ 0 ∧ wadd data old = pl.p then growInPlace m pl.pp data old newSize pl.p else none) = inPlace
    cases inPlace with
    | some m' => exact .inl ⟨rfl, fun _ _ => rfl⟩
    | none =>
      rcases search m newSize maxEntries pl.fit with _ | _ | c
      · exact .inl ⟨rfl, fun _ h => by cases h⟩
      · exact .inr ⟨rfl, ⟨pl, rfl⟩, rfl⟩
      · exact .inl ⟨rfl, fun _ _ => rfl⟩

/-- A pass outside of the kernel that returns has unlocked the mutex as often as it locked it, and never
while it was free, exactly if `alloc` has not failed it. -/
theorem passLocks_released (env : AllocEnv) (henv : env.inKernel = false) (n : Nat) (m : HeapMem)
    (data oldSize newSize : Nat) (grants : List (Nat × Nat)) (r : Realloc)
    (h : pass env n false m data oldSize newSize grants = some r) :
    ∃ ops, passLocks n m data oldSize newSize grants = some ops ∧
      (released false ops = true ↔ Granted data newSize m oldSize grants) := by
  induction n generalizing m oldSize grants with
  | zero => cases h
  | succ n ih =>
    rcases passLocks_cases henv n m data oldSize newSize grants with ⟨hfalse, hserved⟩ | ⟨htrue, ⟨pl, hpass⟩, hlocks⟩
    · refine ⟨_, hserved r h, iff_of_true rfl ?_⟩
      cases grants with
      | nil => exact hfalse
      | cons g rest => exact fun h' => absurd (hfalse.symm.trans h') Bool.false_ne_true
    rw [hpass] at h
    rw [hlocks]
    cases grants with
    | nil => exact ⟨_, rfl, iff_of_false Bool.false_ne_true fun hfalse => by rw [Granted, htrue] at hfalse; cases hfalse⟩
    | cons g rest =>
      simp only [growHeap, List.headD_cons, List.tail_cons, reduceCtorEq, if_false, if_true] at h ⊢
      by_cases hz : g.2 ≠ 0
      case neg => exact ⟨_, if_neg hz, iff_of_false Bool.false_ne_true fun hgr => hz (hgr htrue).1⟩
      rw [if_pos hz] at h
      -- the next attempt starts with the mutex free
      cases hfree : freeRegion m g with
      | none => simp only [hfree, reduceCtorEq] at h
      | some m' =>
        rw [hfree] at h
        obtain ⟨ops, hops, hiff⟩ := ih m' _ rest h
        have hlocked := congrArg (Option.map ([MutexOp.lock, .unlock, .lock, .unlock] ++ ·)) hops
        refine ⟨_, (if_pos hz).trans hlocked, hiff.trans ⟨fun hgr _ => ⟨hz, fun m₁ hm₁ => ?_⟩, fun hgr => (hgr htrue).2 m' hfree⟩⟩
        rw [← Option.some.inj (hfree.symm.trans hm₁)]
        exact hgr

/-- A block for proc from an entry of its list, with no answer of `alloc` at hand, and a first block for
which `alloc` is asked once. -/
theorem passLocks_released_grown :
    (∃ ops, passLocks 1 ⟨fun _ => 4096, fun a => if a = 4104 then 4096 else 0⟩ 0 0 16 [] = some ops ∧
      released false ops = true) ∧
    ∃ ops, passLocks 2 ⟨fun _ => 0, fun _ => 0⟩ 0 0 16 [(4096, 4096)] = some ops ∧
      (released false ops = true ↔ Granted 0 16 ⟨fun _ => 0, fun _ => 0⟩ 0 [(4096, 4096)]) := by
  refine ⟨?_, passLocks_released ⟨false, false, 1, 0⟩ rfl 2 _ 0 0 16 _ _ (Eq.symm (Option.some_get (by decide +kernel)))⟩
  obtain ⟨ops, hops, hiff⟩ := passLocks_released ⟨false, false, 1, 0⟩ rfl 1
    ⟨fun _ => 4096, fun a => if a = 4104 then 4096 else 0⟩ 0 0 16 [] _ (Eq.symm (Option.some_get (by decide +kernel)))
  exact ⟨ops, hops, hiff.mpr (show unserved _ 0 0 16 = false by decide +kernel)⟩

/-- `alloc` fails: the mutex, unlocked before the call, is unlocked again. -/
theorem passLocks_twice :
    ((pass ⟨false, false, 1, 0⟩ 1 false ⟨fun _ => 0, fun _ => 0⟩ 0 0 16 []).map Realloc.new = some 0) ∧
      passLocks 1 ⟨fun _ => 0, fun _ => 0⟩ 0 0 16 [] = some [.lock, .unlock, .unlock] ∧
      released false [.lock, .unlock, .unlock] = false := by
  decide +kernel

end QRV.Nano
