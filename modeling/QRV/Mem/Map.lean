import QRV.Lib.Ranges

/- The map of an address space, `mgr/mem/mm_map.c`: the list of its mappings in the order of
   their addresses, with a rover where the next search may start, and the sets of mappings
   that are cut out of it, joined again, added and removed.

   A mapping is known by the address of its structure (`id`), which is what `rover` and a set
   refer to; `map_alloc` takes the next one (`fresh`), or fails. The reverse list of the
   object a mapping refers to and the lock words are left out.

   Correspondence (C ↔ Lean) where the names differ:
     `struct mm_map`, `mm_map_head`, `map_set` ↔ `MmMap`, `MapHead`, `MapSet`
     `map_isolate`                             ↔ `mapIsolate` (`isolateLoop` its search)
     `map_add`, `map_remove`, `map_init`       ↔ `mapAddSet`, `mapRemove`, `mapInit`
   `none` is a crash or the use of a mapping that is not in the list. -/
namespace QRV.Mem

/-- `struct mm_map`; `stop` is its `end`. -/
structure MmMap where
  id : Nat
  objRef : Option Nat
  offset : Int
  start : Nat
  stop : Nat
  reloc : Int
  mmapFlags : Nat
  extraFlags : Nat
  lastPageBss : Nat
  deriving DecidableEq, Repr

/-- `EXTRA_FLAG_SPECIAL` -/
def MmMap.special (mm : MmMap) : Bool := mm.extraFlags.testBit 8

structure MapHead where
  maps : List MmMap
  rover : Option Nat
  start : Nat
  stop : Nat
  fresh : Nat
  deriving DecidableEq, Repr

/-- `struct map_set`, with `MI_SPLIT` and `MI_SKIP_SPECIAL` of its flags. -/
structure MapSet where
  first : Option Nat
  last : Option Nat
  prev : Option Nat
  split : Bool
  skipSpecial : Bool
  deriving DecidableEq, Repr

inductive MapStatus
  | eok
  | enomem
  | einval
  deriving DecidableEq, Repr

/-- The mapping a pointer refers to. -/
def get (maps : List MmMap) (id : Nat) : Option MmMap := maps.find? fun mm => mm.id = id

/-- What follows a mapping. -/
def after : List MmMap → Nat → Option (List MmMap)
  | [], _ => none
  | mm :: rest, id => if mm.id = id then some rest else after rest id

/-- The list up to a mapping, which is its last. -/
def upTo : List MmMap → Nat → List MmMap
  | [], _ => []
  | mm :: rest, id => if mm.id = id then [mm] else mm :: upTo rest id

/-! ## Cutting -/

/-- What a mapping keeps when it is cut at `split`, and what the new one gets. -/
def MmMap.lower (mm : MmMap) (split : Nat) : MmMap := { mm with stop := split - 1, lastPageBss := 0 }

def MmMap.upper (mm : MmMap) (split new : Nat) : MmMap :=
  { mm with id := new, start := split, offset := mm.offset + (split - mm.start) }

/-- The mapping `id` ends before `split`, the new one has the rest. -/
def splitOne (maps : List MmMap) (id split new : Nat) : List MmMap :=
  maps.flatMap fun mm => if mm.id = id then [mm.lower split, mm.upper split new] else [mm]

/-- What the search of `map_isolate` has found so far. -/
structure Isolated where
  prev : Option MmMap
  first : Option Nat
  setPrev : Option Nat
  rover : Option Nat
  stop : Nat
  /-- `MI_NEXT` is still on -/
  next : Bool
  deriving DecidableEq, Repr

/-- A mapping is looked at: the set may start with it. -/
def isolateNote (start : Nat) (s : Isolated) (mm : MmMap) : Isolated :=
  if s.first = none ∧ start ≤ mm.stop then
    -- `MI_NEXT` only applies for the first mapping
    let stop := if s.next ∧ s.stop < mm.start then mm.stop else s.stop
    if mm.start ≤ stop then
      match s.prev with
      | none => { s with first := some mm.id, stop := stop, next := false }
      | some prev =>
        { s with first := some mm.id, setPrev := some prev.id, rover := some prev.id, stop := stop, next := false }
    else { s with stop := stop, next := false }
  else s

def isolateLoop (start : Nat) : List MmMap → Isolated → Isolated
  | [], s => s
  | mm :: rest, s =>
    let s := isolateNote start s mm
    if s.next = false ∧ s.stop < mm.start then s
    else isolateLoop start rest { s with prev := some mm }

/-- Where `map_isolate` starts to look: behind the rover, if that is not too far up. -/
def isolateFrom (mh : MapHead) (start : Nat) : Option (Option MmMap × List MmMap) :=
  match mh.rover with
  | none => some (none, mh.maps)
  | some r =>
    match after mh.maps r with
    | none => none
    | some [] => some (none, mh.maps)
    | some (mm :: rest) =>
      if start < mm.start then some (none, mh.maps) else some (get mh.maps r, mm :: rest)

/-! ## Joining -/

/-- The fields `coalese_one` compares. -/
def mergeable (mm next : MmMap) : Bool :=
  decide (mm.lastPageBss = 0 ∧ mm.objRef = next.objRef ∧ mm.stop + 1 = next.start ∧
    mm.offset + ((mm.stop - mm.start : Nat) + 1) = next.offset ∧ mm.mmapFlags = next.mmapFlags ∧
    mm.extraFlags = next.extraFlags)

def merged (mm next : MmMap) : MmMap := { mm with stop := next.stop, lastPageBss := next.lastPageBss }

/-- The list with the mapping behind `id` merged into it, and which one that was. -/
def coaleseList : List MmMap → Nat → Option (List MmMap × Nat)
  | mm :: next :: rest, id =>
    if mm.id = id then if mergeable mm next then some (merged mm next :: rest, next.id) else none
    else (coaleseList (next :: rest) id).map fun (maps, freed) => (mm :: maps, freed)
  | _, _ => none

/-- `coalese_one`, and whether it has merged. -/
def coaleseOne (mh : MapHead) (id : Nat) : Option (MapHead × Bool) :=
  match get mh.maps id, coaleseList mh.maps id with
  | none, _ => none
  | some _, none => some (mh, false)
  | some _, some (maps, freed) =>
    some ({ mh with maps := maps, rover := if mh.rover = some freed then some id else mh.rover }, true)

/-- The loop of `map_coalese` and `ms->last`; the list gets shorter each time. -/
def coaleseLoop : Nat → MapHead → Nat → Nat → Option (MapHead × Nat)
  | 0, mh, _, last => some (mh, last)
  | fuel + 1, mh, mm, last =>
    let next := (after mh.maps mm).bind fun rest => rest.head?.map MmMap.id
    match coaleseOne mh mm with
    | none => none
    | some (mh, false) => some (mh, last)
    | some (mh, true) => coaleseLoop fuel mh mm (if next = some last then mm else last)

/-- The first step of `map_coalese`: the set is joined with what is before it. -/
def coalesePrev (mh : MapHead) (first last : Nat) (prev : Option Nat) : Option (MapHead × Nat × Nat) :=
  match prev with
  | none => some (mh, first, last)
  | some prev =>
    match coaleseOne mh prev with
    | none => none
    | some (mh, false) => some (mh, first, last)
    | some (mh, true) => some (mh, prev, if first = last then prev else last)

def mapCoalese (mh : MapHead) (ms : MapSet) : Option MapHead :=
  if ms.split then
    match ms.first, ms.last with
    | some first, some last =>
      match coalesePrev mh first last ms.prev with
      | none => none
      | some (mh, mm, last) =>
        match coaleseLoop mh.maps.length mh mm last with
        | none => none
        | some (mh, last) => if mm = last then some mh else (coaleseOne mh last).map Prod.fst
    | _, _ => none
  else some mh

/-- The last mapping of a set is cut where it crosses the end of the range; the flag is whether there was
memory for it. -/
def cutLast (mh : MapHead) (ms : MapSet) (stop last : Nat) (mem : Bool) : Option (MapHead × MapSet × Bool) :=
  match get mh.maps last with
  | none => none
  | some mm =>
    if stop < mm.stop then
      if mem then
        some ({ mh with maps := splitOne mh.maps last (stop + 1) mh.fresh, fresh := mh.fresh + 1 }, ms, true)
      else some (mh, ms, false)
    else some (mh, ms, true)

/-- The first mapping of a set is cut where it crosses the start of the range, then the last. -/
def cutSet (mh : MapHead) (ms : MapSet) (start stop first last : Nat) (mem : Bool × Bool) :
    Option (MapHead × MapSet × Bool) :=
  match get mh.maps first with
  | none => none
  | some mm =>
    if mm.start < start then
      if mem.1 then
        let last := if first = last then mh.fresh else last
        cutLast { mh with maps := splitOne mh.maps first start mh.fresh, fresh := mh.fresh + 1 }
          { ms with prev := some first, first := some mh.fresh, last := some last } stop last mem.2
      else some (mh, ms, false)
    else cutLast mh ms stop last mem.2

/-- The set the search has found. -/
def Isolated.set (s : Isolated) (split : Bool) : MapSet :=
  let last :=
    match s.prev with
    | none => s.first
    | some prev => if s.stop < prev.start then s.first else some prev.id
  ⟨s.first, last, s.setPrev, split, false⟩

/-- The search of `map_isolate` and its cuts; `mem` is whether `map_alloc` succeeds, for the first and the
second cut. -/
def isolateCut (mh : MapHead) (start size : Nat) (split next : Bool) (mem : Bool × Bool) :
    Option (MapHead × MapSet × Bool) :=
  let size := if size = 0 then 1 else size
  let stop := (start + size - 1) / 4096 * 4096 + 4095
  let start := start / 4096 * 4096
  match isolateFrom mh start with
  | none => none
  | some (prev, rest) =>
    let s := isolateLoop start rest ⟨prev, none, none, mh.rover, stop, next⟩
    let mh := { mh with rover := s.rover }
    let ms := s.set split
    match ms.first, ms.last with
    | some first, some last => if split then cutSet mh ms start s.stop first last mem else some (mh, ms, true)
    | _, _ => some (mh, ms, true)

/-- Without memory for a cut `map_isolate` joins its set again. -/
def mapIsolate (mh : MapHead) (start size : Nat) (split next : Bool) (mem : Bool × Bool) :
    Option (MapHead × MapSet × MapStatus) :=
  match isolateCut mh start size split next mem with
  | none => none
  | some (mh, ms, true) => some (mh, ms, .eok)
  | some (mh, ms, false) => (mapCoalese mh ms).map fun mh => (mh, ms, .enomem)

/-! ## Adding and removing -/

/-- `map_add` of a set of the mappings `mm :: more`. -/
def mapAddSet (mh : MapHead) (mm : MmMap) (more : List MmMap) : Option (MapHead × MapSet) :=
  let from? :=
    match mh.rover with
    | none => some ([], mh.maps)
    | some r =>
      match get mh.maps r, after mh.maps r with
      | some rover, some rest => if rover.start < mm.start then some (upTo mh.maps r, rest) else some ([], mh.maps)
      | _, _ => none
  from?.map fun (before, rest) =>
    let before := before ++ rest.takeWhile fun e => e.start ≤ mm.start
    let behind := rest.dropWhile fun e => e.start ≤ mm.start
    let prev := before.getLast?.map MmMap.id
    ({ mh with maps := before ++ mm :: more ++ behind, rover := prev },
      ⟨some mm.id, (mm :: more).getLast?.map MmMap.id, prev, true, false⟩)

/-- `map_add` of the mapping a `map_create` has made. -/
def mapAdd (mh : MapHead) (mm : MmMap) : Option (MapHead × MapSet) := mapAddSet mh mm []

/-- The mappings from `first` to `last`. -/
def segment (maps : List MmMap) (first last : Nat) : List MmMap :=
  upTo (maps.dropWhile fun mm => mm.id ≠ first) last

/-- The list up to the mapping before a set. -/
def upToPrev (maps : List MmMap) (prev : Option Nat) : Option (List MmMap) :=
  match prev with
  | none => some []
  | some prev => (get maps prev).map fun _ => upTo maps prev

/-- The rover is between two mappings. -/
def roverIn (mh : MapHead) (first last : MmMap) : Bool :=
  match mh.rover.bind (get mh.maps) with
  | none => false
  | some rover => decide (first.start ≤ rover.start ∧ rover.start ≤ last.start)

def mapRemove (mh : MapHead) (ms : MapSet) : Option MapHead :=
  match ms.first, ms.last with
  | some first, some last =>
    match upToPrev mh.maps ms.prev, get mh.maps first, get mh.maps last, after mh.maps last with
    | some before, some firstMm, some lastMm, some behind =>
      let kept := if ms.skipSpecial then (segment mh.maps first last).filter MmMap.special else []
      some { mh with maps := before ++ (kept ++ behind)
                     rover := if roverIn mh firstMm lastMm then ms.prev else mh.rover }
    | _, _, _, _ => none
  | _, _ => none

def mapInit (start stop : Nat) : MapHead := ⟨[], none, start, stop, 0⟩

/-! ## Creating -/

/-- The value of a sum of addresses. -/
def wrap (x : Nat) : Nat := x % 2 ^ 64

/-- `a - b` -/
def wrapSub (a b : Nat) : Nat := wrap (a + (2 ^ 64 - b))

/-- What `map_find_va` looks for. -/
structure FindVa where
  va : Nat
  size : Nat
  mask : Nat
  /-- `MAP_BELOW` -/
  below : Bool
  deriving DecidableEq, Repr

/-- One hole: whether the search ends with it, and the address found (`none` is `VA_INVALID`). -/
def tryHole (q : FindVa) (stop tryAlign holeStart holeEnd : Nat) (start : Option Nat) : Bool × Option Nat :=
  if holeStart < holeEnd ∧ q.size < holeEnd - holeStart then
    if q.below then
      if q.va < holeStart ∧ start.isSome then (true, start)
      else if holeStart ≤ q.va ∧ stop ≤ holeEnd then (true, some q.va)
      else (false, some (holeEnd - q.size + 1))
    else
      let check := (holeStart + tryAlign - 1) / tryAlign * tryAlign
      let start := if q.size < wrapSub holeEnd check then check else holeStart
      if q.va ≤ start then (true, some start)
      else if stop < holeEnd then (true, some q.va)
      else (false, some start)
  else (false, start)

/-- The hole below a mapping, or below the end of the space, adjusted for colour and alignment. -/
def hole (mh : MapHead) (q : FindVa) (mm : Option MmMap) (holeStart : Nat) : Nat × Nat :=
  let holeEnd :=
    match mm with
    | none => mh.stop
    | some mm =>
      if mh.stop < mm.start then mh.stop else if holeStart < mm.start then mm.start - 1 else mm.start
  let bits := q.va &&& q.mask
  if q.below then
    let tmp := wrap (wrapSub holeEnd q.size + 1)
    (holeStart, wrap (wrapSub tmp (wrapSub tmp bits &&& q.mask) + q.size - 1))
  else (wrap (holeStart + (wrapSub bits holeStart &&& q.mask)), holeEnd)

def findLoop (mh : MapHead) (q : FindVa) (stop tryAlign : Nat) : List MmMap → Nat → Option Nat → Option Nat
  | [], holeStart, start =>
    let (holeStart, holeEnd) := hole mh q none holeStart
    (tryHole q stop tryAlign holeStart holeEnd start).2
  | mm :: rest, holeStart, start =>
    let (holeStart, holeEnd) := hole mh q (some mm) holeStart
    match tryHole q stop tryAlign holeStart holeEnd start with
    | (true, start) => start
    | (false, start) => findLoop mh q stop tryAlign rest (wrap (mm.stop + 1)) start

/-- `pgszlist` are the page sizes of the processor, the largest first. -/
def mapFindVa (pgszlist : List Nat) (mh : MapHead) (q : FindVa) : Option Nat :=
  let stop := wrap (q.va + q.size - 1)
  let (va, stop) := if stop < q.va then (2 ^ 64 - q.size, 2 ^ 64 - 1) else (q.va, stop)
  let tryAlign := if q.mask.testBit 0 then (pgszlist.find? fun p => p ≤ q.size).getD 0 else 1
  let q := { q with va := va, mask := q.mask / 2 * 2 }
  findLoop mh q stop tryAlign mh.maps mh.start none

/-- The fields the caller of `map_create` fills in. -/
structure MapAttr where
  objRef : Option Nat
  offset : Int
  reloc : Int
  mmapFlags : Nat
  extraFlags : Nat
  lastPageBss : Nat
  deriving DecidableEq, Repr

/-- How the place of a mapping is chosen: `MAP_FIXED`, `IMAP_GLOBAL`, or by a search. -/
inductive Placement
  | fixed
  | global
  | search (mask : Nat) (below : Bool)
  deriving DecidableEq, Repr

/-- Whether the address is given. -/
def Placement.given : Placement → Bool
  | .search .. => false
  | _ => true

/-- `map_create` at an address given: what is to be replaced there is cut out. -/
def createAt (mh : MapHead) (va size : Nat) (mem : Bool × Bool) :
    Option (MapHead × Option MapSet × Nat × MapStatus) :=
  match mapIsolate mh va size true false mem with
  | none => none
  | some (mh, ms, .eok) =>
    match ms.first, ms.last with
    | some first, some last =>
      if (segment mh.maps first last).any MmMap.special then some (mh, none, va, .einval)
      else some (mh, some ms, va, .eok)
    | _, _ => some (mh, none, va, .eok)
  | some (mh, _, st) => some (mh, none, va, st)

/-- `map_create`: the map, the set to be replaced, and where the mapping is to be. `mem` is
whether `map_alloc` succeeds, for the new mapping and for each of the two cuts. -/
def mapCreate (pgszlist : List Nat) (mh : MapHead) (place : Placement) (va size : Nat)
    (mem : Bool × Bool × Bool) : Option (MapHead × Option MapSet × Nat × MapStatus) :=
  if va % 4096 ≠ 0 ∨ size % 4096 ≠ 0 then none
  else if mem.1 = false then some (mh, none, va, .enomem)
  else
    match place with
    | .global => createAt mh va size mem.2
    | .fixed =>
      if va < mh.start ∨ mh.stop ≤ va then some (mh, none, va, .einval)
      else if mh.stop < wrapSub (va + size) 1 ∨ wrapSub (va + size) 1 < va then some (mh, none, va, .enomem)
      else createAt mh va size mem.2
    | .search mask below =>
      match mapFindVa pgszlist mh ⟨va, size, mask, below⟩ with
      | none => some (mh, none, va, .enomem)
      | some va => some (mh, none, va, .eok)

/-- `mm_free_list` when `map_create` has returned; with memory to be had it is `new :: free` before.
The way out at `fail1` puts `new` back, the one for a mapping that is special does not. -/
def createPool (pgszlist : List Nat) (mh : MapHead) (place : Placement) (va size : Nat) (mem : Bool × Bool × Bool)
    (new : Nat) (free : List Nat) : Option (List Nat) :=
  let at? := (mapIsolate mh va size true false mem.2).map fun (_, _, st) => if st = .eok then free else new :: free
  if mem.1 = false then some (new :: free)
  else
    match place with
    | .global => at?
    | .fixed =>
      if va < mh.start ∨ mh.stop ≤ va ∨ mh.stop < wrapSub (va + size) 1 ∨ wrapSub (va + size) 1 < va then some (new :: free)
      else at?
    | .search mask below =>
      some (if (mapFindVa pgszlist mh ⟨va, size, mask, below⟩).isSome then free else new :: free)

/-- The cut at `point` in a set that is not in a map yet; `id` is the entry that is allocated for it. -/
def splitPoint (point id : Nat) : List MmMap → Option (List MmMap)
  | [] => none
  | mm :: rest =>
    if mm.start ≤ point ∧ point < mm.stop then
      some ({ mm with stop := point - 1, lastPageBss := 0 } ::
        ⟨id, none, 0, point, mm.stop, 0, mm.mmapFlags, mm.extraFlags, mm.lastPageBss⟩ :: rest)
    else (splitPoint point id rest).map (mm :: ·)

/-- `map_split` of the set `mm :: more`. -/
def mapSplit (mm : MmMap) (more : List MmMap) (size id : Nat) (mem : Bool) : Option (List MmMap × MapStatus) :=
  if size = 0 then none
  else (splitPoint (wrap (mm.start + size)) id (mm :: more)).map fun set =>
    if mem then (set, .eok) else (mm :: more, .enomem)

/-- The removal of what is to be replaced. -/
def removeReplaced (mh : MapHead) : Option MapSet → Option MapHead
  | none => some mh
  | some ms => mapRemove mh ms

/-- The mapping `map_create` has allocated, filled in by the caller. -/
def MapAttr.entry (attr : MapAttr) (id va size : Nat) : MmMap :=
  ⟨id, attr.objRef, attr.offset, va, va + size - 1, attr.reloc, attr.mmapFlags, attr.extraFlags, attr.lastPageBss⟩

/-- What follows on `map_create`: the removal of what is to be replaced, and `map_add`. -/
def addCreated (size : Nat) (attr : MapAttr) :
    MapHead × Option MapSet × Nat × MapStatus → Option (MapHead × Option MapSet)
  | (mh, repl, va, .eok) => do
    let mh ← removeReplaced mh repl
    let (mh, ms) ← mapAdd { mh with fresh := mh.fresh + 1 } (attr.entry mh.fresh va size)
    some (mh, some ms)
  | (mh, _, _, _) => some (mh, none)

/-- `map_create`, the removal of what is to be replaced, and `map_add`. -/
def createAndAdd (pgszlist : List Nat) (mh : MapHead) (place : Placement) (va size : Nat) (attr : MapAttr)
    (mem : Bool × Bool × Bool) : Option (MapHead × Option MapSet) :=
  (mapCreate pgszlist mh place va size mem).bind (addCreated size attr)

end QRV.Mem
