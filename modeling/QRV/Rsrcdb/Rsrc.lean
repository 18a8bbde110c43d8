import Mathlib.Data.ZMod.Basic

/- The resource database: a class of resources has the ranges that were created in it and a list of
   blocks, free ones and those of processes, in the order of their starts. Numbers are 64 bit wide.
   The `prev` links are the order of the list; names are paths of numbers, the class first.

   Correspondence (C ↔ Lean), src/mgr/rsrcdb/rsrcdbmgr_list.c:
     rsrc_block_t / rsrc_create_t / rsrc_root_node_t ↔ `Block` / `Create` / `Root`
     rsrc_node_locate / _rsrc_is_child ↔ `Root.locate` / `isChild`
     find_range_priority / find_next_priority ↔ `rangePriority` / `nextPriority`
     rsrc_find_range, its `restart` and its loop ↔ `findRange`, `fitLoop`, `scanBlocks`
     rsrc_insert_create ↔ `insertCreate`
     rsrc_block_add_range_pid / rsrc_block_add_range ↔ `addRangePid` / `addRange`
     rsrc_block_remove_range ↔ `removeRange`
     _rsrc_block_limit_op, the ranges it calls out for ↔ `limitOp`, `callouts`
     _rsrc_block_search_op, its search ↔ `Root.search`
     _rsrcdbmgr_create / _destroy / _attach / _detach / _pid_clear ↔ `Root.create` / `Root.destroy` /
       `Root.attach` / `Root.detach` / `Root.pidClear`

   Which allocations of blocks fail is an input; those of created ranges and nodes succeed. -/
namespace QRV.Rsrcdb

/-! ## Numbers -/

/-- ULONGLONG_MAX. -/
def top : Nat := 2 ^ 64 - 1

def succ64 (x : Nat) : Nat := (x + 1) % 2 ^ 64

def pred64 (x : Nat) : Nat := (x + top) % 2 ^ 64

/-- OVERLAPE. -/
def overlape (s₁ e₁ s₂ e₂ : Nat) : Bool := decide (s₁ ≤ s₂ ∧ s₂ ≤ e₁ ∨ s₂ ≤ s₁ ∧ s₁ ≤ e₂)

/-! ## A class of resources -/

/-- A block is free if its owner is 0. -/
structure Block where
  start : Nat
  stop : Nat
  owner : Nat
  share : Bool
  deriving DecidableEq, Repr

/-- Of the flags of a created range only RSRCDBMGR_FLAG_RSVP is looked at. -/
structure Create where
  start : Nat
  stop : Nat
  creator : Nat
  node : List Nat
  rsvp : Bool
  deriving DecidableEq, Repr

/-- `nodes` are the nodes below the head of the class. -/
structure Root where
  nodes : List (List Nat)
  created : List Create
  active : List Block
  deriving DecidableEq, Repr

/-! ## Editing the list of blocks -/

/-- The block that takes up others as the list is gone through, and the blocks between it and the
one looked at. -/
def flush : Option (Block × List Block) → List Block
  | none => []
  | some (absorb, between) => absorb :: between

/-- The allocations that fail: the block asked for, and the blocks behind its place in the list. -/
abbrev Fails : Type := List (Block × List Block)

/-- A new block if there is none that takes up others. -/
def outstanding (fails : Fails) (absorb : Option (Block × List Block)) (new : Block) (behind : List Block) : List Block :=
  if absorb.isNone ∧ new.start ≤ new.stop ∧ (new, behind) ∉ fails then new :: behind else behind

/-- JOIN_COMPATIBLE. -/
def Block.canJoin (blk : Block) (pid : Nat) (share : Bool) : Bool := blk.owner == pid && !blk.share && !share

/-- The block at hand touches the range, or is next to it. -/
def Block.touches (blk : Block) (newstart newend : Nat) : Bool :=
  overlape (if newstart ≠ 0 then newstart - 1 else newstart) (if newend ≠ top then newend + 1 else newend) blk.start blk.stop

/-- The block takes up `cur`; what was between them is no longer in the list. -/
def absorbed (absorb : Option (Block × List Block)) (cur : Block) (newstart newend : Nat) : Block × List Block :=
  ({ (absorb.elim cur Prod.fst) with start := newstart, stop := newend }, [])

def addPidLoop (fails : Fails) (pid : Nat) (share : Bool) :
    Option (Block × List Block) → Nat → Nat → List Block → List Block
  | absorb, newstart, newend, [] => flush absorb ++ outstanding fails absorb ⟨newstart, newend, pid, share⟩ []
  | absorb, newstart, newend, cur :: rest =>
    let absorb₁ :=
      if newstart ≤ succ64 cur.stop ∧ absorb.isNone ∧ newstart < cur.start ∧
        (⟨newstart, newend, pid, share⟩, cur :: rest) ∉ fails then some (⟨newstart, newend, pid, share⟩, [])
      else absorb
    if newstart ≤ succ64 cur.stop ∧ cur.canJoin pid share ∧ cur.touches newstart newend then
      let newstart' := min newstart cur.start
      let newend' := max newend cur.stop
      addPidLoop fails pid share (some (absorbed absorb₁ cur newstart' newend')) newstart' newend' rest
    else
      match absorb₁ with
      | none => cur :: addPidLoop fails pid share none newstart newend rest
      | some (blk, between) => addPidLoop fails pid share (some (blk, between ++ [cur])) newstart newend rest

def addRangePid (fails : Fails) (active : List Block) (newstart newend pid : Nat) (share : Bool) : List Block :=
  addPidLoop fails pid share none newstart newend active

/-- The part of the range in front of a block that has an owner. -/
def partBefore (fails : Fails) (pid : Nat) (share : Bool) (absorb : Option (Block × List Block)) (newstart : Nat)
    (cur : Block) (rest : List Block) : Option (Block × List Block) :=
  if newstart < cur.start then
    match absorb with
    | some (blk, between) => some ({ blk with stop := cur.start - 1 }, between)
    | none =>
      let new := ⟨newstart, cur.start - 1, pid, share⟩
      if (new, cur :: rest) ∈ fails then none else some (new, [])
  else absorb

def addLoop (fails : Fails) (pid : Nat) (share : Bool) :
    Option (Block × List Block) → Nat → Nat → List Block → List Block
  | absorb, newstart, newend, [] => flush absorb ++ outstanding fails absorb ⟨newstart, newend, pid, share⟩ []
  | absorb, newstart, newend, cur :: rest =>
    if newend < newstart then flush absorb ++ cur :: rest
    else if newstart ≤ succ64 cur.stop then
      if succ64 newend < cur.start then
        -- without memory `newstart` is past `newend` all the same, unless it wraps
        if absorb.isNone ∧ (⟨newstart, newend, pid, share⟩, cur :: rest) ∈ fails then
          cur :: outstanding fails none ⟨succ64 newend, newend, pid, share⟩ rest
        else flush absorb ++ outstanding fails absorb ⟨newstart, newend, pid, share⟩ (cur :: rest)
      else if cur.touches newstart newend then
        if cur.owner ≠ 0 then
          let absorb₁ := partBefore fails pid share absorb newstart cur rest
          if newend ≤ cur.stop then
            flush absorb₁ ++ cur :: outstanding fails absorb₁ ⟨newstart, newend, pid, share⟩ rest
          else flush absorb₁ ++ cur :: addLoop fails pid share none (succ64 cur.stop) newend rest
        else
          let newstart' := min newstart cur.start
          let newend' := max newend cur.stop
          addLoop fails pid share (some (absorbed absorb cur newstart' newend')) newstart' newend' rest
      else
        match absorb with
        | none => cur :: addLoop fails pid share none newstart newend rest
        | some (blk, between) => addLoop fails pid share (some (blk, between ++ [cur])) newstart newend rest
    else
      match absorb with
      | none => cur :: addLoop fails pid share none newstart newend rest
      | some (blk, between) => addLoop fails pid share (some (blk, between ++ [cur])) newstart newend rest

def addRange (fails : Fails) (active : List Block) (newstart newend pid : Nat) (share : Bool) : List Block :=
  addLoop fails pid share none newstart newend active

def removeRange (fails : Fails) (newstart newend pid : Nat) : List Block → List Block
  | [] => []
  | target :: rest =>
    if newend < target.start then target :: rest
    else if target.owner ≠ pid ∨ overlape newstart newend target.start target.stop = false then
      target :: removeRange fails newstart newend pid rest
    else if newstart ≤ target.start ∧ target.stop ≤ newend then removeRange fails newstart newend pid rest
    else if target.start < newstart ∧ newend < target.stop then
      if ({ target with stop := pred64 newstart }, target :: rest) ∈ fails then target :: rest
      else
        { target with stop := pred64 newstart } :: { target with start := succ64 newend } ::
          removeRange fails newstart newend pid rest
    else
      { target with
        start := if newstart ≤ target.start then succ64 newend else target.start
        stop := if target.stop ≤ newend then pred64 newstart else target.stop } ::
        removeRange fails newstart newend pid rest

/-! ## Ranges inside and outside the created ones -/

/-- A range that `overlap` is called for, or else `nonoverlap`. -/
structure Callout where
  overlap : Bool
  start : Nat
  stop : Nat
  deriving DecidableEq, Repr

/-- The part of a created range is joined to that of the range before it, if they overlap. -/
def joinOverlap (c : Create) (purgestart purgeend : Nat) : Option (Nat × Nat) → List Callout × (Nat × Nat)
  | none => ([], (max c.start purgestart, min c.stop purgeend))
  | some (overlapstart, overlapend) =>
    if overlape c.start c.stop overlapstart overlapend then
      ([], (overlapstart, max overlapend (min purgeend c.stop)))
    else ([⟨true, overlapstart, overlapend⟩], (max c.start purgestart, min c.stop purgeend))

def callouts (purgeend : Nat) : Nat → Option (Nat × Nat) → List Create → List Callout
  | purgestart, overlap, [] =>
    (overlap.map fun o => ⟨true, o.1, o.2⟩).toList ++ if purgestart ≤ purgeend then [⟨false, purgestart, purgeend⟩] else []
  | purgestart, overlap, c :: created =>
    if purgeend < purgestart then (overlap.map fun o => ⟨true, o.1, o.2⟩).toList
    else if overlape c.start c.stop purgestart purgeend then
      (joinOverlap c purgestart purgeend overlap).1 ++
        (if c.start ≤ purgestart then [] else [⟨false, purgestart, if c.start ≠ 0 then c.start - 1 else 0⟩]) ++
        callouts purgeend (if c.stop ≠ top then c.stop + 1 else top)
          (some (joinOverlap c purgestart purgeend overlap).2) created
    else callouts purgeend purgestart overlap created

/-- `_add_callout`, `_remove_callout`. -/
def addCallout (fails : Fails) (active : List Block) (start stop : Nat) : List Block :=
  addRange fails active start stop 0 false

def removeCallout (fails : Fails) (active : List Block) (start stop : Nat) : List Block :=
  removeRange fails start stop 0 active

/-- One of the two functions is NULL. -/
def callOut (overlap : Bool) (f : List Block → Nat → Nat → List Block) (active : List Block) (c : Callout) : List Block :=
  if c.overlap = overlap then f active c.start c.stop else active

/-- The parts of the range that are created are given to `f` if `overlap` holds, and those that
are not if it does not. -/
def limitOp (created : List Create) (overlap : Bool) (f : List Block → Nat → Nat → List Block) (active : List Block)
    (start stop : Nat) : List Block :=
  (callouts stop start none created).foldl (callOut overlap f) active

/-! ## Looking for a range -/

/-- The sum in `priority + (flags & RSVP) ? 1 : 0` is the condition. -/
def Create.priority (c : Create) : Nat := if c.node.length + (if c.rsvp then 0x4000 else 0) ≠ 0 then 1 else 0

/-- The created ranges that the loops over them look at, as far as they meet the range. -/
def meeting (created : List Create) (start stop : Nat) : List Create :=
  (created.takeWhile fun c => decide (c.start ≤ stop)).filter fun c => overlape c.start c.stop start stop

def rangePriority (created : List Create) (start stop : Nat) : Nat :=
  (meeting created start stop).foldl (fun priority c => max c.priority priority) 0

/-- Where the search goes on, and whether it does. -/
def nextPriority (created : List Create) (start stop : Nat) (backward : Bool) : Nat × Bool :=
  let curpriority := rangePriority created start stop
  let value := if backward then (if start = 0 then 0 else start - 1) else if stop = top then top else stop + 1
  let value :=
    if curpriority = 0 then value
    else
      ((meeting created start stop).foldl (fun (priority, value) c =>
        let priority := max c.priority priority
        (priority,
          if curpriority ≤ priority ∧ curpriority ≤ c.priority then
            if backward then min value (pred64 c.start) else max value (succ64 c.stop)
          else value)) (0, value)).2
  (value, if backward then value != stop else value != start)

/-- A request. `range` is that of RSRCDBMGR_FLAG_RANGE, and `align` is 0 without
RSRCDBMGR_FLAG_ALIGN. -/
structure Request where
  node : List Nat
  length : Nat
  range : Option (Nat × Nat)
  align : Nat
  share : Bool
  topdown : Bool
  pos : 1 ≤ length
  deriving DecidableEq, Repr

def Request.alignment (r : Request) : Nat := if r.align ≠ 0 then r.align else 1

/-- BLOCK_SHARE_COMPATABLE. -/
def Request.compatible (r : Request) (owner : Nat) (blk : Block) : Bool :=
  blk.owner == owner || (blk.owner != 0 && blk.share && r.share)

/-- A range with its priority. -/
structure Found where
  start : Nat
  stop : Nat
  priority : Nat
  deriving DecidableEq, Repr

/-- The start of the range at hand, aligned. -/
def Request.fit (r : Request) (tmpStart tmpEnd : Nat) : Nat :=
  let start := if r.topdown then tmpEnd - (r.length - 1) else tmpStart
  let extraamount := start % r.alignment
  if extraamount = 0 then start
  else if r.topdown then start - extraamount else (start + (r.alignment - extraamount)) % 2 ^ 64

/-- The new range is better than the saved one. -/
def better (saved : Option Found) (priority : Nat) : Bool :=
  priority == 0 || saved.all fun f => decide (priority < f.priority)

/-- The ranges in one block, from `restart` on. The second component tells that a range of priority
0 ends the search. `none` is a search that does not end. -/
def fitLoop (created : List Create) (r : Request) (owner limitStart limitEnd : Nat) (blk : Block) :
    Nat → Nat → Nat → Option Found → Option (Option Found × Bool)
  | 0, _, _, _ => none
  | fuel + 1, tmpStart, tmpEnd, saved =>
    if r.compatible owner blk ∧ tmpStart ≤ tmpEnd ∧ r.length ≤ succ64 (tmpEnd - tmpStart) then
      let start := r.fit tmpStart tmpEnd
      let stop := (start + (r.length - 1)) % 2 ^ 64
      if start < max blk.start limitStart ∨ min blk.stop limitEnd < stop then some (saved, false)
      else
        let curprio := rangePriority created start stop
        let saved := if better saved curprio then some ⟨start, stop, curprio⟩ else saved
        if curprio = 0 then some (saved, true)
        else
          let next := nextPriority created start stop r.topdown
          if next.2 then
            if r.topdown then
              fitLoop created r owner limitStart limitEnd blk fuel (max blk.start limitStart) next.1 saved
            else fitLoop created r owner limitStart limitEnd blk fuel next.1 (min blk.stop limitEnd) saved
          else some (saved, false)
    else some (saved, false)

/-- The blocks are gone through until a range of priority 0 is found. One of the bounds of the
range at hand stays the same in a block, so the loop in it ends in 2^64 rounds or not at all. -/
def scanBlocks (created : List Create) (r : Request) (owner limitStart limitEnd : Nat) :
    List Block → Option Found → Option (Option Found)
  | [], saved => some saved
  | blk :: rest, saved =>
    if limitEnd < blk.start then some saved
    else
      (fitLoop created r owner limitStart limitEnd blk (2 ^ 64 + 1) (max blk.start limitStart) (min blk.stop limitEnd)
        saved).bind fun (saved, done) => if done then some saved else scanBlocks created r owner limitStart limitEnd rest saved

/-- The blocks in the order of the search. -/
def searchOrder (active : List Block) (topdown : Bool) (limitStart limitEnd : Nat) : List Block :=
  if topdown then (active.takeWhile fun blk => decide (blk.start ≤ limitEnd)).reverse
  else active.dropWhile fun blk => !(decide (blk.start ≤ limitStart ∧ limitStart ≤ blk.stop) || decide (limitStart < blk.start))

def findRange (rt : Root) (r : Request) (owner limitStart limitEnd : Nat) : Option (Option Found) :=
  scanBlocks rt.created r owner limitStart limitEnd (searchOrder rt.active r.topdown limitStart limitEnd) none

/-! ## Nodes -/

def children (nodes : List (List Nat)) (parent : List Nat) : List (List Nat) :=
  nodes.filter fun n => n != [] && n.dropLast == parent

/-- The recursion answers 1 for a child that does not have the target below it. -/
def isChild (nodes : List (List Nat)) : Nat → List Nat → List Nat → Bool
  | 0, _, _ => false
  | depth + 1, parent, target =>
    target == parent || (children nodes parent).any (· == target) ||
      (children nodes parent).any fun child => !isChild nodes depth child target

def Root.locate (rt : Root) (node : List Nat) : Bool := node == [] || rt.nodes.contains node

/-- With `create` the nodes on the way are added. -/
def Root.locateCreate (rt : Root) (node : List Nat) : Root :=
  { rt with nodes := rt.nodes ++ node.inits.filter fun n => !rt.locate n }

/-- Only ranges of the node and those below it are looked at. -/
def Root.looksAt (rt : Root) (node : List Nat) (c : Create) : Bool :=
  node == [] || isChild rt.nodes (rt.nodes.length + 1) node c.node

/-! ## Searching the created ranges -/

/-- A stretch of created ranges is searched, as far as it is in the range of the request. `last`
tells that it is the last one: in front of it a search from the top prefers a later range of the
same priority. -/
def Root.tryStretch (rt : Root) (r : Request) (owner : Nat) (last : Bool) (cur : Nat × Nat) (lastmatch : Option Found) :
    Option (Option Found) :=
  let lo := r.range.elim cur.1 fun range => max range.1 cur.1
  let hi := r.range.elim cur.2 fun range => min range.2 cur.2
  (findRange rt r owner lo hi).map fun found =>
    match found with
    | none => lastmatch
    | some f =>
      if lastmatch.all fun m => decide (f.priority < m.priority) || !last && r.topdown && decide (f.priority ≤ m.priority)
      then some f
      else lastmatch

def Root.searchLoop (rt : Root) (r : Request) (owner : Nat) :
    List Create → Option (Nat × Nat) → Option Found → Option (Option Found)
  | [], cur, lastmatch => cur.elim (some lastmatch) fun cur => rt.tryStretch r owner true cur lastmatch
  | c :: created, cur, lastmatch =>
    if lastmatch.any fun m => decide (m.priority < r.node.length) then
      cur.elim (some lastmatch) fun cur => rt.tryStretch r owner true cur lastmatch
    else if rt.looksAt r.node c then
      match cur with
      | none => rt.searchLoop r owner created (some (c.start, c.stop)) lastmatch
      | some cur =>
        if c.start ≠ 0 ∧ cur.2 < c.start - 1 then
          (rt.tryStretch r owner false cur lastmatch).bind (rt.searchLoop r owner created (some (c.start, c.stop)))
        else rt.searchLoop r owner created (some (min cur.1 c.start, max cur.2 c.stop)) lastmatch
    else rt.searchLoop r owner created cur lastmatch

/-- `some none` is EINVAL. -/
def Root.search (rt : Root) (r : Request) (owner : Nat) : Option (Option Found) :=
  if (r.range.any fun range => decide (range.2 < range.1)) || !rt.locate r.node then some none
  else rt.searchLoop r owner rt.created none none

/-! ## The interface -/

def insertCreate (created : List Create) (c : Create) : List Create :=
  (created.takeWhile fun d => decide (d.start ≤ c.start)) ++ c :: created.dropWhile fun d => decide (d.start ≤ c.start)

/-- `pid` is 0 with RSRCDBMGR_FLAG_NOREMOVE. -/
def Root.create (rt : Root) (fails : Fails) (node : List Nat) (start stop pid : Nat) (rsvp : Bool) : Root :=
  { rt.locateCreate node with
    active := limitOp rt.created false (addCallout fails) rt.active start stop
    created := insertCreate rt.created ⟨start, stop, pid, node, rsvp⟩ }

/-- The created ranges of a node and a process are cut. What is left behind the range is put in its
place in the list, which is never looked at again. -/
def destroyLoop (node : List Nat) (pid start stop : Nat) : Nat → List Create → List Create
  | 0, created => created
  | _ + 1, [] => []
  | fuel + 1, target :: rest =>
    if stop < target.start then target :: rest
    else if target.node ≠ node ∨ target.creator ≠ pid ∨ overlape target.start target.stop start stop = false then
      target :: destroyLoop node pid start stop fuel rest
    else if start ≤ target.start ∧ target.stop ≤ stop then destroyLoop node pid start stop fuel rest
    else if target.start < start ∧ stop < target.stop then
      { target with stop := start - 1 } ::
        destroyLoop node pid start stop fuel (insertCreate rest { target with start := stop + 1 })
    else if start ≤ target.start then
      destroyLoop node pid start stop fuel (insertCreate rest { target with start := stop + 1 })
    else { target with stop := start - 1 } :: destroyLoop node pid start stop fuel rest

def Root.destroy (rt : Root) (fails : Fails) (node : List Nat) (start stop pid : Nat) : Root :=
  if stop < start ∨ rt.locate node = false then rt
  else
    let created := destroyLoop node pid start stop rt.created.length rt.created
    { rt with created := created, active := limitOp created false (removeCallout fails) rt.active start stop }

def Root.attach (rt : Root) (fails : Fails) (r : Request) (pid : Nat) : Option Root :=
  (rt.search r 0).map fun found =>
    found.elim rt fun f =>
      { rt with active := addRangePid fails (removeRange fails f.start f.stop 0 rt.active) f.start f.stop pid r.share }

def Root.detach (rt : Root) (fails : Fails) (r : Request) (pid : Nat) : Option Root :=
  (rt.search r pid).map fun found =>
    found.elim rt fun f =>
      { rt with
        active := limitOp rt.created true (addCallout fails) (removeRange fails f.start f.stop pid rt.active) f.start f.stop }

/-- The created ranges of a process go one after the other. -/
def clearCreated (fails : Fails) (pid : Nat) : List Create → List Create → List Block → List Create × List Block
  | kept, [], active => (kept, active)
  | kept, c :: rest, active =>
    if c.creator = pid then
      clearCreated fails pid kept rest (limitOp (kept ++ rest) false (removeCallout fails) active c.start c.stop)
    else clearCreated fails pid (kept ++ [c]) rest active

/-- The first block of a process goes. Blocks in front of it are not the process's, so it is the
next one of the loop. -/
def clearFirst (fails : Fails) (created : List Create) (pid : Nat) (active : List Block) : List Block :=
  match active.find? fun blk => blk.owner == pid with
  | none => active
  | some blk => limitOp created true (addCallout fails) (active.eraseP fun blk => blk.owner == pid) blk.start blk.stop

def clearBlocks (fails : Fails) (created : List Create) (pid : Nat) : Nat → List Block → List Block
  | 0, active => active
  | n + 1, active => clearBlocks fails created pid n (clearFirst fails created pid active)

def Root.pidClear (rt : Root) (fails : Fails) (pid : Nat) : Root :=
  let cleared := clearCreated fails pid [] rt.created rt.active
  { rt with
    created := cleared.1
    active := clearBlocks fails cleared.1 pid (cleared.2.countP fun blk => blk.owner == pid) cleared.2 }

/-! ## Runs -/

/-- A process. -/
abbrev Pid : Type := { pid : Nat // pid ≠ 0 }

/-- `cls` is the class of the name, `noremove` RSRCDBMGR_FLAG_NOREMOVE. `marked` tells that the
process has resources. -/
inductive RsrcOp
  | create (cls : Nat) (node : List Nat) (start stop : Nat) (pid : Pid) (noremove rsvp : Bool) (fails : Fails)
  | destroy (cls : Nat) (node : List Nat) (start stop : Nat) (pid : Pid) (noremove : Bool) (fails : Fails)
  | attach (cls : Nat) (r : Request) (pid : Pid) (fails : Fails)
  | detach (cls : Nat) (r : Request) (pid : Pid) (fails : Fails)
  | pidClear (pid : Pid) (marked : Bool) (fails : Fails)

/-- The roots of the classes, under their names. -/
abbrev Db : Type := List (Nat × Root)

def Db.put (db : Db) (cls : Nat) (rt : Root) : Db :=
  if (db.lookup cls).isSome then db.map fun p => if p.1 = cls then (cls, rt) else p else (cls, rt) :: db

/-- Without a root for the class the request fails. -/
def Db.update (db : Db) (cls : Nat) (f : Root → Option Root) : Option Db :=
  (db.lookup cls).elim (some db) fun rt => (f rt).map (db.put cls)

def Db.step (db : Db) : RsrcOp → Option Db
  | .create cls node start stop pid noremove rsvp fails =>
    if stop < start then some db
    else
      some (db.put cls (((db.lookup cls).getD ⟨[], [], []⟩).create fails node start stop (if noremove then 0 else pid)
        rsvp))
  | .destroy cls node start stop pid noremove fails =>
    db.update cls fun rt => some (rt.destroy fails node start stop (if noremove then 0 else pid))
  | .attach cls r pid fails => db.update cls fun rt => rt.attach fails r pid
  | .detach cls r pid fails => db.update cls fun rt => rt.detach fails r pid
  | .pidClear pid marked fails => some (if marked then db.map fun p => (p.1, p.2.pidClear fails pid) else db)

end QRV.Rsrcdb
