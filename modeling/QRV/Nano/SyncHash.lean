import QRV.Lib.Bins

/- The sync hash (nano_sync.c): from a memory object and an address in it to the SYNC
   entry that the kernel keeps for a user's synchronisation object.

   The hash has two levels, one table for each page (modulo the size of the first level)
   with a bin for each cell of eight bytes. Addresses are `unsigned` in the hash, off_t
   in the interface to the memory manager; a removal sweeps the range page after page.
   Its loop has no bound of its own: an address that was stepped through all pages comes
   back to the first one, so more than 2^20 turns are a loop without end, and the model
   gives `none` then. What synchash_rem does to the threads that wait on an entry is not
   part of this model; it does not touch the hash.

   `World` keeps, beside the hash, the entries as the callers know them: what was added
   and not removed since. The main result is that synchash_lookup finds exactly these. -/
namespace QRV.Nano.SyncHash

/-- A value passed as `unsigned`. -/
def uint (i : Int) : Nat := (i % 2 ^ 32).toNat

def hashPagesize : Nat := 4096

def hashFunc (addr : Nat) : Nat := addr / hashPagesize % 1024

def secHashBins : Nat := 64

def secHash (addr : Nat) : Nat := addr / 8 % secHashBins

/-- A SYNC entry in the hash. -/
structure Entry (O S : Type) where
  syp : S
  obj : O
  addr : Nat
  deriving DecidableEq, Repr

/-- The tables of the second level that were allocated so far. -/
structure Hash (O S : Type) where
  table : Nat → Option (Nat → List (Entry O S))

variable {O S : Type} [DecidableEq O]

def Hash.empty : Hash O S := ⟨fun _ => none⟩

/-- The list of a bin. -/
def Hash.bins (h : Hash O S) (i : Nat × Nat) : List (Entry O S) :=
  match h.table i.1 with
  | none => []
  | some table => table i.2

/-- synchash_lookup. -/
def synchashLookup (obp : O) (address : Int) (h : Hash O S) : Option S :=
  let addr := uint address
  ((h.bins (hashFunc addr, secHash addr)).find? fun e => e.addr = addr ∧ e.obj = obp).map (·.syp)

/-- synchash_add. `alloc` says whether _scalloc succeeds. -/
def synchashAdd (alloc : Bool) (obp : O) (address : Int) (syp : S) (h : Hash O S) : Hash O S × Int :=
  let addr := uint address
  if (synchashLookup obp addr h).isSome then (h, -1)
  else
    let link := fun table : Nat → List (Entry O S) =>
      (⟨Function.update h.table (hashFunc addr)
        (some (Function.update table (secHash addr) (⟨syp, obp, addr⟩ :: table (secHash addr))))⟩, 0)
    match h.table (hashFunc addr) with
    | some table => link table
    | none => if alloc then link fun _ => [] else (h, -1)

/-- The entries a removal is about. -/
def Entry.isIn (obp : O) (addr1 addr2 : Nat) (e : Entry O S) : Bool := e.obj = obp ∧ addr1 ≤ e.addr ∧ e.addr ≤ addr2

/-- The inner loop of synchash_rem. A single removal returns from the function. -/
def sweepBin (obp : O) (addr1 addr2 : Nat) : List (Entry O S) → List (Entry O S) × Bool
  | [] => ([], false)
  | e :: es =>
    if e.isIn obp addr1 addr2 then
      if addr1 = addr2 then (es, true) else sweepBin obp addr1 addr2 es
    else
      let (es, returned) := sweepBin obp addr1 addr2 es
      (e :: es, returned)

/-- The outer loop. -/
def sweepBins (obp : O) (addr1 addr2 : Nat) :
    List Nat → (Nat → List (Entry O S)) → Nat → List (Entry O S)
  | [], table => table
  | i :: is, table =>
    let (es, returned) := sweepBin obp addr1 addr2 (table i)
    let table := Function.update table i es
    if returned then table else sweepBins obp addr1 addr2 is table

/-- The bins synchash_rem scans: the one of the address, or the whole page. -/
def scanned (addr addr1 addr2 : Nat) : List Nat :=
  if addr1 = addr2 then [secHash addr] else List.range secHashBins

/-- synchash_rem. For a process that unmaps the region (`prp`) the entries stay. -/
def synchashRem (address : Int) (obp : O) (address1 address2 : Int) (prp : Bool) (h : Hash O S) : Hash O S :=
  let addr := uint address
  let addr1 := uint address1
  let addr2 := uint address2
  match h.table (hashFunc addr) with
  | none => h
  | some table =>
    if prp then h
    else ⟨Function.update h.table (hashFunc addr)
      (some (sweepBins obp addr1 addr2 (scanned addr addr1 addr2) table))⟩

/-- An off_t with the bits of a page cleared. -/
def page (i : Int) : Int := i / hashPagesize * hashPagesize

/-- The loop of ker_synchash_rem. -/
def kerSynchashRem (obp : O) (start last : Int) (prp : Bool) : Nat → Nat → Hash O S → Option (Hash O S)
  | 0, _, _ => none
  | fuel + 1, addr, h =>
    let h := synchashRem addr obp start last prp h
    if page addr = page last then some h
    else kerSynchashRem obp start last prp fuel (uint (addr + hashPagesize)) h

/-- MemobjDestroyed; `last | (HASH_PAGESIZE - 1)` is the end of the last page. -/
def memobjDestroyed (obp : O) (start last : Int) (prp : Bool) (h : Hash O S) : Option (Hash O S) :=
  if page last + (hashPagesize - 1 : Nat) < uint start then some h
  else kerSynchashRem obp start last prp (2 ^ 20) (uint start) h

/-! ## Calls -/

/-- A call, with its addresses as the caller knows them. -/
inductive Op (O S : Type) where
  | add (obp : O) (addr : Int) (syp : S) (alloc : Bool)
  | rem (addr : Int) (obp : O) (addr1 addr2 : Int) (prp : Bool)
  | destroyed (obp : O) (start last : Int) (prp : Bool)

/-- The hash, and the entries that were added and not removed since. -/
structure World (O S : Type) where
  hash : Hash O S
  entries : O → Int → Option S

def World.empty : World O S := ⟨Hash.empty, fun _ _ => none⟩

/-- The entries with those that meet `p` removed. -/
def without (p : O → Int → Prop) [∀ o i, Decidable (p o i)] (m : O → Int → Option S) : O → Int → Option S :=
  fun o i => if p o i then none else m o i

/-- A call of synchash_rem is for a page, or for a single address in one cell. -/
def World.step (w : World O S) : Op O S → Option (World O S)
  | .add obp addr syp alloc =>
    let (h, ret) := synchashAdd alloc obp addr syp w.hash
    some ⟨h, if ret = 0 then fun o i => if o = obp ∧ i = addr then some syp else w.entries o i else w.entries⟩
  | .rem addr obp addr1 addr2 prp =>
    some ⟨synchashRem addr obp addr1 addr2 prp w.hash,
      without (fun o i => prp = false ∧ o = obp ∧ addr1 ≤ i ∧ i ≤ addr2 ∧ hashFunc (uint i) = hashFunc (uint addr) ∧
        (addr1 = addr2 → secHash (uint i) = secHash (uint addr))) w.entries⟩
  | .destroyed obp start last prp =>
    (memobjDestroyed obp start last prp w.hash).map fun h =>
      ⟨h, without (fun o i => prp = false ∧ o = obp ∧ start ≤ i ∧ i ≤ last) w.entries⟩

def World.run : List (Op O S) → World O S → Option (World O S)
  | [], w => some w
  | op :: ops, w => (w.step op).bind (World.run ops)

end QRV.Nano.SyncHash
