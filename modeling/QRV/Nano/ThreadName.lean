import Mathlib.Data.ZMod.Basic

/- The name of a thread: _NTO_TCTL_NAME of kerop_thread_ctl, `kernel/ker_thread.c`, and its release
   in thread_destroy, `kernel/nano/nano_thread.c`.

   The allocator of a name is chosen by the length that the caller passes, and the one it is released
   to by the length of the string that is found then. Blocks are numbered in the order in which they
   are handed out; `allocated` and `released` are the calls of the allocators.

   Correspondence (C ↔ Lean):
     `kerop_thread_ctl` (_NTO_TCTL_NAME)  ↔ `threadCtlName`
     `thread_destroy` (the name)          ↔ `threadDestroyName`
     `_sfree` or `object_free`            ↔ `Names.free` -/
namespace QRV.Nano.ThreadName

open List

/-- THREAD_NAME_FIXED_SIZE -/
def fixedSize : Nat := 24

/-- _NTO_THREAD_NAME_MAX -/
def nameMax : Int := 100

/-- threadname_souls, or the heap with the size of the block. -/
inductive Source where
  | souls
  | heap (size : Nat)
  deriving DecidableEq, Repr

inductive Status where
  | eok
  | e2big
  | einval
  deriving DecidableEq, Repr

/-- A `struct _thread_name`, and whether the allocator has a block for the name. -/
structure NameCall where
  newNameLen : Int
  nameBufLen : Int
  nameBuf : Nat → UInt8
  found : Bool

structure Name where
  block : Nat
  bytes : List UInt8

structure Names where
  name : Option Name
  allocated : List (Nat × Source)
  released : List (Nat × Source)

def strlen (s : List UInt8) : Nat := s.findIdx (· = 0)

/-- The bytes of the new name and the null behind them. -/
def NameCall.bytes (c : NameCall) : List UInt8 := (List.range c.newNameLen.toNat).map c.nameBuf ++ [0]

def NameCall.check (c : NameCall) : Status :=
  if nameMax < c.newNameLen then .e2big
  else if c.nameBufLen < 0 ∨ c.nameBufLen < c.newNameLen then .einval
  else .eok

/-- The name is set; it is null if it is empty or there is no block for it. -/
def Names.rename (st : Names) (c : NameCall) : Names :=
  if c.newNameLen = 0 ∨ c.found = false then { st with name := none }
  else
    let n := c.newNameLen.toNat
    { st with name := some ⟨st.allocated.length, c.bytes⟩
              allocated := st.allocated ++
                [(st.allocated.length, if fixedSize ≤ n then .heap (n + 1) else .souls)] }

/-- Where a name goes, by its length with the null. -/
def freedTo (len : Nat) : Source := if fixedSize ≤ len then .heap len else .souls

def Names.free (st : Names) (name : Name) : Names :=
  { st with released := st.released ++ [(name.block, freedTo (strlen name.bytes + 1))] }

/-- The buffer with the previous name in it. -/
def NameCall.returned (c : NameCall) (prev : Option Name) : Nat → UInt8 :=
  if c.nameBufLen ≤ 0 then c.nameBuf
  else match prev with
  | none => Function.update c.nameBuf 0 0
  | some name =>
    if c.nameBufLen < strlen name.bytes + 1 then fun i =>
      if i + 1 < c.nameBufLen then name.bytes.getD i 0 else if i + 1 = c.nameBufLen then 0 else c.nameBuf i
    else fun i => if i < strlen name.bytes + 1 then name.bytes.getD i 0 else c.nameBuf i

def threadCtlName (st : Names) (c : NameCall) : Names × Status × (Nat → UInt8) :=
  match c.check with
  | .eok =>
    let st' := if 0 ≤ c.newNameLen then st.rename c else st
    let st' := match st.name with
      | none => st'
      | some prev => if st'.name.map Name.block = some prev.block then st' else st'.free prev
    (st', .eok, c.returned st.name)
  | status => (st, status, c.nameBuf)

def threadDestroyName (st : Names) : Names :=
  match st.name with
  | none => st
  | some name => { st.free name with name := none }

/-- A thread that is given these names and destroyed. -/
def nameRun (calls : List NameCall) : Names :=
  threadDestroyName (calls.foldl (fun st c => (threadCtlName st c).1) ⟨none, [], []⟩)

/-- The string tells which allocator its block is from: one of the heap ends where the caller said, and
one of threadname_souls leaves the last byte of its block. -/
def NameCall.Kept (c : NameCall) : Prop :=
  c.check = .eok → 0 < c.newNameLen → c.found = true →
    if fixedSize ≤ c.newNameLen.toNat then strlen c.bytes = c.newNameLen.toNat else strlen c.bytes + 1 < fixedSize

instance (c : NameCall) : Decidable c.Kept := inferInstanceAs (Decidable (_ → _ → _ → _))

/-- The block of the name, and where it is going to be released. -/
def Names.held (st : Names) : List (Nat × Source) :=
  st.name.toList.map fun name => (name.block, freedTo (strlen name.bytes + 1))

/-- All blocks but that of the name have been released, as they were allocated. -/
structure Names.Ok (st : Names) : Prop where
  due : st.allocated = st.released ++ st.held
  numbered : st.allocated.map Prod.fst = List.range st.allocated.length

/-- Each block has been released once, to the allocator it came from and with its size. -/
structure Names.Clean (st : Names) : Prop where
  released : st.released = st.allocated
  once : (st.allocated.map Prod.fst).Nodup
  name : st.name = none

variable {st : Names} {c : NameCall}

theorem Names.Ok.lt {name : Name} (h : st.Ok) (hname : st.name = some name) : name.block < st.allocated.length := by
  have hmem : name.block ∈ st.allocated.map Prod.fst := by
    rw [h.due, Names.held, hname]
    simp
  rw [h.numbered] at hmem
  exact mem_range.mp hmem

theorem rename_spec (h : st.Ok) (hcheck : c.check = .eok) (h0 : 0 ≤ c.newNameLen) (hc : c.Kept) :
    (st.rename c).released = st.released ∧ (st.rename c).allocated = st.allocated ++ (st.rename c).held ∧
      (st.rename c).allocated.map Prod.fst = range (st.rename c).allocated.length ∧
      ∀ n < st.allocated.length, (st.rename c).name.map Name.block ≠ some n := by
  unfold Names.rename
  by_cases hnone : c.newNameLen = 0 ∨ c.found = false
  · rw [if_pos hnone]
    exact ⟨rfl, (append_nil _).symm, h.numbered, nofun⟩
  · rw [if_neg hnone]
    rw [not_or, Bool.not_eq_false] at hnone
    have hkept := hc hcheck (by omega) hnone.2
    refine ⟨rfl, ?_, ?_, fun n hn heq => ?_⟩
    · simp only [Names.held, freedTo, Option.toList_some, map_cons, map_nil]
      split at hkept
      · next hn => rw [hkept, if_pos hn, if_pos (by omega)]
      · next hn => rw [if_neg hn, if_neg (by omega)]
    · simp only [map_append, h.numbered, length_append, length_singleton, range_succ]
      rfl
    · exact Nat.ne_of_lt hn (Option.some.inj heq).symm

theorem threadCtlName_ok (h : st.Ok) (hc : c.Kept) : (threadCtlName st c).1.Ok := by
  unfold threadCtlName
  split
  · next hcheck =>
    dsimp only
    by_cases h0 : 0 ≤ c.newNameLen
    · rw [if_pos h0]
      obtain ⟨hrel, hall, hnum, hnew⟩ := rename_spec h hcheck h0 hc
      have hdue := h.due
      cases hname : st.name with
      | none =>
        refine ⟨?_, hnum⟩
        rw [Names.held, hname] at hdue
        rw [hall, hrel, hdue]
        simp
      | some prev =>
        dsimp only
        rw [if_neg (hnew _ (h.lt hname))]
        refine ⟨?_, hnum⟩
        rw [Names.held, hname] at hdue
        show (st.rename c).allocated = (st.rename c).released ++ _ ++ (st.rename c).held
        rw [hall, hrel, hdue]
        rfl
    · rw [if_neg h0]
      cases hname : st.name with
      | none => exact h
      | some prev =>
        dsimp only
        rw [Option.map_some, if_pos rfl]
        exact h
  · exact h

/-- The names of a thread are released as they were allocated, if all strings tell where their block is from. -/
theorem names_released (calls : List NameCall) (hc : ∀ c ∈ calls, c.Kept) : (nameRun calls).Clean := by
  have hrun : ∀ st : Names, st.Ok → (calls.foldl (fun st c => (threadCtlName st c).1) st).Ok := by
    induction calls with
    | nil => exact fun st h => h
    | cons c calls ih =>
      intro st h
      exact ih (fun c hmem => hc c (.tail _ hmem)) _ (threadCtlName_ok h (hc c mem_cons_self))
  have h := hrun ⟨none, [], []⟩ ⟨rfl, rfl⟩
  have hdue := h.due
  have hnodup := h.numbered ▸ nodup_range
  unfold nameRun threadDestroyName
  split
  · next hname =>
    rw [Names.held, hname] at hdue
    exact ⟨by simpa using hdue.symm, hnodup, hname⟩
  · next name hname =>
    rw [Names.held, hname] at hdue
    exact ⟨hdue.symm, hnodup, rfl⟩

/-- A name of each kind, a question for the name, and the name cleared. -/
theorem names_released_kinds : (nameRun [⟨3, 3, fun _ => 97, true⟩, ⟨24, 30, fun _ => 98, true⟩,
    ⟨-1, 8, fun _ => 0, true⟩, ⟨0, 0, fun _ => 0, true⟩]).Clean :=
  names_released _ (by decide)

/-- A name of 23 bytes goes from the souls to the heap, and a null among the bytes of a longer name sends its
block from the heap to the souls, or back with a smaller size. -/
theorem names_misplaced :
    let run (n null : Nat) := nameRun [⟨n, n, fun i => if i = null then 0 else 97, true⟩]
    (run 23 23).allocated = [(0, .souls)] ∧ (run 23 23).released = [(0, .heap 24)] ∧
    (run 30 5).allocated = [(0, .heap 31)] ∧ (run 30 5).released = [(0, .souls)] ∧
    (run 30 25).allocated = [(0, .heap 31)] ∧ (run 30 25).released = [(0, .heap 26)] := by
  decide +kernel

end QRV.Nano.ThreadName
