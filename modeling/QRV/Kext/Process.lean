import QRV.Lib.LinkCell
import QRV.Lib.Run

/- The family of processes: what `kernel/kext/kerext_process.c` does with `parent`, `child`,
   `sibling` and `num_processes` when a process is created, destroyed, or takes the place of
   its parent (exec, or a guardian).

   `child` and `sibling` are the cells of a linked list (`Lib/LinkCell`): the cell `.head prp`
   is `prp->child`, the cell `.next prp` is `prp->sibling`. A pointer to a pointer (`pprp`) is a
   cell. `num_processes` is 32 bits wide. The process vector is the list of the processes in
   it. What the rest of a call does, and calls that fail before they come to the family, are
   left out; so are the flags and events of zombies.

   `none` is a null pointer that is followed or a loop that does not end.

   Correspondence (C ↔ Lean) where the names differ:
     `kerext_process_create`    ↔ `processCreate`
     `kerext_process_destroy`   ↔ `processDestroy` (its loop `adoptLoop`)
     `sysmgr_prp`               ↔ `proc` -/
namespace QRV.Kext.Process
open Function (update)
open LinkCell

structure Family (P : Type) where
  /-- `child` and `sibling` -/
  links : Links P P
  parent : P → Option P
  numProcesses : P → Nat
  /-- The processes in process_vector. -/
  live : List P

/-- `PID_MASK` -/
def pidMask : Nat := 0xfff

def inc (n : Nat) : Nat := (n + 1) % 2 ^ 32
def dec (n : Nat) : Nat := (n + (2 ^ 32 - 1)) % 2 ^ 32

variable {P : Type} [DecidableEq P]

/-- kerext_process_create: `limit` is RLIMIT_NPROC of the parent, `prp` what object_alloc returns, and `ok` says
that what else the call needs is there. -/
def processCreate (st : Family P) (parent prp : P) (limit : Nat) (ok : Bool) : Family P :=
  if parent ∉ st.live then st
  else if limit ≤ st.numProcesses parent then st
  else if pidMask - 1 ≤ st.live.length then st
  else if ¬ ok then st
  else
    -- Link the new process in as a child of its creator.
    let links := st.links.set (.head prp) none
    let links := links.set (.next prp) (links (.head parent))
    let links := links.set (.head parent) (some prp)
    let num := update st.numProcesses prp 0
    { links := links
      parent := update st.parent prp (some parent)
      numProcesses := update num parent (inc (num parent))
      live := prp :: st.live }

/-- One turn of the loop that hands the children of `prp` to the system process. -/
def adopt (proc prp child : P) (st : Family P) : Family P :=
  let links := st.links.set (.head prp) (st.links (.next child))
  let links := links.set (.next child) (links (.head proc))
  let links := links.set (.head proc) (some child)
  let num := update st.numProcesses prp (dec (st.numProcesses prp))
  { st with
    links := links
    parent := update st.parent child (some proc)
    numProcesses := update num proc (inc (num proc)) }

/-- The loop; it can be preempted at the start of a turn, and the call is then made again. The result says
whether the loop has ended. -/
def adoptLoop (proc prp : P) : Nat → Option Nat → Family P → Option (Family P × Bool)
  | 0, _, _ => none
  | fuel + 1, preempt, st =>
    match st.links (.head prp) with
    | none => some (st, true)
    | some child =>
      if preempt = some 0 then some (st, false)
      else adoptLoop proc prp fuel (preempt.map Nat.pred) (adopt proc prp child st)

/-- The search for the process whose sibling is `prp`. -/
def unlinkSibling (prp : P) : Nat → Links P P → Option P → Option (Links P P)
  | _, links, none => some links
  | 0, _, some _ => none
  | fuel + 1, links, some q =>
    if links (.next q) = some prp then some (links.set (.next q) (links (.next prp)))
    else unlinkSibling prp fuel links (links (.next q))

/-- The end of kerext_process_destroy. -/
def unlinkParent (prp : P) (st : Family P) : Option (Family P) :=
  match st.parent prp with
  | none => none
  | some parent =>
    let links :=
      if st.links (.head parent) = some prp then some (st.links.set (.head parent) (st.links (.next prp)))
      else unlinkSibling prp (st.live.length + 1) st.links (st.links (.head parent))
    links.map fun links =>
      { st with
        links := links
        numProcesses := update st.numProcesses parent (dec (st.numProcesses parent))
        live := st.live.erase prp }

def processDestroy (proc : P) (st : Family P) (prp : P) (querying : Bool) (preempt : Option Nat) :
    Option (Family P) :=
  if prp ∉ st.live then some st
  -- Some proc thread is looking at the process fields
  else if querying then some st
  else do
    let (st, done) ← adoptLoop proc prp (st.live.length + 1) preempt st
    if done then unlinkParent prp st else some st

/-- The first loop of process_swap: the child comes to the place of its parent. -/
def replaceChild (old new : P) : Nat → Links P P → Cell P P → Option (Links P P)
  | 0, _, _ => none
  | fuel + 1, links, pprp =>
    match links pprp with
    | none => some links
    | some prp => if prp = old then some (links.set pprp (some new)) else replaceChild old new fuel links (.next prp)

/-- The second loop: the parent comes to the place of the child, the other children change their parent. The
result has the cell that ends the list. -/
def takeOver (parent child : P) : Nat → Family P → Cell P P → Option (Family P × Cell P P)
  | 0, _, _ => none
  | fuel + 1, st, pprp =>
    match st.links pprp with
    | none => some (st, pprp)
    | some prp =>
      if prp = child then
        takeOver parent child fuel { st with links := st.links.set pprp (some parent) } (.next parent)
      else takeOver parent child fuel { st with parent := update st.parent prp (some child) } (.next prp)

def processSwap (st : Family P) (child : P) : Option (Family P) :=
  match st.parent child with
  | none => none
  | some parent => do
    let fuel := st.live.length + 1
    let grand := st.parent parent
    let links ← (match grand with
      | none => some st.links
      | some prp => replaceChild parent child fuel st.links (.head prp))
    let up := update (update st.parent child grand) parent (some child)
    let prp := links (.next parent)
    let links := links.set (.next parent) (links (.next child))
    let links := links.set (.next child) prp
    let (st, pprp) ← takeOver parent child fuel { st with links := links, parent := up } (.head parent)
    let links := st.links.set pprp (st.links (.head child))
    let links := links.set (.head child) (links (.head parent))
    let links := links.set (.head parent) none
    let num := update st.numProcesses child (st.numProcesses parent)
    some { st with links := links, numProcesses := update num parent 0 }

/-! ## Runs -/

inductive Op (P : Type) where
  | create (parent prp : P) (limit : Nat) (ok : Bool)
  | destroy (prp : P) (querying : Bool) (preempt : Option Nat)
  | swap (child : P)

/-- Only a process that exists takes over. -/
def step (proc : P) (st : Family P) : Op P → Option (Family P)
  | .create parent prp limit ok => some (processCreate st parent prp limit ok)
  | .destroy prp querying preempt => processDestroy proc st prp querying preempt
  | .swap child => if child ∈ st.live then processSwap st child else some st

def run (proc : P) (ops : List (Op P)) (st : Family P) : Option (Family P) := Run.exec (step proc) ops st

/-- The system process alone. -/
def alone (proc : P) : Family P where
  links _ := none
  parent _ := none
  numProcesses _ := 0
  live := [proc]

end QRV.Kext.Process
