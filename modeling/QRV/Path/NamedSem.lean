import QRV.Lib.StableQueue

/- Named semaphores (namedsem.c). A handler holds SemaphoreMutex, so it is one step. It
   gives the semaphore, what it returns, and the replies to clients that were blocked. What
   has happened (`Past`) is told by the run from what the handlers return and reply: the
   posts and waits that succeeded (a wait at once, or when a post replies to the client),
   the clients that were blocked, the replies to them, and who waits for one, oldest first.
   `Served` says what a request has to do, in terms of the value and of who waits.

   Correspondence (C ↔ Lean):
     `enqueue_client`, `dequeue_client`     ↔ `Sem.enqueueClient`, `Sem.dequeueClient`
     `unblock_clients`, `destroy_sem`       ↔ `Sem.unblockClients`, `Sem.destroySem`
     `create_sem`, `resmgr_sem_{read,write}` ↔ `createSem`, `Sem.read`, `Sem.write`
     `resmgr_sem_{close,unblock}`, `resmgr_dir_unlink` ↔ the cases of `Sem.step` -/
namespace QRV.Path.NamedSem

open StableQueue List

/-- blocked_t -/
structure Client where
  rcvid : Nat
  scoid : Nat
  coid : Nat
  priority : Nat
  deriving DecidableEq

inductive Errno where
  | eok | eagain | enomem | ebadf | eintr
  /-- _RESMGR_NOREPLY -/
  | noreply
  deriving DecidableEq

structure Sem where
  nbytes : Int
  blocked : List Client := []
  nlink : Nat := 1
  count : Nat := 0

/-- MsgReply and MsgError to clients that were blocked. -/
abbrev Replies := List (Client × Errno)

def semValueMax : Nat := 1073741823

/-- create_sem, behind the check of the value in resmgr_sem_open. -/
def createSem (initial : Nat) : Option Sem := if semValueMax < initial then none else some { nbytes := initial }

/-- enqueue_client; `mem` says whether blocked_item finds a record, on the free list that all
semaphores share or on the heap. -/
def Sem.enqueueClient (s : Sem) (blk : Client) (mem : Bool) : Option Sem :=
  if mem then some { s with blocked := enqueue Client.priority blk s.blocked, nbytes := s.nbytes - 1 } else none

def Sem.dequeueClient (s : Sem) : Option (Client × Sem) :=
  match s.blocked with
  | [] => none
  | blk :: link => some (blk, { s with nbytes := s.nbytes + 1, blocked := link })

/-- unblock_clients, with what it compares as a test. -/
def Sem.unblockClients (s : Sem) (test : Client → Bool) (error : Errno) : Sem × Replies :=
  ({ s with nbytes := s.nbytes + (s.blocked.filter test).length, blocked := s.blocked.filter (!test ·) },
    (s.blocked.filter test).map (·, error))

def Sem.destroySem (s : Sem) : Sem × Replies :=
  if s.nlink = 0 ∧ s.count = 0 then s.unblockClients (fun _ => true) .ebadf else (s, [])

def Sem.read (s : Sem) (ctp : Client) (nonblock mem : Bool) : Sem × Errno :=
  if 0 < s.nbytes then ({ s with nbytes := s.nbytes - 1 }, .eok)
  else if nonblock then (s, .eagain)
  else
    match s.enqueueClient ctp mem with
    | none => (s, .enomem)
    | some s' => (s', .noreply)

/-- The poster of a post that releases a client gets its reply from the handler, beside the client. -/
def Sem.write (s : Sem) : Sem × Errno × Replies :=
  if semValueMax ≤ s.nbytes then (s, .eagain, [])
  else
    match if 0 ≤ s.nbytes then none else s.dequeueClient with
    | none => ({ s with nbytes := s.nbytes + 1 }, .eok, [])
    | some (blk, s') => (s', .noreply, [(blk, .eok)])

inductive Op where
  | wait (ctp : Client) (nonblock mem : Bool)
  | post
  | unblock (rcvid : Nat)
  | attach
  | close (scoid coid : Nat)
  | unlink

/-- A request; `attach` is the part of an open that counts. -/
def Sem.step (s : Sem) : Op → Sem × Errno × Replies
  | .wait ctp nonblock mem =>
    let (s, error) := s.read ctp nonblock mem
    (s, error, [])
  | .post => s.write
  | .unblock rcvid =>
    let (s, replies) := s.unblockClients (·.rcvid == rcvid) .eintr
    (s, .noreply, replies)
  | .attach => ({ s with count := s.count + 1 }, .eok, [])
  | .close scoid coid =>
    let s := { s with count := s.count - 1 }
    let (s, replies) := s.unblockClients (fun b => b.scoid == scoid && b.coid == coid) .ebadf
    let (s, replies') := s.destroySem
    (s, .eok, replies ++ replies')
  | .unlink =>
    let (s, replies) := { s with nlink := s.nlink - 1 }.destroySem
    (s, .eok, replies)

def Sem.value (s : Sem) : Int := s.nbytes + s.blocked.length

/-! ## What has happened -/

structure Past where
  posts : Nat := 0
  waits : Nat := 0
  entered : List Client := []
  waiting : List Client := []
  replied : Replies := []

/-- A post succeeds unless it returns EAGAIN. -/
def posted : Op → Errno → Nat
  | .post, error => if error = .eagain then 0 else 1
  | _, _ => 0

/-- A wait succeeds at once when it returns EOK, and later with a reply of EOK. -/
def waited : Op → Errno → Nat
  | .wait _ _ _, error => if error = .eok then 1 else 0
  | _, _ => 0

/-- A wait that gets no reply yet is blocked. -/
def entering : Op → Errno → List Client
  | .wait ctp _ _, error => if error = .noreply then [ctp] else []
  | _, _ => []

def Past.add (p : Past) (op : Op) (error : Errno) (replies : Replies) : Past where
  posts := p.posts + posted op error
  waits := p.waits + waited op error + replies.countP (·.2 = .eok)
  entered := p.entered ++ entering op error
  waiting := (p.waiting ++ entering op error).diff (replies.map Prod.fst)
  replied := p.replied ++ replies

/-- A request and what it adds to the past. -/
def stepPast (sp : Sem × Past) (op : Op) : Sem × Past :=
  ((sp.1.step op).1, sp.2.add op (sp.1.step op).2.1 (sp.1.step op).2.2)

/-- The semaphore agrees with what has happened. -/
structure Right (initial : Nat) (s : Sem) (p : Past) : Prop where
  counts : s.value = initial + p.posts - p.waits ∧ 0 ≤ s.value ∧ s.value ≤ semValueMax ∧
    (0 < s.blocked.length → s.value = 0)
  /-- Larger priorities first, and equal ones in the order in which they came. -/
  order : Orders Client.priority s.blocked p.waiting
  once : p.entered.Perm (p.replied.map Prod.fst ++ s.blocked)

/-! ## What a request has to do -/

/-- The clients that a request other than a post has to release: the client that is interrupted, those
of the connection that is closed, and all of them when the semaphore goes away. -/
def Op.frees (s : Sem) : Op → Client → Bool
  | .unblock rcvid, c => c.rcvid == rcvid
  | .close scoid coid, c => (c.scoid == scoid && c.coid == coid) || (s.nlink == 0 && s.count - 1 == 0)
  | .unlink, _ => s.nlink - 1 == 0 && s.count == 0
  | _, _ => false

/-- The error they get. -/
def Op.error : Op → Errno
  | .unblock _ => .eintr
  | _ => .ebadf

/-- A wait takes one of the value or blocks, a post releases the client who has waited longest among
those of the highest priority or adds one to the value, and the other requests release whom they have to. -/
def Served (s : Sem) (waiting : List Client) : Op → Errno → Replies → Prop
  | .wait _ nonblock mem, error, replies => replies = [] ∧
      error = if 0 < s.value then .eok else if nonblock then .eagain else if mem then .noreply else .enomem
  | .post, error, replies =>
      (waiting = [] → replies = [] ∧ error = if s.value = semValueMax then .eagain else .eok) ∧
      (waiting ≠ [] → error = .noreply ∧ ∃ blk, replies = [(blk, .eok)] ∧
        (∀ c ∈ waiting, c.priority ≤ blk.priority) ∧
        (level Client.priority blk.priority waiting).head? = some blk)
  | op, _, replies => replies.Perm ((waiting.filter (op.frees s)).map (·, op.error))

variable {initial : Nat} {s s' : Sem} {p : Past} {blk : Client}

/-- The requests that only release. -/
def Op.releases : Op → Bool
  | .wait _ _ _ => false
  | .post => false
  | _ => true

theorem destroySem_eq (s : Sem) :
    s.destroySem = s.unblockClients (fun _ => s.nlink == 0 && s.count == 0) .ebadf := by
  rw [Sem.destroySem]
  split_ifs with hlast
  · simp [hlast]
  · have hnot : (s.nlink == 0 && s.count == 0) = false := by simpa using hlast
    simp [Sem.unblockClients, hnot]

theorem step_releases {op : Op} (hop : op.releases) :
    (s.step op).1.blocked = s.blocked.filter (!op.frees s ·) ∧
      (s.step op).1.nbytes = s.nbytes + (s.blocked.filter (op.frees s)).length ∧
      (s.step op).2.2.Perm ((s.blocked.filter (op.frees s)).map (·, op.error)) := by
  cases op with
  | wait => cases hop
  | post => cases hop
  | unblock rcvid => exact ⟨rfl, rfl, .refl _⟩
  | attach => simp [Sem.step, Op.frees]
  | close scoid coid =>
    have hfrees : Op.frees s (.close scoid coid) =
        fun c => (c.scoid == scoid && c.coid == coid) || (s.nlink == 0 && s.count - 1 == 0) := rfl
    have hperm := filter_append_perm (fun b => b.scoid == scoid && b.coid == coid) s.blocked
    simp only [Sem.step, destroySem_eq, Sem.unblockClients, hfrees]
    cases s.nlink == 0 && s.count - 1 == 0 with
    | false => simp [Op.error]
    | true =>
      refine ⟨by simp, ?_, ?_⟩
      · have hlen := hperm.length_eq
        rw [length_append] at hlen
        simp only [filter_true, Bool.or_true]
        omega
      · simpa [Op.error] using hperm.map (·, Errno.ebadf)
  | unlink =>
    have hfrees : Op.frees s .unlink = fun _ => s.nlink - 1 == 0 && s.count == 0 := rfl
    simp only [Sem.step, destroySem_eq, hfrees]
    exact ⟨rfl, rfl, .refl _⟩

theorem diff_filter {l w : List Client} (f : Client → Bool) (h : l.Perm (w.filter f)) :
    w.diff l = w.filter (!f ·) := by
  rw [h.diff_left]
  clear h
  induction w with
  | nil => rfl
  | cons c w ih =>
    cases hc : f c with
    | true =>
      rw [filter_cons_of_pos hc, filter_cons_of_neg (by simp [hc]), diff_cons, erase_cons_head]
      exact ih
    | false =>
      rw [filter_cons_of_neg (by simp [hc]), filter_cons_of_pos (by simp [hc]), ← ih]
      exact cons_diff_of_not_mem (by simp [hc]) _

theorem Right.releases {op : Op} (h : Right initial s p) (hop : op.releases) :
    Right initial (stepPast (s, p) op).1 (stepPast (s, p) op).2 ∧
      Served s p.waiting op (s.step op).2.1 (s.step op).2.2 := by
  obtain ⟨hblocked, hnbytes, hreplies⟩ := step_releases (s := s) hop
  have hperm := h.order.perm.filter (op.frees s)
  have herr : op.error ≠ .eok := by cases op <;> simp [Op.error]
  have hfst : ((s.step op).2.2.map Prod.fst).Perm (s.blocked.filter (op.frees s)) := by
    simpa [Function.comp_def] using hreplies.map Prod.fst
  have hnone : posted op (s.step op).2.1 = 0 ∧ waited op (s.step op).2.1 = 0 ∧ entering op (s.step op).2.1 = [] := by
    cases op <;> simp_all [Op.releases, posted, waited, entering]
  have hcount : (s.step op).2.2.countP (·.2 = .eok) = 0 := by
    rw [hreplies.countP_eq, countP_eq_zero]
    rintro ⟨c, error⟩ hm
    obtain ⟨d, -, hd⟩ := mem_map.mp hm
    simp [← (Prod.mk.inj hd).2, herr]
  refine ⟨⟨?_, ?_, ?_⟩, ?_⟩
  · have hc := h.counts
    have := s.blocked.length_eq_length_filter_add (op.frees s)
    simp only [stepPast, Sem.value, hblocked, hnbytes, Past.add, hnone, hcount] at hc ⊢
    omega
  · simp only [stepPast, Past.add, hnone, append_nil, hblocked, diff_filter _ (hfst.trans hperm)]
    exact h.order.filter _
  · simp only [stepPast, Past.add, hnone, append_nil, hblocked, map_append, append_assoc]
    exact h.once.trans (.append_left _ ((filter_append_perm (op.frees s) s.blocked).symm.trans
      (hfst.symm.append_right _)))
  · have hserved : (s.step op).2.2.Perm ((p.waiting.filter (op.frees s)).map (·, op.error)) :=
      hreplies.trans (hperm.map _)
    cases op with
    | wait => cases hop
    | post => cases hop
    | _ => exact hserved

theorem Right.wait (h : Right initial s p) (ctp : Client) (nonblock mem : Bool) :
    Right initial (stepPast (s, p) (.wait ctp nonblock mem)).1 (stepPast (s, p) (.wait ctp nonblock mem)).2 ∧
      Served s p.waiting (.wait ctp nonblock mem) (s.step (.wait ctp nonblock mem)).2.1
        (s.step (.wait ctp nonblock mem)).2.2 := by
  have hc := h.counts
  have hlen := @length_enqueue _ Client.priority ctp s.blocked
  have hpos : 0 < s.nbytes ↔ 0 < s.value := by
    simp only [Sem.value] at hc ⊢
    omega
  simp only [Sem.value] at hc
  simp only [stepPast, Sem.step, Sem.read, Sem.enqueueClient, Served, ← hpos]
  split_ifs with hn
  · exact ⟨⟨by simp [Past.add, posted, waited, Sem.value]; omega, by simpa [Past.add, entering] using h.order,
      by simpa [Past.add, entering] using h.once⟩, by simp⟩
  · exact ⟨⟨by simpa [Past.add, posted, waited, Sem.value] using hc, by simpa [Past.add, entering] using h.order,
      by simpa [Past.add, entering] using h.once⟩, by simp⟩
  · refine ⟨⟨?_, by simpa [Past.add, entering] using h.order.enqueue ctp, ?_⟩, by simp⟩
    · simp [Past.add, posted, waited, Sem.value, hlen]
      omega
    · simp only [Past.add, entering, if_true, append_nil]
      refine (h.once.append_right [ctp]).trans ?_
      rw [append_assoc]
      exact .append_left _ ((perm_append_singleton ..).trans (enqueue_perm ..).symm)
  · exact ⟨⟨by simpa [Past.add, posted, waited, Sem.value] using hc, by simpa [Past.add, entering] using h.order,
      by simpa [Past.add, entering] using h.once⟩, by simp⟩

theorem Right.post (h : Right initial s p) :
    Right initial (stepPast (s, p) .post).1 (stepPast (s, p) .post).2 ∧
      Served s p.waiting .post (s.step .post).2.1 (s.step .post).2.2 := by
  obtain ⟨hc, ho, hp⟩ := h
  have hnil : p.waiting = [] ↔ s.blocked = [] := by
    rw [← length_eq_zero_iff, ← length_eq_zero_iff, ho.perm.length_eq]
  simp only [Sem.value] at hc
  simp only [stepPast, Sem.step, Sem.write, Sem.dequeueClient, Served]
  cases hb : s.blocked with
  | nil =>
    rw [hb, length_nil] at hc
    rw [hb] at ho hp
    have hval : s.value = s.nbytes := by simp [Sem.value, hb]
    by_cases hmax : (semValueMax : Int) ≤ s.nbytes
    · rw [if_pos hmax, hval, if_pos (by omega)]
      exact ⟨⟨by simpa [Past.add, posted, waited, Sem.value, hb] using hc,
        by simpa [Past.add, entering, hb] using ho, by simpa [Past.add, entering, hb] using hp⟩, by simp [hnil, hb]⟩
    · rw [if_neg hmax, if_pos (by omega), hval, if_neg (by omega)]
      exact ⟨⟨by simp [Past.add, posted, waited, Sem.value]; omega,
        by simpa [Past.add, entering, hb] using ho, by simpa [Past.add, entering, hb] using hp⟩, by simp [hnil, hb]⟩
  | cons blk link =>
    rw [hb, length_cons] at hc
    rw [hb] at ho hp
    rw [if_neg (by omega), if_neg (by omega)]
    refine ⟨⟨by simp [Past.add, posted, waited, Sem.value]; omega, ?_, ?_⟩, by simp [hnil, hb], fun _ => ⟨rfl, blk, rfl, ?_, ?_⟩⟩
    · simpa [Past.add, entering] using ho.erase blk
    · simpa [Past.add, entering] using hp
    · exact fun c hm => (mem_cons.mp (ho.mem.mpr hm)).elim (fun e => e ▸ Nat.le_refl _)
        ((pairwise_cons.mp ho.desc).1 c)
    · rw [← ho.levels, level_cons, level_singleton, if_pos rfl]
      rfl

theorem Right.step (h : Right initial s p) (op : Op) :
    Right initial (stepPast (s, p) op).1 (stepPast (s, p) op).2 ∧
      Served s p.waiting op (s.step op).2.1 (s.step op).2.2 := by
  cases op with
  | wait ctp nonblock mem => exact h.wait ctp nonblock mem
  | post => exact h.post
  | unblock => exact h.releases rfl
  | attach => exact h.releases rfl
  | close => exact h.releases rfl
  | unlink => exact h.releases rfl

/-- In every state reached the semaphore agrees with what has happened, and the next request, whatever
it is, does what it has to do. -/
theorem namedSem_run (ops : List Op) (h : createSem initial = some s) :
    Right initial (ops.foldl stepPast (s, {})).1 (ops.foldl stepPast (s, {})).2 ∧
      ∀ op, Served (ops.foldl stepPast (s, {})).1 (ops.foldl stepPast (s, {})).2.waiting op
        ((ops.foldl stepPast (s, {})).1.step op).2.1 ((ops.foldl stepPast (s, {})).1.step op).2.2 := by
  have hs : Right initial s {} := by
    rw [createSem] at h
    split_ifs at h
    cases h
    exact ⟨by simp [Sem.value]; omega, .nil, .nil⟩
  have hrun : Right initial (ops.foldl stepPast (s, {})).1 (ops.foldl stepPast (s, {})).2 := by
    clear h
    generalize ({} : Past) = p at hs
    induction ops generalizing s p with
    | nil => exact hs
    | cons op ops ih => exact ih _ (hs.step op).1
  exact ⟨hrun, fun op => (hrun.step op).2⟩

/-- The client of priority 9 is released before the one of priority 5, who came first and is then
interrupted. -/
theorem namedSem_run_two : ∃ s, createSem 0 = some s ∧
    Right 0 ([.wait ⟨1, 1, 1, 5⟩ false true, .wait ⟨2, 2, 1, 9⟩ false true, .post, .unblock 1].foldl stepPast (s, {})).1
      ([.wait ⟨1, 1, 1, 5⟩ false true, .wait ⟨2, 2, 1, 9⟩ false true, .post, .unblock 1].foldl stepPast (s, {})).2 ∧
    ([.wait ⟨1, 1, 1, 5⟩ false true, .wait ⟨2, 2, 1, 9⟩ false true, .post, .unblock 1].foldl stepPast (s, {})).2.replied =
      [(⟨2, 2, 1, 9⟩, .eok), (⟨1, 1, 1, 5⟩, .eintr)] :=
  ⟨_, rfl, (namedSem_run _ rfl).1, by decide⟩

end QRV.Path.NamedSem
