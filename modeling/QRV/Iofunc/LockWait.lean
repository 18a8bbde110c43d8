import QRV.Iofunc.Lock
import QRV.Lib.Run

/- The clients that wait for a lock. Each has a ticket, in the order in which they were made to
   wait. The tickets of those on the list of some lock and of those that have been answered are
   all that were given out, each once.

   What is proved:
     1. `waiters_answered` — in every run where there is memory for the pieces of a lock that is
        cut, no client is lost or answered twice, each waits on a lock that is in its way, and a
        client that is told that it has its lock has it, if the lock found its place in the list.
        Memory for new locks and for clients that wait may fail at any time.
     2. `waiters_lost` — without memory for a piece the clients that waited on the lock are neither
        answered nor waiting any more, and a lock that does not find its place is lost although
        its client is told that it has it. -/
namespace QRV.Iofunc
open List

variable {locks before behind : List Lock} {cl : Lock} {r : Request} {adds splits : List Bool} {w : Waiter}
  {s s' : LockState} {ws : List Waiter}

/-! ## The clients on a list -/

theorem waiting_append (l l' : List Lock) : waiting (l ++ l') = waiting l ++ waiting l' := flatMap_append

theorem waiting_cons (cl : Lock) (l : List Lock) : waiting (cl :: l) = cl.blocked ++ waiting l := rfl

/-- Clients wait on locks that are in their way. -/
def Conf (locks : List Lock) : Prop := ∀ cl ∈ locks, ∀ w ∈ cl.blocked, w.req.conflicts cl = true

theorem Conf.append {l l' : List Lock} (h : Conf l) (h' : Conf l') : Conf (l ++ l') := fun cl hcl =>
  (mem_append.mp hcl).elim (h cl) (h' cl)

theorem Conf.left {l l' : List Lock} (h : Conf (l ++ l')) : Conf l := fun cl hcl => h cl (mem_append_left _ hcl)

theorem Conf.right {l l' : List Lock} (h : Conf (l ++ l')) : Conf l' := fun cl hcl => h cl (mem_append_right _ hcl)

theorem Conf.cons {l : List Lock} (hcl : ∀ w ∈ cl.blocked, w.req.conflicts cl = true) (h : Conf l) : Conf (cl :: l) :=
  forall_mem_cons.mpr ⟨hcl, h⟩

theorem Conf.tail {l : List Lock} (h : Conf (cl :: l)) : Conf l := fun e he => h e (.tail _ he)

theorem Conf.bare {l : List Lock} (h : ∀ cl ∈ l, cl.blocked = []) : Conf l := fun cl hcl w hw => by
  rw [h cl hcl] at hw
  exact absurd hw not_mem_nil

theorem waiting_bare {l : List Lock} (h : ∀ cl ∈ l, cl.blocked = []) : waiting l = [] :=
  flatMap_eq_nil_iff.mpr h

/-! ## Attaching -/

theorem attach_some (hconf : Conf locks) {locks' : List Lock} (h : attach w locks = some locks') :
    Conf locks' ∧ (waiting locks').Perm (waiting locks ++ [w]) := by
  induction locks generalizing locks' with
  | nil => cases h
  | cons cl rest ih =>
    rw [attach] at h
    split at h
    case isTrue hc =>
      cases h
      refine ⟨Conf.cons (fun v hv => ?_) hconf.tail, ?_⟩
      · rcases mem_append.mp hv with hv | hv
        · exact hconf cl mem_cons_self v hv
        · obtain rfl := mem_singleton.mp hv
          exact hc
      · rw [waiting_cons, waiting_cons, append_assoc, append_assoc]
        exact perm_append_comm.append_left _
    case isFalse =>
      obtain ⟨rest', hrest, rfl⟩ := Option.map_eq_some_iff.mp h
      obtain ⟨hc, hp⟩ := ih hconf.tail hrest
      refine ⟨Conf.cons (hconf cl mem_cons_self) hc, ?_⟩
      rw [waiting_cons, waiting_cons, append_assoc]
      exact hp.append_left _

/-! ## Entering -/

/-- What becomes of the clients when a request is entered. -/
structure Enters (locks : List Lock) (r : Request) (e : Entered) : Prop where
  conf : Conf e.locks
  perm : (waiting e.locks ++ e.pending).Perm (waiting locks)
  recorded : e.status = .eok → r.fits locks = true → r.recorded e.locks = true
  splits : false ∉ e.splits

theorem recorded_of_mem (hmem : cl ∈ locks) (hscoid : cl.scoid = r.scoid) (htype : cl.type = r.type)
    (hstart : cl.start ≤ r.start) (hstop : r.stop ≤ cl.stop) : r.recorded locks = true := by
  refine any_eq_true.mpr ⟨cl, hmem, ?_⟩
  rw [hscoid, htype, beq_self_eq_true, beq_self_eq_true, Bool.true_and, Bool.true_and]
  exact decide_eq_true ⟨hstart, hstop⟩

theorem lockAdd_enters (before behind : List Lock) (hconf : Conf locks) (hsplits : false ∉ splits) (hl : locks = before ++ behind) :
    Enters locks r (lockAdd locks (before ++ r.lock :: behind) adds splits) := by
  subst hl
  unfold lockAdd
  split
  · refine ⟨hconf.left.append (Conf.cons nofun hconf.right), ?_, fun _ _ => ?_, hsplits⟩
    · rw [append_nil, waiting_append, waiting_append, waiting_cons]
      exact List.Perm.refl _
    · exact recorded_of_mem (mem_append_right _ mem_cons_self) rfl rfl le_rfl le_rfl
  · refine ⟨hconf, ?_, (nofun), hsplits⟩
    rw [append_nil]

theorem exchange_enters (pieces : List Lock) (hbare : ∀ p ∈ pieces, p.blocked = []) (hconf : Conf (before ++ cl :: behind))
    (hsplits : false ∉ splits) (hrec : r.recorded pieces = true) :
    Enters (before ++ cl :: behind) r ⟨before ++ (pieces ++ behind), cl.blocked, .eok, adds, splits⟩ := by
  refine ⟨hconf.left.append ((Conf.bare hbare).append hconf.right.tail), ?_, fun _ _ => ?_, hsplits⟩
  · rw [waiting_append, waiting_append, waiting_append, waiting_cons, waiting_bare hbare, nil_append, append_assoc]
    exact perm_append_comm.append_left _
  · obtain ⟨p, hp, hc⟩ := any_eq_true.mp hrec
    exact any_eq_true.mpr ⟨p, mem_append_right _ (mem_append_left _ hp), hc⟩

theorem headD_of_not_mem (h : false ∉ splits) : ¬ splits.headD true = false := by
  cases splits with
  | nil => exact nofun
  | cons b bs =>
    intro hc
    exact h (hc ▸ mem_cons_self)

theorem tail_of_not_mem (h : false ∉ splits) : false ∉ splits.tail := fun hc => h (mem_of_mem_tail hc)

theorem lockSplit_enters (hconf : Conf locks) (hsplits : false ∉ splits) (hl : locks = before ++ cl :: behind)
    (hscoid : cl.scoid = r.scoid) : Enters locks r (lockSplit before cl behind r adds splits) := by
  subst hl
  have hs1 := tail_of_not_mem hsplits
  unfold lockSplit
  split
  · exact exchange_enters [⟨cl.scoid, r.type, r.start, r.stop, []⟩] (by simp) hconf hsplits
      (recorded_of_mem mem_cons_self hscoid rfl le_rfl le_rfl)
  split
  · rw [if_neg (headD_of_not_mem hsplits), if_neg (headD_of_not_mem hs1)]
    exact exchange_enters [⟨cl.scoid, cl.type, cl.start, r.start - 1, []⟩, ⟨cl.scoid, r.type, r.start, r.stop, []⟩,
      ⟨cl.scoid, cl.type, r.stop + 1, cl.stop, []⟩] (by simp) hconf (tail_of_not_mem hs1)
      (recorded_of_mem (.tail _ mem_cons_self) hscoid rfl le_rfl le_rfl)
  rw [if_neg (headD_of_not_mem hsplits)]
  split
  · exact exchange_enters [⟨cl.scoid, r.type, r.start, r.stop, []⟩, ⟨cl.scoid, cl.type, r.stop + 1, cl.stop, []⟩] (by simp)
      hconf hs1 (recorded_of_mem mem_cons_self hscoid rfl le_rfl le_rfl)
  · exact exchange_enters [⟨cl.scoid, cl.type, cl.start, r.start - 1, []⟩, ⟨cl.scoid, r.type, r.start, r.stop, []⟩]
      (by simp) hconf hs1 (recorded_of_mem (.tail _ mem_cons_self) hscoid rfl le_rfl le_rfl)

/-- A lock that grows over a request that overlaps it stays in the way of those it is in the way of. -/
theorem conflicts_grown (hown : r.own cl = true) {q : Request} (h : q.conflicts cl = true) :
    q.conflicts { cl with start := min cl.start r.start, stop := max cl.stop r.stop } = true := by
  have hover := (Bool.and_eq_true_iff.mp hown).2
  simp only [Request.conflicts, overlap, Bool.and_eq_true, Bool.or_eq_true, decide_eq_true_eq] at h hover ⊢
  refine ⟨⟨h.1.1, ?_⟩, h.2⟩
  omega

theorem merge_enters (hconf : Conf locks) (hsplits : false ∉ splits) (hl : locks = before ++ cl :: behind)
    (hown : r.own cl = true) (htype : cl.type = r.type) :
    Enters locks r
      ⟨before ++ { cl with start := min cl.start r.start, stop := max cl.stop r.stop } :: behind, [], .eok, adds,
        splits⟩ := by
  subst hl
  refine ⟨?_, ?_, fun _ _ => ?_, hsplits⟩
  · refine hconf.left.append (Conf.cons (fun w hw => ?_) hconf.right.tail)
    exact conflicts_grown hown (hconf cl (mem_append_right _ mem_cons_self) w hw)
  · rw [append_nil, waiting_append, waiting_append]
    exact List.Perm.refl _
  · exact recorded_of_mem (mem_append_right _ mem_cons_self) (beq_iff_eq.mp (Bool.and_eq_true_iff.mp hown).1)
      htype (Nat.min_le_right _ _) (Nat.le_max_right _ _)

theorem enter_spec (r : Request) (adds : List Bool) (hconf : Conf locks) (hsplits : false ∉ splits) :
    Enters locks r (enter locks r adds splits) := by
  cases locks with
  | nil => exact lockAdd_enters [] [] hconf hsplits rfl
  | cons first rest =>
    unfold enter
    dsimp only
    split
    case isTrue => exact lockAdd_enters [] _ hconf hsplits rfl
    case isFalse hstop =>
      have hparts := takeWhile_append_dropWhile (p := r.passes) (l := first :: rest)
      cases hdrop : (first :: rest).dropWhile r.passes with
      | nil => exact lockAdd_enters _ _ hconf hsplits (hdrop ▸ hparts.symm)
      | cons cl behind =>
        rw [hdrop] at hparts
        dsimp only
        split
        case isTrue hown =>
          have hscoid : cl.scoid = r.scoid := beq_iff_eq.mp (Bool.and_eq_true_iff.mp hown).1
          split
          case isTrue htype => exact merge_enters hconf hsplits hparts.symm hown htype
          case isFalse => exact lockSplit_enters hconf hsplits hparts.symm hscoid
        case isFalse hown =>
          split
          case h_1 htake =>
            -- the new lock is lost, so the request does not fit
            rw [htake] at hparts
            obtain ⟨rfl, rfl⟩ := cons.inj hparts
            have hpass : r.passes cl = false := by
              by_contra hc
              rw [takeWhile_cons_of_pos (Bool.not_eq_false _ ▸ hc)] at htake
              cases htake
            have hfits : r.fits (cl :: behind) = false := by
              rw [Request.fits, decide_eq_false hstop, hpass, Bool.eq_false_iff.mpr hown]
              rfl
            unfold lockAdd
            split
            · refine ⟨hconf, ?_, fun _ h => absurd h (by rw [hfits]; exact Bool.false_ne_true), hsplits⟩
              rw [append_nil]
            · refine ⟨hconf, ?_, (nofun), hsplits⟩
              rw [append_nil]
          case h_2 => exact lockAdd_enters _ _ hconf hsplits hparts.symm

/-! ## Unlocking -/

/-- What becomes of the clients when bytes are unlocked. -/
structure Unlocks (locks : List Lock) (u : Unlocked) (ws : List Waiter) : Prop where
  pending : u.pending = some ws
  conf : Conf u.locks
  perm : (waiting u.locks ++ ws).Perm (waiting locks)
  splits : false ∉ u.splits

theorem Unlocks.keep {u : Unlocked} {rest : List Lock} (h : Unlocks rest u ws)
    (hcl : ∀ w ∈ cl.blocked, w.req.conflicts cl = true) : Unlocks (cl :: rest) (u.after [cl] []) ws := by
  refine ⟨?_, Conf.cons hcl h.conf, ?_, h.splits⟩
  · rw [Unlocked.after, h.pending]
    rfl
  · rw [Unlocked.after, waiting_append, waiting_cons, waiting_cons, show waiting [] = [] from rfl, append_nil,
      append_assoc]
    exact h.perm.append_left _

theorem Unlocks.strip {u : Unlocked} {rest : List Lock} (h : Unlocks rest u ws) (pieces : List Lock)
    (hbare : ∀ p ∈ pieces, p.blocked = []) :
    Unlocks (cl :: rest) (u.after pieces cl.blocked) (cl.blocked ++ ws) := by
  refine ⟨?_, (Conf.bare hbare).append h.conf, ?_, h.splits⟩
  · rw [Unlocked.after, h.pending]
    rfl
  · rw [Unlocked.after, waiting_append, waiting_bare hbare, waiting_cons, nil_append]
    have hswap : (waiting u.locks ++ (cl.blocked ++ ws)).Perm (cl.blocked ++ (waiting u.locks ++ ws)) := by
      rw [← append_assoc, ← append_assoc]
      exact perm_append_comm.append_right _
    exact hswap.trans (h.perm.append_left _)

theorem unlockLoop_spec (scoid start stop : Nat) (hconf : Conf locks) (hsplits : false ∉ splits) :
    ∃ pending, Unlocks locks (unlockLoop scoid start stop locks splits) pending := by
  induction locks generalizing splits with
  | nil => exact ⟨[], rfl, hconf, List.Perm.refl _, hsplits⟩
  | cons cl rest ih =>
    unfold unlockLoop
    obtain ⟨pending, h⟩ := ih hconf.tail hsplits
    split
    · exact ⟨pending, h.keep (hconf cl mem_cons_self)⟩
    split
    · exact ⟨_, h.strip [] (by simp)⟩
    split
    · rw [if_neg (headD_of_not_mem hsplits)]
      obtain ⟨pending, h⟩ := ih hconf.tail (tail_of_not_mem hsplits)
      exact ⟨_, h.strip _ (by simp)⟩
    split <;> exact ⟨_, h.strip _ (by simp)⟩

/-! ## Looking at the clients again -/

/-- A client that is told that it has its lock has it, where the lock found its place. -/
def Answered (answers : List Answer) : Prop := ∀ a ∈ answers, a.status = .eok → a.fits = true → a.recorded = true

def tickets (ws : List Waiter) : List Nat := ws.map Waiter.ticket

/-- The tickets of the clients that wait and of those that have been answered. -/
def LockState.tickets (s : LockState) : List Nat := Iofunc.tickets (waiting s.locks) ++ s.answers.map Answer.ticket

/-- The clients `ws`, that are on no list, have been put on a list or answered. -/
structure Served (s : LockState) (ws : List Waiter) (s' : LockState) : Prop where
  conf : Conf s'.locks
  splits : false ∉ s'.splits
  next : s'.next = s.next
  count : (waiting s'.locks).length ≤ (waiting s.locks).length + ws.length
  kept : ∀ t, s'.tickets.count t = s.tickets.count t + (tickets ws).count t
  answered : Answered s.answers → Answered s'.answers

theorem Served.refl (hconf : Conf s.locks) (hsplits : false ∉ s.splits) : Served s [] s :=
  ⟨hconf, hsplits, rfl, le_rfl, fun _ => rfl, id⟩

theorem tickets_nil : tickets [] = [] := rfl

theorem tickets_cons (w : Waiter) (ws : List Waiter) : tickets (w :: ws) = w.ticket :: tickets ws := rfl

theorem Served.cons {s1 : LockState} (h : Served s [w] s1) (h' : Served s1 ws s') : Served s (w :: ws) s' where
  conf := h'.conf
  splits := h'.splits
  next := h'.next.trans h.next
  count := by
    have h1 := h.count
    have h2 := h'.count
    rw [length_singleton] at h1
    rw [length_cons]
    omega
  kept := fun t => by
    rw [h'.kept, h.kept, tickets_cons, tickets_cons, count_cons, count_cons, tickets_nil,
      count_nil]
    omega
  answered := fun ha => h'.answered (h.answered ha)

theorem tickets_count_perm {ws ws' : List Waiter} (h : ws.Perm ws') (t : Nat) :
    (tickets ws).count t = (tickets ws').count t := (h.map _).count_eq t

theorem tickets_append (ws ws' : List Waiter) : tickets (ws ++ ws') = tickets ws ++ tickets ws' := map_append

theorem LockState.tickets_count (s : LockState) (t : Nat) :
    s.tickets.count t = (Iofunc.tickets (waiting s.locks)).count t + (s.answers.map Answer.ticket).count t :=
  count_append

theorem Served.attach (hconf : Conf s.locks) (hsplits : false ∉ s.splits) {locks : List Lock}
    (h : Iofunc.attach w s.locks = some locks) : Served s [w] { s with locks := locks } := by
  obtain ⟨hc, hp⟩ := attach_some hconf h
  refine ⟨hc, hsplits, rfl, ?_, fun t => ?_, id⟩
  · rw [hp.length_eq, length_append]
  · rw [LockState.tickets_count, LockState.tickets_count, tickets_count_perm hp, tickets_append, count_append]
    dsimp only
    omega

section

/-! What is proved of looking at clients again, of granting one and of entering a lock is about a
list on which no more than `depth` clients wait. -/

variable {depth : Nat} {again : LockState → List Waiter → Option LockState}

/-- Clients that are looked at again are served. -/
def Serves (depth : Nat) (again : LockState → List Waiter → Option LockState) : Prop :=
  ∀ s ws, Conf s.locks → false ∉ s.splits → (waiting s.locks).length + ws.length ≤ depth →
    ∃ s', again s ws = some s' ∧ Served s ws s'

theorem Serves.freed (hagain : Serves depth again) (s1 : LockState) {pending : List Waiter} (hconf : Conf s1.locks)
    (hsplits : false ∉ s1.splits) (hperm : (waiting s1.locks ++ pending).Perm (waiting s.locks))
    (hdepth : (waiting s.locks).length ≤ depth) (hnext : s1.next = s.next) (hanswers : s1.answers = s.answers) :
    ∃ s', (if pending = [] then some s1 else again s1 pending) = some s' ∧ Served s [] s' := by
  have hlen := hperm.length_eq
  rw [length_append] at hlen
  have hserved : ∃ s', (if pending = [] then some s1 else again s1 pending) = some s' ∧ Served s1 pending s' := by
    by_cases hp : pending = []
    · rw [if_pos hp, hp]
      exact ⟨s1, rfl, Served.refl hconf hsplits⟩
    · rw [if_neg hp]
      exact hagain _ _ hconf hsplits (by omega)
  obtain ⟨s', hs', h⟩ := hserved
  refine ⟨s', hs', h.conf, h.splits, h.next.trans hnext, ?_, fun t => ?_, fun ha => h.answered (hanswers ▸ ha)⟩
  · have := h.count
    rw [length_nil]
    omega
  · have hc := tickets_count_perm hperm t
    rw [tickets_append, count_append] at hc
    rw [h.kept, LockState.tickets_count s1, LockState.tickets_count s, hanswers, tickets_nil, count_nil]
    omega

section
variable (hagain : Serves depth again) (hconf : Conf s.locks) (hsplits : false ∉ s.splits)
  (hdepth : (waiting s.locks).length ≤ depth)
include hagain hconf hsplits hdepth

/-- A lock is entered, and the clients of a lock that has changed are served. -/
theorem lockScoid_spec (r : Request) :
    ∃ s' status recorded, lockScoid again s r = some (s', status, recorded) ∧ Served s [] s' ∧
      (status = .eok → r.fits s.locks = true → recorded = true) := by
  have he := enter_spec r s.adds hconf hsplits
  unfold lockScoid
  dsimp only
  generalize enter s.locks r s.adds s.splits = e at he
  obtain ⟨s', hs', h⟩ := hagain.freed { s with locks := e.locks, adds := e.adds, splits := e.splits } he.conf
    he.splits he.perm hdepth rfl rfl
  rw [hs']
  exact ⟨s', e.status, r.recorded e.locks, rfl, h, he.recorded⟩

theorem grant_spec (w : Waiter) :
    ∃ s', grant again s w = some s' ∧ Served s [w] s' := by
  obtain ⟨s', status, recorded, hlock, h, hrec⟩ := lockScoid_spec hagain hconf hsplits hdepth w.req
  refine ⟨{ s' with answers := s'.answers ++ [⟨w.ticket, w.rcvid, status, w.req.fits s.locks, recorded⟩] }, ?_,
    h.conf, h.splits, h.next, ?_, fun t => ?_, fun ha a hmem hst hf => ?_⟩
  · rw [grant, hlock]
    rfl
  · have := h.count
    rw [length_nil] at this
    dsimp only
    rw [length_singleton]
    omega
  · have hk := h.kept t
    rw [LockState.tickets_count s', tickets_nil, count_nil] at hk
    rw [LockState.tickets_count, tickets_cons]
    rw [map_append, count_append, map_cons, map_nil, tickets_nil]
    dsimp only
    omega
  · rcases mem_append.mp hmem with hmem | hmem
    · exact h.answered ha a hmem hst hf
    · obtain rfl := mem_singleton.mp hmem
      exact hrec hst hf

end

/-- The client granted is on no list any more, so one less can be met further down. -/
theorem reblockWith_spec (hagain : Serves depth again) : Serves (depth + 1) (reblockWith (grant again)) := by
  intro s ws
  induction ws generalizing s with
  | nil => exact fun hconf hsplits _ => ⟨s, rfl, Served.refl hconf hsplits⟩
  | cons w ws ih =>
    intro hconf hsplits hdepth
    rw [length_cons] at hdepth
    rw [reblockWith]
    cases hat : attach w s.locks with
    | some locks =>
      have h1 := Served.attach hconf hsplits hat
      have hc := h1.count
      rw [length_singleton] at hc
      obtain ⟨s', hs', h'⟩ := ih { s with locks := locks } h1.conf h1.splits (by omega)
      exact ⟨s', hs', h1.cons h'⟩
    | none =>
      obtain ⟨s1, hs1, h1⟩ := grant_spec hagain hconf hsplits (by omega) w
      have hc := h1.count
      rw [length_singleton] at hc
      obtain ⟨s', hs', h'⟩ := ih s1 h1.conf h1.splits (by omega)
      refine ⟨s', ?_, h1.cons h'⟩
      rw [hs1, Option.bind_some, hs']

theorem reblock_spec : ∀ depth, Serves depth (reblock depth)
  | 0 => fun s ws hconf hsplits hdepth => by
    obtain rfl := length_eq_zero_iff.mp (show ws.length = 0 by omega)
    exact ⟨s, rfl, Served.refl hconf hsplits⟩
  | depth + 1 => reblockWith_spec (reblock_spec depth)

end

/-! ## Runs -/

/-- Whether there is memory for the pieces of locks that are cut, call by call. -/
def LockOp.memory : LockOp → List Bool
  | .lock _ _ _ _ _ splits => splits
  | .unlock _ _ _ _ splits => splits

structure LockState.Inv (s : LockState) : Prop where
  conf : Conf s.locks
  kept : s.tickets.Perm (List.range s.next)
  answered : Answered s.answers

theorem LockState.inv_boot : LockState.boot.Inv :=
  ⟨nofun, List.Perm.refl _, nofun⟩

theorem LockState.Inv.served (h : s.Inv) (hs : Served s [] s') : s'.Inv := by
  refine ⟨hs.conf, ?_, hs.answered h.answered⟩
  rw [hs.next, perm_iff_count]
  intro t
  rw [hs.kept, tickets_nil, count_nil, Nat.add_zero]
  exact h.kept.count_eq t

theorem LockState.Inv.wait (h : s.Inv) (hw : w.ticket = s.next) (hat : attach w s.locks = some locks) :
    LockState.Inv { s with locks := locks, next := s.next + 1 } := by
  obtain ⟨hc, hp⟩ := attach_some h.conf hat
  refine ⟨hc, ?_, h.answered⟩
  rw [perm_iff_count]
  intro t
  have hk := h.kept.count_eq t
  rw [LockState.tickets_count] at hk ⊢
  dsimp only
  rw [tickets_count_perm hp, tickets_append, count_append, range_succ, count_append, ← hk, tickets_cons,
    tickets_nil, hw]
  omega

theorem unlockScoid_spec (scoid start stop : Nat) (hconf : Conf s.locks) (hsplits : false ∉ s.splits) :
    ∃ s', unlockScoid s scoid start stop = some s' ∧ Served s [] s' := by
  obtain ⟨pending, hu⟩ := unlockLoop_spec scoid start stop hconf hsplits
  unfold unlockScoid
  dsimp only
  generalize unlockLoop scoid start stop s.locks s.splits = u at hu
  rw [hu.pending]
  exact (reblock_spec _).freed { s with locks := u.locks, splits := u.splits } hu.conf hu.splits hu.perm le_rfl rfl rfl

theorem LockState.Inv.memory (h : s.Inv) (adds splits : List Bool) :
    LockState.Inv { s with adds := adds, splits := splits } := ⟨h.conf, h.kept, h.answered⟩

theorem LockState.Inv.step (h : s.Inv) {op : LockOp} (hsplits : false ∉ op.memory) :
    ∃ s', s.step op = some s' ∧ s'.Inv := by
  cases op with
  | lock rcvid r wait mem adds splits =>
    have hm := h.memory adds splits
    cases hat : attach ⟨s.next, rcvid, r⟩ s.locks with
    | some locks =>
      rw [LockState.step]
      rw [hat]
      dsimp only
      split
      · exact ⟨_, rfl, hm.wait rfl hat⟩
      · exact ⟨_, rfl, hm⟩
    | none =>
      obtain ⟨s', status, recorded, hlock, hs, -⟩ :=
        lockScoid_spec (reblock_spec (waiting s.locks).length) hm.conf hsplits le_rfl r
      have hstep : s.step (.lock rcvid r wait mem adds splits) = some s' := by
        rw [LockState.step]
        rw [hat]
        rw [hlock]
        rfl
      exact ⟨s', hstep, hm.served hs⟩
  | unlock scoid start stop adds splits =>
    have hm := h.memory adds splits
    obtain ⟨s', hstep, hs⟩ := unlockScoid_spec scoid start stop hm.conf hsplits
    exact ⟨s', hstep, hm.served hs⟩

/-- In every run where there is memory for the pieces of locks, each client that was made to wait is
on one list or has been answered, and only once; it waits on a lock that is in its way; and if it is
told that it has its lock, that lock was in the list, if it found its place in the list before. -/
theorem waiters_answered (ops : List LockOp) (hops : ∀ op ∈ ops, false ∉ op.memory) :
    ∃ s, Run.exec LockState.step ops LockState.boot = some s ∧ s.tickets.Perm (List.range s.next) ∧
      (∀ cl ∈ s.locks, ∀ w ∈ cl.blocked, w.req.conflicts cl = true) ∧
      ∀ a ∈ s.answers, a.status = .eok → a.fits = true → a.recorded = true := by
  have halong : Run.Along LockState.step (fun _ op => false ∉ op.memory) ops LockState.boot := Run.along_of_forall hops
  obtain ⟨s, hs, h⟩ := Run.total (fun h hop => LockState.Inv.step h hop) LockState.inv_boot halong
  exact ⟨s, hs, h.kept, h.conf, h.answered⟩

/-- Two clients wait for bytes of a lock that is then cut, and one of them goes on to wait for the
other. -/
def sharedQueue : List LockOp :=
  [.lock 10 ⟨1, .wr, 0, 98, by decide⟩ false true [] [], .lock 20 ⟨2, .wr, 40, 59, by decide⟩ true true [] [],
    .lock 30 ⟨3, .rd, 50, 69, by decide⟩ true true [] [], .lock 40 ⟨4, .rd, 0, 9, by decide⟩ true false [] [],
    .unlock 1 40 79 [true] [true], .unlock 2 0 99 [false] []]

theorem waiters_answered_shared : ∃ s, Run.exec LockState.step sharedQueue LockState.boot = some s ∧
    s.tickets.Perm (List.range s.next) ∧
    (∀ cl ∈ s.locks, ∀ w ∈ cl.blocked, w.req.conflicts cl = true) ∧
    ∀ a ∈ s.answers, a.status = .eok → a.fits = true → a.recorded = true :=
  waiters_answered sharedQueue (by decide)

/-- A client waits for bytes of a lock from the middle of which others are unlocked without memory
for the second piece: it is forgotten. A client is told that it has its lock, which was not entered
because it begins in front of the first lock of the list. -/
theorem waiters_lost :
    (∃ s, Run.exec LockState.step [.lock 10 ⟨1, .wr, 0, 99, by decide⟩ false true [] [],
        .lock 20 ⟨2, .wr, 40, 59, by decide⟩ true true [] [], .unlock 1 40 79 [] [false]] LockState.boot = some s ∧
      s.next = 1 ∧ waiting s.locks = [] ∧ s.answers = []) ∧
    ∃ s, Run.exec LockState.step [.lock 10 ⟨1, .wr, 5, 7, by decide⟩ false true [] [],
        .lock 30 ⟨3, .rd, 10, 20, by decide⟩ false true [] [], .lock 20 ⟨2, .rd, 5, 15, by decide⟩ true true [] [],
        .unlock 1 5 7 [] []] LockState.boot = some s ∧
      s.answers = [⟨0, 20, .eok, false, false⟩] ∧ s.locks = [⟨3, .rd, 10, 20, []⟩] := by
  refine ⟨⟨_, rfl, ?_, ?_, ?_⟩, ⟨_, rfl, ?_, ?_⟩⟩ <;> decide +kernel

end QRV.Iofunc
