import QRV.Iofunc.Lock
import QRV.Lib.Run

/- The list of locks against what record locks are: for each client and each byte, the type of
   the last lock it has asked for there, unless it has unlocked the byte since.

   What is proved:
     1. `locks_posix` — in every run whose requests meet the condition (`Placed`) the list has,
        for each client and byte, exactly the one lock that is due, and no two clients hold a
        byte that one of them has locked for writing.
     2. `locks_not_posix` — a read lock that begins before the first lock of the list is not
        entered at all, and one that joins two locks of its client leaves bytes locked twice. -/
namespace QRV.Iofunc
open List

variable {locks before behind : List Lock} {cl : Lock} {r : Request} {scoid x : Nat}

/-! ## The locks on a byte -/

def Lock.covers (cl : Lock) (x : Nat) : Bool := decide (cl.start ≤ x ∧ x ≤ cl.stop)

/-- The types of the locks that a client holds on a byte. -/
def held (locks : List Lock) (scoid x : Nat) : List LockType :=
  (locks.filter fun cl => cl.scoid == scoid && cl.covers x).map Lock.type

theorem held_append (l l' : List Lock) (scoid x : Nat) : held (l ++ l') scoid x = held l scoid x ++ held l' scoid x := by
  rw [held, filter_append, map_append]
  rfl

theorem held_cons (cl : Lock) (l : List Lock) (scoid x : Nat) :
    held (cl :: l) scoid x = (if cl.scoid == scoid && cl.covers x then [cl.type] else []) ++ held l scoid x := by
  rw [held, filter_cons]
  split <;> rfl

/-- The request asks for the byte. -/
def Request.covers (r : Request) (x : Nat) : Prop := r.start ≤ x ∧ x ≤ r.stop

instance (r : Request) (x : Nat) : Decidable (r.covers x) := inferInstanceAs (Decidable (_ ∧ _))

theorem overlap_iff {start stop start' stop' : Nat} :
    overlap start stop start' stop' = true ↔ (start ≤ start' ∧ start' ≤ stop) ∨ (start' ≤ start ∧ start ≤ stop') := by
  simp [overlap]

theorem own_of_covers (hscoid : cl.scoid = r.scoid) (hcl : cl.covers x = true) (hx : r.covers x) : r.own cl = true := by
  have hcl : cl.start ≤ x ∧ x ≤ cl.stop := of_decide_eq_true hcl
  obtain ⟨h1, h2⟩ := hx
  rw [Request.own, hscoid, beq_self_eq_true, Bool.true_and, overlap_iff]
  omega

theorem held_off (h : ∀ cl ∈ locks, r.own cl = false) (hx : r.covers x) : held locks r.scoid x = [] := by
  rw [held, map_eq_nil_iff, filter_eq_nil_iff]
  intro cl hcl hc
  obtain ⟨hs, hcov⟩ := Bool.and_eq_true_iff.mp hc
  exact Bool.false_ne_true ((h cl hcl).symm.trans (own_of_covers (beq_iff_eq.mp hs) hcov hx))

theorem held_other {owner : Nat} (h : ∀ cl ∈ locks, cl.scoid = owner) (hne : scoid ≠ owner) : held locks scoid x = [] := by
  rw [held, map_eq_nil_iff, filter_eq_nil_iff]
  intro cl hcl hc
  exact hne ((beq_iff_eq.mp (Bool.and_eq_true_iff.mp hc).1).symm.trans (h cl hcl))

/-! ## Entering -/

/-- What is held when a request has been entered. -/
def HeldAfter (locks locks' : List Lock) (r : Request) : Prop :=
  ∀ scoid x, held locks' scoid x = if scoid = r.scoid ∧ r.covers x then [r.type] else held locks scoid x

theorem add_held (h : ∀ cl ∈ before ++ behind, r.own cl = false) :
    HeldAfter (before ++ behind) (before ++ r.lock :: behind) r := by
  intro scoid x
  rw [held_append, held_cons, held_append]
  by_cases hx : scoid = r.scoid ∧ r.covers x
  · obtain ⟨rfl, hcov⟩ := hx
    have hnew : (r.lock.scoid == r.scoid && r.lock.covers x) = true := by
      rw [show r.lock.scoid = r.scoid from rfl, beq_self_eq_true, Bool.true_and]
      exact decide_eq_true hcov
    rw [if_pos hnew, if_pos ⟨rfl, hcov⟩, held_off (fun cl hcl => h cl (mem_append_left _ hcl)) hcov,
      held_off (fun cl hcl => h cl (mem_append_right _ hcl)) hcov]
    rfl
  · have hnew : ¬ (r.lock.scoid == scoid && r.lock.covers x) = true := fun hc => by
      obtain ⟨hs, hcov⟩ := Bool.and_eq_true_iff.mp hc
      exact hx ⟨(beq_iff_eq.mp hs).symm, of_decide_eq_true hcov⟩
    rw [if_neg hnew, if_neg hx, nil_append]

/-- Pieces take the place of the one lock of the client that the request overlaps. -/
theorem exchange_held (pieces : List Lock) (h : ∀ cl ∈ before ++ behind, r.own cl = false) (hcl : cl.scoid = r.scoid)
    (hpieces : ∀ p ∈ pieces, p.scoid = r.scoid)
    (hheld : ∀ x, held pieces r.scoid x = if r.covers x then [r.type] else held [cl] r.scoid x) :
    HeldAfter (before ++ cl :: behind) (before ++ (pieces ++ behind)) r := by
  intro scoid x
  rw [held_append, held_append, held_append, show cl :: behind = [cl] ++ behind from rfl, held_append]
  by_cases hs : scoid = r.scoid
  · subst hs
    rw [hheld]
    by_cases hx : r.covers x
    · rw [if_pos hx, if_pos ⟨rfl, hx⟩, held_off (fun cl hcl => h cl (mem_append_left _ hcl)) hx,
        held_off (fun cl hcl => h cl (mem_append_right _ hcl)) hx]
      rfl
    · rw [if_neg hx, if_neg fun hc => hx hc.2]
  · rw [if_neg fun hc => hs hc.1, held_other hpieces hs, held_other (fun p hp => mem_singleton.mp hp ▸ hcl) hs]

theorem held_single (cl : Lock) (x : Nat) :
    held [cl] cl.scoid x = if cl.start ≤ x ∧ x ≤ cl.stop then [cl.type] else [] := by
  rw [held_cons, beq_self_eq_true, Bool.true_and, Lock.covers, held]
  by_cases hx : cl.start ≤ x ∧ x ≤ cl.stop
  · rw [if_pos hx, if_pos (decide_eq_true hx)]
    rfl
  · rw [if_neg hx, if_neg (by simpa using hx)]
    rfl

theorem held_piece (scoid : Nat) (type : LockType) (start stop : Nat) (l : List Lock) (x : Nat) :
    held (⟨scoid, type, start, stop, []⟩ :: l) scoid x =
      (if start ≤ x ∧ x ≤ stop then [type] else []) ++ held l scoid x := by
  rw [show (⟨scoid, type, start, stop, []⟩ : Lock) :: l = [⟨scoid, type, start, stop, []⟩] ++ l from rfl, held_append]
  exact congrArg (· ++ held l scoid x) (held_single ⟨scoid, type, start, stop, []⟩ x)

theorem held_nil (scoid x : Nat) : held [] scoid x = [] := rfl

/-- What `enter` gives when nobody waits. -/
structure EnteredAs (locks : List Lock) (r : Request) (e : Entered) : Prop where
  status : e.status = .eok
  pending : e.pending = []
  bare : ∀ cl ∈ e.locks, cl.blocked = []
  held : HeldAfter locks e.locks r


theorem bare_exchange (pieces : List Lock) (hbare : ∀ e ∈ before ++ cl :: behind, e.blocked = [])
    (hpieces : ∀ e ∈ pieces, e.blocked = []) :
    ∀ e ∈ before ++ (pieces ++ behind), e.blocked = [] := by
  obtain ⟨hbefore, hbehind⟩ := forall_mem_append.mp hbare
  exact forall_mem_append.mpr ⟨hbefore, forall_mem_append.mpr ⟨hpieces, (forall_mem_cons.mp hbehind).2⟩⟩

theorem own_scoid (h : r.own cl = true) : cl.scoid = r.scoid := beq_iff_eq.mp (Bool.and_eq_true_iff.mp h).1

section
variable (h : ∀ e ∈ before ++ behind, r.own e = false) (hown : r.own cl = true)
include h hown

theorem lockSplit_entered (hbare : ∀ e ∈ before ++ cl :: behind, e.blocked = []) :
    EnteredAs (before ++ cl :: behind) r (lockSplit before cl behind r [] []) := by
  have hs := own_scoid hown
  have hover := overlap_iff.mp (Bool.and_eq_true_iff.mp hown).2
  have hle := r.le
  have hblocked : cl.blocked = [] := hbare cl (mem_append_right _ mem_cons_self)
  have hdone : ∀ pieces : List Lock, (∀ e ∈ pieces, e.blocked = []) → (∀ p ∈ pieces, p.scoid = r.scoid) →
      (∀ x, held pieces cl.scoid x = if r.start ≤ x ∧ x ≤ r.stop then [r.type]
        else if cl.start ≤ x ∧ x ≤ cl.stop then [cl.type] else []) →
      EnteredAs (before ++ cl :: behind) r ⟨before ++ (pieces ++ behind), cl.blocked, .eok, [], []⟩ :=
    fun pieces hb hsc hheld => ⟨rfl, hblocked, bare_exchange pieces hbare hb, exchange_held pieces h hs hsc fun x => by
      rw [← hs, hheld, held_single]
      rfl⟩
  unfold lockSplit
  split
  · -- the request covers the lock
    refine hdone [⟨cl.scoid, r.type, r.start, r.stop, []⟩] (by simp) (by simp [hs]) fun x => ?_
    rw [held_piece, held_nil]
    split_ifs <;> first | rfl | omega
  split
  · -- the lock covers the request
    refine hdone [⟨cl.scoid, cl.type, cl.start, r.start - 1, []⟩, ⟨cl.scoid, r.type, r.start, r.stop, []⟩,
      ⟨cl.scoid, cl.type, r.stop + 1, cl.stop, []⟩] (by simp) (by simp [hs]) fun x => ?_
    rw [held_piece, held_piece, held_piece, held_nil]
    split_ifs <;> first | rfl | omega
  rw [if_neg (by simp)]
  split
  · -- the request ends in the lock
    refine hdone [⟨cl.scoid, r.type, r.start, r.stop, []⟩, ⟨cl.scoid, cl.type, r.stop + 1, cl.stop, []⟩] (by simp)
      (by simp [hs]) fun x => ?_
    rw [held_piece, held_piece, held_nil]
    split_ifs <;> first | rfl | omega
  · -- the request begins in the lock
    refine hdone [⟨cl.scoid, cl.type, cl.start, r.start - 1, []⟩, ⟨cl.scoid, r.type, r.start, r.stop, []⟩] (by simp)
      (by simp [hs]) fun x => ?_
    rw [held_piece, held_piece, held_nil]
    split_ifs <;> first | rfl | omega

/-- The lock of the client and the request in one. -/
def Request.joined (r : Request) (cl : Lock) : Lock :=
  { cl with start := min cl.start r.start, stop := max cl.stop r.stop }

theorem merge_entered (htype : cl.type = r.type) (hbare : ∀ e ∈ before ++ cl :: behind, e.blocked = []) :
    EnteredAs (before ++ cl :: behind) r ⟨before ++ r.joined cl :: behind, [], .eok, [], []⟩ := by
  have hs := own_scoid hown
  have hover := overlap_iff.mp (Bool.and_eq_true_iff.mp hown).2
  have hblocked : cl.blocked = [] := hbare cl (mem_append_right _ mem_cons_self)
  refine ⟨rfl, rfl, bare_exchange [r.joined cl] hbare (by simp [Request.joined, hblocked]),
    exchange_held [r.joined cl] h hs (by simp [Request.joined, hs]) fun x => ?_⟩
  have hjoined : held [r.joined cl] cl.scoid x =
      if min cl.start r.start ≤ x ∧ x ≤ max cl.stop r.stop then [cl.type] else [] := held_single (r.joined cl) x
  rw [← hs, hjoined, held_single cl]
  by_cases hx : r.start ≤ x ∧ x ≤ r.stop
  · rw [if_pos (by omega), if_pos (show r.covers x from hx), htype]
  · rw [if_neg (show ¬ r.covers x from hx)]
    exact if_congr (by omega) rfl rfl

end

/-- When a lock request does as it should: it overlaps at most one lock of its own, and the scan
comes to that lock; or it overlaps none, and does not begin before the first lock of the list and
overlap it. -/
def Placed (locks : List Lock) (r : Request) : Prop :=
  match locks.filter r.own with
  | [] => r.fits locks = true
  | [_] => ∀ e ∈ locks.takeWhile fun e => !r.own e, e.start ≤ r.start
  | _ => False

instance (locks : List Lock) (r : Request) : Decidable (Placed locks r) := by
  unfold Placed
  split <;> infer_instance

theorem passes_of_not_own (hown : r.own cl = false) (h : cl.start ≤ r.start) : r.passes cl = true := by
  rw [Request.passes, hown, Bool.not_false, Bool.true_and]
  exact decide_eq_true h

theorem enter_new (hbare : ∀ e ∈ locks, e.blocked = []) (hnone : ∀ e ∈ locks, r.own e = false)
    (hfits : r.fits locks = true) : EnteredAs locks r (enter locks r [] []) := by
  have hnew : ∀ before behind, locks = before ++ behind →
      EnteredAs locks r (lockAdd locks (before ++ r.lock :: behind) [] []) := fun before behind hl => by
    obtain ⟨hbefore, hbehind⟩ := forall_mem_append.mp (hl ▸ hbare)
    exact ⟨rfl, rfl, forall_mem_append.mpr ⟨hbefore, forall_mem_cons.mpr ⟨rfl, hbehind⟩⟩,
      hl ▸ add_held (hl ▸ hnone)⟩
  cases locks with
  | nil => exact hnew [] [] rfl
  | cons first rest =>
    unfold enter
    dsimp only
    split
    case isTrue => exact hnew [] (first :: rest) rfl
    case isFalse hstop =>
      have hpass : r.passes first = true := by
        rw [Request.fits, hnone first mem_cons_self, Bool.or_false, decide_eq_false hstop, Bool.false_or] at hfits
        exact hfits
      have hparts := takeWhile_append_dropWhile (p := r.passes) (l := first :: rest)
      obtain ⟨tail, htake⟩ : ∃ tail, (first :: rest).takeWhile r.passes = first :: tail :=
        ⟨_, takeWhile_cons_of_pos hpass⟩
      rw [htake] at hparts ⊢
      cases hdrop : (first :: rest).dropWhile r.passes with
      | nil => exact hnew (first :: tail) [] (hdrop ▸ hparts.symm)
      | cons cl behind =>
        rw [hdrop] at hparts
        have hcl : r.own cl = false := hnone cl (hparts ▸ mem_append_right _ mem_cons_self)
        dsimp only
        rw [if_neg (Bool.eq_false_iff.mp hcl)]
        exact hnew (first :: tail) (cl :: behind) hparts.symm

/-- The request overlaps one lock of its client, and no lock in front of it begins behind the
start of the request. -/
theorem enter_own (hbare : ∀ e ∈ before ++ cl :: behind, e.blocked = []) (hown : r.own cl = true)
    (hnone : ∀ e ∈ before ++ behind, r.own e = false) (hstart : ∀ e ∈ before, e.start ≤ r.start) :
    EnteredAs (before ++ cl :: behind) r (enter (before ++ cl :: behind) r [] []) := by
  have hover := overlap_iff.mp (Bool.and_eq_true_iff.mp hown).2
  have hle := r.le
  have hpass : ∀ e ∈ before, r.passes e = true := fun e he =>
    passes_of_not_own (hnone e (mem_append_left _ he)) (hstart e he)
  have hstop : r.passes cl = false := by rw [Request.passes, hown]; rfl
  have htake : (before ++ cl :: behind).takeWhile r.passes = before := by
    rw [takeWhile_append_of_pos hpass, takeWhile_cons_of_neg (Bool.eq_false_iff.mp hstop), append_nil]
  have hdrop : (before ++ cl :: behind).dropWhile r.passes = cl :: behind := by
    rw [dropWhile_append_of_pos hpass, dropWhile_cons_of_neg (Bool.eq_false_iff.mp hstop)]
  have hfirst : ∃ first rest, before ++ cl :: behind = first :: rest ∧ ¬ r.stop < first.start := by
    cases before with
    | nil => exact ⟨cl, behind, rfl, by omega⟩
    | cons first rest =>
      have := hstart first mem_cons_self
      exact ⟨first, rest ++ cl :: behind, rfl, by omega⟩
  obtain ⟨first, rest, hl, hnot⟩ := hfirst
  have hent : enter (before ++ cl :: behind) r [] [] =
      if cl.type = r.type then ⟨before ++ r.joined cl :: behind, [], .eok, [], []⟩
      else lockSplit before cl behind r [] [] := by
    rw [hl] at htake hdrop ⊢
    unfold enter
    dsimp only
    rw [if_neg hnot, htake, hdrop]
    dsimp only
    rw [if_pos hown]
    rfl
  rw [hent]
  split
  case isTrue htype => exact merge_entered hnone hown htype hbare
  case isFalse => exact lockSplit_entered hnone hown hbare

theorem enter_placed (hbare : ∀ e ∈ locks, e.blocked = []) (hplaced : Placed locks r) :
    EnteredAs locks r (enter locks r [] []) := by
  unfold Placed at hplaced
  split at hplaced
  case h_1 hnone =>
    refine enter_new hbare (fun e he => ?_) hplaced
    exact Bool.eq_false_iff.mpr (filter_eq_nil_iff.mp hnone e he)
  case h_2 cl hone =>
    obtain ⟨front, behind, rfl, hbefore, hown, hbehind⟩ := filter_eq_cons_iff.mp hone
    rw [takeWhile_append_of_pos (by simpa using hbefore)] at hplaced
    refine enter_own hbare hown (fun e he => Bool.eq_false_iff.mpr ?_) fun e he => hplaced e (mem_append_left _ he)
    rcases mem_append.mp he with he | he
    · exact hbefore e he
    · exact filter_eq_nil_iff.mp hbehind e he
  case h_3 => exact hplaced.elim

/-! ## Unlocking -/

/-- What `unlockLoop` leaves when nobody waits. -/
structure UnlockedAs (scoid start stop : Nat) (locks : List Lock) (u : Unlocked) : Prop where
  pending : u.pending = some []
  bare : ∀ e ∈ u.locks, e.blocked = []
  held : ∀ scoid' x, held u.locks scoid' x =
    if scoid' = scoid ∧ start ≤ x ∧ x ≤ stop then [] else held locks scoid' x

theorem unlockLoop_held (scoid : Nat) {start stop : Nat} (hle : start ≤ stop) : ∀ {locks : List Lock},
    (∀ e ∈ locks, e.blocked = []) → UnlockedAs scoid start stop locks (unlockLoop scoid start stop locks [])
  | [], _ => ⟨rfl, nofun, fun scoid' x => by rw [unlockLoop, held_nil, ite_self]⟩
  | cl :: rest, hbare => by
    obtain ⟨hpending, hb, hheld⟩ := unlockLoop_held scoid hle fun e he => hbare e (.tail _ he)
    have hcl := hbare cl mem_cons_self
    -- what is left of the lock holds the bytes that are not unlocked
    have hdone : ∀ pieces : List Lock, (∀ e ∈ pieces, e.blocked = []) →
        (∀ scoid' x, held pieces scoid' x = if scoid' = scoid ∧ start ≤ x ∧ x ≤ stop then [] else held [cl] scoid' x) →
        UnlockedAs scoid start stop (cl :: rest) ((unlockLoop scoid start stop rest []).after pieces cl.blocked) := by
      intro pieces hp hx
      refine ⟨?_, forall_mem_append.mpr ⟨hp, hb⟩, fun scoid' x => ?_⟩
      · rw [Unlocked.after, hpending, hcl]
        rfl
      · rw [Unlocked.after, held_append, hx, hheld, show cl :: rest = [cl] ++ rest from rfl, held_append]
        split <;> rfl
    -- the pieces of a lock of the client
    have hown : ∀ pieces : List Lock, cl.scoid = scoid → (∀ p ∈ pieces, p.scoid = cl.scoid) →
        (∀ x, held pieces cl.scoid x = if start ≤ x ∧ x ≤ stop then [] else held [cl] cl.scoid x) →
        ∀ scoid' x, held pieces scoid' x = if scoid' = scoid ∧ start ≤ x ∧ x ≤ stop then [] else held [cl] scoid' x := by
      intro pieces hs hp hx scoid' x
      by_cases hsc : scoid' = scoid
      · rw [hsc, ← hs, hx]
        by_cases hin : start ≤ x ∧ x ≤ stop
        · rw [if_pos hin, if_pos ⟨rfl, hin⟩]
        · rw [if_neg hin, if_neg fun hc => hin hc.2]
      · rw [if_neg fun hc => hsc hc.1, held_other (fun p hm => (hp p hm).trans hs) hsc,
          held_other (fun p hm => (mem_singleton.mp hm) ▸ hs) hsc]
    unfold unlockLoop
    split
    case isTrue hskip =>
      have hkeep := hdone [cl] (fun e he => mem_singleton.mp he ▸ hcl) fun scoid' x => by
        by_cases hin : scoid' = scoid ∧ start ≤ x ∧ x ≤ stop
        · rw [if_pos hin, held_cons, held_nil, append_nil, if_neg]
          intro hc
          obtain ⟨hs, hcov⟩ := Bool.and_eq_true_iff.mp hc
          have hcov : cl.start ≤ x ∧ x ≤ cl.stop := of_decide_eq_true hcov
          rcases hskip with hskip | hskip
          · exact hskip ((beq_iff_eq.mp hs).trans hin.1)
          · have hover : overlap start stop cl.start cl.stop = true := overlap_iff.mpr (by omega)
            exact Bool.false_ne_true (hskip.symm.trans hover)
        · rw [if_neg hin]
      rwa [hcl] at hkeep
    case isFalse hin =>
      obtain ⟨hs, hover⟩ := not_or.mp hin
      have hs : cl.scoid = scoid := not_not.mp hs
      have hover := overlap_iff.mp (Bool.not_eq_false _ ▸ hover)
      split
      · refine hdone [] nofun (hown [] hs nofun ?_)
        intro x
        rw [held_nil, held_single]
        split_ifs <;> first | rfl | omega
      split
      · rw [if_neg (by simp)]
        refine hdone [⟨cl.scoid, cl.type, cl.start, start - 1, []⟩, ⟨cl.scoid, cl.type, stop + 1, cl.stop, []⟩] (by simp)
          (hown _ hs (by simp) fun x => ?_)
        rw [held_single cl, held_piece, held_piece, held_nil]
        split_ifs <;> first | rfl | omega
      split
      · refine hdone [⟨cl.scoid, cl.type, stop + 1, cl.stop, []⟩] (by simp) (hown _ hs (by simp) fun x => ?_)
        rw [held_single cl, held_piece, held_nil]
        split_ifs <;> first | rfl | omega
      · refine hdone [⟨cl.scoid, cl.type, cl.start, start - 1, []⟩] (by simp) (hown _ hs (by simp) fun x => ?_)
        rw [held_single cl, held_piece, held_nil]
        split_ifs <;> first | rfl | omega

/-! ## Runs -/

/-- The list, and what each client should hold on each byte. -/
structure Posix where
  locks : List Lock
  due : Nat → Nat → Option LockType

inductive PosixOp
  | lock (r : Request)
  | unlock (scoid start stop : Nat) (le : start ≤ stop)

/-- What is due on the bytes of a request, and what was due before on the others. -/
def dueAfter (due : Nat → Nat → Option LockType) (scoid start stop : Nat) (type : Option LockType) :
    Nat → Nat → Option LockType :=
  fun scoid' x => if scoid' = scoid ∧ start ≤ x ∧ x ≤ stop then type else due scoid' x

/-- A lock is asked for only when `lockFind` has found nothing in its way. There is memory. -/
def Posix.step (s : Posix) : PosixOp → Option Posix
  | .lock r =>
    if (lockFind s.locks r).isSome then some s
    else
      (lockScoid (reblock (waiting s.locks).length) ⟨s.locks, 0, [], [], []⟩ r).map fun (s', _) =>
        ⟨s'.locks, dueAfter s.due r.scoid r.start r.stop (some r.type)⟩
  | .unlock scoid start stop _ =>
    (unlockScoid ⟨s.locks, 0, [], [], []⟩ scoid start stop).map fun s' =>
      ⟨s'.locks, dueAfter s.due scoid start stop none⟩

def Posix.boot : Posix := ⟨[], fun _ _ => none⟩

/-- Lock requests are `Placed`. -/
def PosixProper (s : Posix) : PosixOp → Prop
  | .lock r => Placed s.locks r
  | .unlock .. => True

instance (s : Posix) : (op : PosixOp) → Decidable (PosixProper s op)
  | .lock r => inferInstanceAs (Decidable (Placed s.locks r))
  | .unlock .. => isTrue trivial

structure Posix.Inv (s : Posix) : Prop where
  bare : ∀ cl ∈ s.locks, cl.blocked = []
  held : ∀ scoid x, held s.locks scoid x = (s.due scoid x).toList
  apart : ∀ a b x, a ≠ b → s.due a x = some .wr → s.due b x = none

theorem Posix.inv_boot : Posix.boot.Inv :=
  ⟨nofun, fun _ _ => rfl, fun _ _ _ _ _ => rfl⟩

section
variable {s : Posix} (h : s.Inv)
include h

/-- Nothing in the way of a request: a byte of it that another client has locked is locked for
reading, and so is the request. -/
theorem Posix.Inv.free {r : Request} (hfind : (lockFind s.locks r).isSome = false)
    {scoid x : Nat} (hne : scoid ≠ r.scoid) (hx : r.covers x) {t : LockType} (ht : s.due scoid x = some t) :
    t = .rd ∧ r.type = .rd := by
  have hmem : t ∈ Iofunc.held s.locks scoid x := by
    rw [h.held, ht]
    exact mem_singleton_self t
  obtain ⟨cl, hcl, rfl⟩ := mem_map.mp hmem
  obtain ⟨hin, hc⟩ := mem_filter.mp hcl
  obtain ⟨hs, hcov⟩ := Bool.and_eq_true_iff.mp hc
  have hcov : cl.start ≤ x ∧ x ≤ cl.stop := of_decide_eq_true hcov
  have hover : overlap r.start r.stop cl.start cl.stop = true := by
    obtain ⟨h1, h2⟩ := hx
    rw [overlap_iff]
    omega
  have hnot : ¬ r.conflicts cl = true := by
    rw [lockFind, Option.isSome_eq_false_iff, Option.isNone_iff_eq_none, find?_eq_none] at hfind
    exact hfind cl hin
  have hscoid : (r.scoid != cl.scoid) = true := by
    rw [beq_iff_eq.mp hs]
    exact bne_iff_ne.mpr hne.symm
  rw [Request.conflicts, hover, hscoid, Bool.true_and, Bool.true_and, Bool.or_eq_true, not_or, bne_iff_ne, bne_iff_ne,
    not_not, not_not] at hnot
  exact ⟨hnot.1.trans hnot.2, hnot.2⟩

theorem Posix.Inv.lock {r : Request} (hplaced : Placed s.locks r)
    (hfind : (lockFind s.locks r).isSome = false) : ∃ s', s.step (.lock r) = some s' ∧ s'.Inv := by
  obtain ⟨-, hpending, hbare, hheld⟩ := enter_placed h.bare hplaced
  refine ⟨⟨(enter s.locks r [] []).locks, dueAfter s.due r.scoid r.start r.stop (some r.type)⟩, ?_, hbare, ?_, ?_⟩
  · rw [Posix.step, if_neg (Bool.eq_false_iff.mp hfind), lockScoid]
    rw [if_pos hpending]
    rfl
  · intro scoid x
    rw [hheld, h.held]
    dsimp only [dueAfter]
    by_cases hx : scoid = r.scoid ∧ r.start ≤ x ∧ x ≤ r.stop
    · rw [if_pos hx]
      exact if_pos hx
    · rw [if_neg hx]
      exact if_neg hx
  · intro a b x hne ha
    dsimp only [dueAfter] at ha ⊢
    by_cases hax : a = r.scoid ∧ r.start ≤ x ∧ x ≤ r.stop
    · rw [if_pos hax] at ha
      rw [if_neg fun hbx => hne (hax.1.trans hbx.1.symm)]
      cases hb : s.due b x with
      | none => rfl
      | some t =>
        have := (h.free hfind (hax.1 ▸ hne.symm) hax.2 hb).2
        rw [this] at ha
        cases ha
    · rw [if_neg hax] at ha
      by_cases hbx : b = r.scoid ∧ r.start ≤ x ∧ x ≤ r.stop
      · cases (h.free hfind (hbx.1 ▸ hne) hbx.2 ha).1
      · rw [if_neg hbx]
        exact h.apart a b x hne ha

theorem Posix.Inv.unlock {scoid start stop : Nat} (le : start ≤ stop) :
    ∃ s', s.step (.unlock scoid start stop le) = some s' ∧ s'.Inv := by
  obtain ⟨hpending, hbare, hheld⟩ := unlockLoop_held scoid le h.bare
  refine ⟨⟨(unlockLoop scoid start stop s.locks []).locks, dueAfter s.due scoid start stop none⟩, ?_, hbare, ?_, ?_⟩
  · rw [Posix.step, unlockScoid]
    rw [hpending]
    rfl
  · intro scoid' x
    rw [hheld, h.held]
    dsimp only [dueAfter]
    split <;> rfl
  · intro a b x hne ha
    dsimp only [dueAfter] at ha ⊢
    split at ha
    · cases ha
    · split
      · rfl
      · exact h.apart a b x hne ha

theorem Posix.Inv.step {op : PosixOp} (hop : PosixProper s op) :
    ∃ s', s.step op = some s' ∧ s'.Inv := by
  cases op with
  | lock r =>
    cases hfind : (lockFind s.locks r).isSome with
    | true => exact ⟨s, by rw [Posix.step, if_pos hfind], h⟩
    | false => exact h.lock hop hfind
  | unlock scoid start stop le => exact h.unlock le

end

/-- In every run whose lock requests are placed the list is that of record locks: each client has
on each byte the lock it last asked for there and no other, and a byte that is locked for writing
is locked by one client. -/
theorem locks_posix (ops : List PosixOp) (hops : Run.Along Posix.step PosixProper ops Posix.boot) :
    ∃ s, Run.exec Posix.step ops Posix.boot = some s ∧
      (∀ scoid x, held s.locks scoid x = (s.due scoid x).toList) ∧
      ∀ a b x, a ≠ b → LockType.wr ∈ held s.locks a x → held s.locks b x = [] := by
  obtain ⟨s, hs, h⟩ := Run.total (fun h hop => Posix.Inv.step h hop) Posix.inv_boot hops
  refine ⟨s, hs, h.held, fun a b x hne ha => ?_⟩
  rw [h.held, Option.mem_toList] at ha
  rw [h.held, h.apart a b x hne ha]
  rfl

/-- Two readers share bytes, one writes into the middle of its lock and unlocks part of the rest. -/
def sharedFile : List PosixOp :=
  [.lock ⟨1, .rd, 0, 99, by decide⟩, .lock ⟨2, .rd, 50, 149, by decide⟩, .lock ⟨1, .wr, 10, 19, by decide⟩,
    .unlock 1 15 59 (by decide), .lock ⟨2, .wr, 15, 20, by decide⟩]

theorem locks_posix_shared : ∃ s, Run.exec Posix.step sharedFile Posix.boot = some s ∧
    (∀ scoid x, held s.locks scoid x = (s.due scoid x).toList) ∧
    ∀ a b x, a ≠ b → LockType.wr ∈ held s.locks a x → held s.locks b x = [] := by
  have hops : Run.Along Posix.step PosixProper sharedFile Posix.boot := by decide +kernel
  exact locks_posix sharedFile hops

/-- The read lock of bytes 5 to 15 is not entered in front of another client's of 10 to 20. The
read lock of 3 to 12 is joined with the client's own of 0 to 5, and that of 10 to 15 stays. -/
theorem locks_not_posix :
    (∃ s, Run.exec Posix.step [.lock ⟨1, .rd, 10, 20, by decide⟩, .lock ⟨2, .rd, 5, 15, by decide⟩] Posix.boot = some s ∧
      s.due 2 7 = some .rd ∧ held s.locks 2 7 = []) ∧
    ∃ s, Run.exec Posix.step [.lock ⟨1, .rd, 0, 5, by decide⟩, .lock ⟨1, .rd, 10, 15, by decide⟩,
        .lock ⟨1, .rd, 3, 12, by decide⟩] Posix.boot = some s ∧
      s.due 1 11 = some .rd ∧ held s.locks 1 11 = [.rd, .rd] := by
  refine ⟨⟨_, rfl, ?_, ?_⟩, ⟨_, rfl, ?_, ?_⟩⟩ <;> decide +kernel

end QRV.Iofunc
