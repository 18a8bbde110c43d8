import QRV.Lib.Run

/- Memory partitions, `mgr/mem/apm/apm.c`: what an allocation and its release account
   against a partition and the hierarchy of partitions above it.

   A partition's reserve (`size.min`) is accounted with its parent from the start, so only
   what an allocation takes beyond the reserve goes up to the parent. The walk up carries the
   reserve taken so far in one accumulator and compares it with an amount from which it has
   already been subtracted: what two partitions below a third take from it is taken twice.

   What is proved:
     1. `charges_exact` — in every run in which no request passes a second partition once a
        first has met part of it from its reserve, each partition is charged exactly what the
        reserves below it do not cover, none exceeds its maximum, and with everything freed,
        in whatever order, every size is what it was.
     2. `reserve_taken_twice` — with three partitions the third is charged too little, and
        keeps a charge when everything has been freed.

   Correspondence (C ↔ Lean) where the names differ:
     `mempart_t`, `mempart_info_t`           ↔ `Mempart`; a partition and its parents are a list
     `hierarchy_chk`, `_incr`, `_decr`       ↔ `hierarchyChk`, `hierarchyIncr`, `hierarchyDecr`
     `mempart_size_chk`, `_incr`, `_decr`    ↔ `mempartSizeChk`, `mempartSizeIncr`, `mempartSizeDecr`
   The checks of debug builds, the locks and the notification of events are left out. -/
namespace QRV.Mem
open List

/-- `mempart_alloc_policy_t` -/
inductive AllocPolicy
  | root
  | hierarchical
  deriving DecidableEq, Repr

/-- `cur_cfg` of a partition. -/
structure MempartCfg where
  policy : AllocPolicy
  /-- `attr.size.min` -/
  min : Nat
  /-- `attr.size.max` -/
  max : Nat
  deriving DecidableEq, Repr

structure Mempart where
  cfg : MempartCfg
  curSize : Nat
  hiSize : Nat
  deriving DecidableEq, Repr

/-- The sum and the difference of two values of `memsize_t`. -/
def addSize (a b : Nat) : Nat := (a + b) % 2 ^ 64

def subSize (a b : Nat) : Nat := (a + (2 ^ 64 - b)) % 2 ^ 64

/-- How much of the request comes from the partition's reserve. -/
def reserveSize (mp : Mempart) (reqSize : Nat) : Nat :=
  if mp.curSize < mp.cfg.min then Nat.min (mp.cfg.min - mp.curSize) reqSize else 0

/-- How much of the release goes back to the partition's reserve. -/
def unreserveSize (mp : Mempart) (freeSize : Nat) : Nat :=
  if mp.curSize ≤ mp.cfg.min then freeSize
  else if freeSize < mp.curSize - mp.cfg.min then 0
  else freeSize - (mp.curSize - mp.cfg.min)

def freeSize (mp : Mempart) : Nat := subSize mp.cfg.max mp.curSize

def hierarchyChk : List Mempart → Nat → Nat
  | [], size => size
  | mp :: parents, size =>
    let r := Nat.min size (freeSize mp)
    if parents ≠ [] ∧ 0 < r then hierarchyChk parents r else r

def Mempart.grow (mp : Mempart) (size : Nat) : Mempart :=
  let cur := addSize mp.curSize size
  { mp with curSize := cur, hiSize := if mp.hiSize < cur then cur else mp.hiSize }

def Mempart.shrink (mp : Mempart) (size : Nat) : Mempart := { mp with curSize := subSize mp.curSize size }

/-- The partitions after it, the size it returns and `*resv_size`. -/
def hierarchyIncr : List Mempart → Nat → Nat → List Mempart × Nat × Nat
  | [], size, resvSize => ([], size, resvSize)
  | mp :: parents, size, resvSize =>
    let resvSize := resvSize + reserveSize mp size
    if resvSize < size ∧ parents ≠ [] then
      let extra := size - resvSize
      match hierarchyIncr parents extra resvSize with
      | (parents, s, resvSize) =>
        if s ≠ extra then (mp :: parents, s, resvSize) else (mp.grow size :: parents, size, resvSize)
    else (mp.grow size :: parents, size, resvSize)

/-- The partitions after it, the size it returns and `*unresv_size`. -/
def hierarchyDecr : List Mempart → Nat → Nat → List Mempart × Nat × Nat
  | [], size, unresvSize => ([], size, unresvSize)
  | mp :: parents, size, unresvSize =>
    let unresvSize := unresvSize + unreserveSize mp size
    if unresvSize < size ∧ parents ≠ [] then
      let extra := size - unresvSize
      match hierarchyDecr parents extra unresvSize with
      | (parents, s, unresvSize) =>
        if s ≠ extra then (mp :: parents, s, unresvSize) else (mp.shrink size :: parents, size, unresvSize)
    else (mp.shrink size :: parents, size, unresvSize)

def mempartSizeChk : List Mempart → Nat → Bool
  | [], _ => false
  | mp :: parents, size =>
    match mp.cfg.policy with
    | .root => decide (size ≤ subSize mp.cfg.max mp.curSize)
    | .hierarchical =>
      if size ≤ reserveSize mp size then true
      else decide (size ≤ hierarchyChk (mp :: parents) (subSize mp.cfg.max mp.curSize))

/-- The partitions after it, and what is to be accounted against reserved memory. -/
def mempartSizeIncr : List Mempart → Nat → List Mempart × Nat
  | [], _ => ([], 0)
  | mp :: parents, inc =>
    match mp.cfg.policy with
    | .root => (mp.grow inc :: parents, reserveSize mp inc)
    | .hierarchical =>
      let (chain, _, resv) := hierarchyIncr (mp :: parents) inc 0
      (chain, resv)

def mempartSizeDecr : List Mempart → Nat → List Mempart × Nat
  | [], _ => ([], 0)
  | mp :: parents, dec =>
    match mp.cfg.policy with
    | .root => (mp.shrink dec :: parents, unreserveSize mp dec)
    | .hierarchical =>
      let (chain, _, unresv) := hierarchyDecr (mp :: parents) dec 0
      (chain, unresv)

/-- `EOK` with `*resv_size`, or `ENOMEM`. -/
def mempartChkAndIncr (mp : List Mempart) (incr : Nat) : List Mempart × Option Nat :=
  if mempartSizeChk mp incr then
    let (mp, resv) := mempartSizeIncr mp incr
    (mp, some resv)
  else (mp, none)

def mempartDecr (mp : List Mempart) (decr : Nat) : List Mempart × Nat :=
  if decr = 0 then (mp, 0) else mempartSizeDecr mp decr

/-- A chain of partitions, the topmost last, and the allocations not yet freed: the place in the
chain of the partition that was asked, and the size. -/
structure Apm where
  chain : List Mempart
  out : List (Nat × Nat)
  deriving DecidableEq

inductive ApmOp
  | alloc (i n : Nat)
  | free (i n : Nat)

def Apm.alloc (s : Apm) (i n : Nat) : Apm :=
  match mempartChkAndIncr (s.chain.drop i) n with
  | (up, some _) => ⟨s.chain.take i ++ up, (i, n) :: s.out⟩
  | (_, none) => s

def Apm.free (s : Apm) (i n : Nat) : Apm :=
  ⟨s.chain.take i ++ (mempartDecr (s.chain.drop i) n).1, s.out.erase (i, n)⟩

def apmStep (s : Apm) : ApmOp → Option Apm
  | .alloc i n => some (s.alloc i n)
  | .free i n => some (s.free i n)

/-! ## What a request is to be charged -/

/-- The reserve a partition has not used. -/
def Mempart.unused (mp : Mempart) : Nat := mp.cfg.min - mp.curSize

/-- What of the `n` bytes asked of the partition at `i` the reserves below the one at `k` do not
cover. -/
def charge (chain : List Mempart) (i n k : Nat) : Nat :=
  if k < i then 0 else n - (((chain.take k).drop i).map Mempart.unused).sum

/-- The walk up does not pass a partition once one below it has met part of the request: `take` is
what a partition meets of a request. -/
def Single (take : Mempart → Nat → Nat) : List Mempart → Nat → Nat → Prop
  | [], _, _ => True
  | [_], _, _ => True
  | mp :: parents, size, met =>
    take mp size = size ∨ (met = 0 ∧ Single take parents (size - take mp size) (take mp size))

instance Single.decidable (take : Mempart → Nat → Nat) :
    ∀ (chain : List Mempart) (size met : Nat), Decidable (Single take chain size met)
  | [], _, _ => isTrue trivial
  | [_], _, _ => isTrue trivial
  | mp :: p :: parents, size, _ =>
    have := Single.decidable take (p :: parents) (size - take mp size) (take mp size)
    inferInstanceAs (Decidable (_ ∨ _ ∧ _))

/-- The partitions are hierarchical and set up as `_validate_cfg_creation` wants them. -/
def Configured (chain : List Mempart) : Prop :=
  ∀ mp ∈ chain, mp.cfg.policy = .hierarchical ∧ mp.cfg.min ≤ mp.cfg.max ∧ mp.curSize ≤ mp.cfg.max ∧
    mp.cfg.max < 2 ^ 64

/-! ## One walk up the chain -/

/-- The sizes of `chain'` are those of `chain` with `n` bytes charged to the first and each next
one what the reserve of the one before it does not cover. -/
def Raised : List Mempart → List Mempart → Nat → Prop
  | [], [], _ => True
  | mp :: up, mp' :: up', n =>
    mp'.curSize = mp.curSize + n ∧ mp'.cfg = mp.cfg ∧ Raised up up' (n - mp.unused)
  | _, _, _ => False

/-- There is room for it everywhere. -/
def Fits : List Mempart → Nat → Prop
  | [], _ => True
  | mp :: up, n => mp.curSize + n ≤ mp.cfg.max ∧ Fits up (n - mp.unused)

variable {chain chain' : List Mempart} {mp : Mempart} {n : Nat}

theorem raised_zero (chain : List Mempart) : Raised chain chain 0 := by
  induction chain with
  | nil => trivial
  | cons mp up ih => exact ⟨rfl, rfl, (Nat.zero_sub mp.unused).symm ▸ ih⟩

theorem reserveSize_eq (mp : Mempart) (n : Nat) : reserveSize mp n = Nat.min mp.unused n := by
  unfold reserveSize Mempart.unused
  split
  · rfl
  · next h => rw [Nat.sub_eq_zero_of_le (Nat.le_of_not_lt h)]; exact (Nat.zero_min n).symm

theorem addSize_of_lt {a b : Nat} (h : a + b < 2 ^ 64) : addSize a b = a + b := Nat.mod_eq_of_lt h

theorem subSize_of_le {a b : Nat} (h : b ≤ a) (ha : a < 2 ^ 64) : subSize a b = a - b := by
  unfold subSize
  omega

/-- The partitions after a walk up: `f` is what is done to each one. -/
def climb (take : Mempart → Nat → Nat) (f : Mempart → Nat → Mempart) : List Mempart → Nat → Nat → List Mempart
  | [], _, _ => []
  | mp :: up, size, met =>
    f mp size ::
      if met + take mp size < size ∧ up ≠ [] then climb take f up (size - (met + take mp size)) (met + take mp size)
      else up

theorem hierarchyIncr_eq (chain : List Mempart) (size met : Nat) :
    ∃ r, hierarchyIncr chain size met = (climb reserveSize Mempart.grow chain size met, size, r) := by
  induction chain generalizing size met with
  | nil => exact ⟨_, rfl⟩
  | cons mp up ih =>
    obtain ⟨r, hr⟩ := ih (size - (met + reserveSize mp size)) (met + reserveSize mp size)
    simp only [hierarchyIncr, climb, hr, ne_eq, not_true_eq_false, if_false]
    split <;> exact ⟨_, rfl⟩

theorem hierarchyDecr_eq (chain : List Mempart) (size met : Nat) :
    ∃ r, hierarchyDecr chain size met = (climb unreserveSize Mempart.shrink chain size met, size, r) := by
  induction chain generalizing size met with
  | nil => exact ⟨_, rfl⟩
  | cons mp up ih =>
    obtain ⟨r, hr⟩ := ih (size - (met + unreserveSize mp size)) (met + unreserveSize mp size)
    simp only [hierarchyDecr, climb, hr, ne_eq, not_true_eq_false, if_false]
    split <;> exact ⟨_, rfl⟩

/-- The walk goes on with what is left, or ends where nothing is left. -/
theorem Single.tail {take : Mempart → Nat → Nat} {f : Mempart → Nat → Mempart} {up : List Mempart} {met : Nat}
    {R : List Mempart → Prop} (h : Single take (mp :: up) n met) (hend : n ≤ take mp n ∨ up = [] → R up)
    (hstep : Single take up (n - take mp n) (take mp n) → R (climb take f up (n - take mp n) (take mp n))) :
    R (if met + take mp n < n ∧ up ≠ [] then climb take f up (n - (met + take mp n)) (met + take mp n) else up) := by
  cases up with
  | nil =>
    rw [if_neg fun hc => hc.2 rfl]
    exact hend (.inr rfl)
  | cons p parents =>
    rcases h with hall | ⟨rfl, h⟩
    · rw [if_neg (by omega)]
      exact hend (.inl hall.ge)
    · rw [Nat.zero_add]
      split
      · exact hstep h
      · next hstop => exact hend (.inl (Nat.le_of_not_lt fun hlt => hstop ⟨hlt, cons_ne_nil _ _⟩))

/-- Where the accumulator plays no part, an increment charges what it should. -/
theorem climb_raised {resv : Nat} (hbound : ∀ mp ∈ chain, mp.cfg.max < 2 ^ 64) (hfits : Fits chain n)
    (hsingle : Single reserveSize chain n resv) : Raised chain (climb reserveSize Mempart.grow chain n resv) n := by
  induction chain generalizing n resv with
  | nil => trivial
  | cons mp up ih =>
    refine ⟨addSize_of_lt (hfits.1.trans_lt (hbound mp mem_cons_self)), rfl, ?_⟩
    have htake := reserveSize_eq mp n
    have hmin : Nat.min mp.unused n = min mp.unused n := rfl
    have hrest : n - reserveSize mp n = n - mp.unused := by omega
    refine hsingle.tail (R := (Raised up · _)) (fun hend => ?_) fun hs => ?_
    · rcases hend with hcov | rfl
      · rw [show n - mp.unused = 0 by omega]
        exact raised_zero _
      · trivial
    · rw [hrest] at hs ⊢
      exact ih (fun q hq => hbound q (.tail _ hq)) hfits.2 hs

theorem hierarchyChk_le_size (chain : List Mempart) (size : Nat) : hierarchyChk chain size ≤ size := by
  induction chain generalizing size with
  | nil => exact Nat.le_refl size
  | cons mp parents ih =>
    rw [hierarchyChk]
    split
    · exact (ih _).trans (Nat.min_le_left _ _)
    · exact Nat.min_le_left _ _

theorem hierarchyChk_le {size : Nat} (hpos : 0 < n) (h : n ≤ hierarchyChk chain size) :
    ∀ mp ∈ chain, n ≤ freeSize mp := by
  induction chain generalizing size with
  | nil => exact nofun
  | cons mp parents ih =>
    rw [hierarchyChk] at h
    have hhead : n ≤ Nat.min size (freeSize mp) → n ≤ freeSize mp := fun h => h.trans (Nat.min_le_right _ _)
    intro q hq
    split at h
    · rcases mem_cons.mp hq with rfl | hq
      · exact hhead (h.trans (hierarchyChk_le_size _ _))
      · exact ih h q hq
    · next hstop =>
      have hmin : 0 < Nat.min size (freeSize mp) := hpos.trans_le h
      have hnil : parents = [] := by
        by_contra hne
        exact hstop ⟨hne, hmin⟩
      subst hnil
      rw [mem_singleton.mp hq]
      exact hhead h

theorem fits_zero (h : ∀ mp ∈ chain, mp.curSize ≤ mp.cfg.max) : Fits chain 0 := by
  induction chain with
  | nil => trivial
  | cons mp up ih =>
    refine ⟨h mp mem_cons_self, (Nat.zero_sub mp.unused).symm ▸ ?_⟩
    exact ih fun q hq => h q (.tail _ hq)

theorem fits_of_le {m : Nat} (h : ∀ mp ∈ chain, mp.curSize + n ≤ mp.cfg.max) (hm : m ≤ n) : Fits chain m := by
  induction chain generalizing m with
  | nil => trivial
  | cons mp up ih =>
    have hhead := h mp mem_cons_self
    refine ⟨by omega, ih (fun q hq => h q (.tail _ hq)) (by omega)⟩

theorem sizeChk_fits (hconf : Configured chain) (h : mempartSizeChk chain n = true) : Fits chain n := by
  cases chain with
  | nil => cases h
  | cons mp up =>
    obtain ⟨hpol, hmin, hcur, hmax⟩ := hconf mp mem_cons_self
    rw [mempartSizeChk, hpol] at h
    dsimp only at h
    split at h
    · next hres =>
      -- all of it comes from the reserve
      have htake := reserveSize_eq mp n
      have hm : Nat.min mp.unused n = min mp.unused n := rfl
      have hun : mp.unused = mp.cfg.min - mp.curSize := rfl
      by_cases hn : n = 0
      · subst hn
        exact fits_zero fun q hq => (hconf q hq).2.2.1
      · refine ⟨by omega, ?_⟩
        rw [show n - mp.unused = 0 by omega]
        exact fits_zero fun q hq => (hconf q (.tail _ hq)).2.2.1
    · next hres =>
      have hpos : 0 < n := Nat.pos_of_ne_zero fun hn => hres (hn ▸ Nat.zero_le _)
      refine fits_of_le (fun q hq => ?_) (Nat.le_refl n)
      obtain ⟨_, _, hqcur, hqmax⟩ := hconf q hq
      have hfree := hierarchyChk_le hpos (of_decide_eq_true h) q hq
      rw [freeSize, subSize_of_le hqcur hqmax] at hfree
      omega

theorem Raised.configured (h : Raised chain chain' n) (hfits : Fits chain n) (hconf : Configured chain) :
    Configured chain' := by
  fun_induction Raised chain chain' n with
  | case1 => exact hconf
  | case2 mp up mp' up' n ih =>
    obtain ⟨hcur, hcfg, hup⟩ := h
    obtain ⟨hpol, hmin, _, hmax⟩ := hconf mp mem_cons_self
    intro q hq
    rcases mem_cons.mp hq with rfl | hq
    · rw [hcfg, hcur]
      exact ⟨hpol, hmin, hfits.1, hmax⟩
    · exact ih hup hfits.2 (fun q hq => hconf q (.tail _ hq)) q hq
  | case3 => exact h.elim

theorem Raised.configured_of (h : Raised chain chain' n) (hconf : Configured chain') : Configured chain := by
  fun_induction Raised chain chain' n with
  | case1 => exact hconf
  | case2 mp up mp' up' n ih =>
    obtain ⟨hcur, hcfg, hup⟩ := h
    obtain ⟨hpol, hmin, hle, hmax⟩ := hconf mp' mem_cons_self
    rw [hcfg] at hpol hmin hle hmax
    have hrest := ih hup fun q hq => hconf q (.tail _ hq)
    exact forall_mem_cons.mpr ⟨⟨hpol, hmin, by omega, hmax⟩, hrest⟩
  | case3 => exact h.elim

/-- Each partition has been charged what the reserves below it do not cover. -/
theorem Raised.at (h : Raised chain chain' n) {k : Nat} (hk : chain[k]? = some mp) :
    ∃ mp', chain'[k]? = some mp' ∧ mp'.cfg = mp.cfg ∧
      mp'.curSize = mp.curSize + (n - ((chain.take k).map Mempart.unused).sum) := by
  fun_induction Raised chain chain' n generalizing k with
  | case1 => cases hk
  | case2 q up q' up' n ih =>
    obtain ⟨hcur, hcfg, hup⟩ := h
    cases k with
    | zero =>
      obtain rfl : q = mp := Option.some.inj hk
      exact ⟨q', rfl, hcfg, hcur⟩
    | succ k =>
      obtain ⟨mp', hmp', hcfg', hcur'⟩ := ih hup (k := k) hk
      refine ⟨mp', hmp', hcfg', ?_⟩
      rw [hcur', take_succ_cons, map_cons, sum_cons, Nat.sub_sub]
  | case3 => exact h.elim

/-! ## What is charged over a run -/

/-- A partition's size with its reserve counted in full, what its parent is charged for it. -/
def Mempart.level (mp : Mempart) : Nat := max mp.curSize mp.cfg.min

/-- Each partition has its first size, what is allocated in it and what the level of the one below
it has risen by. -/
def Settled : Int → List Mempart → List Mempart → (Nat → Nat) → Prop
  | _, [], [], _ => True
  | below, mp₀ :: up₀, mp :: up, own =>
    (mp.curSize : Int) = mp₀.curSize + own 0 + below ∧ mp.cfg = mp₀.cfg ∧
      Settled (mp.level - mp₀.level) up₀ up (fun k => own (k + 1))
  | _, _, _, _ => False

variable {chain₀ : List Mempart} {own : Nat → Nat} {below : Int}

theorem Raised.settled (h : Raised chain chain' n) :
    Settled (below + n) chain₀ chain' own ↔ Settled below chain₀ chain own := by
  fun_induction Raised chain chain' n generalizing chain₀ below own with
  | case1 => cases chain₀ <;> exact Iff.rfl
  | case2 mp up mp' up' n ih =>
    obtain ⟨hcur, hcfg, hup⟩ := h
    cases chain₀ with
    | nil => exact Iff.rfl
    | cons mp0 up0 =>
      have hlevel : (mp'.level : Int) - mp0.level = (mp.level - mp0.level) + (n - mp.unused : Nat) := by
        unfold Mempart.level Mempart.unused
        rw [hcur, hcfg]
        omega
      rw [Settled, Settled, hlevel, ih hup, hcur, hcfg]
      refine and_congr_left fun _ => ?_
      omega
  | case3 => exact h.elim

/-- Where the accumulator plays no part, a release takes back what an allocation from the state it
leaves would charge. -/
theorem climb_lowered {unresv : Nat} (hbound : ∀ mp ∈ chain, mp.curSize < 2 ^ 64)
    (hset : Settled below chain₀ chain own) (hown : (n : Int) ≤ own 0 + below)
    (hsingle : Single unreserveSize chain n unresv) :
    Raised (climb unreserveSize Mempart.shrink chain n unresv) chain n := by
  induction chain generalizing chain₀ n below own unresv with
  | nil => trivial
  | cons mp up ih =>
    cases chain₀ with
    | nil => exact hset.elim
    | cons mp0 up0 =>
      obtain ⟨hcur, hcfg, hup⟩ := hset
      have hlt := hbound mp mem_cons_self
      have hle : n ≤ mp.curSize := by omega
      have hshrink : (mp.shrink n).curSize = mp.curSize - n := subSize_of_le hle hlt
      refine ⟨by omega, rfl, ?_⟩
      have hrest : n - unreserveSize mp n = n - (mp.shrink n).unused := by
        rw [Mempart.unused, hshrink]
        show n - unreserveSize mp n = n - (mp.cfg.min - (mp.curSize - n))
        unfold unreserveSize
        split
        · omega
        split <;> omega
      rw [← hrest]
      refine hsingle.tail (R := (Raised · up _)) (fun hend => ?_) fun hs => ?_
      · rcases hend with hcov | rfl
        · rw [Nat.sub_eq_zero_of_le hcov]
          exact raised_zero _
        · trivial
      · refine ih (fun q hq => hbound q (.tail _ hq)) hup ?_ hs
        -- the level below stays at least where it was at first
        have hc : mp.cfg.min = mp0.cfg.min := by rw [hcfg]
        rw [hrest, Mempart.unused, hshrink]
        show ((n - (mp.cfg.min - (mp.curSize - n)) : Nat) : Int) ≤ _
        unfold Mempart.level
        omega

/-- A call on the partition at `i` only sees the chain from there on. -/
theorem Settled.at {i : Nat} (h : Settled below chain₀ chain own) (hbelow : 0 ≤ below) (hi : i ≤ chain.length) :
    ∃ below' : Int, 0 ≤ below' ∧ Settled below' (chain₀.drop i) (chain.drop i) (fun k => own (i + k)) ∧
      ∀ up own', (∀ k < i, own' k = own k) → Settled below' (chain₀.drop i) up (fun k => own' (i + k)) →
        Settled below chain₀ (chain.take i ++ up) own' := by
  induction i generalizing chain chain₀ own below with
  | zero =>
    refine ⟨below, hbelow, by simpa using h, fun up own' _ hup => by simpa using hup⟩
  | succ i ih =>
    cases chain with
    | nil => exact absurd hi (Nat.not_succ_le_zero i)
    | cons mp parents =>
      cases chain₀ with
      | nil => exact h.elim
      | cons mp0 parents0 =>
        obtain ⟨hcur, hcfg, hup⟩ := h
        have hlevel : (0 : Int) ≤ mp.level - mp0.level := by
          unfold Mempart.level
          rw [hcfg]
          omega
        obtain ⟨below', hnn, hat, hback⟩ := ih hup hlevel (Nat.le_of_succ_le_succ hi)
        refine ⟨below', hnn, ?_, fun up own' hown hset => ?_⟩
        · simpa only [drop_succ_cons, Nat.add_right_comm, Nat.add_assoc, Nat.add_comm 1] using hat
        · refine ⟨?_, hcfg, hback up (fun k => own' (k + 1)) (fun k hk => hown (k + 1) (Nat.succ_lt_succ hk)) ?_⟩
          · rw [hown 0 (Nat.succ_pos i)]
            exact hcur
          · simpa only [drop_succ_cons, Nat.add_right_comm, Nat.add_assoc, Nat.add_comm 1] using hset

theorem settled_refl (chain : List Mempart) : Settled 0 chain chain (fun _ => 0) := by
  induction chain with
  | nil => trivial
  | cons mp up ih => exact ⟨by simp, rfl, (sub_self (mp.level : Int)).symm ▸ ih⟩

theorem Settled.restored (h : Settled 0 chain₀ chain own) (hown : ∀ k, own k = 0) :
    chain.map Mempart.curSize = chain₀.map Mempart.curSize := by
  generalize hbelow : (0 : Int) = below at h
  fun_induction Settled below chain₀ chain own with
  | case1 => rfl
  | case2 below mp0 up0 mp up own ih =>
    obtain ⟨hcur, hcfg, hup⟩ := h
    rw [hown 0] at hcur
    have hsame : mp.curSize = mp0.curSize := by omega
    have hlevel : mp.level = mp0.level := by rw [Mempart.level, Mempart.level, hsame, hcfg]
    rw [map_cons, map_cons, hsame, ih (fun k => hown (k + 1)) (by rw [hlevel, sub_self]) hup]
  | case3 => exact h.elim

/-- What is allocated in the partition itself counts like what is below it. -/
theorem settled_own {own' : Nat → Nat} (hhead : own' 0 = own 0 + n) (htail : ∀ k, own' (k + 1) = own (k + 1)) :
    Settled (below + n) chain₀ chain own ↔ Settled below chain₀ chain own' := by
  cases chain with
  | nil => cases chain₀ <;> exact Iff.rfl
  | cons mp up =>
    cases chain₀ with
    | nil => exact Iff.rfl
    | cons mp0 up0 =>
      rw [Settled, Settled, show (fun k => own' (k + 1)) = fun k => own (k + 1) from funext htail]
      refine and_congr_left fun _ => ?_
      omega

theorem Settled.length_eq (h : Settled below chain₀ chain own) : chain.length = chain₀.length := by
  fun_induction Settled below chain₀ chain own with
  | case1 => rfl
  | case2 below mp0 up0 mp up own ih => exact congrArg Nat.succ (ih h.2.2)
  | case3 => exact h.elim

/-! ## Runs -/

/-- What is allocated in the partition at `k`. -/
def owned (out : List (Nat × Nat)) (k : Nat) : Nat := ((out.filter fun a => a.1 = k).map Prod.snd).sum

theorem owned_cons (i n : Nat) (out : List (Nat × Nat)) (k : Nat) :
    owned ((i, n) :: out) k = owned out k + if i = k then n else 0 := by
  unfold owned
  by_cases hk : i = k
  · simp [hk, Nat.add_comm]
  · simp [hk]

theorem owned_erase {i n : Nat} {out : List (Nat × Nat)} (h : (i, n) ∈ out) (k : Nat) :
    owned out k = owned (out.erase (i, n)) k + if i = k then n else 0 := by
  rw [← owned_cons]
  exact (((perm_cons_erase h).filter _).map _).sum_eq

/-- The state of a run from `chain₀`. -/
structure Apm.Kept (chain₀ : List Mempart) (s : Apm) : Prop where
  settled : Settled 0 chain₀ s.chain (owned s.out)
  configured : Configured s.chain
  placed : ∀ a ∈ s.out, a.1 < s.chain.length

/-- A release is of an allocation made and not yet freed. -/
def Apm.Matched (s : Apm) : ApmOp → Prop
  | .alloc _ _ => True
  | .free i n => (i, n) ∈ s.out

/-- The accumulator plays no part. -/
def Apm.Plain (s : Apm) : ApmOp → Prop
  | .alloc i n => Single reserveSize (s.chain.drop i) n 0
  | .free i n => Single unreserveSize (s.chain.drop i) n 0

instance (s : Apm) : ∀ op, Decidable (s.Matched op ∧ s.Plain op)
  | .alloc i n => inferInstanceAs (Decidable (True ∧ Single reserveSize (s.chain.drop i) n 0))
  | .free i n => inferInstanceAs (Decidable ((i, n) ∈ s.out ∧ Single unreserveSize (s.chain.drop i) n 0))

variable {s : Apm} {i : Nat}

theorem sizeIncr_climb (hconf : Configured chain) (hsize : mempartSizeChk chain n = true) :
    (mempartSizeIncr chain n).1 = climb reserveSize Mempart.grow chain n 0 := by
  cases chain with
  | nil => cases hsize
  | cons mp up =>
    obtain ⟨r, hr⟩ := hierarchyIncr_eq (mp :: up) n 0
    rw [mempartSizeIncr, (hconf mp mem_cons_self).1, hr]

theorem sizeDecr_climb (hconf : Configured chain) :
    (mempartSizeDecr chain n).1 = climb unreserveSize Mempart.shrink chain n 0 := by
  cases chain with
  | nil => rfl
  | cons mp up =>
    obtain ⟨r, hr⟩ := hierarchyDecr_eq (mp :: up) n 0
    rw [mempartSizeDecr, (hconf mp mem_cons_self).1, hr]

/-- A successful allocation charges the partitions from the one asked upwards. -/
theorem Apm.alloc_raised (hconf : Configured s.chain) (hchk : mempartSizeChk (s.chain.drop i) n = true)
    (hplain : s.Plain (.alloc i n)) :
    ∃ up, s.alloc i n = ⟨s.chain.take i ++ up, (i, n) :: s.out⟩ ∧ Raised (s.chain.drop i) up n ∧
      Fits (s.chain.drop i) n ∧ i < s.chain.length := by
  have hdrop : Configured (s.chain.drop i) := fun q hq => hconf q (mem_of_mem_drop hq)
  have hfits := sizeChk_fits hdrop hchk
  have hraised := climb_raised (fun q hq => (hdrop q hq).2.2.2) hfits hplain
  refine ⟨(mempartSizeIncr (s.chain.drop i) n).1, ?_, ?_, hfits, ?_⟩
  · rw [Apm.alloc, mempartChkAndIncr, if_pos hchk]
  · rw [sizeIncr_climb hdrop hchk]
    exact hraised
  · by_contra hge
    rw [drop_of_length_le (Nat.le_of_not_lt hge)] at hchk
    cases hchk

theorem Apm.alloc_refused (hchk : ¬ mempartSizeChk (s.chain.drop i) n = true) : s.alloc i n = s := by
  rw [Apm.alloc, mempartChkAndIncr, if_neg hchk]

theorem Raised.length_eq (h : Raised chain chain' n) : chain'.length = chain.length := by
  fun_induction Raised chain chain' n with
  | case1 => rfl
  | case2 mp up mp' up' n ih => exact congrArg Nat.succ (ih h.2.2)
  | case3 => exact h.elim

theorem length_take_append {up : List Mempart} (h : up.length = (chain.drop i).length) :
    (chain.take i ++ up).length = chain.length := by
  rw [length_append, h, ← length_append, take_append_drop]

theorem configured_append {up : List Mempart} (hconf : Configured chain) (hup : Configured up) :
    Configured (chain.take i ++ up) :=
  forall_mem_append.mpr ⟨fun q hq => hconf q (mem_of_mem_take hq), hup⟩

theorem Apm.Kept.alloc (h : s.Kept chain₀) (hplain : s.Plain (.alloc i n)) : (s.alloc i n).Kept chain₀ := by
  by_cases hchk : mempartSizeChk (s.chain.drop i) n = true
  · obtain ⟨up, hst, hraised, hfits, hi⟩ := Apm.alloc_raised h.configured hchk hplain
    have hdrop : Configured (s.chain.drop i) := fun q hq => h.configured q (mem_of_mem_drop hq)
    have hlen := length_take_append hraised.length_eq
    obtain ⟨below, _, hat, hback⟩ := h.settled.at (Int.le_refl 0) hi.le
    rw [hst]
    refine ⟨?_, configured_append h.configured (hraised.configured hfits hdrop), fun a ha => ?_⟩
    · refine hback up _ (fun k hk => ?_) ((settled_own ?_ fun k => ?_).mp (hraised.settled.mpr hat))
      · rw [owned_cons, if_neg hk.ne', Nat.add_zero]
      · rw [owned_cons, Nat.add_zero, if_pos rfl]
      · rw [owned_cons, if_neg (by omega), Nat.add_zero]
    · rw [hlen]
      rcases mem_cons.mp ha with rfl | ha
      · exact hi
      · exact h.placed a ha
  · rw [Apm.alloc_refused hchk]
    exact h

theorem Apm.Kept.free (h : s.Kept chain₀) (hmem : (i, n) ∈ s.out) (hplain : s.Plain (.free i n)) :
    (s.free i n).Kept chain₀ := by
  have hi : i < s.chain.length := h.placed _ hmem
  have hdrop : Configured (s.chain.drop i) := fun q hq => h.configured q (mem_of_mem_drop hq)
  obtain ⟨below, hbelow, hat, hback⟩ := h.settled.at (Int.le_refl 0) hi.le
  have hown := owned_erase hmem i
  rw [if_pos rfl] at hown
  have hraised : Raised (mempartDecr (s.chain.drop i) n).1 (s.chain.drop i) n := by
    unfold mempartDecr
    split
    · next hn =>
      subst hn
      exact raised_zero _
    · rw [sizeDecr_climb hdrop]
      refine climb_lowered (fun q hq => ?_) hat ?_ hplain
      · obtain ⟨_, _, hcur, hmax⟩ := hdrop q hq
        exact hcur.trans_lt hmax
      · rw [Nat.add_zero]
        omega
  have hlen := length_take_append hraised.length_eq.symm
  refine ⟨?_, configured_append h.configured (hraised.configured_of hdrop), fun a ha => ?_⟩
  · refine hback _ _ (fun k hk => ?_) (hraised.settled.mp ((settled_own ?_ fun k => ?_).mpr hat))
    · rw [owned_erase hmem k, if_neg hk.ne', Nat.add_zero]
      rfl
    · exact hown
    · rw [owned_erase hmem (i + (k + 1)), if_neg (by omega), Nat.add_zero]
      rfl
  · show a.1 < (s.chain.take i ++ (mempartDecr (s.chain.drop i) n).1).length
    rw [hlen]
    exact h.placed a (mem_of_mem_erase ha)

theorem apmStep_kept {op : ApmOp} (h : s.Kept chain₀) (hop : s.Matched op ∧ s.Plain op) :
    ∃ s', apmStep s op = some s' ∧ s'.Kept chain₀ := by
  cases op with
  | alloc i n => exact ⟨_, rfl, h.alloc hop.2⟩
  | free i n => exact ⟨_, rfl, h.free hop.1 hop.2⟩

/-- A successful allocation charges each partition what the reserves below it do not cover. -/
theorem Apm.alloc_charge (hconf : Configured s.chain) (hchk : mempartSizeChk (s.chain.drop i) n = true)
    (hplain : s.Plain (.alloc i n)) {k : Nat} (hk : s.chain[k]? = some mp) :
    ∃ mp', (s.alloc i n).chain[k]? = some mp' ∧ mp'.curSize = mp.curSize + charge s.chain i n k := by
  obtain ⟨up, hst, hraised, _, hi⟩ := Apm.alloc_raised hconf hchk hplain
  have htake : (s.chain.take i).length = i := length_take_of_le hi.le
  rw [hst, charge]
  by_cases hki : k < i
  · rw [if_pos hki]
    refine ⟨mp, ?_, rfl⟩
    rw [getElem?_append_left (htake.symm ▸ hki), getElem?_take_of_lt hki, hk]
  · obtain ⟨j, rfl⟩ := Nat.exists_eq_add_of_le (Nat.le_of_not_lt hki)
    obtain ⟨mp', hmp', _, hcur⟩ := hraised.at (k := j) (by rw [getElem?_drop, hk])
    refine ⟨mp', ?_, ?_⟩
    · rw [getElem?_append_right (htake.symm ▸ Nat.le_add_right i j), htake, Nat.add_sub_cancel_left, hmp']
    · rw [if_neg hki, hcur, take_drop]

/-- In every run whose calls all meet the condition no partition exceeds its maximum, with all
allocations freed every size is what it was, and in the state reached a successful allocation
charges each partition exactly what the reserves below it do not cover. -/
theorem charges_exact (chain : List Mempart) (hconf : Configured chain) (ops : List ApmOp)
    (hops : Run.Along apmStep (fun s op => s.Matched op ∧ s.Plain op) ops ⟨chain, []⟩) :
    ∃ s, Run.exec apmStep ops ⟨chain, []⟩ = some s ∧ s.chain.length = chain.length ∧
      (∀ mp ∈ s.chain, mp.curSize ≤ mp.cfg.max) ∧
      (s.out = [] → s.chain.map Mempart.curSize = chain.map Mempart.curSize) ∧
      ∀ i n, mempartSizeChk (s.chain.drop i) n = true → s.Plain (.alloc i n) →
        ∀ k mp, s.chain[k]? = some mp → ∃ mp', (s.alloc i n).chain[k]? = some mp' ∧
          mp'.curSize = mp.curSize + charge s.chain i n k := by
  obtain ⟨s, hs, hkept⟩ := Run.total (I := Apm.Kept chain) (fun h hop => apmStep_kept h hop)
    ⟨settled_refl chain, hconf, fun _ h => absurd h not_mem_nil⟩ hops
  refine ⟨s, hs, hkept.settled.length_eq, fun mp hmp => (hkept.configured mp hmp).2.2.1, fun hout => ?_,
    fun i n hchk hplain k mp hk => Apm.alloc_charge hkept.configured hchk hplain hk⟩
  exact hkept.settled.restored fun k => by rw [hout]; rfl

/-- Partitions with a reserve of 4 pages below two without one, each of at most 100 pages; the
reserve is accounted with both. -/
def reservedChain : List Mempart :=
  [⟨⟨.hierarchical, 4 * 4096, 100 * 4096⟩, 0, 0⟩, ⟨⟨.hierarchical, 0, 100 * 4096⟩, 4 * 4096, 4 * 4096⟩,
    ⟨⟨.hierarchical, 0, 100 * 4096⟩, 4 * 4096, 4 * 4096⟩]

/-- Allocations within and beyond the reserve, the second freed first. -/
theorem charges_exact_reserved :
    Run.Along apmStep (fun s op => s.Matched op ∧ s.Plain op)
      [.alloc 0 (4 * 4096), .alloc 0 (6 * 4096), .free 0 (6 * 4096), .free 0 (4 * 4096)] ⟨reservedChain, []⟩ ∧
    ∃ s, Run.exec apmStep
      [.alloc 0 (4 * 4096), .alloc 0 (6 * 4096), .free 0 (6 * 4096), .free 0 (4 * 4096)] ⟨reservedChain, []⟩ = some s ∧
        (s.out = [] → s.chain.map Mempart.curSize = reservedChain.map Mempart.curSize) := by
  have hconf : Configured reservedChain := by unfold Configured; decide +kernel
  refine ⟨?hops, (charges_exact _ hconf _ ?hops).imp fun _ hs => ⟨hs.1, hs.2.2.2.1⟩⟩
  decide +kernel

/-- Ten pages, four of them from the reserve: the parent is charged six, and its parent two
instead of six. And four and six pages allocated, then freed in this order, leave two charged to
the topmost. -/
theorem reserve_taken_twice :
    (∃ s, Run.exec apmStep [.alloc 0 (10 * 4096)] ⟨reservedChain, []⟩ = some s ∧
      s.chain.map Mempart.curSize = [10 * 4096, (4 + 6) * 4096, (4 + 2) * 4096] ∧
      charge reservedChain 0 (10 * 4096) 2 = 6 * 4096) ∧
    ∃ s, Run.exec apmStep
        [.alloc 0 (4 * 4096), .alloc 0 (6 * 4096), .free 0 (4 * 4096), .free 0 (6 * 4096)] ⟨reservedChain, []⟩ = some s ∧
      s.out = [] ∧ s.chain.map Mempart.curSize = [0, 4 * 4096, (4 + 2) * 4096] :=
  ⟨⟨_, rfl, by decide +kernel, by decide +kernel⟩, _, rfl, by decide +kernel, by decide +kernel⟩

end QRV.Mem
