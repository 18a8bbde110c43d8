import QRV.Nano.AllocRun
import QRV.Nano.Object

/- The critical reserve of the kernel's heap: `heap_init` sets a region aside,
   requests fall back on it when the heap cannot grow and `alloc_critical` is raised,
   and blocks are told apart by their address alone.

   The state is the kernel's two lists with the books of its callers; `object_grow`
   runs over it through the generic object allocator (`kernelAllocator`). The reserve
   is at every moment shared out between the critical list and the live blocks in it
   (`KerHeap.Inv`), as long as no size reaches 2^32 - 8. `ALIGN` cuts a size above, and
   the `memset` of `_scalloc`, which has the size asked for, runs over what is behind the
   block: over the entries of the critical list in `crit_run_cut`. -/
namespace QRV.Nano
open LinkCell Extent List Option

/-- The kernel's heap, the bounds of the reserve, the live blocks and the regions
obtained; `grants` are the answers that `alloc` is going to give. -/
structure KerHeap where
  m : HeapMem
  critStart : Nat
  critEnd : Nat
  live : List Ext
  got : List Ext
  grants : List (Nat × Nat)

namespace KerHeap

def env (k : KerHeap) (critical : Bool) : AllocEnv := ⟨true, critical, k.critStart, k.critEnd⟩

/-- The region that `heap_init` set aside. -/
def reserve (k : KerHeap) : Ext := ⟨k.critStart, critSize⟩

/-- A block of the reserve, by its address. -/
def inReserve (k : KerHeap) (e : Ext) : Bool := (k.env false).isCrit e.base

/-- The books behind a `_scalloc`. -/
def afterAlloc (k : KerHeap) (size : Nat) (r : Realloc) : KerHeap :=
  { k with m := r.m
           live := block r.new (rounded size) ++ k.live
           got := regions (k.grants.take (k.grants.length - r.rest.length)) ++ k.got
           grants := r.rest }

def alloc (k : KerHeap) (size : Nat) (critical : Bool) : Option (KerHeap × Option Nat) :=
  match scalloc (k.env critical) k.m size k.grants with
  | none => none
  | some r => some (k.afterAlloc size r, if r.new = 0 then none else some r.new)

def free (k : KerHeap) (data size : Nat) (critical : Bool) : Option KerHeap :=
  match sfree (k.env critical) k.m data size with
  | none => none
  | some m => some { k with m := m, live := k.live.erase ⟨data, rounded size⟩ }

end KerHeap

/-- The kernel's heap as the allocator of the object routines; `none` has crashed. -/
def kernelAllocator : Allocator (Option KerHeap) where
  scalloc h size critical :=
    match h with
    | none => (none, none)
    | some k =>
      match k.alloc size critical with
      | none => (none, none)
      | some (k, p) => (some k, p)
  sfree h ptr size :=
    match h with
    | none => none
    | some k => k.free ptr size false
  isCrit h ptr :=
    match h with
    | none => false
    | some k => (k.env false).isCrit ptr

inductive KerOp (L : Type) where
  | scalloc (size : Nat) (critical : Bool) (grants : List (Nat × Nat))
  | sfree (data size : Nat) (critical : Bool)
  /-- `object_grow` of some soul -/
  | grow (s : SoulMem L (Option KerHeap)) (grants : List (Nat × Nat))

section Steps
variable {L : Type}

def kerStep (k : KerHeap) : KerOp L → Option KerHeap
  | .scalloc size critical grants =>
    match ({ k with grants := grants } : KerHeap).alloc size critical with
    | none => none
    | some (k, _) => some k
  | .sfree data size critical => k.free data size critical
  | .grow s grants =>
    (objectGrow kernelAllocator { s with heap := some { k with grants := grants } }).1.heap

def kerRun : KerHeap → List (KerOp L) → Option KerHeap
  | k, [] => some k
  | k, op :: ops =>
    match kerStep k op with
    | none => none
    | some k' => kerRun k' ops

/-- The answers of `alloc` to requests of one size: fresh regions, aligned and large
enough but not by 4 GB, or none. -/
structure GrantsOk (got : List Ext) (size : Nat) (grants : List (Nat × Nat)) : Prop where
  ok : ∀ g ∈ grants, g.2 ≠ 0 → EntryOk ⟨g.1, g.2⟩ ∧ wadd (roundNew size) 16 ≤ g.2 ∧
    g.2 ≤ roundNew size + maxSize
  fresh : ∀ x, cover got x + cover (regions grants) x ≤ 1

/-- What the callers and `alloc` promise: a block handed in is a live one with the
size it was asked for with, and regions are fresh. -/
def KerOp.Ok (k : KerHeap) : KerOp L → Prop
  | .scalloc size _ grants => GrantsOk k.got size grants
  | .sfree data size _ => size ≠ 0 ∧ ⟨data, rounded size⟩ ∈ k.live
  | .grow s grants => GrantsOk k.got s.bytes grants

/-- `ALIGN` does not cut the size. -/
def KerOp.Safe : KerOp L → Prop
  | .scalloc size _ _ => size ≤ maxSize
  | .sfree _ size _ => size ≤ maxSize
  | .grow s _ => s.bytes ≤ maxSize

/-- `P` holds of every operation of a run, in the state it starts in. -/
def KerAlong (P : KerHeap → KerOp L → Prop) : KerHeap → List (KerOp L) → Prop
  | _, [] => True
  | k, op :: ops => P k op ∧ ∀ k', kerStep k op = some k' → KerAlong P k' ops

end Steps

/-- The kernel's heap behind `heap_init`, called with the books in the state `s`. -/
def bootHeap (s : Arena) (grants : List (Nat × Nat)) : Option KerHeap :=
  match heapInit s.m grants with
  | none => none
  | some (m, critStart, critEnd, rest) =>
    some ⟨m, critStart, critEnd, s.live,
      regions (grants.take (grants.length - rest.length)) ++ s.got, rest⟩

/-- The free entries of both lists and the live blocks share out what was obtained,
and the critical list and the live blocks of the reserve share out the reserve. -/
structure KerHeap.Inv (k : KerHeap) (lk lc : List Ext) : Prop where
  ker : FreeList k.m .ker lk
  ker_gaps : Gaps lk
  crit : FreeList k.m .crit lc
  crit_gaps : Gaps lc
  live_ok : ∀ e ∈ k.live, EntryOk e
  bytes : ∀ x, cover lk x + cover lc x + cover k.live x = cover k.got x
  one : ∀ x, cover k.got x ≤ 1
  low : 4096 ≤ k.critStart
  bound : k.critEnd = k.critStart + (critSize - 1)
  shared : ∀ x, cover lc x + cover (k.live.filter k.inReserve) x = hit k.reserve x

/-! ## Blocks come and go -/

theorem cover_filter_le (p : Ext → Bool) (l : List Ext) (x : Nat) : cover (l.filter p) x ≤ cover l x := by
  induction l with
  | nil => exact Nat.le_refl _
  | cons e l ih =>
    rw [filter_cons]
    split <;> simp only [cover_cons] <;> omega

variable {l : List Ext}

theorem cover_filter_erase {p : Ext → Bool} {e : Ext} (h : e ∈ l) (x : Nat) :
    cover (l.filter p) x = (if p e then hit e x else 0) + cover ((l.erase e).filter p) x := by
  rw [cover_perm ((perm_cons_erase h).filter p) x, filter_cons]
  split <;> simp

variable {grants : List (Nat × Nat)} {got : List Ext}

/-- The books with the block at `r`. -/
def KerHeap.booked (k : KerHeap) (m : HeapMem) (r new : Nat) (got : List Ext) (grants : List (Nat × Nat)) : KerHeap :=
  { k with m := m, live := block r new ++ k.live, got := got, grants := grants }

namespace KerHeap.Inv
variable {k : KerHeap} {lk lc lk' lc' l3 : List Ext} {m m' : HeapMem} {r new : Nat} {e : Ext}

theorem inReserve_mem (e : Ext) : k.inReserve e = true ↔ k.critStart ≤ e.base ∧ e.base ≤ k.critEnd := by
  rw [inReserve, AllocEnv.isCrit, Bool.and_eq_true, decide_eq_true_iff, decide_eq_true_iff]
  rfl

section
variable (h : k.Inv lk lc)
include h

theorem inReserve_iff (e : Ext) : k.inReserve e = true ↔ hit k.reserve e.base = 1 := by
  have hsize : 0 < critSize := by decide
  rw [inReserve_mem, h.bound]
  constructor
  · intro hin
    exact hit_of hin.1 (by simp only [Ext.stop, reserve]; omega)
  · intro hhit
    have := hit_pos (by omega : hit k.reserve e.base ≠ 0)
    simp only [Ext.stop, reserve] at this
    omega

theorem once (x : Nat) : cover lk x + cover lc x + cover k.live x ≤ 1 := h.bytes x ▸ h.one x

theorem live_apart (he : e ∈ k.live) (x : Nat) : cover lk x + cover lc x + hit e x ≤ 1 := by
  have h1 := h.once x
  have h2 := le_cover he x
  omega

omit h in
/-- A list is not changed by what happens to another one, if they share no byte. -/
theorem other {b c : FreeId} {l l2 inn out : List Ext} (hl2 : FreeList m c l2) (hm : Moves b m l m' l3 inn out)
    (hcb : c ≠ b) (hone : ∀ x, cover l x + cover inn x + cover l2 x ≤ 1) : FreeList m' c l2 := by
  refine hl2.frame (fun a ha => hm.frame a ?_ ?_) (hm.heads c hcb)
  all_goals have := hone a; omega

omit h in
theorem hit_base (h : EntryOk e) : hit e e.base = 1 := by
  have := h.room
  exact hit_of (Nat.le_refl _) (by simp only [Ext.stop]; omega)

/-- A byte of the reserve is in the critical list or in a live block. -/
theorem not_reserve {x : Nat} (hc : cover lc x = 0) (hlive : cover k.live x = 0) : hit k.reserve x = 0 := by
  have h1 := h.shared x
  have h2 := cover_filter_le k.inReserve k.live x
  omega

theorem take_ker {used grants : List (Nat × Nat)}
    (hm : Moves .ker k.m lk m' lk' (regions used) (block r new)) (hg : Gaps lk')
    (hret : r ≠ 0 → EntryOk ⟨r, new⟩) (hfresh : ∀ x, cover k.got x + cover (regions used) x ≤ 1) :
    (k.booked m' r new (regions used ++ k.got) grants).Inv lk' lc := by
  have hcrit : FreeList m' .crit lc := other h.crit hm (by decide) fun a => by
    have h1 := h.bytes a
    have h2 := hfresh a
    omega
  -- the block is none of the reserve
  have hout : (block r new ++ k.live).filter k.inReserve = k.live.filter k.inReserve := by
    by_cases hr : r = 0
    · rw [hr, block_zero, nil_append]
    rw [block_of_ne hr, singleton_append, filter_cons_of_neg]
    intro hin
    have h1 := h.bytes r
    have h2 := hfresh r
    have h3 := hm.bytes r
    have h4 : hit ⟨r, new⟩ r = 1 := hit_base (hret hr)
    rw [block_of_ne hr] at h3
    simp only [cover_cons, cover_nil] at h3
    have h5 := h.not_reserve (x := r) (by omega) (by omega)
    exact absurd ((h.inReserve_iff _).mp hin) (by rw [h5]; decide)
  refine ⟨hm.list, hg, hcrit, h.crit_gaps, forall_mem_append.mpr ⟨block_ok hret, h.live_ok⟩, fun x => ?_,
    fun x => ?_, h.low, h.bound, fun x => ?_⟩
  · have h1 := hm.bytes x
    have h2 := h.bytes x
    simp only [booked, cover_append]
    omega
  · have := hfresh x
    simp only [booked, cover_append]
    omega
  · have := h.shared x
    rw [← hout] at this
    exact this

theorem take_crit (hm : Moves .crit k.m lc m' lc' [] (block r new)) (hg : Gaps lc')
    (hret : r ≠ 0 → EntryOk ⟨r, new⟩) (hgot : ∀ x, cover got x = cover k.got x) :
    (k.booked m' r new got grants).Inv lk lc' := by
  have hker : FreeList m' .ker lk := other h.ker hm (by decide) fun a => by
    have := h.once a
    rw [cover_nil]
    omega
  have hin : (block r new ++ k.live).filter k.inReserve = block r new ++ k.live.filter k.inReserve := by
    by_cases hr : r = 0
    · rw [hr, block_zero, nil_append, nil_append]
    rw [block_of_ne hr, singleton_append, singleton_append, filter_cons_of_pos]
    refine (h.inReserve_iff _).mpr ?_
    have h1 := h.shared r
    have h2 := hm.bytes r
    have h3 : hit ⟨r, new⟩ r = 1 := hit_base (hret hr)
    have h4 := h.once r
    have h5 := cover_filter_le k.inReserve k.live r
    rw [block_of_ne hr] at h2
    simp only [cover_cons, cover_nil] at h2 ⊢
    omega
  refine ⟨hker, h.ker_gaps, hm.list, hg, forall_mem_append.mpr ⟨block_ok hret, h.live_ok⟩, fun x => ?_,
    fun x => ?_, h.low, h.bound, fun x => ?_⟩
  · have h1 := hm.bytes x
    have h2 := h.bytes x
    have h3 := hgot x
    simp only [booked, cover_append, cover_nil] at h1 ⊢
    omega
  · exact (hgot x).symm ▸ h.one x
  · have h1 := h.shared x
    have h2 := hm.bytes x
    show cover lc' x + cover ((block r new ++ k.live).filter k.inReserve) x = hit k.reserve x
    rw [hin]
    simp only [cover_append, cover_nil] at h2 ⊢
    omega

/-- A block goes back on the critical list if it is one of the reserve, and else on the kernel's list. -/
theorem put (he : e ∈ k.live) (hker : FreeList m' .ker lk') (hgk : Gaps lk') (hcrit : FreeList m' .crit lc')
    (hgc : Gaps lc') (hk : ∀ x, cover lk' x + (if k.inReserve e then hit e x else 0) = cover lk x + hit e x)
    (hc : ∀ x, cover lc' x = cover lc x + if k.inReserve e then hit e x else 0) :
    ({ k with m := m', live := k.live.erase e } : KerHeap).Inv lk' lc' := by
  refine ⟨hker, hgk, hcrit, hgc, fun f hf => h.live_ok f (mem_of_mem_erase hf), fun x => ?_, h.one, h.low, h.bound,
    fun x => ?_⟩
  · have h1 := hk x
    have h2 := hc x
    have h3 := h.bytes x
    have h4 := cover_erase he x
    show cover lk' x + cover lc' x + cover (k.live.erase e) x = cover k.got x
    omega
  · have h1 := h.shared x
    have h2 := hc x
    rw [cover_filter_erase he] at h1
    show cover lc' x + cover ((k.live.erase e).filter k.inReserve) x = hit k.reserve x
    omega

theorem regrant (grants : List (Nat × Nat)) : ({ k with grants := grants } : KerHeap).Inv lk lc :=
  ⟨h.ker, h.ker_gaps, h.crit, h.crit_gaps, h.live_ok, h.bytes, h.one, h.low, h.bound, h.shared⟩

theorem store_live (hmem : ∀ a, cover k.live a = 0 → m'.mem a = k.m.mem a)
    (hheads : m'.heads = k.m.heads) : ({ k with m := m' } : KerHeap).Inv lk lc := by
  have hoff : ∀ a, cover lk a + cover lc a ≠ 0 → m'.mem a = k.m.mem a := by
    intro a ha
    have := h.once a
    exact hmem a (by omega)
  exact ⟨h.ker.frame (fun a ha => hoff a (by omega)) (by rw [hheads]), h.ker_gaps,
    h.crit.frame (fun a ha => hoff a (by omega)) (by rw [hheads]), h.crit_gaps, h.live_ok, h.bytes,
    h.one, h.low, h.bound, h.shared⟩

end

end KerHeap.Inv

/-! ## Allocation -/

theorem GrantsOk.drop {size : Nat} {used rest : List (Nat × Nat)}
    (h : GrantsOk got size (used ++ rest)) : GrantsOk (regions used ++ got) size rest := by
  refine ⟨fun g hg => h.ok g (mem_append_right _ hg), fun x => ?_⟩
  have := h.fresh x
  simp only [regions, map_append, cover_append] at this ⊢
  omega

variable {m : HeapMem} {k' : KerHeap}

section Alloc
variable {k : KerHeap} {lk lc : List Ext} {size new : Nat} {critical : Bool}
variable {res : Realloc}

section
variable (h : k.Inv lk lc)
include h

theorem KerHeap.Inv.pick (critical : Bool) :
    (k.env critical).pick false 0 = .ker ∧ (k.env critical).pick true 0 = .crit := by
  have hlow := h.low
  have hz : k.critStart ≠ 0 := by omega
  constructor
  · simp [AllocEnv.pick, AllocEnv.isCrit, KerHeap.env, hz]
  · simp [AllocEnv.pick, KerHeap.env]

theorem KerHeap.Inv.requests (hroom : new ≠ 0 → 16 ≤ new) (h8 : new % 8 = 0)
    (hb : new + 16 < 2 ^ 64) : Request k.m .ker lk 0 0 new ∧ Request k.m .crit lc 0 0 new := by
  refine ⟨⟨h.ker, h.ker_gaps, fun h0 => absurd rfl h0, fun x => ?_, hroom, h8, hb⟩,
    ⟨h.crit, h.crit_gaps, fun h0 => absurd rfl h0, fun x => ?_, hroom, h8, hb⟩⟩
  all_goals
    have := h.once x
    simp only [block_zero, cover_nil]
    omega

theorem KerHeap.Inv.grant {g : Nat × Nat} (hok : EntryOk ⟨g.1, g.2⟩) (hlarge : new + 16 ≤ g.2 ∧ g.2 ≤ new + maxSize)
    (hfresh : ∀ x, cover k.got x + hit ⟨g.1, g.2⟩ x ≤ 1) :
    GrantOk lk 0 0 new g ∧ (k.env critical).pick false (g.1 + new) = .ker := by
  refine ⟨⟨hok, hlarge.1, hlarge.2, fun x => ?_⟩, ?_⟩
  · have h1 := h.bytes x
    have h2 := hfresh x
    simp only [block_zero, cover_nil]
    omega
  · have hin : k.inReserve ⟨g.1 + new, 0⟩ = false := by
      by_contra hc
      have h1 := (h.inReserve_iff _).mp (by simpa using hc)
      have h2 := h.bytes (g.1 + new)
      have h3 := hfresh (g.1 + new)
      have h4 : hit ⟨g.1, g.2⟩ (g.1 + new) = 1 :=
        hit_of (Nat.le_add_right _ _) (by simp only [Ext.stop]; omega)
      rw [h.not_reserve (by simp only []; omega) (by simp only []; omega)] at h1
      cases h1
    have hcrit : (k.env critical).isCrit (g.1 + new) = false := hin
    simp [AllocEnv.pick, KerHeap.env] at hcrit ⊢
    simpa [AllocEnv.isCrit] using hcrit

omit h in
/-- A request for a new block is settled on the kernel's list, or on the critical list
when the heap does not grow. -/
def KerHeap.Settles (k : KerHeap) (lk lc : List Ext) (new : Nat) (grants : List (Nat × Nat)) (res : Realloc) : Prop :=
  (∃ lk', Called .ker k.m lk 0 0 new grants res lk') ∨ ∃ used, grants = used ++ res.rest ∧ (∀ g ∈ used, g.2 = 0) ∧
    ((∃ lc', Done .crit k.m lc 0 0 new [] res.m lc' res.new) ∨ (res.m = k.m ∧ res.new = 0))

theorem KerHeap.Inv.pass_alloc (critical : Bool)
    (hroom : new ≠ 0 → 16 ≤ new) (h8 : new % 8 = 0) (hb : new + 16 < 2 ^ 64)
    (hgr : ∀ g ∈ grants, g.2 ≠ 0 → EntryOk ⟨g.1, g.2⟩ ∧ new + 16 ≤ g.2 ∧ g.2 ≤ new + maxSize)
    (hfresh : ∀ x, cover k.got x + cover (regions grants) x ≤ 1) (n : Nat) :
    ∃ res, pass (k.env critical) (n + 2) false k.m 0 0 new grants = some res ∧ k.Settles lk lc new grants res := by
  obtain ⟨hker, hcrit⟩ := h.requests hroom h8 hb
  obtain ⟨hpick, hretry⟩ := h.pick critical
  have hnull : SizeOk 0 0 0 := by simp [SizeOk]
  rcases pass_cases hker hpick hnull (n + 1) grants with ⟨m', lk', r, hp, hdone⟩ | ⟨hn, -, pl, hplace, hp⟩
  · exact ⟨_, hp, .inl ⟨lk', .done [] rfl (by simp) hdone⟩⟩
  have hgrant : ∀ g ∈ grants.head?, g.2 ≠ 0 → GrantOk lk 0 0 new g ∧
      (k.env critical).pick false (g.1 + new) = .ker := by
    intro g hg hz
    have hmem : g ∈ grants := mem_of_head? hg
    obtain ⟨hok, hlarge⟩ := hgr g hmem hz
    refine h.grant hok hlarge fun x => ?_
    have h1 := hfresh x
    have h2 : hit ⟨g.1, g.2⟩ x ≤ cover (regions grants) x :=
      le_cover (mem_regions hmem) x
    omega
  rcases growHeap_ker hker hn hplace hgrant with ⟨g, rest, m', lk', hcons, hg, hdone⟩ | ⟨hz, hg⟩
  · rw [hg] at hp
    exact ⟨_, hp, .inl ⟨lk', .done [g] hcons (by simp) hdone⟩⟩
  · rw [hg] at hp
    cases critical with
    | false => exact ⟨_, hp, .inl ⟨lk, Called.fail hz hn⟩⟩
    | true =>
      obtain ⟨m', r, hp', hres⟩ := pass_crit hcrit hretry hnull n grants.tail
      refine ⟨⟨m', r, grants.tail⟩, hp.trans hp', .inr ?_⟩
      have hres' : (∃ lc', Done .crit k.m lc 0 0 new [] m' lc' r) ∨ (m' = k.m ∧ r = 0) :=
        hres.imp id And.right
      cases grants with
      | nil => exact ⟨[], rfl, by simp, hres'⟩
      | cons g rest => exact ⟨[g], rfl, by simpa using hz, hres'⟩

omit h in
theorem Done.entry {b : FreeId} {m' : HeapMem} {l' inn : List Ext} {r : Nat} (h : Done b m l 0 0 new inn m' l' r)
    (hr : r ≠ 0) : EntryOk ⟨r, new⟩ := h.ret fun hn => hr (h.freed hn)

theorem KerHeap.Inv.settle (hfresh : ∀ x, cover k.got x + cover (regions k.grants) x ≤ 1)
    (hres : k.Settles lk lc new k.grants res) :
    ∃ used lk' lc', k.grants = used ++ res.rest ∧ (res.new ≠ 0 → EntryOk ⟨res.new, new⟩) ∧
      (k.booked res.m res.new new (regions used ++ k.got) res.rest).Inv lk' lc' := by
  -- nothing came out of either list
  have hfail : ∀ used, (∀ g ∈ used, g.2 = 0) → res.m = k.m → res.new = 0 →
      (k.booked res.m res.new new (regions used ++ k.got) res.rest).Inv lk lc := by
    intro used hz hm hr
    rw [hm, hr]
    refine h.take_crit (r := 0) (Moves.refl h.crit) h.crit_gaps (fun h0 => absurd rfl h0) fun x => ?_
    rw [cover_append, (regions_empty hz).1]
    omega
  rcases hres with ⟨lk', hcalled⟩ | ⟨used, hrest, hz, ⟨lc', hdone⟩ | ⟨hm, hr⟩⟩
  · cases hcalled with
    | done used hrest _ hdone =>
      have hret := hdone.entry
      refine ⟨used, lk', lc, hrest, hret, h.take_ker hdone.moves hdone.gaps hret fun x => ?_⟩
      have := hfresh x
      rw [hrest] at this
      simp only [regions, map_append, cover_append] at this ⊢
      omega
    | failed used hrest hz hm hn hr hl =>
      exact ⟨used, lk, lc, hrest, fun h0 => absurd hr h0, hfail used hz hm hr⟩
  · have hret := hdone.entry
    refine ⟨used, lk, lc', hrest, hret, h.take_crit hdone.moves hdone.gaps hret fun x => ?_⟩
    rw [cover_append, (regions_empty hz).1]
    omega
  · exact ⟨used, lk, lc, hrest, fun h0 => absurd hr h0, hfail used hz hm hr⟩

omit h in
theorem KerHeap.Inv.clear {m' : HeapMem} {r : Nat}
    (h : (k.booked m' r new got grants).Inv lk lc) (hr : r ≠ 0) (hle : size ≤ new) :
    (k.booked (m'.memzero r size) r new got grants).Inv lk lc := by
  refine h.store_live (fun a ha => if_neg fun hin => ?_) rfl
  have : hit ⟨r, new⟩ a = 1 := hit_of hin.1 (by simp only [Ext.stop]; omega)
  rw [KerHeap.booked, block_of_ne hr] at ha
  simp [this] at ha

omit h in
theorem take_used {used rest : List (Nat × Nat)} (h : grants = used ++ rest) :
    grants.take (grants.length - rest.length) = used := by
  rw [h]
  simp

/-- An allocation of a size that `ALIGN` does not cut returns and keeps the reserve. -/
theorem KerHeap.Inv.alloc_ok (critical : Bool) (hgr : GrantsOk k.got size k.grants)
    (hsafe : size ≤ maxSize) : ∃ k' p lk' lc', k.alloc size critical = some (k', p) ∧ k'.Inv lk' lc' ∧
      GrantsOk k'.got size k'.grants := by
  have hsize : (roundNew size ≠ 0 → 16 ≤ roundNew size) ∧ roundNew size % 8 = 0 ∧
      roundNew size + 16 < 2 ^ 64 ∧ size ≤ roundNew size := by
    by_cases h0 : size = 0
    · rw [h0, roundNew_zero]
      decide
    · obtain ⟨h1, h2, h3, h4⟩ := roundNew_ne_zero h0 hsafe
      exact ⟨fun _ => h1, h2, h3, h4⟩
  obtain ⟨hroom, h8, hb, hle⟩ := hsize
  have hgrants : ∀ g ∈ k.grants, g.2 ≠ 0 → EntryOk ⟨g.1, g.2⟩ ∧ roundNew size + 16 ≤ g.2 ∧
      g.2 ≤ roundNew size + maxSize := by
    intro g hg hz
    have := hgr.ok g hg hz
    rwa [wadd_of_lt hb] at this
  obtain ⟨res, hp, hres⟩ := h.pass_alloc critical hroom h8 hb hgrants hgr.fresh k.grants.length
  obtain ⟨used, lk', lc', hrest, hret, hinv⟩ := h.settle hgr.fresh hres
  have hdrop : GrantsOk (regions used ++ k.got) size res.rest := GrantsOk.drop (by rwa [← hrest])
  have htake := take_used hrest
  have hcall : sreallocfunc (k.env critical) k.m 0 0 size k.grants = some res := by
    have hr8 : res.new % 8 = 0 := by
      by_cases hr : res.new = 0
      · rw [hr]
      · exact (hret hr).base_aligned
    simp [sreallocfunc, hp, hr8]
  have hblock : res.new ≠ 0 → block res.new (roundNew size) = block res.new (rounded size) := fun hr => by
    rw [roundNew_of (fun h0 => ?_) hsafe]
    have hroom := (hret hr).room
    rw [h0, roundNew_zero] at hroom
    exact absurd hroom (show ¬16 ≤ 0 by decide)
  by_cases hr : res.new = 0
  · refine ⟨k.afterAlloc size res, none, lk', lc', ?_, ?_, ?_⟩
    · simp [KerHeap.alloc, scalloc, hcall, hr]
    · simpa only [KerHeap.afterAlloc, KerHeap.booked, htake, hr, block_zero] using hinv
    · simpa only [KerHeap.afterAlloc, htake] using hdrop
  · have hb := (hret hr).bound
    simp only [Ext.stop] at hb
    refine ⟨k.afterAlloc size { res with m := res.m.memzero res.new size }, some res.new, lk', lc', ?_,
      ?_, ?_⟩
    · have hfits : ¬2 ^ 64 < res.new + size := by omega
      simp only [KerHeap.alloc, scalloc, hcall, if_neg hr, if_neg hfits]
    · simpa only [KerHeap.afterAlloc, KerHeap.booked, htake, hblock hr] using hinv.clear hr hle
    · simpa only [KerHeap.afterAlloc, htake] using hdrop

end

end Alloc

/-! ## Frees and growths -/

theorem KerHeap.Inv.free_ok {k : KerHeap} {lk lc : List Ext} {data size : Nat} (h : k.Inv lk lc)
    (critical : Bool) (hsize : size ≠ 0) (hle : size ≤ maxSize) (hlive : ⟨data, rounded size⟩ ∈ k.live) :
    ∃ k' lk' lc', k.free data size critical = some k' ∧ k'.Inv lk' lc' := by
  have hok := h.live_ok _ hlive
  have h8 : data % 8 = 0 := hok.base_aligned
  have hd : data ≠ 0 := Nat.pos_iff_ne_zero.mp hok.pos
  have hone := h.live_apart hlive
  -- a free on the list that the address picks
  have hfree : ∀ b l, FreeList k.m b l → Gaps l → (k.env critical).pick false data = b →
      (∀ x, cover l x + hit ⟨data, rounded size⟩ x ≤ 1) →
      ∃ m' l', k.free data size critical =
          some { k with m := m', live := k.live.erase ⟨data, rounded size⟩ } ∧
        Moves b k.m l m' l' [⟨data, rounded size⟩] [] ∧ Gaps l' := by
    intro b l hl hg hb hx
    have hreq : Request k.m b l data (rounded size) 0 :=
      ⟨hl, hg, fun _ => hok, fun x => by have := hx x; rw [block_of_ne hd]; simpa using this,
        fun h0 => absurd rfl h0, rfl, by decide⟩
    have hold : SizeOk data size (rounded size) := by simp [SizeOk, hd, hsize, roundOld_eq hle]
    rcases pass_cases hreq hb hold 1 [] with ⟨m', l', r, hp, hdone⟩ | ⟨hn, -⟩
    · have hr := hdone.freed rfl
      subst hr
      refine ⟨m', l', ?_, ?_, hdone.gaps⟩
      · simp [KerHeap.free, sfree, sreallocfunc, h8, roundNew_zero, hp]
      · have hmoves := hdone.moves
        rw [block_of_ne hd] at hmoves
        simpa using hmoves
    · exact absurd rfl hn
  have hker : (k.env critical).inKernel = true := rfl
  have hcrit : (k.env critical).isCrit data = k.inReserve ⟨data, rounded size⟩ := rfl
  cases hin : k.inReserve ⟨data, rounded size⟩ with
  | false =>
    have hpick : (k.env critical).pick false data = .ker := by
      simp [AllocEnv.pick, hker, hcrit, hin]
    obtain ⟨m', l', hf, hm, hg⟩ := hfree .ker lk h.ker h.ker_gaps hpick fun x => by have := hone x; omega
    have hcrit' := KerHeap.Inv.other h.crit hm (by decide) fun x => by simpa [Nat.add_right_comm] using hone x
    exact ⟨_, l', lc, hf, h.put hlive hm.list hg hcrit' h.crit_gaps (fun x => by simpa [hin] using hm.bytes x)
      fun x => by simp [hin]⟩
  | true =>
    have hpick : (k.env critical).pick false data = .crit := by
      simp [AllocEnv.pick, hker, hcrit, hin]
    obtain ⟨m', l', hf, hm, hg⟩ := hfree .crit lc h.crit h.crit_gaps hpick fun x => by have := hone x; omega
    have hker' := KerHeap.Inv.other h.ker hm (by decide) fun x => by
      have := hone x
      simp only [cover_cons, cover_nil]
      omega
    exact ⟨_, lk, l', hf, h.put hlive hker' h.ker_gaps hm.list hg (fun x => by simp [hin])
      fun x => by simpa [hin] using hm.bytes x⟩

/-- The heap has not crashed, its reserve is intact, and the answers to come are right for
requests of `size`. -/
def Heaped (size : Nat) (h : Option KerHeap) : Prop :=
  ∃ k lk lc, h = some k ∧ k.Inv lk lc ∧ GrantsOk k.got size k.grants

section Grow
variable {L : Type} {s : SoulMem L (Option KerHeap)}

/-- What a growth keeps: the sizes of the soul and the heap. -/
structure Grows (s s' : SoulMem L (Option KerHeap)) : Prop where
  bytes : s'.bytes = s.bytes
  keeps : s.bytes ≤ maxSize → Heaped s.bytes s.heap → Heaped s.bytes s'.heap

theorem Grows.trans {s' s'' : SoulMem L (Option KerHeap)} (h : Grows s s') (h' : Grows s' s'') :
    Grows s s'' := by
  have hkeeps := h'.keeps
  rw [h.bytes] at hkeeps
  exact ⟨h'.bytes.trans h.bytes, fun hle hh => hkeeps hle (h.keeps hle hh)⟩

theorem growOne_grows (s : SoulMem L (Option KerHeap)) : Grows s (growOne kernelAllocator s).1 := by
  refine ⟨?_, fun hle hh => ?_⟩
  · unfold growOne
    split <;> rfl
  · obtain ⟨k, lk, lc, hk, hinv, hgr⟩ := hh
    obtain ⟨k', p, lk', lc', ha, hinv', hgr'⟩ := hinv.alloc_ok s.critical hgr hle
    refine ⟨k', lk', lc', ?_, hinv', hgr'⟩
    cases p <;> simp [growOne, kernelAllocator, hk, ha]

theorem growMany_grows (n : Nat) (s : SoulMem L (Option KerHeap)) :
    Grows s (growMany kernelAllocator n s) := by
  induction n generalizing s with
  | zero => exact ⟨rfl, fun _ => id⟩
  | succ n ih => exact (growOne_grows s).trans (ih _)

theorem objectGrow_grows (s : SoulMem L (Option KerHeap)) :
    Grows s (objectGrow kernelAllocator s).1 := by
  unfold objectGrow
  split
  · have h := (growMany_grows (s.min - 1) { s with newmin := s.min }).trans (growOne_grows _)
    exact ⟨h.bytes, h.keeps⟩
  · exact growOne_grows s

end Grow

/-! ## Runs -/

section Run
variable {L : Type} {k : KerHeap} {lk lc : List Ext}

theorem kerStep_ok {op : KerOp L} (h : k.Inv lk lc) (hok : op.Ok k) (hsafe : op.Safe) :
    ∃ k' lk' lc', kerStep k op = some k' ∧ k'.Inv lk' lc' := by
  cases op with
  | scalloc size critical grants =>
    obtain ⟨k', p, lk', lc', ha, hinv, -⟩ := (h.regrant grants).alloc_ok critical hok hsafe
    exact ⟨k', lk', lc', by simp only [kerStep, ha], hinv⟩
  | sfree data size critical => exact h.free_ok critical hok.1 hsafe hok.2
  | grow s grants =>
    obtain ⟨k', lk', lc', hk', hinv, -⟩ := (objectGrow_grows { s with heap := some { k with grants := grants } }).keeps
      hsafe ⟨_, lk, lc, rfl, h.regrant grants, hok⟩
    exact ⟨k', lk', lc', hk', hinv⟩

theorem kerRun_ok {ops : List (KerOp L)} (h : k.Inv lk lc)
    (hok : KerAlong (fun k op => op.Ok k) k ops) (hsafe : ∀ op ∈ ops, op.Safe) :
    ∃ k' lk' lc', kerRun k ops = some k' ∧ k'.Inv lk' lc' := by
  induction ops generalizing k lk lc with
  | nil => exact ⟨k, lk, lc, rfl, h⟩
  | cons op ops ih =>
    obtain ⟨hop, hops⟩ := forall_mem_cons.mp hsafe
    obtain ⟨k1, lk1, lc1, hstep, h1⟩ := kerStep_ok h hok.1 hop
    obtain ⟨k', lk', lc', hrun, h'⟩ := ih h1 (hok.2 k1 hstep) hops
    exact ⟨k', lk', lc', by simp only [kerRun, hstep, hrun], h'⟩

/-- The stores of `heap_init` make the block at `r` the only entry of the critical
list. -/
theorem reserve_list {r : Nat} (hok : EntryOk ⟨r, critSize⟩) :
    FreeList (((m.write (.head .crit) r).store r 0).setSize r critSize) .crit [⟨r, critSize⟩] := by
  refine ⟨⟨HeapMem.links_some (HeapMem.read_write_self m (.head .crit) r) hok.pos, ?_⟩, ?_, ?_,
    pairwise_singleton _ _⟩
  · have hnull : (((m.write (.head .crit) r).store r 0).setSize r critSize).read (.next r) = 0 := by
      rw [HeapMem.read_next, HeapMem.setSize_off (by omega), HeapMem.store_self]
    exact if_pos hnull
  · intro e he
    rw [mem_singleton.mp he]
    exact HeapMem.setSize_size _ _ _
  · intro e he
    rwa [mem_singleton.mp he]

theorem reserve_frame {r : Nat} (h : FreeList m .ker l)
    (hok : EntryOk ⟨r, critSize⟩) (hone : ∀ x, cover l x + hit ⟨r, critSize⟩ x ≤ 1) :
    FreeList (((m.write (.head .crit) r).store r 0).setSize r critSize) .ker l := by
  refine h.frame (fun a ha => ?_) ?_
  · have hword : ∀ x, r ≤ x → x < r + 16 → a ≠ x := by
      rintro x hlo hhi rfl
      have h1 := hone a
      have h2 : hit ⟨r, critSize⟩ a = 1 :=
        hit_of hlo (by have := hok.room; simp only [Ext.stop] at *; omega)
      omega
    rw [HeapMem.setSize_off (hword _ (by omega) (by omega)),
      HeapMem.store_off (hword _ (by omega) (by omega)), HeapMem.write_mem_off (by simp)]
  · exact HeapMem.write_heads_off (c := .head .crit) (b := .ker) (by simp) m r

theorem bootHeap_inv {s : Arena} (h : Arena.Inv .ker s l)
    (hgr : GrantsOk s.got critSize grants) (hboot : bootHeap s grants = some k) :
    ∃ lk, k.Inv lk [k.reserve] := by
  have hcall : (⟨0, 0, critSize, grants⟩ : ReallocOp).Ok kernelEnv .ker s := by
    refine ⟨rfl, fun h0 => absurd rfl h0, fun g hg hz => ?_⟩
    have hmem : g ∈ grants := mem_of_head? hg
    obtain ⟨hok, hlarge, -⟩ := hgr.ok g hmem hz
    refine ⟨hok, hlarge, fun x => ?_, fun x _ _ => kernelEnv_isCrit x⟩
    have h1 := hgr.fresh x
    have h2 := le_cover (mem_regions hmem) x
    omega
  have hfreed : ∀ g ∈ grants.head?, g.2 ≤ (if kernelEnv.inKernel then roundNew critSize else 0) + maxSize := fun g hg => by
    by_cases hz : g.2 = 0
    · omega
    · exact (hgr.ok g (mem_of_head? hg) hz).2.2
  obtain ⟨s', l', hstep, h'⟩ := arenaStep_ok h hcall ⟨fun h0 => absurd rfl h0, show critSize ≤ maxSize by decide, hfreed⟩ fun _ => rfl
  cases hs : sreallocfunc kernelEnv s.m 0 0 critSize grants with
  | none => simp [arenaStep, hs] at hstep
  | some res =>
    have hinit : sreallocfunc ⟨true, false, 2 ^ 64 - 1, 0⟩ s.m 0 0 critSize grants = some res := hs
    by_cases hr : res.new = 0
    · simp only [bootHeap, heapInit, hinit, if_pos hr, reduceCtorEq] at hboot
    simp only [bootHeap, heapInit, hinit, if_neg hr, some.injEq] at hboot
    simp only [arenaStep, hs, some.injEq] at hstep
    subst hboot hstep
    have hlive : (arenaAfter s ⟨0, 0, critSize, grants⟩ res).live = ⟨res.new, critSize⟩ :: s.live := by
      have hround : rounded critSize = critSize := by decide
      simp [arenaAfter, liveAfter, hr, hround, block_of_ne hr]
    have hok := h'.live_ok ⟨res.new, critSize⟩ (by rw [hlive]; simp)
    have hbytes : ∀ x, cover l' x + (hit ⟨res.new, critSize⟩ x + cover s.live x) ≤ 1 := by
      intro x
      have h1 := h'.bytes x
      have h2 := h'.one x
      rw [hlive, cover_cons] at h1
      omega
    refine ⟨l', ?_, h'.gaps, ?_, pairwise_singleton _ _, fun e he => ?_, fun x => ?_, h'.one,
      hok.low, rfl, fun x => ?_⟩
    · refine reserve_frame h'.list hok fun x => ?_
      have := hbytes x
      omega
    · exact reserve_list hok
    · exact h'.live_ok e (by rw [hlive]; exact .tail _ he)
    · have h1 := h'.bytes x
      rw [hlive] at h1
      simp only [cover_cons, cover_nil, KerHeap.reserve] at h1 ⊢
      rw [Nat.add_zero, Nat.add_assoc]
      exact h1
    -- the blocks held before are none of the reserve
    · rw [filter_eq_nil_iff.mpr]
      · simp [KerHeap.reserve]
      · intro e he hin
        rw [KerHeap.Inv.inReserve_mem] at hin
        simp only [] at hin
        have h1 := hbytes e.base
        have h2 : hit e e.base ≤ cover s.live e.base := le_cover he e.base
        have h4 := KerHeap.Inv.hit_base (h'.live_ok e (by rw [hlive]; exact .tail _ he))
        have h5 : hit ⟨res.new, critSize⟩ e.base = 1 := by
          have hsize : 0 < critSize := by decide
          exact hit_of hin.1 (by simp only [Ext.stop]; omega)
        omega

theorem KerHeap.Inv.inside_or_apart (h : k.Inv lk lc) {e : Ext} (he : e ∈ k.live) :
    (k.inReserve e = true → k.reserve.base ≤ e.base ∧ e.stop ≤ k.reserve.stop) ∧
      (k.inReserve e = false → Apart e k.reserve) := by
  have hroom := (h.live_ok e he).room
  constructor
  · intro hin
    have hmem : e ∈ k.live.filter k.inReserve := mem_filter.mpr ⟨he, hin⟩
    refine inside_of_hit (by omega) fun x => ?_
    have h1 := h.shared x
    have h2 := le_cover hmem x
    omega
  · intro hin
    refine apart_of_hit (by omega) (show 0 < critSize by decide) fun x => ?_
    have h1 := h.shared x
    have h2 := h.once x
    have h3 := cover_filter_erase (p := k.inReserve) he x
    have h4 := cover_erase he x
    have h5 := cover_filter_le k.inReserve (k.live.erase e) x
    rw [hin] at h3
    simp only [Bool.false_eq_true, if_false] at h3
    omega

end Run

/-- **The critical reserve.** Behind `heap_init`, in every run of in-kernel `_scalloc`,
`_sfree` and `object_grow` calls, with `alloc_critical` raised or not, whose sizes
`ALIGN` does not cut: the calls return, and in the state reached the entries of the
critical list and the live blocks in the reserve cover its bytes and no others, each
once; no entry of the kernel's list has a byte of it; and a live block lies in it or
shares no byte with it. -/
theorem crit_run {L : Type} (s : Arena) (l : List Ext) (h : Arena.Inv .ker s l)
    (grants : List (Nat × Nat)) (hgr : GrantsOk s.got critSize grants) (k : KerHeap)
    (hboot : bootHeap s grants = some k) (ops : List (KerOp L))
    (hok : KerAlong (fun k op => op.Ok k) k ops) (hsafe : ∀ op ∈ ops, op.Safe) :
    ∃ k' lk lc, kerRun k ops = some k' ∧ FreeList k'.m .ker lk ∧ FreeList k'.m .crit lc ∧
      (∀ x, cover lc x + cover (k'.live.filter k'.inReserve) x = hit k'.reserve x) ∧
      (∀ e ∈ k'.live, (k'.inReserve e = true →
          k'.reserve.base ≤ e.base ∧ e.stop ≤ k'.reserve.stop) ∧
        (k'.inReserve e = false → Apart e k'.reserve)) ∧
      (∀ e ∈ lk, Apart e k'.reserve) ∧
      ∀ e ∈ lc, k'.reserve.base ≤ e.base ∧ e.stop ≤ k'.reserve.stop := by
  obtain ⟨lk₀, h₀⟩ := bootHeap_inv h hgr hboot
  obtain ⟨k', lk, lc, hrun, h'⟩ := kerRun_ok h₀ hok hsafe
  refine ⟨k', lk, lc, hrun, h'.ker, h'.crit, h'.shared, fun e he => h'.inside_or_apart he, fun e he => ?_,
    fun e he => ?_⟩
  · have hroom := (h'.ker.ok e he).room
    refine apart_of_hit (by omega) (show 0 < critSize by decide) fun x => ?_
    have h₁ := h'.shared x
    have h₂ := h'.once x
    have h₃ := le_cover he x
    have h₄ := cover_filter_le k'.inReserve k'.live x
    omega
  · have hroom := (h'.crit.ok e he).room
    refine inside_of_hit (by omega) fun x => ?_
    have h₁ := h'.shared x
    have h₂ := le_cover he x
    omega

theorem bootGrants_ok : GrantsOk emptyArena.got critSize [(0x100000, 0x4010)] := by
  refine ⟨fun g hg _ => ?_, fun x => ?_⟩
  · rw [mem_singleton.mp hg]
    exact ⟨⟨by decide, by decide, by decide, by decide, by decide⟩, by decide, by decide⟩
  · simp only [emptyArena, cover_nil, regions_cons, regions_nil, cover_cons, hit]
    split <;> omega

/-- A reserve set aside in an empty heap; a critical request that the heap cannot meet
is satisfied from it, and the block goes back. -/
theorem crit_run_reserve :
    ∃ k k' : KerHeap, ∃ lk lc, bootHeap emptyArena [(0x100000, 0x4010)] = some k ∧
      kerRun k [(.scalloc 100 true [] : KerOp Unit), .sfree 0x100000 100 false] = some k' ∧
      FreeList k'.m .ker lk ∧ FreeList k'.m .crit lc ∧
        (∀ x, cover lc x + cover (k'.live.filter k'.inReserve) x = hit k'.reserve x) ∧
        (∀ e ∈ k'.live, (k'.inReserve e = true →
            k'.reserve.base ≤ e.base ∧ e.stop ≤ k'.reserve.stop) ∧
          (k'.inReserve e = false → Apart e k'.reserve)) ∧
        (∀ e ∈ lk, Apart e k'.reserve) ∧
        ∀ e ∈ lc, k'.reserve.base ≤ e.base ∧ e.stop ≤ k'.reserve.stop := by
  have hval : (bootHeap emptyArena [(0x100000, 0x4010)]).map
      (fun k => (k.got, (kerStep k (.scalloc 100 true [] : KerOp Unit)).map KerHeap.live)) =
      some ([⟨0x100000, 0x4010⟩], some [⟨0x100000, 104⟩]) := by
    decide +kernel
  obtain ⟨k, hboot, hk⟩ := map_eq_some_iff.mp hval
  obtain ⟨hgot, hlive⟩ := Prod.mk.inj hk
  have hok : KerAlong (fun k op => op.Ok k) k
      [(.scalloc 100 true [] : KerOp Unit), .sfree 0x100000 100 false] := by
    refine ⟨⟨by simp, fun x => ?_⟩, fun k₁ hk₁ => ⟨⟨by decide, ?_⟩, fun _ _ => trivial⟩⟩
    · rw [hgot]
      simp only [cover_nil, regions_nil, cover_cons, hit]
      split <;> omega
    · rw [hk₁, map_some, some.injEq] at hlive
      rw [hlive]
      decide
  obtain ⟨k', lk, lc, h⟩ := crit_run emptyArena [] (emptyArena_inv .ker) _ bootGrants_ok k hboot _ hok
    (by simp [KerOp.Safe, maxSize])
  exact ⟨k, k', lk, lc, hboot, h⟩

/-- A request of 2 ^ 32 + 32 bytes is answered with 32 bytes below the reserve, and the
`memset` of its size clears the entry of the critical list. -/
theorem crit_run_cut :
    ∃ k k' : KerHeap, bootHeap emptyArena [(0x100000, 0x4010)] = some k ∧
      KerAlong (fun k op => op.Ok k) k [(.scalloc (2 ^ 32 + 32) false [(0x1000, 0x1000)] : KerOp Unit)] ∧
      kerRun k [(.scalloc (2 ^ 32 + 32) false [(0x1000, 0x1000)] : KerOp Unit)] = some k' ∧
      ¬∃ lc, FreeList k'.m .crit lc := by
  have hval : (bootHeap emptyArena [(0x100000, 0x4010)]).map (fun k => (k.got,
      (kerRun k [(.scalloc (2 ^ 32 + 32) false [(0x1000, 0x1000)] : KerOp Unit)]).map fun k =>
        (k.m.heads .crit, k.m.size 0x100000))) = some ([⟨0x100000, 0x4010⟩], some (0x100000, 0)) := by
    decide +kernel
  obtain ⟨k, hboot, hk⟩ := map_eq_some_iff.mp hval
  obtain ⟨hgot, hrun⟩ := Prod.mk.inj hk
  obtain ⟨k', hk', hlist⟩ := map_eq_some_iff.mp hrun
  obtain ⟨hhead, hsize⟩ := Prod.mk.inj hlist
  refine ⟨k, k', hboot, ⟨⟨fun g hg _ => ?_, fun x => ?_⟩, fun _ _ => trivial⟩, hk', fun ⟨lc, hlc⟩ => ?_⟩
  · rw [mem_singleton.mp hg]
    exact ⟨⟨by decide, by decide, by decide, by decide, by decide⟩, by decide, by decide⟩
  · rw [hgot]
    have hlow : hit ⟨0x1000, 0x1000⟩ x = if 0x1000 ≤ x ∧ x < 0x2000 then 1 else 0 := rfl
    have hhigh : hit ⟨0x100000, 0x4010⟩ x = if 0x100000 ≤ x ∧ x < 0x104010 then 1 else 0 := rfl
    simp only [regions_cons, regions_nil, cover_cons, cover_nil, hlow, hhigh]
    by_cases hx : x < 0x2000
    · rw [if_neg (show ¬(0x100000 ≤ x ∧ x < 0x104010) by omega)]
      split <;> omega
    · rw [if_neg (show ¬(0x1000 ≤ x ∧ x < 0x2000) by omega)]
      split <;> omega
  · -- the first entry has no bytes left
    have hread : k'.m.read (cellAt .crit []) = firstBase lc := FreeList.read (k := []) hlc
    cases lc with
    | nil => exact absurd (hhead.symm.trans hread) (by decide)
    | cons e lc =>
      have hbase : e.base = 0x100000 := (hhead.symm.trans hread).symm
      have hesize : e.size = 0 := by
        rw [← hlc.sizes e (by simp), hbase, hsize]
      exact absurd (hlc.ok e (by simp)).room (by omega)

end QRV.Nano
