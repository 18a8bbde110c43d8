import QRV.Nano.AllocCall

/- Runs of `_sreallocfunc` on one free list. Beside memory the state keeps what a
   caller knows: the blocks it holds, the regions `alloc` has given, and the block
   the last call returned. The free entries and the live blocks cover together what
   was obtained, every byte once (`Arena.Inv`); a call keeps that, and so does a run.
   It holds while no size reaches 2^32 - 8: `ALIGN` drops the high half of a size, so
   that a request of more is answered with a block that is too small
   (`arena_run_cut`). -/
namespace QRV.Nano
open Extent List

/-- Memory and the books of the callers. -/
structure Arena where
  m : HeapMem
  live : List Ext
  got : List Ext
  /-- the block the last call handed out, if it did -/
  last : List Ext

/-- A call: the block handed in with the size it was allocated with, the size asked
for and the answers of `alloc`. -/
structure ReallocOp where
  data : Nat
  old : Nat
  new : Nat
  grants : List (Nat × Nat)

/-- The bytes a caller holds that has asked for `n`: whole words of them, and not less
than an entry. -/
def rounded (n : Nat) : Nat := if n ≤ 16 then 16 else (n + 7) / 8 * 8

section Steps
variable (env : AllocEnv)

/-- The blocks held behind a call that returned `r`: a `NULL` for a size other than 0
leaves the caller with what it had. -/
def liveAfter (live : List Ext) (op : ReallocOp) (r : Nat) : List Ext :=
  if op.new ≠ 0 ∧ r = 0 then live
  else
    block r (rounded op.new) ++
      if op.data = 0 then live else live.erase ⟨op.data, rounded op.old⟩

/-- The books behind a call. -/
def arenaAfter (s : Arena) (op : ReallocOp) (res : Realloc) : Arena where
  m := res.m
  live := liveAfter s.live op res.new
  got := regions (op.grants.take (op.grants.length - res.rest.length)) ++ s.got
  last := block res.new (rounded op.new)

def arenaStep (s : Arena) (op : ReallocOp) : Option Arena :=
  match sreallocfunc env s.m op.data op.old op.new op.grants with
  | none => none
  | some res => some (arenaAfter s op res)

def arenaRun : Arena → List ReallocOp → Option Arena
  | s, [] => some s
  | s, op :: ops =>
    match arenaStep env s op with
    | none => none
    | some s' => arenaRun s' ops

/-- What the callers and `alloc` promise of a call on the list `b`: a block handed in
is a live one with the size it was asked for with, and a region is fresh, aligned,
as large as asked for and no part of the critical reserve. -/
structure ReallocOp.Ok (b : FreeId) (s : Arena) (op : ReallocOp) : Prop where
  list : env.pick false op.data = b
  data : op.data ≠ 0 → op.old ≠ 0 ∧ ⟨op.data, rounded op.old⟩ ∈ s.live
  grant : ∀ g ∈ op.grants.head?, g.2 ≠ 0 → EntryOk ⟨g.1, g.2⟩ ∧ wadd (roundNew op.new) 16 ≤ g.2 ∧
    (∀ x, cover s.got x + hit ⟨g.1, g.2⟩ x ≤ 1) ∧
    ∀ x, g.1 ≤ x → x < g.1 + g.2 → env.isCrit x = false

/-- No size is cut by `ALIGN`: that of the block handed in, that asked for, and that of
the part of a region that is freed. In the kernel that is what is left over. -/
structure ReallocOp.Safe (op : ReallocOp) : Prop where
  old : op.data ≠ 0 → op.old ≤ maxSize
  new : op.new ≤ maxSize
  freed : ∀ g ∈ op.grants.head?, g.2 ≤ (if env.inKernel then roundNew op.new else 0) + maxSize

/-- `P` holds of every call of a run, in the state it starts in. -/
def ArenaAlong (P : Arena → ReallocOp → Prop) : Arena → List ReallocOp → Prop
  | _, [] => True
  | s, op :: ops => P s op ∧ ∀ s', arenaStep env s op = some s' → ArenaAlong P s' ops

end Steps

/-- The free entries `l` and the live blocks share out what was obtained. -/
structure Arena.Inv (b : FreeId) (s : Arena) (l : List Ext) : Prop where
  list : FreeList s.m b l
  gaps : Gaps l
  live_ok : ∀ e ∈ s.live, EntryOk e
  bytes : ∀ x, cover l x + cover s.live x = cover s.got x
  one : ∀ x, cover s.got x ≤ 1
  sum : total l + total s.live = total s.got
  last : ∀ e ∈ s.last, ∃ others, s.live = e :: others

/-! ## Sizes -/

theorem roundNew_zero : roundNew 0 = 0 := rfl

theorem roundNew_of {n : Nat} (hn : n ≠ 0) (h : n ≤ maxSize) : roundNew n = rounded n := by
  rw [roundNew, if_neg hn, rounded, alignUp_of_le h]

theorem roundOld_eq {n : Nat} (h : n ≤ maxSize) : roundOld n = rounded n := by
  rw [roundOld, rounded, alignUp_of_le h]
  split <;> split <;> omega

theorem roundNew_ne_zero {n : Nat} (hn : n ≠ 0) (h : n ≤ maxSize) :
    16 ≤ roundNew n ∧ roundNew n % 8 = 0 ∧ roundNew n + 16 < 2 ^ 64 ∧ n ≤ roundNew n := by
  rw [roundNew_of hn h]
  unfold rounded
  unfold maxSize at h
  split <;> omega

/-! ## A call -/

section Call
variable {env : AllocEnv} {b : FreeId} {s : Arena} {l : List Ext} {op : ReallocOp}

theorem regions_empty {used : List (Nat × Nat)} (h : ∀ g ∈ used, g.2 = 0) :
    (∀ x, cover (regions used) x = 0) ∧ total (regions used) = 0 := by
  induction used with
  | nil => exact ⟨fun _ => rfl, rfl⟩
  | cons g used ih =>
    obtain ⟨hc, ht⟩ := ih fun g' hg' => h g' (by simp [hg'])
    have hg : g.2 = 0 := h g (by simp)
    refine ⟨fun x => ?_, by simp [ht, hg]⟩
    have hhit : hit ⟨g.1, g.2⟩ x = 0 := if_neg (by simp only [Ext.stop]; omega)
    simp [hc x, hhit]

theorem cover_erase {live : List Ext} {e : Ext} (h : e ∈ live) (x : Nat) :
    cover live x = hit e x + cover (live.erase e) x :=
  cover_perm (perm_cons_erase h) x


/-- The old size as the pass works with it. -/
def oldOf (op : ReallocOp) : Nat := if op.data = 0 then op.old else rounded op.old

section
variable (h : Arena.Inv b s l) (hok : op.Ok env b s) (hsafe : op.Safe env)
include hok

theorem ReallocOp.Ok.split :
    (∀ x, cover s.live x = cover (block op.data (oldOf op)) x +
      cover (if op.data = 0 then s.live else s.live.erase ⟨op.data, rounded op.old⟩) x) ∧
    total s.live = total (block op.data (oldOf op)) +
      total (if op.data = 0 then s.live else s.live.erase ⟨op.data, rounded op.old⟩) := by
  by_cases hd : op.data = 0
  · simp [hd]
  · rw [if_neg hd, block_of_ne hd, oldOf, if_neg hd]
    refine ⟨fun x => ?_, ?_⟩
    · simpa using cover_erase (hok.data hd).2 x
    · simpa using total_perm (perm_cons_erase (hok.data hd).2)

include h hsafe

theorem Arena.Inv.request : Request s.m b l op.data (oldOf op) (roundNew op.new) := by
  obtain ⟨hroom, h8, hbound⟩ : (roundNew op.new ≠ 0 → 16 ≤ roundNew op.new) ∧ roundNew op.new % 8 = 0 ∧
      roundNew op.new + 16 < 2 ^ 64 := by
    by_cases h0 : op.new = 0
    · rw [h0]
      decide
    · have := roundNew_ne_zero h0 hsafe.new
      omega
  refine ⟨h.list, h.gaps, fun hd => ?_, fun x => ?_, hroom, h8, hbound⟩
  · rw [oldOf, if_neg hd]
    exact h.live_ok _ (hok.data hd).2
  · have h1 := h.bytes x
    have h2 := h.one x
    have h3 := hok.split.1 x
    omega

theorem Arena.Inv.grant {g : Nat × Nat} (hg : g ∈ op.grants.head?) (hz : g.2 ≠ 0) :
    GrantOk l op.data (oldOf op) (roundNew op.new) g ∧ (env.inKernel = false → g.2 ≤ maxSize) := by
  obtain ⟨hentry, hlarge, hfresh, -⟩ := hok.grant g hg hz
  have hreq := h.request hok hsafe
  rw [wadd_of_lt hreq.new_bound] at hlarge
  have hfreed := hsafe.freed g hg
  refine ⟨⟨hentry, hlarge, ?_, fun x => ?_⟩, fun hout => ?_⟩
  · split at hfreed <;> omega
  · have h1 := h.bytes x
    have h2 := hfresh x
    have h3 := hok.split.1 x
    omega
  · rw [hout, if_neg Bool.false_ne_true] at hfreed
    omega

theorem call_ok (hcrit : b = .ker → env.critical = false) :
    ∃ res l', sreallocfunc env s.m op.data op.old op.new op.grants = some res ∧
      Called b s.m l op.data (oldOf op) (roundNew op.new) op.grants res l' := by
  have hreq := h.request hok hsafe
  have hsize : SizeOk op.data op.old (oldOf op) := by
    unfold SizeOk oldOf
    split_ifs with hd
    · rfl
    · exact ⟨(hok.data hd).1, roundOld_eq (hsafe.old hd)⟩
  have hker : (env.inKernel = false ↔ b = .proc) := by
    rw [← hok.list, AllocEnv.pick]
    cases env.inKernel <;> simp
    split <;> simp
  obtain ⟨res, l', hp, hcalled⟩ : ∃ res l', pass env (op.grants.length + 2) false s.m op.data op.old
      (roundNew op.new) op.grants = some res ∧
      Called b s.m l op.data (oldOf op) (roundNew op.new) op.grants res l' := by
    cases b with
    | proc => exact pass_proc hreq hok.list hsize (fun g hg hz => (h.grant hok hsafe hg hz).imp_right fun h => h (hker.mpr rfl)) _
    | crit =>
      obtain ⟨m', r, hp, ⟨l', hdone⟩ | ⟨hn, rfl, rfl⟩⟩ :=
        pass_crit hreq hok.list hsize (op.grants.length + 1) op.grants
      · exact ⟨_, l', hp, .done [] rfl (by simp) hdone⟩
      · exact ⟨_, l, hp, .failed [] rfl (by simp) rfl hn rfl rfl⟩
    | ker =>
      refine pass_ker hreq hok.list (hcrit rfl) hsize (fun g hg hz => ?_) _
      refine ⟨(h.grant hok hsafe hg hz).1, ?_⟩
      obtain ⟨-, hlarge, -, hout⟩ := hok.grant g hg hz
      rw [wadd_of_lt hreq.new_bound] at hlarge
      have hin : env.inKernel = true := Bool.eq_true_of_not_eq_false fun hc => nomatch hker.mp hc
      simp [AllocEnv.pick, hin, hout (g.1 + roundNew op.new) (by omega) (by omega)]
  have h8 : op.data % 8 = 0 := by
    by_cases hd : op.data = 0
    · rw [hd]
    · exact (hreq.old_ok hd).base_aligned
  have hr8 : res.new % 8 = 0 := by
    cases hcalled with
    | done used hrest hshort hdone =>
      by_cases hn : roundNew op.new = 0
      · rw [hdone.freed hn]
      · exact (hdone.ret hn).base_aligned
    | failed used hrest hz hm hn hr hl => rw [hr]
  exact ⟨res, l', by simp [sreallocfunc, h8, hp, hr8], hcalled⟩

theorem arenaStep_ok (hcrit : b = .ker → env.critical = false) :
    ∃ s' l', arenaStep env s op = some s' ∧ Arena.Inv b s' l' := by
  obtain ⟨res, l', hcall, hcalled⟩ := call_ok h hok hsafe hcrit
  refine ⟨arenaAfter s op res, l', by simp only [arenaStep, hcall], ?_⟩
  have htake : ∀ used, op.grants = used ++ res.rest →
      op.grants.take (op.grants.length - res.rest.length) = used := by
    intro used hrest
    rw [hrest]
    simp
  cases hcalled with
  | done used hrest hshort hdone =>
    have hblock : block res.new (rounded op.new) = block res.new (roundNew op.new) := by
      by_cases h0 : op.new = 0
      · rw [hdone.freed (by rw [h0, roundNew_zero]), block_zero, block_zero]
      · rw [roundNew_of h0 hsafe.new]
    have hlive : liveAfter s.live op res.new = block res.new (roundNew op.new) ++
        if op.data = 0 then s.live else s.live.erase ⟨op.data, rounded op.old⟩ := by
      rw [← hblock]
      refine if_neg fun hc => ?_
      have hne := (roundNew_ne_zero hc.1 hsafe.new).1
      have hpos := (hdone.ret (by omega)).pos
      simp only [] at hpos
      omega
    obtain ⟨hcover, htotal⟩ := hok.split
    have hgot : ∀ x, cover (regions used ++ s.got) x ≤ 1 := by
      intro x
      have h1 := h.one x
      match used, hshort, hrest with
      | [], _, _ => simpa using h1
      | [g], _, hrest =>
        by_cases hz : g.2 = 0
        · have := (regions_empty (by simpa using hz : ∀ g' ∈ [g], g'.2 = 0)).1 x
          rw [cover_append, this]
          omega
        · have := (hok.grant g (by rw [hrest]; rfl) hz).2.2.1 x
          simp only [regions_cons, regions_nil, cover_append, cover_cons, cover_nil]
          omega
    refine ⟨hdone.moves.list, hdone.gaps, fun e he => ?_, fun x => ?_, ?_, ?_, fun e he => ?_⟩
    · simp only [arenaAfter, hlive] at he
      rcases mem_append.mp he with he | he
      · exact block_ok (fun hr => hdone.ret fun hn => hr (hdone.freed hn)) e he
      · refine h.live_ok e ?_
        split at he
        · exact he
        · exact mem_of_mem_erase he
    · have h1 := hdone.moves.bytes x
      have h2 := h.bytes x
      have h3 := hcover x
      simp only [arenaAfter, hlive, htake used hrest, cover_append] at h1 ⊢
      omega
    · simpa only [arenaAfter, htake used hrest] using hgot
    · have h1 := hdone.moves.sum
      have h2 := h.sum
      simp only [arenaAfter, hlive, htake used hrest, total_append] at h1 ⊢
      omega
    · simp only [arenaAfter] at he ⊢
      rw [hblock, block] at he
      split at he
      · simp at he
      · rename_i hne
        rw [mem_singleton.mp he, hlive, block_of_ne hne]
        exact ⟨_, rfl⟩
  | failed used hrest hz hm hn hr hl =>
    have hnew : op.new ≠ 0 := fun h0 => hn (by rw [h0, roundNew_zero])
    have hlive : liveAfter s.live op 0 = s.live := if_pos ⟨hnew, rfl⟩
    obtain ⟨hcover, htotal⟩ := regions_empty hz
    simp only [arenaAfter, htake used hrest, hm, hl, hr, hlive]
    refine ⟨h.list, h.gaps, h.live_ok, fun x => ?_, fun x => ?_, ?_, by simp⟩
    · simpa [hcover x] using h.bytes x
    · simpa [hcover x] using h.one x
    · simpa [htotal] using h.sum

end

end Call

/-! ## Runs -/

section Run
variable {env : AllocEnv} {b : FreeId} {s : Arena} {l : List Ext} {ops : List ReallocOp}

theorem arenaRun_ok (hcrit : b = .ker → env.critical = false) (h : Arena.Inv b s l)
    (hok : ArenaAlong env (fun s op => op.Ok env b s) s ops) (hsafe : ∀ op ∈ ops, op.Safe env) :
    ∃ s' l', arenaRun env s ops = some s' ∧ Arena.Inv b s' l' := by
  induction ops generalizing s l with
  | nil => exact ⟨s, l, rfl, h⟩
  | cons op ops ih =>
    obtain ⟨s1, l1, hstep, h1⟩ := arenaStep_ok h hok.1 (hsafe op (by simp)) hcrit
    obtain ⟨s', l', hrun, h'⟩ := ih h1 (hok.2 s1 hstep) fun op' hop' => hsafe op' (by simp [hop'])
    exact ⟨s', l', by simp only [arenaRun, hstep, hrun], h'⟩

theorem Arena.Inv.apart (h : Arena.Inv b s l) : (l ++ s.live).Pairwise Apart := by
  refine pairwise_apart (fun e he => ?_) fun x => ?_
  · have hroom : 16 ≤ e.size := by
      rcases mem_append.mp he with he | he
      · exact (h.list.ok e he).room
      · exact (h.live_ok e he).room
    omega
  · rw [cover_append, h.bytes]
    exact h.one x

end Run

/-- **One free list.** In every run on a list from a state in which the books are
right, such as one with nothing obtained, whose sizes `ALIGN` does not cut: no call
crashes; the list is in address order, its entries are
aligned, large enough and do not touch (`FreeList`, `Gaps`); free entries and live
blocks share no byte, in particular the block a call returns shares none with the
others; and the bytes free and the bytes live are the bytes obtained. -/
theorem arena_run (env : AllocEnv) (b : FreeId) (hcrit : b = .ker → env.critical = false) (s : Arena)
    (l : List Ext) (h : Arena.Inv b s l) (ops : List ReallocOp)
    (hok : ArenaAlong env (fun s op => op.Ok env b s) s ops) (hsafe : ∀ op ∈ ops, op.Safe env) :
    ∃ s' l', arenaRun env s ops = some s' ∧ FreeList s'.m b l' ∧ Gaps l' ∧
      (l' ++ s'.live).Pairwise Apart ∧
      (∀ e ∈ s'.last, ∃ others, s'.live = e :: others ∧ (∀ f ∈ l', Apart e f) ∧
        ∀ f ∈ others, Apart e f) ∧
      total l' + total s'.live = total s'.got := by
  obtain ⟨s', l', hrun, h'⟩ := arenaRun_ok hcrit h hok hsafe
  have hapart := pairwise_append.mp h'.apart
  refine ⟨s', l', hrun, h'.list, h'.gaps, h'.apart, fun e he => ?_, h'.sum⟩
  obtain ⟨others, hlive⟩ := h'.last e he
  refine ⟨others, hlive, fun f hf => Or.symm (hapart.2.2 f hf e (by simp [hlive])), ?_⟩
  rw [hlive] at hapart
  exact (pairwise_cons.mp hapart.2.1).1

/-- A heap with nothing on its lists. -/
def emptyArena : Arena := ⟨⟨fun _ => 0, fun _ => 0⟩, [], [], []⟩

theorem emptyArena_inv (b : FreeId) : Arena.Inv b emptyArena [] :=
  ⟨⟨rfl, by simp, by simp, List.Pairwise.nil⟩, List.Pairwise.nil, by simp [emptyArena],
    fun _ => rfl, fun _ => by simp [emptyArena], rfl, by simp [emptyArena]⟩

/-- The kernel without a critical reserve. -/
def kernelEnv : AllocEnv := ⟨true, false, 2 ^ 64 - 1, 0⟩

theorem kernelEnv_isCrit (x : Nat) : kernelEnv.isCrit x = false := by
  rcases Nat.eq_zero_or_pos x with rfl | hx
  · rfl
  · have hx0 : decide (x ≤ 0) = false := decide_eq_false (by omega)
    show (decide (2 ^ 64 - 1 ≤ x) && decide (x ≤ 0)) = false
    rw [hx0, Bool.and_false]

/-- The request that is answered with the first page of the kernel's heap. -/
def firstCall : ReallocOp := ⟨0, 0, 16, [(0x1000, 0x1000)]⟩

theorem firstCall_ok : firstCall.Ok kernelEnv .ker emptyArena := by
  refine ⟨rfl, fun hd => absurd rfl hd, fun g hg _ => ?_⟩
  obtain rfl : (0x1000, 0x1000) = g := Option.some.inj hg
  refine ⟨⟨by decide, by decide, by decide, by decide, by decide⟩, by decide, fun x => ?_, fun x _ _ => kernelEnv_isCrit x⟩
  simp only [emptyArena, cover_nil, hit]
  split <;> omega

/-- A block from the first region, freed again. -/
theorem arena_run_first :
    ∃ s' l', arenaRun kernelEnv emptyArena [firstCall, ⟨0x1000, 16, 0, []⟩] = some s' ∧
      FreeList s'.m .ker l' ∧ Gaps l' ∧ (l' ++ s'.live).Pairwise Apart ∧
      (∀ e ∈ s'.last, ∃ others, s'.live = e :: others ∧ (∀ f ∈ l', Apart e f) ∧
        ∀ f ∈ others, Apart e f) ∧
      total l' + total s'.live = total s'.got := by
  refine arena_run kernelEnv .ker (fun _ => rfl) emptyArena [] (emptyArena_inv _) _
    ⟨firstCall_ok, fun s₁ hs₁ => ⟨⟨rfl, fun _ => ⟨by decide, ?_⟩, by simp⟩, fun _ _ => trivial⟩⟩ ?_
  · have hlive : (arenaStep kernelEnv emptyArena firstCall).map Arena.live = some [⟨0x1000, 16⟩] := by
      decide +kernel
    rw [hs₁, Option.map_some, Option.some.injEq] at hlive
    rw [hlive]
    decide
  · refine forall_mem_cons.mpr ⟨⟨fun hd => absurd rfl hd, by decide, ?_⟩, forall_mem_singleton.mpr
      ⟨fun _ => by decide, by decide, by simp⟩⟩
    simp [firstCall, maxSize]

/-- A request of 2 ^ 32 + 32 bytes is answered with a block of 32, and the rest of its
entry stays free. -/
theorem arena_run_cut :
    ArenaAlong kernelEnv (fun s op => op.Ok kernelEnv .ker s) emptyArena
        [firstCall, ⟨0, 0, 2 ^ 32 + 32, []⟩] ∧
      ∃ s', arenaRun kernelEnv emptyArena [firstCall, ⟨0, 0, 2 ^ 32 + 32, []⟩] = some s' ∧
        ¬∃ l', FreeList s'.m .ker l' ∧ (l' ++ s'.live).Pairwise Apart := by
  refine ⟨⟨firstCall_ok, fun s₁ _ => ⟨⟨rfl, fun hd => absurd rfl hd, by simp⟩, fun _ _ => trivial⟩⟩, ?_⟩
  have hrun : (arenaRun kernelEnv emptyArena [firstCall, ⟨0, 0, 2 ^ 32 + 32, []⟩]).map
      (fun s => (s.m.heads .ker, s.m.size 0x1030, s.live)) =
      some (0x1030, 0xfd0, [⟨0x1010, 2 ^ 32 + 32⟩, ⟨0x1000, 16⟩]) := by
    decide +kernel
  obtain ⟨s', hs', hval⟩ := Option.map_eq_some_iff.mp hrun
  simp only [Prod.mk.injEq] at hval
  obtain ⟨hhead, hsize, hlive⟩ := hval
  refine ⟨s', hs', fun ⟨l', hl', hapart⟩ => ?_⟩
  -- the first entry starts inside the block
  have hread : s'.m.read (cellAt .ker []) = firstBase l' := FreeList.read (k := []) hl'
  cases l' with
  | nil => exact absurd (hhead.symm.trans hread) (by decide)
  | cons e l' =>
    have hbase : e.base = 0x1030 := (hhead.symm.trans hread).symm
    have hesize : e.size = 0xfd0 := by
      rw [← hl'.sizes e (by simp), hbase, hsize]
    have := (pairwise_append.mp hapart).2.2 e (by simp) ⟨0x1010, 2 ^ 32 + 32⟩ (by simp [hlive])
    simp only [Apart, Ext.stop, hbase, hesize] at this
    omega

end QRV.Nano
