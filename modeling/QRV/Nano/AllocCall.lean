import QRV.Lib.Call
import QRV.Nano.AllocList

/- One call of `_sreallocfunc`. A pass over a list either settles the request (the
   old block goes in, the new one comes out: `Done`) or finds no entry that would
   do, and then the `alloc` callback is asked. The cursors `pp` and `prev` stay the
   place of the old block when the first-fit loop takes the very entry before it
   (`take_cursors`). -/
namespace QRV.Nano
open List
open Call (Ends)
open LinkCell Extent

/-- The block at `a`, none for `NULL`. -/
def block (a size : Nat) : List Ext := if a = 0 then [] else [⟨a, size⟩]

theorem block_of_ne {a size : Nat} (h : a ≠ 0) : block a size = [⟨a, size⟩] := if_neg h

@[simp] theorem block_zero (size : Nat) : block 0 size = [] := rfl

theorem block_ok {a size : Nat} (h : a ≠ 0 → EntryOk ⟨a, size⟩) : ∀ e ∈ block a size, EntryOk e := by
  intro e he
  by_cases ha : a = 0
  · simp [ha] at he
  · rw [block_of_ne ha] at he
    rw [mem_singleton.mp he]
    exact h ha

theorem prevOk_last (l : List Ext) (data : Nat) : PrevOk l data (lastBase l) := by
  rcases eq_nil_or_concat l with rfl | ⟨k, q, rfl⟩
  · exact .inl ⟨rfl, by simp⟩
  · exact .inr ⟨k, q, by simp, by rw [concat_eq_append, lastBase_concat]⟩

section Free
variable {m : HeapMem} {b : FreeId} {l : List Ext} {d : Ext}

/-- A block that shares no byte with the list lies before or behind every entry. -/
theorem FreeList.apart (h : FreeList m b l) (hd : EntryOk d) (hone : ∀ x, cover l x + hit d x ≤ 1)
    {e : Ext} (he : e ∈ l) : e.stop ≤ d.base ∨ d.stop ≤ e.base := by
  refine apart_of_hit (by have := (h.ok e he).room; omega) (by have := hd.room; omega) fun x => ?_
  have h1 := hone x
  have h2 := le_cover he x
  omega

theorem walk_block {new : Nat} (h : FreeList m b l) (hd : EntryOk d)
    (hone : ∀ x, cover l x + hit d x ≤ 1) (hnew : new + 16 < 2 ^ 64) :
    ∃ r l₁ l₂, walk m d.base new maxEntries (.head b) 0 none = some r ∧
      Walked b l d.base new r l₁ l₂ ∧ ∀ e ∈ l₂, d.stop ≤ e.base := by
  have hapart : ∀ e ∈ l, e.stop ≤ d.base ∨ d.base < e.base := fun e he => by
    refine (h.apart hd hone he).imp id fun hle => ?_
    have := hd.wide
    omega
  obtain ⟨r, l₁, l₂, hw, hwalked⟩ := walk_from (show FreeList m b ([] ++ l) from h) hd.pos hnew hapart nofun
    h.length_lt (fun c (hc : none = some c) => nomatch hc) fun _ _ => nofun
  refine ⟨r, l₁, l₂, hw, hwalked, fun e he => ?_⟩
  have hmem : e ∈ [] ++ l := by
    rw [hwalked.split]
    exact mem_append_right _ he
  refine (h.apart hd hone hmem).resolve_left fun hle => ?_
  have := hwalked.behind e he
  simp only [Ext.stop] at hle
  omega

theorem freeAt_moves (h : FreeList m b l) (hg : Gaps l) (hd : EntryOk d)
    (hone : ∀ x, cover l x + hit d x ≤ 1) :
    ∃ m' l', freeAt m b d.base d.size = some m' ∧ Moves b m l m' l' [d] [] ∧ Gaps l' := by
  obtain ⟨r, l₁, l₂, hw, hwalked, hbehind⟩ := walk_block h hd hone (by decide : 0 + 16 < 2 ^ 64)
  obtain ⟨pp, prev, fit⟩ := r
  obtain ⟨hsplit, hbefore, -, rfl, rfl, -, -⟩ := hwalked
  rw [hsplit] at h hg ⊢
  obtain ⟨l', hmoves, hg'⟩ := link_moves h hg hd hbefore hbehind (prevOk_last l₁ d.base)
  refine ⟨_, l', ?_, hmoves, hg'⟩
  have hne : d.base ≠ 0 := Nat.pos_iff_ne_zero.mp hd.pos
  simp only [freeAt, hw, release, if_neg hne]

end Free

/-! ## The cursors behind the first-fit loop -/

theorem remains_stop {e f : Ext} {new : Nat} (hfit : Fits new e) (hf : f ∈ remains e new) :
    e.base ≤ f.base ∧ f.stop = e.stop := by
  unfold remains at hf
  split at hf
  · exact absurd hf (by simp)
  · rename_i hne
    have hle := hfit.resolve_left hne
    rw [mem_singleton.mp hf]
    constructor
    · exact Nat.le_add_right _ _
    · simp only [Ext.stop]
      omega

/-- The cursors are the place of the old block on the list. -/
def AtPlace (b : FreeId) (l : List Ext) (pp : Cell FreeId Nat) (prev data old : Nat) : Prop :=
  ∃ l₁ l₂, l = l₁ ++ l₂ ∧ pp = cellAt b l₁ ∧ PrevOk l₁ data prev ∧
    (∀ e ∈ l₁, e.stop ≤ data) ∧ ∀ e ∈ l₂, data + old ≤ e.base

section Cursors
variable {k k' : List Ext} {e : Ext} {new : Nat}

theorem gaps_remains (h : Gaps (k ++ ([e] ++ k'))) (hfit : Fits new e) :
    Gaps (k ++ (remains e new ++ k')) := by
  obtain ⟨hk, hek', hcross⟩ := pairwise_append.mp h
  obtain ⟨he, hk'⟩ := pairwise_cons.mp hek'
  refine pairwise_append.mpr ⟨hk, pairwise_append.mpr ⟨?_, hk', ?_⟩, ?_⟩
  · unfold remains
    split
    · exact List.Pairwise.nil
    · exact pairwise_singleton _ _
  · intro f hf g hg
    rw [(remains_stop hfit hf).2]
    exact he g hg
  · intro f hf g hg
    rcases mem_append.mp hg with hg | hg
    · exact Nat.lt_of_lt_of_le (hcross f hf e (by simp)) (remains_stop hfit hg).1
    · exact hcross f hf g (by simp [hg])

/-- The base of the last entry of an ordered list is that of no other entry. -/
theorem lastBase_ne {m : HeapMem} {b : FreeId} {l l' : List Ext} (h : FreeList m b (l ++ l'))
    {f : Ext} (hf : f ∈ l') : lastBase l ≠ f.base := by
  have hfpos := (h.ok f (by simp [hf])).pos
  rcases eq_nil_or_concat l with rfl | ⟨j, q, rfl⟩
  · simp only [lastBase, reverse_nil, firstBase]
    omega
  · rw [concat_eq_append] at h ⊢
    rw [lastBase_concat]
    have h1 := (pairwise_append.mp h.ordered).2.2 q (by simp) f hf
    have h2 := (h.ok q (by simp)).wide
    omega

/-- The cursors are still the place of the block `d` when an entry was taken. -/
theorem take_cursors {m : HeapMem} {b : FreeId} {l₁ l₂ : List Ext} {d : Ext}
    (h : FreeList m b (k ++ ([e] ++ k'))) (hg : Gaps (k ++ ([e] ++ k'))) (hfit : Fits new e)
    (hsplit : k ++ ([e] ++ k') = l₁ ++ l₂) (h1 : ∀ f ∈ l₁, f.stop ≤ d.base)
    (h2 : ∀ f ∈ l₂, d.stop ≤ f.base) :
    AtPlace b (k ++ (remains e new ++ k')) (takePp m new (cellAt b k) (cellAt b l₁) (lastBase l₁))
      (takePrev m new (cellAt b k) (lastBase l₁)) d.base d.size := by
  have hread : m.read (cellAt b k) = e.base := h.read
  have hsz : m.size e.base = e.size := h.sizes e (by simp)
  simp only [takePp, takePrev, hread, hsz]
  -- the entry lies behind the block
  have hbehind : ∀ j, k = l₁ ++ j → l₂ = j ++ ([e] ++ k') → lastBase l₁ ≠ e.base ∧
      AtPlace b (k ++ (remains e new ++ k')) (cellAt b l₁) (lastBase l₁) d.base d.size := by
    intro j hk hl2
    rw [hsplit] at h
    refine ⟨lastBase_ne h (by simp [hl2]), ?_⟩
    refine ⟨l₁, j ++ (remains e new ++ k'), by simp [hk], rfl, prevOk_last l₁ d.base, h1, fun f hf => ?_⟩
    rcases mem_append.mp hf with hf | hf
    · exact h2 f (by simp [hl2, hf])
    rcases mem_append.mp hf with hf | hf
    · exact Nat.le_trans (h2 e (by simp [hl2])) (remains_stop hfit hf).1
    · exact h2 f (by simp [hl2, hf])
  rcases append_eq_append_iff.mp hsplit with ⟨j, hl1, hk'⟩ | ⟨j, hk, hl2⟩
  · cases j with
    | nil =>
      obtain ⟨hne, hat⟩ := hbehind [] (by simpa using hl1.symm) hk'.symm
      rwa [if_neg hne, if_neg hne]
    | cons x j =>
      obtain ⟨rfl, rfl⟩ : e = x ∧ k' = j ++ l₂ := by simpa using hk'
      have hed := h1 e (by simp [hl1])
      rcases eq_nil_or_concat j with rfl | ⟨j, q, rfl⟩
      -- the entry taken from is the one before the block
      · rw [hl1, lastBase_concat, if_pos rfl, if_pos rfl]
        by_cases hex : e.size = new
        · refine ⟨k, l₂, by simp [remains, hex], by rw [if_pos hex], ?_, ?_, h2⟩
          · rw [if_pos hex]
            refine .inl ⟨rfl, fun f hf => ?_⟩
            have h3 := (pairwise_append.mp hg).2.2 f hf e (by simp)
            simp only [Ext.stop] at h3 hed ⊢
            omega
          · exact fun f hf => h1 f (by simp [hl1, hf])
        · have hb := (h.ok e (by simp)).bound
          have hle := hfit.resolve_left hex
          simp only [Ext.stop] at hb
          rw [if_neg hex, if_neg hex, wadd_of_lt (by omega)]
          refine ⟨k ++ [⟨e.base + new, e.size - new⟩], l₂, by simp [remains, hex],
            (cellAt_concat b k ⟨e.base + new, e.size - new⟩).symm, .inr ⟨k, _, rfl, rfl⟩, fun f hf => ?_, h2⟩
          rcases mem_append.mp hf with hf | hf
          · exact h1 f (by simp [hl1, hf])
          · rw [mem_singleton.mp hf]
            simp only [Ext.stop] at hed ⊢
            omega
      -- there is another entry between it and the block
      · have hlast : l₁ = (k ++ e :: j) ++ [q] := by simp [hl1]
        have hne : lastBase l₁ ≠ e.base := by
          rw [hlast, lastBase_concat]
          have h3 := (pairwise_cons.mp (pairwise_append.mp h.ordered).2.1).1 q (by simp)
          have h4 := (h.ok e (by simp)).wide
          omega
        rw [if_neg hne, if_neg hne]
        refine ⟨k ++ (remains e new ++ j) ++ [q], l₂, by simp, ?_, ?_, fun f hf => ?_, h2⟩
        · rw [hlast, cellAt_concat, cellAt_concat]
        · exact .inr ⟨_, q, rfl, by rw [hlast, lastBase_concat]⟩
        · simp only [mem_append, mem_singleton] at hf
          rcases hf with (hf | hf | hf) | rfl
          · exact h1 f (by simp [hl1, hf])
          · rw [(remains_stop hfit hf).2]
            exact hed
          · exact h1 f (by simp [hl1, hf])
          · exact h1 f (by simp [hl1])
  · obtain ⟨hne, hat⟩ := hbehind j hk hl2
    rwa [if_neg hne, if_neg hne]

end Cursors

/-! ## One pass -/

/-- A request as a pass finds it: sizes rounded, the old block apart from the list
and the new size so far below the end of the address space that a free entry
behind it has an address. -/
structure Request (m : HeapMem) (b : FreeId) (l : List Ext) (data old new : Nat) : Prop where
  list : FreeList m b l
  gaps : Gaps l
  old_ok : data ≠ 0 → EntryOk ⟨data, old⟩
  one : ∀ x, cover l x + cover (block data old) x ≤ 1
  new_room : new ≠ 0 → 16 ≤ new
  new_aligned : new % 8 = 0
  new_bound : new + 16 < 2 ^ 64

/-- A request is settled: the old block and the extents `used` went in, the block at
`r` came out. -/
structure Done (b : FreeId) (m : HeapMem) (l : List Ext) (data old new : Nat) (used : List Ext)
    (m' : HeapMem) (l' : List Ext) (r : Nat) : Prop where
  moves : Moves b m l m' l' (block data old ++ used) (block r new)
  gaps : Gaps l'
  freed : new = 0 → r = 0
  ret : new ≠ 0 → EntryOk ⟨r, new⟩

section Settle
variable {m : HeapMem} {b : FreeId} {l l₁ l₂ : List Ext} {data old new : Nat}

theorem Request.one_data (h : Request m b l data old new) (hd : data ≠ 0) (x : Nat) :
    cover l x + hit ⟨data, old⟩ x ≤ 1 := by
  have := h.one x
  rw [block_of_ne hd] at this
  simpa using this

theorem Request.free (h : Request m b l data old 0) (hd : data ≠ 0) :
    ∃ m' l', freeAt m b data old = some m' ∧ Done b m l data old 0 [] m' l' 0 := by
  obtain ⟨m', l', hfree, hmoves, hg⟩ := freeAt_moves h.list h.gaps (h.old_ok hd) (h.one_data hd)
  refine ⟨m', l', hfree, ⟨?_, hg, fun _ => rfl, fun h0 => absurd rfl h0⟩⟩
  rw [block_of_ne hd]
  simpa using hmoves

theorem Request.shrink (h : Request m b l data old new) (hd : data ≠ 0) (hn : new ≠ 0)
    (hle : new + 16 ≤ old) :
    ∃ m' l', freeAt m b (data + new) (old - new) = some m' ∧ Done b m l data old new [] m' l' data := by
  have hold := h.old_ok hd
  have hcut : ∀ x, hit ⟨data, old⟩ x = hit ⟨data, new⟩ x + hit ⟨data + new, old - new⟩ x :=
    hit_cut ⟨data, old⟩ (by simp only []; omega)
  have hparts := hold.cut (h.new_room hn) h.new_aligned
  obtain ⟨m', l', hfree, hmoves, hg⟩ := freeAt_moves h.list h.gaps (hparts.2 hle) fun x => by
    have := h.one_data hd x
    have := hcut x
    omega
  refine ⟨m', l', hfree, ⟨?_, hg, fun h0 => absurd h0 hn, fun _ => ?_⟩⟩
  · rw [block_of_ne hd, block_of_ne hd]
    refine hmoves.recut (fun x => ?_) (fun x => ?_) ?_
    · have := hcut x
      simp only [cover_cons, cover_nil, append_nil]
      omega
    · have := hcut x
      simp only [cover_cons, cover_nil, append_nil]
      omega
    · simp only [total_cons, total_nil, append_nil]
      omega
  · exact hparts.1 (Nat.le_of_add_right_le hle)

theorem Request.same (h : Request m b l data old old) (hd : data ≠ 0) (ho : old ≠ 0) :
    Done b m l data old old [] m l data := by
  refine ⟨?_, h.gaps, fun h0 => absurd h0 ho, fun _ => h.old_ok hd⟩
  exact (Moves.refl h.list).recut (fun x => by simp) (fun x => by simp) (by simp)

theorem Request.grow {n : Ext} {l3 : List Ext} (h : Request m b (l₁ ++ ([n] ++ l3)) data old new)
    (hd : data ≠ 0) (hn : new ≠ 0) (h1 : ∀ e ∈ l₁, e.stop ≤ data) (hnext : data + old = n.base) :
    Ends (growInPlace m (cellAt b l₁) data old new n.base) fun m' =>
      ∃ l', Done b m (l₁ ++ ([n] ++ l3)) data old new [] m' l' data := by
  have hold := h.old_ok hd
  have hn_ok := h.list.ok n (by simp)
  have hb := hn_ok.bound
  have hnsz : m.size n.base = n.size := h.list.sizes n (by simp)
  have hjoin : ∀ x, hit ⟨data, old + n.size⟩ x = hit ⟨data, old⟩ x + hit n x := by
    intro x
    rw [hit_join, hnext]
  simp only [Ext.stop] at hb
  have hroom := h.new_room hn
  obtain ⟨hret, hrest⟩ := (hold.join hn_ok hnext).cut hroom h.new_aligned
  simp only [growInPlace, hnsz, wadd_of_lt (by omega : old + n.size < 2 ^ 64), wadd_of_lt h.new_bound]
  by_cases hex : new = old + n.size
  · rw [if_pos hex]
    refine .done ⟨l₁ ++ ([] ++ l3), ⟨?_, h.gaps.sublist (by simp), fun h0 => absurd h0 hn,
      fun _ => hret (Nat.le_of_eq hex)⟩⟩
    rw [block_of_ne hd, block_of_ne hd]
    refine h.list.unlink_moves.recut (fun x => ?_) (fun x => by simp) ?_
    · have := hjoin x
      rw [← hex] at this
      simp only [cover_cons, cover_nil, append_nil]
      omega
    · simp only [total_cons, total_nil, append_nil]
      omega
  · rw [if_neg hex]
    by_cases hle : new + 16 ≤ old + n.size
    · rw [if_pos hle]
      have hcut : ∀ x, hit ⟨data, old + n.size⟩ x =
          hit ⟨data, new⟩ x + hit ⟨data + new, old + n.size - new⟩ x :=
        hit_cut ⟨data, old + n.size⟩ (by simp only []; omega)
      have hgaps := pairwise_append.mp h.gaps
      have hbehind := pairwise_cons.mp hgaps.2.1
      simp only [wadd_of_lt (by omega : data + new < 2 ^ 64),
        wsub_of_le (by omega : new ≤ old + n.size) (by omega)]
      refine .done ⟨l₁ ++ ([⟨data + new, old + n.size - new⟩] ++ l3), ⟨?_, ?_,
        fun h0 => absurd h0 hn, fun _ => hret (Nat.le_of_add_right_le hle)⟩⟩
      · rw [block_of_ne hd, block_of_ne hd]
        refine h.list.put_moves (f := ⟨data + new, old + n.size - new⟩) h1
          (fun e he => Nat.le_of_lt (hbehind.1 e he)) (hrest hle) (Nat.le_add_right data new) ?_ rfl ?_ ?_ ?_
        · simp only [Ext.stop]
          omega
        · intro a hlo hhi
          have h2 := hjoin a
          have h3 : hit ⟨data, old + n.size⟩ a = 1 := hit_of hlo (by simp only [Ext.stop] at *; omega)
          simp only [cover_cons, cover_nil, append_nil]
          omega
        · intro x
          have h2 := hjoin x
          have h3 := hcut x
          simp only [cover_cons, cover_nil, append_nil]
          omega
        · simp only [total_cons, total_nil, append_nil]
          omega
      · refine pairwise_append.mpr ⟨hgaps.1, pairwise_cons.mpr ⟨fun e he => ?_, hbehind.2⟩, ?_⟩
        · have := hbehind.1 e he
          simp only [Ext.stop] at this ⊢
          omega
        · exact fun e he => forall_mem_cons.mpr ⟨Nat.lt_of_le_of_lt (h1 e he) (by simp only []; omega),
            fun f hf => hgaps.2.2 e he f (.tail _ hf)⟩
    · rw [if_neg hle]
      exact .fails

/-- With the new block out, the old one is copied there and goes back at its place. -/
theorem moveOut_moves {m1 : HeapMem} {inn out : List Ext} {pp : Cell FreeId Nat} {prev r : Nat}
    (h : Moves b m l m1 l₁ inn out) (hg : Gaps l₁) (hold : data ≠ 0 → EntryOk ⟨data, old⟩)
    (hone : ∀ x, cover l x + cover inn x ≤ 1)
    (hin : ∀ a, r ≤ a → a < r + new → cover out a ≠ 0)
    (hplace : data ≠ 0 → AtPlace b l₁ pp prev data old) :
    ∃ l', Moves b m l (moveOut m1 r pp prev data old new) l' (inn ++ block data old) out ∧ Gaps l' ∧
      ∀ a, cover l₁ a = 0 → cover (block data old) a = 0 → ¬(r ≤ a ∧ a < r + new) →
        (moveOut m1 r pp prev data old new).mem a = m1.mem a := by
  by_cases hd : data = 0
  · subst hd
    exact ⟨l₁, by simpa [moveOut] using h, hg, fun a _ _ _ => by simp [moveOut]⟩
  · obtain ⟨k, k', rfl, rfl, hprev, h1, h2⟩ := hplace hd
    have hcopy : Moves b m l (m1.memcpy r data (min new old)) (k ++ k') inn out := by
      refine h.store_out hone (fun a ha => if_neg fun hw => ?_) rfl
      exact hin a hw.1 (by omega) ha
    obtain ⟨l', hlink, hg'⟩ := link_moves hcopy.list hg (hold hd) h1 h2 hprev
    have hmoves := hcopy.trans hlink
    rw [moveOut, if_neg hd, block_of_ne hd]
    refine ⟨l', by simpa using hmoves, hg', fun a hl ha hw => ?_⟩
    rw [hlink.frame a hl ha]
    exact if_neg (by omega)

theorem Request.take {c : Cell FreeId Nat} (h : Request m b l data old new) (hn : new ≠ 0)
    (hfit : FitCell b l new c) (pp : Cell FreeId Nat) (prev : Nat)
    (hplace : data ≠ 0 → ∃ l₁ l₂, l = l₁ ++ l₂ ∧ pp = cellAt b l₁ ∧ prev = lastBase l₁ ∧
      (∀ e ∈ l₁, e.stop ≤ data) ∧ ∀ e ∈ l₂, data + old ≤ e.base) :
    ∃ l', Done b m l data old new [] (moveOut (takeEntry m new c) (m.read c) (takePp m new c pp prev)
      (takePrev m new c prev) data old new) l' (m.read c) := by
  obtain ⟨k, e, k', rfl, rfl, hfits⟩ := hfit
  have htake := takeEntry_moves h.list (h.new_room hn) h.new_aligned hfits
  have he := h.list.ok e (by simp)
  have hne : e.base ≠ 0 := Nat.pos_iff_ne_zero.mp he.pos
  have hret : EntryOk ⟨e.base, new⟩ :=
    (he.cut (h.new_room hn) h.new_aligned).1 (hfits.elim (fun h => by omega) fun h => by omega)
  have hat : data ≠ 0 → AtPlace b (k ++ (remains e new ++ k')) (takePp m new (cellAt b k) pp prev)
      (takePrev m new (cellAt b k) prev) data old := by
    intro hd
    obtain ⟨l₁, l₂, hsplit, rfl, rfl, h1, h2⟩ := hplace hd
    exact take_cursors (d := ⟨data, old⟩) h.list h.gaps hfits hsplit h1 h2
  have hin : ∀ a, e.base ≤ a → a < e.base + new → cover [⟨e.base, new⟩] a ≠ 0 := fun a hlo hhi => by
    simp [hit_of (e := ⟨e.base, new⟩) hlo hhi]
  have hone : ∀ x, cover (k ++ ([e] ++ k')) x + cover [] x ≤ 1 := by
    intro x
    have := h.one x
    simp only [cover_nil]
    omega
  obtain ⟨l', hmoves, hg', -⟩ := moveOut_moves htake (gaps_remains h.gaps hfits) h.old_ok hone hin hat
  rw [show m.read (cellAt b k) = e.base from h.list.read]
  refine ⟨l', ⟨?_, hg', fun h0 => absurd h0 hn, fun _ => hret⟩⟩
  simpa [block_of_ne hne] using hmoves

/-- A region that `alloc` may answer with: fresh, aligned and as large as asked for, with
a leftover that `ALIGN` does not cut. -/
structure GrantOk (l : List Ext) (data old new : Nat) (g : Nat × Nat) : Prop where
  ok : EntryOk ⟨g.1, g.2⟩
  large : new + 16 ≤ g.2
  left : g.2 ≤ new + maxSize
  fresh : ∀ x, cover l x + cover (block data old) x + hit ⟨g.1, g.2⟩ x ≤ 1

theorem alignUp_of_le {n : Nat} (h : n ≤ maxSize) : alignUp n = (n + 7) / 8 * 8 := by
  unfold alignUp alignMask wadd
  unfold maxSize at h
  omega

theorem roundOld_of {n : Nat} (h : 16 ≤ n) (h8 : n % 8 = 0) (hb : n ≤ maxSize) : roundOld n = n := by
  rw [roundOld, if_neg (by omega), alignUp_of_le hb]
  omega

theorem roundOld_le (n : Nat) : roundOld n ≤ maxSize := by
  unfold roundOld alignUp alignMask maxSize
  split <;> omega

theorem Request.region {env : AllocEnv} {pp : Cell FreeId Nat} {prev : Nat} {g : Nat × Nat}
    (h : Request m b l data old new) (hn : new ≠ 0) (hgr : GrantOk l data old new g)
    (hpick : env.pick false (g.1 + new) = b) (hplace : data ≠ 0 → AtPlace b l pp prev data old)
    (rest : List (Nat × Nat)) :
    ∃ m' l', useRegion env m pp prev data old new g rest = some ⟨m', g.1, rest⟩ ∧
      Done b m l data old new [⟨g.1, g.2⟩] m' l' g.1 := by
  obtain ⟨r, s⟩ := g
  obtain ⟨hok, hlarge, hleft, hfresh⟩ := hgr
  have hb := hok.bound
  have hs8 := hok.size_aligned
  have hpos := hok.low
  simp only [Ext.stop] at hb hlarge hleft hfresh hs8 hpos hpick
  have h8 := h.new_aligned
  obtain ⟨hret, hrest⟩ := @EntryOk.cut r s new hok (h.new_room hn) h8
  have hcut : ∀ x, hit ⟨r, s⟩ x = hit ⟨r, new⟩ x + hit ⟨r + new, s - new⟩ x :=
    hit_cut ⟨r, s⟩ (by simp only []; omega)
  have hadd : r + new + 8 < r + s := by omega
  have hR : hit ⟨r, s⟩ (r + new + 8) = 1 := hit_of (by simp only []; omega) hadd
  have hone : ∀ x, cover l x + cover [⟨r, s⟩] x ≤ 1 := by
    intro x
    have := hfresh x
    simp only [cover_cons, cover_nil]
    omega
  -- the region comes in and goes out whole, and the size of the leftover is noted there
  have hself : Moves b m l m l [⟨r, s⟩] [⟨r, s⟩] :=
    (Moves.refl h.list).recut (by simp) (by simp) (by simp)
  have hin : Moves b m l (m.setSize (r + new) (s - new)) l [⟨r, s⟩] [⟨r, s⟩] := by
    refine hself.store_out hone (fun a ha => HeapMem.setSize_off (fun hc => ?_) m _) rfl
    rw [hc] at ha
    simp [hR] at ha
  have hnew : ∀ a, r ≤ a → a < r + new → cover [⟨r, s⟩] a ≠ 0 := by
    intro a hlo hhi
    have : hit ⟨r, s⟩ a = 1 := hit_of hlo (by simp only [Ext.stop]; omega)
    simp [this]
  obtain ⟨l₂, hmove, hg2, hkeep⟩ := moveOut_moves hin h.gaps h.old_ok hone hnew hplace
  have hsize : (moveOut (m.setSize (r + new) (s - new)) r pp prev data old new).size (r + new) =
      s - new := by
    have h1 := hfresh (r + new + 8)
    rw [HeapMem.size, hkeep _ (by omega) (by omega) (by omega)]
    exact HeapMem.setSize_size m _ _
  obtain ⟨m', l', hfree, hmoves, hg'⟩ := freeAt_moves hmove.list hg2 (hrest hlarge) fun x => by
    have h1 := hmove.bytes x
    have h2 := hfresh x
    have h3 := hcut x
    simp only [cover_append, cover_cons, cover_nil] at h1
    omega
  refine ⟨m', l', ?_, ⟨?_, hg', fun h0 => absurd h0 hn, fun _ => ?_⟩⟩
  · simp only [useRegion, wsub_of_le (by omega : new ≤ s) (by omega),
      wadd_of_lt (by omega : r + new < 2 ^ 64), if_neg (by omega : ¬(s - new = 0)), hsize, hpick,
      roundOld_of (by omega : 16 ≤ s - new) (by omega) (by omega), hfree]
  · rw [block_of_ne (by omega : r ≠ 0)]
    refine (hmove.trans hmoves).recut (fun x => ?_) (fun x hx => ?_) ?_
    · have := hcut x
      simp only [cover_append, cover_cons, cover_nil]
      omega
    · have := hcut x
      simp only [cover_append, cover_cons, cover_nil] at hx ⊢
      omega
    · simp only [total_append, total_cons, total_nil]
      omega
  · exact hret (Nat.le_of_add_right_le hlarge)

end Settle

/-- Where the first-fit loop may start: at an entry that fits, or behind entries none
of which does. -/
theorem search_place {m : HeapMem} {b : FreeId} {l : List Ext} {new : Nat} {fit : Cell FreeId Nat}
    (h : FreeList m b l) (hnew : new + 16 < 2 ^ 64)
    (hfit : FitCell b l new fit ∨
      ∃ k k', l = k ++ k' ∧ fit = cellAt b k ∧ ∀ e ∈ k, ¬Fits new e) :
    (search m new maxEntries fit = some none ∧ ∀ e ∈ l, ¬Fits new e) ∨
      ∃ c, search m new maxEntries fit = some (some c) ∧ FitCell b l new c := by
  have hlen := h.length_lt
  rcases hfit with ⟨k, e, k', rfl, rfl, he⟩ | ⟨k, k', rfl, rfl, hk⟩
  · refine .inr ((search_from h hnew ?_).resolve_left fun hs => hs.2 e (by simp) he)
    simp only [length_append] at hlen ⊢
    omega
  · refine (search_from h hnew ?_).imp (fun hs => ⟨hs.1, fun e he => ?_⟩) id
    · simp only [length_append] at hlen
      omega
    · exact (mem_append.mp he).elim (hk e) (hs.2 e)

section Pass
variable {env : AllocEnv} {m : HeapMem} {b : FreeId} {l : List Ext} {data raw old new : Nat}

/-- The size of the old block as a pass gets it. -/
def SizeOk (data raw old : Nat) : Prop := if data = 0 then raw = old else raw ≠ 0 ∧ roundOld raw = old

/-- A pass settles the request, or no entry would do and the heap has to grow. -/
theorem pass_cases {retry : Bool} (h : Request m b l data old new) (hb : env.pick retry data = b)
    (hsize : SizeOk data raw old) (n : Nat) (grants : List (Nat × Nat)) :
    (∃ m' l' r, pass env (n + 1) retry m data raw new grants = some ⟨m', r, grants⟩ ∧
      Done b m l data old new [] m' l' r) ∨
    (new ≠ 0 ∧ (∀ e ∈ l, ¬Fits new e) ∧ ∃ pl : Place,
      (data ≠ 0 → AtPlace b l pl.pp pl.prev data old) ∧
      pass env (n + 1) retry m data raw new grants =
        growHeap env (fun retry m rest => pass env n retry m data old new rest) b m pl data old new
          grants) := by
  unfold SizeOk at hsize
  split_ifs at hsize with hd
  · subst hsize hd
    simp only [pass, hb, ne_eq, not_true, false_and, decide_false, Bool.false_eq_true, if_false, place,
      release, if_true]
    by_cases hn : new = 0
    · subst hn
      refine .inl ⟨m, l, 0, by simp, ⟨?_, h.gaps, fun _ => rfl, fun h0 => absurd rfl h0⟩⟩
      simpa using Moves.refl h.list
    · rw [if_neg hn]
      have hstart : FitCell b l new (.head b) ∨
          ∃ k k', l = k ++ k' ∧ Cell.head b = cellAt b k ∧ ∀ e ∈ k, ¬Fits new e :=
        .inr ⟨[], l, rfl, rfl, by simp⟩
      rcases search_place h.list h.new_bound hstart with ⟨hs, hunfit⟩ | ⟨c, hs, hfit⟩
      · refine .inr ⟨hn, hunfit, ⟨.head b, 0, .head b, 0⟩, False.elim, ?_⟩
        rw [hs]
      · obtain ⟨l', hdone⟩ := h.take hn hfit (.head b) 0 fun h0 => absurd rfl h0
        refine .inl ⟨_, l', _, ?_, hdone⟩
        rw [hs]
  · obtain ⟨hraw, hround⟩ := hsize
    have hok := h.old_ok hd
    have holdroom := hok.room
    have hob := hok.bound
    simp only [Ext.stop] at holdroom hob
    simp only [pass, hb, hd, hraw, hround, ne_eq, not_false_eq_true, and_self, decide_true, if_true,
      true_and, wadd_of_lt h.new_bound]
    by_cases hsame : new = old
    · subst hsame
      rw [if_pos rfl]
      exact .inl ⟨m, l, data, rfl, h.same hd (by omega)⟩
    rw [if_neg hsame]
    by_cases hshrink : ¬new = 0 ∧ new + 16 ≤ old
    · rw [if_pos hshrink]
      obtain ⟨m', l', hfree, hdone⟩ := h.shrink hd hshrink.1 hshrink.2
      rw [wadd_of_lt (by omega), wsub_of_le (by omega) (by omega), hfree]
      exact .inl ⟨m', l', data, rfl, hdone⟩
    rw [if_neg hshrink]
    by_cases hn : new = 0
    · subst hn
      obtain ⟨m', l', hfree, hdone⟩ := h.free hd
      simp only [freeAt] at hfree
      split at hfree
      · exact absurd hfree (by simp)
      · rename_i pp prev fit hw
        refine .inl ⟨m', l', 0, ?_, hdone⟩
        rw [Option.some.injEq] at hfree
        simp [place, hw, hfree]
    obtain ⟨⟨pp, prev, fit⟩, l₁, l₂, hw, hwalked, hbehind⟩ :=
      walk_block h.list hok (h.one_data hd) h.new_bound
    have hread : m.read pp = firstBase l₂ := by
      rw [show pp = cellAt b l₁ from hwalked.pp]
      exact FreeList.read (hwalked.split ▸ h.list)
    obtain ⟨hsplit, hbefore, -, rfl, rfl, hfit, hunfit⟩ := hwalked
    have hplace : place m b true data new =
        some ⟨cellAt b l₁, lastBase l₁, fit.getD (cellAt b l₁), firstBase l₂⟩ := by
      simp only [place, if_true, hw, hread]
    have hstart : FitCell b l new (fit.getD (cellAt b l₁)) ∨
        ∃ k k', l = k ++ k' ∧ fit.getD (cellAt b l₁) = cellAt b k ∧ ∀ e ∈ k, ¬Fits new e := by
      cases fit with
      | none => exact .inr ⟨l₁, l₂, hsplit, rfl, hunfit hn rfl⟩
      | some c => exact .inl (hfit c rfl)
    simp only [hplace, if_neg hn, wadd_of_lt hob]
    generalize hr : (if data + old = firstBase l₂ then growInPlace m (cellAt b l₁) data old new (firstBase l₂) else none) = r
    have hgrow : Ends r fun m' => ∃ l', Done b m l data old new [] m' l' data := by
      rw [← hr]
      split
      · next hnext =>
        cases l₂ with
        | nil =>
          simp only [firstBase] at hnext
          omega
        | cons e l3 =>
          subst hsplit
          exact h.grow hd hn hbefore hnext
      · exact .fails
    cases r with
    | none =>
      rcases search_place h.list h.new_bound hstart with ⟨hs, hunfit'⟩ | ⟨c, hs, hfit'⟩
      · refine .inr ⟨hn, hunfit', _, fun _ => ?_, by rw [hs]⟩
        exact ⟨l₁, l₂, hsplit, rfl, prevOk_last l₁ data, hbefore, hbehind⟩
      · obtain ⟨l', hdone⟩ := h.take hn hfit' (cellAt b l₁) (lastBase l₁)
          fun _ => ⟨l₁, l₂, hsplit, rfl, rfl, hbefore, hbehind⟩
        exact .inl ⟨_, l', _, by rw [hs], hdone⟩
    | some m' =>
      obtain ⟨l', hdone⟩ := hgrow m' rfl
      exact .inl ⟨m', l', data, rfl, hdone⟩

/-! ## The heap grows -/

/-- A stretch that a list without touching entries covers lies in one entry. -/
theorem exists_around {l : List Ext} (hg : Gaps l) {a s : Nat} (hs : 0 < s)
    (h : ∀ x, a ≤ x → x < a + s → cover l x ≠ 0) : ∃ e ∈ l, e.base ≤ a ∧ a + s ≤ e.stop := by
  obtain ⟨e, he, hea, hae⟩ := exists_hit (h a (Nat.le_refl _) (by omega))
  refine ⟨e, he, hea, ?_⟩
  by_contra hc
  -- the byte behind `e` is covered by another entry, which would touch `e`
  obtain ⟨f, hf, hfe, hef⟩ := exists_hit (h e.stop (by omega) (by omega))
  have hsymm : Std.Symm fun e f : Ext => e.stop < f.base ∨ f.stop < e.base := ⟨fun _ _ => Or.symm⟩
  have hp : l.Pairwise fun e f => e.stop < f.base ∨ f.stop < e.base := hg.imp .inl
  have hne : e ≠ f := by
    rintro rfl
    exact Nat.lt_irrefl _ hef
  have := hp.forall he hf hne
  omega

variable {pl : Place} {again : Bool → HeapMem → List (Nat × Nat) → Option Realloc}
  {grants : List (Nat × Nat)}

/-- In the kernel the region is used at once; without one the critical list is tried
or the request fails. -/
theorem growHeap_ker (h : Request m .ker l data old new) (hn : new ≠ 0)
    (hplace : data ≠ 0 → AtPlace .ker l pl.pp pl.prev data old)
    (hgr : ∀ g ∈ grants.head?, g.2 ≠ 0 → GrantOk l data old new g ∧
      env.pick false (g.1 + new) = .ker) :
    (∃ g rest m' l', grants = g :: rest ∧
      growHeap env again .ker m pl data old new grants = some ⟨m', g.1, rest⟩ ∧
      Done .ker m l data old new [⟨g.1, g.2⟩] m' l' g.1) ∨
    ((∀ g ∈ grants.head?, g.2 = 0) ∧ growHeap env again .ker m pl data old new grants =
      if env.critical then again true m grants.tail else some ⟨m, 0, grants.tail⟩) := by
  cases grants with
  | nil => exact .inr ⟨by simp, by simp [growHeap]⟩
  | cons g rest =>
    by_cases hz : g.2 = 0
    · exact .inr ⟨by simpa using hz, by simp [growHeap, hz]⟩
    · obtain ⟨hok, hpick⟩ := hgr g rfl hz
      obtain ⟨m', l', huse, hdone⟩ := h.region hn hok hpick hplace rest
      exact .inl ⟨g, rest, m', l', rfl, by simp [growHeap, hz, huse], hdone⟩

/-- Outside of the kernel the region is freed first and the request tried again. -/
theorem growHeap_proc (h : Request m .proc l data old new)
    (hgr : ∀ g ∈ grants.head?, g.2 ≠ 0 → GrantOk l data old new g ∧ g.2 ≤ maxSize) :
    (∃ g rest m' l', grants = g :: rest ∧ GrantOk l data old new g ∧
      growHeap env again .proc m pl data old new grants = again false m' rest ∧
      Moves .proc m l m' l' [⟨g.1, g.2⟩] [] ∧ Gaps l') ∨
    ((∀ g ∈ grants.head?, g.2 = 0) ∧
      growHeap env again .proc m pl data old new grants = some ⟨m, 0, grants.tail⟩) := by
  cases grants with
  | nil => exact .inr ⟨by simp, by simp [growHeap]⟩
  | cons g rest =>
    by_cases hz : g.2 = 0
    · exact .inr ⟨by simpa using hz, by simp [growHeap, hz]⟩
    · obtain ⟨hok, hsmall⟩ := hgr g rfl hz
      have hb := hok.ok.bound
      have h8 := hok.ok.base_aligned
      simp only [Ext.stop] at hb h8
      obtain ⟨m', l', hfree, hmoves, hg⟩ := freeAt_moves h.list h.gaps hok.ok fun x => by
        have := hok.fresh x
        omega
      refine .inl ⟨g, rest, m', l', rfl, hok, ?_, hmoves, hg⟩
      have hround := roundOld_of hok.ok.room hok.ok.size_aligned hsmall
      simp [growHeap, hz, freeRegion, h8, hround, hfree]

end Pass

/-! ## One call -/

/-- The regions `alloc` answered with. -/
def regions (grants : List (Nat × Nat)) : List Ext := grants.map fun g => ⟨g.1, g.2⟩

@[simp] theorem regions_nil : regions [] = [] := rfl

@[simp] theorem regions_cons (g : Nat × Nat) (gs : List (Nat × Nat)) :
    regions (g :: gs) = ⟨g.1, g.2⟩ :: regions gs := rfl

theorem mem_regions {g : Nat × Nat} {gs : List (Nat × Nat)} (h : g ∈ gs) : ⟨g.1, g.2⟩ ∈ regions gs :=
  mem_map.mpr ⟨g, h, rfl⟩

/-- What a call on the list `b` comes to: the request is settled with the regions that
were asked for, or it fails and nothing has changed. -/
inductive Called (b : FreeId) (m : HeapMem) (l : List Ext) (data old new : Nat)
    (grants : List (Nat × Nat)) (res : Realloc) (l' : List Ext) : Prop where
  | done (used : List (Nat × Nat)) (hrest : grants = used ++ res.rest) (hone : used.length ≤ 1)
      (h : Done b m l data old new (regions used) res.m l' res.new)
  | failed (used : List (Nat × Nat)) (hrest : grants = used ++ res.rest) (hzero : ∀ g ∈ used, g.2 = 0)
      (hm : res.m = m) (hnew : new ≠ 0) (hr : res.new = 0) (hl : l' = l)

section Call
variable {env : AllocEnv} {m : HeapMem} {l : List Ext} {data raw old new : Nat}
  {grants : List (Nat × Nat)}

theorem Called.fail {b : FreeId} (hz : ∀ g ∈ grants.head?, g.2 = 0) (hn : new ≠ 0) :
    Called b m l data old new grants ⟨m, 0, grants.tail⟩ l := by
  cases grants with
  | nil => exact .failed [] rfl (by simp) rfl hn rfl rfl
  | cons g rest => exact .failed [g] rfl (by simpa using hz) rfl hn rfl rfl

theorem pass_crit {retry : Bool} (h : Request m .crit l data old new)
    (hb : env.pick retry data = .crit) (hsize : SizeOk data raw old) (n : Nat) (grants : List (Nat × Nat)) :
    ∃ m' r, pass env (n + 1) retry m data raw new grants = some ⟨m', r, grants⟩ ∧
      ((∃ l', Done .crit m l data old new [] m' l' r) ∨ (new ≠ 0 ∧ m' = m ∧ r = 0)) := by
  rcases pass_cases h hb hsize n grants with ⟨m', l', r, hp, hdone⟩ | ⟨hn, -, pl, -, hp⟩
  · exact ⟨m', r, hp, .inl ⟨l', hdone⟩⟩
  · exact ⟨m, 0, hp, .inr ⟨hn, rfl, rfl⟩⟩

theorem pass_ker (h : Request m .ker l data old new) (hb : env.pick false data = .ker)
    (hcrit : env.critical = false) (hsize : SizeOk data raw old)
    (hgr : ∀ g ∈ grants.head?, g.2 ≠ 0 → GrantOk l data old new g ∧
      env.pick false (g.1 + new) = .ker) (n : Nat) :
    ∃ res l', pass env (n + 1) false m data raw new grants = some res ∧
      Called .ker m l data old new grants res l' := by
  rcases pass_cases h hb hsize n grants with ⟨m', l', r, hp, hdone⟩ | ⟨hn, -, pl, hplace, hp⟩
  · exact ⟨_, l', hp, .done [] rfl (by simp) hdone⟩
  · rcases growHeap_ker h hn hplace hgr with ⟨g, rest, m', l', hcons, hg, hdone⟩ | ⟨hz, hg⟩
    · rw [hg] at hp
      exact ⟨_, l', hp, .done [g] hcons (by simp) hdone⟩
    · rw [hg, hcrit] at hp
      exact ⟨_, l, hp, Called.fail hz hn⟩

theorem pass_proc (h : Request m .proc l data old new) (hb : env.pick false data = .proc)
    (hsize : SizeOk data raw old)
    (hgr : ∀ g ∈ grants.head?, g.2 ≠ 0 → GrantOk l data old new g ∧ g.2 ≤ maxSize) (n : Nat) :
    ∃ res l', pass env (n + 2) false m data raw new grants = some res ∧
      Called .proc m l data old new grants res l' := by
  rcases pass_cases h hb hsize (n + 1) grants with ⟨m', l', r, hp, hdone⟩ | ⟨hn, -, pl, hplace, hp⟩
  · exact ⟨_, l', hp, .done [] rfl (by simp) hdone⟩
  rcases growHeap_proc h hgr with ⟨g, rest, m1, l₁, hcons, hok, hg, hmoves, hgaps⟩ | ⟨hz, hg⟩
  · rw [hg] at hp
    subst hcons
    have hcover : ∀ x, cover l₁ x = cover l x + hit ⟨g.1, g.2⟩ x := by
      intro x
      have := hmoves.bytes x
      simpa using this
    have hreq : Request m1 .proc l₁ data old new := by
      refine ⟨hmoves.list, hgaps, h.old_ok, fun x => ?_, h.new_room, h.new_aligned, h.new_bound⟩
      have h1 := hok.fresh x
      have h2 := hcover x
      omega
    have hsize' : SizeOk data old old := by
      unfold SizeOk at hsize ⊢
      split_ifs at hsize ⊢ with hd
      · rfl
      have hr : 16 ≤ old := (h.old_ok hd).room
      exact ⟨by omega, roundOld_of hr (h.old_ok hd).size_aligned (hsize.2 ▸ roundOld_le raw)⟩
    rcases pass_cases hreq hb hsize' n rest with ⟨m', l', r, hp', hdone⟩ | ⟨-, hno, -⟩
    · refine ⟨_, l', hp.trans hp', .done [g] rfl (by simp) ⟨?_, hdone.gaps, hdone.freed, hdone.ret⟩⟩
      refine (hmoves.trans hdone.moves).recut (fun x => ?_) (fun x hx => ?_) ?_
      · simp only [cover_append, cover_cons, cover_nil, regions_cons, regions_nil]
        omega
      · simp only [cover_append, cover_cons, cover_nil, regions_cons, regions_nil] at hx ⊢
        omega
      · simp only [total_append, total_cons, total_nil, regions_cons, regions_nil]
        omega
    · -- the entry around the region fits
      have hlarge := hok.large
      obtain ⟨e, he, hbase, hstop⟩ := exists_around (a := g.1) (s := g.2) hgaps (by omega) fun x h1 h2 => by
        rw [hcover, hit_of (e := ⟨g.1, g.2⟩) h1 h2]
        omega
      simp only [Ext.stop] at hstop
      exact absurd (.inr (by omega)) (hno e he)
  · rw [hg] at hp
    exact ⟨_, l, hp, Called.fail hz hn⟩

end Call

end QRV.Nano
