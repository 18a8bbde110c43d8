import QRV.Lib.Extent
import QRV.Nano.Alloc

/- The free lists of the system allocator. A list represents a sequence of extents
   in address order (`FreeList`); that no two of them touch is kept apart (`Gaps`),
   since it fails for a moment inside a free. What every routine does to a list is
   one relation (`Moves`): extents go in, extents come out, every other word of
   memory stays. The steps are replacements of a stretch of the list
   (`FreeList.replace`). -/
namespace QRV.Nano
open List
open LinkCell Extent

variable {c : Cell FreeId Nat} {a : Nat}

namespace HeapMem

/-- The links in memory; `NULL` is no link. -/
def links (m : HeapMem) : Links FreeId Nat := fun c => if m.read c = 0 then none else some (m.read c)

@[simp] theorem read_head (m : HeapMem) (b : FreeId) : m.read (.head b) = m.heads b := rfl

@[simp] theorem read_next (m : HeapMem) (a : Nat) : m.read (.next a) = m.mem a := rfl

@[simp] theorem store_self (m : HeapMem) (a v : Nat) : (m.store a v).mem a = v := by
  simp [store]

theorem store_off {a a' : Nat} (h : a' ≠ a) (m : HeapMem) (v : Nat) :
    (m.store a v).mem a' = m.mem a' := by
  simp [store, h]

@[simp] theorem store_heads (m : HeapMem) (a v : Nat) : (m.store a v).heads = m.heads := rfl

@[simp] theorem setSize_heads (m : HeapMem) (p v : Nat) : (m.setSize p v).heads = m.heads := rfl

@[simp] theorem setSize_size (m : HeapMem) (p v : Nat) : (m.setSize p v).size p = v := store_self m _ v

theorem setSize_off {a p : Nat} (h : a ≠ p + 8) (m : HeapMem) (v : Nat) :
    (m.setSize p v).mem a = m.mem a := store_off h m v

@[simp] theorem read_write_self (m : HeapMem) (c : Cell FreeId Nat) (v : Nat) :
    (m.write c v).read c = v := by
  cases c with
  | head b => simp [write, read]
  | next a => exact store_self m a v

theorem write_mem_off (h : Cell.next a ≠ c) (m : HeapMem) (v : Nat) :
    (m.write c v).mem a = m.mem a := by
  cases c with
  | head b => rfl
  | next a' => exact store_off (fun e => h (by rw [e])) m v

theorem write_heads_off {b : FreeId} (h : Cell.head b ≠ c) (m : HeapMem)
    (v : Nat) : (m.write c v).heads b = m.heads b := by
  cases c with
  | head b' =>
    have hb : b ≠ b' := fun e => h (by rw [e])
    simp [write, hb]
  | next a' => rfl

theorem store_eq_self {m : HeapMem} {a v : Nat} (h : m.mem a = v) : m.store a v = m := by
  subst h
  simp [store]

theorem write_eq_self {m : HeapMem} {v : Nat} (h : m.read c = v) :
    m.write c v = m := by
  subst h
  cases c with
  | head b => simp [write, read]
  | next a => exact store_eq_self rfl

theorem store_comm {a a' : Nat} (h : a ≠ a') (m : HeapMem) (v v' : Nat) :
    (m.store a v).store a' v' = (m.store a' v').store a v := by
  simp only [store, Function.update_comm h]

theorem links_of_read {m m' : HeapMem} {c d : Cell FreeId Nat} (h : m'.read d = m.read c) :
    m'.links d = m.links c := by
  simp [links, h]

theorem links_some {m : HeapMem} (h : m.read c = a) (ha : 0 < a) :
    m.links c = some a := by
  have : a ≠ 0 := by omega
  simp [links, h, this]

theorem read_of_links {m : HeapMem} (h : m.links c = some a) :
    m.read c = a := by
  simp only [links] at h
  split at h
  · exact absurd h (by simp)
  · exact Option.some.inj h

theorem read_of_links_none {m : HeapMem} (h : m.links c = none) :
    m.read c = 0 := by
  simp only [links] at h
  split at h
  · assumption
  · exact absurd h (by simp)

end HeapMem

/-! ## What a free list represents -/

/-- A free entry: aligned, room for its own header, inside the address space and not
in the page of `NULL`. -/
structure EntryOk (e : Ext) : Prop where
  low : 4096 ≤ e.base
  base_aligned : e.base % 8 = 0
  room : 16 ≤ e.size
  size_aligned : e.size % 8 = 0
  bound : e.stop < 2 ^ 64

theorem EntryOk.pos {e : Ext} (h : EntryOk e) : 0 < e.base := Nat.lt_of_lt_of_le (by decide) h.low

theorem EntryOk.lt {e : Ext} (h : EntryOk e) : e.base + e.size < 2 ^ 64 := h.bound

theorem EntryOk.wide {e : Ext} (h : EntryOk e) : e.base + 16 ≤ e.stop := Nat.add_le_add_left h.room _

theorem EntryOk.join {e f : Ext} (he : EntryOk e) (hf : EntryOk f) (h : e.base + e.size = f.base) :
    EntryOk ⟨e.base, e.size + f.size⟩ := by
  obtain ⟨h1, h2, h3, h4, -⟩ := he
  have := hf.size_aligned
  have := hf.lt
  constructor <;> simp only [Ext.stop] <;> omega

/-- A block cut from the start of an entry, and the entry that is left. -/
theorem EntryOk.cut {base size new : Nat} (he : EntryOk ⟨base, size⟩) (hnew : 16 ≤ new) (h8 : new % 8 = 0) :
    (new ≤ size → EntryOk ⟨base, new⟩) ∧ (new + 16 ≤ size → EntryOk ⟨base + new, size - new⟩) := by
  obtain ⟨h1, h2, h3, h4, h5⟩ := he
  simp only [Ext.stop] at *
  refine ⟨fun hle => ?_, fun hle => ?_⟩ <;> constructor <;> simp only [Ext.stop] <;> omega

/-- Address order. -/
def Ordered (l : List Ext) : Prop := l.Pairwise fun e f => e.stop ≤ f.base

/-- No two entries touch. -/
def Gaps (l : List Ext) : Prop := l.Pairwise fun e f => e.stop < f.base

/-- The list `b` in memory holds the extents `l`, in address order. -/
structure FreeList (m : HeapMem) (b : FreeId) (l : List Ext) : Prop where
  chain : Chain m.links (.head b) (l.map Ext.base)
  sizes : ∀ e ∈ l, m.size e.base = e.size
  ok : ∀ e ∈ l, EntryOk e
  ordered : Ordered l

/-- The cell behind the entries `k` of the list `b`. -/
def cellAt (b : FreeId) (k : List Ext) : Cell FreeId Nat := endCell (.head b) (k.map Ext.base)

/-- The address of the first of some entries, `NULL` for none. -/
def firstBase : List Ext → Nat
  | [] => 0
  | e :: _ => e.base

theorem cellAt_concat (b : FreeId) (k : List Ext) (e : Ext) : cellAt b (k ++ [e]) = .next e.base := by
  simp [cellAt]

theorem cellAt_mem {b : FreeId} {k : List Ext} (h : cellAt b k = .next a) :
    ∃ e ∈ k, e.base = a := by
  have hm := endCell_mem (Cell.head b) (k.map Ext.base)
  rw [show endCell (.head b) (k.map Ext.base) = .next a from h] at hm
  simpa using hm

theorem cellAt_head {b c : FreeId} {k : List Ext} (h : cellAt b k = .head c) : c = b := by
  have hm := endCell_mem (Cell.head b) (k.map Ext.base)
  rw [show endCell (.head b) (k.map Ext.base) = .head c from h] at hm
  simpa using hm

theorem Ordered.apart {l : List Ext} (h : Ordered l) {e f : Ext} (he : e ∈ l) (hf : f ∈ l)
    (hne : e ≠ f) : Apart e f := by
  have hsymm : Std.Symm Apart := ⟨fun _ _ => Or.symm⟩
  have hp : l.Pairwise Apart := h.imp .inl
  exact hp.forall he hf hne

namespace FreeList
variable {m m' : HeapMem} {b : FreeId} {k k' l mid mid' : List Ext} {e : Ext}

theorem read (h : FreeList m b (k ++ k')) : m.read (cellAt b k) = firstBase k' := by
  have hc := h.chain
  rw [map_append] at hc
  have hc' := ((chain_append _ _ _ _).mp hc).2
  cases k' with
  | nil => exact HeapMem.read_of_links_none hc'
  | cons e k' => exact HeapMem.read_of_links hc'.1

theorem next (h : FreeList m b (k ++ e :: k')) : m.mem e.base = firstBase k' := by
  have := read (show FreeList m b ((k ++ [e]) ++ k') by simpa using h)
  rwa [cellAt_concat] at this

theorem nodup (h : FreeList m b l) : (l.map Ext.base).Nodup := h.chain.nodup

theorem length_lt (h : FreeList m b l) : l.length < maxEntries := by
  have key : ∀ (l : List Ext) (lo : Nat), (∀ e ∈ l, EntryOk e) → Ordered l → (∀ e ∈ l, lo ≤ e.base) →
      lo ≤ 2 ^ 64 → lo + 16 * l.length ≤ 2 ^ 64 := by
    intro l
    induction l with
    | nil => intro lo _ _ _ hlo; simpa using hlo
    | cons e l ih =>
      intro lo hok hord hlo _
      have he := hok e (by simp)
      have h1 := he.bound
      have h2 := he.wide
      have h3 := hlo e (by simp)
      have hord' := pairwise_cons.mp hord
      have := ih e.stop (fun f hf => hok f (by simp [hf])) hord'.2 (fun f hf => hord'.1 f hf) (by omega)
      simp only [length_cons]
      omega
  have := key l 1 h.ok h.ordered (fun e he => (h.ok e he).pos) (by decide)
  simp only [maxEntries]
  omega

/-- A stretch of the list is replaced. Stores go to the cell before the stretch and
to addresses between its neighbours. -/
structure Replaced (m m' : HeapMem) (b : FreeId) (k mid mid' k' : List Ext) (lo hi : Nat) : Prop where
  before : ∀ e ∈ k, e.stop ≤ lo
  behind : ∀ e ∈ k', hi ≤ e.base
  mem : ∀ a, Cell.next a ≠ cellAt b k → ¬(lo ≤ a ∧ a < hi) → m'.mem a = m.mem a
  heads : ∀ c, Cell.head c ≠ cellAt b k → m'.heads c = m.heads c
  seg : Seg m'.links (cellAt b k) (mid'.map Ext.base)
  sizes : ∀ e ∈ mid', m'.size e.base = e.size
  last : m'.read (endCell (cellAt b k) (mid'.map Ext.base)) = m.read (endCell (cellAt b k) (mid.map Ext.base))
  ok : ∀ e ∈ mid', EntryOk e
  ordered : Ordered (k ++ (mid' ++ k'))

theorem replace (h : FreeList m b (k ++ (mid ++ k'))) {lo hi : Nat} (hr : Replaced m m' b k mid mid' k' lo hi) :
    FreeList m' b (k ++ (mid' ++ k')) := by
  -- the headers before and behind the stretch are not stored to
  have hbefore : ∀ e ∈ k, m'.size e.base = m.size e.base := by
    intro e he
    have hwide := (h.ok e (by simp [he])).wide
    have hstop := hr.before e he
    refine hr.mem _ (fun hc => ?_) (by omega)
    obtain ⟨f, hf, hfe⟩ := cellAt_mem hc.symm
    have hne : e ≠ f := by
      intro hef
      rw [hef] at hfe
      omega
    have := h.ordered.apart (mem_append_left _ he) (mem_append_left _ hf) hne
    simp only [Apart, Ext.stop] at this hwide
    omega
  have hbehind : ∀ e ∈ k', ∀ a, e.base ≤ a → a < e.stop → m'.mem a = m.mem a := by
    intro e he a hea hae
    have hstart := hr.behind e he
    refine hr.mem a (fun hc => ?_) (by omega)
    obtain ⟨f, hf, rfl⟩ := cellAt_mem hc.symm
    have := (pairwise_append.mp h.ordered).2.2 f hf e (by simp [he])
    have := (h.ok f (by simp [hf])).wide
    omega
  have hkeep : ∀ e ∈ k', m'.mem e.base = m.mem e.base ∧ m'.size e.base = m.size e.base := by
    intro e he
    have hwide := (h.ok e (by simp [he])).wide
    exact ⟨hbehind e he _ (Nat.le_refl _) (by omega), hbehind e he _ (Nat.le_add_right _ _) (by omega)⟩
  refine ⟨?_, ?_, ?_, hr.ordered⟩
  · rw [map_append, map_append]
    have hc := h.chain
    rw [map_append, map_append] at hc
    refine chain_splice hc (fun d hd => ?_) hr.seg (HeapMem.links_of_read hr.last) (fun x hx => ?_)
    · have hnd : (k.map Ext.base).Nodup := (nodup_append.mp (by simpa using h.nodup)).1
      have hne : d ≠ cellAt b k := fun hdc => endCell_notin_cells hnd (hdc ▸ hd)
      apply HeapMem.links_of_read
      cases d with
      | head c => exact hr.heads c hne
      | next a =>
        have ha := cells_subset hd
        simp only [mem_cons, mem_map, reduceCtorEq, Cell.next.injEq, false_or] at ha
        obtain ⟨_, ⟨e, he, rfl⟩, rfl⟩ := ha
        have hwide := (h.ok e (by simp [he])).wide
        have hstop := hr.before e he
        exact hr.mem _ hne (by omega)
    · obtain ⟨e, he, rfl⟩ := mem_map.mp hx
      exact HeapMem.links_of_read (hkeep e he).1
  · intro e he
    rcases mem_append.mp he with he | he
    · rw [hbefore e he, h.sizes e (by simp [he])]
    · rcases mem_append.mp he with he | he
      · exact hr.sizes e he
      · rw [(hkeep e he).2, h.sizes e (by simp [he])]
  · have hold := forall_mem_append.mp h.ok
    exact forall_mem_append.mpr ⟨hold.1, forall_mem_append.mpr ⟨hr.ok, (forall_mem_append.mp hold.2).2⟩⟩

theorem frame (h : FreeList m b l) (hmem : ∀ a, cover l a ≠ 0 → m'.mem a = m.mem a)
    (hhead : m'.heads b = m.heads b) : FreeList m' b l := by
  have hkeep : ∀ e ∈ l, ∀ a, e.base ≤ a → a < e.stop → m'.mem a = m.mem a := by
    intro e he a hea hae
    refine hmem a fun hc => ?_
    have h1 := le_cover he a
    have h2 := hit_of hea hae
    omega
  refine ⟨?_, fun e he => ?_, h.ok, h.ordered⟩
  · have hread : m'.read (.head b) = m.read (.head b) := hhead
    refine chain_entry (HeapMem.links_of_read hread) (fun x hx => ?_) h.chain
    obtain ⟨e, he, rfl⟩ := mem_map.mp hx
    apply HeapMem.links_of_read
    exact hkeep e he _ (Nat.le_refl _) (by have := (h.ok e he).wide; omega)
  · rw [← h.sizes e he]
    exact hkeep e he _ (by omega) (by have := (h.ok e he).wide; omega)

end FreeList

/-! ## What goes in and what comes out -/

/-- The list `b` changes from `l` to `l'`: the extents `inn` go in, `out` come out,
and memory changes only in their bytes and those of the list. -/
structure Moves (b : FreeId) (m : HeapMem) (l : List Ext) (m' : HeapMem) (l' inn out : List Ext) :
    Prop where
  list : FreeList m' b l'
  bytes : ∀ x, cover l' x + cover out x = cover l x + cover inn x
  sum : total l' + total out = total l + total inn
  frame : ∀ a, cover l a = 0 → cover inn a = 0 → m'.mem a = m.mem a
  heads : ∀ c, c ≠ b → m'.heads c = m.heads c

namespace Moves
variable {b : FreeId} {m m1 m2 : HeapMem} {l l₁ l₂ inn inn1 inn2 out out1 out2 : List Ext}

theorem refl (h : FreeList m b l) : Moves b m l m l [] [] :=
  ⟨h, fun _ => rfl, rfl, fun _ _ _ => rfl, fun _ _ => rfl⟩

theorem trans (h1 : Moves b m l m1 l₁ inn1 out1) (h2 : Moves b m1 l₁ m2 l₂ inn2 out2) :
    Moves b m l m2 l₂ (inn1 ++ inn2) (out1 ++ out2) := by
  refine ⟨h2.list, fun x => ?_, ?_, fun a hl hi => ?_, fun c hc => ?_⟩
  · have := h1.bytes x
    have := h2.bytes x
    simp only [cover_append]
    omega
  · have := h1.sum
    have := h2.sum
    simp only [total_append]
    omega
  · simp only [cover_append] at hi
    have := h1.bytes a
    rw [h2.frame a (by omega) (by omega), h1.frame a hl (by omega)]
  · rw [h2.heads c hc, h1.heads c hc]

theorem recut (h : Moves b m l m1 l₁ inn out)
    (hc : ∀ x, cover inn x + cover out1 x = cover inn1 x + cover out x)
    (hi : ∀ x, cover inn1 x = 0 → cover inn x = 0)
    (ht : total inn + total out1 = total inn1 + total out) : Moves b m l m1 l₁ inn1 out1 := by
  refine ⟨h.list, fun x => ?_, ?_, fun a hl ha => ?_, h.heads⟩
  · have := h.bytes x
    have := hc x
    omega
  · have := h.sum
    omega
  · exact h.frame a hl (hi a ha)

theorem store_out (h : Moves b m l m1 l₁ inn out) (hone : ∀ x, cover l x + cover inn x ≤ 1)
    (hmem : ∀ a, cover out a = 0 → m2.mem a = m1.mem a) (hhead : m2.heads = m1.heads) :
    Moves b m l m2 l₁ inn out := by
  refine ⟨h.list.frame (fun a ha => ?_) (by rw [hhead]), h.bytes, h.sum, fun a hl hi => ?_, ?_⟩
  · have := h.bytes a
    have := hone a
    exact hmem a (by omega)
  · have := h.bytes a
    rw [hmem a (by omega), h.frame a hl hi]
  · intro c hc
    rw [hhead, h.heads c hc]

end Moves

/-- A stretch of the list is replaced and nothing else is stored to. -/
theorem FreeList.moves {m m' : HeapMem} {b : FreeId} {k k' mid mid' inn out : List Ext}
    (h : FreeList m b (k ++ (mid ++ k'))) {lo hi : Nat} (hr : Replaced m m' b k mid mid' k' lo hi)
    (hcov : ∀ a, lo ≤ a → a < hi → cover mid a + cover inn a ≠ 0)
    (hbytes : ∀ x, cover mid' x + cover out x = cover mid x + cover inn x)
    (hsum : total mid' + total out = total mid + total inn) :
    Moves b m (k ++ (mid ++ k')) m' (k ++ (mid' ++ k')) inn out := by
  refine ⟨h.replace hr, fun x => ?_, ?_, fun a hl hi => ?_, fun c hc => ?_⟩
  · have := hbytes x
    simp only [cover_append]
    omega
  · simp only [total_append]
    omega
  · simp only [cover_append] at hl
    refine hr.mem a (fun hc => ?_) (fun hw => hcov a hw.1 hw.2 (by omega))
    obtain ⟨e, he, rfl⟩ := cellAt_mem hc.symm
    have h1 := le_cover he e.base
    have h2 := (h.ok e (by simp [he])).wide
    have h3 : hit e e.base = 1 := hit_of (Nat.le_refl _) (by omega)
    omega
  · exact hr.heads c fun he => hc (cellAt_head he.symm)

/-! ## Taking an entry -/

/-- An entry the first-fit loop takes: of the size asked for, or with room for an
entry behind the block. -/
def Fits (new : Nat) (e : Ext) : Prop := e.size = new ∨ new + 16 ≤ e.size

/-- What stays of an entry when a block of `new` bytes is cut from its start. -/
def remains (e : Ext) (new : Nat) : List Ext :=
  if e.size = new then [] else [⟨e.base + new, e.size - new⟩]

theorem wadd_of_lt {a b : Nat} (h : a + b < 2 ^ 64) : wadd a b = a + b := Nat.mod_eq_of_lt h

theorem wsub_of_le {a b : Nat} (h : b ≤ a) (ha : a < 2 ^ 64) : wsub a b = a - b := by
  simp only [wsub]
  omega

/-- The stores that put the entry `f` into the cell `c`, with `next` as its link. -/
def put (m : HeapMem) (c : Cell FreeId Nat) (f : Ext) (next : Nat) : HeapMem :=
  ((m.setSize f.base f.size).store f.base next).write c f.base

section Steps
variable {m : HeapMem} {b : FreeId} {k k' mid inn out : List Ext} {e f : Ext}


theorem FreeList.cell_ne (h : FreeList m b (k ++ k')) {lo x : Nat} (hlo : ∀ e ∈ k, e.stop ≤ lo)
    (hx : lo ≤ x) : Cell.next x ≠ cellAt b k := by
  intro hc
  obtain ⟨g, hg, rfl⟩ := cellAt_mem hc.symm
  have h1 := hlo g hg
  have h2 := (h.ok g (by simp [hg])).wide
  omega

/-- An entry takes the place of a stretch, between the neighbours of the stretch. -/
theorem FreeList.put_moves (h : FreeList m b (k ++ (mid ++ k'))) {lo hi next : Nat}
    (hlo : ∀ e ∈ k, e.stop ≤ lo) (hhi : ∀ e ∈ k', hi ≤ e.base) (hf : EntryOk f)
    (hflo : lo ≤ f.base) (hfhi : f.stop ≤ hi)
    (hnext : next = m.read (endCell (cellAt b k) (mid.map Ext.base)))
    (hcov : ∀ a, lo ≤ a → a < hi → cover mid a + cover inn a ≠ 0)
    (hbytes : ∀ x, hit f x + cover out x = cover mid x + cover inn x)
    (hsum : f.size + total out = total mid + total inn) :
    Moves b m (k ++ (mid ++ k')) (put m (cellAt b k) f next) (k ++ ([f] ++ k')) inn out := by
  have hwide := hf.wide
  have hcell : ∀ x, f.base ≤ x → Cell.next x ≠ cellAt b k := fun x hx =>
    h.cell_ne hlo (Nat.le_trans hflo hx)
  refine h.moves ⟨hlo, hhi, fun a ha hw => ?_, fun c hc => ?_, ?_, ?_, ?_, ?_, ?_⟩ hcov ?_ ?_
  · rw [put, HeapMem.write_mem_off ha, HeapMem.store_off (by omega), HeapMem.setSize_off (by omega)]
  · rw [put, HeapMem.write_heads_off hc]
    rfl
  · exact ⟨HeapMem.links_some (HeapMem.read_write_self _ _ _) hf.pos, trivial⟩
  · intro g hg
    rw [mem_singleton.mp hg, HeapMem.size, put, HeapMem.write_mem_off (hcell _ (by omega)),
      HeapMem.store_off (by omega)]
    exact HeapMem.setSize_size m _ _
  · rw [← hnext]
    show (put m (cellAt b k) f next).mem f.base = next
    rw [put, HeapMem.write_mem_off (hcell _ (Nat.le_refl _)), HeapMem.store_self]
  · intro g hg
    rwa [mem_singleton.mp hg]
  · have hord := pairwise_append.mp h.ordered
    have hordmid := pairwise_append.mp hord.2.1
    refine pairwise_append.mpr ⟨hord.1, pairwise_cons.mpr ⟨fun g hg => ?_, hordmid.2.1⟩, ?_⟩
    · exact Nat.le_trans hfhi (hhi g hg)
    · exact fun g hg => forall_mem_cons.mpr ⟨Nat.le_trans (hlo g hg) hflo,
        fun g' hg' => hord.2.2 g hg g' (mem_append_right _ hg')⟩
  · intro x
    simpa using hbytes x
  · simpa using hsum

/-- An entry is joined with a block that touches it, be it an entry behind it or not on the list. -/
theorem FreeList.join_moves (h : FreeList m b (k ++ (e :: mid ++ k'))) {next : Nat} (hf : EntryOk f)
    (htouch : e.base + e.size = f.base) (hlo : ∀ g ∈ k, g.stop ≤ e.base) (hhi : ∀ g ∈ k', f.stop ≤ g.base)
    (hnext : next = m.read (endCell (cellAt b k) ((e :: mid).map Ext.base)))
    (hbytes : ∀ x, hit f x = cover mid x + cover inn x) (hsum : f.size = total mid + total inn) :
    Moves b m (k ++ (e :: mid ++ k')) (put m (cellAt b k) ⟨e.base, e.size + f.size⟩ next)
      (k ++ ([⟨e.base, e.size + f.size⟩] ++ k')) inn [] := by
  refine h.put_moves hlo hhi ((h.ok e (by simp)).join hf htouch) (Nat.le_refl _) ?_ hnext ?_ ?_ ?_
  · simp only [Ext.stop]
    omega
  · intro a hle hlt
    have hb := hbytes a
    rcases Nat.lt_or_ge a f.base with hbefore | hge
    · have := hit_of hle (by simp only [Ext.stop]; omega : a < e.stop)
      simp only [cover_cons]
      omega
    · have := hit_of hge hlt
      simp only [cover_cons]
      omega
  · intro x
    have := hbytes x
    have hjoin : hit ⟨e.base, e.size + f.size⟩ x = hit e x + hit f x := by rw [hit_join, htouch]
    simp only [cover_cons, cover_nil]
    omega
  · simp only [total_cons, total_nil]
    omega

theorem FreeList.unlink_moves (h : FreeList m b (k ++ ([e] ++ k'))) :
    Moves b m (k ++ ([e] ++ k')) (m.write (cellAt b k) (m.mem e.base)) (k ++ ([] ++ k')) [] [e] := by
  have hord := pairwise_append.mp h.ordered
  refine h.moves ⟨fun f hf => hord.2.2 f hf e (by simp), (pairwise_cons.mp hord.2.1).1,
    fun a ha _ => HeapMem.write_mem_off ha m _, fun c hc => HeapMem.write_heads_off hc m _, trivial,
    by simp, HeapMem.read_write_self m _ _, by simp, h.ordered.sublist (by simp)⟩ ?_ ?_ ?_
  · intro a hlo hhi
    simp [hit_of hlo hhi]
  · intro x
    simp
  · simp

end Steps

section Take
variable {m : HeapMem} {b : FreeId} {k k' : List Ext} {e : Ext} {new : Nat}

/-- A block of `new` bytes is cut from the start of the entry behind `k`. -/
theorem takeEntry_moves (h : FreeList m b (k ++ ([e] ++ k'))) (hnew : 16 ≤ new) (h8 : new % 8 = 0)
    (hfit : Fits new e) :
    Moves b m (k ++ ([e] ++ k')) (takeEntry m new (cellAt b k)) (k ++ (remains e new ++ k')) []
      [⟨e.base, new⟩] := by
  have hread : m.read (cellAt b k) = e.base := h.read
  have hsz : m.size e.base = e.size := h.sizes e (by simp)
  have hok := h.ok e (by simp)
  have hbound := hok.lt
  by_cases hex : e.size = new
  · have hm : takeEntry m new (cellAt b k) = m.write (cellAt b k) (m.mem e.base) := by
      simp [takeEntry, hread, hsz, hex]
    rw [hm, remains, if_pos hex, ← hex]
    exact h.unlink_moves
  · have hgap : new + 16 ≤ e.size := hfit.resolve_left hex
    have hord := pairwise_append.mp h.ordered
    have hm : takeEntry m new (cellAt b k) =
        put m (cellAt b k) ⟨e.base + new, e.size - new⟩ (m.mem e.base) := by
      have hoff : e.base ≠ e.base + new + 8 := by omega
      simp only [takeEntry, hread, hsz, if_neg hex, put, wadd_of_lt (by omega : e.base + new < 2 ^ 64),
        wsub_of_le (by omega : new ≤ e.size) (by omega), HeapMem.setSize_off hoff]
    rw [hm, remains, if_neg hex]
    refine h.put_moves (fun f hf => hord.2.2 f hf e (by simp)) (pairwise_cons.mp hord.2.1).1
      ?_ (by simp) ?_ ?_ ?_ ?_ ?_
    · exact (hok.cut hnew h8).2 hgap
    · simp only [Ext.stop]
      omega
    · rfl
    · intro a hlo hhi
      simp [hit_of hlo hhi]
    · intro x
      have := hit_cut e (by omega : new ≤ e.size) x
      simp only [cover_cons, cover_nil]
      omega
    · simp only [total_cons, total_nil]
      omega

end Take

/-! ## Putting a block back -/

/-- What is known of `prev` for a block at `data` behind the entries `l₁`: it is the
last of them, or `NULL` while none of them touches the block. -/
def PrevOk (l₁ : List Ext) (data prev : Nat) : Prop :=
  (prev = 0 ∧ ∀ e ∈ l₁, e.stop < data) ∨ ∃ k q, l₁ = k ++ [q] ∧ prev = q.base

section Link
variable {m : HeapMem} {b : FreeId} {k l₁ l₂ : List Ext} {d f : Ext} {prev : Nat}

theorem put_linked {p s next : Nat} (h : m.read c = p) (hc : Cell.next p ≠ c)
    (hc' : Cell.next (p + 8) ≠ c) : put m c ⟨p, s⟩ next = (m.setSize p s).store p next := by
  refine HeapMem.write_eq_self (Eq.trans ?_ h)
  cases c with
  | head b => rfl
  | next a =>
    have h1 : a ≠ p := fun e => hc (by rw [e])
    have h2 : a ≠ p + 8 := fun e => hc' (by rw [e])
    simp only [HeapMem.read_next]
    rw [HeapMem.store_off h1, HeapMem.setSize_off h2]

/-- The entry that holds the block afterwards ends where the block ends. -/
theorem linkIn_moves (h : FreeList m b (l₁ ++ l₂)) (hg : Gaps (l₁ ++ l₂)) (hd : EntryOk d)
    (h1 : ∀ e ∈ l₁, e.stop ≤ d.base) (h2 : ∀ e ∈ l₂, d.stop ≤ e.base) (hp : PrevOk l₁ d.base prev) :
    ∃ k f, (linkIn m (cellAt b l₁) prev d.base d.size).2 = f.base ∧ Gaps (k ++ [f]) ∧
      Moves b m (l₁ ++ l₂) (linkIn m (cellAt b l₁) prev d.base d.size).1 (k ++ ([f] ++ l₂)) [d] [] := by
  have hdb := hd.lt
  have hg1 := (pairwise_append.mp hg).1
  by_cases hj : prev ≠ 0 ∧ wadd prev (m.size prev) = d.base
  · obtain ⟨k, q, rfl, rfl⟩ := hp.resolve_left fun hp => hj.1 hp.1
    have hqsz : m.size q.base = q.size := h.sizes q (by simp)
    have htouch : q.base + q.size = d.base := by
      rw [← hj.2, hqsz, wadd_of_lt (h.ok q (by simp)).lt]
    have hklo : ∀ e ∈ k, e.stop ≤ q.base := fun e he =>
      Nat.le_of_lt ((pairwise_append.mp hg1).2.2 e he q (by simp))
    rw [linkIn, if_pos hj]
    refine ⟨k, ⟨q.base, q.size + d.size⟩, rfl, ?_, ?_⟩
    · obtain ⟨hk, -, hkq⟩ := pairwise_append.mp hg1
      exact pairwise_append.mpr ⟨hk, pairwise_singleton _ _,
        fun e he => forall_mem_singleton.mpr (hkq e he q (by simp))⟩
    · rw [append_assoc] at h ⊢
      have hread : m.read (cellAt b k) = q.base := h.read
      have hput : m.setSize q.base (wadd (m.size q.base) d.size) =
          put m (cellAt b k) ⟨q.base, q.size + d.size⟩ (m.mem q.base) := by
        rw [put_linked hread (h.cell_ne hklo (Nat.le_refl q.base))
          (h.cell_ne hklo (Nat.le_add_right q.base 8)), hqsz, wadd_of_lt (by omega)]
        refine (HeapMem.store_eq_self ?_).symm
        exact HeapMem.setSize_off (by simp) m _
      rw [hput]
      exact h.join_moves hd htouch hklo h2 rfl (by simp) (by simp)
  · rw [linkIn, if_neg hj]
    refine ⟨l₁, d, rfl, ?_, ?_⟩
    · refine pairwise_append.mpr ⟨hg1, pairwise_singleton _ _, fun e he => forall_mem_singleton.mpr ?_⟩
      rcases hp with ⟨-, hp⟩ | ⟨k, q, rfl, rfl⟩
      · exact hp e he
      -- the last entry does not touch the block, and the others end before it
      · have hq := h.ok q (by simp)
        have hqb := hq.bound
        have hqd := h1 q (by simp)
        have hne : q.stop ≠ d.base := by
          intro htouch
          apply hj
          refine ⟨Nat.pos_iff_ne_zero.mp hq.pos, ?_⟩
          rw [h.sizes q (by simp), wadd_of_lt hqb]
          exact htouch
        rcases mem_append.mp he with he | he
        · have := (pairwise_append.mp hg1).2.2 e he q (by simp)
          simp only [Ext.stop] at *
          omega
        · rw [mem_singleton.mp he]
          omega
    · have hput : ((m.store d.base (m.read (cellAt b l₁))).setSize d.base d.size).write (cellAt b l₁)
          d.base = put m (cellAt b l₁) d (m.read (cellAt b l₁)) := by
        rw [put, HeapMem.setSize, HeapMem.setSize, HeapMem.store_comm (by omega)]
      rw [hput]
      refine FreeList.put_moves (show FreeList m b (l₁ ++ ([] ++ l₂)) from h) h1 h2 hd (Nat.le_refl _)
        (Nat.le_refl _) rfl ?_ ?_ ?_
      · intro a hlo hhi
        simp [hit_of hlo hhi]
      · intro x
        simp
      · simp

theorem joinNext_moves (h : FreeList m b (k ++ ([f] ++ l₂))) (hg1 : Gaps (k ++ [f])) (hg2 : Gaps l₂) :
    ∃ l', Moves b m (k ++ ([f] ++ l₂)) (joinNext m f.base) l' [] [] ∧ Gaps l' := by
  have hf := h.ok f (by simp)
  have hfb := hf.lt
  have hfs : m.size f.base = f.size := h.sizes f (by simp)
  have hnext : m.mem f.base = firstBase l₂ := h.next
  have hord := pairwise_append.mp h.ordered
  obtain ⟨hk, -, hkf⟩ := pairwise_append.mp hg1
  have hfirst : ∀ e ∈ k, ∀ g ∈ l₂, e.stop < g.base := by
    intro e he g hg
    have h1 := hkf e he f (by simp)
    have h2 := (pairwise_cons.mp hord.2.1).1 g hg
    simp only [Ext.stop] at h1 h2 ⊢
    omega
  by_cases hj : f.base + f.size = firstBase l₂
  · cases l₂ with
    | nil =>
      have := hf.pos
      simp only [firstBase] at hj
      omega
    | cons n l3 =>
      have hn := h.ok n (by simp)
      have hnb := hn.lt
      have hns : m.size n.base = n.size := h.sizes n (by simp)
      have hread : m.read (cellAt b k) = f.base := h.read
      have hklo : ∀ e ∈ k, e.stop ≤ f.base := fun e he => Nat.le_of_lt (hkf e he f (by simp))
      simp only [firstBase] at hj hnext
      have hm : joinNext m f.base = put m (cellAt b k) ⟨f.base, f.size + n.size⟩ (m.mem n.base) := by
        rw [put_linked hread (h.cell_ne hklo (Nat.le_refl f.base))
          (h.cell_ne hklo (Nat.le_add_right f.base 8)), joinNext, hfs, hnext, wadd_of_lt hfb, if_pos hj]
        have h1 : (m.store f.base (m.mem n.base)).size f.base = f.size := by
          rw [← hfs]
          exact HeapMem.store_off (by omega) m _
        have h2 : (m.store f.base (m.mem n.base)).size n.base = n.size := by
          rw [← hns]
          exact HeapMem.store_off (by omega) m _
        simp only [h1, h2, wadd_of_lt (by omega : f.size + n.size < 2 ^ 64)]
        exact HeapMem.store_comm (by omega) m _ _
      obtain ⟨hnl, hl3⟩ := pairwise_cons.mp hg2
      rw [hm]
      refine ⟨k ++ ([⟨f.base, f.size + n.size⟩] ++ l3), ?_, ?_⟩
      · exact FreeList.join_moves (show FreeList m b (k ++ ([f, n] ++ l3)) from h) hn hj hklo
          (fun e he => Nat.le_of_lt (hnl e he)) rfl (by simp) (by simp)
      · refine pairwise_append.mpr ⟨hk, pairwise_cons.mpr ⟨fun g hg => ?_, hl3⟩, ?_⟩
        · have := hnl g hg
          simp only [Ext.stop] at this ⊢
          omega
        · exact fun e he => forall_mem_cons.mpr
            ⟨hkf e he f (by simp), fun g hg => hfirst e he g (.tail _ hg)⟩
  · have hm : joinNext m f.base = m := by
      simp only [joinNext, hfs, hnext, wadd_of_lt hfb, if_neg hj]
    rw [hm]
    refine ⟨_, Moves.refl h, pairwise_append.mpr ⟨hk, pairwise_cons.mpr ⟨?_, hg2⟩, ?_⟩⟩
    · intro g hg
      cases l₂ with
      | nil => simp at hg
      | cons n l3 =>
        have hfn := (pairwise_cons.mp hord.2.1).1 n (by simp)
        have hlt : f.stop < n.base := Nat.lt_of_le_of_ne hfn hj
        rcases mem_cons.mp hg with rfl | hg
        · exact hlt
        · have h1 := (pairwise_cons.mp hg2).1 g hg
          simp only [Ext.stop] at h1 hlt ⊢
          omega
    · exact fun e he => forall_mem_cons.mpr ⟨hkf e he _ (by simp), hfirst e he⟩

theorem link_moves (h : FreeList m b (l₁ ++ l₂)) (hg : Gaps (l₁ ++ l₂)) (hd : EntryOk d)
    (h1 : ∀ e ∈ l₁, e.stop ≤ d.base) (h2 : ∀ e ∈ l₂, d.stop ≤ e.base) (hp : PrevOk l₁ d.base prev) :
    ∃ l', Moves b m (l₁ ++ l₂) (link m (cellAt b l₁) prev d.base d.size) l' [d] [] ∧ Gaps l' := by
  obtain ⟨k, f, hf, hkf, hin⟩ := linkIn_moves h hg hd h1 h2 hp
  obtain ⟨l', hj, hg'⟩ := joinNext_moves hin.list hkf (pairwise_append.mp hg).2.1
  rw [← hf] at hj
  exact ⟨l', hin.trans hj, hg'⟩

end Link

/-! ## The loops over a list -/

/-- The address of the last of some entries, `NULL` for none. -/
def lastBase (l : List Ext) : Nat := firstBase l.reverse

theorem lastBase_concat (l : List Ext) (e : Ext) : lastBase (l ++ [e]) = e.base := by
  simp [lastBase, firstBase]

/-- The cell of an entry of the list that fits. -/
def FitCell (b : FreeId) (l : List Ext) (new : Nat) (c : Cell FreeId Nat) : Prop :=
  ∃ k e k', l = k ++ ([e] ++ k') ∧ c = cellAt b k ∧ Fits new e

section Loops
variable {m : HeapMem} {b : FreeId} {k l l₁ l₂ : List Ext} {data new : Nat}

/-- What the walk finds for a block at `data`: the entries before it and behind it,
and the cell of an entry that fits, unless none before `data` does. -/
structure Walked (b : FreeId) (l : List Ext) (data new : Nat)
    (r : Cell FreeId Nat × Nat × Option (Cell FreeId Nat)) (l₁ l₂ : List Ext) : Prop where
  split : l = l₁ ++ l₂
  before : ∀ e ∈ l₁, e.stop ≤ data
  behind : ∀ e ∈ l₂, data < e.base
  pp : r.1 = cellAt b l₁
  prev : r.2.1 = lastBase l₁
  fit : ∀ c, r.2.2 = some c → FitCell b l new c
  unfit : new ≠ 0 → r.2.2 = none → ∀ e ∈ l₁, ¬Fits new e

theorem walk_from (h : FreeList m b (k ++ l)) (hd : 0 < data) (hnew : new + 16 < 2 ^ 64)
    (hapart : ∀ e ∈ l, e.stop ≤ data ∨ data < e.base) (hk : ∀ e ∈ k, e.stop ≤ data) {n : Nat}
    (hn : l.length < n) {fit : Option (Cell FreeId Nat)}
    (hfit : ∀ c, fit = some c → FitCell b (k ++ l) new c)
    (hunfit : new ≠ 0 → fit = none → ∀ e ∈ k, ¬Fits new e) :
    ∃ r l₁ l₂, walk m data new n (cellAt b k) (lastBase k) fit = some r ∧
      Walked b (k ++ l) data new r l₁ l₂ := by
  induction l generalizing k n fit with
  | nil =>
    obtain ⟨n, rfl⟩ := Nat.exists_eq_add_one_of_ne_zero (by omega : n ≠ 0)
    have hread : m.read (cellAt b k) = 0 := h.read
    refine ⟨(cellAt b k, lastBase k, fit), k, [], ?_, ⟨rfl, hk, by simp, rfl, rfl, hfit, hunfit⟩⟩
    simp [walk, hread]
  | cons e l ih =>
    obtain ⟨n, rfl⟩ := Nat.exists_eq_add_one_of_ne_zero (by omega : n ≠ 0)
    have hread : m.read (cellAt b k) = e.base := h.read
    have hok := h.ok e (by simp)
    have hsz := h.sizes e (by simp)
    have hne : e.base ≠ 0 := Nat.pos_iff_ne_zero.mp hok.pos
    have hb := hok.lt
    obtain ⟨fit', hfit'⟩ : ∃ fit', fit' = if new ≠ 0 ∧ (e.size = new ∨ (fit.isNone ∧ new + 16 ≤ e.size))
      then some (cellAt b k) else fit := ⟨_, rfl⟩
    have hstep : walk m data new (n + 1) (cellAt b k) (lastBase k) fit =
        if data ≠ 0 ∧ e.base ≤ data ∧ data < e.base + e.size then none
        else if data ≠ 0 ∧ data < e.base then some (cellAt b k, lastBase k, fit')
        else walk m data new n (.next e.base) e.base fit' := by
      rw [walk, hfit']
      simp only [hread, hne, if_false, hsz, wadd_of_lt hnew, wadd_of_lt hb]
    have hcell : ∀ c, fit' = some c → FitCell b (k ++ e :: l) new c := by
      intro c hc
      rw [hfit'] at hc
      split at hc
      · rename_i hcond
        exact ⟨k, e, l, rfl, (Option.some.inj hc).symm, hcond.2.imp id And.right⟩
      · exact hfit c hc
    have hnone : new ≠ 0 → fit' = none → ∀ f ∈ k ++ [e], ¬Fits new f := by
      intro hn0 hf
      rw [hfit'] at hf
      split at hf
      · exact absurd hf (by simp)
      · rename_i hcond
        refine forall_mem_append.mpr ⟨hunfit hn0 hf, forall_mem_singleton.mpr fun hfits => ?_⟩
        exact hcond ⟨hn0, hfits.imp id fun hle => ⟨by rw [hf]; rfl, hle⟩⟩
    have hd0 : data ≠ 0 := by omega
    rw [hstep]
    rcases hapart e (by simp) with hbefore | hbehind
    · have hend : e.base + e.size ≤ data := hbefore
      rw [if_neg (by omega), if_neg (by omega), ← cellAt_concat b k e, ← lastBase_concat k e]
      have hcat : k ++ e :: l = (k ++ [e]) ++ l := by simp
      rw [hcat] at h hcell ⊢
      exact ih h (fun f hf => hapart f (by simp [hf])) (forall_mem_append.mpr ⟨hk, by simpa using hbefore⟩)
        (by simpa using hn) hcell hnone
    · rw [if_neg (by omega), if_pos ⟨hd0, hbehind⟩]
      refine ⟨_, k, e :: l, rfl, ⟨rfl, hk, forall_mem_cons.mpr ⟨hbehind, fun f hf => ?_⟩, rfl, rfl, hcell, ?_⟩⟩
      · have h1 := (pairwise_cons.mp (pairwise_append.mp h.ordered).2.1).1 f hf
        have h2 := hok.wide
        omega
      · exact fun hn0 hf f hmem => hnone hn0 hf f (by simp [hmem])


/-- The first-fit loop finds an entry behind `k`, if there is one. -/
theorem search_from (h : FreeList m b (k ++ l)) (hnew : new + 16 < 2 ^ 64) {n : Nat}
    (hn : l.length < n) :
    (search m new n (cellAt b k) = some none ∧ ∀ e ∈ l, ¬Fits new e) ∨
      ∃ c, search m new n (cellAt b k) = some (some c) ∧ FitCell b (k ++ l) new c := by
  induction l generalizing k n with
  | nil =>
    obtain ⟨n, rfl⟩ := Nat.exists_eq_add_one_of_ne_zero (by omega : n ≠ 0)
    have hread : m.read (cellAt b k) = 0 := h.read
    exact .inl ⟨by simp [search, hread], by simp⟩
  | cons e l ih =>
    obtain ⟨n, rfl⟩ := Nat.exists_eq_add_one_of_ne_zero (by omega : n ≠ 0)
    have hread : m.read (cellAt b k) = e.base := h.read
    have hne : e.base ≠ 0 := Nat.pos_iff_ne_zero.mp (h.ok e (by simp)).pos
    have hsz := h.sizes e (by simp)
    simp only [search, hread, hne, if_false, hsz, wadd_of_lt hnew]
    by_cases hfit : Fits new e
    · rw [if_pos (show e.size = new ∨ new + 16 ≤ e.size from hfit)]
      exact .inr ⟨_, rfl, k, e, l, rfl, rfl, hfit⟩
    · rw [if_neg (show ¬(e.size = new ∨ new + 16 ≤ e.size) from hfit), ← cellAt_concat b k e]
      have hcat : k ++ e :: l = (k ++ [e]) ++ l := by simp
      rw [hcat] at h ⊢
      exact (ih h (by simpa using hn)).imp (fun hs => ⟨hs.1, forall_mem_cons.mpr ⟨hfit, hs.2⟩⟩) id

end Loops

end QRV.Nano
