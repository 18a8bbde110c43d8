import QRV.Nano.Pril

/- A priority list as its levels. `Levels m c ls` says that from the link `c` on
   the memory holds the levels `ls`, each in the layout the comment of
   `nano_misc.c` draws: the HEAD entry's `prev` is the TAIL entry of its level,
   every other `prev` the link of its predecessor, the flags on exactly those
   two, and every level strictly above the ones behind it. The invariant reads
   only the entries it names (`levels_entry`), and the levels in front of a
   change stay what they were (`levels_splice`). -/
namespace QRV.Nano
open LinkCell List

variable {Q A : Type}
variable {l : List A} {m : PrilMem Q A} {c : Cell Q A}

/-- One level, entered from the link `c`. The cell behind a nonempty list is the
`next` of its last entry, so `endCell c l = next x` reads: `x` is the last. -/
structure LevelOk (m : PrilMem Q A) (c : Cell Q A) (l : List A) : Prop where
  ne : l ≠ []
  seg : Seg m.links c l
  prio : ∀ x ∈ l, ∀ y ∈ l, prilPriority m x = prilPriority m y
  tails : ∀ x ∈ l, (m.type x).tail = true ↔ endCell c l = .next x
  heads : ∀ x ∈ l, (m.type x).head = true ↔ l.head? = some x
  prevHead : ∀ x, l.head? = some x → m.prev x = endCell c l
  prevRest : ∀ h r, l = h :: r → Back id m.prev (.next h) r

/-- The levels from the link `c` on, highest first. -/
def Levels (m : PrilMem Q A) : Cell Q A → List (List A) → Prop
  | c, [] => m.links c = none
  | c, l :: ls => LevelOk m c l ∧ (∀ x ∈ l, ∀ y ∈ ls.flatten, prilPriority m y < prilPriority m x) ∧
      Levels m (endCell c l) ls

/-- `m'` holds in every entry of `l` what `m` does. -/
structure SameEntries (m m' : PrilMem Q A) (l : List A) : Prop where
  links : ∀ x ∈ l, m'.links (.next x) = m.links (.next x)
  prev : ∀ x ∈ l, m'.prev x = m.prev x
  type : ∀ x ∈ l, m'.type x = m.type x
  priority : ∀ x ∈ l, m'.priority x = m.priority x

section
variable {m m' : PrilMem Q A}

theorem SameEntries.mono {l l' : List A} (h : SameEntries m m' l)
    (hs : ∀ x ∈ l', x ∈ l) : SameEntries m m' l' :=
  ⟨fun x hx => h.links x (hs x hx), fun x hx => h.prev x (hs x hx),
    fun x hx => h.type x (hs x hx), fun x hx => h.priority x (hs x hx)⟩

theorem prilPriority_congr {x : A} (ht : m'.type x = m.type x)
    (hp : m'.priority x = m.priority x) : prilPriority m' x = prilPriority m x := by
  simp [prilPriority, ht, hp]

theorem SameEntries.prio (h : SameEntries m m' l) :
    ∀ x ∈ l, prilPriority m' x = prilPriority m x :=
  fun x hx => prilPriority_congr (h.type x hx) (h.priority x hx)

/-- A level reads the cells of its walk and the words of its entries. -/
theorem LevelOk.congr {c d : Cell Q A} (h : LevelOk m c l)
    (hs : Seg m'.links d l) (hp : ∀ x ∈ l, m'.prev x = m.prev x)
    (ht : ∀ x ∈ l, m'.type x = m.type x) (hq : ∀ x ∈ l, m'.priority x = m.priority x) :
    LevelOk m' d l := by
  have hend : endCell d l = endCell c l := endCell_of_ne_nil h.ne d c
  refine ⟨h.ne, hs, ?_, ?_, ?_, ?_, ?_⟩
  · intro x hx y hy
    rw [prilPriority_congr (ht x hx) (hq x hx), prilPriority_congr (ht y hy) (hq y hy)]
    exact h.prio x hx y hy
  · intro x hx; rw [ht x hx, hend]; exact h.tails x hx
  · intro x hx; rw [ht x hx]; exact h.heads x hx
  · intro x hx; rw [hp x (mem_of_head? hx), hend]; exact h.prevHead x hx
  · intro a r hl
    exact back_congr (fun x hx => hp x (by rw [hl]; exact .tail _ hx)) (h.prevRest a r hl)

theorem LevelOk.entry {c d : Cell Q A} (h : LevelOk m c l)
    (hd : m'.links d = m.links c) (hs : SameEntries m m' l) : LevelOk m' d l :=
  h.congr (seg_entry hd hs.links h.seg) hs.prev hs.type hs.priority

/-- The levels may be entered from another link with the same contents. -/
theorem levels_entry {c d : Cell Q A} {ls : List (List A)}
    (hd : m'.links d = m.links c) (hs : SameEntries m m' ls.flatten) (h : Levels m c ls) :
    Levels m' d ls := by
  induction ls generalizing c d with
  | nil => exact hd.trans h
  | cons l ls ih =>
    obtain ⟨hl, hlt, hls⟩ := h
    have hsl : SameEntries m m' l := hs.mono fun x hx => by simp [hx]
    have hsr : SameEntries m m' ls.flatten := hs.mono fun x hx => by
      rw [flatten_cons]; exact mem_append_right _ hx
    refine ⟨hl.entry hd hsl, ?_, ?_⟩
    · intro x hx y hy
      rw [hsl.prio x hx, hsr.prio y hy]
      exact hlt x hx y hy
    · rw [endCell_of_ne_nil hl.ne d c]
      refine ih ?_ hsr hls
      rw [endCell_eq_getLast hl.ne]
      exact hsl.links _ (getLast_mem hl.ne)

end

theorem Levels.chain {ls : List (List A)} (h : Levels m c ls) :
    Chain m.links c ls.flatten := by
  induction ls generalizing c with
  | nil => exact h
  | cons l ls ih =>
    rw [flatten_cons, chain_append]
    exact ⟨h.1.seg, ih h.2.2⟩

theorem levels_append {ls1 ls2 : List (List A)}
    (h : Levels m c (ls1 ++ ls2)) : Levels m (endCell c ls1.flatten) ls2 := by
  induction ls1 generalizing c with
  | nil => exact h
  | cons l ls ih =>
    rw [flatten_cons, endCell_append]
    exact ih h.2.2

theorem levels_lt {ls1 ls2 : List (List A)}
    (h : Levels m c (ls1 ++ ls2)) :
    ∀ x ∈ ls1.flatten, ∀ y ∈ ls2.flatten, prilPriority m y < prilPriority m x := by
  induction ls1 generalizing c with
  | nil => simp
  | cons l ls ih =>
    refine forall_mem_append.mpr ⟨fun x hx y hy => h.2.1 x hx y ?_, ih h.2.2⟩
    show y ∈ (ls ++ ls2).flatten
    rw [flatten_append]
    exact mem_append_right _ hy

/-- The levels in front of a change stay: the walk through them reads none of
the changed cells, and the new rest is still below them. -/
theorem levels_splice {m m' : PrilMem Q A} {ls1 ls2 ls2' : List (List A)}
    (h : Levels m c (ls1 ++ ls2))
    (hcells : ∀ d ∈ cells c ls1.flatten, m'.links d = m.links d)
    (hprev : ∀ x ∈ ls1.flatten, m'.prev x = m.prev x)
    (htype : ∀ x ∈ ls1.flatten, m'.type x = m.type x)
    (hprio : ∀ x ∈ ls1.flatten, m'.priority x = m.priority x)
    (hlt : ∀ x ∈ ls1.flatten, ∀ y ∈ ls2'.flatten, prilPriority m' y < prilPriority m x)
    (h2 : Levels m' (endCell c ls1.flatten) ls2') : Levels m' c (ls1 ++ ls2') := by
  induction ls1 generalizing c with
  | nil => exact h2
  | cons l ls ih =>
    simp only [cons_append] at h ⊢
    obtain ⟨hl, hlt', hls⟩ := h
    simp only [flatten_cons, mem_append] at hprev htype hprio hlt
    have hcells' : ∀ d, d ∈ cells c l ∨ d ∈ cells (endCell c l) ls.flatten →
        m'.links d = m.links d := by
      intro d hd
      refine hcells d ?_
      rw [flatten_cons, cells_append, mem_append]
      exact hd
    refine ⟨hl.congr (seg_congr (fun d hd => hcells' d (.inl hd)) hl.seg)
      (fun x hx => hprev x (.inl hx)) (fun x hx => htype x (.inl hx))
      (fun x hx => hprio x (.inl hx)), ?_, ?_⟩
    · intro x hx y hy
      rw [prilPriority_congr (htype x (.inl hx)) (hprio x (.inl hx))]
      rw [flatten_append, mem_append] at hy
      rcases hy with hy | hy
      · rw [prilPriority_congr (htype y (.inr hy)) (hprio y (.inr hy))]
        exact hlt' x hx y (by rw [flatten_append]; exact mem_append_left _ hy)
      · exact hlt x (.inl hx) y hy
    · refine ih hls (fun d hd => hcells' d (.inr hd)) (fun x hx => hprev x (.inr hx))
        (fun x hx => htype x (.inr hx)) (fun x hx => hprio x (.inr hx))
        (fun x hx => hlt x (.inr hx)) ?_
      rw [flatten_cons, endCell_append] at h2
      exact h2

theorem LevelOk.at {l1 l2 : List A} {p : A}
    (h : LevelOk m c (l1 ++ p :: l2)) (hnd : (l1 ++ p :: l2).Nodup) :
    ((m.type p).head = true ↔ l1 = []) ∧ ((m.type p).tail = true ↔ l2 = []) ∧
      (∀ n r, l2 = n :: r → m.links (.next p) = some n) ∧
      (l1 ≠ [] → m.prev p = endCell c l1) := by
  obtain ⟨_, hnd2, hdis⟩ := nodup_append.mp hnd
  have hmem : p ∈ l1 ++ p :: l2 := by simp
  refine ⟨(h.heads p hmem).trans ?_, (h.tails p hmem).trans ?_, ?_, ?_⟩
  · cases l1 with
    | nil => simp
    | cons a l1 =>
      have : a ≠ p := fun e => hdis a (by simp) p (by simp) e
      simp [this]
  · rw [endCell_append]
    cases l2 with
    | nil => simp [endCell]
    | cons n r =>
      have hlast : endCell (endCell c l1) (p :: n :: r) = .next ((n :: r).getLast (by simp)) :=
        endCell_eq_getLast (by simp) (.next p)
      have hne : (n :: r).getLast (by simp) ≠ p := fun e =>
        (nodup_cons.mp hnd2).1 (e ▸ getLast_mem (by simp))
      rw [hlast, Cell.next.injEq]
      simp [hne]
  · rintro n r rfl
    exact ((seg_append _ _ _ _).mp h.seg).2.2.1
  · intro hne
    obtain ⟨a, l', rfl⟩ := exists_cons_of_ne_nil hne
    exact ((back_append _ _ _ _).mp (h.prevRest a (l' ++ p :: l2) rfl)).2.1

end QRV.Nano
