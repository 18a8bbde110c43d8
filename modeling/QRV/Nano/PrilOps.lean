import QRV.Nano.PrilLevels

/- What `pril_add` and `pril_rem` do to the levels. The level loop is read only
   and stops where the priority belongs (`findLevel_levels`); the stores behind
   it put the new entry at the end of its level or into a level of its own
   (`prilAdd_levels`). Removal has the four cases of the source: a whole level,
   its head, its tail, and an entry between them (`prilRem_levels`). -/
namespace QRV.Nano
open List
open LinkCell

variable {Q A : Type}

/-! ## The level loop -/

theorem LevelOk.entered {m : PrilMem Q A} {c : Cell Q A} {l : List A} (h : LevelOk m c l) :
    ∃ a r t, l = a :: r ∧ m.links c = some a ∧ endCell c l = .next t ∧ m.prev a = .next t := by
  obtain ⟨a, r, rfl⟩ := exists_cons_of_ne_nil h.ne
  have hend := endCell_eq_getLast h.ne c
  exact ⟨a, r, _, rfl, h.seg.1, hend, (h.prevHead a rfl).trans hend⟩

/-- The levels split at the priority: the ones above it, then its own level or
the place where it belongs. -/
theorem findLevel_levels {m : PrilMem Q A} {n : Nat} {ls : List (List A)} {c : Cell Q A}
    {fuel : Nat} (h : Levels m c ls) (hf : ls.length < fuel) :
    ∃ ls₁ ls₂, ls = ls₁ ++ ls₂ ∧ (∀ x ∈ ls₁.flatten, n < prilPriority m x) ∧
      ((∃ l ls3 a t, ls₂ = l :: ls3 ∧ (∀ x ∈ l, prilPriority m x = n) ∧ l.head? = some a ∧
          endCell (endCell c ls₁.flatten) l = .next t ∧
          findLevel m n fuel c = some (.found (endCell c ls₁.flatten) a t)) ∨
        ((∀ y ∈ ls₂.flatten, prilPriority m y < n) ∧
          findLevel m n fuel c =
            some (.absent (endCell c ls₁.flatten) (m.links (endCell c ls₁.flatten))))) := by
  induction ls generalizing c fuel with
  | nil =>
    obtain ⟨fuel, rfl⟩ := Nat.exists_eq_add_one.mpr hf
    have hc : m.links c = none := h
    exact ⟨[], [], rfl, by simp, .inr ⟨by simp, by simp [findLevel, hc]⟩⟩
  | cons l ls ih =>
    obtain ⟨fuel, rfl⟩ := Nat.exists_eq_add_one.mpr (Nat.zero_lt_of_lt hf)
    obtain ⟨hl, hlt, hls⟩ := h
    obtain ⟨a, r, t, rfl, hc, hend, hprev⟩ := hl.entered
    have hprio : ∀ x ∈ a :: r, prilPriority m x = prilPriority m a := fun x hx => hl.prio x hx a mem_cons_self
    rcases Nat.lt_trichotomy (prilPriority m a) n with hn | hn | hn
    · -- the level is below the priority: its place is in front of it
      refine ⟨[], (a :: r) :: ls, rfl, by simp, .inr ⟨?_, by simp [findLevel, hc, hn]⟩⟩
      exact forall_mem_append.mpr ⟨fun y hy => (hprio y hy).trans_lt hn,
        fun y hy => Nat.lt_trans (hlt a mem_cons_self y hy) hn⟩
    · refine ⟨[], (a :: r) :: ls, rfl, by simp, .inl ⟨a :: r, ls, a, _, rfl, fun x hx => (hprio x hx).trans hn, rfl,
        hend, ?_⟩⟩
      simp [findLevel, hc, hn, hprev]
    · -- the level is above the priority: the loop goes on behind its tail
      obtain ⟨ls₁, ls₂, rfl, habove, hcase⟩ := ih hls (by simp at hf; omega)
      refine ⟨(a :: r) :: ls₁, ls₂, rfl, ?_, ?_⟩
      · exact forall_mem_append.mpr ⟨fun x hx => hn.trans_eq (hprio x hx).symm, habove⟩
      · have hstep : findLevel m n (fuel + 1) c = findLevel m n fuel (endCell c (a :: r)) := by
          have h1 : ¬ prilPriority m a < n := by omega
          have h2 : prilPriority m a ≠ n := by omega
          simp only [findLevel, hc, h1, h2, hprev, hend, if_false]
        rw [hstep, flatten_cons, endCell_append]
        exact hcase

theorem remLevel_levels {m : PrilMem Q A} {n : Nat} {ls₁ ls₂ : List (List A)} {l : List A}
    {c : Cell Q A} {fuel : Nat} {a : A} (h : Levels m c (ls₁ ++ l :: ls₂)) (ha : l.head? = some a)
    (hn : prilPriority m a = n) (hf : ls₁.length < fuel) :
    remLevel m n fuel c = some (endCell c ls₁.flatten, a) := by
  have hmem : a ∈ l := mem_of_head? ha
  induction ls₁ generalizing c fuel with
  | nil =>
    obtain ⟨fuel, rfl⟩ := Nat.exists_eq_add_one.mpr hf
    obtain ⟨r, rfl⟩ := head?_eq_some_iff.mp ha
    have hc : m.links c = some a := h.1.seg.1
    simp [remLevel, hc, hn]
  | cons l' ls ih =>
    obtain ⟨fuel, rfl⟩ := Nat.exists_eq_add_one.mpr (Nat.zero_lt_of_lt hf)
    obtain ⟨hl, hlt, hls⟩ := h
    obtain ⟨b, r, t, rfl, hc, hend, hprev⟩ := hl.entered
    have hne : prilPriority m b ≠ n := by
      have := hlt b mem_cons_self a (by simp [hmem])
      omega
    have hstep : remLevel m n (fuel + 1) c = remLevel m n fuel (endCell c (b :: r)) := by
      simp [remLevel, hc, hne, hprev, hend]
    rw [hstep, flatten_cons, endCell_append]
    exact ih hls (by simp at hf; omega)

section
variable {m : PrilMem Q A} {ph : Q} {ls₁ ls₂ : List (List A)} (h : Levels m (.head ph) (ls₁ ++ ls₂))
include h

/-- The link to a place, and the links of the entries behind it, are distinct
cells. -/
theorem owner_cells_nodup :
    (endCell (.head ph) ls₁.flatten :: ls₂.flatten.map Cell.next).Nodup := by
  have hnd := h.chain.nodup
  rw [flatten_append] at hnd
  have hc := cells_nodup (b := ph) hnd
  rw [map_append, ← cons_append, ← cells_concat_end, append_assoc] at hc
  exact (nodup_append.mp hc).2.1

theorem owner_fresh :
    endCell (.head ph) ls₁.flatten ∉ cells (.head ph) ls₁.flatten ∧
      ∀ x ∈ ls₂.flatten, endCell (.head ph) ls₁.flatten ≠ .next x := by
  have hnd := h.chain.nodup
  rw [flatten_append] at hnd
  refine ⟨endCell_notin_cells (nodup_append.mp hnd).1, fun x hx he => ?_⟩
  exact (nodup_cons.mp (owner_cells_nodup h)).1 (by rw [he]; simpa using hx)

end

/-! ## What the stores leave alone -/

/-- `m'` differs from `m` in the link `c` and the entries `l` only, and in no
priority and no object type at all. -/
structure Touches (m m' : PrilMem Q A) (c : Cell Q A) (l : List A) : Prop where
  links : ∀ d, d ∉ c :: l.map Cell.next → m'.links d = m.links d
  prev : ∀ x, x ∉ l → m'.prev x = m.prev x
  type : ∀ x, x ∉ l → m'.type x = m.type x
  priority : ∀ x, m'.priority x = m.priority x
  first : ∀ x, (m'.type x).first = (m.type x).first
  obj : ∀ x, (m'.type x).obj = (m.type x).obj
  updates : m'.updateList = m.updateList

section Frame
variable {m m' : PrilMem Q A} {ph : Q} {ls₁ ls₂ : List (List A)} {l : List A} {c : Cell Q A}

theorem Touches.refl (m : PrilMem Q A) (c : Cell Q A) (l : List A) : Touches m m c l :=
  ⟨fun _ _ => rfl, fun _ _ => rfl, fun _ _ => rfl, fun _ => rfl, fun _ => rfl, fun _ => rfl, rfl⟩

theorem Touches.mono {d : Cell Q A} {l' : List A} (h : Touches m m' c l)
    (hl : ∀ x ∈ l, x ∈ l') (hc : c ∈ d :: l'.map Cell.next) : Touches m m' d l' := by
  refine ⟨fun e he => h.links e fun hm => he ?_, fun x hx => h.prev x fun hm => hx (hl x hm),
    fun x hx => h.type x fun hm => hx (hl x hm), h.priority, h.first, h.obj, h.updates⟩
  rcases mem_cons.mp hm with rfl | hm
  · exact hc
  · obtain ⟨x, hx, rfl⟩ := mem_map.mp hm
    exact .tail _ (mem_map_of_mem (hl x hx))

theorem Touches.prio (h : Touches m m' c l) (x : A) : prilPriority m' x = prilPriority m x := by
  simp [prilPriority, h.priority, h.first]

theorem Touches.others {l' : List A} (h : Touches m m' c l) (hc : ∀ x ∈ l', c ≠ .next x)
    (hl : ∀ x ∈ l', x ∉ l) : SameEntries m m' l' := by
  refine ⟨fun x hx => h.links _ fun hm => ?_, fun x hx => h.prev x (hl x hx),
    fun x hx => h.type x (hl x hx), fun x _ => h.priority x⟩
  simp only [mem_cons, mem_map, Cell.next.injEq, exists_eq_right] at hm
  exact hm.elim (fun e => hc x hx e.symm) (hl x hx)

theorem Touches.splice {ls' : List (List A)} (h : Levels m (.head ph) (ls₁ ++ ls₂))
    (hc : endCell (.head ph) ls₁.flatten = c) (hf : Touches m m' c l) (hl : ∀ x ∈ ls₁.flatten, x ∉ l)
    (hlt : ∀ x ∈ ls₁.flatten, ∀ y ∈ ls'.flatten, prilPriority m y < prilPriority m x)
    (h' : Levels m' c ls') : Levels m' (.head ph) (ls₁ ++ ls') := by
  refine levels_splice h (fun d hd => hf.links d fun hm => ?_) (fun x hx => hf.prev x (hl x hx))
    (fun x hx => hf.type x (hl x hx)) (fun x _ => hf.priority x) (fun x hx y hy => ?_) (hc ▸ h')
  · rcases mem_cons.mp hm with rfl | hm
    · exact (owner_fresh h).1 (hc ▸ hd)
    · obtain ⟨x, hx, rfl⟩ := mem_map.mp hm
      exact next_notin_cells (fun hx1 => hl x hx1 hx) hd
  · rw [hf.prio]
    exact hlt x hx y hy

/-- A level that changes, entered from `c`, is apart from the ones in front and behind. -/
structure Parted (m : PrilMem Q A) (ls₁ ls₂ : List (List A)) (c : Cell Q A) (l : List A) : Prop where
  level : Levels m c (l :: ls₂)
  cells : (c :: l.map Cell.next).Nodup
  front : ∀ x ∈ ls₁.flatten, x ∉ l
  owner : ∀ x ∈ ls₂.flatten, c ≠ .next x
  behind : ∀ x ∈ ls₂.flatten, x ∉ l

theorem Levels.parted (h : Levels m (.head ph) (ls₁ ++ l :: ls₂))
    (hc : endCell (.head ph) ls₁.flatten = c) : Parted m ls₁ ls₂ c l := by
  have hnd := h.chain.nodup
  have hcn := owner_cells_nodup h
  rw [flatten_append, flatten_cons] at hnd
  rw [flatten_cons, map_append, ← cons_append, hc] at hcn
  obtain ⟨hcl, -, hdis⟩ := nodup_append.mp hcn
  refine ⟨hc ▸ levels_append h, hcl, fun x hx hm => ?_, fun x hx e => ?_, fun x hx hm => ?_⟩
  · exact (nodup_append.mp hnd).2.2 x hx x (by simp [hm]) rfl
  · exact hdis c (by simp) _ (mem_map_of_mem hx) e
  · exact hdis (.next x) (by simp [hm]) _ (mem_map_of_mem hx) rfl

theorem Parted.nodup (h : Parted m ls₁ ls₂ c l) : l.Nodup := (nodup_cons.mp h.cells).2.of_map

/-- The walk to an entry of the level does not read the link behind it. -/
theorem Parted.walk_end {r : List A} (h : Parted m ls₁ ls₂ c (l ++ r)) : endCell c l ∉ LinkCell.cells c l := by
  have hcells := h.cells
  rw [map_append, ← cons_append] at hcells
  exact endCell_notin_cells_of (nodup_append.mp hcells).1

/-- A level that loses an entry, but not its last, leaves the ones behind. -/
theorem Touches.shrink {l' : List A} (h : Levels m (.head ph) (ls₁ ++ l :: ls₂))
    (hc : endCell (.head ph) ls₁.flatten = c) (hf : Touches m m' c l) (hsub : ∀ x ∈ l', x ∈ l)
    (hend : m'.links (endCell c l') = m.links (endCell c l))
    (hok : (∀ x ∈ l', ∀ y ∈ l', prilPriority m' x = prilPriority m' y) → LevelOk m' c l') :
    Levels m' (.head ph) (ls₁ ++ l' :: ls₂) := by
  have hp := h.parted hc
  obtain ⟨hlev, hlt, hrest⟩ := hp.level
  refine hf.splice h hc hp.front (fun x hx y hy => ?_) ⟨hok fun x hx y hy => ?_, fun x hx y hy => ?_,
    levels_entry hend (hf.others hp.owner hp.behind) hrest⟩
  · rw [flatten_cons, mem_append] at hy
    refine levels_lt h x hx y ?_
    rw [flatten_cons]
    exact mem_append.mpr (hy.imp_left (hsub y))
  · rw [hf.prio, hf.prio]
    exact hlev.prio x (hsub x hx) y (hsub y hy)
  · rw [hf.prio, hf.prio]
    exact hlt x (hsub x hx) y hy

end Frame

/-! ## Stores -/

section Stores
variable [DecidableEq A]

section
variable (m : PrilMem Q A) (p : A)
include m p

@[simp] theorem setPrev_links (c : Cell Q A) : (m.setPrev p c).links = m.links := rfl
@[simp] theorem setPrev_prev (c : Cell Q A) : (m.setPrev p c).prev = Function.update m.prev p c := rfl
@[simp] theorem setPrev_type (c : Cell Q A) : (m.setPrev p c).type = m.type := rfl
@[simp] theorem setType_links (t : PrilType) : (m.setType p t).links = m.links := rfl
@[simp] theorem setType_prev (t : PrilType) : (m.setType p t).prev = m.prev := rfl
@[simp] theorem setType_type (t : PrilType) : (m.setType p t).type = Function.update m.type p t := rfl

end

section
variable {m m' : PrilMem Q A} {c : Cell Q A} {l : List A} {x : A}

theorem Touches.setPrev (h : Touches m m' c l) (hx : x ∈ l) (d : Cell Q A) :
    Touches m (m'.setPrev x d) c l :=
  { h with prev := fun y hy => (Function.update_of_ne (ne_of_mem_of_not_mem hx hy).symm _ _).trans (h.prev y hy) }

theorem Touches.setType (h : Touches m m' c l) (hx : x ∈ l) {t : PrilType}
    (hfirst : t.first = (m'.type x).first) (hobj : t.obj = (m'.type x).obj) :
    Touches m (m'.setType x t) c l := by
  have hsame : ∀ y, ((m'.setType x t).type y).first = (m'.type y).first ∧
      ((m'.setType x t).type y).obj = (m'.type y).obj := by
    intro y
    by_cases hy : y = x
    · subst hy
      simp [hfirst, hobj]
    · simp [hy]
  exact { h with
    type := fun y hy => (Function.update_of_ne (ne_of_mem_of_not_mem hx hy).symm _ _).trans (h.type y hy)
    first := fun y => (hsame y).1.trans (h.first y)
    obj := fun y => (hsame y).2.trans (h.obj y) }
end

variable [DecidableEq Q]

@[simp] theorem setLink_links (m : PrilMem Q A) (c : Cell Q A) (v : Option A) :
    (m.setLink c v).links = m.links.set c v := rfl
@[simp] theorem setLink_prev (m : PrilMem Q A) (c : Cell Q A) (v : Option A) :
    (m.setLink c v).prev = m.prev := rfl
@[simp] theorem setLink_type (m : PrilMem Q A) (c : Cell Q A) (v : Option A) :
    (m.setLink c v).type = m.type := rfl

theorem Touches.setLink {m m' : PrilMem Q A} {c d : Cell Q A} {l : List A} (h : Touches m m' c l) (hd : d ∈ c :: l.map Cell.next) (v : Option A) :
    Touches m (m'.setLink d v) c l :=
  { h with links := fun e he => (set_off (ne_of_mem_of_not_mem hd he).symm _ _).trans (h.links e he) }

/-! ## Insertion -/

section Insert
variable {m : PrilMem Q A} {ph : Q} {ls₁ ls₂ : List (List A)} {new : A}

theorem insert_absent_touches {owner c : Cell Q A} {l : List A} (hc : owner ∈ c :: l.map Cell.next) (v : Option A) :
    Touches m (prilInsert m new (.absent owner v)) c (new :: l) := by
  have hnew : new ∈ new :: l := mem_cons_self
  refine .setLink (.setPrev (.setType (.setLink (.refl m c _) ?_ _) hnew (by rfl) (by rfl)) hnew _) ?_ _
  · simp
  · rw [map_cons]
    exact mem_cons.mpr ((mem_cons.mp hc).imp_right (mem_cons_of_mem _))

theorem insert_found_touches {owner c : Cell Q A} {l : List A} {a t : A} (ha : a ∈ l) (ht : t ∈ l) :
    Touches m (prilInsert m new (.found owner a t)) c (new :: l) := by
  have hnew : new ∈ new :: l := mem_cons_self
  have ht' : t ∈ new :: l := .tail _ ht
  refine .setPrev (.setLink (.setType (.setType (.setLink (.setPrev (.refl m c _) (.tail _ ha) _)
    ?_ _) hnew (by rfl) (by rfl)) ht' (by rfl) (by rfl)) ?_ _) hnew _
  · simp
  · simp [ht]

theorem prilInsert_absent
    (h : Levels m (.head ph) (ls₁ ++ ls₂)) (hnew : new ∉ (ls₁ ++ ls₂).flatten)
    (habove : ∀ x ∈ ls₁.flatten, prilPriority m new < prilPriority m x)
    (hbelow : ∀ y ∈ ls₂.flatten, prilPriority m y < prilPriority m new) :
    Levels (prilInsert m new (.absent (endCell (.head ph) ls₁.flatten)
      (m.links (endCell (.head ph) ls₁.flatten)))) (.head ph) (ls₁ ++ [new] :: ls₂) := by
  rw [flatten_append, mem_append, not_or] at hnew
  have hown2 := (owner_fresh h).2
  have hown : endCell (.head ph) ls₁.flatten ≠ .next new := endCell_ne_next hnew.1
  generalize ho : endCell (Cell.head ph) ls₁.flatten = owner at hown2 hown
  have hf : Touches m (prilInsert m new (.absent owner (m.links owner))) owner [new] :=
    insert_absent_touches mem_cons_self _
  refine hf.splice h ho (fun x hx => ?_)
    (fun x hx => forall_mem_cons.mpr ⟨habove x hx, fun y hy => Nat.lt_trans (hbelow y hy) (habove x hx)⟩)
    ⟨⟨by simp, ?_, by simp, ?_, ?_, ?_, ?_⟩, forall_mem_singleton.mpr fun y hy => ?_, ?_⟩
  · rw [mem_singleton]
    exact fun e => hnew.1 (e ▸ hx)
  · simp [Seg, prilInsert]
  · simp [prilInsert, endCell]
  · simp [prilInsert]
  · simp [prilInsert, endCell]
  · intro a r hl
    cases hl
    trivial
  · rw [hf.prio, hf.prio]
    exact hbelow y hy
  · -- the old rest, now entered from the new entry
    refine levels_entry ?_ (hf.others hown2 fun x hx => ?_) (ho ▸ levels_append h)
    · simp [prilInsert, endCell, set_off hown.symm]
    · rw [mem_singleton]
      exact fun e => hnew.2 (e ▸ hx)

theorem prilInsert_found {l : List A} {a t : A} (h : Levels m (.head ph) (ls₁ ++ l :: ls₂))
    (hnew : new ∉ (ls₁ ++ l :: ls₂).flatten)
    (hl : ∀ x ∈ l, prilPriority m x = prilPriority m new) (ha : l.head? = some a)
    (ht : endCell (endCell (.head ph) ls₁.flatten) l = .next t) :
    Levels (prilInsert m new (.found (endCell (.head ph) ls₁.flatten) a t)) (.head ph)
      (ls₁ ++ (l ++ [new]) :: ls₂) := by
  have hp := h.parted rfl
  simp only [flatten_append, flatten_cons, mem_append, not_or] at hnew
  obtain ⟨hnew1, hnewl, hnew2⟩ := hnew
  have hown : endCell (.head ph) ls₁.flatten ≠ .next new := endCell_ne_next hnew1
  generalize ho : endCell (Cell.head ph) ls₁.flatten = owner at hp ht hown ⊢
  obtain ⟨hok, hlt, hrest⟩ := hp.level
  -- the tail and the head of the level are entries of it
  have htl : t ∈ l := mem_of_endCell hok.ne ht
  have hal : a ∈ l := mem_of_head? ha
  have hnl : ∀ x ∈ l, x ≠ new := fun x hx e => hnewl (e ▸ hx)
  have hf : Touches m (prilInsert m new (.found owner a t)) owner (new :: l) := insert_found_touches hal htl
  have hlevel : ∀ z ∈ l ++ [new], prilPriority m z = prilPriority m new :=
    forall_mem_append.mpr ⟨hl, forall_mem_singleton.mpr rfl⟩
  refine hf.splice h ho
    (fun x hx => not_mem_cons_of_ne_of_not_mem (fun e => hnew1 (e ▸ hx)) (hp.front x hx))
    (fun x hx => forall_mem_append.mpr ⟨fun y hy => ?_, fun y hy => levels_lt h x hx y (by simp [hy])⟩)
    ⟨⟨by simp, ?_, fun x hx y hy => ?_, forall_mem_append.mpr ⟨fun x hx => ?_, forall_mem_singleton.mpr ?_⟩,
      forall_mem_append.mpr ⟨fun x hx => ?_, forall_mem_singleton.mpr ?_⟩, ?_, ?_⟩, fun x hx y hy => ?_, ?_⟩
  · rw [hlevel y hy, ← hl a hal]
    exact levels_lt h x hx a (by simp [hal])
  · -- the level up to its old tail is read through cells that no store touches
    rw [seg_append]
    refine ⟨seg_congr ?_ hok.seg, ?_⟩
    · intro d hd
      have h1 : d ≠ .next t := fun e => endCell_notin_cells_of hp.cells (by rw [ht]; exact e ▸ hd)
      have h2 : d ≠ .next new := by
        rintro rfl
        have hm := cells_subset hd
        simp only [mem_cons, mem_map, Cell.next.injEq, exists_eq_right] at hm
        exact hm.elim (fun e => hown e.symm) hnewl
      simp [prilInsert, set_off h1, set_off h2]
    · rw [ht]; simp [Seg, prilInsert]
  · rw [hf.prio, hf.prio, hlevel x hx, hlevel y hy]
  · rw [endCell_concat, Cell.next.injEq]
    have hxn := hnl x hx
    have htail := hok.tails x hx
    rw [ht, Cell.next.injEq] at htail
    by_cases hxt : x = t
    · subst hxt; simp [prilInsert, hxn.symm]
    · have : (m.type x).tail = false := by
        simpa using mt htail.mp (fun e => hxt e.symm)
      simp [prilInsert, hxn, hxt, hxn.symm, this]
  · simp [prilInsert, (hnl t htl).symm, endCell_concat]
  · rw [head?_append, ha, Option.some_or]
    have hhead := hok.heads x hx
    rw [ha] at hhead
    by_cases hxt : x = t
    · subst hxt; simpa [prilInsert, hnl x hx] using hhead
    · simpa [prilInsert, hxt, hnl x hx] using hhead
  · simp [prilInsert, (hnl t htl).symm, hnl a hal, ha]
  · intro x hx
    rw [head?_append, ha] at hx
    obtain rfl : a = x := by simpa using hx
    rw [endCell_concat]
    simp [prilInsert, hnl a hal]
  · intro b r hbr
    obtain ⟨r', rfl⟩ := head?_eq_some_iff.mp ha
    obtain ⟨rfl, rfl⟩ : a = b ∧ r' ++ [new] = r := by simpa using hbr
    rw [back_append]
    refine ⟨back_congr ?_ (hok.prevRest a r' rfl), ?_⟩
    · intro x hx
      have hxa : x ≠ a := ne_of_mem_of_not_mem hx (nodup_cons.mp hp.nodup).1
      simp [prilInsert, hnl x (by simp [hx]), hxa]
    · have : endCell (Cell.next a) r' = (Cell.next t : Cell Q A) := ht
      simp [Back, this, prilInsert]
  · rw [hf.prio, hf.prio, hlevel x hx, ← hl a hal]
    exact hlt a hal y hy
  · -- the old rest, now entered from the new tail
    refine levels_entry ?_ (hf.others hp.owner fun x hx =>
      not_mem_cons_of_ne_of_not_mem (fun e => hnew2 (e ▸ hx)) (hp.behind x hx)) hrest
    rw [endCell_concat, ht]
    have : (Cell.next new : Cell Q A) ≠ .next t := fun e => hnl t htl (Cell.next.inj e).symm
    simp [prilInsert, set_off this]

end Insert

/-! ## Removal -/

section Remove
variable {m m' : PrilMem Q A} {ph : Q} {ls₁ ls₂ : List (List A)} {p : A} {owner : Cell Q A}

theorem unlink_level (h : Levels m (.head ph) (ls₁ ++ [p] :: ls₂))
    (hc : endCell (.head ph) ls₁.flatten = owner)
    (hm : m' = (m.setLink owner (m.links (.next p))).setType p { m.type p with head := false, tail := false }) :
    Touches m m' owner [p] ∧ Levels m' (.head ph) (ls₁ ++ ls₂) := by
  have hp := h.parted hc
  have hf : Touches m m' owner [p] := by
    subst hm
    exact .setType (.setLink (.refl m owner _) mem_cons_self _) mem_cons_self (by rfl) (by rfl)
  subst hm
  refine ⟨hf, hf.splice h hc hp.front (fun x hx y hy => levels_lt h x hx y (by simp [hy])) ?_⟩
  refine levels_entry ?_ (hf.others hp.owner hp.behind) hp.level.2.2
  simp [endCell]

theorem unlink_head {n : A} {r : List A} (h : Levels m (.head ph) (ls₁ ++ (p :: n :: r) :: ls₂))
    (hc : endCell (.head ph) ls₁.flatten = owner)
    (hm : m' = (((m.setLink owner (some n)).setPrev n (m.prev p)).setType n
      { m.type n with head := true }).setType p { m.type p with head := false, tail := false }) :
    Touches m m' owner (p :: n :: r) ∧ Levels m' (.head ph) (ls₁ ++ (n :: r) :: ls₂) := by
  have hp := h.parted hc
  have hok := hp.level.1
  obtain ⟨hpnr, hnd⟩ := nodup_cons.mp hp.nodup
  have hpr : ∀ x ∈ n :: r, x ≠ p := fun x hx => ne_of_mem_of_not_mem hx hpnr
  have hnr : ∀ x ∈ r, x ≠ n := fun x hx => ne_of_mem_of_not_mem hx (nodup_cons.mp hnd).1
  have hoff : ∀ x ∈ p :: n :: r, Cell.next x ≠ owner := fun x hx e =>
    (nodup_cons.mp hp.cells).1 (e ▸ mem_map_of_mem hx)
  have hlast : endCell owner (n :: r) = endCell owner (p :: n :: r) := rfl
  have hn : n ∈ p :: n :: r := .tail _ mem_cons_self
  have hf : Touches m m' owner (p :: n :: r) := by
    subst hm
    refine .setType (.setType (.setPrev (.setLink (.refl m owner _) mem_cons_self _) hn _) hn (by rfl) (by rfl))
      mem_cons_self ?_ ?_
    all_goals simp [(hpr n mem_cons_self).symm]
  subst hm
  refine ⟨hf, hf.shrink h hc (fun x hx => .tail _ hx) ?_ fun hprio =>
    ⟨by simp, ⟨?_, ?_⟩, hprio, fun x hx => ?_, fun x hx => ?_, fun x hx => ?_, fun b r' hbr => ?_⟩⟩
  · refine set_off ?_ _ _
    rw [endCell_eq_getLast (l := n :: r) (by simp)]
    exact hoff _ (.tail _ (getLast_mem _))
  · simp
  · refine seg_entry ?_ ?_ hok.seg.2.2
    · exact set_off (hoff n hn) _ _
    · intro x hx; exact set_off (hoff x (by simp [hx])) _ _
  · have htail := hok.tails x (.tail _ hx)
    rw [hlast]
    by_cases hxn : x = n
    · subst hxn; simpa [hpr x hx] using htail
    · simpa [hpr x hx, hxn] using htail
  · have hhead := hok.heads x (.tail _ hx)
    have hxp := hpr x hx
    have h0 : (m.type x).head = false := by simpa [hxp.symm] using hhead
    by_cases hxn : x = n
    · subst hxn; simp [hxp]
    · have : ¬ n = x := fun e => hxn e.symm
      simp [hxp, hxn, h0, this]
  · obtain rfl : n = x := by simpa using hx
    rw [hlast]
    simpa using hok.prevHead p rfl
  · obtain ⟨rfl, rfl⟩ : n = b ∧ r = r' := by simpa using hbr
    refine back_congr (fun x hx => ?_) (hok.prevRest p (n :: r) rfl).2
    simp [hnr x hx]

theorem unlink_tail {l : List A} {a k : A} (h : Levels m (.head ph) (ls₁ ++ (l ++ [p]) :: ls₂))
    (hc : endCell (.head ph) ls₁.flatten = owner) (ha : l.head? = some a)
    (hk : endCell owner l = .next k)
    (hm : m' = (((m.setLink (.next k) (m.links (.next p))).setPrev a (.next k)).setType k
      { m.type k with tail := true }).setType p { m.type p with head := false, tail := false }) :
    Touches m m' owner (l ++ [p]) ∧ Levels m' (.head ph) (ls₁ ++ l :: ls₂) := by
  have hp := h.parted hc
  have hok := hp.level.1
  have hnd := hp.nodup
  have hne : l ≠ [] := by rintro rfl; simp at ha
  have hkl : k ∈ l := mem_of_endCell hne hk
  have hlp : ∀ x ∈ l, x ≠ p := fun x hx => (nodup_append.mp hnd).2.2 x hx p (by simp)
  have hf : Touches m m' owner (l ++ [p]) := by
    subst hm
    refine .setType (.setType (.setPrev (.setLink (.refl m owner _) ?_ _) ?_ _) ?_ (by rfl) (by rfl)) ?_ ?_ ?_
    · simp [hkl]
    · simp [mem_of_head? ha]
    · simp [hkl]
    · simp
    all_goals simp [(hlp k hkl).symm]
  subst hm
  refine ⟨hf, hf.shrink h hc (fun x hx => mem_append_left _ hx) ?_ fun hprio =>
    ⟨hne, ?_, hprio, fun x hx => ?_, fun x hx => ?_, fun x hx => ?_, fun b r hbr => ?_⟩⟩
  · rw [hk, endCell_concat]
    simp
  · refine seg_congr (fun d hd => set_off ?_ _ _) ((seg_append _ _ _ _).mp hok.seg).1
    rintro rfl
    exact hp.walk_end (hk ▸ hd)
  · have htail := hok.tails x (mem_append_left _ hx)
    have hxp := hlp x hx
    have h0 : (m.type x).tail = false := by simpa [hxp.symm] using htail
    rw [hk, Cell.next.injEq]
    by_cases hxk : x = k
    · subst hxk; simp [hxp]
    · have : ¬ k = x := fun e => hxk e.symm
      simp [hxp, hxk, h0, this]
  · have hhead := hok.heads x (mem_append_left _ hx)
    rw [head?_append, ha, Option.some_or, ← ha] at hhead
    by_cases hxk : x = k
    · subst hxk; simpa [hlp x hx] using hhead
    · simpa [hlp x hx, hxk] using hhead
  · obtain rfl : a = x := by rw [ha] at hx; simpa using hx
    rw [hk]
    simp
  · obtain rfl : a = b := by rw [hbr] at ha; simpa using ha.symm
    have hb := hok.prevRest a (r ++ [p]) (by rw [hbr]; rfl)
    rw [back_append] at hb
    refine back_congr (fun x hx => ?_) hb.1
    have hxa : x ≠ a := by
      rw [hbr, cons_append] at hnd
      exact fun e => (nodup_cons.mp hnd).1 (by simp [← e, hx])
    simp [hxa]

theorem unlink_middle {l r : List A} {a n : A}
    (h : Levels m (.head ph) (ls₁ ++ (l ++ p :: n :: r) :: ls₂))
    (hc : endCell (.head ph) ls₁.flatten = owner) (ha : l.head? = some a)
    (hm : m' = (m.setPrev n (endCell owner l)).setLink (endCell owner l) (some n)) :
    Touches m m' owner (l ++ p :: n :: r) ∧
      Levels m' (.head ph) (ls₁ ++ (l ++ n :: r) :: ls₂) := by
  have hp := h.parted hc
  have hok := hp.level.1
  have hne : l ≠ [] := by rintro rfl; simp at ha
  obtain ⟨-, hnd, hdis⟩ := nodup_append.mp hp.nodup
  have hln : ∀ x ∈ l, x ≠ n := fun x hx => hdis x hx n (by simp)
  have hrn : ∀ x ∈ r, x ≠ n := fun x hx => ne_of_mem_of_not_mem hx (nodup_cons.mp (nodup_cons.mp hnd).2).1
  have hmid : endCell owner l = .next (l.getLast hne) := endCell_eq_getLast hne owner
  have hoff : ∀ x ∈ p :: n :: r, Cell.next x ≠ endCell owner l := by
    intro x hx e
    rw [hmid] at e
    exact hdis _ (getLast_mem hne) x hx (Cell.next.inj e).symm
  have hf : Touches m m' owner (l ++ p :: n :: r) := by
    subst hm
    refine .setLink (.setPrev (.refl m owner _) (by simp) _) ?_ _
    rw [hmid]
    simp [getLast_mem hne]
  have hlast : endCell owner (l ++ n :: r) = endCell owner (l ++ p :: n :: r) := by
    rw [endCell_append, endCell_append]; rfl
  have hhead : (l ++ n :: r).head? = (l ++ p :: n :: r).head? := by
    rw [head?_append, head?_append, ha]; rfl
  have hsub : ∀ x ∈ l ++ n :: r, x ∈ l ++ p :: n :: r := fun x hx =>
    mem_append.mpr ((mem_append.mp hx).imp_right (mem_cons_of_mem p))
  subst hm
  refine ⟨hf, hf.shrink h hc hsub ?_ fun hprio =>
    ⟨by simp, ?_, hprio, fun x hx => ?_, fun x hx => ?_, fun x hx => ?_, fun b s hbs => ?_⟩⟩
  · rw [hlast]
    refine set_off ?_ _ _
    rw [endCell_append, endCell_eq_getLast (by simp)]
    exact hoff _ (getLast_mem (by simp))
  · obtain ⟨hs1, hs2⟩ := (seg_append _ _ _ _).mp hok.seg
    rw [seg_append]
    refine ⟨seg_congr (fun d hd => set_off ?_ _ _) hs1, by simp, ?_⟩
    · rintro rfl
      exact hp.walk_end hd
    · refine seg_entry (set_off (hoff n (by simp)) _ _) ?_ hs2.2.2
      intro x hx
      exact set_off (hoff x (by simp [hx])) _ _
  · rw [hlast]
    exact hok.tails x (hsub x hx)
  · rw [hhead]
    exact hok.heads x (hsub x hx)
  · rw [hhead] at hx
    obtain rfl : a = x := by rw [head?_append, ha] at hx; simpa using hx
    rw [hlast]
    simpa [hln a (mem_of_head? ha)] using hok.prevHead a hx
  · obtain ⟨l', rfl⟩ := head?_eq_some_iff.mp ha
    obtain ⟨rfl, rfl⟩ : a = b ∧ l' ++ n :: r = s := by simpa using hbs
    have hb := hok.prevRest a (l' ++ p :: n :: r) rfl
    rw [back_append] at hb ⊢
    refine ⟨back_congr (fun x hx => ?_) hb.1, ?_, back_congr (fun x hx => ?_) hb.2.2.2⟩
    · simp [hln x (by simp [hx])]
    · simp [endCell]
    · simp [hrn x hx]

end Remove

/-! ## The operations -/

section Ops
variable {m : PrilMem Q A} {ph : Q} {ls : List (List A)} {fuel : Nat}

section
variable {p : A} (h : Levels m (.head ph) ls) (hp : p ∈ ls.flatten) (hf : ls.length < fuel)
include h hp hf

theorem prilUnlink_levels : ∃ m' ls', prilUnlink fuel m ph p = some m' ∧ Levels m' (.head ph) ls' ∧
      Touches m m' (.head ph) ls.flatten ∧ ls'.flatten = ls.flatten.erase p := by
  obtain ⟨l, hl, hpl⟩ := List.mem_flatten.mp hp
  obtain ⟨ls₁, ls₂, rfl⟩ := List.append_of_mem hl
  obtain ⟨l1, l2, rfl⟩ := append_of_mem hpl
  have hlev : Levels m (endCell (.head ph) ls₁.flatten) ((l1 ++ p :: l2) :: ls₂) := levels_append h
  have hall : (ls₁ ++ (l1 ++ p :: l2) :: ls₂).flatten = (ls₁.flatten ++ l1) ++ p :: (l2 ++ ls₂.flatten) := by simp
  rw [show List.erase _ p = _ from hall ▸ erase_middle (hall ▸ h.chain.nodup)]
  have hnd : (l1 ++ p :: l2).Nodup := by
    have := h.chain.nodup
    rw [flatten_append, flatten_cons] at this
    exact (nodup_append.mp (nodup_append.mp this).2.1).1
  obtain ⟨hhead, htail, hnext, hprev⟩ := hlev.1.at hnd
  have hfuel : ls₁.length < fuel := by simp at hf; omega
  have hown : endCell (.head ph) ls₁.flatten ∈
      Cell.head ph :: (ls₁ ++ (l1 ++ p :: l2) :: ls₂).flatten.map Cell.next := by
    rw [flatten_append, map_append, ← cons_append]
    exact mem_append_left _ (endCell_mem _ _)
  have hsub : ∀ x ∈ l1 ++ p :: l2, x ∈ (ls₁ ++ (l1 ++ p :: l2) :: ls₂).flatten := fun x hx => by
    rw [flatten_append, flatten_cons]
    exact mem_append_right _ (mem_append_left _ hx)
  have hprio : ∀ a, (l1 ++ p :: l2).head? = some a → prilPriority m a = prilPriority m p :=
    fun a ha => hlev.1.prio a (mem_of_head? ha) p (by simp)
  cases l1 with
  | nil =>
    have hh : (m.type p).head = true := hhead.mpr rfl
    have hrem := remLevel_levels h (a := p) rfl rfl hfuel
    cases l2 with
    | nil =>
      have ht : (m.type p).tail = true := htail.mpr rfl
      obtain ⟨hfr, hl'⟩ := unlink_level h rfl rfl
      refine ⟨_, _, ?_, hl', hfr.mono hsub hown, by simp⟩
      simp [prilUnlink, hh, ht, hrem]
    | cons n r =>
      have ht : (m.type p).tail = false := by simpa using htail
      obtain ⟨hfr, hl'⟩ := unlink_head h rfl rfl
      refine ⟨_, _, ?_, hl', hfr.mono hsub hown, by simp⟩
      simp [prilUnlink, hh, ht, hrem, hnext n r rfl]
  | cons a l' =>
    have hh : (m.type p).head = false := by simpa using hhead
    have hpr : m.prev p = endCell (endCell (.head ph) ls₁.flatten) (a :: l') := hprev (by simp)
    have hk := endCell_eq_getLast (l := a :: l') (by simp) (endCell (.head ph) ls₁.flatten)
    have hrem := remLevel_levels h (a := a) rfl (hprio a rfl) hfuel
    cases l2 with
    | nil =>
      have ht : (m.type p).tail = true := htail.mpr rfl
      obtain ⟨hfr, hl'⟩ := unlink_tail h rfl rfl hk rfl
      refine ⟨_, _, ?_, hl', hfr.mono hsub hown, by simp⟩
      rw [hk] at hpr
      simp [prilUnlink, hh, ht, hrem, hpr]
    | cons n r =>
      have ht : (m.type p).tail = false := by simpa using htail
      obtain ⟨hfr, hl'⟩ := unlink_middle h rfl rfl rfl
      refine ⟨_, _, ?_, hl', hfr.mono hsub hown, by simp⟩
      simp [prilUnlink, hh, ht, hnext n r rfl, hpr]

/-- With nobody's position on the entry, `pril_rem` takes it out. -/
theorem prilRem_levels (hu : ∀ u ∈ m.updateList, u.pril ≠ some p) : ∃ m' ls', prilRem fuel m ph p = some m' ∧
      Levels m' (.head ph) ls' ∧ Touches m m' (.head ph) ls.flatten ∧ ls'.flatten = ls.flatten.erase p := by
  obtain ⟨m', ls', hrun, hl, ht, hq⟩ := prilUnlink_levels h hp hf
  refine ⟨m', ls', ?_, hl, ht, hq⟩
  have hu' : m'.updateList.any (fun u => u.pril == some p) = false := by
    rw [ht.updates]
    simpa using hu
  simp only [prilRem, hrun, moveUpdaters, hu', Option.bind_some]
  simp

end

/-- `pril_add` puts the entry behind every entry of at least its priority. -/
theorem prilAdd_levels {new : A} (h : Levels m (.head ph) ls) (hnew : new ∉ ls.flatten)
    (hf : ls.length < fuel) : ∃ m' ls' q1 q2, prilAdd fuel m ph new = some m' ∧
      Levels m' (.head ph) ls' ∧ Touches m m' (.head ph) (new :: ls.flatten) ∧
      ls.flatten = q1 ++ q2 ∧ ls'.flatten = q1 ++ new :: q2 ∧
      (∀ x ∈ q1, prilPriority m new ≤ prilPriority m x) ∧
      (∀ y ∈ q2, prilPriority m y < prilPriority m new) := by
  obtain ⟨ls₁, ls₂, rfl, habove, hcase⟩ :=
    findLevel_levels (n := prilPriority m new) h hf
  rcases hcase with ⟨l, ls3, a, t, rfl, hl, ha, ht, hfind⟩ | ⟨hbelow, hfind⟩
  · have hlev : Levels m (endCell (.head ph) ls₁.flatten) (l :: ls3) := levels_append h
    have htl : t ∈ l := mem_of_endCell hlev.1.ne ht
    have hmem : ∀ x ∈ l, x ∈ (ls₁ ++ l :: ls3).flatten := fun x hx => by simp [hx]
    refine ⟨_, _, ls₁.flatten ++ l, ls3.flatten, by rw [prilAdd, hfind]; rfl,
      prilInsert_found h hnew hl ha ht, insert_found_touches (hmem a (mem_of_head? ha)) (hmem t htl),
      by simp, by simp, ?_, ?_⟩
    · exact forall_mem_append.mpr
        ⟨fun x hx => Nat.le_of_lt (habove x hx), fun x hx => Nat.le_of_eq (hl x hx).symm⟩
    · intro y hy
      rw [← hl t htl]
      exact hlev.2.1 t htl y hy
  · refine ⟨_, _, ls₁.flatten, ls₂.flatten, by rw [prilAdd, hfind]; rfl,
      prilInsert_absent h hnew habove hbelow, insert_absent_touches ?_ _, by simp, by simp,
      fun x hx => Nat.le_of_lt (habove x hx), hbelow⟩
    rw [flatten_append, map_append, ← cons_append]
    exact mem_append_left _ (endCell_mem _ _)

end Ops

end Stores

end QRV.Nano
