import QRV.Nano.Vector

/- A vector and what its table stands for. `Represents v slots l` says that the
   table of `v` holds the slots `slots` (an object with its owner's flag, or
   nothing), that the free chain runs through the free slots `l` in increasing
   order, and that `nentries` and `nfree` count them. The stores of the routines
   are three: a free slot is taken, an occupied one given back or its word
   changed (`Represents.take`, `Represents.give`, `Represents.reflag`). A growth
   copies the table, fixes the chain up and links the new slots behind it
   (`vectorGrow_represents`). The fix-up adds the distance of the two tables to
   the low halves of the chain's words only (`fixChain_high`), so it is right for
   the slots that have the same high half in both tables and for no other
   (`vectorGrow_relocates`). -/
namespace QRV.Nano
open List hiding Chain
open LinkCell

/-- An object in a slot: a pointer with two free bits, and the owner's flag. -/
structure VecObj where
  ptr : Nat
  flag : Bool
  aligned : ptr % 4 = 0
  pos : 0 < ptr

/-- The word of the slot. -/
def VecObj.word (o : VecObj) : Nat := o.ptr + if o.flag then 2 else 0

/-- The table of `v` holds `slots`, and its free chain runs through `l`. -/
structure Represents (v : VecMem) (slots : List (Option VecObj)) (l : List Nat) : Prop where
  size : v.nentries = slots.length
  max : slots.length ≤ vectorMax
  aligned : v.vector % 8 = 0
  pos : slots ≠ [] → 0 < v.vector
  fits : v.vector + 8 * slots.length ≤ 2 ^ 64
  occupied : ∀ i o, slots[i]? = some (some o) → v.read (.next (v.addr i)) = o.word
  free : ∀ i, i ∈ l ↔ slots[i]? = some none
  sorted : l.Pairwise (· < ·)
  nfree : v.nfree = l.length
  chain : Chain v.links (.head ()) (l.map v.addr)
  tags : ∀ i ∈ l, v.read (.next (v.addr i)) % 4 = 1
  headTag : slots ≠ [] → v.free % 4 = 1

/-! ## Words and links -/

theorem links_eq {v v' : VecMem} {c d : Cell Unit Nat} (h : v'.read c = v.read d) :
    v'.links c = v.links d := by
  simp [VecMem.links, h]

variable {c : Cell Unit Nat} {a : Nat}

theorem links_of_read {v : VecMem} (h : v.read c = a + 1)
    (ha : a % 4 = 0) (hpos : 0 < a) : v.links c = some a := by
  have hp : vecPtr (a + 1) = a := by unfold vecPtr; omega
  have hne : a ≠ 0 := by omega
  simp [VecMem.links, h, hp, hne]

theorem read_of_links {v : VecMem} (h : v.links c = some a)
    (ht : v.read c % 4 = 1) : v.read c = a + 1 := by
  unfold VecMem.links at h
  split at h
  · simp at h
  · have : vecPtr (v.read c) = a := by simpa using h
    unfold vecPtr at this
    omega

theorem ptr_of_links {v : VecMem} (h : v.links c = some a) :
    vecPtr (v.read c) = a ∧ a ≠ 0 := by
  unfold VecMem.links at h
  split at h
  · simp at h
  · case isFalse hne =>
    have : vecPtr (v.read c) = a := by simpa using h
    exact ⟨this, this ▸ hne⟩

theorem ptr_of_links_none {v : VecMem} (h : v.links c = none) :
    vecPtr (v.read c) = 0 := by
  unfold VecMem.links at h
  split at h
  · assumption
  · simp at h

@[simp] theorem read_write_self (v : VecMem) (c : Cell Unit Nat) (w : Nat) :
    (v.write c w).read c = w := by
  cases c <;> simp [VecMem.write, VecMem.read]

theorem read_write_off {v : VecMem} {c d : Cell Unit Nat} (w : Nat) (h : d ≠ c) :
    (v.write c w).read d = v.read d := by
  cases c with
  | head u =>
    cases d with
    | head u' => exact absurd rfl h
    | next b => rfl
  | next a =>
    cases d with
    | head u => rfl
    | next b =>
      have hb : b ≠ a := fun e => h (by rw [e])
      simp [VecMem.write, VecMem.read, hb]

@[simp] theorem write_vector (v : VecMem) (c : Cell Unit Nat) (w : Nat) :
    (v.write c w).vector = v.vector := by cases c <;> rfl

@[simp] theorem write_nentries (v : VecMem) (c : Cell Unit Nat) (w : Nat) :
    (v.write c w).nentries = v.nentries := by cases c <;> rfl

@[simp] theorem write_nfree (v : VecMem) (c : Cell Unit Nat) (w : Nat) :
    (v.write c w).nfree = v.nfree := by cases c <;> rfl

@[simp] theorem write_addr (v : VecMem) (c : Cell Unit Nat) (w : Nat) :
    (v.write c w).addr = v.addr := by
  funext i
  simp [VecMem.addr]

theorem addr_inj {v : VecMem} {i j : Nat} : v.addr i = v.addr j ↔ i = j := by
  unfold VecMem.addr
  omega

section Slots
variable {v : VecMem} {slots : List (Option VecObj)} {l : List Nat}
variable {i : Nat} {v' : VecMem}

section
variable (h : Represents v slots l)
include h

theorem Represents.lt (hi : i ∈ l) : i < slots.length := by
  have := (h.free i).mp hi
  exact (List.getElem?_eq_some_iff.mp this).1

theorem Represents.slots_ne (hl : l ≠ []) : slots ≠ [] := by
  obtain ⟨i, hi⟩ := exists_mem_of_ne_nil l hl
  exact ne_nil_of_length_pos (Nat.zero_lt_of_lt (h.lt hi))

theorem Represents.nodup : (l.map v.addr).Nodup := h.chain.nodup

theorem Represents.length_le : l.length ≤ slots.length := by
  have hnd : l.Nodup := h.sorted.imp fun hab => Nat.ne_of_lt hab
  have hsub : l.Subperm (range slots.length) := hnd.subperm fun i hi => by simp [h.lt hi]
  simpa using hsub.length_le

theorem Represents.slotIndex (hi : i < slots.length) :
    v.slotIndex (v.addr i) = i := by
  have := h.max
  unfold VecMem.slotIndex VecMem.addr vectorMax at *
  omega

/-! ## The search of `vector_add` -/

theorem findFree_chain (index : Nat) {l' : List Nat}
    {fuel : Nat} (hl : ∀ i ∈ l', i ∈ l) (hc : Chain v.links c (l'.map v.addr))
    (hf : l'.length < fuel) :
    ∃ l1 l2, l' = l1 ++ l2 ∧ (∀ i ∈ l1, i < index) ∧
      ((l2 = [] ∧ findFree v index fuel c = some none) ∨
        ∃ i l3, l2 = i :: l3 ∧ index ≤ i ∧
          findFree v index fuel c = some (some (endCell c (l1.map v.addr), v.addr i, i))) := by
  induction l' generalizing c fuel with
  | nil =>
    obtain ⟨k, rfl⟩ : ∃ k, fuel = k + 1 := ⟨fuel - 1, by simp at hf; omega⟩
    refine ⟨[], [], rfl, by simp, .inl ⟨rfl, ?_⟩⟩
    simp [findFree, ptr_of_links_none hc]
  | cons i l' ih =>
    obtain ⟨k, rfl⟩ : ∃ k, fuel = k + 1 := ⟨fuel - 1, by simp at hf; omega⟩
    obtain ⟨hlink, hrest⟩ := hc
    obtain ⟨hptr, hne⟩ := ptr_of_links hlink
    have hslot := h.slotIndex (h.lt (hl i (by simp)))
    by_cases hi : index ≤ i
    · refine ⟨[], i :: l', rfl, by simp, .inr ⟨i, l', rfl, hi, ?_⟩⟩
      simp [findFree, hptr, hne, hslot, hi]
    · obtain ⟨l1, l2, rfl, hlt, hcase⟩ := ih (fun j hj => hl j (by simp [hj])) hrest
        (by simp at hf ⊢; omega)
      refine ⟨i :: l1, l2, rfl, ?_, ?_⟩
      · exact forall_mem_cons.mpr ⟨by omega, hlt⟩
      · have hstep : findFree v index (k + 1) c = findFree v index k (.next (v.addr i)) := by
          simp [findFree, hptr, hne, hslot, hi]
        rw [hstep]
        exact hcase

/-! ## One slot taken, one slot given back -/

theorem Represents.tag (hne : slots ≠ []) {d : Cell Unit Nat}
    (hd : d ∈ Cell.head () :: (l.map v.addr).map .next) : v.read d % 4 = 1 := by
  rw [mem_cons, map_map, mem_map] at hd
  rcases hd with rfl | ⟨j, hj, rfl⟩
  · exact h.headTag hne
  · exact h.tags j hj

end

/-- A slot outside a part of the free chain is not the link behind it. -/
theorem next_ne_endCell (v : VecMem) {l1 : List Nat} (hi : i ∉ l1) :
    Cell.next (v.addr i) ≠ endCell (.head ()) (l1.map v.addr) := by
  refine Ne.symm (endCell_ne_next fun hm => ?_)
  obtain ⟨j, hj, he⟩ := mem_map.mp hm
  exact hi (addr_inj.mp he ▸ hj)

theorem next_addr_ne {j : Nat} (h : j ≠ i) : Cell.next (β := Unit) (v.addr j) ≠ .next (v.addr i) :=
  fun e => h (addr_inj.mp (Cell.next.inj e))

/-- The stores of the routines: one slot changes, and the free chain with it. -/
theorem Represents.set {x : Option VecObj} {l' : List Nat} (h : Represents v slots l) (hi : i < slots.length)
    (hvec : v'.vector = v.vector) (hn : v'.nentries = v.nentries)
    (hkeep : ∀ j, j ≠ i → j ∉ l → v'.read (.next (v.addr j)) = v.read (.next (v.addr j)))
    (hword : ∀ o, x = some o → v'.read (.next (v.addr i)) = o.word)
    (hfree : ∀ j, j ∈ l' ↔ if i = j then x = none else j ∈ l) (hsort : l'.Pairwise (· < ·))
    (hnf : v'.nfree = l'.length) (hchain : Chain v'.links (.head ()) (l'.map v.addr))
    (htags : ∀ d ∈ Cell.head () :: (l'.map v.addr).map .next, v'.read d % 4 = 1) :
    Represents v' (slots.set i x) l' := by
  have haddr : v'.addr = v.addr := by
    funext k
    simp [VecMem.addr, hvec]
  have hne : slots ≠ [] := fun e => by simp [e] at hi
  refine ⟨by rw [hn, h.size, length_set], by simpa using h.max, by rw [hvec]; exact h.aligned,
    fun _ => by rw [hvec]; exact h.pos hne, by rw [hvec, length_set]; exact h.fits, ?_, ?_,
    hsort, hnf, by rw [haddr]; exact hchain, ?_, fun _ => htags _ mem_cons_self⟩
  · intro j o hj
    rw [getElem?_set] at hj
    rw [haddr]
    by_cases hij : i = j
    · subst hij
      rw [if_pos rfl, if_pos hi] at hj
      exact hword o (Option.some.inj hj)
    · rw [if_neg hij] at hj
      rw [hkeep j (Ne.symm hij) fun hm => by simp [(h.free j).mp hm] at hj]
      exact h.occupied j o hj
  · intro j
    rw [hfree, getElem?_set]
    by_cases hij : i = j
    · simp [hij, hij ▸ hi]
    · simp [hij, h.free]
  · intro j hj
    rw [haddr]
    exact htags _ (.tail _ (mem_map_of_mem (mem_map_of_mem hj)))

/-- A state that differs from `v` in the link to the free slot `i` and in its
word: the slot is taken. -/
theorem Represents.take {l1 l2 : List Nat} {o : VecObj}
    (h : Represents v slots l) (hl : l = l1 ++ i :: l2) (hvec : v'.vector = v.vector)
    (hn : v'.nentries = v.nentries) (hnf : v'.nfree = v.nfree - 1)
    (hoff : ∀ d, d ≠ endCell (.head ()) (l1.map v.addr) → d ≠ .next (v.addr i) → v'.read d = v.read d)
    (hprev : v'.read (endCell (.head ()) (l1.map v.addr)) = v.read (.next (v.addr i)))
    (hword : v'.read (.next (v.addr i)) = o.word) :
    Represents v' (slots.set i (some o)) (l1 ++ l2) := by
  have hs := h.sorted
  rw [hl] at hs
  have hi : i ∉ l1 ++ l2 := (nodup_cons.mp (nodup_middle.mp (hs.imp Nat.ne_of_lt))).1
  have hil : i ∈ l := by rw [hl]; simp
  have hlen := h.lt hil
  have hsub : l1 ++ l2 ⊆ l := by rw [hl]; simp
  refine h.set hlen hvec hn (fun j hji hj => hoff _ (next_ne_endCell v fun hm => hj ?_) (next_addr_ne hji))
    ?_ ?_ (hs.sublist ((List.Sublist.refl l1).append (sublist_cons_self i l2))) ?_ ?_ ?_
  · exact hsub (mem_append_left l2 hm)
  · rintro _ ⟨⟩
    exact hword
  · intro j
    by_cases hij : i = j
    · simp [← hij, hi]
    · simp [hl, hij, Ne.symm hij]
  · rw [hnf, h.nfree, hl]
    simp
  · have hch := h.chain
    rw [hl, map_append, map_cons] at hch
    rw [map_append]
    exact chain_remove (fun d hd hd' => links_eq (hoff d hd hd')) hch (links_eq hprev)
  · -- the link to the slot takes over its word, which is tagged
    intro d hd
    by_cases hdp : d = endCell (.head ()) (l1.map v.addr)
    · rw [hdp, hprev]
      exact h.tags i hil
    · rw [hoff d hdp fun e => ?_]
      · refine h.tag (fun e => by simp [e] at hlen) ?_
        exact cons_subset_cons _ (map_subset _ (map_subset _ hsub)) hd
      · subst e
        simp [addr_inj] at hd
        simp [hd] at hi

/-- A state that differs from `v` in the word of an occupied slot and in the link
behind the free slots below it: the slot is free. -/
theorem Represents.give {l1 l2 : List Nat} {o : VecObj}
    (h : Represents v slots l) (hl : l = l1 ++ l2) (hocc : slots[i]? = some (some o))
    (h1 : ∀ j ∈ l1, j < i) (h2 : ∀ j ∈ l2, i < j) (hvec : v'.vector = v.vector)
    (hn : v'.nentries = v.nentries) (hnf : v'.nfree = v.nfree + 1)
    (hoff : ∀ d, d ≠ endCell (.head ()) (l1.map v.addr) → d ≠ .next (v.addr i) → v'.read d = v.read d)
    (hprev : v'.read (endCell (.head ()) (l1.map v.addr)) = v.addr i + 1)
    (hword : v'.read (.next (v.addr i)) = v.read (endCell (.head ()) (l1.map v.addr))) :
    Represents v' (slots.set i none) (l1 ++ i :: l2) := by
  have hlen : i < slots.length := (List.getElem?_eq_some_iff.mp hocc).1
  have hil : i ∉ l := fun hm => by rw [(h.free i).mp hm] at hocc; simp at hocc
  have hsub : ∀ j ∈ l1, j ∈ l := fun j hj => by rw [hl]; simp [hj]
  have hne : slots ≠ [] := fun e => by simp [e] at hlen
  have haddr : v.addr i % 4 = 0 ∧ 0 < v.addr i := by
    have := h.aligned
    have := h.pos hne
    unfold VecMem.addr
    omega
  have hmem : ∀ j, j ∈ l1 ++ i :: l2 ↔ j = i ∨ j ∈ l := by
    intro j
    rw [hl]
    simp only [mem_append, mem_cons]
    tauto
  refine h.set hlen hvec hn (fun j hji hj => hoff _ (next_ne_endCell v fun hm => hj (hsub j hm)) (next_addr_ne hji))
    (fun o e => by cases e) ?_ ?_ ?_ ?_ ?_
  · intro j
    rw [hmem]
    by_cases hij : i = j
    · simp [hij]
    · simp [hij, Ne.symm hij]
  · have hs := h.sorted
    rw [hl, pairwise_append] at hs
    refine pairwise_append.mpr ⟨hs.1, pairwise_cons.mpr ⟨h2, hs.2.1⟩, ?_⟩
    exact fun a ha => forall_mem_cons.mpr ⟨h1 a ha, hs.2.2 a ha⟩
  · rw [hnf, h.nfree, hl]
    simp
    omega
  · have hch := h.chain
    rw [hl, map_append] at hch
    rw [map_append, map_cons]
    refine chain_insert (fun d hd hd' => links_eq (hoff d hd hd')) hch ?_ (links_of_read hprev haddr.1 haddr.2)
      (links_eq hword)
    rw [← map_append, ← hl]
    intro hm
    obtain ⟨j, hj, he⟩ := mem_map.mp hm
    exact hil (addr_inj.mp he ▸ hj)
  · intro d hd
    by_cases hdp : d = endCell (.head ()) (l1.map v.addr)
    · rw [hdp, hprev]
      omega
    · by_cases hdi : d = .next (v.addr i)
      · rw [hdi, hword]
        refine h.tag hne (cons_subset_cons _ (map_subset _ (map_subset _ hsub)) (endCell_mem _ _))
      · rw [hoff d hdp hdi]
        refine h.tag hne ?_
        simp only [mem_cons, map_map, mem_map, Function.comp_apply, hmem] at hd ⊢
        rcases hd with rfl | ⟨j, rfl | hj, rfl⟩
        · exact .inl rfl
        · exact absurd rfl hdi
        · exact .inr ⟨j, hj, rfl⟩

theorem Represents.reflag {o o' : VecObj} (h : Represents v slots l)
    (hocc : slots[i]? = some (some o)) (hvec : v'.vector = v.vector)
    (hn : v'.nentries = v.nentries) (hnf : v'.nfree = v.nfree)
    (hoff : ∀ d, d ≠ .next (v.addr i) → v'.read d = v.read d)
    (hword : v'.read (.next (v.addr i)) = o'.word) : Represents v' (slots.set i (some o')) l := by
  have hlen : i < slots.length := (List.getElem?_eq_some_iff.mp hocc).1
  have hil : i ∉ l := fun hm => by rw [(h.free i).mp hm] at hocc; simp at hocc
  have hcell : ∀ d ∈ Cell.head () :: (l.map v.addr).map .next, v'.read d = v.read d := by
    intro d hd
    refine hoff d fun e => hil ?_
    simpa [e, addr_inj] using hd
  refine h.set hlen hvec hn (fun j hj _ => hoff _ (next_addr_ne hj)) ?_ ?_ h.sorted (hnf.trans h.nfree) ?_ ?_
  · rintro _ ⟨⟩
    exact hword
  · intro j
    by_cases hij : i = j
    · simp [← hij, hil]
    · simp [hij]
  · refine chain_entry (links_eq (hcell _ mem_cons_self)) (fun a ha => ?_) h.chain
    exact links_eq (hcell _ (.tail _ (mem_map_of_mem ha)))
  · intro d hd
    rw [hcell d hd]
    exact h.tag (fun e => by simp [e] at hlen) hd

end Slots

/-! ## Growth -/

/-- A chain through the copied table, not fixed up yet: the words name the slots
of the old table, and the walk reads them in the new one. -/
def Stale (v : VecMem) (old new : Nat) : Cell Unit Nat → List Nat → Prop
  | c, [] => vecPtr (v.read c) = 0
  | c, i :: l => v.read c = old + 8 * i + 1 ∧ Stale v old new (.next (new + 8 * i)) l

theorem stale_congr {v v' : VecMem} {old new : Nat} {l : List Nat}
    (h : ∀ d ∈ c :: (l.map (new + 8 * ·)).map Cell.next, v'.read d = v.read d)
    (hs : Stale v old new c l) : Stale v' old new c l := by
  induction l generalizing c with
  | nil =>
    unfold Stale at hs ⊢
    rw [h c (by simp)]
    exact hs
  | cons i l ih =>
    refine ⟨by rw [h c (by simp)]; exact hs.1, ih (fun d hd => h d ?_) hs.2⟩
    exact .tail _ hd

/-- The fix-up reaches the end of the chain and leaves it running through the new
table, if it gets every word right. -/
theorem fixChain_stale {adjust old new fuel : Nat} {v : VecMem} {l : List Nat}
    (hs : Stale v old new c l) (hold : ∀ i ∈ l, (old + 8 * i) % 4 = 0 ∧ 0 < old + 8 * i)
    (hnew : new % 4 = 0 ∧ 0 < new)
    (hfix : ∀ i ∈ l, addInt (old + 8 * i + 1) adjust = new + 8 * i + 1)
    (hnd : (c :: (l.map (new + 8 * ·)).map Cell.next).Nodup) (hf : l.length < fuel) :
    ∃ v', fixChain adjust fuel v c = some (v', endCell c (l.map (new + 8 * ·))) ∧
      Seg v'.links c (l.map (new + 8 * ·)) ∧
      (∀ d ∈ cells c (l.map (new + 8 * ·)), v'.read d % 4 = 1) ∧
      (∀ d, d ∉ cells c (l.map (new + 8 * ·)) → v'.read d = v.read d) ∧
      v'.nentries = v.nentries ∧ v'.nfree = v.nfree := by
  induction l generalizing c v fuel with
  | nil =>
    obtain ⟨k, rfl⟩ : ∃ k, fuel = k + 1 := ⟨fuel - 1, by simp at hf; omega⟩
    have hz : vecPtr (v.read c) = 0 := hs
    exact ⟨v, by simp [fixChain, hz], trivial, by simp [cells], fun d _ => rfl, rfl, rfl⟩
  | cons i l ih =>
    obtain ⟨k, rfl⟩ : ∃ k, fuel = k + 1 := ⟨fuel - 1, by simp at hf; omega⟩
    obtain ⟨hread, hrest⟩ := hs
    have hptr : vecPtr (v.read c) ≠ 0 := by
      have := hold i (by simp)
      rw [hread]
      unfold vecPtr
      omega
    have hptr' : vecPtr (new + 8 * i + 1) = new + 8 * i := by
      unfold vecPtr
      omega
    have hnd' := nodup_cons.mp hnd
    -- the store to `c` is not seen by the rest of the walk
    have hs1 : Stale (v.write c (new + 8 * i + 1)) old new (.next (new + 8 * i)) l :=
      stale_congr (fun d hd => read_write_off _ fun e => hnd'.1 (e ▸ hd)) hrest
    obtain ⟨v', hrun, hseg, htags, hoff, hn, hnf⟩ :=
      ih hs1 (fun j hj => hold j (by simp [hj])) (fun j hj => hfix j (by simp [hj])) hnd'.2 (by simp at hf; omega : l.length < k)
    have hc : c ∉ cells (.next (new + 8 * i)) (l.map (new + 8 * ·)) := fun hm =>
      hnd'.1 (cells_subset hm)
    have hcread : v'.read c = new + 8 * i + 1 := by rw [hoff c hc, read_write_self]
    have hlink : v'.links c = some (new + 8 * i) := links_of_read hcread (by omega) (by omega)
    refine ⟨v', ?_, ⟨hlink, hseg⟩, ?_, ?_, by simp [hn], by simp [hnf]⟩
    · have hstep : fixChain adjust (k + 1) v c =
          fixChain adjust k (v.write c (new + 8 * i + 1)) (.next (new + 8 * i)) := by
        rw [fixChain, if_neg hptr]
        simp only [read_write_self, hread, hfix i (by simp), hptr']
      rw [hstep]
      exact hrun
    · intro d hd
      rcases mem_cons.mp hd with rfl | hd
      · rw [hcread]
        omega
      · exact htags d hd
    · intro d hd
      have hd' : d ≠ c ∧ d ∉ cells (.next (new + 8 * i)) (l.map (new + 8 * ·)) := by
        simpa [cells] using hd
      rw [hoff d hd'.2, read_write_off _ hd'.1]

theorem linkSlots_spec (k cur : Nat) (mem : Nat → Nat) (hcur : cur % 8 = 0) :
    (∀ j < k, linkSlots k cur mem (cur + 8 * j) = cur + 8 * (j + 1) + 1) ∧
      linkSlots k cur mem (cur + 8 * k) = 1 ∧
      ∀ a, (∀ j ≤ k, a ≠ cur + 8 * j) → linkSlots k cur mem a = mem a := by
  induction k generalizing cur mem with
  | zero =>
    refine ⟨by simp, by simp [linkSlots, vecFree], fun a ha => ?_⟩
    have := ha 0 (by omega)
    simp [linkSlots, Function.update_of_ne (by simpa using this)]
  | succ k ih =>
    obtain ⟨h1, h2, h3⟩ := ih (cur + 8) (Function.update mem cur (vecFree (cur + 8))) (by omega)
    refine ⟨fun j hj => ?_, ?_, fun a ha => ?_⟩
    · cases j with
      | zero =>
        rw [linkSlots, h3 _ (fun j _ => by omega)]
        simp [vecFree]
        omega
      | succ j =>
        have := h1 j (by omega)
        rw [linkSlots, show cur + 8 * (j + 1) = cur + 8 + 8 * j by omega, this]
        omega
    · rw [linkSlots, show cur + 8 * (k + 1) = cur + 8 + 8 * k by omega, h2]
    · have h0 := ha 0 (by omega)
      rw [linkSlots, h3 a fun j hj => ?_, Function.update_of_ne (by simpa using h0)]
      have := ha (j + 1) (by omega)
      omega

/-- Slots that each name the next one, the last none, are a chain. -/
theorem chain_range {L : Links Unit Nat} {new n k : Nat}
    (h : ∀ j < k, L (.next (new + 8 * (n + j))) = some (new + 8 * (n + j + 1)))
    (hend : L (.next (new + 8 * (n + k))) = none) :
    Chain L (.next (new + 8 * n)) ((range' (n + 1) k).map (new + 8 * ·)) := by
  induction k generalizing n with
  | zero => exact hend
  | succ k ih =>
    rw [range'_succ, map_cons]
    refine ⟨h 0 (by omega), ih (fun j hj => ?_) ?_⟩
    · have := h (j + 1) (by omega)
      rw [show n + 1 + j = n + (j + 1) by omega]
      exact this
    · rw [show n + 1 + k = n + (k + 1) by omega]
      exact hend

theorem stale_of_chain {v v1 : VecMem} {old new : Nat} {c d : Cell Unit Nat} {l : List Nat}
    (hcd : v1.read c = v.read d) (hch : Chain v.links d (l.map (old + 8 * ·)))
    (htag : l ≠ [] → v.read d % 4 = 1) (htags : ∀ i ∈ l, v.read (.next (old + 8 * i)) % 4 = 1)
    (hcopy : ∀ i ∈ l, v1.read (.next (new + 8 * i)) = v.read (.next (old + 8 * i))) :
    Stale v1 old new c l := by
  induction l generalizing c d with
  | nil =>
    show vecPtr (v1.read c) = 0
    rw [hcd]
    exact ptr_of_links_none hch
  | cons i l ih =>
    refine ⟨hcd.trans (read_of_links hch.1 (htag (by simp))), ?_⟩
    exact ih (hcopy i (by simp)) hch.2 (fun _ => htags i (by simp))
      (fun j hj => htags j (by simp [hj])) (fun j hj => hcopy j (by simp [hj]))

theorem fixChain_high {adjust fuel : Nat} {v v' : VecMem} {e : Cell Unit Nat}
    (h : fixChain adjust fuel v c = some (v', e)) (d : Cell Unit Nat) :
    v'.read d / 2 ^ 32 = v.read d / 2 ^ 32 := by
  induction fuel generalizing v c with
  | zero => cases h
  | succ fuel ih =>
    rw [fixChain] at h
    split at h
    · cases h
      rfl
    · rw [ih h]
      by_cases hd : d = c
      · rw [hd, read_write_self]
        unfold addInt
        omega
      · rw [read_write_off _ hd]

/-- A link that has come to name slot `i` of the new table has its high half, and
one that named it in the old table has the high half it had there. -/
theorem high_of_stale {v v' : VecMem} {old new : Nat} {l : List Nat} (hs : Stale v old new c l)
    (hold : old % 8 = 0) (hnew : new % 8 = 0) (hseg : Seg v'.links c (l.map (new + 8 * ·)))
    (hhigh : ∀ d, v'.read d / 2 ^ 32 = v.read d / 2 ^ 32) :
    ∀ i ∈ l, (old + 8 * i) / 2 ^ 32 = (new + 8 * i) / 2 ^ 32 := by
  induction l generalizing c with
  | nil => simp
  | cons i l ih =>
    obtain ⟨hread, hrest⟩ := hs
    obtain ⟨hlink, hseg⟩ := hseg
    refine forall_mem_cons.mpr ⟨?_, ih hrest hseg⟩
    have hptr : vecPtr (v'.read c) = new + 8 * i := (ptr_of_links hlink).1
    have hc := hhigh c
    rw [hread] at hc
    unfold vecPtr at hptr
    omega

theorem grownSize_spec {n : Nat} (index : Nat) (hn : n < vectorMax) :
    n < grownSize n index ∧ grownSize n index ≤ vectorMax ∧
      (index < vectorMax → index < grownSize n index) := by
  simp only [grownSize, vectorMax] at *
  refine ⟨?_, ?_, ?_⟩
  all_goals (repeat' split) <;> omega

/-- What `_scalloc` promises of a table of `size` words for `v`. -/
structure Growth.Fresh (g : Growth) (v : VecMem) (size : Nat) : Prop where
  aligned : g.ptr % 8 = 0
  pos : 0 < g.ptr
  fits : g.ptr + 8 * size ≤ 2 ^ 64
  apart : v.nentries = 0 ∨ g.ptr + 8 * size ≤ v.vector ∨ v.vector + 8 * v.nentries ≤ g.ptr

/-- No free slot changes its high half. -/
def Growth.Keeps (g : Growth) (v : VecMem) (l : List Nat) : Prop :=
  ∀ i ∈ l, v.addr i / 2 ^ 32 = (g.ptr + 8 * i) / 2 ^ 32

section GrowEnd
variable {v : VecMem} {g : Growth} {optr k : Nat} {prev : Cell Unit Nat}

/-- `growEnd` before the new slots are linked. -/
def growStart (v : VecMem) (g : Growth) (optr : Nat) (prev : Cell Unit Nat) : VecMem :=
  VecMem.write { v with
    vector := g.ptr
    mem := fun a => if optr ≤ a ∧ a < optr + 8 * v.nentries then g.junk a else v.mem a }
    prev (vecFree (g.ptr + 8 * v.nentries))

theorem growEnd_read (v : VecMem) (g : Growth) (optr k : Nat) (prev : Cell Unit Nat) :
    growEnd v g optr (v.nentries + (k + 1)) prev =
      { growStart v g optr prev with
        mem := linkSlots k (g.ptr + 8 * v.nentries) (growStart v g optr prev).mem
        nfree := (v.nfree + (k + 1)) % 2 ^ 16
        nentries := v.nentries + (k + 1) } := by
  have hk : v.nentries + (k + 1) - v.nentries = k + 1 := by omega
  simp only [growEnd, growStart, write_nentries, write_vector, write_nfree, VecMem.addr, hk,
    Nat.add_sub_cancel]

theorem growEnd_old (hga : g.ptr % 8 = 0) {d : Cell Unit Nat}
    (hd : d = .head () ∨ ∃ i < v.nentries, d = .next (g.ptr + 8 * i)) :
    (growEnd v g optr (v.nentries + (k + 1)) prev).read d = (growStart v g optr prev).read d := by
  rw [growEnd_read]
  rcases hd with rfl | ⟨i, hi, rfl⟩
  · rfl
  · exact (linkSlots_spec k (g.ptr + 8 * v.nentries) _ (by omega)).2.2 _ fun j _ => by omega

theorem growEnd_new (hga : g.ptr % 8 = 0) :
    (∀ j < k, (growEnd v g optr (v.nentries + (k + 1)) prev).read (.next (g.ptr + 8 * (v.nentries + j))) =
        g.ptr + 8 * (v.nentries + j + 1) + 1) ∧
      (growEnd v g optr (v.nentries + (k + 1)) prev).read (.next (g.ptr + 8 * (v.nentries + k))) = 1 := by
  rw [growEnd_read]
  obtain ⟨h1, h2, -⟩ := linkSlots_spec k (g.ptr + 8 * v.nentries) (growStart v g optr prev).mem (by omega)
  refine ⟨fun j hj => ?_, ?_⟩
  · have := h1 j hj
    rw [show g.ptr + 8 * (v.nentries + j) = g.ptr + 8 * v.nentries + 8 * j by omega]
    show linkSlots _ _ _ _ = _
    omega
  · rw [show g.ptr + 8 * (v.nentries + k) = g.ptr + 8 * v.nentries + 8 * k by omega]
    exact h2


end GrowEnd

/-- The table of `v` copied to `g`, its chain not fixed up yet. -/
def growCopy (v : VecMem) (g : Growth) : VecMem :=
  { v with mem := copyWords v.mem g.ptr v.vector v.nentries }

section Grow
variable {v : VecMem} {slots : List (Option VecObj)} {l : List Nat} {index fuel : Nat} {g : Growth}

theorem growCopy_read (v : VecMem) (g : Growth) {i : Nat} (hi : i < v.nentries) :
    (growCopy v g).read (.next (g.ptr + 8 * i)) = v.read (.next (v.vector + 8 * i)) := by
  simp only [growCopy, VecMem.read, copyWords]
  rw [if_pos (by omega), show v.vector + (g.ptr + 8 * i - g.ptr) = v.vector + 8 * i by omega]

theorem Represents.nodup_at (h : Represents v slots l) (p : Nat) :
    (Cell.head () :: (l.map (p + 8 * ·)).map Cell.next).Nodup := by
  have hl : l.Nodup := h.sorted.imp fun hab => Nat.ne_of_lt hab
  refine cells_nodup (hl.map fun i j e => ?_)
  omega

theorem Represents.stale (h : Represents v slots l) :
    Stale (growCopy v g) v.vector g.ptr (.head ()) l := by
  refine stale_of_chain (v := v) (d := .head ()) rfl h.chain (fun hl => h.headTag (h.slots_ne hl)) h.tags ?_
  intro i hi
  exact growCopy_read v g (h.size ▸ h.lt hi)

/-- The fix-up of a copied table whose free slots keep their high halves: the
chain runs through the same slots of the new table. -/
theorem fixChain_growCopy (h : Represents v slots l) (hga : g.ptr % 8 = 0) (hgp : 0 < g.ptr)
    (hk : g.Keeps v l) (hf : l.length < fuel) :
    ∃ v', fixChain ((g.ptr + 2 ^ 64 - v.vector) % 2 ^ 32) fuel (growCopy v g) (.head ()) =
        some (v', endCell (.head ()) (l.map (g.ptr + 8 * ·))) ∧
      Seg v'.links (.head ()) (l.map (g.ptr + 8 * ·)) ∧
      (∀ d ∈ cells (.head ()) (l.map (g.ptr + 8 * ·)), v'.read d % 4 = 1) ∧
      (∀ d, d ∉ cells (.head ()) (l.map (g.ptr + 8 * ·)) → v'.read d = (growCopy v g).read d) ∧
      v'.nentries = v.nentries ∧ v'.nfree = v.nfree := by
  have hbase := h.aligned
  have hpos := h.pos
  refine fixChain_stale h.stale ?_ ⟨by omega, hgp⟩ ?_ (h.nodup_at g.ptr) hf
  · intro i hi
    have := hpos (h.slots_ne (ne_nil_of_mem hi))
    omega
  · intro i hi
    have hki := hk i hi
    unfold VecMem.addr at hki
    unfold addInt
    omega

theorem keeps_of_fixChain (h : Represents v slots l) (hga : g.ptr % 8 = 0) {adjust : Nat}
    {v1 : VecMem} {e : Cell Unit Nat} (hfix : fixChain adjust fuel (growCopy v g) (.head ()) = some (v1, e))
    (hseg : Seg v1.links (.head ()) (l.map (g.ptr + 8 * ·))) : g.Keeps v l :=
  high_of_stale h.stale h.aligned hga hseg (fixChain_high hfix)

theorem vectorGrow_represents (h : Represents v slots l) (hmax : slots.length < vectorMax)
    (hg : g.Fresh v (grownSize v.nentries index)) (hk : g.Keeps v l) (hf : l.length < fuel) :
    ∃ v' k, vectorGrow fuel v index g = some v' ∧ slots.length + k = grownSize slots.length index ∧
      Represents v' (slots ++ replicate k none) (l ++ range' slots.length k) := by
  obtain ⟨hgrow, hle, -⟩ := grownSize_spec index hmax
  obtain ⟨k, hsize⟩ : ∃ k, grownSize slots.length index = slots.length + (k + 1) :=
    ⟨grownSize slots.length index - slots.length - 1, by omega⟩
  obtain ⟨hga, hgp, hgf, hgd⟩ := hg
  obtain ⟨v2, hrun, hseg, htags, hoff, hn2, hnf2⟩ := fixChain_growCopy h hga hgp hk hf
  rw [h.size, hsize] at hgf hgd
  have hcopy : ∀ i < slots.length, (growCopy v g).read (.next (g.ptr + 8 * i)) = _ :=
    fun i hi => growCopy_read v g (h.size ▸ hi)
  generalize hn : slots.length = n at *
  have hin : ∀ i ∈ l, i < n := fun i hi => hn ▸ h.lt hi
  have hv2 : v2.nentries = n := hn2.trans (h.size.trans hn)
  generalize he : endCell (Cell.head ()) (l.map (g.ptr + 8 * ·)) = e at *
  -- the link the fix-up stopped at: the head or a free slot below the new part
  have hcell : ∀ d ∈ Cell.head () :: (l.map (g.ptr + 8 * ·)).map Cell.next,
      d = .head () ∨ ∃ i < v2.nentries, d = .next (g.ptr + 8 * i) := by
    intro d hd
    rw [mem_cons, map_map, mem_map] at hd
    rcases hd with h' | ⟨i, hi, h'⟩
    · exact .inl h'
    · exact .inr ⟨i, by rw [hv2]; exact hin i hi, h'.symm⟩
  have hemem : e ∈ Cell.head () :: (l.map (g.ptr + 8 * ·)).map Cell.next := he ▸ endCell_mem _ _
  generalize hv' : growEnd v2 g v.vector (v2.nentries + (k + 1)) e = v'
  have hvec : v'.vector = g.ptr := by rw [← hv', growEnd_read]; simp [growStart]
  have hold' : ∀ d, (d = .head () ∨ ∃ i < v2.nentries, d = .next (g.ptr + 8 * i)) → d ≠ e →
      v'.read d = v2.read d := fun d hd hne => by
    rw [← hv', growEnd_old hga hd, growStart, read_write_off _ hne]
    -- the old table and the new one do not overlap
    rcases hd with rfl | ⟨i, hi, rfl⟩
    · rfl
    · show (if _ then _ else _) = _
      rw [if_neg (by omega)]
      rfl
  have heread : v'.read e = g.ptr + 8 * n + 1 := by
    rw [← hv', growEnd_old hga (hcell e hemem), growStart, read_write_self, hv2]
    unfold vecFree
    omega
  obtain ⟨hnew, hlast⟩ := @growEnd_new v2 g v.vector k e hga
  rw [hv', hv2] at hnew hlast
  have htags' : ∀ d ∈ Cell.head () :: (l.map (g.ptr + 8 * ·)).map Cell.next, v'.read d % 4 = 1 := by
    intro d hd
    by_cases hde : d = e
    · rw [hde, heread]
      omega
    · rw [hold' d (hcell d hd) hde]
      rw [← cells_concat_end, mem_append, he, mem_singleton] at hd
      exact htags d (hd.resolve_right hde)
  have haddr : v'.addr = (g.ptr + 8 * ·) := by
    funext i
    simp [VecMem.addr, hvec]
  have hfree : ∀ i, i ∈ l ++ range' n (k + 1) ↔
      (slots ++ replicate (k + 1) none)[i]? = some none := by
    intro i
    rw [mem_append, h.free, mem_range'_1, getElem?_append, getElem?_replicate, hn]
    by_cases hi : i < n
    · have hni : ¬ n ≤ i := by omega
      simp [hi, hni]
    · have : slots[i]? = none := getElem?_eq_none (by omega)
      simp [hi, this]
      omega
  refine ⟨v', k + 1, ?_, by omega, ?_⟩
  · simp only [vectorGrow]
    rw [← growCopy, hrun, Option.map_some, ← hv', hv2, h.size, hn, hsize]
  · refine ⟨?_, by simp [hn]; omega, by rw [hvec]; exact hga, fun _ => by rw [hvec]; exact hgp,
      by rw [hvec]; simpa [hn] using hgf, ?_, hfree, ?_, ?_, ?_, ?_,
      fun _ => htags' (.head ()) (by simp)⟩
    · rw [← hv', growEnd_read, length_append, length_replicate, hn, hv2]
    · intro i o hi
      rw [getElem?_append, hn] at hi
      by_cases hlt : i < n
      · rw [if_pos hlt] at hi
        have hil : i ∉ l := fun hm => by rw [(h.free i).mp hm] at hi; simp at hi
        have hne : ∀ d ∈ Cell.head () :: (l.map (g.ptr + 8 * ·)).map Cell.next,
            Cell.next (g.ptr + 8 * i) ≠ d := by
          intro d hd hdi
          rw [mem_cons, map_map, mem_map] at hd
          rcases hd with rfl | ⟨j, hj, rfl⟩
          · simp at hdi
          · have hij : g.ptr + 8 * i = g.ptr + 8 * j := Cell.next.inj hdi
            exact hil (by rwa [show i = j by omega])
        rw [haddr, hold' _ (.inr ⟨i, by omega, rfl⟩) (hne e hemem),
          hoff _ fun hm => hne _ (cells_subset hm) rfl, hcopy i hlt]
        exact h.occupied i o hi
      · rw [if_neg hlt, getElem?_replicate] at hi
        split at hi <;> simp at hi
    · refine pairwise_append.mpr ⟨h.sorted, pairwise_lt_range', fun a ha b hb => ?_⟩
      have := hin a ha
      rw [mem_range'_1] at hb
      omega
    · have hnf := h.nfree
      have hll := h.length_le
      rw [← hv', growEnd_read, length_append, length_range']
      show (v2.nfree + (k + 1)) % 2 ^ 16 = l.length + (k + 1)
      unfold vectorMax at hle
      omega
    · rw [haddr, map_append, chain_append, he, range'_succ, map_cons]
      refine ⟨seg_congr (fun d hd => links_eq (hold' d (hcell d (cells_subset hd)) ?_)) hseg,
        links_of_read heread (by omega) (by omega), chain_range (fun j hj => ?_) ?_⟩
      · intro hde
        have := endCell_notin_cells_of (h.nodup_at g.ptr)
        rw [he] at this
        exact this (hde ▸ hd)
      · exact links_of_read (hnew j hj) (by omega) (by omega)
      · simp [VecMem.links, hlast, vecPtr]
    · intro i hi
      rw [haddr]
      rcases mem_append.mp hi with hi | hi
      · exact htags' _ (.tail _ (mem_map_of_mem (mem_map_of_mem hi)))
      · rw [mem_range'_1] at hi
        obtain ⟨j, rfl⟩ : ∃ j, i = n + j := ⟨i - n, by omega⟩
        by_cases hjk : j < k
        · rw [hnew j hjk]
          omega
        · rw [show j = k by omega, hlast]

/-- **A growth relocates the free chain.** The fix-up loop leaves every link at the
slot it named, in the new table, and the grown vector stands for the old slots with
the new ones behind them, exactly when the new table gives no free slot another
high half. -/
theorem vectorGrow_relocates (h : Represents v slots l) (hmax : slots.length < vectorMax)
    (hg : g.Fresh v (grownSize v.nentries index)) (hf : l.length < fuel) :
    (∃ v1 v' k, fixChain ((g.ptr + 2 ^ 64 - v.vector) % 2 ^ 32) fuel (growCopy v g) (.head ()) =
        some (v1, endCell (.head ()) (l.map (g.ptr + 8 * ·))) ∧
      Seg v1.links (.head ()) (l.map (g.ptr + 8 * ·)) ∧
      vectorGrow fuel v index g = some v' ∧ v'.vector = g.ptr ∧
      slots.length + k = grownSize slots.length index ∧
      Represents v' (slots ++ List.replicate k none) (l ++ List.range' slots.length k)) ↔
    g.Keeps v l := by
  constructor
  · rintro ⟨v1, -, -, hfix, hseg, -⟩
    exact keeps_of_fixChain h hg.aligned hfix hseg
  · intro hk
    obtain ⟨v1, hfix, hseg, -⟩ := fixChain_growCopy h hg.aligned hg.pos hk hf
    obtain ⟨v', k, hgrow, hsize, hrep⟩ := vectorGrow_represents h hmax hg hk hf
    refine ⟨v1, v', k, hfix, hseg, hgrow, ?_, hsize, hrep⟩
    rw [growCopy] at hfix
    simp only [vectorGrow, hfix, Option.map_some, Option.some.injEq] at hgrow
    simp [← hgrow, growEnd]

end Grow

theorem represents_empty (mem : Nat → Nat) : Represents ⟨0, 0, 0, 0, mem⟩ [] [] :=
  ⟨rfl, by decide, rfl, by simp, by simp, by simp, by simp, List.Pairwise.nil, rfl,
    by simp [Chain, VecMem.links, VecMem.read, vecPtr], by simp, by simp⟩

/-- The eight free slots of a first table move with it to a second one in the same
4 GiB. -/
theorem vectorGrow_relocates_near :
    ∃ v v1 v', Represents v (List.replicate 8 none) (List.range' 0 8) ∧
      fixChain 0x1000 9 (growCopy v ⟨0x80001000, fun _ => 0⟩) (.head ()) = some (v1, .next 0x80001038) ∧
      Seg v1.links (.head ()) [0x80001000, 0x80001008, 0x80001010, 0x80001018, 0x80001020, 0x80001028,
        0x80001030, 0x80001038] ∧
      vectorGrow 9 v 15 ⟨0x80001000, fun _ => 0⟩ = some v' ∧ v'.vector = 0x80001000 ∧
      Represents v' (List.replicate 16 none) (List.range' 0 16) := by
  obtain ⟨-, v, k, -, -, -, hvec, hsize, hrep⟩ :=
    (@vectorGrow_relocates _ _ _ 0 1 ⟨0x80000000, fun _ => 0⟩ (represents_empty fun _ => 0) (by decide)
      ⟨by decide, by decide, by decide, .inl rfl⟩ (by decide)).mpr (by simp [Growth.Keeps])
  obtain rfl : k = 8 := (Nat.zero_add k).symm.trans hsize
  have hn : v.nentries = 8 := hrep.size
  obtain ⟨v1, v', k, hfix, hseg, hgrow, hvec', hsize, hrep'⟩ :=
    (@vectorGrow_relocates _ _ _ 15 9 ⟨0x80001000, fun _ => 0⟩ hrep (by decide)
      ⟨by decide, by decide, by rw [hn]; decide, .inr (.inr (by rw [hn, hvec]; decide))⟩
      (by decide)).mpr (fun i hi => by
        have := hrep.lt hi
        simp only [VecMem.addr, hvec, List.length_append, List.length_replicate, List.length_nil] at this ⊢
        omega)
  obtain rfl : k = 8 := Nat.add_left_cancel (show 8 + k = 8 + 8 from hsize)
  rw [hvec] at hfix
  exact ⟨v, v1, v', hrep, hfix, hseg, hgrow, hvec', hrep'⟩

/-- A table that moves up by 4 GiB: the fix-up adds 0, and the chain of the grown
vector still begins in the old table. -/
theorem vectorGrow_relocates_not :
    ∃ v v', vectorGrow 9 ⟨0, 0, 0, 0, fun _ => 0⟩ 0 ⟨0x80000000, fun _ => 0⟩ = some v ∧
      (Growth.mk 0x180000000 fun _ => 0).Fresh v (grownSize v.nentries 8) ∧
      v.links (.head ()) = some (v.addr 0) ∧
      vectorGrow 9 v 8 ⟨0x180000000, fun _ => 0⟩ = some v' ∧
      v'.vector = 0x180000000 ∧ v'.links (.head ()) = some (v.addr 0) := by
  have hfacts : (vectorGrow 9 ⟨0, 0, 0, 0, fun _ => 0⟩ 0 ⟨0x80000000, fun _ => 0⟩).bind (fun v =>
      (vectorGrow 9 v 8 ⟨0x180000000, fun _ => 0⟩).map fun v' =>
        (v.nentries, v.vector, v.links (.head ()), v'.vector, v'.links (.head ()))) =
      some (8, 0x80000000, some 0x80000000, 0x180000000, some 0x80000000) := by
    decide +kernel
  obtain ⟨v, hv, hrest⟩ := Option.bind_eq_some_iff.mp hfacts
  obtain ⟨v', hv', hall⟩ := Option.map_eq_some_iff.mp hrest
  simp only [Prod.mk.injEq] at hall
  obtain ⟨hn, hvec, hlink, hvec', hlink'⟩ := hall
  have haddr : v.addr 0 = 0x80000000 := hvec
  refine ⟨v, v', hv, ⟨by decide, by decide, ?_, .inr (.inr ?_)⟩, by rw [haddr, hlink], hv', hvec',
    by rw [haddr, hlink']⟩
  · rw [hn]
    decide
  · rw [hn, hvec]
    decide

end QRV.Nano
