import QRV.Mem.Map

/- What cutting and joining do to the map of an address space: its list stays sorted, its
   pointers stay good, and what is mapped at each address (`lookup`) stays the same.

   A set that `map_isolate` or `map_add` has made is a part of the list (`SetAt`): the cached
   previous mapping is the one before it. Joining keeps what is mapped exactly if all that is
   merged agrees in the one field that `coalese_one` does not compare, the relocation
   (`JoinAlike`, `mapCoalese_spec`). -/
namespace QRV.Mem
open List
open Ranges

/-- What is mapped at an address: the object reference, the offset in the object, both flag words
and the relocation. -/
structure MapValue where
  objRef : Option Nat
  offset : Int
  mmapFlags : Nat
  extraFlags : Nat
  reloc : Int
  deriving DecidableEq, Repr

def MmMap.value (mm : MmMap) (x : Nat) : MapValue :=
  ⟨mm.objRef, mm.offset + (x - mm.start), mm.mmapFlags, mm.extraFlags, mm.reloc⟩

def lookup (maps : List MmMap) (x : Nat) : Option MapValue :=
  (find MmMap.start MmMap.stop maps x).map fun mm => mm.value x

/-- Each mapping starts behind the one before it. -/
abbrev InOrder (b : Nat) (maps : List MmMap) : Prop := Sorted MmMap.start MmMap.stop b maps

/-- The mappings consist of whole pages. -/
def Paged (maps : List MmMap) : Prop := ∀ mm ∈ maps, mm.start % 4096 = 0 ∧ (mm.stop + 1) % 4096 = 0

/-- The list is sorted and the pointers into it are good. -/
structure MapHead.Good (mh : MapHead) : Prop where
  sorted : InOrder 0 mh.maps
  nodup : (mh.maps.map MmMap.id).Nodup
  allocated : ∀ mm ∈ mh.maps, mm.id < mh.fresh
  rover : ∀ r, mh.rover = some r → ∃ mm ∈ mh.maps, mm.id = r
  /-- the address behind a mapping does not wrap -/
  bound : ∀ mm ∈ mh.maps, mm.stop + 1 < 2 ^ 64

variable {maps pre mid mid' post : List MmMap} {mm next : MmMap} {mh mh' : MapHead} {ms : MapSet}

/-! ## The list at a mapping -/

section
variable (hpre : ∀ e ∈ pre, e.id ≠ mm.id)
include hpre

theorem get_at : get (pre ++ mm :: post) mm.id = some mm := by
  rw [get, find?_append, find?_eq_none.mpr fun e he => by simpa using hpre e he]
  simp

theorem after_at : after (pre ++ mm :: post) mm.id = some post := by
  induction pre with
  | nil => exact if_pos rfl
  | cons e pre ih =>
    rw [cons_append, after, if_neg (hpre e mem_cons_self)]
    exact ih fun e he => hpre e (.tail _ he)

theorem upTo_at : upTo (pre ++ mm :: post) mm.id = pre ++ [mm] := by
  induction pre with
  | nil => exact if_pos rfl
  | cons e pre ih =>
    rw [cons_append, upTo, if_neg (hpre e mem_cons_self),
      ih fun e he => hpre e (.tail _ he), cons_append]

theorem dropWhile_at : (pre ++ mm :: post).dropWhile (fun e => e.id ≠ mm.id) = mm :: post := by
  induction pre with
  | nil => simp
  | cons e pre ih =>
    rw [cons_append, dropWhile_cons_of_pos (by simpa using hpre e mem_cons_self)]
    exact ih fun e he => hpre e (.tail _ he)

theorem splitOne_at {split new : Nat} (hpost : ∀ e ∈ post, e.id ≠ mm.id) :
    splitOne (pre ++ mm :: post) mm.id split new = pre ++ ([mm.lower split, mm.upper split new] ++ post) := by
  have hoff : ∀ l : List MmMap, (∀ e ∈ l, e.id ≠ mm.id) → splitOne l mm.id split new = l := fun l hl => by
    unfold splitOne
    induction l with
    | nil => rfl
    | cons e l ih =>
      rw [flatMap_cons, if_neg (hl e mem_cons_self), ih fun e he => hl e (.tail _ he),
        singleton_append]
  have hpre' := hoff pre hpre
  have hpost' := hoff post hpost
  unfold splitOne at hpre' hpost' ⊢
  rw [flatMap_append, flatMap_cons, hpre', hpost', if_pos rfl]

omit hpre in
theorem coaleseList_cons {e : MmMap} {l : List MmMap} {id : Nat} (he : e.id ≠ id) (hl : l ≠ []) :
    coaleseList (e :: l) id = (coaleseList l id).map fun (maps, freed) => (e :: maps, freed) := by
  obtain ⟨f, rest, rfl⟩ := exists_cons_of_ne_nil hl
  exact if_neg he

omit hpre in
theorem coaleseList_at (next : MmMap) (post : List MmMap) (hpre : ∀ e ∈ pre, e.id ≠ mm.id) :
    coaleseList (pre ++ mm :: next :: post) mm.id =
      if mergeable mm next then some (pre ++ merged mm next :: post, next.id) else none := by
  induction pre with
  | nil =>
    rw [nil_append, coaleseList, if_pos rfl]
    rfl
  | cons e pre ih =>
    rw [cons_append, coaleseList_cons (hpre e mem_cons_self) (by simp), ih fun e he => hpre e (.tail _ he)]
    split <;> rfl

theorem coaleseList_last : coaleseList (pre ++ [mm]) mm.id = none := by
  induction pre with
  | nil => rfl
  | cons e pre ih =>
    rw [cons_append, coaleseList_cons (hpre e mem_cons_self) (by simp), ih fun e he => hpre e (.tail _ he)]
    rfl

end

theorem ids_at (h : ((pre ++ mm :: post).map MmMap.id).Nodup) :
    (∀ e ∈ pre, e.id ≠ mm.id) ∧ ∀ e ∈ post, e.id ≠ mm.id := by
  rw [map_append, map_cons] at h
  have hsplit := nodup_append.mp h
  refine ⟨fun e he => hsplit.2.2 e.id (mem_map_of_mem he) mm.id mem_cons_self, fun e he heq => ?_⟩
  exact (nodup_cons.mp hsplit.2.1).1 (heq ▸ mem_map_of_mem he)

/-! ## What is mapped -/

theorem lookup_append (l l' : List MmMap) (x : Nat) : lookup (l ++ l') x = (lookup l x).or (lookup l' x) := by
  rw [lookup, find_append, Option.map_or]
  rfl

theorem lookup_exchange (pre mid mid' post : List MmMap) {x : Nat} (h : lookup mid' x = lookup mid x) :
    lookup (pre ++ (mid' ++ post)) x = lookup (pre ++ (mid ++ post)) x := by
  rw [lookup_append, lookup_append mid', h, ← lookup_append, ← lookup_append]

theorem lookup_nil (x : Nat) : lookup [] x = none := rfl

theorem lookup_cons (mm : MmMap) (l : List MmMap) (x : Nat) :
    lookup (mm :: l) x = if mm.start ≤ x ∧ x ≤ mm.stop then some (mm.value x) else lookup l x := by
  rw [lookup, find_cons, apply_ite (Option.map _)]
  rfl

theorem lookup_split {split new : Nat} (h1 : mm.start < split) (h2 : split ≤ mm.stop) (x : Nat) :
    lookup [mm.lower split, mm.upper split new] x = lookup [mm] x := by
  simp only [lookup_cons, lookup_nil, MmMap.value, MmMap.lower, MmMap.upper]
  by_cases hx : x < split
  · by_cases hlo : mm.start ≤ x
    · rw [if_pos (by omega), if_pos (by omega)]
    · rw [if_neg (by omega), if_neg (by omega), if_neg (by omega)]
  · rw [if_neg (by omega)]
    by_cases hhi : x ≤ mm.stop
    · rw [if_pos (by omega), if_pos (by omega)]
      congr 2
      omega
    · rw [if_neg (by omega), if_neg (by omega)]

theorem mergeable_iff : mergeable mm next = true ↔ mm.lastPageBss = 0 ∧ mm.objRef = next.objRef ∧
    mm.stop + 1 = next.start ∧ mm.offset + ((mm.stop - mm.start : Nat) + 1) = next.offset ∧
    mm.mmapFlags = next.mmapFlags ∧ mm.extraFlags = next.extraFlags := decide_eq_true_iff

/-- Two mappings map together what one does, where they agree in the relocation too. -/
theorem lookup_merged (h : mergeable mm next = true) (hmm : mm.start ≤ mm.stop) (hnext : next.start ≤ next.stop) {x : Nat}
    (hreloc : Holds MmMap.start MmMap.stop next x → mm.reloc = next.reloc) :
    lookup [merged mm next] x = lookup [mm, next] x := by
  obtain ⟨_, hobj, hmeet, hoff, hmflags, heflags⟩ := mergeable_iff.mp h
  -- they are what it is cut into at the start of the second
  have hstop : next.start - 1 = mm.stop := by omega
  have hoffset : mm.offset + ((next.start : Int) - mm.start) = next.offset := by omega
  rw [← @lookup_split (merged mm next) next.start 0 (by simp only [merged]; omega) hnext]
  simp only [lookup_cons, lookup_nil, MmMap.value, MmMap.lower, MmMap.upper, merged, hstop, hoffset, hobj, hmflags, heflags]
  by_cases hx : next.start ≤ x ∧ x ≤ next.stop
  · rw [hreloc hx]
  · rw [if_neg hx, if_neg hx]

theorem lookup_of_mem {b x : Nat} (h : InOrder b maps) (hm : mm ∈ maps) (hx : Holds MmMap.start MmMap.stop mm x) :
    lookup maps x = some (mm.value x) := by
  rw [lookup, h.find_of_mem hm hx]
  rfl

/-! ## Cutting a mapping -/

theorem MapHead.Good.of_exchange (h : mh.Good) (pre mid mid' post : List MmMap) (hmaps : mh.maps = pre ++ (mid ++ post))
    (hmaps' : mh'.maps = pre ++ (mid' ++ post)) (hsorted : InOrder (reach MmMap.stop 0 pre) mid')
    (hreach : reach MmMap.stop (reach MmMap.stop 0 pre) mid' ≤ reach MmMap.stop (reach MmMap.stop 0 pre) mid)
    (hnodup : (mh'.maps.map MmMap.id).Nodup) (halloc : ∀ mm ∈ mh'.maps, mm.id < mh'.fresh)
    (hrover : ∀ r, mh'.rover = some r → ∃ mm ∈ mh'.maps, mm.id = r)
    (hbound : ∀ mm ∈ mid', mm.stop + 1 < 2 ^ 64) : mh'.Good := by
  have hs := h.sorted
  have hold := h.bound
  rw [hmaps] at hs hold
  refine ⟨hmaps' ▸ hs.exchange hsorted hreach, hnodup, halloc, hrover, ?_⟩
  rw [hmaps']
  simp only [forall_mem_append] at hold ⊢
  exact ⟨hold.1, hbound, hold.2.2⟩

theorem MapHead.Good.ids_insert (h : mh.Good) (maps : List MmMap) {new : List Nat} {fresh : Nat}
    (hfresh : mh.fresh ≤ fresh) (hids : (maps.map MmMap.id).Perm (new ++ mh.maps.map MmMap.id)) (hnodup : new.Nodup)
    (hnew : ∀ i ∈ new, mh.fresh ≤ i ∧ i < fresh) :
    (maps.map MmMap.id).Nodup ∧ (∀ e ∈ maps, e.id < fresh) ∧ ∀ r, mh.rover = some r → ∃ e ∈ maps, e.id = r := by
  have hold : ∀ i ∈ mh.maps.map MmMap.id, i < mh.fresh := forall_mem_map.mpr h.allocated
  refine ⟨hids.nodup_iff.mpr (nodup_append.mpr ⟨hnodup, h.nodup, fun i hi j hj hij => ?_⟩), fun e he => ?_,
    fun r hr => mem_map.mp (hids.mem_iff.mpr (mem_append_right _ (mem_map.mpr (h.rover r hr))))⟩
  · have := (hnew i hi).1
    have := hold j hj
    omega
  · rcases mem_append.mp (hids.mem_iff.mp (mem_map_of_mem he)) with hin | hin
    · exact (hnew _ hin).2
    · exact Nat.lt_of_lt_of_le (hold _ hin) hfresh

theorem split_good {split : Nat} (h : mh.Good) (hmaps : mh.maps = pre ++ mm :: post) (h1 : mm.start < split)
    (h2 : split ≤ mm.stop) :
    ({ mh with maps := splitOne mh.maps mm.id split mh.fresh, fresh := mh.fresh + 1 } : MapHead).Good ∧
      ∀ x, lookup (splitOne mh.maps mm.id split mh.fresh) x = lookup mh.maps x := by
  have hids := ids_at (hmaps ▸ h.nodup)
  have hst : splitOne mh.maps mm.id split mh.fresh =
      pre ++ ([mm.lower split, mm.upper split mh.fresh] ++ post) := by
    rw [hmaps]
    exact splitOne_at hids.1 hids.2
  have hmem : mm ∈ mh.maps := by
    rw [hmaps]
    exact mem_append_right _ mem_cons_self
  have hs := h.sorted
  rw [hmaps] at hs
  obtain ⟨_, hlo, _, _⟩ := sorted_append.mp hs
  have hids' : ((splitOne mh.maps mm.id split mh.fresh).map MmMap.id).Perm ([mh.fresh] ++ mh.maps.map MmMap.id) := by
    rw [hst, hmaps]
    simpa [MmMap.lower, MmMap.upper] using @perm_middle _ mh.fresh (pre.map MmMap.id ++ [mm.id]) (post.map MmMap.id)
  obtain ⟨hnodup, halloc, hrover⟩ := h.ids_insert _ (Nat.le_succ _) hids' (nodup_singleton _) (by simp)
  refine ⟨h.of_exchange pre [mm] _ post (by rw [hmaps]; rfl) hst ?_ le_rfl hnodup halloc hrover ?_, fun x => ?_⟩
  · exact ⟨hlo, by simp only [MmMap.lower]; omega, by simp only [MmMap.lower, MmMap.upper]; omega, h2, trivial⟩
  · have hb := h.bound mm hmem
    exact forall_mem_cons.mpr ⟨by simp only [MmMap.lower]; omega, forall_mem_singleton.mpr hb⟩
  · rw [hst, hmaps]
    exact lookup_exchange pre [mm] _ post (lookup_split h1 h2 x)

/-! ## Joining mappings -/

/-- What `coalese_one` merges into the mapping, if it does, has its relocation. -/
def Alike (mh : MapHead) (id : Nat) : Prop :=
  ∀ mm ∈ get mh.maps id, ∀ rest ∈ after mh.maps id, ∀ next ∈ rest.head?, mergeable mm next = true → mm.reloc = next.reloc

instance Alike.decidable (mh : MapHead) (id : Nat) : Decidable (Alike mh id) :=
  inferInstanceAs (Decidable (∀ mm ∈ get mh.maps id, ∀ rest ∈ after mh.maps id, ∀ next ∈ rest.head?, _ → _))

/-- So it is at every turn of the loop of `map_coalese`. -/
def LoopAlike : Nat → MapHead → Nat → Prop
  | 0, _, _ => True
  | fuel + 1, mh, mm => Alike mh mm ∧ ∀ r ∈ coaleseOne mh mm, r.2 = true → LoopAlike fuel r.1 mm

instance LoopAlike.decidable : ∀ (fuel : Nat) (mh : MapHead) (mm : Nat), Decidable (LoopAlike fuel mh mm)
  | 0, _, _ => isTrue trivial
  | fuel + 1, mh, mm =>
    have := fun r : MapHead × Bool => LoopAlike.decidable fuel r.1 mm
    inferInstanceAs (Decidable (_ ∧ ∀ r ∈ coaleseOne mh mm, _ → LoopAlike fuel r.1 mm))

/-- All that `map_coalese` merges has the relocation of what it is merged into: for the mapping before the
set, for its first one again and again, and for its last. -/
def JoinAlike (mh : MapHead) (ms : MapSet) : Prop :=
  ms.split = true → ∀ first ∈ ms.first, ∀ last ∈ ms.last, (∀ prev ∈ ms.prev, Alike mh prev) ∧
    ∀ r ∈ coalesePrev mh first last ms.prev, LoopAlike r.1.maps.length r.1 r.2.1 ∧
      ∀ s ∈ coaleseLoop r.1.maps.length r.1 r.2.1 r.2.2, r.2.1 ≠ s.2 → Alike s.1 s.2

instance JoinAlike.decidable (mh : MapHead) (ms : MapSet) : Decidable (JoinAlike mh ms) :=
  inferInstanceAs (Decidable (_ → ∀ first ∈ ms.first, ∀ last ∈ ms.last, _ ∧ ∀ r ∈ coalesePrev mh first last ms.prev, _))

/-- What joining does to the map `mh`, where `F` is what was mapped at first: an address changes only
once, and none does exactly if what is merged is alike. -/
structure Joined (F : Nat → Option MapValue) (mh mh' : MapHead) (alike : Prop) : Prop where
  good : mh'.Good
  bounds : mh'.start = mh.start ∧ mh'.stop = mh.stop
  once : ∀ x, lookup mh'.maps x = lookup mh.maps x ∨ lookup mh.maps x = F x
  same : (∀ x, lookup mh'.maps x = lookup mh.maps x) ↔ alike

section
variable {F : Nat → Option MapValue} {P P' : Prop}

theorem Joined.refl (h : mh.Good) (hP : P) : Joined F mh mh P :=
  ⟨h, ⟨rfl, rfl⟩, fun _ => .inl rfl, iff_of_true (fun _ => rfl) hP⟩

theorem Joined.congr (h : Joined F mh mh' P) (hP : P ↔ P') : Joined F mh mh' P' :=
  ⟨h.good, h.bounds, h.once, h.same.trans hP⟩

theorem Joined.trans {mh1 : MapHead} (h : Joined F mh mh1 P) (h' : Joined F mh1 mh' P') : Joined F mh mh' (P ∧ P') := by
  refine ⟨h'.good, ⟨h'.bounds.1.trans h.bounds.1, h'.bounds.2.trans h.bounds.2⟩, fun x => ?_, ?_⟩
  · rcases h.once x with h1 | h1
    · rw [← h1]
      exact h'.once x
    · exact .inr h1
  · rw [← h.same, ← h'.same]
    refine ⟨fun hall => ?_, fun hboth x => (hboth.2 x).trans (hboth.1 x)⟩
    -- where the first part changes something, the second leaves it so
    have h1 : ∀ x, lookup mh1.maps x = lookup mh.maps x := fun x => by
      rcases h.once x with h1 | h1
      · exact h1
      · rcases h'.once x with h2 | h2
        · exact h2.symm.trans (hall x)
        · exact h2.trans h1.symm
    exact ⟨h1, fun x => (hall x).trans (h1 x).symm⟩

theorem mem_merged {l : Nat} (h : ∃ e ∈ pre ++ mm :: next :: post, e.id = l) (hl : l ≠ next.id) :
    ∃ e ∈ pre ++ merged mm next :: post, e.id = l := by
  rw [← mem_map] at h ⊢
  simp only [map_append, map_cons, mem_append, mem_cons] at h ⊢
  exact h.imp_right (Or.imp_right fun h => h.resolve_left hl)

theorem alike_at (hids : ∀ e ∈ pre, e.id ≠ mm.id) (hmaps : mh.maps = pre ++ mm :: post) :
    Alike mh mm.id ↔ ∀ next ∈ post.head?, mergeable mm next = true → mm.reloc = next.reloc := by
  simp [Alike, hmaps, get_at hids, after_at hids]

/-- `coalese_one` leaves the map alone or merges the next mapping into the one it is called with. What is behind
that one is as it was at first. -/
theorem coaleseOne_spec (h : mh.Good) (hmaps : mh.maps = pre ++ mm :: post)
    (hF : ∀ e ∈ post, ∀ x, Holds MmMap.start MmMap.stop e x → F x = some (e.value x)) :
    (coaleseOne mh mm.id = some (mh, false) ∧ Alike mh mm.id) ∨
      ∃ next post' mh', post = next :: post' ∧ coaleseOne mh mm.id = some (mh', true) ∧
        mh'.maps = pre ++ merged mm next :: post' ∧ Joined F mh mh' (Alike mh mm.id) := by
  have hids := ids_at (hmaps ▸ h.nodup)
  have hget : get mh.maps mm.id = some mm := by rw [hmaps, get_at hids.1]
  rw [alike_at hids.1 hmaps]
  cases post with
  | nil =>
    have hlist : coaleseList mh.maps mm.id = none := by rw [hmaps, coaleseList_last hids.1]
    exact .inl ⟨by rw [coaleseOne, hget, hlist], nofun⟩
  | cons next post =>
    have hlist := coaleseList_at next post hids.1
    rw [← hmaps] at hlist
    by_cases hm : mergeable mm next = true
    · rw [if_pos hm] at hlist
      refine .inr ⟨next, post, _, rfl, by rw [coaleseOne, hget, hlist], rfl, ?_⟩
      have hs := h.sorted
      rw [hmaps] at hs
      obtain ⟨_, hlo, hle, hmeet, hle', hpost⟩ := sorted_append.mp hs
      have hnext : next ∈ mh.maps := by
        rw [hmaps]
        exact mem_append_right _ (.tail _ mem_cons_self)
      have hlook : ∀ x, (Holds MmMap.start MmMap.stop next x → mm.reloc = next.reloc) →
          lookup (pre ++ merged mm next :: post) x = lookup mh.maps x := fun x hx => by
        rw [hmaps]
        exact lookup_exchange pre [mm, next] [merged mm next] post (lookup_merged hm hle hle' hx)
      generalize hmh' : MapHead.mk (pre ++ merged mm next :: post) _ _ _ _ = mh'
      have hgood : mh'.Good := by
        rw [← hmh']
        refine h.of_exchange pre [mm, next] [merged mm next] post hmaps rfl ?_ le_rfl ?_ ?_ ?_ ?_
        · exact ⟨hlo, by simp only [merged]; omega, trivial⟩
        · have hn := h.nodup
          rw [hmaps] at hn
          refine hn.sublist ?_
          rw [map_append, map_append]
          exact (List.Sublist.refl _).append ((sublist_cons_self _ _).cons_cons _)
        · have hold := h.allocated
          rw [hmaps] at hold
          simp only [forall_mem_append, forall_mem_cons] at hold ⊢
          exact ⟨hold.1, hold.2.1, hold.2.2.2⟩
        · intro r hr
          split at hr
          · cases hr
            exact ⟨_, mem_append_right _ mem_cons_self, rfl⟩
          · next hne =>
            refine mem_merged (hmaps ▸ h.rover r hr) fun heq => hne (hr.trans (congrArg some heq))
        · exact forall_mem_singleton.mpr (h.bound next hnext)
      have hmaps' : mh'.maps = pre ++ merged mm next :: post := by rw [← hmh']
      refine ⟨hgood, by rw [← hmh']; exact ⟨rfl, rfl⟩, fun x => ?_, fun hall => ?_, fun hreloc x => ?_⟩
      · by_cases hx : Holds MmMap.start MmMap.stop next x
        · exact .inr ((lookup_of_mem h.sorted hnext hx).trans (hF next mem_cons_self x hx).symm)
        · exact .inl (hmaps' ▸ hlook x fun hx' => absurd hx' hx)
      · -- the first address of the second mapping now has the relocation of the first
        have hstart : lookup mh'.maps next.start = some ((merged mm next).value next.start) :=
          lookup_of_mem hgood.sorted (hmaps' ▸ mem_append_right _ mem_cons_self)
            (by simp only [Holds, merged]; omega)
        rw [hall, lookup_of_mem h.sorted hnext ⟨le_rfl, hle'⟩] at hstart
        rintro _ ⟨⟩ _
        exact (congrArg MapValue.reloc (Option.some.inj hstart)).symm
      · rw [hmaps']
        exact hlook x fun _ => hreloc next rfl hm
    · rw [if_neg hm] at hlist
      exact .inl ⟨by rw [coaleseOne, hget, hlist], by rintro _ ⟨⟩ hm'; exact absurd hm' hm⟩

/-- The loop ends with the last mapping of the set merged or still behind. -/
theorem coaleseLoop_spec (fuel : Nat) {last : Nat} (h : mh.Good) (hmaps : mh.maps = pre ++ mm :: post)
    (hF : ∀ e ∈ post, ∀ x, Holds MmMap.start MmMap.stop e x → F x = some (e.value x))
    (hlast : last = mm.id ∨ ∃ e ∈ post, e.id = last) :
    ∃ mh' last' mm' post', coaleseLoop fuel mh mm.id last = some (mh', last') ∧
      Joined F mh mh' (LoopAlike fuel mh mm.id) ∧ mh'.maps = pre ++ mm' :: post' ∧ post' ⊆ post ∧
      (last' = mm.id ∨ ∃ e ∈ post', e.id = last') := by
  induction fuel generalizing mh mm post last with
  | zero => exact ⟨mh, last, mm, post, rfl, Joined.refl h trivial, hmaps, List.Subset.refl _, hlast⟩
  | succ fuel ih =>
    rw [coaleseLoop]
    rcases coaleseOne_spec h hmaps hF with ⟨hno, halike⟩ | ⟨next, post', mh1, rfl, hone, hmaps1, hj⟩
    · rw [hno]
      refine ⟨mh, last, mm, post, rfl, Joined.refl h ⟨halike, ?_⟩, hmaps, List.Subset.refl _, hlast⟩
      rw [hno]
      rintro _ ⟨⟩ ⟨⟩
    · have hafter : after mh.maps mm.id = some (next :: post') := by
        rw [hmaps, after_at (ids_at (hmaps ▸ h.nodup)).1]
      rw [hone, hafter]
      have hlast1 : (if some next.id = some last then mm.id else last) = mm.id ∨
          ∃ e ∈ post', e.id = if some next.id = some last then mm.id else last := by
        split
        · exact .inl rfl
        · next hne =>
          exact hlast.imp_right fun ⟨e, he, hid⟩ => ⟨e, (mem_cons.mp he).resolve_left fun heq => hne (by rw [← hid, heq]), hid⟩
      obtain ⟨mh', last', mm', post'', hloop, hj', hmaps', hsub, hlast'⟩ :=
        ih hj.good hmaps1 (fun e he => hF e (.tail _ he)) hlast1
      refine ⟨mh', last', mm', post'', hloop, (hj.trans hj').congr ?_, hmaps', List.Subset.trans hsub (subset_cons_self _ _), hlast'⟩
      rw [LoopAlike, hone]
      simp [merged]

end

/-- A set is the part `mid` of the list, and its cached previous mapping the one before that. -/
structure SetAt (maps : List MmMap) (ms : MapSet) (pre mid post : List MmMap) : Prop where
  maps_eq : maps = pre ++ (mid ++ post)
  nonempty : mid ≠ []
  first : ms.first = mid.head?.map MmMap.id
  last : ms.last = mid.getLast?.map MmMap.id
  prev : ms.prev = pre.getLast?.map MmMap.id

theorem SetAt.ends (h : SetAt maps ms pre mid post) :
    ∃ first rest last, mid = first :: rest ∧ last ∈ mid ∧ ms.first = some first.id ∧ ms.last = some last.id := by
  cases hmid : mid with
  | nil => exact absurd hmid h.nonempty
  | cons first rest =>
    refine ⟨first, rest, (first :: rest).getLast (cons_ne_nil _ _), rfl, getLast_mem _, ?_, ?_⟩
    · rw [h.first, hmid]
      rfl
    · rw [h.last, hmid, getLast?_eq_getLast_of_ne_nil (cons_ne_nil _ _)]
      rfl

theorem coalesePrev_spec (h : mh.Good) (hset : SetAt mh.maps ms pre mid post) :
    ∃ first last mh' mm last' pre' post', ms.first = some first ∧ ms.last = some last ∧
      coalesePrev mh first last ms.prev = some (mh', mm.id, last') ∧
      Joined (lookup mh.maps) mh mh' (∀ prev ∈ ms.prev, Alike mh prev) ∧ mh'.maps = pre' ++ mm :: post' ∧
      post' ⊆ mh.maps ∧ (last' = mm.id ∨ ∃ e ∈ post', e.id = last') := by
  obtain ⟨first, rest, last, rfl, hlast, hf, hl⟩ := hset.ends
  have hmaps : mh.maps = pre ++ first :: (rest ++ post) := hset.maps_eq
  have hrest : rest ++ post ⊆ mh.maps := fun e he => by
    rw [hmaps]
    exact mem_append_right _ (.tail _ he)
  have hlast' : last.id = first.id ∨ ∃ e ∈ rest ++ post, e.id = last.id :=
    (mem_cons.mp hlast).imp (congrArg _) fun hin => ⟨last, mem_append_left _ hin, rfl⟩
  refine ⟨first.id, last.id, ?_⟩
  rcases eq_nil_or_concat pre with rfl | ⟨pre', p, hpre⟩
  · have hprev : ms.prev = none := hset.prev
    rw [hprev]
    exact ⟨mh, first, last.id, [], _, hf, hl, rfl, Joined.refl h nofun, hmaps, hrest, hlast'⟩
  · rw [concat_eq_append] at hpre
    subst hpre
    have hprev : ms.prev = some p.id := by
      rw [hset.prev, getLast?_concat]
      rfl
    have hmaps' : mh.maps = pre' ++ p :: first :: (rest ++ post) := by
      rw [hmaps, append_assoc]
      rfl
    have halike : (∀ prev ∈ ms.prev, Alike mh prev) ↔ Alike mh p.id := by simp [hprev]
    rw [halike, hprev, coalesePrev]
    rcases coaleseOne_spec h hmaps' fun e he x hx => lookup_of_mem h.sorted (hmaps' ▸ by simp_all) hx with
      ⟨hno, halike⟩ | ⟨next, post', mh1, hpost, hone, hmaps1, hj⟩
    · rw [hno]
      exact ⟨mh, first, last.id, _, _, hf, hl, rfl, Joined.refl h halike, hmaps, hrest, hlast'⟩
    · obtain ⟨rfl, rfl⟩ : first = next ∧ rest ++ post = post' := cons.inj hpost
      rw [hone]
      refine ⟨mh1, merged p first, _, _, _, hf, hl, rfl, hj, hmaps1, hrest, ?_⟩
      split
      · exact .inl rfl
      · next hne => exact .inr (hlast'.resolve_left fun heq => hne heq.symm)

/-- Joining a set with what is around it changes nothing that is mapped exactly if what is merged is alike. -/
theorem mapCoalese_spec (h : mh.Good) (hset : SetAt mh.maps ms pre mid post) :
    ∃ mh', mapCoalese mh ms = some mh' ∧ Joined (lookup mh.maps) mh mh' (JoinAlike mh ms) := by
  unfold mapCoalese JoinAlike
  split
  · next hsplit =>
    obtain ⟨first, last, mh1, mm, last1, pre1, post1, hf, hl, hprev, hj1, hmaps1, hsub1, hlast1⟩ := coalesePrev_spec h hset
    have hF : ∀ e ∈ post1, ∀ x, Holds MmMap.start MmMap.stop e x → lookup mh.maps x = some (e.value x) :=
      fun e he x hx => lookup_of_mem h.sorted (hsub1 he) hx
    obtain ⟨mh2, last2, mm2, post2, hloop, hj2, hmaps2, hsub2, hlast2⟩ :=
      coaleseLoop_spec mh1.maps.length hj1.good hmaps1 hF hlast1
    rw [hf, hl]
    dsimp only
    rw [hprev]
    dsimp only
    rw [hloop]
    dsimp only
    have hiff : ∀ {P : Prop}, (P ↔ (mm.id ≠ last2 → Alike mh2 last2)) →
        ((((∀ prev ∈ ms.prev, Alike mh prev) ∧ LoopAlike mh1.maps.length mh1 mm.id) ∧ P) ↔
          (ms.split = true → ∀ f ∈ some first, ∀ l ∈ some last, (∀ prev ∈ ms.prev, Alike mh prev) ∧
            ∀ r ∈ coalesePrev mh f l ms.prev, LoopAlike r.1.maps.length r.1 r.2.1 ∧
              ∀ s ∈ coaleseLoop r.1.maps.length r.1 r.2.1 r.2.2, r.2.1 ≠ s.2 → Alike s.1 s.2)) := fun hP => by
      simp [hP, hsplit, hprev, hloop, and_assoc]
    split
    · next heq =>
      exact ⟨mh2, rfl, ((hj1.trans hj2).trans (Joined.refl hj2.good trivial)).congr
        (hiff (iff_of_true trivial fun hne => absurd heq hne))⟩
    · next hne =>
      -- the last mapping of the set is still behind
      obtain ⟨e, he, rfl⟩ := hlast2.resolve_left fun heq => hne heq.symm
      obtain ⟨a, b, hpost2⟩ := append_of_mem he
      have hmaps3 : mh2.maps = (pre1 ++ mm2 :: a) ++ e :: b := by rw [hmaps2, hpost2, append_assoc]; rfl
      rcases coaleseOne_spec hj2.good hmaps3 fun f hf => hF f (hsub2 (by rw [hpost2]; simp [hf])) with
        ⟨hno, halike⟩ | ⟨next, post', mh3, _, hone, _, hj3⟩
      · rw [hno]
        exact ⟨mh2, rfl, ((hj1.trans hj2).trans (Joined.refl hj2.good halike)).congr
          (hiff ⟨fun h _ => h, fun h => h hne⟩)⟩
      · rw [hone]
        exact ⟨mh3, rfl, ((hj1.trans hj2).trans hj3).congr (hiff ⟨fun h _ => h, fun h => h hne⟩)⟩
  · next hsplit => exact ⟨mh, rfl, Joined.refl h fun hs => absurd hs hsplit⟩

end QRV.Mem
