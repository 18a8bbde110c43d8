import Mathlib.Data.List.TakeWhile
import QRV.Mem.MapFind
import QRV.Lib.Run

/- Adding to and removing from the map of an address space, and what holds over whole runs of
   its operations.

   What is proved:
     1. `map_kept` — in every run whose calls meet the condition (`Proper`) no call crashes,
        the list is sorted and disjoint and the rover is in it or NULL, cutting and joining do
        not change what is mapped, and adding and removing change it exactly in the range added
        and in the mappings removed.
     2. `coalese_loses_reloc` — `map_coalese` merges neighbours with different relocations.
     3. `mapCreate_undone` — when on an error `map_create` has put back the entry it had allocated
        and changed nothing that is mapped; `mapCreate_loses_entry` — not so for a special mapping.

   `MapOp.add` is `map_create` with the removal of what it is to replace and `map_add`. The sets
   that the calls hand out are kept, and any of them may be joined or removed at any time. -/
namespace QRV.Mem
open List Option
open Ranges

variable {maps pre mid post : List MmMap} {mm : MmMap} {mh mh' : MapHead} {ms : MapSet}

/-! ## Adding -/

/-- What starts behind an address starts behind it together with all that follows. -/
theorem start_of_dropWhile {b x : Nat} (hs : InOrder b maps) {e : MmMap}
    (he : e ∈ maps.dropWhile fun e => e.start ≤ x) : x < e.start := by
  induction maps generalizing b with
  | nil => exact absurd he not_mem_nil
  | cons f maps ih =>
    obtain ⟨_, hle, hrest⟩ := hs
    by_cases hf : f.start ≤ x
    · rw [dropWhile_cons_of_pos (by simpa using hf)] at he
      exact ih hrest he
    · rw [dropWhile_cons_of_neg (by simpa using hf)] at he
      rcases mem_cons.mp he with rfl | he
      · omega
      · have := (hrest.bounds he).1
        omega

/-- From any mapping that is not behind the new ones the walk of `map_add` ends at their place. -/
theorem walk_place {start stop : Nat} (before rest : List MmMap) (hs : InOrder 0 (before ++ rest)) (hle : start ≤ stop)
    (hout : ∀ e ∈ before ++ rest, Outside start stop e) (hbefore : ∀ e ∈ before, e.start ≤ start) :
    (∀ e ∈ before ++ rest.takeWhile fun e => e.start ≤ start, e.stop < start) ∧
      (∀ e ∈ rest.dropWhile fun e => e.start ≤ start, stop < e.start) ∧
      before ++ rest = (before ++ rest.takeWhile fun e => e.start ≤ start) ++
        rest.dropWhile fun e => e.start ≤ start := by
  have hlow : ∀ e ∈ before ++ rest, e.start ≤ start → e.stop < start := fun e he hst => by
    rcases hout e he with ho | ho
    · exact ho
    · omega
  refine ⟨fun e he => ?_, fun e he => ?_, ?_⟩
  · rcases mem_append.mp he with he | he
    · exact hlow e (mem_append_left _ he) (hbefore e he)
    · exact hlow e (mem_append_right _ (( takeWhile_prefix _).subset he))
        (by simpa using mem_takeWhile_imp he)
  · have hmem := mem_append_right before ((dropWhile_suffix _).subset he)
    have hst := start_of_dropWhile (sorted_append.mp hs).2 he
    rcases hout e hmem with ho | ho
    · have := (hs.bounds hmem).2.1
      omega
    · exact ho
  · rw [append_assoc, takeWhile_append_dropWhile]

theorem mapAdd_place (h : mh.Good) {fresh stop : Nat} (hle : mm.start ≤ stop)
    (hout : ∀ e ∈ mh.maps, Outside mm.start stop e) :
    ∃ pre post, mh.maps = pre ++ post ∧ (∀ e ∈ pre, e.stop < mm.start) ∧ (∀ e ∈ post, stop < e.start) ∧
      mapAdd { mh with fresh := fresh } mm =
        some ({ mh with maps := pre ++ mm :: post, rover := pre.getLast?.map MmMap.id, fresh := fresh },
          ⟨some mm.id, some mm.id, pre.getLast?.map MmMap.id, true, false⟩) := by
  obtain ⟨hpre0, hpost0, hmaps0⟩ :=
    walk_place [] mh.maps h.sorted hle hout nofun
  cases hr : mh.rover with
  | none =>
    refine ⟨_, _, hmaps0, hpre0, hpost0, ?_⟩
    simp [mapAdd, mapAddSet]
  | some r =>
    obtain ⟨p, hp, rfl⟩ := h.rover r hr
    obtain ⟨before, rest, hmaps⟩ := append_of_mem hp
    have hids := ids_at (hmaps ▸ h.nodup)
    have hget : get mh.maps p.id = some p := by rw [hmaps, get_at hids.1]
    have hafter : after mh.maps p.id = some rest := by rw [hmaps, after_at hids.1]
    have hup : upTo mh.maps p.id = before ++ [p] := by rw [hmaps, upTo_at hids.1]
    by_cases hlt : p.start < mm.start
    · -- the walk starts behind the rover
      have hmaps' : mh.maps = (before ++ [p]) ++ rest := by
        rw [hmaps, append_assoc]
        rfl
      have hs := h.sorted
      rw [hmaps'] at hs hout
      obtain ⟨h1, h2, h3⟩ := walk_place (before ++ [p]) rest hs hle hout fun e he => by
        have := ((sorted_append.mp hs).1.bounds he).2.1
        rcases mem_append.mp he with he | he
        · have hsb := sorted_append.mp (sorted_append.mp hs).1
          have := (hsb.1.bounds he).2.2
          have := hsb.2.1
          omega
        · obtain rfl := mem_singleton.mp he
          omega
      refine ⟨_, _, hmaps'.trans h3, h1, h2, ?_⟩
      simp only [mapAdd, mapAddSet, hget, hafter, if_pos hlt, hup, map_some, append_assoc]
      rfl
    · refine ⟨_, _, hmaps0, hpre0, hpost0, ?_⟩
      simp [mapAdd, mapAddSet, hget, hafter, hlt]

theorem lookup_outside {start stop : Nat} (h : ∀ e ∈ maps, Outside start stop e) {x : Nat} (hx : start ≤ x ∧ x ≤ stop) :
    lookup maps x = none := by
  rw [lookup, find_eq_none.mpr fun e he hex => ?_]
  · rfl
  · have h1 := hex.1
    have h2 := hex.2
    rcases h e he with ho | ho <;> omega

theorem mapAdd_spec (h : mh.Good) (hid : mm.id = mh.fresh) (hle : mm.start ≤ mm.stop) (hbound : mm.stop + 1 < 2 ^ 64)
    (hout : ∀ e ∈ mh.maps, Outside mm.start mm.stop e) :
    ∃ mh' ms pre post, mapAdd { mh with fresh := mh.fresh + 1 } mm = some (mh', ms) ∧ mh'.Good ∧
      SetAt mh'.maps ms pre [mm] post ∧ (mh'.start = mh.start ∧ mh'.stop = mh.stop) ∧
      ∀ x, lookup mh'.maps x =
        if mm.start ≤ x ∧ x ≤ mm.stop then some (mm.value x) else lookup mh.maps x := by
  obtain ⟨pre, post, hmaps, hpre, hpost, heq⟩ := mapAdd_place h hle hout
  have hs := h.sorted
  rw [hmaps] at hs
  obtain ⟨hs1, hs2⟩ := sorted_append.mp hs
  have hperm : (pre ++ mm :: post).Perm (mm :: mh.maps) := hmaps ▸ perm_middle
  obtain ⟨hnodup, halloc, -⟩ := @MapHead.Good.ids_insert _ h _ [mm.id] _ (Nat.le_succ _) (hperm.map _)
    (nodup_singleton _) (by simp [hid])
  refine ⟨_, _, pre, post, heq, ⟨?_, hnodup, halloc, ?_, ?_⟩, ⟨rfl, cons_ne_nil _ _, rfl, rfl, rfl⟩, ⟨rfl, rfl⟩,
    fun x => ?_⟩
  · have hreach : reach MmMap.stop 0 pre ≤ mm.start := reach_le (Nat.zero_le _) hpre
    exact sorted_append.mpr ⟨hs1, hreach, hle, hs2.raise hpost⟩
  · intro r hr
    obtain ⟨e, he, rfl⟩ := map_eq_some_iff.mp hr
    exact ⟨e, mem_append_left _ (mem_of_getLast? he), rfl⟩
  · intro e he
    rcases mem_cons.mp (hperm.mem_iff.mp he) with rfl | he
    · exact hbound
    · exact h.bound e he
  · rw [lookup_append, lookup_cons, hmaps, lookup_append]
    split
    · next hx =>
      -- an address of the new mapping is none of those before it
      rw [lookup_outside (fun e he => hout e (hmaps ▸ mem_append_left _ he)) hx]
      rfl
    · rfl

/-! ## Removing -/

/-- The mappings of a set that are removed. -/
def removed (ms : MapSet) (e : MmMap) : Bool := !(ms.skipSpecial && e.special)

theorem filter_removed (h : ms.skipSpecial = false) (l : List MmMap) : l.filter (fun e => !removed ms e) = [] :=
  filter_eq_nil_iff.mpr fun e _ => by simp [removed, h]

theorem SetAt.kept_sublist (h : SetAt maps ms pre mid post) (p : MmMap → Bool) :
    List.Sublist (pre ++ (mid.filter p ++ post)) maps :=
  h.maps_eq ▸ (filter_sublist.append_right post).append_left pre

theorem SetAt.mem (h : SetAt maps ms pre mid post) (hm : mm ∈ mid) : mm ∈ maps :=
  h.maps_eq ▸ mem_append_right _ (mem_append_left _ hm)

section
variable (h : mh.Good) (hset : SetAt mh.maps ms pre mid post)
include h hset

theorem segment_at {first last : Nat} (hf : ms.first = some first)
    (hl : ms.last = some last) : segment mh.maps first last = mid ∧ after mh.maps last = some post ∧
      (∃ e ∈ mid, get mh.maps first = some e ∧ ∀ f ∈ mid, e.start ≤ f.start) ∧
      ∃ e ∈ mid, get mh.maps last = some e ∧ ∀ f ∈ mid, f.start ≤ e.start := by
  have hs := h.sorted
  rw [hset.maps_eq] at hs
  have hsm := (sorted_append.mp (sorted_append.mp hs).2).1
  obtain ⟨e, rest, _, hmid, _, hfirst, _⟩ := hset.ends
  obtain rfl : e.id = first := some.inj (hfirst.symm.trans hf)
  have hmaps : mh.maps = pre ++ e :: (rest ++ post) := by
    rw [hset.maps_eq, hmid]
    rfl
  have hids := ids_at (hmaps ▸ h.nodup)
  rcases eq_nil_or_concat mid with hnil | ⟨mid', f, hmid'⟩
  · exact absurd hnil hset.nonempty
  rw [concat_eq_append] at hmid'
  obtain rfl : f.id = last := by
    have := hset.last.symm.trans hl
    rw [hmid', getLast?_concat] at this
    exact some.inj this
  have hmaps' : mh.maps = (pre ++ mid') ++ f :: post := by
    rw [hset.maps_eq, hmid']
    simp
  have hids' := ids_at (hmaps' ▸ h.nodup)
  refine ⟨?_, by rw [hmaps', after_at hids'.1], ⟨e, by rw [hmid]; exact mem_cons_self,
    by rw [hmaps, get_at hids.1], fun g hg => ?_⟩, f, by rw [hmid']; simp, by rw [hmaps', get_at hids'.1],
    fun g hg => ?_⟩
  · rw [segment, hmaps, dropWhile_at hids.1, ← cons_append, ← hmid, hmid', append_assoc]
    exact upTo_at fun g hg => hids'.1 g (mem_append_right _ hg)
  · rw [hmid] at hg hsm
    rcases mem_cons.mp hg with rfl | hg
    · exact le_rfl
    · have := (hsm.2.2.bounds hg).1
      have := hsm.2.1
      omega
  · rw [hmid'] at hg hsm
    obtain ⟨hs1, hs2⟩ := sorted_append.mp hsm
    rcases mem_append.mp hg with hg | hg
    · have := hs1.bounds hg
      have := hs2.1
      omega
    · rw [mem_singleton.mp hg]

/-- The set is taken out of the list, but for the special mappings where these are skipped. -/
theorem mapRemove_spec :
    ∃ mh', mapRemove mh ms = some mh' ∧ mh'.Good ∧ (mh'.start = mh.start ∧ mh'.stop = mh.stop) ∧
      mh'.maps = pre ++ (mid.filter (fun e => !removed ms e) ++ post) ∧ mh'.fresh = mh.fresh := by
  obtain ⟨f, rest, l, _, _, hf, hl⟩ := hset.ends
  obtain ⟨hseg, hafter, ⟨e1, he1, hget1, hlow⟩, e2, he2, hget2, hhigh⟩ := segment_at h hset hf hl
  have hbefore : upToPrev mh.maps ms.prev = some pre := by
    rw [hset.prev]
    rcases eq_nil_or_concat pre with rfl | ⟨pre', p, hpre⟩
    · rfl
    · rw [concat_eq_append] at hpre
      subst hpre
      have hmaps : mh.maps = pre' ++ p :: (mid ++ post) := by
        rw [hset.maps_eq, append_assoc]
        rfl
      have hids := (ids_at (hmaps ▸ h.nodup)).1
      rw [getLast?_concat, hmaps]
      show (get _ p.id).map _ = _
      rw [get_at hids, map_some, upTo_at hids]
  have hkept : (if ms.skipSpecial then (segment mh.maps f.id l.id).filter MmMap.special else []) =
      mid.filter fun e => !removed ms e := by
    rw [hseg]
    unfold removed
    cases ms.skipSpecial <;> simp
  refine ⟨{ mh with maps := pre ++ (mid.filter (fun e => !removed ms e) ++ post),
                    rover := if roverIn mh e1 e2 then ms.prev else mh.rover }, ?_, ?_, ⟨rfl, rfl⟩, rfl, rfl⟩
  · rw [mapRemove, hf, hl]
    dsimp only
    rw [hbefore, hget1, hget2, hafter]
    rw [hkept]
  have hsub := hset.kept_sublist fun e => !removed ms e
  refine ⟨h.sorted.sublist hsub, h.nodup.sublist (hsub.map _), fun e he => h.allocated e (hsub.subset he),
    fun r hr => ?_, fun e he => h.bound e (hsub.subset he)⟩
  have hprev : ms.prev = some r → ∃ e ∈ pre ++ (mid.filter (fun e => !removed ms e) ++ post), e.id = r := fun hp => by
    rw [hset.prev] at hp
    obtain ⟨e, he, rfl⟩ := map_eq_some_iff.mp hp
    exact ⟨e, mem_append_left _ (mem_of_getLast? he), rfl⟩
  cases hb : roverIn mh e1 e2 with
  | true =>
    rw [hb] at hr
    exact hprev hr
  | false =>
    rw [hb] at hr
    have hr : mh.rover = some r := hr
    obtain ⟨e, he, rfl⟩ := h.rover r hr
    have hgete : get mh.maps e.id = some e := by
      obtain ⟨a, b, hab⟩ := append_of_mem he
      rw [hab, get_at (ids_at (hab ▸ h.nodup)).1]
    have hmid : e ∉ mid := fun hm => by
      -- the rover would have been found in the set
      rw [roverIn, hr, bind_some, hgete] at hb
      exact absurd hb (by simp [hlow e hm, hhigh e hm])
    rw [hset.maps_eq, mem_append, mem_append] at he
    exact ⟨e, mem_append.mpr (he.imp_right fun he => mem_append_right _ (he.resolve_left hmid)), rfl⟩

/-- What is mapped by the mappings removed is mapped no more, and nothing else changes. -/
theorem lookup_removed (x : Nat) : lookup (pre ++ (mid.filter (fun e => !removed ms e) ++ post)) x =
      if ∃ e ∈ mid, Holds MmMap.start MmMap.stop e x ∧ removed ms e = true then none else lookup mh.maps x := by
  have hs := h.sorted
  have hsub := hset.kept_sublist fun e => !removed ms e
  have hs' := hs.sublist hsub
  cases hfind : find MmMap.start MmMap.stop mh.maps x with
  | none =>
    have hnone := find_eq_none.mp hfind
    rw [lookup, lookup, hfind, find_eq_none.mpr fun e he => hnone e (hsub.subset he)]
    split <;> rfl
  | some e =>
    obtain ⟨he, hx⟩ := find_some hfind
    by_cases hrem : e ∈ mid ∧ removed ms e = true
    · rw [if_pos ⟨e, hrem.1, hx, hrem.2⟩, lookup, find_eq_none.mpr fun f hf hfx => ?_]
      · rfl
      · -- the mapping that holds it is the one removed
        obtain rfl : f = e := some.inj ((hs.find_of_mem (hsub.subset hf) hfx).symm.trans hfind)
        have hn := h.nodup.of_map
        rw [hset.maps_eq, nodup_append, nodup_append] at hn
        rcases mem_append.mp hf with hf | hf
        · exact hn.2.2 f hf f (mem_append_left _ hrem.1) rfl
        rcases mem_append.mp hf with hf | hf
        · simpa [hrem.2] using (mem_filter.mp hf).2
        · exact hn.2.1.2.2 f hrem.1 f hf rfl
    · rw [if_neg, lookup, lookup, hfind]
      · have hin : e ∈ pre ++ (mid.filter (fun e => !removed ms e) ++ post) := by
          rw [hset.maps_eq] at he
          simp only [mem_append, mem_filter] at he ⊢
          exact he.imp_right (Or.imp_left fun he => ⟨he, by simpa using fun hr => hrem ⟨he, hr⟩⟩)
        rw [hs'.find_of_mem hin hx]
      · rintro ⟨f, hf, hfx, hfr⟩
        obtain rfl : f = e := some.inj ((hs.find_of_mem (hset.mem hf) hfx).symm.trans hfind)
        exact hrem ⟨hf, hfr⟩

end

/-! ## Creating -/

theorem lookup_iff {b x : Nat} (hs : InOrder b maps) {v : MapValue} :
    lookup maps x = some v ↔ ∃ e ∈ maps, Holds MmMap.start MmMap.stop e x ∧ e.value x = v := by
  rw [lookup, map_eq_some_iff]
  constructor
  · rintro ⟨e, hfind, hv⟩
    obtain ⟨he, hx⟩ := find_some hfind
    exact ⟨e, he, hx, hv⟩
  · rintro ⟨e, he, hx, hv⟩
    exact ⟨e, hs.find_of_mem he hx, hv⟩

/-- What a new mapping at `va` maps. -/
def MapAttr.value (attr : MapAttr) (va x : Nat) : MapValue :=
  ⟨attr.objRef, attr.offset + (x - va), attr.mmapFlags, attr.extraFlags, attr.reloc⟩

/-- Nothing was added, or one mapping, at the address asked for unless it was to be searched. -/
structure Created (mh mh' : MapHead) (oms : Option MapSet) (place : Placement) (va size : Nat) (attr : MapAttr) :
    Prop where
  good : mh'.Good
  bounds : mh'.start = mh.start ∧ mh'.stop = mh.stop
  refused : oms = none → ∀ x, lookup mh'.maps x = lookup mh.maps x
  added : ∀ ms, oms = some ms → ∃ at' pre mm post, SetAt mh'.maps ms pre [mm] post ∧
    (place.given = true → at' = va) ∧ ∀ x, lookup mh'.maps x =
      if at' ≤ x ∧ x < at' + size then some (attr.value at' x) else lookup mh.maps x

variable {place : Placement} {va size : Nat} {attr : MapAttr}


/-- The place of a mapping has been made free, and what is mapped elsewhere is as it was. -/
structure Cleared (mh mh' : MapHead) (va size : Nat) : Prop where
  good : mh'.Good
  bounds : mh'.start = mh.start ∧ mh'.stop = mh.stop
  free : Free mh'.maps size va
  lookup_eq : ∀ x, ¬ (va ≤ x ∧ x < va + size) → lookup mh'.maps x = lookup mh.maps x

theorem Cleared.add {at' : Nat} (h : Cleared mh mh' at' size) (attr : MapAttr) (hsize : 0 < size)
    (hplace : place.given = true → at' = va) :
    ∃ mh'' ms, mapAdd { mh' with fresh := mh'.fresh + 1 } (attr.entry mh'.fresh at' size) = some (mh'', ms) ∧
      Created mh mh'' (some ms) place va size attr := by
  obtain ⟨hgood, hbounds, ⟨hwrap, hout⟩, hlook⟩ := h
  obtain ⟨mh'', ms, pre, post, hadd, hgood', hset, hb, hlookup⟩ :=
    mapAdd_spec hgood (show (attr.entry mh'.fresh at' size).id = mh'.fresh from rfl)
      (by dsimp only [MapAttr.entry]; omega) (by dsimp only [MapAttr.entry]; omega) hout
  refine ⟨mh'', ms, hadd, hgood', ⟨hb.1.trans hbounds.1, hb.2.trans hbounds.2⟩, nofun, fun ms' hms => ?_⟩
  cases hms
  refine ⟨at', pre, _, post, hset, hplace, fun x => ?_⟩
  have hin : (attr.entry mh'.fresh at' size).start ≤ x ∧ x ≤ (attr.entry mh'.fresh at' size).stop ↔
      at' ≤ x ∧ x < at' + size := by
    dsimp only [MapAttr.entry]
    omega
  rw [hlookup]
  by_cases hx : at' ≤ x ∧ x < at' + size
  · rw [if_pos hx, if_pos (hin.mpr hx)]
    rfl
  · rw [if_neg hx, if_neg (hin.not.mpr hx)]
    exact hlook x hx


/-- What `map_create` has found to be replaced in a range: nothing, or a set that lies in it, with
nothing special and with nothing else of the map in the range. -/
inductive Replaces (mh : MapHead) (va size : Nat) : Option MapSet → Prop
  | nothing (free : Free mh.maps size va) : Replaces mh va size none
  | set {ms : MapSet} {pre mid post : List MmMap} (at_ : SetAt mh.maps ms pre mid post)
      (plain : ms.skipSpecial = false ∧ ∀ e ∈ mid, e.special = false) (wrap : va + size < 2 ^ 64)
      (out : ∀ e ∈ pre ++ post, Outside va (va + size - 1) e)
      (within : ∀ e ∈ mid, va ≤ e.start ∧ e.stop ≤ va + size - 1) : Replaces mh va size (some ms)


/-- What `map_create` answers: what is mapped is as it was; with EOK the place it answers is free
but for what is to be replaced. -/
structure Creates (mh mh' : MapHead) (repl : Option MapSet) (at' size : Nat) (st : MapStatus) : Prop where
  good : mh'.Good
  bounds : mh'.start = mh.start ∧ mh'.stop = mh.stop
  lookup_eq : ∀ x, lookup mh'.maps x = lookup mh.maps x
  eok : st = .eok → 0 < size ∧ Replaces mh' at' size repl

theorem Creates.refused {st : MapStatus} (h : mh.Good) (hst : st ≠ .eok) (repl : Option MapSet) (va size : Nat) :
    Creates mh mh repl va size st :=
  ⟨h, ⟨rfl, rfl⟩, fun _ => rfl, fun heok => absurd heok hst⟩

/-- What is to be replaced is removed, all of it: it lay in the range and holds nothing special. -/
theorem Creates.clear {at' : Nat} {repl : Option MapSet} {mh1 : MapHead} (h : Creates mh mh1 repl at' size .eok) :
    ∃ mh2, removeReplaced mh1 repl = some mh2 ∧ Cleared mh mh2 at' size := by
  obtain ⟨hpos, hrepl⟩ := h.eok rfl
  cases hrepl with
  | nothing free => exact ⟨mh1, rfl, h.good, h.bounds, free, fun x _ => h.lookup_eq x⟩
  | set at_ plain wrap out within =>
    obtain ⟨mh2, hrem, hgood, hb, hmaps, _⟩ := mapRemove_spec h.good at_
    have hlook := lookup_removed h.good at_
    rw [filter_removed plain.1, nil_append] at hmaps hlook
    refine ⟨mh2, hrem, hgood, ⟨hb.1.trans h.bounds.1, hb.2.trans h.bounds.2⟩, ⟨wrap, fun e he => out e (hmaps ▸ he)⟩,
      fun x hx => ?_⟩
    rw [hmaps, hlook, if_neg, h.lookup_eq]
    rintro ⟨e, he, hex, _⟩
    have := within e he
    have h1 := hex.1
    have h2 := hex.2
    omega

/-- At an address given `map_create` has the place free but for what is to be replaced, or has had no memory for
a cut, or has met a special mapping. -/
theorem createAt_spec (h : mh.Good) (mem : Bool × Bool) (hva : va % 4096 = 0) (hsz : size % 4096 = 0)
    (hpos : 0 < size) (hwrap : va + size < 2 ^ 64) :
    ∃ mh1 ms ok mh' repl st, isolateCut mh va size true false mem = some (mh1, ms, ok) ∧
      mapIsolate mh va size true false mem = some (mh', ms, if ok then .eok else .enomem) ∧
      createAt mh va size mem = some (mh', repl, va, st) ∧ mh'.Good ∧ (mh'.start = mh.start ∧ mh'.stop = mh.stop) ∧
      ((∀ x, lookup mh'.maps x = lookup mh.maps x) ↔ CutAlike mh va size true false mem) ∧
      (st = .eok ∧ Replaces mh' va size repl ∨ st = .enomem ∧ ok = false ∨
        st = .einval ∧ ok = true ∧ ∃ e ∈ mh.maps, e.special = true ∧ ¬ Outside va (va + size - 1) e) := by
  obtain ⟨mh1, ms, ok, mh', hcut, hiso, hgood, hbounds, hsame, hspec⟩ := mapIsolate_spec h va size true false mem
  have hfirst : firstPage va = va := by
    unfold firstPage
    omega
  have hlast : lastPage va size = va + size - 1 := by
    unfold lastPage
    rw [if_neg (by omega)]
    omega
  rw [hfirst, hlast] at hspec
  rw [createAt, hcut]
  cases ok with
  | false =>
    rw [hiso]
    exact ⟨mh1, ms, false, mh', none, .enomem, rfl, rfl, rfl, hgood, hbounds, hsame, .inr (.inl ⟨rfl, rfl⟩)⟩
  | true =>
    have hspec := hspec rfl
    replace hiso : mapIsolate mh va size true false mem = some (mh', ms, .eok) := hiso
    rw [hiso]
    dsimp only
    rcases hspec.set with ⟨_, hnone, hout⟩ | ⟨pre, mid, post, hset, hcut⟩
    · rw [hnone]
      exact ⟨mh1, ms, true, mh', none, .eok, rfl, rfl, rfl, hgood, hbounds, hsame,
        .inl ⟨rfl, .nothing ⟨hwrap, hout rfl⟩⟩⟩
    · obtain ⟨hout, hin⟩ := hcut rfl rfl rfl
      obtain ⟨f, _, l, _, _, hf, hl⟩ := hset.ends
      rw [hf, hl]
      dsimp only
      rw [(segment_at hspec.good hset hf hl).1]
      split
      · next hspecial =>
        -- the mapping was special before the cut as well
        obtain ⟨e, he, hs⟩ := any_eq_true.mp hspecial
        have hle := (hspec.good.sorted.bounds (hset.mem he)).2.1
        have hv := lookup_of_mem hspec.good.sorted (hset.mem he) ⟨le_rfl, hle⟩
        rw [hspec.lookup_eq] at hv
        obtain ⟨f, hf, hx, hfv⟩ := (lookup_iff h.sorted).mp hv
        have hfe : f.extraFlags = e.extraFlags := congrArg MapValue.extraFlags hfv
        have hine := hin e he
        refine ⟨mh1, ms, true, mh', none, .einval, rfl, rfl, rfl, hgood, hbounds, hsame,
          .inr (.inr ⟨rfl, rfl, f, hf, ?_, fun hout => ?_⟩)⟩
        · rw [MmMap.special, hfe]
          exact hs
        · have := hx.1
          have := hx.2
          unfold Outside at hout
          omega
      · next hspecial =>
        have hplain : ∀ e ∈ mid, e.special = false := fun e he =>
          Bool.eq_false_of_not_eq_true fun hs => hspecial (any_eq_true.mpr ⟨e, he, hs⟩)
        exact ⟨mh1, ms, true, mh', some ms, .eok, rfl, rfl, rfl, hgood, hbounds, hsame,
          .inl ⟨rfl, .set hset ⟨hspec.flags.2, hplain⟩ hwrap hout hin⟩⟩

theorem createAt_creates (h : mh.Good) (mem : Bool × Bool) (hva : va % 4096 = 0) (hsz : size % 4096 = 0)
    (hpos : 0 < size) (hwrap : va + size < 2 ^ 64) (hal : CutAlike mh va size true false mem) :
    ∃ mh' repl st, createAt mh va size mem = some (mh', repl, va, st) ∧ Creates mh mh' repl va size st := by
  obtain ⟨_, _, _, mh', repl, st, _, _, hc, hgood, hbounds, hsame, hst⟩ := createAt_spec h mem hva hsz hpos hwrap
  refine ⟨mh', repl, st, hc, hgood, hbounds, hsame.mpr hal, fun heok => ⟨hpos, ?_⟩⟩
  rcases hst with ⟨_, hrepl⟩ | ⟨rfl, _⟩ | ⟨rfl, _⟩
  · exact hrepl
  · cases heok
  · cases heok

/-- What the callers see to: ranges of whole pages that do not wrap, and no colours. -/
def Placeable (place : Placement) (va size : Nat) : Prop :=
  va % 4096 = 0 ∧ size % 4096 = 0 ∧ va < 2 ^ 64 ∧ size < 2 ^ 64 ∧
    match place with
    | .fixed => True
    | .global => 0 < size ∧ va + size < 2 ^ 64
    | .search mask _ => 0 < size ∧ mask ≤ 1

instance (place : Placement) (va size : Nat) : Decidable (Placeable place va size) := by
  unfold Placeable
  cases place <;> infer_instance

theorem mapCreate_spec {pgszlist : List Nat} (hpg : PageSizes pgszlist) (h : mh.Good)
    (hmh : mh.start < 2 ^ 64 ∧ mh.stop + 1 < 2 ^ 64) (mem : Bool × Bool × Bool)
    (hplace : Placeable place va size) (hal : place.given = true → CutAlike mh va size true false mem.2) :
    ∃ mh' repl at' st, mapCreate pgszlist mh place va size mem = some (mh', repl, at', st) ∧
      Creates mh mh' repl at' size st ∧ (place.given = true → at' = va) := by
  obtain ⟨hva, hsz, hva', hsz', hwrap⟩ := hplace
  unfold mapCreate
  rw [if_neg (by omega)]
  by_cases hmem : mem.1 = false
  · rw [if_pos hmem]
    exact ⟨mh, none, va, _, rfl, .refused h (by decide) none va size, fun _ => rfl⟩
  rw [if_neg hmem]
  cases place with
  | global =>
    obtain ⟨mh', repl, st, hc, hspec⟩ := createAt_creates h mem.2 hva hsz hwrap.1 hwrap.2 (hal rfl)
    exact ⟨mh', repl, va, st, hc, hspec, fun _ => rfl⟩
  | fixed =>
    dsimp only
    split
    · exact ⟨mh, none, va, _, rfl, .refused h (by decide) none va size, fun _ => rfl⟩
    · split
      · exact ⟨mh, none, va, _, rfl, .refused h (by decide) none va size, fun _ => rfl⟩
      · next hend =>
        -- the last address is in the map, so the range does not wrap
        have hfits : 0 < size ∧ va + size < 2 ^ 64 := by
          unfold wrapSub wrap at hend
          omega
        obtain ⟨mh', repl, st, hc, hspec⟩ := createAt_creates h mem.2 hva hsz hfits.1 hfits.2 (hal rfl)
        exact ⟨mh', repl, va, st, hc, hspec, fun _ => rfl⟩
  | search mask below =>
    dsimp only
    cases hfind : mapFindVa pgszlist mh ⟨va, size, mask, below⟩ with
    | none => exact ⟨mh, none, va, _, rfl, .refused h (by decide) none va size, fun _ => rfl⟩
    | some v =>
      have ha : Asked mh ⟨va, size, mask, below⟩ := ⟨⟨hwrap.1, hsz', hsz⟩, hva', by dsimp only; omega, by omega⟩
      have hfree := mapFindVa_free hpg ha hwrap.2 hmh (fun e he => h.bound e he) h.sorted hfind
      exact ⟨mh, none, v, .eok, rfl, ⟨h, ⟨rfl, rfl⟩, fun _ => rfl, fun _ => ⟨hwrap.1, .nothing hfree⟩⟩, nofun⟩

/-- `map_create` comes to the call of `map_isolate`. -/
def Isolates (mh : MapHead) (place : Placement) (va size : Nat) (mem : Bool) : Prop :=
  mem = true ∧ place.given = true ∧ (place = .fixed → (mh.start ≤ va ∧ va < mh.stop) ∧
    wrapSub (va + size) 1 ≤ mh.stop ∧ va ≤ wrapSub (va + size) 1)

/-- There is memory for the cuts and nothing special in the range, or there is none and what is then merged
is alike. -/
def Spared (mh : MapHead) (va size : Nat) (mem : Bool × Bool) : Prop :=
  ∀ r ∈ isolateCut mh va size true false mem,
    if r.2.2 = true then ∀ e ∈ mh.maps, e.special = true → Outside va (va + size - 1) e else JoinAlike r.1 r.2.1

instance Spared.decidable (mh : MapHead) (va size : Nat) (mem : Bool × Bool) : Decidable (Spared mh va size mem) :=
  have (e : MmMap) : Decidable (Outside va (va + size - 1) e) := inferInstanceAs (Decidable (_ ∨ _))
  inferInstanceAs (Decidable (∀ r ∈ isolateCut mh va size true false mem, if r.2.2 = true then _ else _))

theorem createAt_undone (h : mh.Good) (mem : Bool × Bool) (hva : va % 4096 = 0) (hsz : size % 4096 = 0) (hpos : 0 < size)
    (hwrap : va + size < 2 ^ 64) (new : Nat) (free : List Nat) {repl : Option MapSet} {at' : Nat} {st : MapStatus}
    (hc : createAt mh va size mem = some (mh', repl, at', st)) (herr : st ≠ .eok) :
    ((mapIsolate mh va size true false mem).map (fun r => if r.2.2 = .eok then free else new :: free) =
        some (new :: free) ∧ ∀ x, lookup mh'.maps x = lookup mh.maps x) ↔ Spared mh va size mem := by
  obtain ⟨mh1, ms, ok, mh2, repl', st', hcut, hiso, hc', _, _, hsame, hst⟩ := createAt_spec h mem hva hsz hpos hwrap
  rw [hc] at hc'
  cases hc'
  rw [hsame, hiso, Spared, CutAlike, hcut]
  rcases hst with ⟨rfl, _⟩ | ⟨rfl, rfl⟩ | ⟨rfl, rfl, e, he, hs, hout⟩
  · exact absurd rfl herr
  · simp
  · simp only [if_true, Option.map_some, Option.some.injEq, Option.mem_some_iff, forall_eq']
    exact iff_of_false (fun hpool => by simpa using congrArg length hpool.1) fun hplain => hout (hplain e he hs)

/-- On an error `map_create` has put its entry back, and what is mapped is as it was, exactly if it did not come
to `map_isolate`, or there was memory for the cuts and nothing special in the range, or there was none and what
the joining has merged was alike. -/
theorem mapCreate_undone (pgszlist : List Nat) (mh : MapHead) (h : mh.Good) (hstop : mh.stop + 1 < 2 ^ 64)
    (place : Placement) (va size : Nat) (hva : va < 2 ^ 64) (hsize : size < 2 ^ 64)
    (hglobal : place = .global → 0 < size ∧ va + size < 2 ^ 64) (mem : Bool × Bool × Bool)
    (new : Nat) (free : List Nat) (mh' : MapHead) (repl : Option MapSet) (at' : Nat) (st : MapStatus)
    (hcreate : mapCreate pgszlist mh place va size mem = some (mh', repl, at', st)) (herr : st ≠ .eok) :
    (createPool pgszlist mh place va size mem new free = some (new :: free) ∧
      ∀ x, lookup mh'.maps x = lookup mh.maps x) ↔
    (Isolates mh place va size mem.1 → Spared mh va size mem.2) := by
  unfold mapCreate at hcreate
  unfold createPool
  split at hcreate
  · cases hcreate
  next hpage =>
  split at hcreate
  · next hmem =>
    cases hcreate
    rw [if_pos hmem]
    exact iff_of_true ⟨rfl, fun _ => rfl⟩ fun hi => absurd (hi.1.symm.trans hmem) (by decide)
  next hmem =>
  rw [if_neg hmem]
  have hmem : mem.1 = true := by simpa using hmem
  cases place with
  | global =>
    obtain ⟨hpos, hwrap⟩ := hglobal rfl
    rw [forall_prop_of_true (show Isolates mh .global va size mem.1 from ⟨hmem, rfl, nofun⟩)]
    exact createAt_undone h mem.2 (by omega) (by omega) hpos hwrap new free hcreate herr
  | fixed =>
    dsimp only at hcreate ⊢
    split at hcreate
    · next hin =>
      cases hcreate
      rw [if_pos (by omega)]
      exact iff_of_true ⟨rfl, fun _ => rfl⟩ fun hi => by have := (hi.2.2 rfl).1; omega
    split at hcreate
    · next hend =>
      cases hcreate
      rw [if_pos (by omega)]
      exact iff_of_true ⟨rfl, fun _ => rfl⟩ fun hi => by have := (hi.2.2 rfl).2; omega
    next hin hend =>
    rw [if_neg (by omega), forall_prop_of_true (show Isolates mh .fixed va size mem.1 from
      ⟨hmem, rfl, fun _ => ⟨by omega, by omega⟩⟩)]
    have hfits : 0 < size ∧ va + size < 2 ^ 64 := by
      unfold wrapSub wrap at hend
      omega
    exact createAt_undone h mem.2 (by omega) (by omega) hfits.1 hfits.2 new free hcreate herr
  | search mask below =>
    dsimp only at hcreate ⊢
    split at hcreate
    · next hfind =>
      cases hcreate
      rw [hfind]
      exact iff_of_true ⟨rfl, fun _ => rfl⟩ nofun
    · cases hcreate
      exact absurd rfl herr

/-- A page that is special. -/
def specialPage : MapHead := ⟨[⟨0, none, 0, 0x5000, 0x5fff, 0, 0, 0x100, 0⟩], none, 0x1000, 0xfffff, 1⟩

/-- Two mappings, one of them to be cut at both ends. -/
def wideMap : MapHead := ⟨[⟨0, none, 0, 0x4000, 0x8fff, 0, 0, 0, 0⟩, ⟨1, none, 0, 0x9000, 0x9fff, 5, 0, 1, 0⟩], none, 0x1000,
  0xfffff, 2⟩

/-- There is memory for the first cut only: the two halves are joined again. -/
theorem mapCreate_undone_cut : ∃ mh' repl at',
    mapCreate [4096] wideMap .fixed 0x5000 0x1000 (true, true, false) = some (mh', repl, at', .enomem) ∧
    createPool [4096] wideMap .fixed 0x5000 0x1000 (true, true, false) 7 [8] = some [7, 8] ∧
    ∀ x, lookup mh'.maps x = lookup wideMap.maps x := by
  have hgood : wideMap.Good :=
    ⟨⟨by decide, by decide, by decide, by decide, trivial⟩, by decide, by decide, nofun, by decide⟩
  refine ⟨_, none, 0x5000, rfl, ?_⟩
  exact (mapCreate_undone [4096] wideMap hgood (by decide) .fixed 0x5000 0x1000 (by decide) (by decide) nofun
    (true, true, false) 7 [8] _ none 0x5000 .enomem rfl (by decide)).mpr fun _ => by decide

/-- The entry for a mapping in place of a special one is lost. -/
theorem mapCreate_loses_entry : (mapCreate [4096] specialPage .fixed 0x5000 0x1000 (true, true, true)).map
      (fun (_, _, _, st) => st) = some .einval ∧
    createPool [4096] specialPage .fixed 0x5000 0x1000 (true, true, true) 7 [8] = some [8] := by
  decide

theorem createAndAdd_spec {pgszlist : List Nat} (hpg : PageSizes pgszlist) (h : mh.Good)
    (hmh : mh.start < 2 ^ 64 ∧ mh.stop + 1 < 2 ^ 64) (attr : MapAttr) (mem : Bool × Bool × Bool)
    (hplace : Placeable place va size) (hal : place.given = true → CutAlike mh va size true false mem.2) :
    ∃ mh' oms, createAndAdd pgszlist mh place va size attr mem = some (mh', oms) ∧
      Created mh mh' oms place va size attr := by
  obtain ⟨mh1, repl, at', st, hc, hspec, hat⟩ := mapCreate_spec hpg h hmh mem hplace hal
  unfold createAndAdd
  rw [hc]
  cases st with
  | eok =>
    obtain ⟨mh2, hrem, hclear⟩ := hspec.clear
    obtain ⟨mh', ms, hadd, hcreated⟩ := hclear.add attr (hspec.eok rfl).1 hat
    refine ⟨mh', some ms, ?_, hcreated⟩
    rw [bind_some, addCreated, hrem, bind_eq_bind, bind_some, hadd]
    rfl
  | enomem | einval => exact ⟨mh1, none, rfl, hspec.good, hspec.bounds, fun _ => hspec.lookup_eq, nofun⟩

/-! ## Runs -/

/-- The map, and the sets the calls have handed out so far. -/
structure Space where
  mh : MapHead
  sets : List MapSet
  deriving DecidableEq, Repr

def noSet : MapSet := ⟨none, none, none, false, false⟩

def Space.boot (start stop : Nat) : Space := ⟨mapInit start stop, []⟩

/-- The set of the `n`-th call that handed out one. -/
def Space.set (s : Space) (n : Nat) : MapSet := s.sets[n]?.getD noSet

inductive MapOp
  | add (place : Placement) (va size : Nat) (attr : MapAttr) (mem : Bool × Bool × Bool)
  | isolate (start size : Nat) (split next : Bool) (mem : Bool × Bool)
  | coalese (n : Nat)
  | remove (n : Nat) (skipSpecial : Bool)
  deriving DecidableEq, Repr

/-- The set of a call that did not fail. -/
def MapSet.usable (ms : MapSet) : MapStatus → MapSet
  | .eok => ms
  | _ => noSet

def Space.step (pgszlist : List Nat) (s : Space) : MapOp → Option Space
  | .add place va size attr mem =>
    (createAndAdd pgszlist s.mh place va size attr mem).map fun (mh, oms) => ⟨mh, s.sets ++ [oms.getD noSet]⟩
  | .isolate start size split next mem =>
    (mapIsolate s.mh start size split next mem).map fun (mh, ms, st) => ⟨mh, s.sets ++ [ms.usable st]⟩
  | .coalese n => (mapCoalese s.mh (s.set n)).map fun mh => ⟨mh, s.sets⟩
  | .remove n skipSpecial =>
    (mapRemove s.mh { s.set n with skipSpecial := skipSpecial }).map fun mh => ⟨mh, s.sets⟩

/-- The set is a part of the list as it is now, and its cached previous mapping the one before that. -/
def MapSet.Current (ms : MapSet) (maps : List MmMap) : Prop := ∃ pre mid post, SetAt maps ms pre mid post

instance MapSet.decidableCurrent (ms : MapSet) (maps : List MmMap) : Decidable (ms.Current maps) :=
  have (pre mid post : List MmMap) : Decidable (SetAt maps ms pre mid post) :=
    decidable_of_iff (maps = pre ++ (mid ++ post) ∧ mid ≠ [] ∧ ms.first = mid.head?.map MmMap.id ∧
        ms.last = mid.getLast?.map MmMap.id ∧ ms.prev = pre.getLast?.map MmMap.id)
      ⟨fun ⟨h1, h2, h3, h4, h5⟩ => ⟨h1, h2, h3, h4, h5⟩, fun h => ⟨h.1, h.2, h.3, h.4, h.5⟩⟩
  decidable_of_iff (∃ i ∈ range (maps.length + 1), ∃ j ∈ range (maps.length + 1),
      SetAt maps ms (maps.take i) ((maps.drop i).take j) ((maps.drop i).drop j))
    ⟨fun ⟨_, _, _, _, h⟩ => ⟨_, _, _, h⟩, fun ⟨pre, mid, post, h⟩ => by
      have hmaps := h.maps_eq
      refine ⟨pre.length, by simp [hmaps], mid.length, by simp [hmaps]; omega, ?_⟩
      rw [hmaps] at h ⊢
      simpa using h⟩

/-- When a call does as it should: its range does not wrap; what it joins (a cut that fails joins
what it has cut) has the same relocation; a set that is removed, or that was cut out and is
joined, is a part of the list as it is. -/
def Proper (s : Space) : MapOp → Prop
  | .add place va size _ mem =>
    Placeable place va size ∧ (place.given = true → CutAlike s.mh va size true false mem.2)
  | .isolate start size split next mem => start + size < 2 ^ 64 ∧ CutAlike s.mh start size split next mem
  | .coalese n => (s.set n).split = true → (s.set n).Current s.mh.maps ∧ JoinAlike s.mh (s.set n)
  | .remove n _ => (s.set n).Current s.mh.maps

instance (s : Space) (op : MapOp) : Decidable (Proper s op) := by
  cases op <;> unfold Proper <;> infer_instance

/-- The mappings of a set. -/
def Space.chosen (s : Space) (n : Nat) : List MmMap :=
  match (s.set n).first, (s.set n).last with
  | some first, some last => segment s.mh.maps first last
  | _, _ => []

/-- What a call does to the function from addresses to what is mapped there. A set handed out is empty or a
part of the list. -/
def Effect (s : Space) (op : MapOp) (s' : Space) : Prop :=
  match op with
  | .add place va size attr _ => ∃ ms, s'.sets = s.sets ++ [ms] ∧
    (ms.first = none ∧ (∀ x, lookup s'.mh.maps x = lookup s.mh.maps x) ∨
      ms.Current s'.mh.maps ∧ ∃ at', (place.given = true → at' = va) ∧ ∀ x, lookup s'.mh.maps x =
        if at' ≤ x ∧ x < at' + size then some (attr.value at' x) else lookup s.mh.maps x)
  | .isolate .. => (∃ ms, s'.sets = s.sets ++ [ms] ∧ (ms.first = none ∨ ms.Current s'.mh.maps)) ∧
    ∀ x, lookup s'.mh.maps x = lookup s.mh.maps x
  | .coalese _ => ∀ x, lookup s'.mh.maps x = lookup s.mh.maps x
  | .remove n skipSpecial => ∀ x, lookup s'.mh.maps x =
      if ∃ e ∈ s.chosen n, Holds MmMap.start MmMap.stop e x ∧ (skipSpecial && e.special) = false then none
      else lookup s.mh.maps x

structure Space.Inv (s : Space) : Prop where
  good : s.mh.Good
  bounds : s.mh.start < 2 ^ 64 ∧ s.mh.stop + 1 < 2 ^ 64

theorem boot_inv {start stop : Nat} (hstart : start < 2 ^ 64) (hstop : stop + 1 < 2 ^ 64) :
    (Space.boot start stop).Inv :=
  ⟨⟨trivial, nodup_nil, nofun, nofun, nofun⟩, hstart, hstop⟩

variable {pgszlist : List Nat} {s : Space}

theorem Space.Inv.next {sets : List MapSet} (h : s.Inv) (hgood : mh'.Good)
    (hb : mh'.start = s.mh.start ∧ mh'.stop = s.mh.stop) : (⟨mh', sets⟩ : Space).Inv :=
  ⟨hgood, by rw [hb.1, hb.2]; exact h.bounds⟩

theorem add_step (hpg : PageSizes pgszlist) (h : s.Inv) {mem : Bool × Bool × Bool}
    (hop : Proper s (.add place va size attr mem)) :
    ∃ s', s.step pgszlist (.add place va size attr mem) = some s' ∧ s'.Inv ∧
      Effect s (.add place va size attr mem) s' := by
  obtain ⟨mh', oms, hadd, hc⟩ := createAndAdd_spec hpg h.good h.bounds attr mem hop.1 hop.2
  refine ⟨⟨mh', s.sets ++ [oms.getD noSet]⟩, by rw [Space.step, hadd]; rfl, h.next hc.good hc.bounds, _, rfl, ?_⟩
  cases oms with
  | none => exact .inl ⟨rfl, hc.refused rfl⟩
  | some ms =>
    obtain ⟨at', pre, mm, post, hset, hplace, hlook⟩ := hc.added ms rfl
    exact .inr ⟨⟨pre, [mm], post, hset⟩, at', hplace, hlook⟩

theorem isolate_step (h : s.Inv) {start size : Nat} {split next : Bool} {mem : Bool × Bool}
    (hop : Proper s (.isolate start size split next mem)) :
    ∃ s', s.step pgszlist (.isolate start size split next mem) = some s' ∧ s'.Inv ∧
      Effect s (.isolate start size split next mem) s' := by
  obtain ⟨_, ms, ok, mh', _, hiso, hgood, hb, hsame, hspec⟩ := mapIsolate_spec h.good start size split next mem
  refine ⟨⟨mh', s.sets ++ [ms.usable (if ok then .eok else .enomem)]⟩, by rw [Space.step, hiso]; rfl,
    h.next hgood hb, ⟨_, rfl, ?_⟩, hsame.mpr hop.2⟩
  cases ok with
  | true => exact (hspec rfl).set.imp (fun h => h.2.1) fun ⟨pre, mid, post, hset, _⟩ => ⟨pre, mid, post, hset⟩
  | false => exact .inl rfl

theorem coalese_step (h : s.Inv) {n : Nat} (hop : Proper s (.coalese n)) :
    ∃ s', s.step pgszlist (.coalese n) = some s' ∧ s'.Inv ∧ Effect s (.coalese n) s' := by
  by_cases hsplit : (s.set n).split = true
  · obtain ⟨⟨pre, mid, post, hset⟩, hal⟩ := hop hsplit
    obtain ⟨mh', hco, hj⟩ := mapCoalese_spec h.good hset
    exact ⟨⟨mh', s.sets⟩, by rw [Space.step, hco]; rfl, h.next hj.good hj.bounds, hj.same.mpr hal⟩
  · refine ⟨s, ?_, h, fun _ => rfl⟩
    rw [Space.step, mapCoalese, if_neg hsplit]
    rfl

theorem remove_step (h : s.Inv) {n : Nat} {skipSpecial : Bool} (hop : Proper s (.remove n skipSpecial)) :
    ∃ s', s.step pgszlist (.remove n skipSpecial) = some s' ∧ s'.Inv ∧ Effect s (.remove n skipSpecial) s' := by
  obtain ⟨pre, mid, post, hset⟩ := hop
  have hset' : SetAt s.mh.maps { s.set n with skipSpecial := skipSpecial } pre mid post :=
    ⟨hset.maps_eq, hset.nonempty, hset.first, hset.last, hset.prev⟩
  obtain ⟨f, _, l, _, _, hf, hl⟩ := hset.ends
  obtain ⟨hseg, _⟩ := segment_at h.good hset hf hl
  obtain ⟨mh', hrem, hgood, hb, hmaps, _⟩ := mapRemove_spec h.good hset'
  refine ⟨⟨mh', s.sets⟩, by rw [Space.step, hrem]; rfl, h.next hgood hb, fun x => ?_⟩
  have hchosen : s.chosen n = mid := by
    rw [Space.chosen, hf, hl]
    exact hseg
  rw [hmaps, lookup_removed h.good hset', hchosen]
  simp only [removed, Bool.not_eq_true']

theorem Space.Inv.step (hpg : PageSizes pgszlist) (h : s.Inv) {op : MapOp} (hop : Proper s op) :
    ∃ s', s.step pgszlist op = some s' ∧ s'.Inv ∧ Effect s op s' := by
  cases op with
  | add => exact add_step hpg h hop
  | isolate => exact isolate_step h hop
  | coalese => exact coalese_step h hop
  | remove => exact remove_step h hop

/-- In every run whose calls meet the condition no call fails, the list is in order and disjoint,
the rover is in it or NULL, and each call does to the mapped addresses what it says. -/
theorem map_kept (pgszlist : List Nat) (hpg : PageSizes pgszlist) (start stop : Nat) (hstart : start < 2 ^ 64)
    (hstop : stop + 1 < 2 ^ 64) (ops : List MapOp)
    (hops : Run.Along (Space.step pgszlist) Proper ops (Space.boot start stop)) :
    ∃ s, Run.exec (Space.step pgszlist) ops (Space.boot start stop) = some s ∧ InOrder 0 s.mh.maps ∧
      (∀ r, s.mh.rover = some r → ∃ mm ∈ s.mh.maps, mm.id = r) ∧
      ∀ op, Proper s op → ∃ s', s.step pgszlist op = some s' ∧ Effect s op s' := by
  have hstep : ∀ {s : Space} {op : MapOp}, s.Inv → Proper s op → ∃ s', s.step pgszlist op = some s' ∧ s'.Inv :=
    fun h hop => (h.step hpg hop).imp fun _ hs => ⟨hs.1, hs.2.1⟩
  obtain ⟨s, hrun, hinv⟩ := Run.total hstep (boot_inv hstart hstop) hops
  exact ⟨s, hrun, hinv.good.sorted, hinv.good.rover, fun op hop =>
    (hinv.step hpg hop).imp fun _ hs => ⟨hs.1, hs.2.2⟩⟩

/-- A mapping of object 1 from `offset` on. -/
def objectAt (offset reloc : Int) : MapAttr := ⟨some 1, offset, reloc, 0x10002, 0, 0⟩

/-- Two mappings of an object are made next to each other, the second is cut in two, its upper
half removed, and what is left joined by a set made before that. -/
def cutAndJoin : List MapOp :=
  [.add .fixed 0x10000 0x1000 (objectAt 0 0) (true, true, true),
   .add .fixed 0x11000 0x2000 (objectAt 0x1000 0) (true, true, true),
   .isolate 0x12000 0x1000 true false (true, true),
   .isolate 0x10000 0x2000 true false (true, true),
   .remove 2 true,
   .coalese 3]

theorem map_kept_cut : ∃ s, Run.exec (Space.step [4096]) cutAndJoin (Space.boot 0x1000 0xfffff) = some s ∧
    InOrder 0 s.mh.maps ∧ (∀ r, s.mh.rover = some r → ∃ mm ∈ s.mh.maps, mm.id = r) ∧
    ∀ op, Proper s op → ∃ s', s.step [4096] op = some s' ∧ Effect s op s' := by
  have hops : Run.Along (Space.step [4096]) Proper cutAndJoin (Space.boot 0x1000 0xfffff) := by decide +kernel
  exact map_kept [4096] ⟨by decide, by decide, by decide⟩ 0x1000 0xfffff (by decide) (by decide) cutAndJoin hops

/-- Two neighbours that map one object contiguously, with relocations 5 and 0. -/
def relocated : List MapOp :=
  [.add .fixed 0x10000 0x1000 (objectAt 0 5) (true, true, true),
   .add .fixed 0x11000 0x1000 (objectAt 0x1000 0) (true, true, true)]

/-- Joining the two gives the second the relocation of the first. -/
theorem coalese_loses_reloc : ∃ s s', Run.exec (Space.step [4096]) relocated (Space.boot 0x1000 0xfffff) = some s ∧
    s.step [4096] (.coalese 1) = some s' ∧ lookup s.mh.maps 0x11000 = some ⟨some 1, 0x1000, 0x10002, 0, 0⟩ ∧
    lookup s'.mh.maps 0x11000 = some ⟨some 1, 0x1000, 0x10002, 0, 5⟩ :=
  ⟨_, _, rfl, rfl, by decide +kernel, by decide +kernel⟩

end QRV.Mem
