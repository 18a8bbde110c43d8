import QRV.Mem.MapOps

/- What `map_isolate` cuts out of the map: nothing that is mapped changes, and the set it
   makes is the part of the list that meets the range, with its ends cut to the range if that
   is asked for (`isolateCut_spec`). A call without memory for a cut joins the set again
   (`mapIsolate_spec`). -/
namespace QRV.Mem
open List Option
open Ranges

variable {maps pre mid post rest : List MmMap} {mm : MmMap} {mh mh' : MapHead} {ms : MapSet} {start b : Nat}
  {s : Isolated}

/-! ## The search -/

theorem getLast?_cons_or (mm : MmMap) (l : List MmMap) (p : Option MmMap) :
    (mm :: l).getLast?.or p = l.getLast?.or (some mm) := by
  cases l with
  | nil => rfl
  | cons e l => rw [getLast?_cons_cons, getLast?_eq_getLast_of_ne_nil (cons_ne_nil _ _)]; rfl

theorem isolateNote_off (h : ¬ (s.first = none ∧ start ≤ mm.stop)) : isolateNote start s mm = s := if_neg h

/-- Behind the first mapping of the set the search only looks for its end. -/
theorem isolateLoop_found {first : Nat} (start : Nat) (rest : List MmMap) (s : Isolated) (hf : s.first = some first)
    (hn : s.next = false) :
    ∃ mid post, rest = mid ++ post ∧ isolateLoop start rest s = { s with prev := mid.getLast?.or s.prev } ∧
      (∀ e ∈ mid, e.start ≤ s.stop) ∧ ∀ e ∈ post.head?, s.stop < e.start := by
  induction rest generalizing s with
  | nil => exact ⟨[], [], rfl, rfl, nofun, nofun⟩
  | cons mm rest ih =>
    rw [isolateLoop, isolateNote_off (fun h => nomatch hf.symm.trans h.1)]
    by_cases hstop : s.stop < mm.start
    · rw [if_pos ⟨hn, hstop⟩]
      refine ⟨[], mm :: rest, rfl, rfl, nofun, fun e he => ?_⟩
      cases he
      exact hstop
    · rw [if_neg fun h => hstop h.2]
      obtain ⟨mid, post, rfl, hloop, hmid, hpost⟩ := ih { s with prev := some mm } hf hn
      refine ⟨mm :: mid, post, rfl, ?_, forall_mem_cons.mpr ⟨Nat.le_of_not_lt hstop, hmid⟩, hpost⟩
      rw [hloop, getLast?_cons_or]

/-- What the search finds in a part of the list, all before it ending before `start`. -/
def Found (start : Nat) (rest : List MmMap) (s r : Isolated) : Prop :=
  ∃ pre mm mid post, rest = pre ++ (mm :: mid ++ post) ∧ (∀ e ∈ pre, e.stop < start) ∧ start ≤ mm.stop ∧
    (∀ e ∈ mm :: mid, e.start ≤ r.stop) ∧ (∀ e ∈ post.head?, r.stop < e.start) ∧ start ≤ r.stop ∧
    r.first = some mm.id ∧ r.prev = (mm :: mid).getLast? ∧
    r.setPrev = (pre.getLast?.or s.prev).map MmMap.id ∧ (r.rover = s.rover ∨ r.rover = r.setPrev) ∧
    (r.stop = s.stop ∨ s.next = true ∧ r.stop = mm.stop)

theorem isolateLoop_search (hs : InOrder b rest) (hf : s.first = none) (hsp : s.setPrev = none)
    (hstop : start ≤ s.stop) :
    ((isolateLoop start rest s).first = none ∧ (isolateLoop start rest s).rover = s.rover ∧
      (s.next = false → ∀ e ∈ rest, e.stop < start ∨ s.stop < e.start)) ∨
    Found start rest s (isolateLoop start rest s) := by
  induction rest generalizing s b with
  | nil => exact .inl ⟨hf, rfl, nofun⟩
  | cons mm rest ih =>
    obtain ⟨hlo, hle, hrest⟩ := hs
    by_cases hreach : start ≤ mm.stop
    · -- the first mapping that does not end before `start`
      obtain ⟨stop', hstop'⟩ : ∃ stop', stop' = if s.next ∧ s.stop < mm.start then mm.stop else s.stop := ⟨_, rfl⟩
      have hkeep : stop' = s.stop ∨ s.next = true ∧ stop' = mm.stop := by
        rw [hstop']
        split
        · next h => exact .inr ⟨h.1, rfl⟩
        · exact .inl rfl
      have hmore : s.stop ≤ stop' := by
        rw [hstop']
        split <;> omega
      by_cases hin : mm.start ≤ stop'
      · -- it meets the range: the set starts here
        obtain ⟨sp, rv, hnote, hsp', hrv⟩ : ∃ sp rv, isolateNote start s mm =
            { s with first := some mm.id, setPrev := sp, rover := rv, stop := stop', next := false } ∧
            s.prev.map MmMap.id = sp ∧ (rv = s.rover ∨ rv = sp) := by
          rw [isolateNote, if_pos ⟨hf, hreach⟩, ← hstop']
          cases hprev : s.prev with
          | none => exact ⟨none, s.rover, by rw [if_pos hin, ← hsp], rfl, .inl rfl⟩
          | some p => exact ⟨some p.id, some p.id, by rw [if_pos hin], rfl, .inr rfl⟩
        rw [isolateLoop, hnote]
        dsimp only
        rw [if_neg (by omega)]
        obtain ⟨mid, post, rfl, hloop, hmid, hpost⟩ :=
          isolateLoop_found start rest ⟨some mm, some mm.id, sp, rv, stop', false⟩ rfl rfl
        refine .inr ⟨[], mm, mid, post, rfl, nofun, hreach, ?_⟩
        rw [hloop]
        refine ⟨forall_mem_cons.mpr ⟨hin, hmid⟩, hpost, hstop.trans hmore, rfl, ?_, hsp'.symm, hrv, hkeep⟩
        rw [← getLast?_cons_or mm mid none, or_none]
      · -- it is behind the range, and so is all that follows
        have hnn : s.next = false := by
          cases hn : s.next with
          | false => rfl
          | true =>
            simp only [hn, true_and] at hstop'
            split at hstop' <;> omega
        have hsame : stop' = s.stop := hkeep.resolve_right fun h => nomatch hnn.symm.trans h.1
        have hnote : isolateNote start s mm = { s with stop := s.stop, next := false } := by
          rw [isolateNote, if_pos ⟨hf, hreach⟩, ← hstop', if_neg hin, hsame]
        have hlt : s.stop < mm.start := by
          rw [← hsame]
          omega
        rw [isolateLoop, hnote]
        rw [if_pos ⟨rfl, hlt⟩]
        refine .inl ⟨hf, rfl, fun _ => forall_mem_cons.mpr ⟨.inr hlt, fun e he => .inr ?_⟩⟩
        have := (hrest.bounds he).1
        omega
    · -- it ends before `start`
      rw [isolateLoop, isolateNote_off fun h => hreach h.2, if_neg (by omega)]
      rcases ih (s := { s with prev := some mm }) hrest hf hsp hstop with
        ⟨h1, h2, h3⟩ | ⟨pre, e, mid, post, rfl, hpre, h1, h2, h3, h4, h5, h6, h7, h8, h9⟩
      · exact .inl ⟨h1, h2, fun hn => forall_mem_cons.mpr ⟨.inl (by omega), h3 hn⟩⟩
      · refine .inr ⟨mm :: pre, e, mid, post, rfl, forall_mem_cons.mpr ⟨by omega, hpre⟩, h1, h2, h3, h4, h5, h6, ?_, h8, h9⟩
        rw [h7, getLast?_cons_or]

theorem isolateFrom_spec (h : mh.Good) (start : Nat) :
    ∃ before rest, isolateFrom mh start = some (before.getLast?, rest) ∧ mh.maps = before ++ rest ∧
      ∀ e ∈ before, e.stop < start := by
  have hhead : ∃ before rest, some ((none : Option MmMap), mh.maps) = some (before.getLast?, rest) ∧
      mh.maps = before ++ rest ∧ ∀ e ∈ before, e.stop < start :=
    ⟨[], mh.maps, rfl, rfl, nofun⟩
  unfold isolateFrom
  cases hr : mh.rover with
  | none => exact hhead
  | some r =>
    obtain ⟨p, hp, rfl⟩ := h.rover r hr
    obtain ⟨pre, post, hmaps⟩ := append_of_mem hp
    have hids := ids_at (hmaps ▸ h.nodup)
    have hafter : after mh.maps p.id = some post := by rw [hmaps, after_at hids.1]
    have hget : get mh.maps p.id = some p := by rw [hmaps, get_at hids.1]
    dsimp only
    rw [hafter, hget]
    cases post with
    | nil => exact hhead
    | cons mm rest =>
      dsimp only
      split
      · exact hhead
      · next hle =>
        refine ⟨pre ++ [p], mm :: rest, by rw [getLast?_concat], by rw [hmaps, append_assoc]; rfl,
          fun e he => ?_⟩
        -- all of it is before the mapping behind the rover
        have hs := h.sorted
        rw [hmaps, show pre ++ p :: mm :: rest = (pre ++ [p]) ++ mm :: rest by rw [append_assoc]; rfl] at hs
        obtain ⟨hpre, hmm, _⟩ := sorted_append.mp hs
        have := (hpre.bounds he).2.2
        omega

/-! ## The cuts -/

/-- A mapping that does not meet the range. -/
def Outside (start stop : Nat) (e : MmMap) : Prop := e.stop < start ∨ stop < e.start

theorem cut_first (h : mh.Good) (hset : SetAt mh.maps ms pre (mm :: mid) post) (start : Nat) {last : Nat}
    (hlast : ms.last = some last) :
    SetAt (splitOne mh.maps mm.id start mh.fresh)
      { ms with prev := some mm.id, first := some mh.fresh, last := some (if mm.id = last then mh.fresh else last) }
      (pre ++ [mm.lower start]) (mm.upper start mh.fresh :: mid) post := by
  have hmaps : mh.maps = pre ++ mm :: (mid ++ post) := hset.maps_eq
  have hids := ids_at (hmaps ▸ h.nodup)
  refine ⟨?_, cons_ne_nil _ _, rfl, ?_, ?_⟩
  · rw [hmaps, splitOne_at hids.1 hids.2, append_assoc]
    rfl
  · have hl := hset.last.symm.trans hlast
    cases mid with
    | nil =>
      have hid : mm.id = last := some.inj hl
      show some (if mm.id = last then mh.fresh else last) = some mh.fresh
      rw [if_pos hid]
    | cons e mid =>
      have hid : ((e :: mid).getLast (cons_ne_nil _ _)).id = last := some.inj hl
      have hne : mm.id ≠ last := fun heq => by
        refine hids.2 _ (mem_append_left _ (getLast_mem (cons_ne_nil e mid))) ?_
        rw [hid, heq]
      rw [if_neg hne, getLast?_cons_cons, getLast?_eq_getLast_of_ne_nil (cons_ne_nil _ _), ← hid]
      rfl
  · rw [getLast?_concat]
    rfl

theorem cut_last (h : mh.Good) (hset : SetAt mh.maps ms pre (mid ++ [mm]) post) (split : Nat) :
    SetAt (splitOne mh.maps mm.id split mh.fresh) ms pre (mid ++ [mm.lower split])
      (mm.upper split mh.fresh :: post) := by
  have hmaps : mh.maps = (pre ++ mid) ++ mm :: post := by
    rw [hset.maps_eq]
    simp
  have hids := ids_at (hmaps ▸ h.nodup)
  refine ⟨?_, by simp, ?_, ?_, hset.prev⟩
  · rw [hmaps, splitOne_at hids.1 hids.2]
    simp
  · rw [hset.first]
    cases mid <;> rfl
  · rw [hset.last, getLast?_concat, getLast?_concat]
    rfl

/-- The part of the map that meets the range, as the search leaves it. -/
structure Cuttable (maps : List MmMap) (ms : MapSet) (start stop : Nat) (pre mid post : List MmMap) : Prop where
  set : SetAt maps ms pre mid post
  before : ∀ e ∈ pre, e.stop < start
  meets : ∀ e ∈ mid, start ≤ e.stop ∧ e.start ≤ stop
  behind : ∀ e ∈ post, stop < e.start

/-- What the search finds is the part that meets the range: the first mapping reaches it, and the first behind
the part starts behind it. -/
theorem SetAt.cuttable {stop : Nat} (h : SetAt maps ms pre (mm :: mid) post) (hs : InOrder b maps)
    (hpre : ∀ e ∈ pre, e.stop < start) (hreach : start ≤ mm.stop) (hmid : ∀ e ∈ mm :: mid, e.start ≤ stop)
    (hpost : ∀ f, post.head? = some f → stop < f.start) : Cuttable maps ms start stop pre (mm :: mid) post := by
  rw [h.maps_eq] at hs
  obtain ⟨hsmid, hspost⟩ := sorted_append.mp (sorted_append.mp hs).2
  refine ⟨h, hpre, fun e he => ⟨?_, hmid e he⟩, fun e he => ?_⟩
  · rcases mem_cons.mp he with rfl | he
    · exact hreach
    · have := hsmid.2.2.bounds he
      omega
  · cases post with
    | nil => exact absurd he not_mem_nil
    | cons f post =>
      have hf := hpost f rfl
      rcases mem_cons.mp he with rfl | he
      · exact hf
      · have := (hspost.2.2.bounds he).1
        have := hspost.2.1
        omega

/-- What cutting does: what is mapped stays, and the set is a part of the map, the one in the range if there
was memory. -/
structure Cut (mh mh' : MapHead) (ms' : MapSet) (start stop : Nat) (ok : Bool) : Prop where
  good : mh'.Good
  lookup_eq : ∀ x, lookup mh'.maps x = lookup mh.maps x
  bounds : mh'.start = mh.start ∧ mh'.stop = mh.stop
  set : ∃ pre mid post, SetAt mh'.maps ms' pre mid post ∧ (ok = true → (∀ e ∈ pre ++ post, Outside start stop e) ∧
    ∀ e ∈ mid, start ≤ e.start ∧ e.stop ≤ stop)

theorem cutLast_spec {stop last : Nat} (mem : Bool) (h : mh.Good)
    (hcut : Cuttable mh.maps ms start stop pre mid post) (hlow : ∀ e ∈ mid, start ≤ e.start)
    (hl : ms.last = some last) :
    ∃ mh' ok, cutLast mh ms stop last mem = some (mh', ms, ok) ∧ Cut mh mh' ms start stop ok := by
  rcases eq_nil_or_concat mid with hnil | ⟨mid', e, hmid⟩
  · exact absurd hnil hcut.set.nonempty
  rw [concat_eq_append] at hmid
  subst hmid
  have hmaps : mh.maps = (pre ++ mid') ++ e :: post := by
    rw [hcut.set.maps_eq]
    simp
  have hid : e.id = last := by
    have := hcut.set.last.symm.trans hl
    rw [getLast?_concat] at this
    exact some.inj this
  subst hid
  have hget : get mh.maps e.id = some e := by rw [hmaps, get_at (ids_at (hmaps ▸ h.nodup)).1]
  have hmeets := hcut.meets e (mem_append_right _ mem_cons_self)
  have hpre : ∀ f ∈ pre, Outside start stop f := fun f hf => .inl (hcut.before f hf)
  have hpost : ∀ f ∈ post, Outside start stop f := fun f hf => .inr (hcut.behind f hf)
  have hinner : ∀ f ∈ mid', start ≤ f.start ∧ f.stop ≤ stop := fun f hf => by
    have hs := h.sorted
    rw [hmaps] at hs
    obtain ⟨hs1, hs2⟩ := sorted_append.mp hs
    have := (hs1.bounds (mem_append_right _ hf)).2.2
    have := hs2.1
    exact ⟨hlow f (mem_append_left _ hf), by omega⟩
  have helow := hlow e (mem_append_right _ mem_cons_self)
  rw [cutLast, hget]
  dsimp only
  split
  · next hcross =>
    cases mem with
    | true =>
      obtain ⟨hgood, hlook⟩ := split_good h hmaps (Nat.lt_succ_of_le hmeets.2) hcross
      refine ⟨_, true, rfl, hgood, hlook, ⟨rfl, rfl⟩, pre, _, _, cut_last h hcut.set _, fun _ => ⟨?_, ?_⟩⟩
      · exact forall_mem_append.mpr ⟨hpre, forall_mem_cons.mpr ⟨.inr (Nat.lt_succ_self stop), hpost⟩⟩
      · exact forall_mem_append.mpr ⟨hinner, forall_mem_singleton.mpr ⟨helow, Nat.le_refl stop⟩⟩
    | false => exact ⟨mh, false, rfl, h, fun _ => rfl, ⟨rfl, rfl⟩, pre, _, post, hcut.set, nofun⟩
  · next hcross =>
    exact ⟨mh, true, rfl, h, fun _ => rfl, ⟨rfl, rfl⟩, pre, _, post, hcut.set, fun _ =>
      ⟨forall_mem_append.mpr ⟨hpre, hpost⟩,
        forall_mem_append.mpr ⟨hinner, forall_mem_singleton.mpr ⟨helow, Nat.le_of_not_lt hcross⟩⟩⟩⟩

theorem cutSet_spec {stop first last : Nat} (mem : Bool × Bool) (h : mh.Good)
    (hcut : Cuttable mh.maps ms start stop pre mid post) (hf : ms.first = some first) (hl : ms.last = some last)
    (hrange : start ≤ stop) :
    ∃ mh' ms' ok, cutSet mh ms start stop first last mem = some (mh', ms', ok) ∧ Cut mh mh' ms' start stop ok ∧
      ms'.split = ms.split ∧ ms'.skipSpecial = ms.skipSpecial := by
  obtain ⟨mm, mid, _, rfl, _, hfirst, _⟩ := hcut.set.ends
  obtain rfl : mm.id = first := some.inj (hfirst.symm.trans hf)
  have hmaps : mh.maps = pre ++ mm :: (mid ++ post) := hcut.set.maps_eq
  have hget : get mh.maps mm.id = some mm := by rw [hmaps, get_at (ids_at (hmaps ▸ h.nodup)).1]
  have hmeets := hcut.meets mm mem_cons_self
  have hinner : start ≤ mm.stop → ∀ e ∈ mid, start ≤ e.start := fun hle e he => by
    have hs := h.sorted
    rw [hmaps] at hs
    have := ((sorted_append.mp hs).2.2.2.bounds (mem_append_left post he)).1
    omega
  rw [cutSet, hget]
  dsimp only
  split
  · next hcross =>
    split
    · obtain ⟨hgood, hlook⟩ := split_good h hmaps hcross hmeets.1
      have hset := cut_first h hcut.set start hl
      have hcut' : Cuttable (splitOne mh.maps mm.id start mh.fresh)
          { ms with prev := some mm.id, first := some mh.fresh,
                    last := some (if mm.id = last then mh.fresh else last) }
          start stop (pre ++ [mm.lower start]) (mm.upper start mh.fresh :: mid) post := by
        refine ⟨hset, forall_mem_append.mpr ⟨hcut.before, forall_mem_singleton.mpr ?_⟩,
          forall_mem_cons.mpr ⟨⟨hmeets.1, hrange⟩, (forall_mem_cons.mp hcut.meets).2⟩, hcut.behind⟩
        show start - 1 < start
        omega
      have hlow : ∀ e ∈ mm.upper start mh.fresh :: mid, start ≤ e.start :=
        forall_mem_cons.mpr ⟨Nat.le_refl start, hinner hmeets.1⟩
      obtain ⟨mh', ok, hst, hc⟩ := cutLast_spec mem.2 hgood hcut' hlow rfl
      exact ⟨mh', _, ok, hst, ⟨hc.good, fun x => (hc.lookup_eq x).trans (hlook x), hc.bounds, hc.set⟩, rfl, rfl⟩
    · exact ⟨mh, ms, false, rfl, ⟨h, fun _ => rfl, ⟨rfl, rfl⟩, pre, _, post, hcut.set, nofun⟩, rfl, rfl⟩
  · next hcross =>
    have hlow : ∀ e ∈ mm :: mid, start ≤ e.start := forall_mem_cons.mpr ⟨Nat.le_of_not_lt hcross, hinner hmeets.1⟩
    obtain ⟨mh', ok, hst, hc⟩ := cutLast_spec mem.2 h hcut hlow hl
    exact ⟨mh', ms, ok, hst, hc, rfl, rfl⟩

/-! ## The call -/

/-- The first and the last address of the pages of a range. -/
def firstPage (start : Nat) : Nat := start / 4096 * 4096

def lastPage (start size : Nat) : Nat := (start + (if size = 0 then 1 else size) - 1) / 4096 * 4096 + 4095

/-- What `map_isolate` cuts out: what is mapped is as it was; its set is empty, with nothing in the
range unless `MI_NEXT` was given, or a part of the map, with nothing outside it in the range if
the set was to be cut and could be, and nothing in it outside. -/
structure Isolate (mh mh' : MapHead) (ms : MapSet) (ok : Bool) (start stop : Nat) (split next : Bool) :
    Prop where
  good : mh'.Good
  lookup_eq : ∀ x, lookup mh'.maps x = lookup mh.maps x
  bounds : mh'.start = mh.start ∧ mh'.stop = mh.stop
  flags : ms.split = split ∧ ms.skipSpecial = false
  set : (ok = true ∧ ms.first = none ∧ (next = false → ∀ e ∈ mh'.maps, Outside start stop e)) ∨
    ∃ pre mid post, SetAt mh'.maps ms pre mid post ∧
      (ok = true → split = true → next = false → (∀ e ∈ pre ++ post, Outside start stop e) ∧
        ∀ e ∈ mid, start ≤ e.start ∧ e.stop ≤ stop)

theorem isolateCut_spec (h : mh.Good) (start size : Nat) (split next : Bool) (mem : Bool × Bool) :
    ∃ mh' ms ok, isolateCut mh start size split next mem = some (mh', ms, ok) ∧
      Isolate mh mh' ms ok (firstPage start) (lastPage start size) split next := by
  obtain ⟨before, rest, hfrom, hmaps, hbefore⟩ := isolateFrom_spec h (firstPage start)
  have hs := h.sorted
  rw [hmaps] at hs
  obtain ⟨hsb, hsr⟩ := sorted_append.mp hs
  have hrange : firstPage start ≤ lastPage start size := by
    unfold firstPage lastPage
    split <;> omega
  rw [isolateCut, show start / 4096 * 4096 = firstPage start from rfl, hfrom]
  dsimp only
  rw [show (start + (if size = 0 then 1 else size) - 1) / 4096 * 4096 + 4095 = lastPage start size from rfl]
  have hsearch := isolateLoop_search (s := ⟨before.getLast?, none, none, mh.rover, lastPage start size, next⟩) hsr rfl rfl
    hrange
  generalize isolateLoop (firstPage start) rest _ = r at hsearch ⊢
  rcases hsearch with ⟨hfirst, hrover, hout⟩ | hfound
  · -- the set is empty
    refine ⟨{ mh with rover := r.rover }, r.set split, true, ?_, ?_, fun _ => rfl, ⟨rfl, rfl⟩, ⟨rfl, rfl⟩, ?_⟩
    · rw [Isolated.set, hfirst]
    · rw [hrover]
      exact ⟨h.sorted, h.nodup, h.allocated, h.rover, h.bound⟩
    · refine .inl ⟨rfl, hfirst, fun hn => ?_⟩
      rw [hmaps]
      exact forall_mem_append.mpr ⟨fun e he => .inl (hbefore e he), hout hn⟩
  · obtain ⟨pre, mm, mid, post, hrest, hpre, hreach, hmid, hpost, hstop, hf, hp, hsp, hrv, hkeep⟩ := hfound
    subst hrest
    have hmaps' : mh.maps = (before ++ pre) ++ (mm :: mid ++ post) := by rw [hmaps, append_assoc]
    have hlastNe : (mm :: mid) ≠ [] := cons_ne_nil _ _
    have hprev : r.prev = some ((mm :: mid).getLast hlastNe) := by
      rw [hp, getLast?_eq_getLast_of_ne_nil hlastNe]
    have hset0 : r.set split = ⟨some mm.id, some ((mm :: mid).getLast hlastNe).id, r.setPrev, split, false⟩ := by
      rw [Isolated.set, hprev, hf]
      dsimp only
      rw [if_neg (Nat.not_lt.mpr (hmid _ (getLast_mem hlastNe)))]
    have hsetPrev : r.setPrev = (before ++ pre).getLast?.map MmMap.id := by
      rw [hsp, getLast?_append]
    -- the rover is where it was, or before the set
    have hgood : ({ mh with rover := r.rover } : MapHead).Good := by
      refine ⟨h.sorted, h.nodup, h.allocated, fun q hq => ?_, h.bound⟩
      rcases hrv with hrv | hrv
      · exact h.rover q (hrv.symm.trans hq)
      · have hq : (before ++ pre).getLast?.map MmMap.id = some q := by
          rw [← hsetPrev, ← hrv]
          exact hq
        obtain ⟨e, he, rfl⟩ := map_eq_some_iff.mp hq
        exact ⟨e, hmaps' ▸ mem_append_left _ (mem_of_getLast? he), rfl⟩
    have hset : SetAt mh.maps (r.set split) (before ++ pre) (mm :: mid) post := by
      rw [hset0]
      exact ⟨hmaps', hlastNe, rfl, by rw [getLast?_eq_getLast_of_ne_nil hlastNe]; rfl, hsetPrev⟩
    rw [hset0] at hset ⊢
    cases split with
    | false =>
      exact ⟨_, _, true, rfl, hgood, fun _ => rfl, ⟨rfl, rfl⟩, ⟨rfl, rfl⟩, .inr ⟨_, _, _, hset, nofun⟩⟩
    | true =>
      have hcut := hset.cuttable h.sorted (forall_mem_append.mpr ⟨hbefore, hpre⟩) hreach hmid hpost
      obtain ⟨mh', ms', ok, hst, hc, hfl⟩ := cutSet_spec mem hgood hcut rfl rfl hstop
      obtain ⟨pre', mid', post', hset', hout⟩ := hc.set
      refine ⟨mh', ms', ok, hst, hc.good, hc.lookup_eq, hc.bounds, hfl, .inr ⟨pre', mid', post', hset', fun hok _ hn => ?_⟩⟩
      have hsame := hkeep.resolve_right fun h => nomatch hn.symm.trans h.1
      rw [show lastPage start size = r.stop from hsame.symm]
      exact hout hok

/-- Where there is no memory for a cut, all that is merged when the set is joined again is alike. -/
def CutAlike (mh : MapHead) (start size : Nat) (split next : Bool) (mem : Bool × Bool) : Prop :=
  ∀ r ∈ isolateCut mh start size split next mem, r.2.2 = false → JoinAlike r.1 r.2.1

instance CutAlike.decidable (mh : MapHead) (start size : Nat) (split next : Bool) (mem : Bool × Bool) :
    Decidable (CutAlike mh start size split next mem) :=
  inferInstanceAs (Decidable (∀ r ∈ isolateCut mh start size split next mem, _ → _))

/-- `map_isolate` has cut out its set, or has had no memory for a cut and has joined the set again. -/
theorem mapIsolate_spec (h : mh.Good) (start size : Nat) (split next : Bool) (mem : Bool × Bool) :
    ∃ mh1 ms ok mh', isolateCut mh start size split next mem = some (mh1, ms, ok) ∧
      mapIsolate mh start size split next mem = some (mh', ms, if ok then .eok else .enomem) ∧ mh'.Good ∧
      (mh'.start = mh.start ∧ mh'.stop = mh.stop) ∧
      ((∀ x, lookup mh'.maps x = lookup mh.maps x) ↔ CutAlike mh start size split next mem) ∧
      (ok = true → Isolate mh mh' ms true (firstPage start) (lastPage start size) split next) := by
  obtain ⟨mh1, ms, ok, hcut, hspec⟩ := isolateCut_spec h start size split next mem
  have halike : CutAlike mh start size split next mem ↔ (ok = false → JoinAlike mh1 ms) := by simp [CutAlike, hcut]
  rw [mapIsolate, hcut, halike]
  cases ok with
  | true =>
    exact ⟨mh1, ms, true, mh1, rfl, rfl, hspec.good, hspec.bounds, iff_of_true hspec.lookup_eq nofun, fun _ => hspec⟩
  | false =>
    obtain ⟨pre, mid, post, hset, _⟩ := hspec.set.resolve_left nofun
    obtain ⟨mh', hco, hj⟩ := mapCoalese_spec hspec.good hset
    refine ⟨mh1, ms, false, mh', rfl, by simp [hco], hj.good,
      ⟨hj.bounds.1.trans hspec.bounds.1, hj.bounds.2.trans hspec.bounds.2⟩, ?_, nofun⟩
    simpa [hspec.lookup_eq] using hj.same

end QRV.Mem
