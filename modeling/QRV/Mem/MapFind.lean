import QRV.Mem.MapIsolate

/- The search for a place in the map of an address space, `map_find_va`.

   What is proved:
     1. `mapFindVa_fits` — what is found is inside the map, meets no mapping and has the colour
        asked for, if no bound wraps in the gaps the search comes to; `mapFindVa_overlaps` — not so
        where one does.
     2. `mapFindVa_exhausted` — a place is found exactly if some gap, cut to the colour, has two
        bytes more than the size; `mapFindVa_misses_exact` — a gap of just the size is not used. -/
namespace QRV.Mem
open List
open Ranges

variable {mm : MmMap} {mh : MapHead} {q : FindVa} {stop tryAlign holeStart v : Nat} {before rest : List MmMap}
  {g : Nat × Nat} {start : Option Nat} {holeEnd : Nat}

/-- Nothing is mapped from `va` on for `size` bytes. -/
def Free (maps : List MmMap) (size va : Nat) : Prop :=
  va + size < 2 ^ 64 ∧ ∀ e ∈ maps, Outside va (va + size - 1) e

/-- A map of whole pages. -/
def MapHead.Whole (mh : MapHead) : Prop := Paged mh.maps ∧ mh.start % 4096 = 0 ∧ (mh.stop + 1) % 4096 = 0

/-- A map with nothing outside its bounds. -/
def MapHead.Within (mh : MapHead) : Prop := ∀ e ∈ mh.maps, mh.start ≤ e.start ∧ e.stop ≤ mh.stop

/-- A place inside the map that is free and of the colour asked for. -/
structure Place (mh : MapHead) (q : FindVa) (va : Nat) : Prop where
  free : ∀ e ∈ mh.maps, Outside va (va + q.size - 1) e
  low : mh.Within → mh.start ≤ va
  high : va + q.size ≤ mh.stop + 1
  colour : va &&& q.mask = q.va &&& q.mask

/-- A mask of `2 ^ c` colours of pages, in a map of whole pages. -/
def Coloured (mh : MapHead) (q : FindVa) : Prop := mh.Whole ∧ ∃ c, q.mask = (2 ^ c - 1) * 4096

/-- What the search for whole pages starts with. -/
structure Wanted (mh : MapHead) (q : FindVa) (stop tryAlign : Nat) : Prop where
  stop : stop + 1 = q.va + q.size
  size : 0 < q.size ∧ q.size < 2 ^ 64 ∧ q.size % 4096 = 0
  align : 0 < tryAlign ∧ tryAlign ≤ q.size
  mask : q.mask < 2 ^ 64 ∧ (q.mask = 0 ∨ tryAlign = 1)
  top : mh.stop < 2 ^ 64

/-! ## Gaps -/

/-- The end of the gap in front of a mapping, or of the last one; that of an empty gap is its start. -/
def gapEnd (mh : MapHead) (mm : Option MmMap) (start : Nat) : Nat :=
  match mm with
  | none => mh.stop
  | some mm => if mh.stop < mm.start then mh.stop else if start < mm.start then mm.start - 1 else mm.start

/-- The gaps between the mappings, each with its first and its last address. -/
def gaps (mh : MapHead) : List MmMap → Nat → List (Nat × Nat)
  | [], start => [(start, gapEnd mh none start)]
  | mm :: rest, start => (start, gapEnd mh (some mm) start) :: gaps mh rest (wrap (mm.stop + 1))

/-- A gap cut to the colour: its start is moved up or, with `MAP_BELOW`, its end down. -/
def cut (q : FindVa) (g : Nat × Nat) : Nat × Nat :=
  if q.below then
    let tmp := wrap (wrapSub g.2 q.size + 1)
    (g.1, wrap (wrapSub tmp (wrapSub tmp (q.va &&& q.mask) &&& q.mask) + q.size - 1))
  else (wrap (g.1 + (wrapSub (q.va &&& q.mask) g.1 &&& q.mask)), g.2)

/-- It has two bytes more than the size. -/
def Roomy (q : FindVa) (g : Nat × Nat) : Prop := (cut q g).1 + q.size + 2 ≤ (cut q g).2 + 1

/-- If a cut gap has room, neither of its bounds has wrapped, and unless the mask is one of colours of pages its
first (last) place has the colour. -/
def Kept (mh : MapHead) (q : FindVa) (g : Nat × Nat) : Prop :=
  Roomy q g → g.1 ≤ (cut q g).1 ∧ (cut q g).2 ≤ g.2 ∧
    (Coloured mh q ∨ (if q.below then (cut q g).2 + 1 - q.size else (cut q g).1) &&& q.mask = q.va &&& q.mask)

/-- So it is with every gap the search comes to, and it does not go on behind the last address there is. -/
def Steady (mh : MapHead) (q : FindVa) (stop tryAlign : Nat) : List MmMap → Nat → Option Nat → Prop
  | [], holeStart, _ => Kept mh q (holeStart, gapEnd mh none holeStart)
  | mm :: rest, holeStart, start =>
    let hole := cut q (holeStart, gapEnd mh (some mm) holeStart)
    let r := tryHole q stop tryAlign hole.1 hole.2 start
    Kept mh q (holeStart, gapEnd mh (some mm) holeStart) ∧
      (r.1 = false → mm.stop + 1 < 2 ^ 64 ∧ Steady mh q stop tryAlign rest (mm.stop + 1) r.2)

theorem hole_eq (mm : Option MmMap) : hole mh q mm holeStart = cut q (holeStart, gapEnd mh mm holeStart) := rfl

theorem cut_plain (hsize : 0 < q.size ∧ q.size < 2 ^ 64) (hmask : q.mask = 0) (hg : g.1 < 2 ^ 64 ∧ g.2 < 2 ^ 64) :
    cut q g = g := by
  have hdown : wrap (wrapSub (wrap (wrapSub g.2 q.size + 1)) 0 + q.size - 1) = g.2 := by
    unfold wrapSub wrap
    omega
  have hup : wrap g.1 = g.1 := Nat.mod_eq_of_lt hg.1
  simp only [cut, hmask, Nat.and_zero, Nat.add_zero, hdown, hup, ite_self]

theorem gapEnd_le (mm : Option MmMap) : gapEnd mh mm holeStart ≤ mh.stop := by
  unfold gapEnd
  split
  · exact le_rfl
  · split_ifs <;> omega

theorem kept_plain (hsize : 0 < q.size ∧ q.size < 2 ^ 64) (hmask : q.mask = 0) (hg : g.1 < 2 ^ 64 ∧ g.2 < 2 ^ 64) :
    Kept mh q g := by
  rw [Kept, cut_plain hsize hmask hg, hmask]
  exact fun _ => ⟨le_rfl, le_rfl, .inr (by rw [Nat.and_zero, Nat.and_zero])⟩

theorem steady_plain (hsize : 0 < q.size ∧ q.size < 2 ^ 64) (hmask : q.mask = 0) (htop : mh.stop < 2 ^ 64)
    (rest : List MmMap) (hbound : ∀ e ∈ rest, e.stop + 1 < 2 ^ 64) (hs : holeStart < 2 ^ 64) (start : Option Nat) :
    Steady mh q stop tryAlign rest holeStart start := by
  have hkept : ∀ mm s, s < 2 ^ 64 → Kept mh q (s, gapEnd mh mm s) := fun mm _ hs =>
    kept_plain hsize hmask ⟨hs, (gapEnd_le mm).trans_lt htop⟩
  induction rest generalizing holeStart start with
  | nil => exact hkept none _ hs
  | cons mm rest ih =>
    obtain ⟨hmm, hrest⟩ := forall_mem_cons.mp hbound
    exact ⟨hkept _ _ hs, fun _ => ⟨hmm, ih hrest hmm _⟩⟩

theorem gaps_lt (htop : mh.stop < 2 ^ 64) (rest : List MmMap) (hs : holeStart < 2 ^ 64) :
    ∀ g ∈ gaps mh rest holeStart, g.1 < 2 ^ 64 ∧ g.2 < 2 ^ 64 := by
  induction rest generalizing holeStart with
  | nil => exact forall_mem_singleton.mpr ⟨hs, htop⟩
  | cons mm rest ih =>
    have hend := (@gapEnd_le mh holeStart (some mm)).trans_lt htop
    exact forall_mem_cons.mpr ⟨⟨hs, hend⟩, ih (Nat.mod_lt _ (by decide))⟩

theorem mem_gaps_room {size : Nat} (rest : List MmMap) (hsorted : InOrder holeStart rest)
    (hbound : ∀ e ∈ rest, e.stop + 1 < 2 ^ 64) : (∃ g ∈ gaps mh rest holeStart, g.1 + size + 2 ≤ g.2 + 1) ↔
      ∃ lo, holeStart ≤ lo ∧ lo + size + 2 ≤ mh.stop + 1 ∧ ∀ e ∈ rest, Outside lo (lo + size + 1) e := by
  induction rest generalizing holeStart with
  | nil => simpa [gaps, gapEnd] using ⟨fun h => ⟨holeStart, le_rfl, h⟩, fun ⟨lo, hlo, h⟩ => by omega⟩
  | cons mm rest ih =>
    obtain ⟨hlo, hle, hrest⟩ := hsorted
    obtain ⟨hmm, hbound⟩ := forall_mem_cons.mp hbound
    have hwrap : wrap (mm.stop + 1) = mm.stop + 1 := Nat.mod_eq_of_lt hmm
    rw [gaps, hwrap, exists_mem_cons_iff, ih hrest hbound]
    constructor
    · rintro (h | ⟨lo, h, hhi, hout⟩)
      · obtain ⟨hend, hfirst⟩ : gapEnd mh (some mm) holeStart ≤ mh.stop ∧
            (holeStart < gapEnd mh (some mm) holeStart → gapEnd mh (some mm) holeStart < mm.start) := by
          unfold gapEnd
          dsimp only
          split_ifs <;> omega
        have := hfirst (by omega)
        exact ⟨holeStart, le_rfl, by omega, forall_mem_cons.mpr
          ⟨.inr (by omega), fun e he => .inr (by have := (hrest.bounds he).1; omega)⟩⟩
      · exact ⟨lo, by omega, hhi, forall_mem_cons.mpr ⟨.inl h, hout⟩⟩
    · rintro ⟨lo, h, hhi, hout⟩
      obtain ⟨hmm | hmm, hout⟩ := forall_mem_cons.mp hout
      · exact .inr ⟨lo, hmm, hhi, hout⟩
      · refine .inl ?_
        unfold gapEnd
        dsimp only
        split_ifs <;> omega

/-! ## One hole -/

/-- What is found in a hole lies in it: where it is asked for, at one of its ends, or aligned to a big page. -/
theorem tryHole_found (hq : Wanted mh q stop tryAlign) (hend : holeEnd < 2 ^ 64)
    (hv : (tryHole q stop tryAlign holeStart holeEnd start).2 = some v) :
    start = some v ∨ holeStart + q.size + 2 ≤ holeEnd + 1 ∧ holeStart ≤ v ∧ v + q.size ≤ holeEnd + 1 ∧
      (v = q.va ∨ v = (if q.below then holeEnd + 1 - q.size else holeStart) ∨ tryAlign ≠ 1) := by
  obtain ⟨hva, -, ⟨halign, hfits⟩, -⟩ := hq
  unfold tryHole at hv
  split at hv
  · next hroom =>
    split at hv
    · next hbelow =>
      split at hv
      · exact .inl hv
      · split at hv
        · cases hv
          exact .inr ⟨by omega, by omega, by omega, .inl rfl⟩
        · cases hv
          rw [if_pos hbelow]
          exact .inr ⟨by omega, by omega, by omega, .inr (.inl (by omega))⟩
    · next hup =>
      rw [if_neg hup]
      -- rounded up to the alignment the place is still before the end of the hole
      dsimp only at hv
      generalize hcheck : (holeStart + tryAlign - 1) / tryAlign * tryAlign = check at hv
      have hlo : holeStart ≤ check := by
        have h1 := Nat.div_add_mod (holeStart + tryAlign - 1) tryAlign
        have h2 := Nat.mod_lt (holeStart + tryAlign - 1) halign
        rw [Nat.mul_comm, hcheck] at h1
        omega
      have hhi : check ≤ holeStart + tryAlign - 1 := hcheck ▸ Nat.div_mul_le_self _ _
      have hsub : wrapSub holeEnd check = holeEnd - check := by
        unfold wrapSub wrap
        omega
      rw [hsub] at hv
      generalize hs : (if q.size < holeEnd - check then check else holeStart) = s at hv
      have hin : holeStart ≤ s ∧ s + q.size ≤ holeEnd + 1 ∧ (s = holeStart ∨ tryAlign ≠ 1) := by
        rw [← hs]
        split <;> omega
      split_ifs at hv <;> cases hv
      · exact .inr ⟨by omega, hin.1, hin.2.1, .inr hin.2.2⟩
      · exact .inr ⟨by omega, by omega, by omega, .inl rfl⟩
      · exact .inr ⟨by omega, hin.1, hin.2.1, .inr hin.2.2⟩
  · exact .inl hv

/-- What has been found is kept, and a hole is used exactly if it has two bytes more than the size. -/
theorem tryHole_isSome : (tryHole q stop tryAlign holeStart holeEnd start).2.isSome ↔
    start.isSome ∨ holeStart + q.size + 2 ≤ holeEnd + 1 := by
  unfold tryHole
  by_cases hroom : holeStart < holeEnd ∧ q.size < holeEnd - holeStart
  · rw [if_pos hroom]
    dsimp only
    split_ifs <;> simp_all <;> omega
  · rw [if_neg hroom]
    exact (or_iff_left (by omega)).symm

theorem tryHole_stops (h : (tryHole q stop tryAlign holeStart holeEnd start).1) :
    (tryHole q stop tryAlign holeStart holeEnd start).2.isSome := by
  unfold tryHole at h ⊢
  dsimp only at h ⊢
  split_ifs at h ⊢ <;> simp_all

theorem findLoop_cons (start : Option Nat) : findLoop mh q stop tryAlign (mm :: rest) holeStart start =
    (let hole := cut q (holeStart, gapEnd mh (some mm) holeStart)
    let r := tryHole q stop tryAlign hole.1 hole.2 start
    if r.1 then r.2 else findLoop mh q stop tryAlign rest (wrap (mm.stop + 1)) r.2) := by
  rw [findLoop, hole_eq]
  dsimp only
  split <;> (next h => rw [h]; rfl)

theorem findLoop_isSome (rest : List MmMap) (start : Option Nat) :
    (findLoop mh q stop tryAlign rest holeStart start).isSome ↔
      start.isSome ∨ ∃ g ∈ gaps mh rest holeStart, Roomy q g := by
  induction rest generalizing holeStart start with
  | nil =>
    rw [gaps, exists_mem_cons_iff, or_iff_left (by simp : ¬ ∃ g ∈ [], Roomy q g)]
    exact tryHole_isSome
  | cons mm rest ih =>
    rw [findLoop_cons, gaps, exists_mem_cons_iff, Roomy, ← or_assoc, ← @tryHole_isSome q stop tryAlign]
    dsimp only
    split
    · next hstop => exact iff_of_true (tryHole_stops hstop) (.inl (tryHole_stops hstop))
    · exact ih _

/-! ## Colours -/

/-- The colour of an address is told by the lowest bits of the number of its page. -/
theorem and_colours (c x : Nat) : x &&& (2 ^ c - 1) * 4096 = x / 4096 % 2 ^ c * 4096 := by
  apply Nat.eq_of_testBit_eq
  intro i
  rw [show 4096 = 2 ^ 12 from rfl, Nat.testBit_and, Nat.testBit_mul_two_pow, Nat.testBit_mul_two_pow,
    Nat.testBit_mod_two_pow, Nat.testBit_div_two_pow, Nat.testBit_two_pow_sub_one]
  by_cases hi : 12 ≤ i
  · simp [hi, Bool.and_comm]
  · simp [hi]

theorem sub_colours {a b c : Nat} (hc : (2 ^ c - 1) * 4096 < 2 ^ 64) (ha : a % 4096 = 0) (hb : b % 4096 = 0)
    (hlt : b < 2 ^ 64) : ∃ d, wrapSub a b &&& (2 ^ c - 1) * 4096 = d * 4096 ∧ b / 4096 + d ≡ a / 4096 [MOD 2 ^ c] := by
  have hdvd : 2 ^ c ∣ 2 ^ 52 := Nat.pow_dvd_pow 2 ((Nat.pow_le_pow_iff_right (le_refl 2)).mp (by omega))
  have hpages : wrapSub a b / 4096 = (a / 4096 + (2 ^ 52 - b / 4096)) % 2 ^ 52 := by
    unfold wrapSub wrap
    omega
  refine ⟨(a / 4096 + (2 ^ 52 - b / 4096)) % 2 ^ c, by rw [and_colours, hpages, Nat.mod_mod_of_dvd _ hdvd], ?_⟩
  calc b / 4096 + (a / 4096 + (2 ^ 52 - b / 4096)) % 2 ^ c
      ≡ b / 4096 + (a / 4096 + (2 ^ 52 - b / 4096)) [MOD 2 ^ c] := (Nat.mod_modEq _ _).add_left _
    _ = a / 4096 + 2 ^ 52 := by omega
    _ ≡ a / 4096 + 0 [MOD 2 ^ c] := ((Nat.modEq_zero_iff_dvd).mpr hdvd).add_left _

/-- Where a gap of whole pages has room when cut, its first place (with `MAP_BELOW`, its last) has the colour. -/
theorem cut_colour {c : Nat} (hc : q.mask = (2 ^ c - 1) * 4096) (hmask : q.mask < 2 ^ 64)
    (hsize : 0 < q.size ∧ q.size < 2 ^ 64 ∧ q.size % 4096 = 0) (hg : g.1 % 4096 = 0 ∧ (g.2 + 1) % 4096 = 0 ∧ g.2 < 2 ^ 64)
    (hroom : Roomy q g) (hlo : g.1 ≤ (cut q g).1) (hhi : (cut q g).2 ≤ g.2) :
    (if q.below then (cut q g).2 + 1 - q.size else (cut q g).1) &&& q.mask = q.va &&& q.mask := by
  have hbits : (q.va &&& q.mask) % 4096 = 0 ∧ (q.va &&& q.mask) < 2 ^ 64 := by
    refine ⟨?_, Nat.and_le_right.trans_lt hmask⟩
    rw [hc, and_colours, Nat.mul_mod_left]
  have hcolour : ∀ v, v / 4096 ≡ (q.va &&& q.mask) / 4096 [MOD 2 ^ c] → v &&& q.mask = q.va &&& q.mask := by
    intro v hv
    rw [hc, and_colours, and_colours, Nat.mul_div_cancel _ (by decide)] at *
    rw [hv, Nat.mod_mod]
  have hlt : ∀ a b, wrapSub a b &&& q.mask < 2 ^ 64 := fun a b => Nat.and_le_left.trans_lt (Nat.mod_lt _ (by decide))
  unfold Roomy at hroom
  unfold cut at *
  split_ifs at * with hbelow
  · dsimp only at *
    have htmp : wrap (wrapSub g.2 q.size + 1) = g.2 + 1 - q.size := by
      unfold wrapSub wrap
      omega
    have hd := hlt (g.2 + 1 - q.size) (q.va &&& q.mask)
    obtain ⟨d, hsub, hmod⟩ := @sub_colours (g.2 + 1 - q.size) _ _ (hc ▸ hmask) (by omega) hbits.1 hbits.2
    rw [← hc] at hsub
    rw [htmp, hsub] at hroom hhi ⊢
    rw [hsub] at hd
    have hle : d * 4096 ≤ g.2 + 1 - q.size := by
      unfold wrapSub wrap at hhi hroom
      omega
    have hplace : wrap (wrapSub (g.2 + 1 - q.size) (d * 4096) + q.size - 1) + 1 - q.size =
        g.2 + 1 - q.size - d * 4096 := by
      unfold wrapSub wrap
      omega
    rw [hplace]
    refine hcolour _ (Nat.ModEq.add_right_cancel' d ?_)
    rw [show (g.2 + 1 - q.size - d * 4096) / 4096 + d = (g.2 + 1 - q.size) / 4096 by omega]
    exact hmod.symm
  · have hd := hlt (q.va &&& q.mask) g.1
    have hstart : g.1 < 2 ^ 64 := hlo.trans_lt (Nat.mod_lt _ (by decide))
    obtain ⟨d, hsub, hmod⟩ := @sub_colours (q.va &&& q.mask) g.1 _ (hc ▸ hmask) hbits.1 hg.1 hstart
    rw [← hc] at hsub
    rw [hsub] at hd hlo ⊢
    have hplace : wrap (g.1 + d * 4096) = g.1 + d * 4096 := by
      unfold wrap at *
      omega
    rw [hplace]
    refine hcolour _ ?_
    rw [show (g.1 + d * 4096) / 4096 = g.1 / 4096 + d by omega]
    exact hmod

/-! ## The search -/

/-- The search has come to `holeStart`, behind the mappings `before`. -/
structure Searching (mh : MapHead) (before rest : List MmMap) (holeStart : Nat) : Prop where
  maps : mh.maps = before ++ rest
  before : ∀ e ∈ before, e.stop < holeStart
  low : mh.Within → mh.start ≤ holeStart
  page : mh.Whole → holeStart % 4096 = 0

section
variable (hsorted : InOrder 0 mh.maps) (hq : Wanted mh q stop tryAlign)
include hsorted

theorem Searching.gap (hs : Searching mh before rest holeStart) (hlt : holeStart < gapEnd mh rest.head? holeStart) :
    (∀ e ∈ rest, gapEnd mh rest.head? holeStart < e.start) ∧
      (mh.Whole → (gapEnd mh rest.head? holeStart + 1) % 4096 = 0) := by
  rw [hs.maps] at hsorted
  cases rest with
  | nil => exact ⟨nofun, fun h => h.2.2⟩
  | cons mm rest =>
    obtain ⟨_, -, hle, hrest⟩ := sorted_append.mp hsorted
    have hpage : mh.Whole → mm.start % 4096 = 0 := fun h => (h.1 mm (hs.maps ▸ mem_append_right _ mem_cons_self)).1
    rw [head?_cons] at hlt ⊢
    have hend : gapEnd mh (some mm) holeStart < mm.start ∧
        (mh.Whole → (gapEnd mh (some mm) holeStart + 1) % 4096 = 0) := by
      unfold gapEnd at *
      dsimp only at *
      split_ifs at hlt ⊢ with h1 h2
      · exact ⟨h1, fun h => h.2.2⟩
      · exact ⟨by omega, fun h => by have := hpage h; omega⟩
      · omega
    exact ⟨forall_mem_cons.mpr ⟨hend.1, fun e he => by have := (hrest.bounds he).1; omega⟩, hend.2⟩

include hq in
theorem Searching.place (hs : Searching mh before rest holeStart)
    (hstart : ∀ v, start = some v → Place mh q v) (hkept : Kept mh q (holeStart, gapEnd mh rest.head? holeStart)) :
    ∀ v, (tryHole q stop tryAlign (cut q (holeStart, gapEnd mh rest.head? holeStart)).1
      (cut q (holeStart, gapEnd mh rest.head? holeStart)).2 start).2 = some v → Place mh q v := by
  intro v hv
  have hle := @gapEnd_le mh holeStart rest.head?
  have hgap := hs.gap hsorted
  generalize gapEnd mh rest.head? holeStart = holeEnd at *
  have htop := hq.top
  have hsize := hq.size
  -- an end that has wrapped is one of 64 bits too
  have hend : (cut q (holeStart, holeEnd)).2 < 2 ^ 64 := by
    unfold cut
    split
    · exact Nat.mod_lt _ (by decide)
    · exact hle.trans_lt htop
  rcases tryHole_found hq hend hv with hv | ⟨hroom, hlo, hhi, hcase⟩
  · exact hstart v hv
  obtain ⟨hl, hh, hkind⟩ := hkept hroom
  obtain ⟨hbehind, hpage⟩ := hgap (by dsimp only at hl hh; omega)
  have hcolour : v &&& q.mask = q.va &&& q.mask := by
    rcases hcase with rfl | rfl | hne
    · rfl
    · rcases hkind with ⟨hwhole, c, hc⟩ | hkind
      · exact cut_colour hc hq.mask.1 hsize ⟨hs.page hwhole, hpage hwhole, hle.trans_lt htop⟩ hroom hl hh
      · exact hkind
    · rw [hq.mask.2.resolve_right hne, Nat.and_zero, Nat.and_zero]
  dsimp only at hl hh
  refine ⟨?_, fun h => ((hs.low h).trans hl).trans hlo, by omega, hcolour⟩
  rw [hs.maps]
  exact forall_mem_append.mpr ⟨fun e he => .inl (by have := hs.before e he; omega),
    fun e he => .inr (by have := hbehind e he; omega)⟩

theorem Searching.next (hs : Searching mh before (mm :: rest) holeStart) :
    Searching mh (before ++ [mm]) rest (mm.stop + 1) := by
  have hmem : mm ∈ mh.maps := hs.maps ▸ mem_append_right _ mem_cons_self
  rw [hs.maps] at hsorted
  obtain ⟨hbefore, hlo, hle, -⟩ := sorted_append.mp hsorted
  refine ⟨by simp [hs.maps], forall_mem_append.mpr ⟨fun e he => ?_, by simp⟩,
    fun h => by have := (h mm hmem).1; omega, fun h => (h.1 mm hmem).2⟩
  have := (hbefore.bounds he).2.2
  omega

include hq in
theorem findLoop_place (rest : List MmMap) (hs : Searching mh before rest holeStart) (start : Option Nat)
    (hstart : ∀ v, start = some v → Place mh q v) (hsteady : Steady mh q stop tryAlign rest holeStart start) :
    ∀ v, findLoop mh q stop tryAlign rest holeStart start = some v → Place mh q v := by
  induction rest generalizing before holeStart start with
  | nil => exact hs.place hsorted hq hstart hsteady
  | cons mm rest ih =>
    obtain ⟨hkept, hgo⟩ := hsteady
    have hplace := hs.place hsorted hq hstart hkept
    rw [findLoop_cons]
    dsimp only
    split
    · exact hplace
    · next hstop =>
      obtain ⟨htop, hgo⟩ := hgo (Bool.not_eq_true _ ▸ hstop)
      have hwrap : wrap (mm.stop + 1) = mm.stop + 1 := Nat.mod_eq_of_lt htop
      rw [hwrap]
      exact ih (hs.next hsorted) _ hplace hgo

end

/-- The page sizes of a processor: multiples of the size of a page, which is one of them. -/
structure PageSizes (pgszlist : List Nat) : Prop where
  pos : ∀ p ∈ pgszlist, 0 < p
  whole : ∀ p ∈ pgszlist, p % 4096 = 0
  page : 4096 ∈ pgszlist

/-- The request as the search starts with it: shifted down if its end wraps, and without bit 0 of the mask. -/
def FindVa.asked (q : FindVa) : FindVa :=
  { q with va := if 2 ^ 64 < q.va + q.size then 2 ^ 64 - q.size else q.va, mask := q.mask / 2 * 2 }

/-- The alignment tried for. -/
def FindVa.align (q : FindVa) (pgszlist : List Nat) : Nat :=
  if q.mask.testBit 0 then (pgszlist.find? fun p => p ≤ q.size).getD 0 else 1

/-- Whole pages are asked for, in words of 64 bits, and bit 0 of the mask stands alone. -/
structure Asked (mh : MapHead) (q : FindVa) : Prop where
  size : 0 < q.size ∧ q.size < 2 ^ 64 ∧ q.size % 4096 = 0
  va : q.va < 2 ^ 64
  mask : q.mask < 2 ^ 64 ∧ (q.mask % 2 = 1 → q.mask = 1)
  stop : mh.stop < 2 ^ 64

/-- A request that is shifted down keeps its colour, and no gap the search comes to is cut wrong. -/
structure Searchable (pgszlist : List Nat) (mh : MapHead) (q : FindVa) : Prop where
  colour : q.asked.va &&& (q.mask / 2 * 2) = q.va &&& (q.mask / 2 * 2)
  steady : Steady mh q.asked (q.asked.va + q.size - 1) (q.align pgszlist) mh.maps mh.start none

section
variable {pgszlist : List Nat}

theorem mapFindVa_eq (ha : Asked mh q) : mapFindVa pgszlist mh q =
    findLoop mh q.asked (q.asked.va + q.size - 1) (q.align pgszlist) mh.maps mh.start none := by
  obtain ⟨hsize, hva, -⟩ := ha
  unfold mapFindVa FindVa.asked FindVa.align
  dsimp only
  by_cases hlt : 2 ^ 64 < q.va + q.size
  · have hstop : wrap (q.va + q.size - 1) < q.va := by
      unfold wrap
      omega
    rw [if_pos hstop, if_pos hlt]
    congr 1
    omega
  · have hstop : wrap (q.va + q.size - 1) = q.va + q.size - 1 := Nat.mod_eq_of_lt (by omega)
    rw [hstop, if_neg (by omega), if_neg hlt]

theorem Asked.wanted (ha : Asked mh q) (hpg : PageSizes pgszlist) :
    Wanted mh q.asked (q.asked.va + q.size - 1) (q.align pgszlist) := by
  obtain ⟨hsize, -, hmask, htop⟩ := ha
  have hasked : q.asked.size = q.size ∧ q.asked.mask = q.mask / 2 * 2 := ⟨rfl, rfl⟩
  refine ⟨by omega, hsize, ?_, ⟨by omega, ?_⟩, htop⟩
  all_goals unfold FindVa.align
  all_goals split
  · cases hf : pgszlist.find? fun p => p ≤ q.size with
    | none => exact absurd (find?_eq_none.mp hf 4096 hpg.page) (by simp; omega)
    | some p => exact ⟨hpg.pos p (mem_of_find?_eq_some hf), by simpa [hasked.1] using find?_some hf⟩
  · exact ⟨Nat.one_pos, hsize.1⟩
  · next hbit => exact .inl (by simp [Nat.testBit_zero] at hbit; omega)
  · exact .inr rfl

theorem mapFindVa_place (hpg : PageSizes pgszlist) (ha : Asked mh q) (hq : Searchable pgszlist mh q)
    (hsorted : InOrder 0 mh.maps) (hv : mapFindVa pgszlist mh q = some v) :
    Place mh { q with mask := q.mask / 2 * 2 } v := by
  rw [mapFindVa_eq ha] at hv
  have hs : Searching mh [] mh.maps mh.start := ⟨rfl, nofun, fun _ => le_rfl, fun h => h.2.1⟩
  have h := findLoop_place hsorted (ha.wanted hpg) mh.maps hs none nofun hq.steady v hv
  exact ⟨h.free, h.low, h.high, h.colour.trans hq.colour⟩

/-- Without a colour nothing wraps, if no mapping ends with the last address there is. -/
theorem mapFindVa_free (hpg : PageSizes pgszlist) (ha : Asked mh q) (hmask : q.mask ≤ 1)
    (hbounds : mh.start < 2 ^ 64 ∧ mh.stop + 1 < 2 ^ 64) (hbound : ∀ e ∈ mh.maps, e.stop + 1 < 2 ^ 64)
    (hsorted : InOrder 0 mh.maps) (hv : mapFindVa pgszlist mh q = some v) : Free mh.maps q.size v := by
  have hzero : q.mask / 2 * 2 = 0 := by omega
  have hsteady := @steady_plain mh q.asked (q.asked.va + q.size - 1) (q.align pgszlist) _ ⟨ha.size.1, ha.size.2.1⟩ hzero
    ha.stop mh.maps hbound hbounds.1 none
  have h := mapFindVa_place hpg ha ⟨by rw [hzero, Nat.and_zero, Nat.and_zero], hsteady⟩ hsorted hv
  exact ⟨h.high.trans_lt hbounds.2, h.free⟩

end

def twoPages : MapHead :=
  ⟨[⟨0, none, 0, 0x1000, 0x1fff, 0, 0, 0, 0⟩, ⟨1, none, 0, 0x5000, 0x5fff, 0, 0, 0, 0⟩], none, 0x1000, 0xffff, 2⟩

/-- That no place is found means that there is none, exactly if some gap has two bytes more than the size when there
is one; without a colour, if so many bytes are free in a row. -/
theorem mapFindVa_exhausted (pgszlist : List Nat) (mh : MapHead) (hsorted : InOrder 0 mh.maps) (hin : mh.Within)
    (q : FindVa) (ha : Asked mh q) :
    ((mapFindVa pgszlist mh q = none → ∀ v, ¬ Place mh { q with mask := q.mask / 2 * 2 } v) ↔
      ((∃ v, Place mh { q with mask := q.mask / 2 * 2 } v) → ∃ g ∈ gaps mh mh.maps mh.start, Roomy q.asked g)) ∧
    (q.mask ≤ 1 → mh.start < 2 ^ 64 → (∀ e ∈ mh.maps, e.stop + 1 < 2 ^ 64) →
      ((∃ g ∈ gaps mh mh.maps mh.start, Roomy q.asked g) ↔ ∃ lo, mh.start ≤ lo ∧ lo + q.size + 2 ≤ mh.stop + 1 ∧
        ∀ e ∈ mh.maps, Outside lo (lo + q.size + 1) e)) := by
  have hsome := @findLoop_isSome mh q.asked (q.asked.va + q.size - 1) (q.align pgszlist) mh.start mh.maps none
  rw [← mapFindVa_eq ha, or_iff_right (by simp)] at hsome
  rw [← hsome]
  refine ⟨?_, fun hmask hstart hbound => ?_⟩
  · rw [← Option.not_isSome_iff_eq_none, ← not_exists, not_imp_not]
  · rw [hsome, ← mem_gaps_room mh.maps (hsorted.raise fun e he => (hin e he).1) hbound]
    refine exists_congr fun g => and_congr_right fun hg => ?_
    have hcut : cut q.asked g = g := cut_plain ⟨ha.size.1, ha.size.2.1⟩ (by dsimp only [FindVa.asked]; omega)
      (gaps_lt ha.stop mh.maps hstart g hg)
    rw [Roomy, hcut]
    rfl

theorem mapFindVa_exhausted_pages : mapFindVa [4096] twoPages ⟨0, 0xc000, 0, false⟩ = none ∧
    ∀ v, ¬ Place twoPages ⟨0, 0xc000, 0, false⟩ v :=
  have hnone : mapFindVa [4096] twoPages ⟨0, 0xc000, 0, false⟩ = none := by decide +kernel
  ⟨hnone, ((mapFindVa_exhausted [4096] twoPages (by decide) (by unfold MapHead.Within; decide) ⟨0, 0xc000, 0, false⟩
    ⟨by decide, by decide, by decide, by decide⟩).1.mpr fun ⟨v, h⟩ => by
      have h1 := h.free _ (mem_cons_self)
      have h2 := h.free _ (.tail _ mem_cons_self)
      have h3 := h.high
      simp only [Outside, twoPages] at h1 h2 h3
      omega) hnone⟩

/-- From 0x6000 to the end of the map all is free, but the search for just that size finds nothing. -/
theorem mapFindVa_misses_exact : mapFindVa [4096] twoPages ⟨0x6000, 0xa000, 0, false⟩ = none ∧
    ∀ e ∈ twoPages.maps, e.stop < 0x6000 := by
  decide +kernel

end QRV.Mem
