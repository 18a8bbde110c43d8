import QRV.Rsrcdb.RsrcRange

/- The ranges that `_rsrc_block_limit_op` calls out for, and what comes of the blocks. The created
   ranges are in the order of their starts and end before the greatest number.

     1. `callouts_exact` — the ranges called out for are, with `overlap`, the points of the range that
        are created, and with `nonoverlap` those that are not, and two of a kind are apart.
     2. `limitOp_add`, `limitOp_remove` — these points become free, or are no longer free.
     3. `insertCreate_sorted`, `destroyLoop_spec` — the list of created ranges. -/
namespace QRV.Rsrcdb
open Option (not_mem_none)
open List

variable {l : List Block} {created : List Create} {c d : Create} {s e x : Nat}
variable {overlap : Option (Nat × Nat)} {o : Callout}

/-! ## Created ranges -/

def CreatedAt (created : List Create) (x : Nat) : Prop := ∃ c ∈ created, c.start ≤ x ∧ x ≤ c.stop

structure Sorted (created : List Create) : Prop where
  valid : ∀ c ∈ created, c.start ≤ c.stop ∧ c.stop < top
  order : created.Pairwise fun c d => c.start ≤ d.start

theorem Sorted.tail (h : Sorted (c :: created)) : Sorted created :=
  ⟨fun d hd => h.valid d (.tail _ hd), (pairwise_cons.mp h.order).2⟩

theorem Sorted.head (h : Sorted (c :: created)) : c.start ≤ c.stop ∧ c.stop < top := h.valid c mem_cons_self

theorem Sorted.le (h : Sorted (c :: created)) (hd : d ∈ created) : c.start ≤ d.start := (pairwise_cons.mp h.order).1 d hd

theorem Sorted.first (h : Sorted (c :: created)) : ∀ d ∈ c :: created, c.start ≤ d.start :=
  forall_mem_cons.mpr ⟨le_rfl, fun _ hd => h.le hd⟩

/-- The created ranges are in the order of their starts. If the range `.. e` has the greatest number, they
end before it. -/
structure Ordered (e : Nat) (created : List Create) : Prop where
  valid : ∀ c ∈ created, c.start ≤ c.stop ∧ c.stop ≤ top ∧ (e < top ∨ c.stop < top)
  order : created.Pairwise fun c d => c.start ≤ d.start

theorem Sorted.ordered (h : Sorted created) : Ordered e created :=
  ⟨fun c hc => ⟨(h.valid c hc).1, Nat.le_of_lt (h.valid c hc).2, .inr (h.valid c hc).2⟩, h.order⟩

theorem Ordered.tail (h : Ordered e (c :: created)) : Ordered e created :=
  ⟨fun d hd => h.valid d (.tail _ hd), (pairwise_cons.mp h.order).2⟩

theorem createdAt_nil : ¬ CreatedAt [] x := fun ⟨_, h, _⟩ => absurd h not_mem_nil

theorem createdAt_cons : CreatedAt (c :: created) x ↔ (c.start ≤ x ∧ x ≤ c.stop) ∨ CreatedAt created x := by
  simp only [CreatedAt, mem_cons, exists_eq_or_imp]

/-- Nothing behind a range in the list is created in front of it. -/
theorem Ordered.not_created (h : Ordered e (c :: created)) (hx : x < c.start) : ¬ CreatedAt (c :: created) x := by
  rintro ⟨d, hd, h1, -⟩
  rcases mem_cons.mp hd with rfl | hd
  · omega
  · have := (pairwise_cons.mp h.order).1 d hd
    omega

/-! ## The ranges called out for -/

/-- The points of the ranges called out for. -/
def CalledAt (cs : List Callout) (overlap : Bool) (x : Nat) : Prop :=
  ∃ c ∈ cs, c.overlap = overlap ∧ c.start ≤ x ∧ x ≤ c.stop

theorem calledAt_cons {cs : List Callout} {overlap : Bool} :
    CalledAt (o :: cs) overlap x ↔ (o.overlap = overlap ∧ o.start ≤ x ∧ x ≤ o.stop) ∨ CalledAt cs overlap x := by
  simp only [CalledAt, mem_cons, exists_eq_or_imp]

theorem calledAt_nil {overlap : Bool} : ¬ CalledAt [] overlap x := fun ⟨_, h, _⟩ => absurd h not_mem_nil

/-- The ranges of the list are not empty, those with `overlap` hold the points of `P` and the others
those of `Q`. -/
structure Called (cs : List Callout) (P Q : Nat → Prop) : Prop where
  valid : ∀ o ∈ cs, o.start ≤ o.stop
  inside : ∀ x, CalledAt cs true x ↔ P x
  outside : ∀ x, CalledAt cs false x ↔ Q x

/-- Besides, two of a kind are apart. -/
structure CalledOnce (cs : List Callout) (P Q : Nat → Prop) : Prop extends Called cs P Q where
  apart : cs.Pairwise fun a b => a.overlap = b.overlap → a.stop < b.start

namespace CalledOnce

variable {cs cs' : List Callout} {P P' Q Q' : Nat → Prop}

theorem of_iff (h : CalledOnce cs P Q) (hP : ∀ x, P x ↔ P' x) (hQ : ∀ x, Q x ↔ Q' x) : CalledOnce cs P' Q' :=
  ⟨⟨h.valid, fun x => (h.inside x).trans (hP x), fun x => (h.outside x).trans (hQ x)⟩, h.apart⟩

theorem nil : CalledOnce [] (fun _ => False) fun _ => False :=
  ⟨⟨nofun, fun _ => iff_of_false calledAt_nil id, fun _ => iff_of_false calledAt_nil id⟩, List.Pairwise.nil⟩

theorem append (h : CalledOnce cs P Q) (h' : CalledOnce cs' P' Q') (hP : ∀ x y, P x → P' y → x < y)
    (hQ : ∀ x y, Q x → Q' y → x < y) : CalledOnce (cs ++ cs') (fun x => P x ∨ P' x) fun x => Q x ∨ Q' x := by
  have happ : ∀ overlap x, CalledAt (cs ++ cs') overlap x ↔ CalledAt cs overlap x ∨ CalledAt cs' overlap x :=
    fun overlap x => by simp only [CalledAt, mem_append, or_and_right, exists_or]
  refine ⟨⟨forall_mem_append.mpr ⟨h.valid, h'.valid⟩,
    fun x => (happ _ x).trans (or_congr (h.inside x) (h'.inside x)),
    fun x => (happ _ x).trans (or_congr (h.outside x) (h'.outside x))⟩,
    pairwise_append.mpr ⟨h.apart, h'.apart, fun a ha b hb hab => ?_⟩⟩
  have hlast : CalledAt cs a.overlap a.stop := ⟨a, ha, rfl, h.valid a ha, le_rfl⟩
  have hfirst : CalledAt cs' a.overlap b.start := ⟨b, hb, hab.symm, le_rfl, h'.valid b hb⟩
  cases hover : a.overlap with
  | true => exact hP _ _ ((h.inside _).mp (hover ▸ hlast)) ((h'.inside _).mp (hover ▸ hfirst))
  | false => exact hQ _ _ ((h.outside _).mp (hover ▸ hlast)) ((h'.outside _).mp (hover ▸ hfirst))

theorem single (overlap : Bool) (h : s ≤ e) : CalledOnce [⟨overlap, s, e⟩]
    (fun x => overlap = true ∧ s ≤ x ∧ x ≤ e) fun x => overlap = false ∧ s ≤ x ∧ x ≤ e := by
  have hpoints : ∀ other x, CalledAt [⟨overlap, s, e⟩] other x ↔ overlap = other ∧ s ≤ x ∧ x ≤ e := fun other x => by
    simp only [CalledAt, mem_singleton, exists_eq_left]
  exact ⟨⟨forall_mem_singleton.mpr h, hpoints true, hpoints false⟩, pairwise_singleton _ _⟩

theorem covered (h : s ≤ e) : CalledOnce [⟨true, s, e⟩] (fun x => s ≤ x ∧ x ≤ e) fun _ => False :=
  (single true h).of_iff (fun _ => and_iff_right rfl) fun _ => iff_of_false (fun hx => absurd hx.1 nofun) id

theorem gap (h : s ≤ e) : CalledOnce [⟨false, s, e⟩] (fun _ => False) fun x => s ≤ x ∧ x ≤ e :=
  (single false h).of_iff (fun _ => iff_of_false (fun hx => absurd hx.1 nofun) id) fun _ => and_iff_right rfl

end CalledOnce

/-- The part of the created ranges that is not called out for yet: it ends right in front of
`purgestart`, or with the range. -/
def Pending (e s : Nat) (overlap : Option (Nat × Nat)) : Prop :=
  ∀ o ∈ overlap, o.1 ≤ o.2 ∧ o.2 ≤ e ∧ (o.2 + 1 = s ∨ e < s)

def InPending (overlap : Option (Nat × Nat)) (x : Nat) : Prop := ∃ o ∈ overlap, o.1 ≤ x ∧ x ≤ o.2

theorem pending_none : Pending e s none := fun _ h => absurd h (not_mem_none _)

theorem pending_some {o : Nat × Nat} : Pending e s (some o) ↔ o.1 ≤ o.2 ∧ o.2 ≤ e ∧ (o.2 + 1 = s ∨ e < s) := by
  simp [Pending]

theorem not_inPending_none : ¬ InPending none x := fun ⟨_, h, _⟩ => absurd h (not_mem_none _)

theorem inPending_some {o : Nat × Nat} : InPending (some o) x ↔ o.1 ≤ x ∧ x ≤ o.2 := by simp [InPending]

theorem called_toList (hp : Pending e s overlap) : CalledOnce (overlap.map fun o => (⟨true, o.1, o.2⟩ : Callout)).toList
    (InPending overlap) fun _ => False := by
  cases overlap with
  | none => exact CalledOnce.nil.of_iff (fun _ => iff_of_false id not_inPending_none) fun _ => Iff.rfl
  | some o => exact (CalledOnce.covered (hp o rfl).1).of_iff (fun _ => inPending_some.symm) fun _ => Iff.rfl

/-- What `joinOverlap` calls out for and keeps is what was kept before and the part of the range. -/
theorem joinOverlap_spec (hc : c.start ≤ c.stop) (hse : s ≤ e)
    (hover : c.start ≤ e ∧ s ≤ c.stop) (hp : Pending e s overlap) :
    (∃ P, CalledOnce (joinOverlap c s e overlap).1 P (fun _ => False) ∧
      (∀ x, P x ∨ ((joinOverlap c s e overlap).2.1 ≤ x ∧ x ≤ (joinOverlap c s e overlap).2.2) ↔
        InPending overlap x ∨ (s ≤ x ∧ x ≤ e ∧ c.start ≤ x ∧ x ≤ c.stop)) ∧
      ∀ x, P x → x < s ∧ x < (joinOverlap c s e overlap).2.1) ∧
    Pending e (c.stop + 1) (some (joinOverlap c s e overlap).2) := by
  cases overlap with
  | none =>
    refine ⟨⟨_, CalledOnce.nil, fun x => ?_, fun _ => False.elim⟩, pending_some.mpr ?_⟩
    · rw [joinOverlap, or_iff_right id, or_iff_right not_inPending_none]
      dsimp only
      omega
    · dsimp only [joinOverlap]
      omega
  | some o =>
    obtain ⟨hle, hoe, hos⟩ := pending_some.mp hp
    unfold joinOverlap
    dsimp only
    split
    case isTrue hjoin =>
      rw [overlape_iff] at hjoin
      refine ⟨⟨_, CalledOnce.nil, fun x => ?_, fun _ => False.elim⟩, pending_some.mpr ?_⟩
      · rw [or_iff_right id, inPending_some]
        dsimp only
        omega
      · dsimp only
        omega
    case isFalse hjoin =>
      refine ⟨⟨_, CalledOnce.covered hle, fun x => ?_, fun x hx => ?_⟩, pending_some.mpr ?_⟩
      · rw [inPending_some]
        dsimp only
        omega
      · dsimp only
        omega
      · dsimp only
        omega

theorem callouts_done (h : e < s) :
    callouts e s overlap created = (overlap.map fun o => (⟨true, o.1, o.2⟩ : Callout)).toList := by
  cases created with
  | nil => rw [callouts, if_neg (Nat.not_le.mpr h), append_nil]
  | cons c created => rw [callouts, if_pos h]

/-- The list of ranges when a created one meets what is left of the range. -/
theorem callouts_cons (hc : c.stop ≤ top ∧ (e < top ∨ c.stop < top)) (hse : s ≤ e)
    (hover : c.start ≤ e ∧ s ≤ c.stop) :
    callouts e s overlap (c :: created) =
      (joinOverlap c s e overlap).1 ++ (if c.start ≤ s then [] else [⟨false, s, c.start - 1⟩]) ++
        callouts e (c.stop + 1) (some (joinOverlap c s e overlap).2) created := by
  have hrest : ∀ o, callouts e (if c.stop ≠ top then c.stop + 1 else top) o created = callouts e (c.stop + 1) o created := by
    intro o
    split
    · rfl
    · rw [callouts_done (by omega), callouts_done (by omega)]
  rw [callouts, if_neg (by omega), if_pos (overlape_iff.mpr (by omega)), hrest]
  by_cases hs : c.start ≤ s
  · rw [if_pos hs, if_pos hs]
  · rw [if_neg hs, if_neg hs, if_pos (show c.start ≠ 0 by omega)]

theorem callouts_called (h : Ordered e created) (hp : Pending e s overlap) :
    CalledOnce (callouts e s overlap created) (fun x => InPending overlap x ∨ (s ≤ x ∧ x ≤ e ∧ CreatedAt created x))
      fun x => s ≤ x ∧ x ≤ e ∧ ¬ CreatedAt created x := by
  induction created generalizing s overlap with
  | nil =>
    have hrest : CalledOnce (if s ≤ e then [⟨false, s, e⟩] else []) (fun _ => False) fun x => s ≤ x ∧ x ≤ e := by
      split
      case isTrue hse => exact CalledOnce.gap hse
      case isFalse => exact CalledOnce.nil.of_iff (fun _ => Iff.rfl) fun _ => iff_of_false id (by omega)
    refine ((called_toList hp).append hrest (fun _ _ _ => False.elim) fun _ _ => False.elim).of_iff
      (fun x => or_congr_right ?_) fun x => ?_
    · exact iff_of_false id fun hc => createdAt_nil hc.2.2
    · rw [or_iff_right id, and_iff_left createdAt_nil]
  | cons c created ih =>
    obtain ⟨hcv, hctop⟩ := h.valid c mem_cons_self
    by_cases hdone : e < s
    · rw [callouts_done hdone]
      refine (called_toList hp).of_iff (fun x => ?_) fun x => iff_of_false id fun hc => by omega
      exact (or_iff_left fun hc => by omega).symm
    by_cases hover : c.start ≤ e ∧ s ≤ c.stop
    · obtain ⟨⟨P, hcall, hjoin, hbefore⟩, hp'⟩ := joinOverlap_spec hcv (by omega) hover hp
      have hgap : CalledOnce (if c.start ≤ s then [] else [⟨false, s, c.start - 1⟩]) (fun _ => False)
          fun x => s ≤ x ∧ x < c.start := by
        split
        · exact CalledOnce.nil.of_iff (fun _ => Iff.rfl) fun _ => iff_of_false id (by omega)
        · exact (CalledOnce.gap (by omega)).of_iff (fun _ => Iff.rfl) fun x => by omega
      rw [callouts_cons hctop (by omega) hover]
      refine ((hcall.append hgap (fun _ _ _ => False.elim) fun _ _ => False.elim).append (ih h.tail hp')
        (fun x y hx hy => ?_) fun x y hx hy => ?_).of_iff (fun x => ?_) fun x => ?_
      · have hlt := hbefore x (hx.resolve_right id)
        rw [inPending_some] at hy
        omega
      · have hgap := hx.resolve_left id
        omega
      · rw [or_iff_left id, inPending_some, ← or_assoc, hjoin, createdAt_cons]
        constructor
        · rintro ((hx | hx) | hx)
          · exact .inl hx
          · exact .inr ⟨hx.1, hx.2.1, .inl hx.2.2⟩
          · exact .inr ⟨by omega, hx.2.1, .inr hx.2.2⟩
        · rintro (hx | ⟨h1, h2, hx | hx⟩)
          · exact .inl (.inl hx)
          · exact .inl (.inr ⟨h1, h2, hx⟩)
          · by_cases hxc : x ≤ c.stop
            · by_cases hxs : c.start ≤ x
              · exact .inl (.inr ⟨h1, h2, hxs, hxc⟩)
              · exact absurd (createdAt_cons.mpr (.inr hx)) (h.not_created (by omega))
            · exact .inr ⟨by omega, h2, hx⟩
      · rw [or_iff_right id]
        constructor
        · rintro (hx | ⟨h1, h2, h3⟩)
          · exact ⟨hx.1, by omega, h.not_created hx.2⟩
          · refine ⟨by omega, h2, fun hc => ?_⟩
            rcases createdAt_cons.mp hc with hc | hc
            · omega
            · exact h3 hc
        · rintro ⟨h1, h2, h3⟩
          rw [createdAt_cons, not_or] at h3
          by_cases hxs : x < c.start
          · exact .inl ⟨h1, hxs⟩
          · exact .inr ⟨by omega, h2, h3.2⟩
    · have hskip : callouts e s overlap (c :: created) = callouts e s overlap created := by
        rw [callouts, if_neg hdone, if_neg]
        rw [overlape_iff]
        omega
      have hoff : ∀ x, s ≤ x → x ≤ e → (CreatedAt created x ↔ CreatedAt (c :: created) x) := fun x h1 h2 => by
        rw [createdAt_cons]
        exact (or_iff_right fun hc => by omega).symm
      rw [hskip]
      refine (ih h.tail hp).of_iff (fun x => or_congr_right ?_) fun x => ?_
      · exact and_congr_right fun h1 => and_congr_right (hoff x h1)
      · exact and_congr_right fun h1 => and_congr_right fun h2 => not_congr (hoff x h1 h2)

theorem callouts_inside (h : Ordered e created) (x : Nat) :
    CalledAt (callouts e s none created) true x ↔ s ≤ x ∧ x ≤ e ∧ CreatedAt created x :=
  ((callouts_called h pending_none).inside x).trans (or_iff_right not_inPending_none)

theorem callouts_outside (h : Ordered e created) (x : Nat) :
    CalledAt (callouts e s none created) false x ↔ s ≤ x ∧ x ≤ e ∧ ¬ CreatedAt created x :=
  (callouts_called h pending_none).outside x

theorem callouts_within (h : Ordered e created) (ho : o ∈ callouts e s none created) :
    o.start ≤ o.stop ∧ s ≤ o.start ∧ o.stop ≤ e := by
  have hv := (callouts_called h pending_none).valid o ho
  have hpoint : ∀ x, o.start ≤ x → x ≤ o.stop → s ≤ x ∧ x ≤ e := fun x h1 h2 => by
    have hx : CalledAt (callouts e s none created) o.overlap x := ⟨o, ho, rfl, h1, h2⟩
    cases hover : o.overlap with
    | true => exact ((callouts_inside h x).mp (hover ▸ hx)).imp_right And.left
    | false => exact ((callouts_outside h x).mp (hover ▸ hx)).imp_right And.left
  exact ⟨hv, (hpoint o.start le_rfl hv).1, (hpoint o.stop hv le_rfl).2⟩

/-- For a range that has the greatest number, `nonoverlap` is always called for that number: `purgestart`
never passes it. -/
theorem callouts_top (hvalid : ∀ c ∈ created, c.stop ≤ top) (hs : s ≤ top) :
    CalledAt (callouts top s overlap created) false top := by
  have happ : ∀ {cs cs' : List Callout}, CalledAt cs' false top → CalledAt (cs ++ cs') false top :=
    fun ⟨o, ho, h⟩ => ⟨o, mem_append_right _ ho, h⟩
  induction created generalizing s overlap with
  | nil =>
    rw [callouts, if_pos hs]
    exact happ ⟨_, mem_singleton_self _, rfl, hs, le_rfl⟩
  | cons c created ih =>
    obtain ⟨hc, hrest⟩ := forall_mem_cons.mp hvalid
    rw [callouts, if_neg (Nat.not_lt.mpr hs)]
    split
    · refine happ (ih hrest ?_)
      split <;> omega
    · exact ih hrest hs

/-- **The range is called out for piece by piece.** For created ranges in the order of their starts, nested,
overlapping or next to each other: that the ranges called out for lie in the range, two of a kind apart,
those for `overlap` the points that are created and those for `nonoverlap` the others, is so exactly if
not both the range and a created one have the greatest number. -/
theorem callouts_exact (created : List Create) (start stop : Nat) (horder : created.Pairwise fun c d => c.start ≤ d.start)
    (hvalid : ∀ c ∈ created, c.start ≤ c.stop ∧ c.stop ≤ top) (hle : start ≤ stop) (hstop : stop ≤ top) :
    ((callouts stop start none created).Pairwise (fun a b => a.overlap = b.overlap → a.stop < b.start) ∧
      (∀ o ∈ callouts stop start none created, o.start ≤ o.stop ∧ start ≤ o.start ∧ o.stop ≤ stop) ∧
      (∀ x, CalledAt (callouts stop start none created) true x ↔ start ≤ x ∧ x ≤ stop ∧ CreatedAt created x) ∧
      ∀ x, CalledAt (callouts stop start none created) false x ↔ start ≤ x ∧ x ≤ stop ∧ ¬ CreatedAt created x) ↔
    (stop < top ∨ ∀ c ∈ created, c.stop < top) := by
  constructor
  · rintro ⟨-, -, -, hfalse⟩
    by_contra hcon
    push Not at hcon
    obtain ⟨htop, c, hc, hctop⟩ := hcon
    obtain rfl : stop = top := Nat.le_antisymm hstop htop
    have hcalled := (hfalse top).mp (callouts_top (fun c hc => (hvalid c hc).2) hle)
    exact hcalled.2.2 ⟨c, hc, (hvalid c hc).1.trans (hvalid c hc).2, hctop⟩
  · intro htop
    have h : Ordered stop created :=
      ⟨fun c hc => ⟨(hvalid c hc).1, (hvalid c hc).2, htop.imp_right fun h => h c hc⟩, horder⟩
    exact ⟨(callouts_called h pending_none).apart, fun o => callouts_within h, callouts_inside h, callouts_outside h⟩

/-- A range over nested created ranges, the last of which has the greatest number. -/
theorem callouts_exact_nested :
    let created : List Create := [⟨0, 50, 1, [0], false⟩, ⟨10, 20, 1, [0], false⟩, ⟨60, top, 1, [0], false⟩]
    callouts 99 5 none created = [⟨true, 5, 50⟩, ⟨false, 51, 59⟩, ⟨true, 60, 99⟩] ∧
    ∀ x, CalledAt (callouts 99 5 none created) true x ↔ 5 ≤ x ∧ x ≤ 99 ∧ CreatedAt created x :=
  ⟨by decide +kernel, ((callouts_exact _ 5 99 (by decide) (by decide) (by decide) (by decide)).mpr
    (.inl (by decide))).2.2.1⟩

/-- The greatest number is created, and called out for as created and as not. -/
theorem callouts_both :
    callouts top 0 none [⟨0, top, 1, [0], false⟩] = [⟨true, 0, top⟩, ⟨false, top, top⟩] := by
  decide +kernel

/-! ## Doing it -/

/-- The blocks with an owner are as before, and the free points are those before and those of `P`,
put together by `join`. -/
structure Becomes (join : Prop → Prop → Prop) (l l' : List Block) (P : Nat → Prop) : Prop where
  tidy : Tidy l'
  owned : owned l' = owned l
  free : ∀ x, At 0 l' x ↔ join (At 0 l x) (P x)

theorem Becomes.congr {join : Prop → Prop → Prop} {l' : List Block} {P P' : Nat → Prop} (h : Becomes join l l' P)
    (hP : ∀ x, P x ↔ P' x) : Becomes join l l' P' :=
  ⟨h.tidy, h.owned, fun x => by rw [h.free, hP]⟩

/-- The ranges called out for are dealt with one after the other. -/
theorem fold_callOut {join : Prop → Prop → Prop} {f : List Block → Nat → Nat → List Block} (overlap : Bool)
    (hnil : ∀ p, join p False ↔ p) (hassoc : ∀ p q r, join (join p q) r ↔ join p (q ∨ r)) (cs : List Callout)
    (h : Tidy l) (hf : ∀ c ∈ cs, c.overlap = overlap → ∀ l', Tidy l' → owned l' = owned l →
      Becomes join l' (f l' c.start c.stop) fun x => c.start ≤ x ∧ x ≤ c.stop) :
    Becomes join l (cs.foldl (callOut overlap f) l) (CalledAt cs overlap) := by
  induction cs generalizing l with
  | nil => exact ⟨h, rfl, fun x => by rw [iff_false_intro calledAt_nil, hnil]; rfl⟩
  | cons c cs ih =>
    obtain ⟨hfirst, hrest⟩ := forall_mem_cons.mp hf
    rw [foldl_cons]
    by_cases hc : c.overlap = overlap
    · rw [callOut, if_pos hc]
      have h1 := hfirst hc l h rfl
      have h2 := ih h1.tidy fun d hd hdo l' ht ho => hrest d hd hdo l' ht (ho.trans h1.owned)
      refine ⟨h2.tidy, h2.owned.trans h1.owned, fun x => ?_⟩
      rw [h2.free, h1.free, hassoc, calledAt_cons, and_iff_right hc]
    · rw [callOut, if_neg hc]
      refine (ih h hrest).congr fun x => ?_
      rw [calledAt_cons]
      exact (or_iff_right fun hx => hc hx.1).symm

/-- The ranges called out for become free, if none of them belongs to a process. -/
theorem limitOp_add {overlap : Bool} (h : Tidy l) (hc : Sorted created) (hetop : e < top)
    (hun : ∀ o ∈ callouts e s none created, o.overlap = overlap → Unowned l o.start o.stop) :
    Becomes Or l (limitOp created overlap (addCallout []) l s e) (CalledAt (callouts e s none created) overlap) := by
  refine fold_callOut overlap (fun _ => or_iff_left id) (fun _ _ _ => or_assoc) _ h fun o ho hover l' ht hown => ?_
  obtain ⟨hv, hs, he⟩ := callouts_within hc.ordered ho
  have hadd : Grown top l' (addCallout [] l' o.start o.stop) o.start o.stop :=
    addRange_spec hv (by omega) ht fun b hb hb0 => by
      have hmem : b ∈ owned l := hown ▸ mem_filter.mpr ⟨hb, bne_iff_ne.mpr hb0⟩
      exact hun o ho hover b (mem_filter.mp hmem).1 hb0
  exact ⟨hadd.tidy, hadd.owned, hadd.free⟩

/-- What is created of a range that belongs to nobody becomes free. -/
theorem limitOp_inside (h : Tidy l) (hc : Sorted created) (hetop : e < top) (hun : Unowned l s e) :
    Becomes Or l (limitOp created true (addCallout []) l s e) fun x => s ≤ x ∧ x ≤ e ∧ CreatedAt created x := by
  refine (limitOp_add h hc hetop fun o ho _ b hb hown => ?_).congr fun x => callouts_inside hc.ordered x
  obtain ⟨hv, hs, he⟩ := callouts_within hc.ordered ho
  exact (hun b hb hown).imp (fun h => by omega) fun h => by omega

/-- What is not created of a range becomes free, if none of it belongs to a process. -/
theorem limitOp_outside (h : Tidy l) (hc : Sorted created) (hetop : e < top)
    (hun : ∀ x, OwnedAt l x → s ≤ x → x ≤ e → CreatedAt created x) :
    Becomes Or l (limitOp created false (addCallout []) l s e) fun x => s ≤ x ∧ x ≤ e ∧ ¬ CreatedAt created x := by
  refine (limitOp_add h hc hetop fun o ho hno b hb hown => ?_).congr fun x => callouts_outside hc.ordered x
  by_contra hmeet
  have hbv := (h.valid b hb).1
  have hov := (callouts_within hc.ordered ho).1
  -- a point that is in both
  obtain ⟨x, hbx, hox⟩ : ∃ x, (b.start ≤ x ∧ x ≤ b.stop) ∧ o.start ≤ x ∧ x ≤ o.stop :=
    ⟨max b.start o.start, by omega, by omega⟩
  have hcall := (callouts_outside hc.ordered x).mp ⟨o, ho, hno, hox⟩
  exact hcall.2.2 (hun x ⟨b, hb, hown, hbx⟩ hcall.1 hcall.2.1)

theorem limitOp_remove (h : Tidy l) (hc : Sorted created) :
    Becomes (fun p q => p ∧ ¬ q) l (limitOp created false (removeCallout []) l s e)
      fun x => s ≤ x ∧ x ≤ e ∧ ¬ CreatedAt created x := by
  refine Becomes.congr (fold_callOut false (fun p => ?_) (fun p q r => ?_) _ h fun o ho _ l' ht _ => ?_)
    fun x => callouts_outside hc.ordered x
  · exact and_iff_left not_false
  · rw [not_or, and_assoc]
  · have hrem : Removed l' (removeCallout [] l' o.start o.stop) o.start o.stop 0 :=
      removeRange_spec (callouts_within hc.ordered ho).1 ht ht.clear_free
    exact ⟨hrem.tidy, removeRange_owned, fun x => (hrem.points 0 x).trans
      (and_congr_right fun _ => ⟨fun hx => hx rfl, fun hx _ => hx⟩)⟩

/-! ## The list of created ranges -/

theorem insertCreate_perm : (insertCreate created c).Perm (c :: created) := by
  conv_rhs => rw [← takeWhile_append_dropWhile (p := fun d : Create => decide (d.start ≤ c.start)) (l := created)]
  exact perm_middle

theorem mem_insertCreate : d ∈ insertCreate created c ↔ d = c ∨ d ∈ created :=
  insertCreate_perm.mem_iff.trans mem_cons

theorem createdAt_insert : CreatedAt (insertCreate created c) x ↔ (c.start ≤ x ∧ x ≤ c.stop) ∨ CreatedAt created x := by
  simp only [CreatedAt, mem_insertCreate, or_and_right, exists_or, exists_eq_left]

theorem insertCreate_cons : insertCreate (d :: created) c =
    if d.start ≤ c.start then d :: insertCreate created c else c :: d :: created := by
  by_cases hd : d.start ≤ c.start <;> simp [insertCreate, hd]

theorem insertCreate_sorted (h : Sorted created) (hc : c.start ≤ c.stop ∧ c.stop < top) : Sorted (insertCreate created c) := by
  induction created with
  | nil => exact ⟨forall_mem_singleton.mpr hc, pairwise_singleton _ _⟩
  | cons d created ih =>
    have hrest := ih h.tail
    rw [insertCreate_cons]
    split
    case isTrue hd =>
      refine ⟨forall_mem_cons.mpr ⟨h.head, hrest.valid⟩, pairwise_cons.mpr ⟨fun f hf => ?_, hrest.order⟩⟩
      rcases mem_insertCreate.mp hf with rfl | hf
      · exact hd
      · exact h.le hf
    case isFalse hd =>
      refine ⟨forall_mem_cons.mpr ⟨hc, h.valid⟩, pairwise_cons.mpr ⟨fun f hf => ?_, h.order⟩⟩
      have := h.first f hf
      omega

section

variable {node : List Nat} {pid : Nat}

/-- The point is left of a created range when the range is destroyed. -/
def Left (node : List Nat) (pid s e : Nat) (c : Create) (x : Nat) : Prop :=
  (c.start ≤ x ∧ x ≤ c.stop) ∧ ¬ ((c.node = node ∧ c.creator = pid) ∧ s ≤ x ∧ x ≤ e)

structure Destroyed (node : List Nat) (pid s e : Nat) (created created' : List Create) : Prop where
  sorted : Sorted created'
  start : ∀ c' ∈ created', ∃ c ∈ created, c.start ≤ c'.start
  points : ∀ x, CreatedAt created' x ↔ ∃ c ∈ created, Left node pid s e c x

theorem Destroyed.start_cons {created' : List Create} (h : Destroyed node pid s e created created') :
    ∀ c' ∈ created', ∃ d ∈ c :: created, d.start ≤ c'.start := fun c' hc' =>
  let ⟨d, hd, hle⟩ := h.start c' hc'
  ⟨d, .tail _ hd, hle⟩

theorem Destroyed.cons {created' : List Create} {c' : Create} (h : Sorted (c :: created))
    (hd : Destroyed node pid s e created created') (hstart : c'.start = c.start) (hvalid : c'.start ≤ c'.stop ∧ c'.stop < top)
    (hpoints : ∀ x, c'.start ≤ x ∧ x ≤ c'.stop ↔ Left node pid s e c x) :
    Destroyed node pid s e (c :: created) (c' :: created') where
  sorted := ⟨forall_mem_cons.mpr ⟨hvalid, hd.sorted.valid⟩, pairwise_cons.mpr ⟨fun d' hd' => by
    obtain ⟨d, hmem, hle⟩ := hd.start d' hd'
    have := h.le hmem
    omega, hd.sorted.order⟩⟩
  start := forall_mem_cons.mpr ⟨⟨c, mem_cons_self, Nat.le_of_eq hstart.symm⟩, hd.start_cons⟩
  points := fun x => by
    rw [createdAt_cons, hpoints, hd.points]
    simp only [mem_cons, exists_eq_or_imp]

/-- The part of the range behind the hole is entered with those behind it. -/
theorem Destroyed.insert {created' : List Create} {rest : List Create} (hrest : Sorted (c :: rest))
    (hd : Destroyed node pid s e (insertCreate rest { c with start := e + 1 }) created') (hce : c.start ≤ e + 1) :
    Sorted created' ∧ (∀ c' ∈ created', c.start ≤ c'.start) ∧
      ∀ x, CreatedAt created' x ↔ Left node pid s e { c with start := e + 1 } x ∨ ∃ d ∈ rest, Left node pid s e d x := by
  refine ⟨hd.sorted, fun c' hc' => ?_, fun x => ?_⟩
  · obtain ⟨d, hmem, hle⟩ := hd.start c' hc'
    rcases mem_insertCreate.mp hmem with rfl | hmem
    · exact hce.trans hle
    · exact Nat.le_trans (hrest.le hmem) hle
  · rw [hd.points]
    simp only [mem_insertCreate, or_and_right, exists_or, exists_eq_left]

theorem destroyLoop_spec (hse : s ≤ e) (fuel : Nat) (h : Sorted created)
    (hfuel : created.countP (fun c => decide (c.start ≤ e)) ≤ fuel) :
    Destroyed node pid s e created (destroyLoop node pid s e fuel created) := by
  -- nothing is looked at behind the range
  have hfar : ∀ created : List Create, Sorted created → (∀ c ∈ created, e < c.start) →
      Destroyed node pid s e created created := fun created h hall =>
    ⟨h, fun c hc => ⟨c, hc, le_rfl⟩, fun x => exists_congr fun c => and_congr_right fun hc => by
      have := hall c hc
      exact iff_self_and.mpr fun hx hbad => by omega⟩
  induction fuel generalizing created with
  | zero =>
    refine hfar created h fun c hc => ?_
    have hnone := countP_eq_zero.mp (Nat.le_zero.mp hfuel) c hc
    simpa using hnone
  | succ fuel ih =>
    cases created with
    | nil => exact hfar [] h nofun
    | cons c rest =>
      obtain ⟨hcv, hctop⟩ := h.head
      rw [destroyLoop]
      by_cases hbehind : e < c.start
      · rw [if_pos hbehind]
        exact hfar (c :: rest) h fun d hd => hbehind.trans_le (h.first d hd)
      have hcount : rest.countP (fun c => decide (c.start ≤ e)) ≤ fuel := by
        rw [countP_cons, if_pos (decide_eq_true (by omega))] at hfuel
        omega
      have hinsert : (insertCreate rest { c with start := e + 1 }).countP (fun c => decide (c.start ≤ e)) ≤ fuel := by
        rwa [insertCreate_perm.countP_eq, countP_cons_of_neg (by simp)]
      rw [if_neg hbehind]
      by_cases hmatch : c.node ≠ node ∨ c.creator ≠ pid ∨ overlape c.start c.stop s e = false
      · rw [if_pos hmatch]
        refine (ih h.tail hcount).cons h rfl h.head fun x => iff_self_and.mpr fun hx hbad => ?_
        rcases hmatch with hm | hm | hm
        · exact hm hbad.1.1
        · exact hm hbad.1.2
        · rw [overlape_eq_false] at hm
          omega
      rw [if_neg hmatch]
      rw [not_or, not_or, not_not, not_not, Bool.not_eq_false, overlape_iff] at hmatch
      obtain ⟨hnode, hpid, hover⟩ := hmatch
      have hleft : ∀ x, Left node pid s e c x ↔ (c.start ≤ x ∧ x ≤ c.stop) ∧ ¬ (s ≤ x ∧ x ≤ e) := fun x => by
        rw [Left, and_iff_right (show c.node = node ∧ c.creator = pid from ⟨hnode, hpid⟩)]
      have hbehindHole : ∀ x, Left node pid s e { c with start := e + 1 } x ↔ e < x ∧ x ≤ c.stop := fun x =>
        ⟨fun hx => hx.1, fun hx => ⟨hx, fun hbad => by omega⟩⟩
      have hcons : ∀ x, (∃ d ∈ c :: rest, Left node pid s e d x) ↔
          Left node pid s e c x ∨ ∃ d ∈ rest, Left node pid s e d x := fun x => by
        simp only [mem_cons, exists_eq_or_imp]
      have hsplit := fun hstop : e < c.stop =>
        (ih (insertCreate_sorted (c := { c with start := e + 1 }) h.tail ⟨hstop, hctop⟩) hinsert).insert h (by omega)
      split
      case isTrue hall =>
        have hd := ih h.tail hcount
        refine ⟨hd.sorted, hd.start_cons, fun x => ?_⟩
        rw [hd.points, hcons, hleft]
        exact (or_iff_right fun hx => by omega).symm
      case isFalse hall =>
      split
      case isTrue hin =>
        obtain ⟨hsorted, hstart, hpoints⟩ := hsplit (by omega)
        refine ⟨⟨forall_mem_cons.mpr ⟨by dsimp only; omega, hsorted.valid⟩, pairwise_cons.mpr ⟨hstart, hsorted.order⟩⟩,
          forall_mem_cons.mpr ⟨⟨c, mem_cons_self, le_rfl⟩, fun c' hc' => ⟨c, mem_cons_self, hstart c' hc'⟩⟩, fun x => ?_⟩
        rw [createdAt_cons, hpoints, hcons, hbehindHole, hleft, ← or_assoc]
        refine or_congr_left ?_
        dsimp only
        omega
      case isFalse hin =>
      split
      case isTrue hfront =>
        obtain ⟨hsorted, hstart, hpoints⟩ := hsplit (by omega)
        refine ⟨hsorted, fun c' hc' => ⟨c, mem_cons_self, hstart c' hc'⟩, fun x => ?_⟩
        rw [hpoints, hcons, hbehindHole, hleft]
        refine or_congr_left ?_
        omega
      case isFalse hfront =>
        refine (ih h.tail hcount).cons h rfl (by dsimp only; omega) fun x => ?_
        rw [hleft]
        dsimp only
        omega

end

end QRV.Rsrcdb
