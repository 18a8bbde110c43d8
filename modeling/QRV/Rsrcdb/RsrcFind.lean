import QRV.Rsrcdb.Rsrc

/- The search for a range. Downwards it always ends, and upwards it does if no range that is accepted
   on the way has wrapped around (`Upward`; so it is if the limits end an alignment below 2^64): in
   each round of the loop in a block one of the bounds of the range at hand comes nearer to the other
   (`fitLoop_spec`). What it finds is as long and as aligned as the request wants it, within the
   limits and inside one block that the request may have (`findRange_found`). Otherwise the candidate
   can wrap around (`findRange_wraps`). -/
namespace QRV.Rsrcdb

open List Option

variable {created : List Create} {rt : Root} {r : Request} {blk : Block} {start stop tmpStart tmpEnd : Nat}
  {owner limitStart limitEnd : Nat} {saved : Option Found} {f : Found}

/-! ## Where the search goes on -/

theorem nextPriority_ge (created : List Create) (start stop : Nat) :
    (if stop = top then top else stop + 1) ≤ (nextPriority created start stop false).1 := by
  unfold nextPriority
  dsimp only
  rw [if_neg Bool.false_ne_true]
  generalize (if stop = top then top else stop + 1) = value
  split
  · exact Nat.le_refl _
  · refine foldlRecOn (motive := fun acc : Nat × Nat => value ≤ acc.2) _ _ (Nat.le_refl _) fun acc h c _ => ?_
    split
    · exact Nat.le_trans h (Nat.le_max_left _ _)
    · exact h

theorem nextPriority_forward (hle : start ≤ stop) (hgo : (nextPriority created start stop false).2 = true) :
    start < (nextPriority created start stop false).1 := by
  have hge := nextPriority_ge created start stop
  have hne : (nextPriority created start stop false).1 ≠ start := bne_iff_ne.mp hgo
  split at hge <;> omega

theorem nextPriority_backward (created : List Create) (start stop : Nat) :
    (nextPriority created start stop true).1 ≤ start - 1 := by
  have hvalue : (if start = 0 then 0 else start - 1) = start - 1 := by
    split <;> omega
  unfold nextPriority
  dsimp only
  rw [if_pos rfl, hvalue]
  split
  · exact Nat.le_refl _
  · refine foldlRecOn (motive := fun acc : Nat × Nat => acc.2 ≤ start - 1) _ _ (Nat.le_refl _) fun acc h c _ => ?_
    split
    · rw [if_pos rfl]
      exact Nat.le_trans (Nat.min_le_left _ _) h
    · exact h

/-! ## One block -/

theorem alignment_pos : 0 < r.alignment := by
  unfold Request.alignment
  split <;> omega

theorem dvd_next {a n : Nat} (ha : 0 < a) : a ∣ n + (a - n % a) := by
  have hmod := Nat.mod_lt n ha
  have hdiv := Nat.div_add_mod n a
  refine ⟨n / a + 1, ?_⟩
  rw [Nat.mul_succ]
  omega

/-- Upwards, no range that is accepted in the block has wrapped around, in the rounds from `tmpStart` on. -/
def Unwrapped (created : List Create) (r : Request) (limitStart limitEnd : Nat) (blk : Block) : Nat → Nat → Prop
  | 0, _ => True
  | fuel + 1, tmpStart =>
    let tmpEnd := min blk.stop limitEnd
    let start := r.fit tmpStart tmpEnd
    let stop := (start + (r.length - 1)) % 2 ^ 64
    let next := nextPriority created start stop false
    (tmpStart ≤ tmpEnd ∧ r.length ≤ succ64 (tmpEnd - tmpStart)) ∧ max blk.start limitStart ≤ start ∧ stop ≤ tmpEnd →
      tmpStart ≤ start ∧ start ≤ stop ∧ (rangePriority created start stop ≠ 0 → next.2 = true →
        Unwrapped created r limitStart limitEnd blk fuel next.1)

/-- So it is in every block that the search comes to. -/
def Upward (created : List Create) (r : Request) (owner limitStart limitEnd : Nat) : List Block → Option Found → Prop
  | [], _ => True
  | blk :: rest, saved =>
    blk.start ≤ limitEnd →
      (r.compatible owner blk = true →
        Unwrapped created r limitStart limitEnd blk (2 ^ 64 + 1) (max blk.start limitStart)) ∧
      ∀ saved', fitLoop created r owner limitStart limitEnd blk (2 ^ 64 + 1) (max blk.start limitStart)
        (min blk.stop limitEnd) saved = some (saved', false) → Upward created r owner limitStart limitEnd rest saved'

theorem fit_spec (hle : tmpStart ≤ tmpEnd) (hlen : r.length ≤ tmpEnd - tmpStart + 1) (htop : tmpEnd ≤ top)
    (ha : r.alignment < 2 ^ 64) (h : r.topdown = false →
      tmpStart ≤ r.fit tmpStart tmpEnd ∧ r.fit tmpStart tmpEnd ≤ (r.fit tmpStart tmpEnd + (r.length - 1)) % 2 ^ 64) :
    r.alignment ∣ r.fit tmpStart tmpEnd ∧ r.fit tmpStart tmpEnd + (r.length - 1) < 2 ^ 64 ∧
    (r.topdown = true → r.fit tmpStart tmpEnd + (r.length - 1) ≤ tmpEnd) ∧
    (r.topdown = false → tmpStart ≤ r.fit tmpStart tmpEnd) := by
  have hpos := alignment_pos (r := r)
  have hmod := fun x => Nat.mod_lt x hpos
  have hmodle := fun x => Nat.mod_le x r.alignment
  unfold top at htop
  unfold Request.fit at *
  cases htd : r.topdown with
  | true =>
    simp only [if_true, reduceCtorEq, false_implies, and_true, true_implies]
    split
    case isTrue hz => exact ⟨Nat.dvd_of_mod_eq_zero hz, by omega, by omega⟩
    case isFalse => exact ⟨Nat.dvd_sub_mod _, by omega, by omega⟩
  | false =>
    have h := h htd
    simp only [htd, Bool.false_eq_true, if_false, false_implies, true_implies, true_and] at h ⊢
    split at h
    case isTrue hz =>
      rw [if_pos hz]
      exact ⟨Nat.dvd_of_mod_eq_zero hz, by omega, h.1⟩
    case isFalse hz =>
      have hsum : (tmpStart + (r.alignment - tmpStart % r.alignment)) % 2 ^ 64 =
          tmpStart + (r.alignment - tmpStart % r.alignment) := by omega
      rw [if_neg hz, hsum]
      rw [hsum] at h
      exact ⟨dvd_next hpos, by omega, h.1⟩

theorem unwrapped_of_le (htd : r.topdown = false) (h : limitEnd + r.alignment ≤ 2 ^ 64) (fuel : Nat) :
    Unwrapped created r limitStart limitEnd blk fuel tmpStart := by
  have hpos := alignment_pos (r := r)
  induction fuel generalizing tmpStart with
  | zero => trivial
  | succ fuel ih =>
    rintro ⟨⟨hle, hlen⟩, -⟩
    have hlen := hlen.trans (Nat.mod_le _ _)
    have hlenpos := r.pos
    have hfit : tmpStart ≤ r.fit tmpStart (min blk.stop limitEnd) ∧
        r.fit tmpStart (min blk.stop limitEnd) < tmpStart + r.alignment := by
      unfold Request.fit
      rw [htd, if_neg Bool.false_ne_true]
      dsimp only
      split
      · omega
      · rw [if_neg Bool.false_ne_true, Nat.mod_eq_of_lt (by omega)]
        omega
    refine ⟨hfit.1, ?_, fun _ _ => ih⟩
    rw [Nat.mod_eq_of_lt (by omega)]
    exact Nat.le_add_right _ _

theorem upward_of_le (htd : r.topdown = false) (h : limitEnd + r.alignment ≤ 2 ^ 64) (blocks : List Block)
    (saved : Option Found) : Upward created r owner limitStart limitEnd blocks saved := by
  induction blocks generalizing saved with
  | nil => trivial
  | cons blk rest ih => exact fun _ => ⟨fun _ => unwrapped_of_le htd h _, fun saved' _ => ih saved'⟩

/-- The range lies in a block that the request may have. -/
def InBlock (r : Request) (owner : Nat) (blk : Block) (f : Found) : Prop :=
  f.start ≤ f.stop ∧ r.compatible owner blk = true ∧ blk.start ≤ f.start ∧ f.stop ≤ blk.stop

/-- The range is what the request wants. -/
structure Serves (r : Request) (owner limitStart limitEnd : Nat) (blk : Block) (f : Found) : Prop where
  block : InBlock r owner blk f
  length : f.stop + 1 = f.start + r.length
  aligned : r.alignment ∣ f.start
  limits : limitStart ≤ f.start ∧ f.stop ≤ limitEnd

/-- The loop in a block ends, and what is saved then is what was saved before or has the property. -/
def Saves (P : Found → Prop) (saved : Option Found) (res : Option (Option Found × Bool)) : Prop :=
  ∃ saved' done, res = some (saved', done) ∧ (saved' = saved ∨ ∃ f, saved' = some f ∧ P f)

theorem fitLoop_spec (htop : limitEnd ≤ top) (ha : r.alignment < 2 ^ 64) (fuel : Nat) (hlimit : tmpEnd ≤ limitEnd)
    (h : r.topdown = false → r.compatible owner blk = true → Unwrapped created r limitStart limitEnd blk fuel tmpStart)
    (htd : r.topdown = true → tmpStart = max blk.start limitStart)
    (hfw : r.topdown = false → tmpEnd = min blk.stop limitEnd) (hpos : 1 ≤ fuel) (hfuel : tmpEnd + 2 ≤ fuel + tmpStart) :
    Saves (Serves r owner limitStart limitEnd blk) saved
      (fitLoop created r owner limitStart limitEnd blk fuel tmpStart tmpEnd saved) := by
  induction fuel generalizing tmpStart tmpEnd saved with
  | zero => exact absurd hpos (by omega)
  | succ fuel ih =>
    have hlenpos := r.pos
    rw [fitLoop]
    split
    case isFalse => exact ⟨saved, false, rfl, .inl rfl⟩
    case isTrue hfits =>
      obtain ⟨hcompat, hle, hlen⟩ := hfits
      dsimp only
      split
      case isTrue => exact ⟨saved, false, rfl, .inl rfl⟩
      case isFalse hin =>
        -- the range is accepted, so it is one that has not wrapped around
        obtain ⟨hin1, hin2⟩ := not_or.mp hin
        have hround := fun hd => h hd hcompat (by
          rw [← hfw hd]
          exact ⟨⟨hle, hlen⟩, Nat.le_of_not_lt hin1, Nat.le_of_not_lt (hfw hd ▸ hin2)⟩)
        obtain ⟨haligned, hwrap, hdown, hup⟩ := fit_spec hle (Nat.le_trans hlen (Nat.mod_le _ _)) (hlimit.trans htop) ha
          fun hd => hfw hd ▸ ⟨(hround hd).1, (hround hd).2.1⟩
        have hgoes := fun hd => hfw hd ▸ (hround hd).2.2
        rw [Nat.mod_eq_of_lt hwrap] at hin2 hgoes ⊢
        generalize r.fit tmpStart tmpEnd = start at haligned hwrap hdown hup hin1 hin2 hgoes ⊢
        have hserves : ∀ prio, Serves r owner limitStart limitEnd blk ⟨start, start + (r.length - 1), prio⟩ := fun prio =>
          ⟨⟨Nat.le_add_right _ _, hcompat, by dsimp only; omega, by dsimp only; omega⟩, by dsimp only; omega, haligned,
            by dsimp only; omega⟩
        generalize hsaved1 : (if better saved (rangePriority created start (start + (r.length - 1))) = true then
          some (⟨start, start + (r.length - 1), rangePriority created start (start + (r.length - 1))⟩ : Found)
          else saved) = saved1
        have hsave : saved1 = saved ∨ ∃ f, saved1 = some f ∧ Serves r owner limitStart limitEnd blk f := by
          subst hsaved1
          split
          · exact .inr ⟨_, rfl, hserves _⟩
          · exact .inl rfl
        -- whatever the loop saves later
        have hlater : ∀ {res}, Saves (Serves r owner limitStart limitEnd blk) saved1 res →
            Saves (Serves r owner limitStart limitEnd blk) saved res := by
          rintro _ ⟨saved', done, rfl, rfl | hnew⟩
          · exact ⟨saved', done, rfl, hsave⟩
          · exact ⟨saved', done, rfl, .inr hnew⟩
        split
        case isTrue => exact ⟨saved1, true, rfl, hsave⟩
        case isFalse hprio =>
        split
        case isFalse => exact ⟨saved1, false, rfl, hsave⟩
        case isTrue hgo =>
          -- one of the bounds comes nearer to the other
          cases htop : r.topdown with
          | true =>
            rw [htop] at hgo
            have hback := nextPriority_backward created start (start + (r.length - 1))
            have hne : (nextPriority created start (start + (r.length - 1)) true).1 ≠ start + (r.length - 1) :=
              bne_iff_ne.mp hgo
            have hd := hdown htop
            have ht := htd htop
            rw [if_pos rfl]
            refine hlater (ih ?_ (fun hfalse => nomatch htop.symm.trans hfalse) (fun _ => rfl)
              (fun hfalse => nomatch htop.symm.trans hfalse) ?_ ?_) <;> omega
          | false =>
            rw [htop] at hgo
            have hnext := nextPriority_forward (Nat.le_add_right _ _) hgo
            have hu := hup htop
            have ht := hfw htop
            rw [if_neg Bool.false_ne_true]
            refine hlater (ih ?_ (fun _ _ => hgoes htop hprio hgo) (fun htrue => nomatch htop.symm.trans htrue)
              (fun _ => rfl) ?_ ?_) <;> omega

/-! ## All blocks -/

/-- What was found lies in a block of the list. -/
def Fits (rt : Root) (r : Request) (owner : Nat) (f : Found) : Prop := ∃ blk ∈ rt.active, InBlock r owner blk f

/-- Only ranges that fit are kept. -/
def Good (rt : Root) (r : Request) (owner : Nat) (found : Option Found) : Prop := ∀ f ∈ found, Fits rt r owner f

theorem good_none : Good rt r owner none := fun _ h => absurd h (not_mem_none _)

theorem scanBlocks_spec (htop : limitEnd ≤ top) (ha : r.alignment < 2 ^ 64) (blocks : List Block)
    (h : r.topdown = false → Upward rt.created r owner limitStart limitEnd blocks saved)
    (hmem : ∀ blk ∈ blocks, blk ∈ rt.active)
    (hsaved : ∀ f ∈ saved, ∃ blk ∈ rt.active, Serves r owner limitStart limitEnd blk f) :
    ∃ found, scanBlocks rt.created r owner limitStart limitEnd blocks saved = some found ∧
      ∀ f ∈ found, ∃ blk ∈ rt.active, Serves r owner limitStart limitEnd blk f := by
  induction blocks generalizing saved with
  | nil => exact ⟨saved, rfl, hsaved⟩
  | cons blk rest ih =>
    obtain ⟨hblk, hrest⟩ := forall_mem_cons.mp hmem
    rw [scanBlocks]
    split
    · exact ⟨saved, rfl, hsaved⟩
    · next hstart =>
      have hblock := fun hd => h hd (Nat.le_of_not_lt hstart)
      have hlast := htop
      unfold top at hlast
      obtain ⟨saved', done, heq, hs⟩ : Saves (Serves r owner limitStart limitEnd blk) saved (fitLoop rt.created r owner
          limitStart limitEnd blk (2 ^ 64 + 1) (max blk.start limitStart) (min blk.stop limitEnd) saved) :=
        fitLoop_spec htop ha _ (Nat.min_le_right _ _) (fun hd => (hblock hd).1) (fun _ => rfl) (fun _ => rfl) (by omega)
          (by omega)
      have hsaved' : ∀ f ∈ saved', ∃ blk ∈ rt.active, Serves r owner limitStart limitEnd blk f := by
        rcases hs with rfl | ⟨f, rfl, hf⟩
        · exact hsaved
        · intro g hg
          obtain rfl := mem_some_iff.mp hg
          exact ⟨blk, hblk, hf⟩
      rw [heq, bind_some]
      dsimp only
      split
      · exact ⟨saved', rfl, hsaved'⟩
      · next hdone =>
        exact ih (fun hd => (hblock hd).2 saved' (by rw [heq, Bool.eq_false_of_not_eq_true hdone])) hrest hsaved'

theorem searchOrder_mem {topdown : Bool} (h : blk ∈ searchOrder rt.active topdown limitStart limitEnd) : blk ∈ rt.active := by
  unfold searchOrder at h
  split at h
  · exact (takeWhile_sublist _).mem (mem_reverse.mp h)
  · exact (dropWhile_sublist _).mem h

theorem findRange_spec (htop : limitEnd ≤ top) (ha : r.alignment < 2 ^ 64) (h : r.topdown = false →
    Upward rt.created r owner limitStart limitEnd (searchOrder rt.active r.topdown limitStart limitEnd) none) :
    ∃ found, findRange rt r owner limitStart limitEnd = some found ∧
      ∀ f ∈ found, ∃ blk ∈ rt.active, Serves r owner limitStart limitEnd blk f :=
  scanBlocks_spec htop ha _ h (fun _ h => searchOrder_mem h) fun _ h => absurd h (not_mem_none _)

/-- **What the search finds serves the request.** Downwards, or if no range that is accepted has wrapped
around, the search for a range ends, for all lists, and what it finds has the length and the alignment
of the request and lies within the limits, in one block that is the owner's or shared. -/
theorem findRange_found (rt : Root) (r : Request) (owner limitStart limitEnd : Nat) (htop : limitEnd ≤ top)
    (ha : r.alignment < 2 ^ 64) (h : r.topdown = false →
      Upward rt.created r owner limitStart limitEnd (searchOrder rt.active r.topdown limitStart limitEnd) none) :
    ∃ found, findRange rt r owner limitStart limitEnd = some found ∧ ∀ f ∈ found,
      f.stop + 1 = f.start + r.length ∧ r.alignment ∣ f.start ∧ limitStart ≤ f.start ∧ f.stop ≤ limitEnd ∧
      ∃ blk ∈ rt.active, r.compatible owner blk = true ∧ blk.start ≤ f.start ∧ f.stop ≤ blk.stop := by
  obtain ⟨found, hrun, hfound⟩ := findRange_spec htop ha h
  refine ⟨found, hrun, fun f hf => ?_⟩
  obtain ⟨blk, hblk, ⟨-, hin⟩, hlen, halign, hlimits⟩ := hfound f hf
  exact ⟨hlen, halign, hlimits.1, hlimits.2, blk, hblk, hin⟩

/-- Eight numbers are looked for upwards to the end of the space. -/
theorem findRange_found_up :
    let rt : Root := ⟨[], [], [⟨0, 100, 0, false⟩]⟩
    let r : Request := ⟨[0], 8, none, 8, false, false, by decide⟩
    ∃ found, findRange rt r 0 0 top = some found ∧ ∀ f ∈ found,
      f.stop + 1 = f.start + r.length ∧ r.alignment ∣ f.start ∧ 0 ≤ f.start ∧ f.stop ≤ top ∧
      ∃ blk ∈ rt.active, r.compatible 0 blk = true ∧ blk.start ≤ f.start ∧ f.stop ≤ blk.stop :=
  findRange_found _ _ 0 0 top (Nat.le_refl _) (by decide) fun _ _ =>
    ⟨fun _ _ => ⟨by decide +kernel, by decide +kernel, fun h => absurd rfl h⟩, fun _ h => by
      have hdone : fitLoop [] ⟨[0], 8, none, 8, false, false, by decide⟩ 0 0 top ⟨0, 100, 0, false⟩ (2 ^ 64 + 1) 0 100 none =
          some (some ⟨0, 7, 0⟩, true) := by decide +kernel
      exact absurd (hdone.symm.trans h) (by simp)⟩

/-- From a candidate that wraps around to 0 the search comes back to where it was. -/
theorem fitLoop_endless (fuel : Nat) :
    fitLoop [⟨0, top - 2, 1, [0], false⟩] ⟨[0], 1, none, 4, false, false, by decide⟩ 0 0 (top - 1) ⟨0, top - 1, 0, false⟩
      (fuel + 1) 0 (top - 1) none = none := by
  have hloop : fitLoop [⟨0, top - 2, 1, [0], false⟩] ⟨[0], 1, none, 4, false, false, by decide⟩ 0 0 (top - 1)
      ⟨0, top - 1, 0, false⟩ fuel (top - 1) (top - 1) (some ⟨0, 0, 1⟩) = none := by
    induction fuel with
    | zero => rfl
    | succ fuel ih => exact ih
  exact hloop

/-- The aligned range ends behind 2^64 and is found all the same; and with a range of higher priority in
front of the last numbers the search does not end. -/
theorem findRange_wraps :
    findRange ⟨[], [], [⟨2 ^ 64 - 15, top, 0, false⟩]⟩ ⟨[0], 15, none, 8, false, false, by decide⟩ 0 (2 ^ 64 - 15) top =
      some (some ⟨2 ^ 64 - 8, 6, 0⟩) ∧
    findRange ⟨[], [⟨0, top - 2, 1, [0], false⟩], [⟨0, top - 1, 0, false⟩]⟩ ⟨[0], 1, none, 4, false, false, by decide⟩
      0 0 (top - 1) = none := by
  refine ⟨by decide +kernel, ?_⟩
  rw [findRange, show searchOrder _ false 0 (top - 1) = [⟨0, top - 1, 0, false⟩] by decide +kernel, scanBlocks,
    if_neg (by decide +kernel)]
  exact congrArg (Option.bind · _) (fitLoop_endless (2 ^ 64))

/-! ## All created ranges -/

theorem tryStretch_spec (last : Bool) {cur : Nat × Nat} (hcur : cur.2 + r.alignment < 2 ^ 64) (hgood : Good rt r owner saved) :
    ∃ found, rt.tryStretch r owner last cur saved = some found ∧ Good rt r owner found := by
  unfold Root.tryStretch
  dsimp only
  generalize r.range.elim cur.1 (fun range => max range.1 cur.1) = lo
  have hhi : r.range.elim cur.2 (fun range => min range.2 cur.2) ≤ cur.2 := by
    cases r.range with
    | none => exact Nat.le_refl _
    | some range => exact Nat.min_le_right _ _
  generalize r.range.elim cur.2 (fun range => min range.2 cur.2) = hi at hhi ⊢
  obtain ⟨found, heq, hf⟩ := @findRange_spec rt r owner lo hi (by unfold top; omega) (by omega) fun hd =>
    upward_of_le hd (by omega) _ none
  rw [heq, map_some]
  refine ⟨_, rfl, ?_⟩
  cases found with
  | none => exact hgood
  | some f =>
    dsimp only
    split
    · exact fun g hg => (hf g hg).imp fun _ h => ⟨h.1, h.2.block⟩
    · exact hgood

theorem searchLoop_spec {cur : Option (Nat × Nat)} (hcreated : ∀ c ∈ created, c.stop + r.alignment < 2 ^ 64)
    (hcur : ∀ o ∈ cur, o.2 + r.alignment < 2 ^ 64) (hgood : Good rt r owner saved) :
    ∃ found, rt.searchLoop r owner created cur saved = some found ∧ Good rt r owner found := by
  induction created generalizing cur saved with
  | nil =>
    rw [Root.searchLoop.eq_def]
    cases cur with
    | none => exact ⟨saved, rfl, hgood⟩
    | some o => exact tryStretch_spec true (hcur o rfl) hgood
  | cons c created ih =>
    have hrest : ∀ d ∈ created, d.stop + r.alignment < 2 ^ 64 := fun d hd => hcreated d (.tail _ hd)
    have hnew : ∀ o ∈ some (c.start, c.stop), o.2 + r.alignment < 2 ^ 64 := fun o ho => by
      obtain rfl := mem_some_iff.mp ho
      exact hcreated c mem_cons_self
    rw [Root.searchLoop.eq_def]
    dsimp only
    split
    · cases cur with
      | none => exact ⟨saved, rfl, hgood⟩
      | some o => exact tryStretch_spec true (hcur o rfl) hgood
    split
    case isFalse => exact ih hrest hcur hgood
    case isTrue =>
      cases cur with
      | none => exact ih hrest hnew hgood
      | some o =>
        dsimp only
        split
        · obtain ⟨found, heq, hf⟩ := tryStretch_spec false (hcur o rfl) hgood
          rw [heq, bind_some]
          exact ih hrest hnew hf
        · refine ih hrest (fun o' ho' => ?_) hgood
          obtain rfl := mem_some_iff.mp ho'
          have h1 := hcur o rfl
          have h2 := hcreated c mem_cons_self
          omega

theorem search_spec (hcreated : ∀ c ∈ rt.created, c.stop + r.alignment < 2 ^ 64) :
    ∃ found, rt.search r owner = some found ∧ Good rt r owner found := by
  unfold Root.search
  split
  · exact ⟨none, rfl, good_none⟩
  · exact searchLoop_spec hcreated (fun _ h => absurd h (not_mem_none _)) good_none

end QRV.Rsrcdb
