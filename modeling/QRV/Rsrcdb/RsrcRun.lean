import QRV.Rsrcdb.RsrcLimit
import QRV.Rsrcdb.RsrcFind
import QRV.Lib.Run

/- Free points are those that are created and belong to no process.

   What is proved:
     1. `free_exact` — in every run of requests that meet the condition (`Proper`) this holds in
        every class, no point is both free and owned, and two blocks meet only if both are shared.
     2. `free_and_owned` — a process that gives back a range shared with another, or creates one that
        is still owned, makes points free that belong to a process; so does the greatest number, and a
        range created without memory is not free. -/
namespace QRV.Rsrcdb
open List

variable {l : List Block} {created created' : List Create} {rt : Root} {r : Request} {b c : Block} {s e x : Nat}

/-! ## The invariant of a class -/

structure Exact (created : List Create) (active : List Block) : Prop where
  tidy : Tidy active
  sorted : Sorted created
  free : ∀ x, At 0 active x ↔ CreatedAt created x ∧ ¬ OwnedAt active x

def Root.Inv (rt : Root) : Prop := Exact rt.created rt.active

theorem exact_nil : Exact [] [] :=
  ⟨TidyIn.nil, ⟨nofun, List.Pairwise.nil⟩, fun _ =>
    iff_of_false at_nil fun h => createdAt_nil h.1⟩

theorem Tidy.pair (h : Tidy l) (hb : b ∈ l) (hc : c ∈ l) :
    b.stop < c.start ∨ c.stop < b.start ∨ b = c ∨ (b.owner ≠ 0 ∧ c.owner ≠ 0 ∧ b.share = true ∧ c.share = true) := by
  induction l with
  | nil => exact absurd hb not_mem_nil
  | cons a l ih =>
    rcases mem_cons.mp hb with rfl | hb' <;> rcases mem_cons.mp hc with rfl | hc'
    · exact .inr (.inr (.inl rfl))
    · exact (h.before hc').2.imp_right fun hs => .inr (.inr hs)
    · rcases (h.before hb').2 with hlt | ⟨h1, h2, h3, h4⟩
      · exact .inr (.inl hlt)
      · exact .inr (.inr (.inr ⟨h2, h1, h4, h3⟩))
    · exact ih h.tail hb' hc'

theorem Exact.shrink (h : Exact created l) (hsorted : Sorted created') (hsub : ∀ x, CreatedAt created' x → CreatedAt created x)
    (hin : ∀ x, CreatedAt created x → ¬ CreatedAt created' x → s ≤ x ∧ x ≤ e) :
    Exact created' (limitOp created' false (removeCallout []) l s e) := by
  obtain ⟨htidy, howned, hfree⟩ := limitOp_remove (s := s) (e := e) h.tidy hsorted
  refine ⟨htidy, hsorted, fun x => ?_⟩
  rw [hfree, h.free, ownedAt_owned howned]
  constructor
  · rintro ⟨⟨hc, ho⟩, hnot⟩
    refine ⟨?_, ho⟩
    by_contra hc'
    obtain ⟨h1, h2⟩ := hin x hc hc'
    exact hnot ⟨h1, h2, hc'⟩
  · rintro ⟨hc', ho⟩
    exact ⟨⟨hsub x hc', ho⟩, fun hnot => hnot.2.2 hc'⟩

/-- A range that no process has any more is free where it is created. -/
theorem Exact.giveBack {l' : List Block} (h : Exact created l) (htidy : Tidy l') (hetop : e < top) (hun : Unowned l' s e)
    (hfree : ∀ x, At 0 l' x ↔ At 0 l x) (howned : ∀ x, OwnedAt l' x ↔ OwnedAt l x ∧ ¬ (s ≤ x ∧ x ≤ e)) :
    Exact created (limitOp created true (addCallout []) l' s e) := by
  obtain ⟨htidy', howned', hfree'⟩ := limitOp_inside htidy h.sorted hetop hun
  refine ⟨htidy', h.sorted, fun x => ?_⟩
  rw [hfree', hfree, h.free, ownedAt_owned howned', howned]
  constructor
  · rintro (⟨hc, ho⟩ | ⟨h1, h2, hc⟩)
    · exact ⟨hc, fun hx => ho hx.1⟩
    · exact ⟨hc, fun hx => hx.2 ⟨h1, h2⟩⟩
  · rintro ⟨hc, hnot⟩
    by_cases ho : OwnedAt l x
    · have hx : s ≤ x ∧ x ≤ e := not_not.mp fun hx => hnot ⟨ho, hx⟩
      exact .inr ⟨hx.1, hx.2, hc⟩
    · exact .inl ⟨hc, ho⟩

/-! ## Create and destroy -/

/-- No point that the request creates belongs to a process. -/
def NewUnowned (rt : Root) (start stop : Nat) : Prop :=
  ∀ b ∈ rt.active, b.owner ≠ 0 → ∀ x, x ≤ b.stop → b.start ≤ x → start ≤ x → x ≤ stop →
    ∃ c ∈ rt.created, c.start ≤ x ∧ x ≤ c.stop

instance (rt : Root) (start stop : Nat) : Decidable (NewUnowned rt start stop) := by
  unfold NewUnowned
  infer_instance

theorem Root.Inv.create (h : rt.Inv) (node : List Nat) (pid : Nat) (rsvp : Bool) (hse : s ≤ e) (hetop : e < top)
    (hun : NewUnowned rt s e) : (rt.create [] node s e pid rsvp).Inv := by
  obtain ⟨htidy, howned, hfree⟩ := limitOp_outside h.tidy h.sorted hetop fun x ⟨b, hb, ho, hx⟩ h1 h2 =>
    hun b hb ho x hx.2 hx.1 h1 h2
  refine ⟨htidy, insertCreate_sorted h.sorted ⟨hse, hetop⟩, fun x => ?_⟩
  have ho : OwnedAt (rt.create [] node s e pid rsvp).active x ↔ OwnedAt rt.active x := ownedAt_owned howned
  have hc : CreatedAt (rt.create [] node s e pid rsvp).created x ↔ (s ≤ x ∧ x ≤ e) ∨ CreatedAt rt.created x := createdAt_insert
  rw [ho, hc]
  refine (hfree x).trans ?_
  rw [h.free]
  constructor
  · rintro (⟨h1, h2⟩ | ⟨h1, h2, h3⟩)
    · exact ⟨.inr h1, h2⟩
    · refine ⟨.inl ⟨h1, h2⟩, fun ⟨b, hb, ho, hx⟩ => h3 ?_⟩
      exact hun b hb ho x hx.2 hx.1 h1 h2
  · rintro ⟨hin, ho⟩
    by_cases hcr : CreatedAt rt.created x
    · exact .inl ⟨hcr, ho⟩
    · have hx := hin.resolve_right hcr
      exact .inr ⟨hx.1, hx.2, hcr⟩

theorem Root.Inv.destroy (h : rt.Inv) (node : List Nat) (pid : Nat) : (rt.destroy [] node s e pid).Inv := by
  unfold Root.destroy
  split
  · exact h
  case isFalse hok =>
    have hd : Destroyed node pid s e rt.created (destroyLoop node pid s e rt.created.length rt.created) :=
      destroyLoop_spec (by omega) _ h.sorted (countP_le_length ..)
    refine Exact.shrink h hd.sorted (fun x hx => ?_) fun x hx hnot => ?_
    · obtain ⟨c, hc, hleft⟩ := (hd.points x).mp hx
      exact ⟨c, hc, hleft.1⟩
    · obtain ⟨c, hc, hcx⟩ := hx
      by_contra hout
      exact hnot ((hd.points x).mpr ⟨c, hc, hcx, fun hbad => hout hbad.2⟩)

/-! ## Attach and detach -/

theorem Root.Inv.attach (h : rt.Inv) {pid : Nat} (hpid : pid ≠ 0) (hcreated : ∀ c ∈ rt.created, c.stop + r.alignment < 2 ^ 64) :
    ∃ rt', rt.attach [] r pid = some rt' ∧ rt'.Inv := by
  obtain ⟨found, hsearch, hgood⟩ : ∃ found, rt.search r 0 = some found ∧ Good rt r 0 found := search_spec hcreated
  unfold Root.attach
  rw [hsearch, Option.map_some]
  cases found with
  | none => exact ⟨rt, rfl, h⟩
  | some f =>
    obtain ⟨blk, hblk, hle, hcompat, hstart, hstop⟩ := hgood f rfl
    have hetop : f.stop < top := by
      have := (h.tidy.valid blk hblk).2
      omega
    have hrem := removeRange_spec hle h.tidy (h.tidy.clear_free (s := f.start) (e := f.stop))
    have howned : owned (removeRange [] f.start f.stop 0 rt.active) = owned rt.active := removeRange_owned
    have hsharable : Sharable (removeRange [] f.start f.stop 0 rt.active) f.start f.stop r.share := fun b hb => by
      have hbv := (hrem.tidy.valid b hb).1
      by_cases hmeet : b.stop < f.start ∨ f.stop < b.start
      · exact hmeet.imp_right .inl
      -- a point of both the block and the range
      obtain ⟨x, hbx, hfx⟩ : ∃ x, (b.start ≤ x ∧ x ≤ b.stop) ∧ f.start ≤ x ∧ x ≤ f.stop :=
        ⟨max b.start f.start, by omega, by omega⟩
      by_cases hb0 : b.owner = 0
      · exact absurd hfx (((hrem.points 0 x).mp ⟨b, hb, hb0, hbx⟩).2 rfl)
      · have hbl : b ∈ rt.active := by
          have hmem : b ∈ owned rt.active := howned ▸ mem_filter.mpr ⟨hb, bne_iff_ne.mpr hb0⟩
          exact (mem_filter.mp hmem).1
        simp only [Request.compatible, Bool.or_eq_true, beq_iff_eq, Bool.and_eq_true, bne_iff_ne] at hcompat
        rcases hcompat with hfree | ⟨⟨-, hbs⟩, hrs⟩
        · exact absurd ⟨b, hbl, hb0, hbx⟩ (h.tidy.not_both ⟨blk, hblk, hfree, by omega, by omega⟩)
        · rcases h.tidy.pair hbl hblk with hp | hp | rfl | ⟨-, -, hp, -⟩
          · omega
          · omega
          · exact .inr (.inr ⟨hb0, hbs, hrs⟩)
          · exact .inr (.inr ⟨hb0, hp, hrs⟩)
    have hgiven := addRangePid_spec hpid hle hetop hrem.tidy hsharable
    refine ⟨_, rfl, hgiven.tidy, h.sorted, fun x => ?_⟩
    refine (hgiven.free x).trans ?_
    rw [hrem.points, h.free]
    have ho := (hgiven.owned x).trans (or_congr_left (ownedAt_owned howned))
    constructor
    · rintro ⟨⟨hc, hno⟩, hout⟩
      exact ⟨hc, fun hx => (ho.mp hx).elim hno (hout rfl)⟩
    · rintro ⟨hc, hno⟩
      exact ⟨⟨hc, fun hx => hno (ho.mpr (.inl hx))⟩, fun _ hx => hno (ho.mpr (.inr hx))⟩

/-- The blocks that meet what was found belong to the process and overlap no other. -/
def Separate (active : List Block) (pid : Nat) (f : Found) : Prop :=
  (∀ b ∈ active, overlape f.start f.stop b.start b.stop = true → b.owner = pid) ∧
    active.Pairwise fun a b =>
      overlape f.start f.stop a.start a.stop = true ∨ overlape f.start f.stop b.start b.stop = true → a.stop < b.start

instance (active : List Block) (pid : Nat) (f : Found) : Decidable (Separate active pid f) :=
  inferInstanceAs (Decidable (_ ∧ _))

theorem Root.Inv.detach (h : rt.Inv) {pid : Nat} (hpid : pid ≠ 0) (hcreated : ∀ c ∈ rt.created, c.stop + r.alignment < 2 ^ 64)
    (hsep : ∀ f, rt.search r pid = some (some f) → Separate rt.active pid f) :
    ∃ rt', rt.detach [] r pid = some rt' ∧ rt'.Inv := by
  obtain ⟨found, hsearch, hgood⟩ : ∃ found, rt.search r pid = some found ∧ Good rt r pid found := search_spec hcreated
  unfold Root.detach
  rw [hsearch, Option.map_some]
  cases found with
  | none => exact ⟨rt, rfl, h⟩
  | some f =>
    obtain ⟨hmine, hpair⟩ := hsep f hsearch
    obtain ⟨blk, hblk, hle, -, hstart, hstop⟩ := hgood f rfl
    have hetop : f.stop < top := by
      have := (h.tidy.valid blk hblk).2
      omega
    have hmeets : ∀ {b : Block} {x : Nat}, b.start ≤ x ∧ x ≤ b.stop → f.start ≤ x ∧ x ≤ f.stop →
        overlape f.start f.stop b.start b.stop = true := fun h1 h2 => overlape_iff.mpr (by omega)
    have hclear : Clear (Cuts f.start f.stop pid) rt.active := by
      refine List.Pairwise.imp_of_mem (fun {a b} ha hb hab hor => hab ?_) hpair
      have hover : ∀ {a : Block}, a ∈ rt.active → Cuts f.start f.stop pid a → overlape f.start f.stop a.start a.stop = true :=
        fun ha hc => by
        obtain ⟨-, h2, h3⟩ := hc
        exact overlape_iff.mpr (by omega)
      exact hor.imp (hover ha) (hover hb)
    have hrem := removeRange_spec hle h.tidy hclear
    refine ⟨_, rfl, h.giveBack hrem.tidy hetop (fun b hb ho => ?_) (fun x => ?_) fun x => ?_⟩
    · by_contra hmeet
      have hbv := (hrem.tidy.valid b hb).1
      obtain ⟨x, hbx, hfx⟩ : ∃ x, (b.start ≤ x ∧ x ≤ b.stop) ∧ f.start ≤ x ∧ x ≤ f.stop :=
        ⟨max b.start f.start, by omega, by omega⟩
      obtain ⟨b0, hb0, hpart⟩ := hrem.part b hb
      obtain ⟨h1, h2, h3, -⟩ := hpart
      have howner : b.owner = pid := h3.trans (hmine b0 hb0 (hmeets (x := x) (by omega) hfx))
      exact ((hrem.points pid x).mp ⟨b, hb, howner, hbx⟩).2 rfl hfx
    · rw [hrem.points]
      exact and_iff_left fun h0 => absurd h0.symm hpid
    · rw [ownedAt_iff, ownedAt_iff]
      constructor
      · rintro ⟨q, hq, hx⟩
        obtain ⟨⟨b, hb, rfl, hbx⟩, hnot⟩ := (hrem.points q x).mp hx
        exact ⟨⟨_, hq, b, hb, rfl, hbx⟩, fun hfx => hnot (hmine b hb (hmeets hbx hfx)) hfx⟩
      · rintro ⟨⟨q, hq, hx⟩, hout⟩
        exact ⟨q, hq, (hrem.points q x).mpr ⟨hx, fun _ => hout⟩⟩

/-! ## The end of a process -/

/-- Among the blocks with an owner those of the process overlap no other. -/
def Alone (active : List Block) (pid : Nat) : Prop :=
  (owned active).Pairwise fun a b => a.owner = pid ∨ b.owner = pid → a.stop < b.start

instance (active : List Block) (pid : Nat) : Decidable (Alone active pid) := by
  unfold Alone
  infer_instance

theorem clearCreated_exact (pid : Nat) {kept rest : List Create} (h : Exact (kept ++ rest) l) :
    Exact (clearCreated [] pid kept rest l).1 (clearCreated [] pid kept rest l).2 ∧
      owned (clearCreated [] pid kept rest l).2 = owned l := by
  induction rest generalizing kept l with
  | nil => exact ⟨by rwa [append_nil] at h, rfl⟩
  | cons c rest ih =>
    rw [clearCreated]
    split
    · have hsub : (kept ++ rest).Sublist (kept ++ c :: rest) := (sublist_cons_self c rest).append_left kept
      have hsorted : Sorted (kept ++ rest) :=
        ⟨fun d hd => h.sorted.valid d (hsub.mem hd), h.sorted.order.sublist hsub⟩
      have hexact : Exact (kept ++ rest) (limitOp (kept ++ rest) false (removeCallout []) l c.start c.stop) := by
        refine h.shrink hsorted (fun x ⟨d, hd, hx⟩ => ⟨d, hsub.mem hd, hx⟩) fun x ⟨d, hd, hx⟩ hnot => ?_
        rcases mem_append.mp hd with hd | hd
        · exact absurd ⟨d, mem_append_left _ hd, hx⟩ hnot
        · rcases mem_cons.mp hd with rfl | hd
          · exact hx
          · exact absurd ⟨d, mem_append_right _ hd, hx⟩ hnot
      obtain ⟨h1, h2⟩ := ih hexact
      exact ⟨h1, h2.trans (limitOp_remove h.tidy hsorted).owned⟩
    · refine ih ?_
      rwa [append_assoc]

theorem clearFirst_exact {pid : Nat} (hpid : pid ≠ 0) (h : Exact created l) (halone : Alone l pid) :
    Exact created (clearFirst [] created pid l) ∧ Alone (clearFirst [] created pid l) pid := by
  unfold clearFirst
  split
  · exact ⟨h, halone⟩
  case h_2 blk hfind =>
    obtain ⟨hown, pre, post, rfl, hpre⟩ := find?_eq_some_iff_append.mp hfind
    have howner : blk.owner = pid := beq_iff_eq.mp hown
    have herase : (pre ++ blk :: post).eraseP (fun blk => blk.owner == pid) = pre ++ post := by
      rw [eraseP_append_right _ fun b hb => by simpa using hpre b hb, eraseP_cons_of_pos (p := fun b : Block => b.owner == pid) hown]
    rw [herase]
    have hblk0 : blk.owner ≠ 0 := howner ▸ hpid
    have hsub : (pre ++ post).Sublist (pre ++ blk :: post) := (sublist_cons_self blk post).append_left pre
    have htidy : Tidy (pre ++ post) := ⟨fun b hb => h.tidy.valid b (hsub.mem hb), h.tidy.order.sublist hsub⟩
    have hmem : blk ∈ pre ++ blk :: post := mem_append_right _ mem_cons_self
    obtain ⟨hbv, hbtop⟩ := h.tidy.valid blk hmem
    -- the blocks with an owner that stand on either side of it
    have hsplit : owned (pre ++ blk :: post) = owned pre ++ blk :: owned post := by
      unfold owned
      rw [filter_append, filter_cons_of_pos (p := fun b : Block => b.owner != 0) (bne_iff_ne.mpr hblk0)]
    have hsplit' : owned (pre ++ post) = owned pre ++ owned post := filter_append ..
    have hpair := halone
    unfold Alone at hpair
    rw [hsplit, pairwise_append, pairwise_cons] at hpair
    obtain ⟨-, ⟨hright, -⟩, hleft⟩ := hpair
    have hun : Unowned (pre ++ post) blk.start blk.stop := fun b hb ho => by
      have hbo : b ∈ owned (pre ++ post) := mem_filter.mpr ⟨hb, bne_iff_ne.mpr ho⟩
      rw [hsplit'] at hbo
      rcases mem_append.mp hbo with hbo | hbo
      · exact .inl (hleft b hbo blk mem_cons_self (.inr howner))
      · exact .inr (hright b hbo (.inl howner))
    have hexact := h.giveBack htidy hbtop hun (fun x => ?_) fun x => ?_
    · refine ⟨hexact, ?_⟩
      unfold Alone
      rw [(limitOp_inside htidy h.sorted hbtop hun).owned]
      exact halone.sublist (hsub.filter _)
    · simp only [At, mem_append, mem_cons]
      constructor
      · rintro ⟨b, hb, hx⟩
        exact ⟨b, hb.imp_right .inr, hx⟩
      · rintro ⟨b, hb | rfl | hb, hx⟩
        · exact ⟨b, .inl hb, hx⟩
        · exact absurd hx.1 hblk0
        · exact ⟨b, .inr hb, hx⟩
    · constructor
      · rintro ⟨b, hb, ho, hx⟩
        refine ⟨⟨b, hsub.mem hb, ho, hx⟩, fun hin => ?_⟩
        rcases hun b hb ho with h | h <;> omega
      · rintro ⟨⟨b, hb, ho, hx⟩, hout⟩
        rcases mem_append.mp hb with hb | hb
        · exact ⟨b, mem_append_left _ hb, ho, hx⟩
        · rcases mem_cons.mp hb with rfl | hb
          · exact absurd hx hout
          · exact ⟨b, mem_append_right _ hb, ho, hx⟩

theorem clearBlocks_exact {pid : Nat} (hpid : pid ≠ 0) (n : Nat) (h : Exact created l) (halone : Alone l pid) :
    Exact created (clearBlocks [] created pid n l) := by
  induction n generalizing l with
  | zero => exact h
  | succ n ih =>
    obtain ⟨h1, h2⟩ := clearFirst_exact hpid h halone
    exact ih h1 h2

theorem Root.Inv.pidClear (h : rt.Inv) {pid : Nat} (hpid : pid ≠ 0) (halone : Alone rt.active pid) : (rt.pidClear [] pid).Inv := by
  obtain ⟨hexact, howned⟩ := clearCreated_exact pid (show Exact ([] ++ rt.created) rt.active from h)
  refine clearBlocks_exact hpid _ hexact ?_
  unfold Alone at halone ⊢
  rwa [howned]

/-! ## Runs -/

def Db.root (db : Db) (cls : Nat) : Root := (db.lookup cls).getD ⟨[], [], []⟩

/-- A search for the request comes to no number that overflows. -/
def Root.Bounded (rt : Root) (r : Request) : Prop := ∀ c ∈ rt.created, c.stop + r.alignment < 2 ^ 64

/-- The requests under which the database is exact: no allocation fails. -/
def Db.Proper (db : Db) : RsrcOp → Prop
  | .create cls _ start stop _ _ _ fails => fails = [] ∧ stop < top ∧ NewUnowned (db.root cls) start stop
  | .destroy _ _ _ _ _ _ fails => fails = []
  | .attach cls r _ fails => fails = [] ∧ (db.root cls).Bounded r
  | .detach cls r pid fails => fails = [] ∧ (db.root cls).Bounded r ∧
      ∀ f ∈ ((db.root cls).search r pid).join, Separate (db.root cls).active pid f
  | .pidClear pid _ fails => fails = [] ∧ ∀ p ∈ db, Alone p.2.active pid

instance (rt : Root) (r : Request) : Decidable (rt.Bounded r) := by
  unfold Root.Bounded
  infer_instance

instance (db : Db) : ∀ op, Decidable (db.Proper op)
  | .destroy _ _ _ _ _ _ fails => inferInstanceAs (Decidable (fails = []))
  | .create .. | .attach .. | .detach .. | .pidClear .. => inferInstanceAs (Decidable (_ ∧ _))

def Db.Inv (db : Db) : Prop := ∀ p ∈ db, p.2.Inv

variable {db : Db} {cls : Nat}

theorem Db.Inv.root (h : db.Inv) (cls : Nat) : (db.root cls).Inv := by
  unfold Db.root
  cases hlook : db.lookup cls with
  | none => exact exact_nil
  | some rt =>
    obtain ⟨l1, l2, rfl, -⟩ := lookup_eq_some_iff.mp hlook
    exact h (cls, rt) (mem_append_right _ mem_cons_self)

theorem Db.Inv.put (h : db.Inv) (hrt : rt.Inv) : (db.put cls rt).Inv := by
  intro p hp
  unfold Db.put at hp
  split at hp
  · obtain ⟨q, hq, rfl⟩ := mem_map.mp hp
    split
    · exact hrt
    · exact h q hq
  · rcases mem_cons.mp hp with rfl | hp
    · exact hrt
    · exact h p hp

theorem Db.Inv.update (h : db.Inv) {f : Root → Option Root}
    (hf : (db.root cls).Inv → ∃ rt', f (db.root cls) = some rt' ∧ rt'.Inv) : ∃ db', db.update cls f = some db' ∧ db'.Inv := by
  obtain ⟨rt', hrun, hrt'⟩ := hf (h.root cls)
  unfold Db.root at hrun
  unfold Db.update
  cases hlook : db.lookup cls with
  | none => exact ⟨db, rfl, h⟩
  | some rt =>
    rw [hlook, Option.getD_some] at hrun
    exact ⟨db.put cls rt', by rw [Option.elim_some, hrun, Option.map_some], h.put hrt'⟩

theorem Db.Inv.step {op : RsrcOp} (h : db.Inv) (hop : db.Proper op) : ∃ db', db.step op = some db' ∧ db'.Inv := by
  cases op with
  | create cls node start stop pid noremove rsvp fails =>
    obtain ⟨rfl, hstop, hun⟩ := hop
    rw [Db.step]
    split
    · exact ⟨db, rfl, h⟩
    · exact ⟨_, rfl, h.put ((h.root cls).create node _ rsvp (by omega) hstop hun)⟩
  | destroy cls node start stop pid noremove fails =>
    obtain rfl : fails = [] := hop
    exact h.update fun hrt => ⟨_, rfl, hrt.destroy node _⟩
  | attach cls r pid fails =>
    obtain ⟨rfl, hbound⟩ := hop
    exact h.update fun hrt => hrt.attach pid.2 hbound
  | detach cls r pid fails =>
    obtain ⟨rfl, hbound, hsep⟩ := hop
    exact h.update fun hrt => hrt.detach pid.2 hbound fun f hf => hsep f (by rw [hf]; rfl)
  | pidClear pid marked fails =>
    obtain ⟨rfl, halone⟩ := hop
    refine ⟨_, rfl, fun p hp => ?_⟩
    split at hp
    · obtain ⟨q, hq, rfl⟩ := mem_map.mp hp
      exact (h q hq).pidClear pid.2 (halone q hq)
    · exact h p hp

/-- The blocks of a class account for every point: it is free if it is created and belongs to no
process, and belongs to two blocks only if both are shared. -/
structure Root.FreeExact (rt : Root) : Prop where
  free : ∀ x, At 0 rt.active x ↔ CreatedAt rt.created x ∧ ¬ OwnedAt rt.active x
  apart : ∀ x, ¬ (At 0 rt.active x ∧ OwnedAt rt.active x)
  single : rt.active.Pairwise fun a b => ∀ x, a.start ≤ x ∧ x ≤ a.stop → b.start ≤ x ∧ x ≤ b.stop →
    a.owner ≠ 0 ∧ b.owner ≠ 0 ∧ a.share = true ∧ b.share = true

theorem Root.Inv.freeExact (h : rt.Inv) : rt.FreeExact where
  free := h.free
  apart := fun _ hx => h.tidy.not_both hx.1 hx.2
  single := h.tidy.order.imp fun hab _ ha hb => hab.2.resolve_left fun hlt => by omega

/-- **Free points are created and have no owner.** In every run from an empty database whose requests
are proper, this holds for every class. -/
theorem free_exact (ops : List RsrcOp) (hops : Run.Along Db.step Db.Proper ops []) :
    ∃ db, Run.exec Db.step ops [] = some db ∧ ∀ p ∈ db, p.2.FreeExact := by
  obtain ⟨db, hrun, hinv⟩ := Run.total (I := Db.Inv) (fun h hop => h.step hop)
    (fun _ hp => absurd hp not_mem_nil) hops
  exact ⟨db, hrun, fun p hp => (hinv p hp).freeExact⟩

def Request.plain (length : Nat) (pos : 1 ≤ length) (share : Bool) : Request := ⟨[0], length, none, 0, share, false, pos⟩

/-- Two processes get parts of a range, one gives its part back, the range is destroyed in the
middle, created again, and the other process ends. -/
theorem free_exact_run :
    ∃ db, Run.exec Db.step [.create 0 [0] 0 10 ⟨1, by decide⟩ false false [],
      .attach 0 (.plain 3 (by decide) false) ⟨1, by decide⟩ [], .attach 0 (.plain 2 (by decide) true) ⟨2, by decide⟩ [],
      .detach 0 (.plain 3 (by decide) false) ⟨1, by decide⟩ [], .destroy 0 [0] 6 7 ⟨1, by decide⟩ false [],
      .create 0 [0] 6 8 ⟨1, by decide⟩ false false [], .pidClear ⟨2, by decide⟩ true []] [] = some db ∧
      ∀ p ∈ db, p.2.FreeExact :=
  free_exact _ (by decide +kernel)

/-- Of two processes that share a range one gives it back; a range is destroyed while a process has
it and a part of it created again; the greatest number, which a process has, is created again; and a range
is created without memory for its block. -/
theorem free_and_owned :
    (∃ db, Run.exec Db.step [.create 0 [0] 0 10 ⟨1, by decide⟩ false false [],
      .attach 0 (.plain 11 (by decide) true) ⟨1, by decide⟩ [], .attach 0 (.plain 11 (by decide) true) ⟨2, by decide⟩ [],
      .detach 0 (.plain 11 (by decide) true) ⟨1, by decide⟩ []] [] = some db ∧
      ∃ p ∈ db, At 0 p.2.active 5 ∧ OwnedAt p.2.active 5) ∧
    (∃ db, Run.exec Db.step [.create 0 [0] 0 10 ⟨1, by decide⟩ false false [],
      .attach 0 (.plain 11 (by decide) false) ⟨2, by decide⟩ [], .destroy 0 [0] 0 10 ⟨1, by decide⟩ false [],
      .create 0 [0] 2 5 ⟨1, by decide⟩ false false []] [] = some db ∧
      ∃ p ∈ db, At 0 p.2.active 3 ∧ OwnedAt p.2.active 3) ∧
    (∃ db, Run.exec Db.step [.create 0 [0] top top ⟨1, by decide⟩ false false [],
      .attach 0 (.plain 1 (by decide) false) ⟨2, by decide⟩ [],
      .create 0 [0] top top ⟨1, by decide⟩ false false []] [] = some db ∧
      ∃ p ∈ db, At 0 p.2.active top ∧ OwnedAt p.2.active top) ∧
    ∃ db, Run.exec Db.step [.create 0 [0] 0 10 ⟨1, by decide⟩ false false [(⟨0, 10, 0, false⟩, [])]] [] = some db ∧
      ∃ p ∈ db, CreatedAt p.2.created 5 ∧ ¬ At 0 p.2.active 5 ∧ ¬ OwnedAt p.2.active 5 := by
  unfold At OwnedAt CreatedAt
  refine ⟨⟨_, rfl, ?_⟩, ⟨_, rfl, ?_⟩, ⟨_, rfl, ?_⟩, ⟨_, rfl, ?_⟩⟩ <;> decide +kernel

end QRV.Rsrcdb
