import QRV.Rsrcdb.Rsrc

/- The three routines that edit the list of blocks. A tidy list is in the order of the starts, and
   two of its blocks overlap only if both have an owner and are shared. For a tidy list

     1. `addRange_spec` — a range that no block with an owner meets becomes free, and nothing else
        changes; `addRange_maximal` — exactly when free blocks stay maximal, also with the
        greatest number;
     2. `removeRange_spec` — a range is taken from the blocks of an owner, if those of them that
        meet it overlap no other block;
     3. `addRangePid_spec` — a process gets a range that others meet only with shared blocks, if it
        shares it too.

   Otherwise numbers stay below the greatest one. -/
namespace QRV.Rsrcdb
open List

variable {l l' : List Block} {a b cur : Block} {s e p x m : Nat} {share : Bool}

/-! ## Tidy lists -/

/-- The block `a` stands in front of `b`. -/
def Before (a b : Block) : Prop :=
  a.start ≤ b.start ∧ (a.stop < b.start ∨ (a.owner ≠ 0 ∧ b.owner ≠ 0 ∧ a.share = true ∧ b.share = true))

structure TidyIn (m : Nat) (l : List Block) : Prop where
  valid : ∀ b ∈ l, b.start ≤ b.stop ∧ b.stop < m
  order : l.Pairwise Before

/-- No block ends with the greatest number. -/
abbrev Tidy (l : List Block) : Prop := TidyIn top l

theorem TidyIn.nil : TidyIn m [] := ⟨nofun, List.Pairwise.nil⟩

theorem TidyIn.tail (h : TidyIn m (a :: l)) : TidyIn m l :=
  ⟨fun b hb => h.valid b (.tail _ hb), (pairwise_cons.mp h.order).2⟩

theorem TidyIn.head (h : TidyIn m (a :: l)) : a.start ≤ a.stop ∧ a.stop < m := h.valid a mem_cons_self

theorem TidyIn.before (h : TidyIn m (a :: l)) (hb : b ∈ l) : Before a b := (pairwise_cons.mp h.order).1 b hb

theorem TidyIn.first (h : TidyIn m (a :: l)) : ∀ b ∈ a :: l, a.start ≤ b.start :=
  forall_mem_cons.mpr ⟨Nat.le_refl _, fun _ hb => (h.before hb).1⟩

theorem TidyIn.cons (h : TidyIn m l) (hvalid : a.start ≤ a.stop ∧ a.stop < m) (hbefore : ∀ b ∈ l, Before a b) :
    TidyIn m (a :: l) :=
  ⟨forall_mem_cons.mpr ⟨hvalid, h.valid⟩, pairwise_cons.mpr ⟨hbefore, h.order⟩⟩

theorem Before.lt (h : Before a b) (hfree : a.owner = 0 ∨ b.owner = 0 ∨ a.share = false ∨ b.share = false) :
    a.stop < b.start := by
  obtain ⟨-, h | ⟨h1, h2, h3, h4⟩⟩ := h
  · exact h
  · rcases hfree with h | h | h | h
    · exact absurd h h1
    · exact absurd h h2
    · exact absurd (h3.symm.trans h) (by decide)
    · exact absurd (h4.symm.trans h) (by decide)

theorem before_of_lt (hvalid : a.start ≤ a.stop) (h : a.stop < b.start) : Before a b := ⟨by omega, .inl h⟩

/-! ## The points of an owner -/

def At (q : Nat) (l : List Block) (x : Nat) : Prop := ∃ b ∈ l, b.owner = q ∧ b.start ≤ x ∧ x ≤ b.stop

/-- The point belongs to a process. -/
def OwnedAt (l : List Block) (x : Nat) : Prop := ∃ b ∈ l, b.owner ≠ 0 ∧ b.start ≤ x ∧ x ≤ b.stop

theorem at_nil {q : Nat} : ¬ At q [] x := fun ⟨_, h, _⟩ => absurd h not_mem_nil

theorem at_cons {q : Nat} : At q (a :: l) x ↔ (a.owner = q ∧ a.start ≤ x ∧ x ≤ a.stop) ∨ At q l x := by
  simp only [At, mem_cons, exists_eq_or_imp]

theorem at_single {q : Nat} : At q [a] x ↔ a.owner = q ∧ a.start ≤ x ∧ x ≤ a.stop := by
  rw [at_cons, iff_false_intro at_nil, or_false]

theorem ownedAt_iff : OwnedAt l x ↔ ∃ q, q ≠ 0 ∧ At q l x := by
  constructor
  · rintro ⟨b, hb, ho, hx⟩
    exact ⟨b.owner, ho, b, hb, rfl, hx⟩
  · rintro ⟨q, hq, b, hb, rfl, hx⟩
    exact ⟨b, hb, hq, hx⟩

/-- The blocks with an owner. -/
def owned (l : List Block) : List Block := l.filter fun b => b.owner != 0

theorem owned_cons_owner (h : a.owner ≠ 0) : owned (a :: l) = a :: owned l :=
  filter_cons_of_pos (bne_iff_ne.mpr h)

theorem owned_cons_free (h : a.owner = 0) : owned (a :: l) = owned l :=
  filter_cons_of_neg fun hc => bne_iff_ne.mp hc h

theorem owned_congr (h : owned l' = owned l) : owned (a :: l') = owned (a :: l) := by
  by_cases ho : a.owner = 0
  · rw [owned_cons_free ho, owned_cons_free ho, h]
  · rw [owned_cons_owner ho, owned_cons_owner ho, h]

theorem at_owned {q : Nat} (hq : q ≠ 0) (h : owned l' = owned l) : At q l' x ↔ At q l x := by
  have hmem : ∀ {l : List Block}, At q l x ↔ At q (owned l) x := fun {l} => by
    constructor
    · rintro ⟨b, hb, rfl, hx⟩
      exact ⟨b, mem_filter.mpr ⟨hb, bne_iff_ne.mpr hq⟩, rfl, hx⟩
    · rintro ⟨b, hb, rfl, hx⟩
      exact ⟨b, (mem_filter.mp hb).1, rfl, hx⟩
  rw [hmem, h, ← hmem]

theorem ownedAt_owned (h : owned l' = owned l) : OwnedAt l' x ↔ OwnedAt l x := by
  simp only [ownedAt_iff]
  exact exists_congr fun q => and_congr_right fun hq => at_owned hq h

theorem TidyIn.not_both (h : TidyIn m l) (hfree : At 0 l x) : ¬ OwnedAt l x := by
  induction l with
  | nil => exact absurd hfree at_nil
  | cons c l ih =>
    rintro ⟨b, hb, howner, hx⟩
    rcases at_cons.mp hfree with ⟨hc, hcx⟩ | hfree'
    · rcases mem_cons.mp hb with rfl | hb
      · exact howner hc
      · have := (h.before hb).lt (.inl hc)
        omega
    · rcases mem_cons.mp hb with rfl | hb
      · obtain ⟨f, hf, hf0, hfx⟩ := hfree'
        have := (h.before hf).lt (.inr (.inl hf0))
        omega
      · exact ih h.tail hfree' ⟨b, hb, howner, hx⟩

theorem succ64_eq (h : x < top) : succ64 x = x + 1 := Nat.mod_eq_of_lt (by unfold top at h; omega)

theorem pred64_eq (h : 0 < x) (hx : x ≤ top) : pred64 x = x - 1 := by
  unfold pred64
  rw [show x + top = (x - 1) + 2 ^ 64 by unfold top; omega, Nat.add_mod_right]
  exact Nat.mod_eq_of_lt (by unfold top at hx; omega)

/-- A block that reaches up to the range and does not begin far behind it touches it. -/
theorem touches_of (hvalid : b.start ≤ b.stop ∧ b.stop ≤ top) (h1 : s ≤ b.stop + 1) (h2 : b.start ≤ e + 1) :
    b.touches s e = true := by
  unfold Block.touches overlape
  rw [decide_eq_true_eq]
  split_ifs <;> omega

/-! ## Making a range free -/

/-- No block with an owner meets the range. -/
def Unowned (l : List Block) (s e : Nat) : Prop := ∀ b ∈ l, b.owner ≠ 0 → b.stop < s ∨ e < b.start

structure Added (m : Nat) (l l' : List Block) (s e : Nat) : Prop where
  tidy : TidyIn m l'
  owned : owned l' = owned l
  free : ∀ x, At 0 l' x ↔ At 0 l x ∨ (s ≤ x ∧ x ≤ e)

/-- Free blocks neither overlap nor are next to each other. -/
def Maximal (l : List Block) : Prop := l.Pairwise fun a b => a.owner = 0 → b.owner = 0 → a.stop + 1 < b.start

/-- Besides, free blocks stay maximal. -/
structure Grown (m : Nat) (l l' : List Block) (s e : Nat) : Prop extends Added m l l' s e where
  maximal : Maximal l → Maximal l'

/-- The block ends in front of another, and leaves a gap if that is free. -/
def Leaves (e : Nat) (b : Block) : Prop := e < b.start ∧ (b.owner = 0 → e + 1 < b.start)

theorem TidyIn.leaves (h : TidyIn m (cur :: l)) (hcur : Leaves e cur) : ∀ b ∈ cur :: l, Leaves e b := by
  refine forall_mem_cons.mpr ⟨hcur, fun b hb => ?_⟩
  have hle := (h.before hb).1
  have hvalid := h.head.1
  obtain ⟨hlt, -⟩ := hcur
  refine ⟨by omega, fun hb0 => ?_⟩
  have := (h.before hb).lt (.inr (.inl hb0))
  omega

theorem Leaves.max {e' : Nat} (h : Leaves e b) (h' : Leaves e' b) : Leaves (max e e') b :=
  ⟨Nat.max_lt.mpr ⟨h.1, h'.1⟩, fun h0 => by have := h.2 h0; have := h'.2 h0; omega⟩

theorem TidyIn.leaves_free (h : TidyIn m (cur :: l)) (hmax : Maximal (cur :: l)) (hfree : cur.owner = 0) :
    ∀ b ∈ l, Leaves cur.stop b :=
  fun b hb => ⟨(h.before hb).lt (.inl hfree), (pairwise_cons.mp hmax).1 b hb hfree⟩

/-- Nothing is behind a free block that ends with the greatest number. -/
theorem TidyIn.last_free (h : TidyIn m (cur :: l)) (hm : m ≤ top + 1) (hfree : cur.owner = 0) (htop : cur.stop = top) :
    l = [] := by
  refine eq_nil_iff_forall_not_mem.mpr fun b hb => ?_
  have := (h.before hb).lt (.inl hfree)
  have := h.tail.valid b hb
  omega

/-- What a free block and the range next to it, or meeting it, become is in front of the blocks behind it. -/
theorem TidyIn.taken (h : TidyIn m (cur :: l)) (hfree : cur.owner = 0) (hun : Unowned (cur :: l) s e)
    (hs : s ≤ cur.stop + 1) : ∀ b ∈ l, min s cur.start ≤ b.start ∧ (b.owner ≠ 0 → max e cur.stop < b.start) := by
  intro b hb
  have hlt := (h.before hb).lt (.inl hfree)
  have hvalid := (h.tail.valid b hb).1
  refine ⟨by omega, fun ho => ?_⟩
  have := hun b (.tail _ hb) ho
  omega

theorem grown_front (ha : a.owner = 0) (hv : a.start ≤ a.stop ∧ a.stop < m) (h : TidyIn m l)
    (hbehind : ∀ b ∈ l, Leaves a.stop b) : Grown m l (a :: l) a.start a.stop := by
  refine ⟨⟨h.cons hv fun b hb => before_of_lt hv.1 (hbehind b hb).1, owned_cons_free ha, fun x => ?_⟩,
    fun hmax => pairwise_cons.mpr ⟨fun b hb _ => (hbehind b hb).2, hmax⟩⟩
  rw [at_cons, or_comm]
  exact or_congr_right (and_iff_right ha)

theorem Grown.joined {s' e' : Nat} (h : Grown m l l' s' e') (ha : a.owner = 0)
    (hpoints : ∀ x, s' ≤ x ∧ x ≤ e' ↔ (a.start ≤ x ∧ x ≤ a.stop) ∨ (s ≤ x ∧ x ≤ e)) : Grown m (a :: l) l' s e := by
  refine ⟨⟨h.tidy, h.owned.trans (owned_cons_free ha).symm, fun x => ?_⟩, fun hmax => h.maximal (pairwise_cons.mp hmax).2⟩
  rw [h.free, at_cons, and_iff_right ha, hpoints, or_assoc, or_left_comm]

/-- One round with a block that takes up others: it is done, or takes up a free block. -/
theorem addLoop_some_step (ha : a.start ≤ a.stop ∧ a.stop < top) (hcur : cur.start ≤ cur.stop ∧ cur.stop ≤ top)
    (hstart : a.start ≤ cur.start) (howned : cur.owner ≠ 0 → a.stop < cur.start) (hlow : cur.stop < top ∨ a.start = 0) :
    (Leaves a.stop cur ∧ ∀ l between,
      addLoop [] 0 false (some (a, between)) a.start a.stop (cur :: l) = a :: between ++ cur :: l) ∨
    (cur.owner = 0 ∧ cur.start ≤ a.stop + 1 ∧ ∀ l between,
      addLoop [] 0 false (some (a, between)) a.start a.stop (cur :: l) =
        addLoop [] 0 false (some ({ a with stop := max a.stop cur.stop }, [])) a.start (max a.stop cur.stop) l) := by
  have hreach : a.start ≤ succ64 cur.stop := by
    unfold succ64
    unfold top at hlow
    omega
  simp only [addLoop, if_neg (show ¬ a.stop < a.start by omega), if_pos hreach, succ64_eq ha.2]
  by_cases hfar : a.stop + 1 < cur.start
  · simp only [if_pos hfar]
    exact .inl ⟨⟨by omega, fun _ => hfar⟩, fun _ _ => rfl⟩
  simp only [if_neg hfar, if_pos (touches_of (s := a.start) (e := a.stop) hcur (by omega) (by omega))]
  by_cases howner : cur.owner = 0
  · simp only [if_neg (not_not.mpr howner), Nat.min_eq_left hstart]
    exact .inr ⟨howner, by omega, fun _ _ => rfl⟩
  · have hlt := howned howner
    have hpart : ∀ l between, partBefore [] 0 false (some (a, between)) a.start cur l = some (a, between) := by
      intro l between
      unfold partBefore
      rw [if_pos (by omega), show cur.start - 1 = a.stop by omega]
    simp only [if_pos howner, hpart, if_pos (show a.stop ≤ cur.stop by omega)]
    exact .inl ⟨⟨hlt, fun h0 => absurd h0 howner⟩, fun _ _ => rfl⟩

/-- A block that does not start with 0 does not see those that end with the greatest number; one with an owner
ends the loop. -/
theorem addLoop_some_high (ha : a.start ≤ a.stop ∧ a.stop < top) (hpos : 0 < a.start) (between : List Block)
    (hl : ∀ b ∈ l, b.start ≤ b.stop ∧ (b.stop = top ∨ b.stop < top ∧ b.owner ≠ 0 ∧ a.stop < b.start)) :
    addLoop [] 0 false (some (a, between)) a.start a.stop l = a :: between ++ l := by
  induction l generalizing between with
  | nil => simp [addLoop, flush, outstanding]
  | cons b l ih =>
    obtain ⟨⟨hb, hbtop⟩, hl⟩ := forall_mem_cons.mp hl
    rcases hbtop with htop | ⟨hbtop, howner, hlt⟩
    · have hwrap : ¬ a.start ≤ succ64 b.stop := by
        rw [htop, show succ64 top = 0 from rfl]
        omega
      simp only [addLoop, if_neg (show ¬ a.stop < a.start by omega), if_neg hwrap]
      rw [ih _ hl, cons_append, append_assoc]
      rfl
    · rcases addLoop_some_step ha ⟨hb, by omega⟩ (by omega) (fun _ => hlt) (.inl hbtop) with ⟨-, hloop⟩ | ⟨hfree, -⟩
      · exact hloop l between
      · exact absurd hfree howner

/-- The loop with a block that takes up others, right in front of the block looked at. -/
theorem addLoop_some (hm : m ≤ top + 1) (ha : a.owner = 0) (hv : a.start ≤ a.stop ∧ a.stop < m) (h : TidyIn m l)
    (hlow : ∀ b ∈ l, b.stop = top → a.start = 0 ∨ Maximal l ∧ Leaves a.stop b) (hlast : a.stop = top → l = [])
    (hstart : ∀ b ∈ l, a.start ≤ b.start) (howned : ∀ b ∈ l, b.owner ≠ 0 → a.stop < b.start) :
    Grown m l (addLoop [] 0 false (some (a, [])) a.start a.stop l) a.start a.stop ∧
      ∀ b ∈ addLoop [] 0 false (some (a, [])) a.start a.stop l, a.start ≤ b.start := by
  induction l generalizing a with
  | nil =>
    rw [addLoop]
    exact ⟨grown_front ha hv h nofun, forall_mem_singleton.mpr (Nat.le_refl _)⟩
  | cons cur rest ih =>
    obtain ⟨hcur, hcurtop⟩ := h.head
    have hatop : a.stop < top := Nat.lt_of_le_of_ne (by omega) fun h => absurd (hlast h) (cons_ne_nil _ _)
    have hdone : Leaves a.stop cur → Grown m (cur :: rest) (a :: cur :: rest) a.start a.stop ∧
        ∀ b ∈ a :: cur :: rest, a.start ≤ b.start :=
      fun hlt => ⟨grown_front ha hv h (h.leaves hlt), forall_mem_cons.mpr ⟨Nat.le_refl _, hstart⟩⟩
    by_cases hhigh : cur.stop = top ∧ 0 < a.start
    · obtain ⟨-, hlt⟩ := (hlow cur mem_cons_self hhigh.1).resolve_left (by omega)
      rw [addLoop_some_high ⟨hv.1, hatop⟩ hhigh.2 [] (forall_mem_cons.mpr ⟨⟨hcur, .inl hhigh.1⟩, fun b hb => ?_⟩)]
      · exact hdone hlt
      have hb' := h.tail.valid b hb
      by_cases htop : b.stop = top
      · exact ⟨hb'.1, .inl htop⟩
      · refine ⟨hb'.1, .inr ⟨by omega, fun h0 => ?_, (h.leaves hlt b (.tail _ hb)).1⟩⟩
        have := (h.before hb).lt (.inr (.inl h0))
        omega
    rcases addLoop_some_step ⟨hv.1, hatop⟩ ⟨hcur, by omega⟩ (hstart cur mem_cons_self) (howned cur mem_cons_self)
      (by omega) with ⟨hlt, hloop⟩ | ⟨hfree, hnear, hloop⟩
    · rw [hloop]
      exact hdone hlt
    · have hcs := hstart cur mem_cons_self
      rw [hloop]
      obtain ⟨hadd, hb⟩ := ih (a := { a with stop := max a.stop cur.stop }) ha (by dsimp only; omega)
        h.tail (fun b hb htop => (hlow b (.tail _ hb) htop).imp_right fun ⟨hmax, hlt⟩ =>
          ⟨(pairwise_cons.mp hmax).2, hlt.max (h.leaves_free hmax hfree b hb)⟩)
        (fun htop => h.last_free hm hfree (by dsimp only at htop; omega))
        (fun b hb => hstart b (.tail _ hb)) fun b hb =>
          (h.taken (s := 0) hfree (fun b hb ho => .inr (howned b hb ho)) (by omega) b hb).2
      exact ⟨hadd.joined hfree fun x => by dsimp only; omega, hb⟩

/-- What comes of the list stands behind what is in front of the list and of the range. -/
def Behind (l l' : List Block) (s : Nat) : Prop :=
  ∀ a : Block, a.start ≤ a.stop → a.stop < s → (∀ b ∈ l, Before a b) → ∀ b ∈ l', Before a b

theorem grown_new (hse : s ≤ e) (hetop : e < m) (h : TidyIn m l) (hbehind : ∀ b ∈ l, Leaves e b) :
    Grown m l (⟨s, e, 0, false⟩ :: l) s e ∧ Behind l (⟨s, e, 0, false⟩ :: l) s := by
  exact ⟨grown_front rfl ⟨hse, hetop⟩ h hbehind, fun a ha has hb => forall_mem_cons.mpr ⟨before_of_lt ha has, hb⟩⟩

theorem grown_pass {l' : List Block} (h : TidyIn m (cur :: l)) (hcur : cur.stop < s) (hgap : cur.owner = 0 → cur.stop + 1 < s)
    (hadd : Grown m l l' s e ∧ Behind l l' s) : Grown m (cur :: l) (cur :: l') s e ∧ Behind (cur :: l) (cur :: l') s := by
  obtain ⟨⟨⟨htidy, howned, hfree⟩, hmaximal⟩, hbehind⟩ := hadd
  refine ⟨⟨⟨htidy.cons h.head (hbehind cur h.head.1 hcur fun b hb => h.before hb), ?_, fun x => ?_⟩, fun hmax => ?_⟩,
    fun a ha has hb => ?_⟩
  · exact owned_congr howned
  · rw [at_cons, hfree, at_cons, or_assoc]
  · obtain ⟨hfirst, hrest⟩ := pairwise_cons.mp hmax
    refine pairwise_cons.mpr ⟨fun b hb h0 hb0 => ?_, hmaximal hrest⟩
    -- where a free block starts, the list had a free block or the range is
    rcases (hfree b.start).mp ⟨b, hb, hb0, Nat.le_refl _, (htidy.valid b hb).1⟩ with ⟨f, hf, hf0, hfb, -⟩ | hin
    · exact Nat.lt_of_lt_of_le (hfirst f hf h0 hf0) hfb
    · exact Nat.lt_of_lt_of_le (hgap h0) hin.1
  · obtain ⟨hfirst, hrest⟩ := forall_mem_cons.mp hb
    exact forall_mem_cons.mpr ⟨hfirst, hbehind a ha has hrest⟩

/-- One round without such a block: the block looked at is passed over, or the new one is put in front of it,
or it is free and takes up the range. -/
theorem addLoop_none_step (hse : s ≤ e) (hcur : cur.start ≤ cur.stop ∧ cur.stop ≤ top)
    (hun : cur.owner ≠ 0 → cur.stop < s ∨ e < cur.start) (hlow : s ≤ cur.stop + 1 → cur.stop < top ∨ s = 0)
    (hup : s ≤ cur.stop + 1 → e < top ∨ e = top ∧ cur.start = 0) :
    (cur.stop < s ∧ (cur.owner = 0 → cur.stop + 1 < s) ∧ ∀ l,
      addLoop [] 0 false none s e (cur :: l) = cur :: addLoop [] 0 false none s e l) ∨
    (Leaves e cur ∧ ∀ l, addLoop [] 0 false none s e (cur :: l) = ⟨s, e, 0, false⟩ :: cur :: l) ∨
    (cur.owner = 0 ∧ s ≤ cur.stop + 1 ∧ cur.start ≤ e + 1 ∧ ∀ l, addLoop [] 0 false none s e (cur :: l) =
      addLoop [] 0 false (some ({ cur with start := min s cur.start, stop := max e cur.stop }, [])) (min s cur.start)
        (max e cur.stop) l) := by
  have hreach : s ≤ succ64 cur.stop ↔ s ≤ cur.stop + 1 := by
    unfold succ64
    unfold top at hlow hcur
    omega
  simp only [addLoop, if_neg (show ¬ e < s by omega), hreach]
  by_cases hpass : s ≤ cur.stop + 1
  case neg =>
    simp only [if_neg hpass]
    exact .inl ⟨by omega, fun _ => by omega, fun _ => trivial⟩
  have hfar : succ64 e < cur.start ↔ e + 1 < cur.start := by
    have := hup hpass
    unfold succ64
    unfold top at *
    omega
  simp only [if_pos hpass, hfar]
  have hnew : ∀ l, outstanding [] none ⟨s, e, 0, false⟩ l = ⟨s, e, 0, false⟩ :: l := fun l =>
    if_pos ⟨rfl, hse, not_mem_nil⟩
  by_cases hlt : e + 1 < cur.start
  · simp only [if_pos hlt, not_mem_nil, and_false, if_false, hnew]
    exact .inr (.inl ⟨⟨by omega, fun _ => hlt⟩, fun _ => rfl⟩)
  simp only [if_neg hlt, if_pos (touches_of (s := s) (e := e) hcur hpass (by omega))]
  by_cases howner : cur.owner = 0
  · simp only [if_neg (not_not.mpr howner)]
    exact .inr (.inr ⟨howner, hpass, by omega, fun _ => rfl⟩)
  -- next to the range, on one side or the other
  simp only [if_pos howner, partBefore]
  rcases hun howner with hleft | hright
  · have hnext : succ64 cur.stop = s := by
      rw [succ64_eq (by have := hlow hpass; omega)]
      omega
    simp only [if_neg (show ¬ s < cur.start by omega), if_neg (show ¬ e ≤ cur.stop by omega), hnext]
    exact .inl ⟨hleft, fun h0 => absurd h0 howner, fun _ => rfl⟩
  · simp only [if_pos (show s < cur.start by omega), if_pos (show e ≤ cur.stop by omega), not_mem_nil, if_false,
      show cur.start - 1 = e by omega]
    exact .inr (.inl ⟨⟨hright, fun h0 => absurd h0 howner⟩, fun _ => rfl⟩)

/-- The range starts with 0, or a free block that does reaches up to it. -/
def FromZero (l : List Block) (s : Nat) : Prop :=
  s = 0 ∨ ∃ c ∈ l, c.owner = 0 ∧ c.start = 0 ∧ c.stop < top ∧ s ≤ c.stop + 1

/-- A range that ends with the greatest number is behind all blocks, but for one that starts with 0. -/
def Last (l : List Block) (s e : Nat) : Prop :=
  e = top → ∀ b ∈ l, b.stop + 1 < s ∨ b.start = 0 ∧ (b.stop < top ∨ s = 0)

/-- The loop halts before a block that ends with the greatest number, if there is one: it comes to a block behind
the range, or to a free one that takes it up. -/
def Halts (s e : Nat) : List Block → Prop
  | [] => True
  | b :: l => b.stop < top ∧ ((e < b.start ∨ b.owner = 0 ∧ s ≤ b.stop + 1) ∨ Halts s e l)

theorem halts_of_lt (h : ∀ b ∈ l, b.stop < top) : Halts s e l := by
  induction l with
  | nil => trivial
  | cons b l ih => exact ⟨h b mem_cons_self, .inr (ih fun c hc => h c (.tail _ hc))⟩

theorem addLoop_none (hm : m ≤ top + 1) (hse : s ≤ e) (hetop : e < m) (h : TidyIn m l) (hun : Unowned l s e)
    (hlow : FromZero l s ∨ Halts s e l ∧ ∀ b ∈ l, b.stop = top → Maximal l ∧ (b.owner = 0 → e + 1 < b.start))
    (hup : Last l s e) :
    Grown m l (addLoop [] 0 false none s e l) s e ∧ Behind l (addLoop [] 0 false none s e l) s := by
  induction l with
  | nil =>
    have hnew : addLoop [] 0 false none s e [] = [⟨s, e, 0, false⟩] := by
      rw [addLoop, flush, outstanding, if_pos ⟨rfl, hse, not_mem_nil⟩]
      rfl
    rw [hnew]
    exact grown_new hse hetop h nofun
  | cons cur rest ih =>
    obtain ⟨hcur, hcurtop⟩ := h.head
    -- a block that starts with 0 is the first
    have hzero := hlow.imp_left (b := s = 0 ∨ cur.owner = 0 ∧ cur.start = 0 ∧ cur.stop < top ∧ s ≤ cur.stop + 1) (by
      refine Or.imp_right ?_
      rintro ⟨c, hc, hfree, hstart, hin⟩
      rcases mem_cons.mp hc with rfl | hc
      · exact ⟨hfree, hstart, hin⟩
      · have := (h.before hc).lt (.inr (.inl hfree))
        omega)
    have hcur0 : cur.stop < top ∨ s = 0 := by
      rcases hzero with hzero | hhalts
      · omega
      · exact .inl hhalts.1.1
    have hupcur := fun htop => hup htop cur mem_cons_self
    rcases addLoop_none_step hse ⟨hcur, by omega⟩ (hun cur mem_cons_self) (fun _ => hcur0) (by omega) with
      ⟨hpass, hgap, hloop⟩ | ⟨hlt, hloop⟩ | ⟨hfree, hreach, hnear, hloop⟩
    · obtain ⟨⟨-, hhalts⟩, hhigh⟩ := hzero.resolve_left (by omega)
      rw [hloop]
      exact grown_pass h hpass hgap (ih h.tail (fun b hb => hun b (.tail _ hb))
        (.inr ⟨hhalts.resolve_left (by omega), fun b hb htop => (hhigh b (.tail _ hb) htop).imp_left fun hmax =>
          (pairwise_cons.mp hmax).2⟩) fun htop b hb => hup htop b (.tail _ hb))
    · rw [hloop]
      exact grown_new hse hetop h (h.leaves hlt)
    · have hbehind : ∀ b ∈ rest, cur.stop < b.start := fun b hb => (h.before hb).lt (.inl hfree)
      have htaken := h.taken hfree hun hreach
      have hlast : max e cur.stop = top → rest = [] := by
        intro htop
        rcases Nat.lt_or_ge e top with he | he
        · exact h.last_free hm hfree (by omega)
        · refine eq_nil_iff_forall_not_mem.mpr fun b hb => ?_
          have := hup (by omega) b (.tail _ hb)
          have := hbehind b hb
          have := h.tail.valid b hb
          omega
      rw [hloop]
      obtain ⟨hadd, hstart⟩ := addLoop_some (a := { cur with start := min s cur.start, stop := max e cur.stop }) hm hfree
        (by dsimp only; omega) h.tail
        (fun b hb htop => hzero.imp (fun hzero => by dsimp only; omega) fun ⟨_, hhigh⟩ => by
          obtain ⟨hmax, hgap⟩ := hhigh b (.tail _ hb) htop
          refine ⟨(pairwise_cons.mp hmax).2, Leaves.max ⟨?_, hgap⟩ (h.leaves_free hmax hfree b hb)⟩
          by_cases h0 : b.owner = 0
          · exact (Nat.lt_succ_self _).trans (hgap h0)
          · exact (Nat.le_max_left _ _).trans_lt ((htaken b hb).2 h0)) hlast
        (fun b hb => (htaken b hb).1) fun b hb => (htaken b hb).2
      refine ⟨hadd.joined hfree fun x => by dsimp only; omega, fun a ha has hb b hmem => ?_⟩
      have hac := (hb cur mem_cons_self).lt (.inr (.inl hfree))
      have hst := hstart b hmem
      dsimp only at hst
      exact before_of_lt ha (by omega)

theorem addRange_spec (hse : s ≤ e) (hetop : e < top) (h : Tidy l) (hun : Unowned l s e) :
    Grown top l (addCallout [] l s e) s e :=
  (addLoop_none (Nat.le_succ _) hse hetop h hun (.inr ⟨halts_of_lt fun b hb => (h.valid b hb).2, fun b hb htop => by
    have := h.valid b hb
    omega⟩) fun htop => by omega).1

theorem Maximal.one_block (h : Maximal l) (n : Nat) (hfree : ∀ y, x ≤ y → y ≤ x + n → At 0 l y) :
    ∃ b ∈ l, b.owner = 0 ∧ b.start ≤ x ∧ x + n ≤ b.stop := by
  induction n with
  | zero => exact hfree x (Nat.le_refl _) (Nat.le_refl _)
  | succ n ih =>
    obtain ⟨b, hb, hb0, hbx, hbn⟩ := ih fun y h1 h2 => hfree y h1 (by omega)
    obtain ⟨c, hc, hc0, hcx, hcn⟩ := hfree (x + (n + 1)) (by omega) (Nat.le_refl _)
    have hpair := List.Pairwise.forall_of_forall_of_flip
      (R := fun a b : Block => a.owner = 0 → b.owner = 0 → a = b ∨ a.stop + 1 < b.start ∨ b.stop + 1 < a.start)
      (fun _ _ _ _ => .inl rfl) (h.imp fun hab h0 h1 => .inr (.inl (hab h0 h1)))
      (h.imp fun hab h0 h1 => .inr (.inr (hab h1 h0))) hb hc hb0 hc0
    rcases hpair with rfl | hapart
    · exact ⟨b, hb, hb0, hbx, hcn⟩
    · omega

/-! ## The greatest number -/

/-- The range comes to its place. -/
def Placed (l : List Block) (s e : Nat) : Prop :=
  Last l s e ∧ (FromZero l s ∨ Halts s e l ∧ ∀ b ∈ l, b.stop = top → b.owner = 0 → e + 1 < b.start)

/-- The list is in order, and its free blocks are maximal. -/
def Neat (l : List Block) : Prop := l.Pairwise (fun a b => a.start ≤ b.start) ∧ Maximal l

theorem Neat.tail (h : Neat (a :: l)) : Neat l := ⟨(pairwise_cons.mp h.1).2, (pairwise_cons.mp h.2).2⟩

theorem Neat.head (h : Neat (a :: l)) (hb : b ∈ l) (hb0 : b.owner = 0) :
    a.start ≤ b.start ∧ (a.owner = 0 → a.stop + 1 < b.start) :=
  ⟨(pairwise_cons.mp h.1).1 b hb, fun h0 => (pairwise_cons.mp h.2).1 b hb h0 hb0⟩

/-- A block that ends with the greatest number is passed over, and the new one put behind it. -/
theorem addLoop_high (hpos : 0 < s) (hse : s ≤ e) (htop : cur.stop = top) :
    addLoop [] 0 false none s e (cur :: l) = cur :: addLoop [] 0 false none s e l := by
  have hwrap : ¬ s ≤ succ64 cur.stop := by
    rw [htop, show succ64 top = 0 from rfl]
    omega
  simp only [addLoop, if_neg (show ¬ e < s by omega), if_neg hwrap]

theorem addLoop_new (hpos : 0 < s) (hse : s ≤ e)
    (hl : ∀ b ∈ l, b.start ≤ b.stop ∧ b.stop ≤ top ∧ b.owner ≠ 0 ∧ e < b.start) :
    ∃ x ∈ addLoop [] 0 false none s e l, x.owner = 0 ∧ x.start = s := by
  induction l with
  | nil => exact ⟨⟨s, e, 0, false⟩, by simp [addLoop, flush, outstanding, hse], rfl, rfl⟩
  | cons b l ih =>
    obtain ⟨⟨hb, hbtop, howner, hlt⟩, hl⟩ := forall_mem_cons.mp hl
    by_cases htop : b.stop = top
    · obtain ⟨x, hx, hin⟩ := ih hl
      rw [addLoop_high hpos hse htop]
      exact ⟨x, .tail _ hx, hin⟩
    rcases addLoop_none_step hse ⟨hb, hbtop⟩ (fun _ => .inr hlt) (by omega) (by omega) with
      ⟨hpass, -⟩ | ⟨-, hloop⟩ | ⟨hfree, -⟩
    · omega
    · rw [hloop]
      exact ⟨_, mem_cons_self, rfl, rfl⟩
    · exact absurd hfree howner

/-- No block that ends with the greatest number is reached without a place for the range. -/
theorem addLoop_neat_high (hpos : 0 < s) (hse : s ≤ e) (hetop : e < top) (h : TidyIn (top + 1) (cur :: l))
    (hun : Unowned (cur :: l) s e) (htop : cur.stop = top) : ¬ Neat (addLoop [] 0 false none s e (cur :: l)) := by
  intro hneat
  rw [addLoop_high hpos hse htop] at hneat
  have howner : cur.owner ≠ 0 → e < cur.start := fun h0 => by
    have := hun cur mem_cons_self h0
    omega
  obtain ⟨x, hx, hx0, hxs⟩ := addLoop_new (l := l) hpos hse fun b hb => by
    have hvalid := h.tail.valid b hb
    have hlt := fun h0 => (h.before hb).lt h0
    have hcur : cur.owner ≠ 0 := fun h0 => by have := hlt (.inl h0); omega
    have hb0 : b.owner ≠ 0 := fun h0 => by have := hlt (.inr (.inl h0)); omega
    have := (h.before hb).1
    have := howner hcur
    exact ⟨hvalid.1, by omega, hb0, by omega⟩
  obtain ⟨hle, hgap⟩ := hneat.head hx hx0
  by_cases h0 : cur.owner = 0
  · have := hgap h0
    omega
  · have := howner h0
    omega

/-- A block that has taken up the range does not see a free one that ends with the greatest number. -/
theorem addLoop_some_gap (ha : a.owner = 0 ∧ 0 < a.start ∧ a.start ≤ a.stop ∧ a.stop < top) (h : TidyIn (top + 1) l)
    (hstart : ∀ b ∈ l, a.start ≤ b.start) (howned : ∀ b ∈ l, b.owner ≠ 0 → a.stop < b.start)
    (hneat : Neat (addLoop [] 0 false (some (a, [])) a.start a.stop l)) :
    ∀ b ∈ l, b.stop = top → b.owner = 0 → a.stop + 1 < b.start := by
  induction l generalizing a with
  | nil => nofun
  | cons cur rest ih =>
    intro b hb htop h0
    have hcur := h.head
    by_cases hhigh : cur.stop = top
    · -- a free block is the last
      obtain rfl : b = cur := (mem_cons.mp hb).resolve_right fun hb => by
        have := (h.before hb).lt (.inr (.inl h0))
        have := h.tail.valid b hb
        omega
      obtain rfl := h.last_free (Nat.le_refl _) h0 htop
      rw [addLoop_some_high ha.2.2 ha.2.1 [] (forall_mem_singleton.mpr ⟨hcur.1, .inl htop⟩)] at hneat
      exact (hneat.head mem_cons_self h0).2 ha.1
    rcases addLoop_some_step ha.2.2 ⟨hcur.1, by omega⟩ (hstart cur mem_cons_self) (howned cur mem_cons_self)
      (by omega) with ⟨hlt, -⟩ | ⟨hfree, -, hloop⟩
    · exact (h.leaves hlt b hb).2 h0
    · have hb := (mem_cons.mp hb).resolve_left fun hb => hhigh (hb ▸ htop)
      rw [hloop] at hneat
      have := ih (a := { a with stop := max a.stop cur.stop }) (by dsimp only; omega) h.tail
        (fun b hb => hstart b (.tail _ hb)) (fun b hb =>
          (h.taken (s := 0) hfree (fun b hb ho => .inr (howned b hb ho)) (by omega) b hb).2) hneat b hb htop h0
      dsimp only at this
      omega

theorem halts_of_neat (hse : s ≤ e) (hetop : e < top) (h : TidyIn (top + 1) l) (hun : Unowned l s e)
    (hzero : ¬ FromZero l s) (hneat : Neat (addLoop [] 0 false none s e l)) :
    Halts s e l ∧ ∀ b ∈ l, b.stop = top → b.owner = 0 → e + 1 < b.start := by
  have hpos : 0 < s := Nat.pos_of_ne_zero fun h0 => hzero (.inl h0)
  induction l with
  | nil => exact ⟨trivial, nofun⟩
  | cons cur rest ih =>
    have hcur := h.head
    have hcurtop : cur.stop < top := Nat.lt_of_le_of_ne (by omega) fun htop =>
      addLoop_neat_high hpos hse hetop h hun htop hneat
    have hunrest : Unowned rest s e := fun b hb => hun b (.tail _ hb)
    rcases addLoop_none_step hse ⟨hcur.1, by omega⟩ (hun cur mem_cons_self) (fun _ => .inl hcurtop) (fun _ => .inl hetop) with
      ⟨-, -, hloop⟩ | ⟨hlt, -⟩ | ⟨hfree, hreach, hnear, hloop⟩
    · rw [hloop] at hneat
      obtain ⟨hhalts, hgap⟩ := ih h.tail hunrest
        (fun hz => hzero (hz.imp_right fun ⟨c, hc, hin⟩ => ⟨c, .tail _ hc, hin⟩)) hneat.tail
      exact ⟨⟨hcurtop, .inr hhalts⟩, forall_mem_cons.mpr ⟨fun htop => by omega, hgap⟩⟩
    · exact ⟨⟨hcurtop, .inl (.inl hlt.1)⟩, fun b hb _ => (h.leaves hlt b hb).2⟩
    · refine ⟨⟨hcurtop, .inl (.inr ⟨hfree, hreach⟩)⟩, forall_mem_cons.mpr ⟨fun htop => by omega, fun b hb htop h0 => ?_⟩⟩
      have hcurpos : cur.start ≠ 0 := fun h0 => hzero (.inr ⟨cur, mem_cons_self, hfree, h0, hcurtop, hreach⟩)
      have htaken := h.taken hfree hun hreach
      rw [hloop] at hneat
      have := addLoop_some_gap (a := { cur with start := min s cur.start, stop := max e cur.stop })
        (by dsimp only; omega) h.tail (fun b hb => (htaken b hb).1) (fun b hb => (htaken b hb).2) hneat b hb htop h0
      dsimp only at this
      omega

theorem last_of_neat (hs : s ≤ top) (h : TidyIn (top + 1) l) (hun : Unowned l s top)
    (hneat : Neat (addLoop [] 0 false none s top l)) : ∀ b ∈ l, b.stop + 1 < s ∨ b.start = 0 ∧ (b.stop < top ∨ s = 0) := by
  induction l with
  | nil => nofun
  | cons cur rest ih =>
    have hcur := h.head
    have huncur := hun cur mem_cons_self
    have hunrest : Unowned rest s top := fun b hb => hun b (.tail _ hb)
    by_cases hgood : cur.stop + 1 < s ∨ cur.start = 0 ∧ (cur.stop < top ∨ s = 0)
    · refine forall_mem_cons.mpr ⟨hgood, ?_⟩
      rcases addLoop_none_step hs ⟨hcur.1, by omega⟩ huncur (by omega) (by omega) with
        ⟨-, -, hloop⟩ | ⟨hlt, -⟩ | ⟨hfree, hreach, -, hloop⟩
      · rw [hloop] at hneat
        exact ih h.tail hunrest hneat.tail
      · have := hlt.1
        omega
      · -- the block is now [0, top], and would be left in front of the next one
        cases rest with
        | nil => nofun
        | cons c rest =>
          have hc := (h.before mem_cons_self).lt (.inl hfree)
          have hcv := h.tail.head
          have hc0 : c.owner = 0 := not_not.mp fun h0 => by
            have := hunrest c mem_cons_self h0
            omega
          rw [hloop, show max top cur.stop = top by omega, show min s cur.start = 0 by omega] at hneat
          simp only [addLoop, show succ64 top = 0 from rfl, if_pos (show 0 < c.start by omega), if_pos (Nat.zero_le _),
            if_neg (Nat.not_lt_zero _), Option.isNone_some, Bool.false_eq_true, false_and, if_false] at hneat
          have := (hneat.head (b := c) mem_cons_self hc0).2 hfree
          dsimp only at this
          omega
    · by_cases hhigh : cur.stop = top ∧ 0 < s
      · have hfree : cur.owner = 0 := not_not.mp fun h0 => by
          have := huncur h0
          omega
        obtain rfl := h.last_free (Nat.le_refl _) hfree hhigh.1
        rw [addLoop_high hhigh.2 hs hhigh.1] at hneat
        obtain ⟨x, hx, hx0, hxs⟩ := @addLoop_new [] s top hhigh.2 hs nofun
        have := (hneat.head hx hx0).2 hfree
        omega
      · -- the new block is put in front of one that it is behind of, or next to
        have hreach : s ≤ succ64 cur.stop := by
          unfold succ64
          unfold top at *
          omega
        simp only [addLoop, if_neg (show ¬ top < s by omega), if_pos hreach, show succ64 top = 0 from rfl,
          if_pos (show 0 < cur.start by omega), not_mem_nil, and_false, if_false, outstanding, flush, nil_append,
          Option.isNone_none, true_and, hs, not_false_eq_true, and_true, if_true] at hneat
        have hle := (pairwise_cons.mp hneat.1).1 cur mem_cons_self
        by_cases h0 : cur.owner = 0
        · have := (hneat.head mem_cons_self h0).2 rfl
          dsimp only at this
          omega
        · have := huncur h0
          dsimp only at hle
          omega

/-- **Free blocks stay maximal.** A range that no block with an owner meets is made free in a tidy list. The list
is in order, the free points are those before and the range, no two free blocks overlap or are next to each other,
and free points that follow each other are in one block, exactly if the range comes to its place. -/
theorem addRange_maximal (l : List Block) (s e : Nat) (hse : s ≤ e) (hetop : e ≤ top) (h : TidyIn (top + 1) l)
    (hmax : Maximal l) (hun : Unowned l s e) :
    ((addRange [] l s e 0 false).Pairwise (fun a b => a.start ≤ b.start) ∧ Maximal (addRange [] l s e 0 false) ∧
      (∀ x, At 0 (addRange [] l s e 0 false) x ↔ At 0 l x ∨ (s ≤ x ∧ x ≤ e)) ∧
      ∀ x n, (∀ y, x ≤ y → y ≤ x + n → At 0 (addRange [] l s e 0 false) y) →
        ∃ b ∈ addRange [] l s e 0 false, b.owner = 0 ∧ b.start ≤ x ∧ x + n ≤ b.stop) ↔ Placed l s e := by
  constructor
  · rintro ⟨hsorted, hmaximal, -⟩
    have hlast : Last l s e := by
      rintro rfl
      exact last_of_neat hse h hun ⟨hsorted, hmaximal⟩
    refine ⟨hlast, or_iff_not_imp_left.mpr fun hzero => ?_⟩
    by_cases htop : e = top
    · -- then no block ends with the greatest number
      have hlow : ∀ b ∈ l, b.stop < top := fun b hb => by
        have := hlast htop b hb
        have := h.valid b hb
        have : s ≠ 0 := fun h0 => hzero (.inl h0)
        omega
      exact ⟨halts_of_lt hlow, fun b hb htop => by have := hlow b hb; omega⟩
    · exact halts_of_neat hse (by omega) h hun hzero ⟨hsorted, hmaximal⟩
  · rintro ⟨hlast, hlow⟩
    obtain ⟨⟨htidy, -, hfree⟩, hmaximal⟩ := (addLoop_none (Nat.le_refl _) hse (by omega) h hun
      (hlow.imp_right fun ⟨hhalts, hgap⟩ => ⟨hhalts, fun b hb htop => ⟨hmax, hgap b hb htop⟩⟩) hlast).1
    exact ⟨htidy.order.imp fun hb => hb.1, hmaximal hmax, hfree, fun x n => (hmaximal hmax).one_block n⟩

/-- A range behind a block with an owner is joined to the free block behind it. -/
theorem addRange_maximal_joined :
    let l : List Block := [⟨0, 4, 0, false⟩, ⟨5, 9, 7, false⟩, ⟨20, 29, 0, false⟩, ⟨40, top, 7, false⟩]
    addRange [] l 10 19 0 false = [⟨0, 4, 0, false⟩, ⟨5, 9, 7, false⟩, ⟨10, 29, 0, false⟩, ⟨40, top, 7, false⟩] ∧
    Maximal (addRange [] l 10 19 0 false) := by
  intro l
  have h : TidyIn (top + 1) l := ⟨by decide, by simp [l, Before]⟩
  refine ⟨by decide +kernel, ((addRange_maximal l 10 19 (by decide) (by decide) h (by simp [l, Maximal]) ?_).mpr ?_).2.1⟩
  · simp [l, Unowned]
  · exact ⟨fun h => absurd h (by decide), .inr ⟨⟨by decide, .inr ⟨by decide, .inr ⟨by decide, .inl (by decide)⟩⟩⟩, by decide⟩⟩

/-- With the greatest number in the range, or in a block behind it, the new block is put on the wrong side. -/
theorem addRange_unsorted :
    addRange [] [⟨10, 20, 0, false⟩] 21 top 0 false = [⟨21, top, 0, false⟩, ⟨10, 20, 0, false⟩] ∧
    addRange [] [⟨10, top, 0, false⟩] 5 9 0 false = [⟨10, top, 0, false⟩, ⟨5, 9, 0, false⟩] ∧
    addRange [] [⟨10, top, 7, false⟩] 5 8 0 false = [⟨10, top, 7, false⟩, ⟨5, 8, 0, false⟩] := by
  decide +kernel

/-! ## Taking a range away -/

/-- A part of a block. -/
def Part (b' b : Block) : Prop := b.start ≤ b'.start ∧ b'.stop ≤ b.stop ∧ b'.owner = b.owner ∧ b'.share = b.share

theorem Part.before {b' : Block} (hp : Part b' b) (h : Before a b) : Before a b' := by
  obtain ⟨h1, h2, h3, h4⟩ := hp
  obtain ⟨h, hor⟩ := h
  refine ⟨by omega, ?_⟩
  rcases hor with hlt | hsh
  · exact .inl (by omega)
  · rw [h3, h4]
    exact .inr hsh

/-- The block is cut: it is the owner's and meets the range. -/
def Cuts (s e p : Nat) (b : Block) : Prop := b.owner = p ∧ b.start ≤ e ∧ s ≤ b.stop

/-- The blocks that are cut overlap no other. -/
def Clear (c : Block → Prop) (l : List Block) : Prop := l.Pairwise fun a b => c a ∨ c b → a.stop < b.start

structure Removed (l l' : List Block) (s e p : Nat) : Prop where
  tidy : Tidy l'
  part : ∀ b' ∈ l', ∃ b ∈ l, Part b' b
  points : ∀ q x, At q l' x ↔ At q l x ∧ (q = p → ¬ (s ≤ x ∧ x ≤ e))

theorem Removed.part_cons (h : Removed l l' s e p) : ∀ b' ∈ l', ∃ b ∈ a :: l, Part b' b := fun b' hb' =>
  let ⟨b, hb, hp⟩ := h.part b' hb'
  ⟨b, .tail _ hb, hp⟩

theorem not_cut (h : ¬ Cuts s e p b) (hx : b.start ≤ x ∧ x ≤ b.stop) : b.owner = p → ¬ (s ≤ x ∧ x ≤ e) :=
  fun ho hse => h ⟨ho, by omega, by omega⟩

theorem overlape_iff {s1 e1 s2 e2 : Nat} : overlape s1 e1 s2 e2 = true ↔ s1 ≤ s2 ∧ s2 ≤ e1 ∨ s2 ≤ s1 ∧ s1 ≤ e2 :=
  decide_eq_true_iff

theorem overlape_eq_false {s1 e1 s2 e2 : Nat} :
    overlape s1 e1 s2 e2 = false ↔ ¬ (s1 ≤ s2 ∧ s2 ≤ e1 ∨ s2 ≤ s1 ∧ s1 ≤ e2) := decide_eq_false_iff_not

theorem Removed.keep (h : Tidy (b :: l)) (hb : ¬ Cuts s e p b) (hrem : Removed l l' s e p) :
    Removed (b :: l) (b :: l') s e p where
  tidy := hrem.tidy.cons h.head fun c' hc' => by
    obtain ⟨c, hc, hp⟩ := hrem.part c' hc'
    exact hp.before (h.before hc)
  part := forall_mem_cons.mpr ⟨⟨b, mem_cons_self, Nat.le_refl _, Nat.le_refl _, rfl, rfl⟩, hrem.part_cons⟩
  points := fun q x => by
    rw [at_cons, hrem.points, at_cons, or_and_right]
    refine or_congr (iff_self_and.mpr ?_) Iff.rfl
    rintro ⟨rfl, hx⟩
    exact not_cut hb hx

theorem Removed.cut (pieces : List Block) (hb : Cuts s e p b) (hlt : ∀ c ∈ l, b.stop < c.start)
    (hrem : Removed l l' s e p) (htidy : Tidy pieces) (hpart : ∀ b' ∈ pieces, Part b' b)
    (hpoints : ∀ q x, At q pieces x ↔ b.owner = q ∧ (b.start ≤ x ∧ x ≤ b.stop) ∧ ¬ (s ≤ x ∧ x ≤ e)) :
    Removed (b :: l) (pieces ++ l') s e p where
  tidy := by
    refine ⟨forall_mem_append.mpr ⟨htidy.valid, hrem.tidy.valid⟩,
      pairwise_append.mpr ⟨htidy.order, hrem.tidy.order, fun b' hb' c' hc' => ?_⟩⟩
    obtain ⟨c, hc, hp⟩ := hrem.part c' hc'
    have h1 := hlt c hc
    have h2 := (hpart b' hb').2.1
    have h3 := hp.1
    exact before_of_lt (htidy.valid b' hb').1 (by omega)
  part := forall_mem_append.mpr ⟨fun c' hc' => ⟨b, mem_cons_self, hpart c' hc'⟩, hrem.part_cons⟩
  points := fun q x => by
    have happ : At q (pieces ++ l') x ↔ At q pieces x ∨ At q l' x := by
      simp only [At, mem_append, or_and_right, exists_or]
    rw [happ, hpoints, hrem.points, at_cons, or_and_right, ← and_assoc]
    refine or_congr_left (and_congr_right fun hq => ?_)
    rw [imp_iff_right (hq.1.symm.trans hb.1)]

theorem Tidy.single (h : b.start ≤ b.stop ∧ b.stop < top) : Tidy [b] :=
  TidyIn.nil.cons h nofun

theorem Tidy.removed_refl (h : Tidy l) (hnone : ∀ b ∈ l, ¬ Cuts s e p b) : Removed l l s e p where
  tidy := h
  part := fun b hb => ⟨b, hb, Nat.le_refl _, Nat.le_refl _, rfl, rfl⟩
  points := fun q x => by
    refine iff_self_and.mpr ?_
    rintro ⟨b, hb, rfl, hx⟩
    exact not_cut (hnone b hb) hx

theorem removeRange_pieces (hse : s ≤ e) (hvalid : b.start ≤ b.stop ∧ b.stop < top) (hcut : Cuts s e p b) :
    ∃ pieces, (∀ rest, removeRange [] s e p (b :: rest) = pieces ++ removeRange [] s e p rest) ∧ Tidy pieces ∧
      (∀ b' ∈ pieces, Part b' b) ∧
      ∀ q x, At q pieces x ↔ b.owner = q ∧ (b.start ≤ x ∧ x ≤ b.stop) ∧ ¬ (s ≤ x ∧ x ≤ e) := by
  obtain ⟨howner, hbe, hsb⟩ := hcut
  have hstep : ∀ rest, removeRange [] s e p (b :: rest) =
      if s ≤ b.start ∧ b.stop ≤ e then removeRange [] s e p rest
      else if b.start < s ∧ e < b.stop then
        { b with stop := pred64 s } :: { b with start := succ64 e } :: removeRange [] s e p rest
      else
        { b with
          start := if s ≤ b.start then succ64 e else b.start
          stop := if b.stop ≤ e then pred64 s else b.stop } :: removeRange [] s e p rest := fun rest => by
    rw [removeRange, if_neg (by omega), if_neg, if_neg not_mem_nil]
    rintro (h | h)
    · exact h howner
    · exact overlape_eq_false.mp h (by omega)
  by_cases hall : s ≤ b.start ∧ b.stop ≤ e
  · refine ⟨[], fun rest => (hstep rest).trans (if_pos hall), TidyIn.nil, nofun, fun q x => ?_⟩
    exact iff_of_false at_nil fun hx => by omega
  by_cases hin : b.start < s ∧ e < b.stop
  · rw [pred64_eq (by omega) (by omega), succ64_eq (by omega)] at hstep
    refine ⟨[{ b with stop := s - 1 }, { b with start := e + 1 }], fun rest => ?_, ?_,
      forall_mem_cons.mpr ⟨⟨Nat.le_refl _, ?_, rfl, rfl⟩, forall_mem_singleton.mpr ⟨?_, Nat.le_refl _, rfl, rfl⟩⟩,
      fun q x => ?_⟩
    · rw [hstep, if_neg hall, if_pos hin]
      rfl
    · refine (Tidy.single (by dsimp only; omega)).cons (by dsimp only; omega) (forall_mem_singleton.mpr ?_)
      exact before_of_lt (by dsimp only; omega) (by dsimp only; omega)
    · dsimp only
      omega
    · dsimp only
      omega
    · rw [at_cons, at_single, ← and_or_left]
      refine and_congr_right fun _ => ?_
      dsimp only
      omega
  by_cases hleft : s ≤ b.start
  · rw [succ64_eq (by omega)] at hstep
    refine ⟨[{ b with start := e + 1 }], fun rest => ?_, Tidy.single (by dsimp only; omega),
      forall_mem_singleton.mpr ⟨by dsimp only; omega, Nat.le_refl _, rfl, rfl⟩, fun q x => ?_⟩
    · rw [hstep, if_neg hall, if_neg hin, if_pos hleft, if_neg (by omega)]
      rfl
    · rw [at_single]
      refine and_congr_right fun _ => ?_
      dsimp only
      omega
  · rw [pred64_eq (by omega) (by omega)] at hstep
    refine ⟨[{ b with stop := s - 1 }], fun rest => ?_, Tidy.single (by dsimp only; omega),
      forall_mem_singleton.mpr ⟨Nat.le_refl _, by dsimp only; omega, rfl, rfl⟩, fun q x => ?_⟩
    · rw [hstep, if_neg hall, if_neg hin, if_neg hleft, if_pos (by omega)]
      rfl
    · rw [at_single]
      refine and_congr_right fun _ => ?_
      dsimp only
      omega

theorem removeRange_spec (hse : s ≤ e) (h : Tidy l) (hclear : Clear (Cuts s e p) l) :
    Removed l (removeRange [] s e p l) s e p := by
  induction l with
  | nil => exact h.removed_refl nofun
  | cons b rest ih =>
    obtain ⟨hc, hcrest⟩ := pairwise_cons.mp hclear
    have hrem := ih h.tail hcrest
    by_cases hfar : e < b.start
    · rw [removeRange, if_pos hfar]
      exact h.removed_refl fun c hc hcut => absurd (Nat.lt_of_lt_of_le hfar (h.first c hc)) (Nat.not_lt.mpr hcut.2.1)
    by_cases hcut : Cuts s e p b
    · obtain ⟨pieces, hstep, htidy, hpart, hpoints⟩ := removeRange_pieces hse h.head hcut
      rw [hstep]
      exact Removed.cut pieces hcut (fun c hc' => hc c hc' (.inl hcut)) hrem htidy hpart hpoints
    · have hstay : b.owner ≠ p ∨ overlape s e b.start b.stop = false := by
        by_contra hcon
        rw [not_or, not_not, Bool.not_eq_false, overlape_iff] at hcon
        have := h.head.1
        exact hcut ⟨hcon.1, by omega, by omega⟩
      rw [removeRange, if_neg hfar, if_pos hstay]
      exact hrem.keep h hcut

theorem Tidy.clear_free (h : Tidy l) : Clear (Cuts s e 0) l :=
  h.order.imp fun hb hor => hb.lt (hor.elim (fun hc => .inl hc.1) fun hc => .inr (.inl hc.1))

theorem removeRange_owned : owned (removeRange [] s e 0 l) = owned l := by
  induction l with
  | nil => rfl
  | cons b rest ih =>
    unfold removeRange
    split
    · rfl
    split
    · exact owned_congr ih
    case isFalse hcut =>
      have ho : b.owner = 0 := not_not.mp (not_or.mp hcut).1
      rw [owned_cons_free ho]
      rw [if_neg not_mem_nil]
      split
      · exact ih
      split
      · refine (owned_cons_free ?_).trans ((owned_cons_free ?_).trans ih) <;> exact ho
      · refine (owned_cons_free ?_).trans ih
        exact ho

/-! ## Giving a range to a process -/

/-- Others meet the range only with shared blocks, and only if it is shared too. -/
def Sharable (l : List Block) (s e : Nat) (share : Bool) : Prop :=
  ∀ b ∈ l, b.stop < s ∨ e < b.start ∨ (b.owner ≠ 0 ∧ b.share = true ∧ share = true)

theorem Sharable.apart {b : Block} (h : Sharable l s e false) (hb : b ∈ l) : b.stop < s ∨ e < b.start :=
  (h b hb).imp_right fun hor => hor.resolve_right fun hsh => Bool.false_ne_true hsh.2.2

structure Given (l l' : List Block) (s e : Nat) : Prop where
  tidy : Tidy l'
  free : ∀ x, At 0 l' x ↔ At 0 l x
  owned : ∀ x, OwnedAt l' x ↔ OwnedAt l x ∨ (s ≤ x ∧ x ≤ e)

theorem ownedAt_cons : OwnedAt (a :: l) x ↔ (a.owner ≠ 0 ∧ a.start ≤ x ∧ x ≤ a.stop) ∨ OwnedAt l x := by
  simp only [OwnedAt, mem_cons, exists_eq_or_imp]

theorem at_free_cons (ha : a.owner ≠ 0) : At 0 (a :: l) x ↔ At 0 l x := by
  rw [at_cons]
  exact or_iff_right fun hc => ha hc.1

theorem given_front (ha : a.owner ≠ 0) (hv : a.start ≤ a.stop ∧ a.stop < top) (h : Tidy l)
    (hbefore : ∀ b ∈ l, Before a b) : Given l (a :: l) a.start a.stop := by
  refine ⟨h.cons hv hbefore, fun x => at_free_cons ha, fun x => ?_⟩
  rw [ownedAt_cons, or_comm]
  exact or_congr_right (and_iff_right ha)

theorem touches_le (h : b.touches s e = true) (hvalid : b.start ≤ b.stop) (hetop : e < top) (hse : s ≤ e) :
    b.start ≤ e + 1 ∧ s ≤ b.stop + 1 := by
  unfold Block.touches at h
  rw [if_pos (show e ≠ top by omega), overlape_iff] at h
  split at h <;> omega

theorem canJoin_iff : b.canJoin p share = true ↔ b.owner = p ∧ b.share = false ∧ share = false := by
  simp [Block.canJoin, and_assoc]

theorem addPid_between {between : List Block} (h : ∀ c ∈ l, ¬ (c.canJoin p share = true ∧ c.touches s e = true)) :
    addPidLoop [] p share (some (a, between)) s e l = a :: (between ++ l) := by
  induction l generalizing between with
  | nil =>
    rw [addPidLoop, flush, outstanding, if_neg fun hc => absurd hc.1 Bool.false_ne_true, append_nil, append_nil]
  | cons c rest ih =>
    unfold addPidLoop
    rw [if_neg fun hc => h c mem_cons_self hc.2, if_neg fun hc => absurd hc.2.1 Bool.false_ne_true]
    dsimp only
    rw [ih fun d hd => h d (.tail _ hd), append_assoc]
    rfl

theorem addPidLoop_join {absorb : Option (Block × List Block)} {rest : List Block} (hcur : cur.stop < top)
    (hs : s ≤ cur.stop + 1) (hjoin : cur.canJoin p share = true ∧ cur.touches s e = true) :
    addPidLoop [] p share absorb s e (cur :: rest) =
      addPidLoop [] p share (some (absorbed (if absorb.isNone ∧ s < cur.start then some (⟨s, e, p, share⟩, []) else absorb) cur
        (min s cur.start) (max e cur.stop))) (min s cur.start) (max e cur.stop) rest := by
  have hs' : s ≤ succ64 cur.stop := by rwa [succ64_eq hcur]
  rw [addPidLoop]
  rw [if_pos (show s ≤ succ64 cur.stop ∧ cur.canJoin p share = true ∧ cur.touches s e = true from ⟨hs', hjoin⟩)]
  simp only [hs', true_and, not_mem_nil, not_false_eq_true, and_true]

theorem given_plain (ha : a.owner ≠ 0) (hv : a.start ≤ a.stop ∧ a.stop < top) (h : Tidy l)
    (hbehind : ∀ b ∈ l, a.stop < b.start) : Given l (a :: l) a.start a.stop ∧ ∀ b ∈ a :: l, a.start ≤ b.start := by
  refine ⟨given_front ha hv h fun b hb => before_of_lt hv.1 (hbehind b hb),
    forall_mem_cons.mpr ⟨Nat.le_refl _, fun b hb => ?_⟩⟩
  have := hbehind b hb
  omega

theorem Given.joined {c : Block} {s' e' : Nat} (h : Given l l' s' e') (hc : c.owner ≠ 0)
    (hpoints : ∀ x, s' ≤ x ∧ x ≤ e' ↔ (c.start ≤ x ∧ x ≤ c.stop) ∨ (s ≤ x ∧ x ≤ e)) : Given (c :: l) l' s e := by
  refine ⟨h.tidy, fun x => (h.free x).trans (at_free_cons hc).symm, fun x => ?_⟩
  rw [h.owned, ownedAt_cons, and_iff_right hc, hpoints, or_assoc, or_left_comm]

/-- The loop with a block of the process that is not shared, in front of all the others. -/
theorem addPid_some (hp : p ≠ 0) (ha : a.owner = p) (hv : a.start ≤ a.stop ∧ a.stop < top) (h : Tidy l)
    (hbehind : ∀ b ∈ l, a.stop < b.start) :
    Given l (addPidLoop [] p false (some (a, [])) a.start a.stop l) a.start a.stop ∧
      ∀ b ∈ addPidLoop [] p false (some (a, [])) a.start a.stop l, a.start ≤ b.start := by
  induction l generalizing a with
  | nil =>
    rw [addPid_between fun c hc => absurd hc not_mem_nil]
    exact given_plain (ha ▸ hp) hv h hbehind
  | cons cur rest ih =>
    obtain ⟨hcur, hcurtop⟩ := h.head
    have hlt := hbehind cur mem_cons_self
    by_cases hjoin : cur.canJoin p false = true ∧ cur.touches a.start a.stop = true
    · obtain ⟨howner, hshare, -⟩ := canJoin_iff.mp hjoin.1
      have htouch := (touches_le hjoin.2 hcur hv.2 hv.1).1
      have hrest : ∀ b ∈ rest, cur.stop < b.start := fun b hb => (h.before hb).lt (.inr (.inr (.inl hshare)))
      rw [addPidLoop_join hcurtop (by omega) hjoin, if_neg fun hc => absurd hc.1 Bool.false_ne_true,
        Nat.min_eq_left (by omega), Nat.max_eq_right (by omega)]
      obtain ⟨hgiven, hb⟩ := ih (a := { a with stop := cur.stop }) ha ⟨by dsimp only; omega, hcurtop⟩ h.tail hrest
      exact ⟨hgiven.joined (howner ▸ hp) fun x => by dsimp only; omega, hb⟩
    · -- a block that can be joined behind this one would begin where this one does
      have hnone : ∀ c ∈ cur :: rest, ¬ (c.canJoin p false = true ∧ c.touches a.start a.stop = true) := by
        refine forall_mem_cons.mpr ⟨hjoin, fun c hc hjoin' => ?_⟩
        have hshare := (canJoin_iff.mp hjoin'.1).2.1
        have h1 := (touches_le hjoin'.2 (h.tail.valid c hc).1 hv.2 hv.1).1
        have h2 := (h.before hc).lt (.inr (.inr (.inr hshare)))
        omega
      rw [addPid_between hnone]
      exact given_plain (ha ▸ hp) hv h hbehind

/-- What comes of the list stands behind a block in front of it that may share the range. -/
def SharesBehind (l l' : List Block) (s : Nat) (share : Bool) : Prop :=
  ∀ c : Block, c.start ≤ c.stop → c.start ≤ s → (c.stop < s ∨ (c.owner ≠ 0 ∧ c.share = true ∧ share = true)) →
    (∀ b ∈ l, Before c b) → ∀ b ∈ l', Before c b

section
variable (hp : p ≠ 0) (hse : s ≤ e) (hetop : e < top) (h : Tidy l) (hsh : Sharable l s e share)
include hp hse hetop h hsh

theorem addPid_none :
    Given l (addPidLoop [] p share none s e l) s e ∧ SharesBehind l (addPidLoop [] p share none s e l) s share := by
  -- the range is a block of its own in front of the list
  have hnew : ∀ l : List Block, Tidy l → (∀ b ∈ l, Before ⟨s, e, p, share⟩ b) →
      Given l (⟨s, e, p, share⟩ :: l) s e ∧ SharesBehind l (⟨s, e, p, share⟩ :: l) s share := fun l h hbefore => by
    exact ⟨given_front hp ⟨hse, hetop⟩ h hbefore, fun c _ hcs hor hb =>
      forall_mem_cons.mpr ⟨⟨hcs, hor.imp_right fun ⟨h1, h2, h3⟩ => ⟨h1, hp, h2, h3⟩⟩, hb⟩⟩
  induction l with
  | nil =>
    have heq : addPidLoop [] p share none s e [] = [⟨s, e, p, share⟩] := by
      rw [addPidLoop, flush, outstanding, if_pos ⟨rfl, hse, not_mem_nil⟩]
      rfl
    rw [heq]
    exact hnew [] h nofun
  | cons cur rest ih =>
    obtain ⟨hcur, hcurtop⟩ := h.head
    have hshrest : Sharable rest s e share := fun b hb => hsh b (.tail _ hb)
    have hcase := hsh cur mem_cons_self
    by_cases hjoin : s ≤ cur.stop + 1 ∧ cur.canJoin p share = true ∧ cur.touches s e = true
    · obtain ⟨hreach, hjoin⟩ := hjoin
      obtain ⟨howner, hshare, rfl⟩ := canJoin_iff.mp hjoin.1
      have htouch := (touches_le hjoin.2 hcur hetop hse).1
      have hrest : ∀ b ∈ rest, cur.stop < b.start := fun b hb => (h.before hb).lt (.inr (.inr (.inl hshare)))
      have hbehind : ∀ b ∈ rest, max e cur.stop < b.start := fun b hb => by
        have h1 := hrest b hb
        have h2 := (h.tail.valid b hb).1
        have h3 := hshrest.apart hb
        omega
      rw [addPidLoop_join hcurtop hreach hjoin]
      generalize hab : (if (none : Option (Block × List Block)).isNone = true ∧ s < cur.start then
        some ((⟨s, e, p, false⟩ : Block), ([] : List Block)) else none) = absorb
      have howner' : (absorb.elim cur Prod.fst).owner = p := by
        subst hab
        split
        exacts [rfl, howner]
      obtain ⟨hgiven, hstart⟩ := addPid_some (a := (absorbed absorb cur (min s cur.start) (max e cur.stop)).1) hp howner'
        (show min s cur.start ≤ max e cur.stop ∧ max e cur.stop < top by omega) h.tail hbehind
      refine ⟨hgiven.joined (howner ▸ hp) fun x => by dsimp only [absorbed]; omega, fun c hc hcs hor hb b hmem => ?_⟩
      have h1 := (hb cur mem_cons_self).lt (.inr (.inr (.inr hshare)))
      have h2 : min s cur.start ≤ b.start := hstart b hmem
      have h3 : c.stop < s := hor.elim id fun h => absurd h.2.2 Bool.false_ne_true
      exact before_of_lt hc (by omega)
    have hnot : ¬ (s ≤ succ64 cur.stop ∧ cur.canJoin p share = true ∧ cur.touches s e = true) := by
      rwa [succ64_eq hcurtop]
    by_cases hfront : s < cur.start
    · have hloop : addPidLoop [] p share none s e (cur :: rest) =
          addPidLoop [] p share (some (⟨s, e, p, share⟩, [cur])) s e rest := by
        rw [addPidLoop]
        rw [if_neg hnot, if_pos ⟨by rw [succ64_eq hcurtop]; omega, rfl, hfront, not_mem_nil⟩]
        rfl
      have hnone : ∀ c ∈ rest, ¬ (c.canJoin p share = true ∧ c.touches s e = true) := fun c hc hj => by
        obtain ⟨-, hcs, rfl⟩ := canJoin_iff.mp hj.1
        have h1 := (touches_le hj.2 (h.tail.valid c hc).1 hetop hse).1
        have h2 := (h.before hc).lt (.inr (.inr (.inr hcs)))
        have h3 := hsh.apart mem_cons_self
        omega
      rw [hloop, addPid_between hnone]
      refine hnew (cur :: rest) h fun b hb => ?_
      have hbs := h.first b hb
      have hbv := (h.valid b hb).1
      refine ⟨by dsimp only; omega, ?_⟩
      rcases hsh b hb with h | h | ⟨h1, h2, h3⟩
      · omega
      · exact .inl h
      · exact .inr ⟨hp, h1, h3, h2⟩
    · have hloop : addPidLoop [] p share none s e (cur :: rest) = cur :: addPidLoop [] p share none s e rest := by
        rw [addPidLoop]
        rw [if_neg hnot, if_neg fun hc => hfront hc.2.2.1]
      have hcurs : cur.stop < s ∨ (cur.owner ≠ 0 ∧ cur.share = true ∧ share = true) := by
        rcases hcase with h | h | h
        · exact .inl h
        · omega
        · exact .inr h
      obtain ⟨hgiven, hb⟩ := ih h.tail hshrest
      rw [hloop]
      refine ⟨⟨hgiven.tidy.cons h.head (hb cur hcur (by omega) hcurs fun b hb => h.before hb), fun x => ?_, fun x => ?_⟩,
        fun c hc hcs hor hbc => ?_⟩
      · rw [at_cons, hgiven.free, ← at_cons]
      · rw [ownedAt_cons, hgiven.owned, ownedAt_cons, or_assoc]
      · obtain ⟨hfirst, hlast⟩ := forall_mem_cons.mp hbc
        exact forall_mem_cons.mpr ⟨hfirst, hb c hc hcs hor hlast⟩

theorem addRangePid_spec :
    Given l (addRangePid [] l s e p share) s e := (addPid_none hp hse hetop h hsh).1

end

end QRV.Rsrcdb
