import QRV.Nano.Object

/- Runs of `object_alloc`, `object_free` and `object_compact` on one soul, with an
   allocator that answers each `_scalloc` with a block that is not in use, or fails
   (`answerAlloc`: the answers of one operation are a list). The live objects of a
   run are ghost state: the pointer handed out, the block, and the limits record
   it was billed to.

   `SoulOk` is the invariant: `total` is `used` and the chain together, and `cur`
   of every limits record is the number of live objects billed to it. `soul_run`
   keeps it over every run in which no growth fails under a bill (`object_alloc`
   charges the record before it looks for a block and does not refund it), no
   growth on first use gets some of its blocks but not the last, no growth takes
   `total` to 2^32, and the saved pointer of an aligned object is still there at its
   release.
   `soul_run_overcharges` is such a growth. -/
namespace QRV.Nano
open LinkCell List

variable {L : Type}

/-- The allocator that gives the answers of a list; a list at its end gives none. -/
def answerAlloc (isCrit : Nat → Bool) : Allocator (List (Option Nat)) where
  scalloc h _ _ := (h.tail, h.head?.join)
  sfree h _ _ := h
  isCrit _ p := isCrit p

/-- An object in use. -/
structure LiveObject (L : Type) where
  handle : Nat
  block : Nat
  bill : Option L
  deriving DecidableEq, Repr

/-- What happens to a soul. `write` is a client's store over the saved pointer of
its object. -/
inductive SoulOp (L : Type) where
  | alloc (bill : Option (Billed L)) (answers : List (Option Nat))
  | free (o : LiveObject L)
  | compact
  | write (handle word : Nat)

abbrev Soul (L : Type) := SoulMem L (List (Option Nat))

/-! ## Growth -/

/-- How many blocks a growth asks for before the one that counts. -/
def firstUse (s : Soul L) : Nat := if s.newmin = 0 then s.min - 1 else 0

/-- What a growth does to the soul: the blocks `ps` are new on its chain. -/
structure Grown (s s' : Soul L) (ps : List Nat) : Prop where
  chain : ∀ q, Chain s.links (.head ()) q → (ps ++ q).Nodup → Chain s'.links (.head ()) (ps ++ q)
  /-- as long as the count does not wrap -/
  total : s.total + ps.length < 2 ^ 32 → s'.total = s.total + ps.length
  used : s'.used = s.used
  cur : s'.cur = s.cur
  saved : s'.saved = s.saved
  align : s'.align = s.align

theorem Grown.refl {s s' : Soul L} (hl : s'.links = s.links) (ht : s'.total = s.total)
    (hu : s'.used = s.used) (hc : s'.cur = s.cur) (hs : s'.saved = s.saved)
    (ha : s'.align = s.align) : Grown s s' [] :=
  ⟨fun q hq _ => by simpa [hl] using hq, fun _ => by simpa using ht, hu, hc, hs, ha⟩

theorem Grown.trans {s s1 s' : Soul L} {ps qs : List Nat} (h : Grown s s1 ps) (h' : Grown s1 s' qs) :
    Grown s s' (qs ++ ps) := by
  refine ⟨fun q hq hnd => ?_, ?_, h'.used.trans h.used, h'.cur.trans h.cur, h'.saved.trans h.saved,
    h'.align.trans h.align⟩
  · rw [append_assoc] at hnd ⊢
    exact h'.chain (ps ++ q) (h.chain q hq (nodup_append.mp hnd).2.1) hnd
  · intro hlt
    rw [length_append] at hlt ⊢
    have h1 := h.total (by omega)
    rw [h'.total (by omega), h1]
    omega

variable (isCrit : Nat → Bool)

theorem growOne_grown (s : Soul L) :
    Grown s (growOne (answerAlloc isCrit) s).1 ((s.heap.take 1).filterMap id) ∧
      (growOne (answerAlloc isCrit) s).2 = s.heap.head?.join ∧
      (growOne (answerAlloc isCrit) s).1.heap = s.heap.tail := by
  unfold growOne answerAlloc
  rcases hh : s.heap with _ | ⟨_ | p, h⟩
  · exact ⟨Grown.refl rfl rfl rfl rfl rfl rfl, rfl, rfl⟩
  · exact ⟨Grown.refl rfl rfl rfl rfl rfl rfl, rfl, rfl⟩
  · refine ⟨⟨fun q hq hnd => ?_, Nat.mod_eq_of_lt, rfl, rfl, rfl, rfl⟩, rfl, rfl⟩
    have hp : p ∉ q := (nodup_cons.mp hnd).1
    exact chain_push hq hp

theorem growMany_grown (k : Nat) (s : Soul L) :
    Grown s (growMany (answerAlloc isCrit) k s) ((s.heap.take k).filterMap id).reverse ∧
      (growMany (answerAlloc isCrit) k s).heap = s.heap.drop k := by
  induction k generalizing s with
  | zero => exact ⟨Grown.refl rfl rfl rfl rfl rfl rfl, rfl⟩
  | succ k ih =>
    obtain ⟨hone, -, hheap⟩ := growOne_grown isCrit s
    obtain ⟨hmany, hheap'⟩ := ih (growOne (answerAlloc isCrit) s).1
    rw [hheap] at hmany hheap'
    rw [growMany]
    refine ⟨?_, by rw [hheap', drop_tail]⟩
    have hsplit : ((s.heap.take (k + 1)).filterMap id).reverse =
        ((s.heap.tail.take k).filterMap id).reverse ++ (s.heap.take 1).filterMap id := by
      rcases s.heap with _ | ⟨_ | p, h⟩ <;> simp
    rw [hsplit]
    exact hone.trans hmany

/-- A growth gets the blocks of the first answers; the last of them is its result. -/
theorem objectGrow_grown (s : Soul L) :
    Grown s (objectGrow (answerAlloc isCrit) s).1
        ((s.heap[firstUse s]?.join.toList) ++ ((s.heap.take (firstUse s)).filterMap id).reverse) ∧
      (objectGrow (answerAlloc isCrit) s).2 = s.heap[firstUse s]?.join := by
  have hone : ∀ t : Soul L, (t.heap.take 1).filterMap id = t.heap.head?.join.toList := by
    intro t
    rcases t.heap with _ | ⟨_ | p, h⟩ <;> rfl
  unfold objectGrow firstUse
  by_cases hz : s.newmin = 0
  · rw [if_pos hz, if_pos hz]
    obtain ⟨hmany, hheap⟩ := growMany_grown isCrit (s.min - 1) { s with newmin := s.min }
    obtain ⟨hlast, hres, -⟩ :=
      growOne_grown isCrit (growMany (answerAlloc isCrit) (s.min - 1) { s with newmin := s.min })
    rw [hone, hheap, head?_drop] at hlast
    rw [hheap, head?_drop] at hres
    have hfirst : Grown s { s with newmin := s.min } [] := Grown.refl rfl rfl rfl rfl rfl rfl
    refine ⟨?_, hres⟩
    have := (hfirst.trans hmany).trans hlast
    rwa [append_nil] at this
  · rw [if_neg hz, if_neg hz]
    obtain ⟨hlast, hres, -⟩ := growOne_grown isCrit s
    rw [hone, head?_eq_getElem?] at hlast
    rw [head?_eq_getElem?] at hres
    exact ⟨by simpa using hlast, hres⟩

section
variable {s : Soul L} {live : List (LiveObject L)} {q : List Nat}

theorem trackHighwater_fields (s : Soul L) :
    (trackHighwater s).links = s.links ∧ (trackHighwater s).total = s.total ∧
      (trackHighwater s).used = u32 (s.used + 1) ∧ (trackHighwater s).cur = s.cur ∧
      (trackHighwater s).align = s.align := by
  unfold trackHighwater
  dsimp only
  split <;> exact ⟨rfl, rfl, rfl, rfl, rfl⟩

theorem handOut_spec {ptr : Nat} (h : Chain s.links (.head ()) (ptr :: q)) :
    Chain (handOut s ptr).1.links (.head ()) q ∧ (handOut s ptr).1.total = s.total ∧
      (handOut s ptr).1.used = u32 (s.used + 1) ∧ (handOut s ptr).1.cur = s.cur ∧
      (handOut s ptr).1.align = s.align ∧
      (if (handOut s ptr).1.align ≠ 0 then (handOut s ptr).1.saved (handOut s ptr).2
        else (handOut s ptr).2) = ptr ∧
      (s.align = 0 → (handOut s ptr).2 = ptr) := by
  have hptr : ptr ∉ q := (nodup_cons.mp h.nodup).1
  have hch : Chain ((s.links.set (.head ()) (s.links (.next ptr))).set (.next ptr) none) (.head ()) q := by
    rw [chain_set_off (by simpa using hptr)]
    exact chain_pop h
  obtain ⟨hl, ht, hu, hc, ha⟩ := trackHighwater_fields
    { s with links := (s.links.set (.head ()) (s.links (.next ptr))).set (.next ptr) none }
  unfold handOut
  by_cases hal : s.align = 0
  · rw [if_neg (by rw [ha]; simpa using hal)]
    refine ⟨by rw [hl]; exact hch, ht, hu, hc, ha, ?_, fun _ => rfl⟩
    rw [if_neg (by rw [ha]; simpa using hal)]
  · rw [if_pos (by rw [ha]; exact hal)]
    refine ⟨by rw [hl]; exact hch, ht, hu, hc, ha, ?_, fun e => absurd e hal⟩
    dsimp only
    rw [if_pos (by rw [ha]; exact hal), Function.update_self]

/-- The blocks a growth may answer with are new to the soul. -/
structure FreshAnswers (answers : List (Option Nat)) (used : List Nat) : Prop where
  nodup : (answers.filterMap id).Nodup
  fresh : ∀ p ∈ answers.filterMap id, p ∉ used

theorem answers_split (answers : List (Option Nat)) (k : Nat) : ((answers.take (k + 1)).filterMap id).reverse =
    answers[k]?.join.toList ++ ((answers.take k).filterMap id).reverse := by
  rw [take_add_one, filterMap_append, reverse_append]
  congr 1
  rcases answers[k]? with _ | ⟨_ | p⟩ <;> rfl

theorem grown_fresh {answers : List (Option Nat)} {used : List Nat} (k : Nat) (h : FreshAnswers answers used) :
    ((answers.take k).filterMap id).reverse.Nodup ∧ ∀ p ∈ ((answers.take k).filterMap id).reverse, p ∉ used := by
  have hsub : ((answers.take k).filterMap id).Sublist (answers.filterMap id) := (take_sublist _ _).filterMap id
  refine ⟨nodup_reverse.mpr (h.nodup.sublist hsub), fun p hp => ?_⟩
  exact h.fresh p (hsub.subset (mem_reverse.mp hp))

/-- The blocks that the growth of an empty chain is answered with. -/
def gained (s : Soul L) (answers : List (Option Nat)) : List Nat :=
  ((answers.take (firstUse s + 1)).filterMap id).reverse

/-- An allocation behind the limits check hands out one block, or its growth got
no last one. -/
theorem takeObject_spec (hch : Chain s.links (.head ()) q)
    (hnd : (q ++ live.map LiveObject.block).Nodup)
    (hfr : FreshAnswers s.heap (q ++ live.map LiveObject.block))
    (hroom : q = [] → s.total + (gained s s.heap).length < 2 ^ 32) :
    (∃ s' p b q', takeObject (answerAlloc isCrit) s = (s', some p) ∧
        Chain s'.links (.head ()) q' ∧ s'.total + q.length = s.total + q'.length + 1 ∧
        (s.total < 2 ^ 32 → s'.total < 2 ^ 32) ∧ s'.used = u32 (s.used + 1) ∧ s'.cur = s.cur ∧ s'.align = s.align ∧
        (if s'.align ≠ 0 then s'.saved p else p) = b ∧ (s.align = 0 → p = b) ∧
        (q' ++ b :: live.map LiveObject.block).Nodup) ∨
      (∃ s' ps, takeObject (answerAlloc isCrit) s = (s', none) ∧ q = [] ∧
        s.heap[firstUse s]?.join = none ∧ Grown s s' ps ∧
        ps = ((s.heap.take (firstUse s)).filterMap id).reverse ∧
        (ps ++ live.map LiveObject.block).Nodup) := by
  cases q with
  | cons ptr r =>
    have hhead : s.links (.head ()) = some ptr := hch.1
    obtain ⟨hch', ht, hu, hc, ha, hb, hal⟩ := handOut_spec hch
    refine .inl ⟨_, _, ptr, r, by simp only [takeObject, hhead], hch', ?_, ht ▸ id, hu, hc, ha, hb, hal, ?_⟩
    · rw [ht, length_cons]
      omega
    · exact nodup_middle.mpr hnd
  | nil =>
    have hhead : s.links (.head ()) = none := hch
    obtain ⟨hgrown, hres⟩ := objectGrow_grown isCrit s
    obtain ⟨hpnd, hpfr⟩ := grown_fresh (firstUse s + 1) hfr
    have hlt := hroom rfl
    rw [gained, answers_split] at hlt
    rw [answers_split] at hpnd hpfr
    rcases hg : objectGrow (answerAlloc isCrit) s with ⟨s1, r⟩
    rw [hg] at hgrown hres
    subst hres
    generalize hlast : s.heap[firstUse s]?.join = last at *
    have hpapp : (last.toList ++ ((s.heap.take (firstUse s)).filterMap id).reverse ++
        live.map LiveObject.block).Nodup := by
      refine nodup_append.mpr ⟨hpnd, by simpa using hnd, fun a ha b hb e => ?_⟩
      exact hpfr a ha (by simpa [e] using hb)
    have hch1 := hgrown.chain [] hch (by simpa using hpnd)
    rw [append_nil] at hch1
    cases last with
    | none =>
      exact .inr ⟨s1, _, by simp only [takeObject, hhead, hg], rfl, rfl, hgrown, rfl, hpapp⟩
    | some ptr =>
      obtain ⟨hch', ht, hu, hc, ha, hb, hal⟩ := handOut_spec hch1
      refine .inl ⟨_, _, ptr, _, by simp only [takeObject, hhead, hg], hch', ?_, ?_, by rw [hu, hgrown.used],
        by rw [hc, hgrown.cur], by rw [ha, hgrown.align], hb, by rw [← hgrown.align]; exact hal, ?_⟩
      · rw [ht, hgrown.total hlt]
        simp
        omega
      · rw [ht, hgrown.total hlt]
        exact fun _ => hlt
      · exact nodup_middle.mpr hpapp

end

/-! ## Runs -/

variable [DecidableEq L]

/-- One operation; the live objects are ghost state. -/
def soulStep (isCrit : Nat → Bool) (s : Soul L) (live : List (LiveObject L)) :
    SoulOp L → Option (Soul L × List (LiveObject L))
  | .alloc bill answers =>
    match objectAlloc (answerAlloc isCrit) { s with heap := answers } bill with
    | (s, none) => some (s, live)
    | (s, some p) =>
      some (s, live ++ [⟨p, if s.align ≠ 0 then s.saved p else p, bill.map Billed.lip⟩])
  | .free o =>
    (objectFree (answerAlloc isCrit) s o.bill o.handle).map fun s => (s, live.erase o)
  | .compact => some (objectCompact (answerAlloc isCrit) s, live)
  | .write handle word => some ({ s with saved := Function.update s.saved handle word }, live)

def soulRun (isCrit : Nat → Bool) (s : Soul L) (live : List (LiveObject L)) :
    List (SoulOp L) → Option (Soul L × List (LiveObject L))
  | [] => some (s, live)
  | op :: ops => do
    let (s, live) ← soulStep isCrit s live op
    soulRun isCrit s live ops

/-- The free chain is `q`; the counts are those of the chain and of the live
objects. -/
structure SoulOk (s : Soul L) (live : List (LiveObject L)) (q : List Nat) : Prop where
  chain : Chain s.links (.head ()) q
  total : s.total = s.used + q.length
  bound : s.total < 2 ^ 32
  used : s.used = live.length
  cur : ∀ lip, s.cur lip = (live.filter fun o => o.bill = some lip).length
  nodup : (q ++ live.map LiveObject.block).Nodup
  handle : s.align = 0 → ∀ o ∈ live, o.handle = o.block

/-! ## What the callers and the allocator see to, and what they do not -/

/-- `_scalloc` answers with blocks that are neither live nor on the chain, and
only live objects are freed, each to the record it was billed to. -/
def SoulOp.Ok (s : Soul L) (live : List (LiveObject L)) : SoulOp L → Prop
  | .alloc _ answers => (answers.filterMap id).Nodup ∧ ∀ p ∈ answers.filterMap id,
      p ∉ live.map LiveObject.block ∧ ∀ q, Chain s.links (.head ()) q → p ∉ q
  | .free o => o ∈ live
  | .compact => True
  | .write _ _ => True

/-- Whether the limits check lets the allocation through. -/
def Admits (s : Soul L) : Option (Billed L) → Prop
  | none => True
  | some b => ¬ (s.max b.lip ≤ s.cur b.lip ∧ b.noLimits = false)

/-- An allocation that has to grow the list gets its last block and no more than can
be counted, or is not billed and gets none at all; and a saved pointer is still the
block's. -/
def SoulOp.Safe (s : Soul L) : SoulOp L → Prop
  | .alloc bill answers => Admits s bill → s.links (.head ()) = none →
      ((∃ p, answers[firstUse s]? = some (some p)) ∧ s.total + (gained s answers).length < 2 ^ 32) ∨
        (bill = none ∧ ∀ a ∈ answers.take (firstUse s + 1), a = none)
  | .free o => s.align ≠ 0 → s.saved o.handle = o.block
  | .compact => True
  | .write _ _ => True

/-- `P` holds of every operation of the run, in the state it starts in. -/
def SoulAlong (isCrit : Nat → Bool) (P : Soul L → List (LiveObject L) → SoulOp L → Prop) :
    Soul L → List (LiveObject L) → List (SoulOp L) → Prop
  | _, _, [] => True
  | s, live, op :: ops => P s live op ∧
      ∀ s' live', soulStep isCrit s live op = some (s', live') → SoulAlong isCrit P s' live' ops

/-! ## One operation -/

section Step
variable {s : Soul L} {live : List (LiveObject L)} {q : List Nat}

theorem billed_append (lip : L) (live : List (LiveObject L)) (o : LiveObject L) :
    ((live ++ [o]).filter fun o => o.bill = some lip).length =
      (live.filter fun o => o.bill = some lip).length + if o.bill = some lip then 1 else 0 := by
  rw [filter_append, length_append]
  by_cases h : o.bill = some lip <;> simp [h]

theorem billed_erase (lip : L) {live : List (LiveObject L)} {o : LiveObject L} (ho : o ∈ live) :
    ((live.erase o).filter fun o => o.bill = some lip).length +
        (if o.bill = some lip then 1 else 0) =
      (live.filter fun o => o.bill = some lip).length := by
  have hperm := (perm_cons_erase ho).filter fun o => o.bill = some lip
  rw [hperm.length_eq, filter_cons]
  by_cases h : o.bill = some lip <;> simp [h]

/-- What a null from `object_alloc` leaves as it was. -/
structure Unchanged (s s' : Soul L) : Prop where
  cur : s'.cur = s.cur
  used : s'.used = s.used
  total : s'.total = s.total
  chain : ∀ q, Chain s.links (.head ()) q → Chain s'.links (.head ()) q

/-- The two souls differ in the limits records and the answers to come only. -/
structure SameBlocks (s s0 : Soul L) : Prop where
  links : s0.links = s.links
  total : s0.total = s.total
  used : s0.used = s.used
  align : s0.align = s.align

theorem takeObject_ok {s0 : Soul L} {bill : Option L} (h : SoulOk s live q) (hsame : SameBlocks s s0)
    (hcur : ∀ lip, s0.cur lip = u32 (s.cur lip + if bill = some lip then 1 else 0))
    (hfr : FreshAnswers s0.heap (q ++ live.map LiveObject.block))
    (hsafe : s.links (.head ()) = none →
      ((∃ p, s0.heap[firstUse s0]? = some (some p)) ∧ s0.total + (gained s0 s0.heap).length < 2 ^ 32) ∨
      (bill = none ∧ ∀ a ∈ s0.heap.take (firstUse s0 + 1), a = none)) :
    (∃ s' p q', takeObject (answerAlloc isCrit) s0 = (s', some p) ∧
        SoulOk s' (live ++ [⟨p, if s'.align ≠ 0 then s'.saved p else p, bill⟩]) q') ∨
      (∃ s', takeObject (answerAlloc isCrit) s0 = (s', none) ∧ SoulOk s' live q ∧
        Unchanged s s') := by
  obtain ⟨hlinks, htotal, hused, halign⟩ := hsame
  have hch0 : Chain s0.links (.head ()) q := by rw [hlinks]; exact h.chain
  have htot := h.total
  have husd := h.used
  have hbound := h.bound
  have hnone : q = [] → s.links (.head ()) = none := by
    rintro rfl
    exact h.chain
  have hroom : q = [] → s0.total + (gained s0 s0.heap).length < 2 ^ 32 := fun hq => by
    rcases hsafe (hnone hq) with hb | ⟨-, hall⟩
    · exact hb.2
    · have hgained : gained s0 s0.heap = [] := by
        rw [gained, reverse_eq_nil_iff, filterMap_eq_nil_iff]
        exact hall
      rw [hgained, length_nil, htotal]
      exact hbound
  rcases takeObject_spec isCrit hch0 h.nodup hfr hroom with
    ⟨s', p, b, q', hrun, hch, ht, hlt, hu, hc, ha, hb, hal, hnd⟩ | ⟨s', ps, hrun, hq, hlast, hg, hps, -⟩
  · -- an object more is in use than before, and all are counted in `total`
    have hlt' := hlt (htotal ▸ hbound)
    have hused' : s'.used = live.length + 1 := by
      rw [hu, u32_of_lt (by omega)]
      omega
    refine .inl ⟨s', p, q', hrun, hch, by omega, hlt', ?_, fun lip => ?_, ?_, fun e o ho => ?_⟩
    · rw [length_append, length_singleton]
      exact hused'
    · have hle := length_filter_le (fun o : LiveObject L => decide (o.bill = some lip)) live
      rw [hc, hcur, h.cur, billed_append, u32_of_lt]
      split <;> omega
    · rw [map_append, map_cons, map_nil, hb]
      exact ((perm_append_singleton b _).append_left q').nodup_iff.mpr hnd
    · rcases mem_append.mp ho with ho | ho
      · exact h.handle (by rw [← halign, ← ha]; exact e) o ho
      · obtain rfl := mem_singleton.mp ho
        rw [if_neg (by simpa using e)]
  · -- the growth failed: it was not billed and got nothing
    obtain ⟨hbill, htake⟩ : bill = none ∧ ∀ a ∈ s0.heap.take (firstUse s0 + 1), a = none := by
      rcases hsafe (hnone hq) with ⟨⟨p, hp⟩, -⟩ | hb
      · rw [hp] at hlast
        simp at hlast
      · exact hb
    have hps' : ps = [] := by
      rw [hps, reverse_eq_nil_iff, filterMap_eq_nil_iff]
      exact fun a ha => htake a (take_subset_take_left _ (Nat.le_succ _) ha)
    rw [hps'] at hg
    have hcur' : s'.cur = s.cur := by
      funext lip
      have hle := length_filter_le (fun o : LiveObject L => decide (o.bill = some lip)) live
      rw [hg.cur, hcur, hbill, h.cur, if_neg nofun, Nat.add_zero, u32_of_lt (by omega)]
    have hchain : ∀ q, Chain s.links (.head ()) q → Chain s'.links (.head ()) q := fun q hq' => by
      have := hg.chain q (by rw [hlinks]; exact hq') (by simpa using hq'.nodup)
      simpa using this
    have hg' := hg.total (by rw [length_nil]; omega)
    have hgu := hg.used
    rw [length_nil] at hg'
    exact .inr ⟨s', hrun, ⟨hchain q h.chain, by omega, by omega, by omega, fun lip => by rw [hcur', h.cur], h.nodup,
      fun e => h.handle (by rw [← halign, ← hg.align]; exact e)⟩, hcur', by omega, by omega, hchain⟩

/-- The limits check refuses the allocation, or the record is charged and an object is taken. -/
theorem objectAlloc_charge (s : Soul L) (hcur : ∀ lip, s.cur lip < 2 ^ 32) (bill : Option (Billed L)) (answers : List (Option Nat)) :
    objectAlloc (answerAlloc isCrit) { s with heap := answers } bill = ({ s with heap := answers }, none) ∨
    ∃ s0 : Soul L, SameBlocks s s0 ∧ s0.heap = answers ∧ firstUse s0 = firstUse s ∧
      (∀ lip, s0.cur lip = u32 (s.cur lip + if bill.map Billed.lip = some lip then 1 else 0)) ∧ Admits s bill ∧
      objectAlloc (answerAlloc isCrit) { s with heap := answers } bill = takeObject (answerAlloc isCrit) s0 := by
  cases bill with
  | none => exact .inr ⟨{ s with heap := answers }, ⟨rfl, rfl, rfl, rfl⟩, rfl, rfl,
      fun lip => by simp [u32_of_lt (hcur lip)], trivial, rfl⟩
  | some b =>
    by_cases hlim : s.max b.lip ≤ s.cur b.lip ∧ b.noLimits = false
    · exact .inl (if_pos hlim)
    · refine .inr ⟨{ s with heap := answers, cur := Function.update s.cur b.lip (u32 (s.cur b.lip + 1)) },
        ⟨rfl, rfl, rfl, rfl⟩, rfl, rfl, fun lip => ?_, hlim, if_neg hlim⟩
      by_cases hb : b.lip = lip
      · subst hb
        simp
      · simp [hb, Function.update_of_ne (Ne.symm hb), u32_of_lt (hcur lip)]

theorem alloc_ok {bill : Option (Billed L)} {answers : List (Option Nat)} (h : SoulOk s live q)
    (hok : (SoulOp.alloc bill answers).Ok s live) (hsafe : (SoulOp.alloc bill answers).Safe s) :
    (∃ s' live' q', soulStep isCrit s live (.alloc bill answers) = some (s', live') ∧
        SoulOk s' live' q') ∧
      ∀ s', objectAlloc (answerAlloc isCrit) { s with heap := answers } bill = (s', none) →
        Unchanged s s' := by
  have hfr : FreshAnswers answers (q ++ live.map LiveObject.block) := by
    refine ⟨hok.1, fun p hp hm => ?_⟩
    rcases mem_append.mp hm with hm | hm
    · exact (hok.2 p hp).2 q h.chain hm
    · exact (hok.2 p hp).1 hm
  have hcur : ∀ lip, s.cur lip < 2 ^ 32 := fun lip => by
    have hle := length_filter_le (fun o : LiveObject L => decide (o.bill = some lip)) live
    have htot := h.total
    have husd := h.used
    have hbound := h.bound
    rw [h.cur]
    omega
  rcases objectAlloc_charge isCrit s hcur bill answers with hrun | ⟨s0, hsame, hheap, hfirst, hcur, hadm, hrun⟩
  · refine ⟨⟨{ s with heap := answers }, live, q, by simp only [soulStep, hrun], ?_⟩, fun t ht => ?_⟩
    · exact ⟨h.chain, h.total, h.bound, h.used, h.cur, h.nodup, h.handle⟩
    · rw [hrun] at ht
      obtain rfl := (Prod.mk.inj ht).1
      exact ⟨rfl, rfl, rfl, fun _ hq => hq⟩
  have hsafe0 : s.links (.head ()) = none →
      ((∃ p, s0.heap[firstUse s0]? = some (some p)) ∧ s0.total + (gained s0 s0.heap).length < 2 ^ 32) ∨
      (bill.map Billed.lip = none ∧ ∀ a ∈ s0.heap.take (firstUse s0 + 1), a = none) := fun hnone => by
    rw [gained, hheap, hfirst, hsame.total]
    exact (hsafe hadm hnone).imp_right fun ⟨hb, hp⟩ => ⟨by rw [hb]; rfl, hp⟩
  rcases takeObject_ok isCrit h hsame hcur (by rw [hheap]; exact hfr) hsafe0 with
    ⟨s', p, q', hrun', hok'⟩ | ⟨s', hrun', hok', hun⟩
  · rw [hrun'] at hrun
    refine ⟨⟨s', _, q', by simp only [soulStep, hrun], hok'⟩, fun t ht => ?_⟩
    rw [hrun] at ht
    simp at ht
  · rw [hrun'] at hrun
    refine ⟨⟨s', live, q, by simp only [soulStep, hrun], hok'⟩, fun t ht => ?_⟩
    rw [hrun] at ht
    obtain rfl : s' = t := by simpa using ht
    exact hun

theorem releaseObject_ok (s0 : Soul L) {o : LiveObject L} (h : SoulOk s live q) (ho : o ∈ live)
    (hsame : SameBlocks s s0) (hcur : ∀ lip, s0.cur lip + (if o.bill = some lip then 1 else 0) = s.cur lip) :
    ∃ q', SoulOk (releaseObject (answerAlloc isCrit) s0 o.block) (live.erase o) q' := by
  obtain ⟨hlinks, htotal, hused, halign⟩ := hsame
  have hlen := length_erase_of_mem ho
  have hpos := length_pos_of_mem ho
  have htot := h.total
  have husd := h.used
  have hbound := h.bound
  have hused0 : pred32 s0.used = s.used - 1 := by
    rw [hused, pred32_of_pos (by omega) (by omega)]
  have htotal0 : pred32 s0.total = s.total - 1 := by
    rw [htotal, pred32_of_pos (by omega) hbound]
  have hperm : (q ++ live.map LiveObject.block).Perm
      (o.block :: q ++ (live.erase o).map LiveObject.block) :=
    (((perm_cons_erase ho).map LiveObject.block).append_left q).trans perm_middle
  have hnd := hperm.nodup_iff.mp h.nodup
  have hnd' : (q ++ (live.erase o).map LiveObject.block).Nodup := (nodup_cons.mp hnd).2
  have hbill : ∀ lip, s0.cur lip = ((live.erase o).filter fun o => o.bill = some lip).length := by
    intro lip
    have h1 := hcur lip
    have h2 := billed_erase lip ho
    rw [h.cur] at h1
    omega
  have hhandle : s0.align = 0 → ∀ o' ∈ live.erase o, o'.handle = o'.block := fun e o' ho' =>
    h.handle (by rw [← halign]; exact e) o' (mem_of_mem_erase ho')
  have hch0 : Chain s0.links (.head ()) q := by rw [hlinks]; exact h.chain
  unfold releaseObject
  dsimp only
  split
  · split <;> (exact ⟨q, hch0, by dsimp only; omega, by dsimp only; omega, by dsimp only; omega, hbill, hnd', hhandle⟩)
  · split
    · exact ⟨q, hch0, by dsimp only; omega, by dsimp only; omega, by dsimp only; omega, hbill, hnd', hhandle⟩
    · have hbq : o.block ∉ q := fun hm =>
        (nodup_cons.mp hnd).1 (mem_append_left _ hm)
      refine ⟨o.block :: q, chain_push hch0 hbq, ?_, by dsimp only; omega, by dsimp only; omega, hbill, hnd, hhandle⟩
      simp only [length_cons]
      omega

theorem soulStep_ok {op : SoulOp L} (h : SoulOk s live q) (hok : op.Ok s live) (hsafe : op.Safe s) :
    ∃ s' live' q', soulStep isCrit s live op = some (s', live') ∧ SoulOk s' live' q' := by
  cases op with
  | alloc bill answers => exact (alloc_ok isCrit h hok hsafe).1
  | free o =>
    have ho : o ∈ live := hok
    have hblock : (if s.align ≠ 0 then s.saved o.handle else o.handle) = o.block := by
      by_cases ha : s.align = 0
      · rw [if_neg (by simpa using ha)]
        exact h.handle ha o ho
      · rw [if_pos ha]
        exact hsafe ha
    cases hb : o.bill with
    | none =>
      obtain ⟨q', hq'⟩ := releaseObject_ok isCrit s h ho ⟨rfl, rfl, rfl, rfl⟩ (by simp [hb])
      refine ⟨_, _, q', ?_, hq'⟩
      simp only [soulStep, objectFree, hb, hblock, Option.map_some]
    | some lip =>
      have hpos : s.cur lip ≠ 0 := by
        rw [h.cur]
        exact Nat.ne_of_gt (length_pos_of_mem (mem_filter.mpr ⟨ho, by simpa using hb⟩))
      obtain ⟨q', hq'⟩ := releaseObject_ok isCrit
        { s with cur := Function.update s.cur lip (s.cur lip - 1) } h ho ⟨rfl, rfl, rfl, rfl⟩
        (fun lip' => by
          by_cases hl : lip = lip'
          · subst hl
            simp [hb]
            omega
          · simp [hb, hl, Function.update_of_ne (Ne.symm hl)])
      refine ⟨_, _, q', ?_, hq'⟩
      simp only [soulStep, objectFree, hb, hblock, if_neg hpos, Option.map_some]
  | compact =>
    have hcompact : ∃ q', SoulOk (objectCompact (answerAlloc isCrit) s) live q' := by
      have htot := h.total
      have hbound := h.bound
      unfold objectCompact
      cases q with
      | nil =>
        rw [show s.links (.head ()) = none from h.chain]
        exact ⟨[], h⟩
      | cons ptr r =>
        rw [show s.links (.head ()) = some ptr from h.chain.1]
        have hnd : (r ++ live.map LiveObject.block).Nodup := (nodup_cons.mp h.nodup).2
        have hch := chain_pop h.chain
        rw [length_cons] at htot
        have htotal : pred32 s.total = s.total - 1 := pred32_of_pos (by omega) hbound
        dsimp only
        split
        · split <;> (exact ⟨r, hch, by dsimp only; omega, by dsimp only; omega, h.used, h.cur, hnd, h.handle⟩)
        · exact ⟨ptr :: r, h⟩
    obtain ⟨q', hq'⟩ := hcompact
    exact ⟨_, live, q', rfl, hq'⟩
  | write handle word =>
    exact ⟨_, live, q, rfl, h.chain, h.total, h.bound, h.used, h.cur, h.nodup, h.handle⟩

theorem soulRun_ok {ops : List (SoulOp L)} (h : SoulOk s live q)
    (hok : SoulAlong isCrit (fun s live op => op.Ok s live) s live ops)
    (hsafe : SoulAlong isCrit (fun s _ op => op.Safe s) s live ops) :
    ∃ s' live' q', soulRun isCrit s live ops = some (s', live') ∧ SoulOk s' live' q' := by
  induction ops generalizing s live q with
  | nil => exact ⟨s, live, q, rfl, h⟩
  | cons op ops ih =>
    obtain ⟨s1, live1, q1, hstep, h1⟩ := soulStep_ok isCrit h hok.1 hsafe.1
    obtain ⟨s', live', q', hrun, h'⟩ := ih h1 (hok.2 s1 live1 hstep) (hsafe.2 s1 live1 hstep)
    exact ⟨s', live', q', by simp [soulRun, hstep, hrun], h'⟩

end Step

/-- **The counts of a soul.** In every run from a soul as it is defined (nothing
allocated, nothing billed) whose operations are all `Safe`, `total` is `used` plus
the length of the free chain and `cur` of every limits record is the number of live
objects billed to it; and a further `object_alloc`, `Safe` in the state reached,
that returns null leaves `cur`, `used`, `total` and the chain as they were. -/
theorem soul_run (s : Soul L) (ops : List (SoulOp L)) (hnext : s.links (.head ()) = none)
    (htotal : s.total = 0) (hused : s.used = 0) (hcur : ∀ lip, s.cur lip = 0)
    (hok : SoulAlong isCrit (fun s live op => op.Ok s live) s [] ops)
    (hsafe : SoulAlong isCrit (fun s _ op => op.Safe s) s [] ops) :
    ∃ s' live' q', soulRun isCrit s [] ops = some (s', live') ∧ SoulOk s' live' q' ∧
      ∀ bill answers, (SoulOp.alloc bill answers).Ok s' live' → (SoulOp.alloc bill answers).Safe s' →
        ∀ s'', objectAlloc (answerAlloc isCrit) { s' with heap := answers } bill = (s'', none) →
          Unchanged s' s'' := by
  have h₀ : SoulOk s [] [] :=
    ⟨hnext, by rw [htotal, hused]; rfl, by rw [htotal]; decide, hused, fun lip => by rw [hcur]; rfl, nodup_nil, by simp⟩
  obtain ⟨s', live', q', hrun, h'⟩ := soulRun_ok isCrit h₀ hok hsafe
  exact ⟨s', live', q', hrun, h', fun bill answers hok' hsafe' => (alloc_ok isCrit h' hok' hsafe').2⟩

/-- A soul as `INITSOUL` defines it, with limits that nothing is billed to. -/
def initSoul (size min align : Nat) (hmin : 0 < min) (critical noFree : Bool) (max : L → Nat) :
    Soul L :=
  { links := fun _ => none, saved := fun _ => 0, total := 0, used := 0, size, newmin := 0, min,
    min_pos := hmin, highwater := min, counter := 0, align, critical, noFree, cur := fun _ => 0, max,
    compact := false, heap := [] }

/-- The first object of a soul with a minimum of 2, billed, released again. -/
theorem soul_run_first :
    ∃ s' live' q', soulRun (fun _ => false) (initSoul 64 2 0 (by decide) false false fun _ : Unit => 10) []
        [.alloc (some ⟨(), false⟩) [some 0x1000, some 0x2000], .free ⟨0x2000, 0x2000, some ()⟩] =
          some (s', live') ∧ SoulOk s' live' q' ∧
      ∀ bill answers, (SoulOp.alloc bill answers).Ok s' live' → (SoulOp.alloc bill answers).Safe s' →
        ∀ s'', objectAlloc (answerAlloc fun _ => false) { s' with heap := answers } bill = (s'', none) →
          Unchanged s' s'' := by
  have hstep : (soulStep (fun _ => false) (initSoul 64 2 0 (by decide) false false fun _ : Unit => 10) []
      (.alloc (some ⟨(), false⟩) [some 0x1000, some 0x2000])).map (fun p => (p.1.align, p.2)) =
      some (0, [⟨0x2000, 0x2000, some ()⟩]) := by decide
  refine soul_run _ _ _ rfl rfl rfl (fun _ => rfl) ⟨⟨by decide, fun p hp => ⟨by simp, fun q hq => ?_⟩⟩,
    fun s₁ live₁ h => ⟨?_, fun _ _ _ => trivial⟩⟩
    ⟨fun _ _ => .inl ⟨⟨0x2000, rfl⟩, by decide⟩, fun s₁ live₁ h => ⟨fun ha => ?_, fun _ _ _ => trivial⟩⟩
  · cases q with
    | nil => simp
    | cons a q => exact absurd hq.1 (by simp [initSoul])
  · rw [h] at hstep
    obtain ⟨-, rfl⟩ := Prod.mk.inj (Option.some.inj hstep)
    exact mem_cons_self
  · simp [h, ha] at hstep

/-- A growth that fails under a bill leaves the record charged for an object that
does not exist; a first growth that gets some of its blocks but not the last
returns null and leaves the others on the chain. -/
theorem soul_run_overcharges :
    (∃ s' live', soulRun (fun _ => false) (initSoul 64 1 0 (by decide) false false fun _ : Unit => 10) []
          [.alloc (some ⟨(), false⟩) [none]] = some (s', live') ∧
        SoulAlong (fun _ => false) (fun s live op => op.Ok s live)
          (initSoul 64 1 0 (by decide) false false fun _ : Unit => 10) []
          [.alloc (some ⟨(), false⟩) [none]] ∧
        ¬ ∀ lip, s'.cur lip = (live'.filter fun o => o.bill = some lip).length) ∧
      (∃ s', objectAlloc (answerAlloc fun _ => false)
          { initSoul 64 2 0 (by decide) false false (fun _ : Unit => 10) with heap := [some 0x1000, none] }
          none = (s', none) ∧
        (SoulOp.alloc none [some 0x1000, none]).Ok
          (initSoul 64 2 0 (by decide) false false fun _ : Unit => 10) [] ∧
        ¬ Unchanged (initSoul 64 2 0 (by decide) false false fun _ : Unit => 10) s') := by
  refine ⟨⟨_, [], rfl, ⟨⟨by decide, by simp⟩, fun _ _ _ => trivial⟩, fun h => ?_⟩,
    ⟨_, rfl, ⟨by decide, fun p _ => ⟨by simp, fun q hq => ?_⟩⟩, fun h => ?_⟩⟩
  · exact absurd (h ()) (by decide)
  · cases q with
    | nil => simp
    | cons a q => exact absurd hq.1 (by simp [initSoul])
  · exact absurd h.total (by decide)

end QRV.Nano
