import Mathlib.Data.ZMod.Basic

/- Linked lists threaded through cells. A cell is a word that holds a link: the
   head word of a list, or the `next` field of a node. A C pointer to a pointer
   (`owner`, `pp`, `prev`) is then a cell, and a singly linked list is the
   sequence of nodes met from a cell on (`Chain`). The lemmas say what one store
   does to a chain: a store to a cell the chain does not use changes nothing
   (`chain_set_off`), a store behind a segment splices or unlinks
   (`chain_insert`, `chain_remove`). A chain determines its nodes
   (`Chain.unique`), so it visits none twice (`Chain.nodup`). -/
namespace LinkCell

open List Function

/-- A word that holds a link: the head of the list `b`, or the `next` of `a`. -/
inductive Cell (β α : Type) where
  | head : β → Cell β α
  | next : α → Cell β α
  deriving DecidableEq, Repr

/-- The contents of every cell. -/
def Links (β α : Type) := Cell β α → Option α

variable {β α : Type}
variable {l : List α} {c : Cell β α} {x : α} {b : β} {L : Links β α}

/-- A store to the cell `c`. -/
def Links.set [DecidableEq β] [DecidableEq α] (L : Links β α) (c : Cell β α) (v : Option α) :
    Links β α :=
  fun d => if d = c then v else L d

/-- From `c` the links run through `l` and end with a null. -/
def Chain (L : Links β α) : Cell β α → List α → Prop
  | c, [] => L c = none
  | c, x :: l => L c = some x ∧ Chain L (.next x) l

/-- From `c` the links run through `l`. -/
def Seg (L : Links β α) : Cell β α → List α → Prop
  | _, [] => True
  | c, x :: l => L c = some x ∧ Seg L (.next x) l

/-- The cell behind `l`: where a walk from `c` through `l` arrives. -/
def endCell : Cell β α → List α → Cell β α
  | c, [] => c
  | _, x :: l => endCell (.next x) l

/-- The cells a walk from `c` through `l` reads. -/
def cells : Cell β α → List α → List (Cell β α)
  | _, [] => []
  | c, x :: l => c :: cells (.next x) l

/-- The back pointers of `l`: each node names the cell that holds its link. A back
pointer is a cell (`ptr` is `id`), or may be null as well (`ptr` is `some`). -/
def Back {γ : Type} (ptr : Cell β α → γ) (P : α → γ) : Cell β α → List α → Prop
  | _, [] => True
  | c, x :: l => P x = ptr c ∧ Back ptr P (.next x) l

@[simp] theorem endCell_nil (c : Cell β α) : endCell c [] = c := rfl

@[simp] theorem endCell_concat (c : Cell β α) (l : List α) (x : α) :
    endCell c (l ++ [x]) = .next x := by
  induction l generalizing c with
  | nil => rfl
  | cons y l ih => exact ih (.next y)

theorem endCell_append (c : Cell β α) (l1 l2 : List α) :
    endCell c (l1 ++ l2) = endCell (endCell c l1) l2 := by
  induction l1 generalizing c with
  | nil => rfl
  | cons y l ih => exact ih (.next y)

theorem endCell_mem (c : Cell β α) (l : List α) : endCell c l ∈ c :: l.map .next := by
  induction l generalizing c with
  | nil => simp
  | cons x l ih =>
    have := ih (.next x)
    simp only [endCell, map_cons, mem_cons] at this ⊢
    exact .inr this

/-- Where a walk through a nonempty list arrives does not depend on its start. -/
theorem endCell_of_ne_nil (h : l ≠ []) (c d : Cell β α) :
    endCell c l = endCell d l := by
  cases l with
  | nil => exact absurd rfl h
  | cons x l => rfl

theorem endCell_eq_getLast (h : l ≠ []) (c : Cell β α) :
    endCell c l = .next (l.getLast h) := by
  induction l generalizing c with
  | nil => exact absurd rfl h
  | cons x l ih =>
    cases l with
    | nil => rfl
    | cons y l => exact ih (by simp) (.next x)

theorem endCell_eq_next (h : l ≠ []) :
    endCell c l = .next x ↔ l.getLast? = some x := by
  rw [endCell_eq_getLast h, getLast?_eq_some_getLast h, Cell.next.injEq, Option.some.injEq]

theorem mem_of_endCell (h : l ≠ [])
    (he : endCell c l = .next x) : x ∈ l := mem_of_getLast? ((endCell_eq_next h).mp he)

theorem cells_concat_end (c : Cell β α) (l : List α) :
    cells c l ++ [endCell c l] = c :: l.map .next := by
  induction l generalizing c with
  | nil => rfl
  | cons x l ih => simpa [cells, endCell] using ih (.next x)

theorem cells_append (c : Cell β α) (l l' : List α) :
    cells c (l ++ l') = cells c l ++ cells (endCell c l) l' := by
  induction l generalizing c with
  | nil => rfl
  | cons x l ih => simp [cells, endCell, ih]

theorem cells_subset {c d : Cell β α} (h : d ∈ cells c l) : d ∈ c :: l.map .next := by
  rw [← cells_concat_end]
  exact mem_append_left _ h

/-! A walk that starts at a head and repeats no node: where it arrives is a cell
it has not read, and the `next` of no node behind. -/

theorem cells_nodup (h : l.Nodup) :
    (Cell.head b :: l.map Cell.next : List (Cell β α)).Nodup := by
  refine nodup_cons.mpr ⟨by simp, h.map ?_⟩
  intro x y hxy
  exact Cell.next.inj hxy

theorem endCell_notin_cells_of (h : (c :: l.map Cell.next).Nodup) :
    endCell c l ∉ cells c l := by
  rw [← cells_concat_end, nodup_append] at h
  intro hm
  exact h.2.2 _ hm _ (by simp) rfl

theorem endCell_notin_cells (h : l.Nodup) :
    endCell (Cell.head b) l ∉ cells (Cell.head b) l := endCell_notin_cells_of (cells_nodup h)

theorem next_notin_cells (h : x ∉ l) :
    Cell.next x ∉ cells (Cell.head b) l := by
  intro hm
  have := cells_subset hm
  simp [h] at this

theorem endCell_ne_next (h : x ∉ l) :
    endCell (Cell.head b) l ≠ Cell.next x := by
  intro he
  have := endCell_mem (Cell.head b) l
  rw [he] at this
  simp [h] at this

/-! The words of a list: its head, and the `next` of its nodes. -/

theorem head_off {b b' : β} (h : b' ≠ b) : (Cell.head b' : Cell β α) ∉ .head b :: l.map Cell.next := by simp [h]

theorem next_off (h : x ∉ l) : (Cell.next x : Cell β α) ∉ .head b :: l.map Cell.next := by simp [h]

/-- No word of a list is a word of one with another head and other nodes. -/
theorem cells_off {b b' : β} {l l' : List α} (hb : b ≠ b') (h : ∀ x ∈ l, x ∉ l')
    (hc : c ∈ .head b :: l.map Cell.next) : c ∉ .head b' :: l'.map Cell.next := by
  cases c with
  | head a =>
    have ha : a = b := by simpa using hc
    exact head_off (ha ▸ hb)
  | next x => exact next_off (h x (by simpa using hc))

/-! ## Chains and segments -/

theorem chain_append (L : Links β α) (c : Cell β α) (l1 l2 : List α) :
    Chain L c (l1 ++ l2) ↔ Seg L c l1 ∧ Chain L (endCell c l1) l2 := by
  induction l1 generalizing c with
  | nil => simp [Seg]
  | cons x l ih => simp [Chain, Seg, endCell, ih, and_assoc]

theorem seg_append (L : Links β α) (c : Cell β α) (l1 l2 : List α) :
    Seg L c (l1 ++ l2) ↔ Seg L c l1 ∧ Seg L (endCell c l1) l2 := by
  induction l1 generalizing c with
  | nil => simp [Seg]
  | cons x l ih => simp [Seg, endCell, ih, and_assoc]

theorem chain_iff_seg (L : Links β α) (c : Cell β α) (l : List α) :
    Chain L c l ↔ Seg L c l ∧ L (endCell c l) = none := by
  simpa [Chain] using chain_append L c l []

/-- The nodes met from `c` on, up to a number of them. -/
def walk (L : Links β α) : Nat → Cell β α → List α
  | 0, _ => []
  | fuel + 1, c =>
    match L c with
    | none => []
    | some x => x :: walk L fuel (.next x)

theorem Chain.walk_eq (h : Chain L c l) {fuel : Nat}
    (hfuel : l.length ≤ fuel) : walk L fuel c = l := by
  induction fuel generalizing c l with
  | zero =>
    rw [eq_nil_of_length_eq_zero (Nat.le_zero.mp hfuel)]
    rfl
  | succ fuel ih =>
    cases l with
    | nil =>
      rw [walk, h]
    | cons x l =>
      rw [walk, h.1]
      exact congrArg (x :: ·) (ih h.2 (Nat.le_of_succ_le_succ hfuel))

theorem Chain.first (h : Chain L c l) : L c = l.head? := by
  cases l with
  | nil => exact h
  | cons x l => exact h.1

theorem Chain.unique {l l' : List α} (h : Chain L c l) (h' : Chain L c l') : l = l' :=
  (h.walk_eq (Nat.le_add_right _ l'.length)).symm.trans (h'.walk_eq (Nat.le_add_left _ _))

/-- A chain visits no node twice: from the second visit on it would repeat. -/
theorem Chain.nodup (h : Chain L c l) : l.Nodup := by
  induction l generalizing c with
  | nil => exact nodup_nil
  | cons x l ih =>
    obtain ⟨hx, hl⟩ := h
    refine nodup_cons.mpr ⟨fun hmem => ?_, ih hl⟩
    obtain ⟨l1, l2, rfl⟩ := append_of_mem hmem
    have h2 : Chain L (.next x) l2 := ((chain_append L _ l1 (x :: l2)).mp hl).2.2
    have := congrArg length (Chain.unique hl h2)
    simp at this
    omega

theorem erase_middle [DecidableEq α] {l1 l2 : List α} (h : (l1 ++ x :: l2).Nodup) :
    (l1 ++ x :: l2).erase x = l1 ++ l2 := by
  have hx : x ∉ l1 := fun hm => (nodup_append.mp h).2.2 x hm x mem_cons_self rfl
  rw [erase_append_right _ hx, erase_cons_head]

theorem Seg.mem_cell {l1 l2 : List α}
    (h : Seg L c (l1 ++ x :: l2)) : L (endCell c l1) = some x :=
  ((seg_append L c l1 (x :: l2)).mp h).2.1

theorem seg_congr {L L' : Links β α}
    (h : ∀ d ∈ cells c l, L' d = L d) (hs : Seg L c l) : Seg L' c l := by
  induction l generalizing c with
  | nil => trivial
  | cons x l ih =>
    exact ⟨(h c (by simp [cells])).trans hs.1, ih (fun d hd => h d (by simp [cells, hd])) hs.2⟩

/-- A segment may be entered from another cell with the same contents. -/
theorem seg_entry {L L' : Links β α} {c d : Cell β α} (hd : L' d = L c)
    (h : ∀ x ∈ l, L' (.next x) = L (.next x)) (hs : Seg L c l) : Seg L' d l := by
  induction l generalizing c d with
  | nil => trivial
  | cons x l ih =>
    exact ⟨hd.trans hs.1, ih (h x (by simp)) (fun y hy => h y (by simp [hy])) hs.2⟩

theorem chain_entry {L L' : Links β α} {c d : Cell β α} (hd : L' d = L c)
    (h : ∀ x ∈ l, L' (.next x) = L (.next x)) (hc : Chain L c l) : Chain L' d l := by
  induction l generalizing c d with
  | nil => exact hd.trans hc
  | cons x l ih =>
    exact ⟨hd.trans hc.1, ih (h x (by simp)) (fun y hy => h y (by simp [hy])) hc.2⟩

/-- The stretch `mid` of a chain is replaced by `mid'`: the links before and behind
stay, and the last link of `mid'` takes over what the last of `mid` held. -/
theorem chain_splice {L L' : Links β α} {l1 mid mid' l2 : List α}
    (h : Chain L c (l1 ++ (mid ++ l2))) (h1 : ∀ d ∈ cells c l1, L' d = L d)
    (hmid : Seg L' (endCell c l1) mid')
    (he : L' (endCell (endCell c l1) mid') = L (endCell (endCell c l1) mid))
    (h2 : ∀ x ∈ l2, L' (.next x) = L (.next x)) : Chain L' c (l1 ++ (mid' ++ l2)) := by
  obtain ⟨hs, hrest⟩ := (chain_append L c l1 _).mp h
  obtain ⟨-, hl⟩ := (chain_append L _ mid l2).mp hrest
  apply (chain_append L' c l1 _).mpr
  refine ⟨seg_congr h1 hs, (chain_append L' _ mid' l2).mpr ⟨hmid, ?_⟩⟩
  exact chain_entry he h2 hl

section
variable {L L' : Links β α} {l1 l2 : List α} (hL : ∀ d, d ≠ endCell (.head b) l1 → d ≠ .next x → L' d = L d)
include hL

/-- `chain_splice` where only the cell behind `l1` and the link of `x` are stored to. -/
theorem chain_splice_at (mid mid' : List α) (h : Chain L (.head b) (l1 ++ (mid ++ l2))) (hx : x ∉ l1) (hx2 : x ∉ l2)
    (hmid : Seg L' (endCell (.head b) l1) mid')
    (he : L' (endCell (endCell (.head b) l1) mid') = L (endCell (endCell (.head b) l1) mid)) :
    Chain L' (.head b) (l1 ++ (mid' ++ l2)) := by
  have hnd := nodup_append.mp h.nodup
  refine chain_splice h (fun d hd => ?_) hmid he fun y hy => ?_
  · exact hL d (fun e => endCell_notin_cells hnd.1 (e ▸ hd)) (fun e => next_notin_cells hx (e ▸ hd))
  · refine hL _ (fun e => endCell_ne_next (fun hm => hnd.2.2 y hm y (by simp [hy]) rfl) e.symm) fun e => ?_
    exact hx2 (Cell.next.inj e ▸ hy)

/-- A node comes in behind `l1`: its link takes over what the cell there held. -/
theorem chain_insert (h : Chain L (.head b) (l1 ++ l2)) (hx : x ∉ l1 ++ l2)
    (hc : L' (endCell (.head b) l1) = some x) (hn : L' (.next x) = L (endCell (.head b) l1)) :
    Chain L' (.head b) (l1 ++ x :: l2) := by
  rw [mem_append, not_or] at hx
  exact chain_splice_at hL [] [x] h hx.1 hx.2 ⟨hc, trivial⟩ hn

/-- The node behind `l1` goes: the cell there takes over its link. -/
theorem chain_remove (h : Chain L (.head b) (l1 ++ x :: l2)) (hc : L' (endCell (.head b) l1) = L (.next x)) :
    Chain L' (.head b) (l1 ++ l2) := by
  have hnd := nodup_append.mp h.nodup
  exact chain_splice_at hL [x] [] h (fun hm => hnd.2.2 x hm x (by simp) rfl) (nodup_cons.mp hnd.2.1).1 trivial hc

end

/-! ## Back pointers -/

section Back
variable {γ : Type} {ptr : Cell β α → γ}

theorem back_congr_cells {ptr' : Cell β α → γ} {P P' : α → γ}
    (hptr : ∀ d ∈ cells c l, ptr' d = ptr d) (h : ∀ x ∈ l, P' x = P x) (hb : Back ptr P c l) : Back ptr' P' c l := by
  induction l generalizing c with
  | nil => trivial
  | cons x l ih =>
    refine ⟨?_, ih (fun d hd => hptr d (by simp [cells, hd])) (fun y hy => h y (by simp [hy])) hb.2⟩
    rw [h x (by simp), hptr c (by simp [cells])]
    exact hb.1

theorem back_congr {P P' : α → γ} (h : ∀ x ∈ l, P' x = P x) (hb : Back ptr P c l) : Back ptr P' c l :=
  back_congr_cells (fun _ _ => rfl) h hb

theorem back_append (P : α → γ) (c : Cell β α) (l1 l2 : List α) :
    Back ptr P c (l1 ++ l2) ↔ Back ptr P c l1 ∧ Back ptr P (endCell c l1) l2 := by
  induction l1 generalizing c with
  | nil => simp [Back]
  | cons x l ih => simp [Back, endCell, ih, and_assoc]

/-- A list may hang from another cell once its first node names that cell. -/
theorem back_entry {P P' : α → γ} {c d : Cell β α}
    (hd : ∀ x ∈ l.head?, P' x = ptr d) (h : ∀ x ∈ l.tail, P' x = P x) (hb : Back ptr P c l) :
    Back ptr P' d l := by
  cases l with
  | nil => trivial
  | cons x l => exact ⟨hd x rfl, back_congr h hb.2⟩

end Back

/-! ## Families of lists with back pointers -/

section Deques
variable {γ : Type} {ptr : Cell β α → γ}

/-- A list from every head, with its back pointers; no node is on two of them. -/
structure Deques (ptr : Cell β α → γ) (L : Links β α) (P : α → γ) (q : β → List α) : Prop where
  chain : ∀ b, Chain L (.head b) (q b)
  back : ∀ b, Back ptr P (.head b) (q b)
  apart : ∀ b b' x, x ∈ q b → x ∈ q b' → b = b'

variable {L' : Links β α} {P P' : α → γ} {q : β → List α} {l1 l2 : List α}

theorem head?_ne_of_mem_tail (h : l.Nodup) (hx : x ∈ l.tail) : l.head? ≠ some x := by
  cases l with
  | nil => simp
  | cons y l =>
    intro he
    exact (nodup_cons.mp h).1 (Option.some.inj he ▸ hx)

/-- A link on the way through one list is on the way through no other. -/
theorem Deques.other (h : Deques ptr L P q) (hl1 : ∀ y ∈ l1, y ∈ q b) {b' : β} (hb : b' ≠ b) :
    endCell (.head b) l1 ∉ .head b' :: (q b').map Cell.next := by
  refine cells_off hb.symm (fun y hy hy' => ?_) (endCell_mem _ _)
  exact hb (h.apart b' b y hy' (hl1 y hy))

variable [DecidableEq β]

theorem apart_update (h : ∀ b b' x, x ∈ q b → x ∈ q b' → b = b') (hl : ∀ x ∈ l, ∀ b', x ∈ q b' → b' = b)
    (a a' : β) (x : α) (ha : x ∈ update q b l a) (ha' : x ∈ update q b l a') : a = a' := by
  rw [update_apply] at ha ha'
  split at ha <;> split at ha'
  · next e e' => exact e.trans e'.symm
  · next e _ => exact e.trans (hl x ha a' ha').symm
  · next _ e' => exact (hl x ha' a ha).trans e'.symm
  · exact h a a' x ha ha'

/-- The stretch `mid` of a list is replaced by `mid'`, nodes that are on no list. -/
theorem Deques.splice (h : Deques ptr L P q) (mid mid' : List α) (hq : q b = l1 ++ (mid ++ l2))
    (hnew : ∀ y ∈ mid', ∀ b, y ∉ q b)
    (hL : ∀ d, d ≠ endCell (.head b) l1 → (∀ y ∈ mid ++ mid', d ≠ .next y) → L' d = L d)
    (hseg : Seg L' (endCell (.head b) l1) mid')
    (he : L' (endCell (endCell (.head b) l1) mid') = L (endCell (endCell (.head b) l1) mid))
    (hback : Back ptr P' (endCell (.head b) l1) mid')
    (hhead : ∀ y ∈ l2.head?, P' y = ptr (endCell (endCell (.head b) l1) mid'))
    (hrest : ∀ y, y ∉ mid ++ mid' → l2.head? ≠ some y → P' y = P y) :
    Deques ptr L' P' (update q b (l1 ++ (mid' ++ l2))) := by
  have hch : Chain L (.head b) (l1 ++ (mid ++ l2)) := hq ▸ h.chain b
  obtain ⟨hnd1, hnd2, hdis⟩ := nodup_append.mp hch.nodup
  obtain ⟨-, hnd2, hdis2⟩ := nodup_append.mp hnd2
  have hin : ∀ y ∈ l1 ++ l2, y ∈ q b ∧ y ∉ mid ++ mid' := by
    intro y hy
    have hyq : y ∈ q b := by
      rw [hq]
      simp only [mem_append] at hy ⊢
      tauto
    refine ⟨hyq, fun hm => ?_⟩
    rcases mem_append.mp hm with hm | hm
    · rcases mem_append.mp hy with hy | hy
      · exact hdis y hy y (mem_append_left _ hm) rfl
      · exact hdis2 y hm y hy rfl
    · exact hnew y hm b hyq
  have hin1 : ∀ y ∈ l1, y ∈ q b ∧ y ∉ mid ++ mid' := fun y hy => hin y (mem_append_left _ hy)
  have hin2 : ∀ y ∈ l2, y ∈ q b ∧ y ∉ mid ++ mid' := fun y hy => hin y (mem_append_right _ hy)
  have hlist : ∀ b', Chain L' (.head b') (update q b (l1 ++ (mid' ++ l2)) b') ∧
      Back ptr P' (.head b') (update q b (l1 ++ (mid' ++ l2)) b') := by
    intro b'
    by_cases hb : b' = b
    · subst hb
      rw [update_self]
      obtain ⟨hb1, hb2⟩ := (back_append _ _ _ _).mp (hq ▸ h.back b')
      refine ⟨chain_splice hch (fun d hd => hL d ?_ fun y hy e => ?_) hseg he fun y hy => hL _ ?_ ?_,
        (back_append _ _ _ _).mpr ⟨back_congr (fun y hy => hrest y (hin1 y hy).2 fun e => ?_) hb1,
          (back_append _ _ _ _).mpr ⟨hback, back_entry hhead (fun y hy => ?_) ((back_append _ _ _ _).mp hb2).2⟩⟩⟩
      · exact fun e => endCell_notin_cells hnd1 (e ▸ hd)
      · exact next_notin_cells (fun hy1 => (hin1 y hy1).2 hy) (e ▸ hd)
      · exact fun e => endCell_ne_next (fun hy1 => hdis y hy1 y (mem_append_right _ hy) rfl) e.symm
      · exact fun z hz e => (hin2 y hy).2 (Cell.next.inj e ▸ hz)
      · exact hdis y hy y (mem_append_right _ (mem_of_head? e)) rfl
      · exact hrest y (hin2 y (mem_of_mem_tail hy)).2 (head?_ne_of_mem_tail hnd2 hy)
    · -- another list has none of the nodes and does not go through the link
      rw [update_of_ne hb]
      have hoff := h.other (fun y hy => (hin1 y hy).1) hb
      have hmid : ∀ y ∈ q b', y ∉ mid ++ mid' := fun y hy hm => by
        rcases mem_append.mp hm with hm | hm
        · exact hb (h.apart b' b y hy (by simp [hq, hm]))
        · exact hnew y hm b' hy
      refine ⟨chain_entry (hL _ (fun e => hoff (by simp [e])) (by simp)) (fun y hy => hL _ ?_ fun z hz e => ?_)
        (h.chain b'), back_congr (fun y hy => hrest y (hmid y hy) fun e => ?_) (h.back b')⟩
      · exact fun e => hoff (by simp [← e, hy])
      · exact hmid y hy (Cell.next.inj e ▸ hz)
      · exact hb (h.apart b' b y hy (hin2 y (mem_of_head? e)).1)
  refine ⟨fun b' => (hlist b').1, fun b' => (hlist b').2, apart_update h.apart fun y hy b' hy' => ?_⟩
  simp only [mem_append] at hy
  rcases hy with hy | hy | hy
  · exact h.apart b' b y hy' (hin1 y hy).1
  · exact absurd hy' (hnew y hy b')
  · exact h.apart b' b y hy' (hin2 y hy).1

end Deques

section Store
variable [DecidableEq β] [DecidableEq α]

@[simp] theorem set_self (L : Links β α) (c : Cell β α) (v : Option α) : L.set c v c = v := by
  simp [Links.set]

theorem set_off {c d : Cell β α} (h : d ≠ c) (L : Links β α) (v : Option α) :
    L.set c v d = L d := by
  simp [Links.set, h]

@[simp] theorem set_next_head (L : Links β α) (a : α) (b : β) (v : Option α) :
    L.set (.next a) v (.head b) = L (.head b) := set_off (by simp) L v

@[simp] theorem set_head_next (L : Links β α) (a : α) (b : β) (v : Option α) :
    L.set (.head b) v (.next a) = L (.next a) := set_off (by simp) L v

theorem chain_set_off {c d : Cell β α} {v : Option α}
    (h : d ∉ c :: l.map .next) : Chain (L.set d v) c l ↔ Chain L c l := by
  have hoff : ∀ e ∈ c :: l.map .next, L.set d v e = L e := fun e he => set_off (fun hd : e = d => h (hd ▸ he)) _ _
  constructor
  · exact chain_entry (hoff c (by simp)).symm fun x hx => (hoff _ (by simp [hx])).symm
  · exact chain_entry (hoff c (by simp)) fun x hx => hoff _ (by simp [hx])

theorem chain_link {l1 l2 : List α} {v : Option α} (hc : endCell (.head b) l1 = c) (hv : L c = v)
    (h : Chain L (.head b) (l1 ++ l2)) (hx : x ∉ l1 ++ l2) :
    Chain ((L.set (.next x) v).set c (some x)) (.head b) (l1 ++ x :: l2) := by
  subst hc hv
  have hne := endCell_ne_next (b := b) fun hm => hx (mem_append_left _ hm)
  refine chain_insert (fun d hd hd' => ?_) h hx (set_self _ _ _) ?_
  · rw [set_off hd, set_off hd']
  · rw [set_off hne.symm, set_self]

theorem chain_push (h : Chain L (.head b) l) (hx : x ∉ l) :
    Chain ((L.set (.next x) (L (.head b))).set (.head b) (some x)) (.head b) (x :: l) :=
  chain_link rfl rfl (show Chain L (.head b) ([] ++ l) from h) hx

theorem chain_pop (h : Chain L (.head b) (x :: l)) :
    Chain (L.set (.head b) (L (.next x))) (.head b) l :=
  chain_entry (set_self _ _ _) (fun y _ => set_head_next L y b _) h.2

end Store

end LinkCell
