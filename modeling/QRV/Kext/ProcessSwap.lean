import QRV.Kext.ProcessTree

/- process_swap: a process takes the place of its parent. The lists of three processes change, and
   the links are stored while the list they belong to is walked. `Around` names the parts of the
   three lists around the two processes; `swap_links` says which lists the stores leave.

   The parent ends on the list of the child, in the child's place, and with it all other children of
   the parent; the children the process already had come last. The counter it takes over from its
   parent does not count these. -/
namespace QRV.Kext.Process
open Function (update update_of_ne update_self)
open List hiding Chain
open LinkCell

variable {P : Type} [DecidableEq P] {proc : P} {st st' : Family P} {kids : P → List P}

/-! ## The two loops -/

theorem replaceChild_eq (old new : P) {L : Links P P} {c : Cell P P} {x y : List P} {fuel : Nat}
    (h : Chain L c (x ++ old :: y)) (hx : old ∉ x) (hfuel : x.length < fuel) :
    replaceChild old new fuel L c = some (L.set (endCell c x) (some new)) := by
  obtain ⟨k, rfl⟩ := Nat.exists_eq_add_of_lt hfuel
  clear hfuel
  induction x generalizing c with
  | nil =>
    rw [replaceChild, h.1]
    exact if_pos rfl
  | cons q x ih =>
    have hq : q ≠ old := fun heq => hx (heq ▸ mem_cons_self)
    rw [replaceChild, h.1]
    dsimp only
    rw [if_neg hq, length_cons, Nat.add_right_comm]
    exact ih h.2 fun hmem => hx (.tail _ hmem)

/-- The processes of `l` get `child` as their parent. -/
def handed (child : P) (l : List P) (up : P → Option P) : P → Option P :=
  fun p => if p ∈ l then some child else up p

theorem takeOver_seg (st : Family P) {parent child : P} {c : Cell P P} {l : List P} (fuel : Nat) (h : Seg st.links c l)
    (hl : child ∉ l) : takeOver parent child (l.length + fuel) st c =
      takeOver parent child fuel { st with parent := handed child l st.parent } (endCell c l) := by
  induction l generalizing c st with
  | nil =>
    rw [show handed child [] st.parent = st.parent from funext fun p => if_neg not_mem_nil]
    simp
  | cons q l ih =>
    rw [mem_cons, not_or] at hl
    have hup : handed child l (update st.parent q (some child)) = handed child (q :: l) st.parent := by
      funext p
      by_cases hp : p = q
      · subst hp
        simp [handed]
      · simp [handed, hp]
    rw [length_cons, Nat.add_right_comm, takeOver, h.1]
    dsimp only
    rw [if_neg (Ne.symm hl.1), ← hup]
    exact ih { st with parent := update st.parent q (some child) } h.2 hl.2

theorem takeOver_eq (st : Family P) (parent child : P) {c : Cell P P} {a b : List P} {fuel : Nat}
    (h : Seg st.links c (a ++ [child]))
    (hrest : Chain (st.links.set (endCell c a) (some parent)) (.next parent) b) (ha : child ∉ a) (hb : child ∉ b)
    (hfuel : a.length + b.length + 1 < fuel) :
    takeOver parent child fuel st c =
      some ({ st with links := st.links.set (endCell c a) (some parent), parent := handed child (a ++ b) st.parent },
        endCell (.next parent) b) := by
  obtain ⟨k, rfl⟩ := Nat.exists_eq_add_of_lt hfuel
  obtain ⟨hseg, hchild, -⟩ := (seg_append _ _ _ _).mp h
  obtain ⟨hbseg, hend⟩ := (chain_iff_seg _ _ _).mp hrest
  have hup : handed child b (handed child a st.parent) = handed child (a ++ b) st.parent := by
    funext p
    by_cases hp : p ∈ a <;> by_cases hp' : p ∈ b <;> simp [handed, hp, hp']
  rw [show a.length + b.length + 1 + k + 1 = a.length + (b.length + (k + 1) + 1) by omega, takeOver_seg st _ hseg ha,
    takeOver]
  rw [hchild]
  dsimp only
  rw [if_pos rfl, takeOver_seg _ _ hbseg hb, takeOver]
  dsimp only
  rw [hend, hup]

/-! ## The links -/

/-- The processes around `child` and its parent `old`: `old` stands between `x` and `y` on the list of `grand`,
`child` between `a` and `b` on that of `old`, and `k` are the children of `child`. -/
structure Around (L : Links P P) (grand old child : P) (x y a b k : List P) : Prop where
  above : Chain L (.head grand) (x ++ old :: y)
  between : Chain L (.head old) (a ++ child :: b)
  below : Chain L (.head child) k
  apart : (old :: child :: (x ++ y ++ (a ++ b ++ k))).Nodup
  grand_old : grand ≠ old
  grand_child : grand ≠ child
  old_child : old ≠ child

/-- The links when the second loop starts. -/
def exchanged (L : Links P P) (grand old child : P) (x : List P) : Links P P :=
  let L₁ := L.set (endCell (.head grand) x) (some child)
  (L₁.set (.next old) (L₁ (.next child))).set (.next child) (L₁ (.next old))

/-- The links after process_swap. -/
def swapped (L : Links P P) (grand old child : P) (x a b : List P) : Links P P :=
  let L₁ := (exchanged L grand old child x).set (endCell (.head old) a) (some old)
  let L₂ := L₁.set (endCell (.next old) b) (L₁ (.head child))
  (L₂.set (.head child) (L₂ (.head old))).set (.head old) none

section
variable {L : Links P P} {grand old child : P} {x y a b k : List P}

theorem findIdx_of_nodup {α : Type} [DecidableEq α] {ls : List (List α)} (h : ls.flatten.Nodup) {i : Nat} {l : List α}
    {d : α} (hl : ls[i]? = some l) (hd : d ∈ l) : ls.findIdx (d ∈ ·) = i := by
  induction ls generalizing i with
  | nil => cases hl
  | cons l' ls ih =>
    obtain ⟨-, hrest, happart⟩ := nodup_append.mp (flatten_cons ▸ h)
    cases i with
    | zero =>
      cases hl
      simp [findIdx_cons, hd]
    | succ i =>
      have hno : d ∉ l' := fun hd' => happart d hd' d (mem_flatten.mpr ⟨l, mem_of_getElem? hl, hd⟩) rfl
      simp [findIdx_cons, hno, ih hrest hl]

section
variable (h : Around L grand old child x y a b k)
include h

/-- The cells that process_swap stores to are cells of different parts. -/
theorem Around.regions :
    ([.head grand :: x.map Cell.next, .head old :: a.map Cell.next, .next old :: b.map Cell.next, [.next child],
      [.head child], (y ++ k).map Cell.next] : List (List (Cell P P))).flatten.Nodup := by
  have hnext : ((old :: child :: (x ++ y ++ (a ++ b ++ k))).map (Cell.next (β := P))).Nodup :=
    h.apart.map fun _ _ => Cell.next.inj
  have hhead : ([grand, old, child].map (Cell.head (α := P))).Nodup := by
    simp [h.grand_old, h.grand_child, h.old_child]
  have hall := List.Nodup.append hhead hnext (by simp [List.Disjoint])
  refine (List.Perm.nodup_iff (perm_iff_count.mpr fun d => ?_)).mp hall
  simp only [flatten_cons, flatten_nil, map_cons, map_append, map_nil, count_append,
    count_cons, count_nil]
  omega

omit [DecidableEq P] in
theorem Around.nodup_below : (a ++ old :: b).Nodup := by
  refine nodup_middle.mpr (h.apart.sublist (List.Sublist.cons_cons _ (List.Sublist.cons _ ?_)))
  exact (sublist_append_left (a ++ b) k).trans (sublist_append_right (x ++ y) _)

omit [DecidableEq P] in
theorem Around.not_mem : old ∉ x ∧ (old ∉ a ∧ old ∉ b) ∧ child ∉ a ∧ child ∉ b := by
  have hapart := h.apart
  simp only [nodup_cons, mem_cons, mem_append, not_or] at hapart
  obtain ⟨⟨-, ⟨hox, -⟩, hoab, -⟩, ⟨-, hcab, -⟩, -⟩ := hapart
  exact ⟨hox, hoab, hcab⟩

/-- A number for each part, which tells cells of different parts from each other. -/
theorem Around.parts : ∃ part : Cell P P → Nat,
    (∀ {d d' : Cell P P}, part d ≠ part d' → d ≠ d') ∧ (∀ d ∈ .head grand :: x.map Cell.next, part d = 0) ∧
    (∀ d ∈ .head old :: a.map Cell.next, part d = 1) ∧ (∀ d ∈ .next old :: b.map Cell.next, part d = 2) ∧
    part (.next child) = 3 ∧ part (.head child) = 4 ∧ (∀ z ∈ y ++ k, part (.next z) = 5) ∧
    part (endCell (.head grand) x) = 0 ∧ part (endCell (.head old) a) = 1 ∧ part (endCell (.next old) b) = 2 ∧
    part (.head old) = 1 ∧ part (.next old) = 2 := by
  have hpart := fun {i l d} => @findIdx_of_nodup _ _ _ h.regions i l d
  exact ⟨_, fun hp heq => hp (heq ▸ rfl), fun d => hpart (i := 0) rfl, fun d => hpart (i := 1) rfl,
    fun d => hpart (i := 2) rfl, hpart (i := 3) rfl mem_cons_self, hpart (i := 4) rfl mem_cons_self,
    fun z hz => hpart (i := 5) rfl (mem_map_of_mem hz), hpart (i := 0) rfl (endCell_mem _ _),
    hpart (i := 1) rfl (endCell_mem _ _), hpart (i := 2) rfl (endCell_mem _ _), hpart (i := 1) rfl mem_cons_self,
    hpart (i := 2) rfl mem_cons_self⟩

omit h in
theorem swapped_off {d : Cell P P} (hx : d ≠ endCell (.head grand) x) (ha : d ≠ endCell (.head old) a)
    (hb : d ≠ endCell (.next old) b) (hold : d ≠ .next old) (hchild : d ≠ .next child) (hho : d ≠ .head old)
    (hhc : d ≠ .head child) : swapped L grand old child x a b d = L d := by
  simp only [swapped, exchanged]
  rw [set_off hho, set_off hhc, set_off hb, set_off ha, set_off hchild, set_off hold, set_off hx]

theorem swapped_above : Chain (swapped L grand old child x a b) (.head grand) (x ++ child :: y) := by
  obtain ⟨part, hne, hx, ha, hb, hnc, hhc, hy, hw, hf, he, hho, hno⟩ := h.parts
  have habove : Chain L (.head grand) (x ++ ([old] ++ y)) := h.above
  change Chain _ _ (x ++ ([child] ++ y))
  refine chain_splice habove (fun d hd => ?_) ⟨?_, trivial⟩ ?_ fun z hz => ?_
  · have hwd : endCell (.head grand) x ∉ cells (.head grand) x :=
      endCell_notin_cells (List.Nodup.of_append_left h.above.nodup)
    have hd0 := hx d (cells_subset hd)
    refine swapped_off (fun heq => hwd (heq ▸ hd)) ?_ ?_ ?_ ?_ ?_ ?_
    all_goals exact hne (by simp [*])
  · simp only [swapped, exchanged]
    rw [set_off, set_off, set_off, set_off, set_off, set_off, set_self]
    all_goals exact hne (by simp [*])
  · simp only [swapped, exchanged, endCell]
    rw [set_off, set_off, set_off, set_off, set_self, set_off]
    all_goals exact hne (by simp [*])
  · refine swapped_off ?_ ?_ ?_ ?_ ?_ ?_ ?_
    all_goals exact hne (by simp [*])

/-- What the second loop walks: up to the process, and from its parent on. -/
theorem exchanged_before : Seg (exchanged L grand old child x) (.head old) (a ++ [child]) := by
  obtain ⟨part, hne, hx, ha, hb, hnc, hhc, hy, hw, hf, he, hho, hno⟩ := h.parts
  have hbetween := (chain_append _ _ _ _).mp h.between
  have hseg : Seg L (.head old) (a ++ [child]) := (seg_append _ _ _ _).mpr ⟨hbetween.1, hbetween.2.1, trivial⟩
  refine seg_congr (fun d hd => ?_) hseg
  have hd1 : part d = 1 := by
    rw [cells_append, mem_append] at hd
    rcases hd with hd | hd
    · exact ha d (cells_subset hd)
    · rw [mem_singleton.mp hd]
      exact ha _ (endCell_mem _ _)
  simp only [exchanged]
  rw [set_off, set_off, set_off]
  all_goals exact hne (by simp [*])

theorem exchanged_behind :
    Chain ((exchanged L grand old child x).set (endCell (.head old) a) (some old)) (.next old) b := by
  obtain ⟨part, hne, hx, ha, hb, hnc, hhc, hy, hw, hf, he, hho, hno⟩ := h.parts
  obtain ⟨-, -, hchain⟩ := (chain_append _ _ _ _).mp h.between
  refine chain_entry ?_ (fun z hz => ?_) hchain
  · simp only [exchanged]
    rw [set_off, set_off, set_self, set_off]
    all_goals exact hne (by simp [*])
  · have hzo : (.next z : Cell P P) ≠ .next old := fun heq => h.not_mem.2.1.2 (Cell.next.inj heq ▸ hz)
    simp only [exchanged]
    rw [set_off, set_off, set_off hzo, set_off]
    all_goals exact hne (by simp [*])

/-- The list of the process: the children of the parent, with the parent in its place, and then its own. -/
theorem swapped_below : Chain (swapped L grand old child x a b) (.head child) (a ++ old :: b ++ k) := by
  obtain ⟨part, hne, hx, ha, hb, hnc, hhc, hy, hw, hf, he, hho, hno⟩ := h.parts
  have hab := h.nodup_below
  let L1 := (exchanged L grand old child x).set (endCell (.head old) a) (some old)
  let L2 := L1.set (endCell (.next old) b) (L1 (.head child))
  have hseg : Seg L1 (.head old) (a ++ old :: b) := by
    refine (seg_append _ _ _ _).mpr ⟨?_, set_self _ _ _, ((chain_iff_seg _ _ _).mp (exchanged_behind h)).1⟩
    refine seg_congr (fun d hd => ?_) ((seg_append _ _ _ _).mp (exchanged_before h)).1
    have hnot := endCell_notin_cells_of (c := Cell.head old) (cells_nodup (List.Nodup.of_append_left hab))
    exact set_off (fun heq : d = endCell (.head old) a => hnot (heq ▸ hd)) _ _
  have hend : endCell (.head old) (a ++ old :: b) = endCell (.next old) b := endCell_append _ _ _
  -- the own children behind the list that is taken over
  have hlist : Chain L2 (.head old) (a ++ old :: b ++ k) := by
    refine (chain_append _ _ _ _).mpr ⟨seg_congr (fun d hd => ?_) hseg, ?_⟩
    · have hnot : endCell (.head old) (a ++ old :: b) ∉ cells (.head old) (a ++ old :: b) := endCell_notin_cells hab
      rw [hend] at hnot
      exact set_off (fun heq : d = endCell (.next old) b => hnot (heq ▸ hd)) _ _
    · rw [hend]
      refine chain_entry ?_ (fun z hz => ?_) h.below
      · simp only [L2, L1, exchanged]
        rw [set_self, set_off, set_off, set_off, set_off]
        all_goals exact hne (by simp [*])
      · simp only [L2, L1, exchanged]
        rw [set_off, set_off, set_off, set_off, set_off]
        all_goals exact hne (by simp [*])
  refine chain_entry ?_ (fun z hz => ?_) hlist
  · simp only [swapped]
    rw [set_off (by simp [h.old_child.symm]), set_self]
  · simp only [swapped]
    rw [set_head_next, set_head_next]

end

theorem swapped_frame {p : P} {l : List P} (h : Chain L (.head p) l) (hpg : p ≠ grand) (hpo : p ≠ old)
    (hpc : p ≠ child) (hl : ∀ z ∈ l, z ∉ x ∧ z ∉ a ∧ z ∉ b ∧ z ≠ old ∧ z ≠ child) :
    Chain (swapped L grand old child x a b) (.head p) l := by
  have hoff : ∀ {c d : Cell P P} {m : List P}, d ∉ c :: m.map Cell.next → d ≠ endCell c m := fun hd heq =>
    hd (heq ▸ endCell_mem _ _)
  refine chain_entry (swapped_off (hoff ?_) (hoff ?_) (hoff ?_) ?_ ?_ ?_ ?_) (fun z hz => ?_) h
  iterate 7 simp [hpg, hpo, hpc]
  obtain ⟨hx, ha, hb, hzo, hzc⟩ := hl z hz
  refine swapped_off (hoff ?_) (hoff ?_) (hoff ?_) ?_ ?_ ?_ ?_
  all_goals simp [hx, ha, hb, hzo, hzc]

end

/-! ## The tree -/

/-- A process and its parent on the lists of the parent and of the grandparent. -/
structure Swap (proc : P) (st : Family P) (kids : P → List P) (grand old child : P) (x y a b : List P) : Prop where
  tree : Tree proc st kids
  live : child ∈ st.live
  parent : st.parent child = some old
  up : st.parent old = some grand
  above : kids grand = x ++ old :: y
  between : kids old = a ++ child :: b

section
variable {grand old child : P} {x y a b : List P}

section
variable (h : Swap proc st kids grand old child x y a b)
include h

omit [DecidableEq P] in
theorem Swap.old_live : old ∈ st.live := h.tree.parent_live h.live h.parent

omit [DecidableEq P] in
theorem Swap.grand_live : grand ∈ st.live :=
  h.tree.parent_live h.old_live h.up

omit [DecidableEq P] in
theorem Swap.around : Around st.links grand old child x y a b (kids child) := by
  have hgo : grand ≠ old := (h.tree.ne_of_parent h.old_live h.up).symm
  have hoc : old ≠ child := (h.tree.ne_of_parent h.live h.parent).symm
  have hgc : grand ≠ child := by
    rintro rfl
    obtain ⟨depth, hdepth⟩ := h.tree.depth
    exact Nat.lt_asymm (hdepth _ h.old_live _ h.up) (hdepth _ h.grand_live _ h.parent)
  have hnx := nodup_cons.mp (nodup_middle.mp (h.above ▸ h.tree.kids_nodup h.grand_live))
  have hna := nodup_cons.mp (nodup_middle.mp (h.between ▸ h.tree.kids_nodup h.old_live))
  have hmiddle : ∀ {l l' : List P} {q z : P}, z ∈ l ++ l' → z ∈ l ++ q :: l' := fun hz =>
    perm_middle.mem_iff.mpr (.tail _ hz)
  have hpx : ∀ z ∈ x ++ y, st.parent z = some grand := fun z hz =>
    h.tree.parent_of_mem h.grand_live (h.above ▸ hmiddle hz)
  have hpa : ∀ z ∈ a ++ b, st.parent z = some old := fun z hz =>
    h.tree.parent_of_mem h.old_live (h.between ▸ hmiddle hz)
  have hpk : ∀ z ∈ kids child, st.parent z = some child := fun z hz => h.tree.parent_of_mem h.live hz
  refine ⟨h.above ▸ h.tree.chain h.grand_live, h.between ▸ h.tree.chain h.old_live, h.tree.chain h.live, ?_, hgo, hgc, hoc⟩
  -- a process is on the list of its parent only
  have hone : ∀ {z p q : P}, st.parent z = some p → st.parent z = some q → p = q := fun hp hq =>
    Option.some.inj (hp.symm.trans hq)
  have hlow : (a ++ b ++ kids child).Nodup :=
    List.Nodup.append hna.2 (h.tree.kids_nodup h.live) fun z hz hz' => hoc (hone (hpa z hz) (hpk z hz'))
  have hall : (x ++ y ++ (a ++ b ++ kids child)).Nodup := by
    refine List.Nodup.append hnx.2 hlow fun z hz hz' => ?_
    rcases mem_append.mp hz' with hz' | hz'
    · exact hgo (hone (hpx z hz) (hpa z hz'))
    · exact hgc (hone (hpx z hz) (hpk z hz'))
  have hmem : ∀ {z}, z ∈ x ++ y ++ (a ++ b ++ kids child) → z ∈ x ++ y ∨ z ∈ a ++ b ∨ z ∈ kids child := by
    intro z hz
    simpa only [mem_append, or_assoc] using hz
  refine nodup_cons.mpr ⟨?_, nodup_cons.mpr ⟨?_, hall⟩⟩
  · rw [mem_cons, not_or]
    refine ⟨hoc, fun hz => ?_⟩
    rcases hmem hz with hz | hz | hz
    · exact hnx.1 hz
    · exact hgo (hone h.up (hpa _ hz))
    · exact hgc (hone h.up (hpk _ hz))
  · intro hz
    rcases hmem hz with hz | hz | hz
    · exact hgo.symm (hone h.parent (hpx _ hz))
    · exact hna.1 hz
    · exact hoc (hone h.parent (hpk _ hz))

end

/-- The parents after process_swap. -/
def swappedUp (up : P → Option P) (grand old child : P) (a b : List P) : P → Option P :=
  handed child (a ++ b) (update (update up child (some grand)) old (some child))

/-- What process_swap does: the links of `swapped`, the other children change their parent. -/
theorem processSwap_eq (h : Swap proc st kids grand old child x y a b) :
    processSwap st child = some
      { links := swapped st.links grand old child x a b
        parent := swappedUp st.parent grand old child a b
        numProcesses := update (update st.numProcesses child (st.numProcesses old)) old 0
        live := st.live } := by
  have haround := h.around
  have hlenx := h.tree.kids_length h.grand_live
  have hlena := h.tree.kids_length h.old_live
  rw [h.above, length_append, length_cons] at hlenx
  rw [h.between, length_append, length_cons] at hlena
  obtain ⟨hox, -, hca, hcb⟩ := haround.not_mem
  have hfirst := replaceChild_eq old child haround.above hox
    (show x.length < st.live.length + 1 by omega)
  have htake := takeOver_eq
    { st with
      links := exchanged st.links grand old child x
      parent := update (update st.parent child (some grand)) old (some child) }
    old child (exchanged_before haround) (exchanged_behind haround) hca hcb
    (show a.length + b.length + 1 < st.live.length + 1 by omega)
  simp only [processSwap, h.parent, h.up, hfirst, Option.bind_eq_bind, Option.bind_some]
  simp only [exchanged] at htake
  rw [htake]
  rfl

/-- The lists after process_swap. -/
def swappedKids (kids : P → List P) (grand old child : P) (x y a b : List P) : P → List P :=
  update (update (update kids grand (x ++ child :: y)) old [])
    child (a ++ old :: b ++ kids child)

/-- The list of a process after process_swap is one of four. -/
@[elab_as_elim]
theorem swappedKids_cases {Q : P → List P → Prop} (p : P) (hchild : Q child (a ++ old :: b ++ kids child))
    (hold : Q old []) (hgrand : Q grand (x ++ child :: y))
    (hother : ∀ p, p ≠ grand → p ≠ old → p ≠ child → Q p (kids p)) :
    Q p (swappedKids kids grand old child x y a b p) := by
  unfold swappedKids
  by_cases hpc : p = child
  · rwa [hpc, update_self]
  · rw [update_of_ne hpc]
    by_cases hpo : p = old
    · rwa [hpo, update_self]
    · rw [update_of_ne hpo]
      by_cases hpg : p = grand
      · rwa [hpg, update_self]
      · rw [update_of_ne hpg]
        exact hother p hpg hpo hpc

section
variable (h : Swap proc st kids grand old child x y a b)
include h

theorem swapped_parent (z p : P) :
    swappedUp st.parent grand old child a b z = some p ↔ ((z ∈ a ++ b ∨ z = old) ∧ p = child) ∨
      (z = child ∧ p = grand) ∨ (z ∉ a ++ b ∧ z ≠ old ∧ z ≠ child ∧ st.parent z = some p) := by
  have hoc := h.around.old_child
  have hcab := h.around.not_mem.2.2
  rw [swappedUp, handed]
  by_cases hz : z ∈ a ++ b
  · have hzc : z ≠ child := by
      rintro rfl
      simp [hcab] at hz
    simp [hz, hzc, eq_comm]
  · rw [if_neg hz]
    by_cases hzo : z = old
    · subst hzo
      simp [hoc, eq_comm]
    · rw [update_of_ne hzo]
      by_cases hzc : z = child
      · subst hzc
        simp [hz, hzo, eq_comm]
      · rw [update_of_ne hzc]
        simp [hz, hzo, hzc]

theorem swapped_mem {p z : P} (hp : p ∈ st.live) :
    z ∈ swappedKids kids grand old child x y a b p ↔ z ∈ st.live ∧ swappedUp st.parent grand old child a b z = some p := by
  have hgo := h.around.grand_old
  have hgc := h.around.grand_child
  have hoc := h.around.old_child
  have hmemo : z ∈ a ++ child :: b ↔ z ∈ st.live ∧ st.parent z = some old := h.between ▸ h.tree.mem h.old_live
  have hmemg : z ∈ x ++ old :: y ↔ z ∈ st.live ∧ st.parent z = some grand := h.above ▸ h.tree.mem h.grand_live
  have hmemp := @Tree.mem _ _ _ _ h.tree p z hp
  have hapart := h.around.apart
  rw [swapped_parent h]
  clear h
  revert hp hmemp
  refine swappedKids_cases p ?_ ?_ ?_ fun p hpg hpo hpc => ?_
  all_goals grind

theorem swapped_depth : ∃ depth : P → Nat,
    ∀ p ∈ st.live, ∀ q, swappedUp st.parent grand old child a b p = some q → depth q < depth p := by
  obtain ⟨depth, hdepth⟩ := h.tree.depth
  have haround := h.around
  have hoc := haround.old_child
  have hdold : depth old < depth child := hdepth child h.live old h.parent
  have hdgrand : depth grand < depth old := hdepth old h.old_live grand h.up
  obtain ⟨-, hoab, hcab⟩ := haround.not_mem
  -- the two processes exchange their depths
  obtain ⟨depth', hself, hnew, hrest⟩ : ∃ depth' : P → Nat, depth' old = depth child ∧ depth' child = depth old ∧
      ∀ {z}, z ≠ old → z ≠ child → depth' z = depth z := by
    refine ⟨update (update depth child (depth old)) old (depth child), update_self _ _ _, ?_,
      fun hzo hzc => ?_⟩
    · rw [update_of_ne hoc.symm, update_self]
    · rw [update_of_ne hzo, update_of_ne hzc]
  refine ⟨depth', fun p hp q hq => ?_⟩
  rw [swapped_parent h] at hq
  have hmem : p ∈ a ++ child :: b ↔ p ∈ st.live ∧ st.parent p = some old := h.between ▸ h.tree.mem h.old_live
  simp only [mem_append, mem_cons] at hmem hq
  have hdp := hdepth p hp
  rcases hq with ⟨hz, rfl⟩ | ⟨rfl, rfl⟩ | ⟨hab, hpo, hpc, hparent⟩
  · rw [hnew]
    rcases hz with hz | rfl
    · have hpo : p ≠ old := by rintro rfl; exact hoab.1 (hz.resolve_right hoab.2)
      have hpc : p ≠ q := by rintro rfl; exact hcab.1 (hz.resolve_right hcab.2)
      rw [hrest hpo hpc]
      exact hdp old (hmem.mp (by tauto)).2
    · rw [hself]
      exact hdold
  · rw [hnew, hrest haround.grand_old haround.grand_child]
    exact hdgrand
  · rw [hrest hpo hpc]
    by_cases hqc : q = child
    · subst hqc
      rw [hnew]
      exact Nat.lt_trans hdold (hdp q hparent)
    · by_cases hqo : q = old
      · subst hqo
        tauto
      · rw [hrest hqo hqc]
        exact hdp q hparent

end

end

theorem processSwap_tree (h : Tree proc st kids) {old child : P} (hchild : child ∈ st.live)
    (hold : st.parent child = some old) (hne : old ≠ proc) :
    ∃ st' kids', processSwap st child = some st' ∧ Tree proc st' kids' ∧
      (Counted st kids → kids child = [] → Counted st' kids') := by
  have hol := h.parent_live hchild hold
  obtain ⟨grand, hgl, hgrand⟩ := h.up hol hne
  obtain ⟨x, y, hx, -⟩ := h.split_kids hol hgrand
  obtain ⟨a, b, ha, -⟩ := h.split_kids hchild hold
  have hswap : Swap proc st kids grand old child x y a b := ⟨h, hchild, hold, hgrand, hx, ha⟩
  have haround := hswap.around
  have hab : ∀ {z}, z ∈ a ++ b → z ∈ kids old := fun hz =>
    ha ▸ perm_middle.mem_iff.mpr (.tail _ hz)
  refine ⟨_, swappedKids kids grand old child x y a b, processSwap_eq hswap, ⟨h.nodup, h.small, h.root, ?_, ?_,
    swapped_mem hswap, ?_, swapped_depth hswap⟩, ?_⟩
  · have hpc : proc ≠ child := by
      rintro rfl
      rw [h.top] at hold
      cases hold
    dsimp only
    rw [swappedUp, handed, if_neg fun hmem => h.root_not_mem hol (hab hmem), update_of_ne hne.symm,
      update_of_ne hpc]
    exact h.top
  · intro p
    refine swappedKids_cases p (fun _ => swapped_below haround) (fun _ => set_self _ _ _)
      (fun _ => swapped_above haround) fun p hpg hpo hpc hp => ?_
    refine swapped_frame (h.chain hp) hpg hpo hpc fun z hz => ⟨?_, ?_, ?_, ?_, ?_⟩
    · exact fun hmem => hpg (h.parent_unique hp hgl hz (hx ▸ mem_append_left _ hmem))
    · exact fun hmem => hpo (h.parent_unique hp hol hz (hab (mem_append_left _ hmem)))
    · exact fun hmem => hpo (h.parent_unique hp hol hz (hab (mem_append_right _ hmem)))
    · rintro rfl
      exact hpg (Option.some.inj ((h.parent_of_mem hp hz).symm.trans hgrand))
    · rintro rfl
      exact hpo (Option.some.inj ((h.parent_of_mem hp hz).symm.trans hold))
  · intro p hp hroot
    dsimp only
    rw [swappedUp, handed]
    split
    · exact ⟨child, hchild, rfl⟩
    · by_cases hpo : p = old
      · exact ⟨child, hchild, by rw [hpo, update_self]⟩
      · rw [update_of_ne hpo]
        by_cases hpc : p = child
        · exact ⟨grand, hgl, by rw [hpc, update_self]⟩
        · rw [update_of_ne hpc]
          exact h.up hp hroot
  · intro hcount hnone p
    dsimp only
    refine swappedKids_cases p (fun _ => ?_) (fun _ => ?_) (fun _ => ?_) fun p _ hpo hpc hp => ?_
    · rw [update_of_ne haround.old_child.symm, update_self, hcount old hol, ha, hnone]
      simp
    · rw [update_self]
      rfl
    · rw [update_of_ne haround.grand_old, update_of_ne haround.grand_child, hcount grand hgl, hx]
      simp
    · rw [update_of_ne hpo, update_of_ne hpc, hcount p hp]

/-! ## Runs -/

/-- object_alloc returns an object that is not in use, and the system process is there to stay: it is not
destroyed, and no child takes its place. -/
def Proper (proc : P) (st : Family P) : Op P → Prop
  | .create _ prp _ _ => prp ∉ st.live
  | .destroy prp _ _ => prp ≠ proc
  | .swap child => child ≠ proc ∧ st.parent child ≠ some proc

/-- A process that takes over has no children. -/
def Childless (st : Family P) : Op P → Prop
  | .swap child => st.links (.head child) = none
  | _ => True

instance Proper.decidable (st : Family P) : ∀ op, Decidable (Proper proc st op)
  | .create _ prp _ _ => inferInstanceAs (Decidable (prp ∉ st.live))
  | .destroy prp _ _ => inferInstanceAs (Decidable (prp ≠ proc))
  | .swap child => inferInstanceAs (Decidable (child ≠ proc ∧ st.parent child ≠ some proc))

instance Childless.decidable (st : Family P) : ∀ op, Decidable (Childless st op)
  | .create .. => isTrue trivial
  | .destroy .. => isTrue trivial
  | .swap child => inferInstanceAs (Decidable (st.links (.head child) = none))

theorem step_tree (h : Tree proc st kids) {op : Op P} (hop : Proper proc st op) :
    ∃ st' kids', step proc st op = some st' ∧ Tree proc st' kids' ∧
      (Counted st kids → Childless st op → Counted st' kids') := by
  cases op with
  | create parent prp limit ok =>
    obtain ⟨kids', htree, hcount⟩ := processCreate_tree h parent limit ok hop
    exact ⟨_, kids', rfl, htree, fun hc _ => hcount hc⟩
  | destroy prp querying preempt =>
    obtain ⟨st', kids', heq, htree, hcount⟩ := processDestroy_tree h querying preempt hop
    exact ⟨st', kids', heq, htree, fun hc _ => hcount hc⟩
  | swap child =>
    rw [step]
    split
    · next hchild =>
      obtain ⟨old, -, hold⟩ := h.up hchild hop.1
      obtain ⟨st', kids', heq, htree, hcount⟩ := processSwap_tree h hchild hold fun heq => hop.2 (heq ▸ hold)
      refine ⟨st', kids', heq, htree, fun hc hnone => hcount hc ?_⟩
      exact Chain.unique (h.chain hchild) hnone
    · exact ⟨st, kids, rfl, h, fun hc _ => hc⟩

theorem run_tree (h : Tree proc st kids) {ops : List (Op P)} (hops : Run.Along (step proc) (Proper proc) ops st) :
    ∃ st', run proc ops st = some st' ∧ ∃ kids', Tree proc st' kids' ∧
      (Counted st kids → Run.Along (step proc) Childless ops st → Counted st' kids') := by
  induction ops generalizing st kids with
  | nil => exact ⟨st, rfl, kids, h, fun hc _ => hc⟩
  | cons op ops ih =>
    obtain ⟨st1, kids1, heq, h1, hcount1⟩ := step_tree h hops.1
    obtain ⟨st', hrun, kids', h', hcount'⟩ := ih h1 (hops.2 st1 heq)
    refine ⟨st', ?_, kids', h', fun hc hless => hcount' (hcount1 hc hless.1) (hless.2 st1 heq)⟩
    rw [run, Run.exec, foldlM_cons, heq]
    exact hrun

omit [DecidableEq P] in
theorem alone_tree (proc : P) : Tree proc (alone proc) fun _ => [] where
  nodup := nodup_singleton proc
  small := show 1 ≤ pidMask by decide
  root := mem_singleton_self proc
  top := rfl
  chain _ := rfl
  mem _ := iff_of_false not_mem_nil fun hand => by cases hand.2
  up hp hne := absurd (mem_singleton.mp hp) hne
  depth := ⟨fun _ => 0, nofun⟩

/-- Every run comes to its end, and the family is a tree then; `num_processes` counts the children if no process
that takes over has any. -/
theorem family_tree (proc : P) (ops : List (Op P)) (hops : Run.Along (step proc) (Proper proc) ops (alone proc)) :
    ∃ st, run proc ops (alone proc) = some st ∧ ∃ kids, Tree proc st kids ∧
      (Run.Along (step proc) Childless ops (alone proc) → Counted st kids) := by
  obtain ⟨st, hrun, kids, htree, hcount⟩ := run_tree (alone_tree proc) hops
  exact ⟨st, hrun, kids, htree, hcount fun _ _ => rfl⟩

/-- A process takes the place of its parent, as exec does it; both go later. -/
def execOps : List (Op Nat) :=
  [.create 0 1 10 true, .create 1 2 10 true, .create 1 3 10 true, .create 0 4 10 true, .swap 3,
    .destroy 1 false none, .destroy 3 false (some 0), .destroy 3 false none]

theorem family_tree_exec : ∃ st, run 0 execOps (alone 0) = some st ∧
    ∃ kids, Tree 0 st kids ∧ Counted st kids := by
  obtain ⟨st, hrun, kids, htree, hcount⟩ := family_tree 0 execOps (by decide +kernel)
  exact ⟨st, hrun, kids, htree, hcount (by decide +kernel)⟩

/-- The process 2 has a child, 3, when it takes the place of its parent 1 as its guardian. -/
def guardianOps : List (Op Nat) :=
  [.create 0 1 10 true, .create 1 2 10 true, .create 2 3 10 true, .swap 2]

/-- The guardian has two children then, and counts one. -/
theorem guardian_miscounted : Run.Along (step 0) (Proper 0) guardianOps (alone 0) ∧
    ∃ st, run 0 guardianOps (alone 0) = some st ∧ 2 ∈ st.live ∧ Chain st.links (.head 2) [1, 3] ∧
      st.numProcesses 2 = 1 ∧ ¬ ∃ kids, Tree 0 st kids ∧ Counted st kids := by
  have hrun : (run 0 guardianOps (alone 0)).any (fun st => decide (2 ∈ st.live ∧
      (st.links (.head 2) = some 1 ∧ st.links (.next 1) = some 3 ∧ st.links (.next 3) = none) ∧
      st.numProcesses 2 = 1)) = true := by
    decide +kernel
  obtain ⟨st, hst, hall⟩ := (Option.any_eq_true _ _).mp hrun
  obtain ⟨hlive, hchain, hnum⟩ := of_decide_eq_true hall
  refine ⟨by decide +kernel, st, hst, hlive, hchain, hnum, ?_⟩
  rintro ⟨kids, htree, hcount⟩
  have hkids : kids 2 = [1, 3] := Chain.unique (htree.chain hlive) hchain
  have hlen := hcount 2 hlive
  rw [hnum, hkids] at hlen
  cases hlen

end QRV.Kext.Process
