import QRV.Kext.Process

/- The family of processes is a tree. Each process that exists, apart from the system process,
   is on one list of children, that of its parent; the lists end; following the parents leads
   to the system process (`depth`). `kids` is the list of each process.

   Creating and destroying processes keep this, and `num_processes` with it. process_swap keeps
   the tree, also if the process that takes over has children, but not the counter: it takes
   over the counter of its parent, although its own children stay on its list. -/
namespace QRV.Kext.Process
open Function (update update_of_ne update_self)
open List hiding Chain
open LinkCell Option

variable {P : Type} {proc : P} {st st' : Family P} {kids : P → List P}
variable {p : P}

structure Tree (proc : P) (st : Family P) (kids : P → List P) : Prop where
  nodup : st.live.Nodup
  small : st.live.length ≤ pidMask
  root : proc ∈ st.live
  top : st.parent proc = none
  chain : ∀ {p}, p ∈ st.live → Chain st.links (.head p) (kids p)
  mem : ∀ {p c}, p ∈ st.live → (c ∈ kids p ↔ c ∈ st.live ∧ st.parent c = some p)
  up : ∀ {p}, p ∈ st.live → p ≠ proc → ∃ q ∈ st.live, st.parent p = some q
  depth : ∃ depth : P → Nat, ∀ p ∈ st.live, ∀ q, st.parent p = some q → depth q < depth p

/-- `num_processes` is the length of the list. -/
def Counted (st : Family P) (kids : P → List P) : Prop := ∀ p ∈ st.live, st.numProcesses p = (kids p).length

namespace Tree

section
variable {q c : P} (h : Tree proc st kids) (hp : p ∈ st.live)
include h hp

theorem kids_nodup : (kids p).Nodup := (h.chain hp).nodup

theorem live_of_mem (hc : c ∈ kids p) : c ∈ st.live := ((h.mem hp).mp hc).1

theorem parent_of_mem (hc : c ∈ kids p) : st.parent c = some p := ((h.mem hp).mp hc).2

theorem parent_unique (hq : q ∈ st.live) (hc : c ∈ kids p) (hc' : c ∈ kids q) : p = q := by
  have heq := (h.parent_of_mem hp hc).symm.trans (h.parent_of_mem hq hc')
  exact some.inj heq

theorem root_not_mem : proc ∉ kids p := by
  intro hmem
  have hparent := h.parent_of_mem hp hmem
  rw [h.top] at hparent
  cases hparent

theorem ne_of_parent (hq : st.parent p = some q) : p ≠ q := by
  rintro rfl
  obtain ⟨depth, hdepth⟩ := h.depth
  exact Nat.lt_irrefl _ (hdepth p hp p hq)

/-- Whoever has a parent is not the system process, and the parent exists. -/
theorem parent_live (hq : st.parent p = some q) : q ∈ st.live := by
  have hne : p ≠ proc := by
    rintro rfl
    rw [h.top] at hq
    cases hq
  obtain ⟨q', hq', heq⟩ := h.up hp hne
  rw [hq] at heq
  exact some.inj heq ▸ hq'

theorem depth_root {depth : P → Nat}
    (hdepth : ∀ p ∈ st.live, ∀ q, st.parent p = some q → depth q < depth p) (hne : p ≠ proc) :
    depth proc < depth p := by
  induction hd : depth p using Nat.strongRecOn generalizing p with
  | ind d ih =>
    obtain ⟨q, hq, hparent⟩ := h.up hp hne
    have hlt := hdepth p hp q hparent
    by_cases hroot : q = proc
    · rw [← hroot, ← hd]
      exact hlt
    · have hq' := ih (depth q) (hd ▸ hlt) hq hroot rfl
      omega

theorem kids_length : (kids p).length < st.live.length := by
  have hsub : (proc :: kids p) ⊆ st.live := by
    intro c hc
    rcases mem_cons.mp hc with rfl | hc
    · exact h.root
    · exact h.live_of_mem hp hc
  exact ((nodup_cons.mpr ⟨h.root_not_mem hp, h.kids_nodup hp⟩).subperm hsub).length_le

theorem split_kids (hq : st.parent p = some q) : ∃ x y, kids q = x ++ p :: y ∧ p ∉ x := by
  have hql := h.parent_live hp hq
  obtain ⟨x, y, heq⟩ := append_of_mem ((h.mem hql).mpr ⟨hp, hq⟩)
  have hnodup := h.kids_nodup hql
  rw [heq] at hnodup
  have hnot := (nodup_cons.mp (nodup_middle.mp hnodup)).1
  exact ⟨x, y, heq, fun hx => hnot (mem_append_left y hx)⟩

/-! The counters do not wrap around: there are not that many processes. -/

theorem inc_length : inc (kids p).length = (kids p).length + 1 := by
  have hlt := h.kids_length hp
  have hle := h.small
  rw [inc]
  simp only [pidMask] at hle
  omega

theorem dec_length {n : Nat} (hn : (kids p).length = n + 1) : dec (kids p).length = n := by
  have hlt := h.kids_length hp
  have hle := h.small
  rw [hn, dec]
  simp only [pidMask] at hle
  omega

end

end Tree

variable [DecidableEq P]
variable {prp : P}

/-! ## Creation -/

theorem Tree.insert (h : Tree proc st kids) {st' : Family P} {parent prp : P} (hparent : parent ∈ st.live)
    (hnew : prp ∉ st.live)
    (hlinks : st'.links = ((st.links.set (.head prp) none).set (.next prp)
      ((st.links.set (.head prp) none) (.head parent))).set (.head parent) (some prp))
    (hup : st'.parent = update st.parent prp (some parent)) (hlive : st'.live = prp :: st.live)
    (hsmall : st.live.length < pidMask) :
    Tree proc st' (update (update kids prp []) parent (prp :: kids parent)) := by
  have hne : parent ≠ prp := fun heq => hnew (heq ▸ hparent)
  have hnot : ∀ {p}, p ∈ st.live → prp ∉ kids p := fun hp hmem => hnew (h.live_of_mem hp hmem)
  have hold : ∀ {p}, p ∈ st.live → p ≠ prp := fun hp heq => hnew (heq ▸ hp)
  have hroot : proc ≠ prp := hold h.root
  refine ⟨?_, ?_, ?_, ?_, ?_, ?_, ?_, ?_⟩
  all_goals simp only [hlinks, hup, hlive]
  · exact nodup_cons.mpr ⟨hnew, h.nodup⟩
  · exact hsmall
  · exact .tail _ h.root
  · rw [update_of_ne hroot]
    exact h.top
  · intro p hp
    have hfirst : ∀ {p}, p ∈ st.live → Chain (st.links.set (.head prp) none) (.head p) (kids p) :=
      fun hp => (chain_set_off (head_off (hold hp).symm)).mpr (h.chain hp)
    by_cases hpp : p = parent
    · subst hpp
      rw [update_self]
      exact chain_push (hfirst hparent) (hnot hparent)
    · rw [update_of_ne hpp]
      rcases mem_cons.mp hp with rfl | hp
      · rw [update_self, Chain, set_off (by simp [Ne.symm hne]), set_next_head, set_self]
      · rw [update_of_ne (hold hp)]
        refine (chain_set_off (head_off (Ne.symm hpp))).mpr ?_
        exact (chain_set_off (next_off (hnot hp))).mpr (hfirst hp)
  · intro p c hp
    by_cases hc : c = prp
    · subst hc
      rw [update_self, some.injEq]
      by_cases hpp : p = parent
      · subst hpp
        simp
      · rw [update_of_ne hpp]
        refine iff_of_false (fun hmem => ?_) (fun hand => hpp hand.2.symm)
        rcases mem_cons.mp hp with rfl | hp
        · rw [update_self] at hmem
          cases hmem
        · rw [update_of_ne (hold hp)] at hmem
          exact hnot hp hmem
    · rw [update_of_ne hc, mem_cons, or_iff_right hc]
      by_cases hpp : p = parent
      · subst hpp
        rw [update_self, mem_cons, or_iff_right hc]
        exact h.mem hparent
      · rw [update_of_ne hpp]
        rcases mem_cons.mp hp with rfl | hp
        · rw [update_self]
          refine iff_of_false not_mem_nil fun hand => ?_
          exact hnew (h.parent_live hand.1 hand.2)
        · rw [update_of_ne (hold hp)]
          exact h.mem hp
  · intro p hp hpr
    by_cases hpp : p = prp
    · exact ⟨parent, .tail _ hparent, by rw [hpp]; exact update_self _ _ _⟩
    · obtain ⟨q, hq, heq⟩ := h.up ((mem_cons.mp hp).resolve_left hpp) hpr
      exact ⟨q, .tail _ hq, by rw [update_of_ne hpp]; exact heq⟩
  · obtain ⟨depth, hdepth⟩ := h.depth
    refine ⟨update depth prp (depth parent + 1), fun p hp q hq => ?_⟩
    by_cases hpp : p = prp
    · subst hpp
      rw [update_self] at hq ⊢
      cases hq
      rw [update_of_ne hne]
      exact Nat.lt_succ_self _
    · have hp' := (mem_cons.mp hp).resolve_left hpp
      rw [update_of_ne hpp] at hq ⊢
      rw [update_of_ne (hold (h.parent_live hp' hq))]
      exact hdepth p hp' q hq

theorem processCreate_tree (h : Tree proc st kids) (parent : P) (limit : Nat) (ok : Bool)
    (hnew : prp ∉ st.live) : ∃ kids', Tree proc (processCreate st parent prp limit ok) kids' ∧
      (Counted st kids → Counted (processCreate st parent prp limit ok) kids') := by
  rw [processCreate]
  split
  · exact ⟨kids, h, id⟩
  · next hparent =>
    rw [not_not] at hparent
    split
    · exact ⟨kids, h, id⟩
    · split
      · exact ⟨kids, h, id⟩
      · next hlimit =>
        split
        · exact ⟨kids, h, id⟩
        · refine ⟨_, h.insert hparent hnew rfl rfl rfl (by omega), fun hcount p hp => ?_⟩
          have hne : parent ≠ prp := fun heq => hnew (heq ▸ hparent)
          dsimp only
          by_cases hpp : p = parent
          · subst hpp
            rw [update_self, update_self, update_of_ne hne, hcount p hparent,
              h.inc_length hparent, length_cons]
          · rw [update_of_ne hpp, update_of_ne hpp]
            rcases mem_cons.mp hp with rfl | hp
            · rw [update_self, update_self]
              rfl
            · have hold : p ≠ prp := fun heq => hnew (heq ▸ hp)
              rw [update_of_ne hold, update_of_ne hold]
              exact hcount p hp

/-! ## Destruction -/

section
variable (h : Tree proc st kids)
include h

theorem adopt_tree {prp child : P} {rest : List P} (hprp : prp ∈ st.live) (hne : prp ≠ proc)
    (hkids : kids prp = child :: rest) :
    Tree proc (adopt proc prp child st) (update (update kids prp rest) proc (child :: kids proc)) := by
  have hchild : child ∈ kids prp := hkids ▸ mem_cons_self
  have hnodup : child ∉ rest := (nodup_cons.mp (hkids ▸ h.kids_nodup hprp)).1
  have hlive := h.live_of_mem hprp hchild
  have hnot : ∀ {p}, p ∈ st.live → p ≠ prp → child ∉ kids p := fun hp hpp hmem =>
    hpp (h.parent_unique hp hprp hmem hchild)
  have hroot : proc ≠ child := fun heq => h.root_not_mem hprp (heq ▸ hchild)
  refine ⟨h.nodup, h.small, h.root, ?_, ?_, ?_, ?_, ?_⟩
  · simp only [adopt]
    rw [update_of_ne hroot]
    exact h.top
  · intro p hp
    have hfirst : ∀ {p}, p ∈ st.live → p ≠ prp →
        Chain (st.links.set (.head prp) (st.links (.next child))) (.head p) (kids p) :=
      fun hp hpp => (chain_set_off (head_off (Ne.symm hpp))).mpr (h.chain hp)
    by_cases hpp : p = proc
    · subst hpp
      rw [update_self]
      exact chain_push (hfirst h.root hne.symm) (hnot h.root hne.symm)
    · rw [update_of_ne hpp]
      refine (chain_set_off ?_).mpr ((chain_set_off ?_).mpr ?_)
      · exact head_off (Ne.symm hpp)
      · refine next_off ?_
        by_cases hpr : p = prp
        · subst hpr
          rw [update_self]
          exact hnodup
        · rw [update_of_ne hpr]
          exact hnot hp hpr
      · by_cases hpr : p = prp
        · subst hpr
          rw [update_self]
          exact chain_pop (hkids ▸ h.chain hp)
        · rw [update_of_ne hpr]
          exact hfirst hp hpr
  · intro p c hp
    simp only [adopt]
    have hold := @Tree.mem _ _ _ _ h p c hp
    by_cases hc : c = child
    · subst hc
      rw [update_self, some.injEq]
      by_cases hpp : p = proc
      · subst hpp
        simpa using hlive
      · rw [update_of_ne hpp]
        refine iff_of_false ?_ fun hand => hpp hand.2.symm
        by_cases hpr : p = prp
        · subst hpr
          rw [update_self]
          exact hnodup
        · rw [update_of_ne hpr]
          exact hnot hp hpr
    · rw [update_of_ne hc, ← hold]
      by_cases hpp : p = proc
      · subst hpp
        rw [update_self, mem_cons, or_iff_right hc]
      · rw [update_of_ne hpp]
        by_cases hpr : p = prp
        · subst hpr
          rw [update_self, hkids, mem_cons, or_iff_right hc]
        · rw [update_of_ne hpr]
  · intro p hp hpr
    simp only [adopt]
    by_cases hpp : p = child
    · exact ⟨proc, h.root, by rw [hpp]; exact update_self _ _ _⟩
    · rw [update_of_ne hpp]
      exact h.up hp hpr
  · obtain ⟨depth, hdepth⟩ := h.depth
    refine ⟨depth, fun p hp q hq => ?_⟩
    simp only [adopt] at hq
    by_cases hpp : p = child
    · subst hpp
      rw [update_self] at hq
      cases hq
      exact h.depth_root hp hdepth hroot.symm
    · rw [update_of_ne hpp] at hq
      exact hdepth p hp q hq

theorem adopt_counted (hcount : Counted st kids) {prp child : P} {rest : List P}
    (hprp : prp ∈ st.live) (hne : prp ≠ proc) (hkids : kids prp = child :: rest) :
    Counted (adopt proc prp child st) (update (update kids prp rest) proc (child :: kids proc)) := by
  intro p hp
  simp only [adopt]
  by_cases hpp : p = proc
  · subst hpp
    rw [update_self, update_self, update_of_ne hne.symm, hcount p h.root,
      h.inc_length h.root, length_cons]
  · rw [update_of_ne hpp, update_of_ne hpp]
    by_cases hpr : p = prp
    · subst hpr
      rw [update_self, update_self, hcount p hprp]
      exact h.dec_length hprp (by rw [hkids, length_cons])
    · rw [update_of_ne hpr, update_of_ne hpr]
      exact hcount p hp

omit h in
theorem adoptLoop_tree (hne : prp ≠ proc) {fuel : Nat} (preempt : Option Nat) (h : Tree proc st kids)
    (hprp : prp ∈ st.live) (hfuel : (kids prp).length < fuel) :
    ∃ st' done kids', adoptLoop proc prp fuel preempt st = some (st', done) ∧ Tree proc st' kids' ∧
      (Counted st kids → Counted st' kids') ∧ st'.live = st.live ∧ (done = true → kids' prp = []) := by
  induction fuel generalizing st kids preempt with
  | zero => omega
  | succ fuel ih =>
    rw [adoptLoop]
    cases hk : kids prp with
    | nil =>
      have hhead := h.chain hprp
      rw [hk, Chain] at hhead
      rw [hhead]
      exact ⟨st, true, kids, rfl, h, id, rfl, fun _ => hk⟩
    | cons child rest =>
      have hhead := h.chain hprp
      rw [hk, Chain] at hhead
      rw [hhead.1]
      dsimp only
      split
      · exact ⟨st, false, kids, rfl, h, id, rfl, by simp⟩
      · have hlen : (update (update kids prp rest) proc (child :: kids proc) prp).length < fuel := by
          rw [update_of_ne hne, update_self]
          rw [hk, length_cons] at hfuel
          omega
        obtain ⟨st', done, kids', heq, htree, hcount, hlive, hdone⟩ := ih _ (adopt_tree h hprp hne hk) hprp hlen
        exact ⟨st', done, kids', heq, htree, fun hc => hcount (adopt_counted h hc hprp hne hk), hlive, hdone⟩

omit h in
/-- The search finds the process, if it is on the list, and takes it off. -/
theorem unlinkSibling_eq {L : Links P P} {fuel : Nat} {q : P} {x : List P}
    (h : Seg L (.next q) (x ++ [prp])) (hx : prp ∉ x) (hfuel : x.length < fuel) :
    unlinkSibling prp fuel L (some q) = some (L.set (endCell (.next q) x) (L (.next prp))) := by
  induction x generalizing fuel q with
  | nil =>
    obtain ⟨fuel, rfl⟩ : ∃ f, fuel = f + 1 := ⟨fuel - 1, by simp at hfuel; omega⟩
    rw [unlinkSibling, if_pos h.1]
    rfl
  | cons a x ih =>
    obtain ⟨fuel, rfl⟩ : ∃ f, fuel = f + 1 := ⟨fuel - 1, by simp at hfuel; omega⟩
    have hne : some a ≠ some prp := fun heq => hx (some.inj heq ▸ mem_cons_self)
    rw [unlinkSibling, h.1, if_neg hne]
    refine ih h.2 (fun hmem => hx (.tail _ hmem)) ?_
    simp only [length_cons] at hfuel
    omega

theorem Tree.remove {st' : Family P} {parent prp : P} {x y : List P} (hprp : prp ∈ st.live)
    (hparent : st.parent prp = some parent) (hnone : kids prp = []) (hkids : kids parent = x ++ prp :: y)
    (hlinks : st'.links = st.links.set (endCell (.head parent) x) (st.links (.next prp)))
    (hup : st'.parent = st.parent) (hlive : st'.live = st.live.erase prp) :
    Tree proc st' (update kids parent (x ++ y)) := by
  have hpl := h.parent_live hprp hparent
  have hnodup := h.kids_nodup hpl
  rw [hkids] at hnodup
  have hxy : prp ∉ x ++ y := (nodup_cons.mp (nodup_middle.mp hnodup)).1
  have hroot : proc ≠ prp := by
    rintro rfl
    rw [h.top] at hparent
    cases hparent
  have hmem : ∀ {p}, p ∈ st.live.erase prp → p ∈ st.live ∧ p ≠ prp := fun hp =>
    (List.Nodup.mem_erase_iff h.nodup).mp hp |>.symm
  refine ⟨?_, ?_, ?_, ?_, ?_, ?_, ?_, ?_⟩
  all_goals simp only [hlinks, hup, hlive]
  · exact h.nodup.erase _
  · exact Nat.le_trans length_erase_le h.small
  · exact (mem_erase_of_ne hroot).mpr h.root
  · exact h.top
  · intro p hp
    by_cases hpp : p = parent
    · subst hpp
      rw [update_self]
      exact chain_remove (fun d hd _ => set_off hd _ _) (hkids ▸ h.chain hpl) (set_self _ _ _)
    · rw [update_of_ne hpp]
      refine (chain_set_off ?_).mpr (h.chain (hmem hp).1)
      refine cells_off (Ne.symm hpp) (fun c hc hno => hpp ?_) (endCell_mem _ _)
      exact h.parent_unique (hmem hp).1 hpl hno (by rw [hkids]; exact mem_append_left _ hc)
  · intro p c hp
    have hold := @Tree.mem _ _ _ _ h p c (hmem hp).1
    rw [List.Nodup.mem_erase_iff h.nodup, and_assoc, ← hold]
    by_cases hpp : p = parent
    · subst hpp
      rw [update_self, hkids]
      constructor
      · intro hc
        refine ⟨fun heq => hxy (heq ▸ hc), ?_⟩
        simp only [mem_append, mem_cons] at hc ⊢
        tauto
      · rintro ⟨hc, hin⟩
        simp only [mem_append, mem_cons] at hin ⊢
        tauto
    · rw [update_of_ne hpp]
      refine ⟨fun hc => ⟨?_, hc⟩, And.right⟩
      rintro rfl
      exact hpp (h.parent_unique (hmem hp).1 hpl hc (by simp [hkids]))
  · intro p hp hpr
    obtain ⟨q, hq, heq⟩ := h.up (hmem hp).1 hpr
    refine ⟨q, (mem_erase_of_ne ?_).mpr hq, heq⟩
    -- no process has the one that goes as its parent
    rintro rfl
    have hc : p ∈ kids q := (h.mem hq).mpr ⟨(hmem hp).1, heq⟩
    rw [hnone] at hc
    cases hc
  · obtain ⟨depth, hdepth⟩ := h.depth
    exact ⟨depth, fun p hp => hdepth p (hmem hp).1⟩

theorem Counted.remove (hcount : Counted st kids) {st' : Family P} {parent prp : P}
    {x y : List P} (hparent : parent ∈ st.live) (hkids : kids parent = x ++ prp :: y)
    (hnum : st'.numProcesses = update st.numProcesses parent (dec (st.numProcesses parent)))
    (hlive : st'.live = st.live.erase prp) : Counted st' (update kids parent (x ++ y)) := by
  intro p hp
  rw [hlive] at hp
  rw [hnum]
  by_cases hpp : p = parent
  · subst hpp
    rw [update_self, update_self, hcount p hparent]
    refine h.dec_length hparent ?_
    simp only [hkids, length_append, length_cons]
    omega
  · rw [update_of_ne hpp, update_of_ne hpp]
    exact hcount p (mem_of_mem_erase hp)

theorem unlinkParent_tree (hprp : prp ∈ st.live) (hne : prp ≠ proc)
    (hnone : kids prp = []) : ∃ st' kids', unlinkParent prp st = some st' ∧ Tree proc st' kids' ∧
      (Counted st kids → Counted st' kids') := by
  obtain ⟨parent, hpl, hparent⟩ := h.up hprp hne
  obtain ⟨x, y, hkids, hx⟩ := h.split_kids hprp hparent
  have hchain := h.chain hpl
  rw [hkids] at hchain
  suffices hlinks : (if st.links (.head parent) = some prp then
      some (st.links.set (.head parent) (st.links (.next prp)))
      else unlinkSibling prp (st.live.length + 1) st.links (st.links (.head parent))) =
        some (st.links.set (endCell (.head parent) x) (st.links (.next prp))) by
    simp only [unlinkParent, hparent, hlinks]
    exact ⟨_, _, rfl, h.remove hprp hparent hnone hkids rfl rfl rfl,
      fun hcount => hcount.remove h hpl hkids rfl rfl⟩
  cases x with
  | nil => rw [if_pos hchain.1, endCell]
  | cons q x =>
    have hq : some q ≠ some prp := fun heq => hx (some.inj heq ▸ mem_cons_self)
    have hlen := h.kids_length hpl
    rw [hkids, length_append, length_cons] at hlen
    rw [hchain.1, if_neg hq, endCell]
    refine unlinkSibling_eq ?_ (fun hmem => hx (.tail _ hmem)) (by omega)
    have hseg := ((chain_append st.links (.next q) x (prp :: y)).mp hchain.2)
    exact (seg_append _ _ _ _).mpr ⟨hseg.1, hseg.2.1, trivial⟩

theorem processDestroy_tree (querying : Bool) (preempt : Option Nat)
    (hne : prp ≠ proc) : ∃ st' kids', processDestroy proc st prp querying preempt = some st' ∧ Tree proc st' kids' ∧
      (Counted st kids → Counted st' kids') := by
  rw [processDestroy]
  split
  · exact ⟨st, kids, rfl, h, id⟩
  · next hprp =>
    rw [not_not] at hprp
    split
    · exact ⟨st, kids, rfl, h, id⟩
    · obtain ⟨st1, done, kids1, heq, h1, hcount1, hlive, hdone⟩ := adoptLoop_tree hne preempt h hprp
        (Nat.lt_succ_of_lt (h.kids_length hprp))
      rw [heq]
      cases done with
      | false => exact ⟨st1, kids1, rfl, h1, hcount1⟩
      | true =>
        obtain ⟨st2, kids2, heq2, h2, hcount2⟩ := unlinkParent_tree h1 (hlive ▸ hprp) hne (hdone rfl)
        exact ⟨st2, kids2, heq2, h2, fun hc => hcount2 (hcount1 hc)⟩

end

end QRV.Kext.Process
