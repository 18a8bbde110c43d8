import QRV.Nano.PrilOps

/- Whole runs on one priority list. A run adds entries that are not on the list,
   with any priority and any `type` byte (the caller writes both before it calls
   `pril_add`), and removes entries that are on it, in any order. The history of a
   run is what was added and not yet removed, oldest first.

   `PrilList m ph q hist` is the state between two operations in the terms of the
   comment at the head of the routines: the list read through `next` is `q`, the
   history in priority order; HEAD and TAIL mark the first and the last entry of
   each level; the `prev` of a HEAD is its level's TAIL and every other `prev` the
   link of its predecessor; and `pril_find_insertion` answers from the level of
   the priority it is asked for. `pril_run` is the invariant over runs. -/
namespace QRV.Nano
open LinkCell StableQueue List

variable {Q A : Type}
variable {m : PrilMem Q A} {c : Cell Q A} {ls : List (List A)} {ph : Q} {fuel : Nat} {hist : List A}

/-- The list of `ph`, read through the `next` pointers, is `q`, and `q` is the
history `hist` in priority order. -/
structure PrilList (m : PrilMem Q A) (ph : Q) (q hist : List A) : Prop where
  chain : Chain m.links (.head ph) q
  orders : Orders (prilPriority m) q hist
  heads : ∀ x ∈ q, (m.type x).head = true ↔
    (level (prilPriority m) (prilPriority m x) q).head? = some x
  tails : ∀ x ∈ q, (m.type x).tail = true ↔
    (level (prilPriority m) (prilPriority m x) q).getLast? = some x
  prevHead : ∀ x ∈ q, (m.type x).head = true → ∃ t, m.prev x = .next t ∧
    (level (prilPriority m) (prilPriority m x) q).getLast? = some t
  prevRest : ∀ x ∈ q, (m.type x).head = false → ∃ y ∈ q, m.prev x = .next y ∧
    m.links (.next y) = some x
  find : ∀ i : Insertion, ∀ fuel, q.length < fuel → prilFindInsertion fuel m ph i =
    some (if i.head then (level (prilPriority m) i.prio q).head?
      else (level (prilPriority m) i.prio q).getLast?)

/-! ## From the levels -/

theorem Levels.ne_nil (h : Levels m c ls) :
    ∀ l ∈ ls, l ≠ [] := by
  induction ls generalizing c with
  | nil => simp
  | cons l ls ih => exact forall_mem_cons.mpr ⟨h.1.ne, ih h.2.2⟩

theorem Levels.length_le
    (h : Levels m c ls) : ls.length ≤ ls.flatten.length := by
  have hne := h.ne_nil
  clear h
  induction ls with
  | nil => simp
  | cons l ls ih =>
    have h1 := length_pos_iff.mpr (hne l (by simp))
    have h2 := ih (fun l' hl' => hne l' (by simp [hl']))
    simp only [length_cons, flatten_cons, length_append]
    omega

theorem Levels.level_eq {ls1 ls2 : List (List A)} {l : List A}
    {n : Nat} (h : Levels m c (ls1 ++ l :: ls2)) (hn : ∀ x ∈ l, prilPriority m x = n) :
    level (prilPriority m) n (ls1 ++ l :: ls2).flatten = l := by
  have hlev : Levels m (endCell c ls1.flatten) (l :: ls2) := levels_append h
  obtain ⟨a, ha⟩ : ∃ a, a ∈ l := exists_mem_of_ne_nil l hlev.1.ne
  have h1 : level (prilPriority m) n ls1.flatten = [] := level_eq_nil fun x hx => by
    have := levels_lt h x hx a (by simp [ha])
    have := hn a ha
    omega
  have h2 : level (prilPriority m) n ls2.flatten = [] := level_eq_nil fun x hx => by
    have := hlev.2.1 a ha x hx
    have := hn a ha
    omega
  rw [flatten_append, flatten_cons, level_append, level_append, h1, h2,
    level_eq_self hn]
  simp

theorem Levels.find (h : Levels m (.head ph) ls)
    (i : Insertion) (hf : ls.length < fuel) :
    prilFindInsertion fuel m ph i = some (if i.head then (level (prilPriority m) i.prio ls.flatten).head?
      else (level (prilPriority m) i.prio ls.flatten).getLast?) := by
  obtain ⟨ls1, ls2, rfl, habove, hcase⟩ := findLevel_levels (n := i.prio) h hf
  rcases hcase with ⟨l, ls3, a, t, rfl, hl, ha, ht, hfind⟩ | ⟨hbelow, hfind⟩
  · have hne : l ≠ [] := by rintro rfl; simp at ha
    rw [h.level_eq hl, ha, (endCell_eq_next hne).mp ht, prilFindInsertion, hfind]
    cases i.head <;> rfl
  · have h0 : level (prilPriority m) i.prio (ls1 ++ ls2).flatten = [] := by
      apply level_eq_nil
      intro x hx
      rw [flatten_append, mem_append] at hx
      rcases hx with hx | hx
      · have := habove x hx; omega
      · have := hbelow x hx; omega
    rw [h0, prilFindInsertion, hfind]
    cases i.head <;> rfl

theorem Levels.desc (h : Levels m c ls) :
    Desc (prilPriority m) ls.flatten := by
  induction ls generalizing c with
  | nil => exact Desc.nil
  | cons l ls ih =>
    obtain ⟨hl, hlt, hls⟩ := h
    rw [flatten_cons]
    refine desc_append.mpr ⟨?_, ih hls, fun a ha b hb => Nat.le_of_lt (hlt a ha b hb)⟩
    exact List.Pairwise.imp_of_mem (fun ha hb _ => Nat.le_of_eq (hl.prio _ hb _ ha))
      (pairwise_of_forall fun _ _ => trivial)

/-- Levels whose entries are the history in priority order are the list. -/
theorem Levels.prilList
    (h : Levels m (.head ph) ls) (ho : Orders (prilPriority m) ls.flatten hist) :
    PrilList m ph ls.flatten hist := by
  -- the entry `x` of the list, in its level
  have hsplit : ∀ x ∈ ls.flatten, ∃ c l l1 l2, l = l1 ++ x :: l2 ∧ LevelOk m c l ∧ l.Nodup ∧
      level (prilPriority m) (prilPriority m x) ls.flatten = l ∧ ∀ y ∈ l, y ∈ ls.flatten := by
    intro x hx
    obtain ⟨l, hl, hxl⟩ := mem_flatten.mp hx
    obtain ⟨ls1, ls2, rfl⟩ := append_of_mem hl
    obtain ⟨l1, l2, rfl⟩ := append_of_mem hxl
    have hlev : Levels m (endCell (.head ph) ls1.flatten) ((l1 ++ x :: l2) :: ls2) := levels_append h
    have hnd := h.chain.nodup
    rw [flatten_append, flatten_cons] at hnd
    refine ⟨_, _, l1, l2, rfl, hlev.1, (nodup_append.mp (nodup_append.mp hnd).2.1).1,
      h.level_eq fun y hy => hlev.1.prio y hy x hxl, fun y hy => ?_⟩
    rw [flatten_append, flatten_cons]
    exact mem_append_right _ (mem_append_left _ hy)
  refine ⟨h.chain, ho, ?_, ?_, ?_, ?_, fun i fuel hf => h.find i (Nat.lt_of_le_of_lt h.length_le hf)⟩
  · intro x hx
    obtain ⟨c, l, l1, l2, rfl, hok, hnd, hlevel, -⟩ := hsplit x hx
    rw [hlevel]
    exact hok.heads x (by simp)
  · intro x hx
    obtain ⟨c, l, l1, l2, rfl, hok, hnd, hlevel, -⟩ := hsplit x hx
    rw [hlevel, ← endCell_eq_next hok.ne (c := c)]
    exact hok.tails x (by simp)
  · intro x hx hhead
    obtain ⟨c, l, l1, l2, rfl, hok, hnd, hlevel, -⟩ := hsplit x hx
    have hx' := (hok.heads x (by simp)).mp hhead
    refine ⟨_, (hok.prevHead x hx').trans (endCell_eq_getLast hok.ne c), ?_⟩
    rw [hlevel, getLast?_eq_some_getLast hok.ne]
  · intro x hx hhead
    obtain ⟨c, l, l1, l2, rfl, hok, hnd, hlevel, hsub⟩ := hsplit x hx
    obtain ⟨hh, -, -, hprev⟩ := hok.at hnd
    have hne : l1 ≠ [] := fun e => by rw [hh.mpr e] at hhead; simp at hhead
    have hlast := endCell_eq_getLast hne c
    refine ⟨l1.getLast hne, hsub _ (by simp [getLast_mem hne]),
      (hprev hne).trans hlast, ?_⟩
    have hcell := Seg.mem_cell hok.seg
    rwa [hlast] at hcell

/-! ## Runs -/

/-- An operation on the list: an entry with the priority and `type` the caller
gave it, or a removal. -/
inductive PrilOp (A : Type) where
  | add (p : A) (priority : UInt8) (type : PrilType)
  | rem (p : A)

/-- The entry an operation is about. -/
def PrilOp.entry : PrilOp A → A
  | .add p _ _ => p
  | .rem p => p

/-- What was added and not removed, oldest first. -/
def PrilOp.history [DecidableEq A] : List (PrilOp A) → List A → List A
  | [], hist => hist
  | .add p _ _ :: ops, hist => history ops (hist ++ [p])
  | .rem p :: ops, hist => history ops (hist.erase p)

/-- Entries are added while off the list and removed while on it. -/
def PrilOp.Valid [DecidableEq A] : List (PrilOp A) → List A → Prop
  | [], _ => True
  | .add p _ _ :: ops, hist => p ∉ hist ∧ Valid ops (hist ++ [p])
  | .rem p :: ops, hist => p ∈ hist ∧ Valid ops (hist.erase p)

section Run
variable [DecidableEq Q] [DecidableEq A]

def prilStep (fuel : Nat) (ph : Q) (m : PrilMem Q A) : PrilOp A → Option (PrilMem Q A)
  | .add p priority type =>
    prilAdd fuel { m with priority := Function.update m.priority p priority
                          type := Function.update m.type p type } ph p
  | .rem p => prilRem fuel m ph p

def prilRun (fuel : Nat) (ph : Q) (m : PrilMem Q A) (ops : List (PrilOp A)) :
    Option (PrilMem Q A) :=
  ops.foldlM (prilStep fuel ph) m

/-- The levels of the list are the history in priority order. -/
def PrilInv (m : PrilMem Q A) (ph : Q) (hist : List A) : Prop :=
  ∃ ls, Levels m (.head ph) ls ∧ Orders (prilPriority m) ls.flatten hist

theorem prilStep_inv {op : PrilOp A}
    (h : PrilInv m ph hist) (hu : ∀ u ∈ m.updateList, u.pril ≠ some op.entry)
    (hv : PrilOp.Valid [op] hist) (hf : hist.length < fuel) :
    ∃ m', prilStep fuel ph m op = some m' ∧ PrilInv m' ph (PrilOp.history [op] hist) ∧
      m'.updateList = m.updateList := by
  obtain ⟨ls, hl, ho⟩ := h
  have hlen : ls.length < fuel := by
    have h1 := hl.length_le
    have h2 := (subperm_of_subset hl.chain.nodup fun x hx => ho.mem.mp hx).length_le
    omega
  cases op with
  | add p priority type =>
    obtain ⟨hp, -⟩ := hv
    have hpq : p ∉ ls.flatten := fun hm => hp (ho.mem.mp hm)
    have hne : ∀ x ∈ ls.flatten, x ≠ p := fun x hx e => hpq (e ▸ hx)
    generalize hm1 : ({ m with priority := Function.update m.priority p priority
                               type := Function.update m.type p type } : PrilMem Q A) = m1
    have hsame : SameEntries m m1 ls.flatten := by
      subst hm1
      exact ⟨fun _ _ => rfl, fun _ _ => rfl, fun x hx => Function.update_of_ne (hne x hx) _ _,
        fun x hx => Function.update_of_ne (hne x hx) _ _⟩
    have hl1 : Levels m1 (.head ph) ls := levels_entry (by subst hm1; rfl) hsame hl
    obtain ⟨m', ls', q1, q2, hrun, hl', ht, hq, hq', h1, h2⟩ := prilAdd_levels hl1 hpq hlen
    refine ⟨m', by rw [prilStep, hm1]; exact hrun, ⟨ls', hl', ?_⟩, ?_⟩
    · have ho1 := ho.congr hsame.prio
      rw [hq] at ho1
      rw [hq']
      exact (ho1.insert h1 h2).congr fun x _ => ht.prio x
    · rw [ht.updates, ← hm1]
  | rem p =>
    obtain ⟨hp, -⟩ := hv
    obtain ⟨m', ls', hrun, hl', ht, hq⟩ := prilRem_levels hl (ho.mem.mpr hp) hlen hu
    refine ⟨m', hrun, ⟨ls', hl', ?_⟩, ht.updates⟩
    rw [hq]
    exact (ho.erase p).congr fun x _ => ht.prio x

theorem prilRun_inv {ops : List (PrilOp A)}
    (h : PrilInv m ph hist) (hu : ∀ u ∈ m.updateList, ∀ op ∈ ops, u.pril ≠ some op.entry)
    (hv : PrilOp.Valid ops hist) (hf : hist.length + ops.length < fuel) :
    ∃ m', prilRun fuel ph m ops = some m' ∧ PrilInv m' ph (PrilOp.history ops hist) := by
  induction ops generalizing m hist with
  | nil => exact ⟨m, rfl, h⟩
  | cons op ops ih =>
    rw [length_cons] at hf
    have hstep : PrilOp.Valid [op] hist ∧ PrilOp.Valid ops (PrilOp.history [op] hist) := by
      cases op with
      | add p priority type => exact ⟨⟨hv.1, trivial⟩, hv.2⟩
      | rem p => exact ⟨⟨hv.1, trivial⟩, hv.2⟩
    have hlen : (PrilOp.history [op] hist).length ≤ hist.length + 1 := by
      cases op with
      | add p priority type => simp [PrilOp.history]
      | rem p =>
        have := length_erase_le (a := p) (l := hist)
        simp only [PrilOp.history]
        omega
    obtain ⟨m1, hrun, hinv, hu1⟩ := prilStep_inv h
      (fun u hmem => hu u hmem op (by simp)) hstep.1 (show hist.length < fuel by omega)
    obtain ⟨m', hrun', hinv'⟩ := ih hinv
      (fun u hmem o ho => hu u (hu1 ▸ hmem) o (.tail _ ho)) hstep.2 (by omega)
    refine ⟨m', ?_, ?_⟩
    · simp only [prilRun, foldlM_cons] at hrun' ⊢
      rw [hrun]
      exact hrun'
    · have : PrilOp.history (op :: ops) hist = PrilOp.history ops (PrilOp.history [op] hist) := by
        cases op <;> rfl
      rw [this]
      exact hinv'

/-- **The priority list is the stable priority queue.** Every run of `pril_add`
and `pril_rem` on an empty list, with entries of any priority and
`TYPE_FLAG_FIRST` removed at any position, ends (it needs no more fuel than it
has operations) with the history in priority order on the list, laid out as the
comment in the source draws it. Positions registered for updates are those of
readers of other lists. -/
theorem pril_run (m : PrilMem Q A) (ph : Q) (ops : List (PrilOp A)) (fuel : Nat)
    (hempty : m.links (.head ph) = none)
    (hupd : ∀ u ∈ m.updateList, ∀ op ∈ ops, u.pril ≠ some op.entry)
    (hv : PrilOp.Valid ops []) (hf : ops.length < fuel) :
    ∃ m' q, prilRun fuel ph m ops = some m' ∧ PrilList m' ph q (PrilOp.history ops []) := by
  have h₀ : PrilInv m ph [] := ⟨[], hempty, Orders.nil⟩
  obtain ⟨m', hrun, ls, hl, ho⟩ := prilRun_inv h₀ hupd hv (by simpa using hf)
  exact ⟨m', ls.flatten, hrun, hl.prilList ho⟩

end Run

/-- Two entries of one level and one of a higher one, the older of the two
removed again. -/
theorem pril_run_three :
    ∃ m' q, prilRun 5 0 ⟨fun _ => none, fun a => .next a, fun _ => ⟨.pulse, false, false, false, false⟩,
        fun _ => 0, []⟩
        [.add 1 10 ⟨.pulse, false, false, false, false⟩, .add 2 10 ⟨.vthread, false, true, true, false⟩,
          .add 3 10 ⟨.pulse, true, false, false, false⟩, .rem 1] = some m' ∧
      PrilList m' (0 : Nat) q [(2 : Nat), 3] :=
  pril_run _ _ _ 5 rfl (by simp) (by simp [PrilOp.Valid]) (by decide)

end QRV.Nano
