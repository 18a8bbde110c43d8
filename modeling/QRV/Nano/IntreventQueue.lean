import QRV.Lib.Call
import QRV.Nano.Intrevent

/- Where the entries of the interrupt event queue are. Each allocated entry is in one place: pending, on
   the free list, in the list that is being drained, or in the hands of a call of intrevent_add. The
   tail pointer is the end of the pending list, `preempt_ev` can only be its first entry, and what was
   queued is executed, cancelled or still to come, in the order in which it was queued (`Sound`).

   The sections of intrevent_add, event_add, intrevent_preemption and intrevent_drain keep this; one
   entry is on its way from one place to another in the middle of them (`loose`). -/
open Call (Returns)

namespace QRV.Nano.Intrevent
open Function (update update_of_ne update_self)
open List hiding Chain
open LinkCell

variable {P : Type} {st : State P} {dummy : Bool} {evs free work loose : List Node}
variable {x irp : Node} {phase : Phase} {needMore : Bool}

/-- `preempt_ev`, if it is there. -/
def pre : Bool → List Node
  | true => [.preemptEv]
  | false => []

def Call.held : Call P → Option Node
  | .masking _ irp => some irp
  | _ => none

/-- The entries that calls of intrevent_add have taken. -/
def held (calls : List (Call P)) : List Node := calls.filterMap Call.held

/-- The entries of the list that is being drained. -/
def Work (L : Links Head Node) : Phase → List Node → Prop
  | .exec irp _, work => ∃ rest, work = irp :: rest ∧ Chain L (.next irp) rest
  | .put irp next _, work => ∃ rest, work = irp :: rest ∧ next = rest.head? ∧
      ∀ x l, rest = x :: l → Chain L (.next x) l
  | _, work => work = []

/-- Those that have not been acted on. -/
def Phase.todo : Phase → List Node → List Node
  | .put _ _ _, work => work.tail
  | _, work => work

structure Sound (st : State P) (dummy : Bool) (evs free work loose : List Node) : Prop where
  pending : Chain st.links (.head .pending) (pre dummy ++ evs)
  tail : st.tail = endCell (.head .pending) (pre dummy ++ evs)
  freeList : Chain st.links (.head .free) free
  count : st.numPevFree = free.length
  draining : Work st.links st.phase work
  /-- Each entry is in one place. -/
  total : (evs ++ (free ++ (work ++ (loose ++ held st.calls)))).Perm
    ((List.range (st.numPevAlloc + st.phase.uncounted)).map Node.ev)
  /-- An entry that is filled in has a thread. -/
  thread : ∀ x ∈ st.phase.todo work ++ (evs ++ held st.calls), ∃ prp, st.thread x = some prp
  /-- What was queued has been executed, will be, or was cancelled. -/
  once : (st.executed ++ ((st.phase.todo work ++ evs).map st.tag ++ st.cancelled)).Perm (List.range st.queued)
  /-- Events are executed in the order in which they were queued. -/
  order : ((st.executed ++ (st.phase.todo work ++ evs).map st.tag).filter (· ∉ st.kills)).Pairwise (· < ·)
  kills : ∀ k ∈ st.kills, k < st.queued
  /-- The counters do not wrap around. -/
  bound : st.numPevAlloc + st.phase.uncounted < 2 ^ 32

namespace Sound

section
variable (h : Sound st dummy evs free work loose)
include h

theorem nodup : (evs ++ (free ++ (work ++ (loose ++ held st.calls)))).Nodup :=
  h.total.nodup_iff.mpr (nodup_range.map fun _ _ => Node.ev.inj)

theorem ne_preemptEv (hx : x ∈ evs ++ (free ++ (work ++ (loose ++ held st.calls)))) : x ≠ .preemptEv := by
  obtain ⟨n, -, rfl⟩ := mem_map.mp (h.total.mem_iff.mp hx)
  nofun

theorem evs_apart (hx : x ∈ evs) : x ∉ free ∧ x ∉ work ∧ x ∉ loose ∧ x ∉ held st.calls := by
  have hdisj := (nodup_append.mp h.nodup).2.2 x hx
  refine ⟨fun hy => hdisj x ?_ rfl, fun hy => hdisj x ?_ rfl, fun hy => hdisj x ?_ rfl, fun hy => hdisj x ?_ rfl⟩
  all_goals simp [hy]

theorem free_apart (hx : x ∈ free) : x ∉ work ∧ x ∉ loose ∧ x ∉ held st.calls := by
  have hdisj := (nodup_append.mp (nodup_append.mp h.nodup).2.1).2.2 x hx
  refine ⟨fun hy => hdisj x ?_ rfl, fun hy => hdisj x ?_ rfl, fun hy => hdisj x ?_ rfl⟩
  all_goals simp [hy]

theorem work_apart (hx : x ∈ work) : x ∉ loose ∧ x ∉ held st.calls := by
  have hdisj := (nodup_append.mp (nodup_append.mp (nodup_append.mp h.nodup).2.1).2.1).2.2 x hx
  refine ⟨fun hy => hdisj x ?_ rfl, fun hy => hdisj x ?_ rfl⟩
  all_goals simp [hy]

/-- An entry that is in none of the lists is none of the pending ones. -/
theorem not_pending (hx : x ∈ free ++ (work ++ loose)) : x ∉ pre dummy ++ evs := by
  intro hmem
  rcases mem_append.mp hmem with hpre | hevs
  · have hpre' : x = .preemptEv := by
      cases dummy with
      | true => exact mem_singleton.mp hpre
      | false => cases hpre
    refine h.ne_preemptEv ?_ hpre'
    simp only [mem_append] at hx ⊢
    tauto
  · obtain ⟨hf, hw, hl, -⟩ := h.evs_apart hevs
    simp only [mem_append] at hx
    tauto

theorem number : evs.length + free.length + work.length + loose.length + (held st.calls).length =
      st.numPevAlloc + st.phase.uncounted := by
  have hlen := h.total.length_eq
  simp only [length_append, length_map, length_range] at hlen
  omega

theorem free_lt (hloose : loose ≠ []) : free.length + 1 < 2 ^ 32 := by
  have hnumber := h.number
  have hbound := h.bound
  have hpos := length_pos_iff.mpr hloose
  omega

theorem moved {evs' free' work' loose' : List Node} {calls : List (Call P)}
    (hcount : ∀ a, (evs' ++ (free' ++ (work' ++ (loose' ++ held calls)))).count a =
      (evs ++ (free ++ (work ++ (loose ++ held st.calls)))).count a) :
    (evs' ++ (free' ++ (work' ++ (loose' ++ held calls)))).Perm
      ((range (st.numPevAlloc + st.phase.uncounted)).map Node.ev) :=
  (perm_iff_count.mpr hcount).trans h.total

end

theorem rephase (h : Sound st dummy evs free work []) {phase : Phase} {work' : List Node}
    (hwork : Work st.links phase work') (htodo : phase.todo work' = st.phase.todo work)
    (huncounted : phase.uncounted = st.phase.uncounted) (hloose : (work' ++ loose).Perm work) :
    Sound { st with phase := phase } dummy evs free work' loose := by
  refine ⟨h.pending, h.tail, h.freeList, h.count, hwork, ?_, ?_, ?_, ?_, h.kills, huncounted ▸ h.bound⟩
  · rw [huncounted, ← append_assoc work']
    exact (((hloose.append_right _).append_left free).append_left evs).trans h.total
  all_goals dsimp only; rw [htodo]
  · exact h.thread
  · exact h.once
  · exact h.order

end Sound

/-! ## Stores that do not touch a list -/

theorem Work.congr {L L' : Links Head Node} (h : Work L phase work)
    (hL : ∀ x ∈ work, L' (.next x) = L (.next x)) : Work L' phase work := by
  cases phase with
  | exec irp needMore =>
    obtain ⟨rest, rfl, hchain⟩ := h
    refine ⟨rest, rfl, chain_entry (hL irp mem_cons_self) (fun x hx => ?_) hchain⟩
    exact hL x (.tail _ hx)
  | put irp next needMore =>
    obtain ⟨rest, rfl, hnext, hchain⟩ := h
    refine ⟨rest, rfl, hnext, fun x l heq => ?_⟩
    subst heq
    refine chain_entry (hL x (by simp)) (fun y hy => ?_) (hchain x l rfl)
    exact hL y (by simp [hy])
  | _ => exact h

section
variable (h : Sound st dummy evs free work loose)
include h

theorem Sound.tail_mem :
    st.tail ∈ .head .pending :: (pre dummy ++ evs).map Cell.next := h.tail ▸ endCell_mem _ _

theorem Sound.tail_off_free : st.tail ∉ .head .free :: free.map Cell.next := by
  refine cells_off (by decide) (fun x hx hfree => ?_) h.tail_mem
  exact h.not_pending (mem_append_left _ hfree) hx

theorem Sound.tail_ne_next (hx : x ∈ free ++ (work ++ loose)) : (.next x : Cell Head Node) ≠ st.tail := by
  intro heq
  have hmem := h.tail_mem
  rw [← heq] at hmem
  exact next_off (h.not_pending hx) hmem

omit h in
theorem todo_subset (hx : x ∈ phase.todo work) : x ∈ work := by
  cases phase with
  | put irp next needMore => exact mem_of_mem_tail hx
  | _ => exact hx

theorem Sound.lt_queued {n : Nat}
    (hn : n ∈ st.executed ++ (st.phase.todo work ++ evs).map st.tag) : n < st.queued := by
  refine mem_range.mp (h.once.mem_iff.mp ?_)
  rw [← append_assoc]
  exact mem_append_left _ hn

end

/-! ## An entry on its way -/

theorem Sound.pop (h : Sound st dummy evs free work []) (hirp : st.links (.head .free) = some irp)
    (prp : P) : ∃ free', Sound
      { st with
        links := st.links.set (.head .free) (st.links (.next irp))
        thread := update st.thread irp (some prp)
        numPevFree := (st.numPevFree + 2 ^ 32 - 1) % 2 ^ 32 } dummy evs free' work [irp] := by
  have hfree := h.freeList
  cases free with
  | nil =>
    rw [Chain, hirp] at hfree
    cases hfree
  | cons x free' =>
    obtain rfl : x = irp := Option.some.inj (hfree.1.symm.trans hirp)
    have hx : x ∈ x :: free' := mem_cons_self
    refine ⟨free', ?_, h.tail, chain_pop hfree, ?_, ?_, ?_, fun y hy => ?_, h.once, h.order, h.kills, h.bound⟩
    · refine (chain_set_off ?_).mpr h.pending
      exact head_off (by decide)
    · have hcount := h.count
      have hnumber := h.number
      have hbound := h.bound
      simp only [length_cons] at hcount hnumber
      dsimp only
      omega
    · refine h.draining.congr fun y _ => ?_
      dsimp only
      rw [set_head_next]
    · refine h.moved fun a => ?_
      simp only [count_append, count_cons, count_nil]
      omega
    · have hne : y ≠ x := by
        rintro rfl
        rcases mem_append.mp hy with hy | hy
        · exact (h.free_apart hx).1 (todo_subset hy)
        · rcases mem_append.mp hy with hy | hy
          · exact (h.evs_apart hy).1 hx
          · exact (h.free_apart hx).2.2 hy
      dsimp only at hy ⊢
      rw [update_of_ne hne]
      exact h.thread y hy

section
variable (h : Sound st dummy evs free work [irp]) {prp : P} (hthread : st.thread irp = some prp)
include h hthread

theorem Sound.enqueue (prio : Nat) :
    Sound (enqueue irp prio st) dummy (evs ++ [irp]) free work [] := by
  have hmem : irp ∈ free ++ (work ++ [irp]) := by simp
  have hnot := h.not_pending hmem
  have hevs : irp ∉ evs := fun hx => (h.evs_apart hx).2.2.1 (mem_singleton_self _)
  have hfree : irp ∉ free := fun hx => (h.free_apart hx).2.1 (mem_singleton_self _)
  have hwork : irp ∉ work := fun hx => (h.work_apart hx).1 (mem_singleton_self _)
  have hmap : (st.phase.todo work ++ evs).map (update st.tag irp st.queued) =
      (st.phase.todo work ++ evs).map st.tag := by
    refine map_congr_left fun x hx => update_of_ne ?_ _ _
    rintro rfl
    rcases mem_append.mp hx with hx | hx
    · exact hwork (todo_subset hx)
    · exact hevs hx
  have hlast : (st.phase.todo work ++ (evs ++ [irp])).map (update st.tag irp st.queued) =
      (st.phase.todo work ++ evs).map st.tag ++ [st.queued] := by
    rw [← append_assoc, map_append, hmap, map_singleton, update_self]
  refine ⟨?_, ?_, ?_, h.count, ?_, ?_, fun x hx => ?_, ?_, ?_, fun k hk => Nat.lt_succ_of_lt (h.kills k hk), h.bound⟩
  all_goals simp only [Intrevent.enqueue]
  · rw [← append_assoc]
    have hqueue : Chain st.links (.head .pending) (pre dummy ++ evs ++ []) := by
      rw [append_nil]
      exact h.pending
    exact chain_link h.tail.symm (h.tail ▸ ((chain_iff_seg _ _ _).mp h.pending).2) hqueue (by rwa [append_nil])
  · rw [← append_assoc, endCell_concat]
  · exact (chain_set_off h.tail_off_free).mpr ((chain_set_off (next_off hfree)).mpr h.freeList)
  · refine h.draining.congr fun x hx => ?_
    have hne : (.next x : Cell Head Node) ≠ .next irp := fun heq => hwork (Cell.next.inj heq ▸ hx)
    rw [set_off (h.tail_ne_next (by simp [hx])), set_off hne]
  · refine h.moved fun a => ?_
    simp only [count_append, count_nil]
    omega
  · by_cases hne : x = irp
    · exact ⟨prp, hne ▸ hthread⟩
    · refine h.thread x ?_
      simpa [Intrevent.enqueue, hne] using hx
  · rw [hlast, range_succ]
    refine List.Perm.trans (perm_iff_count.mpr fun a => ?_) (h.once.append_right [st.queued])
    simp only [count_append]
    omega
  · rw [hlast, ← append_assoc, filter_append]
    refine pairwise_append.mpr ⟨h.order, List.Pairwise.sublist filter_sublist (pairwise_singleton _ _),
      fun n hn m hm => ?_⟩
    rw [mem_singleton.mp (mem_of_mem_filter hm)]
    exact h.lt_queued (mem_of_mem_filter hn)

theorem Sound.hold (c : Add P) :
    Sound ((Call.masking c irp).push st) dummy evs free work [] := by
  refine ⟨h.pending, h.tail, h.freeList, h.count, h.draining, h.total, fun x hx => ?_, h.once, h.order, h.kills, h.bound⟩
  by_cases hne : x = irp
  · exact ⟨prp, hne ▸ hthread⟩
  · refine h.thread x ?_
    simpa [Call.push, held, Call.held, hne] using hx

end

theorem Sound.push (h : Sound st dummy evs free work loose) {call : Call P} (hcall : call.held = none) :
    Sound (call.push st) dummy evs free work loose := by
  have hheld : held (call :: st.calls) = held st.calls := by rw [held, filterMap_cons, hcall, held]
  refine ⟨h.pending, h.tail, h.freeList, h.count, h.draining, ?_, ?_, h.once, h.order, h.kills, h.bound⟩
  all_goals simp only [Call.push, hheld]
  · exact h.total
  · exact h.thread

theorem Sound.release (h : Sound st dummy evs free work []) {i : Nat} {call : Call P}
    (hcall : st.calls[i]? = some call) :
    Sound { st with calls := st.calls.eraseIdx i } dummy evs free work call.held.toList := by
  refine ⟨h.pending, h.tail, h.freeList, h.count, h.draining, ?_, fun x hx => ?_, h.once, h.order, h.kills, h.bound⟩
  rotate_left
  · refine h.thread x ?_
    have hsub : held (st.calls.eraseIdx i) ⊆ held st.calls :=
      ((eraseIdx_sublist _ _).filterMap Call.held).subset
    simp only [mem_append] at hx ⊢
    exact hx.imp_right (Or.imp_right (@hsub x))
  obtain ⟨hi, hget⟩ := List.getElem?_eq_some_iff.mp hcall
  have hperm : (held (call :: st.calls.eraseIdx i)).Perm (held st.calls) := by
    refine List.Perm.filterMap _ ?_
    rw [← hget]
    exact getElem_cons_eraseIdx_perm hi
  have hheld : held (call :: st.calls.eraseIdx i) = call.held.toList ++ held (st.calls.eraseIdx i) := by
    rw [held, filterMap_cons]
    cases call.held <;> rfl
  rw [hheld] at hperm
  refine h.moved fun a => ?_
  have hcount := hperm.count_eq a
  simp only [count_append, count_nil] at hcount ⊢
  omega

theorem Sound.giveBack (h : Sound st dummy evs free work (irp :: loose)) :
    Sound { st with
      links := (st.links.set (.next irp) (st.links (.head .free))).set (.head .free) (some irp)
      numPevFree := (st.numPevFree + 1) % 2 ^ 32 } dummy evs (irp :: free) work loose := by
  have hmem : irp ∈ irp :: loose := mem_cons_self
  have hnot := h.not_pending (mem_append_right free (mem_append_right work hmem))
  have hfree : irp ∉ free := fun hx => (h.free_apart hx).2.1 hmem
  have hwork : irp ∉ work := fun hx => (h.work_apart hx).1 hmem
  refine ⟨?_, h.tail, chain_push h.freeList hfree, ?_, ?_, ?_, h.thread, h.once, h.order, h.kills, h.bound⟩
  · refine (chain_set_off ?_).mpr ((chain_set_off (next_off hnot)).mpr h.pending)
    exact head_off (by decide)
  · rw [length_cons, h.count, Nat.mod_eq_of_lt (h.free_lt (cons_ne_nil _ _))]
  · refine h.draining.congr fun x hx => ?_
    have hne : (.next x : Cell Head Node) ≠ .next irp := fun heq => hwork (Cell.next.inj heq ▸ hx)
    dsimp only
    rw [set_head_next, set_off hne]
  · refine h.moved fun a => ?_
    simp only [count_append, count_cons]
    omega

theorem Sound.held_thread (h : Sound st dummy evs free work loose) {i : Nat} {c : Add P}
    (hcall : st.calls[i]? = some (.masking c irp)) : ∃ prp, st.thread irp = some prp := by
  refine h.thread irp (mem_append_right _ (mem_append_right _ ?_))
  exact mem_filterMap.mpr ⟨_, mem_of_getElem? hcall, rfl⟩

/-! ## The sections -/

/-- What holds between the sections: no entry is on its way. -/
def Queue (st : State P) : Prop := ∃ dummy evs free work, Sound st dummy evs free work []

section
variable (h : Sound st dummy evs free work [])
include h

theorem Sound.queue : Queue st := ⟨_, _, _, _, h⟩

theorem take_sound (nopreempt : Bool) (c : Add P) : Queue (take nopreempt c st) := by
  rw [take]
  split
  · exact (h.push rfl).queue
  · next irp hirp =>
    obtain ⟨free', h'⟩ := h.pop hirp c.proc
    have hthread : update st.thread irp (some c.proc) irp = some c.proc := update_self _ _ _
    dsimp only
    split
    · split
      · exact (h'.hold hthread c).queue
      · exact (h'.enqueue hthread numPri).queue
    · exact (h'.enqueue hthread _).queue

theorem eventAdd_sound (nopreempt : Bool) (c : Add P) : Returns (eventAdd nopreempt c st) Queue := by
  rw [eventAdd]
  split
  · next hroom =>
    split
    · next hnone =>
      -- there are free entries if the counter says so
      have hfree : free = [] := Chain.unique h.freeList hnone
      rw [h.count, hfree] at hroom
      exact absurd hroom (Nat.not_lt_zero _)
    · next irp hirp =>
      obtain ⟨free', h'⟩ := h.pop hirp c.proc
      have hthread : update st.thread irp (some c.proc) irp = some c.proc := update_self _ _ _
      exact .done (h'.enqueue hthread _).queue
  · exact .done h.queue

theorem preemption_sound (nopreempt : Bool) (prio : Nat) : Queue (preemption nopreempt prio st) := by
  rw [preemption]
  split
  · exact h.queue
  · split
    · dsimp only
      split
      · next hnone =>
        have hempty : pre dummy ++ evs = [] := Chain.unique h.pending hnone
        obtain ⟨hdummy, rfl⟩ := append_eq_nil_iff.mp hempty
        have htail : st.tail = .head .pending := by rw [h.tail, hempty, endCell_nil]
        have hnot : ∀ {l : List Node}, (∀ x ∈ l, x ∈ [] ++ (free ++ (work ++ ([] ++ held st.calls)))) →
            Node.preemptEv ∉ l := fun hl hmem => h.ne_preemptEv (hl _ hmem) rfl
        refine ⟨true, [], free, work, ?_, rfl, ?_, h.count, ?_, h.total, h.thread, h.once, h.order, h.kills, h.bound⟩
        · dsimp only
          rw [htail]
          refine ⟨set_self _ _ _, ?_⟩
          change _ = none
          rw [set_head_next, set_self]
        · rw [htail]
          refine (chain_set_off ?_).mpr ((chain_set_off (next_off (hnot fun x hx => ?_))).mpr h.freeList)
          · exact head_off (by decide)
          · simp [hx]
        · dsimp only
          rw [htail]
          refine h.draining.congr fun x hx => ?_
          have hne : (.next x : Cell Head Node) ≠ .next .preemptEv := fun heq =>
            h.ne_preemptEv (by simp [hx]) (Cell.next.inj heq)
          rw [set_head_next, set_off hne]
      · exact ⟨_, _, _, _, h.pending, h.tail, h.freeList, h.count, h.draining, h.total, h.thread, h.once, h.order, h.kills, h.bound⟩
    · exact h.queue

end

/-! ## Draining -/

theorem Sound.first (h : Sound st dummy evs free work loose) :
    (if st.links (.head .pending) = some .preemptEv then (st.links.set (.head .pending) none) (.next .preemptEv)
      else st.links (.head .pending)) = evs.head? := by
  have hqueue := h.pending
  cases dummy with
  | true =>
    rw [if_pos hqueue.1, set_head_next]
    exact hqueue.2.first
  | false =>
    rw [show st.links (.head .pending) = evs.head? from hqueue.first, if_neg fun hp => ?_]
    exact h.ne_preemptEv (mem_append_left _ (mem_of_mem_head? hp)) rfl

theorem Sound.behind (h : Sound st dummy (x :: evs) free work loose) : Chain st.links (.next x) evs := by
  have hqueue := h.pending
  cases dummy with
  | true => exact hqueue.2.2
  | false => exact hqueue.2

theorem Sound.takeAll (h : Sound st dummy evs free [] []) {prio : Nat}
    (hphase : st.phase.todo [] = [] ∧ st.phase.uncounted = 0) (hevs : phase.todo evs = evs ∧ phase.uncounted = 0)
    (hwork : Work (st.links.set (.head .pending) none) phase evs) :
    Sound { st with
      links := st.links.set (.head .pending) none
      tail := .head .pending
      queuedEventPriority := prio
      phase := phase } false [] free evs [] := by
  have htotal := h.total
  have hthread := h.thread
  have honce := h.once
  have horder := h.order
  rw [hphase.1, nil_append] at hthread honce horder
  rw [hphase.2] at htotal
  have hempty : Chain (st.links.set (.head .pending) none) (.head .pending) [] := set_self _ _ _
  refine ⟨hempty, rfl, ?_, h.count, hwork, ?_, ?_, ?_, ?_, h.kills, hevs.2 ▸ hphase.2 ▸ h.bound⟩
  · exact (chain_set_off (head_off (by decide))).mpr h.freeList
  all_goals simp only [hevs, append_nil, nil_append]
  · refine List.Perm.trans (perm_iff_count.mpr fun a => ?_) htotal
    simp only [count_append, count_nil]
    omega
  · exact hthread
  · exact honce
  · exact horder

/-- How many steps a drain can still take, if no event comes in. -/
def Phase.left (evs work : List Node) : Phase → Nat
  | .idle => 0
  | .account _ => 1
  | .grow _ => 2
  | .top _ => 3 * evs.length + 4
  | .exec _ _ => 2 * work.length + 3 * evs.length + 4
  | .put _ _ _ => 2 * work.length + 3 * evs.length + 3

/-- The counters have room for the entries that intrevent_alloc gets. -/
def State.room (st : State P) (got : Nat) : Prop :=
  match st.phase with
  | .grow true => st.numPevAlloc + min got (st.numPevAlloc / 4) < 2 ^ 32
  | _ => True

/-- The same from the start of the drain on. -/
def State.roomy (st : State P) (got : Nat) : Prop :=
  match st.phase with
  | .idle | .account _ => True
  | _ => st.numPevAlloc + got < 2 ^ 32

theorem State.roomy.room {got : Nat} (h : st.roomy got) : st.room got := by
  unfold State.roomy at h
  unfold State.room
  cases hphase : st.phase with
  | grow needMore =>
    rw [hphase] at h
    cases needMore with
    | false => trivial
    | true => exact Nat.lt_of_le_of_lt (Nat.add_le_add_left (Nat.min_le_left _ _) _) h
  | _ => trivial

/-- A step of the drain: there is less to do, nothing is queued or cancelled, and once the queue has been found
empty it stays so. -/
structure Goes (st : State P) (got : Nat) (dummy : Bool) (evs work : List Node) (st' : State P) (dummy' : Bool)
    (evs' work' : List Node) : Prop where
  left : st'.phase.left evs' work' < st.phase.left evs work
  clear : (st.phase.active = false → dummy = false ∧ evs = []) → st'.phase.active = false → dummy' = false ∧ evs' = []
  roomy : st.roomy got → st'.roomy got
  queued : st'.queued = st.queued
  cancelled : st'.cancelled = st.cancelled

/-- The next state of a drain. -/
def Drains (st : State P) (got : Nat) (dummy : Bool) (evs work : List Node) (st' : State P) : Prop :=
  ∃ dummy' evs' free' work', Sound st' dummy' evs' free' work' [] ∧ Goes st got dummy evs work st' dummy' evs' work'

section
variable (h : Sound st dummy evs free work [])
include h

theorem drain_top (hphase : st.phase = .top needMore) (got : Nat) :
    Returns (drainStep got st) (Drains st got dummy evs work) := by
  have hwork := h.draining
  rw [hphase] at hwork
  obtain rfl : work = [] := hwork
  have hroomy : st.roomy got → st.numPevAlloc + got < 2 ^ 32 := by simp [State.roomy, hphase]
  simp only [drainStep, hphase, h.first]
  refine .done ⟨false, [], free, evs, h.takeAll (by rw [hphase]; exact ⟨rfl, rfl⟩) ?_ ?_, ?_, ?_, ?_, rfl, rfl⟩
  · cases evs <;> exact ⟨rfl, rfl⟩
  · cases evs with
    | nil => rfl
    | cons x l =>
      refine ⟨l, rfl, (chain_set_off ?_).mpr h.behind⟩
      simp
  · rw [hphase]
    cases evs with
    | nil => exact (by decide : 2 < 4)
    | cons x l =>
      simp only [head?_cons, Phase.left, length_cons, length_nil]
      omega
  · exact fun _ _ => ⟨rfl, rfl⟩
  · cases evs <;> exact hroomy

theorem drain_exec (hphase : st.phase = .exec irp needMore) (got : Nat) :
    Returns (drainStep got st) (Drains st got dummy evs work) := by
  cases st
  cases hphase
  obtain ⟨rest, rfl, hchain⟩ := h.draining
  obtain ⟨prp, hprp⟩ := h.thread irp (by simp [Phase.todo])
  have hne : irp ≠ .preemptEv := h.ne_preemptEv (by simp)
  simp only at hprp
  simp only [drainStep, hprp, hne, if_false, and_false, reduceCtorEq]
  refine .done ⟨dummy, evs, free, irp :: rest, ⟨h.pending, h.tail, h.freeList, h.count, ⟨rest, rfl, ?_, ?_⟩, h.total,
    fun x hx => h.thread x (.tail _ hx), ?_, ?_, h.kills, h.bound⟩, Nat.lt_succ_self _, fun _ hidle => (nomatch hidle),
    id, rfl, rfl⟩
  · exact hchain.first
  · rintro x l rfl
    exact hchain.2
  · simpa [Phase.todo] using h.once
  · simpa [Phase.todo] using h.order

theorem drain_put {next : Option Node} (hphase : st.phase = .put irp next needMore)
    (got : Nat) : Returns (drainStep got st) (Drains st got dummy evs work) := by
  have hwork := h.draining
  rw [hphase] at hwork
  obtain ⟨rest, rfl, hnext, hchain⟩ := hwork
  have hroomy : st.roomy got → st.numPevAlloc + got < 2 ^ 32 := by simp [State.roomy, hphase]
  simp only [drainStep, hphase]
  cases rest with
  | nil =>
    obtain rfl : next = none := hnext
    have htop : Sound { st with phase := .top needMore } dummy evs free [] [irp] :=
      h.rephase rfl (by rw [hphase]; rfl) (by rw [hphase]; rfl) .rfl
    refine .done ⟨_, _, _, _, htop.giveBack, ?_, fun _ hidle => (nomatch hidle), hroomy, rfl, rfl⟩
    rw [hphase]
    simp only [Phase.left, length_cons, length_nil]
    omega
  | cons x l =>
    obtain rfl : next = some x := hnext
    have hexec : Sound { st with phase := .exec x needMore } dummy evs free (x :: l) [irp] :=
      h.rephase ⟨l, rfl, hchain x l rfl⟩ (by rw [hphase]; rfl) (by rw [hphase]; rfl) (perm_append_singleton _ _)
    refine .done ⟨_, _, _, _, hexec.giveBack, ?_, fun _ hidle => (nomatch hidle), hroomy, rfl, rfl⟩
    rw [hphase]
    simp only [Phase.left, length_cons]
    omega

end

/-! ## New entries -/

/-- The entries that are allocated. -/
def newEvs (first n : Nat) : List Node := (List.range' first n).map Node.ev

theorem allocLoop_eq (first n : Nat) (L : Links Head Node) (c : Cell Head Node)
    (hc : ∀ k, first ≤ k → c ≠ .next (.ev k)) :
    Seg (allocLoop first n L c).1 c (newEvs first n) ∧
      (allocLoop first n L c).2 = endCell c (newEvs first n) ∧
      ∀ d, d ∉ cells c (newEvs first n) → (allocLoop first n L c).1 d = L d := by
  induction n generalizing first L c with
  | zero => exact ⟨trivial, rfl, fun _ _ => rfl⟩
  | succ n ih =>
    rw [newEvs, range'_succ, map_cons, allocLoop]
    obtain ⟨hseg, hend, hoff⟩ := ih (first + 1) (L.set c (some (.ev first))) (.next (.ev first))
      (fun k hk heq => by cases heq; omega)
    refine ⟨⟨?_, hseg⟩, hend, fun d hd => ?_⟩
    · rw [hoff, set_self]
      intro hmem
      rcases mem_cons.mp (cells_subset hmem) with heq | hmem
      · exact hc first le_rfl heq
      · obtain ⟨x, hx, heq⟩ := mem_map.mp hmem
        obtain ⟨k, hk, rfl⟩ := mem_map.mp hx
        refine hc k ?_ heq.symm
        have := (mem_range'_1.mp hk).1
        omega
    · rw [cells, mem_cons, not_or] at hd
      rw [hoff d hd.2, set_off hd.1]

theorem newEvs_nodup (first n : Nat) : (newEvs first n).Nodup :=
  List.Nodup.map (fun _ _ => Node.ev.inj) nodup_range'

theorem alloc_links (n : Nat) (hfree : Chain st.links (.head .free) free)
    (hnew : ∀ x ∈ free, x ∉ newEvs st.numPevAlloc n) :
    Chain (alloc n st).links (.head .free) (newEvs st.numPevAlloc n ++ free) ∧
      ∀ d, d ≠ .head .free → d ∉ .head .fresh :: (newEvs st.numPevAlloc n).map Cell.next →
        (alloc n st).links d = st.links d := by
  obtain ⟨hseg, hend, hoff⟩ := allocLoop_eq st.numPevAlloc n st.links (.head .fresh) (fun _ _ => nofun)
  simp only [alloc]
  generalize allocLoop st.numPevAlloc n st.links (.head .fresh) = loop at hseg hend hoff
  obtain ⟨L, tail⟩ := loop
  dsimp only at hseg hend hoff ⊢
  have hnd := newEvs_nodup st.numPevAlloc n
  generalize newEvs st.numPevAlloc n = new at *
  have htail : tail ∈ .head .fresh :: new.map Cell.next := hend ▸ endCell_mem _ _
  have hoff' : ∀ d, d ∉ .head .fresh :: new.map Cell.next → L d = st.links d :=
    fun d hd => hoff d fun hmem => hd (cells_subset hmem)
  have hheadfree : (.head .free : Cell Head Node) ∉ .head .fresh :: new.map Cell.next := head_off (by decide)
  have hne : ∀ {d : Cell Head Node}, d ∉ .head .fresh :: new.map Cell.next → d ≠ tail :=
    fun hd heq => hd (heq ▸ htail)
  have hlist : Chain (L.set tail (L (.head .free))) (.head .fresh) (new ++ free) := by
    refine (chain_append _ _ _ _).mpr ⟨seg_congr (fun d hd => ?_) hseg, ?_⟩
    · have hnot : endCell (.head Head.fresh) new ∉ cells (.head Head.fresh) new := endCell_notin_cells hnd
      have hdt : d ≠ tail := fun heq => hnot (hend ▸ heq ▸ hd)
      rw [set_off hdt]
    · rw [← hend]
      refine chain_entry ?_ (fun x hx => ?_) hfree
      · rw [set_self, hoff' _ hheadfree]
      · have hx' := next_off (b := Head.fresh) (hnew x hx)
        rw [set_off (hne hx'), hoff' _ hx']
  refine ⟨chain_entry (set_self _ _ _) (fun x _ => set_head_next _ _ _ _) hlist, fun d hd hd' => ?_⟩
  rw [set_off hd, set_off (hne hd'), hoff' d hd']

theorem Sound.not_new (h : Sound st dummy evs free work loose) (n : Nat) (hphase : st.phase.uncounted = 0)
    (hx : x ∈ evs ++ (free ++ (work ++ (loose ++ held st.calls)))) : x ∉ newEvs st.numPevAlloc n := by
  intro hnew
  obtain ⟨k, hk, rfl⟩ := mem_map.mp (h.total.mem_iff.mp hx)
  obtain ⟨k', hk', heq⟩ := mem_map.mp hnew
  rw [hphase, Nat.add_zero, mem_range] at hk
  have hle := (mem_range'_1.mp hk').1
  have hkk := Node.ev.inj heq
  omega

theorem alloc_sound (h : Sound st dummy evs free [] []) {n : Nat} (hn : st.numPevAlloc + n < 2 ^ 32)
    (hphase : st.phase.uncounted = 0) (htodo : st.phase.todo [] = []) :
    Sound { alloc n st with phase := .account n } dummy evs (newEvs st.numPevAlloc n ++ free) [] [] := by
  have hnotfree : ∀ x ∈ free, x ∉ newEvs st.numPevAlloc n := fun x hx => h.not_new n hphase (by simp [hx])
  obtain ⟨hfree, hoff⟩ := alloc_links n h.freeList hnotfree
  have htotal := h.total
  have hthread := h.thread
  have honce := h.once
  have horder := h.order
  rw [hphase, Nat.add_zero] at htotal
  rw [htodo] at hthread honce horder
  refine ⟨chain_entry (hoff (.head .pending) (by decide) ?_) (fun x hx => hoff _ (by nofun) (next_off ?_)) h.pending,
    h.tail, hfree, ?_, rfl, ?_, hthread, honce, horder, h.kills, hn⟩
  · exact head_off (by decide)
  · intro hnew
    rcases mem_append.mp hx with hx | hx
    · cases dummy with
      | true =>
        obtain ⟨k, -, heq⟩ := mem_map.mp hnew
        rw [mem_singleton.mp hx] at heq
        cases heq
      | false => cases hx
    · exact h.not_new n hphase (by simp [hx]) hnew
  · have hnumber := h.number
    rw [hphase] at hnumber
    simp only [alloc, h.count, newEvs, length_append, length_map, length_range']
    omega
  · have hrange : (range (st.numPevAlloc + n)).map Node.ev =
        (range st.numPevAlloc).map Node.ev ++ newEvs st.numPevAlloc n := by
      rw [newEvs, ← map_append, range_eq_range', range_eq_range', ← range'_append_1, Nat.zero_add]
    simp only [alloc, Phase.uncounted, hrange]
    refine List.Perm.trans (perm_iff_count.mpr fun a => ?_) (htotal.append_right _)
    simp only [count_append, count_nil]
    omega

section
variable (h : Sound st dummy evs free work [])
include h

theorem drain_grow (hphase : st.phase = .grow needMore) {got : Nat} (hroom : st.room got) :
    Returns (drainStep got st) (Drains st got dummy evs work) := by
  cases st
  cases hphase
  obtain rfl : work = [] := h.draining
  simp only [drainStep]
  cases needMore with
  | true =>
    exact .done ⟨_, _, _, _, alloc_sound h hroom rfl rfl, (by decide : 1 < 2), fun hc _ => hc rfl, fun _ => trivial,
      rfl, rfl⟩
  | false =>
    exact .done ⟨_, _, _, _, ⟨h.pending, h.tail, h.freeList, h.count, rfl, h.total, h.thread, h.once, h.order, h.kills,
      h.bound⟩, (by decide : 0 < 2), fun hc _ => hc rfl, fun _ => trivial, rfl, rfl⟩

theorem account_sound {n : Nat} (hphase : st.phase = .account n) :
    Sound (account n st) dummy evs free work [] := by
  cases st
  cases hphase
  have hbound := h.bound
  simp only [Phase.uncounted] at hbound
  have htotal := h.total
  refine ⟨h.pending, h.tail, h.freeList, h.count, h.draining, ?_, h.thread, h.once, h.order, h.kills, ?_⟩
  · simp only [account, Nat.mod_eq_of_lt hbound]
    exact htotal
  · simp only [account, Nat.mod_eq_of_lt hbound]
    exact hbound

theorem drainStep_drains (hphase : st.phase ≠ .idle) {got : Nat} (hroom : st.room got) :
    Returns (drainStep got st) (Drains st got dummy evs work) := by
  cases hcase : st.phase with
  | idle => exact absurd hcase hphase
  | top needMore => exact drain_top h hcase got
  | exec irp needMore => exact drain_exec h hcase got
  | put irp next needMore => exact drain_put h hcase got
  | grow needMore => exact drain_grow h hcase hroom
  | account n =>
    refine ⟨account n st, by simp only [drainStep, hcase], dummy, evs, free, work, account_sound h hcase, ?_, ?_,
      fun _ => trivial, rfl, rfl⟩
    · rw [hcase]
      exact Nat.zero_lt_one
    · exact fun hc _ => hc (by rw [hcase]; rfl)

theorem drainStep_sound {got : Nat} (hroom : st.room got) : Returns (drainStep got st) Queue := by
  by_cases hphase : st.phase = .idle
  · exact ⟨st, by simp only [drainStep, hphase], h.queue⟩
  · exact (drainStep_drains h hphase hroom).mono fun _ ⟨_, _, _, _, h', _⟩ => h'.queue

end

end QRV.Nano.Intrevent
