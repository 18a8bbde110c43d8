import QRV.Nano.Pulse

/- Whole runs on a send queue. `Queued m queue ls s` says that the list of `queue`
   stands for the uncompressed queue `s`: every entry for as many items as it
   counts, in the order of the list. Each operation of the code is one operation
   of the uncompressed queue (`pulseAdd_queued`, `msgReceive_queued` and so on),
   and a run replays event by event. -/
namespace QRV.Nano
open Function (update update_of_ne update_self)
open LinkCell StableQueue List

variable {Q A : Type}

/-! ## The queue without compression -/

/-- What happens on a send queue: a pulse is sent (`fresh` is what the allocator
has for it), a thread blocks sending (with the bytes it has where a pulse has its
fields), a blocked sender is let go, or somebody receives. -/
inductive SendOp (A : Type) where
  | pulse (priority : UInt8) (boost vtid : Bool) (code value id : Int32) (fresh : Option A)
  | send (thp : A) (priority : UInt8) (type : PrilType) (code : Int8) (value : UInt32)
      (id : Int32) (count : UInt32)
  | unblock (thp : A)
  | receive (pulseOnly : Bool)

/-- What became of an operation. -/
inductive SendEvent (A : Type) where
  | sent (i : Item A)
  /-- `pulse_add` returned null; `memory` is whether the allocator had an entry -/
  | refused (i : Item A) (memory : Bool)
  | unblocked (thp : A)
  | received (pulseOnly : Bool) (i : Option (Item A))
  deriving DecidableEq, Repr

/-- Whether a receive takes the item. -/
def Item.wanted (pulseOnly : Bool) (i : Item A) : Bool := !pulseOnly || i.isPulse

/-- Whether the item is the blocked sender `thp`. -/
def Item.isSender [DecidableEq A] (thp : A) : Item A → Bool
  | .pulse .. => false
  | .sender _ t => t == thp

/-- The pulse repeats the last item of its priority, and a count has room for it:
it can be sent without memory. -/
def Repeats [DecidableEq A] (q : List (Item A)) (i : Item A) : Prop :=
  (level Item.prio i.prio q).getLast? = some i ∧ q.count i < pulseCountMax.toNat

instance Repeats.decidable [DecidableEq A] (q : List (Item A)) (i : Item A) : Decidable (Repeats q i) :=
  inferInstanceAs (Decidable (_ ∧ _))

/-- The events replayed on the queue without compression: every item is queued
for itself, a pulse is refused only for want of memory, and a receive gives the
first item wanted. The final queue, or `none` when an event is not one of that
queue. -/
def uncompressed [DecidableEq A] : List (Item A) → List (SendEvent A) → Option (List (Item A))
  | q, [] => some q
  | q, .sent i :: es => uncompressed (enqueue Item.prio i q) es
  | q, .refused i memory :: es =>
    if memory = false ∧ ¬ Repeats q i then uncompressed q es else none
  | q, .unblocked thp :: es => uncompressed (q.eraseP (Item.isSender thp)) es
  | q, .received pulseOnly i :: es =>
    if i = q.find? (Item.wanted pulseOnly) then
      uncompressed (q.eraseP (Item.wanted pulseOnly)) es
    else none

/-! ## Runs of the code -/

/-- The pulse that a call of `pulse_add` sends. -/
def PulsePrio.item (w : PulsePrio) (code value id : Int32) : Item A :=
  .pulse w.insertion.prio w.vtid code.toInt8 value.toUInt32 id

section Run
variable [DecidableEq Q] [DecidableEq A]

def sendStep (fuel : Nat) (queue : Q) (m : PulseMem Q A) :
    SendOp A → Option (PulseMem Q A × SendEvent A)
  | .pulse priority boost vtid code value id fresh =>
    let w : PulsePrio := { priority, boost, vtid }
    (pulseAdd fuel m queue w code value id fresh).map fun (m', pup) =>
      (m', match pup with
        | none => .refused (w.item code value id) fresh.isSome
        | some _ => .sent (w.item code value id))
  | .send thp priority type code value id count =>
    let m := m.fill thp priority type code value id count
    (prilAdd fuel m.pril queue thp).map fun pril =>
      ({ m with pril := pril }, .sent (.sender (prilPriority m.pril thp) thp))
  | .unblock thp =>
    (prilRem fuel m.pril queue thp).map fun pril => ({ m with pril := pril }, .unblocked thp)
  | .receive pulseOnly =>
    (msgReceive m queue pulseOnly fuel fuel (.head queue)).map fun (m', i) =>
      (m', .received pulseOnly i)

def sendRun (fuel : Nat) (queue : Q) (m : PulseMem Q A) :
    List (SendOp A) → Option (PulseMem Q A × List (SendEvent A))
  | [] => some (m, [])
  | op :: ops => do
    let (m₁, e) ← sendStep fuel queue m op
    let (m', es) ← sendRun fuel queue m₁ ops
    some (m', e :: es)

/-- Neither on the queue nor the place of a registered reader. -/
def OffQueue (fuel : Nat) (m : PulseMem Q A) (queue : Q) (p : A) : Prop :=
  p ∉ LinkCell.walk m.pril.links fuel (.head queue) ∧ ∀ u ∈ m.pril.updateList, u.pril ≠ some p

instance OffQueue.decidable (fuel : Nat) (m : PulseMem Q A) (queue : Q) (p : A) :
    Decidable (OffQueue fuel m queue p) := inferInstanceAs (Decidable (_ ∧ _))

/-- What the callers see to: the allocator returns an entry that is not in use, a
thread blocks on one queue, and only a blocked sender is let go. -/
def SendOp.Ok (fuel : Nat) (m : PulseMem Q A) (queue : Q) : SendOp A → Prop
  | .pulse _ _ _ _ _ _ fresh => ∀ p ∈ fresh, OffQueue fuel m queue p
  | .send thp _ type .. => OffQueue fuel m queue thp ∧ type.obj ≠ .pulse ∧ type.obj ≠ .vpulse
  | .unblock thp => thp ∈ LinkCell.walk m.pril.links fuel (.head queue) ∧ m.isPulse thp = false
  | .receive _ => True

instance SendOp.decidableOk (fuel : Nat) (m : PulseMem Q A) (queue : Q) :
    ∀ op : SendOp A, Decidable (op.Ok fuel m queue)
  | .pulse _ _ _ _ _ _ fresh => inferInstanceAs (Decidable (∀ p ∈ fresh, _))
  | .send .. => inferInstanceAs (Decidable (_ ∧ _ ∧ _))
  | .unblock _ => inferInstanceAs (Decidable (_ ∧ _))
  | .receive _ => isTrue trivial

/-- The call would count the pulse into the entry `t`: the comparison of
`pulse_add`. -/
def PulseMem.Matches (m : PulseMem Q A) (t : A) (code value id : Int32) : Prop :=
  m.code t = code.toInt8 ∧ m.id t = id ∧ m.value t = value.toUInt32 ∧ m.count t < pulseCountMax

instance PulseMem.decidableMatches (m : PulseMem Q A) (t : A) (code value id : Int32) :
    Decidable (m.Matches t code value id) := inferInstanceAs (Decidable (_ ∧ _ ∧ _ ∧ _))

/-- Where the last entry of the pulse's level has its fields, it is an entry of
the pulse's type, neither a thread nor the other type of pulse. -/
def SendOp.Typed (fuel : Nat) (m : PulseMem Q A) (queue : Q) : SendOp A → Prop
  | .pulse priority boost vtid code value id _ =>
    ∀ t ∈ (prilFindInsertion fuel m.pril queue ⟨priority, boost, false⟩).join,
      m.Matches t code value id → (m.pril.type t).obj = if vtid then .vpulse else .pulse
  | _ => True

instance SendOp.decidableTyped (fuel : Nat) (m : PulseMem Q A) (queue : Q) :
    ∀ op : SendOp A, Decidable (op.Typed fuel m queue)
  | .pulse priority boost .. =>
    inferInstanceAs (Decidable (∀ t ∈ (prilFindInsertion fuel m.pril queue ⟨priority, boost, false⟩).join, _))
  | .send .. => isTrue trivial
  | .unblock _ => isTrue trivial
  | .receive _ => isTrue trivial

def SendOk (fuel : Nat) (queue : Q) : PulseMem Q A → List (SendOp A) → Prop
  | _, [] => True
  | m, op :: ops => op.Ok fuel m queue ∧ op.Typed fuel m queue ∧
      ∀ r ∈ sendStep fuel queue m op, SendOk fuel queue r.1 ops

instance SendOk.decidable (fuel : Nat) (queue : Q) :
    ∀ (m : PulseMem Q A) (ops : List (SendOp A)), Decidable (SendOk fuel queue m ops)
  | _, [] => isTrue trivial
  | m, op :: ops =>
    have := fun r : PulseMem Q A × SendEvent A => SendOk.decidable fuel queue r.1 ops
    inferInstanceAs (Decidable (_ ∧ _ ∧ ∀ r ∈ sendStep fuel queue m op, SendOk fuel queue r.1 ops))

/-! ## What the list stands for -/

/-- How many items an entry stands for. -/
def PulseMem.copies (m : PulseMem Q A) (p : A) : Nat :=
  if m.isPulse p then (m.count p).toNat else 1

/-- The items the entries of `q` stand for. -/
def PulseMem.expand (m : PulseMem Q A) (q : List A) : List (Item A) :=
  q.flatMap fun p => List.replicate (m.copies p) (m.item p)

/-- The list of `queue`, without its compression, is `s`. -/
structure Queued (m : PulseMem Q A) (queue : Q) (ls : List (List A)) (s : List (Item A)) :
    Prop where
  levels : Levels m.pril (.head queue) ls
  expand : m.expand ls.flatten = s
  counts : ∀ x ∈ ls.flatten, 0 < m.copies x
  updates : ∀ u ∈ m.pril.updateList, ∀ x ∈ ls.flatten, u.pril ≠ some x

end Run

/-! ### Entries -/

section Entries
variable {m m' : PulseMem Q A}

theorem item_prio (m : PulseMem Q A) (p : A) : (m.item p).prio = prilPriority m.pril p := by
  unfold PulseMem.item
  split <;> rfl

theorem item_isPulse (m : PulseMem Q A) (p : A) : (m.item p).isPulse = m.isPulse p := by
  unfold PulseMem.item
  split
  · case isTrue h => simp [Item.isPulse, h]
  · case isFalse h => simpa [Item.isPulse] using h

theorem expand_append (m : PulseMem Q A) (q1 q2 : List A) :
    m.expand (q1 ++ q2) = m.expand q1 ++ m.expand q2 := flatMap_append

theorem expand_cons (m : PulseMem Q A) (p : A) (q : List A) :
    m.expand (p :: q) = replicate (m.copies p) (m.item p) ++ m.expand q := rfl

theorem mem_expand {q : List A} {i : Item A} (h : i ∈ m.expand q) : ∃ p ∈ q, i = m.item p := by
  obtain ⟨p, hp, hi⟩ := mem_flatMap.mp h
  exact ⟨p, hp, eq_of_mem_replicate hi⟩

/-- `m'` reads the entry `x` as `m` does. -/
structure SameItem (m m' : PulseMem Q A) (x : A) : Prop where
  priority : m'.pril.priority x = m.pril.priority x
  first : (m'.pril.type x).first = (m.pril.type x).first
  obj : (m'.pril.type x).obj = (m.pril.type x).obj
  code : m'.code x = m.code x
  value : m'.value x = m.value x
  id : m'.id x = m.id x

section
variable {x : A} (h : SameItem m m' x)
include h

theorem SameItem.isPulse : m'.isPulse x = m.isPulse x := by
  simp [PulseMem.isPulse, h.obj]

theorem SameItem.prio :
    prilPriority m'.pril x = prilPriority m.pril x := by
  simp [prilPriority, h.priority, h.first]

theorem SameItem.item : m'.item x = m.item x := by
  simp [PulseMem.item, h.isPulse, h.prio, h.obj, h.code, h.value, h.id]

theorem SameItem.copies (hc : m'.count x = m.count x) :
    m'.copies x = m.copies x := by
  simp [PulseMem.copies, h.isPulse, hc]

end

theorem expand_congr {q : List A} (h : ∀ x ∈ q, SameItem m m' x ∧ m'.count x = m.count x) :
    m'.expand q = m.expand q := by
  refine flatMap_congr fun x hx => ?_
  rw [(h x hx).1.item, (h x hx).1.copies (h x hx).2]

end Entries

/-! ### One operation -/

section Steps
variable [DecidableEq Q] [DecidableEq A]
variable {m : PulseMem Q A} {queue : Q} {ls : List (List A)} {s : List (Item A)} {fuel : Nat}

theorem Queued.insert {m1 : PulseMem Q A} {p : A} {priority : UInt8} {type : PrilType} {code : Int8}
    {value : UInt32} {id : Int32} {count : UInt32} (h : Queued m queue ls s)
    (hm : m1 = m.fill p priority type code value id count)
    (hp : p ∉ ls.flatten) (hu : ∀ u ∈ m.pril.updateList, u.pril ≠ some p)
    (hone : m1.copies p = 1) (hf : ls.length < fuel) :
    ∃ pril' ls', prilAdd fuel m1.pril queue p = some pril' ∧
      Queued { m1 with pril := pril' } queue ls' (enqueue Item.prio (m1.item p) s) ∧
      ls'.flatten.length = ls.flatten.length + 1 := by
  have hne : ∀ x ∈ ls.flatten, x ≠ p := fun x hx e => hp (e ▸ hx)
  have htype : ∀ x, x ≠ p → m1.pril.type x = m.pril.type x := fun x hx => by
    rw [hm]; exact update_of_ne hx _ _
  have hsame : ∀ x, x ≠ p → SameItem m m1 x ∧ m1.count x = m.count x := fun x hx => by
    refine ⟨⟨?_, by rw [htype x hx], by rw [htype x hx], ?_, ?_, ?_⟩, ?_⟩
    all_goals rw [hm]; exact update_of_ne hx _ _
  have hl1 : Levels m1.pril (.head queue) ls :=
    levels_entry (by rw [hm]; rfl) ⟨fun x _ => by rw [hm]; rfl, fun x _ => by rw [hm]; rfl,
      fun x hx => htype x (hne x hx), fun x hx => (hsame x (hne x hx)).1.priority⟩ h.levels
  obtain ⟨pril', ls', q1, q2, hrun, hl', ht, hq, hq', h1, h2⟩ := prilAdd_levels hl1 hp hf
  -- the list routine changes no item and no count
  have hsame' : ∀ x, SameItem m1 { m1 with pril := pril' } x := fun x =>
    ⟨ht.priority x, ht.first x, ht.obj x, rfl, rfl, rfl⟩
  have hcop : ∀ x, PulseMem.copies { m1 with pril := pril' } x = m1.copies x :=
    fun x => (hsame' x).copies rfl
  have hmem : ∀ x ∈ ls'.flatten, x = p ∨ x ∈ ls.flatten := by
    intro x hx
    rw [hq', mem_append, mem_cons] at hx
    rw [hq, mem_append]
    tauto
  refine ⟨pril', ls', hrun, ⟨hl', ?_, ?_, ?_⟩, by rw [hq', hq]; simp; omega⟩
  · have hex : m1.expand ls.flatten = s := by
      rw [← h.expand]
      exact expand_congr fun x hx => hsame x (hne x hx)
    rw [hq, expand_append] at hex
    rw [expand_congr fun x _ => ⟨hsame' x, rfl⟩, hq', expand_append, expand_cons, hone, ← hex,
      enqueue_append]
    · rfl
    · intro a ha
      obtain ⟨x, hx, rfl⟩ := mem_expand ha
      rw [item_prio, item_prio]
      exact h1 x hx
    · intro b hb
      obtain ⟨x, hx, rfl⟩ := mem_expand hb
      rw [item_prio, item_prio]
      exact h2 x hx
  · intro x hx
    rw [hcop]
    rcases hmem x hx with rfl | hx'
    · omega
    · rw [(hsame x (hne x hx')).1.copies (hsame x (hne x hx')).2]
      exact h.counts x hx'
  · intro u hmu x hx
    have hmu' : u ∈ m.pril.updateList := by rwa [ht.updates, hm] at hmu
    rcases hmem x hx with rfl | hx'
    · exact hu u hmu'
    · exact h.updates u hmu' x hx'

omit [DecidableEq Q] [DecidableEq A] in
theorem Queued.once {p : A} {q1 q2 : List A} (h : Queued m queue ls s) (hq : ls.flatten = q1 ++ p :: q2) :
    p ∉ q1 ∧ p ∉ q2 := by
  have hnd := nodup_cons.mp (nodup_middle.mp (hq ▸ h.levels.chain.nodup))
  rw [mem_append, not_or] at hnd
  exact hnd.1

/-- An entry that leaves the list takes its items out of the queue, whatever its
count is set to. -/
theorem Queued.remove {p : A} {q1 q2 : List A} {c : A → UInt32} (h : Queued m queue ls s)
    (hq : ls.flatten = q1 ++ p :: q2) (hc : ∀ x, x ≠ p → c x = m.count x) (hf : ls.length < fuel) :
    ∃ pril' ls', prilRem fuel m.pril queue p = some pril' ∧
      Queued { m with pril := pril', count := c } queue ls' (m.expand q1 ++ m.expand q2) ∧
      ls'.flatten.length ≤ ls.flatten.length := by
  have hp : p ∈ ls.flatten := by rw [hq]; simp
  obtain ⟨pril', ls', hrun, hl', ht, hr⟩ := prilRem_levels h.levels hp hf fun u hu => h.updates u hu p hp
  have hnd := h.levels.chain.nodup
  have hne : ∀ x ∈ ls'.flatten, x ≠ p ∧ x ∈ ls.flatten := fun x hx => hnd.mem_erase_iff.mp (hr ▸ hx)
  rw [hq] at hnd
  rw [hq, erase_middle hnd] at hr
  have hsame : ∀ x, SameItem m { m with pril := pril', count := c } x := fun x =>
    ⟨ht.priority x, ht.first x, ht.obj x, rfl, rfl, rfl⟩
  refine ⟨pril', ls', hrun, ⟨hl', ?_, ?_, ?_⟩, by rw [hr, hq]; simp⟩
  · rw [expand_congr fun x hx => ⟨hsame x, hc x (hne x hx).1⟩, hr, expand_append]
  · intro x hx
    rw [(hsame x).copies (hc x (hne x hx).1)]
    exact h.counts x (hne x hx).2
  · intro u hu x hx
    exact h.updates u (ht.updates ▸ hu) x (hne x hx).2

omit [DecidableEq Q] in
theorem Queued.recount {p : A} {q1 q2 : List A} {c : A → UInt32} (h : Queued m queue ls s)
    (hq : ls.flatten = q1 ++ p :: q2) (hpulse : m.isPulse p = true) (hpos : 0 < (c p).toNat)
    (hc : ∀ x, x ≠ p → c x = m.count x) :
    Queued { m with count := c } queue ls
      (m.expand q1 ++ replicate (c p).toNat (m.item p) ++ m.expand q2) := by
  obtain ⟨hp1, hp2⟩ := h.once hq
  have hsame : ∀ x, SameItem m { m with count := c } x := fun x => ⟨rfl, rfl, rfl, rfl, rfl, rfl⟩
  have hcp : PulseMem.copies { m with count := c } p = (c p).toNat := by
    show (if m.isPulse p = true then (c p).toNat else 1) = (c p).toNat
    rw [if_pos hpulse]
  have hex : ∀ q : List A, p ∉ q → PulseMem.expand { m with count := c } q = m.expand q :=
    fun q hpq => expand_congr fun x hx => ⟨hsame x, hc x fun e => hpq (e ▸ hx)⟩
  refine ⟨h.levels, ?_, fun x hx => ?_, h.updates⟩
  · rw [hq, expand_append, expand_cons, hex q1 hp1, hex q2 hp2, hcp, (hsame p).item]
    simp
  · by_cases hxp : x = p
    · rw [hxp, hcp]
      exact hpos
    · rw [(hsame x).copies (hc x hxp)]
      exact h.counts x hx

omit [DecidableEq Q] [DecidableEq A] in
theorem Queued.split_last {t : A} {r : Nat} (h : Queued m queue ls s)
    (hlast : (level (prilPriority m.pril) r ls.flatten).getLast? = some t) :
    ∃ q1 q2, ls.flatten = q1 ++ t :: q2 ∧ prilPriority m.pril t = r ∧
      s = (m.expand q1 ++ replicate (m.copies t) (m.item t)) ++ m.expand q2 ∧
      (∀ a ∈ m.expand q1, r ≤ a.prio) ∧ ∀ b ∈ m.expand q2, b.prio < r := by
  obtain ⟨q1, q2, hq, hk, h1, h2⟩ := h.levels.desc.split_level hlast
  refine ⟨q1, q2, hq, hk, ?_, fun a ha => ?_, fun b hb => ?_⟩
  · rw [← h.expand, hq, expand_append, expand_cons, append_assoc]
  · obtain ⟨x, hx, rfl⟩ := mem_expand ha
    rw [item_prio]
    exact h1 x hx
  · obtain ⟨x, hx, rfl⟩ := mem_expand hb
    rw [item_prio]
    exact h2 x hx

omit [DecidableEq Q] [DecidableEq A] in
theorem Queued.last_item (h : Queued m queue ls s) (r : Nat) :
    (level Item.prio r s).getLast? =
      ((level (prilPriority m.pril) r ls.flatten).getLast?).map m.item := by
  cases hlast : (level (prilPriority m.pril) r ls.flatten).getLast? with
  | none =>
    have hnil : level Item.prio r s = [] := by
      refine level_eq_nil fun i hi hr => ?_
      obtain ⟨x, hx, rfl⟩ := mem_expand (h.expand.symm ▸ hi)
      rw [item_prio] at hr
      exact absurd (mem_level.mpr ⟨hx, hr⟩) (by simp [getLast?_eq_none_iff.mp hlast])
    simp [hnil]
  | some t =>
    obtain ⟨q1, q2, hq, hk, hs, -, h2⟩ := h.split_last hlast
    have hpos := h.counts t (by rw [hq]; simp)
    obtain ⟨n, hn⟩ := Nat.exists_eq_add_of_lt hpos
    have hnil : level Item.prio r (m.expand q2) = [] :=
      level_eq_nil fun b hb => Nat.ne_of_lt (h2 b hb)
    have hself : (Item.prio (m.item t) == r) = true := by rw [item_prio, hk]; simp
    rw [hs, level_append, hnil, append_nil, level_append, hn, Nat.zero_add, replicate_succ',
      level_append, ← append_assoc]
    simp [level, hself]

omit [DecidableEq Q] in
/-- A pulse that matches no last entry does not repeat the last item. -/
theorem Queued.not_repeats (w : PulsePrio) (code value id : Int32) (h : Queued m queue ls s)
    (hno : ∀ t, (level (prilPriority m.pril) w.insertion.prio ls.flatten).getLast? = some t →
      ¬ m.Matches t code value id) : ¬ Repeats s (w.item code value id) := by
  rintro ⟨hlast, hcount⟩
  have hlast' : (level Item.prio w.insertion.prio s).getLast? = some (w.item code value id) := hlast
  rw [h.last_item, Option.map_eq_some_iff] at hlast'
  obtain ⟨t, ht, hitem⟩ := hlast'
  obtain ⟨q1, q2, -, -, hs, -, -⟩ := h.split_last ht
  have hpulse : m.isPulse t = true := by rw [← item_isPulse, hitem]; rfl
  have hfields := hitem
  rw [PulseMem.item, if_pos hpulse, PulsePrio.item, Item.pulse.injEq] at hfields
  obtain ⟨-, -, hcode, hvalue, hid⟩ := hfields
  refine hno t ht ⟨hcode, hid, hvalue, UInt32.lt_iff_toNat_lt.mpr (Nat.lt_of_le_of_lt ?_ hcount)⟩
  rw [hs, count_append, count_append, hitem, PulseMem.copies, if_pos hpulse, count_replicate_self]
  omega

/-- The call has sent the item; it returns null, and leaves the queue alone, only
where memory is needed and there is none. -/
def Sends (queue : Q) (ls : List (List A)) (s : List (Item A)) (i : Item A) (memory : Bool)
    (call : Option (PulseMem Q A × Option A)) : Prop :=
  ∃ m' pup ls', call = some (m', pup) ∧ ls'.flatten.length ≤ ls.flatten.length + 1 ∧
    match pup with
    | none => (memory = false ∧ ¬ Repeats s i) ∧ Queued m' queue ls' s
    | some _ => Queued m' queue ls' (enqueue Item.prio i s)

theorem pulseAlloc_queued (w : PulsePrio) (code value id : Int32) (fresh : Option A)
    (h : Queued m queue ls s) (hsig : w.signal = false)
    (hno : ∀ t, (level (prilPriority m.pril) w.insertion.prio ls.flatten).getLast? = some t →
      ¬ m.Matches t code value id)
    (hfresh : ∀ p ∈ fresh, p ∉ ls.flatten ∧ ∀ u ∈ m.pril.updateList, u.pril ≠ some p)
    (hf : ls.length < fuel) :
    Sends queue ls s (w.item code value id) fresh.isSome
      (pulseAlloc fuel m queue w code value id fresh) := by
  cases fresh with
  | none => exact ⟨m, none, ls, rfl, by omega, ⟨rfl, h.not_repeats w code value id hno⟩, h⟩
  | some p =>
    obtain ⟨hp, hu⟩ := hfresh p rfl
    generalize hm1 : m.fill p w.priority w.type code.toInt8 value.toUInt32 id 1 = m1
    have htype : m1.pril.type p = w.type := by rw [← hm1]; exact update_self ..
    have hpulse : m1.isPulse p = true := by
      simp only [PulseMem.isPulse, htype, PulsePrio.type, hsig]
      cases w.vtid <;> rfl
    have hitem : m1.item p = w.item code value id := by
      have hv : (w.type.obj == .vpulse) = w.vtid := by
        simp only [PulsePrio.type, hsig]
        cases w.vtid <;> rfl
      rw [PulseMem.item, if_pos hpulse, prilPriority, htype, hv, ← hm1]
      simp only [PulseMem.fill, update_self]
      rfl
    have hone : m1.copies p = 1 := by
      rw [PulseMem.copies, if_pos hpulse, ← hm1]
      simp [PulseMem.fill]
    obtain ⟨pril', ls', hrun, hq', hlen'⟩ := h.insert hm1.symm hp hu hone hf
    rw [hitem] at hq'
    refine ⟨{ m1 with pril := pril' }, some p, ls', ?_, by omega, hq'⟩
    simp [pulseAlloc, hm1, hrun]

theorem pulseAdd_queued (w : PulsePrio) (code value id : Int32) (fresh : Option A)
    (h : Queued m queue ls s) (hw : w.replace = false) (hsig : w.signal = false)
    (hhead : w.head = false)
    (htyped : ∀ t ∈ (prilFindInsertion fuel m.pril queue w.insertion).join, m.Matches t code value id → (m.pril.type t).obj = if w.vtid then .vpulse else .pulse)
    (hfresh : ∀ p ∈ fresh, p ∉ ls.flatten ∧ ∀ u ∈ m.pril.updateList, u.pril ≠ some p)
    (hf : ls.flatten.length < fuel) :
    Sends queue ls s (w.item code value id) fresh.isSome
      (pulseAdd fuel m queue w code value id fresh) := by
  have hlen : ls.length < fuel := Nat.lt_of_le_of_lt h.levels.length_le hf
  have hfind := h.levels.find w.insertion hlen
  have hih : w.insertion.head = false := hhead
  rw [hih, if_neg (by simp)] at hfind
  cases hlast : (level (prilPriority m.pril) w.insertion.prio ls.flatten).getLast? with
  | none =>
    have := pulseAlloc_queued w code value id fresh h hsig (by simp [hlast]) hfresh hlen
    simpa [pulseAdd, hw, hfind, hlast] using this
  | some t =>
    by_cases hcomp : m.Matches t code value id
    · obtain ⟨q1, q2, hq, hk, hs, h1, h2⟩ := h.split_last hlast
      have hobj := htyped t (by rw [hfind, hlast]; rfl) hcomp
      have hpulse : m.isPulse t = true := by
        rw [PulseMem.isPulse, hobj]
        cases w.vtid <;> rfl
      have hitem : m.item t = w.item code value id := by
        have hv : ((m.pril.type t).obj == .vpulse) = w.vtid := by
          rw [hobj]
          cases w.vtid <;> rfl
        rw [PulseMem.item, if_pos hpulse, hk, hv, hcomp.1, hcomp.2.1, hcomp.2.2.1, PulsePrio.item]
      have hcount : (m.count t + 1).toNat = (m.count t).toNat + 1 := by
        have := UInt32.lt_iff_toNat_lt.mp hcomp.2.2.2
        simp only [pulseCountMax] at this
        rw [UInt32.toNat_add]
        simp at this ⊢
        omega
      have hadd := h.recount hq hpulse (c := update m.count t (m.count t + 1))
        (by rw [update_self, hcount]; omega) (fun x hx => update_of_ne hx _ _)
      have hs' : enqueue Item.prio (m.item t) s =
          m.expand q1 ++ replicate ((m.count t).toNat + 1) (m.item t) ++ m.expand q2 := by
        rw [hs, PulseMem.copies, if_pos hpulse, enqueue_append, replicate_succ']
        · simp
        · intro a ha
          rw [item_prio, hk]
          rcases mem_append.mp ha with ha | ha
          · exact h1 a ha
          · have hak : a.prio = w.insertion.prio := by
              rw [eq_of_mem_replicate ha, item_prio, hk]
            omega
        · intro b hb
          rw [item_prio, hk]
          exact h2 b hb
      rw [update_self, hcount, ← hs', hitem] at hadd
      refine ⟨_, some t, ls, ?_, by omega, hadd⟩
      simp only [pulseAdd, hw, hfind, hlast]
      exact if_pos hcomp
    · have := pulseAlloc_queued w code value id fresh h hsig
        (fun x hx => by rw [hlast] at hx; exact Option.some.inj hx ▸ hcomp) hfresh hlen
      simp only [pulseAdd, hw, hfind, hlast]
      exact (if_neg hcomp).symm ▸ this

theorem pulseRemove_queued {p : A} {q1 q2 : List A} (h : Queued m queue ls s)
    (hq : ls.flatten = q1 ++ p :: q2) (hpulse : m.isPulse p = true) (hf : ls.length < fuel) :
    ∃ m' ls' n, pulseRemove fuel m queue p = some m' ∧ m.copies p = n + 1 ∧
      Queued m' queue ls' (m.expand q1 ++ replicate n (m.item p) ++ m.expand q2) ∧
      ls'.flatten.length ≤ ls.flatten.length := by
  have hpos := h.counts p (by rw [hq]; simp)
  have hcopies : m.copies p = (m.count p).toNat := by rw [PulseMem.copies, if_pos hpulse]
  have hpred : (m.count p - 1).toNat = (m.count p).toNat - 1 := by
    have hle : (1 : UInt32) ≤ m.count p := UInt32.le_iff_toNat_le.mpr (by simp; omega)
    rw [UInt32.toNat_sub_of_le _ _ hle]
    rfl
  have hc : ∀ x, x ≠ p → update m.count p (m.count p - 1) x = m.count x :=
    fun x hx => update_of_ne hx _ _
  by_cases hz : m.count p - 1 = 0
  · obtain ⟨pril', ls', hrun, hq', hlen⟩ := h.remove hq hc hf
    have h0 : (m.count p - 1).toNat = 0 := by rw [hz]; rfl
    refine ⟨_, ls', 0, ?_, by omega, by simpa using hq', hlen⟩
    simp only [pulseRemove, update_self, if_pos hz, hrun, Option.map_some]
  · have hnz : (m.count p - 1).toNat ≠ 0 := fun e => hz (UInt32.toNat_inj.mp e)
    have hq' := h.recount hq hpulse (by rw [update_self]; omega) hc
    rw [update_self] at hq'
    refine ⟨_, ls, (m.count p - 1).toNat, ?_, by omega, hq', Nat.le_refl _⟩
    simp only [pulseRemove, update_self, if_neg hz]

omit [DecidableEq Q] [DecidableEq A] in
theorem not_wanted_expand {pulseOnly : Bool} {q : List A}
    (h : ∀ x ∈ q, (m.item x).wanted pulseOnly = false) :
    ∀ i ∈ m.expand q, ¬ i.wanted pulseOnly = true := by
  intro i hi
  obtain ⟨x, hx, rfl⟩ := mem_expand hi
  simp [h x hx]

omit [DecidableEq Q] [DecidableEq A] in
theorem first_wanted {p : Item A → Bool} {s1 : List (Item A)} {i : Item A} (s2 : List (Item A))
    (h1 : ∀ j ∈ s1, ¬ p j = true) (hi : p i = true) :
    (s1 ++ i :: s2).find? p = some i ∧ (s1 ++ i :: s2).eraseP p = s1 ++ s2 := by
  constructor
  · rw [find?_append, find?_eq_none.mpr h1, find?_cons_of_pos hi]
    rfl
  · rw [eraseP_append_right _ (fun j hj => by simpa using h1 j hj), eraseP_cons_of_pos hi]

theorem msgReceive_queued {pulseOnly : Bool} {remFuel : Nat} {q0 q : List A}
    (h : Queued m queue ls s) (hq : ls.flatten = q0 ++ q)
    (hskip : ∀ x ∈ q0, (m.item x).wanted pulseOnly = false) (hf : q.length < fuel)
    (hr : ls.length < remFuel) :
    ∃ m' i ls', msgReceive m queue pulseOnly remFuel fuel (endCell (.head queue) q0) = some (m', i) ∧
      i = s.find? (Item.wanted pulseOnly) ∧
      Queued m' queue ls' (s.eraseP (Item.wanted pulseOnly)) ∧
      ls'.flatten.length ≤ ls.flatten.length := by
  have hchain := h.levels.chain
  rw [hq, chain_append] at hchain
  obtain ⟨k, rfl⟩ := Nat.exists_eq_add_of_lt hf
  clear hf
  induction q generalizing q0 with
  | nil =>
    have hnone : ∀ i ∈ s, ¬ Item.wanted pulseOnly i = true := by
      rw [← h.expand, hq, append_nil]
      exact not_wanted_expand hskip
    refine ⟨m, none, ls, ?_, (find?_eq_none.mpr hnone).symm, ?_, Nat.le_refl _⟩
    · have hnull : m.pril.links (endCell (.head queue) q0) = none := hchain.2
      simp [msgReceive, hnull]
    · rw [eraseP_of_forall_not hnone]
      exact h
  | cons p r ih =>
    have hlink : m.pril.links (endCell (.head queue) q0) = some p := hchain.2.1
    have hs : s = m.expand q0 ++ (replicate (m.copies p) (m.item p) ++ m.expand r) := by
      rw [← h.expand, hq, expand_append, expand_cons]
    have hno := not_wanted_expand hskip
    by_cases hpulse : m.isPulse p = true
    · have hwant : (m.item p).wanted pulseOnly = true := by
        simp [Item.wanted, item_isPulse, hpulse]
      obtain ⟨m', ls', n, hrun, hn, hq', hlen⟩ := pulseRemove_queued h hq hpulse hr
      rw [hn, replicate_succ, cons_append] at hs
      obtain ⟨hfind, herase⟩ := first_wanted (replicate n (m.item p) ++ m.expand r) hno hwant
      refine ⟨m', some (m.item p), ls', ?_, by rw [hs, hfind], ?_, hlen⟩
      · simp [msgReceive, hlink, hpulse, hrun]
      · rw [hs, herase, ← append_assoc]
        exact hq'
    · have hsender : m.isPulse p = false := by simpa using hpulse
      by_cases hpo : pulseOnly = true
      · -- `MsgReceivePulse` goes on behind the sender
        have hskip' : ∀ x ∈ q0 ++ [p], (m.item x).wanted pulseOnly = false := by
          intro x hx
          rcases mem_append.mp hx with hx | hx
          · exact hskip x hx
          · rw [mem_singleton.mp hx]
            simp [Item.wanted, item_isPulse, hsender, hpo]
        have hq1 : ls.flatten = (q0 ++ [p]) ++ r := by rw [hq]; simp
        have hch := h.levels.chain
        rw [hq1, chain_append] at hch
        obtain ⟨m', i, ls', hrun, hrest⟩ := ih hq1 hskip' hch
        refine ⟨m', i, ls', ?_, hrest⟩
        rw [endCell_concat, Nat.add_right_comm] at hrun
        rw [msgReceive, hlink]
        simp only [hsender, Bool.false_eq_true, if_false, hpo, if_true]
        rw [hpo] at hrun
        exact hrun
      · have hwant : (m.item p).wanted pulseOnly = true := by
          simp [Item.wanted, hpo]
        obtain ⟨pril', ls', hrun, hq', hlen⟩ := h.remove hq (fun x _ => rfl) hr
        have hone : m.copies p = 1 := by rw [PulseMem.copies, if_neg hpulse]
        rw [hone, replicate_one, singleton_append] at hs
        obtain ⟨hfind, herase⟩ := first_wanted (m.expand r) hno hwant
        refine ⟨{ m with pril := pril' }, some (m.item p), ls', ?_, by rw [hs, hfind], ?_, hlen⟩
        · simp [msgReceive, hlink, hsender, hpo, hrun]
        · rw [hs, herase]
          exact hq'

omit [DecidableEq Q] in
theorem isSender_item (m : PulseMem Q A) (x thp : A) :
    Item.isSender thp (m.item x) = (!m.isPulse x && x == thp) := by
  unfold PulseMem.item
  cases m.isPulse x <;> simp [Item.isSender]

/-- Every operation of the code is one of the queue without compression. -/
theorem sendStep_queued {op : SendOp A} (h : Queued m queue ls s) (hok : op.Ok fuel m queue)
    (htyped : op.Typed fuel m queue) (hf : ls.flatten.length < fuel) :
    ∃ m' e ls' s', sendStep fuel queue m op = some (m', e) ∧ Queued m' queue ls' s' ∧
      ls'.flatten.length ≤ ls.flatten.length + 1 ∧
      ∀ es, uncompressed s (e :: es) = uncompressed s' es := by
  have hlen : ls.length < fuel := Nat.lt_of_le_of_lt h.levels.length_le hf
  have hwalk := h.levels.chain.walk_eq (Nat.le_of_lt hf)
  cases op with
  | pulse priority boost vtid code value id fresh =>
    obtain ⟨m', pup, ls', hrun, hle, hq'⟩ := pulseAdd_queued ⟨priority, boost, false, false, vtid, false⟩
      code value id fresh h rfl rfl rfl htyped
      (fun p hp => ⟨hwalk ▸ (hok p hp).1, (hok p hp).2⟩) hf
    cases pup with
    | none =>
      exact ⟨m', .refused _ fresh.isSome, ls', s, by simp [sendStep, hrun], hq'.2, hle,
        fun es => if_pos hq'.1⟩
    | some p => exact ⟨m', .sent _, ls', _, by simp [sendStep, hrun], hq', hle, fun es => rfl⟩
  | send thp priority type code value id count =>
    obtain ⟨⟨hoff, hu⟩, hobj, hobj'⟩ := hok
    generalize hm1 : m.fill thp priority type code value id count = m1
    have hsender : m1.isPulse thp = false := by
      simp [← hm1, PulseMem.isPulse, PulseMem.fill, hobj, hobj']
    have hone : m1.copies thp = 1 := by simp [PulseMem.copies, hsender]
    have hitem : m1.item thp = .sender (prilPriority m1.pril thp) thp := by
      simp [PulseMem.item, hsender]
    obtain ⟨pril', ls', hrun, hq', hle⟩ := h.insert hm1.symm (hwalk ▸ hoff) hu hone hlen
    rw [hitem] at hq'
    refine ⟨_, .sent (.sender (prilPriority m1.pril thp) thp), ls', _, ?_, hq', Nat.le_of_eq hle,
      fun es => rfl⟩
    simp [sendStep, hm1, hrun]
  | unblock thp =>
    obtain ⟨hmem, hsender⟩ := hok
    rw [hwalk] at hmem
    obtain ⟨q1, q2, hsplit⟩ := append_of_mem hmem
    obtain ⟨pril', ls', hrun, hq', hle⟩ := h.remove hsplit (fun x _ => rfl) hlen
    refine ⟨_, .unblocked thp, ls', _, ?_, hq', by omega, fun es => ?_⟩
    · simp only [sendStep, hrun, Option.map_some]
    · have hone : m.copies thp = 1 := by simp [PulseMem.copies, hsender]
      have hs : s = m.expand q1 ++ m.item thp :: m.expand q2 := by
        rw [← h.expand, hsplit, expand_append, expand_cons, hone]
        rfl
      have hno : ∀ i ∈ m.expand q1, ¬ Item.isSender thp i = true := by
        intro i hi
        obtain ⟨x, hx, rfl⟩ := mem_expand hi
        have hne : x ≠ thp := fun e => (h.once hsplit).1 (e ▸ hx)
        simp [isSender_item, hne]
      have herase := (first_wanted (m.expand q2) hno
        (by simp [isSender_item, hsender] : Item.isSender thp (m.item thp) = true)).2
      rw [uncompressed, hs, herase]
  | receive pulseOnly =>
    obtain ⟨m', i, ls', hrun, hi, hq', hle⟩ := msgReceive_queued h (nil_append _).symm (by simp) hf hlen
    refine ⟨m', .received pulseOnly i, ls', _, ?_, hq', by omega, fun es => ?_⟩
    · simp only [sendStep]
      rw [endCell_nil] at hrun
      rw [hrun]
      rfl
    · rw [uncompressed, if_pos hi]

theorem sendRun_queued {ops : List (SendOp A)} (h : Queued m queue ls s)
    (hok : SendOk fuel queue m ops) (hf : ls.flatten.length + ops.length < fuel) :
    ∃ m' es ls' s', sendRun fuel queue m ops = some (m', es) ∧ Queued m' queue ls' s' ∧
      uncompressed s es = some s' := by
  induction ops generalizing m ls s with
  | nil => exact ⟨m, [], ls, s, rfl, h, rfl⟩
  | cons op ops ih =>
    rw [length_cons] at hf
    obtain ⟨m1, e, ls1, s1, hstep, h1, hlen, huncomp⟩ :=
      sendStep_queued h hok.1 hok.2.1 (show ls.flatten.length < fuel by omega)
    obtain ⟨m', es, ls', s', hrun, h', hes⟩ := ih h1 (hok.2.2 (m1, e) hstep) (by omega)
    refine ⟨m', e :: es, ls', s', ?_, h', by rw [huncomp, hes]⟩
    simp [sendRun, hstep, hrun]

end Steps

/-- **Compression does not show.** Every run of pulses sent without
`_PULSE_PRIO_REPLACE` (any priority, boost, code, value and id, the allocator
failing at will), senders that block and are let go, and receives, on an empty
queue, comes to an end and is a run of the queue without compression, as long as
no pulse meets an entry of another type with its fields: the events of the code
replay on `uncompressed`, and what is left on the list is what is left there. -/
theorem pulse_run_uncompressed [DecidableEq Q] [DecidableEq A] (m : PulseMem Q A) (queue : Q)
    (ops : List (SendOp A)) (fuel : Nat) (hempty : m.pril.links (.head queue) = none)
    (hok : SendOk fuel queue m ops) (hf : ops.length < fuel) :
    ∃ m' es q, sendRun fuel queue m ops = some (m', es) ∧ Chain m'.pril.links (.head queue) q ∧
      uncompressed [] es = some (m'.expand q) := by
  have h₀ : Queued m queue [] [] := ⟨hempty, rfl, by simp, by simp⟩
  obtain ⟨m', es, ls', s', hrun, h', hes⟩ := sendRun_queued h₀ hok (by simpa using hf)
  exact ⟨m', es, ls'.flatten, hrun, h'.levels.chain, by rw [hes, h'.expand]⟩

/-- An empty queue; nothing else is queued in this memory. -/
def emptyQueue : PulseMem Nat Nat where
  pril := ⟨fun _ => none, fun a => .next a, fun _ => ⟨.pulse, false, false, false, false⟩, fun _ => 0, []⟩
  code _ := 0
  value _ := 0
  id _ := 0
  count _ := 0

/-- A sender blocks, two equal pulses come, the second compressed into the first
(the allocator has nothing for it), a pulse of another code is refused, and
everything is received. -/
def pulseOps : List (SendOp Nat) :=
  [.send 2 10 ⟨.thread, false, false, false, false⟩ 2 4 0 0, .pulse 10 false false 1 7 3 (some 1),
    .pulse 10 false false 1 7 3 none, .pulse 10 false false 2 7 3 none, .receive false,
    .receive false, .receive true]

theorem pulse_run_uncompressed_all :
    SendOk 9 0 emptyQueue pulseOps ∧
      ∃ m' es q, sendRun 9 0 emptyQueue pulseOps = some (m', es) ∧ Chain m'.pril.links (.head 0) q ∧
        uncompressed [] es = some (m'.expand q) :=
  ⟨by decide +kernel, pulse_run_uncompressed _ _ _ 9 rfl (by decide +kernel) (by decide)⟩

/-- A thread with round-robin policy (2) blocks sending (state 4) on processor 0,
and a pulse of its priority comes with code 2, value 4 and id 0. -/
def lostOps : List (SendOp Nat) :=
  [.send 2 10 ⟨.thread, false, false, false, false⟩ 2 4 0 0, .pulse 10 false false 2 4 0 (some 1),
    .receive false, .receive false]

/-- The pulse is counted into the thread's processor number: the call reports
success, the receiver gets the thread's message, and then nothing. -/
theorem pulse_run_loses :
    (sendRun 6 0 emptyQueue lostOps).map Prod.snd =
        some [.sent (.sender 10 2), .sent (.pulse 10 false 2 4 0), .received false (some (.sender 10 2)),
          .received false none] ∧
      (sendRun 6 0 emptyQueue lostOps).map (fun r => uncompressed [] r.2) = some none := by
  decide +kernel

end QRV.Nano
