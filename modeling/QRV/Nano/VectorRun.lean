import QRV.Lib.Run
import QRV.Nano.VectorRep

/- Runs of `vector_add`, `vector_rem` and `vector_flag` from an empty vector.
   Every operation keeps `Represents` and does to the slots what it is for
   (`VecOp.Post`), as long as it stays clear of two slips of the 64-bit machine:
   a growth that moves a free slot across a 4 GiB boundary (the fix-up adds an
   `int`), and the removal of slot 0 while others are free (`index - 1` is an
   `unsigned`, so the backward scan starts 32 GiB above the table unless that
   address wraps). `vector_run` is the run theorem, and `vector_run_breaks` shows
   what happens without either condition. -/
namespace QRV.Nano
open List hiding Chain
open LinkCell

inductive VecOp where
  | add (object index : Nat) (answers : List (Option Growth))
  | rem (index : Nat)
  | flag (index : Nat) (flag : Bool)

inductive VecRes where
  | int (r : Int)
  | ptr (p : Nat)
  deriving DecidableEq, Repr

def vecStep (fuel : Nat) (v : VecMem) : VecOp → Option (VecMem × VecRes)
  | .add object index answers =>
    (vectorAdd fuel fuel v object index answers).map fun (v, r) => (v, .int r)
  | .rem index => (vectorRem fuel v index).map fun (v, p) => (v, .ptr p)
  | .flag index flag => let (v, r) := vectorFlag v index flag; some (v, .int r)

def vecRun (fuel : Nat) : VecMem → List VecOp → Option (VecMem × List VecRes)
  | v, [] => some (v, [])
  | v, op :: ops => do
    let (v₁, r) ← vecStep fuel v op
    let (v', rs) ← vecRun fuel v₁ ops
    some (v', r :: rs)

/-! ## What the operations are for -/

/-- `vector_add` takes the smallest free slot from `index` on, of the vector as it
was or, when it had none, of the grown one; or it fails and takes none. -/
def AddPost (slots : List (Option VecObj)) (object index : Nat) (answers : List (Option Growth))
    (r : VecRes) (slots' : List (Option VecObj)) : Prop :=
  ∃ k, (k ≠ 0 → ∀ i, index ≤ i → slots[i]? ≠ some none) ∧
    ((∃ (i : Nat) (o : VecObj), r = .int i ∧ o.ptr = object ∧ o.flag = false ∧ index ≤ i ∧
        (slots ++ List.replicate k none)[i]? = some none ∧
        (∀ j, index ≤ j → j < i → (slots ++ List.replicate k none)[j]? ≠ some none) ∧
        slots' = (slots ++ List.replicate k none).set i (some o)) ∨
      (r = .int (-1) ∧ slots' = slots ++ List.replicate k none ∧
        (∀ i, index ≤ i → (slots ++ List.replicate k none)[i]? ≠ some none) ∧
        (slots.length = vectorMax ∨ vectorMax ≤ index ∨ ∀ g, answers.head? ≠ some (some g))))

/-- The effect of an operation on the slots, and its result. -/
def VecOp.Post (slots : List (Option VecObj)) (r : VecRes) (slots' : List (Option VecObj)) :
    VecOp → Prop
  | .add object index answers => AddPost slots object index answers r slots'
  | .rem index =>
    (∃ o, slots[index]? = some (some o) ∧ r = .ptr o.ptr ∧ slots' = slots.set index none) ∨
      ((∀ o, slots[index]? ≠ some (some o)) ∧ r = .ptr 0 ∧ slots' = slots)
  | .flag index b =>
    (∃ o o' : VecObj, slots[index]? = some (some o) ∧ o'.ptr = o.ptr ∧ o'.flag = b ∧ r = .int 0 ∧
        slots' = slots.set index (some o')) ∨
      ((∀ o, slots[index]? ≠ some (some o)) ∧ r = .int (-1) ∧ slots' = slots)

def VecSteps : List (Option VecObj) → List VecOp → List VecRes → List (Option VecObj) → Prop
  | slots, [], [], slots' => slots' = slots
  | slots, op :: ops, r :: rs, slots' => ∃ s, op.Post slots r s ∧ VecSteps s ops rs slots'
  | _, _, _, _ => False

/-! ## What the callers and the allocator see to, and what they do not -/

/-- Objects are 32-bit aligned and not null, an index is an `unsigned` below the
largest, and `_scalloc` answers with a table of the size asked for. -/
def VecOp.Ok (v : VecMem) : VecOp → Prop
  | .add object index answers => object % 4 = 0 ∧ 0 < object ∧ index < 0xffffffff ∧
      ∀ g, answers.head? = some (some g) → g.Fresh v (grownSize v.nentries index)
  | .rem index => index < 2 ^ 32
  | .flag _ _ => True

/-- Slot `i` is free, read off the table. -/
def VecMem.isFree (v : VecMem) (i : Nat) : Prop := i < v.nentries ∧ v.word i % 2 = 1

/-- A growth leaves every free slot in its 4 GiB, and slot 0 is given back only to
a vector with no free slot (or to a table so high that the address of slot
2³² - 1 wraps). -/
def VecOp.Safe (v : VecMem) : VecOp → Prop
  | .add _ index answers => (∀ i, v.isFree i → i < index) → ∀ g, answers.head? = some (some g) →
      ∀ i, v.isFree i → v.addr i / 2 ^ 32 = (g.ptr + 8 * i) / 2 ^ 32
  | .rem index => index = 0 → 0 < v.nentries → v.word 0 % 2 = 0 →
      (∀ i, ¬ v.isFree i) ∨ 2 ^ 64 ≤ v.addr (2 ^ 32 - 1)
  | .flag _ _ => True

/-- `P` holds of every operation of the run, in the state it starts in. -/
def VecAlong (P : VecMem → VecOp → Prop) (fuel : Nat) : VecMem → List VecOp → Prop
  | _, [] => True
  | v, op :: ops => P v op ∧ ∀ v' r, vecStep fuel v op = some (v', r) → VecAlong P fuel v' ops

instance Growth.decidableFresh (g : Growth) (v : VecMem) (size : Nat) : Decidable (g.Fresh v size) :=
  decidable_of_iff (g.ptr % 8 = 0 ∧ 0 < g.ptr ∧ g.ptr + 8 * size ≤ 2 ^ 64 ∧
      (v.nentries = 0 ∨ g.ptr + 8 * size ≤ v.vector ∨ v.vector + 8 * v.nentries ≤ g.ptr))
    ⟨fun ⟨h1, h2, h3, h4⟩ => ⟨h1, h2, h3, h4⟩, fun ⟨h1, h2, h3, h4⟩ => ⟨h1, h2, h3, h4⟩⟩

/-- Properties of the first answer, and of the free slots, can be run. -/
instance VecOp.decidableFirst (answers : List (Option Growth)) (P : Growth → Prop) [DecidablePred P] :
    Decidable (∀ g, answers.head? = some (some g) → P g) :=
  decidable_of_iff (∀ g ∈ answers.head?.join, P g) (by simp [Option.join_eq_some_iff])

instance VecMem.decidableFree (v : VecMem) (P : Nat → Prop) [DecidablePred P] :
    Decidable (∀ i, v.isFree i → P i) :=
  decidable_of_iff (∀ i < v.nentries, v.word i % 2 = 1 → P i)
    ⟨fun h i hi => h i hi.1 hi.2, fun h i hi hodd => h i ⟨hi, hodd⟩⟩

instance VecOp.decidableOk (v : VecMem) (op : VecOp) : Decidable (op.Ok v) :=
  match op with
  | .add _ _ _ => inferInstanceAs (Decidable (_ ∧ _ ∧ _ ∧ _))
  | .rem _ => inferInstanceAs (Decidable (_ < _))
  | .flag _ _ => inferInstanceAs (Decidable True)

instance VecOp.decidableSafe (v : VecMem) (op : VecOp) : Decidable (op.Safe v) :=
  match op with
  | .add _ _ answers => inferInstanceAs (Decidable (_ → ∀ g, answers.head? = some (some g) → _))
  | .rem _ => inferInstanceAs (Decidable (_ → _ → _ → ((∀ i, v.isFree i → False) ∨ _)))
  | .flag _ _ => inferInstanceAs (Decidable True)

instance VecAlong.decidable (P : VecMem → VecOp → Prop) [∀ v op, Decidable (P v op)] (fuel : Nat)
    (v : VecMem) (ops : List VecOp) : Decidable (VecAlong P fuel v ops) :=
  @Run.decidableAlong _ _ (fun v op => (vecStep fuel v op).map Prod.fst) P _ (VecAlong P fuel)
    (fun _ => trivial) (fun v op ops => by simp [VecAlong]) v ops

/-! ## One operation -/

section Step
variable {v : VecMem} {slots : List (Option VecObj)} {l : List Nat} {fuel : Nat}

theorem VecObj.word_even (o : VecObj) : o.word % 2 = 0 := by
  have := o.aligned
  unfold VecObj.word
  split <;> omega

theorem VecObj.word_ptr (o : VecObj) : vecPtr o.word = o.ptr := by
  have := o.aligned
  unfold VecObj.word vecPtr
  split <;> omega

theorem takeSlot_read (v : VecMem) (prev d : Cell Unit Nat) (cur object : Nat) :
    (takeSlot v prev cur object).read d =
      ((v.write prev (v.mem cur)).write (.next cur) object).read d := by
  cases d <;> simp [takeSlot, VecMem.read]

theorem giveSlot_read (v : VecMem) (vecp d : Cell Unit Nat) (index : Nat) :
    (giveSlot v vecp index).read d =
      ((v.write (.next (v.addr index)) (v.read vecp)).write vecp (vecFree (v.addr index))).read d := by
  cases d <;> simp [giveSlot, VecMem.read]

theorem scanBack_to {p k : Nat} (hp : v.word p % 2 = 1)
    (hocc : ∀ j, p < j → j ≤ p + k → v.word j % 2 = 0) (hf : k < fuel) :
    scanBack v fuel (v.addr (p + k)) = some (v.addr p) := by
  induction k generalizing fuel with
  | zero =>
    obtain ⟨n, rfl⟩ : ∃ n, fuel = n + 1 := ⟨fuel - 1, by omega⟩
    have hp' : v.mem (v.addr p) % 2 = 1 := hp
    simp [scanBack, hp']
  | succ k ih =>
    obtain ⟨n, rfl⟩ : ∃ n, fuel = n + 1 := ⟨fuel - 1, by omega⟩
    have hw : v.mem (v.addr (p + (k + 1))) % 2 = 0 := hocc (p + (k + 1)) (by omega) (by omega)
    have ha : v.addr (p + (k + 1)) - 8 = v.addr (p + k) := by
      unfold VecMem.addr
      omega
    rw [scanBack, if_pos hw, ha]
    exact ih (fun j hj hjk => hocc j hj (by omega)) (by omega)

theorem sorted_split {l : List Nat} (hs : l.Pairwise (· < ·)) {i : Nat} (hi : i ∉ l) :
    ∃ l1 l2, l = l1 ++ l2 ∧ (∀ j ∈ l1, j < i) ∧ ∀ j ∈ l2, i < j := by
  induction l with
  | nil => exact ⟨[], [], rfl, by simp, by simp⟩
  | cons a l ih =>
    rw [pairwise_cons] at hs
    have hia : i ≠ a := fun e => hi (by simp [e])
    by_cases ha : a < i
    · obtain ⟨l1, l2, rfl, h1, h2⟩ := ih hs.2 fun hm => hi (.tail _ hm)
      exact ⟨a :: l1, l2, rfl, forall_mem_cons.mpr ⟨ha, h1⟩, h2⟩
    · have hlt : i < a := by omega
      exact ⟨[], a :: l, rfl, by simp, forall_mem_cons.mpr ⟨hlt, fun j hj => Nat.lt_trans hlt (hs.1 j hj)⟩⟩

variable (h : Represents v slots l)
include h

theorem Represents.isFree (i : Nat) : v.isFree i ↔ i ∈ l := by
  constructor
  · rintro ⟨hi, hodd⟩
    rw [h.size] at hi
    rw [h.free, getElem?_eq_getElem hi]
    cases ho : slots[i] with
    | none => rfl
    | some o =>
      have hw : v.word i = o.word := h.occupied i o (by rw [getElem?_eq_getElem hi, ho])
      have heven := o.word_even
      omega
  · intro hi
    refine ⟨by rw [h.size]; exact h.lt hi, ?_⟩
    have ht : v.word i % 4 = 1 := h.tags i hi
    omega

theorem Represents.occupied_iff (i : Nat) :
    (v.nentries ≤ i ∨ v.word i % 2 = 1) ↔ ∀ o, slots[i]? ≠ some (some o) := by
  constructor
  · intro hi o ho
    have hlt := (List.getElem?_eq_some_iff.mp ho).1
    have hw : v.word i = o.word := h.occupied i o ho
    have heven := o.word_even
    rw [h.size] at hi
    omega
  · intro hno
    by_cases hi : v.nentries ≤ i
    · exact .inl hi
    · refine .inr ((h.isFree i).mpr ?_).2
      have hi' : i < slots.length := by rw [← h.size]; omega
      rw [h.free, getElem?_eq_getElem hi']
      cases ho : slots[i] with
      | none => rfl
      | some o => exact absurd (by rw [getElem?_eq_getElem hi', ho]) (hno o)

/-- The lookups give the object of the slot, `vector_lookup` only one without its flag. -/
theorem vectorLookup_represents (id : Nat) :
    vectorLookup2 v id = slots[id]?.join.elim 0 VecObj.ptr ∧
      vectorLookup v id = slots[id]?.join.elim 0 fun o => if o.flag then 0 else o.ptr := by
  by_cases hocc : ∀ o, slots[id]? ≠ some (some o)
  · have hjoin : slots[id]?.join = none :=
      Option.eq_none_iff_forall_ne_some.mpr fun o ho => hocc o (Option.join_eq_some_iff.mp ho)
    have hfree := (h.occupied_iff id).mpr hocc
    rw [vectorLookup2, if_neg (by omega), vectorLookup, if_neg (by omega), hjoin]
    exact ⟨rfl, rfl⟩
  · have hcond := mt (h.occupied_iff id).mp hocc
    obtain ⟨o, ho⟩ := not_forall_not.mp hocc
    have hal := o.aligned
    rw [vectorLookup2, if_pos (by omega), vectorLookup, show v.word id = o.word from h.occupied id o ho,
      o.word_ptr, ho]
    refine ⟨rfl, ?_⟩
    show (if _ ∧ o.word % 4 = 0 then o.word else 0) = if o.flag then 0 else o.ptr
    unfold VecObj.word
    cases o.flag with
    | false => exact if_pos ⟨by omega, hal⟩
    | true => exact if_neg fun hno => by simp only [if_true] at hno; omega

/-! ### `vector_flag` -/

theorem vectorFlag_represents (index : Nat) (flag : Bool) :
    ∃ v' r slots', vectorFlag v index flag = (v', r) ∧ Represents v' slots' l ∧
      (VecOp.flag index flag).Post slots (.int r) slots' := by
  by_cases hocc : ∀ o, slots[index]? ≠ some (some o)
  · refine ⟨v, -1, slots, ?_, h, .inr ⟨hocc, rfl, rfl⟩⟩
    rw [vectorFlag, if_pos ((h.occupied_iff index).mpr hocc)]
  · have hcond := mt (h.occupied_iff index).mp hocc
    obtain ⟨o, ho⟩ := not_forall_not.mp hocc
    have hword : v.word index = o.word := h.occupied index o ho
    refine ⟨v.write (.next (v.addr index)) (vecFlag (v.word index) flag), 0,
      slots.set index (some ⟨o.ptr, flag, o.aligned, o.pos⟩), ?_, ?_,
      .inl ⟨o, ⟨o.ptr, flag, o.aligned, o.pos⟩, ho, rfl, rfl, rfl, rfl⟩⟩
    · rw [vectorFlag, if_neg hcond]
    · refine h.reflag ho (by simp) (by simp) (by simp) (fun d hd => read_write_off _ hd) ?_
      have hal := o.aligned
      rw [read_write_self, hword]
      unfold vecFlag VecObj.word
      simp only
      split <;> split <;> omega

/-! ### `vector_add` -/

/-- The search finds a slot: it is the smallest free one from `index` on. -/
theorem vectorAdd_found {object index : Nat} (depth : Nat) (answers : List (Option Growth))
    (hobj : object % 4 = 0 ∧ 0 < object) (hf : l.length < fuel) (hex : ∃ i ∈ l, index ≤ i) :
    ∃ v' l' i o, vectorAdd fuel (depth + 1) v object index answers = some (v', Int.ofNat i) ∧
      o.ptr = object ∧ o.flag = false ∧ index ≤ i ∧ slots[i]? = some none ∧
      (∀ j, index ≤ j → j < i → slots[j]? ≠ some none) ∧
      Represents v' (slots.set i (some o)) l' := by
  obtain ⟨l1, l2, hl, hlt, hcase⟩ := findFree_chain h index (fun i hi => hi) h.chain hf
  rcases hcase with ⟨rfl, -⟩ | ⟨i, l3, rfl, hi, hfind⟩
  · obtain ⟨i, hil, hi⟩ := hex
    rw [hl, append_nil] at hil
    have := hlt i hil
    omega
  · have hil : i ∈ l := by rw [hl]; simp
    have hlen := h.lt hil
    have hmax := h.max
    have hnf := h.nfree
    have hll := h.length_le
    have hpos : 0 < l.length := length_pos_of_mem hil
    unfold vectorMax at hmax
    generalize he : endCell (Cell.head ()) (l1.map v.addr) = e at hfind
    have hne : e ≠ .next (v.addr i) := by
      have hnd := h.nodup
      rw [hl, map_append, map_cons] at hnd
      rw [← he]
      refine endCell_ne_next fun hm => ?_
      exact (nodup_append.mp hnd).2.2 _ hm _ (by simp) rfl
    refine ⟨takeSlot v e (v.addr i) object, l1 ++ l3, i, ⟨object, false, hobj.1, hobj.2⟩, ?_, rfl, rfl,
      hi, (h.free i).mp hil, ?_, ?_⟩
    · have hint : asInt i = Int.ofNat i := by
        unfold asInt
        rw [if_pos (by omega)]
        rfl
      simp only [vectorAdd, hfind, hint]
      rw [if_neg (by omega)]
    · intro j hj hji hjf
      have hjl := (h.free j).mpr hjf
      have hs := h.sorted
      rw [hl] at hjl hs
      rcases mem_append.mp hjl with hm | hm
      · have := hlt j hm
        omega
      · rcases mem_cons.mp hm with rfl | hm
        · omega
        · have := (pairwise_cons.mp (pairwise_append.mp hs).2.1).1 j hm
          omega
    · refine h.take hl (by simp [takeSlot]) (by simp [takeSlot]) ?_ ?_ ?_ ?_
      · show (_ + 2 ^ 16 - 1) % 2 ^ 16 = _
        simp only [write_nfree]
        omega
      · intro d hd hd'
        rw [he] at hd
        rw [takeSlot_read, read_write_off _ hd', read_write_off _ hd]
      · rw [he, takeSlot_read, read_write_off _ hne, read_write_self]
        rfl
      · rw [takeSlot_read, read_write_self]
        simp [VecObj.word]

theorem vectorAdd_none {object index depth : Nat} {answers : List (Option Growth)}
    (hobj : object % 4 = 0 ∧ 0 < object) (hf : l.length < fuel) (hno : ∀ i ∈ l, i < index) :
    vectorAdd fuel (depth + 1) v object index answers =
      if v.nentries = vectorMax then some (v, -1)
      else match answers with
        | some g :: answers => (vectorGrow fuel v index g).bind fun v =>
            vectorAdd fuel depth v object index answers
        | _ => some (v, -1) := by
  obtain ⟨l1, l2, hl, hlt, hcase⟩ := findFree_chain h index (fun i hi => hi) h.chain hf
  rcases hcase with ⟨rfl, hfind⟩ | ⟨i, l3, rfl, hi, -⟩
  · simp only [vectorAdd, hfind, if_neg (show ¬ object % 4 ≠ 0 by omega)]
    split
    · rfl
    · rcases answers with _ | ⟨_ | g, answers⟩
      · rfl
      · rfl
      · cases hg : vectorGrow fuel v index g with
        | none => simp [hg]
        | some v' => simp [hg, show object ≠ 0 by omega]
  · have := hno i (by rw [hl]; simp)
    omega

theorem Represents.none_from {index : Nat} (hno : ∀ i ∈ l, i < index) (i : Nat)
    (hi : index ≤ i) : slots[i]? ≠ some none :=
  fun hfree => Nat.not_lt.mpr hi (hno i ((h.free i).mpr hfree))

variable (hf : vectorMax + 1 < fuel)
include hf

theorem vectorAdd_represents {object index : Nat} {answers : List (Option Growth)}
    (hok : (VecOp.add object index answers).Ok v) (hsafe : (VecOp.add object index answers).Safe v) :
    ∃ v' r slots' l', vectorAdd fuel fuel v object index answers = some (v', r) ∧
      Represents v' slots' l' ∧ AddPost slots object index answers (.int r) slots' := by
  obtain ⟨hal, hpos, -, hfresh⟩ := hok
  have hmax := h.max
  have hll := h.length_le
  obtain ⟨k, rfl⟩ : ∃ k, fuel = k + 1 + 1 := ⟨fuel - 2, by omega⟩
  by_cases hex : ∃ i ∈ l, index ≤ i
  · obtain ⟨v', l', i, o, hrun, hp, hfl, hi, hfree, hleast, hrep⟩ :=
      vectorAdd_found h (k + 1) answers ⟨hal, hpos⟩ (by omega : l.length < k + 1 + 1) hex
    exact ⟨v', i, _, l', hrun, hrep, 0, by simp, .inl ⟨i, o, rfl, hp, hfl, hi,
      by simpa using hfree, by simpa using hleast, by simp⟩⟩
  · have hno : ∀ i ∈ l, i < index := fun i hi => Nat.lt_of_not_le fun hle => hex ⟨i, hi, hle⟩
    have hnofree := h.none_from hno
    rw [vectorAdd_none h ⟨hal, hpos⟩ (by omega) hno]
    have hfail {o} (ho : o = some (v, -1)) (hwhy) : ∃ v' r slots' l', o = some (v', r) ∧
        Represents v' slots' l' ∧ AddPost slots object index answers (.int r) slots' :=
      ⟨v, -1, slots, l, ho, h, 0, by simp, .inr ⟨rfl, by simp, by simpa using hnofree, hwhy⟩⟩
    by_cases hfull : v.nentries = vectorMax
    · rw [if_pos hfull]
      exact hfail rfl (.inl (by rw [← h.size, hfull]))
    · rw [if_neg hfull]
      rcases answers with _ | ⟨_ | g, answers⟩
      · exact hfail rfl (.inr (.inr (by simp)))
      · exact hfail rfl (.inr (.inr (by simp)))
      · have hlt : slots.length < vectorMax := by
          have := h.size
          omega
        have hkeep : g.Keeps v l := fun i hi =>
          hsafe (fun j hj => hno j ((h.isFree j).mp hj)) g rfl i ((h.isFree i).mpr hi)
        obtain ⟨v1, n, hgrow, hsize, hrep⟩ := vectorGrow_represents h hlt (hfresh g rfl) hkeep
          (show l.length < k + 1 + 1 by omega)
        have hmax1 := hrep.max
        have hll1 := hrep.length_le
        simp only [hgrow, Option.bind_some]
        by_cases hex1 : ∃ i ∈ l ++ range' slots.length n, index ≤ i
        · obtain ⟨v', l', i, o, hrun, hp, hfl, hi, hfree, hleast, hrep'⟩ :=
            vectorAdd_found hrep k answers ⟨hal, hpos⟩ (by omega : _ < k + 1 + 1) hex1
          exact ⟨v', i, _, l', hrun, hrep', n, fun _ => hnofree,
            .inl ⟨i, o, rfl, hp, hfl, hi, hfree, hleast, rfl⟩⟩
        · -- the index asked for is beyond the largest vector
          have hno1 : ∀ i ∈ l ++ range' slots.length n, i < index := fun i hi =>
            Nat.lt_of_not_le fun hle => hex1 ⟨i, hi, hle⟩
          have hbig : vectorMax ≤ index := by
            by_contra hlt'
            have := (grownSize_spec index hlt).2.2 (by omega)
            have := (grownSize_spec index hlt).1
            have hm : slots.length + n - 1 ∈ l ++ range' slots.length n :=
              mem_append_right _ (mem_range'_1.mpr (by omega))
            have := hno1 _ hm
            omega
          have hfull1 : v1.nentries = vectorMax := by
            have hs := hrep.size
            rw [length_append, length_replicate] at hs
            simp only [grownSize] at hsize
            (repeat' split at hsize) <;> omega
          rw [vectorAdd_none hrep ⟨hal, hpos⟩ (by omega) hno1, if_pos hfull1]
          exact ⟨v1, -1, _, _, rfl, hrep, n, fun _ => hnofree,
            .inr ⟨rfl, rfl, hrep.none_from hno1, .inr (.inl hbig)⟩⟩

/-! ### `vector_rem` -/

/-- The link `vector_rem` finds for an occupied slot is the one behind the free
slots below it. -/
theorem vectorRem_link {index : Nat} {o : VecObj} {l1 l2 : List Nat}
    (hocc : slots[index]? = some (some o)) (hl : l = l1 ++ l2) (h1 : ∀ j ∈ l1, j < index)
    (h2 : ∀ j ∈ l2, index < j) (hsafe : (VecOp.rem index).Safe v) :
    vectorRem fuel v index =
      some (giveSlot v (endCell (.head ()) (l1.map v.addr)) index, o.ptr) := by
  have hlen : index < slots.length := (List.getElem?_eq_some_iff.mp hocc).1
  have hword : v.word index = o.word := h.occupied index o hocc
  have hmax := h.max
  have hfits := h.fits
  have hsize := h.size
  have heven := o.word_even
  have hcond : ¬ (v.nentries ≤ index ∨ v.word index % 2 = 1) := by omega
  unfold vectorMax at hmax hf
  -- where the head of the chain points
  have hhead : ∀ k l', l = k :: l' → vecPtr v.free = v.addr k := by
    intro k l' hk
    have hch := h.chain
    rw [hk] at hch
    exact (ptr_of_links hch.1).1
  rw [vectorRem, if_neg hcond, hword, o.word_ptr]
  dsimp only
  cases l1 with
  | nil =>
    have hlink : vecPtr v.free = 0 ∨
        v.addr ((index + 2 ^ 32 - 1) % 2 ^ 32) % 2 ^ 64 < vecPtr v.free := by
      cases l2 with
      | nil =>
        have hch := h.chain
        rw [hl] at hch
        exact .inl (ptr_of_links_none hch)
      | cons k l' =>
        refine .inr ?_
        have hik := h2 k (by simp)
        rw [hhead k l' (by rw [hl]; rfl)]
        by_cases h0 : index = 0
        · -- the address of slot 2³² - 1 has to wrap
          subst h0
          have heven0 : v.word 0 % 2 = 0 := by omega
          rcases hsafe rfl (by omega) heven0 with hnone | hwrap
          · exact absurd ((h.isFree k).mpr (by rw [hl]; simp)) (hnone k)
          · unfold VecMem.addr at hwrap ⊢
            omega
        · unfold VecMem.addr
          omega
    rw [if_pos hlink]
    rfl
  | cons f r =>
    have hne : f :: r ≠ [] := by simp
    generalize hp : (f :: r).getLast hne = p
    have hpm : p ∈ f :: r := hp ▸ getLast_mem hne
    have hpi := h1 p hpm
    have hpl : p ∈ l := by rw [hl]; exact mem_append_left _ hpm
    have hsorted := h.sorted
    rw [hl, pairwise_append] at hsorted
    -- the free slots below `index` end at `p`
    have hle : ∀ j ∈ f :: r, j ≤ p := by
      intro j hj
      rw [← dropLast_append_getLast hne, hp, mem_append, mem_singleton] at hj
      rcases hj with hj | rfl
      · have hs := hsorted.1
        rw [← dropLast_append_getLast hne, hp, pairwise_append] at hs
        exact Nat.le_of_lt (hs.2.2 j hj p (by simp))
      · exact Nat.le_refl j
    have hidx : (index + 2 ^ 32 - 1) % 2 ^ 32 = p + (index - 1 - p) := by omega
    have hptr := hhead f (r ++ l2) (by rw [hl]; rfl)
    have hfp := hle f (by simp)
    have hlink : ¬ (vecPtr v.free = 0 ∨
        v.addr ((index + 2 ^ 32 - 1) % 2 ^ 32) % 2 ^ 64 < vecPtr v.free) := by
      have hpos := h.pos (fun e => by simp [e] at hlen)
      rw [hptr, hidx]
      unfold VecMem.addr
      omega
    have hscan : scanBack v fuel (v.addr ((index + 2 ^ 32 - 1) % 2 ^ 32) % 2 ^ 64) =
        some (v.addr p) := by
      have hmod : v.addr (p + (index - 1 - p)) % 2 ^ 64 = v.addr (p + (index - 1 - p)) := by
        unfold VecMem.addr
        omega
      rw [hidx, hmod]
      refine scanBack_to ((h.isFree p).mpr hpl).2 (fun j hj hjk => ?_) (by omega)
      by_contra hodd
      have hjl := (h.isFree j).mp ⟨by omega, by omega⟩
      rw [hl] at hjl
      rcases mem_append.mp hjl with hm | hm
      · have := hle j hm
        omega
      · have := h2 j hm
        omega
    rw [if_neg hlink, hscan]
    have hend : endCell (Cell.head ()) ((f :: r).map v.addr) = .next (v.addr p) := by
      rw [endCell_eq_next (by simp), getLast?_map, getLast?_eq_some_getLast hne, hp]
      rfl
    rw [hend]
    rfl

theorem vectorRem_represents {index : Nat} (hsafe : (VecOp.rem index).Safe v) :
    ∃ v' r slots' l', vectorRem fuel v index = some (v', r) ∧ Represents v' slots' l' ∧
      (VecOp.rem index).Post slots (.ptr r) slots' := by
  by_cases hocc : ∀ o, slots[index]? ≠ some (some o)
  · refine ⟨v, 0, slots, l, ?_, h, .inr ⟨hocc, rfl, rfl⟩⟩
    rw [vectorRem, if_pos ((h.occupied_iff index).mpr hocc)]
  · obtain ⟨o, ho⟩ := not_forall_not.mp hocc
    have hil : index ∉ l := fun hm => nomatch ((h.free index).mp hm).symm.trans ho
    obtain ⟨l1, l2, hl, h1, h2⟩ := sorted_split h.sorted hil
    generalize he : endCell (Cell.head ()) (l1.map v.addr) = e
    have hne : e ≠ .next (v.addr index) := by
      rw [← he]
      exact (next_ne_endCell v fun hm => Nat.lt_irrefl _ (h1 _ hm)).symm
    refine ⟨giveSlot v e index, o.ptr, slots.set index none, l1 ++ index :: l2, ?_, ?_,
      .inl ⟨o, ho, rfl, rfl⟩⟩
    · rw [← he]
      exact vectorRem_link h hf ho hl h1 h2 hsafe
    · refine h.give hl ho h1 h2 (by simp [giveSlot]) (by simp [giveSlot]) ?_ ?_ ?_ ?_
      · have hnf := h.nfree
        have hll := h.length_le
        have hmax := h.max
        unfold vectorMax at hmax
        simp only [giveSlot, write_nfree]
        omega
      · intro d hd hd'
        rw [he] at hd
        rw [giveSlot_read, read_write_off _ hd, read_write_off _ hd']
      · rw [he, giveSlot_read, read_write_self]
        have := h.aligned
        unfold vecFree VecMem.addr
        omega
      · rw [he, giveSlot_read, read_write_off _ hne.symm, read_write_self]

theorem vecStep_represents {op : VecOp} (hok : op.Ok v) (hsafe : op.Safe v) :
    ∃ v' r slots' l', vecStep fuel v op = some (v', r) ∧ Represents v' slots' l' ∧
      op.Post slots r slots' := by
  cases op with
  | add object index answers =>
    obtain ⟨v', r, slots', l', hrun, hrep, hpost⟩ := vectorAdd_represents h hf hok hsafe
    exact ⟨v', .int r, slots', l', by simp [vecStep, hrun], hrep, hpost⟩
  | rem index =>
    obtain ⟨v', r, slots', l', hrun, hrep, hpost⟩ := vectorRem_represents h hf hsafe
    exact ⟨v', .ptr r, slots', l', by simp [vecStep, hrun], hrep, hpost⟩
  | flag index flag =>
    obtain ⟨v', r, slots', hrun, hrep, hpost⟩ := vectorFlag_represents h index flag
    exact ⟨v', .int r, slots', l, by simp [vecStep, hrun], hrep, hpost⟩

theorem vecRun_represents {ops : List VecOp} (hok : VecAlong (fun v op => op.Ok v) fuel v ops)
    (hsafe : VecAlong (fun v op => op.Safe v) fuel v ops) :
    ∃ v' rs slots' l', vecRun fuel v ops = some (v', rs) ∧ Represents v' slots' l' ∧
      VecSteps slots ops rs slots' := by
  induction ops generalizing v slots l with
  | nil => exact ⟨v, [], slots, l, rfl, h, rfl⟩
  | cons op ops ih =>
    obtain ⟨v1, r, slots1, l1, hstep, h1, hpost⟩ := vecStep_represents h hf hok.1 hsafe.1
    obtain ⟨v', rs, slots', l', hrun, h', hsteps⟩ := ih h1 (hok.2 v1 r hstep) (hsafe.2 v1 r hstep)
    refine ⟨v', r :: rs, slots', l', ?_, h', slots1, hpost, hsteps⟩
    simp [vecRun, hstep, hrun]

end Step

/-- **The vector keeps its slots.** In every run from an empty vector whose
operations are all `Safe`, the table stands for the slots the operations made, with
the free chain through the free slots in increasing order. -/
theorem vector_run (mem : Nat → Nat) (ops : List VecOp) (fuel : Nat)
    (hok : VecAlong (fun v op => op.Ok v) fuel ⟨0, 0, 0, 0, mem⟩ ops)
    (hsafe : VecAlong (fun v op => op.Safe v) fuel ⟨0, 0, 0, 0, mem⟩ ops)
    (hf : vectorMax + 1 < fuel) :
    ∃ v' rs slots' l', vecRun fuel ⟨0, 0, 0, 0, mem⟩ ops = some (v', rs) ∧
      Represents v' slots' l' ∧ VecSteps [] ops rs slots' :=
  vecRun_represents (represents_empty mem) hf hok hsafe

/-- Three objects in a first table, the middle one removed, an object at slot 15 for
which the table grows and its chain of six is fixed up, and the smallest free slot
taken again. -/
def reuseOps : List VecOp :=
  [.add 0x1000 0 [some ⟨0x80000000, fun _ => 0⟩], .add 0x2000 0 [], .add 0x3000 0 [], .rem 1,
    .add 0x4000 15 [some ⟨0x80001000, fun _ => 0⟩], .add 0x5000 0 [], .rem 2, .flag 1 true]

theorem vector_run_reuse :
    ∃ v' slots' l', vecRun 65540 ⟨0, 0, 0, 0, fun _ => 0⟩ reuseOps =
        some (v', [.int 0, .int 1, .int 2, .ptr 0x2000, .int 15, .int 1, .ptr 0x3000, .int 0]) ∧
      Represents v' slots' l' ∧
      VecSteps [] reuseOps [.int 0, .int 1, .int 2, .ptr 0x2000, .int 15, .int 1, .ptr 0x3000, .int 0] slots' := by
  obtain ⟨v', rs, slots', l', hrun, hrep, hsteps⟩ := vector_run (fun _ => 0) reuseOps 65540
    (by decide +kernel) (by decide +kernel) (by decide)
  have hrs : (vecRun 65540 ⟨0, 0, 0, 0, fun _ => 0⟩ reuseOps).map Prod.snd =
      some [.int 0, .int 1, .int 2, .ptr 0x2000, .int 15, .int 1, .ptr 0x3000, .int 0] := by decide +kernel
  obtain rfl : rs = _ := by simpa [hrun] using hrs
  exact ⟨v', slots', l', hrun, hrep, hsteps⟩

/-- The free chain of `v`, at most `fuel` slots of it. -/
def VecMem.walk (v : VecMem) : Nat → Cell Unit Nat → List Nat
  | 0, _ => []
  | fuel + 1, c =>
    match v.links c with
    | none => []
    | some a => a :: v.walk fuel (.next a)

theorem walk_chain {v : VecMem} {c : Cell Unit Nat} {l : List Nat} {fuel : Nat}
    (h : Chain v.links c l) (hf : l.length < fuel) : v.walk fuel c = l := by
  induction l generalizing c fuel with
  | nil =>
    obtain ⟨k, rfl⟩ : ∃ k, fuel = k + 1 := ⟨fuel - 1, by simp at hf; omega⟩
    have hnone : v.links c = none := h
    simp [VecMem.walk, hnone]
  | cons a l ih =>
    obtain ⟨k, rfl⟩ : ∃ k, fuel = k + 1 := ⟨fuel - 1, by simp at hf; omega⟩
    simp only [VecMem.walk, h.1]
    rw [ih h.2 (by simp at hf; omega)]

/-- Slot 0 is given back while seven slots are free. -/
def remFirst : List VecOp := [.add 0x1000 0 [some ⟨0x80000000, fun _ => 0⟩], .rem 0]

/-- The second table is 4 GiB above the first. -/
def addFar : List VecOp :=
  [.add 0x1000 7 [some ⟨0x80000000, fun _ => 0⟩], .add 0x2000 8 [some ⟨0x180000000, fun _ => 0⟩]]

/-- Slot 0 given back to a vector with free slots is lost to the chain, and a
vector that moves up by 4 GiB loses its chain: the next object goes to a word of
the old table, and its index is negative. -/
theorem vector_run_breaks :
    (∃ v' rs, vecRun 20 ⟨0, 0, 0, 0, fun _ => 1⟩ remFirst = some (v', rs) ∧
        VecAlong (fun v op => op.Ok v) 20 ⟨0, 0, 0, 0, fun _ => 1⟩ remFirst ∧
        ¬ ∃ slots l, Represents v' slots l) ∧
      (∃ v' rs, vecRun 20 ⟨0, 0, 0, 0, fun _ => 0⟩ addFar = some (v', rs) ∧
        VecAlong (fun v op => op.Ok v) 20 ⟨0, 0, 0, 0, fun _ => 0⟩ addFar ∧
        ¬ ∃ slots', VecSteps [] addFar rs slots') := by
  constructor
  · have hfacts : (vecRun 20 ⟨0, 0, 0, 0, fun _ => 1⟩ remFirst).map
          (fun p => (p.1.nfree, (p.1.walk 9 (.head ())).length)) = some (8, 7) := by
      decide +kernel
    obtain ⟨⟨v', rs⟩, hrun, hv'⟩ := Option.map_eq_some_iff.mp hfacts
    refine ⟨v', rs, hrun, by decide +kernel, ?_⟩
    rintro ⟨slots, l, h⟩
    -- `nfree` counts slot 0, which the chain does not reach
    obtain ⟨hnf, hwalk⟩ : v'.nfree = 8 ∧ (v'.walk 9 (.head ())).length = 7 := by simpa using hv'
    have hlen : l.length = 8 := by rw [← h.nfree, hnf]
    rw [walk_chain h.chain (by simp [hlen]), length_map] at hwalk
    omega
  · have hfacts : (vecRun 20 ⟨0, 0, 0, 0, fun _ => 0⟩ addFar).map Prod.snd =
        some [.int 7, .int (-536870912)] := by
      decide +kernel
    obtain ⟨⟨v', rs⟩, hrun, hrs⟩ := Option.map_eq_some_iff.mp hfacts
    obtain rfl : rs = [.int 7, .int (-536870912)] := hrs
    refine ⟨v', _, hrun, by decide +kernel, ?_⟩
    rintro ⟨slots', s, -, s', ⟨k, -, hcase⟩, -⟩
    rcases hcase with ⟨i, o, hi, -⟩ | ⟨hi, -⟩ <;> simp at hi

end QRV.Nano
