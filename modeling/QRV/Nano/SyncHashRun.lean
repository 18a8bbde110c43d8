import QRV.Nano.SyncHash

/- The sync hash is an exact map.

   The two levels are one family of bins (Lib/Bins): `Hash.bins`, with the key
   `(obj, addr)` hashed to its page and its cell. synchash_add puts an entry in front of
   its bin (`bins_link`), synchash_rem filters bins (`bins_rem`), and the sweep over a
   range leaves nothing of the range behind because it meets every page in it
   (`kerSynchashRem_spec`). -/
namespace QRV.Nano.SyncHash
open Function (update update_of_ne update_self)

open Bins List Option

variable {O S : Type} [DecidableEq O]
variable {h : Hash O S} {obp : O} {w : World O S}

def Entry.key (e : Entry O S) : O × Nat := (e.obj, e.addr)

def binOf (k : O × Nat) : Nat × Nat := (hashFunc k.2, secHash k.2)

/-- The hash is a family of bins. -/
abbrev Hash.Placed (h : Hash O S) : Prop := Bins.Placed binOf Entry.key h.bins

/-- What the hash holds for an object and an `unsigned` address. -/
def Hash.find (h : Hash O S) (k : O × Nat) : Option (Entry O S) := Bins.find binOf Entry.key h.bins k

theorem synchashLookup_eq (obp : O) (i : Int) (h : Hash O S) :
    synchashLookup obp i h = (h.find (obp, uint i)).map (·.syp) := by
  unfold synchashLookup Hash.find Bins.find binOf Entry.key
  simp only [Prod.mk.injEq, and_comm]

theorem uint_nat {i : Int} (h0 : 0 ≤ i) (h : i < 2 ^ 32) : (uint i : Int) = i := by
  unfold uint
  omega

theorem uint_cast {n : Nat} (h : n < 2 ^ 32) : uint n = n := by
  unfold uint
  omega

theorem uint_lt (i : Int) : uint i < 2 ^ 32 := by
  unfold uint
  omega

omit [DecidableEq O] in
theorem bins_update (h : Hash O S) (p : Nat) (table : Nat → List (Entry O S)) (i j : Nat) :
    Hash.bins ⟨update h.table p (some table)⟩ (i, j) = if i = p then table j else h.bins (i, j) := by
  unfold Hash.bins
  by_cases hi : i = p
  · rw [if_pos hi]
    simp only [hi, update_self]
  · rw [if_neg hi]
    simp only [update_of_ne hi]

/-! ## synchash_add -/

omit [DecidableEq O] in
theorem bins_link (h : Hash O S) (e : Entry O S) (table : Nat → List (Entry O S))
    (ht : ∀ j, h.bins (hashFunc e.addr, j) = table j) :
    Hash.bins ⟨update h.table (hashFunc e.addr)
        (some (update table (secHash e.addr) (e :: table (secHash e.addr))))⟩ =
      update h.bins (binOf e.key) (e :: h.bins (binOf e.key)) := by
  funext i
  obtain ⟨i, j⟩ := i
  have hkey : binOf e.key = (hashFunc e.addr, secHash e.addr) := rfl
  rw [hkey, bins_update, ht]
  by_cases hi : i = hashFunc e.addr
  · subst hi
    rw [if_pos rfl]
    by_cases hj : j = secHash e.addr
    · rw [hj, update_self, update_self]
    · rw [update_of_ne hj, update_of_ne (by simpa using hj), ht]
  · rw [if_neg hi, update_of_ne (by simp [hi])]

/-- synchash_add: the entry is new and is found under its key, or nothing changes. It succeeds for
a key that is not there, unless the allocation of a table fails. -/
theorem synchashAdd_spec (hp : h.Placed) (alloc : Bool) (obp : O) (i : Int) (syp : S) :
    (synchashAdd alloc obp i syp h).1.Placed ∧
    ((synchashAdd alloc obp i syp h).2 = 0 → h.find (obp, uint i) = none ∧
      ∀ k, (synchashAdd alloc obp i syp h).1.find k = if k = (obp, uint i) then some ⟨syp, obp, uint i⟩ else h.find k) ∧
    ((synchashAdd alloc obp i syp h).2 ≠ 0 → (synchashAdd alloc obp i syp h).1 = h) ∧
    (alloc = true → h.find (obp, uint i) = none → (synchashAdd alloc obp i syp h).2 = 0) := by
  have hself : (uint (uint i : Int)) = uint i := uint_cast (uint_lt i)
  unfold synchashAdd
  dsimp only
  rw [synchashLookup_eq, isSome_map, hself]
  by_cases hs : (h.find (obp, uint i)).isSome = true
  · rw [if_pos hs]
    exact ⟨hp, fun h0 => (by simp at h0), fun _ => rfl, fun _ hnone => by rw [hnone] at hs; cases hs⟩
  rw [if_neg hs]
  have hnone : h.find (obp, uint i) = none := not_isSome_iff_eq_none.mp hs
  have hlink : ∀ table {h' : Hash O S}, (∀ j, h.bins (hashFunc (uint i), j) = table j) →
      h' = ⟨update h.table (hashFunc (uint i))
        (some (update table (secHash (uint i)) (⟨syp, obp, uint i⟩ :: table (secHash (uint i)))))⟩ →
      h'.Placed ∧ ∀ k, h'.find k = if k = (obp, uint i) then some ⟨syp, obp, uint i⟩ else h.find k := by
    intro table h' ht hlinked
    have hb := bins_link h ⟨syp, obp, uint i⟩ table ht
    unfold Hash.Placed Hash.find
    rw [hlinked, hb]
    exact ⟨hp.insert hnone, fun k => find_insert h.bins ⟨syp, obp, uint i⟩ k⟩
  cases htab : h.table (hashFunc (uint i)) with
  | some table =>
    obtain ⟨h1, h2⟩ := hlink table (fun j => by simp only [Hash.bins, htab]) rfl
    exact ⟨h1, fun _ => ⟨hnone, h2⟩, fun h0 => absurd rfl h0, fun _ _ => rfl⟩
  | none =>
    cases alloc with
    | false => exact ⟨hp, fun h0 => (by simp at h0), fun _ => rfl, nofun⟩
    | true =>
      obtain ⟨h1, h2⟩ := hlink (fun _ => []) (fun j => by simp only [Hash.bins, htab]) rfl
      exact ⟨h1, fun _ => ⟨hnone, h2⟩, fun h0 => absurd rfl h0, fun _ _ => rfl⟩

/-! ## synchash_rem -/

/-- A bin is filtered: a single removal takes the only entry with its key. -/
theorem sweepBin_eq {addr1 addr2 : Nat} {es : List (Entry O S)} (h : (es.map Entry.key).Nodup) :
    (sweepBin obp addr1 addr2 es).1 = es.filter fun e => !e.isIn obp addr1 addr2 := by
  induction es with
  | nil => rfl
  | cons e es ih =>
    rw [map_cons, nodup_cons] at h
    rw [sweepBin]
    by_cases he : e.isIn obp addr1 addr2 = true
    · rw [if_pos he, filter_cons_of_neg (by simpa using he)]
      by_cases ha : addr1 = addr2
      · rw [if_pos ha]
        symm
        refine filter_eq_self.mpr fun e' he' => ?_
        simp only [Bool.not_eq_true']
        refine Bool.eq_false_iff.mpr fun hin => h.1 ?_
        have hkey : e'.key = e.key := by
          simp only [Entry.isIn, decide_eq_true_eq] at he hin
          unfold Entry.key
          rw [he.1, hin.1, show e'.addr = e.addr by omega]
        rw [← hkey]
        exact mem_map_of_mem he'
      · rw [if_neg ha]
        exact ih h.2
    · rw [if_neg he, filter_cons_of_pos (by simpa using he), ← ih h.2]

theorem sweepBin_goes_on {addr1 addr2 : Nat} (h : addr1 ≠ addr2) (es : List (Entry O S)) :
    (sweepBin obp addr1 addr2 es).2 = false := by
  induction es with
  | nil => rfl
  | cons e es ih =>
    rw [sweepBin]
    split_ifs <;> exact ih

theorem sweepBins_eq {addr1 addr2 : Nat} {is : List Nat} (his : is.Nodup)
    (h : addr1 ≠ addr2 ∨ ∃ i, is = [i]) {table : Nat → List (Entry O S)}
    (ht : ∀ i, ((table i).map Entry.key).Nodup) (j : Nat) :
    sweepBins obp addr1 addr2 is table j =
      if j ∈ is then (table j).filter fun e => !e.isIn obp addr1 addr2 else table j := by
  induction is generalizing table with
  | nil => rfl
  | cons i is ih =>
    rw [nodup_cons] at his
    have hlater : (if (sweepBin obp addr1 addr2 (table i)).2 = true then
          update table i (sweepBin obp addr1 addr2 (table i)).1
        else sweepBins obp addr1 addr2 is (update table i (sweepBin obp addr1 addr2 (table i)).1)) j =
        if j ∈ is then (table j).filter fun e => !e.isIn obp addr1 addr2
        else update table i (sweepBin obp addr1 addr2 (table i)).1 j := by
      have hne : ∀ {j}, j ∈ is → j ≠ i := fun hj h => his.1 (h ▸ hj)
      cases h with
      | inl h =>
        rw [sweepBin_goes_on h, if_neg (by decide), ih his.2 (.inl h)]
        · split_ifs with hj
          · rw [update_of_ne (hne hj)]
          · rfl
        · intro j
          by_cases hj : j = i
          · rw [hj, update_self, sweepBin_eq (ht i)]
            exact (ht i).sublist (filter_sublist.map _)
          · rw [update_of_ne hj]
            exact ht j
      | inr h =>
        obtain ⟨i', hi'⟩ := h
        obtain rfl : is = [] := (cons.inj hi').2
        rw [if_neg (not_mem_nil)]
        split_ifs <;> rfl
    rw [sweepBins]
    dsimp only
    rw [hlater]
    by_cases hj : j = i
    · rw [hj, if_neg his.1, if_pos mem_cons_self, update_self, sweepBin_eq (ht i)]
    · rw [update_of_ne hj]
      simp only [mem_cons, hj, false_or]

/-- What synchash_rem removes. -/
def removed (addr : Nat) (obp : O) (addr1 addr2 : Nat) (k : O × Nat) : Bool :=
  k.1 = obp ∧ addr1 ≤ k.2 ∧ k.2 ≤ addr2 ∧ hashFunc k.2 = hashFunc addr ∧ (addr1 = addr2 → secHash k.2 = secHash addr)

theorem mem_scanned {addr addr1 addr2 : Nat} (a : Nat) :
    secHash a ∈ scanned addr addr1 addr2 ↔ (addr1 = addr2 → secHash a = secHash addr) := by
  have hlt : secHash a < secHashBins := Nat.mod_lt _ (by decide)
  unfold scanned
  split_ifs with h
  · simp [h]
  · simp [h, hlt]

theorem bins_rem (hp : h.Placed) (address : Int) (obp : O) (address1 address2 : Int) :
    (synchashRem address obp address1 address2 false h).bins =
      fun i => (h.bins i).filter fun e => !removed (uint address) obp (uint address1) (uint address2) e.key := by
  funext i
  obtain ⟨i, j⟩ := i
  have hbin : ∀ e ∈ h.bins (i, j), hashFunc e.addr = i ∧ secHash e.addr = j := fun e he => by
    have := hp.at_hash he
    exact ⟨congrArg Prod.fst this, congrArg Prod.snd this⟩
  have hother : i ≠ hashFunc (uint address) →
      (h.bins (i, j)).filter (fun e => !removed (uint address) obp (uint address1) (uint address2) e.key) = h.bins (i, j) := by
    intro hi
    refine filter_eq_self.mpr fun e he => ?_
    have hne : hashFunc e.addr ≠ hashFunc (uint address) := fun h => hi ((hbin e he).1 ▸ h)
    simp [removed, Entry.key, hne]
  unfold synchashRem
  dsimp only
  cases htab : h.table (hashFunc (uint address)) with
  | none =>
    by_cases hi : i = hashFunc (uint address)
    · have hnil : h.bins (i, j) = [] := by
        rw [hi]
        simp only [Hash.bins, htab]
      rw [hnil]
      rfl
    · exact (hother hi).symm
  | some table =>
    dsimp only
    rw [if_neg (by decide), bins_update]
    by_cases hi : i = hashFunc (uint address)
    · have htable : ∀ j, h.bins (i, j) = table j := fun j => by
        rw [hi]
        simp only [Hash.bins, htab]
      rw [if_pos hi, sweepBins_eq, ← htable]
      · split_ifs with hj
        · refine filter_congr fun e he => ?_
          rw [← (hbin e he).2, mem_scanned] at hj
          have hpage : hashFunc e.addr = hashFunc (uint address) := (hbin e he).1.trans hi
          simp only [removed, Entry.key, Entry.isIn, hpage, iff_true_intro hj, and_true]
        · symm
          refine filter_eq_self.mpr fun e he => ?_
          rw [← (hbin e he).2, mem_scanned] at hj
          simp [removed, Entry.key, hj]
      · unfold scanned
        split_ifs
        · exact nodup_singleton _
        · exact nodup_range
      · by_cases ha : uint address1 = uint address2
        · exact .inr ⟨_, if_pos ha⟩
        · exact .inl ha
      · intro j
        rw [← htable]
        exact hp.nodup _
    · rw [if_neg hi]
      exact (hother hi).symm

theorem synchashRem_prp (address : Int) (obp : O) (address1 address2 : Int) (h : Hash O S) :
    synchashRem address obp address1 address2 true h = h := by
  unfold synchashRem
  dsimp only
  cases h.table (hashFunc (uint address)) with
  | none => rfl
  | some table => rfl

/-- synchash_rem removes the entries of the object in the range and on the page. -/
theorem synchashRem_spec (hp : h.Placed) (address : Int) (obp : O) (address1 address2 : Int) :
    (synchashRem address obp address1 address2 false h).Placed ∧
    ∀ k, (synchashRem address obp address1 address2 false h).find k =
      if removed (uint address) obp (uint address1) (uint address2) k then none else h.find k := by
  unfold Hash.Placed Hash.find
  rw [bins_rem hp]
  refine ⟨hp.filter _, fun k => ?_⟩
  rw [find_filter hp]
  cases hf : Bins.find binOf Entry.key h.bins k with
  | none => simp
  | some e =>
    have hk := find_key hf
    rw [filter_some, hk]
    by_cases hr : removed (uint address) obp (uint address1) (uint address2) k = true <;> simp [hr]

/-! ## MemobjDestroyed -/

theorem page_eq {n m : Nat} : page n = page m ↔ n / hashPagesize = m / hashPagesize := by
  unfold page hashPagesize
  omega


section
variable {addr last : Nat}

theorem next_page (hlast : last < 2 ^ 32) (ha : addr / hashPagesize ≤ last / hashPagesize)
    (hend : ¬ page addr = page last) : addr / hashPagesize < last / hashPagesize ∧
      uint ((addr + hashPagesize : Nat) : Int) = addr + hashPagesize ∧
      (addr + hashPagesize) / hashPagesize = addr / hashPagesize + 1 := by
  have hlt : addr / hashPagesize < last / hashPagesize := Nat.lt_of_le_of_ne ha fun h => hend (page_eq.mpr h)
  refine ⟨hlt, uint_cast ?_, Nat.add_div_right _ (by decide)⟩
  unfold hashPagesize at hlt ⊢
  omega

theorem late_iff : page last + (hashPagesize - 1 : Nat) < (addr : Int) ↔ last / hashPagesize < addr / hashPagesize := by
  unfold page hashPagesize
  omega

end

/-- The keys of the object in the range. -/
def inRange (obp : O) (start last : Nat) (k : O × Nat) : Prop := k.1 = obp ∧ start ≤ k.2 ∧ k.2 ≤ last

/-- The sweep from a page on removes what is in the range from that page on, and nothing that
is not in the range. -/
theorem kerSynchashRem_spec (obp : O) {start last : Nat} (hl : last < 2 ^ 32) {n addr : Nat} (hs : start ≤ addr)
    (hone : start = last → addr = start) (ha : addr / hashPagesize ≤ last / hashPagesize)
    (hn : last / hashPagesize - addr / hashPagesize < n) (hp : h.Placed) :
    ∃ h', kerSynchashRem obp start last false n addr h = some h' ∧ h'.Placed ∧
      (∀ k, ¬ inRange obp start last k → h'.find k = h.find k) ∧
      (∀ k, inRange obp start last k → addr / hashPagesize ≤ k.2 / hashPagesize → h'.find k = none) ∧
      (∀ k, h.find k = none → h'.find k = none) := by
  induction n generalizing addr h with
  | zero => omega
  | succ n ih =>
    have haddr : addr < 2 ^ 32 := by
      unfold hashPagesize at ha
      omega
    obtain ⟨hp1, hf1⟩ := synchashRem_spec hp addr obp start last
    rw [uint_cast haddr, uint_cast hl, uint_cast (show start < 2 ^ 32 by omega)] at hf1
    have hkeep : ∀ k, ¬ inRange obp start last k → (synchashRem addr obp start last false h).find k = h.find k := by
      intro k hk
      rw [hf1, if_neg]
      simp only [removed, decide_eq_true_eq]
      exact fun hr => hk ⟨hr.1, hr.2.1, hr.2.2.1⟩
    have hgone : ∀ k, h.find k = none → (synchashRem addr obp start last false h).find k = none := by
      intro k hk
      rw [hf1, hk, ite_self]
    have hpage : ∀ k, inRange obp start last k → k.2 / hashPagesize = addr / hashPagesize →
        (synchashRem addr obp start last false h).find k = none := by
      intro k hk hpk
      rw [hf1, if_pos]
      simp only [removed, decide_eq_true_eq]
      refine ⟨hk.1, hk.2.1, hk.2.2, congrArg (· % 1024) hpk, fun he => ?_⟩
      have hlow := hk.2.1
      have hhigh := hk.2.2
      rw [hone he, show k.2 = start by omega]
    rw [kerSynchashRem]
    by_cases hend : page addr = page last
    · rw [if_pos hend]
      refine ⟨_, rfl, hp1, hkeep, fun k hk hpk => hpage k hk ?_, hgone⟩
      have hhigh : k.2 / hashPagesize ≤ last / hashPagesize := Nat.div_le_div_right hk.2.2
      have := page_eq.mp hend
      omega
    · rw [if_neg hend]
      obtain ⟨hlt, hfits, hnext⟩ := next_page hl ha hend
      have hless : start < last := by
        unfold hashPagesize at hlt
        omega
      rw [← Int.natCast_add, hfits]
      obtain ⟨h', he, hp', h1, h2, h3⟩ := ih (show start ≤ addr + hashPagesize by omega) (fun h => by omega) (by omega)
        (by omega) hp1
      refine ⟨h', he, hp', fun k hk => (h1 k hk).trans (hkeep k hk), fun k hk hpk => ?_, fun k hk => h3 k (hgone k hk)⟩
      by_cases hsame : k.2 / hashPagesize = addr / hashPagesize
      · exact h3 k (hpage k hk hsame)
      · exact h2 k hk (by omega)

theorem kerSynchashRem_prp {start last : Int} {m : Nat} (hm : m < 2 ^ 32) (hlast : last = m) {n addr : Nat}
    (ha : addr / hashPagesize ≤ m / hashPagesize) (hn : m / hashPagesize - addr / hashPagesize < n) (h : Hash O S) :
    kerSynchashRem obp start last true n addr h = some h := by
  induction n generalizing addr with
  | zero => omega
  | succ n ih =>
    rw [kerSynchashRem, synchashRem_prp, hlast]
    by_cases hend : page addr = page m
    · rw [if_pos hend]
    · rw [if_neg hend, ← hlast]
      obtain ⟨hlt, hfits, hnext⟩ := next_page hm ha hend
      rw [← Int.natCast_add, hfits]
      exact ih (by omega) (by omega)

/-- An address that an `unsigned` can hold. -/
def Low (i : Int) : Prop := 0 ≤ i ∧ i < 2 ^ 32

instance (i : Int) : Decidable (Low i) := inferInstanceAs (Decidable (_ ∧ _))

/-- MemobjDestroyed removes the entries of the object in the range. -/
theorem memobjDestroyed_spec (hp : h.Placed) (obp : O) {start last : Int} (hs : Low start)
    (hl : Low last) (prp : Bool) : ∃ h', memobjDestroyed obp start last prp h = some h' ∧ h'.Placed ∧
      ∀ k, h'.find k = if prp = false ∧ k.1 = obp ∧ start ≤ k.2 ∧ k.2 ≤ last then none else h.find k := by
  obtain ⟨s, rfl⟩ := Int.eq_ofNat_of_zero_le hs.1
  obtain ⟨l, rfl⟩ := Int.eq_ofNat_of_zero_le hl.1
  have hs32 : s < 2 ^ 32 := by exact_mod_cast hs.2
  have hl32 : l < 2 ^ 32 := by exact_mod_cast hl.2
  unfold memobjDestroyed
  rw [uint_cast hs32]
  by_cases hlate : page (l : Int) + ((hashPagesize - 1 : Nat) : Int) < (s : Int)
  · rw [if_pos hlate]
    refine ⟨h, rfl, hp, fun k => ?_⟩
    rw [if_neg]
    rintro ⟨-, -, h1, h2⟩
    unfold page hashPagesize at hlate
    omega
  · rw [if_neg hlate]
    have hpages : s / hashPagesize ≤ l / hashPagesize := Nat.not_lt.mp (late_iff.not.mp hlate)
    have hfuel : l / hashPagesize - s / hashPagesize < 2 ^ 20 := by
      unfold hashPagesize
      omega
    cases prp with
    | true => exact ⟨h, kerSynchashRem_prp hl32 rfl hpages hfuel h, hp, fun k => (if_neg (by simp)).symm⟩
    | false =>
      obtain ⟨h', he, hp', h1, h2, -⟩ := kerSynchashRem_spec obp hl32 (Nat.le_refl s) (fun _ => rfl) hpages hfuel hp
      refine ⟨h', he, hp', fun k => ?_⟩
      by_cases hk : inRange obp s l k
      · have hlow : s / hashPagesize ≤ k.2 / hashPagesize := Nat.div_le_div_right hk.2.1
        rw [h2 k hk hlow, if_pos ⟨rfl, hk.1, by have := hk.2.1; omega, by have := hk.2.2; omega⟩]
      · rw [h1 k hk, if_neg]
        rintro ⟨-, ho, hlo, hhi⟩
        exact hk ⟨ho, by omega, by omega⟩

/-! ## Runs -/

/-- What the callers promise: addresses below 2^32, and that an entry is added once. -/
def Ok (w : World O S) : Op O S → Prop
  | .add _ addr syp _ => Low addr ∧ ∀ o i, w.entries o i ≠ some syp
  | .rem addr _ addr1 addr2 _ => Low addr ∧ Low addr1 ∧ Low addr2
  | .destroyed _ start last _ => Low start ∧ Low last

/-- Every call of the run keeps the promises. -/
def OkAlong : List (Op O S) → World O S → Prop
  | [], _ => True
  | op :: ops, w => Ok w op ∧ ∀ w', w.step op = some w' → OkAlong ops w'

/-- No entry is known for two keys. -/
def Unique (m : O → Int → Option S) : Prop := ∀ o i o' i' s, m o i = some s → m o' i' = some s → o = o' ∧ i = i'

/-- The hash holds the entries, each of which is known for one key. -/
structure Exact (w : World O S) : Prop where
  placed : w.hash.Placed
  found : ∀ o i, Low i → (w.hash.find (o, uint i)).map (·.syp) = w.entries o i
  unique : Unique w.entries


omit [DecidableEq O] in
theorem without_unique {m : O → Int → Option S} {p : O → Int → Prop} [∀ o i, Decidable (p o i)]
    (hm : Unique m) : Unique (without p m) := by
  intro o i o' i' s h h'
  unfold without at h h'
  split_ifs at h h'
  exact hm o i o' i' s h h'

theorem low_uint {i j : Int} (hi : Low i) (hj : Low j) : uint i = uint j ↔ i = j := by
  have h1 := uint_nat hi.1 hi.2
  have h2 := uint_nat hj.1 hj.2
  omega

theorem add_exact (h : Exact w) {addr : Int} {syp : S} (alloc : Bool) (hlow : Low addr)
    (hnew : ∀ o i, w.entries o i ≠ some syp) : Exact ⟨(synchashAdd alloc obp addr syp w.hash).1,
      if (synchashAdd alloc obp addr syp w.hash).2 = 0 then
        fun o i => if o = obp ∧ i = addr then some syp else w.entries o i
      else w.entries⟩ := by
  obtain ⟨hp, hset, hkeep, -⟩ := synchashAdd_spec h.placed alloc obp addr syp
  by_cases h0 : (synchashAdd alloc obp addr syp w.hash).2 = 0
  · rw [if_pos h0]
    refine ⟨hp, ?_, ?_⟩
    · intro o i hi
      rw [(hset h0).2]
      simp only [Prod.mk.injEq, low_uint hi hlow]
      split_ifs
      · rfl
      · exact h.found o i hi
    · intro o i o' i' s h1 h2
      dsimp only at h1 h2
      split_ifs at h1 h2 with hk hk' hk'
      · exact ⟨hk.1.trans hk'.1.symm, hk.2.trans hk'.2.symm⟩
      · cases h1
        exact absurd h2 (hnew _ _)
      · cases h2
        exact absurd h1 (hnew _ _)
      · exact h.unique o i o' i' s h1 h2
  · rw [if_neg h0, hkeep h0]
    exact h

theorem rem_exact (h : Exact w) (addr : Int) (obp : O) {addr1 addr2 : Int} (hlow1 : Low addr1)
    (hlow2 : Low addr2) : Exact ⟨synchashRem addr obp addr1 addr2 false w.hash,
      without (fun o i => false = false ∧ o = obp ∧ addr1 ≤ i ∧ i ≤ addr2 ∧ hashFunc (uint i) = hashFunc (uint addr) ∧
        (addr1 = addr2 → secHash (uint i) = secHash (uint addr))) w.entries⟩ := by
  obtain ⟨hp, hf⟩ := synchashRem_spec h.placed addr obp addr1 addr2
  refine ⟨hp, ?_, without_unique h.unique⟩
  intro o i hi
  have h1 := uint_nat hi.1 hi.2
  have h2 := uint_nat hlow1.1 hlow1.2
  have h3 := uint_nat hlow2.1 hlow2.2
  unfold without
  rw [hf, apply_ite (Option.map _)]
  refine if_congr ?_ rfl (h.found o i hi)
  simp only [removed, decide_eq_true_eq, true_and]
  rw [low_uint hlow1 hlow2, show (uint addr1 ≤ uint i ↔ addr1 ≤ i) by omega,
    show (uint i ≤ uint addr2 ↔ i ≤ addr2) by omega]

theorem destroyed_exact (h : Exact w) (obp : O) {start last : Int} (hs : Low start) (hl : Low last)
    (prp : Bool) : ∃ h', memobjDestroyed obp start last prp w.hash = some h' ∧
      Exact ⟨h', without (fun o i => prp = false ∧ o = obp ∧ start ≤ i ∧ i ≤ last) w.entries⟩ := by
  obtain ⟨h', he, hp, hf⟩ := memobjDestroyed_spec h.placed obp hs hl prp
  refine ⟨h', he, hp, fun o i hi => ?_, without_unique h.unique⟩
  unfold without
  rw [hf]
  simp only [uint_nat hi.1 hi.2]
  split_ifs
  · rfl
  · exact h.found o i hi


theorem step_exact (h : Exact w) {op : Op O S} (hok : Ok w op) :
    ∃ w', w.step op = some w' ∧ Exact w' := by
  cases op with
  | add obp addr syp alloc => exact ⟨_, rfl, add_exact h alloc hok.1 hok.2⟩
  | rem addr obp addr1 addr2 prp =>
    refine ⟨_, rfl, ?_⟩
    cases prp with
    | true =>
      rw [synchashRem_prp]
      unfold without
      simpa using h
    | false => exact rem_exact h addr obp hok.2.1 hok.2.2
  | destroyed obp start last prp =>
    obtain ⟨h', he, hx⟩ := destroyed_exact h obp hok.1 hok.2 prp
    refine ⟨_, ?_, hx⟩
    rw [World.step, he]
    rfl

theorem run_exact (h : Exact w) {ops : List (Op O S)} (hok : OkAlong ops w) :
    ∃ w', World.run ops w = some w' ∧ Exact w' := by
  induction ops generalizing w with
  | nil => exact ⟨w, rfl, h⟩
  | cons op ops ih =>
    obtain ⟨w1, he, h1⟩ := step_exact h hok.1
    rw [World.run, he]
    exact ih h1 (hok.2 w1 he)

/-- **The sync hash is an exact map.** After any calls of synchash_add, synchash_rem and
MemobjDestroyed with addresses below 2^32, each of which returns, synchash_lookup finds for an
object and an address the entry that was added for them and not removed since, and nothing
else. No entry is known for two keys, and synchash_add succeeds for exactly the keys that are
not there. -/
theorem synchash_exact (ops : List (Op O S)) (hok : OkAlong ops World.empty) :
    ∃ w, World.run ops World.empty = some w ∧
      (∀ obp addr, Low addr → synchashLookup obp addr w.hash = w.entries obp addr) ∧
      Unique w.entries ∧
      (∀ obp addr syp, Low addr → ((synchashAdd true obp addr syp w.hash).2 = 0 ↔ w.entries obp addr = none)) := by
  obtain ⟨w, he, h⟩ := run_exact (w := World.empty) ⟨⟨nofun, fun _ => nodup_nil⟩, fun _ _ _ => rfl, nofun⟩ hok
  refine ⟨w, he, ?_, h.unique, ?_⟩
  · intro obp addr hlow
    rw [synchashLookup_eq]
    exact h.found obp addr hlow
  · intro obp addr syp hlow
    obtain ⟨-, hset, -, hadd⟩ := synchashAdd_spec h.placed true obp addr syp
    rw [← h.found obp addr hlow, map_eq_none_iff]
    exact ⟨fun h0 => (hset h0).1, hadd rfl⟩

/-- Two entries of one object, one of which is swept away. -/
def sweepCalls : List (Op Nat Nat) := [.add 0 8 10 true, .add 0 0x5010 11 true, .destroyed 0 0 0x3fff false]

theorem sweepCalls_ok : OkAlong sweepCalls World.empty := by
  refine ⟨⟨by decide, nofun⟩, fun w h => ?_⟩
  cases h
  refine ⟨⟨by decide, fun o i h => ?_⟩, fun w h => ⟨⟨by decide, by decide⟩, fun _ _ => trivial⟩⟩
  split_ifs at h
  · have hone : (if o = 0 ∧ i = 8 then some 10 else none) = some 11 := h
    simp at hone
  · cases h

theorem synchash_exact_sweep : ∃ w, World.run sweepCalls World.empty = some w ∧
    synchashLookup 0 8 w.hash = none ∧ synchashLookup 0 0x5010 w.hash = some 11 ∧
    (synchashAdd true 0 8 12 w.hash).2 = 0 := by
  obtain ⟨w, he, hfound, -, hadd⟩ := synchash_exact sweepCalls sweepCalls_ok
  have hw : w.entries 0 8 = none ∧ w.entries 0 0x5010 = some 11 := by
    have hrun : (World.run sweepCalls World.empty).map (fun w => (w.entries 0 8, w.entries 0 0x5010)) =
        some (none, some 11) := by decide +kernel
    rw [he] at hrun
    simpa using hrun
  refine ⟨w, he, ?_, ?_, ?_⟩
  · rw [hfound 0 8 (by decide), hw.1]
  · rw [hfound 0 0x5010 (by decide), hw.2]
  · rw [hadd 0 8 12 (by decide), hw.1]

/-- The sweep to an address above 2^32 never meets its last page. -/
theorem kerSynchashRem_endless {start last : Int} (hl : 2 ^ 32 ≤ last) {prp : Bool} (n : Nat) {addr : Nat}
    (ha : addr < 2 ^ 32) (h : Hash O S) : kerSynchashRem obp start last prp n addr h = none := by
  induction n generalizing addr h with
  | zero => rfl
  | succ n ih =>
    have hne : page addr ≠ page last := by
      unfold page hashPagesize
      omega
    rw [kerSynchashRem, if_neg hne]
    exact ih (uint_lt _) _

/-- The hash keeps 32 bits of an address: the entry of one address is found for the one 2^32
above it, and MemobjDestroyed for a range behind 2^32 does not return. -/
theorem synchash_exact_wide :
    (synchashAdd true 0 8 10 (Hash.empty : Hash Nat Nat)).2 = 0 ∧
    synchashLookup 0 (2 ^ 32 + 8) (synchashAdd true 0 8 10 (Hash.empty : Hash Nat Nat)).1 = some 10 ∧
    ∀ n (h : Hash Nat Nat), kerSynchashRem 0 (2 ^ 32) (2 ^ 32 + 4095) false n (uint (2 ^ 32)) h = none :=
  ⟨by decide, by decide, fun n h => kerSynchashRem_endless (by decide) n (uint_lt _) h⟩

/-! ## The cursor of MemobjDestroyed

Its loop is split between the kernel call, which may be preempted behind each page and may
fault on one, and the caller. -/

/-- How the visit of a page ends. -/
inductive Visit where
  | returns
  | preempted
  | faults
  deriving DecidableEq, Repr

/-- The loop of ker_synchash_rem as its cursor goes, from the visit `i` on: the cursor, the next visit and
whether the call succeeds. A preempted call is made again, with the test at its start. -/
def kerCursor (last : Int) (pattern : Nat → Visit) : Nat → Nat → Nat → Option (Nat × Nat × Bool)
  | 0, _, _ => none
  | fuel + 1, i, addr =>
    if pattern i = .faults then some (addr, i + 1, false)
    else if page addr = page last then some (addr, i + 1, true)
    else
      let addr := uint (addr + hashPagesize : Nat)
      if pattern i = .preempted ∧ page last + (hashPagesize - 1 : Nat) < addr then some (addr, i + 1, true)
      else kerCursor last pattern fuel (i + 1) addr

/-- The loop of MemobjDestroyed around the call. -/
def callerCursor (last : Int) (pattern : Nat → Visit) : Nat → Nat → Nat → Option Nat
  | 0, _, _ => none
  | fuel + 1, i, addr =>
    let call := if page last + (hashPagesize - 1 : Nat) < addr then some (addr, i, true)
      else kerCursor last pattern (fuel + 1) i addr
    call.bind fun (addr, i, ok) =>
      if page addr = page last then some addr
      else callerCursor last pattern fuel i (if ok then addr else uint (addr + hashPagesize : Nat))

/-- Where the cursor of MemobjDestroyed stops, unless it returns at once. -/
def memobjCursor (start last : Int) (pattern : Nat → Visit) (fuel : Nat) : Option (Option Nat) :=
  if page last + (hashPagesize - 1 : Nat) < uint start then some none
  else (callerCursor last pattern fuel 0 (uint start)).map some

section
variable {last : Nat} (hlast : last < 2 ^ 32) {n i addr : Nat} (ha : addr / hashPagesize ≤ last / hashPagesize)
  (hn : last / hashPagesize - addr / hashPagesize < n)
include hlast ha hn

/-- The kernel call comes back at a page of the range, at the last one if it succeeds. -/
theorem kerCursor_ends (pattern : Nat → Visit) : ∃ addr' i' ok, kerCursor last pattern n i addr = some (addr', i', ok) ∧
    addr / hashPagesize ≤ addr' / hashPagesize ∧ addr' / hashPagesize ≤ last / hashPagesize ∧
    (ok = true → page addr' = page last) := by
  induction n generalizing addr i with
  | zero => omega
  | succ n ih =>
    rw [kerCursor]
    by_cases hf : pattern i = .faults
    · rw [if_pos hf]
      exact ⟨addr, i + 1, false, rfl, Nat.le_refl _, ha, nofun⟩
    rw [if_neg hf]
    by_cases hend : page addr = page last
    · rw [if_pos hend]
      exact ⟨addr, i + 1, true, rfl, Nat.le_refl _, ha, fun _ => hend⟩
    obtain ⟨hlt, hfits, hnext⟩ := next_page hlast ha hend
    rw [if_neg hend, hfits, if_neg fun h => absurd (late_iff.mp h.2) (by omega)]
    obtain ⟨addr', i', ok, hrun, h1, h2, h3⟩ := ih (show (addr + hashPagesize) / hashPagesize ≤ _ by omega) (by omega)
    exact ⟨addr', i', ok, hrun, by omega, h2, h3⟩

theorem callerCursor_ends (pattern : Nat → Visit) :
    ∃ addr', callerCursor last pattern n i addr = some addr' ∧ page addr' = page last := by
  induction n generalizing addr i with
  | zero => omega
  | succ n ih =>
    obtain ⟨addr', i', ok, hrun, h1, h2, h3⟩ := kerCursor_ends hlast ha hn (i := i) pattern
    rw [callerCursor, if_neg (late_iff.not.mpr (Nat.not_lt.mpr ha)), hrun, bind_some]
    by_cases hend : page addr' = page last
    · exact ⟨addr', if_pos hend, hend⟩
    · -- the call has failed, so the caller takes the cursor to the next page
      have hok : ok = false := Bool.eq_false_iff.mpr fun h => hend (h3 h)
      obtain ⟨hlt, hfits, hnext⟩ := next_page hlast h2 hend
      dsimp only
      rw [if_neg hend, hok, if_neg Bool.false_ne_true, hfits]
      exact ih (by omega) (by omega)

end

/-- MemobjDestroyed returns for every range that ends below 2^32, whatever preemptions and faults there are:
the cursor comes to the page of the end, or the range starts below 0 and there is nothing to do. -/
theorem memobjCursor_returns {start last : Int} (hle : start ≤ last) (hlast : last < 2 ^ 32) (pattern : Nat → Visit) :
    ∃ fuel r, memobjCursor start last pattern fuel = some r ∧ (∀ addr, r = some addr → page addr = page last) ∧
      (r = none → start < 0) := by
  by_cases hlate : page last + (hashPagesize - 1 : Nat) < uint start
  · refine ⟨0, none, if_pos hlate, nofun, fun _ => ?_⟩
    unfold page hashPagesize uint at hlate
    omega
  · obtain ⟨m, rfl⟩ : ∃ m : Nat, last = m := Int.eq_ofNat_of_zero_le (by unfold page hashPagesize at hlate; omega)
    obtain ⟨addr, hrun, hpage⟩ := callerCursor_ends (show m < 2 ^ 32 by omega) (n := m / hashPagesize + 1) (i := 0)
      (Nat.not_lt.mp (late_iff.not.mp hlate))
      (Nat.lt_succ_of_le (Nat.sub_le _ _)) pattern
    refine ⟨m / hashPagesize + 1, some addr, ?_, fun a h => some.inj h ▸ hpage, nofun⟩
    rw [memobjCursor, if_neg hlate, hrun, map_some]

section
variable {last : Int} (hlast : 2 ^ 32 ≤ last) {addr : Nat} (ha : addr < 2 ^ 32)
include hlast ha

/-- No cursor of 32 bits is on the page of an end behind them, or past it. -/
theorem page_ne_of_wide : page addr ≠ page last ∧ ¬ page last + (hashPagesize - 1 : Nat) < addr := by
  unfold page hashPagesize
  omega

/-- The kernel call comes back with a fault or not at all, and the cursor stays one of 32 bits. -/
theorem kerCursor_wide (pattern : Nat → Visit) (n : Nat) {i i' addr' : Nat} {ok : Bool}
    (h : kerCursor last pattern n i addr = some (addr', i', ok)) : addr' < 2 ^ 32 := by
  induction n generalizing addr i with
  | zero => cases h
  | succ n ih =>
    rw [kerCursor] at h
    split at h
    · cases h
      exact ha
    · rw [if_neg (page_ne_of_wide hlast ha).1, if_neg fun h => (page_ne_of_wide hlast (uint_lt _)).2 h.2] at h
      exact ih (uint_lt _) h

theorem callerCursor_wide (pattern : Nat → Visit) (n : Nat) {i : Nat} : callerCursor last pattern n i addr = none := by
  induction n generalizing addr i with
  | zero => rfl
  | succ n ih =>
    rw [callerCursor, if_neg (page_ne_of_wide hlast ha).2]
    cases hker : kerCursor last pattern (n + 1) i addr with
    | none => rfl
    | some call =>
      obtain ⟨addr', i', ok⟩ := call
      have hlt := kerCursor_wide hlast ha pattern _ hker
      rw [bind_some]
      dsimp only
      rw [if_neg (page_ne_of_wide hlast hlt).1]
      refine ih ?_
      split
      · exact hlt
      · exact uint_lt _

end

/-- A range that ends behind 2^32: the cursor is an `unsigned` and passes through all its pages for ever. -/
theorem memobjCursor_wide {last : Int} (hlast : 2 ^ 32 ≤ last) (start : Int) (pattern : Nat → Visit) (fuel : Nat) :
    memobjCursor start last pattern fuel = none := by
  rw [memobjCursor, if_neg (page_ne_of_wide hlast (uint_lt _)).2, callerCursor_wide hlast (uint_lt _), map_none]

/-- MemobjDestroyed returns, with its cursor on the page of the end, exactly if the end is below 2^32:
for every start in front of the end and whatever preemptions and faults there are. -/
theorem memobjCursor_ends_iff (start last : Int) (hle : start ≤ last) (pattern : Nat → Visit) :
    (∃ fuel r, memobjCursor start last pattern fuel = some r ∧ (∀ addr, r = some addr → page addr = page last) ∧
      (r = none → start < 0)) ↔ last < 2 ^ 32 := by
  refine ⟨fun ⟨fuel, r, hrun, _⟩ => ?_, fun hlast => memobjCursor_returns hle hlast pattern⟩
  by_contra hlast
  rw [memobjCursor_wide (by omega)] at hrun
  cases hrun

/-- The second of three pages faults, and the call is preempted behind the first. -/
theorem memobjCursor_ends_fault : (∃ fuel r, memobjCursor 0 0x2fff (fun i => if i = 0 then .preempted else .faults) fuel =
    some r ∧ (∀ addr, r = some addr → page addr = page 0x2fff) ∧ (r = none → (0 : Int) < 0)) ↔ (0x2fff : Int) < 2 ^ 32 :=
  memobjCursor_ends_iff 0 0x2fff (by decide) _

theorem memobjCursor_endless : ¬ ∃ fuel r, memobjCursor 0 (2 ^ 32) (fun _ => .returns) fuel = some r := by
  rintro ⟨fuel, r, hrun⟩
  rw [memobjCursor_wide le_rfl] at hrun
  cases hrun

end QRV.Nano.SyncHash
