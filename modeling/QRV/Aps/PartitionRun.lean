import QRV.Aps.Partition

/- Budgets and factors along runs.

   The percentages are shares of one whole: each call moves a part of a share between a partition
   and its parent (`Shares`). So they stay between 0 and 100.

   The budgets in cycles follow the percentages as long as they fit in the fields they are stored
   in; a critical budget is narrowed before it is clamped (`budgets_truncated`). -/
namespace QRV.Aps

open List

/-! ## Shares of a whole -/

section
variable {α β : Type} {l : List α} {f : α → α} {i : Nat} {x : α}

theorem map_modify_same {g : α → β} (h : ∀ a, g (f a) = g a) : (l.modify i f).map g = l.map g := by
  induction l generalizing i with
  | nil => cases i <;> rfl
  | cons a l ih => cases i <;> simp [h, ih]

theorem map_modify {g : α → β} {f' : β → β} (h : ∀ a, g (f a) = f' (g a)) :
    (l.modify i f).map g = (l.map g).modify i f' := by
  induction l generalizing i with
  | nil => cases i <;> rfl
  | cons a l ih => cases i <;> simp [h, ih]

theorem forall_modify {P : α → Prop} (h : ∀ a ∈ l, P a) (hf : ∀ a ∈ l, P (f a)) : ∀ a ∈ l.modify i f, P a := by
  induction l generalizing i with
  | nil => cases i <;> exact h
  | cons a l ih =>
    rw [forall_mem_cons] at h hf
    cases i with
    | zero => exact forall_mem_cons.mpr ⟨hf.1, h.2⟩
    | succ i => exact forall_mem_cons.mpr ⟨h.1, ih h.2 hf.2⟩

theorem sum_modify {g : α → Int} (hx : l[i]? = some x) :
    ((l.modify i f).map g).sum = (l.map g).sum - g x + g (f x) := by
  induction l generalizing i with
  | nil => cases hx
  | cons a l ih =>
    cases i with
    | zero =>
      cases hx
      simp
      omega
    | succ i =>
      have hsum := ih hx
      simp only [modify_succ_cons, map_cons, sum_cons]
      omega
end

/-- The parents and the percentages: no share is negative, all of them make 100, and a parent comes before. -/
structure Shares (l : List (Option Nat × Int)) : Prop where
  count : l.length ≤ maxPartitions
  nonneg : ∀ x ∈ l, 0 ≤ x.2
  parent : ∀ {i q : Nat} {x : Option Nat × Int}, l[i]? = some x → x.1 = some q → q < i
  total : (l.map (·.2)).sum = 100

namespace Shares
variable {l : List (Option Nat × Int)} {id ap : Nat} {q : Option Nat} {b pb new : Int}

theorem le (h : Shares l) {x : Option Nat × Int} (hx : x ∈ l) : x.2 ≤ 100 := by
  have hle := single_le_sum (fun y hy => ?_) x.2 (mem_map_of_mem (f := (·.2)) hx)
  · rwa [h.total] at hle
  · obtain ⟨x, hx, rfl⟩ := mem_map.mp hy
    exact h.nonneg x hx

theorem parent_modify (h : Shares l) {f : Option Nat × Int → Option Nat × Int} (hf : ∀ x, (f x).1 = x.1)
    {i : Nat} {x : Option Nat × Int} {q : Nat} (hx : (l.modify id f)[i]? = some x) (hq : x.1 = some q) : q < i := by
  rw [getElem?_modify] at hx
  obtain ⟨y, hy, rfl⟩ := Option.map_eq_some_iff.mp hx
  refine h.parent hy ?_
  split at hq
  · rwa [hf] at hq
  · exact hq

theorem create (h : Shares l) (hroom : l.length < maxPartitions) (hid : l[id]? = some (q, pb)) (hb : 0 ≤ b)
    (hle : b ≤ pb) : Shares ((l.modify id fun x => (x.1, pb - b)) ++ [(some id, b)]) where
  count := by
    rw [length_append, length_modify]
    exact hroom
  nonneg := by
    rw [forall_mem_append]
    exact ⟨forall_modify h.nonneg fun _ _ => Int.sub_nonneg_of_le hle, by simpa using hb⟩
  parent {i p x} hx hp := by
    rw [getElem?_append] at hx
    split at hx
    · exact h.parent_modify (f := fun x => (x.1, pb - b)) (fun _ => rfl) hx hp
    · next hlen =>
      rw [length_modify] at hlen
      have hlast : x = (some id, b) := mem_singleton.mp (mem_of_getElem? hx)
      rw [hlast] at hp
      cases hp
      have hlt := (List.getElem?_eq_some_iff.mp hid).1
      omega
  total := by
    rw [map_append, sum_append, sum_modify hid, h.total]
    simp

theorem move (h : Shares l) (hap : l[ap]? = some (some id, b)) (hid : l[id]? = some (q, pb)) (hnew : 0 ≤ new)
    (hle : new - b ≤ pb) :
    Shares ((l.modify id fun x => (x.1, pb - (new - b))).modify ap fun _ => (some id, new)) := by
  have hlt : id < ap := h.parent hap rfl
  have hap' : (l.modify id fun x => (x.1, pb - (new - b)))[ap]? = some (some id, b) := by
    rw [getElem?_modify, hap]
    simp [Nat.ne_of_lt hlt]
  refine ⟨?_, ?_, fun {i p x} hx hp => ?_, ?_⟩
  · rw [length_modify, length_modify]
    exact h.count
  · exact forall_modify (forall_modify h.nonneg fun _ _ => Int.sub_nonneg_of_le hle) fun _ _ => hnew
  · rw [getElem?_modify] at hx
    obtain ⟨y, hy, rfl⟩ := Option.map_eq_some_iff.mp hx
    split at hp
    · next heq =>
      cases hp
      exact heq ▸ hlt
    · exact h.parent_modify (f := fun x => (x.1, pb - (new - b))) (fun _ => rfl) hy hp
  · rw [sum_modify hap', sum_modify hid, h.total]
    omega

end Shares

variable {st st' : State} {ppg : Ppg} {call : Call}

def State.shares (st : State) : List (Option Nat × Int) := st.activesPpg.map fun ppg => (ppg.parent, ppg.budgetInPercent)

theorem shares_get {i : Nat} (h : st.activesPpg[i]? = some ppg) : st.shares[i]? = some (ppg.parent, ppg.budgetInPercent) := by
  rw [State.shares, getElem?_map, h]
  rfl

theorem shares_update {id : Nat} {f : Ppg → Ppg} {g : Option Nat × Int → Option Nat × Int}
    (h : ∀ ppg : Ppg, ((f ppg).parent, (f ppg).budgetInPercent) = g (ppg.parent, ppg.budgetInPercent)) :
    (st.update id f).shares = st.shares.modify id g := map_modify h

theorem shares_setBudget (st0 : State) (id : Nat) (b : Int) :
    (st.update id (Ppg.setBudget st0 b)).shares = st.shares.modify id fun x => (x.1, b) := shares_update fun _ => rfl

theorem shares_setCritical (st0 : State) (id ms : Nat) : (st.update id (Ppg.setCritical st0 ms)).shares = st.shares :=
  map_modify_same fun _ => rfl

theorem Shares.range (h : Shares st.shares) (hppg : ppg ∈ st.activesPpg) :
    0 ≤ ppg.budgetInPercent ∧ ppg.budgetInPercent ≤ 100 :=
  have hmem : (ppg.parent, ppg.budgetInPercent) ∈ st.shares := mem_map_of_mem hppg
  ⟨h.nonneg _ hmem, h.le hmem⟩

theorem unsigned_of_nonneg {n : Int} (h : 0 ≤ n) (h' : n ≤ 100) : unsigned n = n.toNat := by
  rw [unsigned, Int.emod_eq_of_lt h (by omega)]

/-! ## What a call does -/

/-- The critical budget that a call asks for. -/
def Call.criticalMs : Call → Option Nat
  | .create parms _ => some (if parms.criticalBudgetMs = -1 then 0 else unsigned parms.criticalBudgetMs.toInt)
  | .modify parms _ =>
    if parms.newCriticalBudgetMs = -1 then none else some (unsigned parms.newCriticalBudgetMs.toInt)

/-- A call is refused; a partition is created, or its budget changed, with the factors computed again; and at last
a critical budget is set. -/
inductive Did (st : State) (ms : Option Nat) : State → Prop where
  | same : Did st ms st
  | create {id : Nat} {parent : Ppg} {b : Int} {m : Nat} {st' : State} (hm : ms = some m)
      (room : st.activesPpg.length < maxPartitions) (hid : st.activesPpg[id]? = some parent) (nonneg : 0 ≤ b)
      (le : b ≤ parent.budgetInPercent)
      (factors : setFactors { st with
        activesPpg := st.activesPpg.modify id (Ppg.setBudget st (parent.budgetInPercent - b)) ++
          [(Ppg.setBudget st b ⟨some id, 0, 0, 0, 0, 0, 0, none⟩).setCritical st m] } = some st') : Did st ms st'
  | move {id ap : Nat} {ppg parent : Ppg} {new : Int} {st' : State} (hap : st.activesPpg[ap]? = some ppg)
      (hparent : ppg.parent = some id) (hid : st.activesPpg[id]? = some parent) (nonneg : 0 ≤ new)
      (le : new - ppg.budgetInPercent ≤ parent.budgetInPercent)
      (factors : setFactors ((st.update id (Ppg.setBudget st (parent.budgetInPercent -
        (new - ppg.budgetInPercent)))).update ap fun _ => ppg.setBudget st new) = some st') : Did st ms st'
  | critical {st' : State} {ap m : Nat} (hm : ms = some m) (did : Did st ms st') :
      Did st ms (st'.update ap (Ppg.setCritical st' m))

theorem changePercentBudget_eq {id : Nat} {parent : Ppg} {new : Int} (hparent : ppg.parent = some id)
    (hid : st.activesPpg[id]? = some parent) (hle : new - ppg.budgetInPercent ≤ parent.budgetInPercent) :
    changePercentBudget st ppg new = some (st.update id (Ppg.setBudget st (parent.budgetInPercent -
      (new - ppg.budgetInPercent))), ppg.setBudget st new) := by
  simp only [changePercentBudget, hparent, hid, if_neg (Int.not_lt.mpr hle)]

theorem createPpg_did {parms : CreateParms} {env : Env} {errno : Errno} (h : Shares st.shares)
    (hcall : createPpg st parms env = some (st', errno)) :
    Did st (some (if parms.criticalBudgetMs = -1 then 0 else unsigned parms.criticalBudgetMs.toInt)) st' := by
  rw [createPpg] at hcall
  dsimp only at hcall
  generalize (if parms.criticalBudgetMs = -1 then 0 else unsigned parms.criticalBudgetMs.toInt) = ms at hcall ⊢
  split at hcall
  · cases hcall
    exact .same
  · next hroom =>
    generalize (if (!parms.useParentId || decide (parms.parentId < 0)) = true then env.origDpp
      else parms.parentId.toInt.toNat) = id at hcall
    split at hcall
    · cases hcall
    · next parent hid =>
      obtain ⟨hlow, hhigh⟩ := h.range (mem_of_getElem? hid)
      rw [unsigned_of_nonneg hlow hhigh] at hcall
      split_ifs at hcall with hless hzero halloc
      any_goals cases hcall; exact .same
      · have hle : (parms.budgetPercent.toNat : Int) ≤ parent.budgetInPercent := by omega
        rw [changePercentBudget_eq rfl hid (by simpa using hle)] at hcall
        obtain ⟨st1, hst1, heq⟩ := Option.map_eq_some_iff.mp hcall
        cases heq
        exact .create rfl (Nat.lt_of_not_le hroom) hid (Int.natCast_nonneg _) hle hst1

theorem apsModifyPartition_did {parms : ModifyParms} {env : Env} {errno : Errno} (hlow : -1 ≤ parms.newBudgetPercent.toInt)
    (hcall : apsModifyPartition st parms env = some (st', errno)) : Did st (Call.modify parms env).criticalMs st' := by
  -- the critical budget comes last
  have hcritical : ∀ {st1 : State}, Did st (Call.modify parms env).criticalMs st1 →
      Did st (Call.modify parms env).criticalMs (if parms.newCriticalBudgetMs = -1 then st1
        else st1.update parms.id.toInt.toNat (Ppg.setCritical st1 (unsigned parms.newCriticalBudgetMs.toInt))) := by
    intro st1 hdid
    split
    · exact hdid
    · next hms => exact .critical (if_neg hms) hdid
  rw [apsModifyPartition] at hcall
  dsimp only at hcall
  split at hcall
  · cases hcall
    exact .same
  · next ppg hppg =>
    obtain ⟨-, hap⟩ := Option.ite_none_left_eq_some.mp hppg
    split at hcall
    · cases hcall
      exact .same
    · next parent hparent =>
      obtain ⟨id, hpid, hid⟩ := Option.bind_eq_some_iff.mp hparent
      split at hcall
      · cases hcall
        exact .same
      · split at hcall
        · cases hcall
          exact hcritical .same
        · next hsame =>
          have hnew : 0 ≤ parms.newBudgetPercent.toInt := by
            have hne : parms.newBudgetPercent.toInt ≠ -1 := fun heq => hsame (Int16.toInt.inj heq)
            omega
          by_cases hle : parms.newBudgetPercent.toInt - ppg.budgetInPercent ≤ parent.budgetInPercent
          · rw [changePercentBudget_eq hpid hid hle] at hcall
            obtain ⟨st1, hst1, heq⟩ := Option.map_eq_some_iff.mp hcall
            cases heq
            exact hcritical (.move hap hpid hid hnew hle hst1)
          · simp only [changePercentBudget, hpid, hid, if_pos (Int.not_le.mp hle)] at hcall
            cases hcall
            exact .same

theorem step_did (h : Shares st.shares) (hstep : step st call = some st') : Did st call.criticalMs st' := by
  obtain ⟨⟨st1, errno⟩, hcall, rfl⟩ := Option.map_eq_some_iff.mp hstep
  cases call with
  | create parms env =>
    rw [kerSchedCtl] at hcall
    split at hcall
    · cases hcall
      exact .same
    · split_ifs at hcall
      any_goals cases hcall; exact .same
      exact createPpg_did h hcall
  | modify parms env =>
    rw [kerSchedCtl] at hcall
    split at hcall
    · cases hcall
      exact .same
    · split_ifs at hcall with hfails hrange hms
      any_goals cases hcall; exact .same
      refine apsModifyPartition_did ?_ hcall
      have hlow : ¬ parms.newBudgetPercent < -1 := fun hlt => hrange (.inl hlt)
      rw [Int16.lt_iff_toInt_lt] at hlow
      exact Int.not_lt.mp hlow

theorem setFactors_eq (h : setFactors st = some st') :
    st' = { st with activesPpg := st.activesPpg.map (Ppg.setFactors st) } := by
  rw [setFactors] at h
  split at h
  · cases h
  · exact (Option.some.inj h).symm

theorem Ppg.setFactors_keeps (st : State) (ppg : Ppg) : ∃ g k, ppg.setFactors st =
    { ppg with relativeFractionUsedFactor := g, relativeFractionUsedOffset := k } := by
  rw [Ppg.setFactors]
  split <;> exact ⟨_, _, rfl⟩

theorem setFactors_shares (h : setFactors st = some st') : st'.shares = st.shares := by
  rw [setFactors_eq h, State.shares, State.shares, map_map]
  refine map_congr_left fun ppg _ => ?_
  obtain ⟨g, k, heq⟩ := ppg.setFactors_keeps st
  rw [Function.comp, heq]

theorem Did.const {ms : Option Nat} (hdid : Did st ms st') :
    st'.numProcessors = st.numProcessors ∧ st'.windowsizeInCycles = st.windowsizeInCycles ∧
      st'.cyclesPerMs = st.cyclesPerMs := by
  induction hdid with
  | same => exact ⟨rfl, rfl, rfl⟩
  | create _ _ _ _ _ factors | move _ _ _ _ _ factors =>
    rw [setFactors_eq factors]
    exact ⟨rfl, rfl, rfl⟩
  | critical _ _ ih => exact ih

theorem Did.shares {ms : Option Nat} (h : Shares st.shares) (hdid : Did st ms st') : Shares st'.shares := by
  induction hdid with
  | same => exact h
  | create hm room hid nonneg le factors =>
    have hcreate := h.create (by simpa [State.shares] using room) (shares_get hid) nonneg le
    rw [← shares_setBudget st] at hcreate
    rw [setFactors_shares factors, State.shares, map_append]
    exact hcreate
  | @move id ap ppg parent new st' hap hparent hid nonneg le factors =>
    have hmove := h.move (hparent ▸ shares_get hap) (shares_get hid) nonneg le
    rw [← shares_setBudget st, ← hparent] at hmove
    rw [setFactors_shares factors, shares_update (g := fun _ => (ppg.parent, new)) fun _ => rfl]
    exact hmove
  | critical _ _ ih =>
    rw [shares_setCritical]
    exact ih

/-! ## Budgets in cycles -/

/-- The budgets of the partition are what they should be on `n` processors, for a window of `w` cycles. -/
structure Exact (n w cpm : Nat) (ppg : Ppg) : Prop where
  std : ppg.stdBudgetInCycles = share n w ppg.budgetInPercent
  critical : ppg.criticalBudgetInCycles = ppg.criticalMs.elim (n * w) fun ms => min (ms * cpm) (n * w)

theorem int32_of_lt {n : Nat} (h : n < 2 ^ 31) : int32 n = n := by
  rw [int32, BitVec.toInt_eq_toNat_cond, BitVec.toNat_ofNat, Nat.mod_eq_of_lt (by omega)]
  split <;> omega

theorem share_exact {n w : Nat} {b : Int} (h : n * w < 2 ^ 31) (hb : 0 ≤ b) (hb' : b ≤ 100) :
    share n w b = (n * w : Nat) * b / 100 := by
  obtain ⟨k, rfl⟩ := Int.eq_ofNat_of_zero_le hb
  have hmul : n * w * k ≤ n * w * 100 := Nat.mul_le_mul_left _ (by omega)
  rw [share, Int.emod_eq_of_lt hb (by omega), Int.toNat_natCast, Nat.mod_eq_of_lt (by omega), int32_of_lt (by omega)]
  push_cast
  rfl

theorem criticalCycles_exact {ms : Nat} (h : st.numProcessors * st.windowsizeInCycles < 2 ^ 31)
    (hms : ms * st.cyclesPerMs < 2 ^ 32) :
    criticalCycles st ms = min (ms * st.cyclesPerMs) (st.numProcessors * st.windowsizeInCycles) := by
  rw [criticalCycles, Nat.mod_eq_of_lt hms, Nat.mod_eq_of_lt (by omega)]
  split <;> omega

/-- The critical budget that is asked for fits in 32 bits. -/
def Call.Fits (st : State) (call : Call) : Prop := ∀ ms ∈ call.criticalMs, ms * st.cyclesPerMs < 2 ^ 32

instance (st : State) : DecidablePred (Call.Fits st) := fun call =>
  inferInstanceAs (Decidable (∀ ms ∈ call.criticalMs, ms * st.cyclesPerMs < 2 ^ 32))

structure Sound (st : State) : Prop where
  shares : Shares st.shares
  room : st.numProcessors * st.windowsizeInCycles < 2 ^ 31
  exact : ∀ ppg ∈ st.activesPpg, Exact st.numProcessors st.windowsizeInCycles st.cyclesPerMs ppg

theorem setFactors_exact {n w cpm : Nat} (h : ∀ ppg ∈ st.activesPpg, Exact n w cpm ppg) (hst : setFactors st = some st') :
    ∀ ppg ∈ st'.activesPpg, Exact n w cpm ppg := by
  rw [setFactors_eq hst]
  refine forall_mem_map.mpr fun ppg hppg => ?_
  obtain ⟨g, k, heq⟩ := ppg.setFactors_keeps st
  rw [heq]
  exact ⟨(h ppg hppg).std, (h ppg hppg).critical⟩

theorem Did.exact {ms : Option Nat} (h : Sound st) (hfits : ∀ m ∈ ms, m * st.cyclesPerMs < 2 ^ 32) (hdid : Did st ms st') :
    ∀ ppg ∈ st'.activesPpg, Exact st.numProcessors st.windowsizeInCycles st.cyclesPerMs ppg := by
  induction hdid with
  | same => exact h.exact
  | @create id parent b m st' hm room hid nonneg le factors =>
    refine setFactors_exact (forall_mem_append.mpr ⟨?_, ?_⟩) factors
    · exact forall_modify h.exact fun ppg hppg => ⟨rfl, (h.exact ppg hppg).critical⟩
    · exact forall_mem_singleton.mpr ⟨rfl, criticalCycles_exact h.room (hfits m hm)⟩
  | move hap _ _ _ _ factors =>
    refine setFactors_exact (forall_modify (forall_modify h.exact fun ppg hppg => ?_) fun _ _ => ?_) factors
    · exact ⟨rfl, (h.exact ppg hppg).critical⟩
    · exact ⟨rfl, (h.exact _ (mem_of_getElem? hap)).critical⟩
  | @critical st' ap m hm hdid ih =>
    obtain ⟨hn, hw, hcpm⟩ := hdid.const
    refine forall_modify ih fun ppg hppg => ⟨(ih ppg hppg).std, ?_⟩
    rw [← hn, ← hw, ← hcpm]
    refine criticalCycles_exact (by rw [hn, hw]; exact h.room) ?_
    rw [hcpm]
    exact hfits m hm

theorem step_sound (h : Sound st) (hfits : call.Fits st) (hstep : step st call = some st') : Sound st' := by
  have hdid := step_did h.shares hstep
  have hexact := hdid.exact h hfits
  obtain ⟨hn, hw, hcpm⟩ := hdid.const
  refine ⟨hdid.shares h.shares, by rw [hn, hw]; exact h.room, ?_⟩
  rw [hn, hw, hcpm]
  exact hexact

section
variable {n bmp w cpm : Nat}

theorem boot_shares (hboot : createDefaultDispatch n bmp w cpm = some st) : Shares st.shares := by
  have hall : Shares [(none, 100)] := ⟨by decide, by simp, fun {i q x} hx hq => ?_, rfl⟩
  · rw [setFactors_shares hboot]
    exact hall
  · rw [mem_singleton.mp (mem_of_getElem? hx)] at hq
    cases hq

theorem boot_sound (hw : n * w < 2 ^ 31) (hboot : createDefaultDispatch n bmp w cpm = some st) : Sound st := by
  have hexact : ∀ ppg ∈ st.activesPpg, Exact n w cpm ppg := by
    refine setFactors_exact (forall_mem_singleton.mpr ⟨?_, Nat.mod_eq_of_lt (by omega)⟩) hboot
    dsimp only
    rw [share_exact hw (by decide) (by decide), int32_of_lt hw]
    omega
  refine ⟨boot_shares hboot, ?_, ?_⟩ <;> rw [setFactors_eq hboot] at *
  · exact hw
  · exact hexact

/-- While the window of all processors is less than 2³¹ cycles and no critical budget that is asked for is 2³² cycles
or more, the percentages make 100, and the budgets in cycles follow from them and from what was asked for. -/
theorem budgets_exact (n bmp w cpm : Nat) (hw : n * w < 2 ^ 31) (st₀ : State)
    (hboot : createDefaultDispatch n bmp w cpm = some st₀) (calls : List Call) (hcalls : Run.Along step Call.Fits calls st₀)
    (st : State) (hrun : Run.exec step calls st₀ = some st) :
    (st.activesPpg.map (·.budgetInPercent)).sum = 100 ∧ ∀ ppg ∈ st.activesPpg,
      0 ≤ ppg.budgetInPercent ∧ ppg.budgetInPercent ≤ 100 ∧
      ppg.stdBudgetInCycles = (st.numProcessors * st.windowsizeInCycles : Nat) * ppg.budgetInPercent / 100 ∧
      ppg.criticalBudgetInCycles = ppg.criticalMs.elim (st.numProcessors * st.windowsizeInCycles) fun ms =>
        min (ms * st.cyclesPerMs) (st.numProcessors * st.windowsizeInCycles) := by
  have h : Sound st := Run.inv step_sound (boot_sound hw hboot) hcalls hrun
  refine ⟨?_, fun ppg hppg => ?_⟩
  · have htotal := h.shares.total
    rwa [State.shares, map_map] at htotal
  · obtain ⟨hnonneg, hle⟩ := h.shares.range hppg
    exact ⟨hnonneg, hle, (h.exact ppg hppg).std.trans (share_exact h.room hnonneg hle), (h.exact ppg hppg).critical⟩

/-- Two processors, a window of 10⁸ cycles; half of the time goes to a partition, a tenth of it back. -/
theorem budgets_exact_run : ∃ st₀ st : State, createDefaultDispatch 2 2 (10 ^ 8) (10 ^ 6) = some st₀ ∧
    Run.exec step [.create ⟨50, 30, false, 0⟩ {}, .modify ⟨1, 40, 4000⟩ {}] st₀ = some st ∧
    (st.activesPpg.map (·.budgetInPercent)).sum = 100 :=
  ⟨_, _, rfl, rfl, (budgets_exact 2 2 (10 ^ 8) (10 ^ 6) (by decide) _ rfl
    [.create ⟨50, 30, false, 0⟩ {}, .modify ⟨1, 40, 4000⟩ {}] (by decide +kernel) _ rfl).1⟩

/-- With 10⁶ cycles in a millisecond, 4295 ms are 2³² + 32704 cycles: the partition gets the 32704, and not the
whole window. And with eight processors that have 4 · 10⁸ cycles each, the budget of the system is negative. -/
theorem budgets_truncated :
    (∃ st₀ st : State, createDefaultDispatch 1 1 (10 ^ 8) (10 ^ 6) = some st₀ ∧
      Run.exec step [.create ⟨20, 4295, false, 0⟩ {}] st₀ = some st ∧
      ∃ ppg ∈ st.activesPpg, ppg.criticalMs = some 4295 ∧ ppg.criticalBudgetInCycles = 32704 ∧
        min (4295 * st.cyclesPerMs) (st.numProcessors * st.windowsizeInCycles) = 10 ^ 8) ∧
    ∃ st₀ : State, createDefaultDispatch 8 8 (4 * 10 ^ 8) (10 ^ 6) = some st₀ ∧
      st₀.activesPpg.map (·.stdBudgetInCycles) = [-1094967296] := by
  refine ⟨⟨_, _, rfl, rfl, ?_⟩, _, rfl, ?_⟩ <;> decide +kernel

end
end QRV.Aps
