import Mathlib.Algebra.Order.BigOperators.GroupWithZero.List
import QRV.Aps.PartitionRun

/- The order of the partitions.

   The scheduler takes the partition with the least RELATIVE_FRACTION_USED. The factors are in
   inverse proportion to the budgets, at most 100 · 200, and a partition without a budget gets an
   offset that is more than a partition with one can reach by using a window. set_factors knows
   of one processor and is not called when the window changes, so the order holds on one
   processor, and as long as the window does not grow under a partition without a budget. -/
namespace QRV.Aps

open List

/-! ## The factors -/

section
variable {l : List Nat} {g : Nat → Nat} {a b m : Nat}

theorem foldl_min_cases : l.foldl (fun least b => min least (g b)) a = a ∨
    ∃ b ∈ l, l.foldl (fun least b => min least (g b)) a = g b := by
  induction l generalizing a with
  | nil => exact .inl rfl
  | cons b l ih =>
    rw [foldl_cons]
    rcases ih (a := min a (g b)) with h | ⟨c, hc, h⟩
    · rcases Nat.le_total a (g b) with hle | hle
      · exact .inl (h.trans (Nat.min_eq_left hle))
      · exact .inr ⟨b, mem_cons_self, h.trans (Nat.min_eq_right hle)⟩
    · exact .inr ⟨c, .tail _ hc, h⟩

theorem foldl_max_le (ha : a ≤ m) (h : ∀ b ∈ l, g b ≤ m) : l.foldl (fun most b => max most (g b)) a ≤ m := by
  induction l generalizing a with
  | nil => exact ha
  | cons b l ih =>
    rw [forall_mem_cons] at h
    exact ih (Nat.max_le.mpr ⟨ha, h.1⟩) h.2

theorem le_foldl_max (h : m ≤ a ∨ ∃ b ∈ l, m ≤ g b) : m ≤ l.foldl (fun most b => max most (g b)) a := by
  induction l generalizing a with
  | nil => simpa using h
  | cons b l ih =>
    refine ih ?_
    rw [exists_mem_cons_iff, ← or_assoc] at h
    exact h.imp_left le_max_iff.mpr

theorem foldl_mul_mod (h : a * l.prod < 2 ^ 64) (hpos : ∀ b ∈ l, 0 < b) :
    l.foldl (fun total b => total * b % 2 ^ 64) a = a * l.prod := by
  induction l generalizing a with
  | nil => exact (Nat.mul_one a).symm
  | cons b l ih =>
    rw [forall_mem_cons] at hpos
    rw [prod_cons, ← Nat.mul_assoc] at h
    have hprod : 0 < l.prod := prod_pos hpos.2
    rw [foldl_cons, Nat.mod_eq_of_lt ((Nat.le_mul_of_pos_right _ hprod).trans_lt h), ih h hpos.2, prod_cons,
      Nat.mul_assoc]
end

variable {st st' : State} {b : Nat}

section
variable (h : Shares st.shares)
include h

theorem mem_budgets (hb : b ∈ budgets st.activesPpg) : 0 < b ∧ b ≤ 100 := by
  obtain ⟨ppg, hppg, rfl⟩ := mem_map.mp hb
  obtain ⟨hmem, hne⟩ := mem_filter.mp hppg
  have hrange := h.range hmem
  have hne' : ppg.budgetInPercent ≠ 0 := of_decide_eq_true hne
  omega

theorem prod_take_le (k : Nat) : ((budgets st.activesPpg).take k).prod ≤ 100 ^ 8 := by
  have hlen : ((budgets st.activesPpg).take k).length ≤ 8 := by
    have hcount := h.count
    rw [State.shares, length_map] at hcount
    refine (length_take_le' _ _).trans ?_
    rw [budgets, length_map]
    exact (length_filter_le _ _).trans hcount
  calc ((budgets st.activesPpg).take k).prod
      ≤ 100 ^ ((budgets st.activesPpg).take k).length :=
        prod_le_pow_card _ _ fun b hb => (mem_budgets h (mem_of_mem_take hb)).2
    _ ≤ 100 ^ 8 := Nat.pow_le_pow_right (by decide) hlen

theorem prod_le : (budgets st.activesPpg).prod ≤ 100 ^ 8 := by
  have hle := prod_take_le h (budgets st.activesPpg).length
  rwa [take_length] at hle

theorem totalProduct_eq : totalProduct st.activesPpg = (budgets st.activesPpg).prod := by
  have hle := prod_le h
  rw [totalProduct, foldl_mul_mod (by omega) fun b hb => (mem_budgets h hb).1, Nat.one_mul]

theorem totalProduct_pos : 0 < totalProduct st.activesPpg := by
  rw [totalProduct_eq h]
  exact prod_pos fun b hb => (mem_budgets h hb).1

theorem dvd_totalProduct (hb : b ∈ budgets st.activesPpg) : b ∣ totalProduct st.activesPpg := by
  rw [totalProduct_eq h]
  exact dvd_prod hb

theorem minT64_cases : minT64 st.activesPpg = 2 ^ 64 - 1 ∨
    ∃ b k, 0 < b ∧ b ≤ 100 ∧ totalProduct st.activesPpg = b * k ∧ minT64 st.activesPpg = k := by
  refine foldl_min_cases.imp_right fun ⟨b, hb, hmin⟩ => ?_
  obtain ⟨k, hk⟩ := dvd_totalProduct h hb
  obtain ⟨hpos, hle⟩ := mem_budgets h hb
  refine ⟨b, k, hpos, hle, hk, hmin.trans ?_⟩
  rw [hk, Nat.mul_div_cancel_left _ hpos]

theorem minT64_pos : 0 < minT64 st.activesPpg := by
  obtain hmin | ⟨b, k, hb, -, htotal, hmin⟩ := minT64_cases h
  · omega
  · rw [hmin]
    refine Nat.pos_of_ne_zero fun hk => ?_
    rw [hk, Nat.mul_zero] at htotal
    exact (totalProduct_pos h).ne' htotal

theorem factor_le (hb : b ∈ budgets st.activesPpg) : factor st.activesPpg b ≤ 20000 := by
  have hprod := prod_le h
  rw [← totalProduct_eq h] at hprod
  rw [factor, maxBudgetErrorInverse, Nat.mod_eq_of_lt (by omega)]
  obtain hmin | ⟨b0, k0, hb0, hle0, htotal, hmin⟩ := minT64_cases h
  · have hdiv := Nat.div_le_self (totalProduct st.activesPpg * 200) b
    rw [hmin, Nat.div_eq_of_lt (by omega)]
    exact Nat.zero_le _
  · obtain ⟨k, hk⟩ := dvd_totalProduct h hb
    have hpos := (mem_budgets h hb).1
    rw [hmin, hk, Nat.mul_assoc, Nat.mul_div_cancel_left _ hpos]
    refine Nat.div_le_of_le_mul ?_
    -- b * k = b0 * k0 with 1 ≤ b and b0 ≤ 100
    have hk0 : k ≤ 100 * k0 :=
      calc k ≤ b * k := Nat.le_mul_of_pos_left k hpos
        _ = b0 * k0 := hk.symm.trans htotal
        _ ≤ 100 * k0 := Nat.mul_le_mul_right k0 hle0
    omega

theorem maxFactor_le : maxFactor st.activesPpg ≤ 20000 :=
  foldl_max_le (Nat.zero_le _) fun _ hb => factor_le h hb


omit h in
theorem mul_shift_le {w k : Nat} (hw : w < 2 ^ 32) (hk : k ≤ 20000) : k * (w >>> 16) ≤ 20000 * 65535 := by
  refine Nat.mul_le_mul hk ?_
  rw [Nat.shiftRight_eq_div_pow]
  omega

theorem maxRfuPlus1_eq (hw : st.windowsizeInCycles < 2 ^ 32) :
    maxRfuPlus1 st = maxFactor st.activesPpg * (st.windowsizeInCycles >>> 16) + 1 := by
  have hlt := mul_shift_le hw (maxFactor_le h)
  exact Nat.mod_eq_of_lt (by omega)

end

/-! ## The order -/

/-- What the order of the partitions depends on. -/
structure Rank where
  budget : Int
  factor : Nat
  offset : Nat

def State.ranks (st : State) : List Rank :=
  st.activesPpg.map fun ppg =>
    ⟨ppg.budgetInPercent, ppg.relativeFractionUsedFactor, ppg.relativeFractionUsedOffset⟩

/-- A partition with a budget cannot get in a window of `w` cycles to the offset of one without. -/
structure Ordered (w : Nat) (l : List Rank) : Prop where
  nonzero : ∀ p ∈ l, p.budget ≠ 0 → p.factor ≤ 20000 ∧ p.offset = 0
  zero : ∀ z ∈ l, z.budget = 0 → z.factor = 1 ∧ z.offset ≤ 20000 * 65535 + 1 ∧
    ∀ p ∈ l, p.budget ≠ 0 → p.factor * (w >>> 16) < z.offset

theorem setFactors_ordered (hst : setFactors st = some st') (h : Shares st'.shares) (hw : st.windowsizeInCycles < 2 ^ 32) :
    Ordered st.windowsizeInCycles st'.ranks := by
  rw [setFactors_shares hst] at h
  have hfactor : ∀ ppg ∈ st.activesPpg, ppg.budgetInPercent ≠ 0 →
      (ppg.setFactors st).relativeFractionUsedFactor ≤ maxFactor st.activesPpg ∧
        (ppg.setFactors st).relativeFractionUsedOffset = 0 := fun ppg hppg hne => by
    rw [Ppg.setFactors, if_pos hne]
    refine ⟨(Nat.mod_le _ _).trans (le_foldl_max (.inr ⟨_, ?_, le_rfl⟩)), rfl⟩
    exact mem_map.mpr ⟨ppg, mem_filter.mpr ⟨hppg, decide_eq_true hne⟩, rfl⟩
  have hkeeps : ∀ ppg : Ppg, (ppg.setFactors st).budgetInPercent = ppg.budgetInPercent := fun ppg => by
    obtain ⟨g, k, heq⟩ := ppg.setFactors_keeps st
    rw [heq]
  have hmost := mul_shift_le hw (maxFactor_le h)
  rw [setFactors_eq hst, State.ranks, map_map]
  refine ⟨forall_mem_map.mpr fun ppg hppg hne => ?_, forall_mem_map.mpr fun ppg hppg hzero => ?_⟩
  · obtain ⟨hle, hoff⟩ := hfactor ppg hppg (hkeeps ppg ▸ hne)
    exact ⟨hle.trans (maxFactor_le h), hoff⟩
  · have hzero' : ppg.budgetInPercent = 0 := hkeeps ppg ▸ hzero
    rw [Function.comp, Ppg.setFactors, if_neg (not_not.mpr hzero'), maxRfuPlus1_eq h hw]
    refine ⟨rfl, Nat.succ_le_succ hmost, forall_mem_map.mpr fun p hp hne => ?_⟩
    exact Nat.lt_succ_of_le (Nat.mul_le_mul_right _ (hfactor p hp (hkeeps p ▸ hne)).1)

theorem Did.ordered {ms : Option Nat} (h : Shares st.shares) (hw : st.windowsizeInCycles < 2 ^ 32)
    (hst : Ordered st.windowsizeInCycles st.ranks) (hdid : Did st ms st') :
    Ordered st.windowsizeInCycles st'.ranks := by
  have hshares := hdid.shares h
  induction hdid with
  | same => exact hst
  | create _ _ _ _ _ factors | move _ _ _ _ _ factors =>
    have hordered := setFactors_ordered factors hshares hw
    exact hordered
  | @critical st' ap m _ _ ih =>
    rw [shares_setCritical] at hshares
    have hranks : (st'.update ap (Ppg.setCritical st' m)).ranks = st'.ranks := map_modify_same fun _ => rfl
    rw [hranks]
    exact ih hshares

theorem map_keeps {β : Type} {g : Ppg → β} {f f0 : Ppg → Ppg} {l : List Ppg} (h : ∀ ppg, g (f ppg) = g ppg)
    (h0 : ∀ ppg, g (f0 ppg) = g ppg) : ((l.map f).modify 0 f0).map g = l.map g := by
  rw [map_modify_same h0, map_map]
  exact map_congr_left fun ppg _ => h ppg

/-- The window changes, and nothing that the factors are computed from. -/
theorem reinitWindowParms_keeps {newWindowsizeMs : Int} {qtime : Qtime} {errno : Errno}
    (h : reinitWindowParms st newWindowsizeMs qtime = some (st', errno)) :
    st'.shares = st.shares ∧ st'.ranks = st.ranks ∧ st'.numProcessors = st.numProcessors := by
  rw [reinitWindowParms] at h
  dsimp only at h
  split_ifs at h <;> cases h
  · exact ⟨rfl, rfl, rfl⟩
  · exact ⟨rfl, rfl, rfl⟩
  · exact ⟨map_keeps (fun _ => rfl) fun _ => rfl, map_keeps (fun _ => rfl) fun _ => rfl, rfl⟩

/-- A window that grows finds no partition without a budget, and has less than 2³² cycles. -/
def Op.Covered (st : State) : Op → Prop
  | .call _ => True
  | .reinit newWindowsizeMs qtime => ∀ r ∈ reinitWindowParms st newWindowsizeMs qtime,
    r.1.windowsizeInCycles < 2 ^ 32 ∧ (r.1.windowsizeInCycles >>> 16 ≤ st.windowsizeInCycles >>> 16 ∨
      ∀ ppg ∈ st.activesPpg, ppg.budgetInPercent ≠ 0)

instance (st : State) : DecidablePred (Op.Covered st)
  | .call _ => instDecidableTrue
  | .reinit newWindowsizeMs qtime => inferInstanceAs (Decidable (∀ r ∈ reinitWindowParms st newWindowsizeMs qtime,
    r.1.windowsizeInCycles < 2 ^ 32 ∧ (r.1.windowsizeInCycles >>> 16 ≤ st.windowsizeInCycles >>> 16 ∨
      ∀ ppg ∈ st.activesPpg, ppg.budgetInPercent ≠ 0)))

structure InOrder (n : Nat) (st : State) : Prop where
  processors : st.numProcessors = n
  shares : Shares st.shares
  window : st.windowsizeInCycles < 2 ^ 32
  ordered : Ordered st.windowsizeInCycles st.ranks

theorem opStep_inOrder {n : Nat} {op : Op} (h : InOrder n st) (hop : op.Covered st) (hstep : opStep st op = some st') :
    InOrder n st' := by
  cases op with
  | call call =>
    have hdid := step_did h.shares hstep
    have hordered := hdid.ordered h.shares h.window h.ordered
    obtain ⟨hn, hw, -⟩ := hdid.const
    refine ⟨hn.trans h.processors, hdid.shares h.shares, ?_, ?_⟩ <;> rw [hw]
    · exact h.window
    · exact hordered
  | reinit newWindowsizeMs qtime =>
    obtain ⟨⟨st', errno⟩, hre, rfl⟩ := Option.map_eq_some_iff.mp hstep
    obtain ⟨hshares, hranks, hn⟩ := reinitWindowParms_keeps hre
    obtain ⟨hw, hless | hnone⟩ := hop _ hre
    · refine ⟨hn.trans h.processors, hshares ▸ h.shares, hw, hranks ▸ h.ordered.nonzero, ?_⟩
      rw [hranks]
      intro z hz hzero
      obtain ⟨hfactor, hoffset, hlast⟩ := h.ordered.zero z hz hzero
      exact ⟨hfactor, hoffset, fun p hp hne => (Nat.mul_le_mul_left _ hless).trans_lt (hlast p hp hne)⟩
    · refine ⟨hn.trans h.processors, hshares ▸ h.shares, hw, hranks ▸ h.ordered.nonzero, ?_⟩
      rw [hranks]
      exact forall_mem_map.mpr fun ppg hppg hzero => absurd hzero (hnone ppg hppg)

/-- The values of set_factors and of RELATIVE_FRACTION_USED before they are reduced to their types. -/
structure NoOverflow (st : State) : Prop where
  product : ∀ k, ((budgets st.activesPpg).take k).prod < 2 ^ 64
  scaled : totalProduct st.activesPpg * maxBudgetErrorInverse < 2 ^ 64
  divisors : setFactors st ≠ none
  factors : ∀ b ∈ budgets st.activesPpg, factor st.activesPpg b < 2 ^ 32
  offset : maxFactor st.activesPpg * (st.windowsizeInCycles >>> 16) + 1 < 2 ^ 32
  used : ∀ ppg ∈ st.activesPpg, ∀ used < 2 ^ 32,
    (used >>> 16) * ppg.relativeFractionUsedFactor + ppg.relativeFractionUsedOffset < 2 ^ 32

theorem InOrder.noOverflow {n : Nat} (h : InOrder n st) : NoOverflow st where
  product k := (prod_take_le h.shares k).trans_lt (by decide)
  scaled := by
    have hle := prod_le h.shares
    rw [totalProduct_eq h.shares, maxBudgetErrorInverse]
    omega
  divisors := by
    rw [setFactors, if_neg (not_or.mpr ⟨(totalProduct_pos h.shares).ne', (minT64_pos h.shares).ne'⟩)]
    exact Option.some_ne_none _
  factors _ hb := (factor_le h.shares hb).trans_lt (by decide)
  offset := Nat.lt_of_le_of_lt (Nat.succ_le_succ (mul_shift_le h.window (maxFactor_le h.shares))) (by decide)
  used ppg hppg used hused := by
    have hmem := mem_map_of_mem (f := fun ppg : Ppg =>
      (⟨ppg.budgetInPercent, ppg.relativeFractionUsedFactor, ppg.relativeFractionUsedOffset⟩ : Rank)) hppg
    rw [Nat.mul_comm]
    by_cases hzero : ppg.budgetInPercent = 0
    · obtain ⟨hfactor, hoffset, -⟩ := h.ordered.zero _ hmem hzero
      dsimp only at hfactor hoffset
      rw [hfactor, Nat.shiftRight_eq_div_pow]
      omega
    · obtain ⟨hfactor, hoffset⟩ := h.ordered.nonzero _ hmem hzero
      dsimp only at hfactor hoffset
      rw [hoffset]
      exact (mul_shift_le hused hfactor).trans_lt (by decide)

/-- A partition without a budget comes after all that have one and have not used more than the window: on one
processor, when the window does not grow while there is one without, and has less than 2³² cycles. Nothing
overflows, on any number of processors. -/
theorem zero_budgets_last (n bmp w cpm : Nat) (hw : w < 2 ^ 32) (st₀ : State)
    (hboot : createDefaultDispatch n bmp w cpm = some st₀) (ops : List Op) (hops : Run.Along opStep Op.Covered ops st₀)
    (st : State) (hrun : Run.exec opStep ops st₀ = some st) :
    NoOverflow st ∧ (n = 1 → ∀ z ∈ st.activesPpg, z.budgetInPercent = 0 →
      ∀ p ∈ st.activesPpg, p.budgetInPercent ≠ 0 → ∀ usedZ usedP, usedZ < 2 ^ 32 →
        usedP ≤ st.numProcessors * st.windowsizeInCycles → relativeFractionUsed usedP p < relativeFractionUsed usedZ z) := by
  have hinit : InOrder n st₀ := by
    have hordered := setFactors_ordered hboot (boot_shares hboot) hw
    refine ⟨?_, boot_shares hboot, ?_, ?_⟩ <;> rw [setFactors_eq hboot] at *
    · exact hw
    · exact hordered
  have h := Run.inv opStep_inOrder hinit hops hrun
  refine ⟨h.noOverflow, fun hn z hz hzero p hp hne usedZ usedP husedZ hused => ?_⟩
  obtain ⟨-, -, hlast⟩ := h.ordered.zero _ (mem_map_of_mem hz) hzero
  have hoffset : p.relativeFractionUsedOffset = 0 := (h.ordered.nonzero _ (mem_map_of_mem hp) hne).2
  rw [h.processors, hn, Nat.one_mul] at hused
  have hshift : usedP >>> 16 ≤ st.windowsizeInCycles >>> 16 := by
    rw [Nat.shiftRight_eq_div_pow, Nat.shiftRight_eq_div_pow]
    exact Nat.div_le_div_right hused
  rw [relativeFractionUsed, relativeFractionUsed, Nat.mod_eq_of_lt (h.noOverflow.used z hz usedZ husedZ),
    Nat.mod_eq_of_lt (h.noOverflow.used p hp usedP (hused.trans_lt h.window)), hoffset]
  calc (usedP >>> 16) * p.relativeFractionUsedFactor
      ≤ (st.windowsizeInCycles >>> 16) * p.relativeFractionUsedFactor :=
        Nat.mul_le_mul_right _ hshift
    _ = p.relativeFractionUsedFactor * (st.windowsizeInCycles >>> 16) := Nat.mul_comm _ _
    _ < z.relativeFractionUsedOffset := hlast _ (mem_map_of_mem hp) hne
    _ ≤ (usedZ >>> 16) * z.relativeFractionUsedFactor + z.relativeFractionUsedOffset := Nat.le_add_left _ _

/-- A partition without a budget is created, gets one, and another is created; then the window is made smaller. -/
def threePartitions : List Op :=
  [.call (.create ⟨0, 0, false, 0⟩ {}), .call (.modify ⟨1, 30, -1⟩ {}), .call (.create ⟨0, 0, true, 1⟩ {}),
    .reinit 50 ⟨1000000, 10 ^ 9⟩]

theorem zero_budgets_last_run : ∃ st₀ st : State, createDefaultDispatch 1 1 (10 ^ 8) (10 ^ 6) = some st₀ ∧
    Run.exec opStep threePartitions st₀ = some st ∧ st.activesPpg.map (·.budgetInPercent) = [70, 30, 0] ∧
    NoOverflow st ∧ ∀ z ∈ st.activesPpg, z.budgetInPercent = 0 → ∀ p ∈ st.activesPpg, p.budgetInPercent ≠ 0 →
      ∀ usedZ usedP, usedZ < 2 ^ 32 → usedP ≤ st.numProcessors * st.windowsizeInCycles →
        relativeFractionUsed usedP p < relativeFractionUsed usedZ z := by
  have hfacts : (createDefaultDispatch 1 1 (10 ^ 8) (10 ^ 6)).bind (fun st₀ =>
      (Run.exec opStep threePartitions st₀).map fun st => st.activesPpg.map (·.budgetInPercent)) = some [70, 30, 0] := by
    decide +kernel
  have hcovered : ∀ st₀ ∈ createDefaultDispatch 1 1 (10 ^ 8) (10 ^ 6), Run.Along opStep Op.Covered threePartitions st₀ := by
    decide +kernel
  obtain ⟨st₀, hboot, hrest⟩ := Option.bind_eq_some_iff.mp hfacts
  obtain ⟨st, hrun, hpercent⟩ := Option.map_eq_some_iff.mp hrest
  obtain ⟨hno, hlast⟩ := zero_budgets_last 1 1 (10 ^ 8) (10 ^ 6) (by decide) st₀ hboot threePartitions
    (hcovered st₀ hboot) st hrun
  exact ⟨st₀, st, hboot, hrun, hpercent, hno, hlast rfl⟩

/-- The system has used both processors for the whole window, and a partition without a budget comes before it; and
so it is on one processor, when the window has been made twice as long. -/
theorem zero_budget_first :
    (∃ st₀ st : State, createDefaultDispatch 2 2 (10 ^ 8) (10 ^ 6) = some st₀ ∧
      Run.exec opStep [.call (.create ⟨0, 0, false, 0⟩ {})] st₀ = some st ∧
      st.activesPpg.map (·.budgetInPercent) = [100, 0] ∧
      st.activesPpg.map (relativeFractionUsed (2 * 10 ^ 8)) = [610200, 308052]) ∧
    ∃ st₀ st : State, createDefaultDispatch 1 1 (10 ^ 8) (10 ^ 6) = some st₀ ∧
      Run.exec opStep [.call (.create ⟨0, 0, false, 0⟩ {}), .reinit 200 ⟨1000000, 10 ^ 9⟩] st₀ = some st ∧
      st.windowsizeInCycles = 2 * 10 ^ 8 ∧ st.activesPpg.map (·.budgetInPercent) = [100, 0] ∧
      st.activesPpg.map (relativeFractionUsed (2 * 10 ^ 8)) = [610200, 308052] := by
  refine ⟨⟨_, _, rfl, rfl, ?_⟩, _, _, rfl, rfl, ?_⟩ <;> decide +kernel

end QRV.Aps
