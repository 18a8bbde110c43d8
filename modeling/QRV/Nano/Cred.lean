import QRV.Lib.Run

/- Credentials, `cred_set` in `kernel/nano/nano_cred.c`: entries shared by content, each
   counting the pointers (of processes and of network connections) that refer to it.

   What is proved:
     1. `links_counted` — in every run in which `object_alloc` only fails for a pointer that
        is NULL and no link count wraps, no call touches a freed entry, each listed entry has
        as many links as there are pointers to it and at least one, no pointer refers to a
        freed entry, no two listed entries hold the same credential, and a call that returns
        `EAGAIN` changes nothing.
     2. `cred_set_apart` — there a call sets the credential of its pointer and no other.
     3. `refused_unlinks` — otherwise a refused call has already given up the link of the
        entry its pointer keeps referring to; the next call of another holder frees it.

   Correspondence (C ↔ Lean) where the names differ:
     `struct _cred_info`                 ↔ `CredInfo`
     `CREDENTIAL`                        ↔ `Credential`
     `credential_list`, `LINK1_REM`      ↔ `list`, `List.erase`
     the test of `cip->ngroups`          ↔ `CredInfo.clamp`
     `memcmp(&crp->info, cip, size)`     ↔ `CredInfo.Same`
     `memcpy(&crp->info, cip, size)`     ↔ `CredInfo.copied`
     `kernel_init`'s first entry         ↔ `Creds.boot`
   `P` are the pointers. `none` is a crash or the use of a freed entry. -/
namespace QRV.Nano
open Function
open List Option

/-- `struct _cred_info`, with `__NGROUPS_MAX` supplementary groups. -/
structure CredInfo where
  ruid : Int
  euid : Int
  suid : Int
  rgid : Int
  egid : Int
  sgid : Int
  ngroups : Nat
  grouplist : Fin 8 → Int

namespace CredInfo

/-- Only the number of groups set at compile time is remembered. -/
def clamp (info : CredInfo) : CredInfo :=
  if 8 < info.ngroups then { info with ngroups := 8 } else info

/-- Equal in the bytes up to the last group of `cip`. -/
def Same (info cip : CredInfo) : Prop :=
  info.ruid = cip.ruid ∧ info.euid = cip.euid ∧ info.suid = cip.suid ∧ info.rgid = cip.rgid ∧
    info.egid = cip.egid ∧ info.sgid = cip.sgid ∧ info.ngroups = cip.ngroups ∧
      ∀ i : Fin 8, i.val < cip.ngroups → info.grouplist i = cip.grouplist i

instance (info cip : CredInfo) : Decidable (info.Same cip) := inferInstanceAs (Decidable (_ ∧ _))

/-- The bytes up to the last group of `cip`, in an object that `object_alloc` has cleared. -/
def copied (cip : CredInfo) : CredInfo :=
  { cip with grouplist := fun i => if i.val < cip.ngroups then cip.grouplist i else 0 }

variable {a b c : CredInfo}

theorem Same.symm (h : a.Same b) : b.Same a := by
  obtain ⟨h1, h2, h3, h4, h5, h6, h7, h8⟩ := h
  exact ⟨h1.symm, h2.symm, h3.symm, h4.symm, h5.symm, h6.symm, h7.symm,
    fun i hi => (h8 i (h7 ▸ hi)).symm⟩

theorem Same.trans (h : a.Same b) (h' : b.Same c) : a.Same c := by
  obtain ⟨h1, h2, h3, h4, h5, h6, h7, h8⟩ := h
  obtain ⟨g1, g2, g3, g4, g5, g6, g7, g8⟩ := h'
  exact ⟨h1.trans g1, h2.trans g2, h3.trans g3, h4.trans g4, h5.trans g5, h6.trans g6, h7.trans g7,
    fun i hi => (h8 i (g7 ▸ hi)).trans (g8 i hi)⟩

theorem same_copied (cip : CredInfo) : cip.copied.Same cip :=
  ⟨rfl, rfl, rfl, rfl, rfl, rfl, rfl, fun _ hi => if_pos hi⟩

end CredInfo

/-- `CREDENTIAL`; `links` is a `uint32_t`. -/
structure Credential where
  links : Nat
  info : CredInfo

/-- The errors of `cred_set`. -/
inductive CredStatus
  | eok
  | eagain
  deriving DecidableEq, Repr

/-- The credential entries and the pointers to them. -/
structure Creds (P : Type) where
  /-- the entries, `none` where there is none -/
  entry : Nat → Option Credential
  /-- `credential_list` -/
  list : List Nat
  /-- the freed objects of `credential_souls` -/
  souls : List Nat
  /-- the next object `credential_souls` grows by -/
  next : Nat
  cred : P → Option Nat

section Ops
variable {P : Type} [DecidableEq P]

namespace Creds

/-- `--crp->links`, and off with the entry when it was the last. -/
def unlink (s : Creds P) (r : Nat) (crp : Credential) : Creds P :=
  if crp.links - 1 = 0 then
    { s with list := s.list.erase r, entry := update s.entry r none, souls := r :: s.souls }
  else { s with entry := update s.entry r (some { crp with links := crp.links - 1 }) }

/-- The entry the walk over `credential_list` stops at. -/
def findSame (s : Creds P) (cip : CredInfo) : Option Nat :=
  s.list.find? fun r => (s.entry r).any fun crp =>
    decide (crp.info.ruid = cip.ruid) && decide (crp.info.Same cip)

/-- `++crp->links; *pcrp = crp` -/
def share (s : Creds P) (p : P) (r : Nat) : Creds P :=
  { s with entry := update s.entry r
             ((s.entry r).map fun crp => { crp with links := (crp.links + 1) % 2 ^ 32 })
           cred := update s.cred p (some r) }

/-- `object_alloc` of an entry: a freed one, or a new one. -/
def fresh (s : Creds P) : Nat × Creds P :=
  match s.souls with
  | r :: rest => (r, { s with souls := rest })
  | [] => (s.next, { s with next := s.next + 1 })

/-- A new entry at the head of the list. -/
def create (s : Creds P) (p : P) (cip : CredInfo) : Creds P :=
  let (r, s) := s.fresh
  { s with entry := update s.entry r (some ⟨1, cip.copied⟩)
           list := r :: s.list
           cred := update s.cred p (some r) }

/-- `cred_set` once the old entry has been let go. -/
def relink (s : Creds P) (p : P) (cip : Option CredInfo) (memory : Bool) : Creds P × CredStatus :=
  match cip with
  | none => ({ s with cred := update s.cred p none }, .eok)
  | some cip =>
    match s.findSame cip with
    | some r => (s.share p r, .eok)
    | none => if memory then (s.create p cip, .eok) else (s, .eagain)

/-- `cred_set` through the pointer `p`; `memory` is whether `object_alloc` succeeds. -/
def credSet (s : Creds P) (p : P) (cip : Option CredInfo) (memory : Bool) :
    Option (Creds P × CredStatus) :=
  let cip := cip.map CredInfo.clamp
  match s.cred p with
  | none => some (s.relink p cip memory)
  | some r =>
    match s.entry r with
    | none => none
    | some crp =>
      if crp.links = 0 then none
      else if cip.any (fun cip => decide (crp.info.Same cip)) then some (s, .eok)
      else some ((s.unlink r crp).relink p cip memory)

/-- The system process's entry, as the kernel is initialised. -/
def boot (p₀ : P) : Creds P where
  entry := update (fun _ => none) 0 (some ⟨1, 0, 0, 0, 0, 0, 0, 0, fun _ => 0⟩)
  list := [0]
  souls := []
  next := 1
  cred := update (fun _ => none) p₀ (some 0)

end Creds

/-- One call of `cred_set`. -/
structure CredCall (P : Type) where
  pcrp : P
  cip : Option CredInfo
  memory : Bool

def credStep (s : Creds P) (call : CredCall P) : Option (Creds P) :=
  (s.credSet call.pcrp call.cip call.memory).map Prod.fst

/-- The pointers that refer to an entry. -/
def Creds.holders (s : Creds P) (r : Nat) : Set P := {p | s.cred p = some r}

/-- The links count the pointers, and an entry stands for its credential. -/
structure Creds.Counted (s : Creds P) : Prop where
  links : ∀ r ∈ s.list, ∃ crp, s.entry r = some crp ∧ 0 < crp.links ∧ (s.holders r).encard = crp.links
  held : ∀ p r, s.cred p = some r → r ∈ s.list
  freed : ∀ r, r ∉ s.list → s.entry r = none
  distinct : ∀ r ∈ s.list, ∀ r' ∈ s.list, r ≠ r' → ∀ crp crp', s.entry r = some crp →
    s.entry r' = some crp' → ¬ crp.info.Same crp'.info
  nodup : s.list.Nodup

/-- The objects that `object_alloc` gives out are not in use. -/
structure Creds.Souls (s : Creds P) : Prop where
  below : ∀ r ∈ s.list, r < s.next
  soul : ∀ r ∈ s.souls, r < s.next ∧ r ∉ s.list
  nodup : s.souls.Nodup

/-! ## Letting go of an entry -/

variable {s : Creds P} {p : P} {r : Nat} {crp : Credential} {cip : CredInfo}

/-- The state as it is with the pointer cleared. -/
def Creds.drop (s : Creds P) (p : P) : Creds P := { s with cred := update s.cred p none }

theorem holders_drop (s : Creds P) (p : P) (r : Nat) : (s.drop p).holders r = s.holders r \ {p} := by
  ext q
  by_cases hq : q = p <;> simp [Creds.holders, Creds.drop, hq]

theorem holders_drop_off {r' : Nat} (hp : s.cred p = some r) (hr : r' ≠ r) :
    (s.drop p).holders r' = s.holders r' := by
  rw [holders_drop]
  refine Set.sdiff_singleton_eq_self fun hmem => hr ?_
  exact some.inj ((show s.cred p = some r' from hmem).symm.trans hp)

omit [DecidableEq P] in
theorem update_cases {α β : Type} [DecidableEq α] {f : α → β} {a x : α} {b y : β} (h : update f a b x = y) :
    x = a ∧ b = y ∨ f x = y := by
  rw [update_apply] at h
  split_ifs at h with hx
  exacts [.inl ⟨hx, h⟩, .inr h]

theorem cred_drop {q : P} {r' : Nat} (hq : (s.drop p).cred q = some r') : s.cred q = some r' :=
  (update_cases hq).resolve_left fun hno => nomatch hno.2

omit [DecidableEq P] in
theorem info_update {n r' : Nat} {c' : Credential} (he : s.entry r = some crp)
    (hc' : update s.entry r (some { crp with links := n }) r' = some c') :
    ∃ c, s.entry r' = some c ∧ c.info = c'.info := by
  rcases update_cases hc' with ⟨rfl, hc⟩ | hc
  · cases hc
    exact ⟨crp, he, rfl⟩
  · exact ⟨c', hc, rfl⟩

theorem encard_drop (h : s.Counted) (hp : s.cred p = some r) (he : s.entry r = some crp) :
    0 < crp.links ∧ ((s.drop p).holders r).encard = (crp.links - 1 : Nat) := by
  obtain ⟨crp', he', hpos, hcard⟩ := h.links r (h.held p r hp)
  obtain rfl : crp' = crp := some.inj (he'.symm.trans he)
  refine ⟨hpos, ?_⟩
  have hone := Set.encard_sdiff_singleton_add_one (show p ∈ s.holders r from hp)
  rw [hcard] at hone
  rw [holders_drop]
  have hsum : (crp'.links : ℕ∞) = ((crp'.links - 1 : Nat) : ℕ∞) + 1 := by
    exact_mod_cast (Nat.sub_add_cancel hpos).symm
  rw [hsum] at hone
  exact WithTop.add_right_cancel ENat.one_ne_top hone

omit [DecidableEq P] in
/-- Another number of links for an entry, with the pointers that go with it. -/
theorem Creds.Counted.relinked {n : Nat} {cred : P → Option Nat} (h : s.Counted)
    (he : s.entry r = some crp) (hr : r ∈ s.list) (hn : 0 < n)
    (hcard : (({ s with cred := cred } : Creds P).holders r).encard = n)
    (hoff : ∀ r' ≠ r, ({ s with cred := cred } : Creds P).holders r' = s.holders r')
    (hheld : ∀ q r', cred q = some r' → r' ∈ s.list) :
    Creds.Counted { s with entry := update s.entry r (some { crp with links := n }), cred := cred } := by
  refine ⟨fun r' hr' => ?_, hheld, fun r' hr' => ?_, fun a ha b hb hab ca cb hca hcb => ?_, h.nodup⟩
  · by_cases hne : r' = r
    · subst hne
      exact ⟨_, update_self _ _ _, hn, hcard⟩
    · obtain ⟨crp', he', hpos', hcard'⟩ := h.links r' hr'
      exact ⟨crp', (update_of_ne hne _ _).trans he', hpos', (congrArg Set.encard (hoff r' hne)).trans hcard'⟩
  · have hne : r' ≠ r := fun hne => hr' (hne ▸ hr)
    exact (update_of_ne hne _ _).trans (h.freed r' hr')
  · obtain ⟨ca', hca', hia⟩ := info_update he hca
    obtain ⟨cb', hcb', hib⟩ := info_update he hcb
    rw [← hia, ← hib]
    exact h.distinct a ha b hb hab ca' cb' hca' hcb'

theorem unlink_counted (h : s.Counted) (hp : s.cred p = some r) (he : s.entry r = some crp) :
    ((s.unlink r crp).drop p).Counted := by
  obtain ⟨hpos, hcard⟩ := encard_drop h hp he
  by_cases hlast : crp.links - 1 = 0
  · -- the last link: the entry leaves the list, and no pointer was left to it
    have hst : s.unlink r crp = { s with list := s.list.erase r
                                         entry := update s.entry r none
                                         souls := r :: s.souls } := if_pos hlast
    rw [hst]
    have hnone : ∀ q, (s.drop p).cred q ≠ some r := fun q hq => by
      rw [hlast, Nat.cast_zero, Set.encard_eq_zero] at hcard
      exact hcard.le hq
    have hmem : ∀ r', r' ∈ s.list.erase r ↔ r' ≠ r ∧ r' ∈ s.list := fun r' => h.nodup.mem_erase_iff
    refine ⟨fun r' hr' => ?_, fun q r' hq => ?_, fun r' hr' => ?_, fun a ha b hb hab ca cb hca hcb => ?_,
      h.nodup.erase r⟩
    · obtain ⟨hne, hin⟩ := (hmem r').mp hr'
      obtain ⟨crp', he', hpos', hcard'⟩ := h.links r' hin
      exact ⟨crp', (update_of_ne hne _ _).trans he', hpos',
        (congrArg Set.encard (holders_drop_off hp hne)).trans hcard'⟩
    · have hq' : (s.drop p).cred q = some r' := hq
      exact (hmem r').mpr ⟨fun hne => hnone q (hne ▸ hq'), h.held q r' (cred_drop hq')⟩
    · by_cases hne : r' = r
      · rw [hne]
        exact update_self _ _ _
      · exact (update_of_ne hne _ _).trans (h.freed r' fun hin => hr' ((hmem r').mpr ⟨hne, hin⟩))
    · obtain ⟨hane, hain⟩ := (hmem a).mp ha
      obtain ⟨hbne, hbin⟩ := (hmem b).mp hb
      exact h.distinct a hain b hbin hab ca cb ((update_of_ne hane _ _).symm.trans hca)
        ((update_of_ne hbne _ _).symm.trans hcb)
  · have hst : s.unlink r crp =
        { s with entry := update s.entry r (some { crp with links := crp.links - 1 }) } := if_neg hlast
    rw [hst]
    exact h.relinked he (h.held p r hp) (Nat.pos_of_ne_zero hlast) hcard
      (fun r' hne => holders_drop_off hp hne) fun q r' hq => h.held q r' (cred_drop (s := s) hq)

omit [DecidableEq P] in
theorem unlink_souls (h : s.Counted) (hs : s.Souls) (hp : s.cred p = some r) : (s.unlink r crp).Souls := by
  unfold Creds.unlink
  split
  · refine ⟨fun r' hr' => hs.below r' (mem_of_mem_erase hr'), fun r' hr' => ?_, ?_⟩
    · rcases mem_cons.mp hr' with rfl | hr'
      · exact ⟨hs.below r' (h.held p r' hp), fun hin => (h.nodup.mem_erase_iff.mp hin).1 rfl⟩
      · exact ⟨(hs.soul r' hr').1, fun hin => (hs.soul r' hr').2 (mem_of_mem_erase hin)⟩
    · exact nodup_cons.mpr ⟨fun hr' => (hs.soul r hr').2 (h.held p r hp), hs.nodup⟩
  · exact ⟨hs.below, hs.soul, hs.nodup⟩

/-! ## Referring to an entry -/

theorem holders_set (hp : s.cred p = none) (r r' : Nat) :
    ({ s with cred := update s.cred p (some r) } : Creds P).holders r' =
      if r' = r then insert p (s.holders r) else s.holders r' := by
  split
  · next heq =>
    subst heq
    ext q
    by_cases hq : q = p <;> simp [Creds.holders, hq]
  · next hne =>
    ext q
    by_cases hq : q = p
    · simp [Creds.holders, hq, hp, Ne.symm hne]
    · simp [Creds.holders, update_of_ne hq]

theorem held_set {q : P} {r' : Nat} (h : s.Counted)
    (hq : update s.cred p (some r) q = some r') : r' = r ∨ r' ∈ s.list :=
  (update_cases hq).imp (fun heq => (some.inj heq.2).symm) (h.held q r')

omit [DecidableEq P] in
theorem notMem_holders (hp : s.cred p = none) (r : Nat) : p ∉ s.holders r := fun h => by
  have h : s.cred p = some r := h
  rw [hp] at h
  cases h

/-- No link count wraps when one more pointer refers to the entry. -/
def Creds.Roomy (s : Creds P) : Prop := ∀ r ∈ s.list, ∀ crp ∈ s.entry r, crp.links + 1 < 2 ^ 32

instance (s : Creds P) : Decidable s.Roomy := inferInstanceAs (Decidable (∀ r ∈ s.list, _))

theorem share_counted (h : s.Counted) (hp : s.cred p = none) (hroom : s.Roomy) (hr : r ∈ s.list) :
    (s.share p r).Counted := by
  obtain ⟨crp, he, hpos, hcard⟩ := h.links r hr
  have hwrap : (crp.links + 1) % 2 ^ 32 = crp.links + 1 := Nat.mod_eq_of_lt (hroom r hr crp he)
  have hst : s.share p r = { s with entry := update s.entry r (some { crp with links := crp.links + 1 })
                                    cred := update s.cred p (some r) } := by
    rw [Creds.share, he, map_some, hwrap]
  have hold := holders_set hp r
  rw [hst]
  refine h.relinked he hr (Nat.succ_pos _) ?_ (fun r' hne => (hold r').trans (if_neg hne)) fun q r' hq => ?_
  · refine (congrArg Set.encard ((hold r).trans (if_pos rfl))).trans ?_
    rw [Set.encard_insert_of_notMem (notMem_holders hp r), hcard, Nat.cast_add, Nat.cast_one]
  · rcases held_set h hq with rfl | hin
    · exact hr
    · exact hin

omit [DecidableEq P] in
theorem fresh_spec (hs : s.Souls) : s.fresh.1 ∉ s.list ∧ s.fresh.1 < s.fresh.2.next ∧ s.fresh.2.Souls ∧
    s.fresh.1 ∉ s.fresh.2.souls ∧ s.fresh.2.list = s.list ∧ s.fresh.2.entry = s.entry ∧
      s.fresh.2.cred = s.cred := by
  obtain ⟨entry, list, souls, next, cred⟩ := s
  cases souls with
  | nil =>
    refine ⟨fun hin => Nat.lt_irrefl _ (hs.below _ hin), Nat.lt_succ_self _, ⟨fun r hr => ?_, ?_, hs.nodup⟩,
      not_mem_nil, rfl, rfl, rfl⟩
    · exact Nat.lt_succ_of_lt (hs.below r hr)
    · exact nofun
  | cons r rest =>
    have hr := hs.soul r mem_cons_self
    exact ⟨hr.2, hr.1, ⟨hs.below, fun r' hr' => hs.soul r' (.tail _ hr'),
      (nodup_cons.mp hs.nodup).2⟩, (nodup_cons.mp hs.nodup).1, rfl, rfl, rfl⟩

theorem create_counted (h : s.Counted) (hs : s.Souls) (hp : s.cred p = none) (hnew : s.findSame cip = none) :
    (s.create p cip).Counted ∧ (s.create p cip).Souls := by
  obtain ⟨hnin, hlt, hsouls, hsoul, hlist, hentry, hcred⟩ := fresh_spec hs
  obtain ⟨r, hr⟩ : ∃ r, r = s.fresh.1 := ⟨_, rfl⟩
  have hst : s.create p cip = { s.fresh.2 with entry := update s.entry r (some ⟨1, cip.copied⟩)
                                               list := r :: s.list
                                               cred := update s.cred p (some r) } := by
    rw [hr, ← hentry, ← hlist, ← hcred]
    rfl
  rw [← hr] at hnin hlt hsoul
  have hold := holders_set hp r
  have hempty : s.holders r = ∅ := by
    refine Set.eq_empty_of_forall_notMem fun q hq => hnin (h.held q r hq)
  have hdiff : ∀ r' ∈ s.list, ∀ c, s.entry r' = some c → ¬ c.info.Same cip := fun r' hr' c hc hsame => by
    have hno := find?_eq_none.mp hnew r' hr'
    rw [hc, any_some] at hno
    exact hno (by simp [hsame.1, hsame])
  have hoff : ∀ r' ∈ s.list, update s.entry r (some ⟨1, cip.copied⟩) r' = s.entry r' :=
    fun r' hr' => update_of_ne (ne_of_mem_of_not_mem hr' hnin) _ _
  rw [hst]
  refine ⟨⟨fun r' hr' => ?_, fun q r' hq => ?_, fun r' hr' => ?_, fun a ha b hb hab ca cb hca hcb => ?_, ?_⟩,
    ⟨fun r' hr' => ?_, fun r' hr' => ?_, hsouls.nodup⟩⟩
  · rcases mem_cons.mp hr' with rfl | hin
    · refine ⟨_, update_self _ _ _, Nat.one_pos, ?_⟩
      refine (congrArg Set.encard ((hold r').trans (if_pos rfl))).trans ?_
      rw [Set.encard_insert_of_notMem (notMem_holders hp r'), hempty, Set.encard_empty, zero_add, Nat.cast_one]
    · obtain ⟨crp', he', hpos', hcard'⟩ := h.links r' hin
      have hne : r' ≠ r := fun hne => hnin (hne ▸ hin)
      exact ⟨crp', (hoff r' hin).trans he', hpos',
        (congrArg Set.encard ((hold r').trans (if_neg hne))).trans hcard'⟩
  · rcases held_set h hq with rfl | hin
    · exact mem_cons_self
    · exact .tail _ hin
  · have hne : r' ≠ r := fun hne => hr' (hne ▸ mem_cons_self)
    exact (update_of_ne hne _ _).trans (h.freed r' fun hin => hr' (.tail _ hin))
  · rcases mem_cons.mp ha with rfl | hain <;> rcases mem_cons.mp hb with rfl | hbin
    · exact absurd rfl hab
    · obtain rfl := some.inj ((update_self a _ s.entry).symm.trans hca)
      intro hsame
      exact hdiff b hbin cb ((hoff b hbin).symm.trans hcb) (hsame.symm.trans cip.same_copied)
    · obtain rfl := some.inj ((update_self b _ s.entry).symm.trans hcb)
      intro hsame
      exact hdiff a hain ca ((hoff a hain).symm.trans hca) (hsame.trans cip.same_copied)
    · exact h.distinct a hain b hbin hab ca cb ((hoff a hain).symm.trans hca) ((hoff b hbin).symm.trans hcb)
  · exact nodup_cons.mpr ⟨hnin, h.nodup⟩
  · rcases mem_cons.mp hr' with rfl | hin
    · exact hlt
    · exact hsouls.below r' (hlist ▸ hin)
  · refine ⟨(hsouls.soul r' hr').1, fun hin => ?_⟩
    rcases mem_cons.mp hin with rfl | hin
    · exact hsoul hr'
    · exact (hsouls.soul r' hr').2 (hlist ▸ hin)

/-! ## A call -/

omit [DecidableEq P] in
theorem unlink_roomy (hroom : s.Roomy) (hr : r ∈ s.list) (he : s.entry r = some crp) :
    (s.unlink r crp).Roomy := by
  have hcrp := hroom r hr crp he
  unfold Creds.unlink
  split
  · intro r' hr' crp' he'
    rcases update_cases he' with ⟨-, hc⟩ | hc
    · cases hc
    · exact hroom r' (mem_of_mem_erase hr') crp' hc
  · intro r' hr' crp' he'
    rcases update_cases he' with ⟨-, hc⟩ | hc
    · cases hc
      dsimp only
      omega
    · exact hroom r' hr' crp' hc

theorem relink_kept (cip : Option CredInfo) (memory : Bool) (h : s.Counted) (hs : s.Souls)
    (hp : s.cred p = none) (hroom : s.Roomy) :
    (s.relink p cip memory).1.Counted ∧ (s.relink p cip memory).1.Souls := by
  unfold Creds.relink
  cases cip with
  | none =>
    have hsame : update s.cred p none = s.cred := by rw [← hp, update_eq_self]
    simp only [hsame]
    exact ⟨h, hs⟩
  | some cip =>
    dsimp only
    cases hfind : s.findSame cip with
    | some r =>
      exact ⟨share_counted h hp hroom (mem_of_find?_eq_some hfind), hs.below, hs.soul, hs.nodup⟩
    | none =>
      cases memory with
      | true => exact create_counted h hs hp hfind
      | false => exact ⟨h, hs⟩

theorem relink_drop (s : Creds P) (p : P) (cip : Option CredInfo) :
    ((s.drop p).relink p cip true).1 = (s.relink p cip true).1 := by
  unfold Creds.relink
  cases cip with
  | none => simp only [Creds.drop, update_idem]
  | some cip =>
    have hfind : (s.drop p).findSame cip = s.findSame cip := rfl
    dsimp only
    rw [hfind]
    cases s.findSame cip with
    | some r => simp only [Creds.share, Creds.drop, update_idem]
    | none =>
      obtain ⟨entry, list, souls, next, cred⟩ := s
      cases souls <;> simp only [Creds.create, Creds.fresh, Creds.drop, update_idem, if_pos]

/-- `object_alloc` only fails where there is no entry to let go of, and no link count wraps. -/
def Spared (s : Creds P) (call : CredCall P) : Prop :=
  (call.memory = false → s.cred call.pcrp = none) ∧ s.Roomy

instance (s : Creds P) (call : CredCall P) : Decidable (Spared s call) :=
  inferInstanceAs (Decidable (_ ∧ _))

theorem credStep_kept {call : CredCall P} (h : s.Counted ∧ s.Souls) (hcall : Spared s call) :
    ∃ s', credStep s call = some s' ∧ s'.Counted ∧ s'.Souls := by
  obtain ⟨h, hs⟩ := h
  obtain ⟨hmem, hroom⟩ := hcall
  unfold credStep Creds.credSet
  cases hp : s.cred call.pcrp with
  | none => exact ⟨_, rfl, relink_kept _ _ h hs hp hroom⟩
  | some r =>
    have hr := h.held _ r hp
    obtain ⟨crp, he, hpos, _⟩ := h.links r hr
    have hmemory : call.memory = true := by
      cases hm : call.memory with
      | true => rfl
      | false => cases (hmem hm).symm.trans hp
    simp only [he, Nat.ne_of_gt hpos, if_false, hmemory]
    split
    · exact ⟨s, rfl, h, hs⟩
    · -- as if the pointer had been cleared first
      refine ⟨_, rfl, ?_⟩
      rw [← relink_drop]
      exact relink_kept _ _ (unlink_counted h hp he)
        (show ((s.unlink r crp).drop call.pcrp).Souls from
          ⟨(unlink_souls h hs hp).below, (unlink_souls h hs hp).soul, (unlink_souls h hs hp).nodup⟩)
        (update_self _ _ _) (unlink_roomy hroom hr he)

theorem boot_counted (p0 : P) : (Creds.boot p0).Counted ∧ (Creds.boot p0).Souls := by
  have hheld : ∀ p r, (Creds.boot p0).cred p = some r → p = p0 ∧ r = 0 := fun p r hp => by
    rcases update_cases (show update (fun _ => none) p0 (some 0) p = some r from hp) with ⟨hpp, hr⟩ | hno
    · exact ⟨hpp, (some.inj hr).symm⟩
    · cases hno
  have hp0 : (Creds.boot p0).cred p0 = some 0 := by
    simp only [Creds.boot, update_self]
  have hholders : (Creds.boot p0).holders 0 = {p0} :=
    Set.eq_singleton_iff_unique_mem.mpr ⟨hp0, fun p hp => (hheld p 0 hp).1⟩
  refine ⟨⟨fun r hr => ?_, fun p r hp => ?_, fun r hr => ?_, fun r hr r' hr' hne => ?_, nodup_singleton 0⟩,
    fun r hr => ?_, nofun, nodup_nil⟩
  · obtain rfl := mem_singleton.mp hr
    exact ⟨_, rfl, Nat.one_pos, by rw [hholders, Set.encard_singleton, Nat.cast_one]⟩
  · exact mem_singleton.mpr (hheld p r hp).2
  · have hne : r ≠ 0 := fun hr0 => hr (mem_singleton.mpr hr0)
    simp only [Creds.boot, update_of_ne hne]
  · exact absurd ((mem_singleton.mp hr).trans (mem_singleton.mp hr').symm) hne
  · rw [mem_singleton.mp hr]
    exact Nat.one_pos

theorem eagain_unchanged {s' : Creds P} {call : CredCall P} (hcall : Spared s call)
    (hset : s.credSet call.pcrp call.cip call.memory = some (s', .eagain)) : s' = s := by
  have hrelink : ∀ (s1 : Creds P) cip memory, (s1.relink call.pcrp cip memory).2 = .eagain →
      memory = false ∧ (s1.relink call.pcrp cip memory).1 = s1 := fun s1 cip memory hst => by
    unfold Creds.relink at hst ⊢
    cases cip with
    | none => cases hst
    | some cip =>
      dsimp only at hst ⊢
      cases hfind : s1.findSame cip with
      | some r =>
        rw [hfind] at hst
        cases hst
      | none =>
        rw [hfind] at hst
        cases memory with
        | true => cases hst
        | false => exact ⟨rfl, rfl⟩
  unfold Creds.credSet at hset
  cases hp : s.cred call.pcrp with
  | none =>
    rw [hp] at hset
    have hset := some.inj hset
    rw [← (hrelink s _ _ (congrArg Prod.snd hset)).2]
    exact (congrArg Prod.fst hset).symm
  | some r =>
    rw [hp] at hset
    dsimp only at hset
    cases he : s.entry r with
    | none =>
      rw [he] at hset
      cases hset
    | some crp =>
      rw [he] at hset
      dsimp only at hset
      split at hset
      · cases hset
      split at hset
      · cases congrArg Prod.snd (some.inj hset)
      · have hfail := (hrelink _ _ _ (congrArg Prod.snd (some.inj hset))).1
        cases (hcall.1 hfail).symm.trans hp

/-- In every run whose calls are spared, no call meets a freed entry, the links count the
pointers in the state reached, and a spared call is only refused with nothing done. -/
theorem links_counted (p₀ : P) (calls : List (CredCall P))
    (hcalls : Run.Along credStep Spared calls (Creds.boot p₀)) :
    ∃ s, Run.exec credStep calls (Creds.boot p₀) = some s ∧ s.Counted ∧
      ∀ call, Spared s call → ∀ s', s.credSet call.pcrp call.cip call.memory = some (s', .eagain) → s' = s := by
  obtain ⟨s, hs, hcounted, _⟩ := Run.total (I := fun s => Creds.Counted s ∧ Creds.Souls s)
    (fun h hcall => credStep_kept h hcall) (boot_counted p₀) hcalls
  exact ⟨s, hs, hcounted, fun call hcall s' => eagain_unchanged hcall⟩

/-- The credential of a pointer. -/
def Creds.info (s : Creds P) (p : P) : Option CredInfo := ((s.cred p).bind s.entry).map Credential.info

/-- No other pointer loses its credential, and `p` gets `cip` unless it is refused. -/
def Creds.Sets (s : Creds P) (p : P) (cip : Option CredInfo) (r : Creds P × CredStatus) : Prop :=
  (∀ q ≠ p, r.1.info q = s.info q) ∧ (r.2 = .eok → Rel CredInfo.Same (r.1.info p) cip)

omit [DecidableEq P] in
theorem info_congr {s' : Creds P} (hcred : s'.cred p = s.cred p)
    (he : ∀ r, s.cred p = some r → (s'.entry r).map Credential.info = (s.entry r).map Credential.info) :
    s'.info p = s.info p := by
  cases hr : s.cred p <;> simp_all [Creds.info]

theorem unlink_info {q : P} (h : s.Counted) (hp : s.cred p = some r) (he : s.entry r = some crp) (hq : q ≠ p) :
    (s.unlink r crp).info q = s.info q := by
  have hheld := (unlink_counted h hp he).held q
  unfold Creds.unlink at hheld ⊢
  split_ifs at hheld ⊢
  · simp only [Creds.drop, update_of_ne hq, h.nodup.mem_erase_iff] at hheld
    exact info_congr rfl fun r' hr => congrArg _ (update_of_ne (hheld r' hr).1 _ _)
  · exact info_congr rfl fun r' _ => by grind [update_apply]

theorem relink_sets (h : (s.drop p).Counted) (hs : s.Souls) (cip : Option CredInfo) (memory : Bool) :
    s.Sets p cip (s.relink p cip memory) := by
  unfold Creds.relink
  cases cip with
  | none => simp +contextual [Creds.Sets, Creds.info]
  | some cip =>
    dsimp only
    split
    · next r hfind =>
      have hsame := find?_some hfind
      obtain ⟨crp, he, -⟩ : ∃ crp, s.entry r = some crp ∧ _ := h.links r (mem_of_find?_eq_some hfind)
      refine ⟨fun q hq => info_congr (update_of_ne hq _ _) fun r' _ => ?_, fun _ => by simp_all [Creds.info, Creds.share]⟩
      by_cases hr : r' = r <;> simp [Creds.share, hr, he]
    · split
      · obtain ⟨hnew, -, -, -, -, hentry, hcred⟩ := fresh_spec hs
        refine ⟨fun q hq => info_congr (by simp [Creds.create, hq, hcred]) fun r hr => ?_,
          fun _ => by simp [Creds.info, Creds.create, cip.same_copied]⟩
        have hne := ne_of_mem_of_not_mem (h.held q r ((update_of_ne hq _ _).trans hr)) hnew
        simp [Creds.create, hentry, hne]
      · simp [Creds.Sets]

end Ops

/-- A user without supplementary groups. -/
def CredInfo.user (uid : Int) : CredInfo := ⟨uid, uid, uid, uid, uid, uid, 0, fun _ => 0⟩

/-- A process starts as the system's user, becomes another and ends. -/
theorem links_counted_login :
    Run.Along credStep Spared
      [⟨false, some (.user 0), true⟩, ⟨false, some (.user 7), true⟩, ⟨false, none, true⟩] (Creds.boot true) ∧
    ∃ s, Run.exec credStep
      [⟨false, some (.user 0), true⟩, ⟨false, some (.user 7), true⟩, ⟨false, none, true⟩] (Creds.boot true) =
        some s ∧ s.Counted := by
  refine ⟨?hcalls, (links_counted true _ ?hcalls).imp fun _ hs => ⟨hs.1, hs.2.1⟩⟩
  decide +kernel

/-- In every state that spared calls lead to, `cred_set` sets the credential of its pointer and no other. -/
theorem cred_set_apart {P : Type} [DecidableEq P] (p₀ : P) (calls : List (CredCall P))
    (hcalls : Run.Along credStep Spared calls (Creds.boot p₀)) :
    ∃ s, Run.exec credStep calls (Creds.boot p₀) = some s ∧ ∀ p cip memory, ∃ r,
      s.credSet p cip memory = some r ∧ s.Sets p (cip.map CredInfo.clamp) r := by
  obtain ⟨s, hs, h, hsouls⟩ := Run.total (I := fun s => Creds.Counted s ∧ Creds.Souls s)
    (fun h hcall => credStep_kept h hcall) (boot_counted p₀) hcalls
  refine ⟨s, hs, fun p cip memory => ?_⟩
  unfold Creds.credSet
  cases hp : s.cred p with
  | none => exact ⟨_, rfl, relink_sets (by rwa [Creds.drop, ← hp, update_eq_self]) hsouls _ _⟩
  | some r =>
    obtain ⟨crp, he, hpos, -⟩ := h.links r (h.held p r hp)
    simp only [he, hpos.ne', if_false]
    split
    · refine ⟨_, rfl, fun _ _ => rfl, fun _ => ?_⟩
      cases cip <;> simp_all [Creds.info]
    · have hl := relink_sets (unlink_counted h hp he) (unlink_souls h hsouls hp) (cip.map CredInfo.clamp) memory
      exact ⟨_, rfl, fun q hq => (hl.1 q hq).trans (unlink_info h hp he hq), hl.2⟩

theorem cred_set_apart_login : ∃ s, Run.exec credStep [⟨false, some (.user 0), true⟩] (Creds.boot true) = some s ∧
    ∃ r, s.credSet false (some (.user 7)) true = some r ∧ s.Sets false (some (.user 7)) r :=
  (cred_set_apart true [⟨false, some (.user 0), true⟩] (by decide +kernel)).imp fun s h => ⟨h.1, h.2 false _ true⟩

/-- Two pointers share an entry; one is to get another credential, and `object_alloc` fails. The
refused call has taken one link from the entry both still refer to. When the other pointer then
lets go, the entry is freed under the first. -/
theorem refused_unlinks :
    ∃ s s' s'', Run.exec credStep [⟨false, some (.user 0), true⟩] (Creds.boot true) = some s ∧
      s.credSet false (some (.user 7)) false = some (s', .eagain) ∧
      (s.entry 0).map Credential.links = some 2 ∧ (s'.entry 0).map Credential.links = some 1 ∧
      s'.cred true = some 0 ∧ s'.cred false = some 0 ∧
      credStep s' ⟨true, none, true⟩ = some s'' ∧ s''.cred false = some 0 ∧ s''.entry 0 = none :=
  ⟨_, _, _, rfl, rfl, rfl, rfl, rfl, rfl, rfl, rfl, rfl⟩

end QRV.Nano
