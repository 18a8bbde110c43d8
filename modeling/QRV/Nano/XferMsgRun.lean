import QRV.Nano.XferMsg

/- A transfer that is preempted any number of times ends like one that is not.

   Every way through xfermsg moves along the same two streams of bytes, from the place
   `msglen` on (`Ends`): the loops with map_xfer (`mapLoop_ends`) as well as the direct
   copy (`direct_ends`). A call that is preempted leaves a memory from which the moves
   behind `msglen` lead to the same end (`Inv`), because what it has copied beyond
   `msglen` is copied again. -/
namespace QRV.Nano.Xfer

open Copy List Function

/-! ## Offsets -/

variable {n : Nat}

theorem sizeT_nat (h : n < 2 ^ 64) : sizeT n = n := by
  unfold sizeT
  omega

theorem int32_nat (h : n < 2 ^ 31) : int32 n = n := by
  unfold int32
  rw [Int.bmod_def]
  split_ifs with h' <;> omega

theorem sizeT_int32 (h : n < 2 ^ 32) : sizeT (int32 n) = n ∨ sizeT (int32 n) = 2 ^ 64 - 2 ^ 32 + n := by
  unfold int32 sizeT
  rw [Int.bmod_def]
  split_ifs with h'
  · left
    omega
  · right
    omega

/-- Subtracting a length gives the right offset again, even if the offset did not fit in an
`int`. -/
theorem int32_sub {n len : Nat} (h : n < 2 ^ 32) (hlen : len ≤ n) :
    int32 ((sizeT (int32 n) : Int) - len) = int32 ((n - len : Nat) : Int) := by
  have hmod : ((sizeT (int32 n) : Int) - len) % ((2 ^ 32 : Nat) : Int) = ((n - len : Nat) : Int) % ((2 ^ 32 : Nat) : Int) := by
    have := sizeT_int32 h
    omega
  unfold int32 at hmod ⊢
  rw [← Int.emod_bmod, hmod, Int.emod_bmod]

variable {vs : List Iov}

theorem offsetSkip_all (h : n < 2 ^ 32) (hlen : (stream vs).length ≤ n) :
    (offsetSkip (int32 n) vs).2 = [] := by
  induction vs generalizing n with
  | nil => rfl
  | cons v vs ih =>
    rw [stream_cons, length_append, length_range'] at hlen
    have := sizeT_int32 h
    rw [offsetSkip, if_pos (by omega), int32_sub h (by omega)]
    exact ih (by omega) (by omega)

/-- The offset `o` in `vs'` is the offset `n` in `vs`. -/
structure Skipped (vs : List Iov) (n : Nat) (vs' : List Iov) (o : Nat) : Prop where
  same : remain vs' o = remain vs n
  le : o ≤ n
  parts : vs' <:+ vs
  head : ∀ v ∈ vs'.head?, o ≤ v.len

theorem offsetSkip_skipped (h : n < 2 ^ 31) (vs : List Iov) :
    ∃ (vs' : List Iov) (o : Nat), offsetSkip (n : Int) vs = ((o : Int), vs') ∧ Skipped vs n vs' o := by
  induction vs generalizing n with
  | nil => exact ⟨[], n, rfl, rfl, le_rfl, suffix_refl _, nofun⟩
  | cons v vs ih =>
    rw [offsetSkip, sizeT_nat (by omega)]
    by_cases hv : v.len ≤ n
    · rw [if_pos hv, ← Int.ofNat_sub hv, int32_nat (by omega)]
      obtain ⟨vs', o, he, hs⟩ := ih (n := n - v.len) (by omega)
      refine ⟨vs', o, he, ?_, ?_, ?_, hs.head⟩
      · have hpart : (range' v.base v.len).drop n = [] := drop_of_length_le (by simpa using hv)
        rw [hs.same]
        unfold remain
        rw [stream_cons, drop_append, hpart, nil_append, length_range']
      · have := hs.le
        omega
      · exact hs.parts.trans (suffix_cons v vs)
    · rw [if_neg hv]
      refine ⟨v :: vs, n, rfl, rfl, le_rfl, suffix_refl _, fun w hw => ?_⟩
      cases hw
      omega

theorem skipTo_skipped (h : n < 2 ^ 31) (vs : List Iov) :
    ∃ (vs' : List Iov) (o : Nat), skipTo (n : Int) vs = ((o : Int), vs') ∧ Skipped vs n vs' o := by
  unfold skipTo
  by_cases h0 : n = 0
  · subst h0
    exact ⟨vs, 0, rfl, rfl, le_rfl, suffix_refl _, fun _ _ => Nat.zero_le _⟩
  · rw [if_pos (by omega)]
    exact offsetSkip_skipped h vs

@[simp] theorem remain_nil (o : Nat) : remain [] o = [] := by
  unfold remain
  rw [stream_nil, drop_nil]

theorem Narrow.suffix {vs vs' : List Iov} (h : Narrow vs) (hs : vs' <:+ vs) : Narrow vs' := fun v hv =>
  h v (hs.subset hv)

theorem remain_sub {o x : Nat} (h : x ∈ remain vs o) : x ∈ stream vs := mem_of_mem_drop h

theorem remain_add (vs : List Iov) (n k : Nat) : remain vs (n + k) = (remain vs n).drop k := by
  unfold remain
  rw [drop_drop]

theorem stream_narrow (h : (stream vs).length < 2 ^ 31) : Narrow vs := by
  intro v hv
  have hsub := (sublist_flatten_of_mem
    (mem_map_of_mem (f := fun v : Iov => range' v.base v.len) hv)).length_le
  rw [length_range', ← flatMap_def] at hsub
  unfold stream at h
  omega

/-! ## The moves of a transfer -/

section
variable {T A P : Type} {view : Option A → Nat → P} {a : Args T A} {c : Option A}

/-- The moves between a side that is mapped and the other one. -/
def Side.zip : Side → List P → List P → List (P × P)
  | .dst, M, O => M.zip O
  | .src, M, O => O.zip M

theorem zip_split (n : Nat) (L R : List P) : L.zip R = (L.take n).zip R ++ (L.drop n).zip (R.drop n) := by
  have hwhole := take_append_drop n (L.zip R)
  have hfront : ((L.take n).zip R).take n = (L.take n).zip R := take_of_length_le (by rw [length_zip, length_take]; omega)
  rw [zip, take_zipWith, drop_zipWith] at hwhole
  rw [zip, take_zipWith, take_take, Nat.min_self] at hfront
  exact (hfront ▸ hwhole).symm

theorem Side.zip_split (side : Side) (n : Nat) (M O : List P) :
    side.zip M O = side.zip (M.take n) O ++ side.zip (M.drop n) (O.drop n) := by
  cases side with
  | dst => exact Xfer.zip_split n M O
  | src =>
    calc O.zip M = (M.zip O).map Prod.swap := (zip_swap M O).symm
      _ = ((M.take n).zip O ++ (M.drop n).zip (O.drop n)).map Prod.swap := by rw [← Xfer.zip_split]
      _ = O.zip (M.take n) ++ (O.drop n).zip (M.drop n) := by
        rw [map_append, zip_swap, zip_swap]

theorem Side.zip_nil_left (side : Side) (O : List P) : side.zip [] O = [] := by
  cases side with
  | dst => rfl
  | src => exact zip_nil_right

theorem Side.zip_nil_right (side : Side) (M : List P) : side.zip M [] = [] := by
  cases side with
  | dst => exact List.zip_nil_right
  | src => rfl

/-- The moves of the whole transfer. -/
def Args.moves (a : Args T A) (view : Option A → Nat → P) : List (P × P) :=
  ((remain a.dst.list a.doff.toNat).map (view a.dprp)).zip ((remain a.src.list a.soff.toNat).map (view a.sprp))

/-- The number of bytes of the whole transfer. -/
def Args.bytes (a : Args T A) : Nat :=
  min (remain a.dst.list a.doff.toNat).length (remain a.src.list a.soff.toNat).length

/-- The offsets stay in an `int` during the transfer, and every length in an `unsigned`. -/
structure Fits (a : Args T A) : Prop where
  doff : 0 ≤ a.doff
  soff : 0 ≤ a.soff
  dlast : a.doff + a.bytes < 2 ^ 31
  slast : a.soff + a.bytes < 2 ^ 31
  dst : Narrow a.dst.list
  src : Narrow a.src.list

/-- The bytes of a thread without an address space are the same in all of them. -/
structure Shared (view : Option A → Nat → P) (a : Args T A) : Prop where
  dst : a.dprp = none → ∀ c, ∀ i ∈ stream a.dst.list, view c i = view none i
  src : a.sprp = none → ∀ c, ∀ i ∈ stream a.src.list, view c i = view none i

/-- If both threads have an address space, the current one is one of the two. -/
def Reach (e : Env view a) : Prop := a.dprp ≠ none → a.sprp ≠ none → e.cur = a.dprp ∨ e.cur = a.sprp

theorem Args.moves_length (a : Args T A) (view : Option A → Nat → P) : (a.moves view).length = a.bytes := by
  unfold Args.moves Args.bytes
  rw [length_zip, length_map, length_map]

theorem Args.moves_drop (a : Args T A) (view : Option A → Nat → P) (k : Nat) : (a.moves view).drop k =
    ((remain a.dst.list (a.doff.toNat + k)).map (view a.dprp)).zip
      ((remain a.src.list (a.soff.toNat + k)).map (view a.sprp)) := by
  rw [remain_add, remain_add, map_drop, map_drop]
  exact drop_zipWith

/-- A side is seen from its own space, and from every space if it has none. -/
theorem view_side {prp : Option A} (h : prp = none → ∀ c, ∀ i ∈ stream vs, view c i = view none i)
    (hc : prp = c ∨ prp = none) (o : Nat) : (remain vs o).map (view c) = (remain vs o).map (view prp) := by
  refine map_congr_left fun i hi => ?_
  cases hc with
  | inl hc => rw [hc]
  | inr hc => rw [hc, h hc c i (remain_sub hi)]

theorem atEnd_fst (e : Env view a) (res : Msgs T P × Result) : (atEnd e res).1 = res.1 := by
  obtain ⟨st, r⟩ := res
  cases r with
  | done =>
    unfold atEnd
    split_ifs <;> rfl
  | _ => rfl

theorem atEnd_snd (e : Env view a) (res : Msgs T P × Result) :
    (atEnd e res).2 = res.2 ∨ e.pre .finished = true ∧ res.2 = .done ∧ (atEnd e res).2 = .preempted := by
  obtain ⟨st, r⟩ := res
  cases r with
  | done =>
    unfold atEnd
    split_ifs with h
    · exact .inr ⟨h, rfl, rfl⟩
    · exact .inl rfl
  | _ => exact .inl rfl

/-! ## One call -/

variable [DecidableEq P]

/-- Nothing disturbs the call. -/
structure Quiet (e : Env view a) : Prop where
  pre : ∀ p, e.pre p = false
  stop : ∀ c p, e.stop c p = none
  mapDst : ∀ n l off, e.mapDst.map n l off ≠ none
  mapSrc : ∀ n l off, e.mapSrc.map n l off ≠ none

/-- The call has moved along `l`; if it does not fail, the marks of the restart are as they were,
and it is done if nothing disturbs it. -/
structure Ends (l : List (P × P)) (quiet : Prop) (st : Msgs T P) (res : Msgs T P × Result) : Prop where
  moved : Moved l st.x res.1.x (res.2 = .done)
  kept : (∀ f, res.2 ≠ .fault f) → res.1.restart = st.restart ∧ res.1.dthp = st.dthp
  runs : res.2 ≠ .crash
  quiet : quiet → res.2 = .done

variable {l l1 l2 : List (P × P)} {quiet : Prop} {st st' : Msgs T P} {res : Msgs T P × Result}

theorem Ends.done (hl : l = []) (st : Msgs T P) : Ends l quiet st (st, .done) where
  moved := Moved.refl (fun _ => hl) st.x
  kept _ := ⟨rfl, rfl⟩
  runs := by simp
  quiet _ := rfl

theorem Ends.disturbed (hq : ¬ quiet) {r : Result} (hd : r ≠ .done) (hc : r ≠ .crash) (st : Msgs T P) :
    Ends l quiet st (st, r) where
  moved := Moved.refl (fun h => absurd h hd) st.x
  kept _ := ⟨rfl, rfl⟩
  runs := hc
  quiet h := absurd h hq

/-- The call ends with a copy: it is stopped, or there are no more bytes behind it. -/
theorem Ends.copied {x : Xfer P} {r : Option Stop} (h : Moved l1 st.x x (r = none)) (hq : quiet → r = none)
    (hl : r = none → l2 = []) {out : Result} (hres : out = .done ↔ r = none) (hc : out ≠ .crash) :
    Ends (l1 ++ l2) quiet st ({ st with x := x }, out) where
  moved := h.ends fun hdone => ⟨hres.mp hdone, hl (hres.mp hdone)⟩
  kept _ := ⟨rfl, rfl⟩
  runs := hc
  quiet h := hres.mpr (hq h)

theorem Ends.append {x : Xfer P} (h : Moved l1 st.x x True) (h' : Ends l2 quiet { st with x := x } res) :
    Ends (l1 ++ l2) quiet st res where
  moved := h.append trivial h'.moved
  kept := h'.kept
  runs := h'.runs
  quiet := h'.quiet

theorem Ends.weaken {quiet' : Prop} (h : Ends l quiet st res) (hq : quiet' → quiet) : Ends l quiet' st res :=
  ⟨h.moved, h.kept, h.runs, fun h' => h.quiet (hq h')⟩

theorem windowIov_moved (side : Side) (e : Env view a) {window other : List Iov} {o : Nat}
    (hw : Narrow window) (hne : window ≠ []) (ho : Narrow other) (hone : other ≠ [])
    (hhead : ∀ v ∈ other.head?, o ≤ v.len) (ho31 : o < 2 ^ 31) (x : Xfer P) :
    ∃ x' r, windowIov side e window other o x = some (x', r) ∧
      Moved (side.zip ((stream window).map (view e.cur)) ((remain other o).map (view e.cur))) x x' (r = none) ∧
      ((∀ c p, e.stop c p = none) → r = none) := by
  obtain ⟨v, ws, rfl⟩ := exists_cons_of_ne_nil hne
  obtain ⟨u, os, rfl⟩ := exists_cons_of_ne_nil hone
  have hu : o ≤ u.len := hhead u rfl
  have hpairs : ∀ D S : List Nat, pairs (view e.cur) D S = (D.map (view e.cur)).zip (S.map (view e.cur)) := fun D S => by
    unfold pairs
    rw [zip_map]
  have hstream : stream (v :: ws) = remain (v :: ws) 0 := rfl
  unfold windowIov
  rw [sizeT_nat (by omega), hstream]
  cases side with
  | dst =>
    have h := xferiov_moved (view e.cur) e.stop e.debug (Nat.zero_le v.len) hu hw ho x
    rw [hpairs] at h
    exact h
  | src =>
    have h := xferiov_moved (view e.cur) e.stop e.debug hu (Nat.zero_le v.len) ho hw x
    rw [hpairs] at h
    exact h

variable [DecidableEq T]

theorem faultRet_ends (hq : quiet → False) (e : Env view a) (f : Stop) (h : Moved l st.x st'.x False) :
    Ends l quiet st (faultRet e f st') where
  moved := h.mono nofun
  kept h := absurd rfl (h f)
  runs h := by cases h
  quiet h := (hq h).elim

theorem mapLoop_ends {prp : Option A} (side : Side) (e : Env view a) (m : Mapper view e.cur prp)
    (hm : Quiet e → ∀ n l off, m.map n l off ≠ none) (n : Nat) (parts : List Iov) (off : Nat) (other : List Iov)
    (o : Nat) (st : Msgs T P) (hn : Narrow other) (hne : other ≠ []) (hhead : ∀ v ∈ other.head?, o ≤ v.len)
    (hfit : o + min (remain parts off).length (remain other o).length < 2 ^ 31) :
    Ends (side.zip ((remain parts off).map (view prp)) ((remain other o).map (view e.cur))) (Quiet e) st
      (mapLoop side e m n parts off other o st) := by
  induction hlen : (remain parts off).length using Nat.strongRecOn generalizing n parts off other o st with
  | ind len ih =>
    subst hlen
    rw [mapLoop]
    split
    case isTrue hp => exact Ends.disturbed (fun hq => by rw [hq.pre] at hp; cases hp) (by simp) (by simp) st
    split
    · next hmap => exact faultRet_ends (fun hq => hm hq _ _ _ hmap) e _ (Moved.refl (fun h => h.elim) st.x)
    next w hmap =>
    split
    case isTrue h0 =>
      refine Ends.done ?_ st
      rw [m.ended hmap h0]
      exact side.zip_nil_left _
    case isFalse h0 =>
    have hsmall := m.small hmap
    have hbytes := m.bytes hmap
    have hwne : w.iovs ≠ [] := fun h => h0 (by rw [← hbytes, h]; rfl)
    obtain ⟨x, r, he, hmv, hfree⟩ := windowIov_moved side e (stream_narrow (by rw [hbytes]; exact hsmall)) hwne hn hne
      hhead (by omega) st.x
    rw [he]
    have hsplit : side.zip ((remain parts off).map (view prp)) ((remain other o).map (view e.cur)) =
        side.zip ((stream w.iovs).map (view e.cur)) ((remain other o).map (view e.cur)) ++
          side.zip ((remain w.rest w.off).map (view prp)) ((remain other (o + w.nbytes)).map (view e.cur)) := by
      rw [side.zip_split w.nbytes, ← map_take, ← m.shows hmap, ← map_drop, ← m.behind hmap, ← map_drop,
        ← remain_add]
    rw [hsplit]
    cases r with
    | some f =>
      cases f with
      | preempt =>
        exact Ends.copied hmv (fun hq => hfree hq.stop) (by simp) (by simp) (by simp)
      | srcFault => exact faultRet_ends (fun hq => by cases hfree hq.stop) e _ (hmv.ends fun h => h.elim)
      | dstFault => exact faultRet_ends (fun hq => by cases hfree hq.stop) e _ (hmv.ends fun h => h.elim)
    | none =>
      dsimp only
      -- the transfer is done where one of the two sides has no more bytes
      have hdone : ∀ {l2}, l2 = [] → Ends (_ ++ l2) (Quiet e) st ({ st with x := x }, .done) := fun hl =>
        Ends.copied hmv (fun _ => rfl) (fun _ => hl) (by simp) (by simp)
      split
      case isTrue hrest =>
        apply hdone
        rw [hrest, remain_nil]
        exact side.zip_nil_left _
      have hle := m.le hmap
      by_cases hend : (remain other o).length ≤ w.nbytes
      · have hall : (offsetSkip (int32 ((o + w.nbytes : Nat) : Int)) other).2 = [] := by
          refine offsetSkip_all (by omega) ?_
          unfold remain at hend
          rw [length_drop] at hend
          omega
        rw [← Int.natCast_add, if_pos hall]
        apply hdone
        rw [remain_add, drop_of_length_le hend]
        exact side.zip_nil_right _
      · have ho : o + w.nbytes < 2 ^ 31 := by omega
        obtain ⟨vs', o', hskip, hs⟩ := offsetSkip_skipped ho other
        rw [← Int.natCast_add, int32_nat ho, hskip]
        split
        case isTrue hvs =>
          apply hdone
          rw [← hs.same, show vs' = [] from hvs, remain_nil]
          exact side.zip_nil_right _
        case isFalse hvs =>
          rw [← hs.same]
          have hlt := m.lt hmap h0
          refine Ends.append (hmv.mono fun _ => rfl) (ih _ hlt _ _ _ _ _ _ (hn.suffix hs.parts) hvs hs.head ?_ rfl)
          have hole := hs.le
          rw [hs.same, remain_add, m.behind hmap, length_drop, length_drop]
          omega

variable [DecidableEq A]

theorem route_spec (cur dprp sprp : Option A) :
    match route cur dprp sprp with
    | .mapDst => sprp = cur
    | .mapSrc => dprp ≠ none ∧ sprp ≠ none ∧ sprp ≠ cur
    | .direct => (dprp = cur ∨ dprp = none) ∧ (sprp = cur ∨ sprp = none)
    | .switch p => (dprp = some p ∨ dprp = none) ∧ (sprp = some p ∨ sprp = none) := by
  unfold route
  cases dprp with
  | some d =>
    by_cases hs : sprp = cur
    · by_cases hd : some d = cur <;> simp [hs, hd]
    · cases sprp with
      | some s => simp [hs]
      | none =>
        by_cases hd : some d = cur <;> simp [hs, hd]
  | none =>
    by_cases hs : sprp = cur
    · simp [hs]
    · cases sprp with
      | some s => simp [hs]
      | none => simp [hs]

theorem Msg.stream_of_parts {m : Msg} (h : m.parts = 0) : stream m.list = [] := by
  cases m with
  | buffer base len =>
    have hlen : -(len : Int) = 0 := h
    rw [show len = 0 by omega]
    rfl
  | iov parts =>
    have hlen : (parts.length : Int) = 0 := h
    rw [length_eq_zero_iff.mp (Int.ofNat_eq_zero.mp hlen)]
    rfl

variable (hfit : Fits a) (hsh : Shared view a) {k : Nat} (hk : k ≤ a.bytes)
include hfit hsh hk

omit [DecidableEq T] [DecidableEq A] in
theorem direct_ends (e : Env view a) (hd : a.dprp = c ∨ a.dprp = none)
    (hs : a.sprp = c ∨ a.sprp = none) (st : Msgs T P) : Ends ((a.moves view).drop k) (Quiet e) st
      (direct e c ((a.doff.toNat + k : Nat) : Int) ((a.soff.toNat + k : Nat) : Int) st) := by
  have hdl := hfit.dlast
  have hsl := hfit.slast
  have hso := hfit.soff
  obtain ⟨dst, doff, hdskip, hdst⟩ := skipTo_skipped (n := a.doff.toNat + k) (by omega) a.dst.list
  obtain ⟨src, soff, hsskip, hsrc⟩ := skipTo_skipped (n := a.soff.toNat + k) (by omega) a.src.list
  rw [a.moves_drop, ← view_side hsh.dst hd, ← view_side hsh.src hs, ← hdst.same, ← hsrc.same]
  unfold direct
  rw [hdskip]
  dsimp only
  split
  case isTrue hdne =>
    rw [hdne, remain_nil]
    exact Ends.done rfl st
  rw [hsskip]
  split
  case isTrue hsne =>
    rw [show src = [] from hsne, remain_nil]
    exact Ends.done zip_nil_right st
  next hdne hsne =>
  obtain ⟨v, drest, rfl⟩ := exists_cons_of_ne_nil hdne
  obtain ⟨w, srest, rfl⟩ := exists_cons_of_ne_nil hsne
  have hdle := hdst.le
  have hsle := hsrc.le
  obtain ⟨x, r, he, hm, hfree⟩ := xferiov_moved (view c) e.stop e.debug (hdst.head v rfl) (hsrc.head w rfl)
    (hfit.dst.suffix hdst.parts) (hfit.src.suffix hsrc.parts) st.x
  rw [sizeT_nat (by omega), sizeT_nat (by omega), he]
  rw [← append_nil (zip _ _)]
  unfold pairs at hm
  rw [← zip_map] at hm
  have hq : Quiet e → r = none := fun hq => hfree hq.stop
  cases r with
  | none => exact Ends.copied hm hq (fun _ => rfl) (by simp) (by simp)
  | some f => cases f <;> exact Ends.copied hm hq (fun _ => rfl) (by simp) (by simp)

/-- The parts are not too many. -/
def Limited (a : Args T A) : Prop := a.dst.parts ≤ iovLimit ∧ a.src.parts ≤ iovLimit

theorem transfer_ends (e : Env view a) (hr : Reach e) (st : Msgs T P) :
    Ends ((a.moves view).drop k) (Quiet e ∧ Limited a) st
      (transfer e ((a.doff.toNat + k : Nat) : Int) ((a.soff.toNat + k : Nat) : Int) st) := by
  have hdl := hfit.dlast
  have hsl := hfit.slast
  have hso := hfit.soff
  have hleft : min (remain a.dst.list (a.doff.toNat + k)).length (remain a.src.list (a.soff.toNat + k)).length =
      a.bytes - k := by
    unfold Args.bytes
    rw [remain_add, remain_add, length_drop, length_drop]
    omega
  have hnil : ∀ {m : Msg} (o : Nat), m.parts = 0 → remain m.list o = [] := fun o h => by
    unfold remain
    rw [Msg.stream_of_parts h, drop_nil]
  unfold transfer
  split
  case isTrue hs0 =>
    rw [a.moves_drop, hnil _ hs0]
    exact Ends.done zip_nil_right st
  split
  case isTrue hlim =>
    exact Ends.disturbed (fun hq => absurd hq.2.2 (Int.not_le.mpr hlim)) (by simp) (by simp) st
  split
  case isTrue hd0 =>
    rw [a.moves_drop, hnil _ hd0]
    exact Ends.done zip_nil_left st
  split
  case isTrue hlim =>
    exact Ends.disturbed (fun hq => absurd hq.2.1 (Int.not_le.mpr hlim)) (by simp) (by simp) st
  have hroute := route_spec e.cur a.dprp a.sprp
  split
  · next hrt =>
    rw [hrt] at hroute
    obtain ⟨src, soff, hskip, hsrc⟩ := skipTo_skipped (n := a.soff.toNat + k) (by omega) a.src.list
    rw [hskip, a.moves_drop, ← view_side hsh.src (.inl hroute), ← hsrc.same]
    dsimp only
    split
    case isTrue hne =>
      rw [hne, remain_nil]
      exact Ends.done zip_nil_right st
    case isFalse hne =>
      rw [sizeT_nat (by omega)]
      have hle := hsrc.le
      exact (mapLoop_ends .dst e e.mapDst (fun hq => hq.mapDst) 0 _ _ src soff st (hfit.src.suffix hsrc.parts) hne
        hsrc.head (by rw [hsrc.same]; omega)).weaken And.left
  · next hrt =>
    rw [hrt] at hroute
    obtain ⟨dst, doff, hskip, hdst⟩ := skipTo_skipped (n := a.doff.toNat + k) (by omega) a.dst.list
    have hcur : e.cur = a.dprp := (hr hroute.1 hroute.2.1).resolve_right fun h => hroute.2.2 h.symm
    rw [hskip, a.moves_drop, ← view_side hsh.dst (.inl hcur.symm), ← hdst.same]
    dsimp only
    split
    case isTrue hne =>
      rw [hne, remain_nil]
      exact Ends.done zip_nil_left st
    case isFalse hne =>
      rw [sizeT_nat (by omega)]
      have hle := hdst.le
      exact (mapLoop_ends .src e e.mapSrc (fun hq => hq.mapSrc) 0 _ _ dst doff st (hfit.dst.suffix hdst.parts) hne
        hdst.head (by rw [hdst.same, Nat.min_comm]; omega)).weaken And.left
  · next hrt =>
    rw [hrt] at hroute
    exact (direct_ends hfit hsh hk e hroute.1 hroute.2 st).weaken And.left
  · next p hrt =>
    rw [hrt] at hroute
    split
    case isTrue hp => exact Ends.disturbed (fun hq => by rw [hq.1.pre] at hp; cases hp) (by simp) (by simp) st
    case isFalse => exact (direct_ends hfit hsh hk e hroute.1 hroute.2 st).weaken And.left

omit hfit hsh hk

/-! ## Restarts -/

/-- The place where the next call goes on. -/
def Msgs.place (a : Args T A) (st : Msgs T P) : Nat := if st.Resumes a then st.x.msglen.toNat else 0

/-- The moves from the place where the next call goes on lead to the end of the transfer. -/
structure Inv (a : Args T A) (view : Option A → Nat → P) (final : P → UInt8) (st : Msgs T P) : Prop where
  le : st.place a ≤ a.bytes
  leads : moves ((a.moves view).drop (st.place a)) st.x.mem = final

/-- A call that is preempted has counted what it has moved. -/
def Counted (a : Args T A) (st : Msgs T P) (res : Msgs T P × Result) : Prop :=
  res.2 = .preempted → res.1.place a + st.x.moved = st.place a + res.1.x.moved

/-- What a call leaves behind. -/
structure Left (e : Env view a) (final : P → UInt8) (st : Msgs T P) (res : Msgs T P × Result) : Prop where
  runs : res.2 ≠ .crash
  preempted : Apart (a.moves view) ∨ Counted a st res → res.2 = .preempted → Inv a view final res.1
  done : res.2 = .done → res.1.x.mem = final ∧ res.1.x.msglen.toNat = a.bytes
  quiet : Quiet e → Limited a → res.2 = .done

variable {final : P → UInt8}

omit [DecidableEq A] [DecidableEq P] in
theorem place_of_msglen {st : Msgs T P} (h : st.x.msglen = 0) : st.place a = 0 := by
  unfold Msgs.place
  rw [h]
  split_ifs <;> rfl

omit [DecidableEq A] [DecidableEq P] in
theorem place_of_resumes {st : Msgs T P} (h : st.Resumes a) : st.place a = st.x.msglen.toNat := if_pos h

section
include hfit hsh

theorem transfer_left (e : Env view a) (hr : Reach e) (hinv : Inv a view final st) (hres : st.Resumes a) :
    Left e final st (atEnd e (transfer e ((a.doff.toNat + st.place a : Nat) : Int)
      ((a.soff.toNat + st.place a : Nat) : Int) st)) := by
  have hends := transfer_ends hfit hsh hinv.le e hr st
  revert hends
  generalize transfer e _ _ st = res
  intro hends
  have hdl := hfit.dlast
  have hdo := hfit.doff
  have hle := hinv.le
  obtain ⟨j, k, hkj, hj, hm, hv, hl, hn⟩ := hends.moved
  rw [length_drop, a.moves_length] at hj hn
  have hlen : res.1.x.msglen.toNat = st.place a + k := by
    rw [hl, place_of_resumes hres, UInt32.toNat_add, UInt32.toNat_ofNat']
    rw [place_of_resumes hres] at hj hle
    omega
  have hplace : (∀ f, res.2 ≠ .fault f) → res.1.place a = st.place a + k := by
    intro hf
    obtain ⟨hr', hd'⟩ := hends.kept hf
    rw [← hlen]
    refine place_of_resumes ⟨?_, ?_, ?_⟩
    · rw [hr']
      exact hres.1
    · rw [hr']
      exact hres.2.1
    · rw [hd']
      exact hres.2.2
  have hnext : (∀ f, res.2 ≠ .fault f) → Apart (a.moves view) ∨ Counted a st (atEnd e res) →
      (atEnd e res).2 = .preempted → Inv a view final res.1 := by
    intro hf hover hp
    refine ⟨by rw [hplace hf]; omega, ?_⟩
    rw [hplace hf, ← drop_drop, hm, moves_resume hkj ?_, hinv.leads]
    intro hlt
    refine Apart.sublist ?_ ((drop_sublist _ _).trans (drop_sublist _ _))
    refine hover.resolve_right fun hcount => ?_
    have := hcount hp
    rw [atEnd_fst, hplace hf, hv] at this
    omega
  have hfst := atEnd_fst e res
  refine ⟨?_, ?_, ?_, ?_⟩
  · intro hc
    cases atEnd_snd e res with
    | inl h => exact hends.runs (h ▸ hc)
    | inr h => rw [h.2.2] at hc; cases hc
  · intro hover hp
    rw [hfst]
    refine hnext (fun f hf => ?_) hover hp
    cases atEnd_snd e res with
    | inl h => rw [h, hf] at hp; cases hp
    | inr h => rw [h.2.1] at hf; cases hf
  · intro hd
    have hdone : res.2 = .done := by
      cases atEnd_snd e res with
      | inl h => rw [← h, hd]
      | inr h => exact h.2.1
    rw [hfst]
    have hk := hn hdone
    refine ⟨?_, by omega⟩
    rw [hm, take_of_length_le (by rw [length_drop, a.moves_length]; omega), hinv.leads]
  · intro hq hlim
    have hdone := hends.quiet ⟨hq, hlim⟩
    cases atEnd_snd e res with
    | inl h => rw [h, hdone]
    | inr h => rw [hq.pre] at h; cases h.1

theorem xfermsg_left (e : Env view a) (hr : Reach e) (hinv : Inv a view final st) :
    Left e final st (xfermsg e st) := by
  have hpre : ∀ {p st'}, e.pre p = true → Inv a view final st' → Left e final st (st', .preempted) := fun hp h =>
    ⟨by simp, fun _ _ => h, by simp, fun hq => by rw [hq.pre] at hp; cases hp⟩
  unfold xfermsg
  split
  case isTrue hentry => exact hpre hentry hinv
  case isFalse =>
  have hdl := hfit.dlast
  have hdo := hfit.doff
  have hsl := hfit.slast
  have hso := hfit.soff
  have hle := hinv.le
  by_cases hres : st.Resumes a
  · rw [if_pos hres, ← place_of_resumes hres,
      show a.doff + (st.place a : Int) = ((a.doff.toNat + st.place a : Nat) : Int) by omega,
      show a.soff + (st.place a : Int) = ((a.soff.toNat + st.place a : Nat) : Int) by omega,
      int32_nat (by omega), int32_nat (by omega)]
    exact transfer_left hfit hsh e hr hinv hres
  rw [if_neg hres]
  -- the transfer starts: nothing is moved and `msglen` is cleared at each of these points
  have hplace : st.place a = 0 := if_neg hres
  have hfresh : ∀ st' : Msgs T P, st'.x = { st.x with msglen := 0 } → Inv a view final st' := by
    intro st' hx
    have h0 : st'.place a = 0 := place_of_msglen (by rw [hx])
    have hleads := hinv.leads
    rw [hplace] at hleads
    exact ⟨by omega, by rw [h0, hx]; exact hleads⟩
  split
  case isTrue hc => exact hpre hc (hfresh _ rfl)
  case isFalse =>
  split
  case isTrue hl => exact hpre hl (hfresh _ rfl)
  case isFalse =>
  split
  case isTrue hm => exact hpre hm (hfresh _ rfl)
  case isFalse =>
  have h0 : (((st.clear.link a).mark a a.dthp).mark a a.sthp).place a = 0 := place_of_msglen rfl
  have hmark : (((st.clear.link a).mark a a.dthp).mark a a.sthp).Resumes a := by
    refine ⟨?_, update_self .., rfl⟩
    show update (update st.restart a.dthp (some a.sthp)) a.sthp (some a.sthp) a.dthp = some a.sthp
    by_cases h : a.dthp = a.sthp
    · rw [h, update_self]
    · rw [update_of_ne h, update_self]
  have h := transfer_left hfit hsh e hr (hfresh _ rfl) hmark
  rw [h0, Nat.add_zero, Nat.add_zero, Int.toNat_of_nonneg hdo, Int.toNat_of_nonneg hso] at h
  refine ⟨h.runs, fun hover => h.preempted (hover.imp_right fun hcount hp => ?_), h.done, h.quiet⟩
  have hcount := hcount hp
  rw [hplace] at hcount
  rw [h0]
  exact hcount

/-- Every call of the run that is preempted has counted what it has moved. -/
def CountedAlong : List (Env view a) → Msgs T P → Prop
  | [], _ => True
  | e :: es, st => Counted a st (xfermsg e st) ∧ CountedAlong es (xfermsg e st).1

theorem xfermsgRun_left (es : List (Env view a)) (hr : ∀ e ∈ es, Reach e) (hinv : Inv a view final st)
    (hover : Apart (a.moves view) ∨ CountedAlong es st) :
    (xfermsgRun es st).2 ≠ .crash ∧ ((xfermsgRun es st).2 = .preempted → Inv a view final (xfermsgRun es st).1) ∧
      ((xfermsgRun es st).2 = .done →
        (xfermsgRun es st).1.x.mem = final ∧ (xfermsgRun es st).1.x.msglen.toNat = a.bytes) := by
  induction es generalizing st with
  | nil => exact ⟨by simp [xfermsgRun], fun _ => hinv, by simp [xfermsgRun]⟩
  | cons e es ih =>
    have h := xfermsg_left hfit hsh e (hr e mem_cons_self) hinv
    have hnow := hover.imp_right And.left
    have hlater := hover.imp_right And.right
    rw [xfermsgRun]
    revert h hnow hlater
    generalize xfermsg e st = res
    intro h hnow hlater
    obtain ⟨st', r⟩ := res
    cases r with
    | preempted => exact ih (fun e he => hr e (.tail _ he)) (h.preempted hnow rfl) hlater
    | done => exact ⟨h.runs, h.preempted hnow, h.done⟩
    | fault f => exact ⟨h.runs, h.preempted hnow, h.done⟩
    | crash => exact ⟨h.runs, h.preempted hnow, h.done⟩

end

theorem xfermsgRun_snoc (es : List (Env view a)) (e : Env view a) (st : Msgs T P)
    (h : (xfermsgRun es st).2 = .preempted) : xfermsgRun (es ++ [e]) st = xfermsg e (xfermsgRun es st).1 := by
  induction es generalizing st with
  | nil =>
    rw [nil_append, xfermsgRun, xfermsgRun]
    generalize xfermsg e st = res
    obtain ⟨st', r⟩ := res
    cases r with
    | preempted => rfl
    | _ => rfl
  | cons e' es ih =>
    rw [xfermsgRun] at h
    rw [cons_append, xfermsgRun, xfermsgRun]
    revert h
    generalize xfermsg e' st = res
    intro h
    obtain ⟨st', r⟩ := res
    cases r with
    | preempted => exact ih st' h
    | done => cases h
    | fault f => cases h
    | crash => cases h

/-- **A transfer that is preempted ends like one that is not.** xfermsg is called any number of
times, in any address space from which it can reach both threads, with any windows onto the
other space, and preempted at any points. When a call is done, the memory and `msglen` are
those after one xferiov along the same bytes, however its lists address them; and the first
call that nothing disturbs is done. -/
theorem xfermsg_resumes (view : Option A → Nat → P) (a : Args T A) (hfit : Fits a) (hsh : Shared view a)
    (es : List (Env view a)) (hr : ∀ e ∈ es, Reach e) (st : Msgs T P) (hstart : ¬ st.Resumes a)
    (hover : Apart (a.moves view) ∨ CountedAlong es st) :
    (xfermsgRun es st).2 ≠ .crash ∧
    ((xfermsgRun es st).2 = .preempted → ∀ e : Env view a, Reach e → Quiet e → Limited a →
      (xfermsgRun (es ++ [e]) st).2 = .done) ∧
    ((xfermsgRun es st).2 = .done → ∀ (debug : Bool) (tr : Nat → P) (dst src : List Iov) (doff soff : Nat),
      (∃ v, dst.head? = some v ∧ doff ≤ v.len) → (∃ w, src.head? = some w ∧ soff ≤ w.len) →
      Narrow dst → Narrow src →
      (remain dst doff).map tr = (remain a.dst.list a.doff.toNat).map (view a.dprp) →
      (remain src soff).map tr = (remain a.src.list a.soff.toNat).map (view a.sprp) →
      ∃ y, xferiov tr (fun _ _ => none) debug dst src doff soff ⟨st.x.mem, 0, 0⟩ = some (y, none) ∧
        (xfermsgRun es st).1.x.mem = y.mem ∧ (xfermsgRun es st).1.x.msglen = y.msglen) := by
  have h0 : st.place a = 0 := if_neg hstart
  have hinv : Inv a view (moves (a.moves view) st.x.mem) st := ⟨by omega, by rw [h0, drop_zero]⟩
  obtain ⟨hruns, hpre, hdone⟩ := xfermsgRun_left hfit hsh es hr hinv hover
  refine ⟨hruns, ?_, ?_⟩
  · intro hp e he hq hlim
    rw [xfermsgRun_snoc es e st hp]
    exact (xfermsg_left hfit hsh e he (hpre hp)).quiet hq hlim
  · intro hd debug tr dst src doff soff ⟨v, hv, hvo⟩ ⟨w, hw, hwo⟩ hdn hsn hdm hsm
    obtain ⟨hmem, hlen⟩ := hdone hd
    obtain ⟨drest, rfl⟩ := head?_eq_some_iff.mp hv
    obtain ⟨srest, rfl⟩ := head?_eq_some_iff.mp hw
    obtain ⟨y, r, he, hm, hfree⟩ := xferiov_moved tr (fun _ _ => none) debug hvo hwo hdn hsn ⟨st.x.mem, 0, 0⟩
    obtain rfl := hfree fun _ _ => rfl
    have hpairs : pairs tr (remain (v :: drest) doff) (remain (w :: srest) soff) = a.moves view := by
      unfold pairs Args.moves
      rw [← zip_map, hdm, hsm]
    rw [hpairs] at hm
    have hlast := hfit.dlast
    have hdo := hfit.doff
    refine ⟨y, he, by rw [hmem, hm.mem rfl], UInt32.toNat_inj.mp ?_⟩
    have hy := hm.msglen rfl (by rw [a.moves_length, UInt32.toNat_zero]; omega)
    rw [hlen, hy, a.moves_length, UInt32.toNat_zero, Nat.zero_add]

end

/-- Two address spaces; each sees the bytes of the other one from 2^64 on. -/
def twoSpaces (c : Option Bool) (i : Nat) : Bool × Nat := (c.getD false != decide (i / 2 ^ 64 % 2 = 1), i % 2 ^ 64)

/-- Where a space sees a byte. -/
def seenAt (c : Option Bool) (p : Bool × Nat) : Nat := p.2 + if p.1 = c.getD false then 0 else 2 ^ 64

theorem twoSpaces_seenAt (c : Option Bool) {p : Bool × Nat} (h : p.2 < 2 ^ 64) : twoSpaces c (seenAt c p) = p := by
  obtain ⟨b, i⟩ := p
  have h' : i < 2 ^ 64 := h
  unfold twoSpaces seenAt
  by_cases hb : b = c.getD false
  · rw [if_pos hb, Nat.add_zero, Nat.div_eq_of_lt h', Nat.mod_eq_of_lt h', hb]
    simp
  · rw [if_neg hb, Nat.add_div_right _ (by decide), Nat.add_mod_right, Nat.div_eq_of_lt h', Nat.mod_eq_of_lt h']
    cases b <;> cases hc : c.getD false <;> simp_all

/-- Windows of one byte. -/
def oneByteWindows (cur prp : Option Bool) : Mapper twoSpaces cur prp where
  map _ l off :=
    match remain l off with
    | [] => some ⟨[], 0, [], 0⟩
    | i :: _ => some ⟨[⟨seenAt cur (twoSpaces prp i), 1⟩], 1, l, off + 1⟩
  shows {n l off w} h := by
    cases hr : remain l off with
    | nil =>
      rw [hr] at h
      cases h
      rfl
    | cons i t =>
      rw [hr] at h
      cases h
      have hi : (twoSpaces prp i).2 < 2 ^ 64 := Nat.mod_lt _ (by decide)
      simp [stream, twoSpaces_seenAt cur hi]
  behind {n l off w} h := by
    cases hr : remain l off with
    | nil =>
      rw [hr] at h
      cases h
      rfl
    | cons i t =>
      rw [hr] at h
      cases h
      rw [remain_add, hr]
  bytes {n l off w} h := by
    split at h
    · cases h
      rfl
    · cases h
      rfl
  small {n l off w} h := by
    split at h
    · cases h
      exact Nat.two_pow_pos 31
    · cases h
      exact Nat.one_lt_two_pow (by decide)
  ended {n l off w} h h0 := by
    cases hr : remain l off with
    | nil => rfl
    | cons i t =>
      rw [hr] at h
      cases h
      cases h0

/-- A buffer of one thread receives from two parts of the other one. -/
def crossArgs : Args Bool Bool where
  dthp := false
  sthp := true
  dst := .buffer 100 2
  src := .iov [⟨200, 1⟩, ⟨300, 5⟩]
  dprp := some false
  sprp := some true
  doff := 0
  soff := 0

/-- A call in the space `cur` that is preempted at the points `pre`. -/
def crossEnv (cur : Option Bool) (pre : Point → Bool) : Env twoSpaces crossArgs where
  debug := true
  act := true
  cur := cur
  pre := pre
  stop _ _ := none
  mapDst := oneByteWindows cur _
  mapSrc := oneByteWindows cur _

def crossStart : Msgs Bool (Bool × Nat) := ⟨fun _ => none, none, ⟨fun p => if p = (true, 300) then 7 else 0, 9, 0⟩⟩

/-- The first call is preempted behind one byte, the second one goes on in the other space. -/
def crossCalls : List (Env twoSpaces crossArgs) :=
  [crossEnv (some true) fun p => p = .turn 1, crossEnv (some false) fun _ => false]

theorem xfermsg_resumes_cross : (xfermsgRun crossCalls crossStart).2 = .done ∧
    ∃ y, xferiov (twoSpaces (some true)) (fun _ _ => none) true [⟨100 + 2 ^ 64, 2⟩] [⟨200, 1⟩, ⟨300, 5⟩] 0 0
        ⟨crossStart.x.mem, 0, 0⟩ = some (y, none) ∧
      (xfermsgRun crossCalls crossStart).1.x.mem = y.mem ∧ (xfermsgRun crossCalls crossStart).1.x.msglen = y.msglen := by
  have hfit : Fits crossArgs := ⟨by decide, by decide, by decide, by decide, by decide, by decide⟩
  have hsh : Shared twoSpaces crossArgs := ⟨nofun, nofun⟩
  have hap : Apart (crossArgs.moves twoSpaces) := by
    unfold Apart
    decide
  have hreach : ∀ e ∈ crossCalls, Reach e := by
    intro e he
    cases he with
    | head => exact fun _ _ => .inr rfl
    | tail _ he =>
      cases he with
      | head => exact fun _ _ => .inl rfl
      | tail _ he => cases he
  have hdone : (xfermsgRun crossCalls crossStart).2 = .done := by decide +kernel
  obtain ⟨-, -, h⟩ := xfermsg_resumes twoSpaces crossArgs hfit hsh crossCalls hreach crossStart (by decide) (.inl hap)
  exact ⟨hdone, h hdone true (twoSpaces (some true)) [⟨100 + 2 ^ 64, 2⟩] [⟨200, 1⟩, ⟨300, 5⟩] 0 0 ⟨_, rfl, by decide⟩
    ⟨_, rfl, by decide⟩ (by decide) (by decide) (by decide) (by decide)⟩

/-- A transfer from the last offset an `int` can hold, into two parts of one byte. -/
def farArgs : Args Bool Unit where
  dthp := false
  sthp := true
  dst := .iov [⟨0, 1⟩, ⟨1, 1⟩]
  src := .iov [⟨2 ^ 40, 2 ^ 31 + 1⟩]
  dprp := some ()
  sprp := some ()
  doff := 0
  soff := 2 ^ 31 - 1

/-- A call that is preempted before the byte number `n`. -/
def farEnv (n : Option Nat) : Env (fun _ i => i) farArgs where
  debug := true
  act := true
  cur := some ()
  pre _ := false
  stop c p := if some c = n ∧ p.isSome then some .preempt else none
  mapDst := ⟨fun _ _ _ => none, by simp, by simp, by simp, by simp, by simp⟩
  mapSrc := ⟨fun _ _ _ => none, by simp, by simp, by simp, by simp, by simp⟩

def farStart : Msgs Bool Nat := ⟨fun _ => none, none, ⟨oneByte (2 ^ 40 + 2 ^ 31), 0, 0⟩⟩

/-- Preempted behind the first byte, the call is made again with a negative offset and is done at
once; the second byte is not copied. -/
theorem xfermsg_resumes_far :
    (xfermsgRun [farEnv (some 1), farEnv none] farStart).2 = .done ∧
    (xfermsgRun [farEnv (some 1), farEnv none] farStart).1.x.msglen = 1 ∧
    (xfermsgRun [farEnv (some 1), farEnv none] farStart).1.x.mem 1 = 0 ∧
    (xferiov id (fun _ _ => none) true [⟨0, 1⟩, ⟨1, 1⟩] [⟨2 ^ 40, 2 ^ 31 + 1⟩] 0 (2 ^ 31 - 1) farStart.x).map
      (fun y => (y.2, y.1.msglen, y.1.mem 1)) = some (none, 2, 7) := by
  decide +kernel

end QRV.Nano.Xfer
