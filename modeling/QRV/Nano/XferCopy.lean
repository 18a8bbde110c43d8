import QRV.Lib.Copy
import QRV.Nano.Xfer

/- What xferiov copies.

   `stream vs` is the sequence of addresses of an IOV list, part after part, and
   `pairs tr D S` the moves along two such sequences, as far as both go.
   `Moved l x x' full` says that a transfer has made moves of `l` in order, all of them
   if it is `full`, with the bytes counted in `msglen` never ahead of the bytes moved.

   The loop of xferiov moves along the two streams (`xferLoop_moved`), for any parts,
   with each length taken modulo 2^32. -/
namespace QRV.Nano.Xfer

open List
open Copy

variable {P : Type} {tr : Nat → P} {stop : Nat → Option (P × P) → Option Stop}

/-- The addresses of an IOV list in order. -/
def stream (vs : List Iov) : List Nat := vs.flatMap fun v => range' v.base v.len

/-- The parts with the lengths the loop of xferiov sees. -/
def cut (vs : List Iov) : List Iov := vs.map fun v => { v with len := u32 v.len }

/-- The moves from the addresses `S` to the addresses `D`. -/
def pairs (tr : Nat → P) (D S : List Nat) : List (P × P) := (D.zip S).map (Prod.map tr tr)

@[simp] theorem stream_nil : stream [] = [] := rfl
@[simp] theorem stream_cons (v : Iov) (vs : List Iov) :
    stream (v :: vs) = range' v.base v.len ++ stream vs := rfl

@[simp] theorem cut_nil : cut [] = [] := rfl
@[simp] theorem cut_cons (v : Iov) (vs : List Iov) : cut (v :: vs) = { v with len := u32 v.len } :: cut vs := rfl

theorem pairs_append {D1 S1 : List Nat} (h : D1.length = S1.length) (D2 S2 : List Nat) :
    pairs tr (D1 ++ D2) (S1 ++ S2) = pairs tr D1 S1 ++ pairs tr D2 S2 := by
  unfold pairs
  rw [zip_append h, map_append]

variable (tr) in
theorem pairs_length (D S : List Nat) : (pairs tr D S).length = min D.length S.length := by
  unfold pairs
  rw [length_map, length_zip]

@[simp] theorem pairs_nil_left (S : List Nat) : pairs tr [] S = [] := rfl

@[simp] theorem pairs_nil_right (D : List Nat) : pairs tr D [] = [] := by
  unfold pairs
  rw [zip_nil_right]
  rfl

variable (tr) in
theorem pairs_range_length (n d s : Nat) : (pairs tr (range' d n) (range' s n)).length = n := by
  rw [pairs_length, length_range', length_range', Nat.min_self]

variable (tr) in
theorem pairs_range_add (n k d s : Nat) : pairs tr (range' d (n + k)) (range' s (n + k)) =
    pairs tr (range' d n) (range' s n) ++ pairs tr (range' (d + n) k) (range' (s + n) k) := by
  rw [← pairs_append (by simp), range'_append_1, range'_append_1]

theorem pairs_piece {n dlen slen : Nat} (hd : n ≤ dlen) (hs : n ≤ slen) (daddr saddr : Nat) (D S : List Nat) :
    pairs tr (range' daddr dlen ++ D) (range' saddr slen ++ S) =
      pairs tr (range' daddr n) (range' saddr n) ++
        pairs tr (range' (daddr + n) (dlen - n) ++ D) (range' (saddr + n) (slen - n) ++ S) := by
  rw [← pairs_append (by simp), ← append_assoc, ← append_assoc, range'_append_1,
    range'_append_1, Nat.add_sub_cancel' hd, Nat.add_sub_cancel' hs]

theorem pairs_fst (D S : List Nat) : (pairs tr D S).map Prod.fst = (D.take (min D.length S.length)).map tr := by
  unfold pairs
  rw [map_map, show Prod.fst ∘ Prod.map tr tr = tr ∘ Prod.fst from rfl, ← map_map,
    zip_eq_zip_take_min, map_fst_zip (by simp)]

theorem pairs_snd (D S : List Nat) : (pairs tr D S).map Prod.snd = (S.take (min D.length S.length)).map tr := by
  unfold pairs
  rw [map_map, show Prod.snd ∘ Prod.map tr tr = tr ∘ Prod.snd from rfl, ← map_map,
    zip_eq_zip_take_min, map_snd_zip (by simp)]

variable [DecidableEq P]

/-- The transfer has made moves of `l`, in order: `j` of them, with `k` bytes counted, and all of
them if it is `full`. -/
def Moved (l : List (P × P)) (x x' : Xfer P) (full : Prop) : Prop :=
  ∃ j k, k ≤ j ∧ j ≤ l.length ∧ x'.mem = moves (l.take j) x.mem ∧ x'.moved = x.moved + j ∧
    x'.msglen = x.msglen + UInt32.ofNat k ∧ (full → k = l.length)

variable {l l1 l2 : List (P × P)} {x x' x'' : Xfer P} {full full' : Prop} {r : Option Stop} {e : Stop}

theorem Moved.refl (hl : full → l = []) (x : Xfer P) : Moved l x x full :=
  ⟨0, 0, Nat.le_refl _, Nat.zero_le _, rfl, rfl, (UInt32.add_zero _).symm, fun h => by rw [hl h]; rfl⟩

theorem Moved.mono (h : Moved l x x' full) (hf : full' → full) : Moved l x x' full' := by
  obtain ⟨j, k, hkj, hj, hm, hv, hl, hn⟩ := h
  exact ⟨j, k, hkj, hj, hm, hv, hl, fun h => hn (hf h)⟩

theorem Moved.append (h : Moved l1 x x' full) (hf : full) (h' : Moved l2 x' x'' full') :
    Moved (l1 ++ l2) x x'' full' := by
  obtain ⟨j1, k1, hkj1, hj1, hm1, hv1, hl1, hn1⟩ := h
  obtain ⟨j2, k2, hkj2, hj2, hm2, hv2, hl2, hn2⟩ := h'
  have hk1 := hn1 hf
  have hj : j1 = l1.length := by omega
  refine ⟨j1 + j2, k1 + k2, by omega, by rw [length_append]; omega, ?_, by omega, ?_, ?_⟩
  · rw [hj, take_length_add_append, moves_append, hm2, hm1, hj, take_length]
  · rw [hl2, hl1, UInt32.add_assoc, UInt32.ofNat_add]
  · intro hr
    rw [length_append, hk1, hn2 hr]

/-- The transfer ends before `l2`: it was stopped, or `l2` has no moves. -/
theorem Moved.ends (h : Moved l1 x x' full) (hl : full' → full ∧ l2 = []) : Moved (l1 ++ l2) x x' full' := by
  obtain ⟨j, k, hkj, hj, hm, hv, hm', hn⟩ := h
  refine ⟨j, k, hkj, by rw [length_append]; omega, ?_, hv, hm', fun h => ?_⟩
  · rw [take_append_of_le_length hj]
    exact hm
  · rw [(hl h).2, append_nil]
    exact hn (hl h).1

/-! ## xfer_cpy -/

variable (tr stop) in
theorem xferMemcpy_spec (n d s : Nat) (x : Xfer P) :
    ∃ j ≤ n, (xferMemcpy tr stop n d s x).1 =
        { x with mem := moves ((pairs tr (range' d n) (range' s n)).take j) x.mem, moved := x.moved + j } ∧
      ((xferMemcpy tr stop n d s x).2 = none → j = n) := by
  induction n generalizing d s x with
  | zero => exact ⟨0, Nat.le_refl _, rfl, fun _ => rfl⟩
  | succ n ih =>
    have hp : pairs tr (range' d (n + 1)) (range' s (n + 1)) =
        (tr d, tr s) :: pairs tr (range' (d + 1) n) (range' (s + 1) n) := rfl
    rw [hp, xferMemcpy]
    cases stop x.moved (some (tr d, tr s)) with
    | some r => exact ⟨0, Nat.zero_le _, rfl, nofun⟩
    | none =>
      obtain ⟨j, hj, h1, h2⟩ := ih (d + 1) (s + 1)
        { x with mem := Function.update x.mem (tr d) (x.mem (tr s)), moved := x.moved + 1 }
      refine ⟨j + 1, by omega, ?_, fun h => by rw [h2 h]⟩
      rw [h1]
      simp only [take_succ_cons, moves]
      rw [Nat.add_assoc, Nat.add_comm 1 j]

theorem chunk_moved {n d s : Nat} (h : xferMemcpy tr stop n d s x = (x', none)) :
    Moved (pairs tr (range' d n) (range' s n)) x { x' with msglen := x'.msglen + UInt32.ofNat n } True := by
  obtain ⟨j, hj, h1, h2⟩ := xferMemcpy_spec tr stop n d s x
  rw [h] at h1 h2
  obtain rfl := h2 rfl
  have hlen := pairs_range_length tr j d s
  obtain rfl : x' = _ := h1
  exact ⟨j, j, Nat.le_refl _, Nat.le_of_eq hlen.symm, rfl, rfl, rfl, fun _ => hlen.symm⟩

theorem chunk_stopped {n d s : Nat} (h : xferMemcpy tr stop n d s x = (x', some e)) :
    Moved (pairs tr (range' d n) (range' s n)) x x' False := by
  obtain ⟨j, hj, h1, -⟩ := xferMemcpy_spec tr stop n d s x
  rw [h] at h1
  obtain rfl : x' = _ := h1
  exact ⟨j, 0, Nat.zero_le _, by rw [pairs_range_length]; exact hj, rfl, rfl, (UInt32.add_zero _).symm, False.elim⟩

variable (tr stop) in
theorem xferCpy_moved (n d s : Nat) (x : Xfer P) :
    Moved (pairs tr (range' d n) (range' s n)) x (xferCpy tr stop n d s x).1
      ((xferCpy tr stop n d s x).2 = none) := by
  induction n using Nat.strongRecOn generalizing d s x with
  | ind n ih =>
    have hsize : 0 < chunkSize := by decide
    have hsplit := pairs_range_add tr (min n chunkSize) (n - min n chunkSize) d s
    rw [Nat.add_sub_cancel' (Nat.min_le_left _ _)] at hsplit
    rw [hsplit, xferCpy]
    cases hc : xferMemcpy tr stop (min n chunkSize) d s x with
    | mk x1 r =>
      cases r with
      | some e => exact (chunk_stopped hc).ends nofun
      | none =>
        split_ifs with hlast
        · rw [hlast]
          exact (chunk_moved hc).ends fun _ => ⟨trivial, rfl⟩
        · exact (chunk_moved hc).append trivial (ih _ (by omega) _ _ _)

/-! ## xferiov -/

theorem Moved.piece {n d s : Nat} (hc : xferCpy tr stop n d s x = (x', none)) (h : Moved l2 x' x'' full) :
    Moved (pairs tr (range' d n) (range' s n) ++ l2) x x'' full := by
  have h1 := xferCpy_moved tr stop n d s x
  rw [hc] at h1
  exact h1.append rfl h

/-- The transfer ends with a piece: it is stopped, or one side has no more. -/
theorem Moved.last {n d s : Nat} (hc : xferCpy tr stop n d s x = (x', r)) (hl : r = none → l2 = []) :
    Moved (pairs tr (range' d n) (range' s n) ++ l2) x x' (r = none) := by
  have h1 := xferCpy_moved tr stop n d s x
  rw [hc] at h1
  exact h1.ends fun h => ⟨h, hl h⟩

variable (tr stop) in
/-- The loop of xferiov moves along both streams until one of them ends. -/
theorem xferLoop_moved (daddr dlen : Nat) (drest : List Iov) (saddr slen : Nat) (srest : List Iov) (x : Xfer P) :
    Moved (pairs tr (range' daddr dlen ++ stream (cut drest)) (range' saddr slen ++ stream (cut srest))) x
      (xferLoop tr stop daddr dlen drest saddr slen srest x).1
      ((xferLoop tr stop daddr dlen drest saddr slen srest x).2 = none) := by
  fun_induction xferLoop tr stop daddr dlen drest saddr slen srest x with
  | case1 daddr dlen drest saddr slen x hlt x1 r hc =>
    rw [pairs_piece (Nat.le_of_lt hlt) (Nat.le_refl slen), Nat.sub_self]
    exact Moved.last hc fun _ => pairs_nil_right _
  | case2 daddr dlen drest saddr slen x hlt x1 w srest hc ih =>
    rw [pairs_piece (Nat.le_of_lt hlt) (Nat.le_refl slen), Nat.sub_self]
    exact Moved.piece hc ih
  | case3 daddr dlen drest saddr slen x hlt x1 r hc w srest hr =>
    rw [pairs_piece (Nat.le_of_lt hlt) (Nat.le_refl slen)]
    exact Moved.last hc fun h => absurd h hr
  | case4 daddr dlen saddr slen srest x _ hlt x1 r hc =>
    rw [pairs_piece (Nat.le_refl dlen) (Nat.le_of_lt hlt), Nat.sub_self]
    exact Moved.last hc fun _ => pairs_nil_left _
  | case5 daddr dlen saddr slen srest x _ hlt x1 v drest hc ih =>
    rw [pairs_piece (Nat.le_refl dlen) (Nat.le_of_lt hlt), Nat.sub_self]
    exact Moved.piece hc ih
  | case6 daddr dlen saddr slen srest x _ hlt x1 r hc v drest hr =>
    rw [pairs_piece (Nat.le_refl dlen) (Nat.le_of_lt hlt)]
    exact Moved.last hc fun h => absurd h hr
  | case7 daddr dlen saddr slen x hge hle x1 v drest w srest hc ih =>
    obtain rfl : dlen = slen := by omega
    rw [pairs_piece (Nat.le_refl dlen) (Nat.le_refl dlen), Nat.sub_self]
    exact Moved.piece hc ih
  | case8 daddr dlen saddr slen x hge hle x1 r hc v drest w srest hr =>
    obtain rfl : dlen = slen := by omega
    rw [pairs_piece (Nat.le_refl dlen) (Nat.le_refl dlen)]
    exact Moved.last hc fun h => absurd h hr
  | case9 daddr dlen drest saddr slen srest x hge hle x1 r hc hend =>
    obtain rfl : dlen = slen := by omega
    rw [pairs_piece (Nat.le_refl dlen) (Nat.le_refl dlen), Nat.sub_self]
    refine Moved.last hc fun _ => ?_
    cases drest with
    | nil => exact pairs_nil_left _
    | cons v drest =>
      cases srest with
      | nil => exact pairs_nil_right _
      | cons w srest => exact (hend v drest w srest rfl rfl).elim

/-! ## Without interruptions -/

section Free
variable (hfree : ∀ c p, stop c p = none)
include hfree

variable (tr) in
theorem xferMemcpy_free (n d s : Nat) (x : Xfer P) : (xferMemcpy tr stop n d s x).2 = none := by
  induction n generalizing d s x with
  | zero => exact hfree _ _
  | succ n ih =>
    rw [xferMemcpy, hfree]
    exact ih _ _ _

variable (tr) in
theorem xferCpy_free (n d s : Nat) (x : Xfer P) : (xferCpy tr stop n d s x).2 = none := by
  fun_induction xferCpy tr stop n d s x with
  | case1 n d s x size x1 e hc =>
    have h := xferMemcpy_free tr hfree size d s x
    rw [hc] at h
    cases h
  | case2 => rfl
  | case3 n d s x size x1 hc x2 hlast ih => exact ih

theorem xferLoop_free (daddr dlen : Nat) (drest : List Iov) (saddr slen : Nat) (srest : List Iov) (x : Xfer P) :
    (xferLoop tr stop daddr dlen drest saddr slen srest x).2 = none := by
  have hcpy : ∀ {n d s : Nat} {x x' : Xfer P} {r}, xferCpy tr stop n d s x = (x', r) → r = none := by
    intro n d s x x' r hc
    have h := xferCpy_free tr hfree n d s x
    rw [hc] at h
    exact h
  fun_induction xferLoop tr stop daddr dlen drest saddr slen srest x with
  | case1 _ _ _ _ _ _ _ _ _ hc => exact hcpy hc
  | case2 _ _ _ _ _ _ _ _ _ _ _ ih => exact ih
  | case3 _ _ _ _ _ _ _ _ _ hc _ _ hr => exact absurd (hcpy hc) hr
  | case4 _ _ _ _ _ _ _ _ _ _ hc => exact hcpy hc
  | case5 _ _ _ _ _ _ _ _ _ _ _ _ ih => exact ih
  | case6 _ _ _ _ _ _ _ _ _ _ hc _ _ hr => exact absurd (hcpy hc) hr
  | case7 _ _ _ _ _ _ _ _ _ _ _ _ _ ih => exact ih
  | case8 _ _ _ _ _ _ _ _ _ hc _ _ _ _ hr => exact absurd (hcpy hc) hr
  | case9 _ _ _ _ _ _ _ _ _ _ _ hc => exact hcpy hc

end Free

/-! ## The bytes behind an offset -/

/-- The bytes of an IOV list behind an offset. -/
def remain (vs : List Iov) (off : Nat) : List Nat := (stream vs).drop off

theorem remain_cons {v : Iov} {off : Nat} (h : off ≤ v.len) (vs : List Iov) :
    remain (v :: vs) off = range' (v.base + off) (v.len - off) ++ stream vs := by
  unfold remain
  rw [stream_cons, drop_append_of_le_length (by simpa using h), drop_range']
  simp

/-- No part is longer than an `unsigned` can say. -/
def Narrow (vs : List Iov) : Prop := ∀ v ∈ vs, v.len < 2 ^ 32

instance (vs : List Iov) : Decidable (Narrow vs) := inferInstanceAs (Decidable (∀ v ∈ vs, v.len < 2 ^ 32))

theorem cut_eq {vs : List Iov} (h : Narrow vs) : cut vs = vs := by
  conv => rhs; rw [← map_id vs]
  refine map_congr_left fun v hv => ?_
  have : u32 v.len = v.len := Nat.mod_eq_of_lt (h v hv)
  rw [this]
  rfl

/-- The addresses behind an offset as xferiov goes along them: it keeps lengths in an `unsigned`. -/
def seen : List Iov → Nat → List Nat
  | [], _ => []
  | v :: vs, off => range' (v.base + off) (u32 (v.len + 2 ^ 64 - off)) ++ stream (cut vs)

theorem seen_eq {v : Iov} {vs : List Iov} {off : Nat} (h : off ≤ v.len) (hn : Narrow (v :: vs)) :
    seen (v :: vs) off = remain (v :: vs) off := by
  have hlen : u32 (v.len + 2 ^ 64 - off) = v.len - off := by
    have := hn v mem_cons_self
    unfold u32
    omega
  rw [seen, remain_cons h, hlen, cut_eq fun u hu => hn u (.tail _ hu)]

variable (tr stop) in
theorem xferiov_seen (debug : Bool) {v w : Iov} (drest srest : List Iov) {doff soff : Nat} (hd : doff ≤ v.len)
    (hs : soff ≤ w.len) (x : Xfer P) :
    ∃ x' r, xferiov tr stop debug (v :: drest) (w :: srest) doff soff x = some (x', r) ∧
      Moved (pairs tr (seen (v :: drest) doff) (seen (w :: srest) soff)) x x' (r = none) ∧
      ((∀ c p, stop c p = none) → r = none) := by
  refine ⟨_, _, ?_, xferLoop_moved tr stop (v.base + doff) _ drest (w.base + soff) _ srest x, fun hfree => xferLoop_free hfree ..⟩
  unfold xferiov
  dsimp only
  rw [if_neg (by rintro ⟨-, h | h⟩ <;> omega)]

variable (tr stop) in
theorem xferiov_moved (debug : Bool) {v w : Iov} {drest srest : List Iov} {doff soff : Nat} (hd : doff ≤ v.len)
    (hs : soff ≤ w.len) (hdn : Narrow (v :: drest)) (hsn : Narrow (w :: srest)) (x : Xfer P) :
    ∃ x' r, xferiov tr stop debug (v :: drest) (w :: srest) doff soff x = some (x', r) ∧
      Moved (pairs tr (remain (v :: drest) doff) (remain (w :: srest) soff)) x x' (r = none) ∧
      ((∀ c p, stop c p = none) → r = none) := by
  rw [← seen_eq hd hdn, ← seen_eq hs hsn]
  exact xferiov_seen tr stop debug drest srest hd hs x

/-! ## The result -/

theorem Moved.msglen (h : Moved l x x' full) (hf : full) (hw : x.msglen.toNat + l.length < 2 ^ 32) :
    x'.msglen.toNat = x.msglen.toNat + l.length := by
  obtain ⟨j, k, -, -, -, -, hl, hn⟩ := h
  rw [hl, hn hf, UInt32.toNat_add, UInt32.toNat_ofNat']
  omega

theorem Moved.off (h : Moved l x x' full) {a : P} (ha : a ∉ l.map Prod.fst) : x'.mem a = x.mem a := by
  obtain ⟨j, k, -, -, hm, -, -, -⟩ := h
  rw [hm]
  apply moves_off
  intro h1
  obtain ⟨p, hp, rfl⟩ := mem_map.mp h1
  exact ha (mem_map_of_mem (mem_of_mem_take hp))

theorem Moved.mem (h : Moved l x x' full) (hf : full) : x'.mem = moves l x.mem := by
  obtain ⟨j, k, hkj, hj, hm, -, -, hn⟩ := h
  have hk := hn hf
  rw [hm, take_of_length_le (by omega)]

variable (tr stop) in
/-- **xferiov copies the prefix of one stream to the other.** For lists of parts of any number
and any lengths that, cut to 32 bits, give the same bytes as far as both streams go, it moves, in order, the
bytes of the source behind its offset to the bytes of the destination behind its offset,
until one of the two ends. No other byte is written, whether or not the copy is stopped;
if it is not, `msglen` has grown by the number of bytes, and where the bytes of the
destination are distinct from each other and from those of the source, they hold what the
source held. -/
theorem xferiov_copies (debug : Bool) (dst src : List Iov) (doff soff : Nat) (x : Xfer P)
    (hd : ∃ v, dst.head? = some v ∧ doff ≤ v.len) (hs : ∃ w, src.head? = some w ∧ soff ≤ w.len)
    (hseen : (seen dst doff).zip (seen src soff) = (remain dst doff).zip (remain src soff))
    (hw : x.msglen.toNat + min (remain dst doff).length (remain src soff).length < 2 ^ 32) :
    ∃ x' r, xferiov tr stop debug dst src doff soff x = some (x', r) ∧
      ((∀ c p, stop c p = none) → r = none) ∧
      (∀ a, a ∉ ((remain dst doff).take (remain src soff).length).map tr → x'.mem a = x.mem a) ∧
      (r = none →
        x'.mem = moves (((remain dst doff).zip (remain src soff)).map (Prod.map tr tr)) x.mem ∧
        x'.msglen.toNat = x.msglen.toNat + min (remain dst doff).length (remain src soff).length ∧
        (((remain dst doff).map tr).Nodup → (∀ a ∈ (remain dst doff).map tr, a ∉ (remain src soff).map tr) →
          ∀ p ∈ (remain dst doff).zip (remain src soff), x'.mem (tr p.1) = x.mem (tr p.2))) := by
  obtain ⟨v, hv, hd⟩ := hd
  obtain ⟨w, hwd, hs⟩ := hs
  obtain ⟨drest, rfl⟩ := head?_eq_some_iff.mp hv
  obtain ⟨srest, rfl⟩ := head?_eq_some_iff.mp hwd
  obtain ⟨x', r, he, hm, hfree⟩ := xferiov_seen tr stop debug drest srest hd hs x
  rw [pairs, hseen, ← pairs] at hm
  rw [← pairs_length tr] at hw ⊢
  have hfst : ((pairs tr (remain (v :: drest) doff) (remain (w :: srest) soff)).map Prod.fst).Sublist
      ((remain (v :: drest) doff).map tr) := by
    rw [pairs_fst]
    exact (take_sublist _ _).map tr
  have hsnd : ((pairs tr (remain (v :: drest) doff) (remain (w :: srest) soff)).map Prod.snd).Sublist
      ((remain (w :: srest) soff).map tr) := by
    rw [pairs_snd]
    exact (take_sublist _ _).map tr
  refine ⟨x', r, he, hfree, fun a ha => hm.off ?_, ?_⟩
  · rw [pairs_fst, Nat.min_comm, ← take_eq_take_min]
    exact ha
  · rintro rfl
    refine ⟨hm.mem rfl, hm.msglen rfl hw, fun hnd hdis p hp => ?_⟩
    rw [hm.mem rfl]
    have hq : Prod.map tr tr p ∈ pairs tr (remain (v :: drest) doff) (remain (w :: srest) soff) :=
      mem_map_of_mem hp
    exact moves_get (hnd.sublist hfst) (fun a ha h₁ => hdis a (hfst.subset ha) (hsnd.subset h₁)) hq x.mem

/-- A memory with one byte in it that is not zero. -/
def oneByte (a : Nat) : Nat → UInt8 := fun b => if b = a then 7 else 0

/-- A part of 2^32 bytes that is not reached. -/
theorem xferiov_copies_parts : ∃ x' r,
    xferiov id (fun _ _ => none) true [⟨100, 3⟩, ⟨200, 0⟩, ⟨300, 2⟩, ⟨400, 2 ^ 32⟩] [⟨500, 2⟩, ⟨600, 2⟩] 1 0
      ⟨oneByte 601, 0, 0⟩ = some (x', r) ∧ r = none ∧ x'.msglen.toNat = 4 ∧ x'.mem = moves
        [(101, 500), (102, 501), (300, 600), (301, 601)] (oneByte 601) := by
  have hpairs : (remain [⟨100, 3⟩, ⟨200, 0⟩, ⟨300, 2⟩, ⟨400, 2 ^ 32⟩] 1).zip (remain [⟨500, 2⟩, ⟨600, 2⟩] 0) =
      [(101, 500), (102, 501), (300, 600), (301, 601)] := by
    rfl
  obtain ⟨x', r, he, hfree, -, hres⟩ := xferiov_copies id (fun _ _ => none) true
    [⟨100, 3⟩, ⟨200, 0⟩, ⟨300, 2⟩, ⟨400, 2 ^ 32⟩] [⟨500, 2⟩, ⟨600, 2⟩] 1 0 ⟨oneByte 601, 0, 0⟩ ⟨_, rfl, by decide⟩
    ⟨_, rfl, by decide⟩ (by rw [hpairs]; decide) (by simp [remain, stream])
  obtain rfl := hfree fun _ _ => rfl
  obtain ⟨hm, hl, -⟩ := hres rfl
  exact ⟨x', none, he, rfl, by rw [hl]; simp [remain, stream], by rw [hm, hpairs]; rfl⟩

/-- A part of 2^32 + 1 bytes on both sides: its length is cut to one byte, so the second one is
not copied. -/
theorem xferiov_cuts :
    (remain [⟨0, 2 ^ 32 + 1⟩] 0).length = 2 ^ 32 + 1 ∧ (remain [⟨2 ^ 40, 2 ^ 32 + 1⟩] 0).length = 2 ^ 32 + 1 ∧
    (xferiov id (fun _ _ => none) true [⟨0, 2 ^ 32 + 1⟩] [⟨2 ^ 40, 2 ^ 32 + 1⟩] 0 0
      ⟨oneByte (2 ^ 40 + 1), 0, 0⟩).map (fun y => (y.2, y.1.msglen, y.1.mem 1)) = some (none, 1, 0) := by
  refine ⟨by simp [remain, stream], by simp [remain, stream], ?_⟩
  simp [xferiov, xferLoop, xferCpy, xferMemcpy, u32, chunkSize, oneByte, Function.update]

end QRV.Nano.Xfer
