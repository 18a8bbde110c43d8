import Mathlib.Data.ZMod.Basic

/- Maps stored in bins: an element with key `k` is in the list of the bin `hash k`.

   `Placed` says that every element is in its bin and that no bin holds a key twice;
   `find` searches the bin of a key. An element put in front of its bin is found under
   its key and nothing else changes (`find_insert`), and filtering every bin filters
   what is found (`find_filter`). -/
namespace Bins

open List
open Function (update update_of_ne update_self)

variable {ι K S : Type} [DecidableEq ι] [DecidableEq K] (hash : K → ι) (key : S → K)

/-- Every element is in the bin of its key, which holds no key twice. -/
structure Placed (bins : ι → List S) : Prop where
  at_hash : ∀ {i s}, s ∈ bins i → hash (key s) = i
  nodup : ∀ i, ((bins i).map key).Nodup

/-- The first element with the key in the bin of the key. -/
def find (bins : ι → List S) (k : K) : Option S := (bins (hash k)).find? fun s => key s = k

variable {hash key} {bins : ι → List S} {s : S} {k : K}

omit [DecidableEq ι] in
theorem find_key (h : find hash key bins k = some s) : key s = k := by
  simpa using find?_some h

omit [DecidableEq ι] in
theorem find_eq_none (h : find hash key bins k = none) : k ∉ (bins (hash k)).map key := by
  intro hk
  obtain ⟨s, hs, rfl⟩ := mem_map.mp hk
  have := find?_eq_none.mp h s hs
  simp at this

theorem find_insert (bins : ι → List S) (s : S) (k : K) :
    find hash key (update bins (hash (key s)) (s :: bins (hash (key s)))) k =
      if k = key s then some s else find hash key bins k := by
  unfold find
  by_cases hk : k = key s
  · rw [if_pos hk, hk, update_self, find?_cons_of_pos (by simp)]
  · rw [if_neg hk]
    by_cases hb : hash k = hash (key s)
    · rw [hb, update_self, find?_cons_of_neg (by simpa using fun h => hk h.symm)]
    · rw [update_of_ne hb]

theorem Placed.insert (h : Placed hash key bins) (hs : find hash key bins (key s) = none) :
    Placed hash key (update bins (hash (key s)) (s :: bins (hash (key s)))) where
  at_hash {i t} ht := by
    by_cases hi : i = hash (key s)
    · subst hi
      rw [update_self, mem_cons] at ht
      cases ht with
      | inl ht => rw [ht]
      | inr ht => exact h.at_hash ht
    · rw [update_of_ne hi] at ht
      exact h.at_hash ht
  nodup i := by
    by_cases hi : i = hash (key s)
    · subst hi
      rw [update_self, map_cons]
      exact nodup_cons.mpr ⟨find_eq_none hs, h.nodup _⟩
    · rw [update_of_ne hi]
      exact h.nodup i

theorem find?_filter_of_nodup {l : List S} (h : (l.map key).Nodup) (p : S → Bool) (k : K) :
    (l.filter p).find? (fun s => key s = k) = (l.find? fun s => key s = k).filter p := by
  induction l with
  | nil => rfl
  | cons t l ih =>
    rw [map_cons, nodup_cons] at h
    by_cases hk : key t = k
    · rw [find?_cons_of_pos (by simpa using hk)]
      by_cases hp : p t = true
      · rw [filter_cons_of_pos hp, find?_cons_of_pos (by simpa using hk), Option.filter_some, if_pos hp]
      · rw [filter_cons_of_neg hp, Option.filter_some, if_neg hp]
        refine find?_eq_none.mpr fun u hu hku => h.1 ?_
        have hu' := mem_of_mem_filter hu
        rw [hk, ← (by simpa using hku : key u = k)]
        exact mem_map_of_mem hu'
    · rw [find?_cons_of_neg (by simpa using hk), ← ih h.2]
      by_cases hp : p t = true
      · rw [filter_cons_of_pos hp, find?_cons_of_neg (by simpa using hk)]
      · rw [filter_cons_of_neg hp]

omit [DecidableEq ι] in
theorem find_filter (h : Placed hash key bins) (p : ι → S → Bool) (k : K) :
    find hash key (fun i => (bins i).filter (p i)) k = (find hash key bins k).filter (p (hash k)) :=
  find?_filter_of_nodup (h.nodup _) _ k

omit [DecidableEq ι] [DecidableEq K] in
theorem Placed.filter (h : Placed hash key bins) (p : ι → S → Bool) :
    Placed hash key fun i => (bins i).filter (p i) where
  at_hash ht := h.at_hash (mem_of_mem_filter ht)
  nodup i := (h.nodup i).sublist (filter_sublist.map key)

end Bins
