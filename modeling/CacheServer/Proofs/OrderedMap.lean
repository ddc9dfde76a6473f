import CacheServer.Key
import Mathlib.Data.List.Nodup

/-!
Ordered maps as the lists of their entries. An entry that is inserted beyond all others goes to the
end of the list, and an entry that is dropped leaves the others in their order.
-/

namespace CacheServer

open Std

theorem mem_of_getElem? {α β : Type} [Ord α] [TransOrd α] {t : ExtTreeMap α β} {k : α} {v : β}
    (hv : t[k]? = some v) : k ∈ t := by
  rw [ExtTreeMap.mem_iff_isSome_getElem?, hv]
  rfl

theorem nodup_of_increasing {α β : Type} [Ord α] [LawfulEqOrd α] {l : List (α × β)}
    (hl : l.Pairwise fun a b => compare a.1 b.1 = .lt) : l.Nodup := by
  refine hl.imp ?_
  rintro entry _ hlt rfl
  simp at hlt

variable {α β : Type} [Ord α] [TransOrd α] [LawfulEqOrd α] {t : ExtTreeMap α β}

/-- The entries of an ordered map are the only list of them in which the keys increase. -/
theorem toList_eq_of_increasing {l : List (α × β)} (hl : l.Pairwise fun a b => compare a.1 b.1 = .lt)
    (hmem : ∀ k v, (k, v) ∈ l ↔ t[k]? = some v) : t.toList = l := by
  have hperm : t.toList.Perm l := by
    rw [List.perm_ext_iff_of_nodup (nodup_of_increasing t.ordered_keys_toList)
      (nodup_of_increasing hl)]
    rintro ⟨k, v⟩
    rw [ExtTreeMap.mem_toList_iff_getElem?_eq_some, hmem]
  refine hperm.eq_of_pairwise ?_ t.ordered_keys_toList hl
  intro x y _ _ hxy hyx
  rw [OrientedCmp.gt_of_lt hxy] at hyx
  cases hyx

theorem toList_erase (t : ExtTreeMap α β) (k : α) :
    (t.erase k).toList = t.toList.filter fun entry => compare k entry.1 != .eq := by
  apply toList_eq_of_increasing (t.ordered_keys_toList.filter _)
  intro k' v
  rw [List.mem_filter, ExtTreeMap.mem_toList_iff_getElem?_eq_some, ExtTreeMap.getElem?_erase]
  by_cases hk : compare k k' = .eq <;> simp [hk]

/-- An entry beyond all others goes to the end. -/
theorem toList_insert_of_lt {k : α} (hlt : ∀ k' ∈ t, compare k' k = .lt) (v : β) :
    (t.insert k v).toList = t.toList ++ [(k, v)] := by
  have hfresh : t[k]? = none := by
    apply ExtTreeMap.getElem?_eq_none
    intro hk
    simpa using hlt k hk
  apply toList_eq_of_increasing
  · rw [List.pairwise_append]
    refine ⟨t.ordered_keys_toList, List.pairwise_singleton _ _, ?_⟩
    rintro ⟨k', v'⟩ hmem entry hentry
    obtain rfl : entry = (k, v) := by simpa using hentry
    rw [ExtTreeMap.mem_toList_iff_getElem?_eq_some] at hmem
    exact hlt k' (mem_of_getElem? hmem)
  · intro k' v'
    rw [List.mem_append, ExtTreeMap.mem_toList_iff_getElem?_eq_some, ExtTreeMap.getElem?_insert,
      List.mem_singleton, Prod.mk.injEq]
    by_cases hk : k = k'
    · subst k'
      simp [hfresh, eq_comm]
    · simp [hk, Ne.symm hk]

/-- A new entry stands somewhere among the others. -/
theorem toList_insert_perm {k : α} (hk : k ∉ t) (v : β) :
    (t.insert k v).toList.Perm ((k, v) :: t.toList) := by
  have hfresh := ExtTreeMap.getElem?_eq_none hk
  rw [List.perm_ext_iff_of_nodup (nodup_of_increasing (t.insert k v).ordered_keys_toList)]
  · rintro ⟨k', v'⟩
    rw [List.mem_cons, ExtTreeMap.mem_toList_iff_getElem?_eq_some,
      ExtTreeMap.mem_toList_iff_getElem?_eq_some, ExtTreeMap.getElem?_insert, Prod.mk.injEq]
    by_cases hkk : k = k'
    · subst k'
      simp [hfresh, eq_comm]
    · simp [hkk, Ne.symm hkk]
  · refine List.nodup_cons.mpr ⟨?_, nodup_of_increasing t.ordered_keys_toList⟩
    simp [hfresh]

/-- Ordered maps with the same keys list them alike, whatever their values. -/
theorem keys_eq_of_mem_iff {γ : Type} {u : ExtTreeMap α γ} (hmem : ∀ k, k ∈ t ↔ k ∈ u) :
    t.keys = u.keys := by
  have hperm : t.keys.Perm u.keys := by
    rw [List.perm_ext_iff_of_nodup ExtTreeMap.nodup_keys ExtTreeMap.nodup_keys]
    intro k
    rw [ExtTreeMap.mem_keys, ExtTreeMap.mem_keys, hmem]
  refine hperm.eq_of_pairwise ?_ ExtTreeMap.ordered_keys ExtTreeMap.ordered_keys
  intro x y _ _ hxy hyx
  rw [OrientedCmp.gt_of_lt hxy] at hyx
  cases hyx

theorem keys_insert_perm {k : α} (hk : k ∉ t) (v : β) : (t.insert k v).keys.Perm (k :: t.keys) := by
  rw [← ExtTreeMap.map_fst_toList_eq_keys, ← ExtTreeMap.map_fst_toList_eq_keys]
  exact (toList_insert_perm hk v).map Prod.fst

theorem mem_erase_iff {k k' : α} : k' ∈ t.erase k ↔ k' ≠ k ∧ k' ∈ t := by
  rw [ExtTreeMap.mem_erase, Ne, LawfulEqCmp.compare_eq_iff_eq, eq_comm]

theorem keys_erase_perm [DecidableEq α] (t : ExtTreeMap α β) (k : α) :
    (t.erase k).keys.Perm (t.keys.erase k) := by
  rw [List.perm_ext_iff_of_nodup ExtTreeMap.nodup_keys (ExtTreeMap.nodup_keys.erase k)]
  intro k'
  rw [ExtTreeMap.mem_keys, mem_erase_iff, ExtTreeMap.nodup_keys.mem_erase_iff, ExtTreeMap.mem_keys]

theorem mem_insert_of_mem {k k' : α} (hk : k ∈ t) (v : β) : k' ∈ t.insert k v ↔ k' ∈ t := by
  rw [ExtTreeMap.mem_insert, LawfulEqCmp.compare_eq_iff_eq]
  constructor
  · rintro (rfl | hk')
    · exact hk
    · exact hk'
  · exact Or.inr

theorem erase_eq_self {k : α} (hk : k ∉ t) : t.erase k = t := by
  apply ExtTreeMap.ext_getElem?
  intro k'
  rw [ExtTreeMap.getElem?_erase]
  split
  case isTrue heq => rw [← LawfulEqCmp.eq_of_compare heq, ExtTreeMap.getElem?_eq_none hk]
  case isFalse => rfl

theorem erase_erase_comm (t : ExtTreeMap α β) (k k' : α) :
    (t.erase k).erase k' = (t.erase k').erase k := by
  apply ExtTreeMap.ext_getElem?
  intro k''
  simp only [ExtTreeMap.getElem?_erase]
  split <;> split <;> rfl

theorem insert_erase_self (t : ExtTreeMap α β) (k : α) (v : β) :
    (t.erase k).insert k v = t.insert k v := by
  apply ExtTreeMap.ext_getElem?
  intro k'
  simp only [ExtTreeMap.getElem?_insert, ExtTreeMap.getElem?_erase]
  split <;> rfl

theorem insert_erase_of_getElem? {k : α} {v : β} (hv : t[k]? = some v) :
    (t.erase k).insert k v = t := by
  apply ExtTreeMap.ext_getElem?
  intro k'
  rw [ExtTreeMap.getElem?_insert, ExtTreeMap.getElem?_erase]
  by_cases hk : k = k'
  · subst k'
    simp [hv]
  · simp [hk]

theorem exists_getElem?_of_minKey? {k : α} (hmin : t.minKey? = some k) :
    ∃ v, t[k]? = some v := by
  have hk := (ExtTreeMap.minKey?_eq_some_iff_mem_and_forall.mp hmin).1
  rwa [ExtTreeMap.mem_iff_isSome_getElem?, Option.isSome_iff_exists] at hk

theorem exists_getElem?_of_maxKey? {k : α} (hmax : t.maxKey? = some k) :
    ∃ v, t[k]? = some v := by
  have hk := (ExtTreeMap.maxKey?_eq_some_iff_mem_and_forall.mp hmax).1
  rwa [ExtTreeMap.mem_iff_isSome_getElem?, Option.isSome_iff_exists] at hk

/-- The entry with the least key stands in front of the others. -/
theorem toList_of_minKey? {k : α} {v : β} (hmin : t.minKey? = some k) (hv : t[k]? = some v) :
    t.toList = (k, v) :: (t.erase k).toList := by
  obtain ⟨hk, hle⟩ := ExtTreeMap.minKey?_eq_some_iff_mem_and_forall.mp hmin
  apply toList_eq_of_increasing
  · refine List.pairwise_cons.mpr ⟨?_, (t.erase k).ordered_keys_toList⟩
    rintro ⟨k', v'⟩ hmem
    rw [ExtTreeMap.mem_toList_iff_getElem?_eq_some] at hmem
    obtain ⟨hne, hk'⟩ := ExtTreeMap.mem_erase.mp (mem_of_getElem? hmem)
    have := hle k' hk'
    cases hcmp : compare k k' <;> simp_all
  · intro k' v'
    rw [List.mem_cons, ExtTreeMap.mem_toList_iff_getElem?_eq_some, ExtTreeMap.getElem?_erase,
      Prod.mk.injEq]
    by_cases hkk : k = k'
    · subst k'
      simp [hv, eq_comm]
    · simp [hkk, Ne.symm hkk]

/-- The entry with the greatest key stands behind the others. -/
theorem toList_of_maxKey? {k : α} {v : β} (hmax : t.maxKey? = some k) (hv : t[k]? = some v) :
    t.toList = (t.erase k).toList ++ [(k, v)] := by
  obtain ⟨hk, hle⟩ := ExtTreeMap.maxKey?_eq_some_iff_mem_and_forall.mp hmax
  have hlt : ∀ k' ∈ t.erase k, compare k' k = .lt := by
    intro k' hk'
    obtain ⟨hne, hk'⟩ := ExtTreeMap.mem_erase.mp hk'
    have := hle k' hk'
    cases hcmp : compare k' k with
    | lt => rfl
    | eq => simp_all
    | gt => simp_all
  rw [← toList_insert_of_lt hlt, insert_erase_of_getElem? hv]

end CacheServer
