import CacheServer.Proofs.OrderedMap

/-!
Keys in the order of labels. One map leads from labels to keys and another one back, so the keys are
listed without repetitions and one of them is dropped without a search.
-/

namespace CacheServer

open Std

/-- `order` and `labels` lead back and forth between the same labels and keys. -/
def Inverse {α : Type} [Ord α] [TransOrd α] (order : ExtTreeMap α Key) (labels : KeyMap α) : Prop :=
  ∀ (k : Key) (label : α), labels[k]? = some label ↔ order[label]? = some k

namespace Inverse

theorem empty {α : Type} [Ord α] [TransOrd α] : Inverse (∅ : ExtTreeMap α Key) ∅ := by
  intro k label
  simp

variable {α : Type} [Ord α] [TransOrd α] [LawfulEqOrd α] {order : ExtTreeMap α Key}
  {labels : KeyMap α} {k : Key} {label : α}

theorem mem_iff (h : Inverse order labels) : k ∈ order.toList.map Prod.snd ↔ k ∈ labels := by
  rw [ExtTreeMap.mem_iff_isSome_getElem?, Option.isSome_iff_exists, List.mem_map]
  constructor
  · rintro ⟨⟨label, found⟩, hmem, rfl⟩
    rw [ExtTreeMap.mem_toList_iff_getElem?_eq_some, ← h] at hmem
    exact ⟨label, hmem⟩
  · rintro ⟨label, hlabel⟩
    rw [h, ← ExtTreeMap.mem_toList_iff_getElem?_eq_some] at hlabel
    exact ⟨(label, k), hlabel, rfl⟩

/-- No key has two labels. -/
theorem nodup (h : Inverse order labels) : (order.toList.map Prod.snd).Nodup := by
  rw [List.Nodup, List.pairwise_map]
  refine order.distinct_keys_toList.imp_of_mem ?_
  rintro ⟨label, k⟩ ⟨label', k'⟩ hmem hmem' hne rfl
  rw [ExtTreeMap.mem_toList_iff_getElem?_eq_some, ← h] at hmem hmem'
  simp_all

theorem erase (h : Inverse order labels) (hk : order[label]? = some k) :
    Inverse (order.erase label) (labels.erase k) := by
  have hlabel := (h k label).mpr hk
  intro k' label'
  simp only [ExtTreeMap.getElem?_erase, LawfulEqCmp.compare_eq_iff_eq]
  have hinverse := h k' label'
  by_cases hkk : k = k'
  · subst k'
    by_cases hll : label = label'
    · simp [hll]
    · rw [hlabel] at hinverse
      simpa [hll] using hinverse
  · by_cases hll : label = label'
    · subst label'
      rw [hk] at hinverse
      simpa [hkk] using hinverse
    · simpa [hkk, hll] using hinverse

/-- Dropping a label drops its key from the list and leaves the others in their order. -/
theorem toList_erase (h : Inverse order labels) (hk : order[label]? = some k) :
    (order.erase label).toList.map Prod.snd = (order.toList.map Prod.snd).erase k := by
  rw [h.nodup.erase_eq_filter, CacheServer.toList_erase, List.filter_map]
  congr 1
  apply List.filter_congr
  rintro ⟨label', k'⟩ hmem
  rw [ExtTreeMap.mem_toList_iff_getElem?_eq_some] at hmem
  have hsame : label = label' ↔ k' = k := by
    constructor
    · rintro rfl
      rw [hk] at hmem
      exact (Option.some.inj hmem).symm
    · rintro rfl
      rw [← h] at hk hmem
      rw [hk] at hmem
      exact Option.some.inj hmem
  rw [Bool.eq_iff_iff]
  simp [hsame]

theorem insert (h : Inverse order labels) (hk : k ∉ labels) (hlabel : label ∉ order) :
    Inverse (order.insert label k) (labels.insert k label) := by
  have hnone := ExtTreeMap.getElem?_eq_none hk
  have hfresh := ExtTreeMap.getElem?_eq_none hlabel
  intro k' label'
  simp only [ExtTreeMap.getElem?_insert, LawfulEqCmp.compare_eq_iff_eq]
  have hinverse := h k' label'
  by_cases hkk : k = k'
  · subst k'
    by_cases hll : label = label'
    · simp [hll]
    · rw [hnone] at hinverse
      simpa [hll] using hinverse
  · by_cases hll : label = label'
    · subst label'
      rw [hfresh] at hinverse
      simpa [hkk] using hinverse
    · simpa [hkk, hll] using hinverse

end Inverse

end CacheServer
