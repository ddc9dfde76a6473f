import CacheServer.Eviction.Ranking
import CacheServer.Proofs.Eviction.Labelling

/-!
Keys by the number of their uses, as a list without repetitions. A use moves a key in the list, and
keys are taken from the front.
-/

namespace CacheServer.Ranking

open Std

variable {r rest : Ranking} {k : Key}

/-- `order` and `ranks` are inverse to each other. No two keys have one place, and every place comes
before the next one; so a key that is used never takes the rank of another. -/
structure WellFormed (r : Ranking) : Prop where
  inverse : Inverse r.order r.ranks
  place_lt : ∀ rank ∈ r.order, rank.place < r.places
  place_inj : ∀ rank ∈ r.order, ∀ rank' ∈ r.order, rank.place = rank'.place → rank = rank'

theorem wellFormed_empty : empty.WellFormed :=
  ⟨Inverse.empty, by simp [empty], by simp [empty]⟩

@[simp] theorem toList_empty : empty.toList = [] := by
  simp [empty, toList]

theorem wellFormed_clear (r : Ranking) : r.clear.WellFormed :=
  ⟨Inverse.empty, by simp [clear], by simp [clear]⟩

@[simp] theorem toList_clear (r : Ranking) : r.clear.toList = [] := by
  simp [clear, toList]

theorem WellFormed.mem_toList_iff (h : r.WellFormed) : k ∈ r.toList ↔ k ∈ r.ranks :=
  h.inverse.mem_iff

theorem WellFormed.nodup_toList (h : r.WellFormed) : r.toList.Nodup :=
  h.inverse.nodup

theorem WellFormed.dropAt (h : r.WellFormed) {rank : Rank} (hk : r.order[rank]? = some k) :
    WellFormed { r with order := r.order.erase rank, ranks := r.ranks.erase k } where
  inverse := h.inverse.erase hk
  place_lt := fun rank' hmem => h.place_lt rank' (ExtTreeMap.mem_of_mem_erase hmem)
  place_inj := fun rank' hmem rank'' hmem' =>
    h.place_inj rank' (ExtTreeMap.mem_of_mem_erase hmem) rank'' (ExtTreeMap.mem_of_mem_erase hmem')

theorem WellFormed.erase (h : r.WellFormed) (k : Key) : (r.erase k).WellFormed := by
  unfold Ranking.erase
  cases hk : r.ranks[k]? with
  | none => exact h
  | some rank => exact h.dropAt ((h.inverse _ _).mp hk)

theorem WellFormed.toList_erase (h : r.WellFormed) (k : Key) :
    (r.erase k).toList = r.toList.erase k := by
  unfold Ranking.erase
  cases hk : r.ranks[k]? with
  | none =>
    have hmem : k ∉ r.toList := by
      rw [h.mem_toList_iff]
      exact (getElem?_eq_none_iff r.ranks k).mp hk
    exact (List.erase_of_not_mem hmem).symm
  | some rank => exact h.inverse.toList_erase ((h.inverse _ _).mp hk)

/-- A key that has no rank gets a rank whose place no other key has. -/
theorem WellFormed.insert (h : r.WellFormed) (hk : k ∉ r.ranks) {rank : Rank} {places : Nat}
    (hplaces : r.places ≤ places) (hlt : rank.place < places)
    (hfresh : ∀ rank' ∈ r.order, rank'.place ≠ rank.place) :
    WellFormed ⟨places, r.order.insert rank k, r.ranks.insert k rank⟩ := by
  have hnew : rank ∉ r.order := fun hmem => hfresh rank hmem rfl
  refine ⟨h.inverse.insert hk hnew, ?_, ?_⟩
  · intro rank' hmem
    rw [ExtTreeMap.mem_insert, LawfulEqCmp.compare_eq_iff_eq] at hmem
    obtain rfl | hmem := hmem
    · exact hlt
    · exact Nat.lt_of_lt_of_le (h.place_lt rank' hmem) hplaces
  · intro rank' hmem rank'' hmem' hplace
    rw [ExtTreeMap.mem_insert, LawfulEqCmp.compare_eq_iff_eq] at hmem hmem'
    obtain rfl | hmem := hmem
    · obtain rfl | hmem' := hmem'
      · rfl
      · exact absurd hplace.symm (hfresh rank'' hmem')
    · obtain rfl | hmem' := hmem'
      · exact absurd hplace (hfresh rank' hmem)
      · exact h.place_inj rank' hmem rank'' hmem' hplace

theorem WellFormed.add (h : r.WellFormed) (hk : k ∉ r.toList) : (r.add k).WellFormed := by
  rw [h.mem_toList_iff] at hk
  refine h.insert hk (Nat.le_succ _) (Nat.lt_succ_self _) ?_
  intro rank hmem
  exact Nat.ne_of_lt (h.place_lt rank hmem)

theorem WellFormed.toList_add (h : r.WellFormed) (k : Key) :
    (r.add k).toList.Perm (k :: r.toList) := by
  have hnew : (⟨1, r.places⟩ : Rank) ∉ r.order := by
    intro hmem
    exact Nat.lt_irrefl _ (h.place_lt _ hmem)
  exact (toList_insert_perm hnew k).map Prod.snd

/-- A use of a key is an erasure followed by an insertion in the same place with one use more. -/
theorem use_eq {rank : Rank} (hrank : r.ranks[k]? = some rank) :
    r.use k =
      { places := r.places
        order := (r.erase k).order.insert { rank with uses := rank.uses + 1 } k
        ranks := (r.erase k).ranks.insert k { rank with uses := rank.uses + 1 } } := by
  simp [use, erase, hrank, insert_erase_self]

theorem WellFormed.mem_order (h : r.WellFormed) {rank : Rank} (hrank : r.ranks[k]? = some rank) :
    rank ∈ r.order :=
  mem_of_getElem? ((h.inverse k rank).mp hrank)

theorem WellFormed.place_ne_of_mem_erase (h : r.WellFormed) {rank : Rank}
    (hrank : r.ranks[k]? = some rank) : ∀ rank' ∈ (r.erase k).order, rank'.place ≠ rank.place := by
  intro rank' hmem hplace
  simp only [Ranking.erase, hrank, ExtTreeMap.mem_erase] at hmem
  apply hmem.1
  simpa using h.place_inj rank (h.mem_order hrank) rank' hmem.2 hplace.symm

theorem WellFormed.use (h : r.WellFormed) (k : Key) :
    (r.use k).WellFormed ∧ (r.use k).toList.Perm r.toList := by
  cases hrank : r.ranks[k]? with
  | none => simp [Ranking.use, hrank, h]
  | some rank =>
    have herase := h.erase k
    have hk : k ∈ r.toList := h.mem_toList_iff.mpr (mem_of_getElem? hrank)
    have hgone : k ∉ (r.erase k).ranks := by
      rw [← herase.mem_toList_iff, h.toList_erase]
      exact h.nodup_toList.not_mem_erase
    have hplaces : (r.erase k).places = r.places := by
      unfold Ranking.erase
      split <;> rfl
    have hother := h.place_ne_of_mem_erase hrank
    rw [use_eq hrank]
    refine ⟨herase.insert hgone (Nat.le_of_eq hplaces) (h.place_lt rank (h.mem_order hrank)) hother, ?_⟩
    have hnew : (⟨rank.uses + 1, rank.place⟩ : Rank) ∉ (r.erase k).order := fun hmem =>
      hother _ hmem rfl
    refine ((toList_insert_perm hnew k).map Prod.snd).trans ?_
    change (k :: (r.erase k).toList).Perm r.toList
    rw [h.toList_erase]
    exact (List.perm_cons_erase hk).symm

theorem WellFormed.takeLeast? (h : r.WellFormed) (htake : r.takeLeast? = some (k, rest)) :
    rest.WellFormed ∧ r.toList = k :: rest.toList := by
  obtain ⟨rank, hmin, htake⟩ := Option.bind_eq_some_iff.mp htake
  obtain ⟨found, hk, htake⟩ := Option.map_eq_some_iff.mp htake
  obtain ⟨rfl, rfl⟩ := Prod.mk.inj htake
  refine ⟨h.dropAt hk, ?_⟩
  simp [toList, toList_of_minKey? hmin hk]

theorem takeLeast?_eq_none_iff : r.takeLeast? = none ↔ r.toList = [] := by
  unfold Ranking.takeLeast?
  cases hmin : r.order.minKey? with
  | none =>
    rw [ExtTreeMap.minKey?_eq_none_iff] at hmin
    simp [toList, hmin]
  | some rank =>
    obtain ⟨k, hk⟩ := exists_getElem?_of_minKey? hmin
    simp [toList, toList_of_minKey? hmin hk, hk]

end CacheServer.Ranking
