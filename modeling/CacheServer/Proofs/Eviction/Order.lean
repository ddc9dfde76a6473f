import CacheServer.Proofs.Eviction.Ranking
import CacheServer.Proofs.Eviction.Recency
import Mathlib.Data.List.Induction

/-!
The order of keys as an order in time. The clock counts touches, so a stamp is the position of a touch
in the list of all touches, and the order by stamps is the order by latest touch. In the same way the
place of a rank is the position of an addition in the list of all additions.
-/

namespace CacheServer

open Std

variable {l : List Key} {k k' : Key} {i : Nat}

/-- The latest occurrence of a key in a list is at the position. -/
def LatestAt (l : List Key) (k : Key) (i : Nat) : Prop :=
  l[i]? = some k ∧ ∀ j, i < j → l[j]? ≠ some k

/-- The latest occurrence of the first key comes before the latest occurrence of the second. -/
def Precedes (l : List Key) (k k' : Key) : Prop :=
  ∃ i j, LatestAt l k i ∧ LatestAt l k' j ∧ i < j

theorem latestAt_append_self (l : List Key) (k : Key) : LatestAt (l ++ [k]) k l.length := by
  refine ⟨by simp, ?_⟩
  intro j hj
  rw [List.getElem?_eq_none (by rw [List.length_append, List.length_singleton]; omega)]
  simp

/-- The latest occurrence stays the latest as another key is appended. -/
theorem LatestAt.append (h : LatestAt l k i) (hne : k ≠ k') : LatestAt (l ++ [k']) k i := by
  obtain ⟨hi, hlatest⟩ := h
  have hlt : i < l.length := (List.getElem?_eq_some_iff.mp hi).1
  refine ⟨by rw [List.getElem?_append_left hlt, hi], ?_⟩
  intro j hj
  rcases Nat.lt_trichotomy j l.length with hjl | rfl | hjl
  · rw [List.getElem?_append_left hjl]
    exact hlatest j hj
  · simpa using hne.symm
  · rw [List.getElem?_eq_none (by rw [List.length_append, List.length_singleton]; omega)]
    simp

theorem exists_latestAt (hk : k ∈ l) : ∃ i, LatestAt l k i := by
  induction l using List.reverseRecOn with
  | nil => cases hk
  | append_singleton l last ih =>
    by_cases heq : k = last
    · subst heq
      exact ⟨_, latestAt_append_self l k⟩
    · obtain ⟨i, hi⟩ := ih (by simpa [heq] using hk)
      exact ⟨i, hi.append heq⟩

theorem Precedes.append {last : Key} (h : Precedes l k k') (hne : k ≠ last) (hne' : k' ≠ last) :
    Precedes (l ++ [last]) k k' := by
  obtain ⟨i, j, hi, hj, hlt⟩ := h
  exact ⟨i, j, hi.append hne, hj.append hne', hlt⟩

/-- Whatever occurs in a list precedes what is appended to it. -/
theorem precedes_append_self (hk : k ∈ l) (hne : k ≠ k') : Precedes (l ++ [k']) k k' := by
  obtain ⟨i, hi⟩ := exists_latestAt hk
  have hlt : i < l.length := (List.getElem?_eq_some_iff.mp hi.1).1
  exact ⟨i, l.length, hi.append hne, latestAt_append_self l k', hlt⟩

/-- The keys occur in the list and are in the order of their latest occurrences there. -/
structure InOrder (l ks : List Key) : Prop where
  mem : ∀ k ∈ ks, k ∈ l
  pairwise : ks.Pairwise (Precedes l)

namespace InOrder

variable {ks ks' : List Key}

theorem nil (l : List Key) : InOrder l [] :=
  ⟨nofun, .nil⟩

theorem sublist (h : InOrder l ks) (hsub : ks'.Sublist ks) : InOrder l ks' :=
  ⟨fun k hk => h.mem k (hsub.subset hk), h.pairwise.sublist hsub⟩

theorem precedes_of_cons (h : InOrder l (k :: ks)) (hk' : k' ∈ k :: ks) (hne : k' ≠ k) :
    Precedes l k k' :=
  (List.pairwise_cons.mp h.pairwise).1 k' ((List.mem_cons.mp hk').resolve_left hne)

/-- What happens to other keys makes no difference. -/
theorem append_of_not_mem (h : InOrder l ks) (hk : k ∉ ks) : InOrder (l ++ [k]) ks := by
  refine ⟨fun k' hk' => List.mem_append_left [k] (h.mem k' hk'), h.pairwise.imp_of_mem ?_⟩
  intro k₁ k₂ hk₁ hk₂ hprecedes
  exact hprecedes.append (fun heq => hk (heq ▸ hk₁)) fun heq => hk (heq ▸ hk₂)

/-- The key that occurs now comes last. -/
theorem touch (h : InOrder l ks) (hnodup : ks.Nodup) (k : Key) :
    InOrder (l ++ [k]) (ks.erase k ++ [k]) := by
  have hothers := (h.sublist List.erase_sublist).append_of_not_mem (k := k) hnodup.not_mem_erase
  refine ⟨?_, List.pairwise_append.mpr ⟨hothers.pairwise, List.pairwise_singleton _ _, ?_⟩⟩
  · intro k' hk'
    rcases List.mem_append.mp hk' with hk' | hk'
    · exact hothers.mem k' hk'
    · exact List.mem_append_right l hk'
  · intro k' hk' last hlast
    obtain rfl := List.mem_singleton.mp hlast
    refine precedes_append_self (h.mem k' (List.mem_of_mem_erase hk')) ?_
    rintro rfl
    exact hnodup.not_mem_erase hk'

end InOrder

namespace Recency

variable {r rest : Recency}

theorem WellFormed.inOrder_touch (h : r.WellFormed) (horder : InOrder l r.toList) (k : Key) :
    InOrder (l ++ [k]) (r.touch k).toList := by
  rw [h.toList_touch]
  exact horder.touch h.nodup_toList k

theorem WellFormed.inOrder_erase (h : r.WellFormed) (horder : InOrder l r.toList) (k : Key) :
    InOrder l (r.erase k).toList := by
  rw [h.toList_erase]
  exact horder.sublist List.erase_sublist

/-- The list holds the touches from the first on: the clock counts them, and the stamp of a key is the
position of its latest touch. -/
structure Follows (r : Recency) (l : List Key) : Prop where
  clock : r.clock = l.length
  latest : ∀ (stamp : Nat) (k : Key), r.order[stamp]? = some k → LatestAt l k stamp

theorem follows_empty : empty.Follows [] :=
  ⟨rfl, by simp [empty]⟩

theorem Follows.clear (h : r.Follows l) : r.clear.Follows l :=
  ⟨h.clock, by simp [Recency.clear]⟩

theorem Follows.dropAt (h : r.Follows l) (stamp : Nat) (k : Key) :
    Follows { r with order := r.order.erase stamp, stamps := r.stamps.erase k } l := by
  refine ⟨h.clock, ?_⟩
  intro stamp' k' hk'
  rw [ExtTreeMap.getElem?_erase] at hk'
  split at hk'
  · cases hk'
  · exact h.latest stamp' k' hk'

theorem Follows.erase (h : r.Follows l) (k : Key) : (r.erase k).Follows l := by
  unfold Recency.erase Recency.remove
  split
  · exact h.dropAt _ k
  · exact h

theorem Follows.takeOldest? (h : r.Follows l) (htake : r.takeOldest? = some (k, rest)) :
    rest.Follows l := by
  obtain ⟨stamp, -, htake⟩ := Option.bind_eq_some_iff.mp htake
  obtain ⟨-, rfl⟩ := takeAt?_eq_some_iff.mp htake
  exact h.dropAt stamp k

theorem Follows.takeNewest? (h : r.Follows l) (htake : r.takeNewest? = some (k, rest)) :
    rest.Follows l := by
  obtain ⟨stamp, -, htake⟩ := Option.bind_eq_some_iff.mp htake
  obtain ⟨-, rfl⟩ := takeAt?_eq_some_iff.mp htake
  exact h.dropAt stamp k

/-- The stamp of a touch is the position of the touch. -/
theorem Follows.touch (h : r.Follows l) (hr : r.WellFormed) (k : Key) :
    (r.touch k).Follows (l ++ [k]) := by
  rw [touch_eq]
  refine ⟨by simp [h.clock], ?_⟩
  intro stamp k' hk'
  simp only [ExtTreeMap.getElem?_insert, LawfulEqCmp.compare_eq_iff_eq] at hk'
  split at hk'
  case isTrue hstamp =>
    cases hk'
    rw [← hstamp, h.clock]
    exact latestAt_append_self l k
  case isFalse =>
    have hmem : k' ∈ (r.erase k).toList :=
      (hr.erase k).mem_toList_iff.mpr
        (mem_of_getElem? (((hr.erase k).inverse k' stamp).mpr hk'))
    have hne : k' ≠ k := by
      rintro rfl
      rw [hr.toList_erase] at hmem
      exact hr.nodup_toList.not_mem_erase hmem
    exact ((h.erase k).latest stamp k' hk').append hne

/-- The keys are in the order of their latest touches. -/
theorem Follows.pairwise (h : r.Follows l) : r.toList.Pairwise (Precedes l) := by
  rw [toList, List.pairwise_map]
  refine r.order.ordered_keys_toList.imp_of_mem ?_
  rintro ⟨stamp, k⟩ ⟨stamp', k'⟩ hmem hmem' hlt
  rw [ExtTreeMap.mem_toList_iff_getElem?_eq_some] at hmem hmem'
  exact ⟨stamp, stamp', h.latest stamp k hmem, h.latest stamp' k' hmem', Nat.compare_eq_lt.mp hlt⟩

end Recency

namespace Ranking

variable {r rest : Ranking} {f g : Key → Nat}

/-- The list holds the additions from the first on, and every rank tells the position of the latest
addition of its key and the number of uses. -/
structure Follows (r : Ranking) (l : List Key) (f : Key → Nat) : Prop where
  places : r.places = l.length
  rank : ∀ (k : Key) (rank : Rank), r.ranks[k]? = some rank →
    LatestAt l k rank.place ∧ rank.uses = f k

/-- By the number of uses the first key comes before the second, and among keys with as many uses by
the latest addition. -/
def Before (l : List Key) (f : Key → Nat) (k k' : Key) : Prop :=
  f k < f k' ∨ f k = f k' ∧ Precedes l k k'

theorem follows_empty (f : Key → Nat) : empty.Follows [] f :=
  ⟨rfl, by simp [empty]⟩

theorem Follows.clear (h : r.Follows l f) : r.clear.Follows l f :=
  ⟨h.places, by simp [Ranking.clear]⟩

theorem Follows.dropAt (h : r.Follows l f) (rank : Rank) (k : Key) :
    Follows { r with order := r.order.erase rank, ranks := r.ranks.erase k } l f := by
  refine ⟨h.places, ?_⟩
  intro k' rank' hk'
  rw [ExtTreeMap.getElem?_erase] at hk'
  split at hk'
  · cases hk'
  · exact h.rank k' rank' hk'

theorem Follows.erase (h : r.Follows l f) (k : Key) : (r.erase k).Follows l f := by
  unfold Ranking.erase
  split
  · exact h.dropAt _ k
  · exact h

theorem Follows.takeLeast? (h : r.Follows l f) (htake : r.takeLeast? = some (k, rest)) :
    rest.Follows l f := by
  obtain ⟨rank, -, htake⟩ := Option.bind_eq_some_iff.mp htake
  obtain ⟨found, -, htake⟩ := Option.map_eq_some_iff.mp htake
  obtain ⟨rfl, rfl⟩ := Prod.mk.inj htake
  exact h.dropAt rank found

/-- A key that is added is at the end of the additions, with one use. -/
theorem Follows.add (h : r.Follows l f) (hk : g k = 1) (hother : ∀ k', k' ≠ k → g k' = f k') :
    (r.add k).Follows (l ++ [k]) g := by
  refine ⟨by simp [Ranking.add, h.places], ?_⟩
  intro k' rank hrank
  simp only [Ranking.add, ExtTreeMap.getElem?_insert, LawfulEqCmp.compare_eq_iff_eq] at hrank
  split at hrank
  case isTrue heq =>
    cases hrank
    subst heq
    rw [h.places]
    exact ⟨latestAt_append_self l k, hk.symm⟩
  case isFalse hne =>
    obtain ⟨hplace, huses⟩ := h.rank k' rank hrank
    exact ⟨hplace.append (Ne.symm hne), huses.trans (hother k' (Ne.symm hne)).symm⟩

/-- A use counts for its key and leaves all places as they are. -/
theorem Follows.use (h : r.Follows l f) (hk : g k = f k + 1) (hother : ∀ k', k' ≠ k → g k' = f k') :
    (r.use k).Follows l g := by
  cases hfound : r.ranks[k]? with
  | none =>
    rw [Ranking.use, hfound]
    refine ⟨h.places, ?_⟩
    intro k' rank hrank
    have hne : k' ≠ k := by
      rintro rfl
      rw [hfound] at hrank
      cases hrank
    obtain ⟨hplace, huses⟩ := h.rank k' rank hrank
    exact ⟨hplace, huses.trans (hother k' hne).symm⟩
  | some found =>
    rw [Ranking.use, hfound]
    refine ⟨h.places, ?_⟩
    intro k' rank hrank
    simp only [ExtTreeMap.getElem?_insert, LawfulEqCmp.compare_eq_iff_eq] at hrank
    split at hrank
    case isTrue heq =>
      cases hrank
      subst heq
      obtain ⟨hplace, huses⟩ := h.rank k found hfound
      exact ⟨hplace, by rw [hk, ← huses]⟩
    case isFalse hne =>
      obtain ⟨hplace, huses⟩ := h.rank k' rank hrank
      exact ⟨hplace, huses.trans (hother k' (Ne.symm hne)).symm⟩

/-- Every key that is there was added before a key that is added now. -/
theorem Follows.precedes_snoc (h : r.Follows l f) (hr : r.WellFormed) (hk' : k' ∈ r.toList)
    (hne : k' ≠ k) : Precedes (l ++ [k]) k' k := by
  rw [hr.mem_toList_iff, ExtTreeMap.mem_iff_isSome_getElem?, Option.isSome_iff_exists] at hk'
  obtain ⟨rank, hrank⟩ := hk'
  have hplace := (h.rank k' rank hrank).1
  have hlt : rank.place < l.length := (List.getElem?_eq_some_iff.mp hplace.1).1
  exact ⟨rank.place, l.length, hplace.append hne, latestAt_append_self l k, hlt⟩

/-- The keys are in the order of their uses, and among as many uses in the order of addition. -/
theorem Follows.pairwise (h : r.Follows l f) (hr : r.WellFormed) :
    r.toList.Pairwise (Before l f) := by
  rw [toList, List.pairwise_map]
  refine r.order.ordered_keys_toList.imp_of_mem ?_
  rintro ⟨rank, k⟩ ⟨rank', k'⟩ hmem hmem' hlt
  rw [ExtTreeMap.mem_toList_iff_getElem?_eq_some, ← hr.inverse] at hmem hmem'
  obtain ⟨hplace, huses⟩ := h.rank k rank hmem
  obtain ⟨hplace', huses'⟩ := h.rank k' rank' hmem'
  have hlt : (compare rank.uses rank'.uses).then (compare rank.place rank'.place) = .lt := hlt
  rw [Before, ← huses, ← huses']
  rcases Ordering.then_eq_lt.mp hlt with hless | ⟨hsame, hless⟩
  · exact .inl (Nat.compare_eq_lt.mp hless)
  · exact .inr ⟨Nat.compare_eq_eq.mp hsame, _, _, hplace, hplace', Nat.compare_eq_lt.mp hless⟩

end Ranking

end CacheServer
