import CacheServer.Eviction.TwoQueues
import CacheServer.Proofs.Eviction.Recency

/-!
The two queues and the ghosts of the first. No key is in two of the three lists, and only insertions
and removals change the keys of the two queues taken together.
-/

namespace CacheServer.TwoQueues

variable {q rest : TwoQueues} {k : Key}

/-- The two queues and the ghosts have no key in common. -/
structure WellFormed (q : TwoQueues) : Prop where
  fresh : q.fresh.WellFormed
  hot : q.hot.WellFormed
  ghosts : q.ghosts.WellFormed
  nodup : (q.fresh.toList ++ q.hot.toList ++ q.ghosts.toList).Nodup

theorem WellFormed.nodup_residents (h : q.WellFormed) : (q.fresh.toList ++ q.hot.toList).Nodup :=
  (List.nodup_append.mp h.nodup).1

theorem WellFormed.not_mem_ghosts (h : q.WellFormed) (hk : k ∈ q.fresh.toList ++ q.hot.toList) :
    k ∉ q.ghosts.toList :=
  fun hghost => List.disjoint_of_nodup_append h.nodup hk hghost

/-- A change that keeps the keys of the three lists together keeps them apart. -/
theorem WellFormed.of_perm {r : TwoQueues} (h : q.WellFormed) (hfresh : r.fresh.WellFormed)
    (hhot : r.hot.WellFormed) (hghosts : r.ghosts.WellFormed)
    (hperm : (r.fresh.toList ++ r.hot.toList ++ r.ghosts.toList).Perm
      (q.fresh.toList ++ q.hot.toList ++ q.ghosts.toList)) : r.WellFormed :=
  ⟨hfresh, hhot, hghosts, hperm.nodup_iff.mpr h.nodup⟩

theorem wellFormed_ofCapacity (capacity : Nat) : (ofCapacity capacity).WellFormed := by
  constructor <;> simp [ofCapacity, Recency.wellFormed_empty]

theorem wellFormed_clear (q : TwoQueues) : q.clear.WellFormed := by
  constructor <;> simp [clear, Recency.wellFormed_clear]

theorem WellFormed.add_of_mem_ghosts (h : q.WellFormed) (hk : k ∈ q.ghosts.toList) :
    q.add k = { q with ghosts := q.ghosts.erase k, hot := q.hot.touch k } := by
  rw [TwoQueues.add, if_pos (h.ghosts.contains_iff.mpr hk)]

theorem WellFormed.add_of_not_mem_ghosts (h : q.WellFormed) (hk : k ∉ q.ghosts.toList) :
    q.add k = { q with fresh := q.fresh.touch k } := by
  rw [TwoQueues.add, if_neg (mt h.ghosts.contains_iff.mp hk)]

theorem WellFormed.add (h : q.WellFormed) (hk : k ∉ q.fresh.toList ++ q.hot.toList) :
    (q.add k).WellFormed ∧ ((q.add k).fresh.toList ++ (q.add k).hot.toList).Perm
      (k :: (q.fresh.toList ++ q.hot.toList)) := by
  have hfresh : k ∉ q.fresh.toList := fun hmem => hk (List.mem_append_left _ hmem)
  have hhot : k ∉ q.hot.toList := fun hmem => hk (List.mem_append_right _ hmem)
  by_cases hghost : k ∈ q.ghosts.toList
  · rw [h.add_of_mem_ghosts hghost]
    have hback : (q.fresh.toList ++ (q.hot.touch k).toList).Perm
        (k :: (q.fresh.toList ++ q.hot.toList)) :=
      ((h.hot.touch_perm hhot).append_left _).trans List.perm_middle
    refine ⟨h.of_perm h.fresh (h.hot.touch k) (h.ghosts.erase k) ?_, hback⟩
    exact perm_move_left hback (h.ghosts.erase_perm hghost)
  · rw [h.add_of_not_mem_ghosts hghost]
    have hnew : ((q.fresh.touch k).toList ++ q.hot.toList).Perm
        (k :: (q.fresh.toList ++ q.hot.toList)) :=
      (h.fresh.touch_perm hfresh).append_right _
    refine ⟨⟨h.fresh.touch k, h.hot, h.ghosts, ?_⟩, hnew⟩
    rw [(hnew.append_right _).nodup_iff]
    refine List.nodup_cons.mpr ⟨?_, h.nodup⟩
    simp [hfresh, hhot, hghost]

theorem WellFormed.use (h : q.WellFormed) (k : Key) :
    (q.use k).WellFormed ∧ ((q.use k).fresh.toList ++ (q.use k).hot.toList).Perm
      (q.fresh.toList ++ q.hot.toList) := by
  unfold TwoQueues.use
  split
  case isTrue hhot =>
    rw [h.hot.contains_iff] at hhot
    have hperm := (h.hot.touch_perm_of_mem hhot).append_left q.fresh.toList
    exact ⟨h.of_perm h.fresh (h.hot.touch k) h.ghosts (hperm.append_right _), hperm⟩
  case isFalse hhot => exact ⟨h, .refl _⟩

theorem WellFormed.erase (h : q.WellFormed) (k : Key) :
    (q.erase k).WellFormed ∧ ((q.erase k).fresh.toList ++ (q.erase k).hot.toList).Perm
      ((q.fresh.toList ++ q.hot.toList).erase k) := by
  have hnodup := h.nodup.erase k
  rw [erase_append_of_nodup h.nodup, erase_append_of_nodup h.nodup_residents] at hnodup
  rw [erase_append_of_nodup h.nodup_residents, ← h.fresh.toList_erase, ← h.hot.toList_erase]
  refine ⟨⟨h.fresh.erase k, h.hot.erase k, h.ghosts.erase k, ?_⟩, .refl _⟩
  rwa [← h.fresh.toList_erase, ← h.hot.toList_erase, ← h.ghosts.toList_erase] at hnodup

/-- Whether the next key to go is one of `fresh`. -/
def takesFresh (q : TwoQueues) : Bool :=
  q.freshCapacity < q.fresh.size || q.hot.isEmpty

/-- The key taken is the oldest of its queue. If that is `fresh`, the key becomes the newest ghost before
ghosts are forgotten. -/
theorem take?_cases (htake : q.take? = some (k, rest)) :
    (∃ fresh, q.takesFresh = true ∧ q.fresh.takeOldest? = some (k, fresh) ∧
      rest = { q with fresh, ghosts := (q.ghosts.touch k).shrinkTo q.ghostCapacity }) ∨
    ∃ hot, q.takesFresh = false ∧ q.hot.takeOldest? = some (k, hot) ∧ rest = { q with hot } := by
  unfold take? at htake
  split at htake
  case isTrue htakes =>
    obtain ⟨⟨found, fresh⟩, hfound, heq⟩ := Option.map_eq_some_iff.mp htake
    obtain ⟨rfl, rfl⟩ := Prod.mk.inj heq
    exact .inl ⟨fresh, htakes, hfound, rfl⟩
  case isFalse htakes =>
    obtain ⟨⟨found, hot⟩, hfound, heq⟩ := Option.map_eq_some_iff.mp htake
    obtain ⟨rfl, rfl⟩ := Prod.mk.inj heq
    exact .inr ⟨hot, Bool.eq_false_iff.mpr htakes, hfound, rfl⟩

/-- The key taken leaves its queue, and all others stay where they are. -/
theorem WellFormed.take? (h : q.WellFormed) (htake : q.take? = some (k, rest)) :
    rest.WellFormed ∧ (q.fresh.toList ++ q.hot.toList).Perm
      (k :: (rest.fresh.toList ++ rest.hot.toList)) := by
  obtain ⟨fresh, -, hfound, rfl⟩ | ⟨hot, -, hfound, rfl⟩ := take?_cases htake
  · obtain ⟨hfresh, hlist⟩ := h.fresh.takeOldest? hfound
    obtain ⟨hghosts, hdrop⟩ := (h.ghosts.touch k).shrinkTo q.ghostCapacity
    have hghost := h.not_mem_ghosts (List.mem_append_left _ (h.fresh.mem_of_takeOldest?_self hfound))
    have hleave : (q.fresh.toList ++ q.hot.toList).Perm (k :: (fresh.toList ++ q.hot.toList)) := by
      rw [hlist, List.cons_append]
    refine ⟨⟨hfresh, h.hot, hghosts, ?_⟩, hleave⟩
    -- Ghosts that are forgotten leave the others where they are.
    have hremembered := perm_move_right hleave (h.ghosts.touch_perm hghost)
    rw [hdrop]
    exact (hremembered.nodup_iff.mpr h.nodup).sublist ((List.drop_sublist _ _).append_left _)
  · obtain ⟨hhot, hlist⟩ := h.hot.takeOldest? hfound
    have hleave : (q.fresh.toList ++ q.hot.toList).Perm (k :: (q.fresh.toList ++ hot.toList)) := by
      rw [hlist]
      exact List.perm_middle
    refine ⟨⟨h.fresh, hhot, h.ghosts, ?_⟩, hleave⟩
    exact (List.nodup_cons.mp ((hleave.append_right _).nodup_iff.mp h.nodup)).2

theorem take?_eq_none_iff : q.take? = none ↔ q.fresh.toList ++ q.hot.toList = [] := by
  have hhot := Recency.isEmpty_iff (r := q.hot)
  unfold TwoQueues.take?
  rw [List.append_eq_nil_iff]
  split
  case isTrue htakes =>
    rw [Option.map_eq_none_iff, Recency.takeOldest?_eq_none_iff]
    rw [Bool.or_eq_true, hhot, decide_eq_true_eq, ← Recency.length_toList] at htakes
    constructor
    · intro hfresh
      simpa [hfresh] using htakes
    · exact And.left
  case isFalse htakes =>
    rw [Option.map_eq_none_iff, Recency.takeOldest?_eq_none_iff]
    rw [Bool.or_eq_true, hhot, not_or] at htakes
    simp [htakes.2]

end CacheServer.TwoQueues
