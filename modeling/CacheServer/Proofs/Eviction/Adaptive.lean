import CacheServer.Eviction.Adaptive
import CacheServer.Proofs.Eviction.Recency

/-!
The two lists of adaptive replacement and their ghosts. No key is in two of the four lists, and only
insertions and removals change the keys of the first two taken together.
-/

namespace CacheServer.Adaptive

variable {a rest : Adaptive} {k : Key}

/-- The four lists have no key in common. -/
structure WellFormed (a : Adaptive) : Prop where
  recent : a.recent.WellFormed
  frequent : a.frequent.WellFormed
  recentGhosts : a.recentGhosts.WellFormed
  frequentGhosts : a.frequentGhosts.WellFormed
  nodup : (a.recent.toList ++ a.frequent.toList ++ a.recentGhosts.toList ++
    a.frequentGhosts.toList).Nodup

theorem WellFormed.count_le (h : a.WellFormed) (k : Key) : a.recent.toList.count k +
    a.frequent.toList.count k + a.recentGhosts.toList.count k + a.frequentGhosts.toList.count k ≤ 1 := by
  simpa only [List.count_append] using List.nodup_iff_count_le_one.mp h.nodup k

theorem WellFormed.nodup_residents (h : a.WellFormed) :
    (a.recent.toList ++ a.frequent.toList).Nodup :=
  (List.nodup_append.mp (List.nodup_append.mp h.nodup).1).1

theorem WellFormed.not_mem_of_mem_recent (h : a.WellFormed) (hk : k ∈ a.recent.toList) :
    k ∉ a.frequent.toList ++ a.recentGhosts.toList ++ a.frequentGhosts.toList := by
  have := h.count_le k
  rw [← List.count_pos_iff] at hk ⊢
  simp only [List.count_append]
  omega

theorem WellFormed.not_mem_of_mem_frequent (h : a.WellFormed) (hk : k ∈ a.frequent.toList) :
    k ∉ a.recent.toList ++ a.recentGhosts.toList ++ a.frequentGhosts.toList := by
  have := h.count_le k
  rw [← List.count_pos_iff] at hk ⊢
  simp only [List.count_append]
  omega

theorem WellFormed.disjoint_ghosts (h : a.WellFormed) :
    a.recentGhosts.toList.Disjoint a.frequentGhosts.toList := by
  intro k hrecent hfrequent
  have := h.count_le k
  rw [← List.count_pos_iff] at hrecent hfrequent
  omega

theorem WellFormed.not_mem_ghosts (h : a.WellFormed)
    (hk : k ∈ a.recent.toList ++ a.frequent.toList) :
    k ∉ a.recentGhosts.toList ∧ k ∉ a.frequentGhosts.toList := by
  have hnodup := h.nodup
  rw [List.append_assoc] at hnodup
  have hnot : k ∉ a.recentGhosts.toList ++ a.frequentGhosts.toList := fun hghost =>
    List.disjoint_of_nodup_append hnodup hk hghost
  rwa [List.mem_append, not_or] at hnot

/-- A change that keeps the keys of the four lists together keeps them apart. -/
theorem WellFormed.of_perm {b : Adaptive} (h : a.WellFormed) (hrecent : b.recent.WellFormed)
    (hfrequent : b.frequent.WellFormed) (hrecentGhosts : b.recentGhosts.WellFormed)
    (hfrequentGhosts : b.frequentGhosts.WellFormed)
    (hperm : (b.recent.toList ++ b.frequent.toList ++ b.recentGhosts.toList ++
      b.frequentGhosts.toList).Perm (a.recent.toList ++ a.frequent.toList ++ a.recentGhosts.toList ++
        a.frequentGhosts.toList)) : b.WellFormed :=
  ⟨hrecent, hfrequent, hrecentGhosts, hfrequentGhosts, hperm.nodup_iff.mpr h.nodup⟩

theorem wellFormed_ofCapacity (capacity : Nat) : (ofCapacity capacity).WellFormed := by
  constructor <;> simp [ofCapacity, Recency.wellFormed_empty]

theorem wellFormed_clear (a : Adaptive) : a.clear.WellFormed := by
  constructor <;> simp [clear, Recency.wellFormed_clear]

theorem WellFormed.add_of_mem_recentGhosts (h : a.WellFormed) (hk : k ∈ a.recentGhosts.toList) :
    a.add k = { a with
      target := min (a.target + shift a.recentGhosts a.frequentGhosts) a.capacity
      recentGhosts := a.recentGhosts.erase k
      frequent := a.frequent.touch k } := by
  rw [Adaptive.add, if_pos (h.recentGhosts.contains_iff.mpr hk)]

theorem WellFormed.add_of_mem_frequentGhosts (h : a.WellFormed) (hk : k ∈ a.frequentGhosts.toList) :
    a.add k = { a with
      target := a.target - shift a.frequentGhosts a.recentGhosts
      frequentGhosts := a.frequentGhosts.erase k
      frequent := a.frequent.touch k } := by
  have hother : k ∉ a.recentGhosts.toList := fun hk' => h.disjoint_ghosts hk' hk
  rw [Adaptive.add, if_neg (mt h.recentGhosts.contains_iff.mp hother),
    if_pos (h.frequentGhosts.contains_iff.mpr hk)]

theorem WellFormed.add_of_not_mem_ghosts (h : a.WellFormed) (hrecent : k ∉ a.recentGhosts.toList)
    (hfrequent : k ∉ a.frequentGhosts.toList) : a.add k = { a with recent := a.recent.touch k } := by
  rw [Adaptive.add, if_neg (mt h.recentGhosts.contains_iff.mp hrecent),
    if_neg (mt h.frequentGhosts.contains_iff.mp hfrequent)]

theorem WellFormed.add (h : a.WellFormed) (hk : k ∉ a.recent.toList ++ a.frequent.toList) :
    (a.add k).WellFormed ∧ ((a.add k).recent.toList ++ (a.add k).frequent.toList).Perm
      (k :: (a.recent.toList ++ a.frequent.toList)) := by
  have hrecent : k ∉ a.recent.toList := fun hmem => hk (List.mem_append_left _ hmem)
  have hfrequent : k ∉ a.frequent.toList := fun hmem => hk (List.mem_append_right _ hmem)
  have hback : (a.recent.toList ++ (a.frequent.touch k).toList).Perm
      (k :: (a.recent.toList ++ a.frequent.toList)) :=
    ((h.frequent.touch_perm hfrequent).append_left _).trans List.perm_middle
  by_cases hrecentGhost : k ∈ a.recentGhosts.toList
  · rw [h.add_of_mem_recentGhosts hrecentGhost]
    refine ⟨h.of_perm h.recent (h.frequent.touch k) (h.recentGhosts.erase k) h.frequentGhosts ?_, hback⟩
    exact (perm_move_left hback (h.recentGhosts.erase_perm hrecentGhost)).append_right _
  · by_cases hfrequentGhost : k ∈ a.frequentGhosts.toList
    · rw [h.add_of_mem_frequentGhosts hfrequentGhost]
      refine ⟨h.of_perm h.recent (h.frequent.touch k) h.recentGhosts (h.frequentGhosts.erase k) ?_, hback⟩
      exact perm_move_left (hback.append_right _) (h.frequentGhosts.erase_perm hfrequentGhost)
    · rw [h.add_of_not_mem_ghosts hrecentGhost hfrequentGhost]
      have hnew : ((a.recent.touch k).toList ++ a.frequent.toList).Perm
          (k :: (a.recent.toList ++ a.frequent.toList)) :=
        (h.recent.touch_perm hrecent).append_right _
      refine ⟨⟨h.recent.touch k, h.frequent, h.recentGhosts, h.frequentGhosts, ?_⟩, hnew⟩
      rw [((hnew.append_right _).append_right _).nodup_iff]
      refine List.nodup_cons.mpr ⟨?_, h.nodup⟩
      simp [hrecent, hfrequent, hrecentGhost, hfrequentGhost]

/-- A use moves a key from the first list to the second, or within the second. -/
theorem WellFormed.use (h : a.WellFormed) (k : Key) :
    (a.use k).WellFormed ∧ ((a.use k).recent.toList ++ (a.use k).frequent.toList).Perm
      (a.recent.toList ++ a.frequent.toList) := by
  unfold Adaptive.use
  split
  case isTrue hrecent =>
    rw [h.recent.contains_iff] at hrecent
    have hfrequent : k ∉ a.frequent.toList := fun hmem =>
      List.disjoint_of_nodup_append h.nodup_residents hrecent hmem
    have hperm := perm_move_right (h.recent.erase_perm hrecent) (h.frequent.touch_perm hfrequent)
    refine ⟨h.of_perm (h.recent.erase k) (h.frequent.touch k) h.recentGhosts h.frequentGhosts ?_, hperm⟩
    exact (hperm.append_right _).append_right _
  case isFalse hrecent =>
    split
    case isTrue hfrequent =>
      rw [h.frequent.contains_iff] at hfrequent
      have hperm := (h.frequent.touch_perm_of_mem hfrequent).append_left a.recent.toList
      refine ⟨h.of_perm h.recent (h.frequent.touch k) h.recentGhosts h.frequentGhosts ?_, hperm⟩
      exact (hperm.append_right _).append_right _
    case isFalse hfrequent => exact ⟨h, .refl _⟩

theorem WellFormed.erase (h : a.WellFormed) (k : Key) :
    (a.erase k).WellFormed ∧ ((a.erase k).recent.toList ++ (a.erase k).frequent.toList).Perm
      ((a.recent.toList ++ a.frequent.toList).erase k) := by
  have hghosts := (List.nodup_append.mp h.nodup).1
  have hnodup := h.nodup.erase k
  rw [erase_append_of_nodup h.nodup, erase_append_of_nodup hghosts,
    erase_append_of_nodup h.nodup_residents] at hnodup
  rw [erase_append_of_nodup h.nodup_residents, ← h.recent.toList_erase, ← h.frequent.toList_erase]
  refine ⟨⟨h.recent.erase k, h.frequent.erase k, h.recentGhosts.erase k, h.frequentGhosts.erase k, ?_⟩,
    .refl _⟩
  rwa [← h.recent.toList_erase, ← h.frequent.toList_erase, ← h.recentGhosts.toList_erase,
    ← h.frequentGhosts.toList_erase] at hnodup

@[simp] theorem recent_dropGhost (a : Adaptive) : a.dropGhost.recent = a.recent := by
  unfold dropGhost
  split <;> rfl

@[simp] theorem frequent_dropGhost (a : Adaptive) : a.dropGhost.frequent = a.frequent := by
  unfold dropGhost
  split <;> rfl

@[simp] theorem target_dropGhost (a : Adaptive) : a.dropGhost.target = a.target := by
  unfold dropGhost
  split <;> rfl

@[simp] theorem capacity_dropGhost (a : Adaptive) : a.dropGhost.capacity = a.capacity := by
  unfold dropGhost
  split <;> rfl

theorem WellFormed.dropGhost (h : a.WellFormed) : a.dropGhost.WellFormed := by
  unfold Adaptive.dropGhost
  split
  · obtain ⟨hghosts, htail⟩ := h.recentGhosts.dropOldest
    refine ⟨h.recent, h.frequent, hghosts, h.frequentGhosts, ?_⟩
    rw [htail]
    exact h.nodup.sublist (((List.tail_sublist _).append_left _).append_right _)
  · obtain ⟨hghosts, htail⟩ := h.frequentGhosts.dropOldest
    refine ⟨h.recent, h.frequent, h.recentGhosts, hghosts, ?_⟩
    rw [htail]
    exact h.nodup.sublist ((List.tail_sublist _).append_left _)

/-- What forgetting one ghost keeps is kept when ghosts are trimmed. -/
theorem trimGhosts_induction {P : Adaptive → Prop} (hdrop : ∀ a, P a → P a.dropGhost) (ha : P a) :
    P a.trimGhosts := by
  unfold trimGhosts
  induction a.ghostCount - a.capacity with
  | zero => exact ha
  | succ count ih => exact hdrop _ ih

@[simp] theorem recent_trimGhosts (a : Adaptive) : a.trimGhosts.recent = a.recent :=
  trimGhosts_induction (P := fun b => b.recent = a.recent) (fun b => (recent_dropGhost b).trans) rfl

@[simp] theorem frequent_trimGhosts (a : Adaptive) : a.trimGhosts.frequent = a.frequent :=
  trimGhosts_induction (P := fun b => b.frequent = a.frequent) (fun b => (frequent_dropGhost b).trans) rfl

@[simp] theorem target_trimGhosts (a : Adaptive) : a.trimGhosts.target = a.target :=
  trimGhosts_induction (P := fun b => b.target = a.target) (fun b => (target_dropGhost b).trans) rfl

@[simp] theorem capacity_trimGhosts (a : Adaptive) : a.trimGhosts.capacity = a.capacity :=
  trimGhosts_induction (P := fun b => b.capacity = a.capacity) (fun b => (capacity_dropGhost b).trans) rfl

theorem WellFormed.trimGhosts (h : a.WellFormed) : a.trimGhosts.WellFormed :=
  trimGhosts_induction (fun _ => WellFormed.dropGhost) h

theorem takesRecent_iff : a.takesRecent = true ↔
    a.recent.toList ≠ [] ∧ (a.target < a.recent.size ∨ a.frequent.toList = []) := by
  simp [takesRecent, ← Recency.isEmpty_iff]

/-- The key taken is the oldest of `recent` or of `frequent`, as `takesRecent` tells, and becomes the
newest ghost of its list before ghosts are trimmed. -/
theorem take?_cases (htake : a.take? = some (k, rest)) :
    (∃ recent, a.takesRecent = true ∧ a.recent.takeOldest? = some (k, recent) ∧
      rest = trimGhosts { a with recent, recentGhosts := a.recentGhosts.touch k }) ∨
    ∃ frequent, a.takesRecent = false ∧ a.frequent.takeOldest? = some (k, frequent) ∧
      rest = trimGhosts { a with frequent, frequentGhosts := a.frequentGhosts.touch k } := by
  unfold take? at htake
  split at htake
  case isTrue htakes =>
    obtain ⟨⟨found, recent⟩, hfound, heq⟩ := Option.map_eq_some_iff.mp htake
    obtain ⟨rfl, rfl⟩ := Prod.mk.inj heq
    exact .inl ⟨recent, htakes, hfound, rfl⟩
  case isFalse htakes =>
    obtain ⟨⟨found, frequent⟩, hfound, heq⟩ := Option.map_eq_some_iff.mp htake
    obtain ⟨rfl, rfl⟩ := Prod.mk.inj heq
    exact .inr ⟨frequent, Bool.eq_false_iff.mpr htakes, hfound, rfl⟩

/-- The key taken leaves its list, and all others stay where they are. -/
theorem WellFormed.take? (h : a.WellFormed) (htake : a.take? = some (k, rest)) :
    rest.WellFormed ∧ (a.recent.toList ++ a.frequent.toList).Perm
      (k :: (rest.recent.toList ++ rest.frequent.toList)) := by
  obtain ⟨recent, -, hfound, rfl⟩ | ⟨frequent, -, hfound, rfl⟩ := take?_cases htake
  · obtain ⟨hrecent, hlist⟩ := h.recent.takeOldest? hfound
    have hmem := h.recent.mem_of_takeOldest?_self hfound
    have hghost := (h.not_mem_ghosts (List.mem_append_left _ hmem)).1
    have hleave : (a.recent.toList ++ a.frequent.toList).Perm (k :: (recent.toList ++ a.frequent.toList)) := by
      rw [hlist, List.cons_append]
    rw [recent_trimGhosts, frequent_trimGhosts]
    refine ⟨trimGhosts (h.of_perm hrecent h.frequent (h.recentGhosts.touch k) h.frequentGhosts ?_), hleave⟩
    exact (perm_move_right hleave (h.recentGhosts.touch_perm hghost)).append_right _
  · obtain ⟨hfrequent, hlist⟩ := h.frequent.takeOldest? hfound
    have hmem := h.frequent.mem_of_takeOldest?_self hfound
    have hghost := (h.not_mem_ghosts (List.mem_append_right _ hmem)).2
    have hleave : (a.recent.toList ++ a.frequent.toList).Perm (k :: (a.recent.toList ++ frequent.toList)) := by
      rw [hlist]
      exact List.perm_middle
    rw [recent_trimGhosts, frequent_trimGhosts]
    refine ⟨trimGhosts (h.of_perm h.recent hfrequent h.recentGhosts (h.frequentGhosts.touch k) ?_), hleave⟩
    exact perm_move_right (hleave.append_right _) (h.frequentGhosts.touch_perm hghost)

theorem take?_eq_none_iff : a.take? = none ↔ a.recent.toList ++ a.frequent.toList = [] := by
  have hrecent := Recency.isEmpty_iff (r := a.recent)
  have hfrequent := Recency.isEmpty_iff (r := a.frequent)
  unfold Adaptive.take? takesRecent
  rw [List.append_eq_nil_iff]
  split
  case isTrue htakes =>
    rw [Option.map_eq_none_iff, Recency.takeOldest?_eq_none_iff]
    simp only [Bool.and_eq_true, Bool.not_eq_true'] at htakes
    simp [← hrecent, htakes.1]
  case isFalse htakes =>
    rw [Option.map_eq_none_iff, Recency.takeOldest?_eq_none_iff, ← hrecent, ← hfrequent]
    cases hempty : a.recent.isEmpty with
    | false => simp_all
    | true => simp

end CacheServer.Adaptive
