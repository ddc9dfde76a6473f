import CacheServer.Proofs.Eviction.Policy

/-!
Ghosts, the keys that the rules ARC and 2QUEUE remember after they have gone. There may be only so many of
them. As a key goes and becomes a ghost, an older ghost may have to be forgotten.
-/

namespace CacheServer

namespace Adaptive

variable {a b rest : Adaptive} {k : Key} {capacity : Nat}

theorem ghostCount_dropGhost (a : Adaptive) : a.dropGhost.ghostCount = a.ghostCount - 1 := by
  unfold dropGhost ghostCount
  split
  case isTrue hlonger =>
    dsimp only
    rw [Recency.size_dropOldest]
    omega
  case isFalse hshorter =>
    dsimp only
    rw [Recency.size_dropOldest]
    omega

/-- The loop that forgets ghosts, one in each round, until no more than the capacity are left. -/
inductive Trims : Adaptive → Adaptive → Prop where
  | done {a : Adaptive} (h : a.ghostCount ≤ a.capacity) : Trims a a
  | drop {a b : Adaptive} (h : a.capacity < a.ghostCount) (rest : Trims a.dropGhost b) : Trims a b

theorem trimGhosts_of_le (h : a.ghostCount ≤ a.capacity) : a.trimGhosts = a := by
  rw [trimGhosts, Nat.sub_eq_zero_of_le h]
  rfl

theorem excess_dropGhost (a : Adaptive) :
    a.dropGhost.ghostCount - a.dropGhost.capacity = a.ghostCount - a.capacity - 1 := by
  rw [ghostCount_dropGhost, capacity_dropGhost, Nat.sub_right_comm]

theorem trimGhosts_of_eq_succ (h : a.ghostCount = a.capacity + 1) : a.trimGhosts = a.dropGhost := by
  rw [trimGhosts, h, Nat.add_sub_cancel_left]
  rfl

/-- The loop ends, and only with the trimmed ghosts. -/
theorem trims_iff : a.Trims b ↔ b = a.trimGhosts := by
  constructor
  · intro htrims
    induction htrims with
    | done h => exact (trimGhosts_of_le h).symm
    | drop h _ ih =>
      rw [ih]
      exact repeat_excess_step (fun a : Adaptive => a.ghostCount - a.capacity) excess_dropGhost
        (Nat.sub_pos_of_lt h)
  · rintro rfl
    refine repeat_excess_induction (fun a : Adaptive => a.ghostCount - a.capacity) excess_dropGhost
      (fun a ha => ?_) (fun a b ha hrest => ?_) a
    · exact .done (by omega)
    · exact .drop (by omega) hrest

theorem Trims.ghostCount_le (h : a.Trims b) : b.ghostCount ≤ b.capacity := by
  induction h with
  | done h => exact h
  | drop _ _ ih => exact ih

theorem ghostCount_trimGhosts_le (a : Adaptive) : a.trimGhosts.ghostCount ≤ a.capacity := by
  have hle := (trims_iff.mpr (rfl : a.trimGhosts = a.trimGhosts)).ghostCount_le
  rwa [capacity_trimGhosts] at hle

/-- There are no more ghosts than the capacity, and the target is no larger. -/
structure Bounded (capacity : Nat) (a : Adaptive) : Prop where
  capacity_eq : a.capacity = capacity
  ghosts : a.ghostCount ≤ capacity
  target : a.target ≤ capacity

theorem bounded_ofCapacity (capacity : Nat) : (ofCapacity capacity).Bounded capacity :=
  ⟨rfl, Nat.zero_le _, Nat.zero_le _⟩

theorem Bounded.add (hb : a.Bounded capacity) (h : a.WellFormed) (k : Key) :
    (a.add k).Bounded capacity := by
  obtain ⟨rfl, hghosts, htarget⟩ := hb
  unfold ghostCount at hghosts
  by_cases hrecent : k ∈ a.recentGhosts.toList
  · have hsize := h.recentGhosts.size_erase_le k
    rw [h.add_of_mem_recentGhosts hrecent]
    refine ⟨rfl, ?_, Nat.min_le_right _ _⟩
    dsimp only [ghostCount]
    omega
  · by_cases hfrequent : k ∈ a.frequentGhosts.toList
    · have hsize := h.frequentGhosts.size_erase_le k
      rw [h.add_of_mem_frequentGhosts hfrequent]
      refine ⟨rfl, ?_, Nat.le_trans (Nat.sub_le _ _) htarget⟩
      dsimp only [ghostCount]
      omega
    · rw [h.add_of_not_mem_ghosts hrecent hfrequent]
      exact ⟨rfl, hghosts, htarget⟩

theorem Bounded.use (hb : a.Bounded capacity) (k : Key) : (a.use k).Bounded capacity := by
  unfold Adaptive.use
  split
  · exact ⟨hb.capacity_eq, hb.ghosts, hb.target⟩
  · split
    · exact ⟨hb.capacity_eq, hb.ghosts, hb.target⟩
    · exact hb

theorem Bounded.erase (hb : a.Bounded capacity) (h : a.WellFormed) (k : Key) :
    (a.erase k).Bounded capacity := by
  refine ⟨hb.capacity_eq, ?_, hb.target⟩
  exact Nat.le_trans (Nat.add_le_add (h.recentGhosts.size_erase_le k) (h.frequentGhosts.size_erase_le k))
    hb.ghosts

theorem Bounded.take? (hb : a.Bounded capacity) (htake : a.take? = some (k, rest)) :
    rest.Bounded capacity := by
  obtain ⟨rfl, -, htarget⟩ := hb
  obtain ⟨recent, -, -, rfl⟩ | ⟨frequent, -, -, rfl⟩ := take?_cases htake
  · exact ⟨capacity_trimGhosts _, ghostCount_trimGhosts_le _, by rwa [target_trimGhosts]⟩
  · exact ⟨capacity_trimGhosts _, ghostCount_trimGhosts_le _, by rwa [target_trimGhosts]⟩

theorem Bounded.clear (hb : a.Bounded capacity) : a.clear.Bounded capacity := by
  refine ⟨hb.capacity_eq, ?_, Nat.zero_le _⟩
  simp [ghostCount, Adaptive.clear, ← Recency.length_toList]

/-- The ghost that is forgotten as the next key goes, if one is. The key makes its list of ghosts longer by
one, and of the longer list then the oldest ghost is forgotten. -/
def forgotten? (a : Adaptive) : Option Key :=
  if a.ghostCount < a.capacity then none
  else if a.takesRecent then
    if a.frequentGhosts.size ≤ a.recentGhosts.size + 1 then a.recentGhosts.oldest?
    else a.frequentGhosts.oldest?
  else
    if a.frequentGhosts.size + 1 ≤ a.recentGhosts.size then a.recentGhosts.oldest?
    else a.frequentGhosts.oldest?

/-- Of the ghosts that were there before a key went, only the one that is forgotten is not there
afterwards. -/
theorem WellFormed.mem_ghosts_of_take? (h : a.WellFormed) (hghosts : a.ghostCount ≤ a.capacity)
    {victim : Key} (htake : a.take? = some (victim, rest)) (hne : k ≠ victim) :
    (k ∈ rest.recentGhosts.toList ↔ k ∈ a.recentGhosts.toList ∧ a.forgotten? ≠ some k) ∧
      (k ∈ rest.frequentGhosts.toList ↔ k ∈ a.frequentGhosts.toList ∧ a.forgotten? ≠ some k) := by
  have hrecent : k ∈ a.recentGhosts.toList → a.frequentGhosts.oldest? ≠ some k := fun hk =>
    Recency.oldest?_ne_of_not_mem (h.disjoint_ghosts hk)
  have hfrequent : k ∈ a.frequentGhosts.toList → a.recentGhosts.oldest? ≠ some k := fun hk =>
    Recency.oldest?_ne_of_not_mem fun hk' => h.disjoint_ghosts hk' hk
  unfold ghostCount at hghosts
  obtain ⟨recent, htakes, hfound, rfl⟩ | ⟨frequent, htakes, hfound, rfl⟩ := take?_cases htake
  · have hmem := h.recent.mem_of_takeOldest?_self hfound
    have hvictim := (h.not_mem_ghosts (List.mem_append_left _ hmem)).1
    have hsize := h.recentGhosts.size_touch_of_not_mem hvictim
    by_cases hroom : a.ghostCount < a.capacity
    · rw [trimGhosts_of_le (by dsimp only [ghostCount] at hroom ⊢; omega), forgotten?, if_pos hroom]
      simp [h.recentGhosts.mem_touch_of_ne hne]
    · -- The ghosts are one too many, so the loop makes one round.
      rw [trimGhosts_of_eq_succ (by dsimp only [ghostCount] at hroom ⊢; omega), forgotten?, if_neg hroom,
        if_pos htakes, Adaptive.dropGhost]
      dsimp only
      rw [hsize]
      split
      · exact ⟨h.recentGhosts.mem_dropOldest_touch hvictim hne, (and_iff_left_of_imp hfrequent).symm⟩
      · refine ⟨?_, h.frequentGhosts.mem_dropOldest⟩
        rw [h.recentGhosts.mem_touch_of_ne hne]
        exact (and_iff_left_of_imp hrecent).symm
  · have hmem := h.frequent.mem_of_takeOldest?_self hfound
    have hvictim := (h.not_mem_ghosts (List.mem_append_right _ hmem)).2
    have hsize := h.frequentGhosts.size_touch_of_not_mem hvictim
    by_cases hroom : a.ghostCount < a.capacity
    · rw [trimGhosts_of_le (by dsimp only [ghostCount] at hroom ⊢; omega), forgotten?, if_pos hroom]
      simp [h.frequentGhosts.mem_touch_of_ne hne]
    · -- As above, with the lists in each other's place.
      rw [trimGhosts_of_eq_succ (by dsimp only [ghostCount] at hroom ⊢; omega), forgotten?, if_neg hroom,
        if_neg (Bool.eq_false_iff.mp htakes), Adaptive.dropGhost]
      dsimp only
      rw [hsize]
      split
      · refine ⟨h.recentGhosts.mem_dropOldest, ?_⟩
        rw [h.frequentGhosts.mem_touch_of_ne hne]
        exact (and_iff_left_of_imp hfrequent).symm
      · refine ⟨(and_iff_left_of_imp hrecent).symm, ?_⟩
        exact h.frequentGhosts.mem_dropOldest_touch hvictim hne

/-- For a ghost of `recent` the target grows, unless it is as large as it can be. -/
theorem WellFormed.target_add_of_mem_recentGhosts (h : a.WellFormed)
    (hk : k ∈ a.recentGhosts.toList) :
    a.target < (a.add k).target ∨ (a.add k).target = a.capacity := by
  have hshift : 1 ≤ shift a.recentGhosts a.frequentGhosts := Nat.le_max_left _ _
  rw [h.add_of_mem_recentGhosts hk]
  dsimp only
  omega

/-- For a ghost of `frequent` the target shrinks, unless it is zero. -/
theorem WellFormed.target_add_of_mem_frequentGhosts (h : a.WellFormed)
    (hk : k ∈ a.frequentGhosts.toList) :
    (a.add k).target < a.target ∨ (a.add k).target = 0 := by
  have hshift : 1 ≤ shift a.frequentGhosts a.recentGhosts := Nat.le_max_left _ _
  rw [h.add_of_mem_frequentGhosts hk]
  dsimp only
  omega

theorem target_of_take? (htake : a.take? = some (k, rest)) : rest.target = a.target := by
  obtain ⟨recent, -, -, rfl⟩ | ⟨frequent, -, -, rfl⟩ := take?_cases htake
  · rw [target_trimGhosts]
  · rw [target_trimGhosts]

theorem WellFormed.ghosts_add_subset (h : a.WellFormed) (k : Key) :
    (a.add k).recentGhosts.toList ++ (a.add k).frequentGhosts.toList ⊆
      a.recentGhosts.toList ++ a.frequentGhosts.toList := by
  intro k' hk'
  rw [List.mem_append] at hk' ⊢
  by_cases hrecent : k ∈ a.recentGhosts.toList
  · rw [h.add_of_mem_recentGhosts hrecent, h.recentGhosts.toList_erase] at hk'
    exact hk'.imp_left List.mem_of_mem_erase
  · by_cases hfrequent : k ∈ a.frequentGhosts.toList
    · rw [h.add_of_mem_frequentGhosts hfrequent, h.frequentGhosts.toList_erase] at hk'
      exact hk'.imp_right List.mem_of_mem_erase
    · rwa [h.add_of_not_mem_ghosts hrecent hfrequent] at hk'

/-- A ghost that comes back is in `frequent`. -/
theorem WellFormed.mem_frequent_add (h : a.WellFormed) (hk : k ∉ a.frequent.toList) :
    k ∈ (a.add k).frequent.toList ↔ k ∈ a.recentGhosts.toList ++ a.frequentGhosts.toList := by
  rw [List.mem_append]
  by_cases hrecent : k ∈ a.recentGhosts.toList
  · simp [h.add_of_mem_recentGhosts hrecent, h.frequent.toList_touch, hrecent]
  · by_cases hfrequent : k ∈ a.frequentGhosts.toList
    · simp [h.add_of_mem_frequentGhosts hfrequent, h.frequent.toList_touch, hfrequent]
    · simp [h.add_of_not_mem_ghosts hrecent hfrequent, hk, hrecent, hfrequent]

/-- Any other key that comes is in `recent`, and the target stays. -/
theorem WellFormed.mem_recent_add (h : a.WellFormed)
    (hk : k ∉ a.recentGhosts.toList ++ a.frequentGhosts.toList) :
    k ∈ (a.add k).recent.toList ∧ (a.add k).target = a.target := by
  rw [List.mem_append, not_or] at hk
  simp [h.add_of_not_mem_ghosts hk.1 hk.2, h.recent.toList_touch]

end Adaptive

namespace TwoQueues

variable {q rest : TwoQueues} {k : Key} {capacity : Nat}

/-- The shares of the capacity are those of the rule, and there are no more ghosts than their share. -/
structure Bounded (capacity : Nat) (q : TwoQueues) : Prop where
  freshCapacity : q.freshCapacity = max 1 (capacity / 4)
  ghostCapacity : q.ghostCapacity = max 1 (capacity / 2)
  ghosts : q.ghosts.size ≤ q.ghostCapacity

theorem bounded_ofCapacity (capacity : Nat) : (ofCapacity capacity).Bounded capacity :=
  ⟨rfl, rfl, Nat.zero_le _⟩

theorem Bounded.add (hb : q.Bounded capacity) (h : q.WellFormed) (k : Key) :
    (q.add k).Bounded capacity := by
  by_cases hk : k ∈ q.ghosts.toList
  · rw [h.add_of_mem_ghosts hk]
    exact ⟨hb.freshCapacity, hb.ghostCapacity, Nat.le_trans (h.ghosts.size_erase_le k) hb.ghosts⟩
  · rw [h.add_of_not_mem_ghosts hk]
    exact ⟨hb.freshCapacity, hb.ghostCapacity, hb.ghosts⟩

theorem Bounded.use (hb : q.Bounded capacity) (k : Key) : (q.use k).Bounded capacity := by
  unfold TwoQueues.use
  split
  · exact ⟨hb.freshCapacity, hb.ghostCapacity, hb.ghosts⟩
  · exact hb

theorem Bounded.erase (hb : q.Bounded capacity) (h : q.WellFormed) (k : Key) :
    (q.erase k).Bounded capacity :=
  ⟨hb.freshCapacity, hb.ghostCapacity, Nat.le_trans (h.ghosts.size_erase_le k) hb.ghosts⟩

theorem Bounded.take? (hb : q.Bounded capacity) (h : q.WellFormed)
    (htake : q.take? = some (k, rest)) : rest.Bounded capacity := by
  obtain ⟨fresh, -, -, rfl⟩ | ⟨hot, -, -, rfl⟩ := take?_cases htake
  · refine ⟨hb.freshCapacity, hb.ghostCapacity, ?_⟩
    rw [← Recency.length_toList, ((h.ghosts.touch k).shrinkTo q.ghostCapacity).2, List.length_drop,
      Recency.length_toList]
    dsimp only
    omega
  · exact ⟨hb.freshCapacity, hb.ghostCapacity, hb.ghosts⟩

theorem Bounded.clear (hb : q.Bounded capacity) : q.clear.Bounded capacity := by
  refine ⟨hb.freshCapacity, hb.ghostCapacity, ?_⟩
  simp [TwoQueues.clear, ← Recency.length_toList]

/-- The ghost that is forgotten as the next key goes, if one is: the oldest, if that key goes from `fresh`
and there is no room for its ghost beside the others. -/
def forgotten? (q : TwoQueues) : Option Key :=
  if q.takesFresh && q.ghostCapacity ≤ q.ghosts.size then q.ghosts.oldest? else none

/-- Of the ghosts that were there before a key went, only the one that is forgotten is not there
afterwards. -/
theorem WellFormed.mem_ghosts_of_take? (h : q.WellFormed) (hghosts : q.ghosts.size ≤ q.ghostCapacity)
    {victim : Key} (htake : q.take? = some (victim, rest)) (hne : k ≠ victim) :
    k ∈ rest.ghosts.toList ↔ k ∈ q.ghosts.toList ∧ q.forgotten? ≠ some k := by
  obtain ⟨fresh, htakes, hfound, rfl⟩ | ⟨hot, htakes, -, rfl⟩ := take?_cases htake
  · have hvictim := h.not_mem_ghosts (List.mem_append_left _ (h.fresh.mem_of_takeOldest?_self hfound))
    have hsize := h.ghosts.size_touch_of_not_mem hvictim
    rw [forgotten?, htakes, Bool.true_and]
    dsimp only
    by_cases hroom : q.ghostCapacity ≤ q.ghosts.size
    · rw [Recency.shrinkTo_of_size_eq_succ (by omega), if_pos (decide_eq_true hroom)]
      exact h.ghosts.mem_dropOldest_touch hvictim hne
    · rw [Recency.shrinkTo_of_le (by omega), h.ghosts.mem_touch_of_ne hne,
        if_neg (by simpa using hroom)]
      simp
  · simp [forgotten?, htakes]

theorem WellFormed.ghosts_add_subset (h : q.WellFormed) (k : Key) :
    (q.add k).ghosts.toList ⊆ q.ghosts.toList := by
  unfold TwoQueues.add
  split
  · rw [h.ghosts.toList_erase]
    exact List.erase_subset
  · exact List.Subset.refl _

/-- A ghost that comes back is in `hot`. -/
theorem WellFormed.mem_hot_add (h : q.WellFormed) (hk : k ∉ q.hot.toList) :
    k ∈ (q.add k).hot.toList ↔ k ∈ q.ghosts.toList := by
  by_cases hghost : k ∈ q.ghosts.toList
  · simp [h.add_of_mem_ghosts hghost, h.hot.toList_touch, hghost]
  · simp [h.add_of_not_mem_ghosts hghost, hk, hghost]

/-- Any other key that comes is in `fresh`. -/
theorem WellFormed.mem_fresh_add (h : q.WellFormed) (hk : k ∉ q.fresh.toList) :
    k ∈ (q.add k).fresh.toList ↔ k ∉ q.ghosts.toList := by
  by_cases hghost : k ∈ q.ghosts.toList
  · simp [h.add_of_mem_ghosts hghost, hk, hghost]
  · simp [h.add_of_not_mem_ghosts hghost, h.fresh.toList_touch, hghost]

end TwoQueues

namespace Policy

variable {p rest : Policy} {k : Key} {capacity : Nat}

/-- The keys that are remembered although they are gone. -/
def ghosts : Policy → List Key
  | arc a => a.recentGhosts.toList ++ a.frequentGhosts.toList
  | twoQueues q => q.ghosts.toList
  | _ => []

/-- There are no more ghosts than the rule allows for a store of the given capacity. -/
def Bounded (capacity : Nat) : Policy → Prop
  | arc a => a.Bounded capacity
  | twoQueues q => q.Bounded capacity
  | _ => True

theorem bounded_ofRule (hash : RowHash) (capacity : Nat) (rule : EvictionRule) :
    (ofRule hash capacity rule).Bounded capacity := by
  cases rule with
  | arc => exact Adaptive.bounded_ofCapacity capacity
  | twoQueues => exact TwoQueues.bounded_ofCapacity capacity
  | _ => trivial

theorem Bounded.inserted (hb : p.Bounded capacity) (h : p.WellFormed) (k : Key) :
    (p.inserted k).Bounded capacity := by
  cases p with
  | arc a => exact Adaptive.Bounded.add hb h k
  | twoQueues q => exact TwoQueues.Bounded.add hb h k
  | _ => trivial

theorem Bounded.used (hb : p.Bounded capacity) (k : Key) : (p.used k).Bounded capacity := by
  cases p with
  | arc a => exact Adaptive.Bounded.use hb k
  | twoQueues q => exact TwoQueues.Bounded.use hb k
  | _ => trivial

theorem Bounded.removed (hb : p.Bounded capacity) (h : p.WellFormed) (k : Key) :
    (p.removed k).Bounded capacity := by
  cases p with
  | arc a => exact Adaptive.Bounded.erase hb h k
  | twoQueues q => exact TwoQueues.Bounded.erase hb h k
  | _ => trivial

theorem Bounded.victim? (hb : p.Bounded capacity) (h : p.WellFormed) {draw : Nat}
    (hvictim : p.victim? draw = some (k, rest)) : rest.Bounded capacity := by
  cases p with
  | none => cases hvictim
  | arc a =>
    obtain ⟨rest, htake, rfl⟩ := exists_taken hvictim
    exact Adaptive.Bounded.take? hb htake
  | twoQueues q =>
    obtain ⟨rest, htake, rfl⟩ := exists_taken hvictim
    exact TwoQueues.Bounded.take? hb h htake
  | _ =>
    obtain ⟨-, -, rfl⟩ := exists_taken hvictim
    trivial

theorem Bounded.cleared (hb : p.Bounded capacity) : p.cleared.Bounded capacity := by
  cases p with
  | arc a => exact Adaptive.Bounded.clear hb
  | twoQueues q => exact TwoQueues.Bounded.clear hb
  | _ => trivial

/-- Only the rules ARC and 2QUEUE remember keys. -/
theorem ghosts_eq_nil (hrule : p.rule ∉ [.arc, .twoQueues]) : p.ghosts = [] := by
  cases p with
  | arc a => simp [rule] at hrule
  | twoQueues q => simp [rule] at hrule
  | _ => rfl

theorem WellFormed.ghosts_inserted_subset (h : p.WellFormed) (k : Key) :
    (p.inserted k).ghosts ⊆ p.ghosts := by
  cases p with
  | arc a => exact Adaptive.WellFormed.ghosts_add_subset h k
  | twoQueues q => exact TwoQueues.WellFormed.ghosts_add_subset h k
  | _ => exact List.nil_subset _

theorem ghosts_used (k : Key) (p : Policy) : (p.used k).ghosts = p.ghosts := by
  cases p with
  | arc a =>
    simp only [used, Adaptive.use]
    split
    · rfl
    · split <;> rfl
  | twoQueues q =>
    simp only [used, TwoQueues.use]
    split <;> rfl
  | _ => rfl

theorem WellFormed.ghosts_removed_subset (h : p.WellFormed) (k : Key) :
    (p.removed k).ghosts ⊆ p.ghosts := by
  intro k' hk'
  cases p with
  | arc a =>
    have herase : ((arc a).removed k).ghosts =
        a.recentGhosts.toList.erase k ++ a.frequentGhosts.toList.erase k := by
      rw [← h.recentGhosts.toList_erase, ← h.frequentGhosts.toList_erase]
      rfl
    rw [herase, List.mem_append] at hk'
    exact List.mem_append.mpr (hk'.imp List.mem_of_mem_erase List.mem_of_mem_erase)
  | twoQueues q =>
    have herase : ((twoQueues q).removed k).ghosts = q.ghosts.toList.erase k := h.ghosts.toList_erase k
    rw [herase] at hk'
    exact List.mem_of_mem_erase hk'
  | _ => exact hk'

theorem ghosts_cleared (p : Policy) : p.cleared.ghosts = [] := by
  cases p <;> simp [cleared, ghosts, Adaptive.clear, TwoQueues.clear]

/-- Only the key that goes can become a ghost. -/
theorem Bounded.ghosts_subset_of_victim? (hb : p.Bounded capacity) (h : p.WellFormed) {draw : Nat}
    (hvictim : p.victim? draw = some (k, rest)) : rest.ghosts ⊆ k :: p.ghosts := by
  intro k' hk'
  by_cases hne : k' = k
  · exact List.mem_cons.mpr (.inl hne)
  refine List.mem_cons_of_mem k ?_
  cases p with
  | none => cases hvictim
  | arc a =>
    obtain ⟨b, htake, rfl⟩ := exists_taken hvictim
    have hghosts : a.ghostCount ≤ a.capacity := hb.capacity_eq.symm ▸ hb.ghosts
    obtain ⟨hrecent, hfrequent⟩ := Adaptive.WellFormed.mem_ghosts_of_take? h hghosts htake hne
    rw [ghosts, List.mem_append, hrecent, hfrequent] at hk'
    exact List.mem_append.mpr (hk'.imp And.left And.left)
  | twoQueues q =>
    obtain ⟨r, htake, rfl⟩ := exists_taken hvictim
    exact ((TwoQueues.WellFormed.mem_ghosts_of_take? h hb.ghosts htake hne).mp hk').1
  | _ =>
    obtain ⟨keys, -, rfl⟩ := exists_taken hvictim
    exact hk'

/-- The bookkeeping of the rule ARC, if it is that rule. -/
def adaptive? : Policy → Option Adaptive
  | arc a => some a
  | _ => .none

/-- The bookkeeping of the rule 2QUEUE, if it is that rule. -/
def twoQueues? : Policy → Option TwoQueues
  | twoQueues q => some q
  | _ => .none

theorem adaptive?_eq_some_iff {a : Adaptive} : p.adaptive? = some a ↔ p = arc a := by
  cases p <;> simp [adaptive?]

theorem twoQueues?_eq_some_iff {q : TwoQueues} : p.twoQueues? = some q ↔ p = twoQueues q := by
  cases p <;> simp [twoQueues?]

theorem exists_arc_of_rule (hrule : p.rule = .arc) : ∃ a, p = arc a := by
  cases p with
  | arc a => exact ⟨a, rfl⟩
  | _ => cases hrule

theorem exists_twoQueues_of_rule (hrule : p.rule = .twoQueues) : ∃ q, p = twoQueues q := by
  cases p with
  | twoQueues q => exact ⟨q, rfl⟩
  | _ => cases hrule

end Policy

end CacheServer
