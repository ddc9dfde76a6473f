import CacheServer.Eviction.Sketch
import Mathlib.Data.List.Nodup

/-!
Estimates against exact counts. A key has a counter in each row, and no two rows share one. A counter is raised by
every use of its key, perhaps by uses of others as well, and it is halved with all the others; so it is never below
the exact count of the key's uses, halved at the same times. If no other key shares it, it is that count.
-/

namespace CacheServer.Sketch

variable {s : Sketch} {k k' : Key} {row row' n : Nat} {used : List Key}

/-- The table holds the counters of every row, and the uses counted since the last halving are fewer than those at
which the counters are halved. -/
structure WellFormed (s : Sketch) : Prop where
  width_pos : 0 < s.width
  size_counters : s.counters.size = s.width * depth
  additions_lt : s.additions < s.sampleSize

theorem wellFormed_ofCapacity (hash : RowHash) (capacity : Nat) : (ofCapacity hash capacity).WellFormed := by
  have hpos : 0 < widthFor capacity :=
    Nat.pos_of_isPowerOfTwo (Nat.isPowerOfTwo_nextPowerOfTwo _)
  refine ⟨hpos, Array.size_replicate, ?_⟩
  change 0 < 10 * widthFor capacity
  omega

theorem WellFormed.slot_lt (h : s.WellFormed) (hrow : row < depth) (k : Key) :
    s.slot row k < s.counters.size := by
  have hlt := Nat.mod_lt (s.hash row k) h.width_pos
  have hrows : (row + 1) * s.width ≤ depth * s.width := Nat.mul_le_mul_right _ hrow
  rw [h.size_counters, slot]
  rw [Nat.succ_mul] at hrows
  rw [Nat.mul_comm s.width]
  omega

theorem WellFormed.slot_div (h : s.WellFormed) (row : Nat) (k : Key) : s.slot row k / s.width = row := by
  rw [slot, Nat.add_comm, Nat.add_mul_div_right _ _ h.width_pos,
    Nat.div_eq_of_lt (Nat.mod_lt _ h.width_pos), Nat.zero_add]

theorem WellFormed.slot_ne (h : s.WellFormed) (hne : row ≠ row') : s.slot row k ≠ s.slot row' k' := by
  intro heq
  apply hne
  rw [← h.slot_div row k, heq, h.slot_div]

/-- The estimate is one of the counters of the key, and no other is less. -/
theorem estimate_eq_min (s : Sketch) (k : Key) :
    (∃ row < depth, s.estimate k = s.count row k) ∧ ∀ row < depth, s.estimate k ≤ s.count row k := by
  unfold estimate
  cases hmin : ((List.range depth).map fun row => s.count row k).min? with
  | none => simp [List.min?_eq_none_iff, depth] at hmin
  | some least =>
    obtain ⟨hmem, hle⟩ := List.min?_eq_some_iff.mp hmin
    obtain ⟨row, hrow, hleast⟩ := List.mem_map.mp hmem
    refine ⟨⟨row, List.mem_range.mp hrow, hleast.symm⟩, fun row hrow => ?_⟩
    exact hle _ (List.mem_map.mpr ⟨row, List.mem_range.mpr hrow, rfl⟩)

/-- A use counted in some rows changes nothing but counters. -/
theorem foldl_bump_eq (s : Sketch) (k : Key) (rows : List Nat) :
    ∃ counters, counters.size = s.counters.size ∧ rows.foldl (bump k) s = { s with counters } := by
  induction rows generalizing s with
  | nil => exact ⟨s.counters, rfl, rfl⟩
  | cons row rows ih =>
    obtain ⟨counters, hsize, heq⟩ := ih (bump k s row)
    exact ⟨counters, hsize.trans Array.size_modify, heq⟩

theorem WellFormed.bump (h : s.WellFormed) (k : Key) (row : Nat) : (Sketch.bump k s row).WellFormed :=
  ⟨h.width_pos, Array.size_modify.trans h.size_counters, h.additions_lt⟩

/-- In a row a use raises the counter of its key alone. -/
theorem WellFormed.count_bump (h : s.WellFormed) (hrow : row < depth) (row' : Nat) (k k' : Key) :
    (Sketch.bump k s row').count row k' =
      if row' = row ∧ s.slot row k = s.slot row k' then min (s.count row k' + 1) maxCount
      else s.count row k' := by
  change ((s.counters.modify (s.slot row' k) _)[s.slot row k']?).getD 0 = _
  rw [Array.getElem?_modify]
  by_cases hslot : s.slot row' k = s.slot row k'
  · obtain rfl : row' = row := by
      by_contra hne
      exact h.slot_ne hne hslot
    have hlt := h.slot_lt hrow k'
    simp [hslot, count, hlt]
  · have hother : ¬ (row' = row ∧ s.slot row k = s.slot row k') := by
      rintro ⟨rfl, heq⟩
      exact hslot heq
    rw [if_neg hslot, if_neg hother, count]

theorem WellFormed.count_foldl_bump (h : s.WellFormed) (hrow : row < depth) {rows : List Nat}
    (hrows : rows.Nodup) (k k' : Key) :
    (rows.foldl (Sketch.bump k) s).count row k' =
      if row ∈ rows ∧ s.slot row k = s.slot row k' then min (s.count row k' + 1) maxCount
      else s.count row k' := by
  induction rows generalizing s with
  | nil => simp
  | cons first rows ih =>
    obtain ⟨hfirst, hrows⟩ := List.nodup_cons.mp hrows
    have hslot (k : Key) : (Sketch.bump k s first).slot row k = s.slot row k := rfl
    rw [List.foldl_cons, ih (h.bump k first) hrows, h.count_bump hrow]
    change (if row ∈ rows ∧ s.slot row k = s.slot row k' then _ else _) = _
    by_cases heq : first = row
    · subst heq
      simp [hfirst]
    · simp [heq, Ne.symm heq]

/-- Whether the next use is the one at which the counters are halved. -/
def halvesNext (s : Sketch) : Bool :=
  s.sampleSize ≤ s.additions + 1

theorem halvesNext_iff : s.halvesNext = true ↔ s.sampleSize ≤ s.additions + 1 :=
  decide_eq_true_iff

/-- The sketch with one use more, before the counters are halved if they are to be. -/
def counted (s : Sketch) (k : Key) : Sketch :=
  { (List.range depth).foldl (Sketch.bump k) s with additions := s.additions + 1 }

theorem add_eq (s : Sketch) (k : Key) :
    s.add k = if s.halvesNext then (s.counted k).halve else s.counted k := by
  obtain ⟨counters, -, hcounters⟩ := foldl_bump_eq s k (List.range depth)
  rw [add, counted, hcounters]
  by_cases hhalves : s.sampleSize ≤ s.additions + 1
  · rw [if_pos (halvesNext_iff.mpr hhalves)]
    exact if_pos hhalves
  · rw [if_neg (mt halvesNext_iff.mp hhalves)]
    exact if_neg hhalves

theorem slot_counted (s : Sketch) (used : Key) (row : Nat) (k : Key) :
    (s.counted used).slot row k = s.slot row k := by
  obtain ⟨counters, -, hcounters⟩ := foldl_bump_eq s used (List.range depth)
  rw [counted, hcounters]
  rfl

theorem WellFormed.count_counted (h : s.WellFormed) (hrow : row < depth) (k k' : Key) :
    (s.counted k).count row k' =
      if s.slot row k = s.slot row k' then min (s.count row k' + 1) maxCount else s.count row k' := by
  obtain ⟨counters, -, hcounters⟩ := foldl_bump_eq s k (List.range depth)
  have hcount := h.count_foldl_bump hrow (List.nodup_range : (List.range depth).Nodup) k k'
  simp only [List.mem_range, hrow, true_and] at hcount
  rw [← hcount, counted, hcounters]
  rfl

theorem count_halve (s : Sketch) (row : Nat) (k : Key) : s.halve.count row k = s.count row k / 2 := by
  change ((s.counters.map (· / 2))[s.slot row k]?).getD 0 = _
  rw [Array.getElem?_map, count]
  cases s.counters[s.slot row k]? <;> rfl

theorem count_clear (s : Sketch) (row : Nat) (k : Key) : s.clear.count row k = 0 := by
  change ((s.counters.map fun _ => 0)[s.slot row k]?).getD 0 = _
  rw [Array.getElem?_map]
  cases s.counters[s.slot row k]? <;> rfl

theorem WellFormed.add (h : s.WellFormed) (k : Key) : (s.add k).WellFormed := by
  obtain ⟨counters, hsize, hcounters⟩ := foldl_bump_eq s k (List.range depth)
  have hadditions := h.additions_lt
  rw [add_eq, counted, hcounters]
  unfold sampleSize at hadditions
  split
  case isTrue =>
    refine ⟨h.width_pos, (Array.size_map.trans hsize).trans h.size_counters, ?_⟩
    change (s.additions + 1) / 2 < 10 * s.width
    omega
  case isFalse hroom =>
    refine ⟨h.width_pos, hsize.trans h.size_counters, ?_⟩
    have hlt := Nat.lt_of_not_le (mt halvesNext_iff.mpr hroom)
    exact hlt

theorem WellFormed.clear (h : s.WellFormed) : s.clear.WellFormed := by
  have hpos := h.width_pos
  refine ⟨hpos, Array.size_map.trans h.size_counters, ?_⟩
  change 0 < 10 * s.width
  omega

/-- Whether a position is in the table does not depend on the counters. -/
theorem slot_lt_of_clear (h : s.clear.WellFormed) (hrow : row < depth) (k : Key) :
    s.slot row k < s.counters.size := by
  have hlt := h.slot_lt hrow k
  rwa [clear, Array.size_map] at hlt

theorem clear_eq (s : Sketch) : s.clear = ⟨s.hash, s.width, Array.replicate s.counters.size 0, 0⟩ := by
  rw [clear, Array.map_const']

@[simp] theorem clear_ofCapacity (hash : RowHash) (capacity : Nat) :
    (ofCapacity hash capacity).clear = ofCapacity hash capacity := by
  simp [clear_eq, ofCapacity]

@[simp] theorem clear_clear (s : Sketch) : s.clear.clear = s.clear := by
  simp [clear_eq]

/-- No count outlasts a clearing. -/
@[simp] theorem clear_add (s : Sketch) (k : Key) : (s.add k).clear = s.clear := by
  obtain ⟨counters, hsize, hcounters⟩ := foldl_bump_eq s k (List.range depth)
  rw [add_eq, counted, hcounters]
  split <;> simp [clear_eq, halve, hsize]

/-- What a sketch is told. -/
inductive Event where
  | use (key : Key)
  | clear

/-- The sketch after an event. -/
def apply (s : Sketch) : Event → Sketch
  | .use k => s.add k
  | .clear => s.clear

def applyAll (s : Sketch) (events : List Event) : Sketch :=
  events.foldl apply s

theorem WellFormed.apply (h : s.WellFormed) (event : Event) : (s.apply event).WellFormed := by
  cases event with
  | use k => exact h.add k
  | clear => exact h.clear

/-- The exact count of a key after an event, if it was `n` before. It goes up with each use of the key, as far as a
counter can, and is halved whenever the counters are. -/
def exactAfter (s : Sketch) (k : Key) (n : Nat) : Event → Nat
  | .use used =>
    let counted := if used = k then min (n + 1) maxCount else n
    if s.halvesNext then counted / 2 else counted
  | .clear => 0

/-- The exact count of a key after events, if it was `n` before. -/
def exactAfterAll (k : Key) : Sketch → Nat → List Event → Nat
  | _, n, [] => n
  | s, n, event :: events => exactAfterAll k (s.apply event) (s.exactAfter k n event) events

/-- The keys used since the last clearing, if these were before the event. -/
def Event.usedAfter (used : List Key) : Event → List Key
  | .use k => k :: used
  | .clear => []

/-- The keys used since the start or the last clearing. -/
def usedSinceClear (events : List Event) : List Key :=
  events.foldl Event.usedAfter []

/-- No other of the keys has the counter of `k` in a row. -/
def Alone (s : Sketch) (used : List Key) (row : Nat) (k : Key) : Prop :=
  ∀ k' ∈ used, k' ≠ k → s.slot row k' ≠ s.slot row k

instance (s : Sketch) (used : List Key) (row : Nat) (k : Key) : Decidable (s.Alone used row k) :=
  inferInstanceAs (Decidable (∀ k' ∈ used, k' ≠ k → s.slot row k' ≠ s.slot row k))

/-- The counters of a key are at least its exact count, and those that it has for itself are the exact count. -/
structure Counts (s : Sketch) (used : List Key) (k : Key) (n : Nat) : Prop where
  le_max : n ≤ maxCount
  le_count : ∀ row < depth, n ≤ s.count row k
  count_eq : ∀ row < depth, s.Alone used row k → s.count row k = n

theorem counts_clear (s : Sketch) (k : Key) : s.clear.Counts [] k 0 := by
  refine ⟨Nat.zero_le _, fun row _ => Nat.zero_le _, fun row _ _ => s.count_clear row k⟩

/-- Of the counters of `k` a use of the key itself raises all, and a use of another key only those that the two
share. -/
theorem Counts.counted (hc : s.Counts used k n) (h : s.WellFormed) (k' : Key) :
    (s.counted k').Counts (k' :: used) k (if k' = k then min (n + 1) maxCount else n) := by
  have hmax := hc.le_max
  refine ⟨?_, fun row hrow => ?_, fun row hrow halone => ?_⟩
  · split
    · exact Nat.min_le_right _ _
    · exact hmax
  · have hle := hc.le_count row hrow
    rw [h.count_counted hrow]
    by_cases hk : k' = k
    · subst hk
      simp only [↓reduceIte]
      omega
    · rw [if_neg hk]
      split
      · omega
      · exact hle
  · have heq : s.count row k = n := by
      refine hc.count_eq row hrow fun k'' hk'' hne => ?_
      have := halone k'' (List.mem_cons_of_mem _ hk'') hne
      rwa [slot_counted, slot_counted] at this
    rw [h.count_counted hrow, heq]
    by_cases hk : k' = k
    · subst hk
      simp only [↓reduceIte]
    · have hother := halone k' List.mem_cons_self hk
      rw [slot_counted, slot_counted] at hother
      rw [if_neg hother, if_neg hk]

theorem Counts.halve (hc : s.Counts used k n) : s.halve.Counts used k (n / 2) := by
  have hmax := hc.le_max
  refine ⟨by omega, fun row hrow => ?_, fun row hrow halone => ?_⟩
  · have hle := hc.le_count row hrow
    rw [count_halve]
    omega
  · rw [count_halve, hc.count_eq row hrow halone]

theorem Counts.apply (hc : s.Counts used k n) (h : s.WellFormed) (event : Event) :
    (s.apply event).Counts (event.usedAfter used) k (s.exactAfter k n event) := by
  cases event with
  | use k' =>
    have hcounted := hc.counted h k'
    rw [Sketch.apply, add_eq, exactAfter]
    split
    · exact hcounted.halve
    · exact hcounted
  | clear => exact s.counts_clear k

theorem Counts.applyAll {events : List Event} (hc : s.Counts used k n) (h : s.WellFormed) :
    (s.applyAll events).Counts (events.foldl Event.usedAfter used) k (exactAfterAll k s n events) := by
  induction events generalizing s used n with
  | nil => exact hc
  | cons event events ih => exact ih (hc.apply h event) (h.apply event)

theorem WellFormed.applyAll (h : s.WellFormed) (events : List Event) : (s.applyAll events).WellFormed := by
  induction events generalizing s with
  | nil => exact h
  | cons event events ih => exact ih (h.apply event)

theorem Counts.le_estimate (hc : s.Counts used k n) : n ≤ s.estimate k := by
  obtain ⟨row, hrow, heq⟩ := (s.estimate_eq_min k).1
  rw [heq]
  exact hc.le_count row hrow

theorem Counts.estimate_eq (hc : s.Counts used k n) (hrow : row < depth) (halone : s.Alone used row k) :
    s.estimate k = n := by
  refine Nat.le_antisymm ?_ hc.le_estimate
  rw [← hc.count_eq row hrow halone]
  exact (s.estimate_eq_min k).2 row hrow

/-- For every hash and after every run of uses and clearings, the estimate of a key is at least the exact count of its
uses, which is halved whenever the counters are, and it is that count if in one row at least no other key used since
the last clearing has the same counter. Every counter that is looked up is in the table, and the uses counted since
the last halving are fewer than ten times its width. -/
theorem estimate_of_run (hash : RowHash) (capacity : Nat) (events : List Event) :
    let start := ofCapacity hash capacity
    let s := start.applyAll events
    (∀ k, exactAfterAll k start 0 events ≤ s.estimate k) ∧
    (∀ k, ∀ row < depth, s.Alone (usedSinceClear events) row k →
      s.estimate k = exactAfterAll k start 0 events) ∧
    (∀ k, ∀ row < depth, s.slot row k < s.counters.size) ∧
    s.additions < 10 * s.width := by
  intro start s
  have hstart : start.WellFormed := wellFormed_ofCapacity hash capacity
  have hs : s.WellFormed := hstart.applyAll events
  have hcounts (k : Key) : s.Counts (usedSinceClear events) k (exactAfterAll k start 0 events) := by
    have hnew := start.counts_clear k
    rw [clear_ofCapacity] at hnew
    exact hnew.applyAll hstart
  exact ⟨fun k => (hcounts k).le_estimate, fun k row hrow => (hcounts k).estimate_eq hrow,
    fun k row hrow => hs.slot_lt hrow k, hs.additions_lt⟩

theorem estimate_of_run_shared :
    let hash : RowHash := fun row k => if row = 3 then k.length else 0
    let events : List Event :=
      .use "x" :: .clear :: (List.replicate 100 (.use "a") ++ List.replicate 61 (.use "bb"))
    let s := (ofCapacity hash 0).applyAll events
    3 < depth ∧ s.count 0 "a" = 81 ∧ s.Alone (usedSinceClear events) 3 "a" ∧ s.estimate "a" = 50 := by
  intro hash events s
  have hrow : 3 < depth := by decide
  have halone : s.Alone (usedSinceClear events) 3 "a" := by decide +kernel
  have hexact : exactAfterAll "a" (ofCapacity hash 0) 0 events = 50 := by decide +kernel
  refine ⟨hrow, by decide +kernel, halone, ?_⟩
  rw [← hexact]
  exact (estimate_of_run hash 0 events).2.1 "a" 3 hrow halone

end CacheServer.Sketch
