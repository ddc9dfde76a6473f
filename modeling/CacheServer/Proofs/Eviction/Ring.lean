import CacheServer.Eviction.Ring
import CacheServer.Proofs.Eviction.SecondChance
import CacheServer.Proofs.OrderedMap

/-!
Keys on a ring, as the queue in which the hand will visit them. A visit to a marked key moves it to the
end of the queue without its mark, so within one round the hand meets a key without one.
-/

namespace CacheServer.Ring

open Std

variable {r rest : Ring} {k : Key}

/-- The hand stands at a key or behind the last one, and the marks are those of the keys. -/
structure WellFormed (r : Ring) : Prop where
  hand_le : r.hand ≤ r.keys.size
  nodup_keys : r.keys.toList.Nodup
  mem_marks_iff : ∀ k, k ∈ r.marks ↔ k ∈ r.keys.toList

theorem wellFormed_empty : empty.WellFormed := by
  constructor <;> simp [empty]

@[simp] theorem toList_empty : empty.toList = [] := by
  simp [empty, toList]

theorem toList_perm_keys (r : Ring) : r.toList.Perm r.keys.toList := by
  refine List.perm_append_comm.trans ?_
  rw [List.take_append_drop]

theorem mem_toList_iff : k ∈ r.toList ↔ k ∈ r.keys.toList :=
  r.toList_perm_keys.mem_iff

theorem WellFormed.nodup_toList (h : r.WellFormed) : r.toList.Nodup :=
  r.toList_perm_keys.nodup_iff.mpr h.nodup_keys

/-- The keys in the order in which the hand will visit them, each with its mark. -/
def queue (r : Ring) : SecondChance :=
  r.toList.map fun k => (k, r.marks[k]? == some true)

@[simp] theorem queue_empty : empty.queue = [] := by
  simp [queue]

@[simp] theorem keys_queue (r : Ring) : r.queue.keys = r.toList := by
  simp [queue, SecondChance.keys, Function.comp_def]

theorem queue_eq_nil_iff : r.queue = [] ↔ r.toList = [] :=
  List.map_eq_nil_iff

theorem queue_eq_cons_iff {marked : Bool} {others : SecondChance} :
    r.queue = (k, marked) :: others ↔ ∃ ks, r.toList = k :: ks ∧ (r.marks[k]? == some true) = marked ∧
      ks.map (fun k' => (k', r.marks[k']? == some true)) = others := by
  rw [queue, List.map_eq_cons_iff]
  constructor
  · rintro ⟨front, ks, hlist, hfront, hothers⟩
    obtain ⟨rfl, hmark⟩ := Prod.mk.inj hfront
    exact ⟨ks, hlist, hmark, hothers⟩
  · rintro ⟨ks, hlist, rfl, hothers⟩
    exact ⟨k, ks, hlist, rfl, hothers⟩

theorem length_queue (r : Ring) : r.queue.length = r.keys.size := by
  rw [queue, List.length_map, r.toList_perm_keys.length_eq, Array.length_toList]

/-- The keys that stand before the hand are visited after those that stand behind it. -/
theorem toList_of_keys {before behind : List Key} (hkeys : r.keys.toList = before ++ behind)
    (hhand : r.hand = before.length) : r.toList = behind ++ before := by
  simp [toList, hkeys, hhand]

theorem WellFormed.exists_keys (h : r.WellFormed) : ∃ before behind,
    r.keys.toList = before ++ behind ∧ r.hand = before.length ∧ r.toList = behind ++ before := by
  refine ⟨r.keys.toList.take r.hand, r.keys.toList.drop r.hand, ?_, ?_, rfl⟩
  · rw [List.take_append_drop]
  · rw [List.length_take, Array.length_toList, Nat.min_eq_left h.hand_le]

theorem toList_keys_add {before behind : List Key} (hkeys : r.keys.toList = before ++ behind)
    (hhand : r.hand = before.length) (k : Key) :
    (r.add k).keys.toList = before ++ k :: behind ∧ (r.add k).hand = before.length + 1 := by
  have hinsert (l : List Key) : (l ++ behind).insertIdx l.length k = l ++ k :: behind := by
    induction l with
    | nil => simp
    | cons head tail ih => simpa using ih
  obtain ⟨⟨keys⟩, marks, hand⟩ := r
  obtain rfl : keys = before ++ behind := hkeys
  obtain rfl : hand = before.length := hhand
  simp [add, hinsert]

/-- A new key is the last to be visited. -/
theorem WellFormed.toList_add (h : r.WellFormed) (k : Key) : (r.add k).toList = r.toList ++ [k] := by
  obtain ⟨before, behind, hkeys, hhand, hlist⟩ := h.exists_keys
  obtain ⟨hkeys', hhand'⟩ := toList_keys_add hkeys hhand k
  rw [hlist, List.append_assoc]
  apply toList_of_keys
  · rw [hkeys', List.append_assoc, List.singleton_append]
  · simpa using hhand'

theorem WellFormed.add (h : r.WellFormed) (hk : k ∉ r.toList) : (r.add k).WellFormed := by
  obtain ⟨before, behind, hkeys, hhand, -⟩ := h.exists_keys
  obtain ⟨hkeys', hhand'⟩ := toList_keys_add hkeys hhand k
  have hperm : (r.add k).keys.toList.Perm (k :: r.keys.toList) := by
    rw [hkeys', hkeys]
    exact List.perm_middle
  refine ⟨?_, ?_, ?_⟩
  · rw [hhand', ← Array.length_toList, hkeys', List.length_append, List.length_cons]
    omega
  · rw [mem_toList_iff] at hk
    exact hperm.nodup_iff.mpr (List.nodup_cons.mpr ⟨hk, h.nodup_keys⟩)
  · intro k'
    rw [hperm.mem_iff, List.mem_cons, ← h.mem_marks_iff]
    change k' ∈ r.marks.insert k true ↔ _
    rw [ExtTreeMap.mem_insert, LawfulEqCmp.compare_eq_iff_eq, eq_comm]

theorem WellFormed.queue_add (h : r.WellFormed) (hk : k ∉ r.toList) :
    (r.add k).queue = r.queue.add k := by
  rw [queue, h.toList_add, List.map_append, List.map_singleton, SecondChance.add]
  congr 1
  · refine List.map_congr_left fun k' hk' => ?_
    have hne : k ≠ k' := fun heq => hk (heq ▸ hk')
    simp [Ring.add, ExtTreeMap.getElem?_insert, hne]
  · simp [Ring.add]

theorem WellFormed.use (h : r.WellFormed) (k : Key) :
    (r.use k).WellFormed ∧ (r.use k).toList = r.toList := by
  unfold Ring.use
  split
  case isFalse => exact ⟨h, rfl⟩
  case isTrue hmark =>
    refine ⟨⟨h.hand_le, h.nodup_keys, ?_⟩, rfl⟩
    intro k'
    rw [ExtTreeMap.contains_iff_mem] at hmark
    rw [mem_insert_of_mem hmark, h.mem_marks_iff]

theorem WellFormed.queue_use (h : r.WellFormed) (k : Key) : (r.use k).queue = r.queue.use k := by
  rw [queue, (h.use k).2, queue, SecondChance.use, List.map_map]
  refine List.map_congr_left fun k' hk' => ?_
  rw [mem_toList_iff, ← h.mem_marks_iff] at hk'
  unfold Ring.use
  split
  case isTrue =>
    by_cases hkk : k = k'
    · simp [hkk]
    · simp [ExtTreeMap.getElem?_insert, hkk, Ne.symm hkk]
  case isFalse hmark =>
    rw [ExtTreeMap.contains_iff_mem] at hmark
    have hne : k' ≠ k := by
      rintro rfl
      exact hmark hk'
    simp [hne]

theorem erase_of_not_mem (h : r.WellFormed) (hk : k ∉ r.toList) : r.erase k = r := by
  rw [mem_toList_iff, ← h.mem_marks_iff, ← ExtTreeMap.contains_iff_mem] at hk
  rw [erase, if_neg hk]

theorem WellFormed.erase_of_mem (h : r.WellFormed) (hk : k ∈ r.toList) :
    (r.erase k).keys.toList = r.keys.toList.erase k ∧ (r.erase k).marks = r.marks.erase k ∧
      (r.erase k).hand = if r.keys.toList.idxOf k < r.hand then r.hand - 1 else r.hand := by
  rw [mem_toList_iff] at hk
  have hmark := ExtTreeMap.contains_iff_mem.mpr ((h.mem_marks_iff k).mpr hk)
  have hfind : r.keys.idxOf? k = some (r.keys.toList.idxOf k) := by
    obtain ⟨⟨keys⟩, marks, hand⟩ := r
    rw [List.idxOf?_toArray]
    exact List.findIdx?_eq_some_iff_findIdx_eq.mpr ⟨List.idxOf_lt_length_iff.mpr hk, rfl⟩
  rw [Ring.erase, if_pos hmark]
  have hlist : r.keys.toList.erase k = r.keys.toList.eraseIdx (r.keys.toList.idxOf k) :=
    List.erase_eq_eraseIdx_of_idxOf rfl
  refine ⟨?_, ?_, ?_⟩
  · rw [hlist]
    simp only [hfind, Array.toList_eraseIdxIfInBounds]
  · simp only [hfind]
  · simp only [hfind]

/-- A key is dropped from before the hand and from behind it. -/
theorem WellFormed.erase_of_keys (h : r.WellFormed) {before behind : List Key}
    (hkeys : r.keys.toList = before ++ behind) (hhand : r.hand = before.length) (k : Key) :
    (r.erase k).keys.toList = before.erase k ++ behind.erase k ∧
      (r.erase k).hand = (before.erase k).length ∧ (r.erase k).marks = r.marks.erase k := by
  have hnodup := h.nodup_keys
  rw [hkeys] at hnodup
  by_cases hk : k ∈ r.toList
  case neg =>
    have hmark : k ∉ r.marks := by rwa [h.mem_marks_iff, ← mem_toList_iff]
    rw [erase_of_not_mem h hk]
    rw [mem_toList_iff, hkeys, List.mem_append, not_or] at hk
    rw [List.erase_of_not_mem hk.1, List.erase_of_not_mem hk.2]
    exact ⟨hkeys, hhand, (erase_eq_self hmark).symm⟩
  case pos =>
    obtain ⟨hkeys', hmarks, hhand'⟩ := h.erase_of_mem hk
    rw [hkeys, List.erase_append] at hkeys'
    rw [hkeys, hhand, List.idxOf_append] at hhand'
    by_cases hbefore : k ∈ before
    · have hbehind : k ∉ behind := List.disjoint_of_nodup_append hnodup hbefore
      rw [if_pos hbefore] at hkeys' hhand'
      rw [if_pos (List.idxOf_lt_length_iff.mpr hbefore), ← List.length_erase_of_mem hbefore] at hhand'
      rw [List.erase_of_not_mem hbehind]
      exact ⟨hkeys', hhand', hmarks⟩
    · rw [if_neg hbefore] at hkeys' hhand'
      rw [if_neg (by omega)] at hhand'
      rw [List.erase_of_not_mem hbefore]
      exact ⟨hkeys', hhand', hmarks⟩

/-- A key that is dropped leaves the others in the order of their visits. -/
theorem WellFormed.toList_erase (h : r.WellFormed) (k : Key) :
    (r.erase k).toList = r.toList.erase k := by
  obtain ⟨before, behind, hkeys, hhand, hlist⟩ := h.exists_keys
  obtain ⟨hkeys', hhand', -⟩ := h.erase_of_keys hkeys hhand k
  have hnodup := h.nodup_toList
  rw [hlist] at hnodup ⊢
  rw [toList_of_keys hkeys' hhand', List.erase_append]
  split
  case isTrue hbehind =>
    rw [List.erase_of_not_mem fun hbefore => List.disjoint_of_nodup_append hnodup hbehind hbefore]
  case isFalse hbehind => rw [List.erase_of_not_mem hbehind]

theorem WellFormed.queue_erase (h : r.WellFormed) (k : Key) :
    (r.erase k).queue = r.queue.erase k := by
  rw [queue, h.toList_erase, h.nodup_toList.erase_eq_filter, SecondChance.erase, queue, List.filter_map]
  refine List.map_congr_left fun k' hk' => ?_
  obtain ⟨hmem, hne⟩ := List.mem_filter.mp hk'
  rw [bne_iff_ne] at hne
  by_cases hk : k ∈ r.toList
  · simp [(h.erase_of_mem hk).2.1, ExtTreeMap.getElem?_erase, hne.symm]
  · rw [erase_of_not_mem h hk]

theorem WellFormed.erase (h : r.WellFormed) (k : Key) : (r.erase k).WellFormed := by
  by_cases hk : k ∈ r.toList
  case neg => rwa [erase_of_not_mem h hk]
  case pos =>
    obtain ⟨hkeys, hmarks, hhand⟩ := h.erase_of_mem hk
    have hlength := congrArg List.length hkeys
    rw [mem_toList_iff] at hk
    rw [List.length_erase_of_mem hk, Array.length_toList, Array.length_toList] at hlength
    have hlt := List.idxOf_lt_length_iff.mpr hk
    rw [Array.length_toList] at hlt
    have hle := h.hand_le
    refine ⟨?_, ?_, ?_⟩
    · split at hhand <;> omega
    · rw [hkeys]
      exact h.nodup_keys.erase k
    · intro k'
      rw [hkeys, hmarks, h.nodup_keys.mem_erase_iff, ExtTreeMap.mem_erase, ne_eq,
        LawfulEqCmp.compare_eq_iff_eq, h.mem_marks_iff, eq_comm]

/-- Where the hand makes its next visit: at the first key, if it is behind the last one. -/
def position (r : Ring) : Nat :=
  if r.keys.size ≤ r.hand then 0 else r.hand

/-- The hand clears the mark of the key that it visits and goes on. -/
def pass (r : Ring) (k : Key) : Ring :=
  { r with marks := r.marks.insert k false, hand := r.position + 1 }

/-- The hand takes the key that it visits. -/
def give (r : Ring) (k : Key) : Ring where
  keys := r.keys.eraseIdxIfInBounds r.position
  marks := r.marks.erase k
  hand := r.position

theorem sweep_succ (r : Ring) (visits : Nat) :
    r.sweep (visits + 1) = match r.keys[r.position]? with
      | none => none
      | some k =>
        if r.marks[k]? = some true then (r.pass k).sweep visits else some (k, r.give k) :=
  rfl

theorem WellFormed.exists_visited (h : r.WellFormed) {others : List Key}
    (hlist : r.toList = k :: others) : ∃ before behind, r.keys.toList = before ++ k :: behind ∧
      r.position = before.length ∧ others = behind ++ before := by
  obtain ⟨before, behind, hkeys, hhand, hsplit⟩ := h.exists_keys
  have hsize := congrArg List.length hkeys
  rw [Array.length_toList, List.length_append] at hsize
  rw [hlist] at hsplit
  unfold position
  cases behind with
  | nil =>
    refine ⟨[], others, ?_, ?_, ?_⟩
    · simpa [hsplit] using hkeys
    · rw [if_pos (by simp at hsize; omega), List.length_nil]
    · rw [List.append_nil]
  | cons next behind =>
    obtain ⟨rfl, rfl⟩ : k = next ∧ others = behind ++ before := by simpa using hsplit
    refine ⟨before, behind, hkeys, ?_, rfl⟩
    rw [if_neg (by simp at hsize; omega), hhand]

/-- The hand visits the first key of the queue. -/
theorem WellFormed.getElem?_position (h : r.WellFormed) {others : List Key}
    (hlist : r.toList = k :: others) : r.keys[r.position]? = some k := by
  obtain ⟨before, behind, hkeys, hposition, -⟩ := h.exists_visited hlist
  rw [← Array.getElem?_toList, hkeys, hposition]
  simp

/-- A key that has a mark is put back without it. -/
theorem WellFormed.pass (h : r.WellFormed) {others : SecondChance}
    (hqueue : r.queue = (k, true) :: others) :
    (r.pass k).WellFormed ∧ (r.pass k).queue = others ++ [(k, false)] := by
  obtain ⟨ks, hlist, -, rfl⟩ := queue_eq_cons_iff.mp hqueue
  obtain ⟨before, behind, hkeys, hposition, hks⟩ := h.exists_visited hlist
  have hsize := congrArg List.length hkeys
  simp only [Array.length_toList, List.length_append, List.length_cons] at hsize
  have hpresent : k ∈ r.marks := by
    rw [h.mem_marks_iff, hkeys]
    simp
  have hround : (r.pass k).toList = ks ++ [k] := by
    rw [hks, List.append_assoc]
    apply toList_of_keys
    · simpa [Ring.pass] using hkeys
    · simp [Ring.pass, hposition]
  refine ⟨⟨?_, h.nodup_keys, ?_⟩, ?_⟩
  · change r.position + 1 ≤ r.keys.size
    omega
  · intro k'
    exact (mem_insert_of_mem hpresent false).trans (h.mem_marks_iff k')
  · have hnodup := h.nodup_toList
    rw [hlist, List.nodup_cons] at hnodup
    rw [queue, hround, List.map_append, List.map_singleton]
    congr 1
    · refine List.map_congr_left fun k' hk' => ?_
      have hne : k ≠ k' := fun heq => hnodup.1 (heq ▸ hk')
      simp [Ring.pass, ExtTreeMap.getElem?_insert, hne]
    · simp [Ring.pass]

/-- A key without a mark goes. -/
theorem WellFormed.give (h : r.WellFormed) {others : SecondChance}
    (hqueue : r.queue = (k, false) :: others) :
    (r.give k).WellFormed ∧ (r.give k).queue = others := by
  obtain ⟨ks, hlist, -, rfl⟩ := queue_eq_cons_iff.mp hqueue
  obtain ⟨before, behind, hkeys, hposition, hks⟩ := h.exists_visited hlist
  have hleft : (r.give k).keys.toList = before ++ behind := by
    simp [Ring.give, hposition, hkeys, List.eraseIdx_append_of_length_le]
  have hround : (r.give k).toList = ks := by
    rw [hks]
    exact toList_of_keys hleft hposition
  have hnodup := h.nodup_keys
  rw [hkeys, List.nodup_middle, List.nodup_cons] at hnodup
  refine ⟨⟨?_, ?_, ?_⟩, ?_⟩
  · rw [← Array.length_toList, hleft, List.length_append]
    exact Nat.le_trans (Nat.le_of_eq hposition) (Nat.le_add_right _ _)
  · rw [hleft]
    exact hnodup.2
  · intro k'
    have hgone := hnodup.1
    change k' ∈ r.marks.erase k ↔ _
    rw [hleft, mem_erase_iff, h.mem_marks_iff, hkeys]
    grind
  · rw [queue, hround]
    refine List.map_congr_left fun k' hk' => ?_
    have hne : k ≠ k' := by
      rintro rfl
      have hnodup := h.nodup_toList
      rw [hlist, List.nodup_cons] at hnodup
      exact hnodup.1 hk'
    simp [Ring.give, ExtTreeMap.getElem?_erase, hne]

/-- The hand makes visits to marked keys, one after the other. -/
inductive Passes : Nat → Ring → Ring → Prop
  | none (r : Ring) : Passes 0 r r
  | one {visits : Nat} {r t : Ring} {k : Key} (hkey : r.keys[r.position]? = some k)
      (hmark : r.marks[k]? = some true) (hpasses : Passes visits (r.pass k) t) : Passes (visits + 1) r t

theorem position_lt (hne : r.keys ≠ #[]) : r.position < r.keys.size := by
  have hpos := Array.size_pos_iff.mpr hne
  unfold position
  split <;> omega

theorem Passes.keys_eq {visits : Nat} {t : Ring} (hpasses : Passes visits r t) : t.keys = r.keys := by
  induction hpasses with
  | none => rfl
  | one hkey hmark hpasses ih => exact ih

theorem Passes.sweep_add {visits : Nat} {t : Ring} (hpasses : Passes visits r t) (more : Nat) :
    r.sweep (visits + more) = t.sweep more := by
  induction hpasses with
  | none => rw [Nat.zero_add]
  | one hkey hmark hpasses ih =>
    rw [Nat.add_right_comm, sweep_succ, hkey, ← ih]
    exact if_pos hmark

theorem exists_queue_eq_cons (h : r.WellFormed) (hkey : r.keys[r.position]? = some k) :
    ∃ others, r.queue = (k, r.marks[k]? == some true) :: others := by
  cases hlist : r.toList with
  | nil =>
    have hsize := r.length_queue
    rw [queue_eq_nil_iff.mpr hlist, List.length_nil] at hsize
    rw [Array.eq_empty_of_size_eq_zero hsize.symm] at hkey
    cases hkey
  | cons front ks =>
    rw [h.getElem?_position hlist] at hkey
    cases hkey
    exact ⟨_, queue_eq_cons_iff.mpr ⟨ks, hlist, rfl, rfl⟩⟩

/-- Every visit to a marked key costs a mark. -/
theorem WellFormed.passes (h : r.WellFormed) {visits : Nat} {t : Ring} (hpasses : Passes visits r t) :
    t.WellFormed ∧ t.queue.chances + visits = r.queue.chances := by
  induction hpasses with
  | none => exact ⟨h, rfl⟩
  | one hkey hmark hpasses ih =>
    obtain ⟨others, hqueue⟩ := exists_queue_eq_cons h hkey
    rw [hmark, beq_self_eq_true] at hqueue
    obtain ⟨hpass, hback⟩ := h.pass hqueue
    obtain ⟨ht, hchances⟩ := ih hpass
    refine ⟨ht, ?_⟩
    rw [hback] at hchances
    rw [hqueue]
    simp [SecondChance.chances] at hchances ⊢
    omega

/-- The hand comes to the key that the queue gives. -/
theorem WellFormed.exists_passes (h : r.WellFormed) {others : SecondChance}
    (htake : r.queue.take? = some (k, others)) :
    ∃ visits t, Passes visits r t ∧ t.queue = (k, false) :: others := by
  generalize hqueue : r.queue = q at htake
  fun_induction SecondChance.take? q generalizing r with
  | case1 => cases htake
  | case2 front behind =>
    cases htake
    exact ⟨0, r, .none r, hqueue⟩
  | case3 front behind ih =>
    obtain ⟨ks, hlist, hmark, -⟩ := queue_eq_cons_iff.mp hqueue
    obtain ⟨hpass, hback⟩ := h.pass hqueue
    obtain ⟨visits, t, hpasses, ht⟩ := ih hpass hback htake
    exact ⟨visits + 1, t, .one (h.getElem?_position hlist) (by simpa using hmark) hpasses, ht⟩

/-- The hand takes the key that the queue gives. It makes no more visits than there are keys, and one
more. -/
theorem WellFormed.exists_take? (h : r.WellFormed) {others : SecondChance}
    (htake : r.queue.take? = some (k, others)) :
    ∃ visits t, Passes visits r t ∧ t.keys[t.position]? = some k ∧ t.marks[k]? ≠ some true ∧
      r.take? = some (k, t.give k) ∧ (t.give k).WellFormed ∧ (t.give k).queue = others := by
  obtain ⟨visits, t, hpasses, hqueue⟩ := h.exists_passes htake
  obtain ⟨ht, hchances⟩ := h.passes hpasses
  obtain ⟨ks, hlist, hmark, -⟩ := queue_eq_cons_iff.mp hqueue
  have hkey := ht.getElem?_position hlist
  have hclear : t.marks[k]? ≠ some true := by simpa using hmark
  refine ⟨visits, t, hpasses, hkey, hclear, ?_, ht.give hqueue⟩
  have hle := r.queue.chances_le
  rw [length_queue] at hle
  obtain ⟨more, hmore⟩ : ∃ more, r.keys.size + 1 = visits + (more + 1) :=
    ⟨r.keys.size - visits, by omega⟩
  rw [Ring.take?, hmore, hpasses.sweep_add, sweep_succ, hkey]
  exact if_neg hclear

/-- The hand of a ring that has keys visits no more marked keys than there are keys, and then takes one that has
no mark. -/
theorem WellFormed.exists_passes_take? (h : r.WellFormed) (hne : r.keys ≠ #[]) :
    ∃ visits t k, visits ≤ r.keys.size ∧ r.Passes visits t ∧ t.keys[t.position]? = some k ∧
      t.marks[k]? ≠ some true ∧ r.take? = some (k, t.give k) := by
  have hqueue : r.queue ≠ [] := by
    intro hnil
    have hsize := r.length_queue
    rw [hnil, List.length_nil] at hsize
    exact hne (Array.eq_empty_of_size_eq_zero hsize.symm)
  obtain ⟨⟨k, others⟩, htake⟩ :=
    Option.ne_none_iff_exists'.mp (mt SecondChance.take?_eq_none_iff.mp hqueue)
  obtain ⟨visits, t, hpasses, hkey, hclear, hgive, -⟩ := h.exists_take? htake
  refine ⟨visits, t, k, ?_, hpasses, hkey, hclear, hgive⟩
  have hchances := (h.passes hpasses).2
  have hle := r.queue.chances_le
  rw [length_queue] at hle
  omega

theorem WellFormed.take?_eq_none_iff (h : r.WellFormed) : r.take? = none ↔ r.toList = [] := by
  rw [← queue_eq_nil_iff]
  constructor
  · intro hnone
    rw [← SecondChance.take?_eq_none_iff]
    cases htake : r.queue.take? with
    | none => rfl
    | some taken =>
      obtain ⟨visits, t, -, -, -, hsome, -⟩ := h.exists_take? htake
      rw [hnone] at hsome
      cases hsome
  · intro hqueue
    have hsize := r.length_queue
    rw [hqueue, List.length_nil] at hsize
    have hkeys : r.keys = #[] := Array.eq_empty_of_size_eq_zero hsize.symm
    rw [Ring.take?, sweep_succ, hkeys]
    rfl

theorem WellFormed.take? (h : r.WellFormed) (htake : r.take? = some (k, rest)) :
    rest.WellFormed ∧ r.queue.take? = some (k, rest.queue) := by
  cases hqueue : r.queue.take? with
  | none =>
    rw [SecondChance.take?_eq_none_iff, queue_eq_nil_iff, ← h.take?_eq_none_iff] at hqueue
    rw [hqueue] at htake
    cases htake
  | some taken =>
    obtain ⟨visits, t, -, -, -, htake', hrest, hothers⟩ := h.exists_take? hqueue
    rw [htake] at htake'
    cases htake'
    exact ⟨hrest, by rw [hothers]⟩

theorem WellFormed.take?_perm (h : r.WellFormed) (htake : r.take? = some (k, rest)) :
    rest.WellFormed ∧ r.toList.Perm (k :: rest.toList) := by
  obtain ⟨hrest, hqueue⟩ := h.take? htake
  refine ⟨hrest, ?_⟩
  have hperm := SecondChance.keys_perm_of_take? hqueue
  rwa [keys_queue, keys_queue] at hperm

end CacheServer.Ring
