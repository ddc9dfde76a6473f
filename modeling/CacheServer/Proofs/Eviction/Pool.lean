import CacheServer.Eviction.Pool
import CacheServer.Proofs.OrderedMap

/-!
Keys in an array without gaps. Taking a key out moves at most one other key, and the position map
follows that move, so each key is found where it stands.
-/

namespace CacheServer.Pool

open Std

variable {p rest : Pool} {k : Key} {i j : Nat}

/-- The position map leads to the place where a key stands, and to no other key. -/
def WellFormed (p : Pool) : Prop :=
  ∀ (k : Key) (i : Nat), p.positions[k]? = some i ↔ p.keys[i]? = some k

theorem wellFormed_empty : empty.WellFormed := by
  intro k i
  simp [empty]

theorem mem_keys_iff : k ∈ p.keys.toList ↔ ∃ i : Nat, p.keys[i]? = some k := by
  rw [Array.mem_toList_iff, Array.mem_iff_getElem?]

theorem WellFormed.mem_iff (h : p.WellFormed) : k ∈ p.keys.toList ↔ k ∈ p.positions := by
  rw [ExtTreeMap.mem_iff_isSome_getElem?, Option.isSome_iff_exists, mem_keys_iff]
  exact exists_congr fun i => (h k i).symm

theorem WellFormed.position_unique (h : p.WellFormed) (hi : p.keys[i]? = some k)
    (hj : p.keys[j]? = some k) : i = j := by
  rw [← h k] at hi hj
  exact Option.some.inj (hi.symm.trans hj)

theorem WellFormed.positions_eq_none (h : p.WellFormed) (hk : k ∉ p.keys.toList) :
    p.positions[k]? = none := by
  apply ExtTreeMap.getElem?_eq_none
  rwa [← h.mem_iff]

theorem WellFormed.nodup_keys (h : p.WellFormed) : p.keys.toList.Nodup := by
  rw [List.nodup_iff_getElem?_ne_getElem?]
  intro i j hij hj heq
  rw [Array.length_toList] at hj
  rw [Array.getElem?_toList, Array.getElem?_toList, Array.getElem?_eq_getElem hj] at heq
  have hsame := h.position_unique heq (Array.getElem?_eq_getElem hj)
  omega

theorem WellFormed.add (h : p.WellFormed) (hk : k ∉ p.keys.toList) : (p.add k).WellFormed := by
  have hnone := h.positions_eq_none hk
  intro k' i
  simp only [Pool.add, ExtTreeMap.getElem?_insert, LawfulEqCmp.compare_eq_iff_eq,
    Array.getElem?_push]
  have hinverse := h k' i
  by_cases hi : i = p.keys.size
  · subst i
    rw [Array.getElem?_eq_none (Nat.le_refl _)] at hinverse
    by_cases hkk : k = k' <;> simp_all
  · by_cases hkk : k = k'
    · subst k'
      rw [hnone] at hinverse
      simpa [hi, Ne.symm hi] using hinverse
    · simpa [hi, hkk] using hinverse

theorem map_fst_takeAt? (p : Pool) (i : Nat) : (p.takeAt? i).map Prod.fst = p.keys[i]? := by
  unfold Pool.takeAt?
  by_cases hi : i < p.keys.size <;> simp [hi]

theorem getElem?_of_takeAt? (htake : p.takeAt? i = some (k, rest)) : p.keys[i]? = some k := by
  rw [← map_fst_takeAt?, htake]
  rfl

/-- What stands at each position once the last key has taken the place of another. -/
theorem getElem?_set_back_pop {keys : Array Key} (hi : i < keys.size) (j : Nat) :
    ((keys.set i (keys.back (by omega)) hi).pop)[j]? =
      if j + 1 < keys.size then keys[if j = i then keys.size - 1 else j]? else none := by
  rw [Array.getElem?_pop, Array.size_set]
  by_cases hj : j + 1 < keys.size
  · rw [if_pos hj, if_pos (by omega), Array.getElem?_set, Array.back_eq_getElem]
    by_cases hji : i = j
    · simp [hji]
    · rw [if_neg hji, if_neg (Ne.symm hji)]
  · rw [if_neg hj, if_neg (by omega)]

theorem getElem?_keys_of_takeAt? (htake : p.takeAt? i = some (k, rest)) (j : Nat) :
    rest.keys[j]? =
      if j + 1 < p.keys.size then p.keys[if j = i then p.keys.size - 1 else j]? else none := by
  unfold Pool.takeAt? at htake
  split at htake
  case isFalse => cases htake
  case isTrue hi =>
    obtain ⟨-, rfl⟩ := Prod.mk.inj (Option.some.inj htake)
    exact getElem?_set_back_pop hi j

/-- Where a key that stood at `j` is once the last key has moved to `i`. -/
def moveLast (p : Pool) (i j : Nat) : Nat :=
  if j + 1 = p.keys.size then i else j

theorem WellFormed.map_moveLast (h : p.WellFormed) (hlast : p.keys[p.keys.size - 1]? ≠ some k) (i : Nat) :
    p.positions[k]?.map (p.moveLast i) = p.positions[k]? := by
  cases hposition : p.positions[k]? with
  | none => rfl
  | some j =>
    have hne : j + 1 ≠ p.keys.size := by
      intro heq
      apply hlast
      rw [← heq, Nat.add_sub_cancel]
      exact (h k j).mp hposition
    rw [Option.map_some, moveLast, if_neg hne]

/-- The key that is taken is recorded nowhere, the last key where there was a gap, and every other key where it
was. If the last key is the one that is taken, nothing moves. -/
theorem WellFormed.getElem?_positions_of_takeAt? (h : p.WellFormed)
    (htake : p.takeAt? i = some (k, rest)) (k' : Key) :
    rest.positions[k']? = if k = k' then none else p.positions[k']?.map (p.moveLast i) := by
  have hgap := getElem?_keys_of_takeAt? htake i
  rw [if_pos rfl] at hgap
  unfold Pool.takeAt? at htake
  split at htake
  case isFalse => cases htake
  case isTrue hi =>
    obtain ⟨rfl, rfl⟩ := Prod.mk.inj (Option.some.inj htake)
    have hk := Array.getElem?_eq_getElem hi
    generalize p.keys[i] = k at hk hgap ⊢
    by_cases hlast : i + 1 < p.keys.size
    · obtain ⟨moved, hmoved⟩ : ∃ moved, p.keys[p.keys.size - 1]? = some moved :=
        ⟨_, Array.getElem?_eq_getElem (by omega)⟩
      rw [if_pos hlast, hmoved] at hgap
      simp only [hgap, ExtTreeMap.getElem?_insert, ExtTreeMap.getElem?_erase,
        LawfulEqCmp.compare_eq_iff_eq]
      by_cases hmk : moved = k'
      · subst k'
        have hne : k ≠ moved := by
          rintro rfl
          have hsame := h.position_unique hk hmoved
          omega
        rw [if_pos rfl, if_neg hne, (h moved _).mpr hmoved, Option.map_some, moveLast,
          if_pos (by omega)]
      · rw [if_neg hmk, h.map_moveLast]
        rw [hmoved]
        exact fun heq => hmk (Option.some.inj heq)
    · have hend : p.keys.size - 1 = i := by omega
      rw [if_neg hlast] at hgap
      simp only [hgap, ExtTreeMap.getElem?_erase, LawfulEqCmp.compare_eq_iff_eq]
      by_cases hkk : k = k'
      · rw [if_pos hkk, if_pos hkk]
      · rw [if_neg hkk, if_neg hkk, h.map_moveLast]
        rw [hend, hk]
        exact fun heq => hkk (Option.some.inj heq)

/-- Taking a key out leaves each other key where the position map says. -/
theorem WellFormed.takeAt? (h : p.WellFormed) (htake : p.takeAt? i = some (k, rest)) :
    rest.WellFormed := by
  have hk := getElem?_of_takeAt? htake
  have hi := (Array.getElem?_eq_some_iff.mp hk).1
  intro k' j
  rw [h.getElem?_positions_of_takeAt? htake, getElem?_keys_of_takeAt? htake]
  constructor
  · intro hposition
    split at hposition
    case isTrue => cases hposition
    case isFalse hne =>
      obtain ⟨m, hm, rfl⟩ := Option.map_eq_some_iff.mp hposition
      have hkm := (h k' m).mp hm
      have hlt := (Array.getElem?_eq_some_iff.mp hkm).1
      have hmi : m ≠ i := by
        rintro rfl
        exact hne (Option.some.inj (hk.symm.trans hkm))
      rw [moveLast]
      by_cases hlast : m + 1 = p.keys.size
      · rwa [if_pos hlast, if_pos (by omega), if_pos rfl, ← hlast, Nat.add_sub_cancel]
      · rwa [if_neg hlast, if_pos (by omega), if_neg hmi]
  · intro hkey
    split at hkey
    case isFalse => cases hkey
    case isTrue hj =>
      have hne : k ≠ k' := by
        rintro rfl
        have hsame := h.position_unique hk hkey
        split at hsame <;> omega
      rw [if_neg hne, (h k' _).mpr hkey, Option.map_some, moveLast]
      by_cases hji : j = i
      · rw [if_pos hji, if_pos (by omega), hji]
      · rw [if_neg hji, if_neg (by omega)]

theorem WellFormed.takeAt?_perm (h : p.WellFormed) (htake : p.takeAt? i = some (k, rest)) :
    rest.WellFormed ∧ p.keys.toList.Perm (k :: rest.keys.toList) := by
  have hrest := h.takeAt? htake
  have hpresent : k ∈ p.positions := mem_of_getElem? ((h k i).mpr (getElem?_of_takeAt? htake))
  have hmem (k' : Key) : k' ∈ rest.positions ↔ k ≠ k' ∧ k' ∈ p.positions := by
    rw [ExtTreeMap.mem_iff_isSome_getElem?, h.getElem?_positions_of_takeAt? htake,
      ExtTreeMap.mem_iff_isSome_getElem?]
    by_cases hkk : k = k' <;> simp [hkk]
  have hgone : k ∉ rest.keys.toList := by
    rw [hrest.mem_iff, hmem]
    simp
  refine ⟨hrest, (List.perm_ext_iff_of_nodup h.nodup_keys
    (List.nodup_cons.mpr ⟨hgone, hrest.nodup_keys⟩)).mpr ?_⟩
  intro k'
  rw [List.mem_cons, h.mem_iff, hrest.mem_iff, hmem]
  by_cases hkk : k' = k
  · simp [hkk, hpresent]
  · simp [hkk, Ne.symm hkk]

/-- A key is taken from where it stands: no position at which there is a key is refused. -/
theorem exists_takeAt? (hk : p.keys[i]? = some k) : ∃ rest, p.takeAt? i = some (k, rest) := by
  rw [← map_fst_takeAt?] at hk
  obtain ⟨⟨found, rest⟩, htake, rfl⟩ := Option.map_eq_some_iff.mp hk
  exact ⟨rest, htake⟩

/-- The position that is recorded for a key is one at which that key can be taken. -/
theorem WellFormed.exists_erase (h : p.WellFormed) (hposition : p.positions[k]? = some i) :
    ∃ rest, p.takeAt? i = some (k, rest) ∧ p.erase k = rest := by
  obtain ⟨rest, htake⟩ := exists_takeAt? ((h k i).mp hposition)
  refine ⟨rest, htake, ?_⟩
  simp [Pool.erase, hposition, htake]

theorem WellFormed.erase_of_not_mem (h : p.WellFormed) (hk : k ∉ p.keys.toList) : p.erase k = p := by
  simp [Pool.erase, h.positions_eq_none hk]

theorem WellFormed.erase (h : p.WellFormed) (k : Key) :
    (p.erase k).WellFormed ∧ (p.erase k).keys.toList.Perm (p.keys.toList.erase k) := by
  by_cases hk : k ∈ p.keys.toList
  · obtain ⟨i, hi⟩ := mem_keys_iff.mp hk
    obtain ⟨rest, htake, herase⟩ := h.exists_erase ((h k i).mpr hi)
    obtain ⟨hrest, hperm⟩ := h.takeAt?_perm htake
    rw [herase]
    refine ⟨hrest, ?_⟩
    simpa using (hperm.erase k).symm
  · rw [h.erase_of_not_mem hk, List.erase_of_not_mem hk]
    exact ⟨h, .refl _⟩

/-- Any number draws a key as long as there is one. -/
theorem draw?_eq_none_iff {n : Nat} : p.draw? n = none ↔ p.keys.toList = [] := by
  unfold draw? Pool.takeAt?
  by_cases hempty : p.keys.size = 0
  · simp_all
  · have hlt := Nat.mod_lt n (Nat.pos_of_ne_zero hempty)
    simp_all

theorem draw?_of_lt (hi : i < p.keys.size) : p.draw? i = p.takeAt? i := by
  rw [draw?, Nat.mod_eq_of_lt hi]

/-- Of the numbers below the number of keys one draws a given key, and no other one does. -/
theorem WellFormed.existsUnique_draw? (h : p.WellFormed) (hk : k ∈ p.keys.toList) :
    ∃! i, i < p.keys.size ∧ (p.draw? i).map Prod.fst = some k := by
  have hdraw {i : Nat} (hi : i < p.keys.size) : (p.draw? i).map Prod.fst = p.keys[i]? := by
    rw [draw?_of_lt hi, map_fst_takeAt?]
  obtain ⟨i, hi⟩ := mem_keys_iff.mp hk
  have hlt := (Array.getElem?_eq_some_iff.mp hi).1
  refine ⟨i, ⟨hlt, (hdraw hlt).trans hi⟩, ?_⟩
  rintro j ⟨hj, hkj⟩
  rw [hdraw hj] at hkj
  exact h.position_unique hkj hi

end CacheServer.Pool
