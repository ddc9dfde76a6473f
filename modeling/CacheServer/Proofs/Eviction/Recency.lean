import CacheServer.Eviction.Recency
import CacheServer.Proofs.Eviction.Labelling

/-!
Keys by their latest touch, as a list without repetitions. Every operation is described by what it
does to the list: a touch moves a key to the end, and keys are taken from either end.
-/

namespace CacheServer

section Loop

variable {α : Type} {step : α → α} (excess : α → Nat)

/-- To begin with one round of a loop makes no difference, if each round takes one off what decides how many
are left. -/
theorem repeat_excess_step (hstep : ∀ a, excess (step a) = excess a - 1) {a : α} (ha : 0 < excess a) :
    Nat.repeat step (excess (step a)) (step a) = Nat.repeat step (excess a) a := by
  have hcomm (count : Nat) : Nat.repeat step count (step a) = Nat.repeat step (count + 1) a := by
    induction count with
    | zero => rfl
    | succ count ih => exact congrArg step ih
  rw [hstep, hcomm, Nat.sub_add_cancel ha]

/-- Such a loop ends. -/
theorem repeat_excess_induction (hstep : ∀ a, excess (step a) = excess a - 1) {P : α → α → Prop}
    (hdone : ∀ a, excess a = 0 → P a a) (hround : ∀ a b, 0 < excess a → P (step a) b → P a b) (a : α) :
    P a (Nat.repeat step (excess a) a) := by
  induction hcount : excess a generalizing a with
  | zero => exact hdone a hcount
  | succ count ih =>
    have hpos : 0 < excess a := by omega
    have hnext : excess (step a) = count := by
      rw [hstep]
      omega
    have hrest := ih (step a) hnext
    rw [← hnext, repeat_excess_step excess hstep hpos, hcount] at hrest
    exact hround a _ hpos hrest

end Loop

section Lists

variable {l l' m m' : List Key} {k : Key}

/-- The two lists together keep a key that goes from the second to the first. -/
theorem perm_move_left (hto : l'.Perm (k :: l)) (hfrom : m.Perm (k :: m')) :
    (l' ++ m').Perm (l ++ m) :=
  (hto.append_right m').trans (List.perm_middle.symm.trans (hfrom.symm.append_left l))

/-- The two lists together keep a key that goes from the first to the second. -/
theorem perm_move_right (hfrom : l.Perm (k :: l')) (hto : m'.Perm (k :: m)) :
    (l' ++ m').Perm (l ++ m) :=
  (hto.append_left l').trans (List.perm_middle.trans (hfrom.symm.append_right m))

theorem erase_append_of_nodup (h : (l ++ m).Nodup) (k : Key) :
    (l ++ m).erase k = l.erase k ++ m.erase k := by
  obtain ⟨hl, hm, -⟩ := List.nodup_append.mp h
  rw [h.erase_eq_filter, hl.erase_eq_filter, hm.erase_eq_filter, List.filter_append]

end Lists

namespace Recency

open Std

variable {r rest : Recency} {k : Key}

/-- `order` and `stamps` are inverse to each other, and every stamp is older than the next one. -/
structure WellFormed (r : Recency) : Prop where
  inverse : Inverse r.order r.stamps
  lt_clock : ∀ (stamp : Nat) (k : Key), r.order[stamp]? = some k → stamp < r.clock

theorem wellFormed_empty : empty.WellFormed :=
  ⟨Inverse.empty, by simp [empty]⟩

@[simp] theorem toList_empty : empty.toList = [] := by
  simp [empty, toList]

theorem wellFormed_clear (r : Recency) : r.clear.WellFormed :=
  ⟨Inverse.empty, by simp [clear]⟩

@[simp] theorem toList_clear (r : Recency) : r.clear.toList = [] := by
  simp [clear, toList]

@[simp] theorem length_toList (r : Recency) : r.toList.length = r.size := by
  simp [toList, size]

theorem isEmpty_iff : r.isEmpty = true ↔ r.toList = [] := by
  simp [isEmpty, toList]

theorem WellFormed.mem_toList_iff (h : r.WellFormed) : k ∈ r.toList ↔ k ∈ r.stamps :=
  h.inverse.mem_iff

theorem WellFormed.contains_iff (h : r.WellFormed) : r.contains k = true ↔ k ∈ r.toList := by
  rw [h.mem_toList_iff, contains, ExtTreeMap.contains_iff_mem]

theorem WellFormed.contains_eq_decide (h : r.WellFormed) (k : Key) :
    r.contains k = decide (k ∈ r.toList) := by
  rw [Bool.eq_iff_iff, h.contains_iff, decide_eq_true_iff]

theorem WellFormed.size_ne_zero_of_contains (h : r.WellFormed) (hk : r.contains k = true) :
    r.size ≠ 0 := by
  have hpos := List.length_pos_of_mem (h.contains_iff.mp hk)
  rw [length_toList] at hpos
  omega

theorem WellFormed.nodup_toList (h : r.WellFormed) : r.toList.Nodup :=
  h.inverse.nodup

theorem WellFormed.dropAt (h : r.WellFormed) {stamp : Nat} (hk : r.order[stamp]? = some k) :
    WellFormed { r with order := r.order.erase stamp, stamps := r.stamps.erase k } := by
  refine ⟨h.inverse.erase hk, ?_⟩
  intro stamp' k' hk'
  rw [ExtTreeMap.getElem?_erase] at hk'
  split at hk'
  · cases hk'
  · exact h.lt_clock _ _ hk'

theorem WellFormed.erase (h : r.WellFormed) (k : Key) : (r.erase k).WellFormed := by
  unfold Recency.erase Recency.remove
  cases hk : r.stamps[k]? with
  | none => exact h
  | some stamp => exact h.dropAt ((h.inverse _ _).mp hk)

theorem remove_eq (r : Recency) (k : Key) : r.remove k = (r.contains k, r.erase k) := by
  have hflag : (r.remove k).1 = r.stamps[k]?.isSome := by
    unfold remove
    cases r.stamps[k]? <;> rfl
  rw [contains, ExtTreeMap.contains_eq_isSome_getElem?, ← hflag]
  rfl

theorem WellFormed.toList_erase (h : r.WellFormed) (k : Key) :
    (r.erase k).toList = r.toList.erase k := by
  unfold Recency.erase Recency.remove
  cases hk : r.stamps[k]? with
  | none =>
    have hmem : k ∉ r.toList := by
      rw [h.mem_toList_iff]
      exact (getElem?_eq_none_iff r.stamps k).mp hk
    exact (List.erase_of_not_mem hmem).symm
  | some stamp => exact h.inverse.toList_erase ((h.inverse _ _).mp hk)

@[simp] theorem clock_erase (r : Recency) (k : Key) : (r.erase k).clock = r.clock := by
  unfold erase remove
  split <;> rfl

/-- A touch is an erasure followed by an insertion behind all other keys. -/
theorem touch_eq (r : Recency) (k : Key) :
    r.touch k =
      { clock := r.clock + 1
        order := (r.erase k).order.insert r.clock k
        stamps := (r.erase k).stamps.insert k r.clock } := by
  unfold touch erase remove
  cases hk : r.stamps[k]? with
  | none => rfl
  | some stamp => simp [insert_erase_self]

theorem WellFormed.lt_clock_of_mem (h : r.WellFormed) {stamp : Nat} (hstamp : stamp ∈ r.order) :
    stamp < r.clock := by
  rw [ExtTreeMap.mem_iff_isSome_getElem?, Option.isSome_iff_exists] at hstamp
  obtain ⟨k, hk⟩ := hstamp
  exact h.lt_clock stamp k hk

theorem WellFormed.touch (h : r.WellFormed) (k : Key) : (r.touch k).WellFormed := by
  have herase := h.erase k
  have hgone : k ∉ (r.erase k).stamps := by
    rw [← herase.mem_toList_iff, h.toList_erase]
    exact h.nodup_toList.not_mem_erase
  have hfuture : r.clock ∉ (r.erase k).order := by
    intro hmem
    have := herase.lt_clock_of_mem hmem
    rw [clock_erase] at this
    omega
  rw [touch_eq]
  refine ⟨herase.inverse.insert hgone hfuture, ?_⟩
  intro stamp k' hk'
  simp only [ExtTreeMap.getElem?_insert, LawfulEqCmp.compare_eq_iff_eq] at hk'
  change stamp < r.clock + 1
  split at hk'
  · omega
  · have := herase.lt_clock _ _ hk'
    rw [clock_erase] at this
    omega

/-- A touched key becomes the newest, and the others keep their order. -/
theorem WellFormed.toList_touch (h : r.WellFormed) (k : Key) :
    (r.touch k).toList = r.toList.erase k ++ [k] := by
  have hlt : ∀ stamp ∈ (r.erase k).order, compare stamp r.clock = .lt := by
    intro stamp hstamp
    have hbelow := (h.erase k).lt_clock_of_mem hstamp
    rw [clock_erase] at hbelow
    exact Nat.compare_eq_lt.mpr hbelow
  rw [← h.toList_erase, touch_eq]
  simp [toList, toList_insert_of_lt hlt]

theorem WellFormed.toList_touch_of_not_mem (h : r.WellFormed) (hk : k ∉ r.toList) :
    (r.touch k).toList = r.toList ++ [k] := by
  rw [h.toList_touch, List.erase_of_not_mem hk]

theorem WellFormed.size_touch_of_not_mem (h : r.WellFormed) (hk : k ∉ r.toList) :
    (r.touch k).size = r.size + 1 := by
  rw [← length_toList, h.toList_touch_of_not_mem hk, List.length_append, length_toList,
    List.length_singleton]

theorem WellFormed.size_erase_le (h : r.WellFormed) (k : Key) : (r.erase k).size ≤ r.size := by
  rw [← length_toList, ← length_toList, h.toList_erase]
  exact List.length_erase_le

theorem WellFormed.mem_touch_of_ne (h : r.WellFormed) {newest : Key} (hne : k ≠ newest) :
    k ∈ (r.touch newest).toList ↔ k ∈ r.toList := by
  rw [h.toList_touch, List.mem_append, List.mem_erase_of_ne hne, List.mem_singleton]
  exact or_iff_left hne

theorem WellFormed.mem_erase_of_ne (h : r.WellFormed) {gone : Key} (hne : k ≠ gone) :
    k ∈ (r.erase gone).toList ↔ k ∈ r.toList := by
  rw [h.toList_erase, List.mem_erase_of_ne hne]

theorem WellFormed.touch_perm (h : r.WellFormed) (hk : k ∉ r.toList) :
    (r.touch k).toList.Perm (k :: r.toList) := by
  rw [h.toList_touch_of_not_mem hk]
  exact List.perm_append_singleton k r.toList

theorem WellFormed.touch_perm_of_mem (h : r.WellFormed) (hk : k ∈ r.toList) :
    (r.touch k).toList.Perm r.toList := by
  rw [h.toList_touch]
  exact (List.perm_append_singleton k _).trans (List.perm_cons_erase hk).symm

theorem WellFormed.erase_perm (h : r.WellFormed) (hk : k ∈ r.toList) :
    r.toList.Perm (k :: (r.erase k).toList) := by
  rw [h.toList_erase]
  exact List.perm_cons_erase hk

theorem takeAt?_eq_some_iff {stamp : Nat} :
    r.takeAt? stamp = some (k, rest) ↔ r.order[stamp]? = some k ∧
      rest = { r with order := r.order.erase stamp, stamps := r.stamps.erase k } := by
  unfold takeAt?
  rw [Option.map_eq_some_iff]
  constructor
  · rintro ⟨found, hfound, htake⟩
    obtain ⟨rfl, rfl⟩ := Prod.mk.inj htake
    exact ⟨hfound, rfl⟩
  · rintro ⟨hk, rfl⟩
    exact ⟨k, hk, rfl⟩

theorem oldest?_eq_head? (r : Recency) : r.oldest? = r.toList.head? := by
  unfold oldest? toList
  cases hmin : r.order.minKey? with
  | none =>
    rw [ExtTreeMap.minKey?_eq_none_iff] at hmin
    simp [ExtTreeMap.toList_eq_nil_iff.mpr hmin]
  | some stamp =>
    obtain ⟨k, hk⟩ := exists_getElem?_of_minKey? hmin
    simp [toList_of_minKey? hmin hk, hk]

theorem oldest?_ne_of_not_mem (hk : k ∉ r.toList) : r.oldest? ≠ some k := by
  rw [oldest?_eq_head?]
  intro hhead
  exact hk (List.mem_of_head? hhead)

/-- Taking the oldest key splits the list at its front. -/
theorem WellFormed.takeOldest? (h : r.WellFormed) (htake : r.takeOldest? = some (k, rest)) :
    rest.WellFormed ∧ r.toList = k :: rest.toList := by
  obtain ⟨stamp, hmin, htake⟩ := Option.bind_eq_some_iff.mp htake
  obtain ⟨hk, rfl⟩ := takeAt?_eq_some_iff.mp htake
  refine ⟨h.dropAt hk, ?_⟩
  simp [toList, toList_of_minKey? hmin hk]

theorem WellFormed.mem_of_takeOldest?_self (h : r.WellFormed) (htake : r.takeOldest? = some (k, rest)) :
    k ∈ r.toList := by
  rw [(h.takeOldest? htake).2]
  exact List.mem_cons_self

theorem WellFormed.mem_of_takeOldest? (h : r.WellFormed) {oldest : Key}
    (htake : r.takeOldest? = some (oldest, rest)) (hne : k ≠ oldest) :
    k ∈ rest.toList ↔ k ∈ r.toList := by
  rw [(h.takeOldest? htake).2, List.mem_cons]
  exact (or_iff_right hne).symm

theorem takeOldest?_eq_none_iff : r.takeOldest? = none ↔ r.toList = [] := by
  unfold Recency.takeOldest?
  cases hmin : r.order.minKey? with
  | none =>
    rw [ExtTreeMap.minKey?_eq_none_iff] at hmin
    simp [toList, hmin]
  | some stamp =>
    obtain ⟨k, hk⟩ := exists_getElem?_of_minKey? hmin
    simp [toList, toList_of_minKey? hmin hk, takeAt?, hk]

/-- Taking the newest key splits the list at its end. -/
theorem WellFormed.takeNewest? (h : r.WellFormed) (htake : r.takeNewest? = some (k, rest)) :
    rest.WellFormed ∧ r.toList = rest.toList ++ [k] := by
  obtain ⟨stamp, hmax, htake⟩ := Option.bind_eq_some_iff.mp htake
  obtain ⟨hk, rfl⟩ := takeAt?_eq_some_iff.mp htake
  refine ⟨h.dropAt hk, ?_⟩
  simp [toList, toList_of_maxKey? hmax hk]

theorem takeNewest?_eq_none_iff : r.takeNewest? = none ↔ r.toList = [] := by
  unfold Recency.takeNewest?
  cases hmax : r.order.maxKey? with
  | none =>
    rw [ExtTreeMap.maxKey?_eq_none_iff] at hmax
    simp [toList, hmax]
  | some stamp =>
    obtain ⟨k, hk⟩ := exists_getElem?_of_maxKey? hmax
    simp [toList, toList_of_maxKey? hmax hk, takeAt?, hk]

theorem WellFormed.takeOldest?_perm (h : r.WellFormed) (htake : r.takeOldest? = some (k, rest)) :
    rest.WellFormed ∧ r.toList.Perm (k :: rest.toList) := by
  obtain ⟨hrest, hlist⟩ := h.takeOldest? htake
  exact ⟨hrest, .of_eq hlist⟩

theorem WellFormed.takeNewest?_perm (h : r.WellFormed) (htake : r.takeNewest? = some (k, rest)) :
    rest.WellFormed ∧ r.toList.Perm (k :: rest.toList) := by
  obtain ⟨hrest, hlist⟩ := h.takeNewest? htake
  rw [hlist]
  exact ⟨hrest, List.perm_append_singleton k rest.toList⟩

theorem WellFormed.dropOldest (h : r.WellFormed) :
    r.dropOldest.WellFormed ∧ r.dropOldest.toList = r.toList.tail := by
  unfold Recency.dropOldest
  cases htake : r.takeOldest? with
  | none => simp [h, takeOldest?_eq_none_iff.mp htake]
  | some taken =>
    obtain ⟨hrest, hlist⟩ := h.takeOldest? htake
    simp [hrest, hlist]

theorem size_dropOldest (r : Recency) : r.dropOldest.size = r.size - 1 := by
  unfold Recency.dropOldest Recency.takeOldest? size
  cases hmin : r.order.minKey? with
  | none =>
    rw [ExtTreeMap.minKey?_eq_none_iff] at hmin
    simp [hmin]
  | some stamp =>
    obtain ⟨k, hk⟩ := exists_getElem?_of_minKey? hmin
    have hstamp : stamp ∈ r.order := mem_of_getElem? hk
    simp [takeAt?, ExtTreeMap.size_erase, hstamp]

/-- Every key but the oldest is left. -/
theorem WellFormed.mem_dropOldest (h : r.WellFormed) :
    k ∈ r.dropOldest.toList ↔ k ∈ r.toList ∧ r.oldest? ≠ some k := by
  have hnodup := h.nodup_toList
  rw [h.dropOldest.2, oldest?_eq_head?]
  cases hlist : r.toList with
  | nil => simp
  | cons first others =>
    rw [hlist, List.nodup_cons] at hnodup
    simp only [List.tail_cons, List.mem_cons, List.head?_cons, ne_eq, Option.some.injEq]
    constructor
    · intro hk
      exact ⟨.inr hk, fun heq => hnodup.1 (heq ▸ hk)⟩
    · rintro ⟨hk, hne⟩
      exact hk.resolve_left (Ne.symm hne)

/-- A key that is touched for the first time is not in the way of the oldest. -/
theorem WellFormed.mem_dropOldest_touch (h : r.WellFormed) {newest : Key} (hnewest : newest ∉ r.toList)
    (hne : k ≠ newest) :
    k ∈ (r.touch newest).dropOldest.toList ↔ k ∈ r.toList ∧ r.oldest? ≠ some k := by
  rw [(h.touch newest).mem_dropOldest, oldest?_eq_head?, oldest?_eq_head?,
    h.toList_touch_of_not_mem hnewest]
  cases r.toList <;> simp [hne, hne.symm]

theorem WellFormed.shrinkTo (h : r.WellFormed) (n : Nat) :
    (r.shrinkTo n).WellFormed ∧ (r.shrinkTo n).toList = r.toList.drop (r.size - n) := by
  have hrepeat (count : Nat) : (Nat.repeat Recency.dropOldest count r).WellFormed ∧
      (Nat.repeat Recency.dropOldest count r).toList = r.toList.drop count := by
    induction count with
    | zero => exact ⟨h, rfl⟩
    | succ count ih =>
      obtain ⟨hwf, hlist⟩ := ih
      obtain ⟨hnext, htail⟩ := hwf.dropOldest
      refine ⟨hnext, ?_⟩
      rw [Nat.repeat, htail, hlist, List.tail_drop]
  exact hrepeat (r.size - n)

theorem shrinkTo_of_le {n : Nat} (hsize : r.size ≤ n) : r.shrinkTo n = r := by
  rw [shrinkTo, Nat.sub_eq_zero_of_le hsize]
  rfl

theorem shrinkTo_of_size_eq_succ {n : Nat} (hsize : r.size = n + 1) : r.shrinkTo n = r.dropOldest := by
  rw [shrinkTo, hsize, Nat.add_sub_cancel_left]
  rfl

/-- The loop that drops keys, the oldest in each round, until no more than `n` are left. -/
inductive Shrinks (n : Nat) : Recency → Recency → Prop where
  | done {r : Recency} (h : r.size ≤ n) : Shrinks n r r
  | drop {r s : Recency} (h : n < r.size) (rest : Shrinks n r.dropOldest s) : Shrinks n r s

/-- The loop ends, and only with the keys that the shrunken list has. -/
theorem shrinks_iff {n : Nat} {s : Recency} : r.Shrinks n s ↔ s = r.shrinkTo n := by
  have hstep (r : Recency) : r.dropOldest.size - n = r.size - n - 1 := by
    rw [size_dropOldest, Nat.sub_right_comm]
  constructor
  · intro hshrinks
    induction hshrinks with
    | done h => exact (shrinkTo_of_le h).symm
    | drop h _ ih =>
      rw [ih]
      exact repeat_excess_step (fun r : Recency => r.size - n) hstep (Nat.sub_pos_of_lt h)
  · rintro rfl
    refine repeat_excess_induction (fun r : Recency => r.size - n) hstep (fun r hr => ?_)
      (fun r s hr hrest => ?_) r
    · exact .done (by omega)
    · exact .drop (by omega) hrest

end Recency

end CacheServer
