import CacheServer.Proofs.Eviction.Call

/-!
Bookkeepings between which no call can tell. Their clocks may differ, and so may the places of their keys, as
long as they put the keys in the same order. Each call then leads to bookkeepings that are alike again, and
the same key goes.
-/

namespace CacheServer

open Std

/-- No key is taken either way, or the same key is, and what is left is alike. -/
def TakesAlike {α : Type} (Alike : α → α → Prop) : Option (Key × α) → Option (Key × α) → Prop :=
  Option.Rel fun taken taken' => taken.1 = taken'.1 ∧ Alike taken.2 taken'.2

namespace TakesAlike

variable {α β : Type} {Alike : α → α → Prop} {Alike' : β → β → Prop} {taken taken' : Option (Key × α)}

theorem of_cases (hnone : taken = none ↔ taken' = none)
    (hsome : ∀ k rest k' rest', taken = some (k, rest) → taken' = some (k', rest') →
      k = k' ∧ Alike rest rest') : TakesAlike Alike taken taken' := by
  cases htaken : taken with
  | none =>
    rw [hnone.mp htaken]
    exact .none
  | some left =>
    obtain ⟨right, hright⟩ := Option.ne_none_iff_exists'.mp (mt hnone.mpr (by simp [htaken]))
    rw [hright]
    exact .some (hsome left.1 left.2 right.1 right.2 htaken hright)

theorem none_or_some (h : TakesAlike Alike taken taken') :
    (taken = none ∧ taken' = none) ∨
      ∃ k rest rest', taken = some (k, rest) ∧ taken' = some (k, rest') ∧ Alike rest rest' := by
  cases h with
  | none => exact .inl ⟨rfl, rfl⟩
  | @some left right htaken =>
    obtain ⟨k, rest⟩ := left
    obtain ⟨k', rest'⟩ := right
    obtain ⟨rfl, hrest⟩ := htaken
    exact .inr ⟨k, rest, rest', rfl, rfl, hrest⟩

theorem map (h : TakesAlike Alike taken taken') {f f' : Key × α → Key × β}
    (hf : ∀ k rest rest', Alike rest rest' →
      (f (k, rest)).1 = (f' (k, rest')).1 ∧ Alike' (f (k, rest)).2 (f' (k, rest')).2) :
    TakesAlike Alike' (taken.map f) (taken'.map f') := by
  obtain ⟨rfl, rfl⟩ | ⟨k, rest, rest', rfl, rfl, hrest⟩ := h.none_or_some
  · exact .none
  · exact .some (hf k rest rest' hrest)

theorem refl (hrefl : ∀ x, Alike x x) (taken : Option (Key × α)) : TakesAlike Alike taken taken := by
  cases taken with
  | none => exact .none
  | some found => exact .some ⟨rfl, hrefl found.2⟩

/-- Where no key can be taken, all stays as it is. -/
theorem getD (h : TakesAlike Alike taken taken') {x x' : α} (hx : Alike x x') :
    Alike ((taken.map Prod.snd).getD x) ((taken'.map Prod.snd).getD x') := by
  cases h with
  | none => exact hx
  | some htaken => exact htaken.2

end TakesAlike

namespace Recency

variable {r r' : Recency} {k : Key}

/-- Lists of the same keys in the same order, whatever the stamps. -/
structure Alike (r r' : Recency) : Prop where
  left : r.WellFormed
  right : r'.WellFormed
  toList : r.toList = r'.toList

namespace Alike

theorem clear (r r' : Recency) : r.clear.Alike r'.clear :=
  ⟨wellFormed_clear r, wellFormed_clear r', by simp⟩

theorem empty (r : Recency) : r.clear.Alike .empty :=
  .clear r .empty

theorem touch (h : r.Alike r') (k : Key) : (r.touch k).Alike (r'.touch k) :=
  ⟨h.left.touch k, h.right.touch k, by rw [h.left.toList_touch, h.right.toList_touch, h.toList]⟩

theorem erase (h : r.Alike r') (k : Key) : (r.erase k).Alike (r'.erase k) :=
  ⟨h.left.erase k, h.right.erase k, by rw [h.left.toList_erase, h.right.toList_erase, h.toList]⟩

theorem size_eq (h : r.Alike r') : r.size = r'.size := by
  rw [← length_toList, h.toList, length_toList]

theorem contains_eq (h : r.Alike r') (k : Key) : r.contains k = r'.contains k := by
  rw [Bool.eq_iff_iff, h.left.contains_iff, h.right.contains_iff, h.toList]

theorem isEmpty_eq (h : r.Alike r') : r.isEmpty = r'.isEmpty := by
  rw [Bool.eq_iff_iff, isEmpty_iff, isEmpty_iff, h.toList]

theorem oldest?_eq (h : r.Alike r') : r.oldest? = r'.oldest? := by
  rw [oldest?_eq_head?, oldest?_eq_head?, h.toList]

theorem takeOldest? (h : r.Alike r') : TakesAlike Alike r.takeOldest? r'.takeOldest? := by
  apply TakesAlike.of_cases
  · rw [takeOldest?_eq_none_iff, takeOldest?_eq_none_iff, h.toList]
  · intro k rest k' rest' htake htake'
    obtain ⟨hrest, hlist⟩ := h.left.takeOldest? htake
    obtain ⟨hrest', hlist'⟩ := h.right.takeOldest? htake'
    rw [h.toList, hlist', List.cons.injEq] at hlist
    exact ⟨hlist.1.symm, hrest, hrest', hlist.2.symm⟩

theorem takeNewest? (h : r.Alike r') : TakesAlike Alike r.takeNewest? r'.takeNewest? := by
  apply TakesAlike.of_cases
  · rw [takeNewest?_eq_none_iff, takeNewest?_eq_none_iff, h.toList]
  · intro k rest k' rest' htake htake'
    obtain ⟨hrest, hlist⟩ := h.left.takeNewest? htake
    obtain ⟨hrest', hlist'⟩ := h.right.takeNewest? htake'
    obtain ⟨hinit, hlast⟩ := List.append_inj' (hlist'.symm.trans (h.toList.symm.trans hlist)) rfl
    exact ⟨(List.singleton_inj.mp hlast).symm, hrest, hrest', hinit.symm⟩

theorem dropOldest (h : r.Alike r') : r.dropOldest.Alike r'.dropOldest :=
  h.takeOldest?.getD h

theorem shrinkTo (h : r.Alike r') (n : Nat) : (r.shrinkTo n).Alike (r'.shrinkTo n) := by
  obtain ⟨hleft, hlist⟩ := h.left.shrinkTo n
  obtain ⟨hright, hlist'⟩ := h.right.shrinkTo n
  exact ⟨hleft, hright, by rw [hlist, hlist', h.toList, h.size_eq]⟩

end Alike

end Recency

/-- The rank with a later place and as many uses. -/
def Rank.later (c : Nat) (rank : Rank) : Rank :=
  { rank with place := rank.place + c }

@[simp] theorem Rank.compare_later (c : Nat) (rank rank' : Rank) :
    compare (rank.later c) (rank'.later c) = compare rank rank' := by
  have hplace : compare (rank.place + c) (rank'.place + c) = compare rank.place rank'.place := by
    simp [Nat.compare_eq_ite_lt]
  exact congrArg (compare rank.uses rank'.uses).then hplace

namespace Ranking

variable {r r' : Ranking} {k : Key} {c : Nat}

/-- A key is taken as it is dropped on request. -/
theorem WellFormed.eq_erase_of_takeLeast? (h : r.WellFormed) {rest : Ranking}
    (htake : r.takeLeast? = some (k, rest)) : rest = r.erase k := by
  obtain ⟨rank, -, htake⟩ := Option.bind_eq_some_iff.mp htake
  obtain ⟨found, hfound, htake⟩ := Option.map_eq_some_iff.mp htake
  obtain ⟨rfl, rfl⟩ := Prod.mk.inj htake
  rw [Ranking.erase, (h.inverse found rank).mpr hfound]

/-- Rankings of the same keys by the same numbers of uses, in the first of which all places are later. -/
structure Alike (c : Nat) (r r' : Ranking) : Prop where
  left : r.WellFormed
  right : r'.WellFormed
  places : r.places = r'.places + c
  ranks : ∀ k : Key, r.ranks[k]? = r'.ranks[k]?.map (Rank.later c)

namespace Alike

theorem clear (hplaces : r.places = r'.places + c) : r.clear.Alike c r'.clear :=
  ⟨wellFormed_clear r, wellFormed_clear r', hplaces, by simp [Ranking.clear]⟩

theorem empty (r : Ranking) : r.clear.Alike r.places .empty :=
  ⟨wellFormed_clear r, wellFormed_empty, (Nat.zero_add r.places).symm, by simp [Ranking.clear, Ranking.empty]⟩

/-- A later place in all ranks leaves the keys in their order. -/
theorem toList (h : r.Alike c r') : r.toList = r'.toList := by
  have horder : r.order.toList = r'.order.toList.map fun entry => (entry.1.later c, entry.2) := by
    apply toList_eq_of_increasing
    · rw [List.pairwise_map]
      simpa using r'.order.ordered_keys_toList
    · intro rank k
      rw [← h.left.inverse, h.ranks, Option.map_eq_some_iff, List.mem_map]
      constructor
      · rintro ⟨⟨rank', k'⟩, hmem, heq⟩
        obtain ⟨hrank, rfl⟩ := Prod.mk.inj heq
        rw [ExtTreeMap.mem_toList_iff_getElem?_eq_some, ← h.right.inverse] at hmem
        exact ⟨rank', hmem, hrank⟩
      · rintro ⟨rank', hrank', rfl⟩
        rw [h.right.inverse, ← ExtTreeMap.mem_toList_iff_getElem?_eq_some] at hrank'
        exact ⟨(rank', k), hrank', rfl⟩
  rw [Ranking.toList, horder, List.map_map]
  rfl

theorem add (h : r.Alike c r') (hk : k ∉ r.toList) : (r.add k).Alike c (r'.add k) where
  left := h.left.add hk
  right := h.right.add (h.toList ▸ hk)
  places := by
    simp only [Ranking.add, h.places]
    omega
  ranks k' := by
    simp only [Ranking.add, ExtTreeMap.getElem?_insert, h.places, h.ranks k']
    split <;> rfl

theorem use (h : r.Alike c r') (k : Key) : (r.use k).Alike c (r'.use k) := by
  have hrank := h.ranks k
  refine ⟨(h.left.use k).1, (h.right.use k).1, ?_, fun k' => ?_⟩
  · cases hfound : r'.ranks[k]? <;> simp [Ranking.use, hrank, hfound, h.places]
  · cases hfound : r'.ranks[k]? with
    | none => simp [Ranking.use, hrank, hfound, h.ranks k']
    | some rank =>
      simp only [Ranking.use, hrank, hfound, Option.map_some, ExtTreeMap.getElem?_insert, h.ranks k']
      split <;> rfl

theorem erase (h : r.Alike c r') (k : Key) : (r.erase k).Alike c (r'.erase k) := by
  have hrank := h.ranks k
  refine ⟨h.left.erase k, h.right.erase k, ?_, fun k' => ?_⟩
  · cases hfound : r'.ranks[k]? <;> simp [Ranking.erase, hrank, hfound, h.places]
  · cases hfound : r'.ranks[k]? with
    | none => simp [Ranking.erase, hrank, hfound, h.ranks k']
    | some rank =>
      simp only [Ranking.erase, hrank, hfound, Option.map_some, ExtTreeMap.getElem?_erase, h.ranks k']
      split <;> rfl

theorem takeLeast? (h : r.Alike c r') : TakesAlike (Alike c) r.takeLeast? r'.takeLeast? := by
  apply TakesAlike.of_cases
  · rw [takeLeast?_eq_none_iff, takeLeast?_eq_none_iff, h.toList]
  · intro k rest k' rest' htake htake'
    have hlist := (h.left.takeLeast? htake).2
    rw [h.toList, (h.right.takeLeast? htake').2, List.cons.injEq] at hlist
    obtain ⟨rfl, -⟩ := hlist
    rw [h.left.eq_erase_of_takeLeast? htake, h.right.eq_erase_of_takeLeast? htake']
    exact ⟨rfl, h.erase _⟩

end Alike

end Ranking

namespace Adaptive

variable {a a' : Adaptive}

/-- Both lists and both kinds of ghosts are alike, and so is the target. -/
structure Alike (a a' : Adaptive) : Prop where
  capacity : a.capacity = a'.capacity
  target : a.target = a'.target
  recent : a.recent.Alike a'.recent
  frequent : a.frequent.Alike a'.frequent
  recentGhosts : a.recentGhosts.Alike a'.recentGhosts
  frequentGhosts : a.frequentGhosts.Alike a'.frequentGhosts

namespace Alike

theorem clear (hcapacity : a.capacity = a'.capacity) : a.clear.Alike a'.clear :=
  ⟨hcapacity, rfl, .clear _ _, .clear _ _, .clear _ _, .clear _ _⟩

theorem add (h : a.Alike a') (k : Key) : (a.add k).Alike (a'.add k) := by
  unfold Adaptive.add shift
  rw [h.recentGhosts.contains_eq, h.frequentGhosts.contains_eq, h.capacity, h.target,
    h.recentGhosts.size_eq, h.frequentGhosts.size_eq]
  split
  · exact ⟨rfl, rfl, h.recent, h.frequent.touch k, h.recentGhosts.erase k, h.frequentGhosts⟩
  · split
    · exact ⟨rfl, rfl, h.recent, h.frequent.touch k, h.recentGhosts, h.frequentGhosts.erase k⟩
    · exact ⟨rfl, rfl, h.recent.touch k, h.frequent, h.recentGhosts, h.frequentGhosts⟩

theorem use (h : a.Alike a') (k : Key) : (a.use k).Alike (a'.use k) := by
  unfold Adaptive.use
  rw [h.recent.contains_eq, h.frequent.contains_eq]
  split
  · exact { h with recent := h.recent.erase k, frequent := h.frequent.touch k }
  · split
    · exact { h with frequent := h.frequent.touch k }
    · exact h

theorem erase (h : a.Alike a') (k : Key) : (a.erase k).Alike (a'.erase k) :=
  ⟨h.capacity, h.target, h.recent.erase k, h.frequent.erase k, h.recentGhosts.erase k,
    h.frequentGhosts.erase k⟩

theorem dropGhost (h : a.Alike a') : a.dropGhost.Alike a'.dropGhost := by
  unfold Adaptive.dropGhost
  rw [h.recentGhosts.size_eq, h.frequentGhosts.size_eq]
  split
  · exact { h with recentGhosts := h.recentGhosts.dropOldest }
  · exact { h with frequentGhosts := h.frequentGhosts.dropOldest }

theorem trimGhosts (h : a.Alike a') : a.trimGhosts.Alike a'.trimGhosts := by
  unfold Adaptive.trimGhosts ghostCount
  rw [h.recentGhosts.size_eq, h.frequentGhosts.size_eq, h.capacity]
  induction a'.recentGhosts.size + a'.frequentGhosts.size - a'.capacity with
  | zero => exact h
  | succ count ih => exact ih.dropGhost

theorem takesRecent_eq (h : a.Alike a') : a.takesRecent = a'.takesRecent := by
  rw [takesRecent, takesRecent, h.recent.isEmpty_eq, h.frequent.isEmpty_eq, h.recent.size_eq, h.target]

theorem take? (h : a.Alike a') : TakesAlike Alike a.take? a'.take? := by
  unfold Adaptive.take?
  rw [h.takesRecent_eq]
  split
  · refine h.recent.takeOldest?.map fun k recent recent' hrecent => ⟨rfl, trimGhosts ?_⟩
    exact ⟨h.capacity, h.target, hrecent, h.frequent, h.recentGhosts.touch k, h.frequentGhosts⟩
  · refine h.frequent.takeOldest?.map fun k frequent frequent' hfrequent => ⟨rfl, trimGhosts ?_⟩
    exact ⟨h.capacity, h.target, h.recent, hfrequent, h.recentGhosts, h.frequentGhosts.touch k⟩

end Alike

end Adaptive

namespace TwoQueues

variable {q q' : TwoQueues}

/-- Both queues and the ghosts are alike. -/
structure Alike (q q' : TwoQueues) : Prop where
  freshCapacity : q.freshCapacity = q'.freshCapacity
  ghostCapacity : q.ghostCapacity = q'.ghostCapacity
  fresh : q.fresh.Alike q'.fresh
  hot : q.hot.Alike q'.hot
  ghosts : q.ghosts.Alike q'.ghosts

namespace Alike

theorem clear (hfresh : q.freshCapacity = q'.freshCapacity) (hghost : q.ghostCapacity = q'.ghostCapacity) :
    q.clear.Alike q'.clear :=
  ⟨hfresh, hghost, .clear _ _, .clear _ _, .clear _ _⟩

theorem add (h : q.Alike q') (k : Key) : (q.add k).Alike (q'.add k) := by
  unfold TwoQueues.add
  rw [h.ghosts.contains_eq]
  split
  · exact { h with ghosts := h.ghosts.erase k, hot := h.hot.touch k }
  · exact { h with fresh := h.fresh.touch k }

theorem use (h : q.Alike q') (k : Key) : (q.use k).Alike (q'.use k) := by
  unfold TwoQueues.use
  rw [h.hot.contains_eq]
  split
  · exact { h with hot := h.hot.touch k }
  · exact h

theorem erase (h : q.Alike q') (k : Key) : (q.erase k).Alike (q'.erase k) :=
  ⟨h.freshCapacity, h.ghostCapacity, h.fresh.erase k, h.hot.erase k, h.ghosts.erase k⟩

theorem take? (h : q.Alike q') : TakesAlike Alike q.take? q'.take? := by
  unfold TwoQueues.take?
  rw [h.freshCapacity, h.ghostCapacity, h.fresh.size_eq, h.hot.isEmpty_eq]
  split
  · refine h.fresh.takeOldest?.map fun k fresh fresh' hfresh => ⟨rfl, ?_⟩
    exact ⟨rfl, rfl, hfresh, h.hot, (h.ghosts.touch k).shrinkTo _⟩
  · refine h.hot.takeOldest?.map fun k hot hot' hhot => ⟨rfl, ?_⟩
    exact ⟨rfl, rfl, h.fresh, hhot, h.ghosts⟩

end Alike

end TwoQueues

namespace Admission

variable {a a' : Admission}

/-- The window and main are alike, and the sketch counts the same uses. -/
structure Alike (a a' : Admission) : Prop where
  windowCapacity : a.windowCapacity = a'.windowCapacity
  sketch : a.sketch = a'.sketch
  window : a.window.Alike a'.window
  main : a.main.Alike a'.main

namespace Alike

theorem clear (hwindow : a.windowCapacity = a'.windowCapacity) (hsketch : a.sketch.clear = a'.sketch.clear) :
    a.clear.Alike a'.clear :=
  ⟨hwindow, hsketch, .clear _ _, .clear _ _⟩

theorem overflow (h : a.Alike a') : a.overflow.Alike a'.overflow := by
  unfold Admission.overflow
  rw [h.windowCapacity, h.window.size_eq]
  split
  case isFalse => exact h
  case isTrue =>
    obtain ⟨htake, htake'⟩ | ⟨k, window, window', htake, htake', hwindow⟩ :=
      h.window.takeOldest?.none_or_some
    · rw [htake, htake']
      exact h
    · rw [htake, htake']
      exact ⟨rfl, h.sketch, hwindow, h.main.touch k⟩

theorem add (h : a.Alike a') (k : Key) : (a.add k).Alike (a'.add k) := by
  refine overflow ?_
  exact ⟨h.windowCapacity, congrArg (·.add k) h.sketch, h.window.touch k, h.main⟩

theorem use (h : a.Alike a') (k : Key) : (a.use k).Alike (a'.use k) := by
  unfold Admission.use
  dsimp only
  rw [h.window.contains_eq, h.main.contains_eq, h.sketch]
  split
  · exact ⟨h.windowCapacity, rfl, h.window.touch k, h.main⟩
  · split
    · exact ⟨h.windowCapacity, rfl, h.window, h.main.touch k⟩
    · exact ⟨h.windowCapacity, rfl, h.window, h.main⟩

theorem erase (h : a.Alike a') (k : Key) : (a.erase k).Alike (a'.erase k) :=
  ⟨h.windowCapacity, h.sketch, h.window.erase k, h.main.erase k⟩

theorem take? (h : a.Alike a') : TakesAlike Alike a.take? a'.take? := by
  unfold Admission.take?
  rw [h.window.oldest?_eq, h.main.oldest?_eq]
  split
  case h_1 candidate resident _ _ =>
    dsimp only
    rw [h.sketch]
    split
    · refine .some ⟨rfl, h.windowCapacity, rfl, h.window.erase _, (h.main.erase _).touch _⟩
    · exact .some ⟨rfl, h.windowCapacity, rfl, h.window.erase _, h.main⟩
  case h_2 =>
    refine h.window.takeOldest?.map fun k window window' hwindow => ⟨rfl, ?_⟩
    exact ⟨h.windowCapacity, h.sketch, hwindow, h.main⟩
  case h_3 =>
    refine h.main.takeOldest?.map fun k main main' hmain => ⟨rfl, ?_⟩
    exact ⟨h.windowCapacity, h.sketch, h.window, hmain⟩

end Alike

end Admission

namespace Policy

variable {p q : Policy} {k : Key}

/-- The bookkeepings of one rule, the same or alike. -/
inductive Alike : Policy → Policy → Prop
  | same (p : Policy) : Alike p p
  | lru {keys keys' : Recency} (h : keys.Alike keys') : Alike (.lru keys) (.lru keys')
  | mru {keys keys' : Recency} (h : keys.Alike keys') : Alike (.mru keys) (.mru keys')
  | fifo {keys keys' : Recency} (h : keys.Alike keys') : Alike (.fifo keys) (.fifo keys')
  | lfu {c : Nat} {keys keys' : Ranking} (h : keys.Alike c keys') : Alike (.lfu keys) (.lfu keys')
  | arc {keys keys' : Adaptive} (h : keys.Alike keys') : Alike (.arc keys) (.arc keys')
  | twoQueues {keys keys' : TwoQueues} (h : keys.Alike keys') : Alike (.twoQueues keys) (.twoQueues keys')
  | tinyLfu {keys keys' : Admission} (h : keys.Alike keys') : Alike (.tinyLfu keys) (.tinyLfu keys')

namespace Alike

theorem inserted (h : p.Alike q) (hk : k ∉ p.residents) : (p.inserted k).Alike (q.inserted k) := by
  cases h with
  | same => exact .same _
  | lru h => exact .lru (h.touch k)
  | mru h => exact .mru (h.touch k)
  | fifo h => exact .fifo (h.touch k)
  | lfu h => exact .lfu (h.add hk)
  | arc h => exact .arc (h.add k)
  | twoQueues h => exact .twoQueues (h.add k)
  | tinyLfu h => exact .tinyLfu (h.add k)

theorem used (h : p.Alike q) (k : Key) : (p.used k).Alike (q.used k) := by
  cases h with
  | same => exact .same _
  | lru h => exact .lru (h.touch k)
  | mru h => exact .mru (h.touch k)
  | fifo h => exact .fifo h
  | lfu h => exact .lfu (h.use k)
  | arc h => exact .arc (h.use k)
  | twoQueues h => exact .twoQueues (h.use k)
  | tinyLfu h => exact .tinyLfu (h.use k)

theorem removed (h : p.Alike q) (k : Key) : (p.removed k).Alike (q.removed k) := by
  cases h with
  | same => exact .same _
  | lru h => exact .lru (h.erase k)
  | mru h => exact .mru (h.erase k)
  | fifo h => exact .fifo (h.erase k)
  | lfu h => exact .lfu (h.erase k)
  | arc h => exact .arc (h.erase k)
  | twoQueues h => exact .twoQueues (h.erase k)
  | tinyLfu h => exact .tinyLfu (h.erase k)

theorem cleared (h : p.Alike q) : p.cleared.Alike q.cleared := by
  cases h with
  | same => exact .same _
  | lru h => exact .lru (.clear _ _)
  | mru h => exact .mru (.clear _ _)
  | fifo h => exact .fifo (.clear _ _)
  | lfu h => exact .lfu (.clear h.places)
  | arc h => exact .arc (.clear h.capacity)
  | twoQueues h => exact .twoQueues (.clear h.freshCapacity h.ghostCapacity)
  | tinyLfu h => exact .tinyLfu (.clear h.windowCapacity (congrArg Sketch.clear h.sketch))

/-- The same key goes. -/
theorem victim? (h : p.Alike q) (draw : Nat) : TakesAlike Alike (p.victim? draw) (q.victim? draw) := by
  cases h with
  | same => exact .refl .same _
  | lru h => exact h.takeOldest?.map fun _ _ _ hrest => ⟨rfl, .lru hrest⟩
  | mru h => exact h.takeNewest?.map fun _ _ _ hrest => ⟨rfl, .mru hrest⟩
  | fifo h => exact h.takeOldest?.map fun _ _ _ hrest => ⟨rfl, .fifo hrest⟩
  | lfu h => exact h.takeLeast?.map fun _ _ _ hrest => ⟨rfl, .lfu hrest⟩
  | arc h => exact h.take?.map fun _ _ _ hrest => ⟨rfl, .arc hrest⟩
  | twoQueues h => exact h.take?.map fun _ _ _ hrest => ⟨rfl, .twoQueues hrest⟩
  | tinyLfu h => exact h.take?.map fun _ _ _ hrest => ⟨rfl, .tinyLfu hrest⟩

end Alike

end Policy

end CacheServer
