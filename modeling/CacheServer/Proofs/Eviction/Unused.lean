import CacheServer.Proofs.Eviction.Ghosts

/-!
Bookkeepings of which no key has been used since it came. By six of the rules the keys then stand in the order
in which they came: a new key joins at the back, and the one at the front is the next to go. The rules ARC and
2QUEUE do so only with keys that they do not remember.
-/

namespace CacheServer

open Std

namespace Ranking

variable {r rest : Ranking} {k : Key}

/-- Every key has its first use only. -/
def Unused (r : Ranking) : Prop :=
  ∀ rank ∈ r.order, rank.uses = 1

theorem unused_empty : empty.Unused := by
  simp [Unused, empty]

theorem unused_clear (r : Ranking) : r.clear.Unused := by
  simp [Unused, clear]

theorem Unused.add (hu : r.Unused) (k : Key) : (r.add k).Unused := by
  intro rank hmem
  rw [Ranking.add, ExtTreeMap.mem_insert, LawfulEqCmp.compare_eq_iff_eq] at hmem
  obtain rfl | hmem := hmem
  · rfl
  · exact hu rank hmem

/-- Among as many uses the place decides, so a new key is the last. -/
theorem Unused.toList_add (hu : r.Unused) (h : r.WellFormed) (k : Key) :
    (r.add k).toList = r.toList ++ [k] := by
  have hlt : ∀ rank ∈ r.order, compare rank ⟨1, r.places⟩ = .lt := by
    intro rank hmem
    have huses : compare rank.uses 1 = .eq := Nat.compare_eq_eq.mpr (hu rank hmem)
    have hplace : compare rank.place r.places = .lt := Nat.compare_eq_lt.mpr (h.place_lt rank hmem)
    exact Ordering.then_eq_lt.mpr (.inr ⟨huses, hplace⟩)
  simp [toList, Ranking.add, toList_insert_of_lt hlt]

theorem Unused.dropAt (hu : r.Unused) (rank : Rank) (ranks : KeyMap Rank) :
    Unused { r with order := r.order.erase rank, ranks } :=
  fun rank' hmem => hu rank' (ExtTreeMap.mem_of_mem_erase hmem)

theorem Unused.erase (hu : r.Unused) (k : Key) : (r.erase k).Unused := by
  unfold Ranking.erase
  split
  · exact hu.dropAt _ _
  · exact hu

theorem Unused.takeLeast? (hu : r.Unused) (htake : r.takeLeast? = some (k, rest)) : rest.Unused := by
  obtain ⟨rank, -, htake⟩ := Option.bind_eq_some_iff.mp htake
  obtain ⟨found, -, htake⟩ := Option.map_eq_some_iff.mp htake
  obtain ⟨-, rfl⟩ := Prod.mk.inj htake
  exact hu.dropAt _ _

end Ranking

namespace SecondChance

variable {q rest : SecondChance} {k : Key}

/-- The keys that have lost their marks are at the front. They have seen the hand pass, and the others have
come since. -/
def Swept (q : SecondChance) : Prop :=
  ∃ clear marked : List Key, q = clear.map (·, false) ++ marked.map (·, true)

theorem Swept.add (hq : q.Swept) (k : Key) : (q.add k).Swept := by
  obtain ⟨clear, marked, rfl⟩ := hq
  exact ⟨clear, marked ++ [k], by simp [SecondChance.add]⟩

theorem Swept.erase (hq : q.Swept) (k : Key) : (q.erase k).Swept := by
  obtain ⟨clear, marked, rfl⟩ := hq
  refine ⟨clear.filter (· != k), marked.filter (· != k), ?_⟩
  rw [SecondChance.erase, List.filter_append, List.filter_map, List.filter_map]
  rfl

/-- A full round over marked keys clears their marks and leaves them where they were. -/
theorem take?_marked (clear marked : List Key) :
    take? (marked.map (·, true) ++ clear.map (·, false)) = take? ((clear ++ marked).map (·, false)) := by
  induction marked generalizing clear with
  | nil => simp
  | cons front marked ih =>
    rw [List.map_cons, List.cons_append, take?, List.append_assoc, List.append_cons clear]
    have hround := ih (clear ++ [front])
    rwa [List.map_append, List.map_singleton] at hround

/-- The key at the front is the one to go, with its mark or without. -/
theorem Swept.take? (hq : q.Swept) (htake : q.take? = some (k, rest)) :
    rest.Swept ∧ q.keys = k :: rest.keys := by
  obtain ⟨clear, marked, rfl⟩ := hq
  cases clear with
  | cons front clear =>
    rw [List.map_cons, List.cons_append, SecondChance.take?] at htake
    cases htake
    exact ⟨⟨clear, marked, rfl⟩, rfl⟩
  | nil =>
    have hround := take?_marked [] marked
    rw [List.map_nil, List.append_nil, List.nil_append] at hround
    rw [List.map_nil, List.nil_append, hround] at htake
    cases marked with
    | nil => simp [SecondChance.take?] at htake
    | cons front marked =>
      rw [List.map_cons, SecondChance.take?] at htake
      cases htake
      exact ⟨⟨marked, [], by simp⟩, by simp [keys, Function.comp_def]⟩

end SecondChance

namespace Adaptive

variable {a rest : Adaptive} {k k' : Key}

/-- As long as the second list is empty, the oldest key of the first is the one to go, whatever the target. -/
theorem WellFormed.take?_of_unused (h : a.WellFormed) (hu : a.frequent.toList = [])
    (htake : a.take? = some (k, rest)) :
    rest.frequent.toList = [] ∧ a.recent.toList = k :: rest.recent.toList := by
  obtain ⟨recent, -, hfound, rfl⟩ | ⟨frequent, -, hfound, rfl⟩ := take?_cases htake
  · rw [frequent_trimGhosts, recent_trimGhosts]
    exact ⟨hu, (h.recent.takeOldest? hfound).2⟩
  · have hmem := h.frequent.mem_of_takeOldest?_self hfound
    rw [hu] at hmem
    cases hmem

end Adaptive

namespace TwoQueues

variable {q rest : TwoQueues} {k : Key}

/-- As long as the second queue is empty, the oldest key of the first is the one to go, however few there are. -/
theorem WellFormed.take?_of_unused (h : q.WellFormed) (hu : q.hot.toList = [])
    (htake : q.take? = some (k, rest)) :
    rest.hot.toList = [] ∧ q.fresh.toList = k :: rest.fresh.toList := by
  obtain ⟨fresh, -, hfound, rfl⟩ | ⟨hot, -, hfound, rfl⟩ := take?_cases htake
  · exact ⟨hu, (h.fresh.takeOldest? hfound).2⟩
  · have hmem := h.hot.mem_of_takeOldest?_self hfound
    rw [hu] at hmem
    cases hmem

end TwoQueues

namespace Policy

variable {p p' rest : Policy} {k : Key} {draw : Nat}

/-- No key that is kept has been used since it came, as far as the rule can tell. -/
def Unused : Policy → Prop
  | lru _ | fifo _ => True
  | lfu r => r.Unused
  | clock r => r.queue.Swept
  | arc a => a.frequent.toList = []
  | twoQueues q => q.hot.toList = []
  | _ => False

theorem unused_ofRule (hash : RowHash) (capacity : Nat) {rule : EvictionRule}
    (hrule : rule ∈ [.fifo, .lru, .lfu, .clock, .arc, .twoQueues]) :
    (ofRule hash capacity rule).Unused := by
  cases rule with
  | fifo | lru => trivial
  | lfu => exact Ranking.unused_empty
  | clock => exact ⟨[], [], Ring.queue_empty⟩
  | arc => exact Recency.toList_empty
  | twoQueues => exact Recency.toList_empty
  | _ => simp at hrule

/-- A new key that is not remembered joins at the back. -/
theorem Unused.inserted (hu : p.Unused) (h : p.WellFormed) (hk : k ∉ p.residents) (hghost : k ∉ p.ghosts) :
    (p.inserted k).Unused ∧ (p.inserted k).residents = p.residents ++ [k] := by
  cases p with
  | lru r | fifo r => exact ⟨trivial, Recency.WellFormed.toList_touch_of_not_mem h hk⟩
  | lfu r => exact ⟨Ranking.Unused.add hu k, Ranking.Unused.toList_add hu h k⟩
  | clock r =>
    refine ⟨?_, Ring.WellFormed.toList_add h k⟩
    rw [inserted, Unused, Ring.WellFormed.queue_add h hk]
    exact SecondChance.Swept.add hu k
  | arc a =>
    rw [ghosts, List.mem_append, not_or] at hghost
    have hrecent : k ∉ a.recent.toList := fun hmem => hk (List.mem_append_left _ hmem)
    have hlist := h.recent.toList_touch_of_not_mem hrecent
    rw [Unused] at hu
    simp [inserted, h.add_of_not_mem_ghosts hghost.1 hghost.2, Unused, residents, hlist, hu]
  | twoQueues q =>
    have hfresh : k ∉ q.fresh.toList := fun hmem => hk (List.mem_append_left _ hmem)
    have hlist := h.fresh.toList_touch_of_not_mem hfresh
    rw [Unused] at hu
    simp [inserted, h.add_of_not_mem_ghosts hghost, Unused, residents, hlist, hu]
  | _ => exact hu.elim

/-- A key that is removed leaves the others in their order. -/
theorem Unused.removed (hu : p.Unused) (h : p.WellFormed) (k : Key) :
    (p.removed k).Unused ∧ (p.removed k).residents = p.residents.erase k := by
  cases p with
  | lru r | fifo r => exact ⟨trivial, Recency.WellFormed.toList_erase h k⟩
  | lfu r => exact ⟨Ranking.Unused.erase hu k, Ranking.WellFormed.toList_erase h k⟩
  | clock r =>
    refine ⟨?_, Ring.WellFormed.toList_erase h k⟩
    rw [Policy.removed, Unused, Ring.WellFormed.queue_erase h]
    exact SecondChance.Swept.erase hu k
  | arc a =>
    rw [Unused] at hu
    simp [Policy.removed, Adaptive.erase, Unused, residents, h.recent.toList_erase, h.frequent.toList_erase, hu]
  | twoQueues q =>
    rw [Unused] at hu
    simp [Policy.removed, TwoQueues.erase, Unused, residents, h.fresh.toList_erase, h.hot.toList_erase, hu]
  | _ => exact hu.elim

theorem Unused.cleared (hu : p.Unused) : p.cleared.Unused := by
  cases p with
  | lru r | fifo r => trivial
  | lfu r => exact Ranking.unused_clear r
  | clock r => exact ⟨[], [], Ring.queue_empty⟩
  | arc a => exact Recency.toList_clear _
  | twoQueues q => exact Recency.toList_clear _
  | _ => exact hu.elim

/-- The key at the front goes. -/
theorem Unused.victim? (hu : p.Unused) (h : p.WellFormed) (hvictim : p.victim? draw = some (k, rest)) :
    rest.Unused ∧ p.residents = k :: rest.residents := by
  cases p with
  | lru r | fifo r =>
    obtain ⟨keys, htake, rfl⟩ := exists_taken hvictim
    exact ⟨trivial, (Recency.WellFormed.takeOldest? h htake).2⟩
  | lfu r =>
    obtain ⟨keys, htake, rfl⟩ := exists_taken hvictim
    exact ⟨Ranking.Unused.takeLeast? hu htake, (Ranking.WellFormed.takeLeast? h htake).2⟩
  | clock r =>
    obtain ⟨keys, htake, rfl⟩ := exists_taken hvictim
    have hswept := SecondChance.Swept.take? hu (Ring.WellFormed.take? h htake).2
    rwa [Ring.keys_queue, Ring.keys_queue] at hswept
  | arc a =>
    obtain ⟨keys, htake, rfl⟩ := exists_taken hvictim
    obtain ⟨hfrequent, hlist⟩ := Adaptive.WellFormed.take?_of_unused h hu htake
    rw [Unused] at hu
    exact ⟨hfrequent, by simp [residents, hlist, hu, hfrequent]⟩
  | twoQueues q =>
    obtain ⟨keys, htake, rfl⟩ := exists_taken hvictim
    obtain ⟨hhot, hlist⟩ := TwoQueues.WellFormed.take?_of_unused h hu htake
    rw [Unused] at hu
    exact ⟨hhot, by simp [residents, hlist, hu, hhot]⟩
  | _ => exact hu.elim

/-- Two bookkeepings, of one rule or of two, that keep the same unused keys in the same order. -/
structure InStep (p p' : Policy) : Prop where
  left : p.Unused
  right : p'.Unused
  residents : p'.residents = p.residents

theorem InStep.inserted (h : p.InStep p') (hp : p.WellFormed) (hp' : p'.WellFormed) (hk : k ∉ p.residents)
    (hghost : k ∉ p.ghosts) (hghost' : k ∉ p'.ghosts) : (p.inserted k).InStep (p'.inserted k) := by
  obtain ⟨hleft, hlist⟩ := h.left.inserted hp hk hghost
  obtain ⟨hright, hlist'⟩ := h.right.inserted hp' (h.residents ▸ hk) hghost'
  exact ⟨hleft, hright, by rw [hlist, hlist', h.residents]⟩

theorem InStep.removed (h : p.InStep p') (hp : p.WellFormed) (hp' : p'.WellFormed) (k : Key) :
    (p.removed k).InStep (p'.removed k) := by
  obtain ⟨hleft, hlist⟩ := h.left.removed hp k
  obtain ⟨hright, hlist'⟩ := h.right.removed hp' k
  exact ⟨hleft, hright, by rw [hlist, hlist', h.residents]⟩

theorem InStep.cleared (h : p.InStep p') : p.cleared.InStep p'.cleared :=
  ⟨h.left.cleared, h.right.cleared, by rw [residents_cleared, residents_cleared]⟩

/-- Both give up the key at the front. -/
theorem InStep.victim? (h : p.InStep p') (hp : p.WellFormed) (hp' : p'.WellFormed)
    (hvictim : p.victim? draw = some (k, rest)) :
    ∃ rest', p'.victim? draw = some (k, rest') ∧ rest.InStep rest' := by
  obtain ⟨hleft, hlist⟩ := h.left.victim? hp hvictim
  cases hvictim' : p'.victim? draw with
  | none =>
    have hempty := hp'.victim?_eq_none_iff.mp hvictim'
    rw [h.residents, hlist] at hempty
    cases hempty
  | some found =>
    obtain ⟨k', rest'⟩ := found
    obtain ⟨hright, hlist'⟩ := h.right.victim? hp' hvictim'
    rw [h.residents, hlist] at hlist'
    obtain ⟨rfl, hrest⟩ := List.cons.inj hlist'
    exact ⟨rest', rfl, hleft, hright, hrest.symm⟩

end Policy

end CacheServer
