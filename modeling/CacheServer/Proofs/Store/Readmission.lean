import CacheServer.Proofs.Eviction.Ghosts
import CacheServer.Proofs.Store.Capacity
import CacheServer.Proofs.Store.Uses
import Mathlib.Data.List.Permutation

/-!
Keys that come back while they are remembered. A put into a full store makes room before its key comes,
and the key that goes may become a ghost for which an older ghost is forgotten. If that ghost is the key
of the put itself, the key comes as one that was never there.
-/

namespace CacheServer

theorem Policy.keeps_bounded (capacity : Nat) : Policy.Keeps fun p _ => p.Bounded capacity where
  inserted hp hb _ := hb.inserted hp _
  used _ hb _ := hb.used _
  removed k hp hb := hb.removed hp k
  victim? hp hb hvictim := hb.victim? hp hvictim
  cleared _ hb := hb.cleared

namespace Store

variable {s t : Store} {rule : EvictionRule} {capacity : Nat} {k : Key} {draw : Nat} {v : String}
  {secondary : List (Option Key)}

/-- The store with room for a new key. -/
def makeRoom (s : Store) (draw : Nat) : Store :=
  if s.isFull then s.evict draw else s

theorem WellFormed.makeRoom (hs : s.WellFormed) (draw : Nat) : (s.makeRoom draw).WellFormed := by
  unfold Store.makeRoom
  split
  · exact hs.evict draw
  · exact hs

theorem WellFormed.rule_evict (hs : s.WellFormed) (draw : Nat) :
    (s.evict draw).policy.rule = s.policy.rule := by
  rw [(hs.evict draw).rule, hs.rule]
  exact congrArg Prod.fst (bound_evict s draw)

theorem WellFormed.rule_makeRoom (hs : s.WellFormed) (draw : Nat) :
    (s.makeRoom draw).policy.rule = s.policy.rule := by
  unfold Store.makeRoom
  split
  · exact hs.rule_evict draw
  · rfl

theorem not_mem_makeRoom (hk : k ∉ s.entries) (draw : Nat) : k ∉ (s.makeRoom draw).entries := by
  unfold makeRoom
  split
  · exact not_mem_evict hk
  · exact hk

/-- A new key is inserted as there is room for it. -/
theorem write_eq_makeRoom (hk : k ∉ s.entries) :
    s.write draw k v =
      { s.makeRoom draw with
        entries := (s.makeRoom draw).entries.insert k ⟨v, 0⟩
        policy := (s.makeRoom draw).policy.inserted k } := by
  rw [write, Std.ExtTreeMap.getElem?_eq_none hk]
  rfl

theorem policy_put_of_not_mem (hput : s.put draw k v secondary = .ok t) (hk : k ∉ s.entries) :
    t.policy = (s.makeRoom draw).policy.inserted k := by
  obtain ⟨-, rfl⟩ := put_eq_ok_iff.mp hput
  rw [write_eq_makeRoom hk]

/-- What is known of a bounded store that a run has reached. -/
theorem reached_applyAll (hash : RowHash) (hrule : rule ≠ .none) (hcapacity : 1 ≤ capacity)
    (ops : List Operation) :
    let s := (fresh hash rule capacity).applyAll ops
    s.WellFormed ∧ s.policy.rule = rule ∧ s.capacity = some capacity ∧ s.policy.Bounded capacity := by
  intro s
  have hs₀ : (fresh hash rule capacity).WellFormed := wellFormed_fresh hash (.inr hcapacity)
  have hs : s.WellFormed := hs₀.applyAll ops
  obtain ⟨hsame, hcap⟩ := Prod.mk.inj (bound_applyAll (fresh hash rule capacity) ops)
  refine ⟨hs, hs.rule.trans hsame, hcap.trans (if_neg hrule), ?_⟩
  exact hs₀.keeps_applyAll (h := []) (Policy.keeps_bounded capacity)
    (Policy.bounded_ofRule hash capacity rule) ops

theorem reached_serveAll (hash : RowHash) (hrule : rule ≠ .none) (hcapacity : 1 ≤ capacity)
    (requests : List Request) :
    let s := (fresh hash rule capacity).serveAll requests
    s.WellFormed ∧ s.policy.rule = rule ∧ s.capacity = some capacity ∧ s.policy.Bounded capacity := by
  obtain ⟨ops, hops⟩ := exists_operations_of_serveAll (fresh hash rule capacity) requests
  rw [hops]
  exact reached_applyAll hash hrule hcapacity ops

/-- Room is made by taking a key that is not the new one, unless there is room already. -/
theorem WellFormed.policy_makeRoom_cases (hs : s.WellFormed) (hk : k ∉ s.entries) (draw : Nat) :
    s.isFull = false ∧ (s.makeRoom draw).policy = s.policy ∨
      s.isFull = true ∧ ∃ victim, k ≠ victim ∧
        s.policy.victim? draw = some (victim, (s.makeRoom draw).policy) := by
  unfold Store.makeRoom
  cases hfull : s.isFull with
  | false => exact .inl ⟨rfl, rfl⟩
  | true =>
    obtain ⟨victim, rest, hvictim, hmem⟩ := hs.exists_victim hfull draw
    refine .inr ⟨rfl, victim, fun heq => hk (heq ▸ hmem), ?_⟩
    rw [if_pos rfl, evict_eq hvictim, hvictim]
    rfl

/-- Once there is room, the ghosts are those from before without the one that is forgotten. -/
theorem WellFormed.exists_twoQueues_makeRoom {q : TwoQueues} (hs : s.WellFormed)
    (hpolicy : s.policy = .twoQueues q) (hb : q.Bounded capacity) (hk : k ∉ s.entries) (draw : Nat) :
    ∃ r, (s.makeRoom draw).policy = .twoQueues r ∧
      (k ∈ r.ghosts.toList ↔
        k ∈ q.ghosts.toList ∧ ¬ (s.isFull = true ∧ q.forgotten? = some k)) := by
  rcases hs.policy_makeRoom_cases hk draw with ⟨hfull, hroom⟩ | ⟨hfull, victim, hne, hvictim⟩
  · exact ⟨q, hroom.trans hpolicy, by simp [hfull]⟩
  · have hq := hs.policy
    rw [hpolicy] at hvictim hq
    obtain ⟨r, htake, hroom⟩ := Policy.exists_taken hvictim
    refine ⟨r, hroom.symm, ?_⟩
    rw [TwoQueues.WellFormed.mem_ghosts_of_take? hq hb.ghosts htake hne]
    simp [hfull]

theorem WellFormed.exists_arc_makeRoom {a : Adaptive} (hs : s.WellFormed)
    (hpolicy : s.policy = .arc a) (hb : a.Bounded capacity) (hk : k ∉ s.entries) (draw : Nat) :
    ∃ b, (s.makeRoom draw).policy = .arc b ∧ b.Bounded capacity ∧ b.target = a.target ∧
      (k ∈ b.recentGhosts.toList ↔
        k ∈ a.recentGhosts.toList ∧ ¬ (s.isFull = true ∧ a.forgotten? = some k)) ∧
      (k ∈ b.frequentGhosts.toList ↔
        k ∈ a.frequentGhosts.toList ∧ ¬ (s.isFull = true ∧ a.forgotten? = some k)) := by
  rcases hs.policy_makeRoom_cases hk draw with ⟨hfull, hroom⟩ | ⟨hfull, victim, hne, hvictim⟩
  · exact ⟨a, hroom.trans hpolicy, hb, rfl, by simp [hfull], by simp [hfull]⟩
  · have ha := hs.policy
    rw [hpolicy] at hvictim ha
    obtain ⟨b, htake, hroom⟩ := Policy.exists_taken hvictim
    have hghosts := Adaptive.WellFormed.mem_ghosts_of_take? ha (by rw [hb.capacity_eq]; exact hb.ghosts)
      htake hne
    refine ⟨b, hroom.symm, hb.take? htake, Adaptive.target_of_take? htake, ?_, ?_⟩
    · rw [hghosts.1]
      simp [hfull]
    · rw [hghosts.2]
      simp [hfull]

/-- A ghost that a put brings back comes to `hot`, unless it is forgotten as room is made for it. -/
theorem WellFormed.exists_twoQueues_put {q : TwoQueues} (hs : s.WellFormed)
    (hpolicy : s.policy = .twoQueues q) (hb : q.Bounded capacity) (hcapacity : s.capacity = some capacity)
    (hk : k ∉ s.entries) (hghost : k ∈ q.ghosts.toList) (hput : s.put draw k v secondary = .ok t) :
    ∃ r, t.policy = .twoQueues r ∧
      (k ∈ r.hot.toList ↔ ¬ (s.size = capacity ∧ q.forgotten? = some k)) ∧
      (k ∈ r.fresh.toList ↔ s.size = capacity ∧ q.forgotten? = some k) := by
  obtain ⟨r, hroom, hghosts⟩ := hs.exists_twoQueues_makeRoom hpolicy hb hk draw
  have hwf := hs.makeRoom draw
  have hr := hwf.policy
  have hfree := hwf.not_mem_residents (not_mem_makeRoom hk draw)
  rw [hroom] at hr
  rw [hroom, Policy.residents, List.mem_append, not_or] at hfree
  refine ⟨r.add k, ?_, ?_, ?_⟩
  · rw [policy_put_of_not_mem hput hk, hroom]
    rfl
  · rw [TwoQueues.WellFormed.mem_hot_add hr hfree.2, hghosts, hs.isFull_iff_size_eq hcapacity]
    simp [hghost]
  · rw [TwoQueues.WellFormed.mem_fresh_add hr hfree.1, hghosts, hs.isFull_iff_size_eq hcapacity]
    simp [hghost]

/-- By the rule 2QUEUE, a put of a key that is remembered brings it to `hot`. It does not, and brings the
key to `fresh` as one that was never there, if and only if the store is full and the ghost of the key is the
one that is forgotten as room is made: it is the oldest of as many ghosts as there may be, and the key that
goes is one of `fresh`. -/
theorem ghost_comes_back_to_hot (hash : RowHash) {capacity : Nat} (hcapacity : 1 ≤ capacity)
    (requests : List Request) :
    ∃ s₀ q, create hash .twoQueues capacity = .ok s₀ ∧
      let s := s₀.serveAll requests
      s.policy = .twoQueues q ∧
      ∀ draw k v secondary, k ∉ s.keys → k ∈ q.ghosts.toList →
        secondary.length ≤ maxSecondaryIndexes →
        ∃ t r, s.put draw k v secondary = .ok t ∧ t.policy = .twoQueues r ∧
          (k ∈ r.hot.toList ↔ ¬ (s.size = capacity ∧ q.forgotten? = some k)) ∧
          (k ∈ r.fresh.toList ↔ s.size = capacity ∧ q.forgotten? = some k) := by
  obtain ⟨hs, hrule, hcap, hb⟩ := reached_serveAll hash (nofun : EvictionRule.twoQueues ≠ .none) hcapacity
    requests
  obtain ⟨q, hpolicy⟩ := Policy.exists_twoQueues_of_rule hrule
  rw [hpolicy] at hb
  refine ⟨_, q, create_eq_ok_iff.mpr ⟨.inr hcapacity, rfl⟩, ?_⟩
  intro s
  refine ⟨hpolicy, ?_⟩
  intro draw k v secondary hk hghost hsecondary
  obtain ⟨t, hput⟩ : ∃ t, s.put draw k v secondary = .ok t := ⟨_, put_eq_ok hsecondary⟩
  obtain ⟨r, hr⟩ := hs.exists_twoQueues_put hpolicy hb hcap (mt mem_keys.mpr hk) hghost hput
  exact ⟨t, r, hput, hr⟩

theorem ghost_comes_back_to_hot_younger :
    1 ≤ 4 ∧ ∃ s₀ q, create SipHash.rowHash .twoQueues 4 = .ok s₀ ∧
      let s := s₀.serveAll
        [.operation (.put 0 "a" "1" []), .operation (.put 0 "b" "2" []), .operation (.put 0 "c" "3" []),
          .operation (.put 0 "d" "4" []), .operation (.put 0 "e" "5" []), .operation (.put 0 "f" "6" [])]
      s.policy = .twoQueues q ∧ "b" ∉ s.keys ∧ "b" ∈ q.ghosts.toList ∧
        [some "x"].length ≤ maxSecondaryIndexes ∧ s.size = 4 ∧
        ∃ t r, s.put 0 "b" "7" [some "x"] = .ok t ∧ t.policy = .twoQueues r ∧
          "b" ∈ r.hot.toList ∧ "b" ∉ r.fresh.toList := by
  have hcapacity : 1 ≤ 4 := by decide
  obtain ⟨s₀, q, hcreate, hpolicy, hput⟩ := ghost_comes_back_to_hot SipHash.rowHash hcapacity
    [.operation (.put 0 "a" "1" []), .operation (.put 0 "b" "2" []), .operation (.put 0 "c" "3" []),
      .operation (.put 0 "d" "4" []), .operation (.put 0 "e" "5" []), .operation (.put 0 "f" "6" [])]
  refine ⟨hcapacity, s₀, q, hcreate, ?_⟩
  obtain ⟨-, rfl⟩ := create_eq_ok_iff.mp hcreate
  intro s
  have hkeys : s.keys = ["c", "d", "e", "f"] := by cbv
  have hsize : s.size = 4 := by cbv
  have hqueues : (s.policy.twoQueues?.map fun q => (q.ghosts.contains "b", q.forgotten?)) =
      some (true, some "a") := by cbv
  obtain ⟨r, hr, heq⟩ := Option.map_eq_some_iff.mp hqueues
  obtain rfl : q = r := Policy.twoQueues.inj (hpolicy.symm.trans (Policy.twoQueues?_eq_some_iff.mp hr))
  obtain ⟨hcontains, holdest⟩ := Prod.mk.inj heq
  have hwf : (Policy.twoQueues q).WellFormed := by
    rw [← hpolicy]
    exact ((wellFormed_fresh SipHash.rowHash (.inr hcapacity)).serveAll _).policy
  have hghost : "b" ∈ q.ghosts.toList := hwf.ghosts.contains_iff.mp hcontains
  have hk : "b" ∉ s.keys := by simp [hkeys]
  have hsecondary : [some "x"].length ≤ maxSecondaryIndexes := by decide
  obtain ⟨t, r, hput, hr, hhot, hfresh⟩ := hput 0 "b" "7" [some "x"] hk hghost hsecondary
  refine ⟨hpolicy, hk, hghost, hsecondary, hsize, t, r, hput, hr, ?_, ?_⟩
  · simp [hhot, holdest]
  · simp [hfresh, holdest]

/-- A store for three keys has room for one ghost. Here that ghost is the key that is put, and as a key goes
to make room and becomes a ghost, it is forgotten. So it comes to `fresh`. -/
theorem ghost_comes_back_to_fresh :
    ∃ s₀ q t r, create SipHash.rowHash .twoQueues 3 = .ok s₀ ∧
      let s := s₀.serveAll
        [.operation (.put 0 "a" "1" []), .operation (.put 0 "b" "2" []), .operation (.put 0 "c" "3" []),
          .operation (.put 0 "d" "4" [])]
      s.policy = .twoQueues q ∧ "a" ∉ s.keys ∧ "a" ∈ q.ghosts.toList ∧
        s.put 0 "a" "5" [] = .ok t ∧ t.policy = .twoQueues r ∧
        "a" ∉ r.hot.toList ∧ "a" ∈ r.fresh.toList := by
  let s := (fresh SipHash.rowHash .twoQueues 3).serveAll
    [.operation (.put 0 "a" "1" []), .operation (.put 0 "b" "2" []), .operation (.put 0 "c" "3" []),
      .operation (.put 0 "d" "4" [])]
  have hs : s.WellFormed := (wellFormed_fresh SipHash.rowHash (.inr (by decide))).serveAll _
  have hkeys : s.keys = ["b", "c", "d"] := by cbv
  have hbefore : (s.policy.twoQueues?.map fun q => q.ghosts.contains "a") = some true := by cbv
  have hafter : (((s.makeRoom 0).policy.inserted "a").twoQueues?.map fun r =>
      (r.hot.contains "a", r.fresh.contains "a")) = some (false, true) := by cbv
  have hk : "a" ∉ s.keys := by simp [hkeys]
  obtain ⟨t, hput⟩ : ∃ t, s.put 0 "a" "5" [] = .ok t := ⟨_, put_eq_ok (by decide)⟩
  have ht := (hs.put hput).policy
  have hwf := hs.policy
  obtain ⟨q, hq, hghost⟩ := Option.map_eq_some_iff.mp hbefore
  rw [← policy_put_of_not_mem hput (mt mem_keys.mpr hk)] at hafter
  obtain ⟨r, hr, heq⟩ := Option.map_eq_some_iff.mp hafter
  obtain ⟨hhot, hfresh⟩ := Prod.mk.inj heq
  rw [Policy.twoQueues?_eq_some_iff] at hq hr
  rw [hq] at hwf
  rw [hr] at ht
  refine ⟨_, q, t, r, rfl, hq, hk, hwf.ghosts.contains_iff.mp hghost, hput, hr, ?_,
    ht.fresh.contains_iff.mp hfresh⟩
  rw [← ht.hot.contains_iff, hhot]
  simp

/-- A ghost that a put brings back comes to `frequent` and moves the target, unless it is forgotten as room
is made for it. -/
theorem WellFormed.exists_arc_put {a : Adaptive} (hs : s.WellFormed) (hpolicy : s.policy = .arc a)
    (hb : a.Bounded capacity) (hcapacity : s.capacity = some capacity) (hk : k ∉ s.entries)
    (hput : s.put draw k v secondary = .ok t) :
    ∃ b, t.policy = .arc b ∧
      (k ∈ a.recentGhosts.toList → ¬ (s.size = capacity ∧ a.forgotten? = some k) →
        k ∈ b.frequent.toList ∧ (a.target < b.target ∨ b.target = capacity)) ∧
      (k ∈ a.frequentGhosts.toList → ¬ (s.size = capacity ∧ a.forgotten? = some k) →
        k ∈ b.frequent.toList ∧ (b.target < a.target ∨ b.target = 0)) ∧
      (s.size = capacity ∧ a.forgotten? = some k →
        k ∈ b.recent.toList ∧ b.target = a.target) := by
  obtain ⟨r, hroom, hr, htarget, hrecent, hfrequent⟩ := hs.exists_arc_makeRoom hpolicy hb hk draw
  have hwf := hs.makeRoom draw
  have hwf' := hwf.policy
  have hfree := hwf.not_mem_residents (not_mem_makeRoom hk draw)
  rw [hroom] at hwf'
  rw [hroom, Policy.residents, List.mem_append, not_or] at hfree
  rw [hs.isFull_iff_size_eq hcapacity] at hrecent hfrequent
  refine ⟨r.add k, ?_, ?_, ?_, ?_⟩
  · rw [policy_put_of_not_mem hput hk, hroom]
    rfl
  · intro hghost hkept
    have hghost' := hrecent.mpr ⟨hghost, hkept⟩
    rw [Adaptive.WellFormed.mem_frequent_add hwf' hfree.2, List.mem_append, ← htarget, ← hr.capacity_eq]
    exact ⟨.inl hghost', Adaptive.WellFormed.target_add_of_mem_recentGhosts hwf' hghost'⟩
  · intro hghost hkept
    have hghost' := hfrequent.mpr ⟨hghost, hkept⟩
    rw [Adaptive.WellFormed.mem_frequent_add hwf' hfree.2, List.mem_append, ← htarget]
    exact ⟨.inr hghost', Adaptive.WellFormed.target_add_of_mem_frequentGhosts hwf' hghost'⟩
  · intro hforgotten
    have hnot : k ∉ r.recentGhosts.toList ++ r.frequentGhosts.toList := by
      simp [hrecent, hfrequent, hforgotten]
    rw [← htarget]
    exact Adaptive.WellFormed.mem_recent_add hwf' hnot

/-- By the rule ARC, a put of a key that is remembered brings it to `frequent` alone and moves the target by
one at least, if it can move: up for a ghost of `recent`, and down for a ghost of `frequent`. It does not, and
brings the key to `recent` as one that was never there, if the store is full and the ghost of the key is the
one that is forgotten as room is made: there are as many ghosts as the capacity, and it is the oldest of the
list of ghosts that is the longer one as the key that goes is added to its list. -/
theorem ghost_comes_back_to_frequent (hash : RowHash) {capacity : Nat} (hcapacity : 1 ≤ capacity)
    (requests : List Request) :
    ∃ s₀ a, create hash .arc capacity = .ok s₀ ∧
      let s := s₀.serveAll requests
      s.policy = .arc a ∧
      ∀ draw k v secondary, k ∉ s.keys → secondary.length ≤ maxSecondaryIndexes →
        ∃ t b, s.put draw k v secondary = .ok t ∧ t.policy = .arc b ∧
          (k ∈ a.recentGhosts.toList → ¬ (s.size = capacity ∧ a.forgotten? = some k) →
            k ∈ b.frequent.toList ∧
            k ∉ b.recent.toList ++ b.recentGhosts.toList ++ b.frequentGhosts.toList ∧
            (a.target < b.target ∨ b.target = capacity)) ∧
          (k ∈ a.frequentGhosts.toList → ¬ (s.size = capacity ∧ a.forgotten? = some k) →
            k ∈ b.frequent.toList ∧
            k ∉ b.recent.toList ++ b.recentGhosts.toList ++ b.frequentGhosts.toList ∧
            (b.target < a.target ∨ b.target = 0)) ∧
          (s.size = capacity ∧ a.forgotten? = some k →
            k ∈ b.recent.toList ∧
            k ∉ b.frequent.toList ++ b.recentGhosts.toList ++ b.frequentGhosts.toList ∧
            b.target = a.target) := by
  obtain ⟨hs, hrule, hcap, hb⟩ := reached_serveAll hash (nofun : EvictionRule.arc ≠ .none) hcapacity requests
  obtain ⟨a, hpolicy⟩ := Policy.exists_arc_of_rule hrule
  rw [hpolicy] at hb
  refine ⟨_, a, create_eq_ok_iff.mpr ⟨.inr hcapacity, rfl⟩, ?_⟩
  intro s
  refine ⟨hpolicy, ?_⟩
  intro draw k v secondary hk hsecondary
  obtain ⟨t, hput⟩ : ∃ t, s.put draw k v secondary = .ok t := ⟨_, put_eq_ok hsecondary⟩
  obtain ⟨b, hb', hrecent, hfrequent, hforgotten⟩ :=
    hs.exists_arc_put hpolicy hb hcap (mt mem_keys.mpr hk) hput
  have hwf : (Policy.arc b).WellFormed := by
    rw [← hb']
    exact (hs.put hput).policy
  refine ⟨t, b, hput, hb', ?_, ?_, ?_⟩
  · intro hghost hkept
    obtain ⟨hmem, htarget⟩ := hrecent hghost hkept
    exact ⟨hmem, Adaptive.WellFormed.not_mem_of_mem_frequent hwf hmem, htarget⟩
  · intro hghost hkept
    obtain ⟨hmem, htarget⟩ := hfrequent hghost hkept
    exact ⟨hmem, Adaptive.WellFormed.not_mem_of_mem_frequent hwf hmem, htarget⟩
  · intro hgone
    obtain ⟨hmem, htarget⟩ := hforgotten hgone
    exact ⟨hmem, Adaptive.WellFormed.not_mem_of_mem_recent hwf hmem, htarget⟩

theorem ghost_comes_back_to_frequent_younger :
    1 ≤ 3 ∧ ∃ s₀ a, create SipHash.rowHash .arc 3 = .ok s₀ ∧
      let s := s₀.serveAll
        [.operation (.put 0 "a" "1" []), .operation (.put 0 "b" "2" []), .operation (.put 0 "c" "3" []),
          .operation (.put 0 "d" "4" []), .operation (.put 0 "e" "5" []), .operation (.put 0 "f" "6" [])]
      s.policy = .arc a ∧ "b" ∉ s.keys ∧ [some "x"].length ≤ maxSecondaryIndexes ∧
        "b" ∈ a.recentGhosts.toList ∧ s.size = 3 ∧
        ∃ t b, s.put 0 "b" "7" [some "x"] = .ok t ∧ t.policy = .arc b ∧ "b" ∈ b.frequent.toList ∧
          "b" ∉ b.recent.toList ++ b.recentGhosts.toList ++ b.frequentGhosts.toList ∧
          (a.target < b.target ∨ b.target = 3) := by
  have hcapacity : 1 ≤ 3 := by decide
  obtain ⟨s₀, a, hcreate, hpolicy, hput⟩ := ghost_comes_back_to_frequent SipHash.rowHash hcapacity
    [.operation (.put 0 "a" "1" []), .operation (.put 0 "b" "2" []), .operation (.put 0 "c" "3" []),
      .operation (.put 0 "d" "4" []), .operation (.put 0 "e" "5" []), .operation (.put 0 "f" "6" [])]
  refine ⟨hcapacity, s₀, a, hcreate, ?_⟩
  obtain ⟨-, rfl⟩ := create_eq_ok_iff.mp hcreate
  intro s
  have hkeys : s.keys = ["d", "e", "f"] := by cbv
  have hsize : s.size = 3 := by cbv
  have hlists : (s.policy.adaptive?.map fun a => (a.recentGhosts.contains "b", a.forgotten?)) =
      some (true, some "a") := by cbv
  obtain ⟨b, hb, heq⟩ := Option.map_eq_some_iff.mp hlists
  obtain rfl : a = b := Policy.arc.inj (hpolicy.symm.trans (Policy.adaptive?_eq_some_iff.mp hb))
  obtain ⟨hcontains, holdest⟩ := Prod.mk.inj heq
  have hwf : (Policy.arc a).WellFormed := by
    rw [← hpolicy]
    exact ((wellFormed_fresh SipHash.rowHash (.inr hcapacity)).serveAll _).policy
  have hghost : "b" ∈ a.recentGhosts.toList := hwf.recentGhosts.contains_iff.mp hcontains
  have hk : "b" ∉ s.keys := by simp [hkeys]
  have hsecondary : [some "x"].length ≤ maxSecondaryIndexes := by decide
  obtain ⟨t, b, hput, hb, hrecent, -⟩ := hput 0 "b" "7" [some "x"] hk hsecondary
  exact ⟨hpolicy, hk, hsecondary, hghost, hsize, t, b, hput, hb, hrecent hghost (by simp [holdest])⟩

/-- A store for three keys has room for three ghosts. Here the oldest of three is the key that is put, and as
a key goes to make room and becomes a ghost, it is forgotten. So it comes to `recent`, and the target does not
move. -/
theorem ghost_comes_back_to_recent :
    ∃ s₀ a t b, create SipHash.rowHash .arc 3 = .ok s₀ ∧
      let s := s₀.serveAll
        [.operation (.put 0 "a" "1" []), .operation (.put 0 "b" "2" []), .operation (.put 0 "c" "3" []),
          .operation (.put 0 "d" "4" []), .operation (.put 0 "e" "5" []), .operation (.put 0 "f" "6" [])]
      s.policy = .arc a ∧ "a" ∉ s.keys ∧ "a" ∈ a.recentGhosts.toList ∧
        s.put 0 "a" "7" [] = .ok t ∧ t.policy = .arc b ∧
        "a" ∉ b.frequent.toList ∧ "a" ∈ b.recent.toList ∧ ¬ (a.target < b.target ∨ b.target = 3) := by
  let s := (fresh SipHash.rowHash .arc 3).serveAll
    [.operation (.put 0 "a" "1" []), .operation (.put 0 "b" "2" []), .operation (.put 0 "c" "3" []),
      .operation (.put 0 "d" "4" []), .operation (.put 0 "e" "5" []), .operation (.put 0 "f" "6" [])]
  have hs : s.WellFormed := (wellFormed_fresh SipHash.rowHash (.inr (by decide))).serveAll _
  have hkeys : s.keys = ["d", "e", "f"] := by cbv
  have hbefore : (s.policy.adaptive?.map fun a => a.recentGhosts.contains "a") = some true := by cbv
  have hafter : (((s.makeRoom 0).policy.inserted "a").adaptive?.map fun b =>
      (b.frequent.contains "a", b.recent.contains "a", b.target)) = some (false, true, 0) := by cbv
  have hk : "a" ∉ s.keys := by simp [hkeys]
  obtain ⟨t, hput⟩ : ∃ t, s.put 0 "a" "7" [] = .ok t := ⟨_, put_eq_ok (by decide)⟩
  have ht := (hs.put hput).policy
  have hwf := hs.policy
  obtain ⟨a, ha, hghost⟩ := Option.map_eq_some_iff.mp hbefore
  rw [← policy_put_of_not_mem hput (mt mem_keys.mpr hk)] at hafter
  obtain ⟨b, hb, heq⟩ := Option.map_eq_some_iff.mp hafter
  obtain ⟨hfrequent, heq⟩ := Prod.mk.inj heq
  obtain ⟨hrecent, htarget⟩ := Prod.mk.inj heq
  rw [Policy.adaptive?_eq_some_iff] at ha hb
  rw [ha] at hwf
  rw [hb] at ht
  refine ⟨_, a, t, b, rfl, ha, hk, hwf.recentGhosts.contains_iff.mp hghost, hput, hb, ?_,
    ht.recent.contains_iff.mp hrecent, by simp [htarget]⟩
  rw [← ht.frequent.contains_iff, hfrequent]
  simp

end Store

end CacheServer
