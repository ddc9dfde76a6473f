import CacheServer.Proofs.Eviction.Order
import CacheServer.Proofs.Store.Capacity
import CacheServer.Proofs.Store.Uses
import Mathlib.Data.List.Permutation

/-!
Which key goes to make room. By the rules that order keys in time, and by the rule that counts uses,
the key to go is told by the uses of keys in the whole run.
-/

namespace CacheServer

/-- By the rule the first key goes before the second, as the uses of keys have been. Nothing is said of
the rules that look at more than that. -/
def EvictionRule.GoesBefore (h : List Use) (k k' : Key) : EvictionRule → Prop
  | .lru => Precedes (Uses.keys h) k k'
  | .mru => Precedes (Uses.keys h) k' k
  | .fifo => Precedes (Uses.insertions h) k k'
  | .lfu => Ranking.Before (Uses.insertions h) (Uses.frequency h) k k'
  | _ => True

namespace Policy

variable {p rest : Policy} {h : List Use} {k : Key}

/-- The bookkeeping orders its keys by the uses so far, or by the insertions among them. -/
def Follows : Policy → List Use → Prop
  | .lru r, h | .mru r, h => r.Follows (Uses.keys h)
  | .fifo r, h => r.Follows (Uses.insertions h)
  | .lfu r, h => r.Follows (Uses.insertions h) (Uses.frequency h)
  | _, _ => True

theorem follows_ofRule (hash : RowHash) (capacity : Nat) (rule : EvictionRule) :
    (ofRule hash capacity rule).Follows [] := by
  cases rule with
  | lru => exact Recency.follows_empty
  | mru => exact Recency.follows_empty
  | fifo => exact Recency.follows_empty
  | lfu => exact Ranking.follows_empty _
  | _ => trivial

theorem Follows.inserted (hf : p.Follows h) (hp : p.WellFormed) (k : Key) :
    (p.inserted k).Follows (h ++ [⟨k, .insertion⟩]) := by
  cases p with
  | lru r | mru r =>
    have htouch := Recency.Follows.touch hf hp k
    rwa [← Uses.keys_snoc h k .insertion] at htouch
  | fifo r =>
    have htouch := Recency.Follows.touch hf hp k
    rwa [← Uses.insertions_snoc_insertion] at htouch
  | lfu r =>
    have hadd := Ranking.Follows.add hf (Uses.frequency_snoc_insertion h k) fun k' hne =>
      Uses.frequency_snoc_of_ne hne h _
    rwa [← Uses.insertions_snoc_insertion] at hadd
  | _ => trivial

theorem Follows.used (hf : p.Follows h) (hp : p.WellFormed) {kind : UseKind}
    (hkind : kind ≠ .insertion) (k : Key) : (p.used k).Follows (h ++ [⟨k, kind⟩]) := by
  cases p with
  | lru r | mru r =>
    have htouch := Recency.Follows.touch hf hp k
    rwa [← Uses.keys_snoc h k kind] at htouch
  | fifo r =>
    have hsame : r.Follows (Uses.insertions h) := hf
    rwa [← Uses.insertions_snoc hkind h k] at hsame
  | lfu r =>
    have huse := Ranking.Follows.use hf (Uses.frequency_snoc_self hkind h k) fun k' hne =>
      Uses.frequency_snoc_of_ne hne h _
    rwa [← Uses.insertions_snoc hkind h k] at huse
  | _ => trivial

theorem Follows.removed (hf : p.Follows h) (k : Key) : (p.removed k).Follows h := by
  cases p with
  | lru r | mru r | fifo r => exact Recency.Follows.erase hf k
  | lfu r => exact Ranking.Follows.erase hf k
  | _ => trivial

theorem Follows.cleared (hf : p.Follows h) : p.cleared.Follows h := by
  cases p with
  | lru r | mru r | fifo r => exact Recency.Follows.clear hf
  | lfu r => exact Ranking.Follows.clear hf
  | _ => trivial

/-- The key to go is the first by the rule, and the others stay in their order. -/
theorem Follows.victim? (hf : p.Follows h) (hp : p.WellFormed) {draw : Nat}
    (hvictim : p.victim? draw = some (k, rest)) :
    rest.Follows h ∧ ∀ k' ∈ rest.residents, p.rule.GoesBefore h k k' := by
  cases p with
  | none => cases hvictim
  | lru r | fifo r =>
    obtain ⟨keys, htake, rfl⟩ := exists_taken hvictim
    have hlist := Recency.Follows.pairwise hf
    rw [(Recency.WellFormed.takeOldest? hp htake).2] at hlist
    exact ⟨Recency.Follows.takeOldest? hf htake, (List.pairwise_cons.mp hlist).1⟩
  | mru r =>
    obtain ⟨keys, htake, rfl⟩ := exists_taken hvictim
    have hlist := Recency.Follows.pairwise hf
    rw [(Recency.WellFormed.takeNewest? hp htake).2] at hlist
    refine ⟨Recency.Follows.takeNewest? hf htake, fun k' hk' => ?_⟩
    exact (List.pairwise_append.mp hlist).2.2 k' hk' k List.mem_cons_self
  | lfu r =>
    obtain ⟨keys, htake, rfl⟩ := exists_taken hvictim
    have hlist := Ranking.Follows.pairwise hf hp
    rw [(Ranking.WellFormed.takeLeast? hp htake).2] at hlist
    exact ⟨Ranking.Follows.takeLeast? hf htake, (List.pairwise_cons.mp hlist).1⟩
  | _ =>
    obtain ⟨-, -, rfl⟩ := exists_taken hvictim
    exact ⟨trivial, fun _ _ => trivial⟩

theorem keeps_follows : Keeps Follows where
  inserted hp hf _ := hf.inserted hp _
  used hp hf hkind := hf.used hp hkind _
  removed k _ hf := hf.removed k
  victim? hp hf hvictim := (hf.victim? hp hvictim).1
  cleared _ hf := hf.cleared

end Policy

namespace Store

variable {s : Store} {h : List Use} {k : Key} {secondary : List (Option Key)}

theorem WellFormed.exists_victim_of_put (hs : s.WellFormed) (hf : s.policy.Follows h)
    (hk : k ∉ s.entries) (hfull : s.isFull = true)
    (hsecondary : secondary.length ≤ maxSecondaryIndexes) (draw : Nat) (v : String) :
    ∃ t victim, s.put draw k v secondary = .ok t ∧ victim ∈ s.keys ∧
      t.keys.Perm (k :: s.keys.erase victim) ∧
      ∀ k' ∈ s.keys, k' ≠ victim → s.rule.GoesBefore h victim k' := by
  obtain ⟨victim, rest, hvictim, hmem⟩ := hs.exists_victim hfull draw
  have hput : s.put draw k v secondary = .ok _ := put_eq_ok hsecondary
  refine ⟨_, victim, hput, mem_keys.mpr hmem, hs.keys_put_of_victim? hput hk hfull hvictim, ?_⟩
  intro k' hk' hne
  obtain ⟨c, hc, -⟩ := isFull_iff.mp hfull
  have hrule : s.rule ≠ .none := hs.bounded.mpr (by simp [hc])
  have hresident : k' ∈ s.policy.residents := (hs.residents hrule).mem_iff.mpr hk'
  rw [(hs.policy.victim? hvictim).2.mem_iff, List.mem_cons] at hresident
  rw [← hs.rule]
  exact (hf.victim? hs.policy hvictim).2 k' (hresident.resolve_left hne)

theorem follows_run (hash : RowHash) {rule : EvictionRule} {capacity : Nat}
    (hcapacity : rule = .none ∨ 1 ≤ capacity) (ops : List Operation) :
    ((fresh hash rule capacity).applyAll ops).policy.Follows ((fresh hash rule capacity).uses ops) :=
  (wellFormed_fresh hash hcapacity).keeps_applyAll Policy.keeps_follows
    (Policy.follows_ofRule hash capacity rule) ops

/-- In a full store that a run has reached, a put of a new key makes one key go. By the rule LRU it is
the key whose latest use in the run is the earliest, by MRU the one whose latest use is the latest, and
by FIFO the one whose latest insertion is the earliest. -/
theorem victim_by_time (hash : RowHash) {rule : EvictionRule} {capacity : Nat} (hrule : rule ≠ .none)
    (hcapacity : 1 ≤ capacity) (ops : List Operation) :
    ∃ s₀, create hash rule capacity = .ok s₀ ∧
      let s := s₀.applyAll ops
      let h := s₀.uses ops
      ∀ draw k v secondary, k ∉ s.keys → s.size = capacity →
        secondary.length ≤ maxSecondaryIndexes →
        ∃ t victim, s.put draw k v secondary = .ok t ∧ victim ∈ s.keys ∧
          t.keys.Perm (k :: s.keys.erase victim) ∧
          ∀ k' ∈ s.keys, k' ≠ victim →
            (rule = .lru → Precedes (Uses.keys h) victim k') ∧
            (rule = .mru → Precedes (Uses.keys h) k' victim) ∧
            (rule = .fifo → Precedes (Uses.insertions h) victim k') := by
  refine ⟨_, create_eq_ok_iff.mpr ⟨.inr hcapacity, rfl⟩, ?_⟩
  intro s h draw k v secondary hk hsize hsecondary
  have hs : s.WellFormed := (wellFormed_fresh hash (.inr hcapacity)).applyAll ops
  obtain ⟨hsame, hbound⟩ := Prod.mk.inj (bound_applyAll (fresh hash rule capacity) ops)
  have hfull : s.isFull = true :=
    (hs.isFull_iff_size_eq (hbound.trans (if_neg hrule))).mpr hsize
  obtain ⟨t, victim, hput, hmem, hkeys, hbefore⟩ := hs.exists_victim_of_put
    (follows_run hash (.inr hcapacity) ops) (mt mem_keys.mpr hk) hfull hsecondary draw v
  refine ⟨t, victim, hput, hmem, hkeys, fun k' hk' hne => ?_⟩
  have hgoes := hbefore k' hk' hne
  rw [show s.rule = rule from hsame] at hgoes
  refine ⟨?_, ?_, ?_⟩
  all_goals
    rintro rfl
    exact hgoes

theorem victim_by_time_lru :
    EvictionRule.lru ≠ .none ∧ 1 ≤ 2 ∧
      ∃ s₀, create SipHash.rowHash .lru 2 = .ok s₀ ∧
        let ops : List Operation := [.put 0 "a" "1" [some "x"], .put 0 "b" "2" [], .getBy .one "x"]
        let s := s₀.applyAll ops
        "c" ∉ s.keys ∧ s.size = 2 ∧ [some "y"].length ≤ maxSecondaryIndexes ∧
          ∃ t victim, s.put 0 "c" "3" [some "y"] = .ok t ∧ victim ∈ s.keys ∧
            t.keys.Perm ("c" :: s.keys.erase victim) ∧
            ∀ k' ∈ s.keys, k' ≠ victim → Precedes (Uses.keys (s₀.uses ops)) victim k' := by
  have hrule : EvictionRule.lru ≠ .none := nofun
  have hcapacity : 1 ≤ 2 := by decide
  obtain ⟨s₀, hcreate, hvictim⟩ := victim_by_time SipHash.rowHash hrule hcapacity
    [.put 0 "a" "1" [some "x"], .put 0 "b" "2" [], .getBy .one "x"]
  refine ⟨hrule, hcapacity, s₀, hcreate, ?_⟩
  obtain ⟨-, rfl⟩ := create_eq_ok_iff.mp hcreate
  intro ops s
  have hkeys : s.keys = ["a", "b"] := by cbv
  have hk : "c" ∉ s.keys := by simp [hkeys]
  have hsize : s.size = 2 := by cbv
  have hsecondary : [some "y"].length ≤ maxSecondaryIndexes := by decide
  obtain ⟨t, victim, hput, hmem, hperm, hbefore⟩ := hvictim 0 "c" "3" [some "y"] hk hsize hsecondary
  exact ⟨hk, hsize, hsecondary, t, victim, hput, hmem, hperm,
    fun k' hk' hne => (hbefore k' hk' hne).1 rfl⟩

/-- A key that comes to a store of the rule LFU has one use, and the keys that are there came before
it. -/
theorem WellFormed.insertion_of_lfu (hs : s.WellFormed) (hrule : s.rule = .lfu)
    (hf : s.policy.Follows h) (hk : k ∉ s.keys) :
    let h' := h ++ [⟨k, .insertion⟩]
    Uses.frequency h' k = 1 ∧ ∀ k' ∈ s.keys, Precedes (Uses.insertions h') k' k := by
  refine ⟨Uses.frequency_snoc_insertion h k, fun k' hk' => ?_⟩
  have hne : k' ≠ k := fun heq => hk (heq ▸ hk')
  have hresident : k' ∈ s.policy.residents :=
    (hs.residents (by rw [hrule]; nofun)).mem_iff.mpr hk'
  have hp := hs.policy
  have hkind : s.policy.rule = .lfu := hs.rule.trans hrule
  cases hpolicy : s.policy with
  | lfu r =>
    rw [hpolicy] at hp hf hresident
    rw [Uses.insertions_snoc_insertion]
    exact Ranking.Follows.precedes_snoc hf hp hresident hne
  | _ =>
    rw [hpolicy] at hkind
    cases hkind

/-- In a full store of the rule LFU that a run has reached, a put of a new key makes the key go that has
the fewest uses since it came last, and among as many uses the one that came first. The key that comes
has one use and stands behind all others, whether or not it was there before. -/
theorem victim_by_frequency (hash : RowHash) {capacity : Nat} (hcapacity : 1 ≤ capacity)
    (ops : List Operation) :
    ∃ s₀, create hash .lfu capacity = .ok s₀ ∧
      let s := s₀.applyAll ops
      let h := s₀.uses ops
      ∀ draw k v secondary, k ∉ s.keys → secondary.length ≤ maxSecondaryIndexes →
        (s.size = capacity →
          ∃ t victim, s.put draw k v secondary = .ok t ∧ victim ∈ s.keys ∧
            t.keys.Perm (k :: s.keys.erase victim) ∧
            ∀ k' ∈ s.keys, k' ≠ victim →
              Uses.frequency h victim < Uses.frequency h k' ∨
                Uses.frequency h victim = Uses.frequency h k' ∧
                  Precedes (Uses.insertions h) victim k') ∧
        let h' := s₀.uses (ops ++ [.put draw k v secondary])
        Uses.frequency h' k = 1 ∧ ∀ k' ∈ s.keys, Precedes (Uses.insertions h') k' k := by
  refine ⟨_, create_eq_ok_iff.mpr ⟨.inr hcapacity, rfl⟩, ?_⟩
  intro s h draw k v secondary hk hsecondary
  have hs : s.WellFormed := (wellFormed_fresh hash (.inr hcapacity)).applyAll ops
  have hf : s.policy.Follows h := follows_run hash (.inr hcapacity) ops
  obtain ⟨hsame, hbound⟩ := Prod.mk.inj (bound_applyAll (fresh hash .lfu capacity) ops)
  refine ⟨fun hsize => ?_, ?_⟩
  · have hcap : s.capacity = some capacity := hbound
    have hfull : s.isFull = true := (hs.isFull_iff_size_eq hcap).mpr hsize
    obtain ⟨t, victim, hput, hmem, hkeys, hbefore⟩ :=
      hs.exists_victim_of_put hf (mt mem_keys.mpr hk) hfull hsecondary draw v
    refine ⟨t, victim, hput, hmem, hkeys, fun k' hk' hne => ?_⟩
    have hgoes := hbefore k' hk' hne
    rwa [show s.rule = .lfu from hsame] at hgoes
  · rw [uses_snoc_put hk hsecondary]
    exact hs.insertion_of_lfu hsame hf hk

theorem victim_by_frequency_reinserted :
    1 ≤ 2 ∧
      ∃ s₀, create SipHash.rowHash .lfu 2 = .ok s₀ ∧
        let ops : List Operation :=
          [.put 0 "a" "1" [], .get "a", .get "a", .remove "a", .put 0 "b" "2" [], .put 0 "a" "3" []]
        let s := s₀.applyAll ops
        let h := s₀.uses ops
        "c" ∉ s.keys ∧ s.size = 2 ∧ [some "y"].length ≤ maxSecondaryIndexes ∧
          ∃ t victim, s.put 0 "c" "4" [some "y"] = .ok t ∧ victim ∈ s.keys ∧
            t.keys.Perm ("c" :: s.keys.erase victim) ∧
            ∀ k' ∈ s.keys, k' ≠ victim →
              Uses.frequency h victim < Uses.frequency h k' ∨
                Uses.frequency h victim = Uses.frequency h k' ∧
                  Precedes (Uses.insertions h) victim k' := by
  have hcapacity : 1 ≤ 2 := by decide
  obtain ⟨s₀, hcreate, hvictim⟩ := victim_by_frequency SipHash.rowHash hcapacity
    [.put 0 "a" "1" [], .get "a", .get "a", .remove "a", .put 0 "b" "2" [], .put 0 "a" "3" []]
  refine ⟨hcapacity, s₀, hcreate, ?_⟩
  obtain ⟨-, rfl⟩ := create_eq_ok_iff.mp hcreate
  intro ops s h
  have hkeys : s.keys = ["a", "b"] := by cbv
  have hk : "c" ∉ s.keys := by simp [hkeys]
  have hsize : s.size = 2 := by cbv
  have hsecondary : [some "y"].length ≤ maxSecondaryIndexes := by decide
  exact ⟨hk, hsize, hsecondary, (hvictim 0 "c" "4" [some "y"] hk hsecondary).1 hsize⟩

end Store

end CacheServer
