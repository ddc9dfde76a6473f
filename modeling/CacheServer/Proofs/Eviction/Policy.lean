import CacheServer.Eviction.Policy
import CacheServer.Proofs.Eviction.Adaptive
import CacheServer.Proofs.Eviction.Admission
import CacheServer.Proofs.Eviction.Pool
import CacheServer.Proofs.Eviction.Ranking
import CacheServer.Proofs.Eviction.Ring
import CacheServer.Proofs.Eviction.TwoQueues

/-!
What every rule's bookkeeping keeps: each key once, and exactly the keys that it was told of. A key
is found to go as long as there is one.
-/

namespace CacheServer.Policy

variable {p rest : Policy} {k : Key}

/-- The rule whose bookkeeping this is. -/
def rule : Policy → EvictionRule
  | none => .none
  | random _ => .random
  | lru _ => .lru
  | mru _ => .mru
  | fifo _ => .fifo
  | lfu _ => .lfu
  | clock _ => .clock
  | arc _ => .arc
  | twoQueues _ => .twoQueues
  | tinyLfu _ => .tinyLfu

/-- The maps and lists of the bookkeeping agree with each other. -/
def WellFormed : Policy → Prop
  | none => True
  | random p => p.WellFormed
  | lru r | mru r | fifo r => r.WellFormed
  | lfu r => r.WellFormed
  | clock r => r.WellFormed
  | arc a => a.WellFormed
  | twoQueues q => q.WellFormed
  | tinyLfu a => a.WellFormed

@[simp] theorem rule_ofRule (hash : RowHash) (capacity : Nat) (rule : EvictionRule) :
    (ofRule hash capacity rule).rule = rule := by
  cases rule <;> rfl

@[simp] theorem rule_inserted (k : Key) (p : Policy) : (p.inserted k).rule = p.rule := by
  cases p <;> rfl

@[simp] theorem rule_used (k : Key) (p : Policy) : (p.used k).rule = p.rule := by
  cases p <;> rfl

@[simp] theorem rule_removed (k : Key) (p : Policy) : (p.removed k).rule = p.rule := by
  cases p <;> rfl

@[simp] theorem rule_cleared (p : Policy) : p.cleared.rule = p.rule := by
  cases p <;> rfl

/-- The key to go is taken from the bookkeeping of the rule. -/
theorem exists_taken {α : Type} {taken : Option (Key × α)} {f : α → Policy}
    (hvictim : (taken.map fun (k, x) => (k, f x)) = some (k, rest)) :
    ∃ x, taken = some (k, x) ∧ f x = rest := by
  obtain ⟨⟨found, x⟩, htaken, heq⟩ := Option.map_eq_some_iff.mp hvictim
  obtain ⟨rfl, rfl⟩ := Prod.mk.inj heq
  exact ⟨x, htaken, rfl⟩

theorem rule_victim? {draw : Nat} (hvictim : p.victim? draw = some (k, rest)) :
    rest.rule = p.rule := by
  cases p with
  | none => cases hvictim
  | _ =>
    obtain ⟨-, -, rfl⟩ := exists_taken hvictim
    rfl

theorem wellFormed_ofRule (hash : RowHash) (capacity : Nat) (rule : EvictionRule) :
    (ofRule hash capacity rule).WellFormed := by
  cases rule with
  | none => trivial
  | random => exact Pool.wellFormed_empty
  | lru => exact Recency.wellFormed_empty
  | mru => exact Recency.wellFormed_empty
  | fifo => exact Recency.wellFormed_empty
  | lfu => exact Ranking.wellFormed_empty
  | clock => exact Ring.wellFormed_empty
  | arc => exact Adaptive.wellFormed_ofCapacity capacity
  | twoQueues => exact TwoQueues.wellFormed_ofCapacity capacity
  | tinyLfu => exact Admission.wellFormed_ofCapacity hash capacity

theorem residents_ofRule (hash : RowHash) (capacity : Nat) (rule : EvictionRule) :
    (ofRule hash capacity rule).residents = [] := by
  cases rule <;> simp [ofRule, residents, Pool.empty, Adaptive.ofCapacity, TwoQueues.ofCapacity,
    Admission.ofCapacity]

theorem WellFormed.nodup_residents (h : p.WellFormed) : p.residents.Nodup := by
  cases p with
  | none => exact List.nodup_nil
  | random p => exact Pool.WellFormed.nodup_keys h
  | lru r => exact Recency.WellFormed.nodup_toList h
  | mru r => exact Recency.WellFormed.nodup_toList h
  | fifo r => exact Recency.WellFormed.nodup_toList h
  | lfu r => exact Ranking.WellFormed.nodup_toList h
  | clock r => exact Ring.WellFormed.nodup_toList h
  | arc a => exact Adaptive.WellFormed.nodup_residents h
  | twoQueues q => exact TwoQueues.WellFormed.nodup_residents h
  | tinyLfu a => exact Admission.WellFormed.nodup h

/-- Without a rule no key is kept; by every other rule a new key is kept beside the others. -/
theorem WellFormed.inserted (h : p.WellFormed) (hk : k ∉ p.residents) :
    (p.inserted k).WellFormed ∧
      (p.rule ≠ .none → (p.inserted k).residents.Perm (k :: p.residents)) := by
  cases p with
  | none => exact ⟨trivial, fun hrule => absurd rfl hrule⟩
  | random p =>
    refine ⟨Pool.WellFormed.add h hk, fun _ => ?_⟩
    change (p.keys.push k).toList.Perm (k :: p.keys.toList)
    rw [Array.toList_push]
    exact List.perm_append_singleton k p.keys.toList
  | lru r => exact ⟨Recency.WellFormed.touch h k, fun _ => Recency.WellFormed.touch_perm h hk⟩
  | mru r => exact ⟨Recency.WellFormed.touch h k, fun _ => Recency.WellFormed.touch_perm h hk⟩
  | fifo r => exact ⟨Recency.WellFormed.touch h k, fun _ => Recency.WellFormed.touch_perm h hk⟩
  | lfu r => exact ⟨Ranking.WellFormed.add h hk, fun _ => Ranking.WellFormed.toList_add h k⟩
  | clock r =>
    refine ⟨Ring.WellFormed.add h hk, fun _ => ?_⟩
    change (r.add k).toList.Perm (k :: r.toList)
    rw [Ring.WellFormed.toList_add h k]
    exact List.perm_append_singleton k r.toList
  | arc a => exact (Adaptive.WellFormed.add h hk).imp_right fun hperm _ => hperm
  | twoQueues q => exact (TwoQueues.WellFormed.add h hk).imp_right fun hperm _ => hperm
  | tinyLfu a => exact (Admission.WellFormed.add h hk).imp_right fun hperm _ => hperm

/-- A use changes none of the keys. Only the rules LRU and MRU take it for granted that the used key is kept. -/
theorem WellFormed.used (h : p.WellFormed) (hk : p.rule = .lru ∨ p.rule = .mru → k ∈ p.residents) :
    (p.used k).WellFormed ∧ (p.used k).residents.Perm p.residents := by
  cases p with
  | none => exact ⟨trivial, .refl _⟩
  | random p => exact ⟨h, .refl _⟩
  | lru r =>
    exact ⟨Recency.WellFormed.touch h k, Recency.WellFormed.touch_perm_of_mem h (hk (.inl rfl))⟩
  | mru r =>
    exact ⟨Recency.WellFormed.touch h k, Recency.WellFormed.touch_perm_of_mem h (hk (.inr rfl))⟩
  | fifo r => exact ⟨h, .refl _⟩
  | lfu r => exact Ranking.WellFormed.use h k
  | clock r => exact (Ring.WellFormed.use h k).imp_right .of_eq
  | arc a => exact Adaptive.WellFormed.use h k
  | twoQueues q => exact TwoQueues.WellFormed.use h k
  | tinyLfu a => exact Admission.WellFormed.use h k

theorem WellFormed.removed (h : p.WellFormed) (k : Key) :
    (p.removed k).WellFormed ∧ (p.removed k).residents.Perm (p.residents.erase k) := by
  cases p with
  | none => exact ⟨trivial, .refl _⟩
  | random p => exact Pool.WellFormed.erase h k
  | lru r => exact ⟨Recency.WellFormed.erase h k, .of_eq (Recency.WellFormed.toList_erase h k)⟩
  | mru r => exact ⟨Recency.WellFormed.erase h k, .of_eq (Recency.WellFormed.toList_erase h k)⟩
  | fifo r => exact ⟨Recency.WellFormed.erase h k, .of_eq (Recency.WellFormed.toList_erase h k)⟩
  | lfu r => exact ⟨Ranking.WellFormed.erase h k, .of_eq (Ranking.WellFormed.toList_erase h k)⟩
  | clock r => exact ⟨Ring.WellFormed.erase h k, .of_eq (Ring.WellFormed.toList_erase h k)⟩
  | arc a => exact Adaptive.WellFormed.erase h k
  | twoQueues q => exact TwoQueues.WellFormed.erase h k
  | tinyLfu a => exact Admission.WellFormed.erase h k

/-- The key to go is one of those kept, and only that one is dropped. -/
theorem WellFormed.victim? (h : p.WellFormed) {draw : Nat}
    (hvictim : p.victim? draw = some (k, rest)) :
    rest.WellFormed ∧ p.residents.Perm (k :: rest.residents) := by
  cases p with
  | none => cases hvictim
  | _ =>
    obtain ⟨keys, htake, rfl⟩ := exists_taken hvictim
    first
      | exact Pool.WellFormed.takeAt?_perm h htake
      | exact Recency.WellFormed.takeOldest?_perm h htake
      | exact Recency.WellFormed.takeNewest?_perm h htake
      | exact (Ranking.WellFormed.takeLeast? h htake).imp_right .of_eq
      | exact Ring.WellFormed.take?_perm h htake
      | exact Adaptive.WellFormed.take? h htake
      | exact TwoQueues.WellFormed.take? h htake
      | exact Admission.WellFormed.take? h htake

theorem WellFormed.victim?_eq_none_iff (h : p.WellFormed) {draw : Nat} :
    p.victim? draw = .none ↔ p.residents = [] := by
  cases p with
  | none => exact ⟨fun _ => rfl, fun _ => rfl⟩
  | random p => exact Option.map_eq_none_iff.trans Pool.draw?_eq_none_iff
  | lru r => exact Option.map_eq_none_iff.trans Recency.takeOldest?_eq_none_iff
  | mru r => exact Option.map_eq_none_iff.trans Recency.takeNewest?_eq_none_iff
  | fifo r => exact Option.map_eq_none_iff.trans Recency.takeOldest?_eq_none_iff
  | lfu r => exact Option.map_eq_none_iff.trans Ranking.takeLeast?_eq_none_iff
  | clock r => exact Option.map_eq_none_iff.trans (Ring.WellFormed.take?_eq_none_iff h)
  | arc a => exact Option.map_eq_none_iff.trans Adaptive.take?_eq_none_iff
  | twoQueues q => exact Option.map_eq_none_iff.trans TwoQueues.take?_eq_none_iff
  | tinyLfu a => exact Option.map_eq_none_iff.trans Admission.take?_eq_none_iff

theorem wellFormed_cleared (p : Policy) : p.cleared.WellFormed := by
  cases p with
  | none => trivial
  | random p => exact Pool.wellFormed_empty
  | lru r => exact Recency.wellFormed_clear r
  | mru r => exact Recency.wellFormed_clear r
  | fifo r => exact Recency.wellFormed_clear r
  | lfu r => exact Ranking.wellFormed_clear r
  | clock r => exact Ring.wellFormed_empty
  | arc a => exact Adaptive.wellFormed_clear a
  | twoQueues q => exact TwoQueues.wellFormed_clear q
  | tinyLfu a => exact Admission.wellFormed_clear a

@[simp] theorem residents_cleared (p : Policy) : p.cleared.residents = [] := by
  cases p <;> simp [cleared, residents, Pool.clear, Pool.empty, Ring.clear, Adaptive.clear,
    TwoQueues.clear, Admission.clear]

end CacheServer.Policy
