import CacheServer.Proofs.Eviction.Policy

/-!
Removals of several keys. By every rule but the random one the bookkeeping forgets where a removed key
stood, so that it does not matter in which order keys are removed.
-/

namespace CacheServer

open Std

section Labels

variable {α : Type} [Ord α] [TransOrd α] [LawfulEqOrd α]

/-- The labelled keys without one of them. -/
def dropLabel (order : ExtTreeMap α Key) (labels : KeyMap α) (k : Key) : ExtTreeMap α Key :=
  labels[k]?.elim order order.erase

theorem dropLabel_comm (order : ExtTreeMap α Key) (labels : KeyMap α) (k k' : Key) :
    dropLabel (dropLabel order labels k) (labels.erase k) k' =
      dropLabel (dropLabel order labels k') (labels.erase k') k := by
  by_cases hkk : k = k'
  · rw [hkk]
  · simp only [dropLabel, ExtTreeMap.getElem?_erase, LawfulEqCmp.compare_eq_iff_eq, hkk, Ne.symm hkk,
      ↓reduceIte]
    cases labels[k]? <;> cases labels[k']? <;> simp [erase_erase_comm]

end Labels

theorem Recency.erase_eq (r : Recency) (k : Key) :
    r.erase k = { r with order := dropLabel r.order r.stamps k, stamps := r.stamps.erase k } := by
  rw [erase, remove, dropLabel]
  cases hk : r.stamps[k]? with
  | none =>
    have hgone : k ∉ r.stamps := (getElem?_eq_none_iff r.stamps k).mp hk
    rw [erase_eq_self hgone]
    rfl
  | some stamp => rfl

theorem Recency.erase_comm (r : Recency) (k k' : Key) :
    (r.erase k).erase k' = (r.erase k').erase k := by
  simp only [erase_eq, dropLabel_comm r.order r.stamps k k', erase_erase_comm r.stamps k k']

theorem Ranking.erase_eq (r : Ranking) (k : Key) :
    r.erase k = { r with order := dropLabel r.order r.ranks k, ranks := r.ranks.erase k } := by
  rw [erase, dropLabel]
  cases hk : r.ranks[k]? with
  | none =>
    have hgone : k ∉ r.ranks := (getElem?_eq_none_iff r.ranks k).mp hk
    rw [erase_eq_self hgone]
    rfl
  | some rank => rfl

theorem Ranking.erase_comm (r : Ranking) (k k' : Key) :
    (r.erase k).erase k' = (r.erase k').erase k := by
  simp only [erase_eq, dropLabel_comm r.order r.ranks k k', erase_erase_comm r.ranks k k']

/-- The hand comes to stand where it would have come to stand the other way round. -/
theorem Ring.WellFormed.erase_comm {r : Ring} (h : r.WellFormed) (k k' : Key) :
    (r.erase k).erase k' = (r.erase k').erase k := by
  obtain ⟨before, behind, hkeys, hhand, -⟩ := h.exists_keys
  have hboth (k k' : Key) : ((r.erase k).erase k').keys.toList =
        (before.erase k).erase k' ++ (behind.erase k).erase k' ∧
      ((r.erase k).erase k').hand = ((before.erase k).erase k').length ∧
      ((r.erase k).erase k').marks = (r.marks.erase k).erase k' := by
    obtain ⟨hkeys, hhand, hmarks⟩ := h.erase_of_keys hkeys hhand k
    rw [← hmarks]
    exact (h.erase k).erase_of_keys hkeys hhand k'
  obtain ⟨hkeys₁, hhand₁, hmarks₁⟩ := hboth k k'
  obtain ⟨hkeys₂, hhand₂, hmarks₂⟩ := hboth k' k
  rw [Ring.mk.injEq]
  refine ⟨Array.toList_inj.mp ?_, ?_, ?_⟩
  · rw [hkeys₁, hkeys₂, List.erase_comm, List.erase_comm (l := behind)]
  · rw [hmarks₁, hmarks₂, erase_erase_comm]
  · rw [hhand₁, hhand₂, List.erase_comm]

theorem Adaptive.erase_comm (a : Adaptive) (k k' : Key) :
    (a.erase k).erase k' = (a.erase k').erase k := by
  simp only [erase, Recency.erase_comm _ k k']

theorem TwoQueues.erase_comm (q : TwoQueues) (k k' : Key) :
    (q.erase k).erase k' = (q.erase k').erase k := by
  simp only [erase, Recency.erase_comm _ k k']

theorem Admission.erase_comm (a : Admission) (k k' : Key) :
    (a.erase k).erase k' = (a.erase k').erase k := by
  simp only [erase, Recency.erase_comm _ k k']

/-- The bookkeeping of the random rule alone may tell which of two keys was removed first. -/
theorem Policy.WellFormed.removed_comm {p : Policy} (h : p.WellFormed) (hrule : p.rule ≠ .random)
    (k k' : Key) : (p.removed k).removed k' = (p.removed k').removed k := by
  cases p with
  | none => rfl
  | random keys => exact absurd rfl hrule
  | lru keys => exact congrArg lru (keys.erase_comm k k')
  | mru keys => exact congrArg mru (keys.erase_comm k k')
  | fifo keys => exact congrArg fifo (keys.erase_comm k k')
  | lfu keys => exact congrArg lfu (keys.erase_comm k k')
  | clock keys => exact congrArg clock (Ring.WellFormed.erase_comm h k k')
  | arc keys => exact congrArg arc (keys.erase_comm k k')
  | twoQueues keys => exact congrArg twoQueues (keys.erase_comm k k')
  | tinyLfu keys => exact congrArg tinyLfu (keys.erase_comm k k')

end CacheServer
