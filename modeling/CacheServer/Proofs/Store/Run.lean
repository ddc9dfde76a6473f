import CacheServer.Proofs.Store.WellFormed

/-!
Every operation keeps a store well formed, hence every run from a new store does. A put of a new key
into a full store is the same as making room first and putting the key then.
-/

namespace CacheServer.Store

open Std

variable {s t : Store} {k : Key} {draw : Nat} {v : String} {secondary : List (Option Key)}

theorem write_of_getElem? {e : Entry} (he : s.entries[k]? = some e) :
    s.write draw k v =
      { s with entries := s.entries.insert k { e with value := v }, policy := s.policy.used k } := by
  rw [write, he]

theorem write_of_not_mem (hk : k ∉ s.entries) (hroom : s.isFull = false) :
    s.write draw k v =
      { s with entries := s.entries.insert k ⟨v, 0⟩, policy := s.policy.inserted k } := by
  simp [write, ExtTreeMap.getElem?_eq_none hk, hroom]

theorem not_mem_evict (hk : k ∉ s.entries) : k ∉ (s.evict draw).entries := by
  cases hvictim : s.policy.victim? draw with
  | none => rwa [evict, hvictim]
  | some found =>
    rw [evict_eq hvictim]
    intro hmem
    exact hk (mem_erase_iff.mp hmem).2

theorem WellFormed.write_of_isFull (h : s.WellFormed) (hk : k ∉ s.entries) (hfull : s.isFull = true) :
    s.write draw k v = (s.evict draw).write draw k v := by
  rw [write_of_not_mem (not_mem_evict hk) (h.isFull_evict hfull draw)]
  simp [write, ExtTreeMap.getElem?_eq_none hk, hfull]

theorem mem_write (s : Store) (draw : Nat) (k : Key) (v : String) :
    k ∈ (s.write draw k v).entries := by
  rw [write]
  split <;> exact ExtTreeMap.mem_insert_self

theorem WellFormed.write (h : s.WellFormed) (draw : Nat) (k : Key) (v : String) :
    (s.write draw k v).WellFormed := by
  cases he : s.entries[k]? with
  | some e =>
    rw [write_of_getElem? he]
    exact h.refresh (mem_entries_iff.mpr ⟨e, he⟩) _
  | none =>
    have hk : k ∉ s.entries := (getElem?_eq_none_iff s.entries k).mp he
    cases hfull : s.isFull with
    | false =>
      rw [write_of_not_mem hk hfull]
      exact h.extend hk hfull _
    | true =>
      rw [h.write_of_isFull hk hfull, write_of_not_mem (not_mem_evict hk) (h.isFull_evict hfull draw)]
      exact (h.evict draw).extend (not_mem_evict hk) (h.isFull_evict hfull draw) _

/-- A put with a secondary key for each index at most is done. -/
theorem put_eq_ok (hsecondary : secondary.length ≤ maxSecondaryIndexes) :
    s.put draw k v secondary = .ok { s.write draw k v with
      indexOne := link (s.write draw k v).indexOne (secondary[0]?.getD none) k
      indexTwo := link (s.write draw k v).indexTwo (secondary[1]?.getD none) k } := by
  rw [put, if_neg (by omega)]

theorem put_eq_ok_iff :
    s.put draw k v secondary = .ok t ↔
      secondary.length ≤ maxSecondaryIndexes ∧
        t = { s.write draw k v with
          indexOne := link (s.write draw k v).indexOne (secondary[0]?.getD none) k
          indexTwo := link (s.write draw k v).indexTwo (secondary[1]?.getD none) k } := by
  by_cases hsecondary : secondary.length ≤ maxSecondaryIndexes
  · rw [put_eq_ok hsecondary, Except.ok.injEq, eq_comm]
    simp [hsecondary]
  · rw [put, if_pos (by omega)]
    simp [hsecondary]

/-- To put a new key into a full store is to make room and to put it then. -/
theorem WellFormed.put_of_isFull (h : s.WellFormed) (hk : k ∉ s.entries) (hfull : s.isFull = true) :
    s.put draw k v secondary = (s.evict draw).put draw k v secondary := by
  rw [put, put, h.write_of_isFull hk hfull]

theorem WellFormed.put (h : s.WellFormed) (hput : s.put draw k v secondary = .ok t) :
    t.WellFormed := by
  obtain ⟨-, rfl⟩ := put_eq_ok_iff.mp hput
  exact (h.write draw k v).link (mem_write s draw k v) _ _

theorem WellFormed.get (h : s.WellFormed) (k : Key) : (s.get k).2.WellFormed := by
  rw [Store.get]
  split
  case h_1 => exact h
  case h_2 e he => exact h.refresh (mem_entries_iff.mpr ⟨e, he⟩) _

theorem WellFormed.getBy (h : s.WellFormed) (i : Index) (secondary : Key) :
    (s.getBy i secondary).2.WellFormed := by
  rw [Store.getBy]
  split
  · exact h
  · exact h.get _

theorem WellFormed.remove (h : s.WellFormed) (k : Key) : (s.remove k).2.WellFormed := by
  cases he : s.entries[k]? with
  | none =>
    have hk : k ∉ s.entries := (getElem?_eq_none_iff s.entries k).mp he
    rw [Store.remove, he, h.unlink_eq_self hk]
    exact h
  | some e =>
    obtain ⟨hp, hresidents⟩ := h.policy.removed k
    rw [Store.remove, he]
    exact h.drop hp (Policy.rule_removed k s.policy) hresidents

theorem WellFormed.clear (h : s.WellFormed) : s.clear.WellFormed where
  policy := Policy.wellFormed_cleared s.policy
  rule := (Policy.rule_cleared s.policy).trans h.rule
  residents _ := by simp [Store.clear, keys]
  bounded := h.bounded
  capacity c hc := ⟨(h.capacity c hc).1, by simp [Store.clear, size]⟩
  linked i x k hk := by cases i <;> simp [Store.clear, index] at hk

theorem WellFormed.apply (h : s.WellFormed) (op : Operation) : (s.apply op).WellFormed := by
  cases op with
  | put draw k v secondary =>
    rw [Store.apply]
    split
    case h_1 t hput => exact h.put hput
    case h_2 => exact h
  | get k => exact h.get k
  | getBy i x => exact h.getBy i x
  | remove k => exact h.remove k
  | clear => exact h.clear

theorem WellFormed.applyAll (h : s.WellFormed) (ops : List Operation) :
    (s.applyAll ops).WellFormed := by
  induction ops generalizing s with
  | nil => exact h
  | cons op ops ih => exact ih (h.apply op)

theorem WellFormed.serveAll (h : s.WellFormed) (requests : List Request) :
    (s.serveAll requests).WellFormed := by
  obtain ⟨ops, hops⟩ := exists_operations_of_serveAll s requests
  rw [hops]
  exact h.applyAll ops

theorem WellFormed.serve (h : s.WellFormed) (request : Request) : (s.serve request).WellFormed :=
  h.serveAll [request]

/-- A store without entries. -/
def fresh (hash : RowHash) (rule : EvictionRule) (capacity : Nat) : Store :=
  ⟨rule, if rule = .none then none else some capacity, ∅, ∅, ∅, .ofRule hash capacity rule⟩

/-- A new store can be made unless it would be bounded to nothing. -/
theorem create_eq_ok_iff {hash : RowHash} {rule : EvictionRule} {capacity : Nat} :
    create hash rule capacity = .ok s ↔
      (rule = .none ∨ 1 ≤ capacity) ∧ s = fresh hash rule capacity := by
  cases rule with
  | none => simp [create, fresh, Policy.ofRule, eq_comm]
  | _ =>
    by_cases hcapacity : capacity = 0
    · simp [create, hcapacity]
    · have hpos : 1 ≤ capacity := by omega
      simp [create, hcapacity, hpos, fresh, eq_comm]

theorem wellFormed_fresh (hash : RowHash) {rule : EvictionRule} {capacity : Nat}
    (hcapacity : rule = .none ∨ 1 ≤ capacity) : (fresh hash rule capacity).WellFormed where
  policy := Policy.wellFormed_ofRule hash capacity rule
  rule := Policy.rule_ofRule hash capacity rule
  residents _ := by simp [fresh, keys, Policy.residents_ofRule]
  bounded := by by_cases hrule : rule = .none <;> simp [fresh, hrule]
  capacity c hc := by
    by_cases hrule : rule = .none
    · simp [fresh, hrule] at hc
    · obtain rfl : capacity = c := by simpa [fresh, hrule] using hc
      exact ⟨hcapacity.resolve_left hrule, by simp [fresh, size]⟩
  linked i x k hk := by cases i <;> simp [fresh, index] at hk

/-- What bounds a store, which no operation changes. -/
def bound (s : Store) : EvictionRule × Option Nat :=
  (s.rule, s.capacity)

theorem bound_evict (s : Store) (draw : Nat) : (s.evict draw).bound = s.bound := by
  rw [evict]
  split <;> rfl

theorem bound_write (s : Store) (draw : Nat) (k : Key) (v : String) :
    (s.write draw k v).bound = s.bound := by
  rw [write]
  split
  · rfl
  · cases s.isFull with
    | false => rfl
    | true => exact bound_evict s draw

theorem bound_get (s : Store) (k : Key) : (s.get k).2.bound = s.bound := by
  rw [get]
  split <;> rfl

theorem bound_apply (s : Store) (op : Operation) : (s.apply op).bound = s.bound := by
  cases op with
  | put draw k v secondary =>
    rw [apply]
    split
    case h_1 t hput =>
      obtain ⟨-, rfl⟩ := put_eq_ok_iff.mp hput
      exact bound_write s draw k v
    case h_2 => rfl
  | get k => exact bound_get s k
  | getBy i x =>
    rw [apply, getBy]
    split
    · rfl
    · exact bound_get s _
  | remove k =>
    rw [apply, remove]
    split <;> rfl
  | clear => rfl

theorem bound_applyAll (s : Store) (ops : List Operation) : (s.applyAll ops).bound = s.bound := by
  induction ops generalizing s with
  | nil => rfl
  | cons op ops ih => exact (ih (s.apply op)).trans (bound_apply s op)

end CacheServer.Store
