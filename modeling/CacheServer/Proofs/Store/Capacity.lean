import CacheServer.Eviction.SipHash
import CacheServer.Proofs.Store.Run

/-!
What a put does to the keys of a store. A bounded store never grows beyond its capacity, and its rule
keeps exactly the keys that are there.
-/

namespace CacheServer.Store

open Std

variable {s t : Store} {k : Key} {draw : Nat} {v : String} {secondary : List (Option Key)}

theorem keys_put_of_mem (hput : s.put draw k v secondary = .ok t) (hk : k ∈ s.entries) :
    t.keys = s.keys := by
  obtain ⟨e, he⟩ := mem_entries_iff.mp hk
  obtain ⟨-, rfl⟩ := put_eq_ok_iff.mp hput
  simp only [keys, write_of_getElem? he]
  exact keys_eq_of_mem_iff fun _ => mem_insert_of_mem hk _

theorem keys_put_of_not_mem (hput : s.put draw k v secondary = .ok t) (hk : k ∉ s.entries)
    (hroom : s.isFull = false) : t.keys.Perm (k :: s.keys) := by
  obtain ⟨-, rfl⟩ := put_eq_ok_iff.mp hput
  simp only [keys, write_of_not_mem hk hroom]
  exact keys_insert_perm hk _

/-- A put that needs no room to be made drops no key. -/
theorem keys_subset_keys_put (hput : s.put draw k v secondary = .ok t)
    (hroom : k ∈ s.entries ∨ s.isFull = false) : s.keys ⊆ t.keys := by
  intro k' hk'
  by_cases hk : k ∈ s.entries
  · rwa [keys_put_of_mem hput hk]
  · rw [(keys_put_of_not_mem hput hk (hroom.resolve_left hk)).mem_iff]
    exact List.mem_cons_of_mem k hk'

/-- The key that the rule chooses goes for a new one. -/
theorem WellFormed.keys_put_of_victim? {victim : Key} {rest : Policy} (h : s.WellFormed)
    (hput : s.put draw k v secondary = .ok t) (hk : k ∉ s.entries) (hfull : s.isFull = true)
    (hvictim : s.policy.victim? draw = some (victim, rest)) :
    t.keys.Perm (k :: s.keys.erase victim) := by
  rw [h.put_of_isFull hk hfull] at hput
  have hkeys := keys_put_of_not_mem hput (not_mem_evict hk) (h.isFull_evict hfull draw)
  have hevict : (s.evict draw).keys.Perm (s.keys.erase victim) := by
    rw [evict_eq hvictim]
    exact keys_erase_perm s.entries victim
  exact hkeys.trans (hevict.cons k)

theorem WellFormed.isFull_iff_size_eq (h : s.WellFormed) {c : Nat} (hc : s.capacity = some c) :
    s.isFull = true ↔ s.size = c := by
  have hle := (h.capacity c hc).2
  rw [isFull_iff]
  constructor
  · rintro ⟨c', hc', hle'⟩
    obtain rfl : c = c' := Option.some.inj (hc.symm.trans hc')
    omega
  · rintro rfl
    exact ⟨s.size, hc, Nat.le_refl _⟩

end CacheServer.Store
