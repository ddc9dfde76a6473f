import CacheServer.Eviction.SipHash
import CacheServer.Proofs.Store.Run

/-!
The indexes and the entries: an index never leads to a key that is not there, because a key takes
the index entries that lead to it along, by whichever way it goes.
-/

namespace CacheServer.Store

open Std

variable {s t : Store} {k : Key}

/-- The second store is the first without a key and without the index entries that lead to it. -/
structure Drops (s : Store) (k : Key) (t : Store) : Prop where
  not_mem : k ∉ t.entries
  entry : ∀ k', k' ≠ k → t.entries[k']? = s.entries[k']?
  not_linked : ∀ (i : Index) (x : Key), (t.index i)[x]? ≠ some k
  link : ∀ (i : Index) (x target : Key),
    target ≠ k → ((t.index i)[x]? = some target ↔ (s.index i)[x]? = some target)

theorem Drops.mem_iff (h : s.Drops k t) {k' : Key} : k' ∈ t.entries ↔ k' ≠ k ∧ k' ∈ s.entries := by
  by_cases hk : k' = k
  · subst k'
    simp [h.not_mem]
  · simp [mem_entries_iff, h.entry k' hk, hk]

/-- To erase an entry and to unlink its key is to drop the key. -/
theorem drops_erase (s : Store) (k : Key) (p : Policy) :
    s.Drops k ({ s with entries := s.entries.erase k, policy := p }.unlink k) where
  not_mem hk := (mem_erase_iff.mp hk).1 rfl
  entry k' hne := by
    simp only [unlink, ExtTreeMap.getElem?_erase, LawfulEqCmp.compare_eq_iff_eq]
    rw [if_neg hne.symm]
  not_linked i x hk := (index_unlink_eq_some_iff.mp hk).2 rfl
  link i x target hne := by
    rw [index_unlink_eq_some_iff]
    exact ⟨And.left, fun htarget => ⟨htarget, hne⟩⟩

theorem WellFormed.remove_of_not_mem (h : s.WellFormed) (hk : k ∉ s.entries) :
    s.remove k = (none, s) := by
  rw [Store.remove, ExtTreeMap.getElem?_eq_none hk, h.unlink_eq_self hk]

theorem WellFormed.drops_remove (h : s.WellFormed) (k : Key) : s.Drops k (s.remove k).2 := by
  cases he : s.entries[k]? with
  | some e =>
    rw [Store.remove, he]
    exact drops_erase s k _
  | none =>
    have hk : k ∉ s.entries := (getElem?_eq_none_iff s.entries k).mp he
    rw [h.remove_of_not_mem hk]
    exact ⟨hk, fun _ _ => rfl, fun i x hx => hk (h.linked i x k hx), fun _ _ _ _ => .rfl⟩

/-- A full store drops one of its keys to make room. -/
theorem WellFormed.exists_drops_evict (h : s.WellFormed) (hfull : s.isFull = true) (draw : Nat) :
    ∃ victim ∈ s.entries, s.Drops victim (s.evict draw) := by
  obtain ⟨victim, rest, hvictim, hmem⟩ := h.exists_victim hfull draw
  refine ⟨victim, hmem, ?_⟩
  rw [evict_eq hvictim]
  exact drops_erase s victim rest

theorem getBy_eq_get {i : Index} {x : Key} (hx : (s.index i)[x]? = some k) :
    s.getBy i x = s.get k := by
  rw [getBy, hx]

theorem get_fst (s : Store) (k : Key) : (s.get k).1 = s.entries[k]?.map Entry.value := by
  rw [get]
  cases s.entries[k]? <;> rfl

theorem WellFormed.isSome_getBy (h : s.WellFormed) {i : Index} {x : Key} (hx : x ∈ s.index i) :
    (s.getBy i x).1.isSome := by
  have hk := ExtTreeMap.getElem?_eq_some_getElem hx
  obtain ⟨e, he⟩ := mem_entries_iff.mp (h.linked i x _ hk)
  rw [getBy_eq_get hk, get_fst, he]
  rfl

/-- In every store that a run of operations and lines reaches, the indexes lead to keys that are
there, so that a secondary key always yields a value. A key that is removed, or that goes to make
room for a put, leaves with all that leads to it, and with nothing else. To remove a key that is not
there does nothing at all. -/
theorem indexes_lead_to_entries_of_run (hash : RowHash) {rule : EvictionRule} {capacity : Nat}
    (hcapacity : rule = .none ∨ 1 ≤ capacity) (requests : List Request) :
    ∃ s₀, create hash rule capacity = .ok s₀ ∧
      let s := s₀.serveAll requests
      (∀ (i : Index) (x k : Key), (s.index i)[x]? = some k → k ∈ s.entries) ∧
      (∀ (i : Index) (x : Key), x ∈ s.index i → (s.getBy i x).1.isSome) ∧
      (∀ k, s.Drops k (s.remove k).2) ∧
      (∀ k, k ∉ s.entries → s.remove k = (none, s)) ∧
      ∀ draw k v secondary, k ∉ s.entries → s.isFull = true →
        ∃ victim ∈ s.entries, s.Drops victim (s.evict draw) ∧
          s.put draw k v secondary = (s.evict draw).put draw k v secondary ∧
          (s.evict draw).isFull = false := by
  refine ⟨_, create_eq_ok_iff.mpr ⟨hcapacity, rfl⟩, ?_⟩
  intro s
  have h : s.WellFormed := (wellFormed_fresh hash hcapacity).serveAll requests
  refine ⟨h.linked, fun i x => h.isSome_getBy, h.drops_remove, fun k => h.remove_of_not_mem, ?_⟩
  intro draw k v secondary hk hfull
  obtain ⟨victim, hmem, hdrops⟩ := h.exists_drops_evict hfull draw
  exact ⟨victim, hmem, hdrops, h.put_of_isFull hk hfull, h.isFull_evict hfull draw⟩

theorem indexes_lead_to_entries_of_run_lru :
    (EvictionRule.lru = .none ∨ 1 ≤ 2) ∧
      ∃ s₀, create SipHash.rowHash .lru 2 = .ok s₀ ∧
        let s := s₀.serveAll
          [.line 0 "SET a 1 IDX1 x IDX2 y", .line 0 "SET b 2 IDX1 x", .line 0 "SET c 3 IDX2 z",
            .operation (.getBy .two "z"), .line 0 "PURGE b"]
        (∀ (i : Index) (x k : Key), (s.index i)[x]? = some k → k ∈ s.entries) ∧
        (∀ (i : Index) (x : Key), x ∈ s.index i → (s.getBy i x).1.isSome) ∧
        ∀ k, s.Drops k (s.remove k).2 := by
  have hcapacity : EvictionRule.lru = .none ∨ 1 ≤ 2 := .inr (by decide)
  obtain ⟨s₀, hcreate, hlinked, hfound, hdrops, -⟩ :=
    indexes_lead_to_entries_of_run SipHash.rowHash hcapacity
      [.line 0 "SET a 1 IDX1 x IDX2 y", .line 0 "SET b 2 IDX1 x", .line 0 "SET c 3 IDX2 z",
        .operation (.getBy .two "z"), .line 0 "PURGE b"]
  exact ⟨hcapacity, s₀, hcreate, hlinked, hfound, hdrops⟩

end CacheServer.Store
