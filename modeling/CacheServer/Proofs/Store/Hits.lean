import CacheServer.Proofs.Store.Capacity
import CacheServer.Proofs.Store.Untouched
import CacheServer.Proofs.Store.Uses
import Mathlib.Data.List.Permutation

/-!
The hits of a key are the look-ups that have found its value since it came, by the key or by a secondary key.
-/

namespace CacheServer

namespace Uses

/-- The number of look-ups that have found the value of a key since it came last. -/
def reads (h : List Use) (k : Key) : Nat :=
  (h.reverse.takeWhile fun u => u ≠ ⟨k, .insertion⟩).count ⟨k, .reading⟩

variable {h : List Use} {k k' : Key}

theorem reads_snoc_insertion (h : List Use) (k : Key) : reads (h ++ [⟨k, .insertion⟩]) k = 0 := by
  simp [reads]

theorem reads_snoc_overwriting (h : List Use) (k : Key) :
    reads (h ++ [⟨k, .overwriting⟩]) k = reads h k := by
  simp [reads]

theorem reads_snoc_reading (h : List Use) (k : Key) :
    reads (h ++ [⟨k, .reading⟩]) k = reads h k + 1 := by
  simp [reads]

theorem reads_snoc_of_ne (hne : k' ≠ k) (h : List Use) (kind : UseKind) :
    reads (h ++ [⟨k, kind⟩]) k' = reads h k' := by
  simp [reads, hne.symm]

end Uses

namespace Store

open Std

variable {s t : Store} {h : List Use} {k k' : Key} {e : Entry} {draw : Nat} {v : String}
  {secondary : List (Option Key)}

/-- The hits of every key are what the uses tell. -/
def Counts (s : Store) (h : List Use) : Prop :=
  ∀ (k : Key) (e : Entry), s.entries[k]? = some e → e.hits = Uses.reads h k

theorem counts_of_empty (hs : s.entries = ∅) (h : List Use) : s.Counts h := by
  intro k e he
  rw [hs, ExtTreeMap.getElem?_empty] at he
  cases he

theorem Counts.of_erase (hs : s.Counts h) (ht : t.entries = s.entries.erase k) : t.Counts h := by
  intro k' e he
  rw [ht, ExtTreeMap.getElem?_erase] at he
  split at he
  · cases he
  · exact hs k' e he

/-- A use of a key changes the count of no other key. -/
theorem Counts.of_insert (hs : s.Counts h) {kind : UseKind} (ht : t.entries = s.entries.insert k e)
    (he : e.hits = Uses.reads (h ++ [⟨k, kind⟩]) k) : t.Counts (h ++ [⟨k, kind⟩]) := by
  intro k' e' he'
  rw [ht, ExtTreeMap.getElem?_insert] at he'
  split at he'
  case isTrue hk =>
    obtain rfl := LawfulEqCmp.compare_eq_iff_eq.mp hk
    obtain rfl := Option.some.inj he'
    exact he
  case isFalse hk =>
    have hne : k' ≠ k := by
      rintro rfl
      exact hk (LawfulEqCmp.compare_eq_iff_eq.mpr rfl)
    rw [Uses.reads_snoc_of_ne hne]
    exact hs k' e' he'

theorem Counts.evict (hs : s.Counts h) (draw : Nat) : (s.evict draw).Counts h := by
  cases hvictim : s.policy.victim? draw with
  | none => rwa [Store.evict, hvictim]
  | some found =>
    rw [evict_eq hvictim]
    exact hs.of_erase rfl

/-- A put that overwrites keeps the hits of its key, and one that brings the key starts them anew. -/
theorem Counts.write (hs : s.Counts h) (draw : Nat) (k : Key) (v : String) :
    (s.write draw k v).Counts (h ++ [⟨k, if s.containsKey k then .overwriting else .insertion⟩]) := by
  by_cases hk : k ∈ s.entries
  · obtain ⟨e, he⟩ := mem_entries_iff.mp hk
    rw [write_of_getElem? he, if_pos (containsKey_iff.mpr hk)]
    refine hs.of_insert rfl ?_
    rw [Uses.reads_snoc_overwriting]
    exact hs k e he
  · rw [Store.write, ExtTreeMap.getElem?_eq_none hk, if_neg (mt containsKey_iff.mp hk)]
    have hnew : (0 : Nat) = Uses.reads (h ++ [⟨k, .insertion⟩]) k := (Uses.reads_snoc_insertion h k).symm
    cases s.isFull with
    | false => exact hs.of_insert rfl hnew
    | true => exact (hs.evict draw).of_insert rfl hnew

theorem Counts.get (hs : s.Counts h) (k : Key) :
    (s.get k).2.Counts
      (h ++ (if (s.get k).1.isSome then some ⟨k, .reading⟩ else none : Option Use).toList) := by
  rw [Store.get]
  split
  case h_1 => simpa using hs
  case h_2 e he =>
    refine hs.of_insert (e := { e with hits := e.hits + 1 }) rfl ?_
    rw [Uses.reads_snoc_reading, ← hs k e he]

theorem Counts.apply (hs : s.Counts h) (op : Operation) :
    (s.apply op).Counts (h ++ (s.use? op).toList) := by
  cases op with
  | put draw k v secondary =>
    rw [Store.apply, use?]
    by_cases hsecondary : secondary.length ≤ maxSecondaryIndexes
    · rw [put_eq_ok hsecondary, if_pos hsecondary]
      exact hs.write draw k v
    · rw [Store.put, if_pos (by omega), if_neg hsecondary]
      simpa using hs
  | get k => exact hs.get k
  | getBy i x =>
    rw [Store.apply, use?]
    cases hx : (s.index i)[x]? with
    | none => simpa [Store.getBy, hx] using hs
    | some k =>
      rw [getBy_eq_get hx]
      exact hs.get k
  | remove k =>
    rw [Store.apply, use?, Option.toList_none, List.append_nil, Store.remove]
    split
    · exact hs
    · exact hs.of_erase rfl
  | clear => exact counts_of_empty rfl _

theorem Counts.applyAll (hs : s.Counts h) (ops : List Operation) :
    (s.applyAll ops).Counts (h ++ s.uses ops) := by
  induction ops generalizing s h with
  | nil => rwa [uses, List.append_nil]
  | cons op ops ih =>
    rw [uses, ← List.append_assoc]
    exact ih (hs.apply op)

/-- The uses of keys in a run of requests, in their order. -/
def usesOf (s : Store) : List Request → List Use
  | [] => []
  | request :: requests => s.uses (s.operationsOf request) ++ (s.serve request).usesOf requests

theorem Counts.serveAll (hs : s.Counts h) (requests : List Request) :
    (s.serveAll requests).Counts (h ++ s.usesOf requests) := by
  induction requests generalizing s h with
  | nil => rwa [usesOf, List.append_nil]
  | cons request requests ih =>
    have hstep := hs.applyAll (s.operationsOf request)
    rw [← serve_eq_applyAll] at hstep
    rw [usesOf, ← List.append_assoc]
    exact ih hstep

theorem Counts.hits?_eq (hs : s.Counts h) (hk : k ∈ s.keys) : s.hits? k = some (Uses.reads h k) := by
  obtain ⟨e, he⟩ := mem_entries_iff.mp (mem_keys.mp hk)
  rw [hits?, he, Option.map_some, hs k e he]

/-- An operation that does not read a key which it leaves in the store leaves its hits alone. -/
theorem Counts.hits?_apply (hs : s.Counts h) {op : Operation} (hk : k ∈ s.keys)
    (hkept : k ∈ (s.apply op).keys) (hread : s.use? op ≠ some ⟨k, .reading⟩) :
    (s.apply op).hits? k = s.hits? k := by
  rw [(hs.apply op).hits?_eq hkept, hs.hits?_eq hk]
  have hinsertion : s.use? op ≠ some ⟨k, .insertion⟩ := use?_ne_insertion hk
  cases huse : s.use? op with
  | none => rw [Option.toList_none, List.append_nil]
  | some use =>
    rw [huse] at hread hinsertion
    obtain ⟨k', kind⟩ := use
    by_cases hne : k = k'
    · subst hne
      cases kind with
      | insertion => exact absurd rfl hinsertion
      | overwriting => rw [Option.toList_some, Uses.reads_snoc_overwriting]
      | reading => exact absurd rfl hread
    · rw [Option.toList_some, Uses.reads_snoc_of_ne hne]

/-- A put that overwrites keeps the hits of its key. -/
theorem hits?_put_of_mem (hk : k ∈ s.keys) (hput : s.put draw k v secondary = .ok t) :
    t.hits? k = s.hits? k := by
  obtain ⟨e, he⟩ := mem_entries_iff.mp (mem_keys.mp hk)
  obtain ⟨-, rfl⟩ := put_eq_ok_iff.mp hput
  simp [hits?, write_of_getElem? he, he]

/-- A put starts the hits of a key that was not there at zero. -/
theorem Counts.hits?_put_of_not_mem (hs : s.Counts h) (hk : k ∉ s.keys)
    (hput : s.put draw k v secondary = .ok t) : t.hits? k = some 0 := by
  obtain ⟨-, rfl⟩ := put_eq_ok_iff.mp hput
  have hwrite := hs.write draw k v
  rw [if_neg (mt containsKey_iff.mp (mt mem_keys.mpr hk))] at hwrite
  have hmem : k ∈ (s.write draw k v).keys := mem_keys.mpr (mem_write s draw k v)
  rw [← Uses.reads_snoc_insertion h k]
  exact hwrite.hits?_eq hmem

/-- In every store that a run reaches, by every rule, the hits of a key that is there are the look-ups that have
found its value since it came last, by the key itself or by a secondary key that led to it at the time. A put
of a key that is not there, be it new, removed or evicted, starts its hits at zero. An operation that does not
find the value of a key, such as a put that overwrites it or a look-up of another key, leaves the hits of the
key alone if it leaves the key, and a look-up that finds nothing leaves the whole store as it is. To be asked
for its keys, its size, its values or its hits changes no store. -/
theorem hits_of_run (hash : RowHash) {rule : EvictionRule} {capacity : Nat}
    (hcapacity : rule = .none ∨ 1 ≤ capacity) (requests : List Request) :
    ∃ s₀, create hash rule capacity = .ok s₀ ∧
      let s := s₀.serveAll requests
      (∀ k ∈ s.keys, s.hits? k = some (Uses.reads (s₀.usesOf requests) k)) ∧
        (∀ draw k v secondary t, s.put draw k v secondary = .ok t →
          t.hits? k = if k ∈ s.keys then s.hits? k else some 0) ∧
        (∀ op, ∀ k ∈ s.keys, k ∈ (s.apply op).keys → s.use? op ≠ some ⟨k, .reading⟩ →
          (s.apply op).hits? k = s.hits? k) ∧
        (∀ k, (s.get k).1 = none → (s.get k).2 = s) ∧
        ∀ i x, (s.getBy i x).1 = none → (s.getBy i x).2 = s := by
  refine ⟨_, create_eq_ok_iff.mpr ⟨hcapacity, rfl⟩, ?_⟩
  intro s
  have hcounts : s.Counts _ := (counts_of_empty (h := []) rfl).serveAll requests
  refine ⟨fun k hk => hcounts.hits?_eq hk, ?_, fun op k hk hkept hread => hcounts.hits?_apply hk hkept hread,
    fun k => snd_get_of_none, fun i x => snd_getBy_of_none⟩
  intro draw k v secondary t hput
  split
  case isTrue hk => exact hits?_put_of_mem hk hput
  case isFalse hk => exact hcounts.hits?_put_of_not_mem hk hput

theorem hits_of_run_put_again :
    let requests : List Request :=
      [.operation (.put 0 "a" "1" [some "x"]), .line 0 "GET a", .operation (.getBy .one "x"),
        .operation (.put 0 "a" "2" []), .operation (.put 0 "b" "3" [some "x"]), .line 0 "GETIDX1 x",
        .operation (.get "c")]
    let evicting : List Request :=
      [.operation (.put 0 "a" "1" []), .operation (.get "a"), .operation (.put 0 "b" "2" [some "x"]),
        .operation (.put 0 "c" "3" []), .operation (.getBy .one "x")]
    (EvictionRule.lru = .none ∨ 1 ≤ 2) ∧
      ∃ s₀, create SipHash.rowHash .lru 2 = .ok s₀ ∧
        let s := s₀.serveAll requests
        let s' := s₀.serveAll evicting
        (s.hits? "a" = some 2 ∧ s.hits? "b" = some 1 ∧
          ∀ t, s.put 0 "a" "4" [] = .ok t → t.hits? "a" = some 2) ∧
        s'.keys = ["b", "c"] ∧ (s'.getBy .two "x").2 = s' ∧ (s'.apply (.get "c")).hits? "b" = some 1 ∧
          ∀ t, s'.put 0 "a" "4" [] = .ok t → t.hits? "a" = some 0 := by
  intro requests evicting
  have hcapacity : EvictionRule.lru = .none ∨ 1 ≤ 2 := .inr (by decide)
  obtain ⟨s₀, hcreate, hhits, hput, -⟩ := hits_of_run SipHash.rowHash hcapacity requests
  obtain ⟨s₁, hcreate', hhits', hput', hread, -, hmiss⟩ := hits_of_run SipHash.rowHash hcapacity evicting
  obtain rfl := Except.ok.inj (hcreate.symm.trans hcreate')
  refine ⟨hcapacity, s₀, hcreate, ?_⟩
  obtain ⟨-, rfl⟩ := create_eq_ok_iff.mp hcreate
  intro s s'
  constructor
  · have hkeys : s.keys = ["a", "b"] := by decide +kernel
    have ha : s.hits? "a" = some 2 := (hhits "a" (by rw [hkeys]; decide)).trans (by decide +kernel)
    have hb : s.hits? "b" = some 1 := (hhits "b" (by rw [hkeys]; decide)).trans (by decide +kernel)
    refine ⟨ha, hb, ?_⟩
    intro t ht
    rw [hput 0 "a" "4" [] t ht, if_pos (by rw [hkeys]; decide), ha]
  · obtain ⟨hkeys, hkept, hreads, huse, hnone⟩ : s'.keys = ["b", "c"] ∧
        (s'.apply (.get "c")).keys = ["b", "c"] ∧
        Uses.reads ((fresh SipHash.rowHash .lru 2).usesOf evicting) "b" = 1 ∧
        s'.use? (.get "c") = some ⟨"c", .reading⟩ ∧ (s'.getBy .two "x").1 = none := by
      subst s' evicting
      refine ⟨?_, ?_, ?_, ?_, ?_⟩ <;> cbv
    refine ⟨hkeys, hmiss .two "x" hnone, ?_, ?_⟩
    · rw [hread (.get "c") "b" (by rw [hkeys]; decide) (by rw [hkept]; decide) (by rw [huse]; decide),
        hhits' "b" (by rw [hkeys]; decide), hreads]
    · intro t ht
      rw [hput' 0 "a" "4" [] t ht, if_neg (by rw [hkeys]; decide)]

end Store

end CacheServer
