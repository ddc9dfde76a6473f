import CacheServer.Proofs.Eviction.Contract

/-!
The random rule in every run of calls. A key that leaves the array makes the last one move into its place, so where
a key stands depends on all that has gone before. Each is found where the position map says, and can be drawn.
-/

namespace CacheServer.Policy

variable {p : Policy} {pool : Pool} {k : Key}

theorem exists_random_of_rule (hrule : p.rule = .random) : ∃ pool, p = random pool := by
  cases p with
  | random pool => exact ⟨pool, rfl⟩
  | _ => cases hrule

/-- A key is removed by taking what stands at its recorded position, and all other keys stay. -/
theorem exists_removed_random (h : pool.WellFormed) (hk : k ∈ pool.keys.toList) :
    ∃ i rest, pool.positions[k]? = some i ∧ pool.takeAt? i = some (k, rest) ∧
      (random pool).removed k = random rest ∧ rest.keys.toList.Perm (pool.keys.toList.erase k) := by
  obtain ⟨i, hi⟩ := Pool.mem_keys_iff.mp hk
  have hposition := (h k i).mpr hi
  obtain ⟨rest, htake, herase⟩ := h.exists_erase hposition
  refine ⟨i, rest, hposition, htake, congrArg random herase, ?_⟩
  rw [← herase]
  exact (h.erase k).2

/-- Whichever position is drawn, the key that stands there goes, and all other keys stay. -/
theorem exists_victim?_random (h : pool.WellFormed) {i : Nat} (hi : i < pool.keys.size) :
    ∃ k rest, pool.takeAt? i = some (k, rest) ∧ (random pool).victim? i = some (k, random rest) ∧
      pool.keys.toList.Perm (k :: rest.keys.toList) := by
  obtain ⟨rest, htake⟩ := Pool.exists_takeAt? (Array.getElem?_eq_getElem hi)
  refine ⟨_, rest, htake, ?_, (h.takeAt?_perm htake).2⟩
  rw [victim?, Pool.draw?_of_lt hi, htake]
  rfl

/-- A given key goes for exactly one of the positions that may be drawn. -/
theorem existsUnique_victim?_random (h : pool.WellFormed) (hk : k ∈ pool.keys.toList) :
    ∃! i, i < pool.keys.size ∧ ((random pool).victim? i).map Prod.fst = some k := by
  have hvictim (i : Nat) : ((random pool).victim? i).map Prod.fst = (pool.draw? i).map Prod.fst :=
    Option.map_map Prod.fst _ _
  simpa only [hvictim] using h.existsUnique_draw? hk

/-- After every run of allowed calls of the random rule the array holds the tracked keys, each once, and the position
map leads from each to the place where it stands, and from no other key to a place. A removal takes what stands at
the recorded position, which is there and is the key to be removed, and no other key is lost; if the key is not
tracked, nothing changes. Every position in the array may be drawn: the key that stands there goes, and no other
key is lost. So each tracked key can go, by exactly one of the draws, and no key but a tracked one goes. -/
theorem random_positions_of_run (calls : List Call)
    (hcalls : Call.AllowedAll .random ∅ ((random .empty).trace calls)) :
    let keys := Call.trackedAfterAll ∅ ((random .empty).trace calls)
    ∃ pool, (random .empty).applyAll calls = random pool ∧
      pool.keys.toList.Nodup ∧ (∀ k, k ∈ pool.keys.toList ↔ k ∈ keys) ∧
      (∀ (k : Key) (i : Nat), pool.positions[k]? = some i ↔ pool.keys[i]? = some k) ∧
      (∀ k ∈ keys, ∃ i rest, pool.positions[k]? = some i ∧ pool.takeAt? i = some (k, rest) ∧
        (random pool).removed k = random rest ∧ rest.keys.toList.Perm (pool.keys.toList.erase k)) ∧
      (∀ k ∉ keys, (random pool).removed k = random pool) ∧
      (∀ i < pool.keys.size, ∃ k rest, pool.takeAt? i = some (k, rest) ∧
        (random pool).victim? i = some (k, random rest) ∧ pool.keys.toList.Perm (k :: rest.keys.toList)) ∧
      (∀ k ∈ keys, ∃! i, i < pool.keys.size ∧ ((random pool).victim? i).map Prod.fst = some k) ∧
      ∀ draw, ((random pool).victim? draw = .none ↔ keys = ∅) ∧
        ∀ k rest, (random pool).victim? draw = some (k, rest) → k ∈ keys := by
  intro keys
  have htracks : ((random .empty).applyAll calls).Tracks keys :=
    (tracks_ofRule (fun _ _ => 0) 0 .random).applyAll nofun hcalls
  obtain ⟨pool, hpool⟩ := exists_random_of_rule (rule_applyAll (random .empty) calls)
  rw [hpool] at htracks
  have h : pool.WellFormed := htracks.wellFormed
  have hmem : ∀ k, k ∈ pool.keys.toList ↔ k ∈ keys := htracks.mem_iff
  refine ⟨pool, hpool, h.nodup_keys, hmem, h, ?_, ?_, ?_, ?_, fun draw => ⟨htracks.victim?_eq_none_iff, ?_⟩⟩
  · intro k hk
    exact exists_removed_random h ((hmem k).mpr hk)
  · intro k hk
    exact congrArg random (h.erase_of_not_mem (mt (hmem k).mp hk))
  · intro i hi
    exact exists_victim?_random h hi
  · intro k hk
    exact existsUnique_victim?_random h ((hmem k).mpr hk)
  · intro k rest hvictim
    exact (htracks.victim? hvictim).1

theorem random_positions_of_run_moved :
    let calls : List Call := [.inserted "a", .inserted "b", .inserted "c", .inserted "d", .removed "b",
      .removed "x", .victim 0, .removed "d", .inserted "a"]
    Call.AllowedAll .random ∅ ((random .empty).trace calls) ∧
      ∃ pool, (random .empty).applyAll calls = random pool ∧
        (∀ k, k ∈ pool.keys.toList ↔ k ∈ ({"a", "c"} : Finset Key)) ∧
        (random pool).removed "b" = random pool ∧
        ∃! i, i < pool.keys.size ∧ ((random pool).victim? i).map Prod.fst = some "c" := by
  intro calls
  have htrace : (random .empty).trace calls = calls.zip
      [.none, .none, .none, .none, .none, .none, some "a", .none, .none] := by
    cbv
  have hcalls : Call.AllowedAll .random ∅ ((random .empty).trace calls) := by
    rw [htrace]
    decide
  have hkeys : Call.trackedAfterAll ∅ ((random .empty).trace calls) = {"a", "c"} := by
    rw [htrace]
    decide
  obtain ⟨pool, hpool, -, hmem, -, -, habsent, -, honce, -⟩ := random_positions_of_run calls hcalls
  rw [hkeys] at hmem habsent honce
  exact ⟨hcalls, pool, hpool, hmem, habsent "b" (by decide), honce "c" (by decide)⟩

end CacheServer.Policy
