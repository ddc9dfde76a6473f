import CacheServer.Eviction.SipHash
import CacheServer.Proofs.Store.Comparison
import Mathlib.Data.List.Permutation

/-!
Stores of the rule LRU. Of two of them to which the same requests are made, the larger one keeps all that
the smaller one keeps, until a request parts them.
-/

namespace CacheServer.Store

open Std

variable {s s' t t' : Store} {c c' : Nat} {e : Effect} {k : Key} {draw : Nat} {v : String}
  {secondary : List (Option Key)}

/-- A well-formed store of the rule LRU and of this capacity. -/
structure Lru (c : Nat) (s : Store) : Prop where
  wellFormed : s.WellFormed
  bound : s.bound = (.lru, some c)

theorem lru_fresh (hash : RowHash) (hc : 1 ≤ c) : (fresh hash .lru c).Lru c :=
  ⟨wellFormed_fresh hash (.inr hc), rfl⟩

theorem Lru.serve (h : s.Lru c) (request : Request) : (s.serve request).Lru c := by
  refine ⟨h.wellFormed.serve request, ?_⟩
  obtain ⟨ops, hops⟩ := exists_operations_of_serve s request
  rw [hops, bound_applyAll, h.bound]

theorem Lru.serveAll (h : s.Lru c) (requests : List Request) : (s.serveAll requests).Lru c := by
  induction requests generalizing s with
  | nil => exact h
  | cons request requests ih => exact ih (h.serve request)

theorem Lru.rule (h : s.Lru c) : s.rule = .lru :=
  congrArg Prod.fst h.bound

theorem Lru.rule_policy (h : s.Lru c) : s.policy.rule = .lru :=
  h.wellFormed.rule.trans h.rule

theorem Lru.mem_residents (h : s.Lru c) : k ∈ s.policy.residents ↔ k ∈ s.entries :=
  h.wellFormed.residents_iff (by rw [h.rule]; nofun)

theorem Lru.isFull_iff (h : s.Lru c) : s.isFull = true ↔ c ≤ s.policy.residents.length := by
  have hcapacity : s.capacity = some c := congrArg Prod.snd h.bound
  have hperm := h.wellFormed.residents (by rw [h.rule]; nofun)
  rw [Store.isFull_iff, hperm.length_eq, length_keys]
  simp [hcapacity]

theorem Lru.residents_get (h : s.Lru c) (k : Key) :
    (s.get k).2.policy.residents = LastUse.use k s.policy.residents := by
  by_cases hk : k ∈ s.entries
  · obtain ⟨e, he⟩ := mem_entries_iff.mp hk
    rw [Store.get, he, LastUse.use, if_pos (h.mem_residents.mpr hk)]
    exact h.wellFormed.policy.residents_used_of_lru h.rule_policy k
  · rw [Store.get, ExtTreeMap.getElem?_eq_none hk, LastUse.use, if_neg (mt h.mem_residents.mp hk)]

theorem Lru.evict (h : s.Lru c) (draw : Nat) : (s.evict draw).Lru c :=
  ⟨h.wellFormed.evict draw, (bound_evict s draw).trans h.bound⟩

theorem Lru.residents_evict (h : s.Lru c) (hfull : s.isFull = true) (draw : Nat) :
    (s.evict draw).policy.residents = s.policy.residents.tail := by
  obtain ⟨victim, rest, hvictim, -⟩ := h.wellFormed.exists_victim hfull draw
  rw [evict_eq hvictim]
  exact h.wellFormed.policy.residents_victim?_of_lru h.rule_policy hvictim

theorem Lru.residents_write_of_room (h : s.Lru c) (hk : k ∉ s.entries) (hroom : s.isFull = false)
    (draw : Nat) (v : String) :
    (s.write draw k v).policy.residents = s.policy.residents ++ [k] := by
  rw [write_of_not_mem hk hroom]
  change (s.policy.inserted k).residents = _
  rw [h.wellFormed.policy.residents_inserted_of_lru h.rule_policy,
    List.erase_of_not_mem (mt h.mem_residents.mp hk)]

theorem Lru.residents_put (h : s.Lru c) (hput : s.put draw k v secondary = .ok t) :
    t.policy.residents = LastUse.put c k s.policy.residents := by
  obtain ⟨-, rfl⟩ := put_eq_ok_iff.mp hput
  change (s.write draw k v).policy.residents = _
  by_cases hk : k ∈ s.entries
  · obtain ⟨e, he⟩ := mem_entries_iff.mp hk
    rw [write_of_getElem? he, LastUse.put, if_pos (h.mem_residents.mpr hk)]
    exact h.wellFormed.policy.residents_used_of_lru h.rule_policy k
  · rw [LastUse.put, if_neg (mt h.mem_residents.mp hk)]
    cases hfull : s.isFull with
    | false => rw [h.residents_write_of_room hk hfull, if_neg (by simp [← h.isFull_iff, hfull])]
    | true =>
      have hfree := h.wellFormed.isFull_evict hfull draw
      rw [h.wellFormed.write_of_isFull hk hfull,
        (h.evict draw).residents_write_of_room (not_mem_evict hk) hfree, h.residents_evict hfull,
        if_pos (h.isFull_iff.mp hfull)]

/-- The second store has the keys of the first in the same order of use and as much room left or more,
and all that leads to a key in the first store leads there in the second. -/
structure Within (c c' : Nat) (s t : Store) : Prop where
  order : LastUse.Among c c' s.policy.residents t.policy.residents
  link : ∀ (i : Index) (x k : Key), (s.index i)[x]? = some k → (t.index i)[x]? = some k

theorem Within.mem_of_mem (h : Within c c' s t) (hs : s.Lru c) (ht : t.Lru c') (hk : k ∈ s.entries) :
    k ∈ t.entries :=
  ht.mem_residents.mp (h.order.sublist.subset (hs.mem_residents.mpr hk))

theorem Within.order_of_does (h : Within c c' s t) (hs : s.Lru c) (ht : t.Lru c') (hc' : 1 ≤ c')
    (hparts : s.parts t e = false) (hdoes : s.Does e s') (hdoes' : t.Does e t') :
    LastUse.Among c c' s'.policy.residents t'.policy.residents := by
  cases e with
  | put draw k v secondary =>
    rw [hs.residents_put hdoes, ht.residents_put hdoes']
    exact h.order.put hc' k
  | get k =>
    obtain ⟨rfl, rfl⟩ : s' = _ ∧ t' = _ := ⟨hdoes, hdoes'⟩
    rw [hs.residents_get, ht.residents_get]
    exact h.order.use k
  | getBy i x =>
    obtain ⟨rfl, rfl⟩ : s' = _ ∧ t' = _ := ⟨hdoes, hdoes'⟩
    cases hx : (s.index i)[x]? with
    | some k =>
      rw [getBy_eq_get hx, getBy_eq_get (h.link i x k hx), hs.residents_get, ht.residents_get]
      exact h.order.use k
    | none =>
      rw [Store.getBy, hx]
      cases hx' : (t.index i)[x]? with
      | none =>
        rw [Store.getBy, hx']
        exact h.order
      | some k =>
        -- The smaller store does not have the key, so the same use leaves it as it is.
        have hk : k ∉ s.policy.residents := by
          rw [hs.mem_residents]
          intro hmem
          have hlink := parts_getBy_eq_false_iff.mp hparts k hx' hmem
          rw [hx] at hlink
          cases hlink
        have huse := h.order.use k
        rw [getBy_eq_get hx', ht.residents_get]
        rwa [LastUse.use, if_neg hk] at huse
  | drop goes =>
    rw [Loses.order hdoes hs.rule, Loses.order hdoes' ht.rule]
    exact h.order.filter _

theorem Within.serve (h : Within c c' s t) (hs : s.Lru c) (ht : t.Lru c') (hc' : 1 ≤ c')
    {request : Request} (hparts : s.parts t (.ofRequest request) = false) :
    Within c c' (s.serve request) (t.serve request) := by
  have hs' := hs.serve request
  have ht' := ht.serve request
  have horder := h.order_of_does hs ht hc' hparts (hs.wellFormed.does_serve request)
    (ht.wellFormed.does_serve request)
  refine ⟨horder, fun i x k hlink => ?_⟩
  have hk : k ∈ (s.serve request).entries := hs'.wellFormed.linked i x k hlink
  have hk' : k ∈ (t.serve request).entries :=
    ht'.mem_residents.mp (horder.sublist.subset (hs'.mem_residents.mpr hk))
  have hfrom := (hs.wellFormed.handsOn_serve request).or_eq_of_link hs'.wellFormed hlink
  rw [(ht.wellFormed.handsOn_serve request).link i x k hk', Option.or_eq_some_iff]
  exact (Option.or_eq_some_iff.mp hfrom).imp_right (And.imp_right (h.link i x k))

theorem Within.serveAll (h : Within c c' s t) (hs : s.Lru c) (ht : t.Lru c') (hc' : 1 ≤ c')
    {requests : List Request} (hparts : s.neverParts t requests = true) :
    Within c c' (s.serveAll requests) (t.serveAll requests) := by
  induction requests generalizing s t with
  | nil => exact h
  | cons request requests ih =>
    rw [neverParts, Bool.and_eq_true, Bool.not_eq_true'] at hparts
    exact ih (h.serve hs ht hc' hparts.1) (hs.serve request) (ht.serve request) hparts.2

theorem within_fresh (hash : RowHash) (hle : c ≤ c') :
    Within c c' (fresh hash .lru c) (fresh hash .lru c') where
  order := ⟨.slnil, hle⟩
  link i x k hlink := by cases i <;> simp [fresh, index] at hlink

/-- The same requests are made to two new stores of the rule LRU, of which the second is as large as the
first or larger. What both of them find is always the same. As long as no look-up by a secondary key has
used, in the larger store alone, a key that both of them have, the keys of the smaller store are keys of
the larger one with the same values, and every look-up that finds a value in the smaller store finds it
in the larger one. There is no such look-up if every put of a key supplies the same secondary keys. -/
theorem larger_finds_what_smaller_finds (hash : RowHash) {c c' : Nat} (hc : 1 ≤ c) (hle : c ≤ c')
    (requests : List Request) :
    ∃ s₀ t₀, create hash .lru c = .ok s₀ ∧ create hash .lru c' = .ok t₀ ∧
      let s := s₀.serveAll requests
      let t := t₀.serveAll requests
      (∀ k v w, (s.get k).1 = some v → (t.get k).1 = some w → v = w) ∧
      (∀ i x v w, (s.getBy i x).1 = some v → (t.getBy i x).1 = some w → v = w) ∧
      (s₀.neverParts t₀ requests = true →
        (∀ k ∈ s.keys, k ∈ t.keys) ∧
        (∀ k v, (s.get k).1 = some v → (t.get k).1 = some v) ∧
        ∀ i x v, (s.getBy i x).1 = some v → (t.getBy i x).1 = some v) ∧
      ∀ aliases : Index → Key → Option Key,
        (∀ request ∈ requests, ∀ draw k v secondary,
          Effect.ofRequest request = .put draw k v secondary → ∀ i, i.among secondary = aliases i k) →
        s₀.neverParts t₀ requests = true := by
  have hc' : 1 ≤ c' := Nat.le_trans hc hle
  refine ⟨_, _, create_eq_ok_iff.mpr ⟨.inr hc, rfl⟩, create_eq_ok_iff.mpr ⟨.inr hc', rfl⟩, ?_⟩
  intro s t
  have hs₀ := lru_fresh hash hc
  have ht₀ := lru_fresh hash hc'
  have hagrees : s.Agrees t :=
    (agrees_fresh hash .lru c c').serveAll hs₀.wellFormed ht₀.wellFormed requests
  refine ⟨fun k v w => hagrees.get_fst, fun i x v w => hagrees.getBy_fst, fun hparts => ?_, ?_⟩
  · have hwithin : Within c c' s t := (within_fresh hash hle).serveAll hs₀ ht₀ hc' hparts
    have hkeys : ∀ k ∈ s.entries, k ∈ t.entries := fun k =>
      hwithin.mem_of_mem (hs₀.serveAll requests) (ht₀.serveAll requests)
    have hget (k : Key) (v : String) (hv : (s.get k).1 = some v) : (t.get k).1 = some v := by
      have hk : k ∈ s.entries := isSome_get_fst.mp (by simp [hv])
      rw [← hagrees.value k hk (hkeys k hk), hv]
    refine ⟨by simpa using hkeys, hget, fun i x v hv => ?_⟩
    obtain ⟨k, hlink, hv⟩ := exists_link_of_getBy_fst hv
    rw [getBy_eq_get (hwithin.link i x k hlink)]
    exact hget k v hv
  · intro aliases hputs
    exact (aliased_fresh aliases hash .lru c c').neverParts hs₀.wellFormed ht₀.wellFormed hputs

theorem larger_finds_what_smaller_finds_purge :
    1 ≤ 1 ∧ 1 ≤ 2 ∧
      ∃ s₀ t₀, create SipHash.rowHash .lru 1 = .ok s₀ ∧ create SipHash.rowHash .lru 2 = .ok t₀ ∧
        let requests : List Request :=
          [.line 0 "SET a 1 IDX1 x", .operation (.put 0 "b" "2" [some "y"]), .line 0 "GETIDX1 x",
            .operation (.getBy .one "y"), .line 0 "PURGE a"]
        let s := s₀.serveAll requests
        let t := t₀.serveAll requests
        s₀.neverParts t₀ requests = true ∧
          (∀ k ∈ s.keys, k ∈ t.keys) ∧
          (∀ k v, (s.get k).1 = some v → (t.get k).1 = some v) ∧
          ∀ i x v, (s.getBy i x).1 = some v → (t.getBy i x).1 = some v := by
  have hc : 1 ≤ 1 := by decide
  have hle : 1 ≤ 2 := by decide
  obtain ⟨s₀, t₀, hsmall, hlarge, -, -, hfinds, haliases⟩ :=
    larger_finds_what_smaller_finds SipHash.rowHash hc hle
      [.line 0 "SET a 1 IDX1 x", .operation (.put 0 "b" "2" [some "y"]), .line 0 "GETIDX1 x",
        .operation (.getBy .one "y"), .line 0 "PURGE a"]
  refine ⟨hc, hle, s₀, t₀, hsmall, hlarge, ?_⟩
  intro requests
  have heffects : requests.map Effect.ofRequest =
      [.put 0 "a" "1" [some "x", none], .put 0 "b" "2" [some "y"], .getBy .one "x", .getBy .one "y",
        .drop (beginsWith "a")] := rfl
  have hparts : s₀.neverParts t₀ requests = true := by
    refine haliases (fun i k => if i = .two then none else if k = "a" then some "x" else some "y") ?_
    intro request hmem draw k v secondary heffect i
    have hput := List.mem_map_of_mem (f := Effect.ofRequest) hmem
    rw [heffect, heffects] at hput
    obtain ⟨-, rfl, -, rfl⟩ | ⟨-, rfl, -, rfl⟩ := by simpa using hput
    · cases i <;> rfl
    · cases i <;> rfl
  exact ⟨hparts, hfinds hparts⟩

/-- A larger store may lose what a smaller one keeps. In the smaller store the key has come back without
its secondary key, so that the look-up by the secondary key uses it in the larger store alone, and
another key becomes the next to go there. -/
theorem larger_loses_what_smaller_keeps :
    ∃ s₀ t₀, create SipHash.rowHash .lru 2 = .ok s₀ ∧ create SipHash.rowHash .lru 3 = .ok t₀ ∧
      let requests : List Request :=
        [.operation (.put 0 "k" "1" [some "x"]), .operation (.put 0 "a" "2" []),
          .operation (.put 0 "b" "3" []), .operation (.put 0 "k" "4" []), .operation (.get "b"),
          .operation (.getBy .one "x"), .operation (.get "a"), .operation (.put 0 "n" "5" [])]
      let s := s₀.serveAll requests
      let t := t₀.serveAll requests
      "b" ∈ s.keys ∧ "b" ∉ t.keys ∧ (s.get "b").1 = some "3" ∧ (t.get "b").1 = none := by
  refine ⟨fresh SipHash.rowHash .lru 2, fresh SipHash.rowHash .lru 3, rfl, rfl, ?_⟩
  intro requests s t
  have hget : (s.get "b").1 = some "3" := by cbv
  have hget' : (t.get "b").1 = none := by cbv
  refine ⟨?_, ?_, hget, hget'⟩
  · rw [mem_keys, ← isSome_get_fst, hget]
    rfl
  · rw [mem_keys, ← isSome_get_fst, hget']
    simp

end CacheServer.Store
