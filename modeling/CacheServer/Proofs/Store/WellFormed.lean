import CacheServer.Proofs.Eviction.Policy
import CacheServer.Proofs.OrderedMap
import CacheServer.Proofs.Store.Operation

/-!
What every run of a store keeps: the rule's bookkeeping lists the keys of the store, the capacity is
not exceeded, and the indexes lead to keys of the store only.
-/

namespace CacheServer.Store

open Std

variable {s : Store} {k : Key} {p : Policy}

/-- The bookkeeping and the indexes agree with the entries, and these fit the capacity. -/
structure WellFormed (s : Store) : Prop where
  policy : s.policy.WellFormed
  rule : s.policy.rule = s.rule
  residents : s.rule ≠ .none → s.policy.residents.Perm s.keys
  bounded : s.rule ≠ .none ↔ s.capacity.isSome
  capacity : ∀ c, s.capacity = some c → 1 ≤ c ∧ s.size ≤ c
  linked : ∀ (i : Index) (x k : Key), (s.index i)[x]? = some k → k ∈ s.entries

@[simp] theorem mem_keys : k ∈ s.keys ↔ k ∈ s.entries :=
  ExtTreeMap.mem_keys

@[simp] theorem containsKey_iff : s.containsKey k = true ↔ k ∈ s.entries :=
  ExtTreeMap.mem_iff_contains.symm

theorem nodup_keys (s : Store) : s.keys.Nodup :=
  ExtTreeMap.nodup_keys

theorem length_keys (s : Store) : s.keys.length = s.size :=
  ExtTreeMap.length_keys

theorem mem_entries_iff : k ∈ s.entries ↔ ∃ e, s.entries[k]? = some e := by
  rw [ExtTreeMap.mem_iff_isSome_getElem?, Option.isSome_iff_exists]

theorem isFull_iff : s.isFull = true ↔ ∃ c, s.capacity = some c ∧ c ≤ s.size := by
  simp [isFull, size, Option.any_eq_true]

/-- After a key is unlinked the indexes lead where they led before, but never to it. -/
theorem index_unlink_eq_some_iff {i : Index} {x target : Key} :
    ((s.unlink k).index i)[x]? = some target ↔
      (s.index i)[x]? = some target ∧ target ≠ k := by
  cases i <;> simp only [index, unlink, ExtTreeMap.getElem?_filter', Option.filter_eq_some_iff,
    bne_iff_ne]

theorem index_link_eq {index : KeyMap Key} {secondary : Option Key} {x : Key} :
    (link index secondary k)[x]? = if secondary = some x then some k else index[x]? := by
  cases secondary with
  | none => simp [link]
  | some y => simp [link, ExtTreeMap.getElem?_insert]

theorem WellFormed.residents_iff (h : s.WellFormed) (hrule : s.rule ≠ .none) :
    k ∈ s.policy.residents ↔ k ∈ s.entries :=
  (h.residents hrule).mem_iff.trans mem_keys

theorem WellFormed.not_mem_residents (h : s.WellFormed) (hk : k ∉ s.entries) :
    k ∉ s.policy.residents := by
  by_cases hrule : s.rule = .none
  · -- Without a rule nothing is kept.
    rw [← h.rule] at hrule
    cases hpolicy : s.policy with
    | none => exact List.not_mem_nil
    | _ => rw [hpolicy] at hrule; cases hrule
  · rwa [h.residents_iff hrule]

/-- A key that is not there has no index entries to be dropped. -/
theorem WellFormed.unlink_eq_self (h : s.WellFormed) (hk : k ∉ s.entries) : s.unlink k = s := by
  have hindex (i : Index) : ((s.index i).filter fun _ target => target != k) = s.index i := by
    rw [ExtTreeMap.filter_eq_self_iff]
    intro x hx
    rw [bne_iff_ne]
    rintro rfl
    exact hk (h.linked i x _ (ExtTreeMap.getElem?_eq_some_getElem hx))
  have hone := hindex .one
  have htwo := hindex .two
  simp only [index] at hone htwo
  rw [unlink, hone, htwo]

/-- A key goes, together with its index entries and its place in the bookkeeping. -/
theorem WellFormed.drop (h : s.WellFormed) (hp : p.WellFormed) (hrule : p.rule = s.policy.rule)
    (hresidents : p.residents.Perm (s.policy.residents.erase k)) :
    ({ s with entries := s.entries.erase k, policy := p }.unlink k).WellFormed where
  policy := hp
  rule := hrule.trans h.rule
  residents hbounded :=
    (hresidents.trans ((h.residents hbounded).erase k)).trans (keys_erase_perm s.entries k).symm
  bounded := h.bounded
  capacity c hc := ⟨(h.capacity c hc).1, Nat.le_trans ExtTreeMap.size_erase_le (h.capacity c hc).2⟩
  linked i x target htarget := by
    obtain ⟨htarget, hne⟩ := index_unlink_eq_some_iff.mp htarget
    exact mem_erase_iff.mpr ⟨hne, h.linked i x target htarget⟩

/-- The entry of a key that is there changes, which counts as a use of it. -/
theorem WellFormed.refresh (h : s.WellFormed) (hk : k ∈ s.entries) (e : Entry) :
    { s with entries := s.entries.insert k e, policy := s.policy.used k }.WellFormed := by
  have hkept : s.policy.rule = .lru ∨ s.policy.rule = .mru → k ∈ s.policy.residents := by
    rw [h.rule]
    intro hrule
    have hne : s.rule ≠ .none := by
      intro hnone
      simp [hnone] at hrule
    rwa [h.residents_iff hne]
  obtain ⟨hp, hresidents⟩ := h.policy.used hkept
  have hkeys : (s.entries.insert k e).keys = s.entries.keys :=
    keys_eq_of_mem_iff fun _ => mem_insert_of_mem hk e
  refine { h with policy := hp, rule := ?_, residents := ?_, capacity := ?_, linked := ?_ }
  · rw [Policy.rule_used, h.rule]
  · intro hrule
    rw [keys, hkeys]
    exact hresidents.trans (h.residents hrule)
  · intro c hc
    rw [size, ExtTreeMap.size_insert, if_pos (by simpa using hk)]
    exact h.capacity c hc
  · intro i x target htarget
    exact (mem_insert_of_mem hk e).mpr (h.linked i x target htarget)

/-- A new key comes into a store that has room for it. -/
theorem WellFormed.extend (h : s.WellFormed) (hk : k ∉ s.entries) (hroom : s.isFull = false)
    (e : Entry) :
    { s with entries := s.entries.insert k e, policy := s.policy.inserted k }.WellFormed := by
  obtain ⟨hp, hresidents⟩ := h.policy.inserted (h.not_mem_residents hk)
  refine { h with policy := hp, rule := ?_, residents := ?_, capacity := ?_, linked := ?_ }
  · rw [Policy.rule_inserted, h.rule]
  · intro hrule
    have hkept := hresidents (by rwa [h.rule])
    exact (hkept.trans ((h.residents hrule).cons k)).trans (keys_insert_perm hk e).symm
  · intro c hc
    have hlt : s.size < c := by
      by_contra hge
      have hfull : s.isFull = true := isFull_iff.mpr ⟨c, hc, by omega⟩
      rw [hroom] at hfull
      cases hfull
    have hsize := ExtTreeMap.size_insert_le (t := s.entries) (k := k) (v := e)
    simp only [size] at hlt ⊢
    exact ⟨(h.capacity c hc).1, by omega⟩
  · intro i x target htarget
    exact ExtTreeMap.mem_insert.mpr (.inr (h.linked i x target htarget))

/-- Secondary keys are led to a key that is there. -/
theorem WellFormed.link (h : s.WellFormed) (hk : k ∈ s.entries) (one two : Option Key) :
    { s with
      indexOne := Store.link s.indexOne one k
      indexTwo := Store.link s.indexTwo two k }.WellFormed := by
  have hindex (i : Index) (secondary : Option Key) (x target : Key)
      (htarget : (Store.link (s.index i) secondary k)[x]? = some target) : target ∈ s.entries := by
    rw [index_link_eq] at htarget
    split at htarget
    · cases htarget
      exact hk
    · exact h.linked i x target htarget
  refine { h with linked := ?_ }
  intro i
  cases i with
  | one => exact hindex .one one
  | two => exact hindex .two two

/-- A full store finds one of its keys to go. -/
theorem WellFormed.exists_victim (h : s.WellFormed) (hfull : s.isFull = true) (draw : Nat) :
    ∃ victim rest, s.policy.victim? draw = some (victim, rest) ∧ victim ∈ s.entries := by
  obtain ⟨c, hc, hle⟩ := isFull_iff.mp hfull
  have hrule : s.rule ≠ .none := h.bounded.mpr (by simp [hc])
  have hpos := (h.capacity c hc).1
  cases hvictim : s.policy.victim? draw with
  | none =>
    have hperm := h.residents hrule
    rw [h.policy.victim?_eq_none_iff.mp hvictim] at hperm
    have hlength := hperm.length_eq
    rw [length_keys, List.length_nil] at hlength
    omega
  | some found =>
    obtain ⟨victim, rest⟩ := found
    refine ⟨victim, rest, rfl, ?_⟩
    rw [← h.residents_iff hrule, (h.policy.victim? hvictim).2.mem_iff]
    exact List.mem_cons_self

theorem evict_eq {draw : Nat} {victim : Key} {rest : Policy}
    (hvictim : s.policy.victim? draw = some (victim, rest)) :
    s.evict draw = { s with entries := s.entries.erase victim, policy := rest }.unlink victim := by
  rw [evict, hvictim]

theorem WellFormed.evict (h : s.WellFormed) (draw : Nat) : (s.evict draw).WellFormed := by
  cases hvictim : s.policy.victim? draw with
  | none => rwa [Store.evict, hvictim]
  | some found =>
    obtain ⟨victim, rest⟩ := found
    obtain ⟨hrest, hperm⟩ := h.policy.victim? hvictim
    rw [evict_eq hvictim]
    refine h.drop hrest (Policy.rule_victim? hvictim) ?_
    have := (hperm.erase victim).symm
    rwa [List.erase_cons_head] at this

/-- Making room leaves room. -/
theorem WellFormed.isFull_evict (h : s.WellFormed) (hfull : s.isFull = true) (draw : Nat) :
    (s.evict draw).isFull = false := by
  obtain ⟨victim, rest, hvictim, hmem⟩ := h.exists_victim hfull draw
  obtain ⟨c, hc, hle⟩ := isFull_iff.mp hfull
  have hpos := h.capacity c hc
  have hsize : (s.entries.erase victim).size = s.entries.size - 1 := by
    rw [ExtTreeMap.size_erase, if_pos (by simpa using hmem)]
  rw [Bool.eq_false_iff, Ne, isFull_iff, evict_eq hvictim]
  rintro ⟨c', hc', hle'⟩
  obtain rfl : c = c' := Option.some.inj (hc.symm.trans hc')
  simp only [size, unlink] at hle hle' hpos
  omega

end CacheServer.Store
