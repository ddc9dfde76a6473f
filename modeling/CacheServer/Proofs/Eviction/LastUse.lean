import CacheServer.Proofs.Eviction.Policy

/-!
The keys of the rule LRU as a plain list, the key whose latest use is the earliest first. Of two stores
to which the same happens, the one with less room keeps its keys among those of the other.
-/

namespace CacheServer

namespace LastUse

/-- The keys after a put to a store of this capacity. The key comes last; the first key goes if the
store is full and the key is new. -/
def put (capacity : Nat) (k : Key) (ks : List Key) : List Key :=
  (if k ∈ ks then ks.erase k else if capacity ≤ ks.length then ks.tail else ks) ++ [k]

/-- The keys after a look-up of a key. -/
def use (k : Key) (ks : List Key) : List Key :=
  if k ∈ ks then ks.erase k ++ [k] else ks

/-- The keys of a store are keys of another in the same order, and the other has as much room left or
more. -/
structure Among (c c' : Nat) (ks ks' : List Key) : Prop where
  sublist : ks.Sublist ks'
  room : c + ks'.length ≤ c' + ks.length

variable {c c' : Nat} {ks ks' : List Key} {k : Key}

theorem length_erase_append (hk : k ∈ ks) : (ks.erase k ++ [k]).length = ks.length := by
  have hpos := List.length_pos_of_mem hk
  rw [List.length_append, List.length_erase_of_mem hk, List.length_singleton]
  omega

/-- A key that is not in a list is not missed when it goes from a list around it. -/
theorem sublist_erase (h : ks.Sublist ks') (hk : k ∉ ks) : ks.Sublist (ks'.erase k) := by
  have herase := h.erase k
  rwa [List.erase_of_not_mem hk] at herase

theorem length_le_length_put (c : Nat) (hk : k ∉ ks) : ks.length ≤ (put c k ks).length := by
  rw [put, if_neg hk, List.length_append, List.length_singleton]
  split
  · rw [List.length_tail]
    omega
  · omega

theorem Among.use (h : Among c c' ks ks') (k : Key) : Among c c' (use k ks) (use k ks') := by
  rw [LastUse.use, LastUse.use]
  by_cases hk : k ∈ ks
  · have hk' := h.sublist.subset hk
    rw [if_pos hk, if_pos hk']
    refine ⟨(h.sublist.erase k).append_right [k], ?_⟩
    rw [length_erase_append hk, length_erase_append hk']
    exact h.room
  · rw [if_neg hk]
    split
    case isFalse => exact h
    case isTrue hk' =>
      refine ⟨(sublist_erase h.sublist hk).trans (List.sublist_append_left _ _), ?_⟩
      rw [length_erase_append hk']
      exact h.room

/-- A key that is new to both stores. If the larger one is full, so is the smaller, and both lose their
first key. -/
theorem Among.put_of_not_mem (h : Among c c' ks ks') (hc' : 1 ≤ c') (hk : k ∉ ks) (hk' : k ∉ ks') :
    Among c c' (LastUse.put c k ks) (LastUse.put c' k ks') := by
  have hroom := h.room
  rw [LastUse.put, LastUse.put, if_neg hk, if_neg hk']
  by_cases hfull' : c' ≤ ks'.length
  · have hfull : c ≤ ks.length := by omega
    rw [if_pos hfull, if_pos hfull']
    refine ⟨h.sublist.tail.append_right [k], ?_⟩
    simp only [List.length_append, List.length_tail, List.length_singleton]
    omega
  · rw [if_neg hfull']
    split
    case isTrue hfull =>
      refine ⟨((List.tail_sublist ks).trans h.sublist).append_right [k], ?_⟩
      simp only [List.length_append, List.length_tail, List.length_singleton]
      omega
    case isFalse hfree =>
      refine ⟨h.sublist.append_right [k], ?_⟩
      simp only [List.length_append, List.length_singleton]
      omega

/-- A key that the larger store alone has, so that the smaller alone may have to make room for it. -/
theorem Among.put_of_mem_larger (h : Among c c' ks ks') (hk : k ∉ ks) (hk' : k ∈ ks') :
    Among c c' (LastUse.put c k ks) (LastUse.put c' k ks') := by
  have hroom := h.room
  have hlength := length_le_length_put c hk
  have hsub := sublist_erase h.sublist hk
  refine ⟨?_, ?_⟩
  · rw [LastUse.put, LastUse.put, if_neg hk, if_pos hk']
    refine List.Sublist.append_right ?_ [k]
    split
    · exact (List.tail_sublist ks).trans hsub
    · exact hsub
  · rw [LastUse.put, if_pos hk', length_erase_append hk']
    omega

theorem Among.put (h : Among c c' ks ks') (hc' : 1 ≤ c') (k : Key) :
    Among c c' (put c k ks) (put c' k ks') := by
  by_cases hk : k ∈ ks
  · have hk' := h.sublist.subset hk
    rw [LastUse.put, LastUse.put, if_pos hk, if_pos hk']
    refine ⟨(h.sublist.erase k).append_right [k], ?_⟩
    rw [length_erase_append hk, length_erase_append hk']
    exact h.room
  · by_cases hk' : k ∈ ks'
    · exact h.put_of_mem_larger hk hk'
    · exact h.put_of_not_mem hc' hk hk'

/-- The same keys go. The store with more keys loses as many or more of them. -/
theorem Among.filter (h : Among c c' ks ks') (stays : Key → Bool) :
    Among c c' (ks.filter stays) (ks'.filter stays) := by
  refine ⟨h.sublist.filter stays, ?_⟩
  have hroom := h.room
  have hgone := (h.sublist.filter (!stays ·)).length_le
  have hks : ks.length = _ := List.length_eq_length_filter_add stays
  have hks' : ks'.length = _ := List.length_eq_length_filter_add stays
  omega

end LastUse

namespace Policy

variable {p rest : Policy} {k : Key}

theorem WellFormed.residents_inserted_of_lru (hp : p.WellFormed) (hrule : p.rule = .lru) (k : Key) :
    (p.inserted k).residents = p.residents.erase k ++ [k] := by
  cases p with
  | lru r => exact Recency.WellFormed.toList_touch hp k
  | _ => cases hrule

theorem WellFormed.residents_used_of_lru (hp : p.WellFormed) (hrule : p.rule = .lru) (k : Key) :
    (p.used k).residents = p.residents.erase k ++ [k] := by
  cases p with
  | lru r => exact Recency.WellFormed.toList_touch hp k
  | _ => cases hrule

theorem WellFormed.residents_removed_of_lru (hp : p.WellFormed) (hrule : p.rule = .lru) (k : Key) :
    (p.removed k).residents = p.residents.filter (· != k) := by
  rw [← hp.nodup_residents.erase_eq_filter]
  cases p with
  | lru r => exact Recency.WellFormed.toList_erase hp k
  | _ => cases hrule

theorem WellFormed.residents_victim?_of_lru (hp : p.WellFormed) (hrule : p.rule = .lru) {draw : Nat}
    (hvictim : p.victim? draw = some (k, rest)) : rest.residents = p.residents.tail := by
  cases p with
  | lru r =>
    obtain ⟨keys, htake, rfl⟩ := exists_taken hvictim
    change keys.toList = r.toList.tail
    rw [(Recency.WellFormed.takeOldest? hp htake).2, List.tail_cons]
  | _ => cases hrule

end Policy

end CacheServer
