import CacheServer.Proofs.Store.Effect

/-!
Two stores to which the same requests are made. What both of them find is the same, whatever their rules
and capacities. A look-up by a secondary key may still use a key in one of them alone that both of them
have, but not if every key always comes with the same secondary keys.
-/

namespace CacheServer.Store

open Std

variable {s s' t t' : Store} {e : Effect} {i : Index} {x k : Key} {v w : String}

theorem isSome_get_fst : (s.get k).1.isSome ↔ k ∈ s.entries := by
  rw [get_fst, Option.isSome_map, ExtTreeMap.mem_iff_isSome_getElem?]

/-- The keys that both stores have carry the same values, and a secondary key leads to the same key in
both if it leads to one in both. -/
structure Agrees (s t : Store) : Prop where
  value : ∀ k ∈ s.entries, k ∈ t.entries → (s.get k).1 = (t.get k).1
  link : ∀ (i : Index) (x k k' : Key),
    (s.index i)[x]? = some k → (t.index i)[x]? = some k' → k = k'

theorem agrees_fresh (hash : RowHash) (rule : EvictionRule) (c c' : Nat) :
    (fresh hash rule c).Agrees (fresh hash rule c') where
  value k hk := by simp [fresh] at hk
  link i x k k' hlink := by cases i <;> simp [fresh, index] at hlink

/-- A key that is not written now was there before. -/
theorem HandsOn.mem_of_mem (h : s.HandsOn e t) (hk : k ∈ t.entries) (hvalue : e.value? k = none) :
    k ∈ s.entries := by
  rw [← isSome_get_fst] at hk ⊢
  rwa [h.value k (isSome_get_fst.mp hk), hvalue, Option.none_or] at hk

/-- What leads to a key afterwards is led there now, or else it led there before. -/
theorem HandsOn.or_eq_of_link (h : s.HandsOn e t) (ht : t.WellFormed)
    (hlink : (t.index i)[x]? = some k) : (e.target? i x).or (s.index i)[x]? = some k :=
  (h.link i x k (ht.linked i x k hlink)).mp hlink

theorem Agrees.handsOn (h : s.Agrees t) (hs : s.HandsOn e s') (ht : t.HandsOn e t')
    (hs' : s'.WellFormed) (ht' : t'.WellFormed) : s'.Agrees t' where
  value k hk hk' := by
    rw [hs.value k hk, ht.value k hk']
    cases hvalue : e.value? k with
    | some v => rfl
    | none => exact h.value k (hs.mem_of_mem hk hvalue) (ht.mem_of_mem hk' hvalue)
  link i x k k' hlink hlink' := by
    have hfrom := hs.or_eq_of_link hs' hlink
    have hfrom' := ht.or_eq_of_link ht' hlink'
    cases htarget : e.target? i x with
    | some target =>
      rw [htarget, Option.some_or] at hfrom hfrom'
      exact Option.some.inj (hfrom.symm.trans hfrom')
    | none =>
      rw [htarget, Option.none_or] at hfrom hfrom'
      exact h.link i x k k' hfrom hfrom'

theorem Agrees.serveAll (h : s.Agrees t) (hs : s.WellFormed) (ht : t.WellFormed)
    (requests : List Request) : (s.serveAll requests).Agrees (t.serveAll requests) := by
  induction requests generalizing s t with
  | nil => exact h
  | cons request requests ih =>
    have hnext := h.handsOn (hs.handsOn_serve request) (ht.handsOn_serve request) (hs.serve request)
      (ht.serve request)
    exact ih hnext (hs.serve request) (ht.serve request)

theorem Agrees.get_fst (h : s.Agrees t) (hv : (s.get k).1 = some v) (hw : (t.get k).1 = some w) :
    v = w := by
  have hk : k ∈ s.entries := isSome_get_fst.mp (by simp [hv])
  have hk' : k ∈ t.entries := isSome_get_fst.mp (by simp [hw])
  rw [h.value k hk hk', hw] at hv
  exact (Option.some.inj hv).symm

theorem exists_link_of_getBy_fst (hv : (s.getBy i x).1 = some v) :
    ∃ k, (s.index i)[x]? = some k ∧ (s.get k).1 = some v := by
  cases hx : (s.index i)[x]? with
  | none => simp [getBy, hx] at hv
  | some k => exact ⟨k, rfl, by rwa [getBy_eq_get hx] at hv⟩

theorem Agrees.getBy_fst (h : s.Agrees t) (hv : (s.getBy i x).1 = some v)
    (hw : (t.getBy i x).1 = some w) : v = w := by
  obtain ⟨k, hk, hv⟩ := exists_link_of_getBy_fst hv
  obtain ⟨k', hk', hw⟩ := exists_link_of_getBy_fst hw
  obtain rfl := h.link i x k k' hk hk'
  exact h.get_fst hv hw

/-- A look-up by a secondary key that leads, in the second store alone, to a key that both stores have.
It is a use of that key in the second store alone. -/
def parts (s t : Store) : Effect → Bool
  | .getBy i x => (t.index i)[x]?.any fun k => s.containsKey k && (s.index i)[x]? != some k
  | _ => false

/-- No request of a run parts the stores. -/
def neverParts (s t : Store) : List Request → Bool
  | [] => true
  | request :: requests =>
    !s.parts t (.ofRequest request) && (s.serve request).neverParts (t.serve request) requests

theorem parts_getBy_eq_false_iff :
    s.parts t (.getBy i x) = false ↔
      ∀ k, (t.index i)[x]? = some k → k ∈ s.entries → (s.index i)[x]? = some k := by
  cases hx : (t.index i)[x]? with
  | none => simp [parts, hx]
  | some k => simp [parts, hx, ← containsKey_iff]

/-- Each key has one secondary key for each index at most, and a secondary key that leads to a key in the
second store leads there in the first, if the key is there. -/
structure Aliased (aliases : Index → Key → Option Key) (s t : Store) : Prop where
  named : ∀ (i : Index) (x k : Key), (t.index i)[x]? = some k → aliases i k = some x
  shared : ∀ (i : Index) (x k : Key),
    (t.index i)[x]? = some k → k ∈ s.entries → (s.index i)[x]? = some k

variable {aliases : Index → Key → Option Key}

theorem aliased_fresh (aliases : Index → Key → Option Key) (hash : RowHash) (rule : EvictionRule)
    (c c' : Nat) : Aliased aliases (fresh hash rule c) (fresh hash rule c') where
  named i x k hlink := by cases i <;> simp [fresh, index] at hlink
  shared i x k hlink := by cases i <;> simp [fresh, index] at hlink

theorem Aliased.parts (h : Aliased aliases s t) (e : Effect) : s.parts t e = false := by
  cases e with
  | getBy i x => exact parts_getBy_eq_false_iff.mpr (h.shared i x)
  | _ => rfl

theorem Aliased.handsOn (h : Aliased aliases s t) (hs : s.HandsOn e s') (ht : t.HandsOn e t')
    (ht' : t'.WellFormed)
    (he : ∀ draw k v secondary, e = .put draw k v secondary → ∀ i, i.among secondary = aliases i k) :
    Aliased aliases s' t' := by
  refine ⟨fun i x k hlink => ?_, fun i x k hlink hk => ?_⟩
  · rcases Option.or_eq_some_iff.mp (ht.or_eq_of_link ht' hlink) with htarget | ⟨-, hbefore⟩
    · obtain ⟨draw, v, secondary, rfl, hamong⟩ := Effect.target?_eq_some_iff.mp htarget
      rw [← he draw k v secondary rfl i, hamong]
    · exact h.named i x k hbefore
  · rw [hs.link i x k hk, Option.or_eq_some_iff]
    refine (Option.or_eq_some_iff.mp (ht.or_eq_of_link ht' hlink)).imp_right ?_
    rintro ⟨htarget, hbefore⟩
    refine ⟨htarget, h.shared i x k hbefore (hs.mem_of_mem hk ?_)⟩
    -- A key that came now would have come with its secondary key.
    by_contra hvalue
    obtain ⟨v, hvalue⟩ := Option.ne_none_iff_exists'.mp hvalue
    obtain ⟨draw, secondary, rfl⟩ := Effect.value?_eq_some_iff.mp hvalue
    have hamong := (he draw k v secondary rfl i).trans (h.named i x k hbefore)
    rw [Effect.target?, if_pos hamong] at htarget
    cases htarget

/-- So nothing parts the stores. -/
theorem Aliased.neverParts (h : Aliased aliases s t) (hs : s.WellFormed) (ht : t.WellFormed)
    {requests : List Request}
    (hputs : ∀ request ∈ requests, ∀ draw k v secondary,
      Effect.ofRequest request = .put draw k v secondary → ∀ i, i.among secondary = aliases i k) :
    s.neverParts t requests = true := by
  induction requests generalizing s t with
  | nil => rfl
  | cons request requests ih =>
    obtain ⟨hput, hputs⟩ := List.forall_mem_cons.mp hputs
    have hnext := h.handsOn (hs.handsOn_serve request) (ht.handsOn_serve request) (ht.serve request)
      hput
    rw [Store.neverParts, h.parts, Bool.not_false, Bool.true_and]
    exact ih hnext (hs.serve request) (ht.serve request) hputs

end CacheServer.Store
