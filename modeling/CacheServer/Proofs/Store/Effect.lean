import CacheServer.Proofs.Eviction.LastUse
import CacheServer.Proofs.Store.Recall

/-!
What a request does, said without the store it is made to: it is a put, a look-up, or the end of all keys
of some kind. Afterwards a store holds what it held before and what has been written, as far as it belongs
to keys that are there.
-/

namespace CacheServer

/-- What is to be done to a store. -/
inductive Effect where
  | put (draw : Nat) (key : Key) (value : String) (secondary : List (Option Key))
  | get (key : Key)
  | getBy (index : Index) (secondary : Key)
  /-- All keys go that the test picks out. -/
  | drop (goes : Key → Bool)

namespace Effect

/-- No key goes. -/
def nothing : Effect := .drop fun _ => false

def ofOperation : Operation → Effect
  | .put draw k v secondary =>
    if secondary.length ≤ maxSecondaryIndexes then .put draw k v secondary else nothing
  | .get k => .get k
  | .getBy i x => .getBy i x
  | .remove k => .drop (· == k)
  | .clear => .drop fun _ => true

def ofCommand (draw : Nat) : Command → Effect
  | .ping => nothing
  | .get k => .get k
  | .getBy i x => .getBy i x
  | .set k v one two => .put draw k v [one, two]
  | .del k => .drop (· == k)
  | .purge stem => .drop (beginsWith stem)
  | .reset => .drop fun _ => true

def ofRequest : Request → Effect
  | .operation op => ofOperation op
  | .line draw text =>
    match Command.ofLine text with
    | .ok command => ofCommand draw command
    | .error _ => nothing

/-- The value that is written for a key. -/
def value? (k : Key) : Effect → Option String
  | .put _ k' v _ => if k' = k then some v else none
  | _ => none

/-- The key to which a secondary key is led. -/
def target? (i : Index) (x : Key) : Effect → Option Key
  | .put _ k _ secondary => if i.among secondary = some x then some k else none
  | _ => none

variable {e : Effect} {i : Index} {x k : Key} {v : String}

theorem value?_eq_some_iff :
    e.value? k = some v ↔ ∃ draw secondary, e = .put draw k v secondary := by
  cases e with
  | put draw k' v' secondary => by_cases hk : k' = k <;> simp [value?, hk]
  | _ => simp [value?]

theorem target?_eq_some_iff :
    e.target? i x = some k ↔
      ∃ draw v secondary, e = .put draw k v secondary ∧ i.among secondary = some x := by
  cases e with
  | put draw k' v secondary => simp [target?, and_comm]
  | _ => simp [target?]

end Effect

namespace Store

open Std

variable {s t u : Store} {e : Effect} {goes goes' : Key → Bool} {k : Key} {draw : Nat} {v : String}
  {secondary : List (Option Key)}

/-- The second store is the first without the keys that go and without what leads to them. By the rule
LRU the keys that stay keep their order. -/
structure Loses (s : Store) (goes : Key → Bool) (t : Store) : Prop where
  entry : ∀ k : Key, t.entries[k]? = if goes k then none else s.entries[k]?
  link : ∀ (i : Index) (x k : Key),
    (t.index i)[x]? = some k ↔ goes k = false ∧ (s.index i)[x]? = some k
  order : s.rule = .lru → t.policy.residents = s.policy.residents.filter (!goes ·)
  bound : t.bound = s.bound

theorem loses_nothing (s : Store) : s.Loses (fun _ => false) s where
  entry k := by simp
  link i x k := by simp
  order _ := by simp
  bound := rfl

theorem loses_clear (s : Store) : s.Loses (fun _ => true) s.clear where
  entry k := by simp [clear]
  link i x k := by cases i <;> simp [clear, index]
  order _ := by simp [clear]
  bound := rfl

theorem Loses.trans (h : s.Loses goes t) (h' : t.Loses goes' u) :
    s.Loses (fun k => goes k || goes' k) u where
  entry k := by
    rw [h'.entry, h.entry]
    cases goes k <;> simp
  link i x k := by
    rw [h'.link, h.link]
    cases goes k <;> simp
  order hlru := by
    have hlru' : t.rule = .lru := (congrArg Prod.fst h.bound).trans hlru
    rw [h'.order hlru', h.order hlru, List.filter_filter]
    simp [Bool.and_comm]
  bound := h'.bound.trans h.bound

/-- Only the keys that are there matter. -/
theorem WellFormed.loses_congr (hs : s.WellFormed) (h : s.Loses goes t)
    (hgoes : ∀ k ∈ s.entries, goes k = goes' k) : s.Loses goes' t where
  entry k := by
    rw [h.entry]
    by_cases hk : k ∈ s.entries
    · rw [hgoes k hk]
    · simp [ExtTreeMap.getElem?_eq_none hk]
  link i x k := by
    rw [h.link]
    refine and_congr_left fun hlink => ?_
    rw [hgoes k (hs.linked i x k hlink)]
  order hlru := by
    rw [h.order hlru]
    refine List.filter_congr fun k hk => ?_
    have hmem : k ∈ s.entries := by
      by_contra hnot
      exact hs.not_mem_residents hnot hk
    rw [hgoes k hmem]
  bound := h.bound

theorem WellFormed.loses_remove (hs : s.WellFormed) (k : Key) :
    s.Loses (· == k) (s.remove k).2 := by
  have hdrops := hs.drops_remove k
  refine ⟨fun k' => ?_, fun i x target => ?_, fun hlru => ?_, bound_apply s (.remove k)⟩
  · by_cases hk : k' = k
    · subst k'
      simp [ExtTreeMap.getElem?_eq_none hdrops.not_mem]
    · simp [hdrops.entry k' hk, hk]
  · by_cases hk : target = k
    · subst target
      simp [hdrops.not_linked i x]
    · simp [hdrops.link i x target hk, hk]
  · by_cases hk : k ∈ s.entries
    · obtain ⟨e, he⟩ := mem_entries_iff.mp hk
      rw [Store.remove, he]
      exact hs.policy.residents_removed_of_lru (hs.rule.trans hlru) k
    · rw [hs.remove_of_not_mem hk, eq_comm, List.filter_eq_self]
      intro k' hk'
      have hne : k' ≠ k := fun heq => hs.not_mem_residents hk (heq ▸ hk')
      simpa using hne

theorem WellFormed.loses_removeAll (hs : s.WellFormed) (ks : List Key) :
    s.Loses (ks.contains ·) (s.removeAll ks) := by
  induction ks generalizing s with
  | nil => exact loses_nothing s
  | cons k ks ih =>
    have hboth := (hs.loses_remove k).trans (ih (hs.remove k))
    simpa only [List.contains_cons, removeAll, List.foldl_cons] using hboth

/-- The keys that a purge is to remove may come in any order. -/
theorem WellFormed.loses_purge (hs : s.WellFormed) {stem : Key} {ks : List Key}
    (hks : ks.Perm (s.keys.filter (beginsWith stem))) : s.Loses (beginsWith stem) (s.removeAll ks) := by
  refine hs.loses_congr (hs.loses_removeAll ks) fun k hk => ?_
  rw [Bool.eq_iff_iff, List.contains_iff_mem, hks.mem_iff, List.mem_filter, mem_keys]
  simp [hk]

/-- What an effect makes of a store. -/
def Does (s : Store) : Effect → Store → Prop
  | .put draw k v secondary, t => s.put draw k v secondary = .ok t
  | .get k, t => t = (s.get k).2
  | .getBy i x, t => t = (s.getBy i x).2
  | .drop goes, t => s.Loses goes t

theorem WellFormed.does_apply (hs : s.WellFormed) (op : Operation) :
    s.Does (.ofOperation op) (s.apply op) := by
  cases op with
  | put draw k v secondary =>
    rw [Effect.ofOperation, Store.apply]
    by_cases hsecondary : secondary.length ≤ maxSecondaryIndexes
    · rw [if_pos hsecondary, put_eq_ok hsecondary]
      exact put_eq_ok hsecondary
    · rw [if_neg hsecondary, Store.put, if_pos (by omega)]
      exact loses_nothing s
  | get k => rfl
  | getBy i x => rfl
  | remove k => exact hs.loses_remove k
  | clear => exact loses_clear s

theorem WellFormed.does_run (hs : s.WellFormed) (draw : Nat) (command : Command) :
    s.Does (.ofCommand draw command) (s.run draw command).2 := by
  cases command with
  | ping => exact loses_nothing s
  | get k => rfl
  | getBy i x => rfl
  | set k v one two =>
    have hput : s.put draw k v [one, two] = .ok _ := put_eq_ok (Nat.le_refl 2)
    rw [Effect.ofCommand, Store.run, hput]
    exact hput
  | del k => exact hs.loses_remove k
  | purge stem => exact hs.loses_purge (.refl _)
  | reset => exact loses_clear s

/-- Every request does what its effect says. -/
theorem WellFormed.does_serve (hs : s.WellFormed) (request : Request) :
    s.Does (.ofRequest request) (s.serve request) := by
  cases request with
  | operation op => exact hs.does_apply op
  | line draw text =>
    rw [Effect.ofRequest, Store.serve, Store.execute]
    cases Command.ofLine text with
    | ok command => exact hs.does_run draw command
    | error e => exact loses_nothing s

/-- Of the keys that are there afterwards, each has the value that is written, or else the one it had,
and a secondary key leads to it if it is led there, or else if it led there before. -/
structure HandsOn (s : Store) (e : Effect) (t : Store) : Prop where
  value : ∀ k ∈ t.entries, (t.get k).1 = (e.value? k).or (s.get k).1
  link : ∀ (i : Index) (x : Key), ∀ k ∈ t.entries,
    ((t.index i)[x]? = some k ↔ (e.target? i x).or (s.index i)[x]? = some k)

theorem handsOn_get (s : Store) (k : Key) : s.HandsOn (.get k) (s.get k).2 where
  value k' _ := by simp [get_fst, value_get, Effect.value?]
  link i x k' _ := by simp [index_get, Effect.target?]

theorem handsOn_getBy (s : Store) (i : Index) (x : Key) :
    s.HandsOn (.getBy i x) (s.getBy i x).2 := by
  cases hx : (s.index i)[x]? with
  | none =>
    rw [Store.getBy, hx]
    exact ⟨fun _ _ => rfl, fun _ _ _ _ => .rfl⟩
  | some k =>
    rw [getBy_eq_get hx]
    exact ⟨(handsOn_get s k).value, (handsOn_get s k).link⟩

theorem Loses.handsOn (h : s.Loses goes t) : s.HandsOn (.drop goes) t := by
  have hstays {k : Key} (hk : k ∈ t.entries) : goes k = false := by
    obtain ⟨e, he⟩ := mem_entries_iff.mp hk
    rw [h.entry, Option.ite_none_left_eq_some] at he
    simpa using he.1
  refine ⟨fun k hk => ?_, fun i x k hk => ?_⟩
  · simp [get_fst, h.entry, hstays hk, Effect.value?]
  · simp [h.link, hstays hk, Effect.target?]

theorem handsOn_put_of_room (hput : s.put draw k v secondary = .ok t)
    (hroom : k ∈ s.entries ∨ s.isFull = false) : s.HandsOn (.put draw k v secondary) t where
  value k' _ := by
    rw [get_fst, get_fst, value_put hput hroom, Effect.value?]
    split <;> simp
  link i x k' _ := by
    rw [getElem?_index_put hput hroom, Effect.target?]
    split <;> simp

theorem WellFormed.handsOn_put (hs : s.WellFormed) (hput : s.put draw k v secondary = .ok t) :
    s.HandsOn (.put draw k v secondary) t := by
  by_cases hroom : k ∈ s.entries ∨ s.isFull = false
  · exact handsOn_put_of_room hput hroom
  · obtain ⟨hk, hfull⟩ : k ∉ s.entries ∧ s.isFull = true := by simpa using hroom
    obtain ⟨victim, hvictim, hdrops⟩ := hs.exists_drops_evict hfull draw
    have hfree := hs.isFull_evict hfull draw
    rw [hs.put_of_isFull hk hfull] at hput
    have hhands := handsOn_put_of_room hput (.inr hfree)
    -- The victim alone differs from what was there before, and it is gone.
    have hstays : ∀ k' ∈ t.entries, k' ≠ victim := by
      rintro k' hk' rfl
      rw [← mem_keys, (keys_put_of_not_mem hput (not_mem_evict hk) hfree).mem_iff, List.mem_cons,
        mem_keys] at hk'
      rcases hk' with rfl | hk'
      · exact hk hvictim
      · exact hdrops.not_mem hk'
    refine ⟨fun k' hk' => ?_, fun i x k' hk' => ?_⟩
    · rw [hhands.value k' hk', get_fst, get_fst, hdrops.entry k' (hstays k' hk')]
    · rw [hhands.link i x k' hk']
      cases Effect.target? i x (.put draw k v secondary) with
      | none => exact hdrops.link i x k' (hstays k' hk')
      | some target => rfl

/-- Whatever is done to a store, it hands on its contents. -/
theorem WellFormed.handsOn (hs : s.WellFormed) (hdoes : s.Does e t) : s.HandsOn e t := by
  cases e with
  | put draw k v secondary => exact hs.handsOn_put hdoes
  | get k =>
    obtain rfl : t = _ := hdoes
    exact handsOn_get s k
  | getBy i x =>
    obtain rfl : t = _ := hdoes
    exact handsOn_getBy s i x
  | drop goes => exact Loses.handsOn hdoes

theorem WellFormed.handsOn_serve (hs : s.WellFormed) (request : Request) :
    s.HandsOn (.ofRequest request) (s.serve request) :=
  hs.handsOn (hs.does_serve request)

end Store

end CacheServer
