import CacheServer.Proofs.Eviction.Removal
import CacheServer.Proofs.Store.CrossReference

/-!
What a client sees of a store as it makes requests: the answers, the keys that go, and what the store holds
afterwards. A purge may go through the keys in any order. By every rule but the random one that order makes no
difference to what is left.
-/

namespace CacheServer

/-- An order in which keys are gone through. -/
structure Enumeration where
  order : List Key → List Key
  perm : ∀ ks, (order ks).Perm ks

/-- The keys in the order in which a map lists them. -/
def Enumeration.listed : Enumeration :=
  ⟨id, fun _ => .refl _⟩

/-- What is answered to a request: to a put its error, if it fails, to a look-up or a removal the value, if
there is one, and to a line a reply. -/
inductive Answer where
  | put (error : Option StoreError)
  | found (value : Option String)
  | cleared
  | reply (reply : Reply)
deriving DecidableEq, Repr

/-- What is seen of a request: its answer, the keys that go with it, and all values, hits and index entries that
there are afterwards. -/
structure Observation where
  answer : Answer
  gone : List Key
  entries : KeyMap Entry
  indexOne : KeyMap Key
  indexTwo : KeyMap Key

namespace Store

open Std

variable {s : Store} {k : Key} {ks ks' : List Key}

/-- Carries out a command. A purge goes through the keys as they are enumerated. -/
def runIn (s : Store) (e : Enumeration) (draw : Nat) : Command → Reply × Store
  | .purge stem =>
    let matching := s.keys.filter (beginsWith stem)
    (.ofPurge stem matching.length, s.removeAll (e.order matching))
  | command => s.run draw command

def executeIn (s : Store) (e : Enumeration) (draw : Nat) (line : String) : Reply × Store :=
  match Command.ofLine line with
  | .ok command => s.runIn e draw command
  | .error fault => (.error fault.message, s)

/-- The answer to a request, and the store afterwards. -/
def respond (s : Store) (e : Enumeration) : Request → Answer × Store
  | .operation (.put draw k v secondary) =>
    match s.put draw k v secondary with
    | .ok t => (.put none, t)
    | .error fault => (.put (some fault), s)
  | .operation (.get k) => (s.get k).map .found id
  | .operation (.getBy i x) => (s.getBy i x).map .found id
  | .operation (.remove k) => (s.remove k).map .found id
  | .operation .clear => (.cleared, s.clear)
  | .line draw text => (s.executeIn e draw text).map .reply id

/-- The store after requests, at each of which the keys are enumerated anew. -/
def respondAll (s : Store) (es : Nat → Enumeration) : List Request → Store
  | [] => s
  | request :: requests => (s.respond (es 0) request).2.respondAll (fun i => es (i + 1)) requests

def observe (s : Store) (e : Enumeration) (request : Request) : Observation :=
  let next := (s.respond e request).2
  { answer := (s.respond e request).1
    gone := s.keys.filter fun k => !next.containsKey k
    entries := next.entries
    indexOne := next.indexOne
    indexTwo := next.indexTwo }

/-- What is seen of a run of requests. -/
def observeAll (s : Store) (es : Nat → Enumeration) : List Request → List Observation
  | [] => []
  | request :: requests =>
    s.observe (es 0) request :: (s.respond (es 0) request).2.observeAll (fun i => es (i + 1)) requests

theorem executeIn_listed (s : Store) (draw : Nat) (line : String) :
    s.executeIn .listed draw line = s.execute draw line := by
  rw [executeIn, execute]
  cases Command.ofLine line with
  | error fault => rfl
  | ok command => cases command <;> rfl

theorem respond_operation (s : Store) (e : Enumeration) (op : Operation) :
    (s.respond e (.operation op)).2 = s.apply op := by
  cases op with
  | put draw k v secondary =>
    rw [respond, apply]
    cases s.put draw k v secondary <;> rfl
  | _ => rfl

theorem respond_listed (s : Store) (request : Request) :
    (s.respond .listed request).2 = s.serve request := by
  cases request with
  | operation op => exact s.respond_operation .listed op
  | line draw text => exact congrArg Prod.snd (s.executeIn_listed draw text)

theorem respondAll_listed (s : Store) (requests : List Request) :
    s.respondAll (fun _ => .listed) requests = s.serveAll requests := by
  induction requests generalizing s with
  | nil => rfl
  | cons request requests ih =>
    rw [respondAll, ih, respond_listed]
    rfl

theorem exists_operations_of_executeIn (s : Store) (e : Enumeration) (draw : Nat) (line : String) :
    ∃ ops, (s.executeIn e draw line).2 = s.applyAll ops := by
  rw [executeIn]
  cases Command.ofLine line with
  | error fault => exact ⟨[], rfl⟩
  | ok command =>
    cases command with
    | purge stem =>
      exact ⟨(e.order (s.keys.filter (beginsWith stem))).map .remove, removeAll_eq_applyAll s _⟩
    | _ => exact ⟨s.operations draw _, run_eq_applyAll s draw _⟩

/-- A request comes down to operations, in whatever order a purge goes through the keys. -/
theorem exists_operations_of_respond (s : Store) (e : Enumeration) (request : Request) :
    ∃ ops, (s.respond e request).2 = s.applyAll ops := by
  cases request with
  | operation op => exact ⟨[op], s.respond_operation e op⟩
  | line draw text => exact s.exists_operations_of_executeIn e draw text

theorem exists_operations_of_respondAll (s : Store) (es : Nat → Enumeration) (requests : List Request) :
    ∃ ops, s.respondAll es requests = s.applyAll ops := by
  induction requests generalizing s es with
  | nil => exact ⟨[], rfl⟩
  | cons request requests ih =>
    obtain ⟨first, hfirst⟩ := s.exists_operations_of_respond (es 0) request
    obtain ⟨rest, hrest⟩ := ih (s.respond (es 0) request).2 fun i => es (i + 1)
    refine ⟨first ++ rest, ?_⟩
    rw [applyAll_append, ← hfirst]
    exact hrest

theorem WellFormed.respond (hs : s.WellFormed) (e : Enumeration) (request : Request) :
    (s.respond e request).2.WellFormed := by
  obtain ⟨ops, hops⟩ := s.exists_operations_of_respond e request
  rw [hops]
  exact hs.applyAll ops

theorem rule_respond (s : Store) (e : Enumeration) (request : Request) :
    (s.respond e request).2.rule = s.rule := by
  obtain ⟨ops, hops⟩ := s.exists_operations_of_respond e request
  rw [hops]
  exact congrArg Prod.fst (bound_applyAll s ops)

theorem unlink_comm (s : Store) (k k' : Key) : (s.unlink k).unlink k' = (s.unlink k').unlink k := by
  have hindex (i : Index) : ((s.unlink k).unlink k').index i = ((s.unlink k').unlink k).index i := by
    apply ExtTreeMap.ext_getElem?
    intro x
    apply Option.ext
    intro target
    simp only [index_unlink_eq_some_iff, and_right_comm]
  exact (Store.mk.injEq ..).mpr ⟨rfl, rfl, rfl, hindex .one, hindex .two, rfl⟩

theorem remove_of_mem (hk : k ∈ s.entries) : (s.remove k).2 =
    { s.unlink k with entries := s.entries.erase k, policy := s.policy.removed k } := by
  obtain ⟨e, he⟩ := mem_entries_iff.mp hk
  rw [remove, he]
  rfl

/-- Keys may be removed in either order. -/
theorem WellFormed.remove_comm (hs : s.WellFormed) (hrule : s.rule ≠ .random) (k k' : Key) :
    ((s.remove k).2.remove k').2 = ((s.remove k').2.remove k).2 := by
  by_cases hkk : k = k'
  · rw [hkk]
  have hmem {k k' : Key} (hne : k ≠ k') : k ∈ (s.remove k').2.entries ↔ k ∈ s.entries := by
    rw [(hs.drops_remove k').mem_iff]
    exact and_iff_right hne
  by_cases hk : k ∈ s.entries
  case neg =>
    rw [hs.remove_of_not_mem hk, (hs.remove k').remove_of_not_mem (mt (hmem hkk).mp hk)]
  case pos =>
    by_cases hk' : k' ∈ s.entries
    case neg =>
      rw [hs.remove_of_not_mem hk', (hs.remove k).remove_of_not_mem (mt (hmem (Ne.symm hkk)).mp hk')]
    case pos =>
      have hpolicy := hs.policy.removed_comm (hs.rule ▸ hrule) k k'
      rw [remove_of_mem ((hmem (Ne.symm hkk)).mpr hk'), remove_of_mem ((hmem hkk).mpr hk),
        remove_of_mem hk, remove_of_mem hk']
      have hentries := erase_erase_comm s.entries k k'
      have hone := congrArg Store.indexOne (s.unlink_comm k k')
      have htwo := congrArg Store.indexTwo (s.unlink_comm k k')
      exact (Store.mk.injEq ..).mpr ⟨rfl, rfl, hentries, hone, htwo, hpolicy⟩

theorem rule_remove (s : Store) (k : Key) : (s.remove k).2.rule = s.rule :=
  congrArg Prod.fst (bound_apply s (.remove k))

theorem WellFormed.removeAll_perm (hs : s.WellFormed) (hrule : s.rule ≠ .random) (hperm : ks.Perm ks') :
    s.removeAll ks = s.removeAll ks' := by
  induction hperm generalizing s with
  | nil => rfl
  | cons k _ ih => exact ih (hs.remove k) (by rwa [rule_remove])
  | swap k k' ks => exact congrArg (removeAll · ks) (hs.remove_comm hrule k' k)
  | trans _ _ ih ih' => exact (ih hs hrule).trans (ih' hs hrule)

theorem WellFormed.runIn_purge_congr (hs : s.WellFormed) (hrule : s.rule ≠ .random) (e e' : Enumeration)
    (draw draw' : Nat) (stem : Key) : s.runIn e draw (.purge stem) = s.runIn e' draw' (.purge stem) := by
  have hperm := (e.perm (s.keys.filter (beginsWith stem))).trans (e'.perm _).symm
  simp only [runIn, hs.removeAll_perm hrule hperm]

/-- By every rule but the random one it cannot be seen in which order a purge went through the keys. -/
theorem WellFormed.respond_congr (hs : s.WellFormed) (hrule : s.rule ≠ .random) (e e' : Enumeration)
    (request : Request) : s.respond e request = s.respond e' request := by
  cases request with
  | operation op => cases op <;> rfl
  | line draw text =>
    rw [Store.respond, Store.respond, executeIn, executeIn]
    cases Command.ofLine text with
    | error fault => rfl
    | ok command =>
      cases command with
      | purge stem => exact congrArg (Prod.map Answer.reply id) (hs.runIn_purge_congr hrule e e' draw draw stem)
      | _ => rfl

end Store

end CacheServer
