import CacheServer.Proofs.Eviction.Call
import CacheServer.Proofs.Store.Readmission

/-!
What a store tells the bookkeeping of its rule. A run of operations comes down to a run of calls, in which no
key is inserted that is kept, so what holds after all such runs of calls holds in every store that is reached.
-/

namespace CacheServer

namespace Policy

variable {p : Policy} {calls calls' : List Call}

theorem applyAll_append (p : Policy) (calls calls' : List Call) :
    p.applyAll (calls ++ calls') = (p.applyAll calls).applyAll calls' :=
  List.foldl_append

theorem admitsAll_append :
    p.AdmitsAll (calls ++ calls') ↔ p.AdmitsAll calls ∧ (p.applyAll calls).AdmitsAll calls' := by
  induction calls generalizing p with
  | nil => exact (and_iff_right trivial).symm
  | cons call calls ih =>
    rw [List.cons_append, AdmitsAll, AdmitsAll, ih, and_assoc]
    rfl

end Policy

namespace Store

variable {s t : Store} {k : Key} {draw : Nat} {v : String} {secondary : List (Option Key)}

/-- The calls of the bookkeeping at a put. -/
def callsOfPut (s : Store) (draw : Nat) (k : Key) : List Call :=
  if s.containsKey k then [.used k]
  else (if s.isFull then [.victim draw] else []) ++ [.inserted k]

/-- The calls at a look-up. -/
def callsOfGet (s : Store) (k : Key) : List Call :=
  if s.containsKey k then [.used k] else []

/-- The calls of the bookkeeping at an operation. A put that fails makes none. -/
def callsOf (s : Store) : Operation → List Call
  | .put draw k _ secondary =>
    if secondary.length ≤ maxSecondaryIndexes then s.callsOfPut draw k else []
  | .get k => s.callsOfGet k
  | .getBy i x => (s.index i)[x]?.elim [] s.callsOfGet
  | .remove k => if s.containsKey k then [.removed k] else []
  | .clear => [.cleared]

/-- The calls of the bookkeeping in a run, in their order. -/
def calls : Store → List Operation → List Call
  | _, [] => []
  | s, op :: ops => s.callsOf op ++ (s.apply op).calls ops

theorem policy_evict (s : Store) (draw : Nat) : (s.evict draw).policy = s.policy.apply (.victim draw) := by
  rw [evict, Policy.apply]
  cases s.policy.victim? draw <;> rfl

theorem policy_put (hput : s.put draw k v secondary = .ok t) :
    t.policy = s.policy.applyAll (s.callsOfPut draw k) := by
  rw [callsOfPut]
  by_cases hk : k ∈ s.entries
  · obtain ⟨e, he⟩ := mem_entries_iff.mp hk
    obtain ⟨-, rfl⟩ := put_eq_ok_iff.mp hput
    rw [if_pos (containsKey_iff.mpr hk)]
    exact congrArg Store.policy (write_of_getElem? he)
  · rw [policy_put_of_not_mem hput hk, if_neg (mt containsKey_iff.mp hk), makeRoom]
    split
    · rw [policy_evict]
      rfl
    · rfl

theorem policy_get (s : Store) (k : Key) :
    (s.get k).2.policy = s.policy.applyAll (s.callsOfGet k) := by
  rw [callsOfGet]
  by_cases hk : k ∈ s.entries
  · obtain ⟨e, he⟩ := mem_entries_iff.mp hk
    rw [get, he, if_pos (containsKey_iff.mpr hk)]
    rfl
  · rw [get, Std.ExtTreeMap.getElem?_eq_none hk, if_neg (mt containsKey_iff.mp hk)]
    rfl

/-- The bookkeeping after an operation is the bookkeeping after its calls. -/
theorem policy_apply (s : Store) (op : Operation) :
    (s.apply op).policy = s.policy.applyAll (s.callsOf op) := by
  cases op with
  | put draw k v secondary =>
    rw [apply, callsOf]
    by_cases hsecondary : secondary.length ≤ maxSecondaryIndexes
    · rw [put_eq_ok hsecondary, if_pos hsecondary]
      exact policy_put (put_eq_ok hsecondary)
    · rw [put, if_pos (by omega), if_neg hsecondary]
      rfl
  | get k => exact policy_get s k
  | getBy i x =>
    rw [apply, getBy, callsOf]
    cases (s.index i)[x]? with
    | none => rfl
    | some k => exact policy_get s k
  | remove k =>
    rw [apply, callsOf]
    by_cases hk : k ∈ s.entries
    · obtain ⟨e, he⟩ := mem_entries_iff.mp hk
      rw [remove, he, if_pos (containsKey_iff.mpr hk)]
      rfl
    · rw [remove, Std.ExtTreeMap.getElem?_eq_none hk, if_neg (mt containsKey_iff.mp hk)]
      rfl
  | clear => rfl

theorem policy_applyAll (s : Store) (ops : List Operation) :
    (s.applyAll ops).policy = s.policy.applyAll (s.calls ops) := by
  induction ops generalizing s with
  | nil => rfl
  | cons op ops ih => rw [applyAll_cons, ih, policy_apply, calls, Policy.applyAll_append]

/-- The calls that there may be at an operation: none, one that names a key of the store, a key inserted as
there is room for it, or the end of all keys. -/
inductive Reports (s : Store) (op : Operation) : List Call → Prop where
  | nothing : Reports s op []
  | used {k : Key} (hk : k ∈ s.keys) : Reports s op [.used k]
  | removed {k : Key} (hk : k ∈ s.keys) : Reports s op [.removed k]
  | cleared : Reports s op [.cleared]
  | inserted {draw : Nat} {k : Key} {v : String} {secondary : List (Option Key)}
      (hop : op = .put draw k v secondary) (hk : k ∉ s.keys) :
      Reports s op ((if s.isFull then [.victim draw] else []) ++ [.inserted k])

theorem reports_callsOfGet (s : Store) (op : Operation) (k : Key) : s.Reports op (s.callsOfGet k) := by
  rw [callsOfGet]
  split
  case isTrue hk => exact .used (mem_keys.mpr (containsKey_iff.mp hk))
  case isFalse => exact .nothing

theorem reports_callsOf (s : Store) (op : Operation) : s.Reports op (s.callsOf op) := by
  cases op with
  | put draw k v secondary =>
    rw [callsOf, callsOfPut]
    split
    case isTrue =>
      split
      case isTrue hk => exact .used (mem_keys.mpr (containsKey_iff.mp hk))
      case isFalse hk => exact .inserted rfl (mt mem_keys.mp (mt containsKey_iff.mpr hk))
    case isFalse => exact .nothing
  | get k => exact s.reports_callsOfGet _ k
  | getBy i x =>
    rw [callsOf]
    cases (s.index i)[x]? with
    | none => exact .nothing
    | some k => exact s.reports_callsOfGet _ k
  | remove k =>
    rw [callsOf]
    split
    case isTrue hk => exact .removed (mem_keys.mpr (containsKey_iff.mp hk))
    case isFalse => exact .nothing
  | clear => exact .cleared

theorem callsOfGet_of_isSome (hfound : (s.get k).1.isSome) : s.callsOfGet k = [.used k] := by
  rw [callsOfGet, if_pos (containsKey_iff.mpr (isSome_get_fst.mp hfound))]

/-- A read or an overwriting is told to the bookkeeping as a use of its key. -/
theorem callsOf_of_use? {op : Operation} {u : Use} (hu : s.use? op = some u) (hkind : u.kind ≠ .insertion) :
    s.callsOf op = [.used u.key] := by
  cases op with
  | put draw k v secondary =>
    obtain ⟨hsecondary, hput⟩ := Option.ite_none_right_eq_some.mp hu
    obtain rfl := Option.some.inj hput
    by_cases hk : s.containsKey k = true
    · rw [callsOf, if_pos hsecondary, callsOfPut, if_pos hk]
    · exact absurd (if_neg hk) hkind
  | get k =>
    obtain ⟨hfound, hread⟩ := Option.ite_none_right_eq_some.mp hu
    obtain rfl := Option.some.inj hread
    exact callsOfGet_of_isSome hfound
  | getBy i x =>
    obtain ⟨hfound, hread⟩ := Option.ite_none_right_eq_some.mp hu
    obtain ⟨k, hx, rfl⟩ := Option.map_eq_some_iff.mp hread
    rw [getBy_eq_get hx] at hfound
    rw [callsOf, hx]
    exact callsOfGet_of_isSome hfound
  | remove k => cases hu
  | clear => cases hu

theorem Reports.admitsAll {op : Operation} {calls : List Call} (h : s.Reports op calls)
    (hs : s.WellFormed) : s.policy.AdmitsAll calls := by
  cases h with
  | nothing => trivial
  | used | removed | cleared => exact ⟨trivial, trivial⟩
  | @inserted draw k _ _ _ hk =>
    have hfree := (hs.makeRoom draw).not_mem_residents (not_mem_makeRoom (mt mem_keys.mpr hk) draw)
    rw [Store.makeRoom] at hfree
    split
    case isTrue hfull =>
      rw [if_pos hfull, policy_evict] at hfree
      exact ⟨trivial, hfree, trivial⟩
    case isFalse hroom =>
      rw [if_neg hroom] at hfree
      exact ⟨hfree, trivial⟩

theorem WellFormed.admitsAll_calls (hs : s.WellFormed) (ops : List Operation) :
    s.policy.AdmitsAll (s.calls ops) := by
  induction ops generalizing s with
  | nil => trivial
  | cons op ops ih =>
    rw [calls, Policy.admitsAll_append, ← policy_apply]
    exact ⟨(s.reports_callsOf op).admitsAll hs, ih (hs.apply op)⟩

end Store

end CacheServer
