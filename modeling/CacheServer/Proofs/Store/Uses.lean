import CacheServer.Proofs.Store.Comparison
import CacheServer.Proofs.Store.CrossReference

/-!
The uses of keys in a run: a put that brings a key, a put that overwrites it, and a look-up that finds
its value, by whichever key. The bookkeeping of a rule is told of these uses and of the keys that go,
so what its calls keep is kept by every run.
-/

namespace CacheServer

inductive UseKind where
  /-- A put of a key that was not there. -/
  | insertion
  /-- A put of a key that was there. -/
  | overwriting
  /-- A look-up that found the value of the key. -/
  | reading
deriving DecidableEq, Repr

/-- A use of one key. -/
structure Use where
  key : Key
  kind : UseKind
deriving DecidableEq, Repr

namespace Uses

/-- The keys in the order of their uses. -/
def keys (h : List Use) : List Key :=
  h.map Use.key

/-- The keys in the order in which they came. -/
def insertions (h : List Use) : List Key :=
  (h.filter fun u => u.kind = .insertion).map Use.key

/-- The number of uses of a key since it came last, the put that brought it included. -/
def frequency (h : List Use) (k : Key) : Nat :=
  (h.reverse.takeWhile fun u => u ≠ ⟨k, .insertion⟩).countP (fun u => u.key = k) + 1

variable {h : List Use} {k k' : Key} {kind : UseKind}

theorem keys_snoc (h : List Use) (k : Key) (kind : UseKind) :
    keys (h ++ [⟨k, kind⟩]) = keys h ++ [k] := by
  simp [keys]

theorem insertions_snoc_insertion (h : List Use) (k : Key) :
    insertions (h ++ [⟨k, .insertion⟩]) = insertions h ++ [k] := by
  simp [insertions]

theorem insertions_snoc (hkind : kind ≠ .insertion) (h : List Use) (k : Key) :
    insertions (h ++ [⟨k, kind⟩]) = insertions h := by
  simp [insertions, hkind]

theorem frequency_snoc_insertion (h : List Use) (k : Key) :
    frequency (h ++ [⟨k, .insertion⟩]) k = 1 := by
  simp [frequency]

theorem frequency_snoc_self (hkind : kind ≠ .insertion) (h : List Use) (k : Key) :
    frequency (h ++ [⟨k, kind⟩]) k = frequency h k + 1 := by
  simp [frequency, hkind]

theorem frequency_snoc_of_ne (hne : k' ≠ k) (h : List Use) (kind : UseKind) :
    frequency (h ++ [⟨k, kind⟩]) k' = frequency h k' := by
  simp [frequency, hne.symm]

end Uses

/-- What is said of the bookkeeping and the uses so far stays true in every call. -/
structure Policy.Keeps (I : Policy → List Use → Prop) : Prop where
  inserted : ∀ {p h k}, p.WellFormed → I p h → k ∉ p.residents →
    I (p.inserted k) (h ++ [⟨k, .insertion⟩])
  used : ∀ {p h k kind}, p.WellFormed → I p h → kind ≠ .insertion →
    I (p.used k) (h ++ [⟨k, kind⟩])
  removed : ∀ {p h} k, p.WellFormed → I p h → I (p.removed k) h
  victim? : ∀ {p h draw k rest}, p.WellFormed → I p h → p.victim? draw = some (k, rest) → I rest h
  cleared : ∀ {p h}, p.WellFormed → I p h → I p.cleared h

namespace Store

open Std

/-- The use of a key that an operation is, if it is one. Of the look-ups only those count that find a
value. -/
def use? (s : Store) : Operation → Option Use
  | .put _ k _ secondary =>
    if secondary.length ≤ maxSecondaryIndexes then
      some ⟨k, if s.containsKey k then .overwriting else .insertion⟩
    else none
  | .get k => if (s.get k).1.isSome then some ⟨k, .reading⟩ else none
  | .getBy i x =>
    if (s.getBy i x).1.isSome then (s.index i)[x]?.map (⟨·, .reading⟩) else none
  | .remove _ => none
  | .clear => none

/-- The uses of keys in a run, in their order. -/
def uses (s : Store) : List Operation → List Use
  | [] => []
  | op :: ops => (s.use? op).toList ++ (s.apply op).uses ops

variable {I : Policy → List Use → Prop} {s t : Store} {h : List Use} {k : Key} {draw : Nat} {v : String}
  {secondary : List (Option Key)} {op : Operation}

theorem WellFormed.keeps_evict (hs : s.WellFormed) (hI : Policy.Keeps I) (hh : I s.policy h)
    (draw : Nat) : I (s.evict draw).policy h := by
  cases hvictim : s.policy.victim? draw with
  | none => rwa [Store.evict, hvictim]
  | some found =>
    rw [evict_eq hvictim]
    exact hI.victim? hs.policy hh hvictim

/-- A put inserts its key, after room has been made if need be, or it uses it. -/
theorem WellFormed.keeps_put (hs : s.WellFormed) (hI : Policy.Keeps I) (hh : I s.policy h)
    (hput : s.put draw k v secondary = .ok t) :
    I t.policy (h ++ [⟨k, if s.containsKey k then .overwriting else .insertion⟩]) := by
  obtain ⟨-, rfl⟩ := put_eq_ok_iff.mp hput
  change I (s.write draw k v).policy _
  by_cases hk : k ∈ s.entries
  · obtain ⟨e, he⟩ := mem_entries_iff.mp hk
    rw [write_of_getElem? he, if_pos (containsKey_iff.mpr hk)]
    exact hI.used hs.policy hh nofun
  · rw [if_neg (mt containsKey_iff.mp hk)]
    cases hfull : s.isFull with
    | false =>
      rw [write_of_not_mem hk hfull]
      exact hI.inserted hs.policy hh (hs.not_mem_residents hk)
    | true =>
      have hevict := hs.evict draw
      have hgone : k ∉ (s.evict draw).entries := not_mem_evict hk
      rw [hs.write_of_isFull hk hfull, write_of_not_mem hgone (hs.isFull_evict hfull draw)]
      exact hI.inserted hevict.policy (hs.keeps_evict hI hh draw) (hevict.not_mem_residents hgone)

/-- A look-up that finds a value uses the key, and any other leaves the bookkeeping alone. -/
theorem WellFormed.keeps_get (hs : s.WellFormed) (hI : Policy.Keeps I) (hh : I s.policy h) (k : Key) :
    I (s.get k).2.policy
      (h ++ (if (s.get k).1.isSome then some ⟨k, .reading⟩ else none : Option Use).toList) := by
  rw [Store.get]
  split
  · simpa using hh
  · exact hI.used hs.policy hh (by decide)

theorem WellFormed.keeps_apply (hs : s.WellFormed) (hI : Policy.Keeps I) (hh : I s.policy h)
    (op : Operation) : I (s.apply op).policy (h ++ (s.use? op).toList) := by
  cases op with
  | put draw k v secondary =>
    rw [Store.apply, use?]
    by_cases hsecondary : secondary.length ≤ maxSecondaryIndexes
    · rw [put_eq_ok hsecondary, if_pos hsecondary]
      exact hs.keeps_put hI hh (put_eq_ok hsecondary)
    · rw [Store.put, if_pos (by omega), if_neg hsecondary]
      simpa using hh
  | get k => exact hs.keeps_get hI hh k
  | getBy i x =>
    rw [Store.apply, use?]
    cases hx : (s.index i)[x]? with
    | none => simpa [Store.getBy, hx] using hh
    | some k =>
      rw [getBy_eq_get hx]
      exact hs.keeps_get hI hh k
  | remove k =>
    rw [Store.apply, use?, Option.toList_none, List.append_nil, Store.remove]
    split
    · exact hh
    · exact hI.removed k hs.policy hh
  | clear =>
    rw [use?, Option.toList_none, List.append_nil]
    exact hI.cleared hs.policy hh

theorem uses_append (s : Store) (ops ops' : List Operation) :
    s.uses (ops ++ ops') = s.uses ops ++ (s.applyAll ops).uses ops' := by
  induction ops generalizing s with
  | nil => rfl
  | cons op ops ih => rw [List.cons_append, uses, ih, applyAll_cons, uses, List.append_assoc]

/-- A put of a key that is not there is an insertion. -/
theorem uses_snoc_put {ops : List Operation} (hk : k ∉ (s.applyAll ops).keys)
    (hsecondary : secondary.length ≤ maxSecondaryIndexes) (draw : Nat) (v : String) :
    s.uses (ops ++ [.put draw k v secondary]) = s.uses ops ++ [⟨k, .insertion⟩] := by
  have hfalse : (s.applyAll ops).containsKey k = false := by
    rw [Bool.eq_false_iff, Ne, containsKey_iff]
    exact mt mem_keys.mpr hk
  simp [uses_append, uses, use?, hsecondary, hfalse]

/-- What the calls keep is true after every run. -/
theorem WellFormed.keeps_applyAll (hs : s.WellFormed) (hI : Policy.Keeps I) (hh : I s.policy h)
    (ops : List Operation) : I (s.applyAll ops).policy (h ++ s.uses ops) := by
  induction ops generalizing s h with
  | nil => rwa [uses, List.append_nil]
  | cons op ops ih =>
    rw [uses, ← List.append_assoc]
    exact ih (hs.apply op) (hs.keeps_apply hI hh op)

/-- A put of a key that is there is no insertion. -/
theorem use?_ne_insertion (hk : k ∈ s.keys) : s.use? op ≠ some ⟨k, .insertion⟩ := by
  have hcontains : s.containsKey k = true := containsKey_iff.mpr (mem_keys.mp hk)
  cases op with
  | put draw k' v secondary =>
    rw [use?]
    split
    · intro heq
      obtain ⟨rfl, hkind⟩ := Use.mk.inj (Option.some.inj heq)
      simp [hcontains] at hkind
    · simp
  | get k' =>
    rw [use?]
    split <;> simp
  | getBy i x =>
    rw [use?]
    split <;> simp
  | remove k' => simp [use?]
  | clear => simp [use?]

/-- Only a put of a key brings it. -/
theorem WellFormed.exists_put_of_mem_apply (hs : s.WellFormed) (hk₀ : k ∉ s.keys)
    (hk : k ∈ (s.apply op).keys) :
    ∃ draw v secondary, op = .put draw k v secondary ∧ secondary.length ≤ maxSecondaryIndexes := by
  have hhands := hs.handsOn (hs.does_apply op)
  have hvalue : (Effect.ofOperation op).value? k ≠ none := fun hnone =>
    hk₀ (mem_keys.mpr (hhands.mem_of_mem (mem_keys.mp hk) hnone))
  obtain ⟨v, hvalue⟩ := Option.ne_none_iff_exists'.mp hvalue
  obtain ⟨draw, secondary, heffect⟩ := Effect.value?_eq_some_iff.mp hvalue
  cases op with
  | put draw' k' v' secondary' =>
    rw [Effect.ofOperation] at heffect
    split at heffect
    case isTrue hsecondary =>
      cases heffect
      exact ⟨draw, v, secondary, rfl, hsecondary⟩
    case isFalse => cases heffect
  | _ => cases heffect

/-- A key that a run has brought came with a put, and was not brought again after the last such put. -/
theorem WellFormed.exists_last_insertion (hs : s.WellFormed) {ops : List Operation} (hk₀ : k ∉ s.keys)
    (hk : k ∈ (s.applyAll ops).keys) :
    ∃ before draw v secondary after, ops = before ++ .put draw k v secondary :: after ∧
      secondary.length ≤ maxSecondaryIndexes ∧ k ∉ (s.applyAll before).keys ∧
      ⟨k, .insertion⟩ ∉ ((s.applyAll before).apply (.put draw k v secondary)).uses after := by
  -- From the end of the run: the last operation comes after the insertion, or it is the insertion.
  induction ops using List.reverseRecOn with
  | nil => exact absurd hk hk₀
  | append_singleton ops op ih =>
    rw [applyAll_append] at hk
    by_cases hbefore : k ∈ (s.applyAll ops).keys
    · obtain ⟨before, draw, v, secondary, after, rfl, hsecondary, hnew, hnot⟩ := ih hbefore
      refine ⟨before, draw, v, secondary, after ++ [op], by simp, hsecondary, hnew, ?_⟩
      rw [applyAll_append] at hbefore
      rw [uses_append, List.mem_append, not_or]
      refine ⟨hnot, ?_⟩
      rw [uses, uses, List.append_nil, Option.mem_toList]
      exact use?_ne_insertion hbefore
    · obtain ⟨draw, v, secondary, rfl, hsecondary⟩ :=
        (hs.applyAll ops).exists_put_of_mem_apply hbefore hk
      exact ⟨ops, draw, v, secondary, [], rfl, hsecondary, hbefore, List.not_mem_nil⟩

end Store

end CacheServer
