import CacheServer.Proofs.Store.CrossReference

/-!
The values of a store. They come by puts alone, so what holds of every value that is put holds of
every value that is found.
-/

namespace CacheServer.Store

open Std

variable {P : String → Prop} {s t : Store} {k : Key} {e : Entry} {v : String}

/-- Every value of the store has the property. -/
def AllValues (P : String → Prop) (s : Store) : Prop :=
  ∀ (k : Key) (e : Entry), s.entries[k]? = some e → P e.value

theorem AllValues.of_insert (h : s.AllValues P) (he : P e.value)
    (ht : t.entries = s.entries.insert k e) : t.AllValues P := by
  intro k' e' he'
  rw [ht, ExtTreeMap.getElem?_insert] at he'
  split at he'
  · cases he'
    exact he
  · exact h k' e' he'

theorem AllValues.of_erase (h : s.AllValues P) (ht : t.entries = s.entries.erase k) :
    t.AllValues P := by
  intro k' e' he'
  rw [ht, ExtTreeMap.getElem?_erase] at he'
  split at he'
  · cases he'
  · exact h k' e' he'

theorem allValues_of_empty (ht : t.entries = ∅) : t.AllValues P := by
  intro k e he
  rw [ht, ExtTreeMap.getElem?_empty] at he
  cases he

theorem AllValues.evict (h : s.AllValues P) (draw : Nat) : (s.evict draw).AllValues P := by
  cases hvictim : s.policy.victim? draw with
  | none => rwa [Store.evict, hvictim]
  | some found =>
    rw [evict_eq hvictim]
    exact h.of_erase rfl

theorem AllValues.write (h : s.AllValues P) (draw : Nat) (k : Key) (hv : P v) :
    (s.write draw k v).AllValues P := by
  rw [Store.write]
  split
  · exact h.of_insert hv rfl
  · cases s.isFull with
    | false => exact h.of_insert hv rfl
    | true => exact (h.evict draw).of_insert hv rfl

theorem AllValues.get (h : s.AllValues P) (k : Key) : (s.get k).2.AllValues P := by
  rw [Store.get]
  split
  case h_1 => exact h
  case h_2 e he => exact h.of_insert (e := { e with hits := e.hits + 1 }) (h k e he) rfl

theorem AllValues.apply (h : s.AllValues P) {op : Operation}
    (hop : ∀ draw k v secondary, op = .put draw k v secondary → P v) :
    (s.apply op).AllValues P := by
  cases op with
  | put draw k v secondary =>
    rw [Store.apply]
    split
    case h_1 t hput =>
      obtain ⟨-, rfl⟩ := put_eq_ok_iff.mp hput
      exact h.write draw k (hop draw k v secondary rfl)
    case h_2 => exact h
  | get k => exact h.get k
  | getBy i x =>
    rw [Store.apply, Store.getBy]
    split
    · exact h
    · exact h.get _
  | remove k =>
    rw [Store.apply, Store.remove]
    split
    · exact h
    · exact h.of_erase rfl
  | clear => exact allValues_of_empty rfl

theorem AllValues.applyAll (h : s.AllValues P) {ops : List Operation}
    (hops : ∀ draw k v secondary, .put draw k v secondary ∈ ops → P v) :
    (s.applyAll ops).AllValues P := by
  induction ops generalizing s with
  | nil => exact h
  | cons op ops ih =>
    refine ih (h.apply fun draw k v secondary hop => ?_) fun draw k v secondary hop => ?_
    · exact hops draw k v secondary (hop ▸ List.mem_cons_self)
    · exact hops draw k v secondary (List.mem_cons_of_mem op hop)

/-- A line puts the value of a `SET` and no other. -/
theorem AllValues.execute (h : s.AllValues P) (draw : Nat) {line : String}
    (hline : ∀ k v one two, Command.ofLine line = .ok (.set k v one two) → P v) :
    (s.execute draw line).2.AllValues P := by
  rw [Store.execute]
  cases hcommand : Command.ofLine line with
  | error e => exact h
  | ok command =>
    rw [run_eq_applyAll]
    refine h.applyAll fun draw' k v secondary hop => ?_
    cases command with
    | set k' v' one two =>
      obtain ⟨-, -, rfl, -⟩ := by simpa [operations] using hop
      exact hline k' v one two hcommand
    | _ => simp [operations] at hop

theorem AllValues.get_fst (h : s.AllValues P) (hv : (s.get k).1 = some v) : P v := by
  rw [Store.get_fst, Option.map_eq_some_iff] at hv
  obtain ⟨e, he, rfl⟩ := hv
  exact h k e he

theorem AllValues.getBy_fst (h : s.AllValues P) {i : Index} {x : Key}
    (hv : (s.getBy i x).1 = some v) : P v := by
  rw [Store.getBy] at hv
  split at hv
  · cases hv
  · exact h.get_fst hv

end CacheServer.Store
