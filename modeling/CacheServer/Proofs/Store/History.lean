import CacheServer.Proofs.Store.Operation
import Mathlib.Data.List.Induction

/-!
Histories: what happened to the contents of a store, in order. A key that went to make room counts as
dropped at that moment. What a history says about a key depends on its latest events only.
-/

namespace CacheServer

/-- A change of the contents of a store. -/
inductive Event where
  | put (key : Key) (value : String) (secondary : List (Option Key))
  | drop (key : Key)
  | clear

/-- The secondary key for one of the indexes among those of a put. -/
def Index.among (secondary : List (Option Key)) : Index → Option Key
  | .one => secondary[0]?.getD none
  | .two => secondary[1]?.getD none

namespace Event

def Puts (k : Key) (v : String) : Event → Prop
  | .put k' v' _ => k' = k ∧ v' = v
  | _ => False

/-- A put of a key that leads a secondary key to it. -/
def Leads (i : Index) (x k : Key) : Event → Prop
  | .put k' _ secondary => k' = k ∧ i.among secondary = some x
  | _ => False

/-- The end of a key, whether it alone goes or all keys do. -/
def Ends (k : Key) : Event → Prop
  | .put _ _ _ => False
  | .drop k' => k' = k
  | .clear => True

/-- An event without the secondary keys for the other index. -/
def only (i : Index) : Event → Event
  | .put k v secondary =>
    .put k v (match i with
      | .one => [i.among secondary]
      | .two => [none, i.among secondary])
  | e => e

variable {e : Event} {i : Index} {x k : Key} {v : String}

theorem puts_only : (e.only i).Puts k v ↔ e.Puts k v := by
  cases e <;> rfl

theorem leads_only : (e.only i).Leads i x k ↔ e.Leads i x k := by
  cases i <;> cases e <;> rfl

theorem ends_only : (e.only i).Ends k ↔ e.Ends k := by
  cases e <;> rfl

theorem exists_puts_of_leads (h : e.Leads i x k) : ∃ v, e.Puts k v := by
  cases e with
  | put k' v' secondary => exact ⟨v', h.1, rfl⟩
  | _ => cases h

end Event

namespace History

variable {P P' Q Q' : Event → Prop} {h : List Event} {e : Event} {i : Index} {x k : Key} {v : String}

/-- There is an event with the first property, and all events after it have the second. -/
def Since (P Q : Event → Prop) (h : List Event) : Prop :=
  ∃ before e after, h = before ++ e :: after ∧ P e ∧ ∀ e' ∈ after, Q e'

/-- There is a put of the key after which the key does not end. -/
def Live (h : List Event) (k : Key) : Prop :=
  Since (fun e => ∃ v, e.Puts k v) (fun e => ¬ e.Ends k) h

/-- The latest put of the key is a put of the value. -/
def LatestValue (h : List Event) (k : Key) (v : String) : Prop :=
  Since (Event.Puts k v) (fun e => ∀ v', ¬ e.Puts k v') h

/-- The latest put that supplies the secondary key for the index is a put of the key, and the key
does not end after it. -/
def Linked (h : List Event) (i : Index) (x k : Key) : Prop :=
  Since (Event.Leads i x k) (fun e => (∀ k', ¬ e.Leads i x k') ∧ ¬ e.Ends k) h

@[simp] theorem not_since_nil : ¬ Since P Q [] := by
  rintro ⟨before, e, after, heq, -⟩
  simp at heq

theorem since_cons : Since P Q (e :: h) ↔ (P e ∧ ∀ e' ∈ h, Q e') ∨ Since P Q h := by
  constructor
  · rintro ⟨before, e', after, heq, hP, hQ⟩
    cases before with
    | nil =>
      obtain ⟨rfl, rfl⟩ := List.cons.inj heq
      exact .inl ⟨hP, hQ⟩
    | cons first before =>
      obtain ⟨-, rfl⟩ := List.cons.inj heq
      exact .inr ⟨before, e', after, rfl, hP, hQ⟩
  · rintro (⟨hP, hQ⟩ | ⟨before, e', after, rfl, hP, hQ⟩)
    · exact ⟨[], e, h, rfl, hP, hQ⟩
    · exact ⟨e :: before, e', after, rfl, hP, hQ⟩

theorem since_snoc : Since P Q (h ++ [e]) ↔ P e ∨ Q e ∧ Since P Q h := by
  constructor
  · rintro ⟨before, e', after, heq, hP, hQ⟩
    rcases List.eq_nil_or_concat after with rfl | ⟨after, last, rfl⟩
    · obtain ⟨-, hlast⟩ := List.append_inj' heq rfl
      obtain rfl : e = e' := by simpa using hlast
      exact .inl hP
    · rw [List.concat_eq_append, ← List.cons_append, ← List.append_assoc] at heq
      obtain ⟨rfl, hlast⟩ := List.append_inj' heq rfl
      obtain rfl : e = last := by simpa using hlast
      refine .inr ⟨hQ e (by simp), before, e', after, rfl, hP, ?_⟩
      intro e'' hmem
      exact hQ e'' (by simp [hmem])
  · rintro (hP | ⟨hQe, before, e', after, rfl, hP, hQ⟩)
    · exact ⟨h, e, [], rfl, hP, by simp⟩
    · refine ⟨before, e', after ++ [e], by simp, hP, ?_⟩
      intro e'' hmem
      rcases List.mem_append.mp hmem with hmem | hmem
      · exact hQ e'' hmem
      · rwa [List.mem_singleton.mp hmem]

theorem Since.mono (hs : Since P Q h) (hP : ∀ e, P e → P' e) (hQ : ∀ e, Q e → Q' e) :
    Since P' Q' h := by
  obtain ⟨before, e, after, heq, hPe, hQe⟩ := hs
  exact ⟨before, e, after, heq, hP e hPe, fun e' hmem => hQ e' (hQe e' hmem)⟩

theorem since_map (f : Event → Event) (hP : ∀ e, P (f e) ↔ P e) (hQ : ∀ e, Q (f e) ↔ Q e) :
    Since P Q (h.map f) ↔ Since P Q h := by
  induction h using List.reverseRecOn with
  | nil => rfl
  | append_singleton h e ih => rw [List.map_append, List.map_singleton, since_snoc, since_snoc, hP, hQ, ih]

variable {k' target : Key} {v' : String} {secondary : List (Option Key)}

theorem live_put : Live (h ++ [.put k v secondary]) k' ↔ k = k' ∨ Live h k' := by
  simp [Live, since_snoc, Event.Puts, Event.Ends]

theorem latestValue_put :
    LatestValue (h ++ [.put k v secondary]) k' v' ↔
      k = k' ∧ v = v' ∨ k ≠ k' ∧ LatestValue h k' v' := by
  simp [LatestValue, since_snoc, Event.Puts]

theorem linked_put :
    Linked (h ++ [.put k v secondary]) i x target ↔
      k = target ∧ i.among secondary = some x ∨ i.among secondary ≠ some x ∧ Linked h i x target := by
  simp [Linked, since_snoc, Event.Leads, Event.Ends]

theorem live_drop : Live (h ++ [.drop k]) k' ↔ k ≠ k' ∧ Live h k' := by
  simp [Live, since_snoc, Event.Puts, Event.Ends]

theorem latestValue_drop : LatestValue (h ++ [.drop k]) k' v' ↔ LatestValue h k' v' := by
  simp [LatestValue, since_snoc, Event.Puts]

theorem linked_drop : Linked (h ++ [.drop k]) i x target ↔ k ≠ target ∧ Linked h i x target := by
  simp [Linked, since_snoc, Event.Leads, Event.Ends]

theorem not_live_clear : ¬ Live (h ++ [.clear]) k := by
  simp [Live, since_snoc, Event.Puts, Event.Ends]

theorem Linked.live (hlinked : Linked h i x k) : Live h k :=
  hlinked.mono (fun _ => Event.exists_puts_of_leads) fun _ => And.right

theorem not_linked_clear : ¬ Linked (h ++ [.clear]) i x k :=
  fun hlinked => not_live_clear hlinked.live

/-- Whether a value is the latest does not depend on secondary keys. -/
theorem latestValue_map_only : LatestValue (h.map (Event.only i)) k v ↔ LatestValue h k v := by
  apply since_map
  · intro e
    exact Event.puts_only
  · intro e
    simp only [Event.puts_only]

/-- Where a secondary key leads does not depend on the secondary keys for the other index. -/
theorem linked_map_only : Linked (h.map (Event.only i)) i x k ↔ Linked h i x k := by
  apply since_map
  · intro e
    exact Event.leads_only
  · intro e
    simp only [Event.leads_only, Event.ends_only]

end History

end CacheServer
