import CacheServer.Proofs.Eviction.Cleared
import CacheServer.Proofs.Eviction.Ghosts
import Mathlib.Data.Finset.Card

/-!
The contract between a store and the bookkeeping of its rule. Calls may come in any order and name keys of which
the rule knows nothing, and the capacity may be zero. The keys that the rule tracks are always those that follow
from the calls and from the keys that it gave, and it gives all of them, each once, if it is asked often enough.
-/

namespace CacheServer

namespace Call

/-- The keys that are tracked after a call, if these were before it and `given` is the key that was given in
answer. -/
def trackedAfter (keys : Finset Key) (given : Option Key) : Call → Finset Key
  | .inserted k => insert k keys
  | .used _ => keys
  | .removed k => keys.erase k
  | .victim _ => given.elim keys keys.erase
  | .cleared => ∅

/-- Only a key that is not tracked may be inserted. Any key may be used and removed, but by the rules LRU and
MRU only a tracked key may be used: these keep every key that they are told of. -/
def Allowed (rule : EvictionRule) (keys : Finset Key) : Call → Prop
  | .inserted k => k ∉ keys
  | .used k => rule = .lru ∨ rule = .mru → k ∈ keys
  | .removed _ | .victim _ | .cleared => True

instance (rule : EvictionRule) (keys : Finset Key) : (call : Call) → Decidable (call.Allowed rule keys)
  | .inserted k => inferInstanceAs (Decidable (k ∉ keys))
  | .used k => inferInstanceAs (Decidable (rule = .lru ∨ rule = .mru → k ∈ keys))
  | .removed _ | .victim _ | .cleared => .isTrue trivial

/-- The keys that are tracked after calls, each with the key that was given in answer to it. -/
def trackedAfterAll (keys : Finset Key) (trace : List (Call × Option Key)) : Finset Key :=
  trace.foldl (fun keys (call, given) => call.trackedAfter keys given) keys

/-- Every call was allowed when it was made. -/
def AllowedAll (rule : EvictionRule) : Finset Key → List (Call × Option Key) → Prop
  | _, [] => True
  | keys, (call, given) :: trace =>
    call.Allowed rule keys ∧ AllowedAll rule (call.trackedAfter keys given) trace

instance decidableAllowedAll (rule : EvictionRule) :
    (keys : Finset Key) → (trace : List (Call × Option Key)) → Decidable (AllowedAll rule keys trace)
  | _, [] => .isTrue trivial
  | keys, (call, given) :: trace =>
    have := decidableAllowedAll rule (call.trackedAfter keys given) trace
    inferInstanceAs (Decidable (call.Allowed rule keys ∧
      AllowedAll rule (call.trackedAfter keys given) trace))

end Call

namespace Policy

variable {p : Policy} {keys : Finset Key} {call : Call} {k : Key}

/-- The key that is given in answer to a call, if it asks for one. -/
def given? (p : Policy) : Call → Option Key
  | .victim draw => (p.victim? draw).map Prod.fst
  | _ => .none

/-- Calls one after another, each with the key that is given in answer to it. -/
def trace : Policy → List Call → List (Call × Option Key)
  | _, [] => []
  | p, call :: calls => (call, p.given? call) :: (p.apply call).trace calls

/-- What a call takes for granted is so: that a position is in an array, that a list whose length is divided by
is not empty, and that the hand, which visits positions in the array only, comes to a key without a mark. -/
def Supports : Policy → Call → Prop
  | random p, .removed k => ∀ i, p.positions[k]? = some i → i < p.keys.size
  | random p, .victim draw => p.keys ≠ #[] → draw % p.keys.size < p.keys.size
  | clock r, .victim _ => r.keys ≠ #[] →
    ∃ visits t k, visits ≤ r.keys.size ∧ r.Passes visits t ∧ t.keys[t.position]? = some k ∧
      t.marks[k]? ≠ some true ∧ r.take? = some (k, t.give k)
  | arc a, .inserted k => (a.recentGhosts.contains k → a.recentGhosts.size ≠ 0) ∧
    (a.frequentGhosts.contains k → a.frequentGhosts.size ≠ 0)
  | tinyLfu a, _ => ∀ k, ∀ row < Sketch.depth, a.sketch.slot row k < a.sketch.counters.size
  | _, _ => True

theorem wellFormed_sketch_of_blank {hash : RowHash} {capacity : Nat} {rule : EvictionRule} {a : Admission}
    (hblank : (tinyLfu a).blank = ofRule hash capacity rule) : a.sketch.clear.WellFormed := by
  cases rule with
  | tinyLfu =>
    have hsketch : a.sketch.clear = .ofCapacity hash capacity :=
      congrArg Admission.sketch (tinyLfu.inj hblank)
    rw [hsketch]
    exact Sketch.wellFormed_ofCapacity hash capacity
  | _ => cases hblank

theorem WellFormed.supports (h : p.WellFormed) {hash : RowHash} {capacity : Nat} {rule : EvictionRule}
    (hblank : p.blank = ofRule hash capacity rule) (call : Call) : p.Supports call := by
  cases p with
  | random p =>
    cases call with
    | removed k => exact fun i hi => (Array.getElem?_eq_some_iff.mp ((h k i).mp hi)).1
    | victim draw => exact fun hne => Nat.mod_lt draw (Array.size_pos_iff.mpr hne)
    | _ => trivial
  | clock r =>
    cases call with
    | victim draw => exact Ring.WellFormed.exists_passes_take? h
    | _ => trivial
  | arc a =>
    cases call with
    | inserted k =>
      exact ⟨h.recentGhosts.size_ne_zero_of_contains, h.frequentGhosts.size_ne_zero_of_contains⟩
    | _ => trivial
  | tinyLfu a => exact fun k row hrow => Sketch.slot_lt_of_clear (wellFormed_sketch_of_blank hblank) hrow k
  | _ => trivial

/-- The keys of the bookkeeping are the tracked keys. -/
structure Tracks (p : Policy) (keys : Finset Key) : Prop where
  wellFormed : p.WellFormed
  mem_iff : ∀ k, k ∈ p.residents ↔ k ∈ keys

theorem tracks_ofRule (hash : RowHash) (capacity : Nat) (rule : EvictionRule) :
    (ofRule hash capacity rule).Tracks ∅ := by
  refine ⟨wellFormed_ofRule hash capacity rule, fun k => ?_⟩
  simp [residents_ofRule]

theorem Tracks.residents_eq_nil_iff (h : p.Tracks keys) : p.residents = [] ↔ keys = ∅ := by
  rw [List.eq_nil_iff_forall_not_mem, Finset.eq_empty_iff_forall_notMem]
  exact forall_congr' fun k => not_congr (h.mem_iff k)

theorem Tracks.inserted (h : p.Tracks keys) (hrule : p.rule ≠ .none) (hk : k ∉ keys) :
    (p.inserted k).Tracks (insert k keys) := by
  obtain ⟨hp, hperm⟩ := h.wellFormed.inserted (mt (h.mem_iff k).mp hk)
  refine ⟨hp, fun k' => ?_⟩
  rw [(hperm hrule).mem_iff, List.mem_cons, Finset.mem_insert, h.mem_iff]

theorem Tracks.used (h : p.Tracks keys) (hk : p.rule = .lru ∨ p.rule = .mru → k ∈ keys) :
    (p.used k).Tracks keys := by
  obtain ⟨hp, hperm⟩ := h.wellFormed.used fun hrule => (h.mem_iff k).mpr (hk hrule)
  exact ⟨hp, fun k' => hperm.mem_iff.trans (h.mem_iff k')⟩

theorem Tracks.removed (h : p.Tracks keys) (k : Key) : (p.removed k).Tracks (keys.erase k) := by
  obtain ⟨hp, hperm⟩ := h.wellFormed.removed k
  refine ⟨hp, fun k' => ?_⟩
  rw [hperm.mem_iff, h.wellFormed.nodup_residents.mem_erase_iff, Finset.mem_erase, h.mem_iff]

/-- The key that is given is a tracked key, and it is not tracked any more. -/
theorem Tracks.victim? (h : p.Tracks keys) {draw : Nat} {rest : Policy}
    (hvictim : p.victim? draw = some (k, rest)) : k ∈ keys ∧ rest.Tracks (keys.erase k) := by
  obtain ⟨hrest, hperm⟩ := h.wellFormed.victim? hvictim
  have hnodup := hperm.nodup_iff.mp h.wellFormed.nodup_residents
  rw [List.nodup_cons] at hnodup
  have hmem (k' : Key) : k' ∈ keys ↔ k' = k ∨ k' ∈ rest.residents := by
    rw [← h.mem_iff, hperm.mem_iff, List.mem_cons]
  refine ⟨(hmem k).mpr (.inl rfl), hrest, fun k' => ?_⟩
  rw [Finset.mem_erase, hmem]
  constructor
  · intro hk'
    refine ⟨?_, .inr hk'⟩
    rintro rfl
    exact hnodup.1 hk'
  · rintro ⟨hne, hk'⟩
    exact hk'.resolve_left hne

theorem Tracks.victim?_eq_none_iff (h : p.Tracks keys) {draw : Nat} :
    p.victim? draw = .none ↔ keys = ∅ :=
  h.wellFormed.victim?_eq_none_iff.trans h.residents_eq_nil_iff

theorem tracks_cleared (p : Policy) : p.cleared.Tracks ∅ := by
  refine ⟨wellFormed_cleared p, fun k => ?_⟩
  simp

theorem Tracks.apply (h : p.Tracks keys) (hrule : p.rule ≠ .none) (hcall : call.Allowed p.rule keys) :
    (p.apply call).Tracks (call.trackedAfter keys (p.given? call)) := by
  cases call with
  | inserted k => exact h.inserted hrule hcall
  | used k => exact h.used hcall
  | removed k => exact h.removed k
  | victim draw =>
    rw [Policy.apply, given?]
    cases hvictim : p.victim? draw with
    | none => exact h
    | some taken => exact (h.victim? hvictim).2
  | cleared => exact tracks_cleared p

theorem Tracks.applyAll {calls : List Call} (h : p.Tracks keys) (hrule : p.rule ≠ .none)
    (hcalls : Call.AllowedAll p.rule keys (p.trace calls)) :
    (p.applyAll calls).Tracks (Call.trackedAfterAll keys (p.trace calls)) := by
  induction calls generalizing p keys with
  | nil => exact h
  | cons call calls ih =>
    obtain ⟨hcall, hcalls⟩ := hcalls
    rw [← p.rule_apply call] at hcalls
    refine ih (h.apply hrule hcall) ?_ hcalls
    rwa [rule_apply]

/-- As many requests as there are tracked keys give each of them once, and one more request gives none. -/
theorem Tracks.exists_given (h : p.Tracks keys) {draws : List Nat} (hdraws : draws.length = keys.card + 1) :
    ∃ gone : List Key, gone.Nodup ∧ gone.toFinset = keys ∧
      (p.trace (draws.map .victim)).map Prod.snd = gone.map some ++ [.none] := by
  induction draws generalizing p keys with
  | nil => cases hdraws
  | cons draw draws ih =>
    rw [List.length_cons, Nat.add_right_cancel_iff] at hdraws
    rw [List.map_cons, trace, given?, Policy.apply]
    cases hvictim : p.victim? draw with
    | none =>
      have hkeys := h.victim?_eq_none_iff.mp hvictim
      rw [hkeys, Finset.card_empty, List.length_eq_zero_iff] at hdraws
      rw [hdraws, hkeys]
      exact ⟨[], List.nodup_nil, rfl, rfl⟩
    | some taken =>
      obtain ⟨k, rest⟩ := taken
      obtain ⟨hk, hrest⟩ := h.victim? hvictim
      rw [← Finset.card_erase_add_one hk] at hdraws
      obtain ⟨gone, hnodup, hgone, hgiven⟩ := ih hrest hdraws
      refine ⟨k :: gone, ?_, ?_, ?_⟩
      · rw [List.nodup_cons, ← List.mem_toFinset, hgone]
        exact ⟨Finset.notMem_erase k keys, hnodup⟩
      · rw [List.toFinset_cons, hgone, Finset.insert_erase hk]
      · exact congrArg (some k :: ·) hgiven

/-- By every rule but NONE, for every capacity and after every run of allowed calls, the keys of the
bookkeeping are the tracked keys, each once. A request gives one of these, or none if and only if there is none,
and as many requests as there are tracked keys give each of them once and one more gives none. No call looks up
what is not there, and the loops that forget ghosts end. -/
theorem tracked_of_run (hash : RowHash) (capacity : Nat) {rule : EvictionRule} (hrule : rule ≠ .none)
    (calls : List Call) (hcalls : Call.AllowedAll rule ∅ ((ofRule hash capacity rule).trace calls)) :
    let start := ofRule hash capacity rule
    let p := start.applyAll calls
    let keys := Call.trackedAfterAll ∅ (start.trace calls)
    (p.residents.Nodup ∧ ∀ k, k ∈ p.residents ↔ k ∈ keys) ∧
    (∀ draw, (p.victim? draw = .none ↔ keys = ∅) ∧
      ∀ k rest, p.victim? draw = some (k, rest) → k ∈ keys) ∧
    (∀ draws : List Nat, draws.length = keys.card + 1 → ∃ gone : List Key, gone.Nodup ∧
      gone.toFinset = keys ∧ (p.trace (draws.map .victim)).map Prod.snd = gone.map some ++ [.none]) ∧
    (∀ call, p.Supports call) ∧
    (∀ a b : Adaptive, a.Trims b ↔ b = a.trimGhosts) ∧
    ∀ (r s : Recency) (n : Nat), r.Shrinks n s ↔ s = r.shrinkTo n := by
  intro start p keys
  have h : p.Tracks keys := by
    refine (tracks_ofRule hash capacity rule).applyAll ?_ ?_
    · rwa [rule_ofRule]
    · rwa [rule_ofRule]
  have hblank : p.blank = start := by
    rw [blank_applyAll, blank_ofRule]
  refine ⟨⟨h.wellFormed.nodup_residents, h.mem_iff⟩, fun draw => ⟨h.victim?_eq_none_iff, ?_⟩, ?_, ?_, ?_, ?_⟩
  · intro k rest hvictim
    exact (h.victim? hvictim).1
  · intro draws hdraws
    exact h.exists_given hdraws
  · exact h.wellFormed.supports hblank
  · exact fun a b => Adaptive.trims_iff
  · exact fun r s n => Recency.shrinks_iff

theorem tracked_of_run_no_capacity :
    let start := ofRule (fun _ _ => 0) 0 .arc
    let calls : List Call := [.used "x", .inserted "a", .inserted "b", .used "b", .removed "x", .victim 0,
      .inserted "a", .removed "b", .used "b", .inserted "c"]
    EvictionRule.arc ≠ .none ∧ Call.AllowedAll .arc ∅ (start.trace calls) ∧
      ∃ gone : List Key, gone.Nodup ∧ gone.toFinset = {"a", "c"} ∧
        ((start.applyAll calls).trace [.victim 0, .victim 0, .victim 0]).map Prod.snd =
          gone.map some ++ [.none] := by
  intro start calls
  have hrule : EvictionRule.arc ≠ .none := nofun
  have htrace : start.trace calls = calls.zip
      [.none, .none, .none, .none, .none, some "a", .none, .none, .none, .none] := by
    cbv
  have hcalls : Call.AllowedAll .arc ∅ (start.trace calls) := by
    rw [htrace]
    decide
  have hkeys : Call.trackedAfterAll ∅ (start.trace calls) = {"a", "c"} := by
    rw [htrace]
    decide
  obtain ⟨-, -, hdrain, -⟩ := tracked_of_run (fun _ _ => 0) 0 hrule calls hcalls
  refine ⟨hrule, hcalls, ?_⟩
  rw [← hkeys]
  refine hdrain [0, 0, 0] ?_
  rw [hkeys]
  rfl

end Policy

end CacheServer
