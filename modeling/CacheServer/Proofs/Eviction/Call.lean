import CacheServer.Proofs.Eviction.Policy
import Mathlib.Data.List.Permutation

/-!
Runs of calls of a rule's bookkeeping, whoever makes them and in whatever order. Of the calls that name a
key only an insertion has to be of a key that is not kept. In every such run the ring of the rule CLOCK goes
through the states of the second-chance queue.
-/

namespace CacheServer

/-- A call of the bookkeeping of a rule. The request for a key to go carries the choice that the random rule
makes. -/
inductive Call where
  | inserted (key : Key)
  | used (key : Key)
  | removed (key : Key)
  | victim (draw : Nat)
  | cleared

namespace Policy

/-- The bookkeeping after a call. -/
def apply (p : Policy) : Call → Policy
  | .inserted k => p.inserted k
  | .used k => p.used k
  | .removed k => p.removed k
  | .victim draw => ((p.victim? draw).map Prod.snd).getD p
  | .cleared => p.cleared

def applyAll (p : Policy) (calls : List Call) : Policy :=
  calls.foldl apply p

theorem rule_apply (p : Policy) (call : Call) : (p.apply call).rule = p.rule := by
  cases call with
  | inserted k => exact rule_inserted k p
  | used k => exact rule_used k p
  | removed k => exact rule_removed k p
  | victim draw =>
    rw [apply]
    cases hvictim : p.victim? draw with
    | none => rfl
    | some taken => exact rule_victim? hvictim
  | cleared => exact rule_cleared p

theorem rule_applyAll (p : Policy) (calls : List Call) : (p.applyAll calls).rule = p.rule := by
  induction calls generalizing p with
  | nil => rfl
  | cons call calls ih => exact (ih (p.apply call)).trans (rule_apply p call)

/-- A key that is inserted must not be kept. -/
def Admits (p : Policy) : Call → Prop
  | .inserted k => k ∉ p.residents
  | _ => True

/-- Every call of a run is admitted when it is made. -/
def AdmitsAll : Policy → List Call → Prop
  | _, [] => True
  | p, call :: calls => p.Admits call ∧ (p.apply call).AdmitsAll calls

instance (p : Policy) : (call : Call) → Decidable (p.Admits call)
  | .inserted k => inferInstanceAs (Decidable (k ∉ p.residents))
  | .used _ | .removed _ | .victim _ | .cleared => .isTrue trivial

instance decidableAdmitsAll : (p : Policy) → (calls : List Call) → Decidable (p.AdmitsAll calls)
  | _, [] => .isTrue trivial
  | p, call :: calls =>
    have := decidableAdmitsAll (p.apply call) calls
    inferInstanceAs (Decidable (p.Admits call ∧ (p.apply call).AdmitsAll calls))

end Policy

namespace SecondChance

/-- The queue after a call. -/
def apply (q : SecondChance) : Call → SecondChance
  | .inserted k => q.add k
  | .used k => q.use k
  | .removed k => q.erase k
  | .victim _ => (q.take?.map Prod.snd).getD q
  | .cleared => []

def applyAll (q : SecondChance) (calls : List Call) : SecondChance :=
  calls.foldl apply q

end SecondChance

namespace Policy

variable {r : Ring} {call : Call} {calls : List Call}

/-- A call does to the ring what it does to the queue. -/
theorem exists_clock_apply (h : r.WellFormed) (hcall : (clock r).Admits call) :
    ∃ t, (clock r).apply call = clock t ∧ t.WellFormed ∧ t.queue = r.queue.apply call := by
  cases call with
  | inserted k => exact ⟨r.add k, rfl, h.add hcall, h.queue_add hcall⟩
  | used k => exact ⟨r.use k, rfl, (h.use k).1, h.queue_use k⟩
  | removed k => exact ⟨r.erase k, rfl, h.erase k, h.queue_erase k⟩
  | victim draw =>
    rw [SecondChance.apply, apply, victim?]
    cases htake : r.take? with
    | none =>
      rw [h.take?_eq_none_iff, ← Ring.queue_eq_nil_iff, ← SecondChance.take?_eq_none_iff] at htake
      exact ⟨r, rfl, h, by rw [htake]; rfl⟩
    | some taken =>
      obtain ⟨hrest, hqueue⟩ := h.take? htake
      exact ⟨taken.2, rfl, hrest, by rw [hqueue]; rfl⟩
  | cleared => exact ⟨.empty, rfl, Ring.wellFormed_empty, Ring.queue_empty⟩

theorem exists_clock_applyAll (h : r.WellFormed) (hcalls : (clock r).AdmitsAll calls) :
    ∃ t, (clock r).applyAll calls = clock t ∧ t.WellFormed ∧ t.queue = r.queue.applyAll calls := by
  induction calls generalizing r with
  | nil => exact ⟨r, rfl, h, rfl⟩
  | cons call calls ih =>
    obtain ⟨hcall, hcalls⟩ := hcalls
    obtain ⟨t, happly, ht, hqueue⟩ := exists_clock_apply h hcall
    rw [happly] at hcalls
    obtain ⟨u, happlyAll, hu, hqueueAll⟩ := ih ht hcalls
    refine ⟨u, ?_, hu, ?_⟩
    · rw [← happlyAll, ← happly]
      rfl
    · rw [hqueueAll, hqueue]
      rfl

/-- After every run of calls the ring of the rule CLOCK, read from the hand on, is the second-chance queue
after the same calls, and the key that it gives, with what it leaves, is what the queue gives and leaves. The
hand stands at a key or behind the last one, and the keys, each there once, are those of the marks. To find
the key to go the hand visits keys only: marked ones, of which it meets no more than there are keys, and then
one without a mark, which it takes. -/
theorem clock_gives_second_chance (calls : List Call) (hcalls : (clock .empty).AdmitsAll calls) :
    ∃ r, (clock .empty).applyAll calls = clock r ∧
      r.queue = SecondChance.applyAll [] calls ∧
      r.take?.map (fun taken => (taken.1, taken.2.queue)) = r.queue.take? ∧
      (r.take? = .none ↔ r.queue = []) ∧
      r.hand ≤ r.keys.size ∧ r.keys.toList.Nodup ∧ (∀ k, k ∈ r.marks ↔ k ∈ r.keys.toList) ∧
      (r.keys ≠ #[] →
        (∀ visits t, r.Passes visits t → visits ≤ r.keys.size ∧ t.position < t.keys.size) ∧
        ∃ visits t k, r.Passes visits t ∧ t.keys[t.position]? = some k ∧ t.marks[k]? ≠ some true ∧
          r.take? = some (k, t.give k)) := by
  obtain ⟨r, happly, h, hqueue⟩ := exists_clock_applyAll Ring.wellFormed_empty hcalls
  rw [Ring.queue_empty] at hqueue
  have hnone : r.take? = .none ↔ r.queue = [] := by
    rw [h.take?_eq_none_iff, Ring.queue_eq_nil_iff]
  refine ⟨r, happly, hqueue, ?_, hnone, h.hand_le, h.nodup_keys, h.mem_marks_iff, fun hne => ⟨?_, ?_⟩⟩
  · cases htake : r.take? with
    | none =>
      rw [SecondChance.take?_eq_none_iff.mpr (hnone.mp htake)]
      rfl
    | some taken =>
      rw [(h.take? htake).2]
      rfl
  · intro visits t hpasses
    have hchances := (h.passes hpasses).2
    have hle := r.queue.chances_le
    rw [Ring.length_queue] at hle
    exact ⟨by omega, Ring.position_lt (by rwa [hpasses.keys_eq])⟩
  · have hkeys : r.queue ≠ [] := by
      intro hnil
      have hsize := r.length_queue
      rw [hnil, List.length_nil] at hsize
      exact hne (Array.eq_empty_of_size_eq_zero hsize.symm)
    obtain ⟨taken, htake⟩ := Option.ne_none_iff_exists'.mp (mt SecondChance.take?_eq_none_iff.mp hkeys)
    obtain ⟨visits, t, hpasses, hkey, hclear, hgive, -⟩ := h.exists_take? htake
    exact ⟨visits, t, taken.1, hpasses, hkey, hclear, hgive⟩

theorem clock_gives_second_chance_removed :
    let calls : List Call := [.inserted "a", .inserted "b", .inserted "c", .inserted "d", .victim 0,
      .used "b", .used "d", .victim 0, .inserted "e", .removed "d"]
    (clock .empty).AdmitsAll calls ∧
      ∃ r, (clock .empty).applyAll calls = clock r ∧ r.queue = [("b", false), ("e", true)] ∧
        r.take?.map (fun taken => (taken.1, taken.2.queue)) = some ("b", [("e", true)]) := by
  intro calls
  have hcalls : (clock .empty).AdmitsAll calls := of_decide_eq_true (by cbv)
  obtain ⟨r, happly, hqueue, htake, -⟩ := clock_gives_second_chance calls hcalls
  have hleft : SecondChance.applyAll [] calls = [("b", false), ("e", true)] := by
    cbv
  refine ⟨hcalls, r, happly, hqueue.trans hleft, ?_⟩
  rw [htake, hqueue, hleft, SecondChance.take?]

end Policy

end CacheServer
