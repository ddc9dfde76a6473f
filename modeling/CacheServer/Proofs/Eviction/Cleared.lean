import CacheServer.Proofs.Eviction.Alike
import CacheServer.Proofs.Eviction.Sketch

/-!
What is left of a bookkeeping when all keys are dropped at once: the rule and its parameters. A run of calls
changes neither, so a cleared bookkeeping is like the one from which the run started.
-/

namespace CacheServer

namespace Adaptive

variable {a rest : Adaptive} {k : Key}

theorem capacity_add (a : Adaptive) (k : Key) : (a.add k).capacity = a.capacity := by
  unfold add
  split
  · rfl
  · split <;> rfl

theorem capacity_use (a : Adaptive) (k : Key) : (a.use k).capacity = a.capacity := by
  unfold use
  split
  · rfl
  · split <;> rfl

theorem capacity_of_take? (htake : a.take? = some (k, rest)) : rest.capacity = a.capacity := by
  obtain ⟨recent, -, -, rfl⟩ | ⟨frequent, -, -, rfl⟩ := take?_cases htake
  · exact capacity_trimGhosts _
  · exact capacity_trimGhosts _

end Adaptive

namespace TwoQueues

variable {q rest : TwoQueues} {k : Key}

/-- No keys, with room for as many. -/
def blank (q : TwoQueues) : TwoQueues :=
  ⟨q.freshCapacity, q.ghostCapacity, .empty, .empty, .empty⟩

theorem blank_add (q : TwoQueues) (k : Key) : (q.add k).blank = q.blank := by
  unfold add
  split <;> rfl

theorem blank_use (q : TwoQueues) (k : Key) : (q.use k).blank = q.blank := by
  unfold use
  split <;> rfl

theorem blank_of_take? (htake : q.take? = some (k, rest)) : rest.blank = q.blank := by
  obtain ⟨fresh, -, -, rfl⟩ | ⟨hot, -, -, rfl⟩ := take?_cases htake <;> rfl

end TwoQueues

namespace Admission

variable {a rest : Admission} {k : Key}

/-- No keys and no uses, with room for as many keys in the window. -/
def blank (a : Admission) : Admission :=
  ⟨a.windowCapacity, .empty, .empty, a.sketch.clear⟩

theorem blank_overflow (a : Admission) : a.overflow.blank = a.blank := by
  unfold overflow
  split
  · split <;> rfl
  · rfl

theorem blank_add (a : Admission) (k : Key) : (a.add k).blank = a.blank := by
  rw [add, blank_overflow]
  simp [blank]

theorem blank_use (a : Admission) (k : Key) : (a.use k).blank = a.blank := by
  unfold use
  dsimp only
  split
  · simp [blank]
  · split <;> simp [blank]

theorem blank_of_take? (htake : a.take? = some (k, rest)) : rest.blank = a.blank := by
  unfold take? at htake
  split at htake
  case h_1 =>
    dsimp only at htake
    split at htake
    all_goals
      obtain ⟨rfl, rfl⟩ := Prod.mk.inj (Option.some.inj htake)
      rfl
  case h_2 =>
    obtain ⟨⟨found, window⟩, -, heq⟩ := Option.map_eq_some_iff.mp htake
    obtain ⟨rfl, rfl⟩ := Prod.mk.inj heq
    rfl
  case h_3 =>
    obtain ⟨⟨found, main⟩, -, heq⟩ := Option.map_eq_some_iff.mp htake
    obtain ⟨rfl, rfl⟩ := Prod.mk.inj heq
    rfl

end Admission

namespace Policy

variable {p rest : Policy} {k : Key}

/-- The bookkeeping of the same rule with the same parameters before there are keys. -/
def blank : Policy → Policy
  | none => none
  | random _ => random .empty
  | lru _ => lru .empty
  | mru _ => mru .empty
  | fifo _ => fifo .empty
  | lfu _ => lfu .empty
  | clock _ => clock .empty
  | arc a => arc (.ofCapacity a.capacity)
  | twoQueues q => twoQueues q.blank
  | tinyLfu a => tinyLfu a.blank

theorem blank_ofRule (hash : RowHash) (capacity : Nat) (rule : EvictionRule) :
    (ofRule hash capacity rule).blank = ofRule hash capacity rule := by
  cases rule with
  | tinyLfu => simp [ofRule, blank, Admission.ofCapacity, Admission.blank]
  | _ => rfl

/-- Only the clocks tell a cleared bookkeeping from one that has never had keys. -/
theorem alike_blank (p : Policy) : p.cleared.Alike p.blank := by
  cases p with
  | none => exact .same none
  | random p => exact .same (random .empty)
  | lru r => exact .lru (.empty r)
  | mru r => exact .mru (.empty r)
  | fifo r => exact .fifo (.empty r)
  | lfu r => exact .lfu (.empty r)
  | clock r => exact .same (clock .empty)
  | arc a => exact .arc ⟨rfl, rfl, .empty _, .empty _, .empty _, .empty _⟩
  | twoQueues q => exact .twoQueues ⟨rfl, rfl, .empty _, .empty _, .empty _⟩
  | tinyLfu a => exact .tinyLfu ⟨rfl, rfl, .empty _, .empty _⟩

theorem blank_inserted (p : Policy) (k : Key) : (p.inserted k).blank = p.blank := by
  cases p with
  | arc a => exact congrArg (arc ∘ .ofCapacity) (a.capacity_add k)
  | twoQueues q => exact congrArg twoQueues (q.blank_add k)
  | tinyLfu a => exact congrArg tinyLfu (a.blank_add k)
  | _ => rfl

theorem blank_used (p : Policy) (k : Key) : (p.used k).blank = p.blank := by
  cases p with
  | arc a => exact congrArg (arc ∘ .ofCapacity) (a.capacity_use k)
  | twoQueues q => exact congrArg twoQueues (q.blank_use k)
  | tinyLfu a => exact congrArg tinyLfu (a.blank_use k)
  | _ => rfl

theorem blank_removed (p : Policy) (k : Key) : (p.removed k).blank = p.blank := by
  cases p <;> rfl

theorem blank_of_victim? {draw : Nat} (hvictim : p.victim? draw = some (k, rest)) :
    rest.blank = p.blank := by
  cases p with
  | none => cases hvictim
  | arc a =>
    obtain ⟨keys, htake, rfl⟩ := exists_taken hvictim
    exact congrArg (arc ∘ .ofCapacity) (Adaptive.capacity_of_take? htake)
  | twoQueues q =>
    obtain ⟨keys, htake, rfl⟩ := exists_taken hvictim
    exact congrArg twoQueues (TwoQueues.blank_of_take? htake)
  | tinyLfu a =>
    obtain ⟨keys, htake, rfl⟩ := exists_taken hvictim
    exact congrArg tinyLfu (Admission.blank_of_take? htake)
  | _ =>
    obtain ⟨-, -, rfl⟩ := exists_taken hvictim
    rfl

theorem blank_cleared (p : Policy) : p.cleared.blank = p.blank := by
  cases p with
  | tinyLfu a => simp [cleared, blank, Admission.clear, Admission.blank]
  | _ => rfl

theorem blank_apply (p : Policy) (call : Call) : (p.apply call).blank = p.blank := by
  cases call with
  | inserted k => exact p.blank_inserted k
  | used k => exact p.blank_used k
  | removed k => exact p.blank_removed k
  | victim draw =>
    rw [apply]
    cases hvictim : p.victim? draw with
    | none => rfl
    | some taken => exact blank_of_victim? hvictim
  | cleared => exact p.blank_cleared

/-- No run of calls changes the rule or its parameters. -/
theorem blank_applyAll (p : Policy) (calls : List Call) : (p.applyAll calls).blank = p.blank := by
  induction calls generalizing p with
  | nil => rfl
  | cons call calls ih => exact (ih (p.apply call)).trans (p.blank_apply call)

end Policy

end CacheServer
