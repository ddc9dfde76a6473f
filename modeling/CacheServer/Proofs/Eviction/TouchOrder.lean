import CacheServer.Proofs.Eviction.Recency

/-!
The order of touches under every sequence of operations. The clock and the two maps do what a plain list without
repetitions does, from which keys are deleted by search: they give the same answers and hold the same keys in the
same order.
-/

namespace CacheServer.Recency

open Std

variable {r : Recency} {k : Key}

/-- What may be done to keys in the order of their latest touch. -/
inductive Operation where
  | touch (key : Key)
  | remove (key : Key)
  | takeOldest
  | takeNewest
  | clear

/-- What is answered to an operation. -/
inductive Answer where
  | done
  /-- Whether the key was there. -/
  | removed (found : Bool)
  /-- The key that was taken, if there was one. -/
  | taken (key : Option Key)
deriving DecidableEq

/-- Whether the operation moves the clock. -/
def Operation.isTouch : Operation → Bool
  | .touch _ => true
  | _ => false

/-- The answer to an operation, and the keys afterwards. -/
def perform (r : Recency) : Operation → Answer × Recency
  | .touch k => (.done, r.touch k)
  | .remove k => (.removed (r.remove k).1, (r.remove k).2)
  | .takeOldest => (.taken (r.takeOldest?.map Prod.fst), (r.takeOldest?.map Prod.snd).getD r)
  | .takeNewest => (.taken (r.takeNewest?.map Prod.fst), (r.takeNewest?.map Prod.snd).getD r)
  | .clear => (.done, r.clear)

/-- The answers to operations one after another, and the keys after the last of them. -/
def performAll (r : Recency) : List Operation → List Answer × Recency
  | [] => ([], r)
  | op :: ops =>
    let (answer, r) := r.perform op
    let (answers, r) := r.performAll ops
    (answer :: answers, r)

/-- What an operation does to a list of keys, the least recently touched first. -/
def Operation.performOn (keys : List Key) : Operation → Answer × List Key
  | .touch k => (.done, keys.erase k ++ [k])
  | .remove k => (.removed (decide (k ∈ keys)), keys.erase k)
  | .takeOldest => (.taken keys.head?, keys.tail)
  | .takeNewest => (.taken keys.getLast?, keys.dropLast)
  | .clear => (.done, [])

def Operation.performAllOn (keys : List Key) : List Operation → List Answer × List Key
  | [] => ([], keys)
  | op :: ops =>
    let (answer, keys) := op.performOn keys
    let (answers, keys) := performAllOn keys ops
    (answer :: answers, keys)

theorem WellFormed.performOn_takeOldest (h : r.WellFormed) :
    (r.perform .takeOldest).2.WellFormed ∧
      Operation.takeOldest.performOn r.toList =
        ((r.perform .takeOldest).1, (r.perform .takeOldest).2.toList) := by
  rw [perform, Operation.performOn]
  cases htake : r.takeOldest? with
  | none => simp [h, takeOldest?_eq_none_iff.mp htake]
  | some taken =>
    obtain ⟨hrest, hlist⟩ := h.takeOldest? htake
    simp [hrest, hlist]

theorem WellFormed.performOn_takeNewest (h : r.WellFormed) :
    (r.perform .takeNewest).2.WellFormed ∧
      Operation.takeNewest.performOn r.toList =
        ((r.perform .takeNewest).1, (r.perform .takeNewest).2.toList) := by
  rw [perform, Operation.performOn]
  cases htake : r.takeNewest? with
  | none => simp [h, takeNewest?_eq_none_iff.mp htake]
  | some taken =>
    obtain ⟨hrest, hlist⟩ := h.takeNewest? htake
    simp [hrest, hlist]

/-- An operation answers what it answers on the list, and changes the keys as it changes the list. -/
theorem WellFormed.performOn_toList (h : r.WellFormed) (op : Operation) :
    (r.perform op).2.WellFormed ∧
      op.performOn r.toList = ((r.perform op).1, (r.perform op).2.toList) := by
  cases op with
  | touch k =>
    refine ⟨h.touch k, ?_⟩
    rw [perform, Operation.performOn, h.toList_touch]
  | remove k =>
    rw [perform, Operation.performOn, remove_eq, h.contains_eq_decide, h.toList_erase]
    exact ⟨h.erase k, rfl⟩
  | takeOldest => exact h.performOn_takeOldest
  | takeNewest => exact h.performOn_takeNewest
  | clear =>
    refine ⟨wellFormed_clear r, ?_⟩
    rw [perform, Operation.performOn, toList_clear]

theorem WellFormed.performAllOn_toList (h : r.WellFormed) (ops : List Operation) :
    (r.performAll ops).2.WellFormed ∧
      Operation.performAllOn r.toList ops = ((r.performAll ops).1, (r.performAll ops).2.toList) := by
  induction ops generalizing r with
  | nil => exact ⟨h, rfl⟩
  | cons op ops ih =>
    obtain ⟨hstep, hanswer⟩ := h.performOn_toList op
    obtain ⟨hrun, hanswers⟩ := ih hstep
    refine ⟨hrun, ?_⟩
    rw [Operation.performAllOn, hanswer]
    dsimp only
    rw [hanswers]
    rfl

theorem clock_takeAt? {stamp : Nat} {rest : Recency} (htake : r.takeAt? stamp = some (k, rest)) :
    rest.clock = r.clock := by
  obtain ⟨-, rfl⟩ := takeAt?_eq_some_iff.mp htake
  rfl

/-- Nothing but a touch moves the clock, and nothing sets it back. -/
theorem clock_perform (r : Recency) (op : Operation) :
    (r.perform op).2.clock = r.clock + if op.isTouch then 1 else 0 := by
  cases op with
  | touch k => rfl
  | remove k => exact clock_erase r k
  | takeOldest =>
    rw [perform]
    cases htake : r.takeOldest? with
    | none => rfl
    | some taken =>
      obtain ⟨stamp, -, htake⟩ := Option.bind_eq_some_iff.mp htake
      exact clock_takeAt? htake
  | takeNewest =>
    rw [perform]
    cases htake : r.takeNewest? with
    | none => rfl
    | some taken =>
      obtain ⟨stamp, -, htake⟩ := Option.bind_eq_some_iff.mp htake
      exact clock_takeAt? htake
  | clear => rfl

theorem clock_performAll (r : Recency) (ops : List Operation) :
    (r.performAll ops).2.clock = r.clock + ops.countP Operation.isTouch := by
  induction ops generalizing r with
  | nil => rfl
  | cons op ops ih =>
    rw [performAll]
    dsimp only
    rw [ih, clock_perform, List.countP_cons]
    omega

/-- After every sequence of operations, two maps lead back and forth between the keys and their stamps, and every
stamp is below the clock, which has counted the touches. The keys by increasing stamp are the list, without
repetitions, that the same operations make of an empty one, and the answers have been the same. Look-ups answer as
for that list. -/
theorem answers_as_list (ops : List Operation) :
    let (answers, r) := empty.performAll ops
    Operation.performAllOn [] ops = (answers, r.toList) ∧
      r.toList.Nodup ∧
      r.order.toList.Pairwise (fun entry entry' => entry.1 < entry'.1) ∧
      Inverse r.order r.stamps ∧
      (∀ (k : Key) (stamp : Nat), r.stamps[k]? = some stamp → stamp < r.clock) ∧
      r.clock = ops.countP Operation.isTouch ∧
      (∀ k, r.contains k = decide (k ∈ r.toList)) ∧
      r.size = r.toList.length ∧
      r.isEmpty = r.toList.isEmpty ∧
      r.oldest? = r.toList.head? := by
  obtain ⟨h, hanswers⟩ := wellFormed_empty.performAllOn_toList ops
  have hclock := clock_performAll empty ops
  rw [toList_empty] at hanswers
  generalize empty.performAll ops = run at h hanswers hclock
  obtain ⟨answers, r⟩ := run
  refine ⟨hanswers, h.nodup_toList, ?_, h.inverse, ?_, ?_, h.contains_eq_decide, (length_toList r).symm, ?_,
    oldest?_eq_head? r⟩
  · refine r.order.ordered_keys_toList.imp fun hlt => ?_
    exact Nat.compare_eq_lt.mp hlt
  · intro k stamp hstamp
    exact h.lt_clock stamp k ((h.inverse k stamp).mp hstamp)
  · rw [hclock]
    exact Nat.zero_add _
  · rw [Bool.eq_iff_iff, isEmpty_iff, List.isEmpty_iff]

end CacheServer.Recency
