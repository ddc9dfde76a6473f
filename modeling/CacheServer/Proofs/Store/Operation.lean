import CacheServer.Execution

/-!
Runs of a store. A line that a client sends comes down to operations of the store, so whatever holds
after all runs of operations holds after all runs of lines.
-/

namespace CacheServer

/-- What a store can be asked to do. A put carries the choice that the random rule makes at it. -/
inductive Operation where
  | put (draw : Nat) (key : Key) (value : String) (secondary : List (Option Key))
  | get (key : Key)
  | getBy (index : Index) (secondary : Key)
  | remove (key : Key)
  | clear

/-- An operation, or a line with the choice that the random rule makes at it. -/
inductive Request where
  | operation (op : Operation)
  | line (draw : Nat) (text : String)

namespace Store

/-- The store after an operation. A put that fails changes nothing. -/
def apply (s : Store) : Operation → Store
  | .put draw k v secondary =>
    match s.put draw k v secondary with
    | .ok t => t
    | .error _ => s
  | .get k => (s.get k).2
  | .getBy i secondary => (s.getBy i secondary).2
  | .remove k => (s.remove k).2
  | .clear => s.clear

def applyAll (s : Store) (ops : List Operation) : Store :=
  ops.foldl apply s

/-- The keys that go because another one is put. -/
def drivenOut (s : Store) (op : Operation) : List Key :=
  match op with
  | .put _ _ _ _ => s.keys.filter fun k => !(s.apply op).containsKey k
  | _ => []

def serve (s : Store) : Request → Store
  | .operation op => s.apply op
  | .line draw text => (s.execute draw text).2

def serveAll (s : Store) (requests : List Request) : Store :=
  requests.foldl serve s

@[simp] theorem applyAll_nil (s : Store) : s.applyAll [] = s := rfl

@[simp] theorem applyAll_cons (s : Store) (op : Operation) (ops : List Operation) :
    s.applyAll (op :: ops) = (s.apply op).applyAll ops := rfl

theorem applyAll_append (s : Store) (ops ops' : List Operation) :
    s.applyAll (ops ++ ops') = (s.applyAll ops).applyAll ops' :=
  List.foldl_append

theorem removeAll_eq_applyAll (s : Store) (ks : List Key) :
    s.removeAll ks = s.applyAll (ks.map .remove) := by
  rw [removeAll, applyAll, List.foldl_map]
  rfl

/-- The operations that a command comes down to. -/
def operations (s : Store) (draw : Nat) : Command → List Operation
  | .ping => []
  | .get k => [.get k]
  | .getBy i secondary => [.getBy i secondary]
  | .set k v one two => [.put draw k v [one, two]]
  | .del k => [.remove k]
  | .purge stem => (s.keys.filter (beginsWith stem)).map .remove
  | .reset => [.clear]

theorem run_eq_applyAll (s : Store) (draw : Nat) (command : Command) :
    (s.run draw command).2 = s.applyAll (s.operations draw command) := by
  cases command with
  | set k v one two =>
    simp only [run, operations, applyAll_cons, applyAll_nil, apply]
    cases s.put draw k v [one, two] <;> rfl
  | purge stem => exact removeAll_eq_applyAll s _
  | _ => rfl

theorem execute_of_ok {line : String} {command : Command} (hline : Command.ofLine line = .ok command)
    (s : Store) (draw : Nat) : s.execute draw line = s.run draw command := by
  rw [execute, hline]

theorem execute_of_error {line : String} {e : CommandError} (hline : Command.ofLine line = .error e)
    (s : Store) (draw : Nat) : s.execute draw line = (.error e.message, s) := by
  rw [execute, hline]

/-- The operations that a request comes down to. A line that is no command comes down to none. -/
def operationsOf (s : Store) : Request → List Operation
  | .operation op => [op]
  | .line draw text =>
    match Command.ofLine text with
    | .ok command => s.operations draw command
    | .error _ => []

theorem serve_eq_applyAll (s : Store) (request : Request) :
    s.serve request = s.applyAll (s.operationsOf request) := by
  cases request with
  | operation op => rfl
  | line draw text =>
    rw [serve, operationsOf]
    cases hcommand : Command.ofLine text with
    | ok command => rw [execute_of_ok hcommand, run_eq_applyAll]
    | error e => rw [execute_of_error hcommand, applyAll_nil]

theorem exists_operations_of_serve (s : Store) (request : Request) :
    ∃ ops, s.serve request = s.applyAll ops :=
  ⟨s.operationsOf request, s.serve_eq_applyAll request⟩

/-- A run of lines leads to no store that a run of operations does not lead to. -/
theorem exists_operations_of_serveAll (s : Store) (requests : List Request) :
    ∃ ops, s.serveAll requests = s.applyAll ops := by
  induction requests generalizing s with
  | nil => exact ⟨[], rfl⟩
  | cons request requests ih =>
    obtain ⟨first, hfirst⟩ := exists_operations_of_serve s request
    obtain ⟨rest, hrest⟩ := ih (s.serve request)
    refine ⟨first ++ rest, ?_⟩
    rw [applyAll_append, ← hfirst]
    exact hrest

end Store

end CacheServer
