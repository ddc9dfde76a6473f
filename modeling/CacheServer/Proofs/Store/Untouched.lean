import CacheServer.Eviction.SipHash
import CacheServer.Proofs.Reply.Unit
import CacheServer.Proofs.Store.CrossReference

/-!
Requests that leave a store as it was: those that are refused, and those that find nothing to do. Of the store
nothing at all changes then, neither hits nor the bookkeeping of the rule.
-/

namespace CacheServer

namespace Store

open Std

variable {s : Store} {line : String} {command : Command}

/-- A command that finds nothing to do in a store: there is nothing to look up or to remove. -/
def Idle (s : Store) : Command → Prop
  | .ping => True
  | .get k => (s.get k).1 = none
  | .getBy i x => (s.getBy i x).1 = none
  | .set _ _ _ _ => False
  | .del k => k ∉ s.entries
  | .purge stem => ∀ k ∈ s.entries, beginsWith stem k = false
  | .reset => False

theorem snd_get_of_none {k : Key} (h : (s.get k).1 = none) : (s.get k).2 = s := by
  rw [get_fst, Option.map_eq_none_iff] at h
  rw [get, h]

theorem snd_getBy_of_none {i : Index} {x : Key} (h : (s.getBy i x).1 = none) : (s.getBy i x).2 = s := by
  cases hx : (s.index i)[x]? with
  | none => rw [getBy, hx]
  | some k =>
    rw [getBy_eq_get hx] at h ⊢
    exact snd_get_of_none h

/-- In a well-formed store no index entry is left over for a key that is not there, so there is nothing to be
dropped either. -/
theorem WellFormed.run_of_idle (hs : s.WellFormed) (hidle : s.Idle command) (draw : Nat) :
    (s.run draw command).2 = s := by
  cases command with
  | ping => rfl
  | get k => exact snd_get_of_none hidle
  | getBy i x => exact snd_getBy_of_none hidle
  | set k v one two => cases hidle
  | del k => exact congrArg Prod.snd (hs.remove_of_not_mem hidle)
  | purge stem =>
    have hnone : s.keys.filter (beginsWith stem) = [] := by
      rw [List.filter_eq_nil_iff]
      intro k hk
      rw [hidle k (mem_keys.mp hk)]
      exact Bool.false_ne_true
    rw [run, hnone]
    rfl
  | reset => cases hidle

theorem ofFound_eq_nil_iff {found : Option String} : Reply.ofFound found = .nil ↔ found = none := by
  cases found <;> simp [Reply.ofFound]

/-- Only a look-up that finds nothing is answered so. -/
theorem idle_of_nil {draw : Nat} (h : (s.run draw command).1 = .nil) : s.Idle command := by
  cases command with
  | get k => exact ofFound_eq_nil_iff.mp h
  | getBy i x => exact ofFound_eq_nil_iff.mp h
  | set k v one two =>
    have hput : s.put draw k v [one, two] = .ok _ := put_eq_ok (Nat.le_refl 2)
    rw [run, hput] at h
    cases h
  | purge stem =>
    simp only [run, Reply.ofPurge] at h
    split at h <;> cases h
  | _ => cases h

/-- A command that has been read does not fail: a `SET` has no more secondary keys than there are indexes. -/
theorem run_ne_error (s : Store) (draw : Nat) (command : Command) (text : String) :
    (s.run draw command).1 ≠ .error text := by
  obtain ⟨answer, hlines, -⟩ := lines_run s draw command
  intro h
  rw [h] at hlines
  cases hlines

/-- The answer is an error if and only if the line is no command. -/
theorem execute_eq_error_iff (s : Store) (draw : Nat) (line : String) :
    (∃ text, (s.execute draw line).1 = .error text) ↔ ∃ e, Command.ofLine line = .error e := by
  constructor
  · rintro ⟨text, htext⟩
    cases hline : Command.ofLine line with
    | error e => exact ⟨e, rfl⟩
    | ok command =>
      rw [execute_of_ok hline] at htext
      exact absurd htext (run_ne_error s draw command text)
  · rintro ⟨e, he⟩
    exact ⟨e.message, congrArg Prod.fst (execute_of_error he s draw)⟩

theorem WellFormed.execute_of_nil (hs : s.WellFormed) {draw : Nat} (h : (s.execute draw line).1 = .nil) :
    (s.execute draw line).2 = s := by
  cases hline : Command.ofLine line with
  | error e => rw [execute_of_error hline]
  | ok command =>
    rw [execute_of_ok hline] at h ⊢
    exact hs.run_of_idle (idle_of_nil h) draw

theorem put_of_too_many {secondary : List (Option Key)} (h : maxSecondaryIndexes < secondary.length) (s : Store)
    (draw : Nat) (k : Key) (v : String) :
    s.put draw k v secondary = .error (.tooManySecondaryIndexes secondary.length) := by
  rw [put, if_pos h]

/-- In every store that a run reaches, a line is answered with an error if and only if it is no command, and the
answer is then the message of its error. Such a line leaves the whole store as it was, and so does a look-up
that is answered with nothing found, a command that finds nothing to do, and a put with more secondary keys than
there are indexes. -/
theorem untouched_of_run (hash : RowHash) {rule : EvictionRule} {capacity : Nat}
    (hcapacity : rule = .none ∨ 1 ≤ capacity) (requests : List Request) :
    ∃ s₀, create hash rule capacity = .ok s₀ ∧
      let s := s₀.serveAll requests
      (∀ draw line, ((∃ text, (s.execute draw line).1 = .error text) ↔ ∃ e, Command.ofLine line = .error e) ∧
        (∀ e, Command.ofLine line = .error e → s.execute draw line = (.error e.message, s)) ∧
        ((s.execute draw line).1 = .nil → (s.execute draw line).2 = s) ∧
        ∀ command, Command.ofLine line = .ok command → s.Idle command → (s.execute draw line).2 = s) ∧
      ∀ draw k v secondary, maxSecondaryIndexes < secondary.length →
        s.put draw k v secondary = .error (.tooManySecondaryIndexes secondary.length) ∧
          s.apply (.put draw k v secondary) = s := by
  refine ⟨_, create_eq_ok_iff.mpr ⟨hcapacity, rfl⟩, ?_⟩
  intro s
  have hs : s.WellFormed := (wellFormed_fresh hash hcapacity).serveAll requests
  refine ⟨fun draw line => ⟨execute_eq_error_iff s draw line, ?_, hs.execute_of_nil, ?_⟩, ?_⟩
  · intro e he
    exact execute_of_error he s draw
  · intro command hline hidle
    rw [execute_of_ok hline]
    exact hs.run_of_idle hidle draw
  · intro draw k v secondary hmany
    have hput := put_of_too_many hmany s draw k v
    refine ⟨hput, ?_⟩
    rw [apply, hput]

theorem untouched_of_run_evicted :
    let requests : List Request := [.operation (.put 0 "a" "1" [some "x"]), .operation (.put 0 "b" "2" [])]
    (EvictionRule.lru = .none ∨ 1 ≤ 1) ∧
      ∃ s₀, create SipHash.rowHash .lru 1 = .ok s₀ ∧
        let s := s₀.serveAll requests
        s.execute 0 "SET b" = (.error (CommandError.wrongNumberOfArguments .set).message, s) ∧
          (s.execute 0 "GETIDX1 x").1 = .nil ∧ (s.execute 0 "GETIDX1 x").2 = s ∧
          (s.execute 0 "DEL a").2 = s ∧ (s.execute 0 "PURGE a").2 = s ∧
          s.apply (.put 0 "b" "3" [none, none, none]) = s := by
  intro requests
  have hcapacity : EvictionRule.lru = .none ∨ 1 ≤ 1 := .inr (by decide)
  obtain ⟨s₀, hcreate, hlines, hput⟩ := untouched_of_run SipHash.rowHash hcapacity requests
  refine ⟨hcapacity, s₀, hcreate, ?_⟩
  obtain ⟨-, rfl⟩ := create_eq_ok_iff.mp hcreate
  intro s
  have hkeys : s.keys = ["b"] := by cbv
  have hfound : (s.getBy .one "x").1 = none := by cbv
  have hnil : (s.execute 0 "GETIDX1 x").1 = .nil := congrArg Reply.ofFound hfound
  have hidle : s.Idle (.del "a") := by
    rw [Idle, ← mem_keys, hkeys]
    decide
  have hnone : s.Idle (.purge "a") := by
    intro k hk
    rw [← mem_keys, hkeys, List.mem_singleton] at hk
    rw [hk]
    decide
  obtain ⟨-, hset, -, -⟩ := hlines 0 "SET b"
  obtain ⟨-, -, hget, -⟩ := hlines 0 "GETIDX1 x"
  obtain ⟨-, -, -, hdel⟩ := hlines 0 "DEL a"
  obtain ⟨-, -, -, hpurge⟩ := hlines 0 "PURGE a"
  exact ⟨hset _ rfl, hnil, hget hnil, hdel (.del "a") rfl hidle, hpurge (.purge "a") rfl hnone,
    (hput 0 "b" "3" [none, none, none] (by decide)).2⟩

end Store

end CacheServer
