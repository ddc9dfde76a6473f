import CacheServer.Eviction.SipHash
import CacheServer.Proofs.Command.Errors
import CacheServer.Proofs.Reply.Line
import CacheServer.Proofs.Store.Run

/-!
Every answer is one line, and the only parts of it that are not fixed words are a count and a text
that a client has stored or sent. The answer is one unit of the protocol unless that text holds a
line break.
-/

namespace CacheServer

open Text

theorem Reply.lines_ofFound (found : Option String) :
    ∃ text, (Reply.ofFound found).lines = [(.text, text)] ∧
      (HasLineBreak text ↔ ∃ v, found = some v ∧ HasLineBreak v) := by
  cases found with
  | none => exact ⟨nilText, rfl, by simp [not_hasLineBreak (s := nilText) (by simp [nilText])]⟩
  | some v => exact ⟨v, rfl, by simp⟩

theorem Reply.lines_ofPurge (stem : Key) (count : Nat) :
    ∃ text, (Reply.ofPurge stem count).lines = [(.text, text)] ∧
      (HasLineBreak text ↔ HasLineBreak stem) := by
  rw [Reply.ofPurge]
  split
  · refine ⟨_, rfl, ?_⟩
    rw [hasLineBreak_append_right (by simp), hasLineBreak_append_left (by simp)]
  · refine ⟨_, rfl, ?_⟩
    rw [hasLineBreak_append_right (by simp), hasLineBreak_append_left]
    simp [not_mem_ofNat]

/-- The word of a line that the wording of its error repeats. -/
def CommandError.repeated : CommandError → Option String
  | .invalidArgument .reset word => some word
  | _ => none

theorem LineError.not_mem_message (e : LineError) : '\r' ∉ e.message.toList := by
  cases e <;> simp [LineError.message]

theorem Verb.not_mem_name (verb : Verb) : '\r' ∉ verb.name.toList := by
  cases verb <;> simp [Verb.name]

theorem Verb.not_mem_usage (verb : Verb) : '\r' ∉ verb.usage.toList := by
  cases verb <;> simp [Verb.usage]

/-- A text that repeats nothing breaks exactly where what it repeats does. -/
theorem hasLineBreak_iff_of_not_mem {text : String} (htext : '\r' ∉ text.toList) :
    HasLineBreak text ↔ ∃ t, none = some t ∧ HasLineBreak t := by
  simp [not_hasLineBreak htext]

/-- The message of an error breaks only where the word does that it repeats. -/
theorem CommandError.hasLineBreak_message {line : String} {e : CommandError}
    (he : Command.ofLine line = .error e) :
    HasLineBreak e.message ↔ ∃ word, e.repeated = some word ∧ HasLineBreak word := by
  cases e with
  | line e => exact hasLineBreak_iff_of_not_mem e.not_mem_message
  | unknownCommand =>
    have htext : '\r' ∉ "Unknown command".toList := by simp
    exact hasLineBreak_iff_of_not_mem htext
  | wrongNumberOfArguments verb =>
    apply hasLineBreak_iff_of_not_mem
    rw [CommandError.message.eq_def]
    simp [verb.not_mem_name, verb.not_mem_usage]
  | invalidArgument verb argument =>
    rw [CommandError.message.eq_def]
    dsimp only
    rw [hasLineBreak_append_left (by simp [verb.not_mem_name])]
    by_cases hverb : verb = .reset
    · simp [hverb, repeated]
    · obtain ⟨name, hname, rfl⟩ := (Command.eq_reset_of_invalidArgument he).resolve_left hverb
      have hnone : (invalidArgument verb (name ++ " expects exactly one value")).repeated = none := by
        cases verb with
        | reset => exact absurd rfl hverb
        | _ => rfl
      rw [hnone]
      apply hasLineBreak_iff_of_not_mem
      rcases List.mem_pair.mp hname with rfl | rfl <;> simp

namespace Store

/-- The text of a client that the answer to a command repeats. -/
def repeated (s : Store) : Command → Option String
  | .get k => (s.get k).1
  | .getBy i secondary => (s.getBy i secondary).1
  | .purge stem => some stem
  | _ => none

theorem lines_run (s : Store) (draw : Nat) (command : Command) :
    ∃ text, (s.run draw command).1.lines = [(.text, text)] ∧
      (HasLineBreak text ↔ ∃ t, s.repeated command = some t ∧ HasLineBreak t) := by
  cases command with
  | ping => exact ⟨"PONG", rfl, hasLineBreak_iff_of_not_mem (by simp)⟩
  | get k => exact Reply.lines_ofFound (s.get k).1
  | getBy i secondary => exact Reply.lines_ofFound (s.getBy i secondary).1
  | set k v one two =>
    refine ⟨"OK", ?_, hasLineBreak_iff_of_not_mem (by simp)⟩
    rw [run, put_eq_ok (by simp [maxSecondaryIndexes])]
    rfl
  | del k => exact ⟨"OK", rfl, hasLineBreak_iff_of_not_mem (by simp)⟩
  | purge stem =>
    obtain ⟨text, hlines, htext⟩ := Reply.lines_ofPurge stem (s.keys.filter (beginsWith stem)).length
    exact ⟨text, hlines, htext.trans (by simp [repeated])⟩
  | reset => exact ⟨"OK: Cache has been reset.", rfl, hasLineBreak_iff_of_not_mem (by simp)⟩

/-- The answer to a line reads back as a reply. It is read to its end if and only if no text that it
repeats, whether found in the store or taken from the line, holds a line break. -/
theorem read_answer_to_end_iff (s : Store) (draw : Nat) (line : String) :
    ∃ r rest, Reply.read (s.execute draw line).1.toBytes.data.toList = (.ok r, rest) ∧
      (rest = [] ↔
        match Command.ofLine line with
        | .ok command => ∀ text, s.repeated command = some text → ¬ HasLineBreak text
        | .error e => ∀ word, e.repeated = some word → ¬ HasLineBreak word) := by
  cases hcommand : Command.ofLine line with
  | ok command =>
    obtain ⟨text, hlines, htext⟩ := lines_run s draw command
    obtain ⟨r, rest, hread, hrest⟩ := Reply.exists_read_of_lines hlines (.inl rfl)
    refine ⟨r, rest, ?_, hrest.trans ?_⟩
    · rw [execute, hcommand]
      exact hread
    · rw [htext]
      simp
  | error e =>
    obtain ⟨r, rest, hread, hrest⟩ :=
      Reply.exists_read_of_lines (r := .error e.message) rfl (.inr rfl)
    refine ⟨r, rest, ?_, hrest.trans ?_⟩
    · rw [execute, hcommand]
      exact hread
    · rw [CommandError.hasLineBreak_message hcommand]
      simp

/-- A value with a line break, stored and asked for, is answered by two lines, of which only the
first is read. -/
theorem read_answer_of_broken_value :
    ∃ s, create SipHash.rowHash .none 0 = .ok s ∧
      Reply.read ((s.execute 0 "SET k \"a\r\nb\"").2.execute 0 "GET k").1.toBytes.data.toList =
        (.ok (.text "a"), [0x62, 0x0D, 0x0A]) := by
  refine ⟨_, rfl, ?_⟩
  decide +kernel

end Store

end CacheServer
