import CacheServer.Framing
import CacheServer.Proofs.Command.Tokens
import CacheServer.Proofs.Reply.Unit
import CacheServer.Proofs.Store.Values

/-!
The bytes of answers. An answer that repeats a text is a little longer than the text. A value that is
found leaves room for that, since the line that stored it was longer by more; the prefix of a purge
and the wrong word of a reset stand in a sentence, which may take more than the line did.
-/

namespace CacheServer

open Text

namespace Reply

theorem size_toBytes_of_lines {r : Reply} {sigil : Sigil} {s : String}
    (hr : r.lines = [(sigil, s)]) : r.toBytes.size = s.utf8ByteSize + 3 := by
  have hsigil : (⟨#[sigil.byte]⟩ : ByteArray).size = 1 := rfl
  have hend : lineEnd.size = 2 := rfl
  rw [toBytes_of_lines hr, lineBytes, ByteArray.size_append, ByteArray.size_append, hsigil, hend,
    String.toUTF8_eq_toByteArray, String.size_toByteArray]
  dsimp only
  omega

theorem size_foldl_lineBytes (bytes : ByteArray) (lines : List (Sigil × String)) :
    bytes.size + 3 * lines.length ≤
      (lines.foldl (fun bytes line => bytes ++ lineBytes line) bytes).size := by
  induction lines generalizing bytes with
  | nil => exact Nat.le_refl _
  | cons line lines ih =>
    have hline : 3 ≤ (lineBytes line).size := by
      have hsigil : (⟨#[line.1.byte]⟩ : ByteArray).size = 1 := rfl
      have hend : lineEnd.size = 2 := rfl
      rw [lineBytes, ByteArray.size_append, ByteArray.size_append, hsigil, hend]
      omega
    have hrest := ih (bytes ++ lineBytes line)
    rw [ByteArray.size_append] at hrest
    rw [List.foldl_cons, List.length_cons]
    omega

/-- No reply is empty. -/
theorem one_le_size_toBytes (r : Reply) : 1 ≤ r.toBytes.size := by
  have hlines : 1 ≤ r.lines.length := by cases r <;> simp [lines]
  have hsize := size_foldl_lineBytes ByteArray.empty r.lines
  rw [toBytes]
  omega

/-- The bytes of the answer to a removal of `count` keys, beside the prefix of the keys. -/
def purgeFrame (count : Nat) : Nat :=
  if count = 0 then 37 else (Decimal.ofNat count).utf8ByteSize + 41

theorem size_ofPurge (stem : Key) (count : Nat) :
    (Reply.ofPurge stem count).toBytes.size = stem.utf8ByteSize + purgeFrame count := by
  have hend : "'.".utf8ByteSize = 2 := rfl
  rw [Reply.ofPurge, purgeFrame]
  split
  case isTrue =>
    have hstart : "OK: No keys matched the prefix '".utf8ByteSize = 32 := rfl
    rw [size_toBytes_of_lines rfl, String.utf8ByteSize_append, String.utf8ByteSize_append, hstart,
      hend]
    omega
  case isFalse =>
    have hstart : "OK: Purged ".utf8ByteSize = 11 := rfl
    have hmiddle : " key(s) matching prefix '".utf8ByteSize = 25 := rfl
    rw [size_toBytes_of_lines rfl, String.utf8ByteSize_append, String.utf8ByteSize_append,
      String.utf8ByteSize_append, String.utf8ByteSize_append, hstart, hmiddle, hend]
    omega

/-- A text that can be sent as an answer. -/
def Sendable (s : String) : Prop :=
  s.utf8ByteSize + 3 ≤ Framing.maxPayload

theorem size_ofFound_le {found : Option String} (hfound : ∀ v, found = some v → Sendable v) :
    (Reply.ofFound found).toBytes.size ≤ Framing.maxPayload := by
  cases found with
  | none => decide
  | some v =>
    rw [Reply.size_toBytes_of_lines rfl]
    exact hfound v rfl

end Reply

theorem LineError.utf8ByteSize_message_le (e : LineError) : e.message.utf8ByteSize ≤ 28 := by
  cases e <;> decide

theorem Verb.utf8ByteSize_name_le (verb : Verb) : verb.name.utf8ByteSize ≤ 7 := by
  cases verb <;> decide

theorem Verb.utf8ByteSize_usage_le (verb : Verb) : verb.usage.utf8ByteSize ≤ 66 := by
  cases verb <;> decide

namespace CommandError

variable {line : String} {e : CommandError}

theorem utf8ByteSize_message_invalidArgument (verb : Verb) (argument : String) :
    (invalidArgument verb argument).message.utf8ByteSize =
      verb.name.utf8ByteSize + argument.utf8ByteSize + 23 := by
  have hstart : "invalid argument for ".utf8ByteSize = 21 := rfl
  have hcolon : ": ".utf8ByteSize = 2 := rfl
  rw [message.eq_def]
  dsimp only
  rw [String.utf8ByteSize_append, String.utf8ByteSize_append, String.utf8ByteSize_append, hstart,
    hcolon]
  omega

theorem utf8ByteSize_message_of_repeated {word : String} (he : e.repeated = some word) :
    e.message.utf8ByteSize = word.utf8ByteSize + 28 := by
  have hname : Verb.reset.name.utf8ByteSize = 5 := rfl
  obtain rfl : e = .invalidArgument .reset word := by
    unfold repeated at he
    split at he
    · cases he
      rfl
    · cases he
  rw [utf8ByteSize_message_invalidArgument, hname]
  omega

/-- A message that repeats nothing is short. -/
theorem utf8ByteSize_message_le (he : Command.ofLine line = .error e) (hnone : e.repeated = none) :
    e.message.utf8ByteSize ≤ 100 := by
  cases e with
  | line e => exact Nat.le_trans e.utf8ByteSize_message_le (by decide)
  | unknownCommand => decide
  | wrongNumberOfArguments verb =>
    have hname := verb.utf8ByteSize_name_le
    have husage := verb.utf8ByteSize_usage_le
    have hexpects : " expects ".utf8ByteSize = 9 := rfl
    rw [message.eq_def]
    dsimp only
    rw [String.utf8ByteSize_append, String.utf8ByteSize_append, hexpects]
    omega
  | invalidArgument verb argument =>
    have hverb : verb ≠ .reset := by
      rintro rfl
      cases hnone
    have hargument : argument.utf8ByteSize = 30 := by
      obtain ⟨name, hname, rfl⟩ := (Command.eq_reset_of_invalidArgument he).resolve_left hverb
      rcases List.mem_pair.mp hname with rfl | rfl <;> decide
    have hname := verb.utf8ByteSize_name_le
    rw [utf8ByteSize_message_invalidArgument, hargument]
    omega

end CommandError

namespace Store

/-- Whether the sentence that repeats a text of the line is no longer than a message may be. -/
def LeavesRoom (s : Store) : Except CommandError Command → Prop
  | .ok (.purge stem) =>
    stem.utf8ByteSize + Reply.purgeFrame (s.keys.filter (beginsWith stem)).length ≤
      Framing.maxPayload
  | .ok _ => True
  | .error e => ∀ word, e.repeated = some word → word.utf8ByteSize + 31 ≤ Framing.maxPayload

variable {s : Store}

theorem AllValues.size_run_le_iff (h : s.AllValues Reply.Sendable) (draw : Nat) (command : Command) :
    (s.run draw command).1.toBytes.size ≤ Framing.maxPayload ↔ s.LeavesRoom (.ok command) := by
  have hok : Reply.ok.toBytes.size ≤ Framing.maxPayload := by decide
  cases command with
  | ping =>
    have hpong : (Reply.text "PONG").toBytes.size ≤ Framing.maxPayload := by decide
    exact iff_of_true hpong trivial
  | get k => exact iff_of_true (Reply.size_ofFound_le fun v => h.get_fst) trivial
  | getBy i x => exact iff_of_true (Reply.size_ofFound_le fun v => h.getBy_fst) trivial
  | set k v one two =>
    refine iff_of_true ?_ trivial
    rw [Store.run, put_eq_ok (by simp [maxSecondaryIndexes])]
    exact hok
  | del k => exact iff_of_true hok trivial
  | purge stem =>
    have hsize := Reply.size_ofPurge stem (s.keys.filter (beginsWith stem)).length
    rw [LeavesRoom, ← hsize]
    rfl
  | reset =>
    have hreset : (Reply.text "OK: Cache has been reset.").toBytes.size ≤ Framing.maxPayload := by
      decide
    exact iff_of_true hreset trivial

/-- An answer can be sent unless it is a sentence that repeats too long a text of the line. -/
theorem AllValues.size_execute_le_iff (h : s.AllValues Reply.Sendable) (draw : Nat) (line : String) :
    (s.execute draw line).1.toBytes.size ≤ Framing.maxPayload ↔
      s.LeavesRoom (Command.ofLine line) := by
  rw [Store.execute]
  cases hcommand : Command.ofLine line with
  | ok command => exact h.size_run_le_iff draw command
  | error e =>
    have hsize : (Reply.error e.message).toBytes.size = e.message.utf8ByteSize + 3 :=
      Reply.size_toBytes_of_lines rfl
    rw [LeavesRoom, hsize]
    cases hrepeated : e.repeated with
    | none =>
      have hle := CommandError.utf8ByteSize_message_le hcommand hrepeated
      refine iff_of_true ?_ (by simp)
      rw [Framing.maxPayload]
      omega
    | some word =>
      rw [CommandError.utf8ByteSize_message_of_repeated hrepeated]
      simp

/-- A line that fits a message stores only values that can be sent. -/
theorem AllValues.execute_of_size_le (h : s.AllValues Reply.Sendable) (draw : Nat) {line : String}
    (hline : line.utf8ByteSize ≤ Framing.maxPayload) :
    (s.execute draw line).2.AllValues Reply.Sendable := by
  refine h.execute draw fun k v one two hset => ?_
  exact Nat.le_trans (Command.utf8ByteSize_value_of_set hset) hline

end Store

end CacheServer
