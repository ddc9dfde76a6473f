import CacheServer.Eviction.SipHash
import CacheServer.Execution
import CacheServer.Proofs.Reply.Line

/-!
The answers to look-ups. A value that is found is written as it is, and so is the text that stands for
nothing found; the bytes of an answer tell all values from each other and from nothing found, but for
the one value that is that text.
-/

namespace CacheServer

namespace Reply

theorem toBytes_text_inj {s t : String} :
    (Reply.text s).toBytes = (Reply.text t).toBytes ↔ s = t := by
  have htext (s : String) : (Reply.text s).toBytes = lineBytes (.text, s) := toBytes_of_lines rfl
  rw [htext, htext, lineBytes, lineBytes, ByteArray.append_left_inj, ByteArray.append_right_inj,
    String.toUTF8_eq_toByteArray, String.toUTF8_eq_toByteArray, String.toByteArray_inj]

/-- Nothing found is written like the value that says so. -/
theorem toBytes_ofFound (found : Option String) :
    (Reply.ofFound found).toBytes = (Reply.text (found.getD nilText)).toBytes := by
  cases found <;> rfl

end Reply

namespace Command

/-- A command that looks up the value of a key. -/
def IsLookup : Command → Prop
  | .get _ | .getBy _ _ => True
  | _ => False

end Command

namespace Store

/-- The value that a command reads, if it reads one. -/
def found (s : Store) : Command → Option String
  | .get k => (s.get k).1
  | .getBy i secondary => (s.getBy i secondary).1
  | _ => none

theorem execute_of_lookup {line : String} {command : Command}
    (hline : Command.ofLine line = .ok command) (hlookup : command.IsLookup) (s : Store)
    (draw : Nat) : (s.execute draw line).1 = .ofFound (s.found command) := by
  rw [execute, hline]
  cases command with
  | get k => rfl
  | getBy i secondary => rfl
  | _ => cases hlookup

/-- The bytes of the answer to a look-up are those of nothing found if and only if nothing is found or
the value found is the text that stands for it. So in two stores of which only the first holds a
value, the answers differ unless the value is that text. -/
theorem bytes_of_lookup (s t : Store) (draw draw' : Nat) {line : String} {command : Command}
    (hline : Command.ofLine line = .ok command) (hlookup : command.IsLookup) :
    ((s.execute draw line).1.toBytes = Reply.nil.toBytes ↔
      s.found command = none ∨ s.found command = some Reply.nilText) ∧
      ∀ v, s.found command = some v → t.found command = none →
        ((s.execute draw line).1.toBytes = (t.execute draw' line).1.toBytes ↔
          v = Reply.nilText) := by
  have hnil : Reply.nil.toBytes = (Reply.text Reply.nilText).toBytes := rfl
  rw [execute_of_lookup hline hlookup, execute_of_lookup hline hlookup, hnil,
    Reply.toBytes_ofFound, Reply.toBytes_ofFound, Reply.toBytes_text_inj, Reply.toBytes_text_inj]
  constructor
  · cases s.found command <;> simp
  · rintro v hs ht
    rw [hs, ht, Option.getD_some, Option.getD_none]

theorem bytes_of_lookup_getIdx1 :
    ∃ s, create SipHash.rowHash .lru 2 = .ok s ∧
      let t := (s.execute 0 "SET k \"a value\" IDX1 x").2
      Command.ofLine "getidx1 x" = .ok (.getBy .one "x") ∧ (Command.getBy .one "x").IsLookup ∧
        t.found (.getBy .one "x") = some "a value" ∧ s.found (.getBy .one "x") = none ∧
        ((t.execute 0 "getidx1 x").1.toBytes = (s.execute 0 "getidx1 x").1.toBytes ↔
          "a value" = Reply.nilText) := by
  refine ⟨_, rfl, ?_⟩
  have hline : Command.ofLine "getidx1 x" = .ok (.getBy .one "x") := rfl
  have hlookup : (Command.getBy .one "x").IsLookup := trivial
  refine ⟨hline, hlookup, ?_, ?_, ?_⟩
  · decide +kernel
  · rfl
  · exact (bytes_of_lookup _ _ 0 0 hline hlookup).2 _ (by decide +kernel) rfl

/-- A value that is the text for nothing found is answered like nothing found. -/
theorem bytes_of_lookup_of_nilText :
    ∃ s, create SipHash.rowHash .none 0 = .ok s ∧
      let t := (s.execute 0 "SET k (nil)").2
      (t.get "k").1 = some "(nil)" ∧ (s.get "k").1 = none ∧
        (t.execute 0 "GET k").1.toBytes = (s.execute 0 "GET k").1.toBytes := by
  refine ⟨_, rfl, ?_⟩
  decide +kernel

end Store

end CacheServer
