/-!
What the server answers to a command: a text, an error, an integer, an array of texts, or nothing
found.
-/

namespace CacheServer

inductive Reply where
  | text (s : String)
  | error (s : String)
  | integer (i : Int64)
  | array (elements : List String)
  /-- Nothing was found. -/
  | nil
deriving DecidableEq, Repr

namespace Reply

/-- The answer to a command that has nothing else to say. -/
def ok : Reply := .text "OK"

/-- The text that stands for `nil`. A text reply that says the same reads back as `nil`. -/
def nilText : String := "(nil)"

end Reply

/-- The first byte of a line of a reply, which says what the line is. -/
inductive Sigil where
  | text
  | error
  | integer
  | arrayStart
  | element
  | arrayEnd
deriving DecidableEq, Repr

namespace Sigil

/-- A sigil as a byte: `+`, `-`, `!`, `[`, `#` or `]`. -/
def byte : Sigil → UInt8
  | text => 0x2B
  | error => 0x2D
  | integer => 0x21
  | arrayStart => 0x5B
  | element => 0x23
  | arrayEnd => 0x5D

/-- The sigil that a byte is. -/
def ofByte? (b : UInt8) : Option Sigil :=
  [text, error, integer, arrayStart, element, arrayEnd].find? fun s => s.byte == b

theorem ofByte?_byte (s : Sigil) : ofByte? s.byte = some s := by
  cases s <;> rfl

theorem byte_of_ofByte? {b : UInt8} {s : Sigil} (h : ofByte? b = some s) : s.byte = b := by
  simpa using List.find?_some h

end Sigil

end CacheServer
