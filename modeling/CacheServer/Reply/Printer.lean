import CacheServer.Reply
import CacheServer.Text.Decimal

/-!
The two written forms of a reply. On the wire a reply is one or more lines, each a sigil, a text and
CR LF:

    +OK                      a text
    -Unknown command         an error
    !42                      an integer
    [2, #a, #b, ]            an array of two texts, in four lines

The text is written as it is. A text that holds CR LF therefore reads back as something else.
-/

namespace CacheServer.Reply

open Text

/-- The lines of a reply. An array announces how many elements follow. -/
def lines : Reply → List (Sigil × String)
  | .text s => [(.text, s)]
  | .error s => [(.error, s)]
  | .integer i => [(.integer, Decimal.ofInt i.toInt)]
  | .nil => [(.text, nilText)]
  | .array elements =>
    (.arrayStart, Decimal.ofNat elements.length) :: elements.map (.element, ·) ++ [(.arrayEnd, "")]

def lineEnd : ByteArray := ⟨#[0x0D, 0x0A]⟩

def lineBytes (line : Sigil × String) : ByteArray :=
  ⟨#[line.1.byte]⟩ ++ line.2.toUTF8 ++ lineEnd

def toBytes (r : Reply) : ByteArray :=
  r.lines.foldl (fun bytes line => bytes ++ lineBytes line) ByteArray.empty

/-- The reply in one line, for a person to read. -/
def display : Reply → String
  | .text s => "+" ++ s
  | .error s => "-" ++ s
  | .integer i => "!" ++ Decimal.ofInt i.toInt
  | .nil => "+" ++ nilText
  | .array elements => "[" ++ String.intercalate ", " elements ++ "]"

end CacheServer.Reply
