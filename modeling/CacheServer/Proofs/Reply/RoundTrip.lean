import CacheServer.Proofs.Reply.Grammar

/-!
Replies read back. A reply is read back from its bytes, whatever follows them, unless one of its texts holds a
line break or it is the text that stands for nothing found. Whatever bytes a reply is read from, it is not one
of those.
-/

namespace CacheServer.Reply

open Text

variable {bytes unit rest : List UInt8} {closing : String} {r : Reply}

/-- The texts that a reply carries. -/
def texts : Reply → List String
  | .text s | .error s => [s]
  | .array elements => elements
  | .integer _ | .nil => []

/-- No text of the reply holds a line break, and it is not the text that stands for `nil`. -/
structure Plain (r : Reply) : Prop where
  unbroken : ∀ s ∈ r.texts, ¬ HasLineBreak s
  named : r ≠ .text nilText

/-- An array of that many texts can be addressed. -/
def Addressable : Reply → Prop
  | .array elements => elementSize * elements.length ≤ addressLimit
  | .text _ | .error _ | .integer _ | .nil => True

instance (r : Reply) : Decidable r.Plain :=
  decidable_of_iff ((∀ s ∈ r.texts, ¬ HasLineBreak s) ∧ r ≠ .text nilText)
    ⟨fun h => ⟨h.1, h.2⟩, fun h => ⟨h.unbroken, h.named⟩⟩

instance : (r : Reply) → Decidable r.Addressable
  | .array elements => inferInstanceAs (Decidable (elementSize * elements.length ≤ addressLimit))
  | .text _ | .error _ | .integer _ | .nil => .isTrue trivial

/-- Only replies that are plain, and can be addressed, have a form. -/
theorem Denotes.plain (hunit : Denotes closing unit r) : r.Plain ∧ r.Addressable := by
  cases hunit with
  | text hs hname =>
    exact ⟨⟨List.forall_mem_singleton.mpr hs, fun heq => hname (Reply.text.inj heq)⟩, trivial⟩
  | nil => exact ⟨⟨nofun, nofun⟩, trivial⟩
  | error hs => exact ⟨⟨List.forall_mem_singleton.mpr hs, nofun⟩, trivial⟩
  | integer hs => exact ⟨⟨nofun, nofun⟩, trivial⟩
  | array hcount hfits helements => exact ⟨⟨helements, nofun⟩, hfits⟩

/-- Whatever is read is plain, and an array is one that can be addressed. -/
theorem plain_of_read (hread : read bytes = (.ok r, rest)) : r.Plain ∧ r.Addressable := by
  obtain ⟨closing, unit, -, hunit, -⟩ := read_eq_ok_iff.mp hread
  exact hunit.plain

theorem toList_foldl_lineBytes (bytes : ByteArray) (lines : List (Sigil × String)) :
    (lines.foldl (fun bytes line => bytes ++ lineBytes line) bytes).data.toList =
      bytes.data.toList ++ lines.flatMap fun line => lineOf line.1 line.2 := by
  induction lines generalizing bytes with
  | nil => simp
  | cons line lines ih =>
    rw [List.foldl_cons, ih, List.flatMap_cons, ← List.append_assoc, ByteArray.data_append,
      Array.toList_append, toList_lineBytes]

/-- The bytes of a reply are those of its lines. -/
theorem toList_toBytes (r : Reply) :
    r.toBytes.data.toList = r.lines.flatMap fun line => lineOf line.1 line.2 := by
  rw [toBytes, toList_foldl_lineBytes]
  rfl

/-- The bytes of a plain reply are a form of it by the rules. -/
theorem Plain.denotes (hr : r.Plain) (hfits : r.Addressable) : Denotes "" r.toBytes.data.toList r := by
  have hsingle (sigil : Sigil) (s : String) :
      ([(sigil, s)].flatMap fun line => lineOf line.1 line.2) = lineOf sigil s := List.flatMap_singleton ..
  rw [toList_toBytes]
  cases r with
  | text s =>
    rw [lines, hsingle]
    exact .text (hr.unbroken s List.mem_cons_self) fun hname => hr.named (congrArg Reply.text hname)
  | error s =>
    rw [lines, hsingle]
    exact .error (hr.unbroken s List.mem_cons_self)
  | integer i =>
    rw [lines, hsingle]
    exact .integer (Decimal.signed_ofInt i.toInt)
  | array elements =>
    rw [lines, List.flatMap_append, List.flatMap_cons, List.flatMap_map, hsingle]
    exact .array (Decimal.unsigned_ofNat elements.length) hfits hr.unbroken
  | nil =>
    rw [lines, hsingle]
    exact .nil

/-- A plain reply reads back from its bytes, whatever follows them. -/
theorem Plain.read_toBytes (hr : r.Plain) (hfits : r.Addressable) (rest : List UInt8) :
    read (r.toBytes.data.toList ++ rest) = (.ok r, rest) :=
  read_eq_ok_iff.mpr ⟨"", r.toBytes.data.toList, not_hasLineBreak_empty, hr.denotes hfits, rfl⟩

/-- A reply that can be addressed is read back from its bytes, with all that follows them left, if and only if
none of its texts holds a line break and it is not the text that stands for `nil`. From whatever place of
whatever bytes a reply is read, it is such a reply, so it is read back once more from its own bytes. -/
theorem read_toBytes_iff_plain :
    (∀ r : Reply, r.Addressable → ∀ rest : List UInt8,
      read (r.toBytes.data.toList ++ rest) = (.ok r, rest) ↔ r.Plain) ∧
    ∀ (bytes : List UInt8) (start : Nat) (r : Reply) (left : List UInt8),
      read (bytes.drop start) = (.ok r, left) →
        r.Plain ∧ ∀ rest : List UInt8, read (r.toBytes.data.toList ++ rest) = (.ok r, rest) := by
  refine ⟨fun r hfits rest => ⟨fun hread => (plain_of_read hread).1, fun hr => ?_⟩, ?_⟩
  · exact hr.read_toBytes hfits rest
  · intro bytes start r left hread
    obtain ⟨hr, hfits⟩ := plain_of_read hread
    exact ⟨hr, hr.read_toBytes hfits⟩

/-- Texts of an array that end in CR, start with LF, or look like sigils, and one that is read from the middle
of other bytes. -/
theorem read_toBytes_iff_plain_array :
    let r : Reply := .array ["a\r", "\n#]", "", "(nil)"]
    let bytes := "?[1\r\n#\r]\r\n]!\r\n+OK".toUTF8.data.toList
    r.Addressable ∧ r.Plain ∧ read (r.toBytes.data.toList ++ [0x0D, 0x0A]) = (.ok r, [0x0D, 0x0A]) ∧
      read (bytes.drop 1) = (.ok (.array ["\r]"]), [0x2B, 0x4F, 0x4B]) ∧
      read ((Reply.array ["\r]"]).toBytes.data.toList ++ [0x2B]) = (.ok (.array ["\r]"]), [0x2B]) := by
  obtain ⟨hround, hany⟩ := read_toBytes_iff_plain
  intro r bytes
  have hfits : r.Addressable := by decide
  have hplain : r.Plain := by decide
  have hread : read (bytes.drop 1) = (.ok (.array ["\r]"]), [0x2B, 0x4F, 0x4B]) := by decide +kernel
  exact ⟨hfits, hplain, (hround r hfits _).mpr hplain, hread, (hany bytes 1 _ _ hread).2 _⟩

end CacheServer.Reply
