import CacheServer.Proofs.Text.LineBreak
import CacheServer.Reply.Printer
import CacheServer.Reply.Sequence

/-!
Lines, and replies in one line. A line is read up to the first line break of the bytes. So what is written as
one line is read as the part before its first line break, and nothing is left if and only if there is none.
-/

namespace CacheServer.Reply

open Text

variable {cs : List Char} {line rest : List UInt8}

theorem cutLine_append (hline : ¬ [0x0D, 0x0A] <:+: line) (passed : List UInt8) :
    cutLine passed (line ++ 0x0D :: 0x0A :: rest) = some (passed.reverse ++ line, rest) := by
  induction line generalizing passed with
  | nil => simp [cutLine]
  | cons x line ih =>
    have hrest : ¬ [0x0D, 0x0A] <:+: line := fun h => hline (List.infix_cons h)
    cases line with
    | nil => simp [cutLine]
    | cons y line =>
      have hpair : ¬ (x = 0x0D ∧ y = 0x0A) := by
        rintro ⟨rfl, rfl⟩
        exact hline ⟨[], line, rfl⟩
      have hcut := ih hrest (x :: passed)
      simp only [List.cons_append, cutLine] at hcut ⊢
      rw [if_neg (by simpa using hpair), hcut]
      simp

/-- A line ends at the first line break of the bytes. -/
theorem exists_of_cutLine {bytes passed : List UInt8} (hcut : cutLine passed bytes = some (line, rest)) :
    ∃ cut, line = passed.reverse ++ cut ∧ bytes = cut ++ 0x0D :: 0x0A :: rest ∧
      ¬ [0x0D, 0x0A] <:+: cut := by
  fun_induction cutLine passed bytes with
  | case1 passed a b tail hab =>
    obtain ⟨rfl, rfl⟩ : passed.reverse = line ∧ tail = rest := by simpa using hcut
    obtain ⟨rfl, rfl⟩ : a = 0x0D ∧ b = 0x0A := by simpa using hab
    exact ⟨[], by simp, rfl, fun h => by simpa using h.length_le⟩
  | case2 passed a b tail hab ih =>
    obtain ⟨cut, rfl, hbytes, hno⟩ := ih hcut
    refine ⟨a :: cut, by simp, by rw [hbytes]; rfl, ?_⟩
    rw [List.infix_cons_iff, not_or]
    refine ⟨?_, hno⟩
    -- A break at the front would be made of the two bytes that were looked at.
    rintro ⟨after, hafter⟩
    obtain ⟨rfl, rfl⟩ := List.cons.inj hafter
    obtain ⟨rfl, -⟩ := List.cons.inj hbytes
    simp at hab
  | case3 => cases hcut

/-- A line reads back as its text. -/
theorem readLine_bytesOf (hcs : ¬ ['\r', '\n'] <:+: cs) :
    readLine (bytesOf cs ++ 0x0D :: 0x0A :: rest) = (.ok (String.ofList cs), rest) := by
  have hcut : cutLine [] (bytesOf cs ++ 0x0D :: 0x0A :: rest) = some (bytesOf cs, rest) :=
    cutLine_append (fun h => hcs (pair_infix_of_bytesOf h)) []
  rw [readLine, hcut]
  simp [fromUTF8?_bytesOf]

/-- The bytes of a text and of the end of its line. -/
def ended (s : String) : List UInt8 :=
  bytesOf s.toList ++ [0x0D, 0x0A]

/-- The bytes of a line. -/
def lineOf (sigil : Sigil) (s : String) : List UInt8 :=
  sigil.byte :: ended s

/-- The text of a line is the bytes before the first line break, which have to encode a text. -/
theorem readLine_eq_ok_iff {bytes : List UInt8} {s : String} :
    readLine bytes = (.ok s, rest) ↔ ¬ HasLineBreak s ∧ bytes = ended s ++ rest := by
  constructor
  · intro hread
    unfold readLine at hread
    split at hread
    case h_1 => cases hread
    case h_2 line left hcut =>
      obtain ⟨cut, hline, rfl, hno⟩ := exists_of_cutLine hcut
      rw [List.reverse_nil, List.nil_append] at hline
      subst hline
      split at hread
      case h_1 => cases hread
      case h_2 t ht =>
        obtain ⟨rfl, rfl⟩ : t = s ∧ left = rest := by simpa using hread
        have hbytes := bytesOf_of_fromUTF8? ht
        refine ⟨fun hbreak => hno ?_, ?_⟩
        · rw [← hbytes]
          exact pair_infix_bytesOf hbreak
        · rw [ended, hbytes, List.append_assoc]
          rfl
  · rintro ⟨hs, rfl⟩
    rw [ended, List.append_assoc]
    conv_rhs => rw [← String.ofList_toList (s := s)]
    exact readLine_bytesOf hs

/-- A text is read up to its first line break. -/
theorem exists_readLine (s : String) :
    ∃ t rest, readLine (ended s) = (.ok t, rest) ∧ (rest = [] ↔ ¬ HasLineBreak s) := by
  by_cases hs : HasLineBreak s
  · obtain ⟨before, after, hcut, hbefore⟩ := exists_first_pair hs
    refine ⟨String.ofList before, bytesOf after ++ [0x0D, 0x0A], ?_, by simp [hs]⟩
    have hbytes : ended s = bytesOf before ++ 0x0D :: 0x0A :: (bytesOf after ++ [0x0D, 0x0A]) := by
      rw [ended, hcut, bytesOf, List.flatMap_append, List.append_assoc]
      rfl
    rw [hbytes]
    exact readLine_bytesOf hbefore
  · exact ⟨s, [], readLine_eq_ok_iff.mpr ⟨hs, (List.append_nil _).symm⟩, by simp [hs]⟩

theorem toList_lineBytes (sigil : Sigil) (s : String) :
    (lineBytes (sigil, s)).data.toList = lineOf sigil s := by
  simp only [lineBytes, lineEnd, ByteArray.data_append, Array.toList_append, toList_toUTF8]
  rfl

theorem readSigil_byte_cons (sigil : Sigil) (bytes : List UInt8) :
    readSigil (sigil.byte :: bytes) = (.ok sigil, bytes) := by
  rw [readSigil, Sigil.ofByte?_byte]

theorem toBytes_of_lines {r : Reply} {line : Sigil × String} (hr : r.lines = [line]) :
    r.toBytes = lineBytes line := by
  rw [toBytes, hr, List.foldl_cons, List.foldl_nil, ByteArray.empty_append]

/-- A reply in one line reads back as a reply, up to the first line break of its text. -/
theorem exists_read_of_lines {r : Reply} {sigil : Sigil} {s : String} (hr : r.lines = [(sigil, s)])
    (hsigil : sigil = .text ∨ sigil = .error) :
    ∃ t rest, read r.toBytes.data.toList = (.ok t, rest) ∧ (rest = [] ↔ ¬ HasLineBreak s) := by
  have hbytes : r.toBytes.data.toList = sigil.byte :: ended s := by
    rw [toBytes_of_lines hr, toList_lineBytes, lineOf]
  obtain ⟨t, rest, hread, hrest⟩ := exists_readLine s
  rcases hsigil with rfl | rfl
  · refine ⟨if t = nilText then .nil else .text t, rest, ?_, hrest⟩
    simp only [hbytes, read, readSigil_byte_cons, Outcome.next, hread]
  · refine ⟨.error t, rest, ?_, hrest⟩
    simp only [hbytes, read, readSigil_byte_cons, Outcome.next, hread]

end CacheServer.Reply
