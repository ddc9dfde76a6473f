import CacheServer.Proofs.Framing.Stream
import CacheServer.Proofs.Line.Word
import CacheServer.Proofs.Reply.Size
import CacheServer.Server

/-!
Which messages are answered. The server changes only by answering messages, and its store only by the
lines among them, so whatever an answer keeps holds of every server that has served connections. An
answer to a message can be sent unless it repeats a long text of the line in a longer sentence; then it
ends the connection.
-/

namespace CacheServer.Server

open Text

variable {s : Server} {payload : ByteArray} {payloads : List ByteArray}

theorem answer_of_fault {fault : Utf8.Fault} (hfault : Utf8.decode payload = .error fault) :
    s.answer payload =
      (.error ("Invalid UTF-8 in request: " ++ fault.message),
        { s with answered := s.answered + 1 }) := by
  rw [answer, hfault]

theorem answer_of_line {line : String} (hline : Utf8.decode payload = .ok line) :
    s.answer payload =
      ((s.store.execute (s.draws s.answered) (trim line)).1,
        { s with
          store := (s.store.execute (s.draws s.answered) (trim line)).2
          answered := s.answered + 1 }) := by
  rw [answer, hline]

/-- The server after it has answered payloads. -/
def after (s : Server) (payloads : List ByteArray) : Server :=
  payloads.foldl (fun s payload => (s.answer payload).2) s

@[simp] theorem after_nil (s : Server) : s.after [] = s := rfl

@[simp] theorem after_cons (s : Server) (payload : ByteArray) (payloads : List ByteArray) :
    s.after (payload :: payloads) = (s.answer payload).2.after payloads := rfl

theorem after_append (s : Server) (before payloads : List ByteArray) :
    s.after (before ++ payloads) = (s.after before).after payloads :=
  List.foldl_append

theorem draws_answer (s : Server) (payload : ByteArray) : (s.answer payload).2.draws = s.draws := by
  rw [answer]
  split <;> rfl

theorem answered_answer (s : Server) (payload : ByteArray) :
    (s.answer payload).2.answered = s.answered + 1 := by
  rw [answer]
  split <;> rfl

theorem draws_after (s : Server) (payloads : List ByteArray) : (s.after payloads).draws = s.draws := by
  induction payloads generalizing s with
  | nil => rfl
  | cons payload payloads ih => rw [after_cons, ih, draws_answer]

/-- Every payload counts, whether it is a line or not. -/
theorem answered_after (s : Server) (payloads : List ByteArray) :
    (s.after payloads).answered = s.answered + payloads.length := by
  induction payloads generalizing s with
  | nil => rfl
  | cons payload payloads ih =>
    rw [after_cons, ih, answered_answer, List.length_cons]
    omega

/-- What payloads ask of the store, if the first of them is the message of the given number: each the line
that it is, without the blanks around it and with the choice for its message. A payload that is not UTF-8
asks nothing, but it counts as a message. -/
def requestsOf (draws : Nat → Nat) (number : Nat) : List ByteArray → List Request
  | [] => []
  | payload :: payloads =>
    match Utf8.decode payload with
    | .ok line => .line (draws number) (trim line) :: requestsOf draws (number + 1) payloads
    | .error _ => requestsOf draws (number + 1) payloads

/-- The store does what the payloads ask of it, and nothing else happens to it. -/
theorem store_after (s : Server) (payloads : List ByteArray) :
    (s.after payloads).store = s.store.serveAll (requestsOf s.draws s.answered payloads) := by
  induction payloads generalizing s with
  | nil => rfl
  | cons payload payloads ih =>
    rw [after_cons, ih, draws_answer, answered_answer, requestsOf]
    cases hdecode : Utf8.decode payload with
    | ok line =>
      rw [answer_of_line hdecode, Store.serveAll, Store.serveAll, List.foldl_cons, Store.serve]
    | error fault => rw [answer_of_fault hdecode]

/-- A line is answered by what the lines before have left of the store. -/
theorem answer_after_of_line {line : String} (hline : Utf8.decode payload = .ok line) (s : Server)
    (before : List ByteArray) :
    (((s.after before).answer payload).1,
        s.store.serveAll (requestsOf s.draws s.answered (before ++ [payload]))) =
      (s.store.serveAll (requestsOf s.draws s.answered before)).execute
        (s.draws (s.answered + before.length)) (trim line) := by
  rw [← store_after, ← store_after, after_append, after_cons, after_nil, answer_of_line hline,
    draws_after, answered_after]

theorem answer_after_of_fault {fault : Utf8.Fault} (hfault : Utf8.decode payload = .error fault)
    (s : Server) (before : List ByteArray) :
    (((s.after before).answer payload).1,
        s.store.serveAll (requestsOf s.draws s.answered (before ++ [payload]))) =
      (.error ("Invalid UTF-8 in request: " ++ fault.message),
        s.store.serveAll (requestsOf s.draws s.answered before)) := by
  rw [← store_after, ← store_after, after_append, after_cons, after_nil, answer_of_fault hfault]

namespace Sending

variable {c : Sending}

theorem add_of_size_le (hc : c.broken = false)
    (hsize : (c.server.answer payload).1.toBytes.size ≤ Framing.maxPayload) :
    c.add payload =
      ⟨c.sent ++ Framing.standard.message (c.server.answer payload).1.toBytes,
        (c.server.answer payload).2, false⟩ := by
  have hencode := Framing.encode_eq_ok_iff (f := Framing.standard).mpr ⟨hsize, rfl⟩
  rw [add, hc]
  simp only [hencode]
  rfl

theorem add_of_lt_size (hc : c.broken = false)
    (hsize : Framing.maxPayload < (c.server.answer payload).1.toBytes.size) :
    c.add payload = ⟨c.sent, (c.server.answer payload).2, true⟩ := by
  rw [add, hc]
  simp only [Framing.encode, if_neg (Nat.not_le_of_lt hsize)]
  rfl

theorem foldl_add_of_broken (hc : c.broken = true) (payloads : List ByteArray) :
    payloads.foldl add c = c := by
  induction payloads with
  | nil => rfl
  | cons payload payloads ih => rwa [List.foldl_cons, add, if_pos hc]

/-- A connection leaves the server as the answers to some of its first messages do. -/
theorem exists_after_of_foldl_add (c : Sending) (payloads : List ByteArray) :
    ∃ answered, answered <+: payloads ∧ (payloads.foldl add c).server = c.server.after answered := by
  induction payloads generalizing c with
  | nil => exact ⟨[], List.prefix_rfl, rfl⟩
  | cons payload payloads ih =>
    cases hc : c.broken with
    | true =>
      rw [foldl_add_of_broken hc]
      exact ⟨[], List.nil_prefix, rfl⟩
    | false =>
      have hserver : (c.add payload).server = (c.server.answer payload).2 := by
        by_cases hsize : (c.server.answer payload).1.toBytes.size ≤ Framing.maxPayload
        · rw [add_of_size_le hc hsize]
        · rw [add_of_lt_size hc (by omega)]
      obtain ⟨answered, hfirst, hafter⟩ := ih (c.add payload)
      refine ⟨payload :: answered, List.cons_prefix_cons.mpr ⟨rfl, hfirst⟩, ?_⟩
      rw [List.foldl_cons, hafter, hserver, after_cons]

/-- A connection is ended by the first answer that is too long, and by nothing else. -/
theorem broken_foldl_add_iff (hc : c.broken = false) (payloads : List ByteArray) :
    (payloads.foldl add c).broken = true ↔
      ∃ before payload rest, payloads = before ++ payload :: rest ∧
        Framing.maxPayload < ((c.server.after before).answer payload).1.toBytes.size := by
  induction payloads generalizing c with
  | nil => simp [hc]
  | cons payload payloads ih =>
    rw [List.foldl_cons]
    by_cases hsize : (c.server.answer payload).1.toBytes.size ≤ Framing.maxPayload
    · rw [ih (by rw [add_of_size_le hc hsize]), add_of_size_le hc hsize]
      constructor
      · rintro ⟨before, payload', rest, rfl, hlt⟩
        exact ⟨payload :: before, payload', rest, rfl, hlt⟩
      · rintro ⟨before, payload', rest, heq, hlt⟩
        cases before with
        | nil =>
          obtain ⟨rfl, -⟩ := List.cons.inj heq
          exact absurd hlt (Nat.not_lt_of_le hsize)
        | cons first before =>
          obtain ⟨rfl, rfl⟩ := List.cons.inj heq
          exact ⟨before, payload', rest, rfl, hlt⟩
    · rw [add_of_lt_size hc (by omega), foldl_add_of_broken rfl]
      exact iff_of_true rfl ⟨[], payload, payloads, rfl, by rw [after_nil]; omega⟩

end Sending

theorem broken_answerAll_iff (s : Server) (payloads : Array ByteArray) :
    (s.answerAll payloads).broken = true ↔
      ∃ before payload rest, payloads.toList = before ++ payload :: rest ∧
        Framing.maxPayload < ((s.after before).answer payload).1.toBytes.size := by
  rw [answerAll, ← Array.foldl_toList]
  exact Sending.broken_foldl_add_iff rfl payloads.toList

/-- Payloads that messages have. -/
def Delivered (payloads : List ByteArray) : Prop :=
  ∀ payload ∈ payloads, 1 ≤ payload.size ∧ payload.size ≤ Framing.maxPayload

theorem delivered_readAll (received : ByteArray) :
    Delivered (Framing.standard.readAll [received]).messages.toList := by
  obtain ⟨payloads, -, hmessages, hsizes, -⟩ :=
    Framing.exists_of_readAll Framing.standard received
  rw [hmessages]
  exact hsizes

theorem exists_after_of_serveAll (s : Server) (connections : List ByteArray) :
    ∃ payloads, Delivered payloads ∧ (s.serveAll connections).2 = s.after payloads := by
  induction connections generalizing s with
  | nil => exact ⟨[], nofun, rfl⟩
  | cons received connections ih =>
    obtain ⟨answered, hfirst, hserver⟩ := Sending.exists_after_of_foldl_add
      ⟨ByteArray.empty, s, false⟩ (Framing.standard.readAll [received]).messages.toList
    obtain ⟨payloads, hpayloads, hrest⟩ := ih (s.serve received).2
    refine ⟨answered ++ payloads, ?_, ?_⟩
    · intro payload hmem
      rcases List.mem_append.mp hmem with hmem | hmem
      · exact delivered_readAll received payload (hfirst.subset hmem)
      · exact hpayloads payload hmem
    · rw [after_append, ← hserver, Array.foldl_toList]
      exact hrest

/-- Whether the answer to a payload repeats no text of the line that is too long for its sentence. -/
def LeavesRoom (s : Server) (payload : ByteArray) : Prop :=
  ∀ line, Utf8.decode payload = .ok line → s.store.LeavesRoom (Command.ofLine (trim line))

/-- The server holds only values that can be sent in a message. -/
def Sendable (s : Server) : Prop :=
  s.store.AllValues Reply.Sendable

theorem utf8ByteSize_trim_of_decode {line : String} (hline : Utf8.decode payload = .ok line)
    (hsize : payload.size ≤ Framing.maxPayload) :
    (trim line).utf8ByteSize ≤ Framing.maxPayload := by
  have htrim := utf8ByteSize_trim_le line
  rw [utf8ByteSize_eq_of_decode hline] at htrim
  exact Nat.le_trans htrim hsize

theorem Sendable.answer (h : s.Sendable) (hsize : payload.size ≤ Framing.maxPayload) :
    (s.answer payload).2.Sendable := by
  cases hdecode : Utf8.decode payload with
  | error fault =>
    rw [answer_of_fault hdecode]
    exact h
  | ok line =>
    rw [Sendable, answer_of_line hdecode]
    dsimp only
    exact h.execute_of_size_le _ (utf8ByteSize_trim_of_decode hdecode hsize)

theorem Sendable.after (h : s.Sendable) (hpayloads : Delivered payloads) :
    (s.after payloads).Sendable := by
  induction payloads generalizing s with
  | nil => exact h
  | cons payload payloads ih =>
    obtain ⟨hpayload, hpayloads⟩ := List.forall_mem_cons.mp hpayloads
    exact ih (h.answer hpayload.2) hpayloads

theorem Sendable.size_answer_le_iff (h : s.Sendable) (hsize : payload.size ≤ Framing.maxPayload) :
    (s.answer payload).1.toBytes.size ≤ Framing.maxPayload ↔ s.LeavesRoom payload := by
  cases hdecode : Utf8.decode payload with
  | error fault =>
    have hmessage := (within_of_decode hdecode).utf8ByteSize_message_le
      (Nat.lt_of_le_of_lt hsize (by decide))
    have hstart : "Invalid UTF-8 in request: ".utf8ByteSize = 26 := rfl
    refine iff_of_true ?_ ?_
    · rw [answer_of_fault hdecode, Reply.size_toBytes_of_lines rfl, String.utf8ByteSize_append,
        hstart, Framing.maxPayload]
      omega
    · intro line hline
      rw [hdecode] at hline
      cases hline
  | ok line =>
    rw [answer_of_line hdecode, h.size_execute_le_iff, LeavesRoom, hdecode]
    simp

/-- The answer to each message in turn can be sent if and only if it leaves room. -/
theorem Sendable.size_answer_after_le_iff (h : s.Sendable) (hpayloads : Delivered payloads)
    {before rest : List ByteArray} (hcut : payloads = before ++ payload :: rest) :
    ((s.after before).answer payload).1.toBytes.size ≤ Framing.maxPayload ↔
      (s.after before).LeavesRoom payload := by
  rw [hcut] at hpayloads
  have hbefore : Delivered before := fun p hp => hpayloads p (List.mem_append_left _ hp)
  have hpayload := hpayloads payload (by simp)
  exact (h.after hbefore).size_answer_le_iff hpayload.2

theorem Sendable.serveAll (h : s.Sendable) (connections : List ByteArray) :
    (s.serveAll connections).2.Sendable := by
  obtain ⟨payloads, hpayloads, hserver⟩ := exists_after_of_serveAll s connections
  rw [hserver]
  exact h.after hpayloads

theorem sendable_start (hash : RowHash) (rule : EvictionRule) (capacity : Nat) (draws : Nat → Nat) :
    (start (Store.fresh hash rule capacity) draws).Sendable :=
  Store.allValues_of_empty rfl

/-- On any connection, after any others, the answer to a message can be sent if and only if it leaves
room for the text of the line that it repeats. So an answer ends a connection if and only if one of
the messages is a purge of too long a prefix, or a reset that too long a word follows. -/
theorem broken_iff_of_connections (hash : RowHash) {rule : EvictionRule} {capacity : Nat}
    (hcapacity : rule = .none ∨ 1 ≤ capacity) (draws : Nat → Nat) (connections : List ByteArray)
    (received : ByteArray) :
    ∃ store, Store.create hash rule capacity = .ok store ∧
      let s := ((start store draws).serveAll connections).2
      let payloads := (Framing.standard.readAll [received]).messages
      (∀ before payload rest, payloads.toList = before ++ payload :: rest →
        ((∃ message, Framing.standard.encode ((s.after before).answer payload).1.toBytes =
            .ok message) ↔ (s.after before).LeavesRoom payload)) ∧
      ((s.answerAll payloads).broken = true ↔
        ∃ before payload rest, payloads.toList = before ++ payload :: rest ∧
          ¬ (s.after before).LeavesRoom payload) := by
  refine ⟨_, Store.create_eq_ok_iff.mpr ⟨hcapacity, rfl⟩, ?_⟩
  intro s payloads
  have hs : s.Sendable := (sendable_start hash rule capacity draws).serveAll connections
  have hpayloads : Delivered payloads.toList := delivered_readAll received
  constructor
  · intro before payload rest hcut
    rw [← hs.size_answer_after_le_iff hpayloads hcut]
    simp [Framing.encode_eq_ok_iff]
  · rw [broken_answerAll_iff]
    refine exists₃_congr fun before payload rest => and_congr_right fun hcut => ?_
    rw [← hs.size_answer_after_le_iff hpayloads hcut, Nat.not_le]

theorem broken_iff_of_connections_lru :
    (EvictionRule.lru = .none ∨ 1 ≤ 2) ∧
      ∃ store, Store.create SipHash.rowHash .lru 2 = .ok store ∧
        let set := Framing.standard.message "SET k v".toUTF8
        let reset := Framing.standard.message "RESET now".toUTF8
        (((start store fun _ => 0).serveAll [set]).2.answerAll
          (Framing.standard.readAll [reset]).messages).broken = false := by
  have hcapacity : EvictionRule.lru = .none ∨ 1 ≤ 2 := .inr (by decide)
  obtain ⟨store, hcreate, -, hbroken⟩ := broken_iff_of_connections SipHash.rowHash hcapacity
    (fun _ => 0) [Framing.standard.message "SET k v".toUTF8]
    (Framing.standard.message "RESET now".toUTF8)
  refine ⟨hcapacity, store, hcreate, ?_⟩
  have hmessages :
      (Framing.standard.readAll [Framing.standard.message "RESET now".toUTF8]).messages =
        #["RESET now".toUTF8] := Framing.messages_readAll_message (by decide) (by decide)
  have hline : Command.ofLine (trim "RESET now") = .error (.invalidArgument .reset "now") := rfl
  rw [Bool.eq_false_iff, Ne, hbroken, hmessages]
  rintro ⟨before, payload, rest, hcut, hnot⟩
  obtain ⟨rfl, rfl, rfl⟩ : before = [] ∧ payload = "RESET now".toUTF8 ∧ rest = [] := by
    cases before <;> simp_all
  refine hnot fun line hdecode => ?_
  rw [Utf8.decode_toUTF8] at hdecode
  cases hdecode
  rw [hline]
  rintro word ⟨⟩
  decide

/-- The payload of a reset that a word follows. -/
def resetLine (word : List Char) : ByteArray :=
  (String.ofList ("RESET".toList ++ ' ' :: word)).toUTF8

variable {word : List Char}

theorem size_resetLine (word : List Char) : (resetLine word).size = charsSize word + 6 := by
  have hverb : charsSize "RESET".toList = 5 := rfl
  have hspace : ' '.utf8Size = 1 := rfl
  rw [resetLine, String.toUTF8_eq_toByteArray, String.size_toByteArray, utf8ByteSize_ofList,
    charsSize_append, charsSize_cons, hverb, hspace]
  omega

/-- A word that confirms nothing is repeated with 31 bytes more, of which the line has only six. -/
theorem leavesRoom_resetLine_iff (s : Server) (hcs : Line.IsWord word)
    (hword : sameWord (String.ofList word) Command.confirmation = false) :
    s.LeavesRoom (resetLine word) ↔ charsSize word + 31 ≤ Framing.maxPayload := by
  have hverb : Line.IsWord "RESET".toList := ⟨by simp, by simp [isBlank]⟩
  have hline : Command.ofLine (String.ofList ("RESET".toList ++ ' ' :: word)) =
      .error (.invalidArgument .reset (String.ofList word)) := by
    rw [Command.ofLine, Line.tokens_of_words hverb hcs]
    exact if_neg (by simp [hword])
  rw [LeavesRoom, resetLine, Utf8.decode_toUTF8]
  simp only [Except.ok.injEq, forall_eq', Line.trim_of_words hverb hcs, hline, Store.LeavesRoom,
    CommandError.repeated, Option.some.injEq, utf8ByteSize_ofList]

/-- A wrong word that fits its line but not its answer ends the connection. -/
theorem broken_of_resetLine (hs : s.Sendable) (hcs : Line.IsWord word)
    (hword : sameWord (String.ofList word) Command.confirmation = false)
    (hfits : charsSize word + 6 ≤ Framing.maxPayload)
    (hlong : Framing.maxPayload < charsSize word + 31) :
    (s.answerAll #[resetLine word]).broken = true := by
  have hroom := mt (leavesRoom_resetLine_iff s hcs hword).mp (Nat.not_le_of_lt hlong)
  rw [broken_answerAll_iff]
  refine ⟨[], resetLine word, [], rfl, ?_⟩
  rw [← hs.size_answer_le_iff (by rwa [size_resetLine]), Nat.not_le] at hroom
  exact hroom

/-- The longest line of a reset is answered by more than a message may hold, which ends the
connection. -/
theorem broken_of_longest_reset :
    ∃ store, Store.create SipHash.rowHash .none 0 = .ok store ∧
      let payload := resetLine (List.replicate 10485754 'x')
      payload.size = Framing.maxPayload ∧
        (Framing.standard.readAll [Framing.standard.message payload]).messages = #[payload] ∧
        ((start store fun _ => 0).answerAll #[payload]).broken = true := by
  refine ⟨Store.fresh SipHash.rowHash .none 0, Store.create_eq_ok_iff.mpr ⟨.inl rfl, rfl⟩, ?_⟩
  -- Behind a variable the characters are not counted one by one.
  generalize hn : 10485754 = n
  have hchars : charsSize (List.replicate n 'x') = n := by
    rw [charsSize_eq_length, List.length_replicate]
    intro c hc
    rw [List.eq_of_mem_replicate hc]
    rfl
  have hcs : Line.IsWord (List.replicate n 'x') := by
    refine ⟨List.ne_nil_of_length_pos (by rw [List.length_replicate]; omega), fun c hc => ?_⟩
    rw [List.eq_of_mem_replicate hc]
    decide
  have hword : sameWord (String.ofList (List.replicate n 'x')) Command.confirmation = false := by
    rw [Bool.eq_false_iff, Ne, sameWord_iff]
    intro hsame
    have hc : 'c' ∈ foldCase Command.confirmation := by decide
    rw [← hsame] at hc
    simp [foldCase] at hc
  have hmax : n + 6 = Framing.maxPayload := by rw [← hn, Framing.maxPayload]
  have hsize : (resetLine (List.replicate n 'x')).size = Framing.maxPayload := by
    rw [size_resetLine, hchars, hmax]
  refine ⟨hsize, ?_, ?_⟩
  · exact Framing.messages_readAll_message (by omega) (Nat.le_of_eq hsize)
  · apply broken_of_resetLine (sendable_start SipHash.rowHash .none 0 fun _ => 0) hcs hword
    · rw [hchars, hmax]
    · rw [hchars]
      omega

end CacheServer.Server
