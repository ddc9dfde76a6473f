import CacheServer.Proofs.Framing.Message

/-!
A stream that arrives in pieces. Bytes that arrive later do not change what has been read before: a
message stays the message it was, and a refused header stays refused. So only the bytes matter, and
not where they are cut.
-/

namespace CacheServer.Framing

variable {f : Framing} {buffer rest payload : ByteArray} {messages : Array ByteArray}
  {e : FramingError} {i j : Intake}

theorem decode_append_of_ok (h : f.decode buffer = (.ok (some payload), rest)) (more : ByteArray) :
    f.decode (buffer ++ more) = (.ok (some payload), rest ++ more) := by
  obtain ⟨hpos, hle, rfl⟩ := eq_message_append_of_decode h
  rw [ByteArray.append_assoc]
  exact decode_message_append hpos hle (rest ++ more)

theorem decode_append_of_error (h : f.decode buffer = (.error e, rest)) (more : ByteArray) :
    f.decode (buffer ++ more) = (.error e, rest ++ more) := by
  rcases size_lt_or_exists_header buffer with hsize | ⟨a, b, c, d, version, tail, rfl⟩
  · rw [decode_of_size_lt hsize] at h
    cases h
  · rw [ByteArray.append_assoc]
    rw [decode_header_append] at h ⊢
    cases hfault : f.headerFault? (lengthOfBytes a b c d) version with
    | some e' =>
      rw [hfault] at h
      obtain ⟨rfl, rfl⟩ : e' = e ∧ _ = rest := by simpa using h
      rw [ByteArray.append_assoc]
    | none =>
      rw [hfault] at h
      dsimp only at h
      split at h <;> cases h

/-- The buffer changes only if a payload is taken from it. -/
theorem eq_of_decode {result : Except FramingError (Option ByteArray)}
    (h : f.decode buffer = (result, rest)) (hresult : ∀ payload, result ≠ .ok (some payload)) :
    rest = buffer := by
  rcases size_lt_or_exists_header buffer with hsize | ⟨a, b, c, d, version, tail, hbuffer⟩
  · rw [decode_of_size_lt hsize] at h
    exact (congrArg Prod.snd h).symm
  · have hdecode := decode_header_append f a b c d version tail
    rw [← hbuffer, h] at hdecode
    generalize lengthOfBytes a b c d = length at hdecode
    cases hfault : f.headerFault? length version with
    | some e =>
      rw [hfault] at hdecode
      exact congrArg Prod.snd hdecode
    | none =>
      rw [hfault] at hdecode
      dsimp only at hdecode
      split at hdecode
      case isTrue => exact congrArg Prod.snd hdecode
      case isFalse => exact absurd (congrArg Prod.fst hdecode) (hresult _)

/-- A payload is at least one byte and takes its header with it. -/
theorem size_add_le_of_decode (h : f.decode buffer = (.ok (some payload), rest)) :
    rest.size + 6 ≤ buffer.size := by
  obtain ⟨hpos, -, rfl⟩ := eq_message_append_of_decode h
  rw [ByteArray.size_append, size_message, headerSize]
  omega

/-- A call for a message takes one, with at least six bytes, or it leaves the buffer alone. -/
theorem decode_progress (f : Framing) (buffer : ByteArray) :
    (f.decode buffer).2 = buffer ∨
      ∃ payload, (f.decode buffer).1 = .ok (some payload) ∧
        (f.decode buffer).2.size + 6 ≤ buffer.size := by
  by_cases h : ∃ payload, (f.decode buffer).1 = .ok (some payload)
  · obtain ⟨payload, hpayload⟩ := h
    exact .inr ⟨payload, hpayload, size_add_le_of_decode (Prod.ext hpayload rfl)⟩
  · exact .inl (eq_of_decode rfl (not_exists.mp h))

/-- The two have taken the same messages and have come to the same end, if to any; unless it is an
error, the same bytes are left. -/
structure Intake.Agrees (i j : Intake) : Prop where
  messages : i.messages = j.messages
  fault : i.fault = j.fault
  buffer : i.fault = none → i.buffer = j.buffer

theorem Intake.Agrees.refl (i : Intake) : i.Agrees i :=
  ⟨rfl, rfl, fun _ => rfl⟩

theorem Intake.Agrees.trans {k : Intake} (hij : i.Agrees j) (hjk : j.Agrees k) : i.Agrees k where
  messages := hij.messages.trans hjk.messages
  fault := hij.fault.trans hjk.fault
  buffer h := (hij.buffer h).trans (hjk.buffer (hij.fault.symm.trans h))

/-- What is not at an end agrees only with itself. -/
theorem Intake.Agrees.eq_of_fault (h : i.Agrees j) (hfault : i.fault = none) : i = j := by
  obtain ⟨messages, buffer, fault⟩ := i
  obtain ⟨messages', buffer', fault'⟩ := j
  obtain ⟨hmessages, hfaults, hbuffer⟩ := h
  cases hmessages
  cases hfaults
  cases hbuffer hfault
  rfl

theorem Intake.receive_of_fault (hfault : i.fault = some e) (piece : ByteArray) :
    i.receive f piece = i := by
  rw [Intake.receive, hfault]

theorem Intake.finish_of_fault (hfault : i.fault = some e) : i.finish f = i := by
  rw [Intake.finish, hfault]

/-- Agreement lasts to the end of the stream. -/
theorem Intake.Agrees.finish (h : i.Agrees j) : (i.finish f).Agrees (j.finish f) := by
  cases hfault : i.fault with
  | none =>
    rw [h.eq_of_fault hfault]
    exact .refl _
  | some e => rwa [finish_of_fault hfault, finish_of_fault (h.fault.symm.trans hfault)]

theorem drain_of_ok_some (h : f.decode buffer = (.ok (some payload), rest)) :
    f.drain messages buffer = f.drain (messages.push payload) rest := by
  rw [drain]
  split <;> simp_all

theorem drain_of_ok_none (h : f.decode buffer = (.ok none, rest)) :
    f.drain messages buffer = ⟨messages, rest, none⟩ := by
  rw [drain]
  split <;> simp_all

theorem drain_of_error (h : f.decode buffer = (.error e, rest)) :
    f.drain messages buffer = ⟨messages, rest, some e⟩ := by
  rw [drain]
  split <;> simp_all

/-- To drain the buffer before more bytes arrive makes no difference. -/
theorem agrees_receive_drain (f : Framing) (messages : Array ByteArray) (buffer more : ByteArray) :
    ((f.drain messages buffer).receive f more).Agrees (f.drain messages (buffer ++ more)) := by
  fun_induction drain f messages buffer with
  | case1 messages buffer payload rest h ih =>
    rw [drain_of_ok_some (decode_append_of_ok h more)]
    exact ih
  | case2 messages buffer rest h =>
    obtain rfl := eq_of_decode h nofun
    exact .refl _
  | case3 messages buffer rest e h =>
    rw [drain_of_error (decode_append_of_error h more)]
    exact ⟨rfl, rfl, nofun⟩

/-- Pieces that arrive one after the other make no difference to both at once. -/
theorem agrees_receive_receive (f : Framing) (i : Intake) (piece more : ByteArray) :
    ((i.receive f piece).receive f more).Agrees (i.receive f (piece ++ more)) := by
  cases hfault : i.fault with
  | none =>
    simp only [Intake.receive.eq_def f i, hfault, ← ByteArray.append_assoc]
    exact agrees_receive_drain f i.messages (i.buffer ++ piece) more
  | some e =>
    rw [Intake.receive_of_fault hfault, Intake.receive_of_fault hfault,
      Intake.receive_of_fault hfault]
    exact .refl i

/-- The bytes of pieces one after another. -/
def joined (pieces : List ByteArray) : ByteArray :=
  pieces.foldr (· ++ ·) ByteArray.empty

@[simp] theorem joined_nil : joined [] = ByteArray.empty := rfl

@[simp] theorem joined_cons (piece : ByteArray) (pieces : List ByteArray) :
    joined (piece :: pieces) = piece ++ joined pieces := rfl

theorem agrees_foldl_receive (f : Framing) (i : Intake) (piece : ByteArray)
    (pieces : List ByteArray) :
    (pieces.foldl (Intake.receive f) (i.receive f piece)).Agrees
      (i.receive f (piece ++ joined pieces)) := by
  induction pieces generalizing i piece with
  | nil =>
    rw [joined_nil, ByteArray.append_empty]
    exact .refl _
  | cons next pieces ih =>
    have hnext := ih (i.receive f piece) next
    have hboth := agrees_receive_receive f i piece (next ++ joined pieces)
    exact hnext.trans hboth

theorem start_receive_empty (f : Framing) : Intake.start.receive f ByteArray.empty = .start :=
  drain_of_ok_none (decode_of_size_lt (by decide))

theorem agrees_readAll (f : Framing) (pieces : List ByteArray) :
    (f.readAll pieces).Agrees (f.readAll [joined pieces]) := by
  have hpieces := agrees_foldl_receive f .start ByteArray.empty pieces
  rw [start_receive_empty, ByteArray.empty_append] at hpieces
  exact hpieces.finish

/-- What comes of a buffer: messages that stood one after another at its front, and a rest that starts
with no message. -/
theorem exists_of_drain (f : Framing) (messages : Array ByteArray) (buffer : ByteArray) :
    ∃ payloads : List ByteArray,
      (f.drain messages buffer).messages = messages ++ payloads ∧
      (∀ payload ∈ payloads, 1 ≤ payload.size ∧ payload.size ≤ maxPayload) ∧
      buffer = joined (payloads.map f.message) ++ (f.drain messages buffer).buffer ∧
      f.decode (f.drain messages buffer).buffer =
        ((match (f.drain messages buffer).fault with
          | some e => .error e
          | none => .ok none), (f.drain messages buffer).buffer) := by
  fun_induction drain f messages buffer with
  | case1 messages buffer payload rest h ih =>
    obtain ⟨payloads, hmessages, hsizes, hrest, hdecode⟩ := ih
    obtain ⟨hpos, hle, hbuffer⟩ := eq_message_append_of_decode h
    refine ⟨payload :: payloads, ?_, ?_, ?_, hdecode⟩
    · rw [hmessages]
      simp
    · simpa [hpos, hle] using hsizes
    · rw [List.map_cons, joined_cons, ByteArray.append_assoc, ← hrest, hbuffer]
  | case2 messages buffer rest h =>
    obtain rfl := eq_of_decode h nofun
    exact ⟨[], by simp, by simp, by simp, h⟩
  | case3 messages buffer rest e h =>
    obtain rfl := eq_of_decode h nofun
    exact ⟨[], by simp, by simp, by simp, h⟩

/-- When no message is left, the end of the stream adds none. -/
theorem drainEnd_of_ok_none (h : f.decode buffer = (.ok none, buffer)) :
    f.drainEnd messages buffer =
      if buffer.size < headerSize then ⟨messages, ByteArray.empty, none⟩
      else ⟨messages, buffer, some .truncated⟩ := by
  have hend : f.decodeEnd buffer =
      if buffer.size < headerSize then (.ok none, ByteArray.empty)
      else (.error .truncated, buffer) := by
    rw [decodeEnd, h]
  rw [drainEnd]
  split at hend <;> split <;> simp_all

theorem messages_finish_drain (f : Framing) (messages : Array ByteArray) (buffer : ByteArray) :
    ((f.drain messages buffer).finish f).messages = (f.drain messages buffer).messages := by
  obtain ⟨-, -, -, -, hdecode⟩ := exists_of_drain f messages buffer
  cases hfault : (f.drain messages buffer).fault with
  | some e => rw [Intake.finish_of_fault hfault]
  | none =>
    rw [hfault] at hdecode
    rw [Intake.finish, hfault]
    dsimp only
    rw [drainEnd_of_ok_none hdecode]
    split <;> rfl

theorem readAll_singleton (f : Framing) (bytes : ByteArray) :
    f.readAll [bytes] = (f.drain #[] bytes).finish f := by
  rw [readAll, List.foldl_cons, List.foldl_nil, Intake.receive, Intake.start]
  dsimp only
  rw [ByteArray.empty_append]

/-- The messages of a stream stand one after another at its front. -/
theorem exists_of_readAll (f : Framing) (bytes : ByteArray) :
    ∃ payloads : List ByteArray, ∃ rest,
      (f.readAll [bytes]).messages = payloads.toArray ∧
      (∀ payload ∈ payloads, 1 ≤ payload.size ∧ payload.size ≤ maxPayload) ∧
      bytes = joined (payloads.map f.message) ++ rest := by
  obtain ⟨payloads, hmessages, hsizes, hbytes, -⟩ := exists_of_drain f #[] bytes
  refine ⟨payloads, _, ?_, hsizes, hbytes⟩
  rw [readAll_singleton, messages_finish_drain, hmessages]
  simp

/-- Messages that stand in front are taken one after another. -/
theorem drain_joined_append {payloads : List ByteArray}
    (hsizes : ∀ payload ∈ payloads, 1 ≤ payload.size ∧ payload.size ≤ maxPayload)
    (messages : Array ByteArray) (rest : ByteArray) :
    f.drain messages (joined (payloads.map f.message) ++ rest) =
      f.drain (messages ++ payloads) rest := by
  induction payloads generalizing messages with
  | nil => simp
  | cons payload payloads ih =>
    obtain ⟨⟨hpos, hle⟩, hsizes⟩ := List.forall_mem_cons.mp hsizes
    rw [List.map_cons, joined_cons, ByteArray.append_assoc,
      drain_of_ok_some (decode_message_append hpos hle _), ih hsizes]
    simp

theorem drain_joined {payloads : List ByteArray}
    (hsizes : ∀ payload ∈ payloads, 1 ≤ payload.size ∧ payload.size ≤ maxPayload)
    (messages : Array ByteArray) :
    f.drain messages (joined (payloads.map f.message)) =
      ⟨messages ++ payloads, ByteArray.empty, none⟩ := by
  have hempty : f.decode ByteArray.empty = (.ok none, ByteArray.empty) :=
    decode_of_size_lt (by decide)
  have hdrain := drain_joined_append (f := f) hsizes messages ByteArray.empty
  rwa [ByteArray.append_empty, drain_of_ok_none hempty] at hdrain

theorem messages_drain_of_decode (h : ∀ payload, (f.decode buffer).1 ≠ .ok (some payload)) :
    (f.drain messages buffer).messages = messages := by
  rcases hdecode : f.decode buffer with ⟨e | (_ | payload), rest⟩
  · rw [drain_of_error hdecode]
  · rw [drain_of_ok_none hdecode]
  · exact absurd (congrArg Prod.fst hdecode) (h payload)

/-- The messages taken before do not matter to those that are still to come. -/
theorem messages_drain (f : Framing) (messages : Array ByteArray) (buffer : ByteArray) :
    (f.drain messages buffer).messages = messages ++ (f.drain #[] buffer).messages := by
  obtain ⟨payloads, hmessages, hsizes, hbuffer, hdecode⟩ := exists_of_drain f messages buffer
  generalize f.drain messages buffer = i at *
  have hnone : ∀ payload, (f.decode i.buffer).1 ≠ .ok (some payload) := by
    intro payload
    rw [hdecode]
    cases i.fault <;> simp
  rw [hmessages, hbuffer, drain_joined_append hsizes, messages_drain_of_decode hnone]
  exact Array.ext' (by simp)

/-- Messages one after another are read back. -/
theorem messages_readAll_joined {payloads : List ByteArray}
    (hsizes : ∀ payload ∈ payloads, 1 ≤ payload.size ∧ payload.size ≤ maxPayload) :
    (f.readAll [joined (payloads.map f.message)]).messages = payloads.toArray := by
  rw [readAll_singleton, messages_finish_drain, drain_joined hsizes]
  simp

/-- The messages in front and those that follow are read one after another. -/
theorem messages_readAll_joined_append {payloads : List ByteArray}
    (hsizes : ∀ payload ∈ payloads, 1 ≤ payload.size ∧ payload.size ≤ maxPayload)
    (rest : ByteArray) :
    (f.readAll [joined (payloads.map f.message) ++ rest]).messages =
      payloads.toArray ++ (f.readAll [rest]).messages := by
  simp only [readAll_singleton, messages_finish_drain, drain_joined_append hsizes]
  rw [messages_drain]
  simp

/-- Bytes that start with no message hold none. -/
theorem messages_readAll_of_decode (h : ∀ payload, (f.decode buffer).1 ≠ .ok (some payload)) :
    (f.readAll [buffer]).messages = #[] := by
  rw [readAll_singleton, messages_finish_drain, messages_drain_of_decode h]

theorem messages_readAll_message (hpos : 1 ≤ payload.size) (hle : payload.size ≤ maxPayload) :
    (f.readAll [f.message payload]).messages = #[payload] := by
  have hsizes : ∀ p ∈ [payload], 1 ≤ p.size ∧ p.size ≤ maxPayload := by simp [hpos, hle]
  simpa using messages_readAll_joined (f := f) hsizes

/-- A message has six bytes at least. -/
theorem length_le_size_joined {payloads : List ByteArray}
    (hsizes : ∀ payload ∈ payloads, 1 ≤ payload.size ∧ payload.size ≤ maxPayload) :
    6 * payloads.length ≤ (joined (payloads.map f.message)).size := by
  induction payloads with
  | nil => exact Nat.zero_le _
  | cons payload payloads ih =>
    obtain ⟨⟨hpos, -⟩, hsizes⟩ := List.forall_mem_cons.mp hsizes
    have hrest := ih hsizes
    rw [List.map_cons, joined_cons, ByteArray.size_append, size_message, List.length_cons, headerSize]
    omega

/-- What is read from a stream depends on its bytes and not on the pieces in which they arrive,
neither the messages nor the error at which the reading ends. A call for a message leaves the buffer
as it is, or takes a message from it, which is at least six bytes long; so every stream has an end of
its messages, and only a message that is taken changes the buffer. -/
theorem readAll_of_pieces (f : Framing) (pieces : List ByteArray) :
    (f.readAll pieces).messages = (f.readAll [joined pieces]).messages ∧
      (f.readAll pieces).fault = (f.readAll [joined pieces]).fault ∧
      6 * (f.readAll pieces).messages.size ≤ (joined pieces).size ∧
      ∀ buffer,
        ((f.decode buffer).2 = buffer ∨
          ∃ payload, (f.decode buffer).1 = .ok (some payload) ∧
            (f.decode buffer).2.size + 6 ≤ buffer.size) ∧
        ((∀ payload, (f.decodeEnd buffer).1 ≠ .ok (some payload)) ∨
          (f.decodeEnd buffer).2.size + 6 ≤ buffer.size) := by
  have hagrees := agrees_readAll f pieces
  refine ⟨hagrees.messages, hagrees.fault, ?_, ?_⟩
  · obtain ⟨payloads, rest, hmessages, hsizes, hbytes⟩ := exists_of_readAll f (joined pieces)
    have hlength := length_le_size_joined (f := f) hsizes
    rw [hagrees.messages, hmessages, hbytes, ByteArray.size_append, List.size_toArray]
    omega
  · intro buffer
    refine ⟨decode_progress f buffer, ?_⟩
    by_cases h : ∃ payload, (f.decodeEnd buffer).1 = .ok (some payload)
    · obtain ⟨payload, hpayload⟩ := h
      exact .inr (size_add_le_of_decode (decode_of_decodeEnd (Prod.ext hpayload rfl)))
    · exact .inl (not_exists.mp h)

end CacheServer.Framing
