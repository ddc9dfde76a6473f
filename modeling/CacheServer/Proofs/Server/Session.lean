import CacheServer.Proofs.Server.Answer

/-!
Connections in turn. The messages of a connection are answered in their order, each in the state that
all messages before it have left, until an answer is too long for a message. What is sent reads back
as these answers. Bytes that belong to no whole message do nothing, so a stream may be cut between two
messages and go on as another connection.
-/

namespace CacheServer.Server

open Framing (joined)
open Text

variable {s : Server} {payload front : ByteArray} {payloads : List ByteArray}

/-- The bytes of the answers to payloads, each in the state that those before it leave. -/
def answers (s : Server) : List ByteArray → List ByteArray
  | [] => []
  | payload :: payloads => (s.answer payload).1.toBytes :: (s.answer payload).2.answers payloads

/-- Whether an answer can be sent as a message. -/
def fits (answer : ByteArray) : Bool :=
  answer.size ≤ Framing.maxPayload

/-- The answers that are sent: those before the first that is too long for a message. -/
def replies (s : Server) (payloads : List ByteArray) : List ByteArray :=
  (s.answers payloads).takeWhile fits

/-- The payloads that are carried out: those that get a reply, and the one whose answer is too long.
-/
def carriedOut (s : Server) (payloads : List ByteArray) : List ByteArray :=
  payloads.take ((s.replies payloads).length + 1)

@[simp] theorem replies_nil (s : Server) : s.replies [] = [] := rfl

theorem replies_cons_of_size_le (hsize : (s.answer payload).1.toBytes.size ≤ Framing.maxPayload)
    (payloads : List ByteArray) :
    s.replies (payload :: payloads) =
      (s.answer payload).1.toBytes :: (s.answer payload).2.replies payloads :=
  List.takeWhile_cons_of_pos (decide_eq_true hsize)

theorem replies_cons_of_lt_size (hsize : Framing.maxPayload < (s.answer payload).1.toBytes.size)
    (payloads : List ByteArray) : s.replies (payload :: payloads) = [] :=
  List.takeWhile_cons_of_neg (by simpa [fits] using hsize)

theorem carriedOut_cons_of_size_le (hsize : (s.answer payload).1.toBytes.size ≤ Framing.maxPayload)
    (payloads : List ByteArray) :
    s.carriedOut (payload :: payloads) = payload :: (s.answer payload).2.carriedOut payloads := by
  rw [carriedOut, replies_cons_of_size_le hsize, List.length_cons, List.take_succ_cons, carriedOut]

theorem carriedOut_cons_of_lt_size (hsize : Framing.maxPayload < (s.answer payload).1.toBytes.size)
    (payloads : List ByteArray) : s.carriedOut (payload :: payloads) = [payload] := by
  rw [carriedOut, replies_cons_of_lt_size hsize]
  rfl

/-- What comes of payloads on a connection that has not ended. -/
theorem Sending.foldl_add_eq {c : Sending} (hc : c.broken = false) (payloads : List ByteArray) :
    payloads.foldl add c =
      ⟨c.sent ++ joined ((c.server.replies payloads).map Framing.standard.message),
        c.server.after (c.server.carriedOut payloads),
        decide ((c.server.replies payloads).length < payloads.length)⟩ := by
  induction payloads generalizing c with
  | nil =>
    obtain ⟨sent, server, broken⟩ := c
    cases hc
    simp [carriedOut]
  | cons payload payloads ih =>
    rw [List.foldl_cons]
    by_cases hsize : (c.server.answer payload).1.toBytes.size ≤ Framing.maxPayload
    · rw [ih (by rw [add_of_size_le hc hsize]), add_of_size_le hc hsize,
        replies_cons_of_size_le hsize, carriedOut_cons_of_size_le hsize, List.map_cons,
        Framing.joined_cons, ByteArray.append_assoc]
      simp
    · have hlong := Nat.lt_of_not_le hsize
      rw [add_of_lt_size hc hlong, foldl_add_of_broken rfl, replies_cons_of_lt_size hlong,
        carriedOut_cons_of_lt_size hlong]
      simp

/-- The payloads of a stream. -/
def payloadsOf (received : ByteArray) : List ByteArray :=
  (Framing.standard.readAll [received]).messages.toList

theorem serve_eq (s : Server) (received : ByteArray) :
    s.serve received =
      (joined ((s.replies (payloadsOf received)).map Framing.standard.message),
        s.after (s.carriedOut (payloadsOf received))) := by
  rw [serve, answerAll, ← Array.foldl_toList, Sending.foldl_add_eq rfl, ByteArray.empty_append]
  rfl

theorem getElem?_answers (s : Server) (payloads : List ByteArray) (i : Nat) :
    (s.answers payloads)[i]? =
      payloads[i]?.map fun payload => ((s.after (payloads.take i)).answer payload).1.toBytes := by
  induction payloads generalizing s i with
  | nil => rfl
  | cons payload payloads ih =>
    cases i with
    | zero => rfl
    | succ i => exact ih (s.answer payload).2 i

theorem length_answers (s : Server) (payloads : List ByteArray) :
    (s.answers payloads).length = payloads.length := by
  induction payloads generalizing s with
  | nil => rfl
  | cons payload payloads ih => rw [answers, List.length_cons, List.length_cons, ih]

theorem replies_append_dropWhile (s : Server) (payloads : List ByteArray) :
    s.replies payloads ++ (s.answers payloads).dropWhile fits = s.answers payloads :=
  List.takeWhile_append_dropWhile

theorem length_replies_le (s : Server) (payloads : List ByteArray) :
    (s.replies payloads).length ≤ payloads.length := by
  rw [← length_answers s payloads, ← replies_append_dropWhile s payloads, List.length_append]
  exact Nat.le_add_right _ _

/-- Each reply is the answer in the state that the payloads before have left. -/
theorem getElem?_replies {i : Nat} (hpayload : payloads[i]? = some payload)
    (hi : i < (s.replies payloads).length) :
    (s.replies payloads)[i]? = some ((s.after (payloads.take i)).answer payload).1.toBytes := by
  have hanswer := getElem?_answers s payloads i
  rwa [← replies_append_dropWhile, List.getElem?_append_left hi, hpayload] at hanswer

/-- The first payload that gets no reply has an answer that is too long. -/
theorem maxPayload_lt_of_length_replies
    (hpayload : payloads[(s.replies payloads).length]? = some payload) :
    Framing.maxPayload <
      ((s.after (payloads.take (s.replies payloads).length)).answer payload).1.toBytes.size := by
  have hanswer := getElem?_answers s payloads (s.replies payloads).length
  rw [← replies_append_dropWhile, List.getElem?_append_right (Nat.le_refl _), Nat.sub_self,
    ← List.head?_eq_getElem?, hpayload] at hanswer
  have hlong := List.head?_dropWhile_not fits (s.answers payloads)
  rw [hanswer] at hlong
  simpa [fits] using hlong

/-- Every reply has a sigil at least. -/
theorem sized_of_mem_replies {reply : ByteArray} (hreply : reply ∈ s.replies payloads) :
    1 ≤ reply.size ∧ reply.size ≤ Framing.maxPayload := by
  have hfits : fits reply = true := List.all_eq_true.mp List.all_takeWhile reply hreply
  obtain ⟨i, hi⟩ := List.mem_iff_getElem?.mp ((List.takeWhile_sublist fits).subset hreply)
  rw [getElem?_answers, Option.map_eq_some_iff] at hi
  obtain ⟨payload, -, rfl⟩ := hi
  exact ⟨Reply.one_le_size_toBytes _, of_decide_eq_true hfits⟩

/-- What is sent on a connection reads back as the replies, and nothing is left of it. -/
theorem receive_serve (s : Server) (received : ByteArray) :
    Framing.Intake.start.receive Framing.standard (s.serve received).1 =
      ⟨(s.replies (payloadsOf received)).toArray, ByteArray.empty, none⟩ := by
  have hsizes : ∀ reply ∈ s.replies (payloadsOf received),
      1 ≤ reply.size ∧ reply.size ≤ Framing.maxPayload := fun _ => sized_of_mem_replies
  rw [serve_eq, Framing.Intake.receive, Framing.Intake.start]
  dsimp only
  rw [ByteArray.empty_append, Framing.drain_joined hsizes]
  simp

/-- The stream is made of whole messages, so that it ends where one ends or where none has begun. -/
def EndsOnMessage (received : ByteArray) : Prop :=
  ∃ payloads, Delivered payloads ∧ received = joined (payloads.map Framing.standard.message)

theorem payloadsOf_joined_append (hpayloads : Delivered payloads) (rest : ByteArray) :
    payloadsOf (joined (payloads.map Framing.standard.message) ++ rest) =
      payloads ++ payloadsOf rest := by
  rw [payloadsOf, Framing.messages_readAll_joined_append hpayloads]
  simp [payloadsOf]

theorem payloadsOf_joined (hpayloads : Delivered payloads) :
    payloadsOf (joined (payloads.map Framing.standard.message)) = payloads := by
  rw [payloadsOf, Framing.messages_readAll_joined hpayloads]

/-- Bytes behind the last message that hold no message do nothing. -/
theorem serve_append_of_decode (s : Server) (hfront : EndsOnMessage front) {rest : ByteArray}
    (hrest : ∀ payload, (Framing.standard.decode rest).1 ≠ .ok (some payload)) :
    s.serve (front ++ rest) = s.serve front := by
  obtain ⟨payloads, hpayloads, rfl⟩ := hfront
  have hnone : payloadsOf rest = [] := by
    rw [payloadsOf, Framing.messages_readAll_of_decode hrest]
  rw [serve_eq, serve_eq, payloadsOf_joined_append hpayloads, payloadsOf_joined hpayloads, hnone,
    List.append_nil]

/-- A stream may go on as another connection where a message ends, unless an answer before has ended
the connection. -/
theorem serve_append (s : Server) (hfront : EndsOnMessage front)
    (hopen : (s.answerAll (Framing.standard.readAll [front]).messages).broken = false)
    (back : ByteArray) :
    s.serve (front ++ back) =
      ((s.serve front).1 ++ ((s.serve front).2.serve back).1, ((s.serve front).2.serve back).2) := by
  obtain ⟨payloads, hpayloads, rfl⟩ := hfront
  have hcut := payloadsOf_joined_append hpayloads back
  have hfirst := payloadsOf_joined hpayloads
  simp only [payloadsOf] at hcut hfirst
  rw [answerAll, ← Array.foldl_toList, hfirst] at hopen
  simp only [serve, answerAll, ← Array.foldl_toList, hcut, hfirst, List.foldl_append]
  generalize payloads.foldl Sending.add ⟨ByteArray.empty, s, false⟩ = c at hopen
  rw [Sending.foldl_add_eq hopen, Sending.foldl_add_eq (c := ⟨ByteArray.empty, c.server, false⟩) rfl,
    ByteArray.empty_append]

/-- The payloads that are carried out on connections in turn. -/
def carriedOutAll (s : Server) : List ByteArray → List ByteArray
  | [] => []
  | received :: rest =>
    s.carriedOut (payloadsOf received) ++ (s.serve received).2.carriedOutAll rest

theorem serveAll_cons (s : Server) (received : ByteArray) (rest : List ByteArray) :
    s.serveAll (received :: rest) =
      ((s.serve received).1 :: ((s.serve received).2.serveAll rest).1,
        ((s.serve received).2.serveAll rest).2) := rfl

/-- Connections leave the server as the messages carried out on them do. -/
theorem snd_serveAll (s : Server) (connections : List ByteArray) :
    (s.serveAll connections).2 = s.after (s.carriedOutAll connections) := by
  induction connections generalizing s with
  | nil => rfl
  | cons received rest ih =>
    rw [serveAll_cons, carriedOutAll, after_append, ih, serve_eq]

/-- The messages that one more connection adds are carried out behind all others. -/
theorem carriedOutAll_snoc (s : Server) (earlier : List ByteArray) (received : ByteArray) :
    s.carriedOutAll (earlier ++ [received]) =
      s.carriedOutAll earlier ++
        (s.after (s.carriedOutAll earlier)).carriedOut (payloadsOf received) := by
  induction earlier generalizing s with
  | nil => simp [carriedOutAll]
  | cons first earlier ih =>
    rw [List.cons_append, carriedOutAll, ih, carriedOutAll, List.append_assoc, after_append, serve_eq]

theorem serveAll_append (s : Server) (earlier later : List ByteArray) :
    s.serveAll (earlier ++ later) =
      ((s.serveAll earlier).1 ++ ((s.serveAll earlier).2.serveAll later).1,
        ((s.serveAll earlier).2.serveAll later).2) := by
  induction earlier generalizing s with
  | nil => rfl
  | cons received earlier ih => rw [List.cons_append, serveAll_cons, serveAll_cons, ih, List.cons_append]

theorem length_fst_serveAll (s : Server) (connections : List ByteArray) :
    (s.serveAll connections).1.length = connections.length := by
  induction connections generalizing s with
  | nil => rfl
  | cons received rest ih => rw [serveAll_cons, List.length_cons, List.length_cons, ih]

theorem getElem?_serveAll (s : Server) (earlier : List ByteArray) (received : ByteArray)
    (later : List ByteArray) :
    (s.serveAll (earlier ++ received :: later)).1[earlier.length]? =
      some ((s.serveAll earlier).2.serve received).1 := by
  rw [serveAll_append, List.getElem?_append_right (Nat.le_of_eq (length_fst_serveAll s earlier)),
    length_fst_serveAll, Nat.sub_self, serveAll_cons, List.getElem?_cons_zero]

/-- The law of sessions. Connections that are served in turn get one reply for each of their messages,
in order, up to the first answer that is too long for a message. The answer to a message is what its
line, without the blanks around it, makes of the store, and a message that is no UTF-8 is answered with
an error and leaves the store as it is; the store is the one that the lines of all messages before have
left, those on this connection and those carried out on earlier ones, and nothing else has changed it.
The replies read back from what is sent, and nothing is left of it. What follows the last whole message
of a stream does nothing, be it a message cut short or a bad header and any bytes after it. A stream that
ends where a message ends may go on with other bytes on the same connection or on another one, which
gets the same replies and leaves the same server, unless an answer ended the connection before. -/
theorem replies_of_connections (s₀ : Server) (earlier : List ByteArray) (received : ByteArray)
    (later : List ByteArray) :
    let before := s₀.carriedOutAll earlier
    let s := s₀.after before
    let payloads := (Framing.standard.readAll [received]).messages.toList
    let replies := s.replies payloads
    let storeAfter (done : List ByteArray) :=
      s₀.store.serveAll (requestsOf s₀.draws s₀.answered done)
    (∃ sent, (s₀.serveAll (earlier ++ received :: later)).1[earlier.length]? = some sent ∧
      Framing.Intake.start.receive Framing.standard sent =
        ⟨replies.toArray, ByteArray.empty, none⟩) ∧
    (s₀.serveAll earlier).2 = s ∧
    (s₀.serveAll (earlier ++ [received])).2 = s.after (payloads.take (replies.length + 1)) ∧
    s₀.carriedOutAll (earlier ++ [received]) = before ++ payloads.take (replies.length + 1) ∧
    (s₀.serveAll (earlier ++ [received])).2.store =
      storeAfter (before ++ payloads.take (replies.length + 1)) ∧
    replies.length ≤ payloads.length ∧
    (∀ i payload, payloads[i]? = some payload →
      let done := before ++ payloads.take i
      let answer := ((s.after (payloads.take i)).answer payload).1
      (∀ line, Utf8.decode payload = .ok line →
        (answer, storeAfter (done ++ [payload])) =
          (storeAfter done).execute (s₀.draws (s₀.answered + done.length)) (trim line)) ∧
      (∀ fault, Utf8.decode payload = .error fault →
        (answer, storeAfter (done ++ [payload])) =
          (.error ("Invalid UTF-8 in request: " ++ fault.message), storeAfter done)) ∧
      (i < replies.length → replies[i]? = some answer.toBytes) ∧
      (i = replies.length → Framing.maxPayload < answer.toBytes.size)) ∧
    ∀ front, EndsOnMessage front →
      (∀ rest, (Framing.standard.decode rest).1 = .ok none →
        s.serve (front ++ rest) = s.serve front) ∧
      (∀ header e, (Framing.standard.decode header).1 = .error e →
        ∀ more, s.serve (front ++ (header ++ more)) = s.serve front) ∧
      ((s.answerAll (Framing.standard.readAll [front]).messages).broken = false →
        ∀ back, s.serve (front ++ back) =
          (joined (s.serveAll [front, back]).1, (s.serveAll [front, back]).2)) := by
  intro before s payloads replies storeAfter
  have hs : (s₀.serveAll earlier).2 = s := snd_serveAll s₀ earlier
  have hcarried : s₀.carriedOutAll (earlier ++ [received]) =
      before ++ payloads.take (replies.length + 1) := carriedOutAll_snoc s₀ earlier received
  refine ⟨⟨(s.serve received).1, ?_, receive_serve s received⟩, hs, ?_, hcarried, ?_,
    length_replies_le s payloads, ?_, ?_⟩
  · rw [getElem?_serveAll, hs]
  · rw [snd_serveAll, hcarried, after_append]
  · rw [snd_serveAll, hcarried, store_after]
  · intro i payload hpayload done answer
    have hanswer : answer = ((s₀.after done).answer payload).1 := by rw [after_append]
    refine ⟨?_, ?_, getElem?_replies hpayload, ?_⟩
    · intro line hline
      rw [hanswer]
      exact answer_after_of_line hline s₀ done
    · intro fault hfault
      rw [hanswer]
      exact answer_after_of_fault hfault s₀ done
    · rintro rfl
      exact maxPayload_lt_of_length_replies hpayload
  · intro front hfront
    refine ⟨?_, ?_, ?_⟩
    · intro rest hrest
      exact serve_append_of_decode s hfront (by simp [hrest])
    · intro header e hheader more
      have hmore := Framing.decode_append_of_error (Prod.ext hheader rfl) more
      exact serve_append_of_decode s hfront (by simp [hmore])
    · intro hopen back
      rw [serve_append s hfront hopen]
      simp [serveAll]

theorem replies_of_connections_get :
    let s₀ := start (Store.fresh SipHash.rowHash .lru 2) fun _ => 0
    let payloads := ["GET k".toUTF8, ⟨#[0xFF]⟩]
    let set := Framing.standard.message " SET k v\n".toUTF8
    let received := joined (payloads.map Framing.standard.message)
    let replies := ["+v\r\n".toUTF8,
      "-Invalid UTF-8 in request: invalid utf-8 sequence of 1 bytes from index 0\r\n".toUTF8]
    let cut : ByteArray := ⟨#[0, 0, 0, 9]⟩
    let header : ByteArray := ⟨#[0, 0, 0, 4, 2]⟩
    let s := s₀.after (s₀.carriedOutAll [set])
    (∃ sent, (s₀.serveAll [set, received]).1[1]? = some sent ∧
      Framing.Intake.start.receive Framing.standard sent =
        ⟨replies.toArray, ByteArray.empty, none⟩) ∧
    ((s₀.serveAll [set, received]).2.store.get "k").1 = some "v" ∧
    EndsOnMessage received ∧
    (Framing.standard.decode cut).1 = .ok none ∧
    (Framing.standard.decode header).1 = .error (.unsupportedVersion 1 2) ∧
    (s.answerAll (Framing.standard.readAll [received]).messages).broken = false ∧
    s.serve (received ++ cut) = s.serve received ∧
    s.serve (received ++ (header ++ set)) = s.serve received ∧
    s.serve (received ++ set) =
      (joined (s.serveAll [received, set]).1, (s.serveAll [received, set]).2) := by
  intro s₀ payloads set received replies cut header s
  have hdelivered : Delivered payloads := by simp [Delivered, payloads]; decide
  have hset : (Framing.standard.readAll [set]).messages = #[" SET k v\n".toUTF8] :=
    Framing.messages_readAll_message (by decide) (by decide)
  have hpayloads : (Framing.standard.readAll [received]).messages.toList = payloads :=
    payloadsOf_joined hdelivered
  obtain ⟨-, -, -, hearlier, -⟩ := replies_of_connections s₀ [] set []
  obtain ⟨hsent, -, -, -, hstore, hlength, hanswers, hfronts⟩ :=
    replies_of_connections s₀ [set] received []
  have hbefore : s₀.carriedOutAll [set] = [" SET k v\n".toUTF8] := by
    simpa [hset, carriedOutAll] using hearlier
  have hs : s = s₀.after [" SET k v\n".toUTF8] := congrArg s₀.after hbefore
  simp only [hpayloads, hbefore, ← hs] at hsent hstore hlength hanswers
  have hreplies : s.replies payloads = replies := by
    obtain ⟨hline, -, hfirst, hfirst'⟩ := hanswers 0 "GET k".toUTF8 rfl
    obtain ⟨-, hfault, hsecond, hsecond'⟩ := hanswers 1 ⟨#[0xFF]⟩ rfl
    have hvalue : ((s.after (payloads.take 0)).answer "GET k".toUTF8).1 = .text "v" := by
      refine (congrArg Prod.fst (hline "GET k" (Utf8.decode_toUTF8 "GET k"))).trans ?_
      subst s₀ payloads
      decide +kernel
    have herror := congrArg Prod.fst (hfault (.malformed 1 0) (by cbv))
    dsimp only at herror
    rw [hvalue] at hfirst hfirst'
    rw [herror] at hsecond hsecond'
    have hne : 0 ≠ (s.replies payloads).length := fun h => absurd (hfirst' h) (by decide +kernel)
    have hne' : 1 ≠ (s.replies payloads).length := fun h => absurd (hsecond' h) (by decide +kernel)
    have hle : (s.replies payloads).length ≤ 2 := hlength
    obtain ⟨first, second, heq⟩ := List.length_eq_two.mp (by omega : (s.replies payloads).length = 2)
    rw [heq] at hfirst hsecond ⊢
    obtain rfl := Option.some.inj (hfirst Nat.two_pos)
    obtain rfl := Option.some.inj (hsecond Nat.one_lt_two)
    decide +kernel
  rw [hreplies] at hsent hstore
  rw [List.singleton_append] at hstore
  have hends : EndsOnMessage received := ⟨payloads, hdelivered, rfl⟩
  have hcut : (Framing.standard.decode cut).1 = .ok none := rfl
  have hheader : (Framing.standard.decode header).1 = .error (.unsupportedVersion 1 2) := rfl
  have hopen : (s.answerAll (Framing.standard.readAll [received]).messages).broken = false := by
    rw [answerAll, ← Array.foldl_toList, hpayloads, Sending.foldl_add_eq rfl, hreplies]
    rfl
  obtain ⟨hnothing, hbad, hmore⟩ := hfronts received hends
  refine ⟨hsent, ?_, hends, hcut, hheader, hopen, hnothing cut hcut, hbad header _ hheader set,
    hmore hopen set⟩
  rw [hstore]
  subst s₀ payloads replies
  decide +kernel

end CacheServer.Server
