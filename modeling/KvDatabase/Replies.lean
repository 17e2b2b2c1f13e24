/-
What of the replies reaches the client. The sockets are non-blocking and the
handler does not look at what its `send` returns, so a reply the socket took
only a part of is not taken up again, and the next one follows the cut.

Each byte handed to the network is traced to the reply it is of and its place
there, so that bytes which happen to look alike are not taken for each other
(`replies_whole_iff`).
-/
import KvDatabase.Framing

namespace KvDatabase

/-- What a non-blocking `send` takes of a reply: all of it, a shorter prefix
(one byte at least), or nothing. -/
inductive SendOutcome
  | all
  | short (n : Nat)
  | wouldBlock
deriving DecidableEq, Repr

/-- How many bytes of a reply of this length it takes. -/
def SendOutcome.accepted (length : Nat) : SendOutcome → Nat
  | all => length
  | short n => min (n + 1) (length - 1)
  | wouldBlock => 0

/-- A byte of a reply, and where it stands. -/
structure ReplyByte where
  reply : Nat
  place : Nat
  byte : UInt8
deriving DecidableEq, Repr

/-- The bytes of the `i`th reply. -/
def tagged (i : Nat) (reply : Bytes) : List ReplyByte := reply.zipIdx.map fun (byte, place) => ⟨i, place, byte⟩

/-- The replies one after another, whole; the first has number `i`. -/
def stream (i : Nat) (replies : List Bytes) : List ReplyByte :=
  (replies.zipIdx i).flatMap fun (reply, i) => tagged i reply

/-- What these sends hand to the network. -/
def network (i : Nat) (sends : List (Bytes × SendOutcome)) : List ReplyByte :=
  (sends.zipIdx i).flatMap fun (send, i) => (tagged i send.1).take (send.2.accepted send.1.length)

/-- The replies of the runs, in order. -/
def Served.replies (s : Served) : List Bytes := s.handled.reduceOption.map Prod.snd

/-- Their sends, `outcomes` saying run by run what the send comes to if the
run makes one. -/
def Served.sends (s : Served) (outcomes : List SendOutcome) : List (Bytes × SendOutcome) :=
  (s.handled.zip outcomes).filterMap fun (handled, outcome) => handled.map fun (_, reply) => (reply, outcome)

/-! ## The sends of a run -/

theorem Served.sends_cons (s : Served) (h : Option (Bytes × Bytes)) (o : SendOutcome) (outcomes) :
    { s with handled := h :: s.handled }.sends (o :: outcomes) =
      (h.map fun (_, reply) => (reply, o)).toList ++ s.sends outcomes := by
  cases h <;> rfl

theorem Served.replies_cons (s : Served) (h : Option (Bytes × Bytes)) :
    { s with handled := h :: s.handled }.replies = (h.map Prod.snd).toList ++ s.replies := by
  cases h <;> rfl

/-- Each reply is sent once. -/
theorem sends_replies (st : Store) (b : Bytes) (events : List (RecvResult × SendOutcome)) :
    ((serve st b (events.map Prod.fst)).sends (events.map Prod.snd)).map Prod.fst =
      (serve st b (events.map Prod.fst)).replies := by
  induction events generalizing st b with
  | nil => rfl
  | cons e events ih =>
    simp only [List.map_cons, serve]
    cases (messageHandler st b e.1).exit with
    | close => cases (messageHandler st b e.1).handled <;> rfl
    | rearm =>
      simp only [Served.sends_cons, Served.replies_cons, List.map_append, ih]
      cases (messageHandler st b e.1).handled <;> rfl

/-- No reply is of one byte. -/
theorem execute_reply_length (st : Store) (command : Command) : 1 < (command.execute st).2.length := by
  cases command with
  | insert key value =>
    simp only [Command.execute]
    split
    · exact (by decide : 1 < (ascii "Empty Value Recieved, Try again\n").length)
    · exact (by decide : 1 < (ascii "Insert command was successful\n").length)
  | get key =>
    simp only [Command.execute]
    split
    · have hlen : 1 < (ascii "Get command was successful: ").length := by decide
      simp only [List.length_append]
      omega
    · exact (by decide : 1 < (ascii "Get command was successful but key dont exist\n").length)
  | delete key => exact (by decide : 1 < (ascii "Delete command was successful\n").length)
  | unknown => exact (by decide : 1 < (ascii "No command was received\n").length)

theorem messageHandler_reply {st : Store} {b : Bytes} {r : RecvResult} {message reply : Bytes}
    (h : (messageHandler st b r).handled = some (message, reply)) : ∃ command, reply = (Command.execute st command).2 := by
  cases r with
  | data chunk =>
    simp only [messageHandler] at h
    split at h
    · cases h
    · split at h
      · cases h
      · cases h
        exact ⟨_, rfl⟩
  | hungUp => cases h
  | wouldBlock => cases h
  | error => cases h

theorem serve_reply_length {st : Store} {b : Bytes} {rs : List RecvResult} :
    ∀ reply ∈ (serve st b rs).replies, 1 < reply.length := by
  induction rs generalizing st b with
  | nil => simp [serve, Served.replies]
  | cons r rs ih =>
    have hhead : ∀ reply ∈ ((messageHandler st b r).handled.map Prod.snd).toList, 1 < reply.length := by
      intro reply hr
      simp only [Option.mem_toList, Option.map_eq_some_iff] at hr
      obtain ⟨⟨message, reply⟩, hh, rfl⟩ := hr
      obtain ⟨command, rfl⟩ := messageHandler_reply hh
      exact execute_reply_length st command
    rw [serve]
    cases (messageHandler st b r).exit with
    | close =>
      intro reply hr
      exact hhead reply (by cases hh : (messageHandler st b r).handled <;> simp_all [Served.replies])
    | rearm =>
      intro reply hr
      simp only [Served.replies_cons, List.mem_append] at hr
      rcases hr with hr | hr
      · exact hhead reply hr
      · exact ih reply hr

/-! ## Short sends -/

theorem reply_of_mem_tagged {i : Nat} {reply : Bytes} {x : ReplyByte} (h : x ∈ tagged i reply) : x.reply = i := by
  obtain ⟨y, -, rfl⟩ := List.mem_map.mp h
  rfl

theorem length_tagged (i : Nat) (reply : Bytes) : (tagged i reply).length = reply.length := by simp [tagged]

theorem bytes_tagged (i : Nat) (reply : Bytes) : (tagged i reply).map ReplyByte.byte = reply := by
  simp [tagged, Function.comp_def]

theorem network_cons (i : Nat) (send : Bytes × SendOutcome) (sends) : network i (send :: sends) =
    (tagged i send.1).take (send.2.accepted send.1.length) ++ network (i + 1) sends := rfl

theorem stream_cons (i : Nat) (reply : Bytes) (replies) :
    stream i (reply :: replies) = tagged i reply ++ stream (i + 1) replies := rfl

/-- Read as bytes, the replies are what they are. -/
theorem bytes_stream (i : Nat) (replies : List Bytes) : (stream i replies).map ReplyByte.byte = replies.flatten := by
  induction replies generalizing i with
  | nil => rfl
  | cons reply replies ih => rw [stream_cons, List.map_append, bytes_tagged, ih, List.flatten_cons]

/-- What is handed over is of these replies. -/
theorem le_reply_of_mem_network {i : Nat} {sends : List (Bytes × SendOutcome)} {x : ReplyByte}
    (h : x ∈ network i sends) : i ≤ x.reply := by
  induction sends generalizing i with
  | nil => simp [network] at h
  | cons send sends ih =>
    rw [network_cons, List.mem_append] at h
    rcases h with h | h
    · exact (reply_of_mem_tagged (List.mem_of_mem_take h)).ge
    · exact Nat.le_of_succ_le (ih h)

theorem accepted_lt {length : Nat} (hl : 1 < length) {o : SendOutcome} (ho : o ≠ .all) : o.accepted length < length := by
  cases o with
  | all => exact absurd rfl ho
  | short n =>
    rw [SendOutcome.accepted]
    omega
  | wouldBlock =>
    rw [SendOutcome.accepted]
    omega

theorem accepted_eq_zero_iff {length : Nat} (hl : 1 < length) {o : SendOutcome} :
    o.accepted length = 0 ↔ o = .wouldBlock := by
  cases o with
  | all => simp [SendOutcome.accepted, Nat.ne_of_gt (Nat.lt_of_succ_lt hl)]
  | short n =>
    simp only [SendOutcome.accepted, reduceCtorEq, iff_false]
    omega
  | wouldBlock => simp [SendOutcome.accepted]

/-- Nothing is handed over exactly when every send would block. -/
theorem network_eq_nil_iff {i : Nat} {sends : List (Bytes × SendOutcome)} (hl : ∀ send ∈ sends, 1 < send.1.length) :
    network i sends = [] ↔ ∀ send ∈ sends, send.2 = .wouldBlock := by
  induction sends generalizing i with
  | nil => simp [network]
  | cons send sends ih =>
    have hsend := hl send List.mem_cons_self
    have hne : tagged i send.1 ≠ [] := by
      rw [← List.length_pos_iff, length_tagged]
      omega
    rw [network_cons, List.append_eq_nil_iff, ih fun s hs => hl s (List.mem_cons_of_mem _ hs), List.forall_mem_cons,
      List.take_eq_nil_iff, or_iff_left hne, accepted_eq_zero_iff hsend]

/-- After the cut in a reply nothing of a later one is in its place. -/
theorem eq_nil_of_cut {i n : Nat} {reply : Bytes} (hn : n < reply.length) {later rest : List ReplyByte}
    (hlater : ∀ x ∈ later, i < x.reply) (h : (tagged i reply).take n ++ later <+: tagged i reply ++ rest) :
    later = [] := by
  have hcut : (tagged i reply).drop n ≠ [] := by
    rw [ne_eq, List.drop_eq_nil_iff, length_tagged]
    omega
  have hleft : ∀ x ∈ (tagged i reply).drop n, x.reply = i := fun x hx => reply_of_mem_tagged (List.mem_of_mem_drop hx)
  have hsplit : tagged i reply ++ rest = (tagged i reply).take n ++ ((tagged i reply).drop n ++ rest) := by
    rw [← List.append_assoc, List.take_append_drop]
  rw [hsplit, List.prefix_append_right_inj] at h
  cases later with
  | nil => rfl
  | cons x later =>
    obtain ⟨y, ys, hy⟩ := List.exists_cons_of_ne_nil hcut
    rw [hy, List.cons_append, List.cons_prefix_cons] at h
    have hx : i < x.reply := hlater x List.mem_cons_self
    rw [h.1, hleft y (hy ▸ List.mem_cons_self)] at hx
    exact absurd hx (Nat.lt_irrefl i)

/-- The sends hand over a prefix of the replies exactly when no send takes
bytes after one that did not take all of its own. -/
theorem network_prefix_iff {i : Nat} {sends : List (Bytes × SendOutcome)} (hl : ∀ send ∈ sends, 1 < send.1.length) :
    network i sends <+: stream i (sends.map Prod.fst) ↔
      sends.Pairwise fun earlier later => earlier.2 = .all ∨ later.2 = .wouldBlock := by
  induction sends generalizing i with
  | nil => simp [network, stream]
  | cons send sends ih =>
    have hl' := fun s hs => hl s (List.mem_cons_of_mem send hs)
    have hsend := hl send List.mem_cons_self
    rw [network_cons, List.map_cons, stream_cons, List.pairwise_cons]
    by_cases ho : send.2 = .all
    · have htake : (tagged i send.1).take (send.2.accepted send.1.length) = tagged i send.1 := by
        rw [List.take_of_length_le]
        rw [ho, SendOutcome.accepted, length_tagged]
      rw [htake, List.prefix_append_right_inj, ih hl']
      simp [ho]
    · simp only [ho, false_or]
      constructor
      · intro hp
        have hnil := eq_nil_of_cut (accepted_lt hsend ho) (fun x hx => le_reply_of_mem_network hx) hp
        have hblock := (network_eq_nil_iff hl').mp hnil
        exact ⟨hblock, List.pairwise_of_forall_mem_list fun _ _ y hy => .inr (hblock y hy)⟩
      · intro hp
        rw [(network_eq_nil_iff hl').mpr hp.1, List.append_nil]
        exact (List.take_prefix _ _).trans (List.prefix_append _ _)

/-- **Replies.** For every run of the handler on one connection, and whatever
each `send` comes to: what is handed to the network is a prefix of the whole
replies, one after another, exactly when after a `send` that did not take all
of its reply every later one would block. -/
theorem replies_whole_iff (st : Store) (b : Bytes) (events : List (RecvResult × SendOutcome)) :
    let s := serve st b (events.map Prod.fst)
    let sends := s.sends (events.map Prod.snd)
    (stream 0 s.replies).map ReplyByte.byte = s.replies.flatten ∧
      (network 0 sends <+: stream 0 s.replies ↔
        sends.Pairwise fun earlier later => earlier.2 = .all ∨ later.2 = .wouldBlock) := by
  intro s sends
  have hreplies : sends.map Prod.fst = s.replies := sends_replies st b events
  refine ⟨bytes_stream 0 s.replies, ?_⟩
  rw [← hreplies]
  refine network_prefix_iff fun send hs => ?_
  have hmem : send.1 ∈ s.replies := hreplies ▸ List.mem_map_of_mem hs
  exact serve_reply_length send.1 hmem

/-- A client that reads slowly: four bytes of the first reply, then the whole
second one. -/
theorem reply_cut_short :
    let st := Store.mk (.empty 100 (by decide)) ⟨none, none⟩
    let c : Chunk := ⟨ascii "GET a\n", by decide, by decide⟩
    let events := [(RecvResult.data c, SendOutcome.short 3), (.data c, .all)]
    let s := serve st [] (events.map Prod.fst)
    s.isOpen = true ∧ ¬ network 0 (s.sends (events.map Prod.snd)) <+: stream 0 s.replies := by
  decide

end KvDatabase
