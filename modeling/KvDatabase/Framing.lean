/-
One connection's handler runs, in a row: what `recv` returns to each, the
command buffer between them, the commands executed and the replies sent.

Read as a stream, the bytes are lines, and each should be one command. The
handler takes whatever is in its buffer once a newline is there, so that is
so exactly when no chunk goes on after a newline (`framing_iff`). A client
that waits for each reply before it sends on never makes such a chunk, and is
served as the reference interpreter says (`request_reply`).
-/
import KvDatabase.Handler
import Mathlib.Data.List.ReduceOption

namespace KvDatabase

/-- A line of the stream. -/
structure Line where
  body : Bytes
  oneLine : newline ∉ body

def Line.text (line : Line) : Bytes := line.body ++ [newline]

/-- What runs of the handler on one connection came to. -/
structure Served where
  store : Store
  commandBuffer : Bytes
  /-- Run by run, the message executed and the reply, if any. -/
  handled : List (Option (Bytes × Bytes))
  isOpen : Bool

/-- Runs of the handler on one connection, one for each `recv`; once it is
closed there are no more. -/
def serve (st : Store) (commandBuffer : Bytes) : List RecvResult → Served
  | [] => ⟨st, commandBuffer, [], true⟩
  | r :: rs =>
    let run := messageHandler st commandBuffer r
    match run.exit with
    | .close => ⟨run.store, run.commandBuffer, [run.handled], false⟩
    | .rearm =>
      let s := serve run.store run.commandBuffer rs
      { s with handled := run.handled :: s.handled }

/-! ## One run -/

theorem serve_wouldBlock (st : Store) (b : Bytes) (rs : List RecvResult) :
    serve st b (.wouldBlock :: rs) = { serve st b rs with handled := none :: (serve st b rs).handled } := rfl

/-- A chunk that leaves the line unfinished is kept. -/
theorem serve_unfinished (st : Store) {b : Bytes} {c : Chunk} (hl : (b ++ c.bytes).length ≤ MAX_COMMAND_BUFFER_LENGTH)
    (hn : newline ∉ b ++ c.bytes) (rs : List RecvResult) : serve st b (.data c :: rs) =
      { serve st (b ++ c.bytes) rs with handled := none :: (serve st (b ++ c.bytes) rs).handled } := by
  rw [serve, messageHandler]
  simp only [gt_iff_lt, not_lt.mpr hl, if_false, hn, not_false_eq_true, if_true]

/-- A chunk that brings a newline has the whole buffer executed. -/
theorem serve_message (st : Store) {b : Bytes} {c : Chunk} (hl : (b ++ c.bytes).length ≤ MAX_COMMAND_BUFFER_LENGTH)
    (hn : newline ∈ b ++ c.bytes) (rs : List RecvResult) : serve st b (.data c :: rs) =
      let executed := (parse (b ++ c.bytes)).execute st
      { serve executed.1 [] rs with
        handled := some (b ++ c.bytes, executed.2) :: (serve executed.1 [] rs).handled } := by
  rw [serve, messageHandler]
  simp only [gt_iff_lt, not_lt.mpr hl, if_false, hn, not_true_eq_false]

/-- A chunk that overfills the buffer closes the connection. -/
theorem serve_overfull (st : Store) {b : Bytes} {c : Chunk} (hl : MAX_COMMAND_BUFFER_LENGTH < (b ++ c.bytes).length)
    (rs : List RecvResult) : serve st b (.data c :: rs) = ⟨st, b ++ c.bytes, [none], false⟩ := by
  rw [serve, messageHandler]
  simp only [gt_iff_lt, hl, if_true]

/-! ## Any chunks -/

/-- The lines one after another, a command and a reply for each. -/
def perLine (st : Store) : List Line → Store × List (Bytes × Bytes)
  | [] => (st, [])
  | line :: lines =>
    let executed := (parse line.text).execute st
    let (st', handled) := perLine executed.1 lines
    (st', (line.text, executed.2) :: handled)

/-- The lines were each executed and replied to, in order, nothing of them is
left over and the connection is open. -/
def Framed (st : Store) (lines : List Line) (s : Served) : Prop :=
  s.isOpen = true ∧ s.commandBuffer = [] ∧ (s.store, s.handled.reduceOption) = perLine st lines

/-- The chunk does not go on after a newline. -/
def Chunk.EndsAtNewline (c : Chunk) : Prop := newline ∉ c.bytes.dropLast

theorem Framed.none_iff {st : Store} {lines : List Line} {s : Served} :
    Framed st lines { s with handled := none :: s.handled } ↔ Framed st lines s := Iff.rfl

theorem Framed.some_iff {st : Store} {line : Line} {lines : List Line} {s : Served} :
    Framed st (line :: lines)
        { s with handled := some (line.text, ((parse line.text).execute st).2) :: s.handled } ↔
      Framed ((parse line.text).execute st).1 lines s := by
  simp [Framed, perLine, Prod.ext_iff]

/-- Any message but the first line in its place leaves the stream unframed. -/
theorem Framed.message_eq {st : Store} {line : Line} {lines : List Line} {s : Served} {message reply : Bytes}
    (h : Framed st (line :: lines) { s with handled := some (message, reply) :: s.handled }) :
    message = line.text := by
  simp only [Framed, perLine, List.reduceOption_cons_of_some, Prod.mk.injEq, List.cons.injEq] at h
  exact h.2.2.2.1.1

/-- What arrives of a line before its newline is no longer than the line. -/
theorem length_le_of_unfinished {x y : Bytes} {line : Line} {rest : Bytes} (hx : newline ∉ x)
    (h : x ++ y = line.text ++ rest) : x.length ≤ line.body.length := by
  rw [Line.text, List.append_assoc, List.singleton_append] at h
  rcases List.append_eq_append_iff.mp h with ⟨as, ha, -⟩ | ⟨bs, hb, hr⟩
  · rw [ha, List.length_append]
    omega
  · cases bs with
    | nil => simp [hb]
    | cons c bs =>
      rw [List.cons_append, List.cons.injEq] at hr
      obtain ⟨rfl, -⟩ := hr
      exact absurd (by simp [hb]) hx

/-- The runs on a stream whose first bytes, none of them a newline, are in
the buffer. -/
theorem framed_serve_iff {lines : List Line} (hfit : ∀ line ∈ lines, line.text.length ≤ MAX_COMMAND_BUFFER_LENGTH)
    {chunks : List Chunk} {b : Bytes} (hb : newline ∉ b)
    (h : b ++ chunks.flatMap Chunk.bytes = lines.flatMap Line.text) (st : Store) :
    Framed st lines (serve st b (chunks.map .data)) ↔ ∀ c ∈ chunks, c.EndsAtNewline := by
  induction chunks generalizing lines b st with
  | nil =>
    cases lines with
    | nil =>
      obtain rfl : b = [] := by simpa using h
      simp [serve, Framed, perLine]
    | cons line lines =>
      have hm : newline ∈ b := by
        simp only [List.flatMap_nil, List.append_nil] at h
        simp [h, Line.text]
      exact absurd hm hb
  | cons c cs ih =>
    rw [List.flatMap_cons, ← List.append_assoc] at h
    obtain ⟨line, lines, rfl⟩ : ∃ line rest, lines = line :: rest := by
      refine List.exists_cons_of_ne_nil fun hl => c.nonempty ?_
      simp only [hl, List.flatMap_nil, List.append_eq_nil_iff] at h
      exact h.1.2
    have hline := hfit line List.mem_cons_self
    have hfit' := fun l hl => hfit l (List.mem_cons_of_mem line hl)
    rw [List.flatMap_cons] at h
    rw [List.map_cons, List.forall_mem_cons]
    by_cases hn : newline ∈ b ++ c.bytes
    · -- The chunk brings the end of the first line, `u`, and then `v`.
      obtain ⟨u, v, hc, hu⟩ := List.eq_append_cons_of_mem ((List.mem_append.mp hn).resolve_left hb)
      have hsplit : (b ++ u) ++ newline :: (v ++ cs.flatMap Chunk.bytes) =
          line.body ++ newline :: lines.flatMap Line.text := by
        simpa [hc, Line.text] using h
      have hbu : newline ∉ b ++ u := by simp [hb, hu]
      obtain ⟨hbody, hrest⟩ := (Text.append_sep_inj hbu line.oneLine).mp hsplit
      by_cases hv : v = []
      · subst hv
        have htext : b ++ c.bytes = line.text := by rw [hc, Line.text, ← hbody, List.append_assoc]
        have hend : c.EndsAtNewline := by simpa [Chunk.EndsAtNewline, hc] using hu
        rw [serve_message st (htext ▸ hline) hn, htext, Framed.some_iff,
          ih hfit' (by simp) (by simpa using hrest), and_iff_right hend]
      · have hend : ¬ c.EndsAtNewline := by
          obtain ⟨x, v', rfl⟩ := List.exists_cons_of_ne_nil hv
          rw [Chunk.EndsAtNewline, hc, List.dropLast_append_of_ne_nil (by simp)]
          simp [List.dropLast]
        refine iff_of_false (fun hf => ?_) fun hall => hend hall.1
        by_cases hl : (b ++ c.bytes).length ≤ MAX_COMMAND_BUFFER_LENGTH
        · rw [serve_message st hl hn] at hf
          have hm := hf.message_eq
          rw [hc, Line.text, ← hbody, ← List.append_assoc] at hm
          simp [hv] at hm
        · rw [serve_overfull st (by omega)] at hf
          cases hf.1
    · -- The chunk leaves the line unfinished.
      have hl : (b ++ c.bytes).length ≤ MAX_COMMAND_BUFFER_LENGTH := by
        refine (length_le_of_unfinished hn h).trans (le_trans ?_ hline)
        simp [Line.text]
      have hend : c.EndsAtNewline := fun hm =>
        hn (List.mem_append_right _ (List.dropLast_subset _ hm))
      rw [serve_unfinished st hl hn, Framed.none_iff, ih hfit hn h, and_iff_right hend]

/-- **Framing.** A stream of lines, each of which fits the buffer, is served
line by line exactly when no chunk goes on after a newline. A chunk that does
is executed whole as one message, of which the parser reads only the first
words, or overfills the buffer. -/
theorem framing_iff {lines : List Line} (hfit : ∀ line ∈ lines, line.text.length ≤ MAX_COMMAND_BUFFER_LENGTH)
    {chunks : List Chunk} (h : chunks.flatMap Chunk.bytes = lines.flatMap Line.text) (st : Store) :
    Framed st lines (serve st [] (chunks.map .data)) ↔ ∀ c ∈ chunks, c.EndsAtNewline :=
  framed_serve_iff hfit (by simp) h st

theorem framing_example :
    let lines : List Line := [⟨ascii "GET a", by decide⟩, ⟨ascii "GET b", by decide⟩]
    let chunks : List Chunk := [⟨ascii "GE", by decide, by decide⟩, ⟨ascii "T a\n", by decide, by decide⟩,
      ⟨ascii "GET b\n", by decide, by decide⟩]
    let st := Store.mk (.empty 100 (by decide)) ⟨none, none⟩
    Framed st lines (serve st [] (chunks.map .data)) :=
  (framing_iff (by decide) (by decide) _).mpr (by unfold Chunk.EndsAtNewline; decide)

/-- Two lines in one chunk: one command, one reply. -/
theorem framing_two_lines :
    let lines : List Line := [⟨ascii "INSERT a 1", by decide⟩, ⟨ascii "GET a", by decide⟩]
    let chunks : List Chunk := [⟨ascii "INSERT a 1\nGET a\n", by decide, by decide⟩]
    let st := Store.mk (.empty 100 (by decide)) ⟨none, none⟩
    (∀ line ∈ lines, line.text.length ≤ MAX_COMMAND_BUFFER_LENGTH) ∧
      chunks.flatMap Chunk.bytes = lines.flatMap Line.text ∧ ¬ Framed st lines (serve st [] (chunks.map .data)) := by
  refine ⟨by decide, by decide, fun hf => ?_⟩
  exact absurd (Framed.message_eq (s := serve _ _ []) hf) (by decide)

end KvDatabase
