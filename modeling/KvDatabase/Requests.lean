/-
A client that waits for each reply before it sends its next line, and the
interpreter it should be talking to.

The handler parses by extraction and reads absence off an empty string; the
reference (`interpret`) splits the line into words and looks a key up. They
agree because no key and no value of the map is ever empty (`Proper`).
Around that, `serve` puts a line together from whatever pieces it arrives in
and executes it when its last piece does (`request_reply`).
-/
import KvDatabase.Framing

namespace KvDatabase

/-- What a line does to a map, and what it is answered. -/
def interpret (m : Bytes → Option Bytes) (line : Bytes) : (Bytes → Option Bytes) × Bytes :=
  match Text.words isSpace line with
  | [] => (m, ascii "No command was received\n")
  | command :: args =>
    if command = INSERT then
      match args with
      | key :: value :: _ => (Function.update m key (some value), ascii "Insert command was successful\n")
      | _ => (m, ascii "Empty Value Recieved, Try again\n")
    else if command = GET then
      match args.head?.bind m with
      | some value => (m, ascii "Get command was successful: " ++ value ++ ascii "\n")
      | none => (m, ascii "Get command was successful but key dont exist\n")
    else if command = DELETE then
      match args with
      | key :: _ => (Function.update m key none, ascii "Delete command was successful\n")
      | [] => (m, ascii "Delete command was successful\n")
    else (m, ascii "No command was received\n")

/-- The bytes a `recv` brings. -/
def RecvResult.bytes : RecvResult → Bytes
  | .data c => c.bytes
  | .hungUp | .wouldBlock | .error => []

def received (rs : List RecvResult) : Bytes := rs.flatMap RecvResult.bytes

theorem received_cons (r : RecvResult) (rs) : received (r :: rs) = r.bytes ++ received rs := List.flatMap_cons

/-- A request line as `recv` delivers it, in chunks with would-blocks among
them: the last chunk, and what comes before it. -/
structure Request where
  line : Line
  early : List RecvResult
  last : Chunk
  gradual : ∀ r ∈ early, r = .wouldBlock ∨ ∃ c, r = .data c
  whole : received early ++ last.bytes = line.text

def Request.events (r : Request) : List RecvResult := r.early ++ [.data r.last]

/-- What a client sees that sends these requests one by one, each after the
reply to the one before, to a server that holds `m`: run by run what was
executed and answered, then the map, and whether the connection is open. A
line is answered when its last chunk arrives; one that is too long is not,
and closes the connection with that chunk or before it. -/
inductive Answered : (Bytes → Option Bytes) → List Request → List (Option (Bytes × Bytes)) →
    (Bytes → Option Bytes) → Bool → Prop
  | done : Answered m [] [] m true
  | answer : r.line.text.length ≤ MAX_COMMAND_BUFFER_LENGTH →
      Answered (interpret m r.line.text).1 rs out m' isOpen →
      Answered m (r :: rs)
        (List.replicate r.early.length none ++ some (r.line.text, (interpret m r.line.text).2) :: out) m' isOpen
  | tooLong : MAX_COMMAND_BUFFER_LENGTH < r.line.text.length → k ≤ r.early.length →
      Answered m (r :: rs) (List.replicate (k + 1) none) m false

/-! ## The parser and the interpreter -/

/-- Absence can be read off an empty string: no key and no value is one. -/
def Proper (m : Bytes → Option Bytes) : Prop := ∀ k v, m k = some v → k ≠ [] ∧ v ≠ []

theorem Proper.update {m : Bytes → Option Bytes} (h : Proper m) {key : Bytes} {o : Option Bytes}
    (ho : ∀ v, o = some v → key ≠ [] ∧ v ≠ []) : Proper (Function.update m key o) := by
  intro k v hv
  by_cases hk : k = key
  · subst hk
    rw [Function.update_self] at hv
    exact ho v hv
  · rw [Function.update_of_ne hk] at hv
    exact h k v hv

theorem Proper.empty_key {m : Bytes → Option Bytes} (h : Proper m) : m [] = none := by
  cases hm : m [] with
  | none => rfl
  | some v => exact absurd rfl (h [] v hm).1

/-- The parser reads the line's first words, an empty string for each that is
missing. -/
theorem parse_eq_words (message : Bytes) : parse message =
    let words := Text.words isSpace message
    if words.headD [] = INSERT then .insert (words.tail.headD []) (words.tail.tail.headD [])
    else if words.headD [] = GET then .get (words.tail.headD [])
    else if words.headD [] = DELETE then .delete (words.tail.headD [])
    else .unknown := by
  simp only [parse, Text.extract_fst, Text.words_extract_snd]

/-- A GET's answer. -/
theorem get_response {m : Bytes → Option Bytes} (h : Proper m) (hashMap : HashMap) (hm : hashMap.contents = m)
    (key : Bytes) :
    (if hashMap.get key ≠ [] then ascii "Get command was successful: " ++ hashMap.get key ++ ascii "\n"
      else ascii "Get command was successful but key dont exist\n") =
    match m key with
    | some value => ascii "Get command was successful: " ++ value ++ ascii "\n"
    | none => ascii "Get command was successful but key dont exist\n" := by
  rw [HashMap.get_eq, hm]
  cases hk : m key with
  | none => rfl
  | some v => simp [(h key v hk).2]

/-- Executing a message is interpreting it, and keeps the map proper. -/
theorem execute_interpret {st : Store} (h : Proper st.hashMap.contents) (message : Bytes) :
    let executed := (parse message).execute st
    (executed.1.hashMap.contents, executed.2) = interpret st.hashMap.contents message ∧
      Proper executed.1.hashMap.contents := by
  have hwords : ∀ w ∈ Text.words isSpace message, w ≠ [] := fun w hw => Text.ne_nil_of_mem_words hw
  rw [parse_eq_words, interpret]
  generalize Text.words isSpace message = words at hwords ⊢
  cases words with
  | nil => exact ⟨rfl, h⟩
  | cons command args =>
    simp only [List.headD_cons, List.tail_cons]
    by_cases hi : command = INSERT
    · simp only [hi, if_true, Command.execute]
      rcases args with _ | ⟨key, _ | ⟨value, rest⟩⟩
      · exact ⟨rfl, h⟩
      · exact ⟨rfl, h⟩
      · have hk : key ≠ [] := hwords key (by simp)
        have hv : value ≠ [] := hwords value (by simp)
        simp only [List.headD_cons, List.tail_cons, hv, if_false, HashMap.contents_insert]
        exact ⟨rfl, h.update fun v he => by cases he; exact ⟨hk, hv⟩⟩
    · by_cases hg : command = GET
      · simp only [hg, if_false, if_true, show GET ≠ INSERT by decide, Command.execute, get_response h _ rfl]
        refine ⟨?_, h⟩
        cases args with
        | nil => simp [h.empty_key]
        | cons key rest =>
          simp only [List.headD_cons, List.head?_cons, Option.bind_some]
          split <;> rfl
      · by_cases hd : command = DELETE
        · simp only [hd, if_false, if_true, show DELETE ≠ INSERT by decide, show DELETE ≠ GET by decide,
            Command.execute, HashMap.contents_remove]
          refine ⟨?_, h.update fun v he => by cases he⟩
          cases args with
          | nil => simp [WriteLog.apply, h.empty_key]
          | cons key rest => rfl
        · simp only [hi, hg, hd, if_false]
          exact ⟨rfl, h⟩

/-! ## The pieces of a line -/

/-- Chunks that leave the line unfinished, and would-blocks, are runs that do
nothing but fill the buffer. -/
theorem serve_early (st : Store) {early : List RecvResult} (hg : ∀ r ∈ early, r = .wouldBlock ∨ ∃ c, r = .data c)
    {b : Bytes} (hn : newline ∉ b ++ received early)
    (hl : (b ++ received early).length ≤ MAX_COMMAND_BUFFER_LENGTH) (rs : List RecvResult) :
    serve st b (early ++ rs) =
      let s := serve st (b ++ received early) rs
      { s with handled := List.replicate early.length none ++ s.handled } := by
  induction early generalizing b with
  | nil => simp [received]
  | cons r early ih =>
    have hg' := fun r' hr' => hg r' (List.mem_cons_of_mem r hr')
    rcases hg r List.mem_cons_self with rfl | ⟨c, rfl⟩
    · rw [List.cons_append, serve_wouldBlock, ih hg' hn hl]
      rfl
    · rw [received_cons, ← List.append_assoc, RecvResult.bytes] at hn hl
      have hn' : newline ∉ b ++ c.bytes := fun hm => hn (List.mem_append_left _ hm)
      have hl' : (b ++ c.bytes).length ≤ MAX_COMMAND_BUFFER_LENGTH := by
        rw [List.length_append] at hl
        omega
      rw [List.cons_append, serve_unfinished st hl' hn', ih hg' hn hl, received_cons, RecvResult.bytes,
        ← List.append_assoc]
      rfl

/-- A line that is too long closes the connection, at the latest with its
last chunk. -/
theorem serve_tooLong (st : Store) {early : List RecvResult} (hg : ∀ r ∈ early, r = .wouldBlock ∨ ∃ c, r = .data c)
    {b : Bytes} (hn : newline ∉ b ++ received early) {last : Chunk}
    (hl : MAX_COMMAND_BUFFER_LENGTH < (b ++ received early ++ last.bytes).length) (rs : List RecvResult) :
    ∃ k ≤ early.length, ∃ b',
      serve st b (early ++ .data last :: rs) = ⟨st, b', List.replicate (k + 1) none, false⟩ := by
  induction early generalizing b with
  | nil =>
    rw [received, List.flatMap_nil, List.append_nil] at hl
    exact ⟨0, Nat.le_refl _, _, serve_overfull st hl rs⟩
  | cons r early ih =>
    have hg' := fun r' hr' => hg r' (List.mem_cons_of_mem r hr')
    rcases hg r List.mem_cons_self with rfl | ⟨c, rfl⟩
    · obtain ⟨k, hk, b', he⟩ := ih hg' hn hl
      refine ⟨k + 1, Nat.succ_le_succ hk, b', ?_⟩
      rw [List.cons_append, serve_wouldBlock, he]
      rfl
    · rw [received_cons, ← List.append_assoc, RecvResult.bytes] at hn hl
      by_cases hfull : MAX_COMMAND_BUFFER_LENGTH < (b ++ c.bytes).length
      · exact ⟨0, Nat.zero_le _, _, serve_overfull st hfull _⟩
      · have hn' : newline ∉ b ++ c.bytes := fun hm => hn (List.mem_append_left _ hm)
        obtain ⟨k, hk, b', he⟩ := ih hg' hn hl
        refine ⟨k + 1, Nat.succ_le_succ hk, b', ?_⟩
        rw [List.cons_append, serve_unfinished st (by omega) hn', he]
        rfl

/-- Before its last chunk no newline of the line has come. -/
theorem Request.early_unfinished (r : Request) : newline ∉ received r.early := by
  have h : (received r.early ++ r.last.bytes).dropLast = r.line.body := by
    rw [r.whole, Line.text, List.dropLast_concat]
  rw [List.dropLast_append_of_ne_nil r.last.nonempty] at h
  exact fun hm => r.line.oneLine (h ▸ List.mem_append_left _ hm)

/-- A line that fits is one message, executed in the run its last chunk
comes in. -/
theorem Request.serve_events (r : Request) (hl : r.line.text.length ≤ MAX_COMMAND_BUFFER_LENGTH) (st : Store)
    (rs : List RecvResult) : serve st [] (r.events ++ rs) =
      let executed := (parse r.line.text).execute st
      let s := serve executed.1 [] rs
      { s with handled := List.replicate r.early.length none ++ some (r.line.text, executed.2) :: s.handled } := by
  have hle : (received r.early).length ≤ r.line.text.length := by
    rw [← r.whole, List.length_append]
    omega
  have hm : newline ∈ r.line.text := by simp [Line.text]
  have hearly : ([] ++ received r.early).length ≤ MAX_COMMAND_BUFFER_LENGTH := hle.trans hl
  rw [← r.whole] at hl hm
  rw [Request.events, List.append_assoc, serve_early st r.gradual (by simpa using r.early_unfinished) hearly,
    List.singleton_append, List.nil_append, serve_message st hl hm, r.whole]

theorem answered_serve {st : Store} (h : Proper st.hashMap.contents) (requests : List Request) :
    let s := serve st [] (requests.flatMap Request.events)
    Answered st.hashMap.contents requests s.handled s.store.hashMap.contents s.isOpen := by
  induction requests generalizing st with
  | nil => exact .done
  | cons r requests ih =>
    rw [List.flatMap_cons]
    by_cases hl : r.line.text.length ≤ MAX_COMMAND_BUFFER_LENGTH
    · obtain ⟨he, hp⟩ := execute_interpret h r.line.text
      obtain ⟨hmap, hreply⟩ := Prod.ext_iff.mp he
      simp only [r.serve_events hl] at hreply ⊢
      rw [hreply]
      exact .answer hl (hmap ▸ ih hp)
    · have hlong : MAX_COMMAND_BUFFER_LENGTH < ([] ++ received r.early ++ r.last.bytes).length := by
        rw [List.nil_append, r.whole]
        omega
      obtain ⟨k, hk, b', hs⟩ := serve_tooLong st r.gradual (by simpa using r.early_unfinished) hlong
        (requests.flatMap Request.events)
      rw [Request.events, List.append_assoc, List.singleton_append, hs]
      exact .tooLong (by omega) hk

/-- **Requests and replies.** From an empty store, on one connection, for
any lines in any pieces: the client sees what the reference interpreter
answers. -/
theorem request_reply {st : Store} (h : st.hashMap.contents = fun _ => none) (requests : List Request) :
    let s := serve st [] (requests.flatMap Request.events)
    Answered (fun _ => none) requests s.handled s.store.hashMap.contents s.isOpen := by
  have hp : Proper st.hashMap.contents := by
    rw [h]
    intro k v hv
    cases hv
  exact h ▸ answered_serve hp requests

theorem request_reply_example :
    let st := Store.mk (.empty 100 (by decide)) ⟨none, none⟩
    let request : Request :=
      { line := ⟨ascii "INSERT a 1", by decide⟩
        early := [.data ⟨ascii "INS", by decide, by decide⟩, .wouldBlock]
        last := ⟨ascii "ERT a 1\n", by decide, by decide⟩
        gradual := by simp
        whole := by decide }
    let s := serve st [] ([request].flatMap Request.events)
    Answered (fun _ => none) [request] s.handled s.store.hashMap.contents s.isOpen :=
  request_reply rfl _

end KvDatabase
