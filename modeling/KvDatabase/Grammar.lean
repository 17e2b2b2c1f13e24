/-
The command language: what the handler takes a buffer for, against what its
first line says, and what a replay of the log takes the same line for.

The handler reads words off the whole buffer, and only INSERT asks whether
its last one was there. So it keeps to the first line exactly when that line
or the words after it leave it nothing to run on into (`accepts_grammar_iff`).
A replay stops at the line, but takes whatever is not an INSERT for a DELETE
(`replay_agrees_iff`).
-/
import KvDatabase.Requests

namespace KvDatabase

/-- The words of a text. -/
abbrev words (text : Bytes) : List Bytes := Text.words isSpace text

/-- A newline is a blank like the others. -/
theorem words_append_newline (xs ys : Bytes) : words (xs ++ newline :: ys) = words xs ++ words ys :=
  Text.words_append_blank isSpace_newline xs ys

theorem Line.words_text (line : Line) : words line.text = words line.body := by
  rw [Line.text, words_append_newline]
  exact List.append_nil _

/-- The words of a buffer: its first line's, then the later lines'. -/
theorem Line.words_append (line : Line) (rest : Bytes) :
    words (line.text ++ rest) = words line.body ++ words rest := by
  rw [Line.text, List.append_assoc, List.singleton_append, words_append_newline]

/-! ## The log's parser and the handler's -/

/-- What the handler leaves of the store when this line is its message. -/
def executeLine (st : Store) (line : Line) : Store := ((parse line.text).execute st).1

/-- The run that takes a whole buffer for its message. -/
theorem messageHandler_message (st : Store) {b : Bytes} {c : Chunk}
    (hl : (b ++ c.bytes).length ≤ MAX_COMMAND_BUFFER_LENGTH) (hn : newline ∈ b ++ c.bytes) :
    messageHandler st b (.data c) =
      let executed := (parse (b ++ c.bytes)).execute st
      ⟨executed.1, [], some (b ++ c.bytes, executed.2), .rearm⟩ := by
  simp only [messageHandler, gt_iff_lt, not_lt.mpr hl, if_false, hn, not_true_eq_false]

theorem messageHandler_executeLine (st : Store) {b : Bytes} {c : Chunk} {line : Line} (h : b ++ c.bytes = line.text)
    (hl : line.text.length ≤ MAX_COMMAND_BUFFER_LENGTH) :
    (messageHandler st b (.data c)).store = executeLine st line := by
  have hn : newline ∈ b ++ c.bytes := by simp [h, Line.text]
  rw [messageHandler_message st (h ▸ hl) hn, h]
  rfl

/-- When a replay of a line leaves what the handler leaves. An INSERT whose
value is missing is refused, and replayed as one of the empty value; what is
neither INSERT nor DELETE is refused or a GET, and replayed as a DELETE of
its second word. -/
def ReplaysAlike (m : Bytes → Option Bytes) (line : List Bytes) : Prop :=
  if line.headD [] = INSERT then line.length < 3 → m (line.tail.headD []) = some []
  else line.headD [] ≠ DELETE → m (line.tail.headD []) = none

theorem aofWrite_eq_words (line : Bytes) : aofWrite line =
    ((words line).tail.headD [],
      if (words line).headD [] = INSERT then some ((words line).tail.tail.headD []) else none) := by
  simp only [aofWrite, Text.extract_fst, Text.words_extract_snd]

/-- A write that leaves a map as it is wrote what was there. -/
theorem apply_eq_self_iff {m : Bytes → Option Bytes} {w : Bytes × Option Bytes} :
    WriteLog.apply m w = m ↔ m w.1 = w.2 := by
  rw [WriteLog.apply, Function.update_eq_self_iff]
  exact eq_comm

/-- A third word is missing, or is not empty. -/
theorem third_eq_nil_iff (line : Bytes) : (words line).tail.tail.headD [] = [] ↔ (words line).length < 3 := by
  have hne : ∀ w ∈ words line, w ≠ [] := fun w hw => Text.ne_nil_of_mem_words hw
  rcases hw : words line with _ | ⟨w₁, _ | ⟨w₂, _ | ⟨w₃, ws⟩⟩⟩
  · simp
  · simp
  · simp
  · have h₃ : w₃ ≠ [] := hne w₃ (by simp [hw])
    simp [h₃]

/-- **Replay and live execution.** For every store and line, exactly when a
replay of the line changes the map as the handler does that executes it. -/
theorem replay_agrees_iff (st : Store) (line : Line) :
    (loadAofLine st.hashMap line.body).contents = (executeLine st line).hashMap.contents ↔
      ReplaysAlike st.hashMap.contents (words line.body) := by
  rw [contents_loadAofLine, aofWrite_eq_words, executeLine, parse_eq_words, ← words, line.words_text, ReplaysAlike]
  by_cases hi : (words line.body).headD [] = INSERT
  · simp only [hi, if_true, Command.execute]
    by_cases hv : (words line.body).tail.tail.headD [] = []
    · have hlen := (third_eq_nil_iff line.body).mp hv
      simp only [hv, if_true, apply_eq_self_iff, hlen, true_imp_iff]
    · have hlen := mt (third_eq_nil_iff line.body).mpr hv
      simp only [hv, if_false, HashMap.contents_insert, hlen, false_imp_iff]
  · by_cases hd : (words line.body).headD [] = DELETE
    · simp only [hd, show DELETE ≠ INSERT by decide, show DELETE ≠ GET by decide, if_false, if_true, Command.execute,
        HashMap.contents_remove, ne_eq, not_true_eq_false, false_imp_iff]
    · by_cases hg : (words line.body).headD [] = GET
      · simp only [hg, show GET ≠ INSERT by decide, show GET ≠ DELETE by decide, if_false, if_true, Command.execute,
          apply_eq_self_iff, ne_eq, not_false_eq_true, true_imp_iff]
      · simp only [hi, hd, hg, if_false, Command.execute, apply_eq_self_iff, ne_eq, not_false_eq_true, true_imp_iff]

/-- A GET, replayed, removes the key it asked for. -/
theorem replayed_get_removes :
    let st := Store.mk ((HashMap.empty 100 (by decide)).insert (ascii "a") (ascii "1")) ⟨none, none⟩
    let line : Line := ⟨ascii "GET a", by decide⟩
    (loadAofLine st.hashMap line.body).contents ≠ (executeLine st line).hashMap.contents := by
  intro st line he
  exact absurd (congrFun he (ascii "a")) (by decide)

/-! ## The first line and the whole buffer -/

/-- The README's table of commands: INSERT and two arguments, GET and one,
DELETE and one. -/
def Grammatical (line : List Bytes) : Prop :=
  (∃ key value, line = [INSERT, key, value]) ∨ (∃ key, line = [GET, key]) ∨ ∃ key, line = [DELETE, key]

/-- A reply that says the command was executed; a GET's goes on with the value
or with the key's absence. -/
def SuccessReply (reply : Bytes) : Prop :=
  reply = ascii "Insert command was successful\n" ∨ ascii "Get command was successful" <+: reply ∨
    reply = ascii "Delete command was successful\n"

/-- A run executed a command: it changed the map or the log, or said so. -/
def Executes (st : Store) (run : HandlerRun) : Prop :=
  run.store.hashMap.contents ≠ st.hashMap.contents ∨ run.store.disk.aofBytes ≠ st.disk.aofBytes ∨
    ∃ message reply, run.handled = some (message, reply) ∧ SuccessReply reply

/-- The arguments read for a command, those that were there. -/
def Command.arguments : Command → List Bytes
  | .insert key value => [key, value].filter (· ≠ [])
  | .get key => [key].filter (· ≠ [])
  | .delete key => [key].filter (· ≠ [])
  | .unknown => []

/-- The handler, on a buffer of this first line and what comes after, accepts
what the grammar says: it executes a command just if the first line is one,
and takes no argument from after that line. -/
def AcceptsGrammar (st : Store) (line : Line) (rest : Bytes) (run : HandlerRun) : Prop :=
  (Executes st run ↔ Grammatical (words line.body)) ∧
    (parse (line.text ++ rest)).arguments = (parse line.text).arguments

/-- What the first line's words, and the words `later` on, leave the parser
to run on into, or to overlook: nothing. -/
def StaysInLine (later : List Bytes) : List Bytes → Prop
  | [] => match later with
    | [] => True
    | command :: args => if command = INSERT then args = [] else command ≠ GET ∧ command ≠ DELETE
  | command :: args =>
    if command = INSERT then args.length = 2 ∨ args.length < 2 ∧ later = []
    else if command = GET ∨ command = DELETE then args.length = 1
    else True

theorem appendToLog_grows (d : Disk) (command key value : Bytes) :
    (d.appendToLog command key value).aofBytes ≠ d.aofBytes := by
  have hne : record command key value ≠ [] := by simp [record]
  simpa [Disk.appendToLog, Disk.aofBytes] using hne

/-- What the handler takes for a command. -/
def Command.isExecuted : Command → Prop
  | .insert _ value => value ≠ []
  | .get _ => True
  | .delete _ => True
  | .unknown => False

theorem not_successReply_of_refused {reply : Bytes}
    (h : reply = ascii "Empty Value Recieved, Try again\n" ∨ reply = ascii "No command was received\n") :
    ¬ SuccessReply reply := by
  rcases h with rfl | rfl
  · unfold SuccessReply; decide
  · unfold SuccessReply; decide

/-- A run executes a command just if its message is one with its value. -/
theorem executes_iff {st : Store} {message b : Bytes} {exit : Exit} :
    Executes st ⟨((parse message).execute st).1, b, some (message, ((parse message).execute st).2), exit⟩ ↔
      (parse message).isExecuted := by
  cases parse message with
  | insert key value =>
    by_cases hv : value = []
    · have hs := not_successReply_of_refused (.inl rfl)
      simp [Executes, Command.execute, Command.isExecuted, hv, hs]
    · simp only [Executes, Command.execute, Command.isExecuted, hv, if_false, ne_eq, not_false_eq_true, iff_true]
      exact .inr (.inl (appendToLog_grows _ _ _ _))
  | get key =>
    simp only [Executes, Command.execute, Command.isExecuted, iff_true]
    refine .inr (.inr ⟨_, _, rfl, .inr (.inl ?_)⟩)
    split
    · exact ⟨ascii ": " ++ st.hashMap.get key ++ ascii "\n", by simp [ascii]⟩
    · exact ⟨ascii " but key dont exist\n", by simp [ascii]⟩
  | delete key =>
    simp only [Executes, Command.execute, Command.isExecuted, iff_true]
    exact .inr (.inl (appendToLog_grows _ _ _ _))
  | unknown =>
    have hs := not_successReply_of_refused (.inr rfl)
    simp [Executes, Command.execute, Command.isExecuted, hs]

/-- The command the words of a message stand for. -/
def commandOf (message : List Bytes) : Command :=
  if message.headD [] = INSERT then .insert (message.tail.headD []) (message.tail.tail.headD [])
  else if message.headD [] = GET then .get (message.tail.headD [])
  else if message.headD [] = DELETE then .delete (message.tail.headD [])
  else .unknown

theorem parse_eq_commandOf (message : Bytes) : parse message = commandOf (words message) := parse_eq_words message

section Words

variable {args : List Bytes} {command : Bytes}

@[simp] theorem commandOf_INSERT : commandOf (INSERT :: args) = .insert (args.headD []) (args.tail.headD []) := rfl

@[simp] theorem commandOf_GET : commandOf (GET :: args) = .get (args.headD []) := rfl

@[simp] theorem commandOf_DELETE : commandOf (DELETE :: args) = .delete (args.headD []) := rfl

theorem commandOf_unknown (hi : command ≠ INSERT) (hg : command ≠ GET) (hd : command ≠ DELETE) :
    commandOf (command :: args) = .unknown := by
  simp [commandOf, hi, hg, hd]

theorem not_grammatical_nil : ¬ Grammatical [] := by simp [Grammatical]

theorem grammatical_INSERT : Grammatical (INSERT :: args) ↔ args.length = 2 := by
  simp [Grammatical, show INSERT ≠ GET by decide, show INSERT ≠ DELETE by decide, List.length_eq_two]

theorem grammatical_GET : Grammatical (GET :: args) ↔ args.length = 1 := by
  simp [Grammatical, show GET ≠ INSERT by decide, show GET ≠ DELETE by decide, List.length_eq_one_iff]

theorem grammatical_DELETE : Grammatical (DELETE :: args) ↔ args.length = 1 := by
  simp [Grammatical, show DELETE ≠ INSERT by decide, show DELETE ≠ GET by decide, List.length_eq_one_iff]

theorem not_grammatical_unknown (hi : command ≠ INSERT) (hg : command ≠ GET) (hd : command ≠ DELETE) :
    ¬ Grammatical (command :: args) := by
  simp [Grammatical, hi, hg, hd]

end Words

/-- What the parser should make of a first line and what comes after it. -/
def ReadsFirst (first later : List Bytes) : Prop :=
  ((commandOf (first ++ later)).isExecuted ↔ Grammatical first) ∧
    (commandOf (first ++ later)).arguments = (commandOf first).arguments

theorem readsFirst_INSERT {args later : List Bytes} (ha : ∀ w ∈ args, w ≠ []) (hl : ∀ w ∈ later, w ≠ []) :
    ReadsFirst (INSERT :: args) later ↔ args.length = 2 ∨ args.length < 2 ∧ later = [] := by
  rw [ReadsFirst, grammatical_INSERT, List.cons_append, commandOf_INSERT, commandOf_INSERT]
  simp only [Command.isExecuted, Command.arguments]
  rcases args with _ | ⟨key, _ | ⟨value, _ | ⟨extra, args⟩⟩⟩
  · -- no argument: the key, or the key and the value, are later words
    rcases later with _ | ⟨w₁, _ | ⟨w₂, later⟩⟩
    · simp
    · have h₁ : w₁ ≠ [] := hl w₁ (by simp)
      simp [h₁]
    · have h₂ : w₂ ≠ [] := hl w₂ (by simp)
      simp [h₂]
  · rcases later with _ | ⟨w, later⟩
    · simp
    · have hw : w ≠ [] := hl w (by simp)
      simp [hw]
  · have hv : value ≠ [] := ha value (by simp)
    simp [hv]
  · have hv : value ≠ [] := ha value (by simp)
    have hlen : ¬ args.length + 1 + 1 + 1 < 2 := by omega
    simp [hv, hlen]

/-- GET and DELETE ask for nothing. -/
theorem readsFirst_unasked {command : Bytes → Command} {keyword : Bytes}
    (hc : ∀ args, commandOf (keyword :: args) = command (args.headD []))
    (hg : ∀ args, Grammatical (keyword :: args) ↔ args.length = 1) (he : ∀ key, (command key).isExecuted)
    {args later : List Bytes} : ReadsFirst (keyword :: args) later ↔ args.length = 1 := by
  rw [ReadsFirst, hg, List.cons_append, hc, hc]
  simp only [he, true_iff]
  constructor
  · exact And.left
  · intro h
    obtain ⟨key, rfl⟩ := List.length_eq_one_iff.mp h
    exact ⟨rfl, rfl⟩

/-- A blank first line: the command is a later word, if there is one. -/
theorem readsFirst_nil {later : List Bytes} (hl : ∀ w ∈ later, w ≠ []) :
    ReadsFirst [] later ↔ StaysInLine later [] := by
  have hunknown : commandOf [] = .unknown := rfl
  simp only [ReadsFirst, not_grammatical_nil, iff_false, List.nil_append, hunknown]
  cases later with
  | nil => simp [StaysInLine, hunknown, Command.isExecuted]
  | cons command args =>
    by_cases hi : command = INSERT
    · subst hi
      simp only [commandOf_INSERT, Command.isExecuted, Command.arguments, StaysInLine, if_true]
      rcases args with _ | ⟨key, args⟩
      · simp
      · have hk : key ≠ [] := hl key (by simp)
        simp [hk]
    · by_cases hg : command = GET
      · simp [hg, Command.isExecuted, StaysInLine, show GET ≠ INSERT by decide]
      · by_cases hd : command = DELETE
        · simp [hd, Command.isExecuted, StaysInLine, show DELETE ≠ INSERT by decide]
        · simp [commandOf_unknown hi hg hd, Command.isExecuted, StaysInLine, hi, hg, hd]

/-- What the parser makes of a buffer is what it should make of it exactly
when the words leave it nothing to run on into. -/
theorem readsFirst_iff {first later : List Bytes} (hf : ∀ w ∈ first, w ≠ []) (hl : ∀ w ∈ later, w ≠ []) :
    ReadsFirst first later ↔ StaysInLine later first := by
  cases first with
  | nil => exact readsFirst_nil hl
  | cons command args =>
    rw [StaysInLine]
    by_cases hi : command = INSERT
    · subst hi
      rw [if_pos rfl]
      exact readsFirst_INSERT (fun w hw => hf w (List.mem_cons_of_mem _ hw)) hl
    · rw [if_neg hi]
      by_cases hg : command = GET
      · subst hg
        rw [if_pos (.inl rfl)]
        exact readsFirst_unasked (fun _ => commandOf_GET) (fun _ => grammatical_GET) fun _ => trivial
      · by_cases hd : command = DELETE
        · subst hd
          rw [if_pos (.inr rfl)]
          exact readsFirst_unasked (fun _ => commandOf_DELETE) (fun _ => grammatical_DELETE) fun _ => trivial
        · rw [if_neg (by simp [hg, hd])]
          simp [ReadsFirst, commandOf_unknown hi hg hd, not_grammatical_unknown hi hg hd, Command.isExecuted]

/-- **The grammar.** For every store, log and buffer with a newline that is
not too long: exactly when the handler executes just the commands of the
grammar, reading no argument past the first line. -/
theorem accepts_grammar_iff (st : Store) {b : Bytes} {c : Chunk} {line : Line} {rest : Bytes}
    (h : b ++ c.bytes = line.text ++ rest) (hl : (b ++ c.bytes).length ≤ MAX_COMMAND_BUFFER_LENGTH) :
    AcceptsGrammar st line rest (messageHandler st b (.data c)) ↔ StaysInLine (words rest) (words line.body) := by
  have hn : newline ∈ b ++ c.bytes := by simp [h, Line.text]
  rw [messageHandler_message st hl hn, AcceptsGrammar, executes_iff, h, parse_eq_commandOf, parse_eq_commandOf,
    line.words_append, line.words_text]
  exact readsFirst_iff (fun w hw => Text.ne_nil_of_mem_words hw) fun w hw => Text.ne_nil_of_mem_words hw

theorem accepts_grammar_example :
    let st := Store.mk (.empty 100 (by decide)) ⟨none, none⟩
    let c : Chunk := ⟨ascii "INSERT a 1\nGET a\n", by decide, by decide⟩
    AcceptsGrammar st ⟨ascii "INSERT a 1", by decide⟩ (ascii "GET a\n") (messageHandler st [] (.data c)) :=
  (accepts_grammar_iff _ (by decide) (by decide)).mpr (.inl (by decide))

/-- A GET of two arguments is answered like one of one. -/
theorem get_of_two_arguments :
    let st := Store.mk (.empty 100 (by decide)) ⟨none, none⟩
    let c : Chunk := ⟨ascii "GET a b\n", by decide, by decide⟩
    let line : Line := ⟨ascii "GET a b", by decide⟩
    [] ++ c.bytes = line.text ++ [] ∧ ([] ++ c.bytes).length ≤ MAX_COMMAND_BUFFER_LENGTH ∧
      ¬ AcceptsGrammar st line [] (messageHandler st [] (.data c)) := by
  intro st c line
  refine ⟨by decide, by decide, fun ha => ?_⟩
  have hg : Grammatical (GET :: [ascii "a", ascii "b"]) :=
    ha.1.mp (.inr (.inr ⟨_, _, rfl, by unfold SuccessReply; decide⟩))
  exact absurd (grammatical_GET.mp hg) (by decide)

end KvDatabase
