/-
One run of `Server::messageHandler`: one `recv`, the command buffer, the
parser, and the command's execution.

What a run does to sockets other than its `recv` is in the result: the reply
it sends, if any, and whether it ends by re-arming the connection or by
closing it.
-/
import KvDatabase.Writes

namespace KvDatabase

/-- What the handlers share: the map and the files. -/
structure Store where
  hashMap : HashMap
  disk : Disk

/-- A received message, parsed. An argument that is missing is empty. -/
inductive Command
  | insert (key value : Bytes)
  | get (key : Bytes)
  | delete (key : Bytes)
  | unknown
deriving DecidableEq, Repr

/-- `iss >> command; iss >> key;`, and for INSERT `iss >> value`. -/
def parse (message : Bytes) : Command :=
  let (command, iss) := extract message
  let (key, iss) := extract iss
  if command = INSERT then
    let (value, _) := extract iss
    .insert key value
  else if command = GET then .get key
  else if command = DELETE then .delete key
  else .unknown

/-- The branch of the command: the store after it, and the response. -/
def Command.execute (st : Store) : Command → Store × Bytes
  | .insert key value =>
    if value = [] then (st, ascii "Empty Value Recieved, Try again\n")
    else
      ({ hashMap := st.hashMap.insert key value, disk := st.disk.appendToLog INSERT key value },
        ascii "Insert command was successful\n")
  | .get key =>
    let resultGet := st.hashMap.get key
    (st,
      if resultGet ≠ [] then ascii "Get command was successful: " ++ resultGet ++ ascii "\n"
      else ascii "Get command was successful but key dont exist\n")
  | .delete key =>
    ({ hashMap := st.hashMap.remove key, disk := st.disk.appendToLog DELETE key [] },
      ascii "Delete command was successful\n")
  | .unknown => (st, ascii "No command was received\n")

/-- The bytes one `recv` into the 1024-byte buffer can return. -/
structure Chunk where
  bytes : Bytes
  nonempty : bytes ≠ []
  fits : bytes.length ≤ 1024

/-- The outcome of a `recv`: bytes, 0 (the client hung up), or -1 with
`errno` telling a would-block from an error. -/
inductive RecvResult
  | data (chunk : Chunk)
  | hungUp
  | wouldBlock
  | error

def MAX_COMMAND_BUFFER_LENGTH : Nat := 2024

/-- How a run leaves the connection: armed again, or closed. -/
inductive Exit
  | rearm
  | close
deriving DecidableEq, Repr

/-- What one run of the handler does. -/
structure HandlerRun where
  store : Store
  commandBuffer : Bytes
  /-- The message executed and the reply sent to it. -/
  handled : Option (Bytes × Bytes)
  exit : Exit

def messageHandler (st : Store) (commandBuffer : Bytes) : RecvResult → HandlerRun
  | .hungUp => ⟨st, commandBuffer, none, .close⟩
  | .wouldBlock => ⟨st, commandBuffer, none, .rearm⟩
  | .error => ⟨st, commandBuffer, none, .close⟩
  | .data chunk =>
    let commandBuffer := commandBuffer ++ chunk.bytes
    if commandBuffer.length > MAX_COMMAND_BUFFER_LENGTH then ⟨st, commandBuffer, none, .close⟩
    else if newline ∉ commandBuffer then ⟨st, commandBuffer, none, .rearm⟩
    else
      -- The whole buffer is the message, and none of it is kept.
      let message := commandBuffer
      let (st, response) := (parse message).execute st
      ⟨st, [], some (message, response), .rearm⟩

/-! ## What a command can do -/

/-- The two steps of a write, one after the other. -/
def Store.write (st : Store) (w : Write) : Store :=
  { hashMap := w.update st.hashMap, disk := w.log st.disk }

/-- A command that reached a value reached a key before it. -/
theorem parse_insert {message key value : Bytes} (h : parse message = .insert key value) (hv : value ≠ []) :
    IsWord key ∧ IsWord value := by
  simp only [parse] at h
  split at h
  · simp only [Command.insert.injEq] at h
    obtain ⟨rfl, rfl⟩ := h
    refine ⟨⟨fun hk => hv ?_, Text.extract_fst_blankFree _⟩, hv, Text.extract_fst_blankFree _⟩
    rw [Text.extract_snd_of_fst_nil hk]; rfl
  · split at h
    · cases h
    · split at h <;> cases h

theorem parse_delete {message key : Bytes} (h : parse message = .delete key) : BlankFree key := by
  simp only [parse] at h
  split at h
  · cases h
  · split at h
    · cases h
    · split at h
      · simp only [Command.delete.injEq] at h
        subst h
        exact Text.extract_fst_blankFree _
      · cases h

/-- A message leaves the store as it is, or makes one write. -/
theorem execute_cases (st : Store) (message : Bytes) :
    ((parse message).execute st).1 = st ∨ ∃ w, ((parse message).execute st).1 = st.write w := by
  cases hp : parse message with
  | insert key value =>
    by_cases hv : value = []
    · exact .inl (by simp [Command.execute, hv])
    · obtain ⟨hk, hw⟩ := parse_insert hp hv
      exact .inr ⟨.insert key value hk hw, by simp only [Command.execute, hv, if_false]; rfl⟩
  | get key => exact .inl rfl
  | delete key => exact .inr ⟨.delete key (parse_delete hp), rfl⟩
  | unknown => exact .inl rfl

end KvDatabase
