/-
Clients at once: any number of workers, each with a client's command between
its parse, its map operation, its log append and its reply.

A command takes effect with its map operation, under the map's lock, and that
is between its receipt and its reply; so the store is an object of
`Linearize`, whose specification is a plain map (`Command.onMap`), and every
history of it is linearizable.
-/
import KvDatabase.Handler
import KvDatabase.Lib.Linearize

namespace KvDatabase

open WriteLog (replay last)
open Linearize (Calls Event Entry Object Linearizes Precedes)

/-! ## A command in its steps -/

namespace Command

/-- The map operation of the command's branch, and the response it leads to. -/
def operate (hashMap : HashMap) : Command → HashMap × Bytes
  | .insert key value =>
    if value = [] then (hashMap, ascii "Empty Value Recieved, Try again\n")
    else (hashMap.insert key value, ascii "Insert command was successful\n")
  | .get key =>
    let resultGet := hashMap.get key
    (hashMap,
      if resultGet ≠ [] then ascii "Get command was successful: " ++ resultGet ++ ascii "\n"
      else ascii "Get command was successful but key dont exist\n")
  | .delete key => (hashMap.remove key, ascii "Delete command was successful\n")
  | .unknown => (hashMap, ascii "No command was received\n")

/-- The append that follows it. -/
def log (d : Disk) : Command → Disk
  | .insert key value => if value = [] then d else d.appendToLog INSERT key value
  | .get _ => d
  | .delete key => d.appendToLog DELETE key []
  | .unknown => d

/-- The steps of a command, one after the other, are its execution. -/
theorem execute_eq (st : Store) (c : Command) :
    c.execute st = (⟨(c.operate st.hashMap).1, c.log st.disk⟩, (c.operate st.hashMap).2) := by
  cases c with
  | insert key value => by_cases hv : value = [] <;> simp [execute, operate, log, hv]
  | get key => rfl
  | delete key => rfl
  | unknown => rfl

/-- What a GET is answered that finds this; an empty value is not told from
none. -/
def answer : Option Bytes → Bytes
  | some (c :: value) => ascii "Get command was successful: " ++ c :: value ++ ascii "\n"
  | _ => ascii "Get command was successful but key dont exist\n"

theorem answer_eq (o : Option Bytes) :
    (if o.getD [] ≠ [] then ascii "Get command was successful: " ++ o.getD [] ++ ascii "\n"
      else ascii "Get command was successful but key dont exist\n") = answer o := by
  cases o with
  | none => rfl
  | some value => cases value <;> rfl

/-- The command on a plain map. -/
def onMap (m : Bytes → Option Bytes) : Command → (Bytes → Option Bytes) × Bytes
  | .insert key value =>
    if value = [] then (m, ascii "Empty Value Recieved, Try again\n")
    else (Function.update m key (some value), ascii "Insert command was successful\n")
  | .get key => (m, answer (m key))
  | .delete key => (Function.update m key none, ascii "Delete command was successful\n")
  | .unknown => (m, ascii "No command was received\n")

/-- The table does what the map does. -/
theorem operate_onMap (hashMap : HashMap) (c : Command) :
    ((c.operate hashMap).1.contents, (c.operate hashMap).2) = c.onMap hashMap.contents := by
  cases c with
  | insert key value => by_cases hv : value = [] <;> simp [operate, onMap, hv, WriteLog.apply]
  | get key => rw [operate, onMap, HashMap.get_eq, ← answer_eq]
  | delete key => simp [operate, onMap, WriteLog.apply]
  | unknown => rfl

/-- The write a command makes, if it makes one. -/
def effect : Command → Option (Bytes × Option Bytes)
  | .insert key value => if value = [] then none else some (key, some value)
  | .delete key => some (key, none)
  | .get _ | .unknown => none

theorem onMap_fst (m : Bytes → Option Bytes) (c : Command) :
    (c.onMap m).1 = replay c.effect.toList m := by
  cases c with
  | insert key value => by_cases hv : value = [] <;> simp [onMap, effect, hv, WriteLog.apply]
  | get key => rfl
  | delete key => rfl
  | unknown => rfl

end Command

/-! ## Workers -/

/-- Where a worker is in `messageHandler`, a whole message received. -/
inductive WorkerPc
  | idle
  | parsed (id : Nat) (command : Command)
  /-- The map operation is done. -/
  | operated (id : Nat) (command : Command) (response : Bytes)
  /-- So is the append, and the reply is not sent yet. -/
  | logged (id : Nat) (response : Bytes)

/-- The number of the message a worker is busy with. -/
def WorkerPc.id? : WorkerPc → Option Nat
  | idle => none
  | parsed id _ | operated id _ _ | logged id _ => some id

/-- The workers over one store; `T` names them. Whose client sent a message
does not matter here. -/
structure Clients (T : Type) where
  hashMap : HashMap
  disk : Disk
  workers : T → WorkerPc
  received : Nat
  /-- The messages received and the replies sent, in order. -/
  history : List (Event Bytes Bytes)

inductive ClientStep (T : Type)
  /-- A worker has a whole message, and parses it. -/
  | receive (t : T) (message : Bytes)
  | operate (t : T)
  | log (t : T)
  | reply (t : T)

namespace Clients

variable {T : Type}

def start (st : Store) : Clients T where
  hashMap := st.hashMap
  disk := st.disk
  workers := fun _ => .idle
  received := 0
  history := []

variable [DecidableEq T]

def step (s : Clients T) : ClientStep T → Option (Clients T)
  | .receive t message =>
    match s.workers t with
    | .idle =>
      some { s with
        workers := Function.update s.workers t (.parsed s.received (parse message))
        received := s.received + 1
        history := s.history ++ [.call s.received message] }
    | _ => none
  | .operate t =>
    match s.workers t with
    | .parsed id command =>
      let (hashMap, response) := command.operate s.hashMap
      some { s with hashMap, workers := Function.update s.workers t (.operated id command response) }
    | _ => none
  | .log t =>
    match s.workers t with
    | .operated id command response =>
      some { s with disk := command.log s.disk, workers := Function.update s.workers t (.logged id response) }
    | _ => none
  | .reply t =>
    match s.workers t with
    | .logged id response =>
      some { s with
        workers := Function.update s.workers t .idle
        history := s.history ++ [.ret id response] }
    | _ => none

/-- The runs of the workers on a store, whatever it holds. -/
abbrev Reachable (st : Store) (s : Clients T) : Prop := Runs.Reach step (fun _ _ => True) (start st) s

/-- What a message does to a plain map, and what it is answered. -/
abbrev specification (m : Bytes → Option Bytes) (message : Bytes) : (Bytes → Option Bytes) × Bytes :=
  (parse message).onMap m

/-! ## The store is an object -/

/-- How far the object's call is when the worker on it is here. -/
def Matches : WorkerPc → Linearize.Status Bytes Bytes → Prop
  | .idle, _ => True
  | .parsed _ command, call => ∃ message, command = parse message ∧ call = .called message
  | .operated _ _ response, call => call = .done response
  | .logged _ response, call => call = .done response

/-- The workers' state and the object it stands for. -/
structure Simulates (s : Clients T) (o : Object Bytes Bytes (Bytes → Option Bytes)) : Prop where
  calls : Calls WorkerPc.id? Matches s.workers s.received s.history o
  st : o.st = s.hashMap.contents

omit [DecidableEq T] in
theorem Simulates.start (st : Store) :
    Simulates (start st : Clients T) (Object.start st.hashMap.contents) where
  calls := Calls.start rfl _
  st := rfl

/-- Every step of a worker is one of the object's, or none: the map operation
is where the command takes effect. -/
theorem Simulates.step {s s' : Clients T} {o : Object Bytes Bytes (Bytes → Option Bytes)} {l : ClientStep T}
    (h : Simulates s o) (hs : s.step l = some s') :
    ∃ o', Simulates s' o' ∧ (o' = o ∨ ∃ a, o.step specification a = some o') := by
  have hcalls := h.calls.calls
  cases l with
  | receive t message =>
    simp only [Clients.step] at hs
    split at hs
    · cases hs
      have hm : Matches (.parsed s.received (parse message)) (.called message) := ⟨message, rfl, rfl⟩
      exact ⟨_, ⟨h.calls.call t message rfl hm, h.st⟩, .inr ⟨.call message, rfl⟩⟩
    · cases hs
  | operate t =>
    simp only [Clients.step] at hs
    split at hs
    · next id command hw =>
      cases hs
      have hid : (s.workers t).id? = some id := by rw [hw]; rfl
      have hcall := hcalls t id hid
      rw [hw] at hcall
      obtain ⟨message, rfl, hcall⟩ := hcall
      have hop := (parse message).operate_onMap s.hashMap
      rw [← h.st] at hop
      obtain ⟨o', ho', hst, hafter⟩ :=
        h.calls.commit specification (.operated id (parse message) ((parse message).operate s.hashMap).2) hid hcall
          rfl (congrArg Linearize.Status.done (congrArg Prod.snd hop).symm)
      exact ⟨o', ⟨hafter, hst.trans (congrArg Prod.fst hop).symm⟩, .inr ⟨.commit id, ho'⟩⟩
    · cases hs
  | log t =>
    simp only [Clients.step] at hs
    split at hs
    · next id command response hw =>
      cases hs
      have hid : (s.workers t).id? = some id := by rw [hw]; rfl
      have hcall := hcalls t id hid
      rw [hw] at hcall
      refine ⟨o, ⟨?_, h.st⟩, .inl rfl⟩
      exact h.calls.move hid (.logged id response) (fun i hi => (Option.some.inj hi).symm) rfl h.calls.history
        (fun _ _ => rfl) fun _ => hcall
    · cases hs
  | reply t =>
    simp only [Clients.step] at hs
    split at hs
    · next id response hw =>
      cases hs
      have hid : (s.workers t).id? = some id := by rw [hw]; rfl
      have hcall := hcalls t id hid
      rw [hw] at hcall
      obtain ⟨o', ho', hst, hafter⟩ := h.calls.ret specification .idle hid hcall rfl
      exact ⟨o', ⟨hafter, hst.trans h.st⟩, .inr ⟨.ret id, ho'⟩⟩
    · cases hs

theorem Reachable.simulates {st : Store} {s : Clients T} (h : Reachable st s) :
    ∃ o, Simulates s o ∧ Object.Sound specification st.hashMap.contents o := by
  have hsim : ∃ o, Simulates s o ∧
      Runs.Reach (Object.step specification) (fun _ _ => True) (.start st.hashMap.contents) o := by
    refine h.simulate Simulates (.start st) fun s o l s' hso _ hs => ?_
    obtain ⟨o', hso', he | ⟨a, ha⟩⟩ := hso.step hs
    · exact ⟨o', hso', .inl he⟩
    · exact ⟨o', hso', .inr ⟨a, trivial, ha⟩⟩
  obtain ⟨o, hso, ho⟩ := hsim
  exact ⟨o, hso, .reach ho⟩

/-! ## What a GET reports -/

/-- The writes of some operations, in order. -/
def effects (order : List (Entry Bytes Bytes)) : List (Bytes × Option Bytes) :=
  order.filterMap fun e => (parse e.op).effect

/-- A legal order leaves the map as its writes do. -/
theorem legal_state {m m' : Bytes → Option Bytes} {order : List (Entry Bytes Bytes)}
    (h : Linearize.Legal specification m order m') : m' = replay (effects order) m := by
  induction order generalizing m with
  | nil => exact h
  | cons e es ih =>
    rw [ih h.2, Command.onMap_fst, effects, effects, List.filterMap_cons]
    cases (parse e.op).effect <;> rfl

/-- The write that message `w` makes to `key`, if it makes one. -/
def Writes (message key : Bytes) (o : Option Bytes) : Prop := (parse message).effect = some (key, o)

/-- A GET that was received after a write to its key was acknowledged, while
every other write to the key was answered before that write was received or
received after the GET was answered, reports the write. -/
def ReportsLastWrite (history : List (Event Bytes Bytes)) : Prop :=
  ∀ w g messageW messageG key o response, .call w messageW ∈ history → Writes messageW key o →
    .call g messageG ∈ history → parse messageG = .get key → .ret g response ∈ history → Precedes history w g →
    (∀ u message o', .call u message ∈ history → u ≠ w → Writes message key o' →
      Precedes history u w ∨ Precedes history g u) →
    response = Command.answer o

/-- Between such a write and such a GET, no operation of the order writes the
key. -/
theorem no_write_between {m₀ m : Bytes → Option Bytes} {history : List (Event Bytes Bytes)}
    {as bs ys : List (Entry Bytes Bytes)} {ew eg : Entry Bytes Bytes} {key : Bytes}
    (hlin : Linearizes specification m₀ history (as ++ ew :: bs ++ eg :: ys) m)
    (honly : ∀ u message o, .call u message ∈ history → u ≠ ew.id → Writes message key o →
      Precedes history u ew.id ∨ Precedes history eg.id u)
    {f : Entry Bytes Bytes} (hf : f ∈ bs) {o : Option Bytes} : ¬ Writes f.op key o := by
  intro hwrite
  have hnd := hlin.nodup
  have hfx : f ∈ as ++ ew :: bs := List.mem_append_right _ (List.mem_cons_of_mem _ hf)
  have hford : f ∈ as ++ ew :: bs ++ eg :: ys := List.mem_append_left _ hfx
  obtain ⟨-, hwb, hdisj⟩ := List.nodup_append.mp hnd.of_append_left
  have hne : f ≠ ew := fun he => (List.nodup_cons.mp hwb).1 (he ▸ hf)
  have hid : f.id ≠ ew.id := fun he =>
    hne (List.inj_on_of_nodup_map hlin.once hford (by simp) he)
  rcases honly f.id f.op o (hlin.called f hford) hid hwrite with hp | hp
  · -- answered before the write, so before it in the order
    have hsplit : as ++ ew :: bs ++ eg :: ys = as ++ ew :: (bs ++ eg :: ys) := by simp
    rw [hsplit] at hlin hford
    exact hdisj f (hlin.before hford hne hp) f (List.mem_cons_of_mem _ hf) rfl
  · -- received after the GET was answered, so after it in the order
    have hng : f ≠ eg := fun he => (List.nodup_append.mp hnd).2.2 f hfx eg List.mem_cons_self he
    exact (List.nodup_append.mp hnd).2.2 f hfx f (List.mem_cons_of_mem _ (hlin.after hford hng hp)) rfl

/-- In a linearization, the write that such a GET reports is the last one to
its key before it. -/
theorem reports_of_sound {m₀ : Bytes → Option Bytes} {o : Object Bytes Bytes (Bytes → Option Bytes)}
    (h : Object.Sound specification m₀ o) : ReportsLastWrite o.history := by
  intro w g messageW messageG key v response hw hwrite hg hget hret hprec honly
  have hlin := h.linearizes
  obtain ⟨messageG', hge⟩ := hlin.returned g response hret
  obtain rfl : messageG' = messageG := h.single g _ _ (hlin.called _ hge) hg
  obtain ⟨responseW, opW, hsub⟩ := hprec
  obtain ⟨messageW', hwe⟩ := hlin.returned w responseW (hsub.subset (by simp))
  obtain rfl : messageW' = messageW := h.single w _ _ (hlin.called _ hwe) hw
  have hprec : Precedes o.history w g := ⟨responseW, opW, hsub⟩
  have hwg : w ≠ g := by
    rintro rfl
    have he := h.single w _ _ hw hg
    rw [Writes, he, hget] at hwrite
    cases hwrite
  -- the order up to the GET, and in it the order up to the write
  obtain ⟨xs, ys, hxy⟩ := List.append_of_mem hge
  rw [hxy] at hlin hwe
  have hwx := hlin.before hwe (fun he => hwg (congrArg Entry.id he)) hprec
  obtain ⟨as, bs, rfl⟩ := List.append_of_mem hwx
  have hlast : last key (effects (as ++ ⟨w, messageW', responseW⟩ :: bs)) = some v := by
    refine WriteLog.last_eq_some_iff.mpr ⟨effects as, effects bs, ?_, fun e he hkey => ?_⟩
    · rw [effects, List.filterMap_append, List.filterMap_cons, show (parse messageW').effect = _ from hwrite]
      rfl
    · obtain ⟨f, hf, hfe⟩ := List.mem_filterMap.mp he
      exact no_write_between hlin honly hf (show (parse f.op).effect = some (key, e.2) by rw [hfe, ← hkey])
  obtain ⟨m, hm, hres, -⟩ := Linearize.legal_append.mp hlin.legal
  calc response = (specification m messageG').2 := hres
    _ = Command.answer (m key) := by rw [specification, hget]; rfl
    _ = Command.answer v := by rw [legal_state hm, WriteLog.replay_of_last hlast]

/-- **Concurrent clients see a linearizable store.** However the workers'
steps interleave, there is one order of the messages executed that respects
real time, in which a plain map gives the replies sent and ends as the table
is; and a GET reports the write acknowledged before it, if no other write to
its key came between or overlapped. -/
theorem clients_linearizable (st : Store) {s : Clients T} (h : Reachable st s) :
    (∃ order, Linearizes specification st.hashMap.contents s.history order s.hashMap.contents) ∧
      ReportsLastWrite s.history := by
  obtain ⟨o, hso, ho⟩ := h.simulates
  rw [← hso.st, ← hso.calls.history]
  exact ⟨⟨o.order, ho.linearizes⟩, reports_of_sound ho⟩

/-- Two workers: an INSERT that a GET of another worker overlaps, and a GET
after it. -/
theorem clients_linearizable_example :
    let st : Store := ⟨.empty 100 (by decide), ⟨none, none⟩⟩
    ∃ s : Clients (Fin 2), s.history =
        [.call 0 (ascii "INSERT a 1\n"), .call 1 (ascii "GET a\n"),
          .ret 1 (ascii "Get command was successful but key dont exist\n"),
          .ret 0 (ascii "Insert command was successful\n"), .call 2 (ascii "GET a\n"),
          .ret 2 (ascii "Get command was successful: 1\n")] ∧
      (∃ order, Linearizes specification st.hashMap.contents s.history order s.hashMap.contents) ∧
      ReportsLastWrite s.history := by
  intro st
  let ls : List (ClientStep (Fin 2)) := [.receive 0 (ascii "INSERT a 1\n"), .receive 1 (ascii "GET a\n"),
    .operate 1, .operate 0, .log 1, .reply 1, .log 0, .reply 0, .receive 1 (ascii "GET a\n"), .operate 1, .log 1,
    .reply 1]
  have h : Reachable st _ := Runs.Reach.start.exec (C := fun _ _ => True) ls rfl (by simp)
  exact ⟨_, rfl, clients_linearizable st h⟩

end Clients

end KvDatabase
