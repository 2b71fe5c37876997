import HttpWire.Connection
import HttpWire.Proofs.Invariant

/-!
# Histories of a connection

A history is a list of calls on a new connection. Its record holds what was reported, each report
with the number of bytes that had been read by then, and marks where a message was forgotten and
where the connection ended. A record is made of small moves, and `Walk` lists them: what every move
keeps holds after every history.

- `Connection.Reachable`: the connections that a history leads to.
- `Connection.events_record`: a record holds the events of the calls, in order.
- `Walk`: bytes arrive, a step is taken, a message is forgotten, the connection ends.
- `Connection.start_walk`: every history of a new connection is a walk.
-/

set_option autoImplicit false

namespace HttpWire

/-! ## Calls -/

/-- What the owner of a connection can do. -/
inductive Call where
  /-- Bytes arrive and are read. -/
  | push (bytes : Bytes)
  /-- Bytes arrive and are left for the next call that reads. -/
  | receive (bytes : Bytes)
  /-- No more bytes will come. -/
  | close
  /-- The message at hand is to be forgotten. -/
  | requestReset
  /-- The rest of a body is to be forgotten. -/
  | declineBody
  deriving Repr, DecidableEq

/-- The bytes that arrive with a call. -/
def Call.bytes : Call → Bytes
  | push bytes => bytes
  | receive bytes => bytes
  | close => []
  | requestReset => []
  | declineBody => []

/-- Whether a call reads what has arrived. -/
def Call.reads : Call → Bool
  | push _ => true
  | close => true
  | receive _ => false
  | requestReset => false
  | declineBody => false

/-- What a record of a connection holds. -/
inductive Entry where
  /-- The message at hand is forgotten. -/
  | forgotten
  /-- The connection has ended, after `arrived` bytes. -/
  | ended (arrived : Nat)
  /-- An event is reported, after `read` bytes have been read. -/
  | report (read : Nat) (event : Event)
  deriving Repr, DecidableEq

/-- The event of an entry. -/
def Entry.event? : Entry → Option Event
  | report _ event => some event
  | forgotten => none
  | ended _ => none

namespace Phase

/-- The phases and buffers from which a run takes its steps. -/
def trail (direction : Direction) (limits : Limits) (phase : Phase) (buffer : Bytes) :
    List (Phase × Bytes) :=
  let next := step direction limits phase buffer
  if _again : next.again = true then (phase, buffer) :: trail direction limits next.phase next.rest
  else [(phase, buffer)]
termination_by phase.budget buffer
decreasing_by exact budget_step_lt _again

/-- The entries of a step that is taken when `arrived` bytes have come in. -/
def stepEntries (direction : Direction) (limits : Limits) (arrived : Nat)
    (place : Phase × Bytes) : List Entry :=
  let next := step direction limits place.1 place.2
  next.events.map (.report (arrived - next.rest.length))

end Phase

namespace Connection

/-- Receives bytes without reading them. -/
def receive (connection : Connection) (bytes : Bytes) : Connection :=
  { connection with buffer := connection.buffer ++ bytes }

/-- What a call leaves behind, and what it reports. -/
def call (connection : Connection) : Call → Connection × List Event
  | .push bytes => connection.push bytes
  | .receive bytes => (connection.receive bytes, [])
  | .close => connection.close
  | .requestReset => (connection.requestReset, [])
  | .declineBody => (connection.declineBody, [])

/-- The connection after some calls. -/
def after (connection : Connection) : List Call → Connection
  | [] => connection
  | call :: calls => (connection.call call).1.after calls

/-- The events of some calls. -/
def events (connection : Connection) : List Call → List Event
  | [] => []
  | call :: calls => (connection.call call).2 ++ (connection.call call).1.events calls

/-- A connection that a new one becomes by some calls. -/
def Reachable (connection : Connection) : Prop :=
  ∃ direction limits new calls, start direction limits = .ok new ∧ connection = new.after calls

/-- The phases and buffers from which a call takes its steps. -/
def trail (connection : Connection) (call : Call) : List (Phase × Bytes) :=
  if call.reads then
    connection.reader.currentPhase.trail connection.reader.direction connection.reader.limits
      (connection.buffer ++ call.bytes)
  else []

/-- The entry for a message that is forgotten when a call begins to read. -/
def forgets (connection : Connection) : List Entry :=
  if connection.reader.resetRequested then [.forgotten] else []

/-- The entries for what is left when the connection ends. -/
def endEntries (connection : Connection) (arrived : Nat) : List Entry :=
  let answer := connection.reader.feed connection.buffer
  .ended arrived ::
    answer.reader.phase.atClose.toList.map (.report (arrived - answer.rest.length))

/-- The entries of a call, before which `arrived` bytes have come in. -/
def entries (connection : Connection) (arrived : Nat) (call : Call) : List Entry :=
  let steps := (connection.trail call).flatMap
    (Phase.stepEntries connection.reader.direction connection.reader.limits
      (arrived + call.bytes.length))
  match call with
  | .push _ => connection.forgets ++ steps
  | .close => connection.forgets ++ steps ++ connection.endEntries arrived
  | .receive _ => []
  | .requestReset => []
  | .declineBody => []

/-- The record of some calls, before which `arrived` bytes have come in. -/
def record (connection : Connection) (arrived : Nat) : List Call → List Entry
  | [] => []
  | call :: calls =>
      connection.entries arrived call
        ++ (connection.call call).1.record (arrived + call.bytes.length) calls

theorem after_append (connection : Connection) (calls more : List Call) :
    connection.after (calls ++ more) = (connection.after calls).after more := by
  induction calls generalizing connection with
  | nil => rfl
  | cons call calls ih => exact ih (connection.call call).1

/-- A new connection is between messages, and nothing waits. -/
theorem start_eq {direction : Direction} {limits : Limits} {new : Connection}
    (h : start direction limits = .ok new) :
    ∃ valid : limits.Valid, new = { reader := { direction, limits, valid } } := by
  unfold start Reader.start at h
  cases hcheck : limits.check with
  | error refusal => simp [hcheck] at h
  | ok checked =>
      obtain ⟨limits', valid⟩ := checked
      simp only [hcheck, Except.ok.injEq] at h
      obtain rfl : limits' = limits := Limits.eq_of_check_eq_ok hcheck
      exact ⟨valid, h.symm⟩

theorem call_reader (connection : Connection) (call : Call) :
    (connection.call call).1.reader.direction = connection.reader.direction ∧
      (connection.call call).1.reader.limits = connection.reader.limits := by
  cases call with
  | push bytes => exact ⟨rfl, rfl⟩
  | receive bytes => exact ⟨rfl, rfl⟩
  | close =>
      simp only [Connection.call, Connection.close, Reader.close]
      split <;> exact ⟨rfl, rfl⟩
  | requestReset => exact ⟨rfl, rfl⟩
  | declineBody =>
      simp only [Connection.call, Connection.declineBody, Reader.declineBody]
      split <;> exact ⟨rfl, rfl⟩

end Connection

/-! ## Walks -/

/-- What can happen to a connection, one small move after the other. A walk knows the bytes that
have come in, the record, the phase, and the bytes that have not been read. -/
inductive Walk (direction : Direction) (limits : Limits) :
    Bytes → List Entry → Phase → Bytes → Prop
  | start : Walk direction limits [] [] .idle []
  | receive {input rest : Bytes} {record : List Entry} {phase : Phase}
      (walk : Walk direction limits input record phase rest) (bytes : Bytes) :
      Walk direction limits (input ++ bytes) record phase (rest ++ bytes)
  | forget {input rest : Bytes} {record : List Entry} {phase : Phase}
      (walk : Walk direction limits input record phase rest) :
      Walk direction limits input (record ++ [.forgotten]) .idle rest
  | step {input rest : Bytes} {record : List Entry} {phase : Phase}
      (walk : Walk direction limits input record phase rest) :
      Walk direction limits input
        (record ++ Phase.stepEntries direction limits input.length (phase, rest))
        (Phase.step direction limits phase rest).phase
        (Phase.step direction limits phase rest).rest
  /-- The connection ends, and there is nothing to report. -/
  | ended {input rest : Bytes} {record : List Entry} {phase : Phase}
      (walk : Walk direction limits input record phase rest) (hclose : phase.atClose = none) :
      Walk direction limits input (record ++ [.ended input.length]) phase rest
  /-- The connection ends, which ends the message at hand as well. Of a body that is reported in
  pieces everything has been read by then. -/
  | closed {input rest : Bytes} {record : List Entry} {phase : Phase} {event : Event}
      (walk : Walk direction limits input record phase rest)
      (hclose : phase.atClose = some event) (hrest : phase.readsPieces = true → rest = []) :
      Walk direction limits input
        (record ++ [.ended input.length, .report (input.length - rest.length) event]) .idle rest

namespace Walk

variable {direction : Direction} {limits : Limits} {input rest : Bytes} {record : List Entry}
  {phase : Phase}

/-- The bytes that have not been read are the end of those that have come in. -/
theorem suffix (h : Walk direction limits input record phase rest) : rest <:+ input := by
  induction h with
  | start => exact List.suffix_refl _
  | receive walk bytes ih =>
      obtain ⟨read, hread⟩ := ih
      exact ⟨read, by rw [← hread, List.append_assoc]⟩
  | forget walk ih => exact ih
  | step walk ih => exact (Phase.step_move direction limits _ _).suffix.trans ih
  | ended walk hclose ih => exact ih
  | closed walk hclose hrest ih => exact ih

theorem sound (h : Walk direction limits input record phase rest) : phase.Sound rest := by
  induction h with
  | start => trivial
  | receive walk bytes ih => exact ih.append bytes
  | forget walk ih => trivial
  | step walk ih => exact Phase.step_sound ih
  | ended walk hclose ih => exact ih
  | closed walk hclose hrest ih => trivial

theorem run (h : Walk direction limits input record phase rest) :
    Walk direction limits input
      (record ++ (phase.trail direction limits rest).flatMap
        (Phase.stepEntries direction limits input.length))
      (phase.run direction limits rest).phase (phase.run direction limits rest).rest := by
  -- a run and its trail take the same steps, so the record grows by one place of the trail
  fun_induction Phase.run direction limits phase rest generalizing record with
  | case1 phase rest next again later =>
      rename_i ih
      have hstep := ih h.step
      rw [Phase.trail, dif_pos again, List.flatMap_cons, ← List.append_assoc]
      exact hstep
  | case2 phase rest next =>
      rename_i again
      rw [Phase.trail, dif_neg again, List.flatMap_singleton]
      exact h.step

end Walk

/-! ## Records -/

theorem Phase.stepEntries_events (direction : Direction) (limits : Limits) (arrived : Nat)
    (place : Phase × Bytes) :
    (stepEntries direction limits arrived place).filterMap Entry.event? =
      (step direction limits place.1 place.2).events := by
  simp only [stepEntries, List.filterMap_map]
  exact List.filterMap_some

theorem Phase.trail_events (direction : Direction) (limits : Limits) (arrived : Nat)
    (phase : Phase) (buffer : Bytes) :
    ((phase.trail direction limits buffer).flatMap
      (stepEntries direction limits arrived)).filterMap Entry.event? =
        (phase.run direction limits buffer).events := by
  fun_induction run direction limits phase buffer with
  | case1 phase buffer next again later ih =>
      rw [trail, dif_pos again, List.flatMap_cons, List.filterMap_append, stepEntries_events, ih]
  | case2 phase buffer next again =>
      rw [trail, dif_neg again, List.flatMap_singleton, stepEntries_events]

namespace Connection

theorem forgets_events (connection : Connection) :
    connection.forgets.filterMap Entry.event? = [] := by
  unfold forgets
  split <;> rfl

/-- What a call does when it ends the connection: it reads what waits, and then the end of the
connection is reported. -/
theorem call_close (connection : Connection) :
    (connection.call .close).2 = (connection.reader.feed connection.buffer).events
      ++ (connection.reader.feed connection.buffer).reader.phase.atClose.toList := by
  simp only [call, close, Reader.close]
  split
  · rename_i hclose
    rw [hclose, Option.toList_none, List.append_nil]
  · rename_i event hclose
    rw [hclose, Option.toList_some]

theorem events_entries (connection : Connection) (arrived : Nat) (call : Call) :
    (connection.entries arrived call).filterMap Entry.event? = (connection.call call).2 := by
  cases call with
  | push bytes =>
      simp only [entries, trail, Call.reads, Call.bytes, List.filterMap_append, forgets_events,
        if_true, Phase.trail_events, List.nil_append]
      rfl
  | receive bytes => rfl
  | close =>
      have hend : (connection.endEntries arrived).filterMap Entry.event? =
          (connection.reader.feed connection.buffer).reader.phase.atClose.toList := by
        simp only [endEntries]
        cases (connection.reader.feed connection.buffer).reader.phase.atClose with
        | none => rfl
        | some event => rfl
      rw [call_close]
      simp only [entries, trail, Call.reads, Call.bytes, List.filterMap_append, forgets_events,
        if_true, Phase.trail_events, List.nil_append, List.append_nil, hend]
      rfl
  | requestReset => rfl
  | declineBody => rfl

theorem events_record (connection : Connection) (arrived : Nat) (calls : List Call) :
    (connection.record arrived calls).filterMap Entry.event? = connection.events calls := by
  induction calls generalizing connection arrived with
  | nil => rfl
  | cons call calls ih => simp only [record, events, List.filterMap_append, events_entries, ih]

/-! ## Histories are walks -/

variable {input : Bytes} {entries : List Entry}

/-- A call that reads begins by forgetting the message at hand, if that was asked for. -/
theorem walk_currentPhase {connection : Connection} {rest : Bytes}
    (h : Walk connection.reader.direction connection.reader.limits input entries
      connection.phase rest) :
    Walk connection.reader.direction connection.reader.limits input
      (entries ++ connection.forgets) connection.reader.currentPhase rest := by
  unfold forgets Reader.currentPhase
  split
  · exact h.forget
  · rw [List.append_nil]
    exact h

theorem walk_feed {connection : Connection}
    (h : Walk connection.reader.direction connection.reader.limits input entries
      connection.phase connection.buffer) (call : Call) (hreads : call.reads = true) :
    Walk connection.reader.direction connection.reader.limits (input ++ call.bytes)
      (entries ++ (connection.forgets ++ (connection.trail call).flatMap
        (Phase.stepEntries connection.reader.direction connection.reader.limits
          (input.length + call.bytes.length))))
      (connection.reader.feed (connection.buffer ++ call.bytes)).reader.phase
      (connection.reader.feed (connection.buffer ++ call.bytes)).rest := by
  have hrun := (walk_currentPhase (h.receive call.bytes)).run
  rw [List.length_append, List.append_assoc] at hrun
  simp only [trail, hreads, if_true]
  exact hrun

theorem walk_call {connection : Connection}
    (h : Walk connection.reader.direction connection.reader.limits input entries
      connection.phase connection.buffer) (call : Call) :
    Walk connection.reader.direction connection.reader.limits (input ++ call.bytes)
      (entries ++ connection.entries input.length call) (connection.call call).1.phase
      (connection.call call).1.buffer := by
  cases call with
  | push bytes => exact walk_feed h (.push bytes) rfl
  | receive bytes =>
      simp only [Connection.entries, List.append_nil]
      exact h.receive bytes
  | close =>
      have hfeed := walk_feed h .close rfl
      simp only [Call.bytes, List.append_nil] at hfeed
      have hrest := Sound.feed_rest h.sound []
      rw [List.append_nil] at hrest
      simp only [Connection.entries, Call.bytes, List.append_nil, endEntries, call, close,
        Reader.close]
      cases hclose : (connection.reader.feed connection.buffer).reader.phase.atClose with
      | none =>
          have hended := hfeed.ended hclose
          rw [List.append_assoc, List.append_assoc] at hended
          rw [List.append_assoc]
          exact hended
      | some event =>
          have hclosed := hfeed.closed hclose hrest
          rw [List.append_assoc, List.append_assoc] at hclosed
          rw [List.append_assoc]
          exact hclosed
  | requestReset =>
      simp only [Connection.entries, Call.bytes, List.append_nil]
      exact h
  | declineBody =>
      simp only [Connection.entries, Call.bytes, List.append_nil, call, declineBody,
        Reader.declineBody]
      split <;> exact h

theorem walk_after (connection : Connection)
    (h : Walk connection.reader.direction connection.reader.limits input entries
      connection.phase connection.buffer) (calls : List Call) :
    Walk connection.reader.direction connection.reader.limits
      (input ++ calls.flatMap Call.bytes) (entries ++ connection.record input.length calls)
      (connection.after calls).phase (connection.after calls).buffer := by
  induction calls generalizing connection input entries with
  | nil =>
      simp only [record, List.flatMap_nil, List.append_nil]
      exact h
  | cons call calls ih =>
      obtain ⟨hdirection, hlimits⟩ := call_reader connection call
      have hcall := walk_call h call
      rw [← hdirection, ← hlimits] at hcall
      have hafter := ih _ hcall
      rw [hdirection, hlimits, List.length_append] at hafter
      rw [List.append_assoc, List.append_assoc] at hafter
      exact hafter

/-- A history of a new connection is a walk from the beginning. -/
theorem start_walk {direction : Direction} {limits : Limits} {new : Connection}
    (h : start direction limits = .ok new) (calls : List Call) :
    Walk direction limits (calls.flatMap Call.bytes) (new.record 0 calls) (new.after calls).phase
      (new.after calls).buffer := by
  obtain ⟨valid, rfl⟩ := start_eq h
  exact walk_after { reader := { direction, limits, valid } } .start calls

theorem Reachable.sound {connection : Connection} (h : connection.Reachable) :
    connection.Sound := by
  obtain ⟨direction, limits, new, calls, hstart, rfl⟩ := h
  exact (start_walk hstart calls).sound

theorem after_reader (connection : Connection) (calls : List Call) :
    (connection.after calls).reader.direction = connection.reader.direction ∧
      (connection.after calls).reader.limits = connection.reader.limits := by
  induction calls generalizing connection with
  | nil => exact ⟨rfl, rfl⟩
  | cons call calls ih =>
      obtain ⟨hdirection, hlimits⟩ := call_reader connection call
      obtain ⟨hdirection', hlimits'⟩ := ih (connection.call call).1
      exact ⟨hdirection'.trans hdirection, hlimits'.trans hlimits⟩

theorem start_reader {direction : Direction} {limits : Limits} {new : Connection}
    (hstart : start direction limits = .ok new) (calls : List Call) :
    (new.after calls).reader.direction = direction ∧ (new.after calls).reader.limits = limits := by
  obtain ⟨valid, rfl⟩ := start_eq hstart
  exact after_reader _ calls

/-- A call that reads leaves nothing of what is reported in pieces. -/
theorem Sound.call_rest {connection : Connection} (h : connection.Sound) {call : Call}
    (hreads : call.reads = true)
    (hpieces : (connection.call call).1.phase.readsPieces = true) :
    (connection.call call).1.buffer = [] := by
  cases call with
  | push bytes => exact h.feed_rest bytes hpieces
  | close =>
      have hrest := h.feed_rest []
      rw [List.append_nil] at hrest
      simp only [Connection.call, Connection.close, Reader.close] at hpieces ⊢
      -- a connection whose end is reported is between messages, where no pieces are read
      split at hpieces
      · exact hrest hpieces
      · cases hpieces
  | receive bytes => cases hreads
  | requestReset => cases hreads
  | declineBody => cases hreads

end Connection

end HttpWire
