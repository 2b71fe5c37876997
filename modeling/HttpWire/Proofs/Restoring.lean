import HttpWire.Proofs.Closing
import HttpWire.Proofs.Registers

/-!
# Registers are restored

A reader in registers leaves a message behind by writing over what it held of it. Whatever it is used
for, and whatever its owner puts into its buffer, the registers follow the phases of a reader; so the
registers of a message that is left are those of a new reader, and what the end of a connection means
can be read off the slot.

- `RegisterStream.use`, `RegisterStream.answers`: the uses of a reader in registers;
  `RegisterStream.Mirrors.afterUses` says that they are answered as those of a reader.
- `Registers.settled`: the registers without a charge that is written before it is read.
  `Registers.run_settled` says that no run depends on it.
- `RegisterStream.forgotten_restores`: a message that is forgotten leaves the registers of a new reader.
- `RegisterStream.close_by_slot`: the end of a connection, decided from the registers alone.
-/

set_option autoImplicit false

namespace HttpWire

open Text

/-! ## Uses of a reader in registers -/

namespace RegisterStream

/-- What a call answers: the registers, the bytes that it has not read, and its events. -/
def answer (left : RegisterStream × List Event) : Registers.Run :=
  ⟨left.1.registers, left.1.buffer, left.2⟩

/-- What a use leaves behind, and its answer if it reads. -/
def use (stream : RegisterStream) : Use → RegisterStream × List Registers.Run
  | .feed refill =>
      let left := feed { stream with buffer := refill stream.buffer }
      (left.1, [answer left])
  | .close refill =>
      let left := close { stream with buffer := refill stream.buffer }
      (left.1, [answer left])
  | .requestReset => (stream.requestReset, [])
  | .declineBody => (stream.declineBody, [])

/-- The stream after some uses. -/
def afterUses (stream : RegisterStream) : List Use → RegisterStream
  | [] => stream
  | use :: uses => (stream.use use).1.afterUses uses

/-- The answers of some uses. -/
def answers (stream : RegisterStream) : List Use → List Registers.Run
  | [] => []
  | use :: uses => (stream.use use).2 ++ (stream.use use).1.answers uses

end RegisterStream

namespace Connection

theorem use_remains {connection : Connection} (h : connection.phase.Remains) (use : Use) :
    (connection.use use).1.phase.Remains := by
  cases use with
  | feed refill => exact Reader.feed_remains h _
  | close refill => exact Reader.close_remains h _
  | requestReset => exact h
  | declineBody => exact Reader.declineBody_remains h

theorem afterUses_remains {connection : Connection} (h : connection.phase.Remains)
    (uses : List Use) : (connection.afterUses uses).phase.Remains := by
  induction uses generalizing connection with
  | nil => exact h
  | cons use uses ih => exact ih (use_remains h use)

end Connection

namespace RegisterStream.Mirrors

variable {stream : RegisterStream} {connection : Connection}

/-- The owner may put any bytes into both buffers. -/
theorem refill (h : stream.Mirrors connection) (buffer : Bytes) :
    Mirrors { stream with buffer } { connection with buffer } :=
  ⟨h.direction, h.limits, h.reset, rfl, h.registers⟩

theorem use (h : stream.Mirrors connection) (hremains : connection.phase.Remains) (use : Use) :
    (stream.use use).1.Mirrors (connection.use use).1 ∧
      (stream.use use).2.flatMap Registers.Run.events =
        (connection.use use).2.flatMap Reader.Answer.events := by
  cases use with
  | feed refill =>
      obtain ⟨hleft, hevents⟩ := (h.refill (refill connection.buffer)).feed
      simp only [RegisterStream.use, Connection.use, h.buffer, List.flatMap_singleton]
      exact ⟨hleft, hevents⟩
  | close refill =>
      obtain ⟨hleft, hevents⟩ := (h.refill (refill connection.buffer)).close hremains
      simp only [RegisterStream.use, Connection.use, h.buffer, List.flatMap_singleton]
      exact ⟨hleft, hevents⟩
  | requestReset => exact ⟨h.requestReset, rfl⟩
  | declineBody => exact ⟨h.declineBody, rfl⟩

theorem afterUses (h : stream.Mirrors connection) (hremains : connection.phase.Remains)
    (uses : List Use) :
    (stream.afterUses uses).Mirrors (connection.afterUses uses) ∧
      (stream.answers uses).flatMap Registers.Run.events =
        (connection.answers uses).flatMap Reader.Answer.events := by
  induction uses generalizing stream connection with
  | nil => exact ⟨h, rfl⟩
  | cons use uses ih =>
      obtain ⟨huse, hevents⟩ := h.use hremains use
      obtain ⟨hafter, hlater⟩ := ih huse (Connection.use_remains hremains use)
      refine ⟨hafter, ?_⟩
      simp only [RegisterStream.answers, Connection.answers, List.flatMap_append, hevents, hlater]

end RegisterStream.Mirrors

/-! ## A charge that nothing reads -/

namespace Registers

variable {direction : Direction} {limits : Limits}

/-- The registers without the charge of the last start line where no message is at hand: it is
written before it is read again. -/
def settled (registers : Registers) : Registers :=
  if registers.mode = .idle then { registers with charged := 0 } else registers

/-- What a run leaves behind, with its registers settled. -/
def Run.settled (run : Run) : Run :=
  { run with registers := run.registers.settled }

theorem endEvent?_settled (direction : Direction) (registers : Registers) :
    registers.settled.endEvent? direction = registers.endEvent? direction := by
  unfold settled
  split <;> rfl

theorem canDeclineBody_settled (registers : Registers) :
    registers.settled.canDeclineBody = registers.canDeclineBody := by
  unfold settled
  split <;> rfl

/-- A start line is charged anew. -/
theorem run_startLine (registers : Registers) (h : registers.mode = .startLine) (charged : Nat)
    (buffer : Bytes) :
    { registers with charged }.run direction limits buffer =
      registers.run direction limits buffer := by
  obtain ⟨mode, charged', block, framer, chunks, slot⟩ := registers
  cases h
  have hstep : step direction limits ⟨.startLine, charged, block, framer, chunks, slot⟩ buffer =
      step direction limits ⟨.startLine, charged', block, framer, chunks, slot⟩ buffer := rfl
  rw [run, hstep, ← run]

theorem run_padding (registers : Registers) {buffer : Bytes} (hmode : registers.mode = .idle)
    (h : buffer.dropWhile isPadding = []) :
    registers.run direction limits buffer = ⟨registers, [], []⟩ := by
  have hstep : registers.step direction limits buffer = ⟨registers, [], [], false⟩ := by
    simp only [step, hmode, stepIdle, h]
  rw [run, dif_neg (by rw [hstep]; exact Bool.false_ne_true), hstep]

theorem run_beginning (registers : Registers) {buffer rest : Bytes} {b : UInt8}
    (hmode : registers.mode = .idle) (h : buffer.dropWhile isPadding = b :: rest) :
    registers.run direction limits buffer =
      { registers with mode := .startLine }.run direction limits (b :: rest) := by
  have hstep : registers.step direction limits buffer =
      ⟨{ registers with mode := .startLine }, b :: rest, [], true⟩ := by
    simp only [step, hmode, stepIdle, h]
  rw [run, dif_pos (by rw [hstep]), hstep]
  rfl

/-- No run depends on a charge that was left from an earlier line. -/
theorem run_settled (registers : Registers) (buffer : Bytes) :
    (registers.settled.run direction limits buffer).settled =
      (registers.run direction limits buffer).settled := by
  by_cases hmode : registers.mode = .idle
  · rw [settled, if_pos hmode]
    cases h : buffer.dropWhile isPadding with
    | nil =>
        rw [run_padding registers hmode h, run_padding { registers with charged := 0 } hmode h]
        simp only [Run.settled, settled, hmode, if_true]
    | cons b rest =>
        rw [run_beginning registers hmode h, run_beginning { registers with charged := 0 } hmode h]
        exact congrArg Run.settled
          (run_startLine { registers with mode := .startLine } rfl 0 (b :: rest))
  · rw [settled, if_neg hmode]

theorem Represents.settled_of_idle {registers : Registers}
    (h : Represents direction limits registers .idle) : registers.settled = {} := by
  cases h
  rfl

end Registers

/-! ## Streams that the next call cannot tell apart -/

namespace RegisterStream

/-- The registers with which the next call begins. -/
def current (stream : RegisterStream) : Registers :=
  if stream.resetRequested then stream.registers.reset else stream.registers

theorem settled_answer_inj {left other : RegisterStream × List Event} :
    (answer left).settled = (answer other).settled ↔
      left.1.registers.settled = other.1.registers.settled ∧ left.1.buffer = other.1.buffer ∧
        left.2 = other.2 := by
  simp only [answer, Registers.Run.settled, Registers.Run.mk.injEq]

/-- Two streams that the next call cannot tell apart: it begins with the same registers, within the
same limits, on the same bytes. -/
structure Alike (first second : RegisterStream) : Prop where
  direction : first.direction = second.direction
  limits : first.limits = second.limits
  registers : first.current.settled = second.current.settled
  buffer : first.buffer = second.buffer

theorem declineBody_keeps (stream : RegisterStream) :
    stream.declineBody.direction = stream.direction ∧ stream.declineBody.limits = stream.limits ∧
      stream.declineBody.buffer = stream.buffer := by
  unfold declineBody
  split <;> exact ⟨rfl, rfl, rfl⟩

/-- Calling off a body changes the next call only if that call would have begun in the body. -/
theorem current_declineBody (stream : RegisterStream) :
    stream.declineBody.current.settled =
      if stream.current.settled.canDeclineBody = true then {} else stream.current.settled := by
  rw [Registers.canDeclineBody_settled]
  obtain ⟨direction, limits, registers, resetRequested, buffer⟩ := stream
  cases resetRequested with
  | true =>
      simp only [declineBody, requestReset, current, ite_self, if_true]
      rfl
  | false =>
      simp only [declineBody, current, Bool.false_eq_true, if_false]
      split <;> rfl

namespace Alike

variable {first second : RegisterStream}

theorem refill (h : first.Alike second) (buffer : Bytes) :
    Alike { first with buffer } { second with buffer } :=
  ⟨h.direction, h.limits, h.registers, rfl⟩

theorem feed (h : first.Alike second) :
    first.feed.1.Alike second.feed.1 ∧
      (answer first.feed).settled = (answer second.feed).settled := by
  have hrun : (first.current.run first.direction first.limits first.buffer).settled =
      (second.current.run second.direction second.limits second.buffer).settled := by
    rw [← Registers.run_settled first.current, ← Registers.run_settled second.current, h.registers,
      h.direction, h.limits, h.buffer]
  have hregisters := congrArg Registers.Run.registers hrun
  have hrest := congrArg Registers.Run.rest hrun
  exact ⟨⟨h.direction, h.limits, hregisters, hrest⟩, hrun⟩

theorem close (h : first.Alike second) :
    first.close.1.Alike second.close.1 ∧
      (answer first.close).settled = (answer second.close).settled := by
  obtain ⟨hleft, hanswer⟩ := h.feed
  obtain ⟨hregisters, hrest, hevents⟩ := settled_answer_inj.1 hanswer
  have hend : first.feed.1.registers.endEvent? first.feed.1.direction =
      second.feed.1.registers.endEvent? second.feed.1.direction := by
    rw [← Registers.endEvent?_settled, hregisters, Registers.endEvent?_settled, hleft.direction]
  simp only [RegisterStream.close, hend]
  split
  · exact ⟨hleft, hanswer⟩
  · -- whatever the registers hold, a reset leaves the same
    exact ⟨⟨hleft.direction, hleft.limits, rfl, hrest⟩,
      settled_answer_inj.2 ⟨rfl, hrest, congrArg (· ++ [_]) hevents⟩⟩

theorem declineBody (h : first.Alike second) : first.declineBody.Alike second.declineBody := by
  obtain ⟨hdirection, hlimits, hbuffer⟩ := declineBody_keeps first
  obtain ⟨hdirection', hlimits', hbuffer'⟩ := declineBody_keeps second
  refine ⟨?_, ?_, ?_, ?_⟩
  · rw [hdirection, hdirection', h.direction]
  · rw [hlimits, hlimits', h.limits]
  · rw [current_declineBody, current_declineBody, h.registers]
  · rw [hbuffer, hbuffer', h.buffer]

theorem use (h : first.Alike second) (use : Use) :
    (first.use use).1.Alike (second.use use).1 ∧
      (first.use use).2.map Registers.Run.settled =
        (second.use use).2.map Registers.Run.settled := by
  cases use with
  | feed refill =>
      obtain ⟨hleft, hanswer⟩ := (h.refill (refill second.buffer)).feed
      simp only [RegisterStream.use, h.buffer, List.map_singleton, hanswer]
      exact ⟨hleft, trivial⟩
  | close refill =>
      obtain ⟨hleft, hanswer⟩ := (h.refill (refill second.buffer)).close
      simp only [RegisterStream.use, h.buffer, List.map_singleton, hanswer]
      exact ⟨hleft, trivial⟩
  | requestReset => exact ⟨⟨h.direction, h.limits, rfl, h.buffer⟩, rfl⟩
  | declineBody => exact ⟨h.declineBody, rfl⟩

theorem answers (h : first.Alike second) (uses : List Use) :
    (first.answers uses).map Registers.Run.settled =
      (second.answers uses).map Registers.Run.settled := by
  induction uses generalizing first second with
  | nil => rfl
  | cons use uses ih =>
      obtain ⟨halike, hanswer⟩ := h.use use
      simp only [RegisterStream.answers, List.map_append, hanswer, ih halike]

end Alike

/-! ## A message that is left -/

theorem afterUses_append (stream : RegisterStream) (uses more : List Use) :
    stream.afterUses (uses ++ more) = (stream.afterUses uses).afterUses more := by
  induction uses generalizing stream with
  | nil => rfl
  | cons use uses ih => exact ih (stream.use use).1

theorem start_eq {direction : Direction} {limits : Limits} {new : RegisterStream}
    (h : start direction limits = .ok new) : new = { direction, limits } := by
  unfold start at h
  cases hcheck : limits.check with
  | error refusal =>
      rw [hcheck] at h
      cases h
  | ok checked =>
      rw [hcheck] at h
      cases h
      rw [← Limits.eq_of_check_eq_ok hcheck]

theorem use_reader (stream : RegisterStream) (use : Use) :
    (stream.use use).1.direction = stream.direction ∧
      (stream.use use).1.limits = stream.limits := by
  cases use with
  | feed refill => exact ⟨rfl, rfl⟩
  | close refill =>
      simp only [RegisterStream.use, close]
      split <;> exact ⟨rfl, rfl⟩
  | requestReset => exact ⟨rfl, rfl⟩
  | declineBody =>
      obtain ⟨hdirection, hlimits, -⟩ := declineBody_keeps stream
      exact ⟨hdirection, hlimits⟩

theorem afterUses_reader (stream : RegisterStream) (uses : List Use) :
    (stream.afterUses uses).direction = stream.direction ∧
      (stream.afterUses uses).limits = stream.limits := by
  induction uses generalizing stream with
  | nil => exact ⟨rfl, rfl⟩
  | cons use uses ih =>
      obtain ⟨hdirection, hlimits⟩ := use_reader stream use
      obtain ⟨hdirection', hlimits'⟩ := ih (stream.use use).1
      exact ⟨hdirection'.trans hdirection, hlimits'.trans hlimits⟩

/-- After any uses, a new stream stands where a new connection stands. -/
theorem start_mirrors_afterUses {direction : Direction} {limits : Limits} {new : RegisterStream}
    (hstart : start direction limits = .ok new) (uses : List Use) :
    ∃ connection, Connection.start direction limits = .ok connection ∧
      (new.afterUses uses).Mirrors (connection.afterUses uses) ∧
      (connection.afterUses uses).phase.Remains ∧
      (new.answers uses).flatMap Registers.Run.events =
        (connection.answers uses).flatMap Reader.Answer.events := by
  obtain ⟨connection, hconnection, hmirrors⟩ := start_mirrors hstart
  have hremains : connection.phase.Remains := by
    obtain ⟨valid, rfl⟩ := Connection.start_eq hconnection
    trivial
  obtain ⟨hafter, hevents⟩ := hmirrors.afterUses hremains uses
  exact ⟨connection, hconnection, hafter, Connection.afterUses_remains hremains uses, hevents⟩

/-- A message that is left has its registers restored. After any uses, whatever the owner put into
the buffer, if the message at hand is asked to be forgotten before the next call, or its body is called
off where that can be done, or if no message is at hand anyhow, the next call begins with the registers
of a new reader, apart from a charge that it writes before it reads it. So the stream answers every
further use, on every buffer, as a new one, and with the same registers. Where a body cannot be called
off, trying to do so has no effect. -/
theorem forgotten_restores {direction : Direction} {limits : Limits} {new : RegisterStream}
    (hstart : start direction limits = .ok new) (uses : List Use) :
    (∀ asks : List Use, (∀ use ∈ asks, use.reads = false) →
      (.requestReset ∈ asks ∨
        (.declineBody ∈ asks ∧ (new.afterUses uses).registers.canDeclineBody = true) ∨
        (new.afterUses uses).registers.mode = .idle) →
      (new.afterUses (uses ++ asks)).current.settled = {} ∧
        ∀ (buffer : Bytes) (later : List Use),
          (answers { new.afterUses (uses ++ asks) with buffer } later).map Registers.Run.settled =
            (answers { new with buffer } later).map Registers.Run.settled) ∧
    ((new.afterUses uses).registers.canDeclineBody = false →
      (new.afterUses uses).use .declineBody = (new.afterUses uses, [])) := by
  refine ⟨?_, ?_⟩
  · intro asks hasks hforgets
    obtain ⟨connection, hconnection, hmirrors, hremains, -⟩ := start_mirrors_afterUses hstart uses
    obtain ⟨hasked, -⟩ := hmirrors.afterUses hremains asks
    rw [← afterUses_append, ← Connection.afterUses_append] at hasked
    have hidle : (connection.afterUses (uses ++ asks)).reader.currentPhase = .idle := by
      rw [Connection.afterUses_append]
      refine Connection.currentPhase_afterUses hasks ?_
      -- what the registers say of the message at hand, the phase says as well
      rw [hmirrors.registers.canDeclineBody, hmirrors.registers.mode] at hforgets
      exact hforgets.imp_right (Or.imp_right fun hmode =>
        Reader.currentPhase_of_idle (Phase.eq_idle_of_mode hmode))
    have hcurrent := hasked.current
    rw [hidle] at hcurrent
    have hsettled := hcurrent.settled_of_idle
    refine ⟨hsettled, ?_⟩
    intro buffer later
    obtain ⟨hdirection, hlimits⟩ := afterUses_reader new (uses ++ asks)
    obtain rfl := start_eq hstart
    have halike : Alike { afterUses { direction, limits } (uses ++ asks) with buffer }
        { direction, limits, buffer } := ⟨hdirection, hlimits, hsettled, rfl⟩
    exact halike.answers later
  · intro hdecline
    simp only [use, declineBody, hdecline, Bool.false_eq_true, if_false]

example :
    let stream : RegisterStream := { direction := .response, limits := {} }
    let uses : List Use := [.feed fun left =>
      left ++ toBytes "HTTP/1.1 200 OK\r\nTransfer-Encoding: chunked\r\n\r\n5"]
    (stream.afterUses uses).registers.slot = .emitted .chunked false ∧
      (stream.afterUses (uses ++ [.declineBody])).current = {} := by decide +kernel

/-! ## The end of a connection -/

/-- What a call leaves behind if it ends the connection and reports that: the registers of a new
reader. -/
def closedBy (left : RegisterStream × List Event) (event : Event) : RegisterStream × List Event :=
  ({ left.1 with registers := {} }, left.2 ++ [event])

theorem close_of_none {stream : RegisterStream}
    (h : stream.feed.1.registers.endEvent? stream.feed.1.direction = none) :
    stream.close = stream.feed := by
  simp only [close, h]

theorem close_of_some {stream : RegisterStream} {event : Event}
    (h : stream.feed.1.registers.endEvent? stream.feed.1.direction = some event) :
    stream.close = closedBy stream.feed event := by
  simp only [close, h]
  rfl

/-- What the end of a connection reports, read off the registers, after any uses and on any buffer.
Everything that has arrived is read first. The slot then decides. If it is vacant, there is nothing to
report, and nothing changes. A head that is being assembled is refused as cut short, with what it
holds. A body whose head has been reported is complete if it ends with the connection, and cut short
otherwise; the length that the slot keeps is the one that follows from the head reported last, though
the registers decide by the direction and by the number that was announced. The registers are then
those of a new reader. -/
theorem close_by_slot {direction : Direction} {limits : Limits} {new : RegisterStream}
    (hstart : start direction limits = .ok new) (uses : List Use) (buffer : Bytes) :
    let stream : RegisterStream := { new.afterUses uses with buffer }
    let slot := stream.feed.1.registers.slot
    (slot = .vacant → stream.close = stream.feed) ∧
      (∀ head, slot = .assembling head →
        stream.close = closedBy stream.feed (.refusedHead head (.prematureClosure .headers))) ∧
      ∀ length switches, slot = .emitted length switches →
        stream.close = closedBy stream.feed
            (if length = .untilClose then .last {}
              else .refusedContent (.prematureClosure .content)) ∧
          ∃ head,
            Event.opening? ((new.answers uses).flatMap Registers.Run.events ++ stream.feed.2) =
                some head ∧
              BodyLength.select direction head = .ok length := by
  intro stream slot
  refine ⟨?_, ?_, ?_⟩
  · intro hslot
    refine close_of_none ?_
    simp only [slot] at hslot
    simp only [Registers.endEvent?, hslot]
  · intro head hslot
    refine close_of_some ?_
    simp only [slot] at hslot
    simp only [Registers.endEvent?, hslot]
  · intro length switches hslot
    obtain ⟨connection, hconnection, hmirrors, hremains, hevents⟩ :=
      start_mirrors_afterUses hstart uses
    obtain ⟨hfed, hnow⟩ := (hmirrors.refill buffer).feed
    have hremains' := Reader.feed_remains hremains buffer
    have hlength := hfed.registers.bodyLength?
    have hkept : stream.feed.1.registers.bodyLength? = some length := by
      simp only [slot] at hslot
      simp only [Registers.bodyLength?, hslot]
    have hphase := hlength.symm.trans hkept
    refine ⟨close_of_some ?_, ?_⟩
    · exact (hfed.registers.endEvent? hremains').trans (Phase.atClose_of_bodyLength? hphase)
    · rw [hevents, hnow]
      exact Connection.start_bodyOf hconnection uses buffer length hphase

end RegisterStream

end HttpWire
