import HttpWire.Proofs.Heads
import HttpWire.Proofs.Values
import HttpWire.Proofs.Waiting
import HttpWire.Reader.Registers

/-!
# What the registers of a reader say

The reader in registers reports what the reader reports, and between two calls its registers never
contradict one another. Both follow from one relation: `Registers.Represents` gives, for each phase,
the contents of all registers, so that a register that was not restored when its mode was left would
have nothing to stand for.

- `Registers.readBlock_follows`: the accumulator, in place, takes what `FieldBlock.read` takes.
- `Registers.step_tracks`, `Registers.run_tracks`: the registers follow the phases.
- `Registers.Consistent`: what the registers say about each other and about the bytes that wait.
- `RegisterStream.after_consistent`: they say so after every history.
-/

set_option autoImplicit false

namespace HttpWire

open Text

namespace Registers

variable {direction : Direction} {limits : Limits}

/-! ## Blocks in place -/

section Blocks

variable {limit : Nat} {strict : Bool} {buffer : Bytes} {block : FieldBlock}

/-- What reading in place leaves in the accumulator and answers, by what becomes of the block. -/
def Follows (read : FieldBlock × List Field × Except Fault (Option Nat)) :
    List Field × FieldBlock.Outcome → Prop
  | (fields, .incomplete later) => read = (later, fields, .ok none)
  | (fields, .complete next charged) => read = ({ charged }, fields, .ok (some next))
  | (fields, .refused cause) => read.2 = (fields, .error cause)

theorem readBlock_follows (limit : Nat) (strict : Bool) (buffer : Bytes) (block : FieldBlock) :
    Follows (readBlock limit strict buffer block) (block.read limit strict buffer) := by
  fun_induction readBlock limit strict buffer block with
  | case1 block found charged hline =>
      rw [FieldBlock.read_tooLong hline]
      rfl
  | case2 block found charged hline =>
      have hcharged : charged = block.charged := congrArg (chargeAfter limit block.charged) hline
      rw [FieldBlock.read_incomplete hline, hcharged]
      rfl
  | case3 block found charged line hline cause htake =>
      rw [FieldBlock.read_found hline, htake]
      rfl
  | case4 block found charged line hline done htake =>
      have hcharged : charged = block.charged + line.length :=
        congrArg (chargeAfter limit block.charged) hline
      rw [FieldBlock.read_found hline, htake, hcharged]
      rfl
  | case5 block found charged line hline done spans htake further ih =>
      have hcharged : charged = block.charged + line.length :=
        congrArg (chargeAfter limit block.charged) hline
      rw [FieldBlock.read_found hline, htake, ← hcharged]
      simp only
      rcases hread : FieldBlock.read limit strict buffer ⟨charged, line.next, some spans⟩ with
        ⟨fields, outcome⟩
      rw [hread] at ih
      -- what was completed earlier stands before what is completed now
      cases outcome with
      | incomplete later =>
          have hfurther : further = (later, fields, .ok none) := ih
          rw [hfurther]
          rfl
      | complete next charged' =>
          have hfurther : further = ({ charged := charged' }, fields, .ok (some next)) := ih
          rw [hfurther]
          rfl
      | refused cause =>
          have hfurther : further.2 = (fields, .error cause) := ih
          rw [hfurther]
          rfl

end Blocks

/-! ## Phases in registers -/

/-- The contents of all registers in each phase. Outside of a message they are those of a new
reader, apart from the charge of the last start line. -/
inductive Represents (direction : Direction) (limits : Limits) : Registers → Phase → Prop
  | idle (charged : Nat) : Represents direction limits { charged } .idle
  | startLine (charged : Nat) :
      Represents direction limits { mode := .startLine, charged } .startLine
  | header (charged : Nat) (first : StartLine) (fields : Fields) (block : FieldBlock) :
      Represents direction limits
        { mode := .header, charged, block, slot := .assembling { startLine := first, fields } }
        (.header first fields block)
  | fixed (charged : Nat) {total : Nat} (htotal : total ≤ limits.header)
      (length remaining : Nat) (switches : Bool) :
      Represents direction limits
        { mode := .fixed, charged, block := { charged := total },
          framer := ⟨.known length, remaining⟩, slot := .emitted (.fixed length) switches }
        (.fixed length remaining switches)
  | untilClose (charged : Nat) {total : Nat} (htotal : total ≤ limits.header) (switches : Bool)
      (hdirection : direction = .response) :
      Represents direction limits
        { mode := .untilClose, charged, block := { charged := total },
          framer := ⟨.absent, 0⟩, slot := .emitted .untilClose switches }
        .untilClose
  | chunkSize (charged line : Nat) (body : ChunkedBody) :
      Represents direction limits
        { mode := .chunkSize, charged, block := { charged := body.charged },
          chunks := { charged := line }, slot := .emitted .chunked body.switches }
        (.chunkSize body)
  | chunkData (charged line : Nat) (body : ChunkedBody) (remaining : Nat) :
      Represents direction limits
        { mode := .chunkData, charged, block := { charged := body.charged },
          chunks := { charged := line, remaining }, slot := .emitted .chunked body.switches }
        (.chunkData body remaining)
  | chunkEnd (charged line : Nat) (body : ChunkedBody) :
      Represents direction limits
        { mode := .chunkEnd, charged, block := { charged := body.charged },
          chunks := { charged := line }, slot := .emitted .chunked body.switches }
        (.chunkEnd body)
  | trailer (charged line : Nat) (switches : Bool) (fields : Fields) (block : FieldBlock) :
      Represents direction limits
        { mode := .trailer, charged, block, chunks := { charged := line, trailers := fields },
          slot := .emitted .chunked switches }
        (.trailer switches fields block)
  | refused : Represents direction limits { mode := .refused } .refused
  | raw : Represents direction limits { mode := .raw } .raw

/-- A step of the registers that is the step of the phase they stand for. -/
structure Tracks (direction : Direction) (limits : Limits) (step : Step) (next : HttpWire.Step) :
    Prop where
  registers : Represents direction limits step.registers next.phase
  rest : step.rest = next.rest
  events : step.events = next.events
  again : step.again = next.again

theorem tracks_refuse (registers : Registers) (event : Event) :
    Tracks direction limits (registers.refuse event) (.refuse event) :=
  ⟨.refused, rfl, rfl, rfl⟩

/-- Whatever the registers hold, a message that is complete leaves those of a new reader. -/
theorem represents_complete {registers : Registers} {length : BodyLength} {switches : Bool}
    (h : registers.slot = .emitted length switches) :
    Represents direction limits registers.complete (Phase.afterMessage switches) := by
  have hmode : registers.nextMode = if switches then .raw else .idle := by
    rw [nextMode, h]
    cases switches <;> rfl
  unfold complete
  rw [hmode]
  cases switches with
  | true => exact .raw
  | false => exact .idle 0

section Steps

variable {buffer : Bytes}

theorem stepIdle_tracks (charged : Nat) :
    Tracks direction limits (stepIdle { charged } buffer) (Phase.stepIdle buffer) := by
  unfold stepIdle Phase.stepIdle
  cases buffer.dropWhile isPadding with
  | nil => exact ⟨.idle charged, rfl, rfl, rfl⟩
  | cons b rest => exact ⟨.startLine charged, rfl, rfl, rfl⟩

theorem stepStartLine_tracks (charged : Nat) :
    Tracks direction limits
      (stepStartLine direction limits { mode := .startLine, charged } buffer)
      (Phase.stepStartLine direction limits buffer) := by
  unfold stepStartLine Phase.stepStartLine
  cases hline : Line.scan limits.line 0 buffer 0 with
  | incomplete => exact ⟨.startLine 0, rfl, rfl, rfl⟩
  | tooLong => exact tracks_refuse _ _
  | found line =>
      simp only
      cases hread : StartLine.read direction (line.bytes buffer) with
      | error cause => exact tracks_refuse _ _
      | ok first? =>
          cases first? with
          | none => exact ⟨.idle _, rfl, rfl, rfl⟩
          | some first => exact ⟨.header _ first {} {}, rfl, rfl, rfl⟩

/-- What a framer holds once it has found how far a body extends. A number is kept if it was
announced, and so is the fact that none was, if one was looked for. -/
def Settles (direction : Direction) (framer : Framer) : BodyLength → Prop
  | .empty => True
  | .fixed length => framer = ⟨.known length, length⟩
  | .chunked => framer = {}
  | .untilClose => framer = ⟨.absent, 0⟩ ∧ direction = .response

/-- The framer of a new message finds what the head says. -/
theorem resolve_new (direction : Direction) (head : Head) :
    ∃ framer, Framer.resolve direction {} head = (framer, BodyLength.select direction head) ∧
      ∀ length, BodyLength.select direction head = .ok length →
        Settles direction framer length := by
  unfold Framer.resolve BodyLength.select
  by_cases hbodiless : direction = .response ∧ head.isBodiless = true
  · simp only [if_pos hbodiless]
    exact ⟨{}, rfl, by rintro length ⟨⟩; trivial⟩
  · simp only [if_neg hbodiless]
    cases hchunked : head.isChunked with
    | true => exact ⟨{}, rfl, by rintro length ⟨⟩; rfl⟩
    | false =>
        simp only [Bool.false_eq_true, if_false, Framer.contentLength]
        cases hannounced : BodyLength.announced head with
        | error cause => exact ⟨{}, rfl, by rintro length ⟨⟩⟩
        | ok length? =>
            cases length? with
            | some n => exact ⟨⟨.known n, n⟩, rfl, by rintro length ⟨⟩; rfl⟩
            | none =>
                cases direction with
                | request => exact ⟨⟨.absent, 0⟩, rfl, by rintro length ⟨⟩; trivial⟩
                | response => exact ⟨⟨.absent, 0⟩, rfl, by rintro length ⟨⟩; exact ⟨rfl, rfl⟩⟩

theorem beginBody_tracks {charged total : Nat} (htotal : total ≤ limits.header) {framer : Framer}
    {head : Head} {length : BodyLength} (hsettles : Settles direction framer length)
    (rest : Bytes) :
    let next := Phase.beginBody total (head.handsOver direction) length
    Tracks direction limits
      (beginBody direction { mode := .header, charged, block := { charged := total }, framer }
        head length rest)
      (.proceed next.1 rest (.head head :: next.2)) := by
  cases length with
  | empty => exact ⟨represents_complete rfl, rfl, rfl, rfl⟩
  | fixed length =>
      cases length with
      | zero => exact ⟨represents_complete rfl, rfl, rfl, rfl⟩
      | succ length =>
          obtain rfl : framer = _ := hsettles
          exact ⟨.fixed charged htotal _ _ _, rfl, rfl, rfl⟩
  | chunked =>
      obtain rfl : framer = _ := hsettles
      exact ⟨.chunkSize charged 0 ⟨total, _⟩, rfl, rfl, rfl⟩
  | untilClose =>
      obtain ⟨rfl, hdirection⟩ := hsettles
      exact ⟨.untilClose charged htotal _ hdirection, rfl, rfl, rfl⟩

theorem stepHeader_tracks (charged : Nat) (first : StartLine) (fields : Fields)
    (block : FieldBlock) :
    Tracks direction limits
      (stepHeader direction limits
        { mode := .header, charged, block, slot := .assembling { startLine := first, fields } }
        buffer)
      (Phase.stepHeader direction limits first fields block buffer) := by
  have hfollows := readBlock_follows limits.header limits.strict buffer block
  unfold stepHeader Phase.stepHeader
  rcases hread : block.read limits.header limits.strict buffer with ⟨more, outcome⟩
  rw [hread] at hfollows
  cases outcome with
  | incomplete later =>
      have hplace : readBlock limits.header limits.strict buffer block = (later, more, .ok none) :=
        hfollows
      simp only [hplace]
      exact ⟨.header charged first _ later, rfl, rfl, rfl⟩
  | refused cause =>
      have hplace : (readBlock limits.header limits.strict buffer block).2 =
          (more, .error cause) := hfollows
      simp only [hplace]
      exact tracks_refuse _ _
  | complete next total =>
      have hplace : readBlock limits.header limits.strict buffer block =
          ({ charged := total }, more, .ok (some next)) := hfollows
      have htotal := FieldBlock.charged_le_of_complete (congrArg Prod.snd hread)
      simp only [hplace, Phase.stepHead]
      obtain ⟨framer, hresolve, hsettles⟩ :=
        resolve_new direction { startLine := first, fields := fields.append more }
      rw [hresolve]
      simp only
      cases hlength : BodyLength.select direction
          { startLine := first, fields := fields.append more } with
      | error cause => exact tracks_refuse _ _
      | ok length =>
          simp only
          cases hfault : Phase.bodyFault? limits length with
          | some cause => exact tracks_refuse _ _
          | none => exact beginBody_tracks htotal (hsettles length hlength) _

theorem stepFixed_tracks (charged : Nat) {total : Nat} (htotal : total ≤ limits.header)
    (length remaining : Nat) (switches : Bool) :
    Tracks direction limits
      (stepFixed limits
        { mode := .fixed, charged, block := { charged := total },
          framer := ⟨.known length, remaining⟩, slot := .emitted (.fixed length) switches } buffer)
      (Phase.stepFixed limits length remaining switches buffer) := by
  rcases Phase.nextPiece_cases limits remaining buffer with
    hnone | ⟨data, rest, rfl, hdata, hnext, hle⟩
  · simp only [stepFixed, Phase.stepFixed, hnone, List.isEmpty_nil, if_true]
    exact ⟨.fixed charged htotal length remaining switches, rfl, rfl, rfl⟩
  · simp only [stepFixed, Phase.stepFixed, hnext, List.drop_left, List.isEmpty_iff, if_neg hdata]
    by_cases hlast : data.length = remaining
    · rw [if_pos (Nat.sub_eq_zero_of_le (Nat.le_of_eq hlast.symm)), if_pos hlast]
      exact ⟨represents_complete rfl, rfl, rfl, rfl⟩
    · rw [if_neg (Nat.sub_ne_zero_of_lt (Nat.lt_of_le_of_ne hle hlast)), if_neg hlast]
      exact ⟨.fixed charged htotal length _ switches, rfl, rfl, rfl⟩

theorem stepUntilClose_tracks (charged : Nat) {total : Nat} (htotal : total ≤ limits.header)
    (switches : Bool) (hdirection : direction = .response) :
    Tracks direction limits
      (stepUntilClose limits
        { mode := .untilClose, charged, block := { charged := total },
          framer := ⟨.absent, 0⟩, slot := .emitted .untilClose switches } buffer)
      (Phase.stepUntilClose limits buffer) := by
  have hrepresents : Represents direction limits
      { mode := .untilClose, charged, block := { charged := total },
        framer := ⟨.absent, 0⟩, slot := .emitted .untilClose switches } .untilClose :=
    .untilClose charged htotal switches hdirection
  unfold stepUntilClose Phase.stepUntilClose
  simp only
  split
  · exact ⟨hrepresents, rfl, rfl, rfl⟩
  · exact ⟨hrepresents, rfl, rfl, rfl⟩

theorem stepChunkSize_tracks (charged line : Nat) (body : ChunkedBody) :
    Tracks direction limits
      (stepChunkSize limits
        { mode := .chunkSize, charged, block := { charged := body.charged },
          chunks := { charged := line }, slot := .emitted .chunked body.switches } buffer)
      (Phase.stepChunkSize limits body buffer) := by
  unfold stepChunkSize Phase.stepChunkSize
  cases hline : Line.scan limits.line 0 buffer 0 with
  | incomplete => exact ⟨.chunkSize charged 0 body, rfl, rfl, rfl⟩
  | tooLong => exact tracks_refuse _ _
  | found line =>
      simp only
      cases hsize : Chunked.readSize (line.bytes buffer) with
      | error cause => exact tracks_refuse _ _
      | ok size =>
          cases size with
          | zero =>
              exact ⟨.trailer charged _ body.switches {} { charged := body.charged }, rfl, rfl, rfl⟩
          | succ size => exact ⟨.chunkData charged _ body (size + 1), rfl, rfl, rfl⟩

theorem stepChunkData_tracks (charged line : Nat) (body : ChunkedBody) (remaining : Nat) :
    Tracks direction limits
      (stepChunkData limits
        { mode := .chunkData, charged, block := { charged := body.charged },
          chunks := { charged := line, remaining }, slot := .emitted .chunked body.switches }
        buffer)
      (Phase.stepChunkData limits body remaining buffer) := by
  rcases Phase.nextPiece_cases limits remaining buffer with
    hnone | ⟨data, rest, rfl, hdata, hnext, hle⟩
  · simp only [stepChunkData, Phase.stepChunkData, hnone, List.isEmpty_nil, if_true]
    exact ⟨.chunkData charged line body remaining, rfl, rfl, rfl⟩
  · simp only [stepChunkData, Phase.stepChunkData, hnext, List.drop_left, List.isEmpty_iff,
      if_neg hdata]
    by_cases hlast : data.length = remaining
    · have hzero := Nat.sub_eq_zero_of_le (Nat.le_of_eq hlast.symm)
      rw [if_pos hzero, if_pos hlast, hzero]
      exact ⟨.chunkEnd charged line body, rfl, rfl, rfl⟩
    · rw [if_neg (Nat.sub_ne_zero_of_lt (Nat.lt_of_le_of_ne hle hlast)), if_neg hlast]
      exact ⟨.chunkData charged line body _, rfl, rfl, rfl⟩

theorem stepChunkEnd_tracks (charged line : Nat) (body : ChunkedBody) :
    Tracks direction limits
      (stepChunkEnd
        { mode := .chunkEnd, charged, block := { charged := body.charged },
          chunks := { charged := line }, slot := .emitted .chunked body.switches } buffer)
      (Phase.stepChunkEnd body buffer) := by
  unfold stepChunkEnd Phase.stepChunkEnd
  cases buffer.dropWhile (· != lf) with
  | nil => exact ⟨.chunkEnd charged line body, rfl, rfl, rfl⟩
  | cons b rest => exact ⟨.chunkSize charged line body, rfl, rfl, rfl⟩

theorem stepTrailer_tracks (charged line : Nat) (switches : Bool) (fields : Fields)
    (block : FieldBlock) :
    Tracks direction limits
      (stepTrailer limits
        { mode := .trailer, charged, block, chunks := { charged := line, trailers := fields },
          slot := .emitted .chunked switches } buffer)
      (Phase.stepTrailer limits switches fields block buffer) := by
  have hfollows := readBlock_follows limits.header limits.strict buffer block
  unfold stepTrailer Phase.stepTrailer
  rcases hread : block.read limits.header limits.strict buffer with ⟨more, outcome⟩
  rw [hread] at hfollows
  cases outcome with
  | incomplete later =>
      have hplace : readBlock limits.header limits.strict buffer block = (later, more, .ok none) :=
        hfollows
      simp only [hplace]
      exact ⟨.trailer charged line switches _ later, rfl, rfl, rfl⟩
  | refused cause =>
      have hplace : (readBlock limits.header limits.strict buffer block).2 =
          (more, .error cause) := hfollows
      simp only [hplace]
      exact tracks_refuse _ _
  | complete next total =>
      have hplace : readBlock limits.header limits.strict buffer block =
          ({ charged := total }, more, .ok (some next)) := hfollows
      simp only [hplace]
      exact ⟨represents_complete rfl, rfl, rfl, rfl⟩

theorem step_tracks {registers : Registers} {phase : Phase}
    (h : Represents direction limits registers phase) (buffer : Bytes) :
    Tracks direction limits (registers.step direction limits buffer)
      (phase.step direction limits buffer) := by
  cases h with
  | idle charged => exact stepIdle_tracks charged
  | startLine charged => exact stepStartLine_tracks charged
  | header charged first fields block => exact stepHeader_tracks charged first fields block
  | fixed charged htotal length remaining switches =>
      exact stepFixed_tracks charged htotal length remaining switches
  | untilClose charged htotal switches hdirection =>
      exact stepUntilClose_tracks charged htotal switches hdirection
  | chunkSize charged line body => exact stepChunkSize_tracks charged line body
  | chunkData charged line body remaining => exact stepChunkData_tracks charged line body remaining
  | chunkEnd charged line body => exact stepChunkEnd_tracks charged line body
  | trailer charged line switches fields block =>
      exact stepTrailer_tracks charged line switches fields block
  | refused => exact ⟨.refused, rfl, rfl, rfl⟩
  | raw => exact ⟨.raw, rfl, rfl, rfl⟩

end Steps

theorem run_tracks {registers : Registers} {phase : Phase}
    (h : Represents direction limits registers phase) (buffer : Bytes) :
    Represents direction limits (registers.run direction limits buffer).registers
        (phase.run direction limits buffer).phase ∧
      (registers.run direction limits buffer).rest = (phase.run direction limits buffer).rest ∧
      (registers.run direction limits buffer).events =
        (phase.run direction limits buffer).events := by
  fun_induction Phase.run direction limits phase buffer generalizing registers with
  | case1 phase buffer next again later =>
      rename_i ih
      obtain ⟨hregisters, hrest, hevents, hagain⟩ := step_tracks h buffer
      obtain ⟨hlater, hlaterrest, hlaterevents⟩ := ih hregisters
      rw [run, dif_pos (hagain.trans again)]
      simp only [hrest, hevents]
      exact ⟨hlater, hlaterrest, congrArg (next.events ++ ·) hlaterevents⟩
  | case2 phase buffer next =>
      rename_i again
      obtain ⟨hregisters, hrest, hevents, hagain⟩ := step_tracks h buffer
      rw [run, dif_neg (by rw [hagain]; exact again)]
      exact ⟨hregisters, hrest, hevents⟩

end Registers

/-! ## Consistency -/

namespace Mode

/-- Whether the head of a message has been reported, and its body is being read. -/
def readsBody : Mode → Bool
  | fixed => true
  | untilClose => true
  | chunkSize => true
  | chunkData => true
  | chunkEnd => true
  | trailer => true
  | idle => false
  | startLine => false
  | header => false
  | refused => false
  | raw => false

/-- Whether a chunked body is being read. -/
def readsChunks : Mode → Bool
  | chunkSize => true
  | chunkData => true
  | chunkEnd => true
  | trailer => true
  | fixed => false
  | untilClose => false
  | idle => false
  | startLine => false
  | header => false
  | refused => false
  | raw => false

/-- Whether no message is at hand. -/
def isOutside (mode : Mode) : Bool :=
  mode != header && !mode.readsBody

end Mode

/-- The mode in which a phase is read. -/
def Phase.mode : Phase → Mode
  | idle => .idle
  | startLine => .startLine
  | header _ _ _ => .header
  | fixed _ _ _ => .fixed
  | untilClose => .untilClose
  | chunkSize _ => .chunkSize
  | chunkData _ _ => .chunkData
  | chunkEnd _ => .chunkEnd
  | trailer _ _ _ => .trailer
  | refused => .refused
  | raw => .raw

theorem Phase.eq_idle_of_mode {phase : Phase} (h : phase.mode = .idle) : phase = .idle := by
  cases phase <;> first | rfl | cases h

namespace Registers

/-- What the registers say about each other, and about the bytes that wait. -/
structure Consistent (direction : Direction) (limits : Limits) (registers : Registers)
    (buffer : Bytes) : Prop where
  /-- A head is being assembled exactly while header lines are read. -/
  assembling : registers.mode = .header ↔ ∃ head, registers.slot = .assembling head
  /-- A head has been reported exactly while its body is read. -/
  emitted : registers.mode.readsBody = true ↔
    ∃ length switches, registers.slot = .emitted length switches
  /-- Of a body of known length, the length is kept, and something is still to come. -/
  fixed : registers.mode = .fixed → ∃ length, registers.bodyLength? = some (.fixed length) ∧
    registers.framer.announced = .known length ∧
    0 < registers.framer.remaining ∧ registers.framer.remaining ≤ length
  /-- Only the body of a response ends with the connection, and no length was announced for it. -/
  untilClose : registers.mode = .untilClose → direction = .response ∧
    registers.bodyLength? = some .untilClose ∧ registers.framer.announced.length? = none
  chunked : registers.mode.readsChunks = true → registers.bodyLength? = some .chunked
  /-- Bytes of a chunk are still to come exactly while its data is read. -/
  chunk : 0 < registers.chunks.remaining ↔ registers.mode = .chunkData
  /-- Outside of a message the registers are those of a new reader. -/
  outside : registers.mode.isOutside = true → registers.slot = .vacant ∧
    registers.block = {} ∧ registers.framer = {} ∧ registers.chunks = {}
  trailers : registers.chunks.trailers.isEmpty = false → registers.mode = .trailer
  /-- A field is open only in a header or a trailer block. -/
  pending : ∀ spans ∈ registers.block.pending, registers.mode = .header ∨ registers.mode = .trailer
  /-- Its ends are in order, before what has been taken of the bytes that wait. -/
  order : ∀ spans ∈ registers.block.pending,
    spans.name.start ≤ spans.name.stop ∧ spans.name.stop ≤ spans.value.start ∧
      spans.value.start ≤ spans.value.stop ∧ spans.value.stop ≤ registers.block.position ∧
      registers.block.position ≤ buffer.length
  /-- Its value begins and ends on a byte that is not blank, unless it is empty. -/
  text : ∀ spans ∈ registers.block.pending, spans.value.start < spans.value.stop →
    (∃ b, buffer[spans.value.start]? = some b ∧ isBlank b = false) ∧
      ∃ b, buffer[spans.value.stop - 1]? = some b ∧ isBlank b = false
  /-- No message is charged more for its header and trailer lines than the limit. -/
  charged : registers.block.charged ≤ limits.header

variable {direction : Direction} {limits : Limits} {registers : Registers} {phase : Phase}
  {buffer : Bytes}

theorem Represents.mode (h : Represents direction limits registers phase) :
    registers.mode = phase.mode := by
  cases h <;> rfl

theorem Represents.bodyLength? (h : Represents direction limits registers phase) :
    registers.bodyLength? = phase.bodyLength? := by
  cases h <;> rfl

theorem Represents.canDeclineBody (h : Represents direction limits registers phase) :
    registers.canDeclineBody = phase.canDeclineBody := by
  cases h <;> rfl

/-- The accumulator holds an open field only in a phase that reads a block, and then it is the field
that the block of that phase has open. -/
theorem Represents.pending (h : Represents direction limits registers phase)
    (hsound : phase.Sound buffer) (htrimmed : phase.Trimmed buffer) :
    ∀ spans ∈ registers.block.pending,
      (registers.mode = .header ∨ registers.mode = .trailer) ∧
        spans.InOrder registers.block.position ∧ registers.block.position ≤ buffer.length ∧
        spans.Trimmed buffer := by
  intro spans hspans
  cases h with
  | header charged first fields block =>
      exact ⟨.inl rfl, hsound.pending spans hspans, hsound.position, htrimmed spans hspans⟩
  | trailer charged line switches fields block =>
      exact ⟨.inr rfl, hsound.pending spans hspans, hsound.position, htrimmed spans hspans⟩
  | _ => cases hspans

/-- What was charged for field lines is within the limit, also where it counts no more. -/
theorem Represents.charged_le (h : Represents direction limits registers phase)
    (hcharged : phase.Charged limits) : registers.block.charged ≤ limits.header := by
  cases h with
  | header charged first fields block => exact hcharged.within
  | fixed charged htotal length remaining switches => exact htotal
  | untilClose charged htotal switches hdirection => exact htotal
  | chunkSize charged line body => exact hcharged
  | chunkData charged line body remaining => exact hcharged
  | chunkEnd charged line body => exact hcharged
  | trailer charged line switches fields block => exact hcharged.within
  | _ => exact Nat.zero_le _

theorem Represents.consistent (h : Represents direction limits registers phase)
    (hsound : phase.Sound buffer) (hcharged : phase.Charged limits)
    (htrimmed : phase.Trimmed buffer) : Consistent direction limits registers buffer where
  assembling := by cases h <;> simp
  emitted := by cases h <;> simp [Mode.readsBody]
  fixed := by
    intro hmode
    cases h <;> cases hmode
    exact ⟨_, rfl, rfl, hsound.1, hsound.2⟩
  untilClose := by
    intro hmode
    cases h <;> cases hmode
    rename_i hdirection
    exact ⟨hdirection, rfl, rfl⟩
  chunked := by
    intro hmode
    cases h <;> first | exact Bool.noConfusion hmode | rfl
  chunk := by
    cases h with
    | chunkData charged line body remaining =>
        have hpos : 0 < remaining := hsound
        simpa using hpos
    | _ => simp
  outside := by
    intro hmode
    cases h <;> first | exact ⟨rfl, rfl, rfl, rfl⟩ | exact Bool.noConfusion hmode
  trailers := by
    intro hfields
    cases h <;> first | rfl | exact Bool.noConfusion hfields
  pending := by
    intro spans hspans
    exact (h.pending hsound htrimmed spans hspans).1
  order := by
    intro spans hspans
    obtain ⟨-, ⟨hname, hbetween, hvalue, hbefore⟩, hposition, -⟩ :=
      h.pending hsound htrimmed spans hspans
    exact ⟨hname, hbetween, hvalue, hbefore, hposition⟩
  text := by
    intro spans hspans
    obtain ⟨-, horder, hposition, htext⟩ := h.pending hsound htrimmed spans hspans
    exact htext.ends ⟨horder.value, Nat.le_trans horder.before hposition⟩
  charged := h.charged_le hcharged

/-- What the registers say at the end of the connection is what the phase says. A body of known
length has something still to come. -/
theorem Represents.endEvent? (h : Represents direction limits registers phase)
    (hremains : phase.Remains) : registers.endEvent? direction = phase.atClose := by
  cases h with
  | fixed charged htotal length remaining switches =>
      have hpos : 0 < length := Nat.lt_of_lt_of_le hremains.1 hremains.2
      simp [Registers.endEvent?, Phase.atClose, Announced.length?, hpos]
  | untilClose charged htotal switches hdirection =>
      simp [Registers.endEvent?, Phase.atClose, Announced.length?, hdirection]
  | _ => rfl

end Registers

/-! ## Histories -/

theorem Connection.call_remains {connection : Connection} (h : connection.phase.Remains)
    (call : Call) : (connection.call call).1.phase.Remains := by
  cases call with
  | push bytes => exact Reader.feed_remains h _
  | receive bytes => exact h
  | close => exact Reader.close_remains h _
  | requestReset => exact h
  | declineBody => exact Reader.declineBody_remains h

namespace RegisterStream

/-- What a call leaves behind, and what it reports. -/
def call (stream : RegisterStream) : Call → RegisterStream × List Event
  | .push bytes => stream.push bytes
  | .receive bytes => (stream.receive bytes, [])
  | .close => stream.close
  | .requestReset => (stream.requestReset, [])
  | .declineBody => (stream.declineBody, [])

/-- The stream after some calls. -/
def after (stream : RegisterStream) : List Call → RegisterStream
  | [] => stream
  | call :: calls => (stream.call call).1.after calls

/-- The events of some calls. -/
def events (stream : RegisterStream) : List Call → List Event
  | [] => []
  | call :: calls => (stream.call call).2 ++ (stream.call call).1.events calls

/-- A stream whose registers stand for the phase of a connection. -/
structure Mirrors (stream : RegisterStream) (connection : Connection) : Prop where
  direction : stream.direction = connection.reader.direction
  limits : stream.limits = connection.reader.limits
  reset : stream.resetRequested = connection.reader.resetRequested
  buffer : stream.buffer = connection.buffer
  registers : stream.registers.Represents stream.direction stream.limits connection.phase

namespace Mirrors

variable {stream : RegisterStream} {connection : Connection}

theorem receive (h : stream.Mirrors connection) (bytes : Bytes) :
    (stream.receive bytes).Mirrors (connection.receive bytes) :=
  ⟨h.direction, h.limits, h.reset, congrArg (· ++ bytes) h.buffer, h.registers⟩

theorem requestReset (h : stream.Mirrors connection) :
    stream.requestReset.Mirrors connection.requestReset :=
  ⟨h.direction, h.limits, rfl, h.buffer, h.registers⟩

theorem declineBody (h : stream.Mirrors connection) :
    stream.declineBody.Mirrors connection.declineBody := by
  have hdecline := h.registers.canDeclineBody
  unfold RegisterStream.declineBody Connection.declineBody Reader.declineBody
  rw [hdecline]
  change Mirrors (if connection.reader.phase.canDeclineBody = true then _ else _) _
  split
  · exact h.requestReset
  · exact h

/-- The registers with which the next call begins stand for the phase in which it begins. -/
theorem current (h : stream.Mirrors connection) :
    (if stream.resetRequested then stream.registers.reset else stream.registers).Represents
      stream.direction stream.limits connection.reader.currentPhase := by
  rw [h.reset, Reader.currentPhase]
  split
  · exact .idle 0
  · exact h.registers

theorem feed (h : stream.Mirrors connection) :
    let answer := connection.reader.feed connection.buffer
    stream.feed.1.Mirrors ⟨answer.reader, answer.rest⟩ ∧ stream.feed.2 = answer.events := by
  intro answer
  have hcurrent := h.current
  obtain ⟨hdirection, hlimits, -, hbuffer, -⟩ := h
  rcases stream with ⟨direction, limits, registers, resetRequested, buffer⟩
  simp only at hdirection hlimits hbuffer hcurrent
  subst hdirection hlimits hbuffer
  obtain ⟨hregisters, hrest, hevents⟩ := Registers.run_tracks hcurrent connection.buffer
  exact ⟨⟨rfl, rfl, rfl, hrest, hregisters⟩, hevents⟩

/-- At the end of the connection the registers report what the phase reports, and hold what those of
a new reader hold. -/
theorem close (h : stream.Mirrors connection) (hremains : connection.phase.Remains) :
    stream.close.1.Mirrors connection.close.1 ∧ stream.close.2 = connection.close.2 := by
  obtain ⟨hfeed, hevents⟩ := h.feed
  have hend := hfeed.registers.endEvent? (Reader.feed_remains hremains connection.buffer)
  simp only [Connection.phase] at hend
  simp only [RegisterStream.close, Connection.close, Reader.close, hend, hevents]
  cases (connection.reader.feed connection.buffer).reader.phase.atClose with
  | none => exact ⟨hfeed, rfl⟩
  | some event =>
      exact ⟨⟨hfeed.direction, hfeed.limits, hfeed.reset, hfeed.buffer, .idle 0⟩, rfl⟩

theorem call (h : stream.Mirrors connection) (hremains : connection.phase.Remains)
    (call : Call) :
    (stream.call call).1.Mirrors (connection.call call).1 ∧
      (stream.call call).2 = (connection.call call).2 := by
  cases call with
  | push bytes => exact (h.receive bytes).feed
  | receive bytes => exact ⟨h.receive bytes, rfl⟩
  | close => exact h.close hremains
  | requestReset => exact ⟨h.requestReset, rfl⟩
  | declineBody => exact ⟨h.declineBody, rfl⟩

theorem after (h : stream.Mirrors connection) (hremains : connection.phase.Remains)
    (calls : List Call) :
    (stream.after calls).Mirrors (connection.after calls) ∧
      stream.events calls = connection.events calls := by
  induction calls generalizing stream connection with
  | nil => exact ⟨h, rfl⟩
  | cons call calls ih =>
      obtain ⟨hcall, hevents⟩ := h.call hremains call
      obtain ⟨hafter, hlater⟩ := ih hcall (Connection.call_remains hremains call)
      refine ⟨hafter, ?_⟩
      simp only [RegisterStream.events, Connection.events, hevents, hlater]

end Mirrors

/-- A new stream mirrors a new connection, and both refuse the same limits. -/
theorem start_mirrors {direction : Direction} {limits : Limits} {stream : RegisterStream}
    (h : start direction limits = .ok stream) :
    ∃ new, Connection.start direction limits = .ok new ∧ stream.Mirrors new := by
  unfold start at h
  unfold Connection.start Reader.start
  cases hcheck : limits.check with
  | error refusal =>
      rw [hcheck] at h
      cases h
  | ok checked =>
      rw [hcheck] at h
      cases h
      exact ⟨_, rfl, rfl, rfl, rfl, rfl, .idle 0⟩

/-- After any calls, a reader in registers has reported what a reader reports, stands at the same
place with the same bytes left, and its registers do not contradict one another. -/
theorem after_consistent {direction : Direction} {limits : Limits} {stream : RegisterStream}
    (hstart : start direction limits = .ok stream) (calls : List Call) :
    (stream.after calls).registers.Consistent direction limits (stream.after calls).buffer ∧
      ∃ new, Connection.start direction limits = .ok new ∧
        stream.events calls = new.events calls ∧
        (stream.after calls).buffer = (new.after calls).buffer ∧
        (stream.after calls).registers.mode = (new.after calls).phase.mode ∧
        (stream.after calls).registers.bodyLength? = (new.after calls).reader.bodyLength? := by
  obtain ⟨new, hnew, hmirrors⟩ := start_mirrors hstart
  have hwalk := Connection.start_walk hnew calls
  obtain ⟨hdirection, hlimits⟩ := Connection.after_reader new calls
  obtain ⟨valid, rfl⟩ := Connection.start_eq hnew
  obtain ⟨hafter, hevents⟩ := hmirrors.after trivial calls
  have hregisters := hafter.registers
  rw [hafter.direction, hafter.limits, hdirection, hlimits] at hregisters
  have hconsistent := hregisters.consistent hwalk.sound hwalk.charged hwalk.trimmed
  rw [← hafter.buffer] at hconsistent
  exact ⟨hconsistent, _, hnew, hevents, hafter.buffer, hregisters.mode, hregisters.bodyLength?⟩

/-- A trailer block is left incomplete, with a field of two lines that is still open. -/
theorem after_consistent_in_trailer :
    let stream : RegisterStream := { direction := .response, limits := {} }
    let calls : List Call := [
      .push (toBytes "HTTP/1.1 200 OK\r\nTransfer-Encoding: chunked\r\n\r\n"),
      .push (toBytes "1\r\na\r\n0\r\nA: 1\r\nB: 2\r\n 3\r\n ")]
    start .response {} = .ok stream ∧
      (stream.after calls).registers.mode = .trailer ∧
      (stream.after calls).registers.chunks.trailers = ⟨[⟨"A", "1"⟩]⟩ ∧
      (stream.after calls).registers.block.pending = some ⟨⟨6, 7⟩, ⟨9, 14⟩⟩ ∧
      (stream.after calls).registers.Consistent .response {} (stream.after calls).buffer := by
  intro stream calls
  have hstart : start .response {} = .ok stream := rfl
  exact ⟨hstart, by decide +kernel, by decide +kernel, by decide +kernel,
    (after_consistent hstart calls).1⟩

end RegisterStream

end HttpWire
