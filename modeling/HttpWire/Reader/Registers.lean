import HttpWire.Reader

/-!
# A reader in registers

A reader can keep what it knows of a message in a fixed set of registers that are written over in
place: a mode, the message at hand, the header accumulator, the framer of the body and the parser of
its chunks. Nothing in their types keeps one register from contradicting another, and each change
of mode has to restore the registers that it leaves behind. `Registers` is that reader.

- `Registers`: the registers; `Registers.clear`, `Registers.reset`, `Registers.complete` and
  `Registers.refuse` leave a message behind.
- `Registers.readBlock`, `Framer.resolve`: the parts that change registers of their own.
- `Registers.step`, `Registers.run`: one step, and all that can be taken.
- `RegisterStream`: a reader in registers with the bytes that wait for it.
-/

set_option autoImplicit false

namespace HttpWire

open Text

/-! ## Registers -/

/-- What is read next. -/
inductive Mode where
  | idle
  | startLine
  | header
  | fixed
  | untilClose
  | chunkSize
  | chunkData
  | chunkEnd
  | trailer
  | refused
  | raw
  deriving Repr, DecidableEq

/-- The message at hand. -/
inductive Slot where
  /-- There is none. -/
  | vacant
  /-- Its head is being read. -/
  | assembling (head : Head)
  /-- Its head has been reported. -/
  | emitted (length : BodyLength) (switches : Bool)
  deriving Repr, DecidableEq

/-- What has been found out about the number of body bytes that a head announces. -/
inductive Announced where
  | unknown
  | absent
  | known (length : Nat)
  deriving Repr, DecidableEq

/-- The number that was announced, if one was. -/
def Announced.length? : Announced → Option Nat
  | known length => some length
  | unknown => none
  | absent => none

/-- The registers for the body of a message. -/
structure Framer where
  announced : Announced := .unknown
  remaining : Nat := 0
  deriving Repr, DecidableEq

/-- The registers for a chunked body. -/
structure ChunkParser where
  /-- What the last size line was charged. -/
  charged : Nat := 0
  remaining : Nat := 0
  trailers : Fields := {}
  deriving Repr, DecidableEq

/-- The registers of a reader. -/
structure Registers where
  mode : Mode := .idle
  /-- What the last start line was charged. -/
  charged : Nat := 0
  /-- The header accumulator, which trailers use as well. -/
  block : FieldBlock := {}
  framer : Framer := {}
  chunks : ChunkParser := {}
  slot : Slot := .vacant
  deriving Repr, DecidableEq

namespace Registers

/-- What a step leaves behind. -/
structure Step where
  registers : Registers
  rest : Bytes
  events : List Event
  again : Bool
  deriving Repr, DecidableEq

/-! ### Leaving a message behind -/

/-- Restores every register but the mode. -/
def clear (registers : Registers) : Registers :=
  { registers with charged := 0, block := {}, framer := {}, chunks := {}, slot := .vacant }

/-- Forgets the message at hand. -/
def reset (registers : Registers) : Registers :=
  { registers.clear with mode := .idle }

/-- The mode after the message at hand. -/
def nextMode (registers : Registers) : Mode :=
  match registers.slot with
  | .emitted _ true => .raw
  | .emitted _ false => .idle
  | .assembling _ => .idle
  | .vacant => .idle

/-- Leaves a message behind that is complete. -/
def complete (registers : Registers) : Registers :=
  { registers.reset with mode := registers.nextMode }

/-- Refuses a message. Whatever else has arrived is dropped. -/
def refuse (registers : Registers) (event : Event) : Step :=
  ⟨{ registers.clear with mode := .refused }, [], [event], false⟩

/-! ### Lines and blocks -/

/-- The charge after a search for a line, on top of what was charged before. -/
def chargeAfter (limit charged : Nat) : Line.Scan → Nat
  | .tooLong => limit + 1
  | .incomplete => charged
  | .found line => charged + line.length

/-- Takes every complete line of a block, in place. The answer holds the accumulator, the fields
that these lines complete, and the position after the block if it is closed. -/
def readBlock (limit : Nat) (strict : Bool) (buffer : Bytes) (block : FieldBlock) :
    FieldBlock × List Field × Except Fault (Option Nat) :=
  let found := Line.scan limit block.charged buffer block.position
  let charged := chargeAfter limit block.charged found
  match _found : found with
  | .tooLong => ({ block with charged }, [], .error (.headerTooLong limit))
  | .incomplete => ({ block with charged }, [], .ok none)
  | .found line =>
      match FieldBlock.takeLine strict buffer block.pending line with
      -- the open field has been taken out of its register
      | .error cause => ({ block with charged, pending := none }, [], .error cause)
      -- a trailer block starts over at the front of the buffer, with the charge of the header block
      | .ok (done, none) => (⟨charged, 0, none⟩, done.toList, .ok (some line.next))
      | .ok (done, some spans) =>
          let further := readBlock limit strict buffer ⟨charged, line.next, some spans⟩
          (further.1, done.toList ++ further.2.1, further.2.2)
termination_by buffer.length - block.position
decreasing_by
  have hf := Line.scan_found _found
  omega

end Registers

/-- The number of body bytes that a head announces. It is looked for once. -/
def Framer.contentLength (framer : Framer) (head : Head) :
    Framer × Except Fault (Option Nat) :=
  match framer.announced with
  | .known length => (framer, .ok (some length))
  | .absent => (framer, .ok none)
  | .unknown =>
      match BodyLength.announced head with
      | .error cause => (framer, .error cause)
      | .ok none => ({ framer with announced := .absent }, .ok none)
      | .ok (some length) => ({ framer with announced := .known length }, .ok (some length))

/-- How far the body of a message extends. -/
def Framer.resolve (direction : Direction) (framer : Framer) (head : Head) :
    Framer × Except Fault BodyLength :=
  if direction = .response ∧ head.isBodiless = true then (framer, .ok .empty)
  else if head.isChunked then (framer, .ok .chunked)
  else
    match framer.contentLength head with
    | (framer, .error cause) => (framer, .error cause)
    | (framer, .ok (some length)) => ({ framer with remaining := length }, .ok (.fixed length))
    | (framer, .ok none) =>
        match direction with
        | .request => (framer, .ok .empty)
        | .response => (framer, .ok .untilClose)

namespace Registers

variable (direction : Direction) (limits : Limits)

/-! ### Steps -/

/-- Drops padding up to the first byte of a start line. -/
def stepIdle (registers : Registers) (buffer : Bytes) : Step :=
  match buffer.dropWhile isPadding with
  | [] => ⟨registers, [], [], false⟩
  | b :: rest => ⟨{ registers with mode := .startLine }, b :: rest, [], true⟩

/-- Reads a start line. -/
def stepStartLine (registers : Registers) (buffer : Bytes) : Step :=
  let found := Line.scan limits.line 0 buffer 0
  let registers := { registers with charged := chargeAfter limits.line 0 found }
  match found with
  | .incomplete => ⟨registers, buffer, [], false⟩
  | .tooLong =>
      registers.refuse (.refusedHead (.placeholder direction) (.lineTooLong limits.line))
  | .found line =>
      match StartLine.read direction (line.bytes buffer) with
      | .error cause => registers.refuse (.refusedHead (.placeholder direction) cause)
      | .ok none => ⟨{ registers with mode := .idle }, buffer.drop line.next, [], true⟩
      | .ok (some first) =>
          ⟨{ registers with slot := .assembling { startLine := first }, mode := .header },
            buffer.drop line.next, [], true⟩

/-- Begins the body of a message whose head is reported. -/
def beginBody (registers : Registers) (head : Head) (length : BodyLength) (rest : Bytes) : Step :=
  let registers := { registers with
    slot := .emitted length (decide (direction = Direction.response) && head.switchesProtocol) }
  match length with
  | .empty => ⟨registers.complete, rest, [.head head, .last {}], true⟩
  | .fixed 0 => ⟨registers.complete, rest, [.head head, .last {}], true⟩
  | .fixed (_ + 1) => ⟨{ registers with mode := .fixed }, rest, [.head head], true⟩
  | .chunked => ⟨{ registers with mode := .chunkSize }, rest, [.head head], true⟩
  | .untilClose => ⟨{ registers with mode := .untilClose }, rest, [.head head], true⟩

/-- Reads header lines. The head is taken out of its register, and put back if it is incomplete. -/
def stepHeader (registers : Registers) (buffer : Bytes) : Step :=
  let head :=
    match registers.slot with
    | .assembling head => head
    | .emitted _ _ => .placeholder direction
    | .vacant => .placeholder direction
  let read := readBlock limits.header limits.strict buffer registers.block
  let registers := { registers with slot := .vacant, block := read.1 }
  let head := { head with fields := head.fields.append read.2.1 }
  match read.2.2 with
  | .ok none => ⟨{ registers with slot := .assembling head }, buffer, [], false⟩
  | .error cause => registers.refuse (.refusedHead head cause)
  | .ok (some next) =>
      let resolved := registers.framer.resolve direction head
      let registers := { registers with framer := resolved.1 }
      match resolved.2 with
      | .error cause => registers.refuse (.refusedHead head cause)
      | .ok length =>
          match Phase.bodyFault? limits length with
          | some cause => registers.refuse (.refusedHead head cause)
          | none => registers.beginBody direction head length (buffer.drop next)

/-- Reads a piece of a body of known length. -/
def stepFixed (registers : Registers) (buffer : Bytes) : Step :=
  let data := Phase.nextPiece limits registers.framer.remaining buffer
  let rest := buffer.drop data.length
  if data.isEmpty then ⟨registers, buffer, [], false⟩
  else
    let left := registers.framer.remaining - data.length
    let registers := { registers with framer := { registers.framer with remaining := left } }
    if left = 0 then ⟨registers.complete, rest, [.last { data }], true⟩
    else ⟨registers, rest, [.body data], true⟩

/-- Reads a piece of a body that ends with the connection. -/
def stepUntilClose (registers : Registers) (buffer : Bytes) : Step :=
  let data := buffer.take limits.piece
  if data.isEmpty then ⟨registers, buffer, [], false⟩
  else ⟨registers, buffer.drop data.length, [.body data], true⟩

/-- Reads a chunk-size line. -/
def stepChunkSize (registers : Registers) (buffer : Bytes) : Step :=
  let found := Line.scan limits.line 0 buffer 0
  let charged := chargeAfter limits.line 0 found
  let registers := { registers with chunks := { registers.chunks with charged } }
  match found with
  | .incomplete => ⟨registers, buffer, [], false⟩
  | .tooLong => registers.refuse (.refusedContent (.lineTooLong limits.line))
  | .found line =>
      match Chunked.readSize (line.bytes buffer) with
      | .error cause => registers.refuse (.refusedContent cause)
      | .ok size =>
          ⟨{ registers with
              chunks := { registers.chunks with remaining := size }
              mode := if size = 0 then .trailer else .chunkData },
            buffer.drop line.next, [], true⟩

/-- Reads a piece of a chunk. -/
def stepChunkData (registers : Registers) (buffer : Bytes) : Step :=
  let data := Phase.nextPiece limits registers.chunks.remaining buffer
  let rest := buffer.drop data.length
  if data.isEmpty then ⟨registers, buffer, [], false⟩
  else
    let left := registers.chunks.remaining - data.length
    let registers := { registers with chunks := { registers.chunks with remaining := left } }
    if left = 0 then ⟨{ registers with mode := .chunkEnd }, rest, [.body data], true⟩
    else ⟨registers, rest, [.body data], true⟩

/-- Drops the rest of the line on which a chunk ends. -/
def stepChunkEnd (registers : Registers) (buffer : Bytes) : Step :=
  match buffer.dropWhile (· != lf) with
  | [] => ⟨registers, [], [], false⟩
  | _ :: rest => ⟨{ registers with mode := .chunkSize }, rest, [], true⟩

/-- Reads trailer lines. The fields are kept in their register until the block is closed. -/
def stepTrailer (registers : Registers) (buffer : Bytes) : Step :=
  let read := readBlock limits.header limits.strict buffer registers.block
  let trailers := registers.chunks.trailers.append (Phase.keptTrailers read.2.1)
  let registers := { registers with
    block := read.1, chunks := { registers.chunks with trailers } }
  match read.2.2 with
  | .ok none => ⟨registers, buffer, [], false⟩
  | .error cause => registers.refuse (.refusedContent cause)
  | .ok (some next) =>
      let registers := { registers with chunks := { registers.chunks with trailers := {} } }
      ⟨registers.complete, buffer.drop next, [.last { trailers }], true⟩

/-- One step, in the present mode. -/
def step (registers : Registers) : Bytes → Step :=
  match registers.mode with
  | .idle => registers.stepIdle
  | .startLine => registers.stepStartLine direction limits
  | .header => registers.stepHeader direction limits
  | .fixed => registers.stepFixed limits
  | .untilClose => registers.stepUntilClose limits
  | .chunkSize => registers.stepChunkSize limits
  | .chunkData => registers.stepChunkData limits
  | .chunkEnd => registers.stepChunkEnd
  | .trailer => registers.stepTrailer limits
  | .refused => fun _ => ⟨registers, [], [], false⟩
  | .raw => fun buffer => ⟨registers, [], if buffer.isEmpty then [] else [.raw buffer], false⟩

/-! ### What a step removes -/

variable {direction limits}

/-- A block that is closed ends inside the buffer, after the position it was taken up at. -/
theorem readBlock_next {limit : Nat} {strict : Bool} {buffer : Bytes} {block : FieldBlock}
    {next : Nat} (h : (readBlock limit strict buffer block).2.2 = .ok (some next)) :
    block.position < next ∧ next ≤ buffer.length := by
  fun_induction readBlock limit strict buffer block with
  | case1 => cases h
  | case2 => cases h
  | case3 => cases h
  | case4 block found charged line hline done htake =>
      have hf := Line.scan_found hline
      cases h
      omega
  | case5 block found charged line hline done spans htake further ih =>
      have hf := Line.scan_found hline
      have hnext := ih h
      simp only at hnext
      omega

section Removes

variable {registers : Registers} {buffer : Bytes}

theorem stepIdle_again (h : (registers.stepIdle buffer).again = true) :
    (registers.stepIdle buffer).registers.mode = .startLine ∧
      (registers.stepIdle buffer).rest.length ≤ buffer.length := by
  have hle := (List.dropWhile_suffix (l := buffer) isPadding).length_le
  unfold stepIdle at h ⊢
  split at h
  · cases h
  · rename_i hrest
    rw [hrest] at hle
    exact ⟨rfl, hle⟩

theorem stepStartLine_again (h : (registers.stepStartLine direction limits buffer).again = true) :
    (registers.stepStartLine direction limits buffer).rest.length < buffer.length := by
  unfold stepStartLine at h ⊢
  cases hline : Line.scan limits.line 0 buffer 0 with
  | incomplete => simp [hline] at h
  | tooLong => simp [hline, refuse] at h
  | found line =>
      have hlt := Phase.length_drop_next_lt hline
      simp only [hline] at h ⊢
      cases hread : StartLine.read direction (line.bytes buffer) with
      | error cause => simp [hread, refuse] at h
      | ok first? =>
          cases first? with
          | none => exact hlt
          | some first => exact hlt

theorem beginBody_rest {head : Head} {length : BodyLength} {rest : Bytes} :
    (registers.beginBody direction head length rest).rest = rest := by
  unfold beginBody
  split <;> rfl

theorem stepHeader_again (h : (registers.stepHeader direction limits buffer).again = true) :
    (registers.stepHeader direction limits buffer).rest.length < buffer.length := by
  unfold stepHeader at h ⊢
  simp only at h ⊢
  split at h
  · cases h
  · cases h
  · rename_i next hread
    obtain ⟨hpos, hle⟩ := readBlock_next hread
    split at h
    · cases h
    · rename_i hlength
      split at h
      · cases h
      · rw [beginBody_rest]
        exact Phase.length_drop_lt (Nat.zero_lt_of_lt hpos) hle

theorem stepFixed_again (h : (registers.stepFixed limits buffer).again = true) :
    (registers.stepFixed limits buffer).rest.length < buffer.length := by
  unfold stepFixed at h ⊢
  simp only at h ⊢
  split at h
  · cases h
  · rename_i hdata
    rw [if_neg hdata]
    split <;> exact Phase.length_drop_taken_lt hdata

theorem stepUntilClose_again (h : (registers.stepUntilClose limits buffer).again = true) :
    (registers.stepUntilClose limits buffer).rest.length < buffer.length := by
  unfold stepUntilClose at h ⊢
  simp only at h ⊢
  split at h
  · cases h
  · rename_i hdata
    rw [if_neg hdata]
    exact Phase.length_drop_taken_lt hdata

theorem stepChunkSize_again (h : (registers.stepChunkSize limits buffer).again = true) :
    (registers.stepChunkSize limits buffer).rest.length < buffer.length := by
  unfold stepChunkSize at h ⊢
  cases hline : Line.scan limits.line 0 buffer 0 with
  | incomplete => simp [hline] at h
  | tooLong => simp [hline, refuse] at h
  | found line =>
      have hlt := Phase.length_drop_next_lt hline
      simp only [hline] at h ⊢
      cases hsize : Chunked.readSize (line.bytes buffer) with
      | error cause => simp [hsize, refuse] at h
      | ok size => exact hlt

theorem stepChunkData_again (h : (registers.stepChunkData limits buffer).again = true) :
    (registers.stepChunkData limits buffer).rest.length < buffer.length := by
  unfold stepChunkData at h ⊢
  simp only at h ⊢
  split at h
  · cases h
  · rename_i hdata
    rw [if_neg hdata]
    split <;> exact Phase.length_drop_taken_lt hdata

theorem stepChunkEnd_again (h : (registers.stepChunkEnd buffer).again = true) :
    (registers.stepChunkEnd buffer).rest.length < buffer.length := by
  have hle := (List.dropWhile_suffix (l := buffer) (· != lf)).length_le
  unfold stepChunkEnd at h ⊢
  split at h
  · cases h
  · rename_i hrest
    rw [hrest, List.length_cons] at hle
    exact hle

theorem stepTrailer_again (h : (registers.stepTrailer limits buffer).again = true) :
    (registers.stepTrailer limits buffer).rest.length < buffer.length := by
  unfold stepTrailer at h ⊢
  simp only at h ⊢
  split at h
  · cases h
  · cases h
  · rename_i next hread
    obtain ⟨hpos, hle⟩ := readBlock_next hread
    exact Phase.length_drop_lt (Nat.zero_lt_of_lt hpos) hle

/-- A step after which the reader goes on either leaves the idle mode for a start line, or removes
at least one byte. -/
theorem step_again (h : (registers.step direction limits buffer).again = true) :
    (registers.mode = .idle ∧ (registers.step direction limits buffer).registers.mode = .startLine ∧
        (registers.step direction limits buffer).rest.length ≤ buffer.length) ∨
      (registers.step direction limits buffer).rest.length < buffer.length := by
  unfold step at h ⊢
  generalize hmode : registers.mode = mode at h ⊢
  cases mode with
  | idle => exact .inl ⟨rfl, stepIdle_again h⟩
  | startLine => exact .inr (stepStartLine_again h)
  | header => exact .inr (stepHeader_again h)
  | fixed => exact .inr (stepFixed_again h)
  | untilClose => exact .inr (stepUntilClose_again h)
  | chunkSize => exact .inr (stepChunkSize_again h)
  | chunkData => exact .inr (stepChunkData_again h)
  | chunkEnd => exact .inr (stepChunkEnd_again h)
  | trailer => exact .inr (stepTrailer_again h)
  | refused => cases h
  | raw => cases h

end Removes

/-! ### Runs -/

/-- One between messages, where the mode can be left without reading a byte; zero elsewhere. -/
def slack (registers : Registers) : Nat :=
  if registers.mode = .idle then 1 else 0

/-- A bound on the steps that can still be taken without more bytes. -/
def budget (registers : Registers) (buffer : Bytes) : Nat :=
  2 * buffer.length + registers.slack

theorem budget_step_lt {registers : Registers} {buffer : Bytes}
    (h : (registers.step direction limits buffer).again = true) :
    (registers.step direction limits buffer).registers.budget
        (registers.step direction limits buffer).rest < registers.budget buffer := by
  unfold budget slack
  rcases step_again h with ⟨hidle, hnext, hle⟩ | hlt
  · rw [if_neg (by rw [hnext]; decide), if_pos hidle]
    omega
  · split <;> split <;> omega

/-- What a run leaves behind. -/
structure Run where
  registers : Registers
  rest : Bytes
  events : List Event
  deriving Repr, DecidableEq

/-- Takes steps until more bytes are needed. -/
def run (direction : Direction) (limits : Limits) (registers : Registers) (buffer : Bytes) : Run :=
  let next := registers.step direction limits buffer
  if _again : next.again = true then
    let later := run direction limits next.registers next.rest
    { later with events := next.events ++ later.events }
  else ⟨next.registers, next.rest, next.events⟩
termination_by registers.budget buffer
decreasing_by exact budget_step_lt _again

/-- What the end of the connection reports. A body of known length is cut short unless it is empty,
a chunked one always, and one that ends with the connection only in a request. -/
def endEvent? (direction : Direction) (registers : Registers) : Option Event :=
  match registers.slot with
  | .vacant => none
  | .assembling head => some (.refusedHead head (.prematureClosure .headers))
  | .emitted length _ =>
      if length = .chunked ∨ direction = .request ∨
          registers.framer.announced.length?.any (0 < ·) = true then
        some (.refusedContent (.prematureClosure .content))
      else some (.last {})

/-- Whether the rest of the body can be called off. -/
def canDeclineBody (registers : Registers) : Bool :=
  registers.mode == .fixed || registers.mode == .untilClose || registers.mode == .chunkSize

/-- How far the body extends that is being read, if one is. -/
def bodyLength? (registers : Registers) : Option BodyLength :=
  match registers.slot with
  | .emitted length _ => some length
  | .assembling _ => none
  | .vacant => none

end Registers

/-! ## Streams -/

/-- A reader in registers, with the bytes that wait for it. -/
structure RegisterStream where
  direction : Direction
  limits : Limits
  registers : Registers := {}
  resetRequested : Bool := false
  buffer : Bytes := []
  deriving Repr, DecidableEq

namespace RegisterStream

/-- A new stream within the given limits. -/
def start (direction : Direction) (limits : Limits) : Except Limits.Refusal RegisterStream :=
  match limits.check with
  | .error refusal => .error refusal
  | .ok ⟨limits, _⟩ => .ok { direction, limits }

/-- Reads what has arrived, as far as possible. -/
def feed (stream : RegisterStream) : RegisterStream × List Event :=
  let registers := if stream.resetRequested then stream.registers.reset else stream.registers
  let run := registers.run stream.direction stream.limits stream.buffer
  ({ stream with registers := run.registers, resetRequested := false, buffer := run.rest },
    run.events)

/-- Receives bytes without reading them. -/
def receive (stream : RegisterStream) (bytes : Bytes) : RegisterStream :=
  { stream with buffer := stream.buffer ++ bytes }

/-- Receives bytes. -/
def push (stream : RegisterStream) (bytes : Bytes) : RegisterStream × List Event :=
  (stream.receive bytes).feed

/-- Learns that no more bytes will come. -/
def close (stream : RegisterStream) : RegisterStream × List Event :=
  let (stream, events) := stream.feed
  match stream.registers.endEvent? stream.direction with
  | none => (stream, events)
  | some event => ({ stream with registers := stream.registers.reset }, events ++ [event])

/-- Asks for the message at hand to be forgotten. -/
def requestReset (stream : RegisterStream) : RegisterStream :=
  { stream with resetRequested := true }

/-- Asks for the rest of a body to be forgotten. -/
def declineBody (stream : RegisterStream) : RegisterStream :=
  if stream.registers.canDeclineBody then stream.requestReset else stream

end RegisterStream

end HttpWire
