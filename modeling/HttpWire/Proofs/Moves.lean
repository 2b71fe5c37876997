import HttpWire.Reader.Progress

/-!
# The moves of a reader

`Phase.step` is a program; `Phase.Move` says, in one rule for each case, what a step can do: from
which phase, on what bytes, to which phase, with what report. Facts about steps are proved by one
case for each rule, and none of them opens the program again.

- `Phase.step_move`: every step is a move.
- `Phase.Move.step_eq`: and every move is the step that is taken from its phase and bytes.
- `Phase.Move.suffix`: a move takes something from the front of the buffer.
- `Phase.run_of_proceed`, `Phase.run_of_wait`, `Phase.run_of_refuse`: a run by its first step;
  `Phase.run_last`: the move that a run ends with.
-/

set_option autoImplicit false

namespace HttpWire

open Text

/-- Whether a message hands its connection over to another protocol, once it is complete. -/
def Head.handsOver (direction : Direction) (head : Head) : Bool :=
  decide (direction = .response) && head.switchesProtocol

namespace Phase

/-- What one step can do: the phase and the bytes that it starts from, and the step. -/
inductive Move (direction : Direction) (limits : Limits) : Phase → Bytes → Step → Prop
  /-- Nothing but padding has arrived. -/
  | padding {buffer : Bytes} (hpadding : ∀ b ∈ buffer, isPadding b = true) :
      Move direction limits .idle buffer (.wait .idle [])
  /-- A start line begins. -/
  | beginning {padding rest : Bytes} {b : UInt8} (hpadding : ∀ b ∈ padding, isPadding b = true)
      (hb : isPadding b = false) :
      Move direction limits .idle (padding ++ b :: rest) (.proceed .startLine (b :: rest) [])
  | startIncomplete {buffer : Bytes} (hline : Line.scan limits.line 0 buffer 0 = .incomplete) :
      Move direction limits .startLine buffer (.wait .startLine buffer)
  | startTooLong {buffer : Bytes} (hline : Line.scan limits.line 0 buffer 0 = .tooLong) :
      Move direction limits .startLine buffer
        (.refuse (.refusedHead (.placeholder direction) (.lineTooLong limits.line)))
  | startRefused {buffer : Bytes} {line : Line} {cause : Fault}
      (hline : Line.scan limits.line 0 buffer 0 = .found line)
      (hread : StartLine.read direction (line.bytes buffer) = .error cause) :
      Move direction limits .startLine buffer
        (.refuse (.refusedHead (.placeholder direction) cause))
  /-- A line with too few parts is dropped. -/
  | noise {buffer : Bytes} {line : Line} (hline : Line.scan limits.line 0 buffer 0 = .found line)
      (hread : StartLine.read direction (line.bytes buffer) = .ok none) :
      Move direction limits .startLine buffer (.proceed .idle (buffer.drop line.next) [])
  | started {buffer : Bytes} {line : Line} {first : StartLine}
      (hline : Line.scan limits.line 0 buffer 0 = .found line)
      (hread : StartLine.read direction (line.bytes buffer) = .ok (some first)) :
      Move direction limits .startLine buffer
        (.proceed (.header first {} {}) (buffer.drop line.next) [])
  | headerIncomplete {first : StartLine} {fields : Fields} {block later : FieldBlock}
      {buffer : Bytes} {more : List Field}
      (hread : block.read limits.header limits.strict buffer = (more, .incomplete later)) :
      Move direction limits (.header first fields block) buffer
        (.wait (.header first (fields.append more) later) buffer)
  | headerRefused {first : StartLine} {fields : Fields} {block : FieldBlock} {buffer : Bytes}
      {more : List Field} {cause : Fault}
      (hread : block.read limits.header limits.strict buffer = (more, .refused cause)) :
      Move direction limits (.header first fields block) buffer
        (.refuse (.refusedHead { startLine := first, fields := fields.append more } cause))
  /-- A head from which no body length follows. -/
  | unframed {first : StartLine} {fields : Fields} {block : FieldBlock} {buffer : Bytes}
      {more : List Field} {next charged : Nat} {head : Head} {cause : Fault}
      (hread : block.read limits.header limits.strict buffer = (more, .complete next charged))
      (hhead : head = { startLine := first, fields := fields.append more })
      (hlength : BodyLength.select direction head = .error cause) :
      Move direction limits (.header first fields block) buffer (.refuse (.refusedHead head cause))
  | unsupported {first : StartLine} {fields : Fields} {block : FieldBlock} {buffer : Bytes}
      {more : List Field} {next charged : Nat} {head : Head}
      (hread : block.read limits.header limits.strict buffer = (more, .complete next charged))
      (hhead : head = { startLine := first, fields := fields.append more })
      (hlength : BodyLength.select direction head = .ok .chunked)
      (hlimits : limits.chunked = false) :
      Move direction limits (.header first fields block) buffer
        (.refuse (.refusedHead head .unsupportedChunked))
  /-- A head after which nothing follows. -/
  | bodiless {first : StartLine} {fields : Fields} {block : FieldBlock} {buffer : Bytes}
      {more : List Field} {next charged : Nat} {head : Head} {length : BodyLength}
      (hread : block.read limits.header limits.strict buffer = (more, .complete next charged))
      (hhead : head = { startLine := first, fields := fields.append more })
      (hlength : BodyLength.select direction head = .ok length)
      (hempty : length = .empty ∨ length = .fixed 0) :
      Move direction limits (.header first fields block) buffer
        (.proceed (afterMessage (head.handsOver direction)) (buffer.drop next)
          [.head head, .last {}])
  | fixedBody {first : StartLine} {fields : Fields} {block : FieldBlock} {buffer : Bytes}
      {more : List Field} {next charged length : Nat} {head : Head}
      (hread : block.read limits.header limits.strict buffer = (more, .complete next charged))
      (hhead : head = { startLine := first, fields := fields.append more })
      (hlength : BodyLength.select direction head = .ok (.fixed length)) (hpos : 0 < length) :
      Move direction limits (.header first fields block) buffer
        (.proceed (.fixed length length (head.handsOver direction)) (buffer.drop next)
          [.head head])
  | chunkedBody {first : StartLine} {fields : Fields} {block : FieldBlock} {buffer : Bytes}
      {more : List Field} {next charged : Nat} {head : Head}
      (hread : block.read limits.header limits.strict buffer = (more, .complete next charged))
      (hhead : head = { startLine := first, fields := fields.append more })
      (hlength : BodyLength.select direction head = .ok .chunked)
      (hlimits : limits.chunked = true) :
      Move direction limits (.header first fields block) buffer
        (.proceed (.chunkSize ⟨charged, head.handsOver direction⟩) (buffer.drop next)
          [.head head])
  | openBody {first : StartLine} {fields : Fields} {block : FieldBlock} {buffer : Bytes}
      {more : List Field} {next charged : Nat} {head : Head}
      (hread : block.read limits.header limits.strict buffer = (more, .complete next charged))
      (hhead : head = { startLine := first, fields := fields.append more })
      (hlength : BodyLength.select direction head = .ok .untilClose) :
      Move direction limits (.header first fields block) buffer
        (.proceed .untilClose (buffer.drop next) [.head head])
  | fixedWaits {length remaining : Nat} {switches : Bool} {buffer : Bytes}
      (hdata : nextPiece limits remaining buffer = []) :
      Move direction limits (.fixed length remaining switches) buffer
        (.wait (.fixed length remaining switches) buffer)
  | fixedEnds {length remaining : Nat} {switches : Bool} {data rest : Bytes} (hdata : data ≠ [])
      (hnext : nextPiece limits remaining (data ++ rest) = data)
      (hremaining : data.length = remaining) :
      Move direction limits (.fixed length remaining switches) (data ++ rest)
        (.proceed (afterMessage switches) rest [.last { data }])
  | fixedPiece {length remaining : Nat} {switches : Bool} {data rest : Bytes} (hdata : data ≠ [])
      (hnext : nextPiece limits remaining (data ++ rest) = data)
      (hremaining : data.length < remaining) :
      Move direction limits (.fixed length remaining switches) (data ++ rest)
        (.proceed (.fixed length (remaining - data.length) switches) rest [.body data])
  | openWaits {buffer : Bytes} (hdata : buffer.take limits.piece = []) :
      Move direction limits .untilClose buffer (.wait .untilClose buffer)
  | openPiece {data rest : Bytes} (hdata : data ≠ [])
      (hnext : (data ++ rest).take limits.piece = data) :
      Move direction limits .untilClose (data ++ rest) (.proceed .untilClose rest [.body data])
  | sizeIncomplete {body : ChunkedBody} {buffer : Bytes}
      (hline : Line.scan limits.line 0 buffer 0 = .incomplete) :
      Move direction limits (.chunkSize body) buffer (.wait (.chunkSize body) buffer)
  | sizeTooLong {body : ChunkedBody} {buffer : Bytes}
      (hline : Line.scan limits.line 0 buffer 0 = .tooLong) :
      Move direction limits (.chunkSize body) buffer
        (.refuse (.refusedContent (.lineTooLong limits.line)))
  | sizeRefused {body : ChunkedBody} {buffer : Bytes} {line : Line} {cause : Fault}
      (hline : Line.scan limits.line 0 buffer 0 = .found line)
      (hsize : Chunked.readSize (line.bytes buffer) = .error cause) :
      Move direction limits (.chunkSize body) buffer (.refuse (.refusedContent cause))
  /-- The chunk of size zero. -/
  | lastChunk {body : ChunkedBody} {buffer : Bytes} {line : Line}
      (hline : Line.scan limits.line 0 buffer 0 = .found line)
      (hsize : Chunked.readSize (line.bytes buffer) = .ok 0) :
      Move direction limits (.chunkSize body) buffer
        (.proceed (.trailer body.switches {} { charged := body.charged })
          (buffer.drop line.next) [])
  | chunk {body : ChunkedBody} {buffer : Bytes} {line : Line} {size : Nat}
      (hline : Line.scan limits.line 0 buffer 0 = .found line)
      (hsize : Chunked.readSize (line.bytes buffer) = .ok size) (hpos : 0 < size) :
      Move direction limits (.chunkSize body) buffer
        (.proceed (.chunkData body size) (buffer.drop line.next) [])
  | dataWaits {body : ChunkedBody} {remaining : Nat} {buffer : Bytes}
      (hdata : nextPiece limits remaining buffer = []) :
      Move direction limits (.chunkData body remaining) buffer
        (.wait (.chunkData body remaining) buffer)
  | dataEnds {body : ChunkedBody} {remaining : Nat} {data rest : Bytes} (hdata : data ≠ [])
      (hnext : nextPiece limits remaining (data ++ rest) = data)
      (hremaining : data.length = remaining) :
      Move direction limits (.chunkData body remaining) (data ++ rest)
        (.proceed (.chunkEnd body) rest [.body data])
  | dataPiece {body : ChunkedBody} {remaining : Nat} {data rest : Bytes} (hdata : data ≠ [])
      (hnext : nextPiece limits remaining (data ++ rest) = data)
      (hremaining : data.length < remaining) :
      Move direction limits (.chunkData body remaining) (data ++ rest)
        (.proceed (.chunkData body (remaining - data.length)) rest [.body data])
  | endIncomplete {body : ChunkedBody} {buffer : Bytes} (hjunk : ∀ b ∈ buffer, b ≠ lf) :
      Move direction limits (.chunkEnd body) buffer (.wait (.chunkEnd body) [])
  | chunkEnds {body : ChunkedBody} {junk rest : Bytes} (hjunk : ∀ b ∈ junk, b ≠ lf) :
      Move direction limits (.chunkEnd body) (junk ++ lf :: rest)
        (.proceed (.chunkSize body) rest [])
  | trailerIncomplete {switches : Bool} {fields : Fields} {block later : FieldBlock}
      {buffer : Bytes} {more : List Field}
      (hread : block.read limits.header limits.strict buffer = (more, .incomplete later)) :
      Move direction limits (.trailer switches fields block) buffer
        (.wait (.trailer switches (fields.append (keptTrailers more)) later) buffer)
  | trailerRefused {switches : Bool} {fields : Fields} {block : FieldBlock} {buffer : Bytes}
      {more : List Field} {cause : Fault}
      (hread : block.read limits.header limits.strict buffer = (more, .refused cause)) :
      Move direction limits (.trailer switches fields block) buffer
        (.refuse (.refusedContent cause))
  | trailerEnds {switches : Bool} {fields : Fields} {block : FieldBlock} {buffer : Bytes}
      {more : List Field} {next charged : Nat}
      (hread : block.read limits.header limits.strict buffer = (more, .complete next charged)) :
      Move direction limits (.trailer switches fields block) buffer
        (.proceed (afterMessage switches) (buffer.drop next)
          [.last { trailers := fields.append (keptTrailers more) }])
  | dropped {buffer : Bytes} : Move direction limits .refused buffer (.wait .refused [])
  | rawWaits : Move direction limits .raw [] (.wait .raw [])
  | passed {buffer : Bytes} (hbuffer : buffer ≠ []) :
      Move direction limits .raw buffer ⟨.raw, [], [.raw buffer], false⟩

variable {direction : Direction} {limits : Limits}

/-- What is left of a list when the elements of a class are dropped at its front. -/
theorem dropWhile_split {α : Type} (p : α → Bool) (xs : List α) :
    (xs.dropWhile p = [] ∧ ∀ x ∈ xs, p x = true) ∨
      ∃ dropped x rest, xs.dropWhile p = x :: rest ∧ xs = dropped ++ x :: rest ∧
        (∀ y ∈ dropped, p y = true) ∧ p x = false := by
  have hsplit := List.takeWhile_append_dropWhile (p := p) (l := xs)
  have htake : ∀ y ∈ xs.takeWhile p, p y = true := List.all_eq_true.1 List.all_takeWhile
  have hhead := List.head?_dropWhile_not p xs
  cases hdrop : xs.dropWhile p with
  | nil =>
      rw [hdrop, List.append_nil] at hsplit
      rw [hsplit] at htake
      exact .inl ⟨rfl, htake⟩
  | cons x rest =>
      rw [hdrop] at hsplit hhead
      exact .inr ⟨xs.takeWhile p, x, rest, rfl, hsplit.symm, htake, by simpa using hhead⟩

theorem move_idle (buffer : Bytes) : Move direction limits .idle buffer (stepIdle buffer) := by
  rcases dropWhile_split isPadding buffer with
    ⟨hdrop, hall⟩ | ⟨padding, b, rest, hdrop, hsplit, hall, hb⟩
  · rw [stepIdle, hdrop]
    exact .padding hall
  · rw [stepIdle, hdrop]
    rw [hsplit]
    exact .beginning hall hb

theorem move_startLine (buffer : Bytes) :
    Move direction limits .startLine buffer (stepStartLine direction limits buffer) := by
  unfold stepStartLine
  split
  · exact .startIncomplete ‹_›
  · exact .startTooLong ‹_›
  · rename_i line hline
    split
    · exact .startRefused hline ‹_›
    · exact .noise hline ‹_›
    · exact .started hline ‹_›

theorem move_header (first : StartLine) (fields : Fields) (block : FieldBlock) (buffer : Bytes) :
    Move direction limits (.header first fields block) buffer
      (stepHeader direction limits first fields block buffer) := by
  unfold stepHeader
  rcases hread : block.read limits.header limits.strict buffer with ⟨more, outcome⟩
  cases outcome with
  | incomplete later => exact .headerIncomplete hread
  | refused cause => exact .headerRefused hread
  | complete next charged =>
      simp only [stepHead]
      split
      · exact .unframed hread rfl ‹_›
      · rename_i length hlength
        cases length with
        | empty => exact .bodiless hread rfl hlength (.inl rfl)
        | fixed length =>
            cases length with
            | zero => exact .bodiless hread rfl hlength (.inr rfl)
            | succ n => exact .fixedBody hread rfl hlength (Nat.succ_pos n)
        | chunked =>
            cases hlimits : limits.chunked with
            | true =>
                simp only [bodyFault?, hlimits, if_true]
                exact .chunkedBody hread rfl hlength hlimits
            | false =>
                simp only [bodyFault?, hlimits]
                exact .unsupported hread rfl hlength hlimits
        | untilClose => exact .openBody hread rfl hlength

/-- A buffer gives nothing when pieces are taken from its front, or a piece that is not empty. -/
theorem nextPiece_cases (limits : Limits) (remaining : Nat) (buffer : Bytes) :
    nextPiece limits remaining buffer = [] ∨
      ∃ data rest, buffer = data ++ rest ∧ data ≠ [] ∧
        nextPiece limits remaining (data ++ rest) = data ∧ data.length ≤ remaining := by
  have hsplit := List.take_append_drop (min limits.piece remaining) buffer
  have hle := List.length_take_le (min limits.piece remaining) buffer
  by_cases hdata : buffer.take (min limits.piece remaining) = []
  · exact .inl hdata
  · refine .inr ⟨_, _, hsplit.symm, hdata, ?_, Nat.le_trans hle (Nat.min_le_right _ _)⟩
    rw [hsplit]
    rfl

theorem nextPiece_self (limits : Limits) (buffer : Bytes) :
    nextPiece limits limits.piece buffer = buffer.take limits.piece := by
  rw [nextPiece, Nat.min_self]

/-- Only an empty buffer gives nothing, as long as bytes are to come. -/
theorem eq_nil_of_nextPiece (hvalid : limits.Valid) {remaining : Nat} {buffer : Bytes}
    (hpos : 0 < remaining) (h : nextPiece limits remaining buffer = []) : buffer = [] := by
  have hpiece := hvalid.piece
  rw [nextPiece, List.take_eq_nil_iff] at h
  rcases h with h | h
  · omega
  · exact h

theorem move_fixed (length remaining : Nat) (switches : Bool) (buffer : Bytes) :
    Move direction limits (.fixed length remaining switches) buffer
      (stepFixed limits length remaining switches buffer) := by
  rcases nextPiece_cases limits remaining buffer with hnone | ⟨data, rest, rfl, hdata, hnext, hle⟩
  · simp only [stepFixed, hnone, List.isEmpty_nil, if_true]
    exact .fixedWaits hnone
  · simp only [stepFixed, hnext, List.drop_left, List.isEmpty_iff, if_neg hdata]
    split
    · rename_i heq
      exact .fixedEnds hdata hnext heq
    · rename_i hne
      exact .fixedPiece hdata hnext (Nat.lt_of_le_of_ne hle hne)

theorem move_untilClose (buffer : Bytes) :
    Move direction limits .untilClose buffer (stepUntilClose limits buffer) := by
  rcases nextPiece_cases limits limits.piece buffer with hnone | ⟨data, rest, rfl, hdata, hnext, -⟩
  · rw [nextPiece_self] at hnone
    simp only [stepUntilClose, hnone, List.isEmpty_nil, if_true]
    exact .openWaits hnone
  · rw [nextPiece_self] at hnext
    simp only [stepUntilClose, hnext, List.drop_left, List.isEmpty_iff, if_neg hdata]
    exact .openPiece hdata hnext

theorem move_chunkSize (body : ChunkedBody) (buffer : Bytes) :
    Move direction limits (.chunkSize body) buffer (stepChunkSize limits body buffer) := by
  unfold stepChunkSize
  split
  · exact .sizeIncomplete ‹_›
  · exact .sizeTooLong ‹_›
  · rename_i line hline
    split
    · exact .sizeRefused hline ‹_›
    · exact .lastChunk hline ‹_›
    · rename_i size hzero hsize
      exact .chunk hline hsize (Nat.pos_of_ne_zero hzero)

theorem move_chunkData (body : ChunkedBody) (remaining : Nat) (buffer : Bytes) :
    Move direction limits (.chunkData body remaining) buffer
      (stepChunkData limits body remaining buffer) := by
  rcases nextPiece_cases limits remaining buffer with hnone | ⟨data, rest, rfl, hdata, hnext, hle⟩
  · simp only [stepChunkData, hnone, List.isEmpty_nil, if_true]
    exact .dataWaits hnone
  · simp only [stepChunkData, hnext, List.drop_left, List.isEmpty_iff, if_neg hdata]
    split
    · rename_i heq
      exact .dataEnds hdata hnext heq
    · rename_i hne
      exact .dataPiece hdata hnext (Nat.lt_of_le_of_ne hle hne)

theorem move_chunkEnd (body : ChunkedBody) (buffer : Bytes) :
    Move direction limits (.chunkEnd body) buffer (stepChunkEnd body buffer) := by
  unfold stepChunkEnd
  rcases dropWhile_split (· != lf) buffer with
    ⟨hdrop, hall⟩ | ⟨junk, b, rest, hdrop, hsplit, hall, hb⟩
  · rw [hdrop]
    exact .endIncomplete fun b hb => by simpa using hall b hb
  · have hb' : b = lf := by simpa using hb
    rw [hdrop]
    rw [hsplit, hb']
    exact .chunkEnds fun b hb => by simpa using hall b hb

theorem move_trailer (switches : Bool) (fields : Fields) (block : FieldBlock) (buffer : Bytes) :
    Move direction limits (.trailer switches fields block) buffer
      (stepTrailer limits switches fields block buffer) := by
  unfold stepTrailer
  rcases hread : block.read limits.header limits.strict buffer with ⟨more, outcome⟩
  cases outcome with
  | incomplete later => exact .trailerIncomplete hread
  | refused cause => exact .trailerRefused hread
  | complete next charged => exact .trailerEnds hread

theorem move_raw (buffer : Bytes) : Move direction limits .raw buffer (stepRaw buffer) := by
  cases buffer with
  | nil => exact .rawWaits
  | cons b rest => exact .passed (List.cons_ne_nil b rest)

theorem step_move (direction : Direction) (limits : Limits) (phase : Phase) (buffer : Bytes) :
    Move direction limits phase buffer (step direction limits phase buffer) := by
  cases phase with
  | idle => exact move_idle buffer
  | startLine => exact move_startLine buffer
  | header first fields block => exact move_header first fields block buffer
  | fixed length remaining switches => exact move_fixed length remaining switches buffer
  | untilClose => exact move_untilClose buffer
  | chunkSize body => exact move_chunkSize body buffer
  | chunkData body remaining => exact move_chunkData body remaining buffer
  | chunkEnd body => exact move_chunkEnd body buffer
  | trailer switches fields block => exact move_trailer switches fields block buffer
  | refused => exact .dropped
  | raw => exact move_raw buffer

/-! ## The moves determine the steps -/

theorem dropWhile_append_cons {α : Type} {p : α → Bool} {dropped rest : List α} {x : α}
    (hdropped : ∀ y ∈ dropped, p y = true) (hx : p x = false) :
    (dropped ++ x :: rest).dropWhile p = x :: rest := by
  rw [List.dropWhile_append_of_pos hdropped, List.dropWhile_cons_of_neg (by simp [hx])]

theorem Move.step_eq {phase : Phase} {buffer : Bytes} {next : Step}
    (h : Move direction limits phase buffer next) :
    step direction limits phase buffer = next := by
  cases h with
  | padding hpadding =>
      have hdrop : buffer.dropWhile isPadding = [] := by
        rw [← List.append_nil buffer, List.dropWhile_append_of_pos hpadding, List.dropWhile_nil]
      simp only [step, stepIdle, hdrop]
  | beginning hpadding hb => simp only [step, stepIdle, dropWhile_append_cons hpadding hb]
  | startIncomplete hline => simp only [step, stepStartLine, hline]
  | startTooLong hline => simp only [step, stepStartLine, hline]
  | startRefused hline hread => simp only [step, stepStartLine, hline, hread]
  | noise hline hread => simp only [step, stepStartLine, hline, hread]
  | started hline hread => simp only [step, stepStartLine, hline, hread]
  | headerIncomplete hread => simp only [step, stepHeader, hread]
  | headerRefused hread => simp only [step, stepHeader, hread]
  | unframed hread hhead hlength =>
      subst hhead
      simp only [step, stepHeader, hread, stepHead, hlength]
  | unsupported hread hhead hlength hlimits =>
      subst hhead
      simp [step, stepHeader, hread, stepHead, hlength, bodyFault?, hlimits]
  | bodiless hread hhead hlength hempty =>
      subst hhead
      simp only [step, stepHeader, hread, stepHead, hlength]
      rcases hempty with rfl | rfl <;> rfl
  | @fixedBody _ _ _ _ _ _ _ length _ hread hhead hlength hpos =>
      -- the program tells zero from the other lengths by a pattern
      subst hhead
      simp only [step, stepHeader, hread, stepHead, hlength]
      obtain ⟨n, rfl⟩ : ∃ n, length = n + 1 := ⟨length - 1, by omega⟩
      rfl
  | chunkedBody hread hhead hlength hlimits =>
      subst hhead
      simp [step, stepHeader, hread, stepHead, hlength, bodyFault?, hlimits, beginBody,
        Head.handsOver]
  | openBody hread hhead hlength =>
      subst hhead
      simp only [step, stepHeader, hread, stepHead, hlength]
      rfl
  | fixedWaits hdata => simp [step, stepFixed, hdata]
  | fixedEnds hdata hnext hremaining => simp [step, stepFixed, hnext, hdata, hremaining]
  | fixedPiece hdata hnext hremaining =>
      simp [step, stepFixed, hnext, hdata, Nat.ne_of_lt hremaining]
  | openWaits hdata => simp [step, stepUntilClose, hdata]
  | openPiece hdata hnext => simp [step, stepUntilClose, hnext, hdata]
  | sizeIncomplete hline => simp only [step, stepChunkSize, hline]
  | sizeTooLong hline => simp only [step, stepChunkSize, hline]
  | sizeRefused hline hsize => simp only [step, stepChunkSize, hline, hsize]
  | lastChunk hline hsize => simp only [step, stepChunkSize, hline, hsize]
  | @chunk _ _ _ size hline hsize hpos =>
      obtain ⟨n, rfl⟩ : ∃ n, size = n + 1 := ⟨size - 1, by omega⟩
      simp only [step, stepChunkSize, hline, hsize]
  | dataWaits hdata => simp [step, stepChunkData, hdata]
  | dataEnds hdata hnext hremaining => simp [step, stepChunkData, hnext, hdata, hremaining]
  | dataPiece hdata hnext hremaining =>
      simp [step, stepChunkData, hnext, hdata, Nat.ne_of_lt hremaining]
  | endIncomplete hjunk =>
      have hdrop : buffer.dropWhile (· != lf) = [] := by
        rw [← List.append_nil buffer,
          List.dropWhile_append_of_pos fun b hb => by simpa using hjunk b hb, List.dropWhile_nil]
      simp only [step, stepChunkEnd, hdrop]
  | @chunkEnds _ junk rest hjunk =>
      have hjunk' : ∀ b ∈ junk, (b != lf) = true := fun b hb => by simpa using hjunk b hb
      simp only [step, stepChunkEnd, dropWhile_append_cons hjunk' (show (lf != lf) = false by simp)]
  | trailerIncomplete hread => simp only [step, stepTrailer, hread]
  | trailerRefused hread => simp only [step, stepTrailer, hread]
  | trailerEnds hread => simp only [step, stepTrailer, hread]
  | dropped => rfl
  | rawWaits => rfl
  | passed hbuffer => simp [step, stepRaw, hbuffer]

/-! ## What a move leaves -/

/-- A move takes something from the front of the buffer. -/
theorem Move.suffix {phase : Phase} {buffer : Bytes} {next : Step}
    (h : Move direction limits phase buffer next) : next.rest <:+ buffer := by
  cases h with
  | padding hpadding => exact List.nil_suffix
  | beginning hpadding hb => exact List.suffix_append _ _
  | startIncomplete hline => exact List.suffix_refl _
  | startTooLong hline => exact List.nil_suffix
  | startRefused hline hread => exact List.nil_suffix
  | noise hline hread => exact List.drop_suffix _ _
  | started hline hread => exact List.drop_suffix _ _
  | headerIncomplete hread => exact List.suffix_refl _
  | headerRefused hread => exact List.nil_suffix
  | unframed hread hhead hlength => exact List.nil_suffix
  | unsupported hread hhead hlength hlimits => exact List.nil_suffix
  | bodiless hread hhead hlength hempty => exact List.drop_suffix _ _
  | fixedBody hread hhead hlength hpos => exact List.drop_suffix _ _
  | chunkedBody hread hhead hlength hlimits => exact List.drop_suffix _ _
  | openBody hread hhead hlength => exact List.drop_suffix _ _
  | fixedWaits hdata => exact List.suffix_refl _
  | fixedEnds hdata hnext hremaining => exact List.suffix_append _ _
  | fixedPiece hdata hnext hremaining => exact List.suffix_append _ _
  | openWaits hdata => exact List.suffix_refl _
  | openPiece hdata hnext => exact List.suffix_append _ _
  | sizeIncomplete hline => exact List.suffix_refl _
  | sizeTooLong hline => exact List.nil_suffix
  | sizeRefused hline hsize => exact List.nil_suffix
  | lastChunk hline hsize => exact List.drop_suffix _ _
  | chunk hline hsize hpos => exact List.drop_suffix _ _
  | dataWaits hdata => exact List.suffix_refl _
  | dataEnds hdata hnext hremaining => exact List.suffix_append _ _
  | dataPiece hdata hnext hremaining => exact List.suffix_append _ _
  | endIncomplete hjunk => exact List.nil_suffix
  | chunkEnds hjunk =>
      rw [← List.singleton_append, ← List.append_assoc]
      exact List.suffix_append _ _
  | trailerIncomplete hread => exact List.suffix_refl _
  | trailerRefused hread => exact List.nil_suffix
  | trailerEnds hread => exact List.drop_suffix _ _
  | dropped => exact List.nil_suffix
  | rawWaits => exact List.nil_suffix
  | passed hbuffer => exact List.nil_suffix

/-! ## Runs, by their first step -/

section Runs

variable {phase next : Phase} {buffer rest : Bytes}

/-- A run after some events that were reported before it. -/
def Run.after (run : Run) (events : List Event) : Run :=
  { run with events := events ++ run.events }

theorem run_of_proceed {events : List Event}
    (h : step direction limits phase buffer = .proceed next rest events) :
    run direction limits phase buffer = (run direction limits next rest).after events := by
  rw [run_eq, h]
  rfl

theorem run_of_wait (h : step direction limits phase buffer = .wait next rest) :
    run direction limits phase buffer = ⟨next, rest, []⟩ := by
  rw [run_eq, h]
  rfl

theorem run_of_refuse {event : Event}
    (h : step direction limits phase buffer = .refuse event) :
    run direction limits phase buffer = ⟨.refused, [], [event]⟩ := by
  rw [run_eq, h]
  rfl

/-- A run ends with a move after which the reader does not go on. -/
theorem run_last (direction : Direction) (limits : Limits) (phase : Phase) (buffer : Bytes) :
    ∃ last before taken, Move direction limits last before taken ∧ taken.again = false ∧
      (run direction limits phase buffer).phase = taken.phase ∧
      (run direction limits phase buffer).rest = taken.rest := by
  fun_induction run direction limits phase buffer with
  | case1 phase buffer next again later ih => exact ih
  | case2 phase buffer next again =>
      exact ⟨phase, buffer, next, step_move direction limits phase buffer,
        Bool.eq_false_iff.2 again, rfl, rfl⟩

theorem run_congr {phase' : Phase} {buffer' : Bytes}
    (h : step direction limits phase buffer = step direction limits phase' buffer') :
    run direction limits phase buffer = run direction limits phase' buffer' := by
  rw [run_eq, h, ← run_eq]

end Runs

end Phase

end HttpWire
