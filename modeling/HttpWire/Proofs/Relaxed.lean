import HttpWire.Proofs.Faults
import HttpWire.Proofs.Observations

/-!
# Looser limits

A limit can only stop a reader. Where it does not, the reader does what it would do within looser
limits: it takes the same lines, collects the same fields and reports the same events, and nothing
of the limit is left in its phase. The five faults of `Fault.isLimit` are the ways in which limits
stop a reader.

- `Limits.Relaxes`: limits that let through at least as much, in the same pieces.
- `Line.scan_relaxed`, `FieldBlock.read_relaxed`: the parts that look at a limit.
- `Phase.Move.relaxed`, `Phase.run_relaxed`: a step, and a run, that no limit stops.
- `Connection.observations_relaxed`: whatever is done with a connection that no limit stops, the
  same is seen of one within looser limits.
-/

set_option autoImplicit false

namespace HttpWire

open Text

/-- Limits that let through all that others do, and hand on a body in the same pieces. -/
structure Limits.Relaxes (looser limits : Limits) : Prop where
  line : limits.line ≤ looser.line
  header : limits.header ≤ looser.header
  piece : looser.piece = limits.piece
  chunked : limits.chunked = true → looser.chunked = true
  strict : looser.strict = true → limits.strict = true

/-- Whether a fault is that the limits of a reader do not let something through. -/
def Fault.isLimit : Fault → Bool
  | lineTooLong _ => true
  | headerTooLong _ => true
  | unsupportedChunked => true
  | invalidHeaderName _ => true
  | invalidHeaderValue _ _ => true
  | _ => false

theorem Fault.isLimit_of_inField {cause : Fault} (h : cause.inField = true) :
    cause.isLimit = true := by
  cases cause <;> first | rfl | cases h

/-- Whether an event is that the limits of a reader have stopped it. -/
def Event.hitsLimit : Event → Bool
  | failure cause _ => cause.isLimit
  | _ => false

/-! ## The parts that look at a limit -/

/-- A line that is not too long is found within a higher limit as well, and if its end is missing
then it is missing there, too. -/
theorem Line.scan_relaxed {limit higher charged start : Nat} {buffer : Bytes} {found : Scan}
    (hlimit : limit ≤ higher) (h : scan limit charged buffer start = found)
    (hfound : found ≠ .tooLong) : scan higher charged buffer start = found := by
  simp only [scan] at h ⊢
  split at h
  · exact absurd h.symm hfound
  · rename_i hshort
    rw [if_neg (by omega)]
    exact h

section Blocks

variable {limit higher : Nat} {strict looser : Bool} {buffer : Bytes}

theorem Field.check_relaxed (hstrict : looser = true → strict = true) {name value : Bytes}
    {field : Field} (h : check strict name value = .ok field) :
    check looser name value = .ok field := by
  cases looser with
  | true =>
      rw [hstrict rfl] at h
      exact h
  | false =>
      unfold check at h
      split at h
      · cases h
      · split at h
        · cases h
        · cases h
          rfl

namespace FieldBlock

theorem takeLine_relaxed (hstrict : looser = true → strict = true) {pending : Option FieldSpans}
    {line : Line} {taken : Option Field × Option FieldSpans}
    (h : takeLine strict buffer pending line = .ok taken) :
    takeLine looser buffer pending line = .ok taken := by
  cases pending with
  | none => exact h
  | some spans =>
      simp only [takeLine] at h ⊢
      split at h
      · rename_i hcontinues
        rw [if_pos hcontinues]
        exact h
      · rename_i hcontinues
        rw [if_neg hcontinues]
        cases hfield : spans.field strict buffer with
        | error cause =>
            rw [hfield] at h
            cases h
        | ok field =>
            rw [hfield] at h
            have hlooser : spans.field looser buffer = .ok field :=
              Field.check_relaxed hstrict hfield
            rw [hlooser]
            exact h

theorem isLimit_of_read {block : FieldBlock} {cause : Fault}
    (h : (block.read limit strict buffer).2 = .refused cause) : cause.isLimit = true := by
  rcases fault_of_read h with rfl | hfield
  · rfl
  · exact Fault.isLimit_of_inField hfield

theorem read_relaxed (hlimit : limit ≤ higher) (hstrict : looser = true → strict = true)
    {block : FieldBlock} (h : ∀ cause, (block.read limit strict buffer).2 ≠ .refused cause) :
    block.read higher looser buffer = block.read limit strict buffer := by
  -- by the lines of the block, each of which is found and taken in the same way
  fun_induction read limit strict buffer block with
  | case1 block hline => exact absurd rfl (h _)
  | case2 block hline =>
      rw [read_incomplete (Line.scan_relaxed hlimit hline Line.Scan.noConfusion)]
  | case3 block line hline cause htake => exact absurd rfl (h cause)
  | case4 block line hline charged done htake =>
      have hscan := Line.scan_relaxed hlimit hline Line.Scan.noConfusion
      simp only [read_found hscan, takeLine_relaxed hstrict htake]
      rfl
  | case5 block line hline charged done spans htake further ih =>
      have hscan := Line.scan_relaxed hlimit hline Line.Scan.noConfusion
      simp only [read_found hscan, takeLine_relaxed hstrict htake]
      rw [ih h]

theorem read_eq_relaxed (hlimit : limit ≤ higher) (hstrict : looser = true → strict = true)
    {block : FieldBlock} {more : List Field} {outcome : Outcome}
    (h : block.read limit strict buffer = (more, outcome))
    (houtcome : ∀ cause, outcome ≠ .refused cause) :
    block.read higher looser buffer = (more, outcome) := by
  rw [read_relaxed hlimit hstrict (by rw [h]; exact houtcome), h]

end FieldBlock

end Blocks

/-! ## Steps and runs -/

namespace Phase

variable {direction : Direction} {limits looser : Limits} {phase : Phase} {buffer : Bytes}

/-- A step that no limit stops reports no fault of a limit. -/
theorem not_isLimit_of_free {cause : Fault} {spoiled : Spoiled}
    (hfree : ∀ event ∈ [Event.failure cause spoiled], event.hitsLimit = false) :
    ¬ cause.isLimit = true := by
  intro hcause
  have hevent := hfree _ List.mem_cons_self
  rw [Event.hitsLimit, hcause] at hevent
  cases hevent

/-! Each of what a step takes it takes within looser limits as well: a line, a block and a piece. -/

section Taken

variable {block later : FieldBlock} {more : List Field} {next charged remaining : Nat}

theorem found_relaxed (h : looser.Relaxes limits) {line : Line}
    (hline : Line.scan limits.line 0 buffer 0 = .found line) :
    Line.scan looser.line 0 buffer 0 = .found line :=
  Line.scan_relaxed h.line hline Line.Scan.noConfusion

theorem incomplete_relaxed (h : looser.Relaxes limits)
    (hline : Line.scan limits.line 0 buffer 0 = .incomplete) :
    Line.scan looser.line 0 buffer 0 = .incomplete :=
  Line.scan_relaxed h.line hline Line.Scan.noConfusion

theorem closed_relaxed (h : looser.Relaxes limits)
    (hread : block.read limits.header limits.strict buffer = (more, .complete next charged)) :
    block.read looser.header looser.strict buffer = (more, .complete next charged) :=
  FieldBlock.read_eq_relaxed h.header h.strict hread fun _ => FieldBlock.Outcome.noConfusion

theorem open_relaxed (h : looser.Relaxes limits)
    (hread : block.read limits.header limits.strict buffer = (more, .incomplete later)) :
    block.read looser.header looser.strict buffer = (more, .incomplete later) :=
  FieldBlock.read_eq_relaxed h.header h.strict hread fun _ => FieldBlock.Outcome.noConfusion

theorem piece_relaxed (h : looser.Relaxes limits) {data : Bytes}
    (hnext : nextPiece limits remaining buffer = data) :
    nextPiece looser remaining buffer = data := by
  rw [← hnext, nextPiece, nextPiece, h.piece]

theorem take_relaxed (h : looser.Relaxes limits) {data : Bytes}
    (hnext : buffer.take limits.piece = data) : buffer.take looser.piece = data := by
  rw [h.piece, hnext]

end Taken

theorem Move.relaxed {next : Step} (hmove : Move direction limits phase buffer next)
    (h : looser.Relaxes limits) (hfree : ∀ event ∈ next.events, event.hitsLimit = false) :
    Move direction looser phase buffer next := by
  cases hmove with
  | padding hpadding => exact .padding hpadding
  | beginning hpadding hb => exact .beginning hpadding hb
  | startIncomplete hline => exact .startIncomplete (incomplete_relaxed h hline)
  | startTooLong hline => exact absurd rfl (not_isLimit_of_free hfree)
  | startRefused hline hread => exact .startRefused (found_relaxed h hline) hread
  | noise hline hread => exact .noise (found_relaxed h hline) hread
  | started hline hread => exact .started (found_relaxed h hline) hread
  | headerIncomplete hread => exact .headerIncomplete (open_relaxed h hread)
  | headerRefused hread =>
      have hlimit := FieldBlock.isLimit_of_read (congrArg Prod.snd hread)
      exact absurd hlimit (not_isLimit_of_free hfree)
  | unframed hread hhead hlength => exact .unframed (closed_relaxed h hread) hhead hlength
  | unsupported hread hhead hlength hlimits => exact absurd rfl (not_isLimit_of_free hfree)
  | bodiless hread hhead hlength hempty =>
      exact .bodiless (closed_relaxed h hread) hhead hlength hempty
  | fixedBody hread hhead hlength hpos =>
      exact .fixedBody (closed_relaxed h hread) hhead hlength hpos
  | chunkedBody hread hhead hlength hlimits =>
      exact .chunkedBody (closed_relaxed h hread) hhead hlength (h.chunked hlimits)
  | openBody hread hhead hlength => exact .openBody (closed_relaxed h hread) hhead hlength
  | fixedWaits hdata => exact .fixedWaits (piece_relaxed h hdata)
  | fixedEnds hdata hnext hremaining =>
      exact .fixedEnds hdata (piece_relaxed h hnext) hremaining
  | fixedPiece hdata hnext hremaining =>
      exact .fixedPiece hdata (piece_relaxed h hnext) hremaining
  | openWaits hdata => exact .openWaits (take_relaxed h hdata)
  | openPiece hdata hnext => exact .openPiece hdata (take_relaxed h hnext)
  | sizeIncomplete hline => exact .sizeIncomplete (incomplete_relaxed h hline)
  | sizeTooLong hline => exact absurd rfl (not_isLimit_of_free hfree)
  | sizeRefused hline hsize => exact .sizeRefused (found_relaxed h hline) hsize
  | lastChunk hline hsize => exact .lastChunk (found_relaxed h hline) hsize
  | chunk hline hsize hpos => exact .chunk (found_relaxed h hline) hsize hpos
  | dataWaits hdata => exact .dataWaits (piece_relaxed h hdata)
  | dataEnds hdata hnext hremaining => exact .dataEnds hdata (piece_relaxed h hnext) hremaining
  | dataPiece hdata hnext hremaining => exact .dataPiece hdata (piece_relaxed h hnext) hremaining
  | endIncomplete hjunk => exact .endIncomplete hjunk
  | chunkEnds hjunk => exact .chunkEnds hjunk
  | trailerIncomplete hread => exact .trailerIncomplete (open_relaxed h hread)
  | trailerRefused hread =>
      have hlimit := FieldBlock.isLimit_of_read (congrArg Prod.snd hread)
      exact absurd hlimit (not_isLimit_of_free hfree)
  | trailerEnds hread => exact .trailerEnds (closed_relaxed h hread)
  | dropped => exact .dropped
  | rawWaits => exact .rawWaits
  | passed hbuffer => exact .passed hbuffer

/-- A run that no limit stops is the run within looser limits. -/
theorem run_relaxed (h : looser.Relaxes limits)
    (hfree : ∀ event ∈ (run direction limits phase buffer).events, event.hitsLimit = false) :
    run direction looser phase buffer = run direction limits phase buffer := by
  fun_induction run direction limits phase buffer with
  | case1 phase buffer next again later ih =>
      obtain ⟨hnow, hlater⟩ := List.forall_mem_append.1 hfree
      have hstep := ((step_move direction limits phase buffer).relaxed h hnow).step_eq
      rw [run_eq, hstep, if_pos again, ih hlater]
  | case2 phase buffer next again =>
      have hstep := ((step_move direction limits phase buffer).relaxed h hfree).step_eq
      rw [run_eq, hstep, if_neg again]

end Phase

/-! ## Every use of a connection -/

namespace Connection

/-- Relaxing the limits changes nothing for a connection that they do not stop. If no use of a
connection reports that a line or the fields of a message are too long, that chunked bodies are not
accepted, or that a field does not pass the checks, then a connection within looser limits shows the
same after every use: the same events, the same phase, the same length of the body at hand and the
same bytes left. -/
theorem observations_relaxed {direction : Direction} {limits looser : Limits}
    {new other : Connection} (hrelaxes : looser.Relaxes limits)
    (hnew : start direction limits = .ok new) (hother : start direction looser = .ok other)
    (uses : List Use)
    (hfree : ∀ seen ∈ new.observations uses, ∀ event ∈ seen.events, event.hitsLimit = false) :
    other.observations uses = new.observations uses := by
  obtain ⟨haligned, hdirection, hlimits, hlooser⟩ := start_aligned hnew hother
  have hview : Event.Continuable id := by
    intro xs ys hevents zs
    exact congrArg (· ++ zs) hevents
  have hruns : ∀ phase buffer,
      (∀ event ∈ (Phase.run direction limits phase buffer).events, event.hitsLimit = false) →
      (Phase.run direction limits phase buffer).Agrees id
        (Phase.run direction looser phase buffer) := by
    intro phase buffer hevents
    rw [Phase.run_relaxed hrelaxes hevents]
    exact ⟨rfl, rfl, rfl⟩
  rw [← hdirection, ← hlimits, ← hlooser] at hruns
  have hseen := haligned.observations hview hruns uses hfree
  have hid : ∀ seen : Observation, seen.through id = seen := fun _ => rfl
  simp only [hid, List.map_id'] at hseen
  exact hseen.symm

/-- A chunked response that comes up to both ceilings, the second one with its folded trailer, and
is cut short behind it. -/
theorem observations_relaxed_at_the_limit :
    let limits : Limits := ⟨15, 32, 2, true, true⟩
    let looser : Limits := ⟨4096, 33, 2, true, false⟩
    let new : Connection := { reader := ⟨.response, limits, by decide, .idle, false⟩ }
    let other : Connection := { reader := ⟨.response, looser, by decide, .idle, false⟩ }
    let uses : List Use :=
      [.feed (· ++ toBytes "HTTP/1.1 200 OK\r\nTransfer-Encoding: chunked\r\n\r\n5\r\nhel"),
        .declineBody, .feed (· ++ toBytes "lo\r\n0\r\nA: b\r\n c\r\n"), .close id]
    looser.Relaxes limits ∧
      start .response limits = .ok new ∧ start .response looser = .ok other ∧
      (∀ seen ∈ new.observations uses, ∀ event ∈ seen.events, event.hitsLimit = false) ∧
      other.observations uses = new.observations uses := by
  intro limits looser new other uses
  have hrelaxes : looser.Relaxes limits :=
    ⟨by decide, by decide, rfl, fun _ => rfl, fun _ => rfl⟩
  have hnew : start .response limits = .ok new := rfl
  have hother : start .response looser = .ok other := rfl
  have hfree : ∀ seen ∈ new.observations uses, ∀ event ∈ seen.events, event.hitsLimit = false := by
    decide +kernel
  exact ⟨hrelaxes, hnew, hother, hfree, observations_relaxed hrelaxes hnew hother uses hfree⟩

end Connection

end HttpWire
