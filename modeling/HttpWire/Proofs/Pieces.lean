import HttpWire.Proofs.History
import HttpWire.Proofs.Merge

/-!
# Bytes that arrive in pieces

How the bytes of a connection are cut into pieces does not matter: the connection comes to the same
state, and the reports differ at most in the size of body pieces and of raw pieces.

- `Phase.Run.Same`: runs that differ in the size of pieces only.
- `Phase.CountsDown`: what a body of known length and a chunk have in common. `run_short` and
  `run_full` say what a run through either of them does.
- `Phase.Move.append`: a step on a longer buffer, outside of the phases that report pieces.
- `Phase.run_append`: a run over a longer buffer continues the run over the shorter one.
- `Connection.push_pieces`: any pieces of an input are pushed with the effect of the whole.
-/

set_option autoImplicit false

namespace HttpWire

open Text Event

namespace Phase

/-! ## Runs up to the size of pieces -/

/-- Two runs that differ at most in the size of pieces. -/
structure Run.Same (run other : Run) : Prop where
  phase : run.phase = other.phase
  rest : run.rest = other.rest
  events : merge run.events = merge other.events

namespace Run.Same

variable {first second third : Run}

theorem refl (run : Run) : run.Same run :=
  ⟨rfl, rfl, rfl⟩

theorem symm (h : first.Same second) : second.Same first :=
  ⟨h.phase.symm, h.rest.symm, h.events.symm⟩

theorem trans (h : first.Same second) (h' : second.Same third) : first.Same third :=
  ⟨h.phase.trans h'.phase, h.rest.trans h'.rest, h.events.trans h'.events⟩

theorem after (h : first.Same second) (events : List Event) :
    (first.after events).Same (second.after events) :=
  ⟨h.phase, h.rest, merge_append_congr rfl h.events⟩

/-- Events that were reported before a run count up to the size of pieces as well. -/
theorem after_congr (run : Run) {events events' : List Event} (h : merge events = merge events') :
    (run.after events).Same (run.after events') :=
  ⟨rfl, rfl, merge_append_congr h rfl⟩

theorem after_body {run : Run} {phase : Phase} {data rest : Bytes} (hdata : data ≠ [])
    (h : run.Same ⟨phase, [], piece rest⟩) :
    (run.after [.body data]).Same ⟨phase, [], piece (data ++ rest)⟩ := by
  refine (h.after [.body data]).trans ⟨rfl, rfl, ?_⟩
  rw [← piece_of_ne_nil hdata]
  exact merge_pieces data rest

end Run.Same

variable {direction : Direction} {limits : Limits} {phase next : Phase} {buffer rest : Bytes}
  {events : List Event}

/-! ## Phases that count down -/

/-- A phase that counts down the bytes still to come. The piece with which none are left is
reported by `ending`, and `next` follows it. -/
structure CountsDown (direction : Direction) (limits : Limits) (phase : Nat → Phase)
    (next : Phase) (ending : Bytes → Event) : Prop where
  waits : ∀ {remaining : Nat} {buffer : Bytes}, nextPiece limits remaining buffer = [] →
    Move direction limits (phase remaining) buffer (.wait (phase remaining) buffer)
  goesOn : ∀ {remaining : Nat} {data rest : Bytes}, data ≠ [] →
    nextPiece limits remaining (data ++ rest) = data → data.length < remaining →
      Move direction limits (phase remaining) (data ++ rest)
        (.proceed (phase (remaining - data.length)) rest [.body data])
  ends : ∀ {remaining : Nat} {data rest : Bytes}, data ≠ [] →
    nextPiece limits remaining (data ++ rest) = data → data.length = remaining →
      Move direction limits (phase remaining) (data ++ rest) (.proceed next rest [ending data])
  joins : ∀ (before data : Bytes) (later : List Event),
    merge (piece before ++ ending data :: later) = merge (ending (before ++ data) :: later)

theorem countsDown_fixed (direction : Direction) (limits : Limits) (length : Nat)
    (switches : Bool) :
    CountsDown direction limits (fun remaining => .fixed length remaining switches)
      (afterMessage switches) (fun data => .last { data }) where
  waits := .fixedWaits
  goesOn := .fixedPiece
  ends := .fixedEnds
  joins := fun before data later => merge_piece_last before { data } later

theorem countsDown_chunkData (direction : Direction) (limits : Limits) (body : ChunkedBody) :
    CountsDown direction limits (.chunkData body) (.chunkEnd body) .body where
  waits := .dataWaits
  goesOn := .dataPiece
  ends := .dataEnds
  joins := by
    intro before data later
    cases before with
    | nil => rfl
    | cons b before => exact merge_body_body (b :: before) data later

namespace CountsDown

variable {phase : Nat → Phase} {ending : Bytes → Event} {remaining : Nat}

/-- A run through fewer bytes than are still to come reports them and waits. -/
theorem run_short (h : CountsDown direction limits phase next ending) (hvalid : limits.Valid)
    (hshort : buffer.length < remaining) :
    (run direction limits (phase remaining) buffer).Same
      ⟨phase (remaining - buffer.length), [], piece buffer⟩ := by
  -- by the length of the buffer: a piece is taken from its front, and then from what is left
  induction hn : buffer.length using Nat.strongRecOn generalizing buffer remaining with
  | ind n ih =>
      subst hn
      rcases nextPiece_cases limits remaining buffer with
        hnone | ⟨data, rest, rfl, hdata, hpiece, -⟩
      · cases eq_nil_of_nextPiece hvalid (Nat.zero_lt_of_lt hshort) hnone
        rw [run_of_wait (h.waits hnone).step_eq]
        exact .refl _
      · have hpos := List.length_pos_iff.2 hdata
        rw [List.length_append] at hshort ih
        have hrest := @ih rest.length (by omega) rest (remaining - data.length) (by omega) rfl
        rw [run_of_proceed (h.goesOn hdata hpiece (by omega)).step_eq, List.length_append,
          Nat.sub_add_eq]
        exact hrest.after_body hdata

/-- A run through the bytes that are still to come reports them and goes on after them. -/
theorem run_full (h : CountsDown direction limits phase next ending) (hvalid : limits.Valid)
    {data : Bytes} (hdata : data ≠ []) (rest : Bytes) :
    (run direction limits (phase data.length) (data ++ rest)).Same
      ((run direction limits next rest).after [ending data]) := by
  induction hn : data.length using Nat.strongRecOn generalizing data with
  | ind n ih =>
      subst hn
      have hpos := List.length_pos_iff.2 hdata
      rcases nextPiece_cases limits data.length (data ++ rest) with
        hnone | ⟨front, later, hsplit, hne, hpiece, hle⟩
      · exact absurd (eq_nil_of_nextPiece hvalid hpos hnone)
          (List.append_ne_nil_of_left_ne_nil hdata rest)
      have hfront : front <+: data ++ rest := by
        rw [hsplit]
        exact List.prefix_append front later
      obtain ⟨back, rfl⟩ :=
        List.prefix_of_prefix_length_le hfront (List.prefix_append data rest) hle
      rw [← hsplit] at hpiece
      by_cases hback : back = []
      · subst hback
        rw [List.append_nil] at hpiece ⊢
        rw [run_of_proceed (h.ends hne hpiece rfl).step_eq]
        exact .refl _
      · have hfront := List.length_pos_iff.2 hne
        have hlength := List.length_pos_iff.2 hback
        rw [List.length_append] at ih hpiece ⊢
        have hlater := ih back.length (by omega) hback rfl
        rw [List.append_assoc] at hpiece ⊢
        rw [run_of_proceed (h.goesOn hne hpiece (by omega)).step_eq, Nat.add_sub_cancel_left]
        refine (hlater.after [.body front]).trans ⟨rfl, rfl, ?_⟩
        rw [← piece_of_ne_nil hne]
        exact h.joins front back _

end CountsDown

/-- A run through a body that ends with the connection reports all of it and waits. -/
theorem run_untilClose (hvalid : limits.Valid) (buffer : Bytes) :
    (run direction limits .untilClose buffer).Same ⟨.untilClose, [], piece buffer⟩ := by
  induction hn : buffer.length using Nat.strongRecOn generalizing buffer with
  | ind n ih =>
      subst hn
      rcases nextPiece_cases limits limits.piece buffer with
        hnone | ⟨data, rest, rfl, hdata, hpiece, -⟩
      · cases eq_nil_of_nextPiece hvalid hvalid.piece hnone
        rw [run_of_wait (Move.openWaits List.take_nil).step_eq]
        exact .refl _
      · have hpos := List.length_pos_iff.2 hdata
        rw [List.length_append] at ih
        have hrest := ih rest.length (by omega) rest rfl
        rw [nextPiece_self] at hpiece
        rw [run_of_proceed (Move.openPiece hdata hpiece).step_eq]
        exact hrest.after_body hdata

/-! ## Steps on a longer buffer -/

theorem line_append {limit charged start : Nat} {line : Line}
    (h : Line.scan limit charged buffer start = .found line) (more : Bytes) :
    line.bytes (buffer ++ more) = line.bytes buffer ∧
      (buffer ++ more).drop line.next = buffer.drop line.next ++ more := by
  obtain ⟨hstart, hstop, hnext, hbuffer, -⟩ := Line.scan_found h
  exact ⟨Span.bytes_append line.toSpan (by omega) more,
    List.drop_append_of_le_length hbuffer⟩

/-- A block that is closed in a buffer is closed in a longer one, and leaves more. -/
theorem block_append {block : FieldBlock} {fields : List Field} {after charged : Nat}
    (hblock : block.Within buffer)
    (h : block.read limits.header limits.strict buffer = (fields, .complete after charged))
    (more : Bytes) :
    block.read limits.header limits.strict (buffer ++ more) = (fields, .complete after charged) ∧
      (buffer ++ more).drop after = buffer.drop after ++ more := by
  have hcomplete := FieldBlock.read_complete (congrArg Prod.snd h)
  refine ⟨?_, List.drop_append_of_le_length hcomplete.2⟩
  rw [FieldBlock.read_append _ _ hblock, h]

/-- What a longer buffer changes of a step: a step that goes on leaves more bytes, a refusal stays
the same, and a step that waits is taken up again where it stopped. -/
inductive Continues (direction : Direction) (limits : Limits) (phase : Phase)
    (buffer more : Bytes) : Step → Prop
  | proceeds {next : Phase} {rest : Bytes} {events : List Event}
      (hlonger : step direction limits phase (buffer ++ more) =
        .proceed next (rest ++ more) events) :
      Continues direction limits phase buffer more (.proceed next rest events)
  | refuses {event : Event}
      (hlonger : step direction limits phase (buffer ++ more) = .refuse event) :
      Continues direction limits phase buffer more (.refuse event)
  | waits {next : Phase} {rest : Bytes}
      (hlonger : step direction limits phase (buffer ++ more) =
        step direction limits next (rest ++ more)) :
      Continues direction limits phase buffer more (.wait next rest)

/-! What follows from a line, or from a block, follows from it in a longer buffer: the same step, or
the same refusal. -/

section Taken

variable {line : Line} {block : FieldBlock} {fields : List Field} {after charged : Nat}
  {event : Event}

theorem Continues.of_line (hline : Line.scan limits.line 0 buffer 0 = .found line) (more : Bytes)
    (hmove : ∀ longer : Bytes, Line.scan limits.line 0 longer 0 = .found line →
      line.bytes longer = line.bytes buffer →
        Move direction limits phase longer (.proceed next (longer.drop line.next) events)) :
    Continues direction limits phase buffer more
      (.proceed next (buffer.drop line.next) events) := by
  obtain ⟨hbytes, hdrop⟩ := line_append hline more
  refine .proceeds ?_
  rw [← hdrop]
  exact (hmove _ (Line.scan_append_found hline more) hbytes).step_eq

theorem Continues.of_line_refused (hline : Line.scan limits.line 0 buffer 0 = .found line)
    (more : Bytes)
    (hmove : ∀ longer : Bytes, Line.scan limits.line 0 longer 0 = .found line →
      line.bytes longer = line.bytes buffer → Move direction limits phase longer (.refuse event)) :
    Continues direction limits phase buffer more (.refuse event) :=
  .refuses (hmove _ (Line.scan_append_found hline more) (line_append hline more).1).step_eq

theorem Continues.of_block (hblock : block.Within buffer)
    (hread : block.read limits.header limits.strict buffer = (fields, .complete after charged))
    (more : Bytes)
    (hmove : ∀ longer : Bytes,
      block.read limits.header limits.strict longer = (fields, .complete after charged) →
        Move direction limits phase longer (.proceed next (longer.drop after) events)) :
    Continues direction limits phase buffer more (.proceed next (buffer.drop after) events) := by
  obtain ⟨hlonger, hdrop⟩ := block_append hblock hread more
  refine .proceeds ?_
  rw [← hdrop]
  exact (hmove _ hlonger).step_eq

theorem Continues.of_block_refused {cause : Fault} (hblock : block.Within buffer)
    (hread : block.read limits.header limits.strict buffer = (fields, .refused cause))
    (more : Bytes)
    (hmove : ∀ longer : Bytes,
      block.read limits.header limits.strict longer = (fields, .refused cause) →
        Move direction limits phase longer (.refuse event)) :
    Continues direction limits phase buffer more (.refuse event) := by
  refine .refuses (hmove _ ?_).step_eq
  rw [FieldBlock.read_append _ _ hblock, hread]

/-- The block may be closed, and the head refused for what it says. -/
theorem Continues.of_head_refused (hblock : block.Within buffer)
    (hread : block.read limits.header limits.strict buffer = (fields, .complete after charged))
    (more : Bytes)
    (hmove : ∀ longer : Bytes,
      block.read limits.header limits.strict longer = (fields, .complete after charged) →
        Move direction limits phase longer (.refuse event)) :
    Continues direction limits phase buffer more (.refuse event) :=
  .refuses (hmove _ (block_append hblock hread more).1).step_eq

end Taken

section Phases

variable {taken : Step} {first : StartLine} {fields : Fields} {block : FieldBlock}
  {body : ChunkedBody} {switches : Bool}

theorem Move.append_idle (h : Move direction limits .idle buffer taken) (more : Bytes) :
    Continues direction limits .idle buffer more taken := by
  cases h with
  | padding hpadding =>
      -- padding is not kept, and what follows is looked at as if it had come first
      refine .waits ?_
      simp only [step, stepIdle, List.nil_append, List.dropWhile_append_of_pos hpadding]
  | beginning hpadding hb =>
      refine .proceeds ?_
      rw [List.append_assoc, List.cons_append]
      exact (Move.beginning hpadding hb).step_eq

theorem Move.append_startLine (h : Move direction limits .startLine buffer taken) (more : Bytes) :
    Continues direction limits .startLine buffer more taken := by
  cases h with
  | startIncomplete hline => exact .waits rfl
  | startTooLong hline =>
      exact .refuses (Move.startTooLong (Line.scan_append_tooLong hline more)).step_eq
  | startRefused hline hread =>
      refine .of_line_refused hline more fun longer hfound hbytes => .startRefused hfound ?_
      rw [hbytes, hread]
  | noise hline hread =>
      refine .of_line hline more fun longer hfound hbytes => .noise hfound ?_
      rw [hbytes, hread]
  | started hline hread =>
      refine .of_line hline more fun longer hfound hbytes => .started hfound ?_
      rw [hbytes, hread]

theorem Move.append_header (h : Move direction limits (.header first fields block) buffer taken)
    (hblock : block.Within buffer) (more : Bytes) :
    Continues direction limits (.header first fields block) buffer more taken := by
  cases h with
  | headerIncomplete hread =>
      -- the fields that were taken are kept with the phase, and the block is taken up after them
      refine .waits ?_
      have hlonger := FieldBlock.read_append limits.header limits.strict hblock more
      simp only [step, stepHeader, hlonger, hread, Fields.append_append]
  | headerRefused hread => exact .of_block_refused hblock hread more fun _ => .headerRefused
  | unframed hread hhead hlength =>
      exact .of_head_refused hblock hread more fun _ hlonger => .unframed hlonger hhead hlength
  | unsupported hread hhead hlength hlimits =>
      exact .of_head_refused hblock hread more fun _ hlonger =>
        .unsupported hlonger hhead hlength hlimits
  | bodiless hread hhead hlength hempty =>
      exact .of_block hblock hread more fun _ hlonger => .bodiless hlonger hhead hlength hempty
  | fixedBody hread hhead hlength hpos =>
      exact .of_block hblock hread more fun _ hlonger => .fixedBody hlonger hhead hlength hpos
  | chunkedBody hread hhead hlength hlimits =>
      exact .of_block hblock hread more fun _ hlonger => .chunkedBody hlonger hhead hlength hlimits
  | openBody hread hhead hlength =>
      exact .of_block hblock hread more fun _ hlonger => .openBody hlonger hhead hlength

theorem Move.append_chunkSize (h : Move direction limits (.chunkSize body) buffer taken)
    (more : Bytes) : Continues direction limits (.chunkSize body) buffer more taken := by
  cases h with
  | sizeIncomplete hline => exact .waits rfl
  | sizeTooLong hline =>
      exact .refuses (Move.sizeTooLong (Line.scan_append_tooLong hline more)).step_eq
  | sizeRefused hline hsize =>
      refine .of_line_refused hline more fun longer hfound hbytes => .sizeRefused hfound ?_
      rw [hbytes, hsize]
  | lastChunk hline hsize =>
      refine .of_line hline more fun longer hfound hbytes => .lastChunk hfound ?_
      rw [hbytes, hsize]
  | chunk hline hsize hpos =>
      refine .of_line hline more fun longer hfound hbytes => .chunk hfound ?_ hpos
      rw [hbytes, hsize]

theorem Move.append_chunkEnd (h : Move direction limits (.chunkEnd body) buffer taken)
    (more : Bytes) : Continues direction limits (.chunkEnd body) buffer more taken := by
  cases h with
  | endIncomplete hjunk =>
      have hall : ∀ b ∈ buffer, (b != lf) = true := fun b hb => by simpa using hjunk b hb
      refine .waits ?_
      simp only [step, stepChunkEnd, List.nil_append, List.dropWhile_append_of_pos hall]
  | chunkEnds hjunk =>
      refine .proceeds ?_
      rw [List.append_assoc, List.cons_append]
      exact (Move.chunkEnds hjunk).step_eq

theorem Move.append_trailer
    (h : Move direction limits (.trailer switches fields block) buffer taken)
    (hblock : block.Within buffer) (more : Bytes) :
    Continues direction limits (.trailer switches fields block) buffer more taken := by
  cases h with
  | trailerIncomplete hread =>
      refine .waits ?_
      have hlonger := FieldBlock.read_append limits.header limits.strict hblock more
      simp only [step, stepTrailer, hlonger, hread, Fields.append_append, keptTrailers,
        List.filter_append]
  | trailerRefused hread => exact .of_block_refused hblock hread more fun _ => .trailerRefused
  | trailerEnds hread => exact .of_block hblock hread more fun _ => .trailerEnds

theorem Move.append (h : Move direction limits phase buffer taken)
    (hsound : phase.Sound buffer) (hpieces : phase.readsPieces = false) (more : Bytes) :
    Continues direction limits phase buffer more taken := by
  cases phase with
  | idle => exact h.append_idle more
  | startLine => exact h.append_startLine more
  | header first fields block => exact h.append_header hsound more
  | chunkSize body => exact h.append_chunkSize more
  | chunkEnd body => exact h.append_chunkEnd more
  | trailer switches fields block => exact h.append_trailer hsound more
  | refused =>
      cases h
      exact .waits rfl
  | _ => exact Bool.noConfusion hpieces

end Phases

/-! ## Runs over a longer buffer -/

/-- A run that is continued with more bytes. -/
def Run.resume (direction : Direction) (limits : Limits) (run : Run) (more : Bytes) : Run :=
  (Phase.run direction limits run.phase (run.rest ++ more)).after run.events

theorem Run.Same.resume {first second : Run} (h : first.Same second) (more : Bytes) :
    (first.resume direction limits more).Same (second.resume direction limits more) := by
  unfold Run.resume
  rw [h.phase, h.rest]
  exact .after_congr _ h.events

theorem Run.resume_after (run : Run) (events : List Event) (more : Bytes) :
    (run.after events).resume direction limits more =
      (run.resume direction limits more).after events := by
  simp only [Run.resume, Run.after, List.append_assoc]

/-- Counting down goes on where it stopped, however much has arrived. -/
theorem CountsDown.run_append {phase : Nat → Phase} {ending : Bytes → Event} {remaining : Nat}
    (h : CountsDown direction limits phase next ending) (hvalid : limits.Valid)
    (hpos : 0 < remaining) (more : Bytes)
    (hnext : ∀ rest : Bytes, rest.length < buffer.length →
      (run direction limits next (rest ++ more)).Same
        ((run direction limits next rest).resume direction limits more)) :
    (run direction limits (phase remaining) (buffer ++ more)).Same
      ((run direction limits (phase remaining) buffer).resume direction limits more) := by
  by_cases hshort : buffer.length < remaining
  · -- the buffer is not enough, and the longer one may or may not be
    refine .trans ?_ ((h.run_short hvalid hshort).resume more).symm
    simp only [Run.resume, List.nil_append]
    by_cases hall : (buffer ++ more).length < remaining
    · have hmore : more.length < remaining - buffer.length := by
        rw [List.length_append] at hall
        omega
      refine (h.run_short hvalid hall).trans (.trans ?_ ((h.run_short hvalid hmore).symm.after _))
      refine ⟨?_, rfl, ?_⟩
      · rw [List.length_append, Nat.sub_add_eq]
        rfl
      · exact (merge_pieces buffer more).symm
    · -- the bytes that were missing are the front of those that come
      obtain ⟨data, rest, rfl, hdata⟩ : ∃ data rest : Bytes, more = data ++ rest ∧
          data.length = remaining - buffer.length := by
        refine ⟨more.take (remaining - buffer.length), more.drop (remaining - buffer.length),
          (List.take_append_drop _ _).symm, ?_⟩
        rw [List.length_append] at hall
        rw [List.length_take]
        omega
      have hne : data ≠ [] := List.length_pos_iff.1 (by omega)
      have hlonger := h.run_full hvalid (List.append_ne_nil_of_right_ne_nil buffer hne) rest
      have hlater := (h.run_full hvalid hne rest).after (piece buffer)
      rw [List.length_append, hdata, Nat.add_sub_cancel' (Nat.le_of_lt hshort),
        List.append_assoc] at hlonger
      rw [hdata] at hlater
      have hjoin : ((run direction limits next rest).after [ending (buffer ++ data)]).Same
          (((run direction limits next rest).after [ending data]).after (piece buffer)) :=
        ⟨rfl, rfl, (h.joins buffer data _).symm⟩
      exact hlonger.trans (hjoin.trans hlater.symm)
  · obtain ⟨data, rest, rfl, rfl⟩ : ∃ data rest : Bytes, buffer = data ++ rest ∧
        data.length = remaining := by
      refine ⟨buffer.take remaining, buffer.drop remaining, (List.take_append_drop _ _).symm, ?_⟩
      rw [List.length_take]
      omega
    have hne : data ≠ [] := List.length_pos_iff.1 hpos
    -- both runs come to the end of the body, and from there to what is left of the shorter buffer
    refine .trans ?_ ((h.run_full hvalid hne rest).resume more).symm
    rw [List.append_assoc, Run.resume_after]
    refine (h.run_full hvalid hne (rest ++ more)).trans ((hnext rest ?_).after _)
    rw [List.length_append]
    omega

theorem run_append_untilClose (hvalid : limits.Valid) (buffer more : Bytes) :
    (run direction limits .untilClose (buffer ++ more)).Same
      ((run direction limits .untilClose buffer).resume direction limits more) := by
  refine .trans ?_ ((run_untilClose hvalid buffer).resume more).symm
  refine (run_untilClose hvalid (buffer ++ more)).trans
    (.trans ?_ ((run_untilClose hvalid more).symm.after (piece buffer)))
  exact ⟨rfl, rfl, (merge_pieces buffer more).symm⟩

theorem run_raw (buffer : Bytes) :
    run direction limits .raw buffer =
      ⟨.raw, [], if buffer.isEmpty then [] else [.raw buffer]⟩ := by
  rw [run_eq]
  rfl

theorem run_append_raw (buffer more : Bytes) :
    (run direction limits .raw (buffer ++ more)).Same
      ((run direction limits .raw buffer).resume direction limits more) := by
  simp only [Run.resume, run_raw, List.nil_append]
  cases buffer with
  | nil => exact .refl _
  | cons b buffer =>
      cases more with
      | nil =>
          rw [List.append_nil]
          exact .refl _
      | cons c more => exact ⟨rfl, rfl, (merge_raw_raw (b :: buffer) (c :: more) []).symm⟩

/-- A run over a longer buffer continues the run over the shorter one. -/
theorem run_append (direction : Direction) (hvalid : limits.Valid) (hsound : phase.Sound buffer)
    (more : Bytes) :
    (run direction limits phase (buffer ++ more)).Same
      ((run direction limits phase buffer).resume direction limits more) := by
  -- by the budget that every step of the run over the shorter buffer spends
  induction hn : phase.budget buffer using Nat.strongRecOn generalizing phase buffer with
  | ind n ih =>
      subst hn
      by_cases hpieces : phase.readsPieces = true
      · -- pieces are cut elsewhere in a longer buffer, so whole bodies are compared and not steps
        cases phase with
        | fixed length remaining switches =>
            have hcounts := countsDown_fixed direction limits length switches
            refine hcounts.run_append hvalid hsound.1 more ?_
            intro rest hrest
            have hslack := slack_le_one (afterMessage switches)
            refine ih _ ?_ (sound_afterMessage switches rest) rfl
            simp only [budget]
            omega
        | untilClose => exact run_append_untilClose hvalid buffer more
        | chunkData body remaining =>
            have hcounts := countsDown_chunkData direction limits body
            refine hcounts.run_append hvalid hsound more ?_
            intro rest hrest
            refine ih _ ?_ trivial rfl
            simp only [budget, slack]
            omega
        | raw => exact run_append_raw buffer more
        | _ => simp [readsPieces] at hpieces
      · -- any other step is the same on both buffers, or is taken up where it stopped
        rw [Bool.not_eq_true] at hpieces
        have hmove := step_move direction limits phase buffer
        have hcontinues := hmove.append hsound hpieces more
        generalize htaken : step direction limits phase buffer = taken at hmove hcontinues
        cases hcontinues with
        | @proceeds next rest events hlonger =>
            have hbudget := @budget_step_lt direction limits phase buffer (by rw [htaken]; rfl)
            rw [htaken] at hbudget
            rw [run_of_proceed hlonger, run_of_proceed htaken, Run.resume_after]
            exact (ih _ hbudget (hmove.sound hsound) rfl).after events
        | @refuses event hlonger =>
            rw [run_of_refuse hlonger, run_of_refuse htaken]
            have hdropped : run direction limits .refused ([] ++ more) = ⟨.refused, [], []⟩ :=
              run_of_wait Move.dropped.step_eq
            exact ⟨by simp only [Run.resume, Run.after, hdropped],
              by simp only [Run.resume, Run.after, hdropped],
              by simp only [Run.resume, Run.after, hdropped, List.append_nil]⟩
        | @waits next rest hlonger =>
            rw [run_of_wait htaken, run_congr hlonger]
            exact .refl _

end Phase

/-! ## Pieces of an input -/

namespace Connection

variable {connection : Connection}

/-- The connection that a run leaves behind. -/
def afterRun (connection : Connection) (run : Phase.Run) : Connection :=
  ⟨{ connection.reader with phase := run.phase, resetRequested := false }, run.rest⟩

theorem afterRun_congr (connection : Connection) {run run' : Phase.Run} (h : run.Same run') :
    connection.afterRun run = connection.afterRun run' := by
  simp only [afterRun, h.phase, h.rest]

/-- Pushing a run of bytes after another is pushing both at once. -/
theorem push_append (hsound : connection.Sound) (bytes more : Bytes) :
    ((connection.push bytes).1.push more).1 = (connection.push (bytes ++ more)).1 ∧
      merge ((connection.push bytes).2 ++ ((connection.push bytes).1.push more).2) =
        merge (connection.push (bytes ++ more)).2 := by
  have hsame := Phase.run_append connection.reader.direction connection.reader.valid
    (hsound.currentPhase.append bytes) more
  rw [List.append_assoc] at hsame
  have hstate := connection.afterRun_congr hsame.symm
  exact ⟨hstate, hsame.events.symm⟩

theorem Sound.push (hsound : connection.Sound) (bytes : Bytes) :
    (connection.push bytes).1.Sound :=
  Phase.run_sound (hsound.currentPhase.append bytes)

/-- Bytes that are pushed in pieces are pushed with the effect of the whole. -/
theorem push_pieces (hsound : connection.Sound) (first : Bytes) (pieces : List Bytes) :
    connection.after ((first :: pieces).map .push) =
        (connection.push (first :: pieces).flatten).1 ∧
      merge (connection.events ((first :: pieces).map .push)) =
        merge (connection.push (first :: pieces).flatten).2 := by
  induction pieces generalizing connection first with
  | nil =>
      simp only [List.map_cons, List.map_nil, after, events, List.append_nil, List.flatten_cons,
        List.flatten_nil]
      exact ⟨rfl, rfl⟩
  | cons second pieces ih =>
      obtain ⟨hafter, hevents⟩ := ih (hsound.push first) second
      obtain ⟨hpush, hreports⟩ := push_append hsound first (second :: pieces).flatten
      refine ⟨hafter.trans hpush, ?_⟩
      calc merge (connection.events ((first :: second :: pieces).map .push))
          = merge ((connection.push first).2
              ++ ((connection.push first).1.push (second :: pieces).flatten).2) :=
            merge_append_congr rfl hevents
        _ = merge (connection.push (first :: second :: pieces).flatten).2 := hreports

theorem events_append (connection : Connection) (calls more : List Call) :
    connection.events (calls ++ more) =
      connection.events calls ++ (connection.after calls).events more := by
  induction calls generalizing connection with
  | nil => rfl
  | cons call calls ih =>
      simp only [List.cons_append, events, after, ih, List.append_assoc]

/-- How bytes are cut into pieces does not matter to a connection. Two pieces leave it as the whole
does, and so do any pieces, at least one of them and each of any length; whatever is called
afterwards, the reports differ at most in the size of body pieces and of raw pieces. -/
theorem push_resumes (hreachable : connection.Reachable) :
    (∀ a b : Bytes,
      ((connection.push a).1.push b).1 = (connection.push (a ++ b)).1 ∧
        merge ((connection.push a).2 ++ ((connection.push a).1.push b).2) =
          merge (connection.push (a ++ b)).2) ∧
    ∀ (first : Bytes) (pieces : List Bytes) (later : List Call),
      connection.after ((first :: pieces).map .push ++ later) =
          connection.after (.push (first :: pieces).flatten :: later) ∧
        merge (connection.events ((first :: pieces).map .push ++ later)) =
          merge (connection.events (.push (first :: pieces).flatten :: later)) := by
  have hsound := hreachable.sound
  refine ⟨push_append hsound, ?_⟩
  intro first pieces later
  obtain ⟨hafter, hevents⟩ := push_pieces hsound first pieces
  rw [after_append, events_append, hafter]
  exact ⟨rfl, merge_append_congr hevents rfl⟩

/-- A response is cut inside the CR LF that ends a field line. -/
theorem push_resumes_between_cr_lf :
    let new : Connection := { reader := ⟨.response, {}, by decide, .idle, false⟩ }
    let connection := new.after [.push (toBytes "HTTP/1.1 200 OK\r\nA: b\r")]
    connection.Reachable ∧
      ((connection.push [lf]).1.push [cr, lf]).1 = (connection.push ([lf] ++ [cr, lf])).1 ∧
      merge ((connection.push [lf]).2 ++ ((connection.push [lf]).1.push [cr, lf]).2) =
        merge (connection.push ([lf] ++ [cr, lf])).2 := by
  intro new connection
  have hreachable : connection.Reachable := ⟨.response, {}, new, _, rfl, rfl⟩
  exact ⟨hreachable, (push_resumes hreachable).1 [lf] [cr, lf]⟩

end Connection

end HttpWire
