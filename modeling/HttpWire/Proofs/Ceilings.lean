import HttpWire.Proofs.Closing
import HttpWire.Proofs.Handover
import HttpWire.Proofs.Pieces
import HttpWire.Proofs.Weight

/-!
# The ceilings of a reader

A start line and every chunk-size line have a ceiling of their own; the header block and the trailer
block of a message share one. A message that keeps to the ceilings is read, and one that does not is
refused with the byte that goes over, however its bytes were cut. What a message weighs is told from
the input alone: the walk knows where in the input its start line, its header block, the lines of its
chunks and its trailer block stand.

- `StartLine.Begins`, `Head.Stands`: where a head stands in an input.
- `Chunked.Reaches`: how far the chunks of a body go, and the size lines on the way.
- `Phase.Carries`: what a step inside a body leaves; `Phase.Move.accounts` says that every one does.
- `Weighed`: what holds of every message of a walk; `Walk.weighed` proves it.
- `Head.KeepsCeilings`, `RefusedAsHeavy`: a message that was read, and one that was refused for its
  weight, by the bytes of both. `Walk.keepsCeilings` and `Walk.refusedAsHeavy` say that these are all.
- `Connection.Gives`: what some bytes give, in whatever pieces they arrive;
  `Connection.RefusesOver`: the connection refuses all that goes over its ceilings.
- `Connection.ceilings_exact`: the ceilings are enforced exactly.
-/

set_option autoImplicit false

namespace HttpWire

open Text

/-! ## Heads in an input -/

/-- A start line that was read off a line of an input; `rest` is what follows the line. -/
inductive StartLine.Begins (first : StartLine) (direction : Direction) :
    Bytes → Bytes → Bytes → Prop
  | intro {before line mark rest : Bytes} (htext : ∀ b ∈ line, isLineEnd b = false)
      (hmark : Line.EndMark mark rest) (hread : StartLine.read direction line = .ok (some first)) :
      Begins first direction (before ++ (line ++ (mark ++ rest))) line rest

theorem StartLine.Begins.append {first : StartLine} {direction : Direction}
    {input line rest : Bytes} (h : first.Begins direction input line rest) (more : Bytes) :
    first.Begins direction (input ++ more) line (rest ++ more) := by
  cases h with
  | intro htext hmark hread =>
      simp only [List.append_assoc]
      exact .intro htext (hmark.append more) hread

theorem StartLine.Begins.read {first : StartLine} {direction : Direction}
    {input line rest : Bytes} (h : first.Begins direction input line rest) :
    StartLine.read direction line = .ok (some first) ∧ ∀ b ∈ line, isLineEnd b = false := by
  cases h with
  | intro htext hmark hread => exact ⟨hread, htext⟩

/-- What follows a start line is the end of the input. -/
theorem StartLine.Begins.suffix {first : StartLine} {direction : Direction}
    {input line rest : Bytes} (h : first.Begins direction input line rest) : rest <:+ input := by
  cases h with
  | @intro before _ mark _ htext hmark hread =>
      exact ⟨before ++ (line ++ mark), by simp only [List.append_assoc]⟩

/-- A head as it stands in an input, up to the position `read`: its start line, and its header
block with the fields. -/
structure Head.Stands (head : Head) (direction : Direction) (limits : Limits) (input : Bytes)
    (read : Nat) (line block : Bytes) : Prop where
  read_le : read ≤ input.length
  begins : head.startLine.Begins direction input line (block ++ input.drop read)
  closes : FieldBlock.Closes limits 0 block (input.drop read)
  fields : (FieldBlock.read limits.header limits.strict (block ++ input.drop read) {}).1 =
    head.fields.toList

variable {direction : Direction} {limits : Limits} {input : Bytes}

theorem Head.Stands.append {head : Head} {read : Nat} {line block : Bytes}
    (h : head.Stands direction limits input read line block) (more : Bytes) :
    head.Stands direction limits (input ++ more) read line block := by
  have hdrop : (input ++ more).drop read = input.drop read ++ more :=
    List.drop_append_of_le_length h.read_le
  refine ⟨?_, ?_, ?_, ?_⟩
  · rw [List.length_append]
    exact Nat.le_trans h.read_le (Nat.le_add_right _ _)
  · rw [hdrop, ← List.append_assoc]
    exact h.begins.append more
  · rw [hdrop]
    exact h.closes.append more
  · rw [hdrop, ← List.append_assoc, ← h.fields]
    have hlonger := FieldBlock.read_append limits.header limits.strict
      (FieldBlock.within_start 0 (block ++ input.drop read)) more
    have hcloses := h.closes
    unfold FieldBlock.Closes at hcloses
    rw [hlonger]
    rcases hread : FieldBlock.read limits.header limits.strict (block ++ input.drop read) {} with
      ⟨fields, outcome⟩
    rw [hread] at hcloses
    simp only at hcloses
    rw [hcloses]

/-- The header block of a head that stands in an input weighs no more than the input is long. -/
theorem Head.Stands.weight_le {head : Head} {read : Nat} {line block : Bytes}
    (h : head.Stands direction limits input read line block) : weight block ≤ input.length := by
  calc weight block
      ≤ block.length := List.countP_le_length
    _ ≤ (block ++ input.drop read).length := (List.prefix_append _ _).length_le
    _ ≤ input.length := h.begins.suffix.length_le

namespace Phase

/-- A phase in which an open header block stands behind its start line, and was charged for the part
of it that has been taken. -/
def Opens (direction : Direction) (limits : Limits) (input : Bytes) : Phase → Bytes → Prop
  | header first _ block, rest =>
      FieldBlock.Taken 0 rest block ∧
        ∃ line, first.Begins direction input line rest ∧ line.length ≤ limits.line
  | idle, _ => True
  | startLine, _ => True
  | fixed _ _ _, _ => True
  | untilClose, _ => True
  | chunkSize _, _ => True
  | chunkData _ _, _ => True
  | chunkEnd _, _ => True
  | trailer _ _ _, _ => True
  | refused, _ => True
  | raw, _ => True

theorem opens_afterMessage (switches : Bool) (rest : Bytes) :
    (afterMessage switches).Opens direction limits input rest := by
  cases switches <;> trivial

theorem Opens.append {phase : Phase} {rest : Bytes} (h : phase.Opens direction limits input rest)
    (bytes : Bytes) : phase.Opens direction limits (input ++ bytes) (rest ++ bytes) := by
  cases phase with
  | header first fields block =>
      obtain ⟨htaken, line, hbegins, hle⟩ := h
      exact ⟨htaken.append bytes, line, hbegins.append bytes, hle⟩
  | _ => trivial

theorem Move.opens {phase : Phase} {rest : Bytes} {next : Step}
    (hmove : Move direction limits phase rest next) (hsuffix : rest <:+ input)
    (h : phase.Opens direction limits input rest) :
    next.phase.Opens direction limits input next.rest := by
  cases hmove with
  | started hline hread =>
      obtain ⟨text, mark, later, hdrop, htext, hmark, rfl, hle⟩ := Line.scan_found_front hline
      obtain ⟨before, rfl⟩ := hsuffix
      rw [Line.bytes_ofText hdrop] at hread
      rw [List.drop_zero] at hdrop
      refine ⟨.start 0 _, text, ?_, by omega⟩
      simp only [Step.proceed]
      rw [@Line.drop_ofText 0 _ _ _ _ hdrop]
      exact hdrop ▸ .intro htext hmark hread
  | headerIncomplete hread =>
      obtain ⟨htaken, hline⟩ := h
      exact ⟨(htaken.incomplete (congrArg Prod.snd hread)).1, hline⟩
  | bodiless hread hhead hlength hempty => exact opens_afterMessage _ _
  | fixedEnds hdata hnext hremaining => exact opens_afterMessage _ _
  | trailerEnds hread => exact opens_afterMessage _ _
  | _ => trivial

/-- A step that reports a head closes its header block. -/
theorem Move.of_head {phase : Phase} {buffer : Bytes} {next : Step} {head : Head}
    (hmove : Move direction limits phase buffer next) (hhead : .head head ∈ next.events) :
    ∃ first fields block more closed charged,
      phase = .header first fields block ∧
      block.read limits.header limits.strict buffer = (more, .complete closed charged) ∧
      head = { startLine := first, fields := fields.append more } ∧
      next.rest = buffer.drop closed ∧
      ∀ body, next.phase = .chunkSize body → body.charged = charged := by
  cases hmove with
  | @bodiless _ _ _ _ _ _ _ opening _ hread hopening hlength hempty =>
      obtain rfl : head = opening := by simpa [Step.proceed] using hhead
      refine ⟨_, _, _, _, _, _, rfl, hread, hopening, rfl, ?_⟩
      intro body hbody
      simp only [Step.proceed] at hbody
      cases hover : head.handsOver direction <;> rw [hover] at hbody <;> cases hbody
  | fixedBody hread hopening hlength hpos =>
      obtain rfl : head = _ := by simpa [Step.proceed] using hhead
      refine ⟨_, _, _, _, _, _, rfl, hread, hopening, rfl, ?_⟩
      intro body hbody
      cases hbody
  | chunkedBody hread hopening hlength hlimits =>
      obtain rfl : head = _ := by simpa [Step.proceed] using hhead
      refine ⟨_, _, _, _, _, _, rfl, hread, hopening, rfl, ?_⟩
      rintro _ ⟨⟩
      rfl
  | openBody hread hopening hlength =>
      obtain rfl : head = _ := by simpa [Step.proceed] using hhead
      refine ⟨_, _, _, _, _, _, rfl, hread, hopening, rfl, ?_⟩
      intro body hbody
      cases hbody
  | _ => simp [Step.proceed, Step.wait, Step.refuse, Event.refusedHead, Event.refusedContent]
      at hhead

end Phase

theorem Walk.opens {rest : Bytes} {record : List Entry} {phase : Phase}
    (h : Walk direction limits input record phase rest) :
    phase.Opens direction limits input rest := by
  induction h with
  | start => trivial
  | receive walk bytes ih => exact ih.append bytes
  | forget walk ih => trivial
  | step walk ih => exact (Phase.step_move _ _ _ _).opens walk.suffix ih
  | ended walk hclose ih => exact ih
  | closed walk hclose hrest ih => trivial

/-- A head that a step reports stands in the input, up to what has not been read. -/
theorem Walk.stands {rest : Bytes} {record : List Entry} {phase : Phase}
    (walk : Walk direction limits input record phase rest) {next : Step} {head : Head}
    (hmove : Phase.Move direction limits phase rest next) (hhead : .head head ∈ next.events) :
    ∃ line block, line.length ≤ limits.line ∧
      head.Stands direction limits input (input.length - next.rest.length) line block ∧
      ∀ body, next.phase = .chunkSize body → body.charged = weight block := by
  obtain ⟨first, fields, block, more, closed, charged, rfl, hread, rfl, hrest, hbody⟩ :=
    hmove.of_head hhead
  obtain ⟨htaken, line, hbegins, hle⟩ := walk.opens
  have hresumes := walk.recalls.2
  have hdrop := List.suffix_iff_eq_drop.1 (hmove.suffix.trans walk.suffix)
  have hall := hresumes []
  simp only [List.append_nil, hread] at hall
  have hagrees : FieldBlock.Agrees limits 0 rest block := by
    intro more
    rw [hresumes more]
  obtain ⟨hcloses, hcharged⟩ := htaken.closes hagrees (congrArg Prod.snd hread)
  refine ⟨line, rest.take closed, hle, ⟨Nat.sub_le _ _, ?_, ?_, ?_⟩, ?_⟩
  · rw [← hdrop, hrest, List.take_append_drop]
    exact hbegins
  · rw [← hdrop, hrest]
    exact hcloses
  · rw [← hdrop, hrest, List.take_append_drop, hall]
    rfl
  · intro body hphase
    rw [hbody body hphase, hcharged, Nat.zero_add]

/-! ## Chunks in an input -/

/-- How far the chunks of a body go that begins with `start`. `lines` are the size lines on the way;
the last of them gave the size that the place holds, and its chunk comes next, or a size line does if
there is no size. -/
inductive Chunked.Reaches (start : Bytes) : List Bytes → Option Nat → Bytes → Prop
  | start : Reaches start [] none start
  | line {lines : List Bytes} {line mark rest : Bytes} {size : Nat}
      (h : Reaches start lines none (line ++ (mark ++ rest)))
      (htext : ∀ b ∈ line, isLineEnd b = false) (hmark : Line.EndMark mark rest)
      (hsize : Chunked.readSize line = .ok size) : Reaches start (lines ++ [line]) (some size) rest
  /-- The data of a chunk, and the rest of the line on which they end. -/
  | chunk {lines : List Bytes} {data junk rest : Bytes}
      (h : Reaches start lines (some data.length) (data ++ (junk ++ lf :: rest)))
      (hdata : data ≠ []) (hjunk : ∀ b ∈ junk, b ≠ lf) : Reaches start lines none rest

theorem Chunked.Reaches.append {start rest : Bytes} {lines : List Bytes} {place : Option Nat}
    (h : Reaches start lines place rest) (more : Bytes) :
    Reaches (start ++ more) lines place (rest ++ more) := by
  induction h with
  | start => exact .start
  | line h htext hmark hsize ih =>
      simp only [List.append_assoc] at ih
      exact .line ih htext (hmark.append more) hsize
  | chunk h hdata hjunk ih =>
      simp only [List.append_assoc, List.cons_append] at ih
      exact .chunk ih hdata hjunk

/-- A size line that is found leads on to its chunk. -/
theorem Chunked.Reaches.found {start buffer : Bytes} {lines : List Bytes} {limit size : Nat}
    {line : Line} (h : Reaches start lines none buffer)
    (hline : Line.scan limit 0 buffer 0 = .found line)
    (hsize : Chunked.readSize (line.bytes buffer) = .ok size) :
    ∃ text, text.length ≤ limit ∧
      Reaches start (lines ++ [text]) (some size) (buffer.drop line.next) := by
  obtain ⟨text, mark, later, hdrop, htext, hmark, rfl, hle⟩ := Line.scan_found_front hline
  rw [Line.bytes_ofText hdrop] at hsize
  rw [Line.drop_ofText hdrop]
  rw [List.drop_zero] at hdrop
  rw [hdrop] at h
  exact ⟨text, by omega, .line h htext hmark hsize⟩

namespace Phase

/-- A phase inside a body of some length that begins with `start`, after a header block that weighs
`base`. Among chunks, the phase stands where they have led to, and was charged for the blocks. -/
def Inside (limits : Limits) (base : Nat) (length : BodyLength) (start : Bytes) :
    Phase → Bytes → Prop
  | fixed _ _ _, _ => length ≠ .chunked
  | untilClose, _ => length ≠ .chunked
  | chunkSize body, rest => body.charged = base ∧ ∃ lines, Chunked.Reaches start lines none rest ∧
      ∀ line ∈ lines, line.length ≤ limits.line
  | chunkData body remaining, rest => body.charged = base ∧ ∃ lines data,
      Chunked.Reaches start lines (some (data.length + remaining)) (data ++ rest) ∧
      ∀ line ∈ lines, line.length ≤ limits.line
  | chunkEnd body, rest => body.charged = base ∧ ∃ lines data junk,
      Chunked.Reaches start lines (some data.length) (data ++ (junk ++ rest)) ∧
      data ≠ [] ∧ (∀ b ∈ junk, b ≠ lf) ∧ ∀ line ∈ lines, line.length ≤ limits.line
  | trailer _ _ block, rest =>
      FieldBlock.Taken base rest block ∧ FieldBlock.Agrees limits base rest block ∧
      ∃ lines, Chunked.Reaches start lines (some 0) rest ∧
        ∀ line ∈ lines, line.length ≤ limits.line
  | idle, _ => False
  | startLine, _ => False
  | header _ _ _, _ => False
  | refused, _ => False
  | raw, _ => False

theorem Inside.append {base : Nat} {length : BodyLength} {start rest : Bytes} {phase : Phase}
    (h : phase.Inside limits base length start rest) (more : Bytes) :
    phase.Inside limits base length (start ++ more) (rest ++ more) := by
  cases phase with
  | fixed _ _ _ => exact h
  | untilClose => exact h
  | chunkSize body =>
      obtain ⟨hcharged, lines, hreaches, hlines⟩ := h
      exact ⟨hcharged, lines, hreaches.append more, hlines⟩
  | chunkData body remaining =>
      obtain ⟨hcharged, lines, data, hreaches, hlines⟩ := h
      refine ⟨hcharged, lines, data, ?_, hlines⟩
      rw [← List.append_assoc]
      exact hreaches.append more
  | chunkEnd body =>
      obtain ⟨hcharged, lines, data, junk, hreaches, hdata, hjunk, hlines⟩ := h
      refine ⟨hcharged, lines, data, junk, ?_, hdata, hjunk, hlines⟩
      rw [← List.append_assoc junk, ← List.append_assoc data]
      exact hreaches.append more
  | trailer switches fields block =>
      obtain ⟨htaken, hagrees, lines, hreaches, hlines⟩ := h
      exact ⟨htaken.append more, hagrees.append more, lines, hreaches.append more, hlines⟩
  | idle => exact h
  | startLine => exact h
  | header _ _ _ => exact h
  | refused => exact h
  | raw => exact h

end Phase

/-! ## What the reports of a message say about its weight -/

/-- Whether an event ends a message. -/
def Event.finishes : Event → Bool
  | last _ => true
  | failure _ _ => true
  | head _ => false
  | body _ => false
  | raw _ => false

/-- What a report says about the weight of an open message, whose header block weighs `base` and ends
at the position `read` of the input. A chunked body that is complete keeps to the ceilings, and one
that is refused for its weight does not. -/
def Event.Accounts (limits : Limits) (base : Nat) (length : BodyLength) (input : Bytes)
    (read read' : Nat) : Event → Prop
  | last _ => length = .chunked → ∃ lines trailer,
      Chunked.Reaches (input.drop read) lines (some 0) (trailer ++ input.drop read') ∧
      (∀ line ∈ lines, line.length ≤ limits.line) ∧
      FieldBlock.Closes limits base trailer (input.drop read')
  | failure cause _ => ∀ limit, cause = .headerTooLong limit → limit = limits.header ∧
      ∃ lines rest, Chunked.Reaches ((input.take read').drop read) lines (some 0) rest ∧
        limits.header < base + weight (FieldBlock.extent rest)
  | head _ => True
  | body _ => True
  | raw _ => True

theorem Event.Accounts.append {base read read' : Nat} {length : BodyLength} {event : Event}
    (h : event.Accounts limits base length input read read') (hread : read ≤ input.length)
    (hread' : read' ≤ input.length) (more : Bytes) :
    event.Accounts limits base length (input ++ more) read read' := by
  cases event with
  | last ending =>
      intro hchunked
      obtain ⟨lines, trailer, hreaches, hlines, hcloses⟩ := h hchunked
      refine ⟨lines, trailer, ?_, hlines, ?_⟩
      · rw [List.drop_append_of_le_length hread, List.drop_append_of_le_length hread',
          ← List.append_assoc]
        exact hreaches.append more
      · rw [List.drop_append_of_le_length hread']
        exact hcloses.append more
  | failure cause spoiled =>
      intro limit hcause
      rw [List.take_append_of_le_length hread']
      exact h limit hcause
  | head head => trivial
  | body data => trivial
  | raw data => trivial

namespace Phase

/-- What a step inside a body leaves: its reports account for the weight, and the phase is inside the
body unless the message ends. -/
structure Carries (limits : Limits) (base : Nat) (length : BodyLength) (input : Bytes) (read : Nat)
    (next : Step) : Prop where
  accounts : ∀ event ∈ next.events,
    event.Accounts limits base length input read (input.length - next.rest.length)
  inside : next.phase.Inside limits base length (input.drop read) next.rest ∨
    ∃ event, next.events = [event] ∧ event.finishes = true

section Carries

variable {base read remaining : Nat} {length : BodyLength} {start rest data : Bytes}
  {body : ChunkedBody}

/-- A step that stays inside a body and reports no more than a piece of it. -/
theorem Inside.carries {next : Step}
    (hevents : next.events = [] ∨ ∃ data, next.events = [.body data])
    (h : next.phase.Inside limits base length (input.drop read) next.rest) :
    Carries limits base length input read next := by
  refine ⟨?_, .inl h⟩
  intro event hevent
  rcases hevents with hevents | ⟨data, hevents⟩
  · rw [hevents] at hevent
    cases hevent
  · rw [hevents] at hevent
    rw [List.mem_singleton.1 hevent]
    trivial

theorem carries_of_finishes {next : Step} {event : Event} (hevents : next.events = [event])
    (hends : event.finishes = true)
    (h : event.Accounts limits base length input read (input.length - next.rest.length)) :
    Carries limits base length input read next := by
  refine ⟨?_, .inr ⟨event, hevents, hends⟩⟩
  intro event' hevent
  rw [hevents] at hevent
  rw [List.mem_singleton.1 hevent]
  exact h

theorem Inside.sizeLine {size : Nat} {line : Line}
    (h : (chunkSize body).Inside limits base length start rest)
    (hline : Line.scan limits.line 0 rest 0 = .found line)
    (hsize : Chunked.readSize (line.bytes rest) = .ok size) :
    body.charged = base ∧ ∃ lines,
      Chunked.Reaches start lines (some size) (rest.drop line.next) ∧
      ∀ line ∈ lines, line.length ≤ limits.line := by
  obtain ⟨hcharged, lines, hreaches, hlines⟩ := h
  obtain ⟨text, hle, hreaches⟩ := hreaches.found hline hsize
  exact ⟨hcharged, _, hreaches,
    List.forall_mem_append.2 ⟨hlines, List.forall_mem_singleton.2 hle⟩⟩

theorem Inside.piece
    (h : (chunkData body remaining).Inside limits base length start (data ++ rest))
    (hle : data.length ≤ remaining) :
    (chunkData body (remaining - data.length)).Inside limits base length start rest := by
  obtain ⟨hcharged, lines, earlier, hreaches, hlines⟩ := h
  refine ⟨hcharged, lines, earlier ++ data, ?_, hlines⟩
  have hlength : (earlier ++ data).length + (remaining - data.length) =
      earlier.length + remaining := by
    rw [List.length_append]
    omega
  rw [hlength, List.append_assoc]
  exact hreaches

/-- A chunk of which nothing is left to come ends, if it has bytes. -/
theorem Inside.lastPiece
    (h : (chunkData body data.length).Inside limits base length start (data ++ rest))
    (hdata : data ≠ []) : (chunkEnd body).Inside limits base length start rest := by
  obtain ⟨hcharged, lines, earlier, hreaches, hlines⟩ := h
  refine ⟨hcharged, lines, earlier ++ data, [], ?_, ?_, nofun, hlines⟩
  · rw [List.length_append, List.nil_append, List.append_assoc]
    exact hreaches
  · exact fun hnil => hdata (List.append_eq_nil_iff.1 hnil).2

theorem Inside.junk {junk : Bytes}
    (h : (chunkEnd body).Inside limits base length start (junk ++ rest))
    (hjunk : ∀ b ∈ junk, b ≠ lf) : (chunkEnd body).Inside limits base length start rest := by
  obtain ⟨hcharged, lines, data, earlier, hreaches, hdata, hearlier, hlines⟩ := h
  refine ⟨hcharged, lines, data, earlier ++ junk, ?_, hdata, ?_, hlines⟩
  · rw [List.append_assoc]
    exact hreaches
  · exact List.forall_mem_append.2 ⟨hearlier, hjunk⟩

theorem Inside.lineEnd (h : (chunkEnd body).Inside limits base length start (lf :: rest)) :
    (chunkSize body).Inside limits base length start rest := by
  obtain ⟨hcharged, lines, data, junk, hreaches, hdata, hjunk, hlines⟩ := h
  exact ⟨hcharged, lines, .chunk hreaches hdata hjunk, hlines⟩

section Trailer

variable {switches : Bool} {fields : Fields} {block : FieldBlock}

theorem Inside.trailerRefused {cause : Fault}
    (h : (trailer switches fields block).Inside limits base length (input.drop read) rest)
    (hread : (block.read limits.header limits.strict rest).2 = .refused cause) :
    (Event.refusedContent cause).Accounts limits base length input read input.length := by
  obtain ⟨htaken, -, lines, hreaches, -⟩ := h
  rintro limit rfl
  obtain ⟨hlimit, hweight⟩ := htaken.tooLong hread
  refine ⟨hlimit, lines, rest, ?_, hweight⟩
  rw [List.take_length]
  exact hreaches

theorem Inside.trailerEnds {closed charged : Nat} {ending : Ending}
    (h : (trailer switches fields block).Inside limits base length (input.drop read) rest)
    (hsuffix : rest <:+ input)
    (hread : (block.read limits.header limits.strict rest).2 = .complete closed charged) :
    (Event.last ending).Accounts limits base length input read
      (input.length - (rest.drop closed).length) := by
  obtain ⟨htaken, hagrees, lines, hreaches, hlines⟩ := h
  intro _
  have hdrop := List.suffix_iff_eq_drop.1 ((List.drop_suffix closed rest).trans hsuffix)
  have hcloses := (htaken.closes hagrees hread).1
  rw [← hdrop]
  refine ⟨lines, rest.take closed, ?_, hlines, hcloses⟩
  rw [List.take_append_drop]
  exact hreaches

end Trailer

/-- A step inside a body accounts for the weight in what it reports, and stays inside the body unless
the message ends. -/
theorem Move.accounts {phase : Phase} {next : Step}
    (hmove : Move direction limits phase rest next) (hsound : phase.Sound rest)
    (hsuffix : rest <:+ input) (h : phase.Inside limits base length (input.drop read) rest) :
    Carries limits base length input read next := by
  cases hmove with
  | fixedWaits hdata => exact Inside.carries (.inl rfl) h
  | fixedEnds hdata hnext hremaining =>
      exact carries_of_finishes rfl rfl fun hchunked => absurd hchunked h
  | fixedPiece hdata hnext hremaining => exact Inside.carries (.inr ⟨_, rfl⟩) h
  | openWaits hdata => exact Inside.carries (.inl rfl) h
  | openPiece hdata hnext => exact Inside.carries (.inr ⟨_, rfl⟩) h
  | sizeIncomplete hline => exact Inside.carries (.inl rfl) h
  | sizeTooLong hline => exact carries_of_finishes rfl rfl nofun
  | sizeRefused hline hsize =>
      refine carries_of_finishes rfl rfl ?_
      rintro limit rfl
      cases Chunked.inText_of_readSize hsize
  | lastChunk hline hsize =>
      obtain ⟨rfl, hlines⟩ := h.sizeLine hline hsize
      exact Inside.carries (.inl rfl) ⟨.start _ _, fun more => rfl, hlines⟩
  | chunk hline hsize hpos =>
      obtain ⟨hcharged, lines, hreaches, hlines⟩ := h.sizeLine hline hsize
      refine Inside.carries (.inl rfl) ⟨hcharged, lines, [], ?_, hlines⟩
      rw [List.length_nil, Nat.zero_add]
      exact hreaches
  | dataWaits hdata => exact Inside.carries (.inl rfl) h
  | dataEnds hdata hnext hremaining =>
      subst hremaining
      exact Inside.carries (.inr ⟨_, rfl⟩) (h.lastPiece hdata)
  | dataPiece hdata hnext hremaining =>
      exact Inside.carries (.inr ⟨_, rfl⟩) (h.piece (Nat.le_of_lt hremaining))
  | @endIncomplete body _ hjunk =>
      rw [← List.append_nil rest] at h
      exact Inside.carries (.inl rfl) (h.junk hjunk)
  | chunkEnds hjunk => exact Inside.carries (.inl rfl) (h.junk hjunk).lineEnd
  | trailerIncomplete hread =>
      obtain ⟨htaken, hagrees, hlines⟩ := h
      exact Inside.carries (.inl rfl) ⟨(htaken.incomplete (congrArg Prod.snd hread)).1,
        hagrees.incomplete hsound hread, hlines⟩
  | trailerRefused hread =>
      exact carries_of_finishes rfl rfl (h.trailerRefused (congrArg Prod.snd hread))
  | trailerEnds hread =>
      exact carries_of_finishes rfl rfl (h.trailerEnds hsuffix (congrArg Prod.snd hread))
  | _ => exact h.elim

end Carries

end Phase

/-- A step that reports a head enters the body that follows from it, unless the body is complete
with the same step. -/
theorem Phase.Move.enters {base : Nat} {phase : Phase} {rest : Bytes} {next : Step} {head : Head}
    (hmove : Move direction limits phase rest next) (hhead : .head head ∈ next.events)
    (hbase : ∀ body, next.phase = .chunkSize body → body.charged = base) :
    ∃ length, BodyLength.select direction head = .ok length ∧
      ((next.events = [.head head] ∧ next.phase.Inside limits base length next.rest next.rest) ∨
        (next.events = [.head head, .last {}] ∧ length ≠ .chunked)) := by
  cases hmove with
  | @bodiless _ _ _ _ _ _ _ opening length hread hopening hlength hempty =>
      obtain rfl : head = opening := by simpa [Step.proceed] using hhead
      refine ⟨length, hlength, .inr ⟨rfl, ?_⟩⟩
      rcases hempty with rfl | rfl <;> exact BodyLength.noConfusion
  | fixedBody hread hopening hlength hpos =>
      obtain rfl : head = _ := by simpa [Step.proceed] using hhead
      exact ⟨_, hlength, .inl ⟨rfl, BodyLength.noConfusion⟩⟩
  | chunkedBody hread hopening hlength hlimits =>
      obtain rfl : head = _ := by simpa [Step.proceed] using hhead
      have hnone : ∀ line ∈ ([] : List Bytes), line.length ≤ limits.line :=
        List.forall_mem_nil _
      exact ⟨_, hlength, .inl ⟨rfl, hbase _ rfl, [], .start, hnone⟩⟩
  | openBody hread hopening hlength =>
      obtain rfl : head = _ := by simpa [Step.proceed] using hhead
      exact ⟨_, hlength, .inl ⟨rfl, BodyLength.noConfusion⟩⟩
  | _ => simp [Step.proceed, Step.wait, Step.refuse, Event.refusedHead, Event.refusedContent]
      at hhead

/-! ## Messages of a walk -/

theorem Course.take_finishes {course : Course} {event : Event} (h : event.finishes = true)
    (read : Nat) : (course.take (.report read event)).outcome ≠ .unfinished := by
  intro hunfinished
  by_cases hcourse : course.outcome = .unfinished
  · cases event with
    | last ending =>
        rw [take_last hcourse] at hunfinished
        cases hunfinished
    | failure cause spoiled =>
        rw [take_failure hcourse] at hunfinished
        cases hunfinished
    | head head => cases h
    | body data => cases h
    | raw data => cases h
  · rw [take_of_finished hcourse] at hunfinished
    exact hcourse hunfinished

theorem Course.unfinished_of_append {entries more : List Entry}
    (h : (follow (entries ++ more)).outcome = .unfinished) :
    (follow entries).outcome = .unfinished := by
  by_cases hentries : (follow entries).outcome = .unfinished
  · exact hentries
  · rw [follow_append, foldl_take_of_finished hentries] at h
    exact absurd h hentries

/-- What holds of a message after its head, which ends at the position `read` of the input with a
header block that weighs `base`: an open message is where the reader is, and each of its reports
accounts for its weight. -/
structure Weighed (limits : Limits) (base : Nat) (length : BodyLength) (input : Bytes) (read : Nat)
    (phase : Phase) (rest : Bytes) (later : List Entry) : Prop where
  inside : (Course.follow later).outcome = .unfinished →
    phase.Inside limits base length (input.drop read) rest
  accounts : ∀ middle read' event more, later = middle ++ .report read' event :: more →
    (Course.follow middle).outcome = .unfinished →
      read' ≤ input.length ∧ event.Accounts limits base length input read read'

namespace Weighed

variable {base read : Nat} {length : BodyLength} {phase : Phase} {rest : Bytes}
  {later : List Entry}

theorem append (h : Weighed limits base length input read phase rest later)
    (hread : read ≤ input.length) (more : Bytes) :
    Weighed limits base length (input ++ more) read phase (rest ++ more) later := by
  refine ⟨?_, ?_⟩
  · intro hunfinished
    rw [List.drop_append_of_le_length hread]
    exact (h.inside hunfinished).append more
  · intro middle read' event entries hlater hunfinished
    obtain ⟨hle, haccounts⟩ := h.accounts middle read' event entries hlater hunfinished
    refine ⟨?_, haccounts.append hread hle more⟩
    rw [List.length_append]
    exact Nat.le_trans hle (Nat.le_add_right _ _)

/-- More entries of a message, each of which accounts for the weight. -/
theorem extend (h : Weighed limits base length input read phase rest later) {phase' : Phase}
    {rest' : Bytes} {new : List Entry}
    (hinside : (Course.follow (later ++ new)).outcome = .unfinished →
      phase'.Inside limits base length (input.drop read) rest')
    (hnew : (Course.follow later).outcome = .unfinished → ∀ read' event,
      .report read' event ∈ new →
        read' ≤ input.length ∧ event.Accounts limits base length input read read') :
    Weighed limits base length input read phase' rest' (later ++ new) := by
  refine ⟨hinside, ?_⟩
  intro middle read' event more hlater hunfinished
  rcases append_eq_append_cons hlater with ⟨between, hold, -⟩ | ⟨between, hmiddle, hentries⟩
  · exact h.accounts middle read' event between hold hunfinished
  · rw [hmiddle] at hunfinished
    refine hnew (Course.unfinished_of_append hunfinished) read' event ?_
    rw [hentries]
    exact List.mem_append_right between List.mem_cons_self

theorem step {next : Step} (h : Weighed limits base length input read phase rest later)
    (hmove : Phase.Move direction limits phase rest next) (hsound : phase.Sound rest)
    (hsuffix : rest <:+ input) :
    Weighed limits base length input read next.phase next.rest
      (later ++ next.events.map (.report (input.length - next.rest.length))) := by
  refine h.extend ?_ ?_
  · intro hunfinished
    have hopen := Course.unfinished_of_append hunfinished
    rcases (hmove.accounts hsound hsuffix (h.inside hopen)).inside with hinside | ⟨event, hevents, hends⟩
    · exact hinside
    · rw [hevents, Course.follow_append] at hunfinished
      exact absurd hunfinished (Course.take_finishes hends _)
  · intro hopen read' event hevent
    obtain ⟨event', hmem, heq⟩ := List.mem_map.1 hevent
    cases heq
    exact ⟨Nat.sub_le _ _, (hmove.accounts hsound hsuffix (h.inside hopen)).accounts _ hmem⟩

theorem closed {event : Event} (h : Weighed limits base length input read phase rest later)
    (hclose : phase.atClose = some event) :
    Weighed limits base length input read .idle rest
      (later ++ [.ended input.length, .report (input.length - rest.length) event]) := by
  have hevent : (Course.follow later).outcome = .unfinished →
      event.finishes = true ∧ ∀ read', event.Accounts limits base length input read read' := by
    intro hopen
    have hinside := h.inside hopen
    cases phase with
    | fixed _ _ _ =>
        cases hclose
        exact ⟨rfl, fun _ => nofun⟩
    | untilClose =>
        cases hclose
        exact ⟨rfl, fun _ hchunked => absurd hchunked hinside⟩
    | chunkSize body =>
        cases hclose
        exact ⟨rfl, fun _ => nofun⟩
    | chunkData body remaining =>
        cases hclose
        exact ⟨rfl, fun _ => nofun⟩
    | chunkEnd body =>
        cases hclose
        exact ⟨rfl, fun _ => nofun⟩
    | trailer _ _ _ =>
        cases hclose
        exact ⟨rfl, fun _ => nofun⟩
    | idle => exact hinside.elim
    | startLine => exact hinside.elim
    | header _ _ _ => exact hinside.elim
    | refused => exact hinside.elim
    | raw => exact hinside.elim
  refine h.extend ?_ ?_
  · intro hunfinished
    have hends := (hevent (Course.unfinished_of_append hunfinished)).1
    rw [Course.follow_append, List.foldl_cons, List.foldl_cons, List.foldl_nil] at hunfinished
    exact absurd hunfinished (Course.take_finishes hends _)
  · intro hopen read' event' hmem
    simp only [List.mem_cons, reduceCtorEq, List.not_mem_nil, or_false, false_or,
      Entry.report.injEq] at hmem
    obtain ⟨rfl, rfl⟩ := hmem
    exact ⟨Nat.sub_le _ _, (hevent hopen).2 _⟩

theorem opened {next : Step} {head : Head} {before : List Entry}
    (hmove : Phase.Move direction limits phase rest next) (hsuffix : rest <:+ input)
    (hentries : next.events.map (.report (input.length - next.rest.length)) =
      before ++ .report read (.head head) :: later)
    (hbase : ∀ body, next.phase = .chunkSize body → body.charged = base) :
    ∃ length, BodyLength.select direction head = .ok length ∧
      Weighed limits base length input read next.phase next.rest later := by
  obtain ⟨hevent, rfl⟩ := Framed.mem_of_map_report hentries
  obtain ⟨length, hselect, ⟨hevents, hinside⟩ | ⟨hevents, hlength⟩⟩ := hmove.enters hevent hbase
  · rw [hevents] at hentries
    obtain ⟨-, -, rfl⟩ := Framed.cons_eq_append_cons hentries List.not_mem_nil
    refine ⟨length, hselect, fun _ => ?_, fun _ _ _ _ hnil => absurd hnil (by simp)⟩
    rw [← List.suffix_iff_eq_drop.1 (hmove.suffix.trans hsuffix)]
    exact hinside
  · -- the end of the message comes with its head
    rw [hevents] at hentries
    obtain ⟨-, -, rfl⟩ := Framed.cons_eq_append_cons hentries (by simp)
    refine ⟨length, hselect, nofun, ?_⟩
    intro middle read' event more hlater _
    obtain ⟨hmem, rfl⟩ := @Framed.mem_of_map_report [.last {}] _ _ _ _ _ hlater
    rw [List.mem_singleton.1 hmem]
    exact ⟨Nat.sub_le _ _, fun hchunked => absurd hchunked hlength⟩

end Weighed

/-- Every head of a walk stands in the input, within the ceilings, and the reports that follow it
account for the weight of its message. -/
theorem Walk.weighed {rest : Bytes} {record : List Entry} {phase : Phase}
    (h : Walk direction limits input record phase rest) {before later : List Entry} {read : Nat}
    {head : Head} (hrecord : record = before ++ .report read (.head head) :: later) :
    ∃ line block length, line.length ≤ limits.line ∧
      head.Stands direction limits input read line block ∧
      BodyLength.select direction head = .ok length ∧
      Weighed limits (weight block) length input read phase rest later := by
  -- the head is in the record already, or it is reported by the move that the walk ends with
  induction h generalizing later with
  | start => exact absurd hrecord (by simp)
  | receive walk bytes ih =>
      obtain ⟨line, block, length, hline, hstands, hselect, hweighed⟩ := ih hrecord
      exact ⟨line, block, length, hline, hstands.append bytes, hselect,
        hweighed.append hstands.read_le bytes⟩
  | forget walk ih =>
      rcases append_eq_append_cons hrecord with ⟨middle, hold, rfl⟩ | ⟨middle, -, hnew⟩
      · obtain ⟨line, block, length, hline, hstands, hselect, hweighed⟩ := ih hold
        refine ⟨line, block, length, hline, hstands, hselect, hweighed.extend ?_ ?_⟩
        · intro hunfinished
          have hopen := Course.unfinished_of_append hunfinished
          rw [Course.follow_append, List.foldl_cons, List.foldl_nil, Course.take_forgotten hopen]
            at hunfinished
          cases hunfinished
        · exact fun _ read' event hmem => absurd hmem (by simp)
      · exact absurd (congrArg (.report read (.head head) ∈ ·) hnew) (by simp)
  | @step input rest record phase walk ih =>
      have hmove := Phase.step_move direction limits phase rest
      rcases append_eq_append_cons hrecord with ⟨middle, hold, rfl⟩ | ⟨middle, -, hnew⟩
      · obtain ⟨line, block, length, hline, hstands, hselect, hweighed⟩ := ih hold
        exact ⟨line, block, length, hline, hstands, hselect,
          hweighed.step hmove walk.sound walk.suffix⟩
      · obtain ⟨hevent, rfl⟩ := Framed.mem_of_map_report hnew
        obtain ⟨line, block, hline, hstands, hbase⟩ := walk.stands hmove hevent
        obtain ⟨length, hselect, hweighed⟩ := Weighed.opened hmove walk.suffix hnew hbase
        exact ⟨line, block, length, hline, hstands, hselect, hweighed⟩
  | @ended input rest record phase walk hclose ih =>
      rcases append_eq_append_cons hrecord with ⟨middle, hold, rfl⟩ | ⟨middle, -, hnew⟩
      · obtain ⟨line, block, length, hline, hstands, hselect, hweighed⟩ := ih hold
        refine ⟨line, block, length, hline, hstands, hselect, hweighed.extend ?_ ?_⟩
        · exact fun hunfinished => hweighed.inside (Course.unfinished_of_append hunfinished)
        · exact fun _ read' event hmem => absurd hmem (by simp)
      · exact absurd (congrArg (.report read (.head head) ∈ ·) hnew) (by simp)
  | @closed input rest record phase event walk hclose hrest ih =>
      rcases append_eq_append_cons hrecord with ⟨middle, hold, rfl⟩ | ⟨middle, -, hnew⟩
      · obtain ⟨line, block, length, hline, hstands, hselect, hweighed⟩ := ih hold
        exact ⟨line, block, length, hline, hstands, hselect, hweighed.closed hclose⟩
      · have hmem : Entry.report read (.head head) ∈
            [Entry.ended input.length, .report (input.length - rest.length) event] := by
          rw [hnew]
          exact List.mem_append_right middle List.mem_cons_self
        simp only [List.mem_cons, reduceCtorEq, List.not_mem_nil, or_false, false_or,
          Entry.report.injEq] at hmem
        rw [← hmem.2] at hclose
        exact absurd hclose (Phase.atClose_ne_head phase head)

/-- A report of a walk was made by a move that a part of the walk leads to. The record of that part
holds what was reported before, apart from other reports of the same move. -/
theorem Walk.reported_at {rest : Bytes} {record : List Entry} {phase : Phase}
    (h : Walk direction limits input record phase rest) {front back : List Entry} {read : Nat}
    {event : Event} (hrecord : record = front ++ .report read event :: back) :
    ∃ input' record' phase' rest', input' <+: input ∧
      Walk direction limits input' record' phase' rest' ∧
      ((∃ earlier later,
          (Phase.step direction limits phase' rest').events = earlier ++ event :: later ∧
          read = input'.length - (Phase.step direction limits phase' rest').rest.length ∧
          front = record' ++ earlier.map (.report read)) ∨
        phase'.atClose = some event ∧ front = record' ++ [.ended input'.length]) := by
  induction h generalizing back with
  | start => exact absurd hrecord (by simp)
  | receive walk bytes ih =>
      obtain ⟨input', record', phase', rest', hinput, hreported⟩ := ih hrecord
      exact ⟨input', record', phase', rest', hinput.trans (List.prefix_append _ _), hreported⟩
  | forget walk ih =>
      rcases append_eq_append_cons hrecord with ⟨middle, hold, -⟩ | ⟨middle, -, hnew⟩
      · exact ih hold
      · exact absurd (congrArg (.report read event ∈ ·) hnew) (by simp)
  | @step input rest record phase walk ih =>
      rcases append_eq_append_cons hrecord with ⟨middle, hold, -⟩ | ⟨middle, rfl, hnew⟩
      · exact ih hold
      · obtain ⟨earlier, others, hevents, rfl, hothers⟩ := List.map_eq_append_iff.1 hnew
        obtain ⟨event', later, rfl, hevent, -⟩ := List.map_eq_cons_iff.1 hothers
        cases hevent
        exact ⟨input, record, phase, rest, List.prefix_refl _, walk,
          .inl ⟨earlier, later, hevents, rfl, rfl⟩⟩
  | ended walk hclose ih =>
      rcases append_eq_append_cons hrecord with ⟨middle, hold, -⟩ | ⟨middle, -, hnew⟩
      · exact ih hold
      · exact absurd (congrArg (.report read event ∈ ·) hnew) (by simp)
  | @closed input rest record phase event' walk hclose hrest ih =>
      rcases append_eq_append_cons hrecord with ⟨middle, hold, -⟩ | ⟨middle, rfl, hnew⟩
      · exact ih hold
      · obtain ⟨rfl, hreport, -⟩ : middle = [.ended input.length] ∧
            Entry.report (input.length - rest.length) event' = .report read event ∧ back = [] := by
          cases middle with
          | nil => cases hnew
          | cons entry middle =>
              cases middle with
              | nil =>
                  cases hnew
                  exact ⟨rfl, rfl, rfl⟩
              | cons _ _ => simp at hnew
        cases hreport
        exact ⟨input, record, phase, rest, List.prefix_refl _, walk, .inr ⟨hclose, rfl⟩⟩

theorem Walk.reported {rest : Bytes} {record : List Entry} {phase : Phase}
    (h : Walk direction limits input record phase rest) {read : Nat} {event : Event}
    (hmem : .report read event ∈ record) :
    ∃ input' record' phase' rest', input' <+: input ∧
      Walk direction limits input' record' phase' rest' ∧
      ((event ∈ (Phase.step direction limits phase' rest').events ∧
          read = input'.length - (Phase.step direction limits phase' rest').rest.length) ∨
        phase'.atClose = some event) := by
  obtain ⟨front, back, hrecord⟩ := List.append_of_mem hmem
  obtain ⟨input', record', phase', rest', hinput, walk, ⟨earlier, later, hevents, hread, -⟩ |
    ⟨hclose, -⟩⟩ := h.reported_at hrecord
  · refine ⟨input', record', phase', rest', hinput, walk, .inl ⟨?_, hread⟩⟩
    rw [hevents]
    exact List.mem_append_right _ List.mem_cons_self
  · exact ⟨input', record', phase', rest', hinput, walk, .inr hclose⟩

/-- Every event of a new connection, however it is used, comes with one of its moves. -/
theorem Connection.exists_move_of_event {new : Connection} (hstart : start direction limits = .ok new)
    (calls : List Call) {event : Event} (hevent : event ∈ new.events calls) :
    ∃ input record phase rest, Walk direction limits input record phase rest ∧
      (event ∈ (Phase.step direction limits phase rest).events ∨ phase.atClose = some event) := by
  rw [← events_record new 0 calls] at hevent
  obtain ⟨entry, hentry, hreport⟩ := List.mem_filterMap.1 hevent
  cases entry with
  | report read reported =>
      cases hreport
      obtain ⟨input, record, phase, rest, -, walk, ⟨hstep, -⟩ | hclose⟩ :=
        (start_walk hstart calls).reported hentry
      · exact ⟨input, record, phase, rest, walk, .inl hstep⟩
      · exact ⟨input, record, phase, rest, walk, .inr hclose⟩
  | _ => cases hreport

/-- A head that is refused for its weight stands behind its start line, and its header block weighs
more than the ceiling, as far as it has arrived. -/
theorem Walk.overweight_head {rest : Bytes} {record : List Entry} {phase : Phase}
    (h : Walk direction limits input record phase rest) {read limit : Nat} {head : Head}
    (hmem : .report read (.failure (.headerTooLong limit) (.head head)) ∈ record) :
    limit = limits.header ∧ ∃ line tail, head.startLine.Begins direction (input.take read) line tail ∧
      limits.header < weight (FieldBlock.extent tail) := by
  obtain ⟨input', record', phase', rest', ⟨more, rfl⟩, walk, ⟨hevent, rfl⟩ | hclose⟩ :=
    h.reported hmem
  · have hmove := Phase.step_move direction limits phase' rest'
    have hopens := walk.opens
    generalize Phase.step direction limits phase' rest' = next at hmove hevent
    cases hmove with
    | headerRefused hread =>
        simp only [Step.refuse, Event.refusedHead, List.mem_singleton, Event.failure.injEq,
          Spoiled.head.injEq] at hevent
        obtain ⟨rfl, rfl⟩ := hevent
        obtain ⟨htaken, line, hbegins, -⟩ := hopens
        obtain ⟨hlimit, hweight⟩ := htaken.tooLong (congrArg Prod.snd hread)
        refine ⟨hlimit, line, rest', ?_, by omega⟩
        simp only [Step.refuse, List.length_nil, Nat.sub_zero, List.take_left]
        exact hbegins
    | startRefused hline hread =>
        simp only [Step.refuse, Event.refusedHead, List.mem_singleton, Event.failure.injEq] at hevent
        rw [← hevent.1] at hread
        cases StartLine.inText_of_read hread
    | unframed hread hhead hlength =>
        simp only [Step.refuse, Event.refusedHead, List.mem_singleton, Event.failure.injEq] at hevent
        rw [← hevent.1] at hlength
        cases BodyLength.inText_of_select hlength
    | _ => simp [Step.proceed, Step.wait, Step.refuse, Event.refusedHead, Event.refusedContent]
        at hevent
  · cases phase' <;> cases hclose

/-! ## Messages and their ceilings -/

/-- A body of chunks that is complete at the position `read'`, within the ceilings, behind a header block
that ends at the position `read`. -/
def Chunked.WithinCeilings (limits : Limits) (input : Bytes) (read read' : Nat) (header : Bytes) :
    Prop :=
  ∃ sizes trailer, Chunked.Reaches (input.drop read) sizes (some 0) (trailer ++ input.drop read') ∧
    FieldBlock.extent (trailer ++ input.drop read') = trailer ∧
    (∀ line ∈ sizes, line.length ≤ limits.line) ∧
    weight header + weight trailer ≤ limits.header

/-- A trailer block that, as far as it stands before the position `read'`, weighs more than the header
block has left of their ceiling. -/
def Chunked.OverCeiling (limits : Limits) (input : Bytes) (read read' : Nat) (header : Bytes) :
    Prop :=
  ∃ sizes rest, Chunked.Reaches ((input.take read').drop read) sizes (some 0) rest ∧
    limits.header < weight header + weight (FieldBlock.extent rest)

/-- A head that was reported, with the entries of the record after it: it stands in the input within the
ceilings, and what is reported of its message agrees with the weight of the message. -/
structure Head.KeepsCeilings (head : Head) (direction : Direction) (limits : Limits) (input : Bytes)
    (read : Nat) (later : List Entry) (line header : Bytes) : Prop where
  stands : head.Stands direction limits input read line header
  line_le : line.length ≤ limits.line
  weight_le : weight header ≤ limits.header
  complete : ∀ middle read' ending more, later = middle ++ .report read' (.last ending) :: more →
    (Course.follow middle).outcome = .unfinished →
    BodyLength.select direction head = .ok .chunked →
    Chunked.WithinCeilings limits input read read' header
  tooLong : ∀ middle read' limit spoiled more,
    later = middle ++ .report read' (.failure (.headerTooLong limit) spoiled) :: more →
    (Course.follow middle).outcome = .unfinished →
    limit = limits.header ∧ Chunked.OverCeiling limits input read read' header

theorem Walk.keepsCeilings {rest : Bytes} {record : List Entry} {phase : Phase}
    (h : Walk direction limits input record phase rest) {before later : List Entry} {read : Nat}
    {head : Head} (hrecord : record = before ++ .report read (.head head) :: later) :
    ∃ line header, head.KeepsCeilings direction limits input read later line header := by
  obtain ⟨line, header, length, hline, hstands, hselect, hweighed⟩ := h.weighed hrecord
  refine ⟨line, header, hstands, hline, ?_, ?_, ?_⟩
  · exact Nat.le_trans (Nat.le_add_left _ 0) hstands.closes.le
  · intro middle read' ending more hlater hunfinished hchunked
    obtain ⟨-, haccounts⟩ := hweighed.accounts middle read' _ more hlater hunfinished
    cases hselect.symm.trans hchunked
    obtain ⟨sizes, trailer, hreaches, hsizes, hcloses⟩ := haccounts rfl
    exact ⟨sizes, trailer, hreaches, hcloses.extent_eq, hsizes, hcloses.le⟩
  · intro middle read' limit spoiled more hlater hunfinished
    obtain ⟨-, haccounts⟩ := hweighed.accounts middle read' _ more hlater hunfinished
    exact haccounts limit rfl

/-- What is refused as too heavy: a header block that weighs more than the ceiling in what had been read,
or the body of a message that is open in the record. -/
inductive RefusedAsHeavy (direction : Direction) (limits : Limits) (input : Bytes)
    (before : List Entry) (read limit : Nat) : Spoiled → Prop
  | header {head : Head} {line tail : Bytes} (hlimit : limit = limits.header)
      (hbegins : head.startLine.Begins direction (input.take read) line tail)
      (hweight : limits.header < weight (FieldBlock.extent tail)) :
      RefusedAsHeavy direction limits input before read limit (.head head)
  | content {ending : Ending} {front middle : List Entry} {opened : Nat} {head : Head}
      (hbefore : before = front ++ .report opened (.head head) :: middle)
      (hunfinished : (Course.follow middle).outcome = .unfinished) :
      RefusedAsHeavy direction limits input before read limit (.content ending)

theorem Walk.refusedAsHeavy {rest : Bytes} {record : List Entry} {phase : Phase}
    (h : Walk direction limits input record phase rest) {before later : List Entry}
    {read limit : Nat} {spoiled : Spoiled}
    (hrecord : record = before ++ .report read (.failure (.headerTooLong limit) spoiled) :: later) :
    RefusedAsHeavy direction limits input before read limit spoiled := by
  cases spoiled with
  | head head =>
      have hmem : .report read (.failure (.headerTooLong limit) (.head head)) ∈ record := by
        rw [hrecord]
        exact List.mem_append_right before List.mem_cons_self
      obtain ⟨hlimit, line, tail, hbegins, hweight⟩ := h.overweight_head hmem
      exact .header hlimit hbegins hweight
  | content ending =>
      obtain ⟨here, there, hbefore, haccepts, -⟩ := Stage.run_split (hrecord ▸ h.follows)
      cases haccepts with
      | refusedContent hverdict =>
          obtain ⟨front, opened, head, middle, hfront, -, hunfinished⟩ :=
            Stage.run_idle_reaches hbefore
          exact .content hfront hunfinished

/-- An open message whose header block is `header`. The chunks of its body lead to a trailer block that
begins with `rest`. -/
def InTrailer (direction : Direction) (limits : Limits) (input : Bytes) (record : List Entry)
    (header rest : Bytes) : Prop :=
  ∃ before read head middle line sizes,
    record = before ++ .report read (.head head) :: middle ∧
    (Course.follow middle).outcome = .unfinished ∧
    head.Stands direction limits input read line header ∧
    Chunked.Reaches (input.drop read) sizes (some 0) rest

theorem InTrailer.weight_le {record : List Entry} {header rest : Bytes}
    (h : InTrailer direction limits input record header rest) : weight header ≤ input.length := by
  obtain ⟨before, read, head, middle, line, sizes, -, -, hstands, -⟩ := h
  exact hstands.weight_le

/-- Where a trailer block is open, so is a message. -/
theorem Walk.inTrailer {rest : Bytes} {record : List Entry} {switches : Bool} {fields : Fields}
    {block : FieldBlock}
    (walk : Walk direction limits input record (.trailer switches fields block) rest) :
    ∃ header, InTrailer direction limits input record header rest ∧
      weight header ≤ limits.header ∧ FieldBlock.Agrees limits (weight header) rest block := by
  obtain ⟨before, read, head, middle, hrecord, -, hunfinished⟩ :=
    Stage.run_idle_reaches walk.follows
  obtain ⟨line, header, length, -, hstands, -, hweighed⟩ := walk.weighed hrecord
  obtain ⟨-, hagrees, sizes, hreaches, -⟩ := hweighed.inside hunfinished
  exact ⟨header,
    ⟨before, read, head, middle, line, sizes, hrecord, hunfinished, hstands, hreaches⟩,
    Nat.le_trans (Nat.le_add_left _ 0) hstands.closes.le, hagrees⟩

/-! ## Connections that are refused -/

namespace Connection

/-- Whatever pieces the bytes come in, at least one, their reports are the given events up to the size
of pieces. -/
def Gives (connection : Connection) (bytes : Bytes) (events : List Event) : Prop :=
  ∀ (first : Bytes) (pieces : List Bytes), (first :: pieces).flatten = bytes →
    Event.merge (connection.events ((first :: pieces).map .push)) = Event.merge events

/-- Whatever pieces the bytes come in, at least one, their reports are the given events up to the size
of pieces, and nothing is reported any more as long as the message is not forgotten. -/
def EndsWith (connection : Connection) (bytes : Bytes) (events : List Event) : Prop :=
  ∀ (first : Bytes) (pieces : List Bytes), (first :: pieces).flatten = bytes →
    Event.merge (connection.events ((first :: pieces).map .push)) = Event.merge events ∧
    ∀ later : List Call, .requestReset ∉ later →
      (connection.after ((first :: pieces).map .push)).events later = []

/-- A connection that `front` and `more` come to, in whatever pieces, refuses its message with an event
behind what `front` gives. -/
def RefusesWith (connection : Connection) (front more : Bytes) (event : Event) : Prop :=
  connection.EndsWith (front ++ more) ((connection.push front).2 ++ [event])

/-- After a refusal nothing is reported until the message is forgotten. -/
theorem events_of_refused {connection : Connection} (hphase : connection.reader.phase = .refused)
    (hreset : connection.reader.resetRequested = false) {later : List Call}
    (hlater : .requestReset ∉ later) : connection.events later = [] := by
  induction later generalizing connection with
  | nil => rfl
  | cons call later ih =>
      rw [List.mem_cons, not_or] at hlater
      have hcurrent : connection.reader.currentPhase = .refused := by
        rw [Reader.currentPhase, hreset, if_neg Bool.false_ne_true, hphase]
      have hrun : ∀ bytes, Phase.run connection.reader.direction connection.reader.limits .refused
          bytes = ⟨.refused, [], []⟩ := fun bytes => Phase.run_of_wait Phase.Move.dropped.step_eq
      have hfeed : ∀ bytes, connection.reader.feed bytes =
          ⟨{ connection.reader with phase := .refused, resetRequested := false }, [], []⟩ := by
        intro bytes
        simp only [Reader.feed, hcurrent, hrun]
      have hcall : (connection.call call).2 = [] ∧
          (connection.call call).1.reader.phase = .refused ∧
          (connection.call call).1.reader.resetRequested = false := by
        cases call with
        | push bytes => simp only [Connection.call, push, hfeed, and_self]
        | receive bytes => exact ⟨rfl, hphase, hreset⟩
        | close => simp [Connection.call, close, Reader.close, hfeed, Phase.atClose]
        | requestReset => exact absurd rfl hlater.1
        | declineBody =>
            have hdecline : connection.declineBody = connection := by
              simp only [declineBody, Reader.declineBody, hphase, Phase.canDeclineBody,
                Bool.false_eq_true, if_false]
            rw [Connection.call, hdecline]
            exact ⟨rfl, hphase, hreset⟩
      obtain ⟨hevents, hphase', hreset'⟩ := hcall
      rw [events, hevents, ih hphase' hreset' hlater.2]
      rfl

/-- Bytes in pieces give what the first of them give in one piece, and then the run through the
others. -/
theorem gives_push {connection : Connection} (hsound : connection.Sound) (front more : Bytes) :
    let here := (connection.push front).1
    connection.Gives (front ++ more) ((connection.push front).2 ++
      (here.phase.run connection.reader.direction connection.reader.limits
        (here.buffer ++ more)).events) := by
  intro here first pieces hpieces
  obtain ⟨-, hevents⟩ := push_pieces hsound first pieces
  obtain ⟨-, hreports⟩ := push_append hsound front more
  rw [hpieces, ← hreports] at hevents
  -- the first call has cleared any request to forget the message
  exact hevents

/-- A connection whose next run would refuse its message ends with that. -/
theorem refusesWith_of_run {connection : Connection} (hsound : connection.Sound) (front more : Bytes)
    {event : Event}
    (hrun : (connection.push front).1.phase.run connection.reader.direction
      connection.reader.limits ((connection.push front).1.buffer ++ more) = ⟨.refused, [], [event]⟩) :
    connection.RefusesWith front more event := by
  intro first pieces hpieces
  have hgives := gives_push hsound front more first pieces hpieces
  obtain ⟨hafter, -⟩ := push_pieces hsound first pieces
  obtain ⟨hstate, -⟩ := push_append hsound front more
  rw [hrun] at hgives
  rw [hpieces] at hafter
  refine ⟨hgives, ?_⟩
  intro later hlater
  rw [hafter, ← hstate]
  have hphase : ((connection.push front).1.push more).1.reader.phase = .refused :=
    congrArg Phase.Run.phase hrun
  exact events_of_refused hphase rfl hlater

end Connection

namespace Phase

theorem run_refused_header {first : StartLine} {fields : Fields} {block : FieldBlock}
    {buffer : Bytes} {all : List Field} {cause : Fault}
    (hresumes : block.Resumes limits buffer fields.toList)
    (hread : FieldBlock.read limits.header limits.strict buffer {} = (all, .refused cause)) :
    run direction limits (.header first fields block) buffer =
      ⟨.refused, [], [.refusedHead { startLine := first, fields := ⟨all⟩ } cause]⟩ := by
  have hall := hresumes []
  rw [List.append_nil, hread, Prod.mk.injEq] at hall
  rw [run_of_refuse (Move.headerRefused (Prod.ext rfl hall.2.symm)).step_eq, hall.1]
  rfl

theorem run_refused_trailer {base : Nat} {switches : Bool} {fields : Fields} {block : FieldBlock}
    {buffer : Bytes} {all : List Field} {cause : Fault}
    (hagrees : FieldBlock.Agrees limits base buffer block)
    (hread : FieldBlock.read limits.header limits.strict buffer { charged := base } =
      (all, .refused cause)) :
    run direction limits (.trailer switches fields block) buffer =
      ⟨.refused, [], [.refusedContent cause]⟩ := by
  have hall := hagrees []
  rw [List.append_nil, hread] at hall
  exact run_of_refuse (Move.trailerRefused (Prod.ext rfl hall.symm)).step_eq

/-- A header block that weighs more than the ceiling is refused with the byte that passes it. -/
theorem run_overweight_header {first : StartLine} {fields : Fields} {block : FieldBlock}
    {rest more : Bytes} (hresumes : block.Resumes limits rest fields.toList)
    (hweight : limits.header < weight (FieldBlock.extent (rest ++ more))) :
    ∃ upTo, FieldBlock.PassesAt limits.header 0 (rest ++ more) upTo ∧
      run direction limits (.header first fields block) (rest ++ more) =
        ⟨.refused, [], [.refusedHead
          { startLine := first, fields := ⟨(FieldBlock.readFreely limits.strict upTo).1⟩ }
          (FieldBlock.overrun limits upTo)]⟩ := by
  obtain ⟨upTo, hpasses, hread⟩ := FieldBlock.read_over limits (Nat.zero_le _)
    (Nat.lt_of_lt_of_eq hweight (Nat.zero_add _).symm)
  exact ⟨upTo, hpasses, run_refused_header (hresumes.append more) hread⟩

theorem run_overweight_trailer {base : Nat} {switches : Bool} {fields : Fields}
    {block : FieldBlock} {rest more : Bytes} (hbase : base ≤ limits.header)
    (hagrees : FieldBlock.Agrees limits base rest block)
    (hweight : limits.header < base + weight (FieldBlock.extent (rest ++ more))) :
    ∃ upTo, FieldBlock.PassesAt limits.header base (rest ++ more) upTo ∧
      run direction limits (.trailer switches fields block) (rest ++ more) =
        ⟨.refused, [], [.refusedContent (FieldBlock.overrun limits upTo)]⟩ := by
  obtain ⟨upTo, hpasses, hread⟩ := FieldBlock.read_over limits hbase hweight
  exact ⟨upTo, hpasses, run_refused_trailer (hagrees.append more) hread⟩

/-- Between messages, a line that begins after padding and is too long is refused. -/
theorem run_longLine_idle {padding text after : Bytes}
    (hpadding : ∀ b ∈ padding, isPadding b = true) (hhead : ∀ b ∈ text.head?, isPadding b = false)
    (htext : ∀ b ∈ text, isLineEnd b = false) (hlimit : limits.line < text.length) :
    run direction limits .idle (padding ++ (text ++ after)) =
      ⟨.refused, [], [.refusedHead (.placeholder direction) (.lineTooLong limits.line)]⟩ := by
  have hlong : Line.scan limits.line 0 (text ++ after) 0 = .tooLong :=
    Line.scan_of_lt htext (by omega) List.drop_zero
  cases text with
  | nil => cases hlimit
  | cons b text =>
      rw [List.cons_append,
        run_of_proceed (Move.beginning hpadding (hhead b rfl)).step_eq,
        ← List.cons_append, run_of_refuse (Move.startTooLong hlong).step_eq]
      rfl

end Phase

namespace Connection

variable {new : Connection}

/-- A connection that would refuse its message, given the bytes `more`, ends with that wherever the
bytes up to them are cut. -/
theorem refusesWith_after (hstart : start direction limits = .ok new) (earlier : List Call)
    (front more : Bytes) {event : Event}
    (hrun : (new.after (earlier ++ [.push front])).phase.run direction limits
      ((new.after (earlier ++ [.push front])).buffer ++ more) = ⟨.refused, [], [event]⟩) :
    (new.after earlier).RefusesWith front more event := by
  have hsound : (new.after earlier).Sound := (start_walk hstart earlier).sound
  refine refusesWith_of_run hsound front more ?_
  obtain ⟨hdirection, hlimits⟩ := start_reader hstart earlier
  rw [after_append] at hrun
  rw [hdirection, hlimits]
  exact hrun

/-- Bytes that come after a history, cut in any place, give what a run through them gives. -/
theorem gives_after (hstart : start direction limits = .ok new) (earlier : List Call)
    (front more : Bytes) :
    let here := new.after (earlier ++ [.push front])
    (new.after earlier).Gives (front ++ more) (((new.after earlier).push front).2 ++
      (here.phase.run direction limits (here.buffer ++ more)).events) := by
  have hgives := gives_push (start_walk hstart earlier).sound front more
  obtain ⟨hdirection, hlimits⟩ := start_reader hstart earlier
  rw [hdirection, hlimits] at hgives
  rw [after_append]
  exact hgives

/-- What becomes of a message that goes over a ceiling with the bytes `more`, where a connection stands
after a record and an input. A text without line ends that is too long is refused where a start line or a
size line is expected, and a header or trailer block that is too heavy with the byte that passes the
ceiling. `Ends` says that the refusal ends the message. -/
structure RefusesOver (direction : Direction) (limits : Limits) (here : Connection)
    (record : List Entry) (input more : Bytes) (Ends : Event → Prop) : Prop where
  idle : here.phase = .idle → ∀ padding text after, here.buffer ++ more = padding ++ (text ++ after) →
    (∀ b ∈ padding, isPadding b = true) → (∀ b ∈ text.head?, isPadding b = false) →
    (∀ b ∈ text, isLineEnd b = false) → limits.line < text.length →
    Ends (.refusedHead (.placeholder direction) (.lineTooLong limits.line))
  startLine : here.phase = .startLine → ∀ text after, here.buffer ++ more = text ++ after →
    (∀ b ∈ text, isLineEnd b = false) → limits.line < text.length →
    Ends (.refusedHead (.placeholder direction) (.lineTooLong limits.line))
  sizeLine : ∀ body, here.phase = .chunkSize body → ∀ text after, here.buffer ++ more = text ++ after →
    (∀ b ∈ text, isLineEnd b = false) → limits.line < text.length →
    Ends (.refusedContent (.lineTooLong limits.line))
  header : ∀ first fields block, here.phase = .header first fields block →
    (∃ line, first.Begins direction input line here.buffer) ∧
    (limits.header < weight (FieldBlock.extent (here.buffer ++ more)) →
      ∃ upTo, FieldBlock.PassesAt limits.header 0 (here.buffer ++ more) upTo ∧
        Ends (.refusedHead
          { startLine := first, fields := ⟨(FieldBlock.readFreely limits.strict upTo).1⟩ }
          (FieldBlock.overrun limits upTo)))
  trailer : ∀ switches fields block, here.phase = .trailer switches fields block →
    ∃ header, InTrailer direction limits input record header here.buffer ∧
      (limits.header < weight header + weight (FieldBlock.extent (here.buffer ++ more)) →
        ∃ upTo, FieldBlock.PassesAt limits.header (weight header) (here.buffer ++ more) upTo ∧
          Ends (.refusedContent (FieldBlock.overrun limits upTo)))

theorem refusesOver_after (hstart : start direction limits = .ok new) (earlier : List Call)
    (front more : Bytes) :
    RefusesOver direction limits (new.after (earlier ++ [.push front]))
      (new.record 0 (earlier ++ [.push front])) ((earlier ++ [Call.push front]).flatMap Call.bytes)
      more ((new.after earlier).RefusesWith front more) := by
  have hwalk := start_walk hstart (earlier ++ [.push front])
  have hends := fun event => @refusesWith_after _ _ _ hstart earlier front more event
  generalize new.after (earlier ++ [.push front]) = here at hwalk hends ⊢
  have hscan : ∀ {text after : Bytes}, (∀ b ∈ text, isLineEnd b = false) →
      limits.line < text.length → Line.scan limits.line 0 (text ++ after) 0 = .tooLong :=
    fun htext hlimit => Line.scan_of_lt htext (Nat.lt_of_lt_of_le hlimit (Nat.le_add_left _ 0))
      List.drop_zero
  constructor
  case idle =>
    intro hphase padding text after hbytes hpadding hhead htext hlimit
    apply hends
    rw [hphase, hbytes]
    exact Phase.run_longLine_idle hpadding hhead htext hlimit
  case startLine =>
    intro hphase text after hbytes htext hlimit
    apply hends
    rw [hphase, hbytes]
    exact Phase.run_of_refuse (Phase.Move.startTooLong (hscan htext hlimit)).step_eq
  case sizeLine =>
    intro body hphase text after hbytes htext hlimit
    apply hends
    rw [hphase, hbytes]
    exact Phase.run_of_refuse (Phase.Move.sizeTooLong (hscan htext hlimit)).step_eq
  case header =>
    intro first fields block hphase
    rw [hphase] at hwalk
    obtain ⟨-, line, hbegins, -⟩ := hwalk.opens
    refine ⟨⟨line, hbegins⟩, fun hweight => ?_⟩
    obtain ⟨upTo, hpasses, hrun⟩ := Phase.run_overweight_header hwalk.recalls.2 hweight
    rw [← hphase] at hrun
    exact ⟨upTo, hpasses, hends _ hrun⟩
  case trailer =>
    intro switches fields block hphase
    rw [hphase] at hwalk
    obtain ⟨header, hin, hle, hagrees⟩ := hwalk.inTrailer
    refine ⟨header, hin, fun hweight => ?_⟩
    obtain ⟨upTo, hpasses, hrun⟩ := Phase.run_overweight_trailer hle hagrees hweight
    rw [← hphase] at hrun
    exact ⟨upTo, hpasses, hends _ hrun⟩

/-- The ceilings are enforced exactly, whatever is called in whatever order, and however the bytes
are cut.

Of every message whose head is reported, the start line and the header block stand in the input and
keep to their ceilings. If its body is chunked and complete, so do its size lines, and its header and
trailer blocks weigh no more than the ceiling together. A message is refused as too heavy only if its
header block, or its header and trailer blocks together, weigh more than the ceiling in what has
arrived by then.

Conversely, a text without line ends that is longer than the ceiling is refused where a start line
or a size line is expected; and a header or trailer block that weighs too much is refused with the
byte that passes the ceiling, for its weight or for a field that was at fault before that byte. The
refusal is then the last report, whatever pieces the bytes come in. -/
theorem ceilings_exact (hstart : start direction limits = .ok new) :
    (∀ (calls : List Call) before read head later,
      new.record 0 calls = before ++ .report read (.head head) :: later →
      ∃ line header,
        head.KeepsCeilings direction limits (calls.flatMap Call.bytes) read later line header) ∧
    (∀ (calls : List Call) before read limit spoiled later,
      new.record 0 calls = before ++ .report read (.failure (.headerTooLong limit) spoiled) :: later →
      RefusedAsHeavy direction limits (calls.flatMap Call.bytes) before read limit spoiled) ∧
    (∀ upTo : Bytes,
      ((∀ cause, (FieldBlock.readFreely limits.strict upTo).2 ≠ .refused cause) ∧
        FieldBlock.overrun limits upTo = .headerTooLong limits.header) ∨
      ∃ cause, (FieldBlock.readFreely limits.strict upTo).2 = .refused cause ∧
        cause.inText = true ∧ FieldBlock.overrun limits upTo = cause) ∧
    ∀ (earlier : List Call) (front more : Bytes),
      RefusesOver direction limits (new.after (earlier ++ [.push front]))
        (new.record 0 (earlier ++ [.push front]))
        ((earlier ++ [Call.push front]).flatMap Call.bytes) more
        ((new.after earlier).RefusesWith front more) := by
  refine ⟨?_, ?_, FieldBlock.overrun_cases limits, refusesOver_after hstart⟩
  · intro calls before read head later hrecord
    exact (start_walk hstart calls).keepsCeilings hrecord
  · intro calls before read limit spoiled later hrecord
    exact (start_walk hstart calls).refusedAsHeavy hrecord

/-- A message whose header and trailer blocks weigh 26 and 6 bytes goes up to the ceiling of 32. A
start line and a size line of 16 bytes are refused, and so is a header block of 33. -/
theorem ceilings_exact_at_the_limit :
    let limits : Limits := { line := 15, header := 32 }
    let new : Connection := { reader := ⟨.request, limits, by decide, .idle, false⟩ }
    let opening := toBytes "POST / HTTP/1.1\r\nTransfer-Encoding: chunked\r\n\r\n"
    let calls : List Call := [.push (opening ++ toBytes "0\r\nabc: d\r\n\r\n")]
    let head : Head := { startLine := .request "POST" "/" .http11,
                         fields := ⟨[⟨"Transfer-Encoding", "chunked"⟩]⟩ }
    let first : StartLine := .request "GET" "/" .http10
    let heavy := toBytes "aaaaaaaaaaaaaaaa:bbbbbbbbbbbbbbbb"
    start .request limits = .ok new ∧
      new.record 0 calls =
        .report 47 (.head head) :: [.report 60 (.last { trailers := ⟨[⟨"abc", "d"⟩]⟩ })] ∧
      (∃ line block lines trailer, head.Stands .request limits (calls.flatMap Call.bytes) 47 line block ∧
        Chunked.Reaches ((calls.flatMap Call.bytes).drop 47) lines (some 0)
          (trailer ++ (calls.flatMap Call.bytes).drop 60) ∧
        line.length ≤ 15 ∧ (∀ line ∈ lines, line.length ≤ 15) ∧
        weight block + weight trailer ≤ 32) ∧
      new.EndsWith ([lf] ++ toBytes " POST /a HTTP/1.1")
        [.refusedHead (.placeholder .request) (.lineTooLong 15)] ∧
      new.EndsWith (opening ++ toBytes "0000000000000001")
        [.head head, .refusedContent (.lineTooLong 15)] ∧
      ∃ upTo, FieldBlock.PassesAt 32 0 heavy upTo ∧
        new.EndsWith (toBytes "GET / HTTP/1.0\n" ++ heavy)
          [.refusedHead
            { startLine := first, fields := ⟨(FieldBlock.readFreely true upTo).1⟩ }
            (FieldBlock.overrun limits upTo)] := by
  intro limits new opening calls head first heavy
  have hstart : start .request limits = .ok new := rfl
  obtain ⟨hheads, -, -, hrefused⟩ := ceilings_exact hstart
  have hrecord : new.record 0 calls = [] ++ .report 47 (.head head) ::
      ([] ++ .report 60 (.last { trailers := ⟨[⟨"abc", "d"⟩]⟩ }) :: []) := by decide +kernel
  obtain ⟨line, block, hkeeps⟩ := hheads calls [] 47 head _ hrecord
  obtain ⟨lines, trailer, hreaches, -, hlines, hweight⟩ :=
    hkeeps.complete [] 60 _ [] rfl rfl rfl
  have hquiet : (new.push [lf]).2 = [] := by decide +kernel
  have hopened : (new.push opening).2 = [.head head] := by decide +kernel
  have hbegun : (new.push (toBytes "GET / HTTP/1.0\n")).2 = [] ∧
      (new.push (toBytes "GET / HTTP/1.0\n")).1.buffer = [] := by decide +kernel
  have hstarts := (hrefused [] [lf] (toBytes " POST /a HTTP/1.1")).idle (by decide +kernel) [sp]
    (toBytes "POST /a HTTP/1.1") [] (by decide +kernel) (by decide +kernel) (by decide +kernel)
    (by decide +kernel) (by decide +kernel)
  have hsizes := (hrefused [] opening (toBytes "0000000000000001")).sizeLine ⟨26, false⟩
    (by decide +kernel) (toBytes "0000000000000001") [] (by decide +kernel) (by decide +kernel)
    (by decide +kernel)
  obtain ⟨upTo, hpasses, hends⟩ := ((hrefused [] (toBytes "GET / HTTP/1.0\n") heavy).header first {}
    {} (by decide +kernel)).2 (by decide +kernel)
  simp only [RefusesWith, after, hquiet, List.nil_append] at hstarts
  simp only [RefusesWith, after, hopened] at hsizes
  simp only [RefusesWith, after, hbegun.1, List.nil_append] at hends
  refine ⟨hstart, hrecord, ⟨line, block, lines, trailer, hkeeps.stands, hreaches, hkeeps.line_le, hlines,
    hweight⟩, hstarts, hsizes, upTo, ?_, hends⟩
  rw [← List.nil_append heavy, ← hbegun.2]
  exact hpasses

end Connection

end HttpWire
