import HttpWire.Proofs.History

/-!
# The bodies of messages

Where the body of a message ends is decided by its head, and by nothing else: `BodyLength.select`
says how far the body extends, and what is reported after the head keeps to it. The course of a
message is followed along the record, and is compared with the bytes of the whole input.

- `Course.follow`: what has been reported of a message since its head.
- `Course.Obeys`: what a body length asks of that.
- `Walk.framed`: the invariant, for every head of a record.
- `Connection.bodies_framed`: every message of a new connection is framed as its head says, and a
  head from which no accepted length follows is refused.
-/

set_option autoImplicit false

namespace HttpWire

/-! ## The course of a message -/

/-- How a message stands. -/
inductive Course.Outcome where
  /-- More of the message is to come. -/
  | unfinished
  /-- Its end has been reported. -/
  | complete
  /-- It was refused or forgotten. -/
  | broken
  deriving Repr, DecidableEq

/-- What has been reported of a message since its head. -/
structure Course where
  /-- The bytes of the body. -/
  data : Bytes := []
  /-- The fields after the body. -/
  trailers : Fields := {}
  /-- How many bytes had arrived when the connection ended, if it ended during the message. -/
  ended : Option Nat := none
  outcome : Course.Outcome := .unfinished
  deriving Repr, DecidableEq

namespace Course

/-- The course after an entry of the record. A message that is finished is not changed by what
comes after it. -/
def take (course : Course) (entry : Entry) : Course :=
  match course.outcome, entry with
  | .unfinished, .ended arrived => { course with ended := some arrived }
  | .unfinished, .report _ (.body data) => { course with data := course.data ++ data }
  | .unfinished, .report _ (.last ending) =>
      { course with
        data := course.data ++ ending.data, trailers := ending.trailers, outcome := .complete }
  | .unfinished, _ => { course with outcome := .broken }
  | _, _ => course

/-- The course of a message along the entries after its head. -/
def follow (entries : List Entry) : Course :=
  entries.foldl take {}

/-- What a body length asks of the course of a message whose head ended after `read` bytes of the
input. -/
def Obeys (input : Bytes) (read : Nat) (course : Course) : BodyLength → Prop
  | .empty => course.outcome = .complete ∧ course.data = [] ∧ course.trailers = {}
  | .fixed length =>
      course.data <+: input.drop read ∧ course.data.length ≤ length ∧
        (course.outcome = .complete ↔ course.data.length = length) ∧ course.trailers = {}
  | .chunked => True
  | .untilClose =>
      course.data <+: input.drop read ∧ course.trailers = {} ∧
        (course.outcome = .complete → ∃ arrived ≤ input.length, course.ended = some arrived ∧
          course.data = (input.take arrived).drop read)

variable {course : Course}

theorem take_of_finished (h : course.outcome ≠ .unfinished) (entry : Entry) :
    course.take entry = course := by
  cases houtcome : course.outcome with
  | unfinished => exact absurd houtcome h
  | complete => simp only [take, houtcome]
  | broken => simp only [take, houtcome]

theorem foldl_take_of_finished (h : course.outcome ≠ .unfinished) (entries : List Entry) :
    entries.foldl take course = course := by
  induction entries with
  | nil => rfl
  | cons entry entries ih => rw [List.foldl_cons, take_of_finished h, ih]

theorem follow_append (entries more : List Entry) :
    follow (entries ++ more) = more.foldl take (follow entries) := by
  rw [follow, List.foldl_append, follow]

theorem take_ended (h : course.outcome = .unfinished) (arrived : Nat) :
    course.take (.ended arrived) = { course with ended := some arrived } := by
  simp only [take, h]

theorem take_forgotten (h : course.outcome = .unfinished) :
    course.take .forgotten = { course with outcome := .broken } := by
  simp only [take, h]

theorem take_body (h : course.outcome = .unfinished) (read : Nat) (data : Bytes) :
    course.take (.report read (.body data)) = { course with data := course.data ++ data } := by
  simp only [take, h]

theorem take_last (h : course.outcome = .unfinished) (read : Nat) (ending : Ending) :
    course.take (.report read (.last ending)) =
      { course with
        data := course.data ++ ending.data
        trailers := ending.trailers
        outcome := .complete } := by
  simp only [take, h]

theorem take_failure (h : course.outcome = .unfinished) (read : Nat) (cause : Fault)
    (spoiled : Spoiled) :
    course.take (.report read (.failure cause spoiled)) = { course with outcome := .broken } := by
  simp only [take, h]

/-- What a length asks is still met when more bytes arrive. -/
theorem Obeys.append {input : Bytes} {read : Nat} {length : BodyLength}
    (h : course.Obeys input read length) (hread : read ≤ input.length) (bytes : Bytes) :
    course.Obeys (input ++ bytes) read length := by
  have hfront : input.drop read <+: (input ++ bytes).drop read := by
    rw [List.drop_append_of_le_length hread]
    exact List.prefix_append _ _
  cases length with
  | empty => exact h
  | fixed length => exact ⟨h.1.trans hfront, h.2⟩
  | chunked => trivial
  | untilClose =>
      obtain ⟨hdata, htrailers, hcomplete⟩ := h
      refine ⟨hdata.trans hfront, htrailers, ?_⟩
      intro houtcome
      obtain ⟨arrived, hle, hended, hall⟩ := hcomplete houtcome
      refine ⟨arrived, ?_, hended, ?_⟩
      · rw [List.length_append]
        omega
      · rw [List.take_append_of_le_length hle]
        exact hall

end Course

/-! ## Phases and courses -/

/-- How the phase of a reader, and the bytes that it has not read, stand to the course of an
unfinished message. -/
def Phase.Serves (phase : Phase) (rest input : Bytes) (read : Nat) (course : Course) :
    BodyLength → Prop
  | .empty => False
  | .fixed length =>
      (∃ switches, phase = .fixed length (length - course.data.length) switches) ∧
        course.data.length < length ∧ course.data ++ rest = input.drop read
  | .chunked => phase.bodyLength? = some .chunked
  | .untilClose =>
      phase = .untilClose ∧ course.ended = none ∧ course.data ++ rest = input.drop read

/-- A chunked body cannot be ended by its connection. -/
theorem Phase.atClose_of_chunked {phase : Phase} (h : phase.bodyLength? = some .chunked) :
    phase.atClose = some (.refusedContent (.prematureClosure .content)) := by
  cases phase with
  | chunkSize body => rfl
  | chunkData body remaining => rfl
  | chunkEnd body => rfl
  | trailer switches fields block => rfl
  | _ => cases h

/-- A message is framed as its head says. -/
structure Framed (direction : Direction) (limits : Limits) (input : Bytes) (phase : Phase)
    (rest : Bytes) (head : Head) (read : Nat) (course : Course) (length : BodyLength) :
    Prop where
  read_le : read ≤ input.length
  select : BodyLength.select direction head = .ok length
  supported : length = .chunked → limits.chunked = true
  obeys : course.Obeys input read length
  serves : course.outcome = .unfinished → phase.Serves rest input read course length

namespace Framed

variable {direction : Direction} {limits : Limits} {input rest : Bytes} {phase : Phase}
  {head : Head} {read : Nat} {course : Course} {length : BodyLength}

/-- A message that is finished stays as it is, wherever the reader goes. -/
theorem of_finished (h : Framed direction limits input phase rest head read course length)
    (hdone : course.outcome ≠ .unfinished) (phase' : Phase) (rest' : Bytes) :
    Framed direction limits input phase' rest' head read course length :=
  ⟨h.read_le, h.select, h.supported, h.obeys, fun houtcome => absurd houtcome hdone⟩

theorem obeys_broken (h : Framed direction limits input phase rest head read course length)
    (hunfinished : course.outcome = .unfinished) :
    Course.Obeys input read { course with outcome := .broken } length := by
  have hserves := h.serves hunfinished
  have hobeys := h.obeys
  cases length with
  | empty => exact hserves.elim
  | fixed length =>
      obtain ⟨hdata, hle, -, htrailers⟩ := hobeys
      refine ⟨hdata, hle, ?_, htrailers⟩
      have hlt := hserves.2.1
      simp only [reduceCtorEq, false_iff]
      omega
  | chunked => trivial
  | untilClose =>
      obtain ⟨hdata, htrailers, -⟩ := hobeys
      exact ⟨hdata, htrailers, nofun⟩

theorem broken (h : Framed direction limits input phase rest head read course length)
    (hunfinished : course.outcome = .unfinished) (phase' : Phase) (rest' : Bytes) :
    Framed direction limits input phase' rest' head read { course with outcome := .broken }
      length :=
  ⟨h.read_le, h.select, h.supported, h.obeys_broken hunfinished, nofun⟩

theorem append (h : Framed direction limits input phase rest head read course length)
    (bytes : Bytes) :
    Framed direction limits (input ++ bytes) phase (rest ++ bytes) head read course length := by
  refine ⟨?_, h.select, h.supported, h.obeys.append h.read_le bytes, ?_⟩
  · rw [List.length_append]
    exact Nat.le_trans h.read_le (Nat.le_add_right _ _)
  · intro hunfinished
    have hserves := h.serves hunfinished
    have hdrop : (input ++ bytes).drop read = input.drop read ++ bytes :=
      List.drop_append_of_le_length h.read_le
    cases length with
    | empty => exact hserves
    | fixed length =>
        obtain ⟨hphase, hlt, hsplit⟩ := hserves
        refine ⟨hphase, hlt, ?_⟩
        rw [hdrop, ← hsplit, List.append_assoc]
    | chunked => exact hserves
    | untilClose =>
        obtain ⟨hphase, hended, hsplit⟩ := hserves
        refine ⟨hphase, hended, ?_⟩
        rw [hdrop, ← hsplit, List.append_assoc]

/-- Data that are taken from what has not been read go on with the input after the head. -/
theorem prefix_of_split {data : Bytes} (hsplit : course.data ++ (data ++ rest) = input.drop read) :
    course.data ++ data <+: input.drop read := by
  rw [← hsplit, ← List.append_assoc]
  exact List.prefix_append _ _

theorem step_fixed {length : Nat} {next : Step}
    (h : Framed direction limits input phase rest head read course (.fixed length))
    (hunfinished : course.outcome = .unfinished)
    (hmove : Phase.Move direction limits phase rest next) (arrived : Nat) :
    Framed direction limits input next.phase next.rest head read
      ((next.events.map (.report arrived)).foldl Course.take course) (.fixed length) := by
  obtain ⟨⟨switches, rfl⟩, hlt, hsplit⟩ := h.serves hunfinished
  obtain ⟨-, -, -, htrailers⟩ := h.obeys
  cases hmove with
  | fixedWaits hdata => exact h
  | @fixedEnds _ _ _ data rest hdata hnext hremaining =>
      have hall : (course.data ++ data).length = length := by
        rw [List.length_append]
        omega
      have hfront := prefix_of_split hsplit
      simp only [Step.proceed, List.map_cons, List.map_nil, List.foldl_cons, List.foldl_nil,
        Course.take_last hunfinished]
      refine ⟨h.read_le, h.select, h.supported, ?_, ?_⟩
      · exact ⟨hfront, Nat.le_of_eq hall, ⟨fun _ => hall, fun _ => rfl⟩, rfl⟩
      · intro houtcome
        cases houtcome
  | @fixedPiece _ _ _ data rest hdata hnext hremaining =>
      have hlength : (course.data ++ data).length < length := by
        rw [List.length_append]
        omega
      have hfront := prefix_of_split hsplit
      simp only [Step.proceed, List.map_cons, List.map_nil, List.foldl_cons, List.foldl_nil,
        Course.take_body hunfinished]
      refine ⟨h.read_le, h.select, h.supported, ⟨hfront, Nat.le_of_lt hlength, ?_, htrailers⟩, ?_⟩
      · simp only [hunfinished, reduceCtorEq, false_iff]
        exact Nat.ne_of_lt hlength
      · intro _
        refine ⟨⟨switches, ?_⟩, hlength, ?_⟩
        · rw [List.length_append, Nat.sub_add_eq]
        · rw [List.append_assoc]
          exact hsplit

theorem step_untilClose {next : Step}
    (h : Framed direction limits input phase rest head read course .untilClose)
    (hunfinished : course.outcome = .unfinished)
    (hmove : Phase.Move direction limits phase rest next) (arrived : Nat) :
    Framed direction limits input next.phase next.rest head read
      ((next.events.map (.report arrived)).foldl Course.take course) .untilClose := by
  obtain ⟨rfl, hended, hsplit⟩ := h.serves hunfinished
  obtain ⟨-, htrailers, -⟩ := h.obeys
  cases hmove with
  | openWaits hdata => exact h
  | @openPiece data rest hdata hnext =>
      have hfront := prefix_of_split hsplit
      simp only [Step.proceed, List.map_cons, List.map_nil, List.foldl_cons, List.foldl_nil,
        Course.take_body hunfinished]
      refine ⟨h.read_le, h.select, h.supported, ⟨hfront, htrailers, ?_⟩, ?_⟩
      · intro houtcome
        rw [hunfinished] at houtcome
        cases houtcome
      · intro _
        refine ⟨rfl, hended, ?_⟩
        rw [List.append_assoc]
        exact hsplit

theorem step_chunked {next : Step}
    (h : Framed direction limits input phase rest head read course .chunked)
    (hunfinished : course.outcome = .unfinished)
    (hmove : Phase.Move direction limits phase rest next) (arrived : Nat) :
    Framed direction limits input next.phase next.rest head read
      ((next.events.map (.report arrived)).foldl Course.take course) .chunked := by
  have hphase : phase.bodyLength? = some .chunked := h.serves hunfinished
  refine ⟨h.read_le, h.select, h.supported, trivial, ?_⟩
  -- a refusal finishes the message, and every other step stays among the chunks
  have hrefused : ∀ {cause : Fault},
      (([Event.refusedContent cause].map (Entry.report arrived)).foldl Course.take
        course).outcome ≠ .unfinished := by
    intro cause
    simp only [Event.refusedContent, List.map_cons, List.map_nil, List.foldl_cons,
      List.foldl_nil, Course.take_failure hunfinished, ne_eq, reduceCtorEq, not_false_eq_true]
  cases hmove with
  | sizeIncomplete hline => exact fun _ => rfl
  | sizeTooLong hline => exact fun houtcome => absurd houtcome hrefused
  | sizeRefused hline hsize => exact fun houtcome => absurd houtcome hrefused
  | lastChunk hline hsize => exact fun _ => rfl
  | chunk hline hsize hpos => exact fun _ => rfl
  | dataWaits hdata => exact fun _ => rfl
  | dataEnds hdata hnext hremaining => exact fun _ => rfl
  | dataPiece hdata hnext hremaining => exact fun _ => rfl
  | endIncomplete hjunk => exact fun _ => rfl
  | chunkEnds hjunk => exact fun _ => rfl
  | trailerIncomplete hread => exact fun _ => rfl
  | trailerRefused hread => exact fun houtcome => absurd houtcome hrefused
  | trailerEnds hread =>
      simp only [Step.proceed, List.map_cons, List.map_nil, List.foldl_cons, List.foldl_nil,
        Course.take_last hunfinished]
      intro houtcome
      cases houtcome
  | _ => cases hphase

theorem step {next : Step}
    (h : Framed direction limits input phase rest head read course length)
    (hmove : Phase.Move direction limits phase rest next) (arrived : Nat) :
    Framed direction limits input next.phase next.rest head read
      ((next.events.map (.report arrived)).foldl Course.take course) length := by
  by_cases hunfinished : course.outcome = .unfinished
  · cases length with
    | empty => exact (h.serves hunfinished).elim
    | fixed length => exact h.step_fixed hunfinished hmove arrived
    | chunked => exact h.step_chunked hunfinished hmove arrived
    | untilClose => exact h.step_untilClose hunfinished hmove arrived
  · rw [Course.foldl_take_of_finished hunfinished]
    exact h.of_finished hunfinished _ _

theorem forgotten (h : Framed direction limits input phase rest head read course length)
    (phase' : Phase) :
    Framed direction limits input phase' rest head read (course.take .forgotten) length := by
  by_cases hunfinished : course.outcome = .unfinished
  · rw [Course.take_forgotten hunfinished]
    exact h.broken hunfinished _ _
  · rw [Course.take_of_finished hunfinished]
    exact h.of_finished hunfinished _ _

/-- A connection that ends without a report leaves every message as it is: none is unfinished. -/
theorem ended (h : Framed direction limits input phase rest head read course length)
    (hclose : phase.atClose = none) (arrived : Nat) :
    Framed direction limits input phase rest head read (course.take (.ended arrived)) length := by
  by_cases hunfinished : course.outcome = .unfinished
  · -- every phase inside a message reports something when the connection ends
    have hserves := h.serves hunfinished
    exfalso
    cases length with
    | empty => exact hserves
    | fixed length =>
        obtain ⟨⟨switches, rfl⟩, -⟩ := hserves
        cases hclose
    | chunked =>
        rw [Phase.atClose_of_chunked hserves] at hclose
        cases hclose
    | untilClose =>
        obtain ⟨rfl, -⟩ := hserves
        cases hclose
  · rw [Course.take_of_finished hunfinished]
    exact h

/-- The end of a connection completes a body that extends to it, and breaks off any other. -/
theorem closed {event : Event}
    (h : Framed direction limits input phase rest head read course length)
    (hclose : phase.atClose = some event) (hrest : phase.readsPieces = true → rest = [])
    (arrived : Nat) :
    Framed direction limits input .idle rest head read
      ((course.take (.ended input.length)).take (.report arrived event)) length := by
  by_cases hunfinished : course.outcome = .unfinished
  · have hended := Course.take_ended hunfinished input.length
    have hbroken : ∀ cause : Fault,
        (course.take (.ended input.length)).take (.report arrived (.refusedContent cause)) =
          { course with ended := some input.length, outcome := .broken } := by
      intro cause
      rw [hended]
      exact @Course.take_failure { course with ended := some input.length } hunfinished _ _ _
    have hserves := h.serves hunfinished
    have hobeys := h.obeys_broken hunfinished
    cases length with
    | empty => exact hserves.elim
    | fixed length =>
        obtain ⟨⟨switches, rfl⟩, -⟩ := hserves
        cases hclose
        rw [hbroken]
        exact ⟨h.read_le, h.select, h.supported, hobeys, nofun⟩
    | chunked =>
        rw [Phase.atClose_of_chunked hserves] at hclose
        cases hclose
        rw [hbroken]
        exact ⟨h.read_le, h.select, h.supported, hobeys, nofun⟩
    | untilClose =>
        obtain ⟨rfl, -, hsplit⟩ := hserves
        obtain ⟨hfront, htrailers, -⟩ := h.obeys
        cases hclose
        rw [hrest rfl, List.append_nil] at hsplit
        rw [hended, @Course.take_last { course with ended := some input.length } hunfinished]
        refine ⟨h.read_le, h.select, h.supported, ?_, nofun⟩
        refine ⟨?_, rfl, fun _ => ⟨input.length, Nat.le_refl _, rfl, ?_⟩⟩
        · rw [List.append_nil]
          exact hfront
        · rw [List.append_nil, List.take_length]
          exact hsplit
  · rw [Course.take_of_finished hunfinished, Course.take_of_finished hunfinished]
    exact h.of_finished hunfinished _ _

/-! ### Heads -/

/-- A list that begins with an element, cut at another element that occurs once at most. -/
theorem cons_eq_append_cons {α : Type} {x y : α} {xs before later : List α}
    (h : x :: xs = before ++ y :: later) (hy : y ∉ xs) : before = [] ∧ x = y ∧ xs = later := by
  cases before with
  | nil =>
      rw [List.nil_append, List.cons.injEq] at h
      exact ⟨rfl, h⟩
  | cons b before =>
      rw [List.cons_append, List.cons.injEq] at h
      exact absurd (h.2 ▸ List.mem_append_right before List.mem_cons_self) hy

/-- A step that reports a head begins the body that follows from it. A body without bytes is
complete with the same step. -/
theorem opens {buffer : Bytes} {next : Step}
    (hmove : Phase.Move direction limits phase buffer next) (hhead : .head head ∈ next.events)
    (read : Nat) (hrest : next.rest = input.drop read) :
    ∃ length, BodyLength.select direction head = .ok length ∧
      (length = .chunked → limits.chunked = true) ∧
      ((next.events = [.head head, .last {}] ∧ (length = .empty ∨ length = .fixed 0)) ∨
        (next.events = [.head head] ∧ next.phase.Serves next.rest input read {} length)) := by
  cases hmove with
  | @bodiless _ _ _ _ _ _ _ opening length hread hopening hlength hempty =>
      have heq : head = opening := by simpa [Step.proceed] using hhead
      subst heq
      refine ⟨length, hlength, ?_, .inl ⟨rfl, hempty⟩⟩
      rintro rfl
      rcases hempty with hempty | hempty <;> cases hempty
  | @fixedBody _ _ _ _ _ _ _ length opening hread hopening hlength hpos =>
      have heq : head = opening := by simpa [Step.proceed] using hhead
      subst heq
      refine ⟨.fixed length, hlength, ?_, .inr ⟨rfl, ⟨_, rfl⟩, hpos, hrest⟩⟩
      intro hchunked
      cases hchunked
  | @chunkedBody _ _ _ _ _ _ _ opening hread hopening hlength hlimits =>
      have heq : head = opening := by simpa [Step.proceed] using hhead
      subst heq
      exact ⟨.chunked, hlength, fun _ => hlimits, .inr ⟨rfl, rfl⟩⟩
  | @openBody _ _ _ _ _ _ _ opening hread hopening hlength =>
      have heq : head = opening := by simpa [Step.proceed] using hhead
      subst heq
      refine ⟨.untilClose, hlength, ?_, .inr ⟨rfl, rfl, rfl, hrest⟩⟩
      intro hchunked
      cases hchunked
  | _ => simp [Step.proceed, Step.wait, Step.refuse, Event.refusedHead, Event.refusedContent]
      at hhead

theorem mem_of_map_report {events : List Event} {arrived : Nat} {before later : List Entry}
    {read : Nat} {event : Event}
    (h : events.map (.report arrived) = before ++ .report read event :: later) :
    event ∈ events ∧ read = arrived := by
  have hmem : .report read event ∈ events.map (Entry.report arrived) := by
    rw [h]
    exact List.mem_append_right before List.mem_cons_self
  obtain ⟨event', hevent, heq⟩ := List.mem_map.1 hmem
  cases heq
  exact ⟨hevent, rfl⟩

theorem opened {next : Step} {before later : List Entry}
    (hmove : Phase.Move direction limits phase rest next) (hsuffix : rest <:+ input)
    (hentries : next.events.map (.report (input.length - next.rest.length)) =
      before ++ .report read (.head head) :: later) :
    ∃ length, Framed direction limits input next.phase next.rest head read (Course.follow later)
        length ∧ (length = .empty → later.head? = some (.report read (.last {}))) := by
  obtain ⟨hevent, rfl⟩ := mem_of_map_report hentries
  have hle : input.length - next.rest.length ≤ input.length := Nat.sub_le _ _
  have hdrop := List.suffix_iff_eq_drop.1 (hmove.suffix.trans hsuffix)
  obtain ⟨length, hselect, hsupported, ⟨hevents, hempty⟩ | ⟨hevents, hserves⟩⟩ :=
    opens hmove hevent _ hdrop
  · -- the head and the end of its message come with the same step
    rw [hevents] at hentries
    obtain ⟨-, -, hlater⟩ := cons_eq_append_cons hentries (by simp)
    rw [← hlater]
    refine ⟨length, ⟨hle, hselect, hsupported, ?_, nofun⟩, ?_⟩
    · rcases hempty with rfl | rfl
      · exact ⟨rfl, rfl, rfl⟩
      · exact ⟨List.nil_prefix, Nat.le_refl _, ⟨fun _ => rfl, fun _ => rfl⟩, rfl⟩
    · intro _
      rfl
  · -- the head comes alone, and nothing of the body has been reported
    rw [hevents] at hentries
    obtain ⟨-, -, hlater⟩ := cons_eq_append_cons hentries List.not_mem_nil
    rw [← hlater]
    refine ⟨length, ⟨hle, hselect, hsupported, ?_, fun _ => hserves⟩, ?_⟩
    · cases length with
      | empty => exact hserves.elim
      | fixed length =>
          refine ⟨List.nil_prefix, Nat.zero_le _, ?_, rfl⟩
          have hpos : 0 < length := hserves.2.1
          exact ⟨nofun, fun hzero => absurd hzero (Nat.ne_of_lt hpos)⟩
      | chunked => trivial
      | untilClose => exact ⟨List.nil_prefix, rfl, nofun⟩
    · rintro rfl
      exact hserves.elim

end Framed

/-- An entry of a record that grows stands in the old part or in the new one. -/
theorem append_eq_append_cons {α : Type} {xs ys before later : List α} {x : α}
    (h : xs ++ ys = before ++ x :: later) :
    (∃ middle, xs = before ++ x :: middle ∧ later = middle ++ ys) ∨
      ∃ middle, before = xs ++ middle ∧ ys = middle ++ x :: later := by
  rcases List.append_eq_append_iff.1 h with ⟨middle, hbefore, hys⟩ | ⟨middle, hxs, hlater⟩
  · exact .inr ⟨middle, hbefore, hys⟩
  · cases middle with
    | nil => exact .inr ⟨[], by simpa using hxs.symm, by simpa using hlater.symm⟩
    | cons y middle =>
        rw [List.cons_append, List.cons.injEq] at hlater
        obtain ⟨rfl, hlater⟩ := hlater
        exact .inl ⟨middle, hxs, hlater⟩

theorem Walk.framed {direction : Direction} {limits : Limits} {input rest : Bytes}
    {record : List Entry} {phase : Phase} (h : Walk direction limits input record phase rest)
    {before later : List Entry} {read : Nat} {head : Head}
    (hrecord : record = before ++ .report read (.head head) :: later) :
    ∃ length, Framed direction limits input phase rest head read (Course.follow later) length ∧
      (length = .empty → later.head? = some (.report read (.last {}))) := by
  -- what is said at once after a head is still said when the record grows
  have hfirst : ∀ {length : BodyLength} {middle : List Entry} (new : List Entry),
      (length = .empty → middle.head? = some (.report read (.last {}))) →
      length = .empty → (middle ++ new).head? = some (.report read (.last {})) := by
    intro length middle new hmiddle hempty
    rw [List.head?_append, hmiddle hempty]
    rfl
  induction h generalizing before later with
  | start => exact absurd hrecord (by simp)
  | receive walk bytes ih =>
      obtain ⟨length, hframed, hempty⟩ := ih hrecord
      exact ⟨length, hframed.append bytes, hempty⟩
  | forget walk ih =>
      rcases append_eq_append_cons hrecord with ⟨middle, hold, rfl⟩ | ⟨middle, -, hnew⟩
      · obtain ⟨length, hframed, hempty⟩ := ih hold
        refine ⟨length, ?_, hfirst _ hempty⟩
        rw [Course.follow_append]
        exact hframed.forgotten .idle
      · exact absurd (congrArg (.report read (.head head) ∈ ·) hnew) (by simp)
  | @step input rest record phase walk ih =>
      have hmove := Phase.step_move direction limits phase rest
      rcases append_eq_append_cons hrecord with ⟨middle, hold, rfl⟩ | ⟨middle, -, hnew⟩
      · obtain ⟨length, hframed, hempty⟩ := ih hold
        refine ⟨length, ?_, hfirst _ hempty⟩
        rw [Course.follow_append]
        exact hframed.step hmove _
      · exact Framed.opened hmove walk.suffix hnew
  | ended walk hclose ih =>
      rcases append_eq_append_cons hrecord with ⟨middle, hold, rfl⟩ | ⟨middle, -, hnew⟩
      · obtain ⟨length, hframed, hempty⟩ := ih hold
        refine ⟨length, ?_, hfirst _ hempty⟩
        rw [Course.follow_append]
        exact hframed.ended hclose _
      · exact absurd (congrArg (.report read (.head head) ∈ ·) hnew) (by simp)
  | @closed input rest record phase event walk hclose hrest ih =>
      rcases append_eq_append_cons hrecord with ⟨middle, hold, rfl⟩ | ⟨middle, -, hnew⟩
      · obtain ⟨length, hframed, hempty⟩ := ih hold
        refine ⟨length, ?_, hfirst _ hempty⟩
        rw [Course.follow_append]
        exact hframed.closed hclose hrest _
      · -- the end of a connection reports no head
        have hnohead : event ≠ .head head := by
          rintro rfl
          cases phase <;> cases hclose
        have hmem : Entry.report read (.head head) ∈
            [Entry.ended input.length, .report (input.length - rest.length) event] := by
          rw [hnew]
          exact List.mem_append_right middle List.mem_cons_self
        simp only [List.mem_cons, reduceCtorEq, List.not_mem_nil, or_false, false_or,
          Entry.report.injEq] at hmem
        exact absurd hmem.2.symm hnohead

/-! ## Heads without an accepted length -/

/-- A run ends as the run from any point of its trail does. -/
theorem Phase.run_of_mem_trail {direction : Direction} {limits : Limits} {phase : Phase}
    {buffer : Bytes} {place : Phase × Bytes} (h : place ∈ phase.trail direction limits buffer) :
    (run direction limits phase buffer).phase = (run direction limits place.1 place.2).phase ∧
      ∃ earlier, (run direction limits phase buffer).events =
        earlier ++ (run direction limits place.1 place.2).events := by
  fun_induction trail direction limits phase buffer with
  | case1 phase buffer next again ih =>
      rw [List.mem_cons] at h
      rcases h with rfl | h
      · exact ⟨rfl, [], rfl⟩
      · obtain ⟨hphase, earlier, hevents⟩ := ih h
        rw [run_eq]
        simp only [next, again, if_true] at hphase hevents ⊢
        refine ⟨hphase, next.events ++ earlier, ?_⟩
        rw [hevents, List.append_assoc]
  | case2 phase buffer next again =>
      rw [List.mem_singleton] at h
      rw [h]
      exact ⟨rfl, [], rfl⟩

namespace Connection

/-- What a call reports ends with what is reported from any point of its trail that refuses a
message. -/
theorem call_of_refused {connection : Connection} {call : Call} {place : Phase × Bytes}
    {event : Event} (hplace : place ∈ connection.trail call)
    (hrefused : Phase.step connection.reader.direction connection.reader.limits place.1 place.2 =
      .refuse event) :
    ∃ earlier, (connection.call call).2 = earlier ++ [event] := by
  have hrun := Phase.run_of_refuse hrefused
  cases call with
  | push bytes =>
      obtain ⟨-, earlier, hevents⟩ := Phase.run_of_mem_trail hplace
      rw [hrun] at hevents
      exact ⟨earlier, hevents⟩
  | close =>
      simp only [trail, Call.reads, if_true, Call.bytes, List.append_nil] at hplace
      obtain ⟨hphase, earlier, hevents⟩ := Phase.run_of_mem_trail hplace
      rw [hrun] at hphase hevents
      refine ⟨earlier, ?_⟩
      have hclose : (connection.reader.feed connection.buffer).reader.phase.atClose = none := by
        simp only [Reader.feed, hphase]
        rfl
      rw [call_close, hclose, Option.toList_none, List.append_nil]
      exact hevents
  | receive bytes => cases hplace
  | requestReset => cases hplace
  | declineBody => cases hplace

/-- The bodies of a connection are framed as the heads say, whatever is called in whatever order.

For every head that is reported, a length follows from the head itself, and the chunks of a chunked
body are accepted. A message without a body is complete at once; the bytes that are reported of a
body of known length, or of one that ends with the connection, are those that follow the head in the
input, as many as have arrived when a call that reads is over; and as long as the message is
unfinished the reader knows its length. Conversely, a header block that is closed is refused if no
accepted length follows from its head. -/
theorem bodies_framed {direction : Direction} {limits : Limits} {new : Connection}
    (hstart : start direction limits = .ok new) (calls : List Call) :
    (∀ before read head later, new.record 0 calls = before ++ .report read (.head head) :: later →
      ∃ length, BodyLength.select direction head = .ok length ∧
        (length = .chunked → limits.chunked = true) ∧
        (length = .empty → later.head? = some (.report read (.last {}))) ∧
        (Course.follow later).Obeys (calls.flatMap Call.bytes) read length ∧
        ((Course.follow later).outcome = .unfinished →
          (new.after calls).reader.bodyLength? = some length ∧
          ∀ earlier call, calls = earlier ++ [call] → call.reads = true → length ≠ .chunked →
            (Course.follow later).data = (calls.flatMap Call.bytes).drop read)) ∧
    ∀ call first fields block buffer more next charged head cause,
      (.header first fields block, buffer) ∈ (new.after calls).trail call →
      block.read limits.header limits.strict buffer = (more, .complete next charged) →
      head = { startLine := first, fields := fields.append more } →
      (BodyLength.select direction head = .error cause ∨
        BodyLength.select direction head = .ok .chunked ∧ limits.chunked = false ∧
          cause = .unsupportedChunked) →
      (Phase.step direction limits (.header first fields block) buffer).events =
          [.refusedHead head cause] ∧
        ∃ earlier, ((new.after calls).call call).2 = earlier ++ [.refusedHead head cause] := by
  have hwalk := start_walk hstart calls
  refine ⟨?_, ?_⟩
  · intro before read head later hrecord
    obtain ⟨length, hframed, hempty⟩ := hwalk.framed hrecord
    refine ⟨length, hframed.select, hframed.supported, hempty, hframed.obeys, ?_⟩
    intro hunfinished
    have hserves := hframed.serves hunfinished
    -- after a call that reads, nothing waits of a body that is reported in pieces
    have hbuffer : ∀ earlier call, calls = earlier ++ [call] → call.reads = true →
        (new.after calls).phase.readsPieces = true → (new.after calls).buffer = [] := by
      intro earlier call hcalls hreads hpieces
      have hsound : (new.after earlier).Sound := (start_walk hstart earlier).sound
      rw [hcalls, after_append] at hpieces ⊢
      exact hsound.call_rest hreads hpieces
    cases length with
    | empty => exact hserves.elim
    | fixed length =>
        obtain ⟨⟨switches, hphase⟩, hlt, hsplit⟩ := hserves
        refine ⟨congrArg Phase.bodyLength? hphase, ?_⟩
        intro earlier call hcalls hreads _
        rw [hbuffer earlier call hcalls hreads (by rw [hphase]; rfl), List.append_nil] at hsplit
        exact hsplit
    | chunked => exact ⟨hserves, fun _ _ _ _ hchunked => absurd rfl hchunked⟩
    | untilClose =>
        obtain ⟨hphase, -, hsplit⟩ := hserves
        refine ⟨congrArg Phase.bodyLength? hphase, ?_⟩
        intro earlier call hcalls hreads _
        rw [hbuffer earlier call hcalls hreads (by rw [hphase]; rfl), List.append_nil] at hsplit
        exact hsplit
  · intro call first fields block buffer more next charged head cause hplace hread hhead hcause
    have hstep : Phase.step direction limits (.header first fields block) buffer =
        .refuse (.refusedHead head cause) := by
      rcases hcause with hlength | ⟨hlength, hlimits, rfl⟩
      · exact (Phase.Move.unframed hread hhead hlength).step_eq
      · exact (Phase.Move.unsupported hread hhead hlength hlimits).step_eq
    obtain ⟨valid, rfl⟩ := start_eq hstart
    obtain ⟨hdirection, hlimits⟩ := after_reader { reader := { direction, limits, valid } } calls
    refine ⟨congrArg Step.events hstep, call_of_refused hplace ?_⟩
    rw [hdirection, hlimits]
    exact hstep

/-- A body of three bytes arrives in two pushes, and then a chunked one is refused. -/
theorem bodies_framed_until_refused :
    let new : Connection := { reader := ⟨.response, { chunked := false }, by decide, .idle, false⟩ }
    let calls : List Call :=
      [.push (Text.toBytes "HTTP/1.1 200 OK\r\nContent-Length: 3\r\n\r\nab"),
        .push (Text.toBytes "c")]
    let first : StartLine := .status .http11 200 "OK"
    let head : Head := { startLine := first, fields := ⟨[⟨"Content-Length", "3"⟩]⟩ }
    let later : List Entry :=
      [.report 40 (.body (Text.toBytes "ab")), .report 41 (.last { data := Text.toBytes "c" })]
    let block := Text.toBytes "Transfer-Encoding: chunked\r\n\r\n"
    let call : Call := .push (Text.toBytes "HTTP/1.1 200 OK\r\n" ++ block)
    let refused : Head := { startLine := first, fields := ⟨[⟨"Transfer-Encoding", "chunked"⟩]⟩ }
    start .response { chunked := false } = .ok new ∧
      new.record 0 calls = .report 38 (.head head) :: later ∧
      (∃ length, BodyLength.select .response head = .ok length ∧
        (Course.follow later).Obeys (calls.flatMap Call.bytes) 38 length) ∧
      ∃ earlier, ((new.after calls).call call).2 =
        earlier ++ [.refusedHead refused .unsupportedChunked] := by
  intro new calls first head later block call refused
  have hstart : start .response { chunked := false } = .ok new := rfl
  have hrecord : new.record 0 calls = .report 38 (.head head) :: later := by decide +kernel
  obtain ⟨hheads, hrefused⟩ := bodies_framed hstart calls
  obtain ⟨length, hselect, -, -, hobeys, -⟩ := hheads [] 38 head later hrecord
  have hplace : (.header first {} {}, block) ∈ (new.after calls).trail call := by decide +kernel
  have hread : ({} : FieldBlock).read 8192 true block =
      ([⟨"Transfer-Encoding", "chunked"⟩], .complete 30 26) := by decide +kernel
  have hchunked : BodyLength.select .response refused = .ok .chunked := rfl
  have hfailure := hrefused call first {} {} block _ _ _ refused .unsupportedChunked hplace hread
    rfl (.inr ⟨hchunked, rfl, rfl⟩)
  exact ⟨hstart, hrecord, ⟨length, hselect, hobeys⟩, hfailure.2⟩

end Connection

end HttpWire
