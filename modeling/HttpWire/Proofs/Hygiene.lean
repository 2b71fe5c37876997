import HttpWire.Proofs.Accepted

/-!
# The fields of events

A field reaches the receiver in a head, in a trailer, or in a head that is refused half way through.
It was handed on when the line after it came, perhaps many calls later, from positions that were found
line by line. Wherever that happens, its name is one word and its value is trimmed; and if fields are
checked, no byte in them is one that the checks refuse.

- `Field.Clean`: what a receiver can rely on; `Field.Settled.clean` derives it.
- `Walk.settled_header`, `Walk.settled_trailer`: the fields of a block that is open.
- `Walk.settled_events`, `Walk.settled_atClose`: the fields that one move of a connection reports.
- `Connection.fields_clean`: every field of every event.
-/

set_option autoImplicit false

namespace HttpWire

open Text

variable {direction : Direction} {limits : Limits} {input rest : Bytes} {record : List Entry}

/-! ## Clean fields -/

/-- The fields that come with an event: those of a head, whether it is refused or not, or those of a
trailer. -/
def Event.fields : Event → List Field
  | .head opening => opening.fields.toList
  | .last ending => ending.trailers.toList
  | .failure _ (.head opening) => opening.fields.toList
  | .failure _ (.content ending) => ending.trailers.toList
  | .body _ => []
  | .raw _ => []

/-- What the receiver of a field can rely on. Its texts consist of bytes. The name holds no blank and
no colon, and the value neither begins nor ends on a blank. If fields are checked, the name is a token,
and the value holds no control but the tab. -/
structure Field.Clean (strict : Bool) (field : Field) : Prop where
  latin : IsLatin field.name ∧ IsLatin field.value
  name : ∀ b ∈ toBytes field.name, isBlank b = false ∧ b ≠ colon
  first : ∀ b ∈ (toBytes field.value).head?, isBlank b = false
  last : ∀ b ∈ (toBytes field.value).getLast?, isBlank b = false
  token : strict = true → field.name ≠ "" ∧ ∀ b ∈ toBytes field.name, isTokenByte b = true
  controls : strict = true → ∀ b ∈ toBytes field.value, isAsciiControl b = true → b = ht

namespace Field

variable {strict : Bool} {field : Field}

/-- A field that was made of a name and a value holds these. -/
theorem of_check_eq_ok {name value : Bytes} (h : check strict name value = .ok field) :
    field = ⟨ofBytes name, ofBytes value⟩ := by
  unfold check at h
  split at h
  · cases h
  · split at h
    · cases h
    · cases h
      rfl

theorem Settled.clean (h : field.Settled strict) : field.Clean strict := by
  obtain ⟨hname, hends, htrimmed, hcheck⟩ := h
  obtain ⟨hfirst, hlast⟩ := trim_ends isBlank (toBytes field.value)
  rw [htrimmed] at hfirst hlast
  refine ⟨?_, ?_, hfirst, hlast, ?_, ?_⟩
  · rw [of_check_eq_ok hcheck]
    exact ⟨isLatin_ofBytes _, isLatin_ofBytes _⟩
  · intro b hb
    have hb := hname b hb
    rw [FieldSpans.endsName, Bool.or_eq_false_iff] at hb
    exact ⟨hb.2, by simpa using hb.1⟩
  · rintro rfl
    obtain ⟨hne, htoken, -, -⟩ := of_check hcheck
    refine ⟨?_, htoken⟩
    intro hempty
    rw [hempty] at hne
    exact hne rfl
  · rintro rfl b hb hcontrol
    obtain ⟨-, -, hvalue, -⟩ := of_check hcheck
    have hb := hvalue b hb
    rw [isForbiddenInValue, hcontrol, Bool.true_and] at hb
    simpa using hb

end Field

/-! ## Blocks that are open -/

/-- The fields of an open header block, and those that it gives when more of it is read. -/
theorem Walk.settled_header {first : StartLine} {fields : Fields} {block : FieldBlock}
    (h : Walk direction limits input record (.header first fields block) rest) {more : List Field}
    {outcome : FieldBlock.Outcome}
    (hread : block.read limits.header limits.strict rest = (more, outcome)) :
    ∀ field ∈ (fields.append more).toList, field.Settled limits.strict := by
  have hsettled : ∀ field ∈ (FieldBlock.read limits.header limits.strict rest {}).1,
      field.Settled limits.strict :=
    FieldBlock.settled_of_read (FieldBlock.within_start 0 rest) nofun
  rw [h.reads_header hread] at hsettled
  exact hsettled

theorem Walk.settled_trailer {switches : Bool} {fields : Fields} {block : FieldBlock}
    (h : Walk direction limits input record (.trailer switches fields block) rest)
    {more : List Field} {outcome : FieldBlock.Outcome}
    (hread : block.read limits.header limits.strict rest = (more, outcome)) :
    ∀ field ∈ (fields.append (Phase.keptTrailers more)).toList, field.Settled limits.strict := by
  obtain ⟨base, given, hall, hkept⟩ := h.reads_trailer hread
  have hsettled : ∀ field ∈ (FieldBlock.read limits.header limits.strict rest { charged := base }).1,
      field.Settled limits.strict :=
    FieldBlock.settled_of_read (FieldBlock.within_start base rest) nofun
  rw [hall] at hsettled
  rw [hkept]
  intro field hfield
  exact hsettled field (List.mem_filter.1 hfield).1

/-! ## Steps -/

theorem Walk.settled_events {phase : Phase} (walk : Walk direction limits input record phase rest)
    {next : Step} (hmove : Phase.Move direction limits phase rest next) :
    ∀ event ∈ next.events, ∀ field ∈ event.fields, field.Settled limits.strict := by
  cases hmove with
  | startTooLong hline => exact List.forall_mem_singleton.2 (List.forall_mem_nil _)
  | startRefused hline hread => exact List.forall_mem_singleton.2 (List.forall_mem_nil _)
  -- the head is refused with the fields before the one at fault
  | headerRefused hread => exact List.forall_mem_singleton.2 (walk.settled_header hread)
  | unframed hread hhead hlength =>
      subst hhead
      exact List.forall_mem_singleton.2 (walk.settled_header hread)
  | unsupported hread hhead hlength hlimits =>
      subst hhead
      exact List.forall_mem_singleton.2 (walk.settled_header hread)
  | bodiless hread hhead hlength hempty =>
      subst hhead
      exact List.forall_mem_cons.2 ⟨walk.settled_header hread,
        List.forall_mem_singleton.2 (List.forall_mem_nil _)⟩
  | fixedBody hread hhead hlength hpos =>
      subst hhead
      exact List.forall_mem_singleton.2 (walk.settled_header hread)
  | chunkedBody hread hhead hlength hlimits =>
      subst hhead
      exact List.forall_mem_singleton.2 (walk.settled_header hread)
  | openBody hread hhead hlength =>
      subst hhead
      exact List.forall_mem_singleton.2 (walk.settled_header hread)
  | trailerEnds hread => exact List.forall_mem_singleton.2 (walk.settled_trailer hread)
  | _ =>
      first
        | exact List.forall_mem_nil _
        | exact List.forall_mem_singleton.2 (List.forall_mem_nil _)

theorem Walk.settled_atClose {phase : Phase} (walk : Walk direction limits input record phase rest)
    {event : Event} (h : phase.atClose = some event) :
    ∀ field ∈ event.fields, field.Settled limits.strict := by
  cases phase with
  | header first fields block =>
      cases h
      have hall := walk.settled_header rfl
      rw [Fields.toList_append] at hall
      exact (List.forall_mem_append.1 hall).1
  | _ =>
      first
        | (cases h; exact List.forall_mem_nil _)
        | cases h

/-! ## Connections -/

namespace Connection

variable {new : Connection}

/-- Every field that a new connection reports, however it is used and whatever arrives, is clean: in
the head of a message, in its trailer, and in a head that is refused. -/
theorem fields_clean (hstart : start direction limits = .ok new) (calls : List Call) {event : Event}
    (hevent : event ∈ new.events calls) : ∀ field ∈ event.fields, field.Clean limits.strict := by
  intro field hfield
  obtain ⟨_, _, _, _, walk, hstep | hclose⟩ := exists_move_of_event hstart calls hevent
  · exact (walk.settled_events (Phase.step_move _ _ _ _) event hstep field hfield).clean
  · exact (walk.settled_atClose hclose field hfield).clean

/-- A folded header and a folded trailer, padded by a vertical tab and a form feed, and a head that is
refused for its second field. All comes in two pieces, the first of which ends inside a folded line. -/
theorem fields_clean_in_three_events :
    let new : Connection := { reader := ⟨.request, {}, by decide, .idle, false⟩ }
    let calls : List Call :=
      [.push (toBytes "PUT / HTTP/1.1\r\n \tTransfer-Encoding\t:\x0b\r\n chunked\r\n\r\n0\r\nA: b\r\n \x0c"),
        .push (toBytes " c\x1f\r\n\r\nGET / HTTP/1.1\nB : d \nC: \x00\n\n")]
    let opening : Head :=
      { startLine := .request "PUT" "/" .http11, fields := ⟨[⟨"Transfer-Encoding", "chunked"⟩]⟩ }
    let refused : Head :=
      { startLine := .request "GET" "/" .http11, fields := ⟨[⟨"B", "d"⟩]⟩ }
    let events : List Event :=
      [.head opening, .last { trailers := ⟨[⟨"A", "b c"⟩]⟩ },
        .refusedHead refused (.invalidHeaderValue "C" (String.ofList [Char.ofNat 0]))]
    start .request {} = .ok new ∧ new.events calls = events ∧
      ∀ event ∈ events, ∀ field ∈ event.fields, field.Clean true := by
  intro new calls opening refused events
  have hstart : start .request {} = .ok new := rfl
  have hevents : new.events calls = events := by decide +kernel
  refine ⟨hstart, hevents, ?_⟩
  intro event hevent
  exact fields_clean hstart calls (by rw [hevents]; exact hevent)

end Connection

end HttpWire
