import HttpWire.Proofs.Observations
import HttpWire.Proofs.Pieces

/-!
# The size of pieces

The most bytes that one event may hand on decides how finely a body is cut, and nothing else. A
reader that cuts it in other pieces goes through the same phases, leaves the same bytes and reports
the same events, once the pieces of each body that one call reports are put together.

- `Event.joinBodies`: the events of a call with neighbouring pieces of a body joined.
- `Phase.step_resized`, `Phase.run_resized`: a step that reports no pieces, and every run, with
  pieces of another size.
- `Event.RawLast`, `Phase.run_raw_cases`: bytes of another protocol are reported once in a run, so that `merge` joins
  nothing but bodies.
- `Connection.observations_resized`: what is seen of two connections that differ in the size of
  pieces only.
-/

set_option autoImplicit false

namespace HttpWire

open Text

/-! ## Bodies, joined -/

namespace Event

/-- Puts an event in front of others. A piece of a body is joined to a piece or an end that
follows it. -/
def glueBody : Event → List Event → List Event
  | .body data, .body next :: later => .body (data ++ next) :: later
  | .body data, .last ending :: later => .last { ending with data := data ++ ending.data } :: later
  | event, later => event :: later

/-- The events with neighbouring pieces of a body joined, the last one into the end of its
message. -/
def joinBodies (events : List Event) : List Event :=
  events.foldr glueBody []

/-- Whether an event passes on bytes of another protocol. -/
def isRaw : Event → Bool
  | raw _ => true
  | _ => false

/-- Reports in which nothing follows raw bytes. -/
def RawLast (events : List Event) : Prop :=
  events.Pairwise fun event _ => event.isRaw = false

/-- What follows reports without raw bytes may end with them. -/
theorem RawLast.append {events later : List Event} (h : ∀ event ∈ events, event.isRaw = false)
    (hlater : RawLast later) : RawLast (events ++ later) := by
  induction events with
  | nil => exact hlater
  | cons event events ih =>
      obtain ⟨hevent, hevents⟩ := List.forall_mem_cons.1 h
      exact List.pairwise_cons.2 ⟨fun _ _ => hevent, ih hevents⟩

/-- Merging joins nothing but bodies where raw bytes come last. -/
theorem joinBodies_eq_merge {events : List Event} (h : RawLast events) :
    joinBodies events = merge events := by
  induction events with
  | nil => rfl
  | cons event events ih =>
      obtain ⟨hnone, hevents⟩ := List.pairwise_cons.1 h
      have hjoin : joinBodies (event :: events) = glueBody event (joinBodies events) := rfl
      rw [hjoin, merge_cons, ih hevents]
      cases event with
      | raw data =>
          cases events with
          | nil => rfl
          | cons next later => cases hnone next List.mem_cons_self
      | body data =>
          cases merge events with
          | nil => rfl
          | cons next later => cases next <;> rfl
      | head head => rfl
      | last ending => rfl
      | failure cause spoiled => rfl

end Event

/-! ## Runs with pieces of another size -/

namespace Phase

variable {direction : Direction} {limits : Limits} {piece : Nat} {phase : Phase} {buffer : Bytes}

/-- Where no pieces are reported, their size does not matter. -/
theorem step_resized (h : phase.readsPieces = false) :
    step direction { limits with piece } phase buffer = step direction limits phase buffer := by
  cases phase with
  | fixed length remaining switches => cases h
  | untilClose => cases h
  | chunkData body remaining => cases h
  | raw => cases h
  | _ => rfl

theorem nextPiece_zero (limits : Limits) (buffer : Bytes) : nextPiece limits 0 buffer = [] := by
  rw [nextPiece, Nat.min_zero, List.take_zero]

/-- A body of known length is read as far as it is there, in pieces of any size, and what follows it
is read in the same way if a shorter buffer is. -/
theorem CountsDown.run_resized {phase : Nat → Phase} {next : Phase} {ending : Bytes → Event}
    {remaining : Nat} (h : CountsDown direction limits phase next ending)
    (h' : CountsDown direction { limits with piece } phase next ending) (hvalid : limits.Valid)
    (hvalid' : { limits with piece }.Valid)
    (hnext : ∀ rest : Bytes, rest.length < buffer.length →
      (run direction { limits with piece } next rest).Same (run direction limits next rest)) :
    (run direction { limits with piece } (phase remaining) buffer).Same
      (run direction limits (phase remaining) buffer) := by
  by_cases hshort : buffer.length < remaining
  · exact (h'.run_short hvalid' hshort).trans (h.run_short hvalid hshort).symm
  · by_cases hpos : remaining = 0
    · -- nothing is to come, and so nothing is read
      subst hpos
      rw [run_of_wait (h.waits (nextPiece_zero _ _)).step_eq,
        run_of_wait (h'.waits (nextPiece_zero _ _)).step_eq]
      exact .refl _
    · obtain ⟨data, rest, rfl, rfl⟩ : ∃ data rest : Bytes, buffer = data ++ rest ∧
          data.length = remaining := by
        refine ⟨buffer.take remaining, buffer.drop remaining,
          (List.take_append_drop _ _).symm, ?_⟩
        rw [List.length_take]
        omega
      have hne : data ≠ [] := List.length_pos_iff.1 (Nat.pos_of_ne_zero hpos)
      have hrest := hnext rest (by rw [List.length_append]; omega)
      exact (h'.run_full hvalid' hne rest).trans
        ((hrest.after _).trans (h.run_full hvalid hne rest).symm)

theorem run_resized (direction : Direction) (hvalid : limits.Valid) (hpiece : 0 < piece)
    (phase : Phase) (buffer : Bytes) :
    (run direction { limits with piece } phase buffer).Same
      (run direction limits phase buffer) := by
  have hvalid' : { limits with piece }.Valid := ⟨hvalid.line, hvalid.header, hpiece⟩
  -- by the budget: steps that report no pieces are the same, and bodies are taken as a whole
  induction hn : phase.budget buffer using Nat.strongRecOn generalizing phase buffer with
  | ind n ih =>
      subst hn
      by_cases hpieces : phase.readsPieces = true
      · cases phase with
        | fixed length remaining switches =>
            have hcounts := countsDown_fixed direction limits length switches
            have hcounts' := countsDown_fixed direction { limits with piece } length switches
            refine hcounts.run_resized hcounts' hvalid hvalid' ?_
            intro rest hrest
            have hslack := slack_le_one (afterMessage switches)
            refine ih _ ?_ (afterMessage switches) rest rfl
            simp only [budget]
            omega
        | untilClose =>
            exact (run_untilClose hvalid' buffer).trans (run_untilClose hvalid buffer).symm
        | chunkData body remaining =>
            have hcounts := countsDown_chunkData direction limits body
            have hcounts' := countsDown_chunkData direction { limits with piece } body
            refine hcounts.run_resized hcounts' hvalid hvalid' ?_
            intro rest hrest
            refine ih _ ?_ (.chunkEnd body) rest rfl
            simp only [budget, slack]
            omega
        | raw =>
            rw [run_raw, run_raw]
            exact .refl _
        | _ => cases hpieces
      · rw [Bool.not_eq_true] at hpieces
        rw [run_eq, run_eq direction limits, step_resized hpieces]
        simp only
        split
        · rename_i hagain
          exact (ih _ (budget_step_lt hagain) _ _ rfl).after _
        · exact .refl _

/-! ### Raw bytes -/

/-- A step that reports raw bytes reports nothing else, and the reader does not go on. -/
theorem Move.raw_cases {next : Step} (hmove : Move direction limits phase buffer next) :
    (∀ event ∈ next.events, event.isRaw = false) ∨
      (next.phase = .raw ∧ next.again = false ∧ Event.RawLast next.events) := by
  have hall : next.events.all (!·.isRaw) = true →
      ∀ event ∈ next.events, event.isRaw = false := by
    intro h event hevent
    simpa using List.all_eq_true.1 h event hevent
  cases hmove with
  | passed hbuffer => exact .inr ⟨rfl, rfl, List.pairwise_singleton _ _⟩
  | _ => exact .inl (hall rfl)

/-- Raw bytes are the last thing that a run reports, and the run then ends after the switch of
protocol. -/
theorem run_raw_cases (direction : Direction) (limits : Limits) (phase : Phase) (buffer : Bytes) :
    Event.RawLast (run direction limits phase buffer).events ∧
      ((run direction limits phase buffer).phase = .raw ∨
        ∀ event ∈ (run direction limits phase buffer).events, event.isRaw = false) := by
  fun_induction run direction limits phase buffer with
  | case1 phase buffer next again later ih =>
      rcases (step_move direction limits phase buffer).raw_cases with hnow | ⟨-, hwaits, -⟩
      · obtain ⟨hlast, hraw⟩ := ih
        exact ⟨.append hnow hlast,
          hraw.imp_right fun hlater => List.forall_mem_append.2 ⟨hnow, hlater⟩⟩
      · exact absurd again (Bool.eq_false_iff.1 hwaits)
  | case2 phase buffer next again =>
      rcases (step_move direction limits phase buffer).raw_cases with hnow | ⟨hphase, -, hraw⟩
      · have hlast := Event.RawLast.append hnow .nil
        rw [List.append_nil] at hlast
        exact ⟨hlast, .inr hnow⟩
      · exact ⟨hraw, .inl hphase⟩

end Phase

/-! ## Every use of a connection -/

theorem Reader.close_rawLast (reader : Reader) (buffer : Bytes) :
    Event.RawLast (reader.close buffer).events := by
  obtain ⟨hlast, hraw⟩ :=
    Phase.run_raw_cases reader.direction reader.limits reader.currentPhase buffer
  simp only [close]
  split
  · exact hlast
  · rename_i event hclose
    rcases hraw with hphase | hnone
    · have hphase' : (reader.feed buffer).reader.phase = .raw := hphase
      rw [hphase'] at hclose
      cases hclose
    · exact .append hnone (List.pairwise_singleton _ _)

namespace Connection

theorem observe_rawLast (connection : Connection) (use : Use) :
    Event.RawLast (connection.observe use).events := by
  cases use with
  | feed refill =>
      simp only [observe, Connection.use, List.flatMap_singleton]
      exact (Phase.run_raw_cases _ _ _ _).1
  | close refill =>
      simp only [observe, Connection.use, List.flatMap_singleton]
      exact Reader.close_rawLast _ _
  | requestReset => exact .nil
  | declineBody => exact .nil

/-- To join the bodies that each use reports is to merge what it reports. -/
theorem observations_joinBodies (connection : Connection) (uses : List Use) :
    (connection.observations uses).map (·.through Event.joinBodies) =
      (connection.observations uses).map (·.through Event.merge) := by
  induction uses generalizing connection with
  | nil => rfl
  | cons use uses ih =>
      have hseen : (connection.observe use).through Event.joinBodies =
          (connection.observe use).through Event.merge := by
        rw [Observation.through, Observation.through,
          Event.joinBodies_eq_merge (connection.observe_rawLast use)]
      simp only [observations, List.map_cons, hseen, ih]

/-- The size of pieces decides how finely a body is cut, and nothing else. Two connections that
differ in it only, whatever is done with them, report the same events with each use, once the pieces
of a body that the use reports are joined, also to the end of their message; and after each use they
are in the same phase, with the same length of the body at hand and the same bytes left. -/
theorem observations_resized {direction : Direction} {limits : Limits} {piece : Nat}
    {first second : Connection} (hfirst : start direction limits = .ok first)
    (hsecond : start direction { limits with piece } = .ok second) (uses : List Use) :
    (second.observations uses).map (·.through Event.joinBodies) =
      (first.observations uses).map (·.through Event.joinBodies) := by
  obtain ⟨haligned, hdirection, hlimits, hlimits'⟩ := start_aligned hfirst hsecond
  have hvalid := first.reader.valid
  have hvalid' := second.reader.valid
  rw [hlimits] at hvalid
  rw [hlimits'] at hvalid'
  have hview : Event.Continuable Event.merge := by
    intro xs ys hevents zs
    exact Event.merge_append_congr hevents rfl
  have hruns : ∀ phase buffer,
      (∀ event ∈ (Phase.run direction limits phase buffer).events, True) →
      (Phase.run direction limits phase buffer).Agrees Event.merge
        (Phase.run direction { limits with piece } phase buffer) := by
    intro phase buffer _
    have hsame := (Phase.run_resized direction hvalid hvalid'.piece phase buffer).symm
    exact ⟨hsame.phase, hsame.rest, hsame.events⟩
  rw [← hdirection, ← hlimits', ← hlimits] at hruns
  have hseen := haligned.observations hview hruns uses fun _ _ _ _ => trivial
  rw [observations_joinBodies, observations_joinBodies, hseen]

/-- A chunked body, one that is called off, and a switch of protocol, in pieces of three bytes and
of one: the pieces differ, and nothing else does. -/
theorem observations_resized_by_one :
    let limits : Limits := { piece := 3 }
    let first : Connection := { reader := ⟨.response, limits, by decide, .idle, false⟩ }
    let second : Connection :=
      { reader := ⟨.response, { limits with piece := 1 }, by decide, .idle, false⟩ }
    let uses : List Use :=
      [.feed (· ++ toBytes "HTTP/1.1 200 OK\r\nTransfer-Encoding: chunked\r\n\r\n5\r\nhell"),
        .feed (· ++ toBytes "o\r\n0\r\n\r\nHTTP/1.1 200 OK\r\nContent-Length: 5\r\n\r\nab"),
        .declineBody,
        .feed (· ++ toBytes "HTTP/1.1 101 Switching Protocols\r\n\r\nraw"), .close id]
    start .response limits = .ok first ∧
      start .response { limits with piece := 1 } = .ok second ∧
      second.observations uses ≠ first.observations uses ∧
      (second.observations uses).map (·.through Event.joinBodies) =
        (first.observations uses).map (·.through Event.joinBodies) := by
  intro limits first second uses
  have hfirst : start .response limits = .ok first := rfl
  have hsecond : start .response { limits with piece := 1 } = .ok second := rfl
  have hdiffer : second.observations uses ≠ first.observations uses := by decide +kernel
  exact ⟨hfirst, hsecond, hdiffer, observations_resized hfirst hsecond uses⟩

end Connection

end HttpWire
