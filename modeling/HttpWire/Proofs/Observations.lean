import HttpWire.Proofs.Forgetting

/-!
# Connections side by side

Two connections may read the same bytes within different limits. What the limits change is seen by
comparing them use by use: the events that a use reports, the phase that it leads to, and the bytes
that it leaves.

- `Connection.observations`: what can be seen after each of some uses.
- `Connection.Aligned`: connections that differ at most in their limits.
- `Connection.Aligned.observations`: if the runs of two such connections agree, then so does
  whatever can be seen of them, as far as a view of the events tells.
-/

set_option autoImplicit false

namespace HttpWire

/-! ## What can be seen -/

/-- What can be seen after a use: the events that it reported, the phase of the reader, how far the
body extends that is being read, and the bytes that are left. -/
structure Observation where
  events : List Event
  phase : Phase
  bodyLength? : Option BodyLength
  buffer : Bytes
  deriving Repr, DecidableEq

/-- An observation in which events are told apart only as far as a view of them goes. -/
def Observation.through (view : List Event → List Event) (seen : Observation) : Observation :=
  { seen with events := view seen.events }

/-- Whether events that look the same through a view do so however they are continued. -/
def Event.Continuable (view : List Event → List Event) : Prop :=
  ∀ ⦃xs ys : List Event⦄, view xs = view ys → ∀ zs, view (xs ++ zs) = view (ys ++ zs)

/-- The bytes that a use reads, if it reads. -/
def Use.input? (buffer : Bytes) : Use → Option Bytes
  | feed refill => some (refill buffer)
  | close refill => some (refill buffer)
  | requestReset => none
  | declineBody => none

namespace Connection

/-- What can be seen after a use. -/
def observe (connection : Connection) (use : Use) : Observation where
  events := (connection.use use).2.flatMap Reader.Answer.events
  phase := (connection.use use).1.phase
  bodyLength? := (connection.use use).1.reader.bodyLength?
  buffer := (connection.use use).1.buffer

/-- What can be seen after each of some uses. -/
def observations (connection : Connection) : List Use → List Observation
  | [] => []
  | use :: uses => connection.observe use :: (connection.use use).1.observations uses

end Connection

/-! ## Readers side by side -/

/-- Two runs that agree, as far as a view of their events tells. -/
structure Phase.Run.Agrees (view : List Event → List Event) (run other : Phase.Run) : Prop where
  phase : run.phase = other.phase
  rest : run.rest = other.rest
  events : view run.events = view other.events

namespace Reader

/-- The run that reads a buffer. -/
def runOn (reader : Reader) (buffer : Bytes) : Phase.Run :=
  reader.currentPhase.run reader.direction reader.limits buffer

theorem mem_events_close {reader : Reader} {buffer : Bytes} {event : Event}
    (h : event ∈ (reader.runOn buffer).events) : event ∈ (reader.close buffer).events := by
  simp only [close]
  split
  · exact h
  · exact List.mem_append_left _ h

/-- Two readers that differ at most in their limits. -/
structure Aligned (first second : Reader) : Prop where
  direction : first.direction = second.direction
  phase : first.phase = second.phase
  resetRequested : first.resetRequested = second.resetRequested

namespace Aligned

variable {first second : Reader} {view : List Event → List Event} {buffer : Bytes}

theorem currentPhase (h : first.Aligned second) : first.currentPhase = second.currentPhase := by
  rw [Reader.currentPhase, Reader.currentPhase, h.phase, h.resetRequested]

theorem declineBody (h : first.Aligned second) :
    first.declineBody.Aligned second.declineBody := by
  rw [Reader.declineBody, Reader.declineBody, h.phase]
  split
  · exact ⟨h.direction, h.phase, rfl⟩
  · exact h

/-- Readers whose runs agree are left alike. -/
theorem feed (h : first.Aligned second)
    (hrun : (first.runOn buffer).Agrees view (second.runOn buffer)) :
    (first.feed buffer).reader.Aligned (second.feed buffer).reader ∧
      (first.feed buffer).rest = (second.feed buffer).rest ∧
      view (first.feed buffer).events = view (second.feed buffer).events :=
  ⟨⟨h.direction, hrun.phase, rfl⟩, hrun.rest, hrun.events⟩

theorem close (h : first.Aligned second)
    (hview : Event.Continuable view)
    (hrun : (first.runOn buffer).Agrees view (second.runOn buffer)) :
    (first.close buffer).reader.Aligned (second.close buffer).reader ∧
      (first.close buffer).rest = (second.close buffer).rest ∧
      view (first.close buffer).events = view (second.close buffer).events := by
  obtain ⟨haligned, hrest, hevents⟩ := h.feed hrun
  simp only [Reader.close, haligned.phase]
  split
  · exact ⟨haligned, hrest, hevents⟩
  · exact ⟨⟨haligned.direction, rfl, haligned.resetRequested⟩, hrest, hview hevents _⟩

end Aligned

end Reader

/-! ## Connections side by side -/

namespace Connection

/-- Two connections that differ at most in their limits. -/
structure Aligned (first second : Connection) : Prop where
  reader : first.reader.Aligned second.reader
  buffer : first.buffer = second.buffer

/-- What a use reads it reports. -/
theorem mem_events_observe {connection : Connection} {use : Use} {buffer : Bytes} {event : Event}
    (hinput : use.input? connection.buffer = some buffer)
    (h : event ∈ (connection.reader.runOn buffer).events) :
    event ∈ (connection.observe use).events := by
  cases use with
  | feed refill =>
      cases hinput
      simp only [observe, Connection.use, List.flatMap_singleton]
      exact h
  | close refill =>
      cases hinput
      simp only [observe, Connection.use, List.flatMap_singleton]
      exact Reader.mem_events_close h
  | requestReset => cases hinput
  | declineBody => cases hinput

namespace Aligned

variable {first second : Connection} {view : List Event → List Event}

/-- A use keeps connections aligned, and what is seen of it is the same, if what it reads is read in
the same way. -/
theorem use (h : first.Aligned second)
    (hview : Event.Continuable view) (use : Use)
    (hrun : ∀ buffer, use.input? first.buffer = some buffer →
      (first.reader.runOn buffer).Agrees view (second.reader.runOn buffer)) :
    (first.use use).1.Aligned (second.use use).1 ∧
      (first.observe use).through view = (second.observe use).through view := by
  -- the phase decides how far the body extends, so three equations are left of an observation
  have hseen : ∀ {events events' : List Event} {left left' : Connection},
      left.Aligned left' → view events = view events' →
      (⟨events, left.phase, left.reader.bodyLength?, left.buffer⟩ : Observation).through view =
        (⟨events', left'.phase, left'.reader.bodyLength?, left'.buffer⟩ : Observation).through
          view := by
    intro events events' left left' haligned hevents
    simp only [Observation.through, phase, Reader.bodyLength?, hevents, haligned.reader.phase,
      haligned.buffer]
  cases use with
  | feed refill =>
      obtain ⟨hreader, hrest, hevents⟩ := h.reader.feed (hrun _ rfl)
      rw [h.buffer] at hreader hrest hevents
      have haligned : (first.use (.feed refill)).1.Aligned (second.use (.feed refill)).1 := by
        simp only [Connection.use, h.buffer]
        exact ⟨hreader, hrest⟩
      refine ⟨haligned, hseen haligned ?_⟩
      simp only [Connection.use, List.flatMap_singleton, h.buffer]
      exact hevents
  | close refill =>
      obtain ⟨hreader, hrest, hevents⟩ := h.reader.close hview (hrun _ rfl)
      rw [h.buffer] at hreader hrest hevents
      have haligned : (first.use (.close refill)).1.Aligned (second.use (.close refill)).1 := by
        simp only [Connection.use, h.buffer]
        exact ⟨hreader, hrest⟩
      refine ⟨haligned, hseen haligned ?_⟩
      simp only [Connection.use, List.flatMap_singleton, h.buffer]
      exact hevents
  | requestReset =>
      have haligned : first.requestReset.Aligned second.requestReset :=
        ⟨⟨h.reader.direction, h.reader.phase, rfl⟩, h.buffer⟩
      exact ⟨haligned, hseen haligned rfl⟩
  | declineBody =>
      have haligned : first.declineBody.Aligned second.declineBody :=
        ⟨h.reader.declineBody, h.buffer⟩
      exact ⟨haligned, hseen haligned rfl⟩

/-- Connections whose limits let them read the same bytes in the same way show the same after every
use, as far as a view of the events tells. The runs have to agree only where they report nothing but
events of a class, and then nothing else may be seen of the first connection. -/
theorem observations (h : first.Aligned second)
    (hview : Event.Continuable view) {allowed : Event → Prop}
    (hruns : ∀ phase buffer,
      (∀ event ∈ (Phase.run first.reader.direction first.reader.limits phase buffer).events,
        allowed event) →
      (Phase.run first.reader.direction first.reader.limits phase buffer).Agrees view
        (Phase.run first.reader.direction second.reader.limits phase buffer))
    (uses : List Use)
    (hallowed : ∀ seen ∈ first.observations uses, ∀ event ∈ seen.events, allowed event) :
    (first.observations uses).map (·.through view) =
      (second.observations uses).map (·.through view) := by
  induction uses generalizing first second with
  | nil => rfl
  | cons use uses ih =>
      obtain ⟨hnow, hlater⟩ := List.forall_mem_cons.1 hallowed
      obtain ⟨haligned, hseen⟩ := h.use hview use fun buffer hinput => by
        have hrun := hruns first.reader.currentPhase buffer fun event hevent =>
          hnow event (mem_events_observe hinput hevent)
        rw [Reader.runOn, Reader.runOn, ← h.reader.currentPhase, ← h.reader.direction]
        exact hrun
      obtain ⟨hdirection, hlimits⟩ := use_reader first use
      obtain ⟨-, hlimits'⟩ := use_reader second use
      have hrest := ih haligned (by rw [hdirection, hlimits, hlimits']; exact hruns) hlater
      simp only [Connection.observations, List.map_cons, hseen, hrest]

end Aligned

theorem start_aligned {direction : Direction} {limits other : Limits} {first second : Connection}
    (hfirst : start direction limits = .ok first) (hsecond : start direction other = .ok second) :
    first.Aligned second ∧ first.reader.direction = direction ∧ first.reader.limits = limits ∧
      second.reader.limits = other := by
  obtain ⟨valid, rfl⟩ := start_eq hfirst
  obtain ⟨valid', rfl⟩ := start_eq hsecond
  exact ⟨⟨⟨rfl, rfl, rfl⟩, rfl⟩, rfl, rfl, rfl⟩

end Connection

end HttpWire
