import HttpWire.Reader.Step

/-!
# Runs of a reader

A reader takes steps until it needs more bytes. It always comes to that point: a step after which it
goes on removes at least one byte, except the step that leaves the idle phase, and that one leads to
a start line, whose step does remove bytes.

- `Phase.step_again`: what a step does after which the reader goes on.
- `Phase.run`: all steps that can be taken.
- `Phase.run_eq`: a run is its first step and the run after it.
-/

set_option autoImplicit false

namespace HttpWire

open Text

namespace Phase

/-! ## What each step removes -/

theorem length_drop_lt {buffer : Bytes} {n : Nat} (hpos : 0 < n) (hle : n ≤ buffer.length) :
    (buffer.drop n).length < buffer.length := by
  rw [List.length_drop]
  omega

theorem length_drop_next_lt {limit charged : Nat} {buffer : Bytes} {start : Nat} {line : Line}
    (h : Line.scan limit charged buffer start = .found line) :
    (buffer.drop line.next).length < buffer.length := by
  have hf := Line.scan_found h
  exact length_drop_lt (by omega) (by omega)

/-- Dropping what was taken from the front removes a byte, unless nothing was taken. -/
theorem length_drop_taken_lt {buffer : Bytes} {n : Nat} (h : ¬(buffer.take n).isEmpty = true) :
    (buffer.drop (buffer.take n).length).length < buffer.length := by
  have hpos : 0 < (buffer.take n).length := by
    rw [List.length_pos_iff, ne_eq, ← List.isEmpty_iff]
    exact h
  exact length_drop_lt hpos (List.length_take_le' n buffer)

theorem stepIdle_again {buffer : Bytes} (h : (stepIdle buffer).again = true) :
    (stepIdle buffer).phase = .startLine ∧ (stepIdle buffer).rest.length ≤ buffer.length := by
  have hle := (List.dropWhile_suffix (l := buffer) isPadding).length_le
  unfold stepIdle at h ⊢
  split at h
  · simp [Step.wait] at h
  · rename_i hrest
    rw [hrest] at hle
    simpa [Step.proceed, hrest] using hle

theorem stepStartLine_again {direction : Direction} {limits : Limits} {buffer : Bytes}
    (h : (stepStartLine direction limits buffer).again = true) :
    (stepStartLine direction limits buffer).rest.length < buffer.length := by
  unfold stepStartLine at h ⊢
  split at h
  · simp [Step.wait] at h
  · simp [Step.refuse] at h
  · rename_i line hline
    split at h
    · simp [Step.refuse] at h
    · rename_i hread
      simpa [hread, Step.proceed] using length_drop_next_lt hline
    · rename_i hread
      simpa [hread, Step.proceed] using length_drop_next_lt hline

theorem stepHead_again {direction : Direction} {limits : Limits} {head : Head} {charged : Nat}
    {rest : Bytes} (h : (stepHead direction limits head charged rest).again = true) :
    (stepHead direction limits head charged rest).rest = rest := by
  unfold stepHead at h ⊢
  split at h
  · simp [Step.refuse] at h
  · rename_i hlength
    split at h
    · simp [Step.refuse] at h
    · simp [Step.proceed]

theorem stepHeader_again {direction : Direction} {limits : Limits} {first : StartLine}
    {fields : Fields} {block : FieldBlock} {buffer : Bytes}
    (h : (stepHeader direction limits first fields block buffer).again = true) :
    (stepHeader direction limits first fields block buffer).rest.length < buffer.length := by
  unfold stepHeader at h ⊢
  simp only at h ⊢
  split at h
  · simp [Step.wait] at h
  · simp [Step.refuse] at h
  · rename_i next charged hread
    have hc := FieldBlock.read_complete hread
    rw [stepHead_again h]
    exact length_drop_lt (by omega) (by omega)

theorem stepFixed_again {limits : Limits} {length remaining : Nat} {switches : Bool}
    {buffer : Bytes} (h : (stepFixed limits length remaining switches buffer).again = true) :
    (stepFixed limits length remaining switches buffer).rest.length < buffer.length := by
  unfold stepFixed at h ⊢
  simp only at h ⊢
  split at h
  · simp [Step.wait] at h
  · rename_i hdata
    rw [if_neg hdata]
    split <;> exact length_drop_taken_lt hdata

theorem stepUntilClose_again {limits : Limits} {buffer : Bytes}
    (h : (stepUntilClose limits buffer).again = true) :
    (stepUntilClose limits buffer).rest.length < buffer.length := by
  unfold stepUntilClose at h ⊢
  simp only at h ⊢
  split at h
  · simp [Step.wait] at h
  · rename_i hdata
    rw [if_neg hdata]
    exact length_drop_taken_lt hdata

theorem stepChunkSize_again {limits : Limits} {body : ChunkedBody} {buffer : Bytes}
    (h : (stepChunkSize limits body buffer).again = true) :
    (stepChunkSize limits body buffer).rest.length < buffer.length := by
  unfold stepChunkSize at h ⊢
  split at h
  · simp [Step.wait] at h
  · simp [Step.refuse] at h
  · rename_i line hline
    split at h
    · simp [Step.refuse] at h
    · rename_i hread
      simpa [hread, Step.proceed] using length_drop_next_lt hline
    · rename_i hread
      simpa [hread, Step.proceed] using length_drop_next_lt hline

theorem stepChunkData_again {limits : Limits} {body : ChunkedBody} {remaining : Nat}
    {buffer : Bytes} (h : (stepChunkData limits body remaining buffer).again = true) :
    (stepChunkData limits body remaining buffer).rest.length < buffer.length := by
  unfold stepChunkData at h ⊢
  simp only at h ⊢
  split at h
  · simp [Step.wait] at h
  · rename_i hdata
    rw [if_neg hdata]
    split <;> exact length_drop_taken_lt hdata

theorem stepChunkEnd_again {body : ChunkedBody} {buffer : Bytes}
    (h : (stepChunkEnd body buffer).again = true) :
    (stepChunkEnd body buffer).rest.length < buffer.length := by
  have hle := (List.dropWhile_suffix (l := buffer) (· != lf)).length_le
  unfold stepChunkEnd at h ⊢
  split at h
  · simp [Step.wait] at h
  · rename_i hrest
    rw [hrest, List.length_cons] at hle
    exact hle

theorem stepTrailer_again {limits : Limits} {switches : Bool} {fields : Fields}
    {block : FieldBlock} {buffer : Bytes}
    (h : (stepTrailer limits switches fields block buffer).again = true) :
    (stepTrailer limits switches fields block buffer).rest.length < buffer.length := by
  unfold stepTrailer at h ⊢
  simp only at h ⊢
  split at h
  · simp [Step.wait] at h
  · simp [Step.refuse] at h
  · rename_i next charged hread
    have hc := FieldBlock.read_complete hread
    exact length_drop_lt (by omega) (by omega)

/-- A step after which the reader goes on either leaves the idle phase for a start line, or removes
at least one byte. -/
theorem step_again {direction : Direction} {limits : Limits} {phase : Phase} {buffer : Bytes}
    (h : (step direction limits phase buffer).again = true) :
    (phase = .idle ∧ (step direction limits phase buffer).phase = .startLine
        ∧ (step direction limits phase buffer).rest.length ≤ buffer.length)
      ∨ (step direction limits phase buffer).rest.length < buffer.length := by
  cases phase with
  | idle => exact .inl ⟨rfl, stepIdle_again h⟩
  | startLine => exact .inr (stepStartLine_again h)
  | header first fields block => exact .inr (stepHeader_again h)
  | fixed length remaining switches => exact .inr (stepFixed_again h)
  | untilClose => exact .inr (stepUntilClose_again h)
  | chunkSize body => exact .inr (stepChunkSize_again h)
  | chunkData body remaining => exact .inr (stepChunkData_again h)
  | chunkEnd body => exact .inr (stepChunkEnd_again h)
  | trailer switches fields block => exact .inr (stepTrailer_again h)
  | refused => simp [step, Step.wait] at h
  | raw => simp [step, stepRaw] at h

/-! ## Runs -/

/-- One between messages, where a phase can be left without reading a byte; zero elsewhere. -/
def slack : Phase → Nat
  | idle => 1
  | _ => 0

/-- A bound on the steps that a reader can still take without more bytes. -/
def budget (phase : Phase) (buffer : Bytes) : Nat :=
  2 * buffer.length + phase.slack

theorem slack_le_one (phase : Phase) : phase.slack ≤ 1 := by
  cases phase <;> simp [slack]

/-- A reader that goes on has fewer steps left. -/
theorem budget_step_lt {direction : Direction} {limits : Limits} {phase : Phase} {buffer : Bytes}
    (h : (step direction limits phase buffer).again = true) :
    (step direction limits phase buffer).phase.budget (step direction limits phase buffer).rest
      < phase.budget buffer := by
  unfold budget
  rcases step_again h with ⟨hidle, hnext, hle⟩ | hlt
  · rw [hnext]
    have h₀ : Phase.startLine.slack = 0 := rfl
    have h₁ : phase.slack = 1 := by rw [hidle]; rfl
    omega
  · have := slack_le_one (step direction limits phase buffer).phase
    omega

/-- What a run leaves behind: the phase, the bytes that have not been read, and the events that it
reported, in order. -/
structure Run where
  phase : Phase
  rest : Bytes
  events : List Event
  deriving Repr, DecidableEq

/-- Takes steps until more bytes are needed. -/
def run (direction : Direction) (limits : Limits) (phase : Phase) (buffer : Bytes) : Run :=
  let next := step direction limits phase buffer
  if _again : next.again = true then
    let later := run direction limits next.phase next.rest
    { later with events := next.events ++ later.events }
  else ⟨next.phase, next.rest, next.events⟩
termination_by phase.budget buffer
decreasing_by exact budget_step_lt _again

/-- A run is its first step and, if the reader goes on, the run after it. -/
theorem run_eq (direction : Direction) (limits : Limits) (phase : Phase) (buffer : Bytes) :
    run direction limits phase buffer =
      let next := step direction limits phase buffer
      if next.again = true then
        let later := run direction limits next.phase next.rest
        { later with events := next.events ++ later.events }
      else ⟨next.phase, next.rest, next.events⟩ := by
  rw [run]
  simp only [dite_eq_ite]

end Phase

end HttpWire
