import HttpWire.Proofs.Growth
import HttpWire.Proofs.Moves
import HttpWire.Reader.Registers

/-!
# Every call comes to an end

A call takes steps in a loop, and one of these steps takes lines in a loop of its own. Both are written here
as loops, with a body that says what follows, so that it can be said how often the bodies are executed.

The step that finds the beginning of a start line may leave all bytes where they are. The step after it does
not, so with `n` bytes there are at most `2 * n + 2` steps, the last of which finds that bytes are missing.

- `Turn.Ends`: the executions of a body, up to the one that ends the loop.
- `Turn.Drains`: of two executions that go on, one takes something away;
  `Turn.Drains.exists_endsWithin`: such a loop ends.
- `Phase.turn`, `Registers.turn`, `FieldBlock.turn`: the bodies, and `Phase.eq_run_of_ends`,
  `Registers.eq_run_of_ends` and `FieldBlock.eq_readAfter_of_ends`: what their loops end with.
- `Reader.feed_ends`: the two loops, for every reader and every buffer.
-/

set_option autoImplicit false

namespace HttpWire

open Text

/-! ## Loops -/

/-- What follows when the body of a loop has been executed. -/
inductive Turn (σ ρ : Type) where
  /-- The body is executed again, from another state. -/
  | goesOn (next : σ)
  /-- The loop ends. -/
  | ends (result : ρ)

namespace Turn

variable {σ ρ : Type} {body : σ → Turn σ ρ} {size : σ → Nat}

/-- The body is executed again, or the state is the result. -/
def ofAgain (again : Bool) (state : σ) : Turn σ σ :=
  if again then .goesOn state else .ends state

theorem ofAgain_eq_goesOn {again : Bool} {state next : σ} :
    ofAgain again state = .goesOn next ↔ again = true ∧ state = next := by
  cases again <;> simp [ofAgain]

theorem ofAgain_eq_ends {again : Bool} {state result : σ} :
    ofAgain again state = .ends result ↔ again = false ∧ state = result := by
  cases again <;> simp [ofAgain]

/-- A loop that ends: the state in which it begins, the states in which its body is executed again, in
order, and its result. -/
inductive Ends (body : σ → Turn σ ρ) : σ → List σ → ρ → Prop
  | last {state : σ} {result : ρ} (h : body state = .ends result) : Ends body state [] result
  | turn {state next : σ} {later : List σ} {result : ρ} (h : body state = .goesOn next)
      (hlater : Ends body next later result) : Ends body state (next :: later) result

/-- A loop that ends with a result, after no more executions of its body than given. -/
def EndsWithin (body : σ → Turn σ ρ) (state : σ) (turns : Nat) (result : ρ) : Prop :=
  ∃ later, Ends body state later result ∧ later.length + 1 ≤ turns

/-- A loop that uses up what there is: no execution of its body adds to it, and of any two in a row at
least one takes from it. -/
structure Drains (body : σ → Turn σ ρ) (size : σ → Nat) : Prop where
  le : ∀ {state next : σ}, body state = .goesOn next → size next ≤ size state
  pair : ∀ {state next later : σ}, body state = .goesOn next → body next = .goesOn later →
    size next < size state ∨ size later < size next

/-- A loop uses up what there is if every execution after which it goes on takes something, apart from those
in some states, which lead to other states. -/
theorem Drains.of_except {exempt : σ → Prop}
    (h : ∀ {state next : σ}, body state = .goesOn next →
      (exempt state ∧ ¬ exempt next ∧ size next ≤ size state) ∨ size next < size state) :
    Drains body size where
  le := by
    intro state next hturn
    rcases h hturn with ⟨-, -, hle⟩ | hlt
    · exact hle
    · exact Nat.le_of_lt hlt
  pair := by
    intro state next later hfirst hsecond
    rcases h hfirst with ⟨-, hnot, -⟩ | hlt
    · -- the second execution is not one of those that may take nothing
      right
      rcases h hsecond with ⟨hexempt, -⟩ | hlt
      · exact absurd hexempt hnot
      · exact hlt
    · exact .inl hlt

/-- A loop ends if it goes on after an execution only with less. -/
theorem exists_endsWithin (h : ∀ {state next : σ}, body state = .goesOn next → size next < size state)
    (state : σ) : ∃ result, EndsWithin body state (size state + 1) result := by
  induction hn : size state using Nat.strongRecOn generalizing state with
  | ind n ih =>
      subst hn
      cases hturn : body state with
      | ends result => exact ⟨result, [], .last hturn, by simp⟩
      | goesOn next =>
          have hlt := h hturn
          obtain ⟨result, later, hends, hle⟩ := ih (size next) hlt next rfl
          refine ⟨result, next :: later, .turn hturn hends, ?_⟩
          rw [List.length_cons]
          omega

/-- A loop ends if it goes on twice only with less, after twice as many executions. -/
theorem Drains.exists_endsWithin (h : Drains body size) (state : σ) :
    ∃ result, EndsWithin body state (2 * size state + 2) result := by
  -- by what there is, two executions at a time
  induction hn : size state using Nat.strongRecOn generalizing state with
  | ind n ih =>
      subst hn
      cases hfirst : body state with
      | ends result => exact ⟨result, [], .last hfirst, by simp⟩
      | goesOn next =>
          cases hsecond : body next with
          | ends result => exact ⟨result, [next], .turn hfirst (.last hsecond), by simp⟩
          | goesOn after =>
              have hlt : size after < size state := by
                have hle := h.le hfirst
                have hle' := h.le hsecond
                have hpair := h.pair hfirst hsecond
                omega
              obtain ⟨result, later, hends, hle⟩ := ih (size after) hlt after rfl
              refine ⟨result, next :: after :: later, .turn hfirst (.turn hsecond hends), ?_⟩
              simp only [List.length_cons]
              omega

end Turn

/-! ## The steps of a call -/

namespace Phase

variable {direction : Direction} {limits : Limits}

/-- One step of a reader, after those that have led to the present state. -/
def turn (direction : Direction) (limits : Limits) (state : Run) : Turn Run Run :=
  let taken := step direction limits state.phase state.rest
  .ofAgain taken.again ⟨taken.phase, taken.rest, state.events ++ taken.events⟩

/-- A step of a reader that goes on takes from the front of the buffer. -/
theorem turn_suffix {state next : Run} (h : turn direction limits state = .goesOn next) :
    next.rest <:+ state.rest := by
  obtain ⟨-, rfl⟩ := Turn.ofAgain_eq_goesOn.1 h
  exact (step_move direction limits state.phase state.rest).suffix

/-- Only the step that leaves the idle phase may take nothing. -/
theorem turn_drains (direction : Direction) (limits : Limits) :
    Turn.Drains (turn direction limits) fun state => state.rest.length := by
  apply @Turn.Drains.of_except _ _ _ _ fun state => state.phase = .idle
  intro state next h
  obtain ⟨hagain, rfl⟩ := Turn.ofAgain_eq_goesOn.1 h
  rcases step_again hagain with ⟨hidle, hstart, hle⟩ | hlt
  · exact .inl ⟨hidle, by rw [hstart]; exact nofun, hle⟩
  · exact .inr hlt

theorem eq_run_of_ends {state result : Run} {later : List Run}
    (h : Turn.Ends (turn direction limits) state later result) :
    result = (run direction limits state.phase state.rest).after state.events := by
  -- by the executions, with what each of them adds to the events
  induction h with
  | last h =>
      obtain ⟨hagain, rfl⟩ := Turn.ofAgain_eq_ends.1 h
      rw [run_eq]
      simp only [hagain, Bool.false_eq_true, if_false, Run.after]
  | turn h _ ih =>
      obtain ⟨hagain, rfl⟩ := Turn.ofAgain_eq_goesOn.1 h
      rw [run_eq, ih]
      simp only [if_pos hagain, Run.after, List.append_assoc]

/-- A run takes at most one step more than twice as many as there are bytes, and then the step that finds
that bytes are missing. -/
theorem run_endsWithin (direction : Direction) (limits : Limits) (phase : Phase) (buffer : Bytes) :
    Turn.EndsWithin (turn direction limits) ⟨phase, buffer, []⟩ (2 * buffer.length + 2)
      (run direction limits phase buffer) := by
  obtain ⟨result, later, hends, hle⟩ :=
    (turn_drains direction limits).exists_endsWithin ⟨phase, buffer, []⟩
  obtain rfl := eq_run_of_ends hends
  exact ⟨later, hends, hle⟩

end Phase

namespace Registers

variable {direction : Direction} {limits : Limits}

/-- One step of a reader in registers, after those that have led to the present state. -/
def turn (direction : Direction) (limits : Limits) (state : Run) : Turn Run Run :=
  let taken := state.registers.step direction limits state.rest
  .ofAgain taken.again ⟨taken.registers, taken.rest, state.events ++ taken.events⟩

/-- Whatever the registers hold, only the step that leaves the idle mode may take nothing. -/
theorem turn_drains (direction : Direction) (limits : Limits) :
    Turn.Drains (turn direction limits) fun state => state.rest.length := by
  apply @Turn.Drains.of_except _ _ _ _ fun state => state.registers.mode = .idle
  intro state next h
  obtain ⟨hagain, rfl⟩ := Turn.ofAgain_eq_goesOn.1 h
  rcases step_again hagain with ⟨hidle, hstart, hle⟩ | hlt
  · exact .inl ⟨hidle, by rw [hstart]; exact nofun, hle⟩
  · exact .inr hlt

theorem eq_run_of_ends {state result : Run} {later : List Run}
    (h : Turn.Ends (turn direction limits) state later result) :
    result.registers = (state.registers.run direction limits state.rest).registers ∧
      result.rest = (state.registers.run direction limits state.rest).rest ∧
      result.events = state.events ++ (state.registers.run direction limits state.rest).events := by
  induction h with
  | last h =>
      obtain ⟨hagain, rfl⟩ := Turn.ofAgain_eq_ends.1 h
      rw [run, dif_neg (by rw [hagain]; exact Bool.false_ne_true)]
      exact ⟨rfl, rfl, rfl⟩
  | turn h _ ih =>
      obtain ⟨hagain, rfl⟩ := Turn.ofAgain_eq_goesOn.1 h
      rw [run, dif_pos hagain]
      obtain ⟨hregisters, hrest, hevents⟩ := ih
      exact ⟨hregisters, hrest, hevents.trans (List.append_assoc _ _ _)⟩

theorem run_endsWithin (direction : Direction) (limits : Limits) (registers : Registers)
    (buffer : Bytes) :
    Turn.EndsWithin (turn direction limits) ⟨registers, buffer, []⟩ (2 * buffer.length + 2)
      (registers.run direction limits buffer) := by
  obtain ⟨result, later, hends, hle⟩ :=
    (turn_drains direction limits).exists_endsWithin ⟨registers, buffer, []⟩
  obtain ⟨hregisters, hrest, hevents⟩ := eq_run_of_ends hends
  obtain ⟨registers', rest, events⟩ := result
  simp only [List.nil_append] at hregisters hrest hevents
  subst hregisters hrest hevents
  exact ⟨later, hends, hle⟩

end Registers

/-! ## The lines of a block -/

namespace FieldBlock

variable {limit : Nat} {strict : Bool} {buffer : Bytes}

/-- Takes one line of a block, after those that have completed the given fields. -/
def turn (limit : Nat) (strict : Bool) (buffer : Bytes) (state : FieldBlock × List Field) :
    Turn (FieldBlock × List Field) (List Field × Outcome) :=
  let (block, fields) := state
  match Line.scan limit block.charged buffer block.position with
  | .tooLong => .ends (fields, .refused (.headerTooLong limit))
  | .incomplete => .ends (fields, .incomplete block)
  | .found line =>
      let charged := block.charged + line.length
      match takeLine strict buffer block.pending line with
      | .error cause => .ends (fields, .refused cause)
      | .ok (done, none) => .ends (fields ++ done.toList, .complete line.next charged)
      | .ok (done, some spans) => .goesOn (⟨charged, line.next, some spans⟩, fields ++ done.toList)

/-- The next line starts behind the one that was taken, inside the buffer. -/
theorem turn_position {state next : FieldBlock × List Field}
    (h : turn limit strict buffer state = .goesOn next) :
    state.1.position < next.1.position ∧ next.1.position ≤ buffer.length := by
  unfold turn at h
  simp only at h
  split at h
  · cases h
  · cases h
  · rename_i line hline
    have hfound := Line.scan_found hline
    split at h
    · cases h
    · cases h
    · cases h
      simp only
      omega

/-- What a block is read to, together with the fields that were completed before. -/
def readAfter (limit : Nat) (strict : Bool) (buffer : Bytes) (state : FieldBlock × List Field) :
    List Field × Outcome :=
  (state.2 ++ (state.1.read limit strict buffer).1, (state.1.read limit strict buffer).2)

/-- A block is read by taking its next line and reading on. -/
theorem readAfter_turn (state : FieldBlock × List Field) :
    readAfter limit strict buffer state =
      match turn limit strict buffer state with
      | .goesOn next => readAfter limit strict buffer next
      | .ends result => result := by
  obtain ⟨block, fields⟩ := state
  unfold turn readAfter
  cases hline : Line.scan limit block.charged buffer block.position with
  | tooLong => simp only [hline, read_tooLong hline, List.append_nil]
  | incomplete => simp only [hline, read_incomplete hline, List.append_nil]
  | found line =>
      simp only [hline, read_found hline]
      rcases takeLine strict buffer block.pending line with cause | ⟨done, _ | spans⟩
      · rw [List.append_nil]
      · rfl
      · simp only [List.append_assoc]

theorem eq_readAfter_of_ends {state : FieldBlock × List Field}
    {later : List (FieldBlock × List Field)} {result : List Field × Outcome}
    (h : Turn.Ends (turn limit strict buffer) state later result) :
    result = readAfter limit strict buffer state := by
  induction h with
  | last h => rw [readAfter_turn, h]
  | turn h _ ih => rw [readAfter_turn, h, ih]

/-- Each line starts behind the one before it, so there are no more of them than bytes to take. -/
theorem read_endsWithin (limit : Nat) (strict : Bool) (buffer : Bytes) (block : FieldBlock) :
    Turn.EndsWithin (turn limit strict buffer) (block, []) (buffer.length - block.position + 1)
      (block.read limit strict buffer) := by
  have hless : ∀ {state next : FieldBlock × List Field},
      turn limit strict buffer state = .goesOn next →
        buffer.length - next.1.position < buffer.length - state.1.position := by
    intro state next h
    have hposition := turn_position h
    omega
  obtain ⟨result, later, hends, hle⟩ := Turn.exists_endsWithin hless (block, [])
  obtain rfl := eq_readAfter_of_ends hends
  exact ⟨later, hends, hle⟩

end FieldBlock

/-- Every call comes to an end.

A reader in any phase that gets any buffer reads it in a loop of steps. Each step takes from the front of
the buffer, of any two in a row after which the reader goes on at least one takes a byte, and with `n` bytes
there are at most `2 * n + 2` steps; what they leave behind is the answer. The same holds of a reader in
registers, whatever the registers hold. The lines of a block are taken in a loop in which each line starts
behind the one before it, inside the buffer. -/
theorem Reader.feed_ends :
    (∀ (reader : Reader) (buffer : Bytes),
      let loop := Phase.turn reader.direction reader.limits
      (∀ state next, loop state = .goesOn next → next.rest <:+ state.rest) ∧
        Turn.Drains loop (fun state => state.rest.length) ∧
        ∃ run, Turn.EndsWithin loop ⟨reader.currentPhase, buffer, []⟩ (2 * buffer.length + 2) run ∧
          reader.feed buffer =
            ⟨{ reader with phase := run.phase, resetRequested := false }, run.rest, run.events⟩) ∧
    (∀ stream : RegisterStream,
      let loop := Registers.turn stream.direction stream.limits
      let registers := if stream.resetRequested then stream.registers.reset else stream.registers
      Turn.Drains loop (fun state => state.rest.length) ∧
        ∃ run, Turn.EndsWithin loop ⟨registers, stream.buffer, []⟩ (2 * stream.buffer.length + 2) run ∧
          stream.feed = ({ stream with
            registers := run.registers, resetRequested := false, buffer := run.rest }, run.events)) ∧
    ∀ (limit : Nat) (strict : Bool) (buffer : Bytes),
      let loop := FieldBlock.turn limit strict buffer
      (∀ state next, loop state = .goesOn next →
        state.1.position < next.1.position ∧ next.1.position ≤ buffer.length) ∧
      ∀ block : FieldBlock, Turn.EndsWithin loop (block, []) (buffer.length - block.position + 1)
        (block.read limit strict buffer) := by
  refine ⟨?_, ?_, ?_⟩
  · intro reader buffer loop
    exact ⟨fun _ _ => Phase.turn_suffix, Phase.turn_drains _ _, _, Phase.run_endsWithin _ _ _ _, rfl⟩
  · intro stream loop registers
    exact ⟨Registers.turn_drains _ _, _, Registers.run_endsWithin _ _ _ _, rfl⟩
  · intro limit strict buffer loop
    exact ⟨fun _ _ => FieldBlock.turn_position, FieldBlock.read_endsWithin limit strict buffer⟩

end HttpWire
