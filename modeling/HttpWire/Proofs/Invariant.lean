import HttpWire.Connection
import HttpWire.Proofs.Growth
import HttpWire.Proofs.Moves

/-!
# What holds of a reader between its steps

A phase carries positions in the buffer and counts of bytes that are still to come. `Phase.Sound`
says how they stand to the buffer; every step, and so every run, keeps it.

- `Phase.run_sound`: what a run keeps; `Phase.run_remains`: what it keeps of the count of a body,
  whatever the buffer holds.
- `Phase.run_rest_of_readsPieces`: a body that is reported in pieces is read as far as it is there.
-/

set_option autoImplicit false

namespace HttpWire.Phase

open Text

variable {direction : Direction} {limits : Limits}

/-- A phase that agrees with the buffer before it: open fields stand in the part of the buffer that
has been taken, and a body or a chunk that is being read has bytes still to come. -/
def Sound : Phase → Bytes → Prop
  | header _ _ block, buffer => block.Within buffer
  | trailer _ _ block, buffer => block.Within buffer
  | fixed length remaining _, _ => 0 < remaining ∧ remaining ≤ length
  | chunkData _ remaining, _ => 0 < remaining
  | idle, _ => True
  | startLine, _ => True
  | untilClose, _ => True
  | chunkSize _, _ => True
  | chunkEnd _, _ => True
  | refused, _ => True
  | raw, _ => True

theorem sound_afterMessage (switches : Bool) (buffer : Bytes) :
    (afterMessage switches).Sound buffer := by
  cases switches <;> trivial

/-- More bytes do no harm. -/
theorem Sound.append {phase : Phase} {buffer : Bytes} (h : phase.Sound buffer) (more : Bytes) :
    phase.Sound (buffer ++ more) := by
  cases phase with
  | header first fields block => exact FieldBlock.Within.append h more
  | trailer switches fields block => exact FieldBlock.Within.append h more
  | fixed length remaining switches => exact h
  | chunkData body remaining => exact h
  | _ => trivial

theorem Move.sound {phase : Phase} {buffer : Bytes} {next : Step}
    (hmove : Move direction limits phase buffer next) (h : phase.Sound buffer) :
    next.phase.Sound next.rest := by
  cases hmove with
  | started hline hread => exact FieldBlock.within_of_pending_eq_none rfl rfl _
  | headerIncomplete hread => exact FieldBlock.read_within h (congrArg Prod.snd hread)
  | bodiless hread hhead hlength hempty => exact sound_afterMessage _ _
  | fixedBody hread hhead hlength hpos => exact ⟨hpos, Nat.le_refl _⟩
  | fixedWaits hdata => exact h
  | fixedEnds hdata hnext hremaining => exact sound_afterMessage _ _
  | fixedPiece hdata hnext hremaining =>
      obtain ⟨hpos, hle⟩ := h
      exact ⟨Nat.sub_pos_of_lt hremaining, Nat.le_trans (Nat.sub_le _ _) hle⟩
  | lastChunk hline hsize => exact FieldBlock.within_of_pending_eq_none rfl rfl _
  | chunk hline hsize hpos => exact hpos
  | dataWaits hdata => exact h
  | dataPiece hdata hnext hremaining => exact Nat.sub_pos_of_lt hremaining
  | trailerIncomplete hread => exact FieldBlock.read_within h (congrArg Prod.snd hread)
  | trailerEnds hread => exact sound_afterMessage _ _
  | _ => trivial

theorem step_sound {phase : Phase} {buffer : Bytes} (h : phase.Sound buffer) :
    (step direction limits phase buffer).phase.Sound (step direction limits phase buffer).rest :=
  (step_move direction limits phase buffer).sound h

theorem run_sound {phase : Phase} {buffer : Bytes} (h : phase.Sound buffer) :
    (run direction limits phase buffer).phase.Sound (run direction limits phase buffer).rest := by
  fun_induction run direction limits phase buffer with
  | case1 phase buffer next again later ih => exact ih (step_sound h)
  | case2 phase buffer next again => exact step_sound h

/-- A body of known length that is being read has bytes still to come, but not more than its length.
No buffer has a part in this. -/
def Remains : Phase → Prop
  | fixed length remaining _ => 0 < remaining ∧ remaining ≤ length
  | _ => True

theorem remains_afterMessage (switches : Bool) : (afterMessage switches).Remains := by
  cases switches <;> trivial

theorem Move.remains {phase : Phase} {buffer : Bytes} {next : Step}
    (hmove : Move direction limits phase buffer next) (h : phase.Remains) : next.phase.Remains := by
  cases hmove with
  | bodiless hread hhead hlength hempty => exact remains_afterMessage _
  | fixedBody hread hhead hlength hpos => exact ⟨hpos, Nat.le_refl _⟩
  | fixedWaits hdata => exact h
  | fixedEnds hdata hnext hremaining => exact remains_afterMessage _
  | fixedPiece hdata hnext hremaining =>
      obtain ⟨-, hle⟩ := h
      exact ⟨Nat.sub_pos_of_lt hremaining, Nat.le_trans (Nat.sub_le _ _) hle⟩
  | trailerEnds hread => exact remains_afterMessage _
  | _ => trivial

theorem run_remains {phase : Phase} {buffer : Bytes} (h : phase.Remains) :
    (run direction limits phase buffer).phase.Remains := by
  fun_induction run direction limits phase buffer with
  | case1 phase buffer next again later ih =>
      exact ih ((step_move direction limits phase buffer).remains h)
  | case2 phase buffer next again => exact (step_move direction limits phase buffer).remains h

/-- Whether a phase reports what it reads in pieces, so that its steps depend on how much has
arrived. -/
def readsPieces : Phase → Bool
  | fixed _ _ _ => true
  | untilClose => true
  | chunkData _ _ => true
  | raw => true
  | _ => false

/-- A reader that waits where it reads pieces has nothing left to read. -/
theorem Move.rest_of_readsPieces {phase : Phase} {buffer : Bytes} {next : Step}
    (hmove : Move direction limits phase buffer next) (hvalid : limits.Valid)
    (h : phase.Sound buffer) (hagain : next.again = false)
    (hpieces : next.phase.readsPieces = true) : next.rest = [] := by
  cases hmove with
  | fixedWaits hdata => exact eq_nil_of_nextPiece hvalid h.1 hdata
  | openWaits hdata =>
      rw [← nextPiece_self] at hdata
      exact eq_nil_of_nextPiece hvalid hvalid.piece hdata
  | dataWaits hdata => exact eq_nil_of_nextPiece hvalid h hdata
  | rawWaits => rfl
  | passed hbuffer => rfl
  | _ => first | exact Bool.noConfusion hagain | exact Bool.noConfusion hpieces

/-- Where a run ends in a phase that reads pieces, everything has been read. -/
theorem run_rest_of_readsPieces {phase : Phase} {buffer : Bytes} (hvalid : limits.Valid)
    (h : phase.Sound buffer)
    (hpieces : (run direction limits phase buffer).phase.readsPieces = true) :
    (run direction limits phase buffer).rest = [] := by
  fun_induction run direction limits phase buffer with
  | case1 phase buffer next again later ih => exact ih (step_sound h) hpieces
  | case2 phase buffer next again =>
      rw [Bool.not_eq_true] at again
      exact (step_move direction limits phase buffer).rest_of_readsPieces hvalid h again hpieces

end HttpWire.Phase

namespace HttpWire

theorem Reader.feed_remains {reader : Reader} (h : reader.phase.Remains) (buffer : Bytes) :
    (reader.feed buffer).reader.phase.Remains := by
  refine Phase.run_remains ?_
  unfold currentPhase
  split
  · trivial
  · exact h

theorem Reader.close_remains {reader : Reader} (h : reader.phase.Remains) (buffer : Bytes) :
    (reader.close buffer).reader.phase.Remains := by
  simp only [close]
  split
  · exact feed_remains h buffer
  · trivial

theorem Reader.declineBody_remains {reader : Reader} (h : reader.phase.Remains) :
    reader.declineBody.phase.Remains := by
  unfold declineBody
  split
  · exact h
  · exact h

/-- A connection whose phase agrees with the bytes that wait. -/
def Connection.Sound (connection : Connection) : Prop :=
  connection.phase.Sound connection.buffer

/-- The phase in which the next call begins agrees with the bytes that wait. -/
theorem Connection.Sound.currentPhase {connection : Connection} (h : connection.Sound) :
    connection.reader.currentPhase.Sound connection.buffer := by
  unfold Reader.currentPhase
  split
  · trivial
  · exact h

/-- What a connection reports in pieces it reads as far as it has come. -/
theorem Connection.Sound.feed_rest {connection : Connection} (h : connection.Sound) (bytes : Bytes)
    (hpieces : (connection.reader.feed (connection.buffer ++ bytes)).reader.phase.readsPieces =
      true) :
    (connection.reader.feed (connection.buffer ++ bytes)).rest = [] :=
  Phase.run_rest_of_readsPieces connection.reader.valid (h.currentPhase.append bytes) hpieces

end HttpWire
