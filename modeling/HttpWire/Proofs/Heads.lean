import HttpWire.Proofs.History
import HttpWire.Proofs.Lines

/-!
# The head that is being read

While a header block is open, a reader keeps the start line and the fields that are complete, and the
bytes of the block wait in the buffer. What is kept is what the input holds: the start line is read
off the line before the block, and the fields are those that the block gives when it is read in one
go, however it was cut.

- `Line.scan_split`: a line that is found, as a piece of the buffer.
- `StartLine.StandsBefore`, `FieldBlock.Resumes`: where a start line and the fields come from.
- `Walk.recalls`: every walk keeps them; `Connection.push_header` says what is kept after a push.
-/

set_option autoImplicit false

namespace HttpWire

open Text

/-- A line that is found is followed by its end mark and by what is left, and holds no line end. -/
theorem Line.scan_split {limit charged start : Nat} {buffer : Bytes} {line : Line}
    (h : scan limit charged buffer start = .found line) :
    ∃ mark : Bytes, buffer.drop start = line.bytes buffer ++ (mark ++ buffer.drop line.next) ∧
      (∀ b ∈ line.bytes buffer, isLineEnd b = false) ∧
      endMark? (mark ++ buffer.drop line.next) = some mark.length := by
  obtain ⟨text, mark, rest, hdrop, htext, hmark, rfl, -⟩ := scan_found_front h
  rw [bytes_ofText hdrop, drop_ofText hdrop]
  exact ⟨mark, hdrop, htext, hmark.endMark?_eq⟩

/-! ## Where a start line and the fields come from -/

/-- A start line that is read off the last line before the rest of an input. -/
def StartLine.StandsBefore (first : StartLine) (direction : Direction) (input rest : Bytes) :
    Prop :=
  ∃ before text mark : Bytes, input = before ++ (text ++ (mark ++ rest)) ∧
    (∀ b ∈ text, isLineEnd b = false) ∧ Line.endMark? (mark ++ rest) = some mark.length ∧
    StartLine.read direction text = .ok (some first)

theorem StartLine.StandsBefore.append {first : StartLine} {direction : Direction}
    {input rest : Bytes} (h : first.StandsBefore direction input rest) (more : Bytes) :
    first.StandsBefore direction (input ++ more) (rest ++ more) := by
  obtain ⟨before, text, mark, rfl, htext, hmark, hread⟩ := h
  refine ⟨before, text, mark, by simp only [List.append_assoc], htext, ?_, hread⟩
  rw [← List.append_assoc]
  exact Line.endMark?_append hmark more

namespace FieldBlock

variable {limits : Limits} {limit base : Nat} {strict : Bool} {buffer : Bytes}

/-- A block at the front of a buffer that was taken as far as `block` says and has given the fields
`fields` so far: whatever follows, reading it from its beginning goes on from there. -/
def Resumes (limits : Limits) (buffer : Bytes) (fields : List Field) (block : FieldBlock) : Prop :=
  ∀ more : Bytes, read limits.header limits.strict (buffer ++ more) {} =
    let further := read limits.header limits.strict (buffer ++ more) block
    (fields ++ further.1, further.2)

/-- As `Resumes`, for a block that begins with some charge. -/
def ResumesFrom (limits : Limits) (base : Nat) (buffer : Bytes) (fields : List Field)
    (block : FieldBlock) : Prop :=
  ∀ more : Bytes, read limits.header limits.strict (buffer ++ more) { charged := base } =
    let further := read limits.header limits.strict (buffer ++ more) block
    (fields ++ further.1, further.2)

theorem ResumesFrom.append {fields : List Field} {block : FieldBlock}
    (h : ResumesFrom limits base buffer fields block) (bytes : Bytes) :
    ResumesFrom limits base (buffer ++ bytes) fields block := by
  intro more
  rw [List.append_assoc]
  exact h (bytes ++ more)

/-- Reading on keeps a block one that was read from its beginning. -/
theorem ResumesFrom.read {fields more : List Field} {block later : FieldBlock}
    (h : ResumesFrom limits base buffer fields block) (hwithin : block.Within buffer)
    (hread : block.read limits.header limits.strict buffer = (more, .incomplete later)) :
    ResumesFrom limits base buffer (fields ++ more) later := by
  intro bytes
  have hlonger := read_append limits.header limits.strict hwithin bytes
  rw [hread] at hlonger
  rw [h bytes, hlonger]
  simp only [List.append_assoc]

theorem Resumes.append {fields : List Field} {block : FieldBlock}
    (h : Resumes limits buffer fields block) (bytes : Bytes) :
    Resumes limits (buffer ++ bytes) fields block :=
  ResumesFrom.append h bytes

theorem Resumes.read {fields more : List Field} {block later : FieldBlock}
    (h : Resumes limits buffer fields block) (hwithin : block.Within buffer)
    (hread : block.read limits.header limits.strict buffer = (more, .incomplete later)) :
    Resumes limits buffer (fields ++ more) later :=
  ResumesFrom.read h hwithin hread

/-- If nothing more of a block can be taken, reading it from its beginning takes no more of it. -/
theorem Resumes.read_all {fields : List Field} {block : FieldBlock}
    (h : Resumes limits buffer fields block)
    (hread : block.read limits.header limits.strict buffer = ([], .incomplete block)) :
    FieldBlock.read limits.header limits.strict buffer {} = (fields, .incomplete block) := by
  have hall := h []
  simp only [List.append_nil, hread] at hall
  exact hall

theorem read_again {block later : FieldBlock}
    (h : (FieldBlock.read limit strict buffer block).2 = .incomplete later) :
    FieldBlock.read limit strict buffer later = ([], .incomplete later) := by
  fun_induction FieldBlock.read limit strict buffer block with
  | case1 => cases h
  | case2 block hline =>
      simp only [Outcome.incomplete.injEq] at h
      rw [← h]
      exact read_incomplete hline
  | case3 => cases h
  | case4 => cases h
  | case5 block line hline charged done spans htake further ih => exact ih h

end FieldBlock

/-! ## Walks -/

namespace Phase

variable {direction : Direction} {limits : Limits} {input : Bytes}

/-- A phase in which the start line and the fields of an open header block are those of the
input. -/
def Recalls (direction : Direction) (limits : Limits) (input : Bytes) : Phase → Bytes → Prop
  | header first fields block, rest =>
      first.StandsBefore direction input rest ∧ block.Resumes limits rest fields.toList
  | idle, _ => True
  | startLine, _ => True
  | fixed _ _ _, _ => True
  | untilClose, _ => True
  | chunkSize _, _ => True
  | chunkData _ _, _ => True
  | chunkEnd _, _ => True
  | trailer _ _ _, _ => True
  | refused, _ => True
  | raw, _ => True

theorem Move.recalls {phase : Phase} {rest : Bytes} {next : Step}
    (hmove : Move direction limits phase rest next) (hsound : phase.Sound rest)
    (hsuffix : rest <:+ input) (h : phase.Recalls direction limits input rest) :
    next.phase.Recalls direction limits input next.rest := by
  cases hmove with
  | started hline hread =>
      obtain ⟨mark, hsplit, htext, hmark⟩ := Line.scan_split hline
      obtain ⟨before, hbefore⟩ := hsuffix
      refine ⟨⟨before, _, mark, ?_, htext, hmark, hread⟩, fun more => rfl⟩
      rw [← hbefore]
      exact congrArg (before ++ ·) hsplit
  | headerIncomplete hread => exact ⟨h.1, h.2.read hsound hread⟩
  | @bodiless _ _ _ _ _ _ _ head _ hread hhead hlength hempty =>
      cases hswitches : head.handsOver direction <;> trivial
  | @fixedEnds _ _ switches _ _ hdata hnext hremaining => cases switches <;> trivial
  | @trailerEnds switches _ _ _ _ _ _ hread => cases switches <;> trivial
  | _ => trivial

/-- A header block in which a run ends gives nothing more. -/
theorem run_header {phase : Phase} {buffer : Bytes} {first : StartLine} {fields : Fields}
    {block : FieldBlock}
    (h : (run direction limits phase buffer).phase = .header first fields block) :
    block.read limits.header limits.strict (run direction limits phase buffer).rest =
      ([], .incomplete block) := by
  obtain ⟨last, before, taken, hmove, hagain, hphase, hrest⟩ :=
    run_last direction limits phase buffer
  rw [hphase] at h
  rw [hrest]
  cases hmove with
  | headerIncomplete hread =>
      cases h
      exact FieldBlock.read_again (congrArg Prod.snd hread)
  | _ => first | exact Bool.noConfusion hagain | cases h

end Phase

theorem Walk.recalls {direction : Direction} {limits : Limits} {input rest : Bytes}
    {record : List Entry} {phase : Phase} (h : Walk direction limits input record phase rest) :
    phase.Recalls direction limits input rest := by
  induction h with
  | start => trivial
  | @receive input rest record phase walk bytes ih =>
      cases phase with
      | header first fields block => exact ⟨ih.1.append bytes, ih.2.append bytes⟩
      | _ => trivial
  | forget walk ih => trivial
  | step walk ih => exact (Phase.step_move _ _ _ _).recalls walk.sound walk.suffix ih
  | ended walk hclose ih => exact ih
  | closed walk hclose hrest ih => trivial

/-- After what has arrived is read, an open header block stands at the front of the buffer, behind
its start line, and the fields that are kept are those that it gives. -/
theorem Connection.push_header {direction : Direction} {limits : Limits} {new : Connection}
    (hstart : start direction limits = .ok new) (calls : List Call) {first : StartLine}
    {fields : Fields} {block : FieldBlock}
    (hphase : ((new.after calls).push []).1.phase = .header first fields block) :
    first.StandsBefore direction (calls.flatMap Call.bytes)
        ((new.after calls).push []).1.buffer ∧
      FieldBlock.read limits.header limits.strict ((new.after calls).push []).1.buffer {} =
        (fields.toList, .incomplete block) := by
  have hwalk := start_walk hstart (calls ++ [.push []])
  have hafter : new.after (calls ++ [.push []]) = ((new.after calls).push []).1 :=
    after_append new calls [.push []]
  rw [hafter, hphase, List.flatMap_append, List.flatMap_singleton] at hwalk
  obtain ⟨hfirst, hresumes⟩ := hwalk.recalls
  refine ⟨by simpa [Call.bytes] using hfirst, ?_⟩
  -- nothing of the block is left to take, so reading all of it ends where the reader stands
  obtain ⟨-, hlimits⟩ := start_reader hstart calls
  have hrest : block.read (new.after calls).reader.limits.header
      (new.after calls).reader.limits.strict ((new.after calls).push []).1.buffer =
        ([], .incomplete block) := Phase.run_header hphase
  rw [hlimits] at hrest
  exact hresumes.read_all hrest

end HttpWire
