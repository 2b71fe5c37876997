import HttpWire.Proofs.Spans

/-!
# Lines and blocks of a growing buffer

While a line or a block is incomplete, its buffer grows. What has been found in the buffer so far is
found in the longer buffer as well, and a block that was taken up to some line is continued from
there as if it had been read in one go.

- `Line.scan_append_found`, `Line.scan_append_tooLong`: a verdict on a line is final.
- `FieldBlock.Within`: how far a block has been read, against the buffer; `FieldBlock.read_within`
  says that reading keeps it.
- `FieldBlock.read_append`: reading a longer buffer continues the reading of the shorter one.
-/

set_option autoImplicit false

namespace HttpWire

open Text

/-! ## Lines -/

namespace Line

variable {limit charged start : Nat} {buffer : Bytes}

theorem endMark?_append {bytes : Bytes} {mark : Nat} (h : endMark? bytes = some mark)
    (more : Bytes) : endMark? (bytes ++ more) = some mark := by
  match bytes with
  | [] => simp [endMark?] at h
  | [b] =>
      simp only [endMark?] at h
      split at h
      · simp at h
      · rename_i hcr
        rw [← h]
        cases more with
        | nil => simp [endMark?, hcr]
        | cons c rest => simp [endMark?, hcr]
  | b :: c :: rest => exact h

theorem scan_append_found {line : Line} (h : scan limit charged buffer start = .found line)
    (more : Bytes) : scan limit charged (buffer ++ more) start = .found line := by
  obtain ⟨hstart, hstop, hnext, hbuffer, -⟩ := scan_found h
  have hle : start ≤ buffer.length := by omega
  simp only [scan] at h ⊢
  rw [List.drop_append_of_le_length hle]
  generalize buffer.drop start = tail at h ⊢
  split at h
  · simp at h
  · rename_i hlimit
    split at h
    · simp at h
    · rename_i mark hmark
      have hbounds := endMark?_bounds hmark
      have htake : ((tail ++ more).takeWhile fun b => !isLineEnd b) =
          tail.takeWhile fun b => !isLineEnd b := by
        rw [List.takeWhile_append, if_neg]
        simp only [List.length_drop] at hbounds
        omega
      have hdrop : (tail ++ more).drop (tail.takeWhile fun b => !isLineEnd b).length =
          tail.drop (tail.takeWhile fun b => !isLineEnd b).length ++ more :=
        List.drop_append_of_le_length (List.takeWhile_prefix _).length_le
      rw [htake, if_neg hlimit, hdrop, endMark?_append hmark]
      exact h

theorem scan_append_tooLong (h : scan limit charged buffer start = .tooLong) (more : Bytes) :
    scan limit charged (buffer ++ more) start = .tooLong := by
  have hfront : ((buffer.drop start).takeWhile fun b => !isLineEnd b).length ≤
      (((buffer ++ more).drop start).takeWhile fun b => !isLineEnd b).length := by
    rw [List.drop_append, List.takeWhile_append]
    split
    · rename_i hall
      rw [List.length_append, hall]
      exact Nat.le_add_right _ _
    · exact Nat.le_refl _
  simp only [scan] at h ⊢
  split at h
  · rw [if_pos (by omega)]
  · split at h <;> simp at h

end Line

/-! ## Fields -/

namespace FieldSpans

variable {buffer : Bytes} {line : Line}

theorem ofLine_append (h : line.stop ≤ buffer.length) (more : Bytes) :
    ofLine (buffer ++ more) line = ofLine buffer line := by
  have hfind : ∀ (p : UInt8 → Bool) (start : Nat),
      Span.find p (buffer ++ more) ⟨start, line.stop⟩ = Span.find p buffer ⟨start, line.stop⟩ :=
    fun p start => Span.find_append p ⟨start, line.stop⟩ h more
  simp only [ofLine, Span.find_append _ _ h, Span.textEnd_append _ h, hfind]

theorem extend_append (spans : FieldSpans) (h : line.stop ≤ buffer.length) (more : Bytes) :
    extend (buffer ++ more) spans line = extend buffer spans line := by
  have htext : Span.textEnd (buffer ++ more) ⟨spans.value.stop, line.stop⟩ =
      Span.textEnd buffer ⟨spans.value.stop, line.stop⟩ :=
    Span.textEnd_append ⟨spans.value.stop, line.stop⟩ h more
  simp only [extend, Span.find_append _ _ h, Span.textEnd_append _ h, htext]

theorem field_append {spans : FieldSpans} {position : Nat} (strict : Bool)
    (hspans : spans.InOrder position) (h : position ≤ buffer.length) (more : Bytes) :
    field strict (buffer ++ more) spans = field strict buffer spans := by
  obtain ⟨hname, hbetween, hvalue, hbefore⟩ := hspans
  simp only [field]
  rw [Span.bytes_append spans.name (by omega), Span.bytes_append spans.value (by omega)]

end FieldSpans

/-! ## Blocks -/

namespace FieldBlock

variable {limit : Nat} {strict : Bool} {buffer : Bytes}

/-- A block whose open field stands in the part of the buffer that has been taken. -/
structure Within (block : FieldBlock) (buffer : Bytes) : Prop where
  position : block.position ≤ buffer.length
  pending : ∀ spans ∈ block.pending, spans.InOrder block.position

/-- A block of which nothing has been taken. -/
theorem within_of_pending_eq_none {block : FieldBlock} (hposition : block.position = 0)
    (hpending : block.pending = none) (buffer : Bytes) : block.Within buffer := by
  refine ⟨by omega, ?_⟩
  rw [hpending]
  intro spans hspans
  exact absurd hspans (Option.not_mem_none spans)

theorem within_start (charged : Nat) (buffer : Bytes) : Within { charged } buffer :=
  within_of_pending_eq_none rfl rfl buffer

theorem Within.append {block : FieldBlock} (h : block.Within buffer) (more : Bytes) :
    block.Within (buffer ++ more) := by
  refine ⟨?_, h.pending⟩
  rw [List.length_append]
  exact Nat.le_trans h.position (Nat.le_add_right _ _)

theorem continues_append {line : Line} (h : line.stop ≤ buffer.length) (more : Bytes) :
    continues (buffer ++ more) line = continues buffer line := by
  simp only [continues, Span.bytes_append _ h]

/-- What a line does depends on the bytes up to its end alone. -/
theorem takeLine_append (strict : Bool) {line : Line} {pending : Option FieldSpans}
    (h : line.stop ≤ buffer.length) (hpending : ∀ spans ∈ pending, spans.InOrder line.start)
    (hstart : line.start ≤ buffer.length) (more : Bytes) :
    takeLine strict (buffer ++ more) pending line = takeLine strict buffer pending line := by
  cases pending with
  | none => simp only [takeLine, FieldSpans.ofLine_append h]
  | some spans =>
      simp only [takeLine, continues_append h, FieldSpans.extend_append spans h,
        FieldSpans.ofLine_append h,
        FieldSpans.field_append strict (hpending spans rfl) hstart]

/-- What a line does: it continues the field that is open, or it completes that field and, unless it
is empty, opens one of its own. -/
theorem takeLine_cases {line : Line} {pending opened : Option FieldSpans} {done : Option Field}
    (h : takeLine strict buffer pending line = .ok (done, opened)) :
    (∃ spans ∈ pending, continues buffer line = true ∧ done = none ∧
        opened = some (spans.extend buffer line)) ∨
      ((∀ field ∈ done, ∃ spans ∈ pending, spans.field strict buffer = .ok field) ∧
        opened = if line.isEmpty then none else some (.ofLine buffer line)) := by
  cases pending with
  | none =>
      cases h
      exact .inr ⟨fun field hfield => absurd hfield (Option.not_mem_none field), rfl⟩
  | some spans =>
      simp only [takeLine] at h
      split at h
      · rename_i hcontinues
        cases h
        exact .inl ⟨spans, rfl, hcontinues, rfl, rfl⟩
      · split at h
        · cases h
        · rename_i field hfield
          cases h
          refine .inr ⟨?_, rfl⟩
          rintro field' ⟨⟩
          exact ⟨spans, rfl, hfield⟩

/-- What the field that a line leaves open is: the field on the line, or one that the line
continues. -/
theorem takeLine_opened {P : FieldSpans → Prop} {line : Line} {pending : Option FieldSpans}
    {done : Option Field} {spans : FieldSpans}
    (h : takeLine strict buffer pending line = .ok (done, some spans))
    (hextend : ∀ old ∈ pending, P (old.extend buffer line))
    (hline : P (.ofLine buffer line)) : P spans := by
  rcases takeLine_cases h with ⟨old, hold, -, -, hopened⟩ | ⟨-, hopened⟩
  · cases hopened
    exact hextend old hold
  · obtain ⟨-, hspans⟩ := Option.ite_none_left_eq_some.1 hopened.symm
    cases hspans
    exact hline

/-- The field that a line leaves open stands before the end of the line. -/
theorem takeLine_inOrder {line : Line} {pending : Option FieldSpans} {done : Option Field}
    {spans : FieldSpans} (hline : line.Within buffer)
    (hpending : ∀ spans ∈ pending, spans.InOrder line.start)
    (h : takeLine strict buffer pending line = .ok (done, some spans)) :
    spans.InOrder line.stop := by
  apply takeLine_opened h
  · intro old hold
    exact FieldSpans.extend_inOrder hline (hpending old hold)
  · exact FieldSpans.ofLine_inOrder hline

theorem Within.found {block : FieldBlock} (h : block.Within buffer) {line : Line}
    (hline : Line.scan limit block.charged buffer block.position = .found line) :
    line.Within buffer ∧ ∀ spans ∈ block.pending, spans.InOrder line.start := by
  obtain ⟨hstart, hstop, hnext, hbuffer, -⟩ := Line.scan_found hline
  refine ⟨⟨hstop, by omega⟩, ?_⟩
  rw [hstart]
  exact h.pending

theorem Within.next {block : FieldBlock} (h : block.Within buffer) {line : Line}
    (hline : Line.scan limit block.charged buffer block.position = .found line)
    {done : Option Field} {spans : FieldSpans}
    (htake : takeLine strict buffer block.pending line = .ok (done, some spans)) (charged : Nat) :
    Within ⟨charged, line.next, some spans⟩ buffer := by
  obtain ⟨hwithin, hpending⟩ := h.found hline
  obtain ⟨hstart, hstop, hnext, hbuffer, -⟩ := Line.scan_found hline
  refine ⟨hbuffer, ?_⟩
  intro spans' hspans'
  simp only [Option.mem_def, Option.some.injEq] at hspans'
  rw [← hspans']
  exact (takeLine_inOrder hwithin hpending htake).mono (Nat.le_of_lt hnext)

theorem read_within {block later : FieldBlock} (h : block.Within buffer)
    (hread : (read limit strict buffer block).2 = .incomplete later) : later.Within buffer := by
  fun_induction read limit strict buffer block with
  | case1 => simp at hread
  | case2 block hline =>
      simp only [Outcome.incomplete.injEq] at hread
      rw [← hread]
      exact h
  | case3 => simp at hread
  | case4 => simp at hread
  | case5 block line hline charged done spans htake further ih =>
      exact ih (h.next hline htake charged) hread

/-! ### One line at a time -/

theorem read_scan {block : FieldBlock} {found : Line.Scan}
    (h : Line.scan limit block.charged buffer block.position = found) :
    read limit strict buffer block =
      match found with
      | .tooLong => ([], .refused (.headerTooLong limit))
      | .incomplete => ([], .incomplete block)
      | .found line =>
          match takeLine strict buffer block.pending line with
          | .error cause => ([], .refused cause)
          | .ok (done, none) => (done.toList, .complete line.next (block.charged + line.length))
          | .ok (done, some spans) =>
              let further :=
                read limit strict buffer ⟨block.charged + line.length, line.next, some spans⟩
              (done.toList ++ further.1, further.2) := by
  rw [read]
  split <;> rename_i hfound <;> rw [h] at hfound <;> subst hfound <;> rfl

theorem read_tooLong {block : FieldBlock}
    (h : Line.scan limit block.charged buffer block.position = .tooLong) :
    read limit strict buffer block = ([], .refused (.headerTooLong limit)) :=
  read_scan h

theorem read_incomplete {block : FieldBlock}
    (h : Line.scan limit block.charged buffer block.position = .incomplete) :
    read limit strict buffer block = ([], .incomplete block) :=
  read_scan h

theorem read_found {block : FieldBlock} {line : Line}
    (h : Line.scan limit block.charged buffer block.position = .found line) :
    read limit strict buffer block =
      match takeLine strict buffer block.pending line with
      | .error cause => ([], .refused cause)
      | .ok (done, none) => (done.toList, .complete line.next (block.charged + line.length))
      | .ok (done, some spans) =>
          let further :=
            read limit strict buffer ⟨block.charged + line.length, line.next, some spans⟩
          (done.toList ++ further.1, further.2) :=
  read_scan h

/-- Reading a longer buffer continues the reading of the shorter one: a block that is closed or
refused stays so, and a block that is incomplete is taken up where it was left. -/
theorem read_append (limit : Nat) (strict : Bool) {block : FieldBlock} (h : block.Within buffer)
    (more : Bytes) :
    read limit strict (buffer ++ more) block =
      match read limit strict buffer block with
      | (fields, .incomplete later) =>
          let further := read limit strict (buffer ++ more) later
          (fields ++ further.1, further.2)
      | decided => decided := by
  -- line by line: a verdict on a line is final, and only an incomplete line waits for more
  fun_induction read limit strict buffer block with
  | case1 block hline => exact read_tooLong (Line.scan_append_tooLong hline more)
  | case2 block hline => simp only [List.nil_append]
  | case3 block line hline cause htake =>
      obtain ⟨hwithin, hpending⟩ := h.found hline
      have htake' := takeLine_append strict hwithin.2 hpending
        (Nat.le_trans hwithin.1 hwithin.2) more
      rw [read_found (Line.scan_append_found hline more), htake', htake]
  | case4 block line hline charged done htake =>
      obtain ⟨hwithin, hpending⟩ := h.found hline
      have htake' := takeLine_append strict hwithin.2 hpending
        (Nat.le_trans hwithin.1 hwithin.2) more
      rw [read_found (Line.scan_append_found hline more), htake', htake]
  | case5 block line hline charged done spans htake further ih =>
      obtain ⟨hwithin, hpending⟩ := h.found hline
      have htake' := takeLine_append strict hwithin.2 hpending
        (Nat.le_trans hwithin.1 hwithin.2) more
      rw [read_found (Line.scan_append_found hline more), htake', htake]
      simp only
      rw [ih (h.next hline htake charged)]
      simp only [further]
      rcases read limit strict buffer ⟨charged, line.next, some spans⟩ with ⟨fields, outcome⟩
      cases outcome with
      | incomplete later => simp only [List.append_assoc]
      | complete next charged => rfl
      | refused cause => rfl

end FieldBlock

end HttpWire
