import Mathlib.Algebra.Group.Nat.Defs
import HttpWire.Proofs.Forgetting
import HttpWire.Proofs.Weight
import HttpWire.Reader.Guarded

/-!
# No guard of a reader fails

The guarded reader takes the same steps as the reader, so no access fails that it guards. What makes
the positions safe that are kept between two calls is that they stand in order up to the position
that the block has been taken to, and that nothing is cut out of the buffer before a line has been
found behind that position: if the buffer is long enough for the line, it is long enough for them.

- `Guarded.find?_eq`, `Guarded.scan?_eq`, `Guarded.parts?_eq`, `Guarded.takeLine?_eq`,
  `Guarded.read?_eq`: each part of the guarded reader gives what the reader gives.
- `Phase.Ordered`: what holds of the kept positions, whatever becomes of the buffer.
- `Guarded.step?_eq`: the same for a step.
- `Connection.steps_guarded`: no guard fails, whatever the owner of a reader does.
-/

set_option autoImplicit false

namespace HttpWire

open Text

namespace Guarded

variable {bound : Option Nat} {buffer : Bytes}

/-! ## Guards -/

theorem Fits.mono {m n : Nat} (h : Fits bound n) (hle : m ≤ n) : Fits bound m := by
  intro b hb
  exact Nat.lt_of_le_of_lt hle (h b hb)

/-- Without a bound every number fits. -/
theorem fits_none (n : Nat) : Fits none n := by
  intro b hb
  cases hb

theorem sum?_eq {a b n : Nat} (h : Fits bound n) (hle : a + b ≤ n) :
    sum? bound a b = some (a + b) :=
  if_pos (h.mono hle)

theorem slice?_eq {span : Span} (h : span.Within buffer) :
    slice? buffer span = some (span.bytes buffer) :=
  if_pos h

theorem after?_eq {count : Nat} (h : count ≤ buffer.length) :
    after? buffer count = some (buffer.drop count) :=
  if_pos h

theorem difference?_eq {count less : Nat} (h : less ≤ count) :
    difference? count less = some (count - less) :=
  if_pos h

/-! ## Searches -/

theorem find?_eq (hfits : Fits bound buffer.length) (p : UInt8 → Bool) {span : Span}
    (h : span.Within buffer) : find? bound p buffer span = some (span.find p buffer) := by
  have hlength := Span.length_bytes h
  have hle := Span.find_le_stop p buffer h.1
  simp only [find?, slice?_eq h, Option.bind_eq_bind, Option.bind_some]
  split
  · rename_i hall
    have hstart := h.1
    rw [Span.find, hall, hlength]
    simp only [Span.length, Option.some.injEq]
    omega
  · exact sum?_eq hfits (Nat.le_trans hle h.2)

theorem textEnd?_eq (hfits : Fits bound buffer.length) {span : Span} (h : span.Within buffer) :
    textEnd? bound buffer span = some (span.textEnd buffer) := by
  have hle := Nat.le_trans (Span.textEnd_le_stop buffer span h.1) h.2
  simp only [textEnd?, slice?_eq h, Option.bind_eq_bind, Option.bind_some]
  rw [Span.textEnd] at hle ⊢
  generalize (dropTrailing isBlank (span.bytes buffer)).length = length at hle ⊢
  cases length with
  | zero => rfl
  | succ last =>
      simp only
      rw [sum?_eq hfits (by omega), Option.bind_some, sum?_eq hfits (by omega), Nat.add_assoc]

section Scan

variable {limit charged start : Nat} {text : Bytes}

/-- The search for a line whose text is followed by a line end. The first byte of the mark is there,
and whether it is the whole mark is decided by the byte after it. -/
theorem scan?_text {b : UInt8} {rest : Bytes} (hfits : Fits bound buffer.length)
    (hcharged : Fits bound (charged + text.length)) (hlimit : charged + text.length ≤ limit)
    (htext : ∀ b ∈ text, isLineEnd b = false) (hb : isLineEnd b = true)
    (hdrop : buffer.drop start = text ++ b :: rest) :
    scan? bound limit charged buffer start = some (Line.scan limit charged buffer start) := by
  have hmark : (b :: rest).takeWhile (!isLineEnd ·) = [] :=
    List.takeWhile_cons_of_neg (by simp [hb])
  have htake : (text ++ b :: rest).takeWhile (!isLineEnd ·) = text := by
    rw [List.takeWhile_append_of_pos (by simpa using htext), hmark, List.append_nil]
  have hlength := congrArg List.length hdrop
  simp only [List.length_drop, List.length_append, List.length_cons] at hlength
  have hne : text.length ≠ (text ++ b :: rest).length := by
    simp only [List.length_append, List.length_cons]
    omega
  have hfirst : buffer[start + text.length]? = some b := by
    rw [← List.getElem?_drop, hdrop, List.getElem?_append_right (Nat.le_refl _), Nat.sub_self]
    rfl
  have hsecond : buffer[start + text.length + 1]? = rest[0]? := by
    rw [Nat.add_assoc, ← List.getElem?_drop, hdrop,
      List.getElem?_append_right (Nat.le_add_right _ _), Nat.add_sub_cancel_left]
    rfl
  rw [Line.scan_text_at htext hmark hdrop, if_neg (Nat.not_lt.2 hlimit)]
  simp only [scan?, hdrop, htake, Option.bind_eq_bind, sum?_eq hcharged (Nat.le_refl _),
    Option.bind_some, if_neg (Nat.not_lt.2 hlimit), if_neg hne]
  rw [sum?_eq hfits (by omega), Option.bind_some, sum?_eq hfits (by omega), Option.bind_some,
    hfirst, Option.bind_some, hsecond]
  cases rest with
  | nil =>
      simp only [Line.endMark?, beq_iff_eq]
      split <;> rfl
  | cons c rest =>
      simp only [List.length_cons] at hlength
      simp only [Line.endMark?, List.getElem?_cons_zero, Bool.and_eq_true, beq_iff_eq]
      by_cases hcr : b = cr
      · by_cases hlf : c = lf
        · rw [if_pos hcr, if_pos hlf, if_pos ⟨hcr, hlf⟩, sum?_eq hfits (by omega)]
          rfl
        · rw [if_pos hcr, if_neg hlf, if_neg fun h => hlf h.2]
      · rw [if_neg hcr, if_neg fun h => hcr h.1]

/-- The search for a line, at a position that may lie beyond the buffer. What the line would be
charged is compared with the limit before it is paid, so that this sum has to fit. -/
theorem scan?_eq (hfits : Fits bound buffer.length)
    (hcharged : Fits bound (charged + ((buffer.drop start).takeWhile (!isLineEnd ·)).length)) :
    scan? bound limit charged buffer start = some (Line.scan limit charged buffer start) := by
  by_cases hlimit : limit < charged + ((buffer.drop start).takeWhile (!isLineEnd ·)).length
  · simp only [scan?, Line.scan, Option.bind_eq_bind, sum?_eq hcharged (Nat.le_refl _),
      Option.bind_some, if_pos hlimit]
    rw [sum?_eq hcharged hlimit]
    rfl
  · rcases Phase.dropWhile_split (!isLineEnd ·) (buffer.drop start) with
      ⟨-, hall⟩ | ⟨text, b, rest, -, hdrop, hall, hb⟩
    · have htake : (buffer.drop start).takeWhile (!isLineEnd ·) = buffer.drop start := by
        simpa using @List.takeWhile_append_of_pos _ _ _ [] hall
      rw [htake] at hlimit hcharged
      have hscan : Line.scan limit charged buffer start = .incomplete := by
        have hend := @Line.scan_unended limit charged start buffer _ _ (by simpa using hall)
          (.inl rfl) (List.append_nil _).symm
        rwa [if_neg hlimit] at hend
      simp only [scan?, htake, Option.bind_eq_bind, sum?_eq hcharged (Nat.le_refl _),
        Option.bind_some, if_neg hlimit, if_true, hscan]
    · have htext : ∀ b ∈ text, isLineEnd b = false := by simpa using hall
      have hb : isLineEnd b = true := by simpa using hb
      rw [hdrop, List.takeWhile_append_of_pos hall, List.takeWhile_cons_of_neg (by simp [hb]),
        List.append_nil] at hlimit hcharged
      exact scan?_text hfits hcharged (Nat.not_lt.1 hlimit) htext hb hdrop

end Scan

/-! ## Start lines -/

theorem word_bytes (buffer : Bytes) (span : Span) :
    StartLine.word (span.bytes buffer) =
      let start := span.find (!isBlank ·) buffer
      let stop := Span.find isBlank buffer ⟨start, span.stop⟩
      ((⟨start, stop⟩ : Span).bytes buffer, (⟨stop, span.stop⟩ : Span).bytes buffer) := by
  have hword := Span.bytes_upTo_find isBlank buffer ⟨span.find (!isBlank ·) buffer, span.stop⟩
  have hrest := Span.bytes_from_find isBlank buffer ⟨span.find (!isBlank ·) buffer, span.stop⟩
  simp only at hrest
  simp only [StartLine.word, ← Span.bytes_from_text, hword, hrest]

/-- The last part of a start line stands between two positions that are searched for from different
sides; they cross only if the part is empty. -/
theorem trim_bytes {line : Line} (hline : line.Within buffer) {position : Nat}
    (hstart : line.start ≤ position) (hstop : position ≤ line.stop) :
    let start := Span.find (!isBlank ·) buffer ⟨position, line.stop⟩
    trim isBlank ((⟨position, line.stop⟩ : Span).bytes buffer) =
      (⟨start, max (line.textEnd buffer) start⟩ : Span).bytes buffer := by
  intro start
  have hle : start ≤ line.stop := Span.find_le_stop (!isBlank ·) buffer hstop
  by_cases hfound : start < line.stop
  · have htext := Span.textEnd_from_find hline position hstart hfound
    have hstop := Span.start_le_textEnd buffer ⟨start, line.stop⟩
    rw [← htext] at hstop
    rw [Nat.max_eq_left hstop]
    exact (Span.bytes_text hline position hstart hfound).symm
  · have hend : start = line.stop := Nat.le_antisymm hle (Nat.not_lt.1 hfound)
    have htext := Span.textEnd_le_stop buffer line.toSpan hline.1
    rw [trim, ← Span.bytes_from_text]
    rw [show Span.find (!isBlank ·) buffer ⟨position, line.stop⟩ = line.stop from hend, hend,
      Nat.max_eq_right htext]
    simp only [Span.bytes, Span.length, Nat.sub_self, List.take_zero, dropTrailing_nil]

theorem ofParts_parts (direction : Direction) (line : Bytes) :
    ofParts direction line (StartLine.parts line) = StartLine.read direction line := by
  cases direction with
  | request =>
      simp only [StartLine.read, StartLine.readRequest]
      rcases StartLine.parts line with ⟨first, second, rest⟩
      rfl
  | response =>
      simp only [StartLine.read, StartLine.readStatus]
      rcases StartLine.parts line with ⟨first, second, rest⟩
      rfl

section Parts

variable {line : Line} (hfits : Fits bound buffer.length) (hline : line.Within buffer)

include hfits hline

theorem find?_rest (p : UInt8 → Bool) {position : Nat} (h : position ≤ line.stop) :
    find? bound p buffer ⟨position, line.stop⟩ = some (Span.find p buffer ⟨position, line.stop⟩) ∧
      position ≤ Span.find p buffer ⟨position, line.stop⟩ ∧
      Span.find p buffer ⟨position, line.stop⟩ ≤ line.stop := by
  have hspan : (⟨position, line.stop⟩ : Span).Within buffer := ⟨h, hline.2⟩
  refine ⟨find?_eq hfits p hspan, ?_, ?_⟩
  · exact Span.start_le_find p buffer ⟨position, line.stop⟩
  · exact Span.find_le_stop p buffer h

theorem parts?_eq : parts? bound buffer line = some (StartLine.parts (line.bytes buffer)) := by
  obtain ⟨hfind₁, hfrom₁, hto₁⟩ := find?_rest hfits hline (!isBlank ·) hline.1
  obtain ⟨hfind₂, hfrom₂, hto₂⟩ := find?_rest hfits hline isBlank hto₁
  obtain ⟨hfind₃, hfrom₃, hto₃⟩ := find?_rest hfits hline (!isBlank ·) hto₂
  obtain ⟨hfind₄, hfrom₄, hto₄⟩ := find?_rest hfits hline isBlank hto₃
  obtain ⟨hfind₅, hfrom₅, hto₅⟩ := find?_rest hfits hline (!isBlank ·) hto₄
  have hstop := Span.textEnd_le_stop buffer line.toSpan hline.1
  have hslice : ∀ {start stop : Nat}, start ≤ stop → stop ≤ line.stop →
      slice? buffer ⟨start, stop⟩ = some ((⟨start, stop⟩ : Span).bytes buffer) := by
    intro start stop hle hin
    exact slice?_eq ⟨hle, Nat.le_trans hin hline.2⟩
  simp only [parts?, Option.bind_eq_bind, hfind₁, hfind₂, hfind₃, hfind₄, hfind₅, Option.bind_some,
    textEnd?_eq hfits hline]
  rw [hslice hfrom₂ hto₂, hslice hfrom₄ hto₄,
    hslice (Nat.le_max_right _ _) (Nat.max_le.2 ⟨hstop, hto₅⟩)]
  simp only [Option.bind_some, StartLine.parts, word_bytes]
  rw [trim_bytes hline (by omega) hto₄]

theorem startLine?_eq (direction : Direction) : startLine? bound direction buffer line =
    some (StartLine.read direction (line.bytes buffer)) := by
  simp only [startLine?, Option.bind_eq_bind, parts?_eq hfits hline, slice?_eq hline,
    Option.bind_some, ofParts_parts]

/-! ## Field lines -/

theorem afterColon?_eq {position : Nat} (h : position ≤ line.stop) :
    afterColon? bound buffer ⟨position, line.stop⟩ =
      some (min (Span.find (· == colon) buffer ⟨position, line.stop⟩ + 1) line.stop) := by
  obtain ⟨hmark, -, hle⟩ := find?_rest hfits hline (· == colon) h
  have hbuffer := hline.2
  simp only [afterColon?, hmark, Option.bind_eq_bind, Option.bind_some]
  split
  · rw [Nat.min_eq_right (by omega)]
  · rw [sum?_eq hfits (by omega), Nat.min_eq_left (by omega)]

theorem ofLine?_eq : ofLine? bound buffer line = some (.ofLine buffer line) := by
  open FieldSpans in
  obtain ⟨-, hname, hvalue, hfound, hstop⟩ := positions_le buffer hline.1
  have hstart : find? bound (!isBlank ·) buffer line.toSpan = some (nameStart buffer line) :=
    find?_eq hfits _ hline
  have hend : find? bound (fun b => b == colon || isBlank b) buffer
      ⟨nameStart buffer line, line.stop⟩ = some (nameStop buffer line) :=
    (find?_rest hfits hline _ (by omega)).1
  have hfrom : afterColon? bound buffer ⟨nameStop buffer line, line.stop⟩ =
      some (valueFrom buffer line) := afterColon?_eq hfits hline (by omega)
  have htext : find? bound (!isBlank ·) buffer ⟨valueFrom buffer line, line.stop⟩ =
      some (valueStart buffer line) := (find?_rest hfits hline _ (Nat.le_trans hfound hstop)).1
  simp only [ofLine?, ofLine_eq, Option.bind_eq_bind, hstart, hend, hfrom, htext,
    textEnd?_eq hfits hline, Option.bind_some]
  split <;> rfl

theorem extend?_eq {spans : FieldSpans} (hspans : spans.InOrder line.start) :
    extend? bound buffer spans line = some (spans.extend buffer line) := by
  have hrest : (⟨spans.value.stop, line.stop⟩ : Span).Within buffer :=
    ⟨Nat.le_trans hspans.before hline.1, hline.2⟩
  simp only [extend?, FieldSpans.extend, Option.bind_eq_bind, find?_eq hfits _ hline,
    textEnd?_eq hfits hline, textEnd?_eq hfits hrest, Option.bind_some]
  split
  · split <;> rfl
  · rfl

theorem opened?_eq : opened? bound buffer line =
    some (if line.isEmpty then none else some (.ofLine buffer line)) := by
  unfold opened?
  split
  · rfl
  · rw [ofLine?_eq hfits hline]
    rfl

end Parts

/-- The field that is taken stands in the part of the buffer before a line that was found. -/
theorem field?_eq (strict : Bool) {spans : FieldSpans} {position : Nat}
    (hspans : spans.InOrder position) (h : position ≤ buffer.length) :
    field? strict buffer spans = some (spans.field strict buffer) := by
  obtain ⟨hname, hbetween, hvalue, hbefore⟩ := hspans
  have hvaluewithin : spans.value.Within buffer := ⟨hvalue, Nat.le_trans hbefore h⟩
  have hnamewithin : spans.name.Within buffer :=
    ⟨hname, Nat.le_trans hbetween (Nat.le_trans hvalue hvaluewithin.2)⟩
  simp only [field?, Option.bind_eq_bind, slice?_eq hnamewithin, slice?_eq hvaluewithin,
    Option.bind_some, FieldSpans.field]

theorem continues?_eq {line : Line} (hline : line.Within buffer) :
    continues? buffer line = some (FieldBlock.continues buffer line) := by
  have hhead : (line.bytes buffer).head? =
      if line.length = 0 then none else buffer[line.start]? := by
    rw [Span.bytes, List.head?_take, List.head?_drop]
  unfold continues? FieldBlock.continues
  rw [hhead]
  by_cases hempty : line.isEmpty = true
  · have hle : line.stop ≤ line.start := of_decide_eq_true hempty
    have hlength : line.length = 0 := Nat.sub_eq_zero_of_le hle
    rw [if_pos hempty, if_pos hlength]
    rfl
  · have hlt : line.start < line.stop := by simpa [Span.isEmpty] using hempty
    have hlength : line.length ≠ 0 := Nat.sub_ne_zero_of_lt hlt
    rw [if_neg hempty, if_neg hlength,
      List.getElem?_eq_getElem (Nat.lt_of_lt_of_le hlt hline.2)]
    rfl

theorem takeLine?_eq (hfits : Fits bound buffer.length) (strict : Bool) {line : Line}
    (hline : line.Within buffer) {pending : Option FieldSpans}
    (hpending : ∀ spans ∈ pending, spans.InOrder line.start) :
    takeLine? bound strict buffer pending line =
      some (FieldBlock.takeLine strict buffer pending line) := by
  cases pending with
  | none =>
      simp only [takeLine?, FieldBlock.takeLine, continues?_eq hline, opened?_eq hfits hline,
        Option.bind_eq_bind, Option.bind_some]
  | some spans =>
      have hspans := hpending spans rfl
      have hstart := Nat.le_trans hline.1 hline.2
      simp only [takeLine?, FieldBlock.takeLine, continues?_eq hline, extend?_eq hfits hline hspans,
        field?_eq strict hspans hstart, opened?_eq hfits hline, Option.bind_eq_bind,
        Option.bind_some]
      split
      · rfl
      · cases spans.field strict buffer with
        | error cause => rfl
        | ok field => rfl

end Guarded

/-! ## Field blocks -/

namespace FieldBlock

variable {bound : Option Nat} {buffer : Bytes}

/-- A block whose open field stands before the position up to which the block has been taken,
wherever the buffer ends. -/
def Ordered (block : FieldBlock) : Prop :=
  ∀ spans ∈ block.pending, spans.InOrder block.position

theorem ordered_start (charged : Nat) : Ordered { charged } := by
  intro spans hspans
  cases hspans

/-- Where a line is found, the position is inside the buffer after all. -/
theorem Ordered.within {block : FieldBlock} (h : block.Ordered) {limit : Nat} {line : Line}
    (hline : Line.scan limit block.charged buffer block.position = .found line) :
    block.Within buffer := by
  obtain ⟨hstart, hstop, hnext, hbuffer, -⟩ := Line.scan_found hline
  exact ⟨by omega, h⟩

theorem Ordered.read {block later : FieldBlock} (h : block.Ordered) {limit : Nat} {strict : Bool}
    (hread : (FieldBlock.read limit strict buffer block).2 = .incomplete later) :
    later.Ordered := by
  fun_induction FieldBlock.read limit strict buffer block with
  | case1 => cases hread
  | case2 block hline =>
      cases hread
      exact h
  | case3 => cases hread
  | case4 => cases hread
  | case5 block line hline charged done spans htake further ih =>
      exact ih ((h.within hline).next hline htake charged).pending hread

/-- What a message is charged for its field lines: what it was charged before, and the bytes of the
block that are still to be read. -/
def total (block : FieldBlock) (buffer : Bytes) : Nat :=
  block.charged + weight (extent (buffer.drop block.position))

/-- The next line is part of that. -/
theorem le_total (block : FieldBlock) (buffer : Bytes) :
    block.charged + ((buffer.drop block.position).takeWhile (!isLineEnd ·)).length ≤
      block.total buffer := by
  have htext : ∀ b ∈ (buffer.drop block.position).takeWhile (!isLineEnd ·),
      isLineEnd b = false := by
    intro b hb
    simpa using List.all_eq_true.1 List.all_takeWhile b hb
  have hle := length_le_weight_extent htext
    ((buffer.drop block.position).dropWhile (!isLineEnd ·))
  rw [List.takeWhile_append_dropWhile] at hle
  exact Nat.add_le_add_left hle _

/-- A line that is taken moves its bytes from those that are still to be read to the charge. -/
theorem total_line {block : FieldBlock} {limit : Nat} {line : Line}
    (hline : Line.scan limit block.charged buffer block.position = .found line)
    (hpos : 0 < line.length) (pending : Option FieldSpans) :
    total ⟨block.charged + line.length, line.next, pending⟩ buffer = block.total buffer := by
  obtain ⟨text, mark, rest, hdrop, htext, hmark, rfl, -⟩ := Line.scan_found_front hline
  have hlength : (Line.ofText block.position text mark).length = text.length :=
    Nat.add_sub_cancel_left _ _
  rw [hlength] at hpos ⊢
  simp only [total, Line.drop_ofText hdrop, hdrop]
  rw [extent_line htext (List.ne_nil_of_length_pos hpos) hmark, weight_append, weight_append,
    weight_text htext, hmark.weight_eq]
  omega

end FieldBlock

namespace Guarded

variable {bound : Option Nat} {buffer : Bytes}

theorem read?_scan {limit : Nat} {strict : Bool} {block : FieldBlock} {found : Line.Scan}
    (h : scan? bound limit block.charged buffer block.position = some found) :
    read? bound limit strict buffer block =
      match found with
      | .tooLong => some ([], .refused (.headerTooLong limit))
      | .incomplete => some ([], .incomplete block)
      | .found line =>
          match takeLine? bound strict buffer block.pending line with
          | none => none
          | some (.error cause) => some ([], .refused cause)
          | some (.ok (done, none)) =>
              some (done.toList, .complete line.next (block.charged + line.length))
          | some (.ok (done, some spans)) =>
              (read? bound limit strict buffer
                ⟨block.charged + line.length, line.next, some spans⟩).map
                  fun further => (done.toList ++ further.1, further.2) := by
  rw [read?]
  split <;> rename_i hfound <;> rw [h] at hfound <;> cases hfound <;> rfl

theorem read?_eq (hfits : Fits bound buffer.length) (limit : Nat) (strict : Bool)
    {block : FieldBlock} (hordered : block.Ordered) (htotal : Fits bound (block.total buffer)) :
    read? bound limit strict buffer block = some (block.read limit strict buffer) := by
  have hscan : ∀ {block : FieldBlock} {found : Line.Scan}, Fits bound (block.total buffer) →
      Line.scan limit block.charged buffer block.position = found →
      scan? bound limit block.charged buffer block.position = some found := by
    intro block found htotal hfound
    rw [← hfound]
    exact scan?_eq hfits (htotal.mono (block.le_total buffer))
  have htake : ∀ {block : FieldBlock} {line : Line}, block.Ordered →
      Line.scan limit block.charged buffer block.position = .found line →
      takeLine? bound strict buffer block.pending line =
        some (FieldBlock.takeLine strict buffer block.pending line) := by
    intro block line hordered hline
    obtain ⟨hwithin, hpending⟩ := (hordered.within hline).found hline
    exact takeLine?_eq hfits strict hwithin hpending
  -- line by line: a line takes nothing from what the message is charged altogether
  fun_induction FieldBlock.read limit strict buffer block with
  | case1 block hline => exact read?_scan (hscan htotal hline)
  | case2 block hline => exact read?_scan (hscan htotal hline)
  | case3 block line hline cause hrefused =>
      rw [read?_scan (hscan htotal hline)]
      simp only
      rw [htake hordered hline, hrefused]
  | case4 block line hline charged done hclosed =>
      rw [read?_scan (hscan htotal hline)]
      simp only
      rw [htake hordered hline, hclosed]
  | case5 block line hline charged done spans hopen further ih =>
      have hnext := ((hordered.within hline).next hline hopen charged).pending
      have htotal' : Fits bound (FieldBlock.total ⟨charged, line.next, some spans⟩ buffer) := by
        rw [FieldBlock.total_line hline (FieldBlock.length_pos_of_takeLine hopen)]
        exact htotal
      rw [read?_scan (hscan htotal hline)]
      simp only
      rw [htake hordered hline, hopen]
      simp only
      rw [ih hnext htotal']
      rfl

/-! ## Bodies -/

theorem after?_takeWhile (p : UInt8 → Bool) (bytes : Bytes) :
    after? bytes (bytes.takeWhile p).length = some (bytes.dropWhile p) := by
  have hsplit := List.takeWhile_append_dropWhile (p := p) (l := bytes)
  rw [after?_eq (List.takeWhile_prefix p).length_le]
  conv => lhs; arg 1; arg 2; rw [← hsplit]
  rw [List.drop_left]

theorem slice?_takeWhile (p : UInt8 → Bool) (bytes : Bytes) :
    slice? bytes ⟨0, (bytes.takeWhile p).length⟩ = some (bytes.takeWhile p) := by
  have hprefix := List.takeWhile_prefix (l := bytes) p
  rw [slice?_eq ⟨Nat.zero_le _, hprefix.length_le⟩]
  exact congrArg some (List.prefix_iff_eq_take.1 hprefix).symm

theorem size?_eq (line : Bytes) : size? line = some (Chunked.readSize line) := by
  simp only [size?, Option.bind_eq_bind, after?_takeWhile, slice?_takeWhile, Option.bind_some,
    Chunked.readSize]
  cases hexadecimal? (bitBound 64)
      (ofBytes ((line.dropWhile (· ≤ sp)).takeWhile (!Chunked.endsSize ·))).toList with
  | none => rfl
  | some size => rfl

/-- A piece is never longer than what is there. -/
theorem piece?_eq (most : Nat) (buffer : Bytes) : piece? most buffer =
    some (buffer.take most, buffer.drop (buffer.take most).length) := by
  have hle : min buffer.length most ≤ buffer.length := Nat.min_le_left _ _
  have htake : slice? buffer ⟨0, min buffer.length most⟩ = some (buffer.take most) := by
    rw [slice?_eq ⟨Nat.zero_le _, hle⟩]
    simp [Span.bytes, Span.length, List.take_eq_take_iff, Nat.min_comm]
  simp only [piece?, Option.bind_eq_bind, htake, after?_eq hle, Option.bind_some]
  rw [List.length_take, Nat.min_comm]

/-- The next piece of a body, and what is left of the body then. -/
theorem nextPiece_guarded (limits : Limits) (remaining : Nat) (buffer : Bytes) :
    let data := Phase.nextPiece limits remaining buffer
    piece? (min limits.piece remaining) buffer = some (data, buffer.drop data.length) ∧
      difference? remaining data.length = some (remaining - data.length) ∧
      (remaining - data.length = 0 ↔ data.length = remaining) := by
  intro data
  have hle : data.length ≤ remaining := by
    rw [show data = buffer.take (min limits.piece remaining) from rfl, List.length_take]
    omega
  exact ⟨piece?_eq _ _, difference?_eq hle, by omega⟩

end Guarded

/-! ## Phases -/

namespace Phase

variable {direction : Direction} {limits : Limits}

/-- A phase whose open field, if it has one, stands before the position up to which its block has
been taken. Nothing is said about the buffer, which may be another one by the next call. -/
def Ordered : Phase → Prop
  | header _ _ block => block.Ordered
  | trailer _ _ block => block.Ordered
  | idle => True
  | startLine => True
  | fixed _ _ _ => True
  | untilClose => True
  | chunkSize _ => True
  | chunkData _ _ => True
  | chunkEnd _ => True
  | refused => True
  | raw => True

theorem ordered_afterMessage (switches : Bool) : (afterMessage switches).Ordered := by
  cases switches <;> trivial

theorem Move.ordered {phase : Phase} {buffer : Bytes} {next : Step}
    (hmove : Move direction limits phase buffer next) (h : phase.Ordered) :
    next.phase.Ordered := by
  cases hmove with
  | started hline hread => exact FieldBlock.ordered_start 0
  | headerIncomplete hread => exact FieldBlock.Ordered.read h (congrArg Prod.snd hread)
  | bodiless hread hhead hlength hempty => exact ordered_afterMessage _
  | fixedEnds hdata hnext hremaining => exact ordered_afterMessage _
  | lastChunk hline hsize => exact FieldBlock.ordered_start _
  | trailerIncomplete hread => exact FieldBlock.Ordered.read h (congrArg Prod.snd hread)
  | trailerEnds hread => exact ordered_afterMessage _
  | _ => trivial

/-- A step keeps the order, in any buffer. -/
theorem step_ordered {phase : Phase} (h : phase.Ordered) (buffer : Bytes) :
    (step direction limits phase buffer).phase.Ordered :=
  (step_move direction limits phase buffer).ordered h

theorem run_ordered {phase : Phase} (h : phase.Ordered) (buffer : Bytes) :
    (run direction limits phase buffer).phase.Ordered := by
  fun_induction run direction limits phase buffer with
  | case1 phase buffer next again later ih => exact ih (step_ordered h buffer)
  | case2 phase buffer next again => exact step_ordered h buffer

/-- What a message is charged for its field lines in all, in a phase that reads them. -/
def total : Phase → Bytes → Nat
  | header _ _ block, buffer => block.total buffer
  | trailer _ _ block, buffer => block.total buffer
  | _, _ => 0

end Phase

/-! ## Steps -/

namespace Guarded

variable {bound : Option Nat} {direction : Direction} {limits : Limits} {buffer : Bytes}

/-- Whether the bytes of a class at the front are all there is. -/
theorem length_takeWhile_eq_iff (p : UInt8 → Bool) (bytes : Bytes) :
    (bytes.takeWhile p).length = bytes.length ↔ bytes.dropWhile p = [] := by
  have hlength := congrArg List.length (List.takeWhile_append_dropWhile (p := p) (l := bytes))
  rw [List.length_append] at hlength
  rw [← List.length_eq_zero_iff]
  omega

theorem stepIdle?_eq (buffer : Bytes) : stepIdle? buffer = some (Phase.stepIdle buffer) := by
  simp only [stepIdle?, length_takeWhile_eq_iff, after?_takeWhile, Option.bind_eq_bind,
    Option.bind_some, Phase.stepIdle]
  cases buffer.dropWhile isPadding with
  | nil => rfl
  | cons b rest => rfl

theorem scan?_front (hfits : Fits bound buffer.length) (limit : Nat) :
    scan? bound limit 0 buffer 0 = some (Line.scan limit 0 buffer 0) := by
  have hle := (List.takeWhile_prefix (l := buffer) (!isLineEnd ·)).length_le
  exact scan?_eq hfits (hfits.mono (by rwa [Nat.zero_add]))

theorem stepStartLine?_eq (hfits : Fits bound buffer.length) :
    stepStartLine? bound direction limits buffer =
      some (Phase.stepStartLine direction limits buffer) := by
  simp only [stepStartLine?, Phase.stepStartLine, scan?_front hfits, Option.bind_eq_bind,
    Option.bind_some]
  cases hline : Line.scan limits.line 0 buffer 0 with
  | incomplete => rfl
  | tooLong => rfl
  | found line =>
      obtain ⟨-, hstop, hnext, hbuffer, -⟩ := Line.scan_found hline
      have hwithin : line.Within buffer := ⟨hstop, by omega⟩
      simp only [startLine?_eq hfits hwithin, after?_eq hbuffer, Option.bind_some]
      cases hread : StartLine.read direction (line.bytes buffer) with
      | error cause => rfl
      | ok first? =>
          cases first? with
          | none => rfl
          | some first => rfl

theorem stepHeader?_eq (hfits : Fits bound buffer.length) (first : StartLine) (fields : Fields)
    {block : FieldBlock} (hordered : block.Ordered) (htotal : Fits bound (block.total buffer)) :
    stepHeader? bound direction limits first fields block buffer =
      some (Phase.stepHeader direction limits first fields block buffer) := by
  simp only [stepHeader?, Phase.stepHeader, read?_eq hfits _ _ hordered htotal, Option.bind_eq_bind,
    Option.bind_some]
  cases hread : (block.read limits.header limits.strict buffer).2 with
  | incomplete later => rfl
  | refused cause => rfl
  | complete next charged =>
      simp only [after?_eq (FieldBlock.read_complete hread).2, Option.bind_some]

theorem stepFixed?_eq (length remaining : Nat) (switches : Bool) :
    stepFixed? limits length remaining switches buffer =
      some (Phase.stepFixed limits length remaining switches buffer) := by
  obtain ⟨hpiece, hleft, hzero⟩ := nextPiece_guarded limits remaining buffer
  simp only [stepFixed?, Phase.stepFixed, hpiece, hleft, hzero, Option.bind_eq_bind,
    Option.bind_some]
  split
  · rfl
  · split <;> rfl

theorem stepUntilClose?_eq :
    stepUntilClose? limits buffer = some (Phase.stepUntilClose limits buffer) := by
  simp only [stepUntilClose?, Phase.stepUntilClose, piece?_eq, Option.bind_eq_bind,
    Option.bind_some]
  split <;> rfl

theorem stepChunkSize?_eq (hfits : Fits bound buffer.length) (body : ChunkedBody) :
    stepChunkSize? bound limits body buffer = some (Phase.stepChunkSize limits body buffer) := by
  simp only [stepChunkSize?, Phase.stepChunkSize, scan?_front hfits, Option.bind_eq_bind,
    Option.bind_some]
  cases hline : Line.scan limits.line 0 buffer 0 with
  | incomplete => rfl
  | tooLong => rfl
  | found line =>
      obtain ⟨-, hstop, hnext, hbuffer, -⟩ := Line.scan_found hline
      have hwithin : line.Within buffer := ⟨hstop, by omega⟩
      simp only [slice?_eq hwithin, size?_eq, after?_eq hbuffer, Option.bind_some]
      cases hsize : Chunked.readSize (line.bytes buffer) with
      | error cause => rfl
      | ok size =>
          cases size with
          | zero => rfl
          | succ size => rfl

theorem stepChunkData?_eq (body : ChunkedBody) (remaining : Nat) :
    stepChunkData? limits body remaining buffer =
      some (Phase.stepChunkData limits body remaining buffer) := by
  obtain ⟨hpiece, hleft, hzero⟩ := nextPiece_guarded limits remaining buffer
  simp only [stepChunkData?, Phase.stepChunkData, hpiece, hleft, hzero, Option.bind_eq_bind,
    Option.bind_some]
  split
  · rfl
  · split <;> rfl

theorem stepChunkEnd?_eq (hfits : Fits bound buffer.length) (body : ChunkedBody) :
    stepChunkEnd? bound body buffer = some (Phase.stepChunkEnd body buffer) := by
  have hsplit := List.takeWhile_append_dropWhile (p := (· != lf)) (l := buffer)
  simp only [stepChunkEnd?, length_takeWhile_eq_iff, Option.bind_eq_bind, Phase.stepChunkEnd]
  cases hrest : buffer.dropWhile (· != lf) with
  | nil => rfl
  | cons b rest =>
      have hlength := congrArg List.length hsplit
      rw [hrest, List.length_append, List.length_cons] at hlength
      have hdrop : buffer.drop ((buffer.takeWhile (· != lf)).length + 1) = rest := by
        rw [hrest] at hsplit
        conv => lhs; arg 2; rw [← hsplit]
        exact List.drop_length_add_append 1
      rw [if_neg (List.cons_ne_nil b rest), sum?_eq hfits (by omega), Option.bind_some,
        after?_eq (by omega), Option.bind_some, hdrop]

theorem stepTrailer?_eq (hfits : Fits bound buffer.length) (switches : Bool) (fields : Fields)
    {block : FieldBlock} (hordered : block.Ordered) (htotal : Fits bound (block.total buffer)) :
    stepTrailer? bound limits switches fields block buffer =
      some (Phase.stepTrailer limits switches fields block buffer) := by
  simp only [stepTrailer?, Phase.stepTrailer, read?_eq hfits _ _ hordered htotal,
    Option.bind_eq_bind, Option.bind_some]
  cases hread : (block.read limits.header limits.strict buffer).2 with
  | incomplete later => rfl
  | refused cause => rfl
  | complete next charged =>
      simp only [after?_eq (FieldBlock.read_complete hread).2, Option.bind_some]

/-- No guard of a step fails, in any buffer. -/
theorem step?_eq {phase : Phase} (hordered : phase.Ordered) (hfits : Fits bound buffer.length)
    (htotal : Fits bound (phase.total buffer)) :
    step? bound direction limits phase buffer = some (phase.step direction limits buffer) := by
  cases phase with
  | idle => exact stepIdle?_eq buffer
  | startLine => exact stepStartLine?_eq hfits
  | header first fields block => exact stepHeader?_eq hfits first fields hordered htotal
  | fixed length remaining switches => exact stepFixed?_eq length remaining switches
  | untilClose => exact stepUntilClose?_eq
  | chunkSize body => exact stepChunkSize?_eq hfits body
  | chunkData body remaining => exact stepChunkData?_eq body remaining
  | chunkEnd body => exact stepChunkEnd?_eq hfits body
  | trailer switches fields block => exact stepTrailer?_eq hfits switches fields hordered htotal
  | refused => rfl
  | raw => rfl

end Guarded

/-! ## Histories -/

/-- What every step keeps holds of all places on a trail. -/
theorem Phase.trail_forall {direction : Direction} {limits : Limits} {P : Phase → Bytes → Prop}
    (hstep : ∀ phase buffer, P phase buffer →
      P (step direction limits phase buffer).phase (step direction limits phase buffer).rest)
    {phase : Phase} {buffer : Bytes} (h : P phase buffer) :
    ∀ place ∈ phase.trail direction limits buffer, P place.1 place.2 := by
  fun_induction trail direction limits phase buffer with
  | case1 phase buffer next again ih => exact List.forall_mem_cons.2 ⟨h, ih (hstep phase buffer h)⟩
  | case2 phase buffer next again => exact List.forall_mem_singleton.2 h

namespace Reader

/-- The phase in which the next call begins is in order, whatever buffer it gets. -/
theorem currentPhase_ordered {reader : Reader} (h : reader.phase.Ordered) :
    reader.currentPhase.Ordered := by
  unfold currentPhase
  split
  · trivial
  · exact h

theorem feed_ordered {reader : Reader} (h : reader.phase.Ordered) (buffer : Bytes) :
    (reader.feed buffer).reader.phase.Ordered :=
  Phase.run_ordered (currentPhase_ordered h) buffer

theorem close_ordered {reader : Reader} (h : reader.phase.Ordered) (buffer : Bytes) :
    (reader.close buffer).reader.phase.Ordered := by
  unfold close
  simp only
  split
  · exact feed_ordered h buffer
  · trivial

end Reader

namespace Connection

variable {connection : Connection}

/-- One use keeps the phase in order, with any bytes in the buffer. -/
theorem use_ordered (h : connection.phase.Ordered) (use : Use) :
    (connection.use use).1.phase.Ordered := by
  cases use with
  | feed refill => exact Reader.feed_ordered h (refill connection.buffer)
  | close refill => exact Reader.close_ordered h (refill connection.buffer)
  | requestReset => exact h
  | declineBody =>
      have hphase : (connection.use .declineBody).1.phase = connection.phase :=
        Reader.phase_declineBody connection.reader
      rw [hphase]
      exact h

theorem afterUses_ordered (h : connection.phase.Ordered) (uses : List Use) :
    (connection.afterUses uses).phase.Ordered := by
  induction uses generalizing connection with
  | nil => exact h
  | cons use uses ih => exact ih (use_ordered h use)

/-- After any uses, with any bytes in the buffer, no step of the next call has a guard that fails:
every slice has its ends in order and inside the buffer, no more bytes are passed over than are
there, and no count is lowered below zero. If the buffer has fewer than 2^63 bytes, and a message
is charged for fewer than 2^64 bytes, then no sum reaches 2^64 either, whatever the limits are. -/
theorem steps_guarded {direction : Direction} {limits : Limits} {new : Connection}
    (hstart : start direction limits = .ok new) (uses : List Use) (buffer : Bytes) :
    ∀ place ∈ (new.afterUses uses).reader.currentPhase.trail direction limits buffer,
      Guarded.step? none direction limits place.1 place.2 =
          some (place.1.step direction limits place.2) ∧
        (buffer.length < 2 ^ 63 → place.1.total place.2 < 2 ^ 64 →
          Guarded.step? (some (2 ^ 64)) direction limits place.1 place.2 =
            some (place.1.step direction limits place.2)) := by
  obtain ⟨valid, rfl⟩ := start_eq hstart
  have hnew : (⟨{ direction, limits, valid }, []⟩ : Connection).phase.Ordered := trivial
  have hplaces := @Phase.trail_forall direction limits
    (fun phase rest => phase.Ordered ∧ rest.length ≤ buffer.length) (by
      intro phase rest hplace
      obtain ⟨hordered, hle⟩ := hplace
      have hsuffix := (Phase.step_move direction limits phase rest).suffix
      exact ⟨Phase.step_ordered hordered rest, Nat.le_trans hsuffix.length_le hle⟩)
    _ buffer ⟨Reader.currentPhase_ordered (afterUses_ordered hnew uses), Nat.le_refl _⟩
  intro place hplace
  obtain ⟨hordered, hle⟩ := hplaces place hplace
  constructor
  · exact Guarded.step?_eq hordered (Guarded.fits_none _) (Guarded.fits_none _)
  · intro hbuffer htotal
    have hfits : Guarded.Fits (some (2 ^ 64)) place.2.length := by
      rintro b ⟨⟩
      exact Nat.lt_trans (Nat.lt_of_le_of_lt hle hbuffer) (by decide)
    have htotals : Guarded.Fits (some (2 ^ 64)) (place.1.total place.2) := by
      rintro b ⟨⟩
      exact htotal
    exact Guarded.step?_eq hordered hfits htotals

/-- While a field is open, the buffer is replaced by one that ends before the field does, and by one
of the same length with other bytes. The limits are the largest machine numbers. -/
theorem steps_guarded_in_another_buffer :
    let limits : Limits := ⟨2 ^ 64 - 1, 2 ^ 64 - 1, 2 ^ 64 - 1, true, true⟩
    let new : Connection := { reader := ⟨.request, limits, by decide, .idle, false⟩ }
    let uses : List Use := [.feed fun _ => toBytes "GET / HTTP/1.1\r\nHost: a\r\n b"]
    let phase := (new.afterUses uses).reader.currentPhase
    start .request limits = .ok new ∧
      ∀ buffer ∈ [toBytes "Host", toBytes "0123456789\n\n"],
        (phase, buffer) ∈ phase.trail .request limits buffer ∧
        buffer.length < 2 ^ 63 ∧ phase.total buffer < 2 ^ 64 ∧
        Guarded.step? none .request limits phase buffer =
          some (phase.step .request limits buffer) ∧
        Guarded.step? (some (2 ^ 64)) .request limits phase buffer =
          some (phase.step .request limits buffer) := by
  intro limits new uses phase
  have hstart : start .request limits = .ok new := rfl
  have hplace : ∀ buffer : Bytes, (phase, buffer) ∈ phase.trail .request limits buffer := by
    intro buffer
    rw [Phase.trail]
    split
    · exact List.mem_cons_self
    · exact List.mem_singleton_self _
  have hsizes : ∀ buffer ∈ [toBytes "Host", toBytes "0123456789\n\n"],
      buffer.length < 2 ^ 63 ∧ phase.total buffer < 2 ^ 64 :=
    List.forall_mem_cons.2 ⟨by decide +kernel, List.forall_mem_singleton.2 (by decide +kernel)⟩
  refine ⟨hstart, ?_⟩
  intro buffer hbuffer
  obtain ⟨hlength, htotal⟩ := hsizes buffer hbuffer
  obtain ⟨hunbounded, hbounded⟩ := steps_guarded hstart uses buffer _ (hplace buffer)
  exact ⟨hplace buffer, hlength, htotal, hunbounded, hbounded hlength htotal⟩

end Connection

end HttpWire
