import HttpWire.Proofs.RoundTrip.Message

/-!
# Reading written lines

A written line is found where it stands, and a written start line is read back.

- `Line.scan_endLine`: the search for a line finds a written one.
- `Text.ofBytes_toBytes`: a text of single-byte characters is read back from its bytes.
- `StartLine.read_text`: a well-formed start line is read back.
- `Phase.run_line`: a run through the line of a start line.
-/

set_option autoImplicit false

namespace HttpWire

open Text

/-! ## Bytes and texts -/

namespace Text

/-- A fact about bytes that can be computed holds of every byte if it does of the 256 numbers. -/
theorem forall_byte {p : UInt8 → Bool} (h : ∀ n < 256, p (UInt8.ofNat n) = true) (b : UInt8) :
    p b = true := by
  have hb := h b.toNat b.toNat_lt
  rwa [UInt8.ofNat_toNat] at hb

theorem toBytes_append (s t : String) : toBytes (s ++ t) = toBytes s ++ toBytes t := by
  simp only [toBytes, String.toList_append, List.map_append]

theorem toBytes_ne_nil {s : String} (h : s ≠ "") : toBytes s ≠ [] := by
  simpa [toBytes] using h

theorem toNat_toUInt8 {c : Char} (h : c.toNat < 256) : c.toUInt8.toNat = c.toNat := by
  change c.val.toUInt8.toNat = c.val.toNat
  rw [UInt32.toNat_toUInt8]
  exact Nat.mod_eq_of_lt h

theorem ofUInt8_toUInt8 {c : Char} (h : c.toNat < 256) : Char.ofUInt8 c.toUInt8 = c := by
  refine Char.toNat_inj.1 ?_
  change c.toUInt8.toNat = c.toNat
  exact toNat_toUInt8 h

theorem ofBytes_toBytes {s : String} (h : IsLatin s) : ofBytes (toBytes s) = s := by
  have hmap : s.toList.map (Char.ofUInt8 ∘ Char.toUInt8) = s.toList := by
    conv => rhs; rw [← List.map_id s.toList]
    exact List.map_congr_left fun c hc => ofUInt8_toUInt8 (h c hc)
  rw [ofBytes, toBytes, List.map_map, hmap, String.ofList_toList]

theorem IsLatin.append {s t : String} (hs : IsLatin s) (ht : IsLatin t) : IsLatin (s ++ t) := by
  intro c hc
  rw [String.toList_append, List.mem_append] at hc
  rcases hc with hc | hc
  · exact hs c hc
  · exact ht c hc

theorem exists_of_mem_toBytes {s : String} (hlatin : IsLatin s) {b : UInt8} (hb : b ∈ toBytes s) :
    ∃ c ∈ s.toList, c.toNat = b.toNat := by
  obtain ⟨c, hc, rfl⟩ := List.mem_map.1 hb
  exact ⟨c, hc, (toNat_toUInt8 (hlatin c hc)).symm⟩

/-! ## Classes of bytes -/

theorem isBlank_of_lt {b : UInt8} (h : 32 < b.toNat) : isBlank b = false := by
  simp only [isBlank, sp, Bool.or_eq_false_iff, Bool.and_eq_false_iff, decide_eq_false_iff_not,
    beq_eq_false_iff_ne, ne_eq, UInt8.le_iff_toNat_le, ← UInt8.toNat_inj, UInt8.reduceToNat]
  omega

theorem isLineEnd_of_not_isBlank {b : UInt8} (h : isBlank b = false) : isLineEnd b = false := by
  have hall := forall_byte (p := fun b => isBlank b || !isLineEnd b) (by decide +kernel) b
  simpa [h] using hall

theorem isLineEnd_of_not_isForbiddenInValue {b : UInt8} (h : isForbiddenInValue b = false) :
    isLineEnd b = false := by
  have hall := forall_byte (p := fun b => isForbiddenInValue b || !isLineEnd b)
    (by decide +kernel) b
  simpa [h] using hall

theorem isPadding_of_not_isControl {b : UInt8} (hblank : isBlank b = false)
    (hcontrol : isControl (Char.ofUInt8 b) = false) : isPadding b = false := by
  have hall := forall_byte (p := fun b => isBlank b || isControl (Char.ofUInt8 b) || !isPadding b)
    (by decide +kernel) b
  simpa [hblank, hcontrol] using hall

theorem any_isControl_eq_false {text : String} (h : ∀ c ∈ text.toList, isControl c = false) :
    text.toList.any isControl = false := by
  rw [List.any_eq_false]
  intro c hc
  rw [h c hc]
  exact Bool.false_ne_true

/-! ## Trimming -/

variable {α : Type} {p : α → Bool}

theorem trim_cons_of_pos {x : α} (h : p x = true) (xs : List α) :
    trim p (x :: xs) = trim p xs := by
  rw [trim, List.dropWhile_cons_of_pos h, trim]

theorem trim_eq_self {xs : List α} (h : ∀ x ∈ xs, p x = false) : trim p xs = xs := by
  have hfront : ∀ {ys : List α}, (∀ y ∈ ys, p y = false) → ys.dropWhile p = ys := by
    intro ys hys
    cases ys with
    | nil => rfl
    | cons y ys => exact List.dropWhile_cons_of_neg (by simp [hys y List.mem_cons_self])
  rw [trim, hfront h, dropTrailing, hfront (fun y hy => h y (List.mem_reverse.1 hy)),
    List.reverse_reverse]

end Text

/-! ## Lines -/

namespace Line

/-- The search for a line finds a written one: its text, the position after it, and what is left. -/
theorem scan_endLine {limit charged start : Nat} {buffer text rest : Bytes}
    (hbuffer : buffer.drop start = endLine text ++ rest)
    (htext : ∀ b ∈ text, isLineEnd b = false) (hle : charged + text.length ≤ limit) :
    ∃ line, scan limit charged buffer start = .found line ∧ line.bytes buffer = text ∧
      line.length = text.length ∧ buffer.drop line.next = rest := by
  -- the text has no line end inside, so the first one is that of the line
  have htake : (endLine text ++ rest).takeWhile (fun b => !isLineEnd b) = text := by
    rw [endLine, List.append_assoc, List.takeWhile_append_of_pos (by simpa using htext),
      List.cons_append, List.takeWhile_cons_of_neg (by decide), List.append_nil]
  have hdrop : (endLine text ++ rest).drop text.length = cr :: lf :: rest := by
    rw [endLine, List.append_assoc, List.drop_left]
    rfl
  refine ⟨⟨⟨start, start + text.length⟩, start + text.length + 2⟩, ?_, ?_, ?_, ?_⟩
  · simp only [scan, hbuffer, htake, hdrop, if_neg (Nat.not_lt.2 hle)]
    rfl
  · simp only [Span.bytes, Span.length, hbuffer, Nat.add_sub_cancel_left]
    rw [endLine, List.append_assoc, List.take_left]
  · simp only [Span.length, Nat.add_sub_cancel_left]
  · rw [Nat.add_assoc, ← List.drop_drop, hbuffer, ← List.drop_drop, hdrop]
    rfl

end Line

/-! ## Versions -/

namespace Text

/-- A character that is visible and has one byte. -/
def IsVisible (c : Char) : Prop :=
  32 < c.toNat ∧ c.toNat < 256

/-- A visible text, such as a number, has no blanks and is made of single-byte characters. -/
theorem visible_decimal (n : Nat) : ∀ c ∈ (decimal n).toList, IsVisible c := by
  intro c hc
  have hdigit := toNat_of_isDigit (isDigit_of_mem_decimal hc)
  exact ⟨by omega, by omega⟩

theorem isLatin_of_visible {s : String} (h : ∀ c ∈ s.toList, IsVisible c) : IsLatin s :=
  fun c hc => (h c hc).2

theorem not_isBlank_of_visible {s : String} (h : ∀ c ∈ s.toList, IsVisible c) :
    ∀ b ∈ toBytes s, isBlank b = false := by
  intro b hb
  obtain ⟨c, hc, heq⟩ := exists_of_mem_toBytes (isLatin_of_visible h) hb
  exact isBlank_of_lt (heq ▸ (h c hc).1)

end Text

namespace Version

theorem protocol_ofParts (protocol : String) (major minor : Nat) :
    (ofParts protocol major minor).protocol = protocol :=
  congrArg Prod.fst (parts_ofParts protocol major minor)

theorem protocol_of_parse {raw : String} {version : Version} (h : parse raw = .ok version) :
    version.protocol ≠ "" ∧ ∀ c ∈ version.protocol.toList, isForbidden c = false := by
  obtain ⟨protocol, major, minor, rfl, hparts⟩ := parse_eq_ok h
  obtain ⟨high, low, -, -, -, hne, hforbidden, -⟩ := parts?_eq_some_iff.1 hparts
  rw [protocol_ofParts]
  exact ⟨hne, hforbidden⟩

/-- The protocol consists of characters that were read, in upper case. -/
theorem isLatin_of_parse {raw : String} {version : Version} (hraw : IsLatin raw)
    (h : parse raw = .ok version) : IsLatin version.protocol := by
  obtain ⟨protocol, major, minor, rfl, hparts⟩ := parse_eq_ok h
  obtain ⟨high, low, hcs, -⟩ := parts?_eq_some_iff.1 hparts
  rw [protocol_ofParts]
  intro c hc
  have hmem : c ∈ (trim isSpace raw.toList).map Char.toUpper := by
    rw [hcs]
    exact List.mem_append_left _ hc
  obtain ⟨d, hd, rfl⟩ := List.mem_map.1 hmem
  exact Nat.lt_of_le_of_lt (toNat_toUpper_le d) (hraw d (mem_of_mem_trim hd))

namespace WellFormed

variable {version : Version}

theorem protocol_visible (h : version.WellFormed) :
    ∀ c ∈ version.protocol.toList, IsVisible c := by
  intro c hc
  have hforbidden := (protocol_of_parse h.parses).2 c hc
  simp only [isForbidden, Bool.or_eq_false_iff, decide_eq_false_iff_not] at hforbidden
  exact ⟨Nat.lt_of_not_le hforbidden.1, h.latin c hc⟩

theorem visible (h : version.WellFormed) : ∀ c ∈ version.text.toList, IsVisible c := by
  have hmark : ∀ mark : String, mark = "/" ∨ mark = "." → ∀ c ∈ mark.toList, IsVisible c := by
    rintro mark (rfl | rfl) c hc <;>
      simp only [String.reduceToList, List.mem_singleton] at hc <;> subst hc <;>
        exact ⟨by decide, by decide⟩
  intro c hc
  simp only [text, String.toList_append, List.mem_append] at hc
  rcases hc with (((hc | hc) | hc) | hc) | hc
  · exact h.protocol_visible c hc
  · exact hmark _ (.inl rfl) c hc
  · exact visible_decimal _ c hc
  · exact hmark _ (.inr rfl) c hc
  · exact visible_decimal _ c hc

theorem text_ne (h : version.WellFormed) : version.text ≠ "" := by
  intro htext
  have hprotocol := (protocol_of_parse h.parses).1
  simp [text] at htext

end WellFormed

end Version

/-! ## Start lines -/

namespace StartLine

theorem word_append {gap text : Bytes} (rest : Bytes) (hgap : ∀ b ∈ gap, isBlank b = true)
    (htext : ∀ b ∈ text, isBlank b = false) (hne : text ≠ [])
    (hrest : ∀ b ∈ rest.head?, isBlank b = true) : word (gap ++ (text ++ rest)) = (text, rest) := by
  have hdrop : (gap ++ (text ++ rest)).dropWhile isBlank = text ++ rest := by
    rw [List.dropWhile_append_of_pos hgap]
    cases text with
    | nil => exact absurd rfl hne
    | cons b text => exact List.dropWhile_cons_of_neg (by simp [htext b List.mem_cons_self])
  have hstop : rest.takeWhile (!isBlank ·) = [] ∧ rest.dropWhile (!isBlank ·) = rest := by
    cases rest with
    | nil => exact ⟨rfl, rfl⟩
    | cons b rest =>
        have hb : isBlank b = true := hrest b rfl
        exact ⟨List.takeWhile_cons_of_neg (by simp [hb]),
          List.dropWhile_cons_of_neg (by simp [hb])⟩
  have hall : ∀ b ∈ text, (!isBlank b) = true := fun b hb => by simp [htext b hb]
  simp only [word, hdrop]
  rw [List.takeWhile_append_of_pos hall, List.dropWhile_append_of_pos hall, hstop.1, hstop.2,
    List.append_nil]

theorem parts_words {first second rest : Bytes} (hfirst : ∀ b ∈ first, isBlank b = false)
    (hfirst_ne : first ≠ []) (hsecond : ∀ b ∈ second, isBlank b = false) (hsecond_ne : second ≠ [])
    (hrest : ∀ b ∈ rest.head?, isBlank b = true) :
    parts (first ++ sp :: (second ++ rest)) = (first, second, trim isBlank rest) := by
  have hspace : isBlank sp = true := rfl
  have hgap : ∀ b ∈ [sp], isBlank b = true := by simpa using hspace
  have hempty : ∀ b ∈ ([] : Bytes), isBlank b = true := nofun
  have hword := word_append (sp :: (second ++ rest)) hempty hfirst hfirst_ne
    (by simpa using hspace)
  have hword' := word_append rest hgap hsecond hsecond_ne hrest
  simp only [List.nil_append, List.singleton_append] at hword hword'
  simp only [parts, hword, hword']

/-- The parts of a line that is written with single spaces. -/
theorem parts_append {first second last : Bytes} (hfirst : ∀ b ∈ first, isBlank b = false)
    (hfirst_ne : first ≠ []) (hsecond : ∀ b ∈ second, isBlank b = false) (hsecond_ne : second ≠ [])
    (hlast : trim isBlank last = last) :
    parts (first ++ sp :: (second ++ sp :: last)) = (first, second, last) := by
  have hspace : isBlank sp = true := rfl
  have hparts := @parts_words first second (sp :: last) hfirst hfirst_ne hsecond hsecond_ne
    (by simpa using hspace)
  rw [hparts, trim_cons_of_pos hspace, hlast]

theorem toBytes_space : toBytes " " = [sp] := rfl

variable {method target reason : String} {version : Version} {code : Nat}

theorem toBytes_text_request :
    toBytes (request method target version).text =
      toBytes method ++ sp :: (toBytes target ++ sp :: toBytes version.text) := by
  simp only [text, toBytes_append, toBytes_space, List.append_assoc, List.cons_append,
    List.nil_append]

theorem toBytes_text_status :
    toBytes (status version code reason).text =
      toBytes version.text ++ sp :: (toBytes (decimal code) ++ sp :: toBytes reason) := by
  simp only [text, toBytes_append, toBytes_space, List.append_assoc, List.cons_append,
    List.nil_append]

theorem readRequest_text (h : (request method target version).WellFormed .request) :
    readRequest (toBytes (request method target version).text) =
      .ok (some (request method target version)) := by
  obtain ⟨⟨hlatin, hmethod, hblank, hcontrol⟩, ⟨hlatin', htarget, hblank'⟩, hversion⟩ := h
  have hversion_blank := not_isBlank_of_visible hversion.visible
  have hparts := parts_append hblank (toBytes_ne_nil hmethod) hblank' (toBytes_ne_nil htarget)
    (trim_eq_self hversion_blank)
  have hcontrols := any_isControl_eq_false hcontrol
  simp only [toBytes_text_request, readRequest, hparts]
  rw [if_neg (by
    simp [toBytes_ne_nil hmethod, toBytes_ne_nil htarget, toBytes_ne_nil hversion.text_ne])]
  rw [ofBytes_toBytes hlatin, ofBytes_toBytes hlatin',
    ofBytes_toBytes (isLatin_of_visible hversion.visible), hcontrols, hversion.parses]
  rfl

/-- A status code is read back from its digits, of which none is a plus sign. -/
theorem unsigned?_decimal {bound n : Nat} (h : n < bound) :
    unsigned? bound (decimal n).toList = some n := by
  have hread := decimal?_decimal h
  unfold unsigned?
  split
  · rename_i digits hdigits
    have hplus : '+' ∈ (decimal n).toList := by
      rw [hdigits]
      exact List.mem_cons_self
    exact absurd (isDigit_of_mem_decimal hplus) (by decide)
  · exact hread

theorem decimal_ne (n : Nat) : decimal n ≠ "" := by
  intro h
  exact Nat.toDigits_ne_nil (String.ofList_eq_empty_iff.1 h)

theorem readStatus_of_parts (h : (status version code reason).WellFormed .response) {line : Bytes}
    (hparts : parts line = (toBytes version.text, toBytes (decimal code), toBytes reason)) :
    readStatus line = .ok (some (status version code reason)) := by
  obtain ⟨hversion, hcode, hlatin, -, -⟩ := h
  simp only [readStatus, hparts]
  rw [if_neg (by simp [toBytes_ne_nil hversion.text_ne, toBytes_ne_nil (decimal_ne code)])]
  rw [ofBytes_toBytes (isLatin_of_visible hversion.visible), hversion.parses,
    ofBytes_toBytes (isLatin_of_visible (visible_decimal code)), ofBytes_toBytes hlatin]
  simp only [unsigned?_decimal hcode]

theorem readStatus_text (h : (status version code reason).WellFormed .response) :
    readStatus (toBytes (status version code reason).text) =
      .ok (some (status version code reason)) := by
  refine readStatus_of_parts h ?_
  obtain ⟨hversion, -, -, -, htrim⟩ := h
  rw [toBytes_text_status]
  exact parts_append (not_isBlank_of_visible hversion.visible) (toBytes_ne_nil hversion.text_ne)
    (not_isBlank_of_visible (visible_decimal code)) (toBytes_ne_nil (decimal_ne code)) htrim

theorem read_text {direction : Direction} {first : StartLine} (h : first.WellFormed direction) :
    StartLine.read direction (toBytes first.text) = .ok (some first) := by
  cases direction with
  | request =>
      cases first with
      | request method target version => exact readRequest_text h
      | status version code reason => exact h.elim
  | response =>
      cases first with
      | request method target version => exact h.elim
      | status version code reason =>
          rw [StartLine.read]
          exact readStatus_text h

theorem isLineEnd_of_mem_text {direction : Direction} {first : StartLine}
    (h : first.WellFormed direction) : ∀ b ∈ toBytes first.text, isLineEnd b = false := by
  have hspace : isLineEnd sp = false := rfl
  intro b hb
  cases direction with
  | request =>
      cases first with
      | request method target version =>
          obtain ⟨⟨-, -, hblank, -⟩, ⟨-, -, hblank'⟩, hversion⟩ := h
          rw [toBytes_text_request, List.mem_append, List.mem_cons, List.mem_append,
            List.mem_cons] at hb
          rcases hb with hb | rfl | hb | rfl | hb
          · exact isLineEnd_of_not_isBlank (hblank b hb)
          · exact hspace
          · exact isLineEnd_of_not_isBlank (hblank' b hb)
          · exact hspace
          · exact isLineEnd_of_not_isBlank (not_isBlank_of_visible hversion.visible b hb)
      | status version code reason => exact h.elim
  | response =>
      cases first with
      | request method target version => exact h.elim
      | status version code reason =>
          obtain ⟨hversion, -, -, hreason, -⟩ := h
          rw [toBytes_text_status, List.mem_append, List.mem_cons, List.mem_append,
            List.mem_cons] at hb
          rcases hb with hb | rfl | hb | rfl | hb
          · exact isLineEnd_of_not_isBlank (not_isBlank_of_visible hversion.visible b hb)
          · exact hspace
          · exact isLineEnd_of_not_isBlank (not_isBlank_of_visible (visible_decimal code) b hb)
          · exact hspace
          · exact hreason b hb

theorem exists_cons_toBytes {s : String} (hne : s ≠ "") (hlatin : IsLatin s)
    (hblank : ∀ b ∈ toBytes s, isBlank b = false) (hcontrol : ∀ c ∈ s.toList, isControl c = false) :
    ∃ b rest, toBytes s = b :: rest ∧ isPadding b = false := by
  obtain ⟨c, cs, hcs⟩ := List.exists_cons_of_ne_nil (fun h => hne (String.toList_eq_nil_iff.1 h))
  have hc : c ∈ s.toList := by
    rw [hcs]
    exact List.mem_cons_self
  have hbytes : toBytes s = c.toUInt8 :: cs.map Char.toUInt8 := by
    rw [toBytes, hcs, List.map_cons]
  refine ⟨_, _, hbytes, isPadding_of_not_isControl (hblank _ ?_) ?_⟩
  · rw [hbytes]
    exact List.mem_cons_self
  · rw [ofUInt8_toUInt8 (hlatin c hc)]
    exact hcontrol c hc

theorem exists_cons_text {direction : Direction} {first : StartLine}
    (h : first.WellFormed direction) :
    ∃ b rest, toBytes first.text = b :: rest ∧ isPadding b = false := by
  cases direction with
  | request =>
      cases first with
      | request method target version =>
          obtain ⟨⟨hlatin, hne, hblank, hcontrol⟩, -, -⟩ := h
          obtain ⟨b, rest, hbytes, hb⟩ := exists_cons_toBytes hne hlatin hblank hcontrol
          rw [toBytes_text_request, hbytes]
          exact ⟨b, _, rfl, hb⟩
      | status version code reason => exact h.elim
  | response =>
      cases first with
      | request method target version => exact h.elim
      | status version code reason =>
          obtain ⟨hversion, -⟩ := h
          have hne := (Version.protocol_of_parse hversion.parses).1
          have hblank := not_isBlank_of_visible hversion.protocol_visible
          obtain ⟨b, rest, hbytes, hb⟩ :=
            exists_cons_toBytes hne hversion.latin hblank hversion.controls
          rw [toBytes_text_status, Version.text, toBytes_append, toBytes_append, toBytes_append,
            toBytes_append, hbytes]
          exact ⟨b, _, rfl, hb⟩

end StartLine

/-- A run through a line from which a start line is read leads to the header block. -/
theorem Phase.run_line {direction : Direction} {limits : Limits} {first : StartLine} {text : Bytes}
    (hread : StartLine.read direction text = .ok (some first))
    (hends : ∀ b ∈ text, isLineEnd b = false)
    (hopens : ∃ b later, text = b :: later ∧ isPadding b = false)
    (hle : text.length ≤ limits.line) (rest : Bytes) :
    run direction limits .idle (endLine text ++ rest) =
      run direction limits (.header first {} {}) rest := by
  obtain ⟨line, hscan, hbytes, -, hrest⟩ := @Line.scan_endLine limits.line 0 0
    (endLine text ++ rest) text rest rfl hends (by rw [Nat.zero_add]; exact hle)
  rw [← hbytes] at hread
  have hbegin : step direction limits .idle (endLine text ++ rest) =
      .proceed .startLine (endLine text ++ rest) [] := by
    obtain ⟨b, later, rfl, hb⟩ := hopens
    have hnone : ∀ b ∈ ([] : Bytes), isPadding b = true := List.forall_mem_nil _
    exact (Move.beginning hnone hb).step_eq
  rw [run_of_proceed hbegin, run_of_proceed (Move.started hscan hread).step_eq, hrest]
  rfl

end HttpWire
