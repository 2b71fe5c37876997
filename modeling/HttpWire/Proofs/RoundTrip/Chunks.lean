import HttpWire.Proofs.Pieces
import HttpWire.Proofs.RoundTrip.Blocks

/-!
# Reading written chunks

A size is read back from its hexadecimal digits, of either case and with any leading zeros, and a
chunked body from its chunks, however much stands behind a size or behind the data of a chunk.

- `SizeLine.Gives.readSize_text`: the line of a size gives the size.
- `Phase.run_chunk`, `Phase.run_trailer`, `Phase.run_chunked`: runs through a chunk, through a
  trailer, and through a whole chunked body.
-/

set_option autoImplicit false

namespace HttpWire

open Text

/-! ## Hexadecimal digits -/

namespace Text

theorem isSome_of_mapM {α β : Type} {f : α → Option β} {xs : List α} {ys : List β}
    (h : xs.mapM f = some ys) : ∀ x ∈ xs, (f x).isSome = true := by
  induction xs generalizing ys with
  | nil => nofun
  | cons x xs ih =>
      simp only [List.mapM_cons, Option.bind_eq_bind, Option.bind_eq_some_iff] at h
      obtain ⟨y, hx, ys', hxs, -⟩ := h
      intro z hz
      rcases List.mem_cons.1 hz with rfl | hz
      · rw [hx]
        rfl
      · exact ih hxs z hz

theorem ofDigits_concat (base : Nat) (digits : List Nat) (d : Nat) :
    ofDigits base (digits ++ [d]) = ofDigits base digits * base + d := by
  simp only [ofDigits, List.foldl_append, List.foldl_cons, List.foldl_nil]

theorem ofDigits_zeros (base zeros : Nat) (digits : List Nat) :
    ofDigits base (List.replicate zeros 0 ++ digits) = ofDigits base digits := by
  induction zeros with
  | zero => rfl
  | succ zeros ih =>
      rw [List.replicate_succ, List.cons_append, ← ih, ofDigits, List.foldl_cons, Nat.zero_mul]
      rfl

theorem hexDigit?_digitChar {d : Nat} (h : d < 16) : hexDigit? (Nat.digitChar d) = some d := by
  have hall : ∀ d < 16, hexDigit? (Nat.digitChar d) = some d := by decide
  exact hall d h

theorem mapM_toDigits (n : Nat) :
    ∃ values, (Nat.toDigits 16 n).mapM hexDigit? = some values ∧ ofDigits 16 values = n := by
  induction n using Nat.strongRecOn with
  | ind n ih =>
      by_cases hsmall : n < 16
      · refine ⟨[n], ?_, ?_⟩
        · rw [Nat.toDigits_of_lt_base hsmall, List.mapM_cons, hexDigit?_digitChar hsmall]
          rfl
        · simp only [ofDigits, List.foldl_cons, List.foldl_nil]
          omega
      · -- the digits of the quotient, and then the remainder
        obtain ⟨values, hvalues, hn⟩ := ih (n / 16) (Nat.div_lt_self (by omega) (by decide))
        refine ⟨values ++ [n % 16], ?_, ?_⟩
        · rw [Nat.toDigits_of_base_le (by decide) (by omega), List.mapM_append, hvalues,
            List.mapM_cons, hexDigit?_digitChar (Nat.mod_lt n (by decide))]
          rfl
        · rw [ofDigits_concat, hn]
          omega

theorem mapM_zeros (zeros : Nat) :
    (List.replicate zeros '0').mapM hexDigit? = some (List.replicate zeros 0) := by
  induction zeros with
  | zero => rfl
  | succ zeros ih =>
      rw [List.replicate_succ, List.mapM_cons, ih]
      rfl

theorem hexDigit?_toLower (b : UInt8) :
    hexDigit? (Char.ofUInt8 b).toLower = hexDigit? (Char.ofUInt8 b) := by
  have hall := forall_byte
    (p := fun b => hexDigit? (Char.ofUInt8 b).toLower == hexDigit? (Char.ofUInt8 b))
    (by decide +kernel) b
  simpa using hall

/-- A hexadecimal digit does not end the digits of a size, nor its line, and it is visible. -/
theorem not_endsSize_of_hexDigit? {b : UInt8} (h : (hexDigit? (Char.ofUInt8 b)).isSome = true) :
    Chunked.endsSize b = false ∧ isLineEnd b = false ∧ ¬ b ≤ sp := by
  have hall := forall_byte
    (p := fun b => !(hexDigit? (Char.ofUInt8 b)).isSome ||
      (!Chunked.endsSize b && !isLineEnd b && !decide (b ≤ sp))) (by decide +kernel) b
  simpa [h, and_assoc] using hall

end Text

namespace IsHexadecimal

variable {n : Nat} {digits : Bytes}

theorem mapM_eq (h : IsHexadecimal n digits) :
    ∃ values, (digits.map Char.ofUInt8).mapM hexDigit? = some values ∧ ofDigits 16 values = n := by
  obtain ⟨zeros, hdigits⟩ := h
  obtain ⟨values, hvalues, hn⟩ := mapM_toDigits n
  refine ⟨List.replicate zeros 0 ++ values, ?_, ?_⟩
  · -- the digits are in lower case only where they are compared
    have hlower : (digits.map Char.ofUInt8).mapM hexDigit? =
        (digits.map fun b => (Char.ofUInt8 b).toLower).mapM hexDigit? := by
      rw [List.mapM_map, List.mapM_map]
      congr 1
      funext b
      exact (hexDigit?_toLower b).symm
    rw [hlower, hdigits, List.mapM_append, mapM_zeros, hvalues]
    rfl
  · rw [ofDigits_zeros, hn]

theorem ne_nil (h : IsHexadecimal n digits) : digits ≠ [] := by
  rintro rfl
  obtain ⟨zeros, hdigits⟩ := h
  simp at hdigits

theorem isSome_of_mem (h : IsHexadecimal n digits) :
    ∀ b ∈ digits, (hexDigit? (Char.ofUInt8 b)).isSome = true := by
  obtain ⟨values, hvalues, -⟩ := h.mapM_eq
  rw [List.mapM_map] at hvalues
  exact isSome_of_mapM hvalues

theorem hexadecimal?_eq (h : IsHexadecimal n digits) {bound : Nat} (hn : n < bound) :
    hexadecimal? bound (ofBytes digits).toList = some n := by
  obtain ⟨values, hvalues, hvalue⟩ := h.mapM_eq
  have hempty : (digits.map Char.ofUInt8).isEmpty = false := by
    simpa using h.ne_nil
  simp only [hexadecimal?, toList_ofBytes, hempty, hvalues, hvalue, if_pos hn, Bool.false_eq_true,
    if_false]

end IsHexadecimal

/-! ## Size lines -/

namespace SizeLine.Gives

variable {line : SizeLine} {n : Nat}

theorem isLineEnd_of_mem_text (h : line.Gives n) : ∀ b ∈ line.text, isLineEnd b = false := by
  intro b hb
  rw [SizeLine.text, List.mem_append] at hb
  rcases hb with hb | hb
  · exact (not_endsSize_of_hexDigit? (h.digits.isSome_of_mem b hb)).2.1
  · exact h.no_end b hb

theorem readSize_text (h : line.Gives n) : Chunked.readSize line.text = .ok n := by
  have hdigit := fun b hb => not_endsSize_of_hexDigit? (h.digits.isSome_of_mem b hb)
  have hdrop : line.text.dropWhile (· ≤ sp) = line.text := by
    obtain ⟨b, rest, hdigits⟩ := List.exists_cons_of_ne_nil h.digits.ne_nil
    have hb := (hdigit b (by rw [hdigits]; exact List.mem_cons_self)).2.2
    rw [SizeLine.text, hdigits, List.cons_append]
    exact List.dropWhile_cons_of_neg (by simpa using hb)
  have hstop : line.extension.takeWhile (!Chunked.endsSize ·) = [] := by
    cases hextension : line.extension with
    | nil => rfl
    | cons b rest =>
        have hb : b = Chunked.semicolon := h.extension b (by rw [hextension]; rfl)
        rw [hb]
        exact List.takeWhile_cons_of_neg (by decide)
  have htake : line.text.takeWhile (!Chunked.endsSize ·) = line.digits := by
    rw [SizeLine.text, List.takeWhile_append_of_pos fun b hb => by simp [(hdigit b hb).1], hstop,
      List.append_nil]
  simp only [Chunked.readSize, hdrop, htake, h.digits.hexadecimal?_eq h.bound]

end SizeLine.Gives

/-! ## Runs through a chunked body -/

namespace Phase

open Event

variable {direction : Direction} {limits : Limits}

theorem scan_sizeLine {line : SizeLine} {n : Nat} (h : line.Gives n)
    (hle : line.text.length ≤ limits.line) (rest : Bytes) :
    ∃ found, Line.scan limits.line 0 (endLine line.text ++ rest) 0 = .found found ∧
      Chunked.readSize (found.bytes (endLine line.text ++ rest)) = .ok n ∧
      (endLine line.text ++ rest).drop found.next = rest := by
  obtain ⟨found, hscan, hbytes, -, hrest⟩ := @Line.scan_endLine limits.line 0 0
    (endLine line.text ++ rest) line.text rest rfl h.isLineEnd_of_mem_text
    (by rw [Nat.zero_add]; exact hle)
  refine ⟨found, hscan, ?_, hrest⟩
  rw [hbytes]
  exact h.readSize_text

theorem run_chunk (direction : Direction) (hvalid : limits.Valid) {chunk : Chunk}
    (h : chunk.WellFormed) (hle : chunk.size.text.length ≤ limits.line) (body : ChunkedBody)
    (rest : Bytes) :
    (run direction limits (.chunkSize body) (chunk.write ++ rest)).Same
      ((run direction limits (.chunkSize body) rest).after [.body chunk.data]) := by
  have hwrite : chunk.write ++ rest =
      endLine chunk.size.text ++ (chunk.data ++ (chunk.filler ++ lf :: rest)) := by
    simp only [Chunk.write, List.append_assoc, List.singleton_append]
  obtain ⟨found, hscan, hsize, hrest⟩ :=
    scan_sizeLine h.size hle (chunk.data ++ (chunk.filler ++ lf :: rest))
  have hpos := List.length_pos_iff.2 h.data_ne
  have hdata := (countsDown_chunkData direction limits body).run_full hvalid h.data_ne
    (chunk.filler ++ lf :: rest)
  -- after the data the rest of its line is dropped, whatever it holds
  rw [run_of_proceed (Move.chunkEnds h.filler).step_eq] at hdata
  rw [hwrite, run_of_proceed (Move.chunk hscan hsize hpos).step_eq, hrest]
  exact hdata

/-- A run through chunks reports the data of all of them. -/
theorem run_chunks (direction : Direction) (hvalid : limits.Valid) {chunks : List Chunk}
    (h : ∀ chunk ∈ chunks, chunk.WellFormed)
    (hle : ∀ chunk ∈ chunks, chunk.size.text.length ≤ limits.line) (body : ChunkedBody)
    (rest : Bytes) :
    (run direction limits (.chunkSize body) (chunks.flatMap Chunk.write ++ rest)).Same
      ((run direction limits (.chunkSize body) rest).after
        (piece (chunks.flatMap Chunk.data))) := by
  induction chunks with
  | nil => exact ⟨rfl, rfl, rfl⟩
  | cons chunk chunks ih =>
      obtain ⟨hchunk, hchunks⟩ := List.forall_mem_cons.1 h
      obtain ⟨hle', hles⟩ := List.forall_mem_cons.1 hle
      rw [List.flatMap_cons, List.append_assoc, List.flatMap_cons]
      have hfirst := run_chunk direction hvalid hchunk hle' body
        (chunks.flatMap Chunk.write ++ rest)
      refine hfirst.trans (((ih hchunks hles).after _).trans ⟨rfl, rfl, ?_⟩)
      rw [← piece_of_ne_nil hchunk.data_ne]
      exact merge_piece_piece chunk.data (chunks.flatMap Chunk.data) _

/-- A run through a trailer ends the message with the fields that are kept. -/
theorem run_trailer {trailers : List Field} (h : ∀ field ∈ trailers, field.WellFormed)
    {charged : Nat} (hle : charged + Fields.charge trailers ≤ limits.header) (switches : Bool)
    (rest : Bytes) :
    run direction limits (.trailer switches {} { charged }) (Fields.writeBlock trailers ++ rest) =
      (run direction limits (afterMessage switches) rest).after
        [.last { trailers := ⟨keptTrailers trailers⟩ }] := by
  obtain ⟨next, hread, hrest⟩ := FieldBlock.read_writeBlock limits.strict h hle rest
  rw [run_of_proceed (Move.trailerEnds hread).step_eq, hrest]
  rfl

/-- A run through a chunked body ends the message with the data of all chunks. -/
theorem run_chunked (direction : Direction) (hvalid : limits.Valid) {chunks : List Chunk}
    {last : SizeLine} {trailers : List Field}
    (h : Body.WellFormed .chunked (.chunked chunks last trailers))
    (hlines : ∀ line ∈ (Body.chunked chunks last trailers).sizeLines,
      line.text.length ≤ limits.line)
    {charged : Nat} (hle : charged + Fields.charge trailers ≤ limits.header) (switches : Bool)
    (rest : Bytes) :
    (run direction limits (.chunkSize ⟨charged, switches⟩)
      ((Body.chunked chunks last trailers).write ++ rest)).Same
      ((run direction limits (afterMessage switches) rest).after
        [.last { data := chunks.flatMap Chunk.data, trailers := ⟨keptTrailers trailers⟩ }]) := by
  obtain ⟨hchunks, hlast, htrailers⟩ := h
  have hline : last.text.length ≤ limits.line :=
    hlines last (List.mem_append_right _ List.mem_cons_self)
  have hsizes : ∀ chunk ∈ chunks, chunk.size.text.length ≤ limits.line := by
    intro chunk hchunk
    exact hlines chunk.size (List.mem_append_left _ (List.mem_map_of_mem hchunk))
  obtain ⟨found, hscan, hsize, hrest⟩ :=
    scan_sizeLine hlast hline (Fields.writeBlock trailers ++ rest)
  have hdata := run_chunks direction hvalid hchunks hsizes ⟨charged, switches⟩
    (endLine last.text ++ (Fields.writeBlock trailers ++ rest))
  rw [run_of_proceed (Move.lastChunk hscan hsize).step_eq, hrest,
    run_trailer htrailers hle] at hdata
  rw [Body.write, List.append_assoc, List.append_assoc]
  have hend := merge_piece_last (chunks.flatMap Chunk.data)
    { trailers := ⟨keptTrailers trailers⟩ }
    (run direction limits (afterMessage switches) rest).events
  simp only [List.append_nil] at hend
  exact hdata.trans ⟨rfl, rfl, hend⟩

end Phase

end HttpWire
