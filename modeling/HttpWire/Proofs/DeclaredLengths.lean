import HttpWire.Proofs.Folds.Parts
import HttpWire.Proofs.Numerals

/-!
# Declared lengths

A `Content-Length` value declares a length if it is a number in ASCII digits, with any leading zeros
and with white space around it. Its length is taken as a whole or the message is refused: nothing is
cut off, wrapped around or passed over.

White space is taken in the sense of Unicode here, and blanks of a line are not. A no-break space
beside the digits is no blank of a line, so it stays in a value, and is white space around a length.

- `Text.trim_eq_iff`: what is left of a list when it is trimmed.
- `BodyLength.select_declared`: the values that declare a length, and the length each of them declares.
- `Connection.no_break_space_around_length`: a length that is read beside a no-break space.
-/

set_option autoImplicit false

namespace HttpWire

open Text

namespace Text

/-- A list is trimmed to a text exactly if it is that text between elements of the class, and the text
neither begins nor ends in the class. -/
theorem trim_eq_iff {α : Type} {p : α → Bool} {xs text : List α} : trim p xs = text ↔
    trim p text = text ∧
      ∃ before after, xs = before ++ (text ++ after) ∧ (∀ x ∈ before, p x = true) ∧
        ∀ x ∈ after, p x = true := by
  constructor
  · rintro rfl
    obtain ⟨hfirst, hlast⟩ := trim_ends p xs
    obtain ⟨after, hsplit, hafter⟩ := dropTrailing_split p (xs.dropWhile p)
    refine ⟨trim_of_ends hfirst hlast, xs.takeWhile p, after, ?_, ?_, hafter⟩
    · rw [trim, ← hsplit, List.takeWhile_append_dropWhile]
    · exact fun x hx => List.all_eq_true.1 List.all_takeWhile x hx
  · rintro ⟨htext, before, after, rfl, hbefore, hafter⟩
    exact trim_between hbefore hafter htext

theorem isSpace_of_isDigit {c : Char} (h : c.isDigit = true) : isSpace c = false := by
  have hrange := toNat_of_isDigit h
  exact isSpace_of_ascii (by omega) (by omega)

theorem IsDecimal.trim_eq {n : Nat} {digits : List Char} (h : IsDecimal n digits) :
    trim isSpace digits = digits := by
  apply trim_of_ends
  · exact fun c hc => isSpace_of_isDigit (h.isDigit_of_mem (List.mem_of_mem_head? hc))
  · exact fun c hc => isSpace_of_isDigit (h.isDigit_of_mem (List.mem_of_getLast? hc))

end Text

namespace BodyLength

variable {direction : Direction} {head : Head} {value : String}

/-- Where neither the status nor a transfer coding decides, the first declared length does. -/
theorem select_of_get? (hbody : ¬ (direction = .response ∧ head.isBodiless = true))
    (hchunked : head.isChunked = false) (hfirst : head.fields.get? "content-length" = some value) :
    select direction head = (declared value).map .fixed := by
  simp only [select, if_neg hbody, hchunked, Bool.false_eq_true, if_false, announced, hfirst]
  cases declared value with
  | error fault => rfl
  | ok length => rfl

theorem select_eq_declared (hbody : ¬ (direction = .response ∧ head.isBodiless = true))
    (hchunked : head.isChunked = false) (hone : head.fields.getAll "content-length" = [value]) :
    select direction head = (declared value).map .fixed := by
  apply select_of_get? hbody hchunked
  rw [Fields.get?, hone]
  rfl

/-- A value declares a length below 2^64 if it is a number in ASCII digits between white space. -/
theorem declared_eq_ok_iff {n : Nat} : declared value = .ok n ↔
    ∃ before digits after, value.toList = before ++ (digits ++ after) ∧
      (∀ c ∈ before, isSpace c = true) ∧ (∀ c ∈ after, isSpace c = true) ∧
      IsDecimal n digits ∧ n < bitBound 64 := by
  have hread : declared value = .ok n ↔
      decimal? (bitBound 64) (trim isSpace value.toList) = some n := by
    unfold declared
    split
    · rename_i hnone
      simp only [hnone, reduceCtorEq]
    · rename_i length hsome
      rw [hsome, Except.ok.injEq, Option.some.injEq]
  rw [hread, decimal?_eq_some_iff]
  constructor
  · rintro ⟨h, hn⟩
    obtain ⟨-, before, after, hvalue, hbefore, hafter⟩ := trim_eq_iff.1 rfl
    exact ⟨before, _, after, hvalue, hbefore, hafter, h, hn⟩
  · rintro ⟨before, digits, after, hvalue, hbefore, hafter, h, hn⟩
    rw [trim_eq_iff.2 ⟨h.trim_eq, before, after, hvalue, hbefore, hafter⟩]
    exact ⟨h, hn⟩

theorem declared_cases (value : String) :
    (∃ n, declared value = .ok n) ∨ declared value = .error (.invalidContentLength value) := by
  unfold declared
  split
  · exact .inr rfl
  · exact .inl ⟨_, rfl⟩

/-- A message with one `Content-Length`, where neither its status nor a transfer coding decides, has a
body of `n` bytes exactly if the value is the number `n`, below 2^64, in ASCII digits with any leading
zeros and with white space around it. With every other value the message is refused, and the value is
reported as it stands. -/
theorem select_declared (hone : head.fields.getAll "content-length" = [value])
    (hbody : ¬ (direction = .response ∧ head.isBodiless = true))
    (hchunked : head.isChunked = false) :
    (∀ n, select direction head = .ok (.fixed n) ↔
      ∃ before digits after, value.toList = before ++ (digits ++ after) ∧
        (∀ c ∈ before, isSpace c = true) ∧ (∀ c ∈ after, isSpace c = true) ∧
        IsDecimal n digits ∧ n < bitBound 64) ∧
      ((∃ n, select direction head = .ok (.fixed n)) ∨
        select direction head = .error (.invalidContentLength value)) := by
  rw [select_eq_declared hbody hchunked hone]
  constructor
  · intro n
    rw [← declared_eq_ok_iff]
    cases declared value with
    | error fault => simp only [Except.map, reduceCtorEq]
    | ok length => simp only [Except.map, Except.ok.injEq, fixed.injEq]
  · rcases declared_cases value with ⟨n, hn⟩ | hrefused
    · exact .inl ⟨n, by rw [hn]; rfl⟩
    · exact .inr (by rw [hrefused]; rfl)

/-- The largest length that there is, with leading zeros, between U+0085 and a space on one side and
U+00A0 on the other, and the number after it. -/
theorem select_declared_at_the_bound :
    let post (value : String) : Head :=
      { startLine := .request "POST" "/" .http11, fields := ⟨[⟨"content-LENGTH", value⟩]⟩ }
    let largest := "\u0085 0018446744073709551615\u00a0"
    let next := "18446744073709551616"
    select .request (post largest) = .ok (.fixed (bitBound 64 - 1)) ∧
      select .request (post next) = .error (.invalidContentLength next) := by
  intro post largest next
  have hlargest := @select_declared .request (post largest) largest (by decide +kernel) (by decide)
    (by decide +kernel)
  have hnext := @select_declared .request (post next) next (by decide +kernel) (by decide)
    (by decide +kernel)
  constructor
  · apply (hlargest.1 _).2
    refine ⟨"\u0085 ".toList, "0018446744073709551615".toList, "\u00a0".toList, ?_⟩
    refine ⟨by decide +kernel, by decide +kernel, by decide +kernel, ⟨2, by decide +kernel⟩, ?_⟩
    decide +kernel
  · rcases hnext.2 with ⟨n, hn⟩ | hrefused
    · have hread : (select .request (post next)).isOk = false := by decide +kernel
      rw [hn] at hread
      cases hread
    · exact hrefused

end BodyLength

namespace Connection

/-- A request declares a length of five behind a no-break space, which is neither a space nor a tab.
Its body is read. -/
theorem no_break_space_around_length :
    let new : Connection := { reader := ⟨.request, {}, by decide, .idle, false⟩ }
    let value := "\u00a05"
    let head : Head :=
      { startLine := .request "POST" "/" .http11, fields := ⟨[⟨"Content-Length", value⟩]⟩ }
    let sent := toBytes "POST / HTTP/1.1\r\nContent-Length: \u00a05\r\n\r\nhello"
    start .request {} = .ok new ∧
      (new.push sent).2 = [.head head, .last { data := toBytes "hello" }] ∧
      head.fields.getAll "content-length" = [value] ∧ head.isChunked = false ∧
      BodyLength.select .request head = .ok (.fixed 5) ∧
      ∀ before digits after n, value.toList = before ++ (digits ++ after) →
        (∀ c ∈ before, c = ' ' ∨ c = '\t') → (∀ c ∈ after, c = ' ' ∨ c = '\t') →
        ¬ IsDecimal n digits := by
  intro new value head sent
  refine ⟨rfl, by decide +kernel, by decide +kernel, by decide +kernel, by decide +kernel, ?_⟩
  intro before digits after n hvalue hbefore hafter h
  -- the no-break space would stand in one of the three parts
  have hmem : Char.ofNat 0xA0 ∈ before ++ (digits ++ after) := by
    rw [← hvalue]
    decide +kernel
  rw [List.mem_append, List.mem_append] at hmem
  rcases hmem with hmem | hmem | hmem
  · exact absurd (hbefore _ hmem) (by decide)
  · exact absurd (h.isDigit_of_mem hmem) (by decide)
  · exact absurd (hafter _ hmem) (by decide)

end Connection

end HttpWire
