import HttpWire.Proofs.ListFields

/-!
# Which rule decides how far a body extends

Five rules say how far the body of a message extends, and the first that applies decides: what a later
one would say, be it a fault, is not heard. Each rule looks at the kind of the start line, at its method
or status, and at a few fields.

- `Head.NeverHasBody`, `Head.ListsChunked`, `Head.AsksDraft`, `Head.AnswersDraft`: what the rules look for
  in a head.
- `BodyLength.Decided`: the rules, in their order.
- `BodyLength.select_of_decided`, `BodyLength.decided_select`: the selection is what the rules decide.
- `Head.FramedLike`: heads between which no rule makes a difference.
- `BodyLength.select_by_precedence`: the rules decide, and nothing else in a head matters.
-/

set_option autoImplicit false

namespace HttpWire

open Text

/-! ## What the rules look for in a head -/

namespace Head

variable {head : Head} {name value : String}

/-- Whether a head has a field of a name, in letters of either case, with a value. -/
def Carries (head : Head) (name value : String) : Prop :=
  ∃ field ∈ head.fields.toList, sameFold field.name name = true ∧ field.value = value

theorem carries_iff_mem : head.Carries name value ↔ value ∈ head.fields.getAll name := by
  rw [Fields.getAll, List.mem_map]
  constructor
  · rintro ⟨field, hfield, hname, hvalue⟩
    exact ⟨field, List.mem_filter.2 ⟨hfield, hname⟩, hvalue⟩
  · rintro ⟨field, hfield, hvalue⟩
    obtain ⟨hfield, hname⟩ := List.mem_filter.1 hfield
    exact ⟨field, hfield, hname, hvalue⟩

theorem get?_eq_none_iff :
    head.fields.get? name = none ↔ ∀ value, ¬ head.Carries name value := by
  rw [Fields.get?, List.head?_eq_none_iff, List.eq_nil_iff_forall_not_mem]
  simp only [carries_iff_mem]

theorem contains_iff_carries :
    head.fields.contains name = true ↔ ∃ value, head.Carries name value := by
  rw [Fields.contains, Option.isSome_iff_ne_none, ne_eq, get?_eq_none_iff, not_forall_not]

/-- Whether a head answers a websocket handshake of draft 76: a 101 response with the acceptance key of
the final protocol missing and with an `Upgrade` field that says `websocket`. -/
def AnswersDraft (head : Head) : Prop :=
  head.startLine.code? = some 101 ∧ (∀ value, ¬ head.Carries "sec-websocket-accept" value) ∧
    ∃ value, head.Carries "upgrade" value ∧ sameFold value "websocket" = true

/-- Whether a head asks for a websocket handshake of draft 76: a GET request with both keys. -/
def AsksDraft (head : Head) : Prop :=
  (∃ target version, head.startLine = .request "GET" target version) ∧
    (∃ value, head.Carries "sec-websocket-key1" value) ∧
    ∃ value, head.Carries "sec-websocket-key2" value

/-- Whether a head is that of a response to which no body belongs: a 204, a 304, or an informational one
that does not answer a handshake of the draft. -/
def NeverHasBody (head : Head) : Prop :=
  ∃ code, head.startLine.code? = some code ∧
    (code = 204 ∨ code = 304 ∨ (100 ≤ code ∧ code < 200 ∧ ¬ head.AnswersDraft))

/-- Whether some transfer coding of a head is `chunked`. -/
def ListsChunked (head : Head) : Prop :=
  ∃ value, head.Carries "transfer-encoding" value ∧ Lists value "chunked"

theorem answersDraftHandshake_iff : head.answersDraftHandshake = true ↔ head.AnswersDraft := by
  rw [answersDraftHandshake, Bool.and_eq_true, Bool.and_eq_true, beq_iff_eq, Bool.not_eq_true',
    ← Bool.not_eq_true, contains_iff_carries, List.any_eq_true, not_exists, and_assoc]
  simp only [AnswersDraft, carries_iff_mem]

theorem isBodiless_iff : head.isBodiless = true ↔ head.NeverHasBody := by
  rw [isBodiless, NeverHasBody]
  cases hcode : head.startLine.code? with
  | none => simp
  | some code =>
      simp only [Option.some.injEq, exists_eq_left']
      by_cases hrange : 100 ≤ code ∧ code < 200
      · -- an informational status is neither 204 nor 304
        rw [if_pos hrange, Bool.not_eq_true', ← Bool.not_eq_true, answersDraftHandshake_iff]
        constructor
        · exact fun hanswer => .inr (.inr ⟨hrange.1, hrange.2, hanswer⟩)
        · rintro (rfl | rfl | ⟨-, -, hanswer⟩)
          · exact absurd hrange.2 (by decide)
          · exact absurd hrange.2 (by decide)
          · exact hanswer
      · rw [if_neg hrange, Bool.or_eq_true, beq_iff_eq, beq_iff_eq]
        constructor
        · exact Or.imp_right .inl
        · rintro (h | h | ⟨hlow, hhigh, -⟩)
          · exact .inl h
          · exact .inr h
          · exact absurd ⟨hlow, hhigh⟩ hrange

theorem isChunked_iff : head.isChunked = true ↔ head.ListsChunked := by
  rw [isChunked, Fields.lists_iff_exists (by decide)]
  constructor
  · rintro ⟨field, hfield, hname, hlists⟩
    exact ⟨field.value, ⟨field, hfield, hname, rfl⟩, hlists⟩
  · rintro ⟨_, ⟨field, hfield, hname, rfl⟩, hlists⟩
    exact ⟨field, hfield, hname, hlists⟩

end Head

/-! ## The rules -/

namespace BodyLength

variable {direction : Direction} {head : Head} {value : String} {n : Nat}

/-- Whether a value declares a length: it is a number below 2^64 in ASCII digits, with any leading zeros
and with white space around it. -/
def Declares (value : String) (n : Nat) : Prop :=
  ∃ before digits after, value.toList = before ++ (digits ++ after) ∧
    (∀ c ∈ before, isSpace c = true) ∧ (∀ c ∈ after, isSpace c = true) ∧
    IsDecimal n digits ∧ n < bitBound 64

/-- How far a body extends about whose length the head says nothing. A request asks for a handshake and a
response answers one, so the first two rules exclude each other. -/
inductive Implied (direction : Direction) (head : Head) : BodyLength → Prop
  /-- The key with which a handshake is asked for. -/
  | question (h : head.AsksDraft) : Implied direction head (.fixed 8)
  /-- The key with which a handshake is answered. -/
  | answer (h : head.AnswersDraft) : Implied direction head (.fixed 16)
  | request (hdirection : direction = .request) (hasks : ¬ head.AsksDraft)
      (hanswers : ¬ head.AnswersDraft) : Implied direction head .empty
  | response (hdirection : direction = .response) (hasks : ¬ head.AsksDraft)
      (hanswers : ¬ head.AnswersDraft) : Implied direction head .untilClose

/-- What the rules decide for a head, each rule where none before it applies. -/
inductive Decided (direction : Direction) (head : Head) : Except Fault BodyLength → Prop
  | bodiless (hbody : direction = .response ∧ head.NeverHasBody) : Decided direction head (.ok .empty)
  | chunked (hbody : ¬ (direction = .response ∧ head.NeverHasBody)) (hchunked : head.ListsChunked) :
      Decided direction head (.ok .chunked)
  | declared {value : String} {n : Nat} (hbody : ¬ (direction = .response ∧ head.NeverHasBody))
      (hchunked : ¬ head.ListsChunked) (hcarries : head.Carries "content-length" value)
      (hdeclares : Declares value n) : Decided direction head (.ok (.fixed n))
  | malformed {value : String} (hbody : ¬ (direction = .response ∧ head.NeverHasBody))
      (hchunked : ¬ head.ListsChunked) (hcarries : head.Carries "content-length" value)
      (hdeclares : ∀ n, ¬ Declares value n) :
      Decided direction head (.error (.invalidContentLength value))
  | implied {length : BodyLength} (hbody : ¬ (direction = .response ∧ head.NeverHasBody))
      (hchunked : ¬ head.ListsChunked) (hcarries : ∀ value, ¬ head.Carries "content-length" value)
      (himplied : Implied direction head length) : Decided direction head (.ok length)

/-! ## The selection follows the rules -/

theorem select_of_chunked (hbody : ¬ (direction = .response ∧ head.isBodiless = true))
    (hchunked : head.isChunked = true) : select direction head = .ok .chunked := by
  simp only [select, if_neg hbody, hchunked, if_true]

theorem map_fixed_eq_ok_iff : (declared value).map fixed = .ok (fixed n) ↔ Declares value n := by
  rw [Declares, ← declared_eq_ok_iff]
  cases declared value with
  | error fault => simp only [Except.map, reduceCtorEq]
  | ok length => simp only [Except.map, Except.ok.injEq, fixed.injEq]

/-- A value that declares no length is refused. -/
theorem map_fixed_of_malformed (h : ∀ n, ¬ Declares value n) :
    (declared value).map fixed = .error (.invalidContentLength value) := by
  rcases declared_cases value with ⟨n, hn⟩ | hrefused
  · exact absurd (declared_eq_ok_iff.1 hn) (h n)
  · rw [hrefused]
    rfl

theorem handshakeKey?_of_asks (h : head.AsksDraft) : handshakeKey? head = some 8 := by
  obtain ⟨⟨target, version, hline⟩, hkey1, hkey2⟩ := h
  rw [handshakeKey?, hline]
  simp [Head.contains_iff_carries.2 hkey1, Head.contains_iff_carries.2 hkey2]

theorem handshakeKey?_of_answers (h : head.AnswersDraft) : handshakeKey? head = some 16 := by
  have hanswers := Head.answersDraftHandshake_iff.2 h
  obtain ⟨hcode, -⟩ := h
  rw [handshakeKey?]
  cases hline : head.startLine with
  | request method target version =>
      rw [hline] at hcode
      cases hcode
  | status version code reason => exact if_pos hanswers

theorem handshakeKey?_of_not (hasks : ¬ head.AsksDraft) (hanswers : ¬ head.AnswersDraft) :
    handshakeKey? head = none := by
  rw [handshakeKey?]
  cases hline : head.startLine with
  | request method target version =>
      apply if_neg
      intro hkeys
      simp only [Bool.and_eq_true, beq_iff_eq, Head.contains_iff_carries] at hkeys
      obtain ⟨⟨rfl, hkey1⟩, hkey2⟩ := hkeys
      exact hasks ⟨⟨target, version, hline⟩, hkey1, hkey2⟩
  | status version code reason => exact if_neg (mt Head.answersDraftHandshake_iff.1 hanswers)

/-- Where neither the status nor a transfer coding nor a declared length decides, the kind of the message
does. -/
theorem select_of_implied {length : BodyLength}
    (hbody : ¬ (direction = .response ∧ head.isBodiless = true)) (hchunked : head.isChunked = false)
    (hlength : head.fields.get? "content-length" = none) (himplied : Implied direction head length) :
    select direction head = .ok length := by
  simp only [select, if_neg hbody, hchunked, Bool.false_eq_true, if_false, announced, hlength]
  cases himplied with
  | question h => rw [handshakeKey?_of_asks h]
  | answer h => rw [handshakeKey?_of_answers h]
  | request hdirection hasks hanswers => rw [handshakeKey?_of_not hasks hanswers, hdirection]
  | response hdirection hasks hanswers => rw [handshakeKey?_of_not hasks hanswers, hdirection]

theorem exists_implied (direction : Direction) (head : Head) :
    ∃ length, Implied direction head length := by
  by_cases hasks : head.AsksDraft
  · exact ⟨_, .question hasks⟩
  by_cases hanswers : head.AnswersDraft
  · exact ⟨_, .answer hanswers⟩
  cases direction with
  | request => exact ⟨_, .request rfl hasks hanswers⟩
  | response => exact ⟨_, .response rfl hasks hanswers⟩

theorem decided_select (direction : Direction) (head : Head) :
    Decided direction head (select direction head) := by
  by_cases hbody : direction = .response ∧ head.isBodiless = true
  · have hselect : select direction head = .ok .empty := if_pos hbody
    rw [hselect]
    exact .bodiless ⟨hbody.1, Head.isBodiless_iff.1 hbody.2⟩
  have hbody' : ¬ (direction = .response ∧ head.NeverHasBody) := by rwa [← Head.isBodiless_iff]
  cases hchunked : head.isChunked with
  | true =>
      rw [select_of_chunked hbody hchunked]
      exact .chunked hbody' (Head.isChunked_iff.1 hchunked)
  | false =>
      have hchunked' : ¬ head.ListsChunked := by
        rw [← Head.isChunked_iff, hchunked]
        exact Bool.false_ne_true
      cases hlength : head.fields.get? "content-length" with
      | none =>
          obtain ⟨length, himplied⟩ := exists_implied direction head
          rw [select_of_implied hbody hchunked hlength himplied]
          exact .implied hbody' hchunked' (Head.get?_eq_none_iff.1 hlength) himplied
      | some value =>
          have hcarries : head.Carries "content-length" value :=
            Head.carries_iff_mem.2 (List.mem_of_head? hlength)
          rw [select_of_get? hbody hchunked hlength]
          by_cases hdeclares : ∃ n, Declares value n
          · obtain ⟨n, hn⟩ := hdeclares
            rw [map_fixed_eq_ok_iff.2 hn]
            exact .declared hbody' hchunked' hcarries hn
          · have hmalformed : ∀ n, ¬ Declares value n := not_exists.1 hdeclares
            rw [map_fixed_of_malformed hmalformed]
            exact .malformed hbody' hchunked' hcarries hmalformed

/-- With one declared length at most, what the rules decide is selected. -/
theorem select_of_decided (hone : (head.fields.getAll "content-length").length ≤ 1)
    {outcome : Except Fault BodyLength} (h : Decided direction head outcome) :
    select direction head = outcome := by
  have hfirst : ∀ {value}, head.Carries "content-length" value →
      head.fields.get? "content-length" = some value := by
    intro value hcarries
    have hmem := Head.carries_iff_mem.1 hcarries
    rw [Fields.get?]
    cases hall : head.fields.getAll "content-length" with
    | nil =>
        rw [hall] at hmem
        cases hmem
    | cons first more =>
        rw [hall, List.length_cons] at hone
        have hnone : more = [] := List.length_eq_zero_iff.1 (by omega)
        rw [hall, hnone] at hmem
        rw [List.mem_singleton.1 hmem]
        rfl
  cases h with
  | bodiless hbody => exact if_pos ⟨hbody.1, Head.isBodiless_iff.2 hbody.2⟩
  | chunked hbody hchunked =>
      rw [← Head.isBodiless_iff] at hbody
      exact select_of_chunked hbody (Head.isChunked_iff.2 hchunked)
  | declared hbody hchunked hcarries hdeclares =>
      rw [← Head.isBodiless_iff] at hbody
      rw [← Head.isChunked_iff, Bool.not_eq_true] at hchunked
      rw [select_of_get? hbody hchunked (hfirst hcarries)]
      exact map_fixed_eq_ok_iff.2 hdeclares
  | malformed hbody hchunked hcarries hdeclares =>
      rw [← Head.isBodiless_iff] at hbody
      rw [← Head.isChunked_iff, Bool.not_eq_true] at hchunked
      rw [select_of_get? hbody hchunked (hfirst hcarries)]
      exact map_fixed_of_malformed hdeclares
  | implied hbody hchunked hcarries himplied =>
      rw [← Head.isBodiless_iff] at hbody
      rw [← Head.isChunked_iff, Bool.not_eq_true] at hchunked
      exact select_of_implied hbody hchunked (Head.get?_eq_none_iff.2 hcarries) himplied

end BodyLength

/-! ## What the rules do not look at -/

/-- Whether two start lines are of one kind: requests of one method, or responses of one status. -/
def StartLine.SameKind : StartLine → StartLine → Prop
  | request method _ _, request other _ _ => method = other
  | status _ code _, status _ other _ => code = other
  | request _ _ _, status _ _ _ => False
  | status _ _ _, request _ _ _ => False

theorem StartLine.SameKind.code?_eq {line other : StartLine} (h : line.SameKind other) :
    line.code? = other.code? := by
  cases line with
  | request method target version =>
      cases other with
      | request method' target' version' => rfl
      | status version' code reason => exact h.elim
  | status version code reason =>
      cases other with
      | request method target version' => exact h.elim
      | status version' code' reason' => exact congrArg some h

namespace Head

variable {head other : Head} {name : String}

/-- The names of the fields that the rules look at. -/
def framingNames : List String :=
  ["content-length", "transfer-encoding", "upgrade", "sec-websocket-accept", "sec-websocket-key1",
    "sec-websocket-key2"]

/-- The fields that the rules look at, in their order: each name in lower case, and the value. -/
def framingFields (head : Head) : List (List Char × String) :=
  (head.fields.toList.filter fun field => framingNames.any (sameFold field.name)).map
    fun field => (foldCase field.name, field.value)

/-- Whether two heads agree in all that the rules look at. -/
structure FramedLike (head other : Head) : Prop where
  kind : head.startLine.SameKind other.startLine
  fields : head.framingFields = other.framingFields

theorem getAll_eq_framingFields (head : Head) (hname : name ∈ framingNames) :
    head.fields.getAll name =
      (head.framingFields.filter fun entry => entry.1 == foldCase name).map Prod.snd := by
  rw [framingFields, List.filter_map, List.map_map, List.filter_filter, Fields.getAll]
  have hfilter : (fun field : Field => sameFold field.name name) = fun field : Field =>
      (foldCase field.name == foldCase name && framingNames.any (sameFold field.name)) := by
    funext field
    by_cases h : sameFold field.name name = true
    · have hany : framingNames.any (sameFold field.name) = true :=
        List.any_eq_true.2 ⟨name, hname, h⟩
      rw [hany, Bool.and_true, sameFold]
    · rw [sameFold, Bool.not_eq_true] at h
      rw [sameFold, h, Bool.false_and]
  rw [hfilter]
  rfl

namespace FramedLike

theorem getAll_eq (h : head.FramedLike other) (hname : name ∈ framingNames) :
    head.fields.getAll name = other.fields.getAll name := by
  rw [getAll_eq_framingFields head hname, getAll_eq_framingFields other hname, h.fields]

theorem get?_eq (h : head.FramedLike other) (hname : name ∈ framingNames) :
    head.fields.get? name = other.fields.get? name := by
  rw [Fields.get?, Fields.get?, h.getAll_eq hname]

theorem contains_eq (h : head.FramedLike other) (hname : name ∈ framingNames) :
    head.fields.contains name = other.fields.contains name := by
  rw [Fields.contains, Fields.contains, h.get?_eq hname]

theorem answersDraftHandshake_eq (h : head.FramedLike other) :
    head.answersDraftHandshake = other.answersDraftHandshake := by
  rw [answersDraftHandshake, answersDraftHandshake, h.kind.code?_eq, h.contains_eq (by decide),
    h.getAll_eq (by decide)]

theorem isBodiless_eq (h : head.FramedLike other) : head.isBodiless = other.isBodiless := by
  rw [isBodiless, isBodiless, h.kind.code?_eq, h.answersDraftHandshake_eq]

theorem isChunked_eq (h : head.FramedLike other) : head.isChunked = other.isChunked := by
  rw [isChunked, isChunked, Fields.lists, Fields.lists, h.getAll_eq (by decide)]

theorem handshakeKey?_eq (h : head.FramedLike other) :
    BodyLength.handshakeKey? head = BodyLength.handshakeKey? other := by
  have hanswers := h.answersDraftHandshake_eq
  have hkey1 : head.fields.contains "sec-websocket-key1" =
      other.fields.contains "sec-websocket-key1" := h.contains_eq (by decide)
  have hkey2 : head.fields.contains "sec-websocket-key2" =
      other.fields.contains "sec-websocket-key2" := h.contains_eq (by decide)
  have hkind := h.kind
  rw [BodyLength.handshakeKey?, BodyLength.handshakeKey?, hanswers, hkey1, hkey2]
  cases hline : head.startLine with
  | request method target version =>
      cases hother : other.startLine with
      | request method' target' version' =>
          rw [hline, hother] at hkind
          obtain rfl : method = method' := hkind
          rfl
      | status version' code reason =>
          rw [hline, hother] at hkind
          exact hkind.elim
  | status version code reason =>
      cases hother : other.startLine with
      | request method target version' =>
          rw [hline, hother] at hkind
          exact hkind.elim
      | status version' code' reason' => rfl

end FramedLike

end Head

namespace BodyLength

theorem select_congr {head other : Head} (direction : Direction) (h : head.FramedLike other) :
    select direction head = select direction other := by
  have hannounced : announced head = announced other := by
    rw [announced, announced, h.get?_eq (by decide), h.handshakeKey?_eq]
  simp only [select, h.isBodiless_eq, h.isChunked_eq, hannounced]

/-- How far the body of a message extends follows from its head by the rules of precedence, and from
nothing but what the rules look at.

For a head with one declared length at most, a length or a refusal is selected exactly if the rules decide
it. And the same is selected for two heads of one kind of start line, with one method or status, whose
fields of the six names that the rules look at are the same in the same order, up to the case of letters
in the names. -/
theorem select_by_precedence (direction : Direction) :
    (∀ head : Head, (head.fields.getAll "content-length").length ≤ 1 →
      ∀ outcome, select direction head = outcome ↔ Decided direction head outcome) ∧
    ∀ head other : Head, head.FramedLike other → select direction head = select direction other := by
  constructor
  · intro head hone outcome
    constructor
    · rintro rfl
      exact decided_select direction head
    · exact select_of_decided hone
  · intro head other h
    exact select_congr direction h

/-- A transfer coding hides a length that cannot be read, whatever else the head says. -/
theorem select_by_precedence_chunked :
    let head : Head :=
      { startLine := .status .http11 200 "OK"
        fields := ⟨[⟨"Content-Length", "five"⟩, ⟨"Transfer-Encoding", "gzip,\tCHUNKED "⟩]⟩ }
    let other : Head :=
      { startLine := .status .http10 200 ""
        fields := ⟨[⟨"content-length", "five"⟩, ⟨"Host", "x"⟩,
          ⟨"TRANSFER-ENCODING", "gzip,\tCHUNKED "⟩]⟩ }
    (head.fields.getAll "content-length").length ≤ 1 ∧
      Decided .response head (.ok .chunked) ∧ select .response head = .ok .chunked ∧
      head.FramedLike other ∧ select .response head = select .response other := by
  intro head other
  have hone : (head.fields.getAll "content-length").length ≤ 1 := by decide +kernel
  have hdecided : Decided .response head (.ok .chunked) := by
    apply Decided.chunked
    · rintro ⟨-, code, hcode, h⟩
      cases hcode
      rcases h with h | h | ⟨-, h, -⟩
      · exact absurd h (by decide)
      · exact absurd h (by decide)
      · exact absurd h (by decide)
    · have hlast : "gzip,".toList.getLast? = some ',' := by decide +kernel
      refine ⟨"gzip,\tCHUNKED ", ⟨_, List.mem_cons_of_mem _ List.mem_cons_self, by decide, rfl⟩, ?_⟩
      refine ⟨"gzip,".toList, ['\t'], "CHUNKED".toList, [' '], [], by decide +kernel, ?_, nofun,
        by decide +kernel, by decide +kernel, by decide +kernel, by decide +kernel⟩
      intro c hc
      rw [hlast] at hc
      cases hc
      rfl
  have hlike : head.FramedLike other := ⟨rfl, by decide +kernel⟩
  refine ⟨hone, hdecided, ?_, hlike, ?_⟩
  · exact ((select_by_precedence .response).1 head hone _).2 hdecided
  · exact (select_by_precedence .response).2 head other hlike

end BodyLength

end HttpWire
