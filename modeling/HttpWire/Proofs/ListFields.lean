import Mathlib.Logic.Relation
import HttpWire.Proofs.DeclaredLengths

/-!
# Fields that hold lists

A list of tokens may be spread over several fields of one name, its items may stand in any order, and
letters may be written in either case. What a head says through its lists depends on which tokens are
listed and on nothing else, so a peer that joins, splits, reorders or respells fields changes nothing of
it.

- `Text.mem_splitOn_iff`: the pieces of a list between its separators; `Text.Lists`: the tokens that a
  value lists.
- `Fields.lists_iff_exists`: a collection lists a token if one of its fields does.
- `Fields.Respelled`: one way to write the same lists differently; `Fields.Respelled.lists_eq`: it
  changes no token of the lists.
- `Head.alike_of_sameLists`: what a head says about its body and its connection, however its lists are
  written.
-/

set_option autoImplicit false

namespace HttpWire

open Text

/-! ## Letters in lower case -/

namespace Text

theorem toLower_eq_self {c : Char} (h : ¬(65 ≤ c.toNat ∧ c.toNat ≤ 90)) : c.toLower = c := by
  unfold Char.toLower
  rw [dif_neg]
  rw [ge_iff_le, UInt32.le_iff_toNat_le, UInt32.le_iff_toNat_le]
  exact h

theorem toNat_toLower {c : Char} (h : 65 ≤ c.toNat ∧ c.toNat ≤ 90) :
    c.toLower.toNat = c.toNat + 32 := by
  have hupper : c.val ≥ 'A'.val ∧ c.val ≤ 'Z'.val := by
    rw [ge_iff_le, UInt32.le_iff_toNat_le, UInt32.le_iff_toNat_le]
    exact h
  have hc : 65 ≤ c.val.toNat ∧ c.val.toNat ≤ 90 := h
  unfold Char.toLower
  rw [dif_pos hupper]
  change (c.val + ('a'.val - 'A'.val)).toNat = c.val.toNat + 32
  have hshift : ('a'.val - 'A'.val).toNat = 32 := rfl
  rw [UInt32.toNat_add, hshift]
  omega

theorem isSpace_toLower (c : Char) : isSpace c.toLower = isSpace c := by
  by_cases h : 65 ≤ c.toNat ∧ c.toNat ≤ 90
  · have hlower := toNat_toLower h
    rw [isSpace_of_ascii (by omega) (by omega), isSpace_of_ascii (by omega) (by omega)]
  · rw [toLower_eq_self h]

theorem toLower_eq_comma_iff {c : Char} : c.toLower = ',' ↔ c = ',' := by
  constructor
  · intro h
    by_cases hupper : 65 ≤ c.toNat ∧ c.toNat ≤ 90
    · -- a letter stays a letter
      have hlower := toNat_toLower hupper
      rw [h] at hlower
      have hcomma : (',' : Char).toNat = 44 := rfl
      omega
    · rw [toLower_eq_self hupper] at h
      exact h
  · rintro rfl
    rfl

/-! ## Pieces between separators -/

variable {α : Type} [BEq α] [LawfulBEq α]

/-- Mapping the elements of a list maps its pieces, if the separator is mapped to itself and nothing else
is. -/
theorem splitOn_map {a : α} {f : α → α} (hf : ∀ x, f x = a ↔ x = a) (xs : List α) :
    (xs.map f).splitOn a = (xs.splitOn a).map (List.map f) := by
  induction xs with
  | nil => rfl
  | cons x xs ih =>
      rw [List.map_cons, List.splitOn_cons_eq_if_modifyHead, List.splitOn_cons_eq_if_modifyHead, ih]
      by_cases hx : x = a
      · have hfx : f x = a := (hf x).2 hx
        rw [if_pos (beq_iff_eq.2 hfx), if_pos (beq_iff_eq.2 hx)]
        rfl
      · have hfx : f x ≠ a := fun h => hx ((hf x).1 h)
        rw [if_neg (mt beq_iff_eq.1 hfx), if_neg (mt beq_iff_eq.1 hx)]
        cases xs.splitOn a with
        | nil => rfl
        | cons piece pieces => rfl

/-- The pieces of a list are its parts without a separator that begin at an end of the list or behind a
separator, and end at an end of the list or before a separator. -/
theorem mem_splitOn_iff {a : α} {xs piece : List α} : piece ∈ xs.splitOn a ↔
    a ∉ piece ∧ ∃ before after, xs = before ++ (piece ++ after) ∧
      (∀ x ∈ before.getLast?, x = a) ∧ ∀ x ∈ after.head?, x = a := by
  constructor
  · intro h
    -- by induction on the number of elements, the first piece taken off
    induction hn : xs.length using Nat.strongRecOn generalizing xs with
    | ind n ih =>
        by_cases hmem : a ∈ xs
        · obtain ⟨first, rest, rfl, hfirst⟩ := List.eq_append_cons_of_mem hmem
          rw [List.splitOn_append_cons_self_of_not_mem hfirst, List.mem_cons] at h
          rcases h with rfl | h
          · exact ⟨hfirst, [], a :: rest, rfl, by simp, by simp⟩
          · have hlt : rest.length < n := by
              rw [← hn, List.length_append, List.length_cons]
              omega
            obtain ⟨hpiece, before, after, rfl, hbefore, hafter⟩ := ih rest.length hlt h rfl
            refine ⟨hpiece, first ++ a :: before, after, by simp, ?_, hafter⟩
            intro x hx
            rw [List.getLast?_append, List.getLast?_cons, Option.some_or, Option.mem_def,
              Option.some.injEq] at hx
            cases hlast : before.getLast? with
            | none =>
                rw [hlast] at hx
                exact hx.symm
            | some y =>
                rw [hlast] at hx
                exact hx ▸ hbefore y hlast
        · rw [List.splitOn_eq_singleton hmem, List.mem_singleton] at h
          rw [h]
          exact ⟨hmem, [], [], by simp, by simp, by simp⟩
  · rintro ⟨hpiece, before, after, rfl, hbefore, hafter⟩
    have hrest : piece ∈ (piece ++ after).splitOn a := by
      cases after with
      | nil =>
          rw [List.append_nil, List.splitOn_eq_singleton hpiece]
          exact List.mem_singleton_self piece
      | cons x after =>
          obtain rfl : x = a := hafter x rfl
          rw [List.splitOn_append_cons_self_of_not_mem hpiece]
          exact List.mem_cons_self
    rcases List.eq_nil_or_concat before with rfl | ⟨front, x, rfl⟩
    · exact hrest
    · obtain rfl : x = a := hbefore x (by simp)
      rw [List.concat_eq_append, List.append_assoc, List.singleton_append,
        List.splitOn_append_cons_self]
      exact List.mem_append_right _ hrest

end Text

/-! ## Items of a value -/

namespace Text

/-- The pieces between commas, without the white space around them. -/
def items (cs : List Char) : List (List Char) :=
  (cs.splitOn ',').map (trim isSpace)

/-- The class of an element decides whether it is trimmed away. -/
theorem trim_map {α β : Type} {p : α → Bool} {q : β → Bool} {f : α → β} (h : ∀ x, q (f x) = p x)
    (xs : List α) : trim q (xs.map f) = (trim p xs).map f := by
  have hclass : q ∘ f = p := funext h
  rw [trim, trim, dropTrailing, dropTrailing, List.dropWhile_map, hclass, ← List.map_reverse,
    List.dropWhile_map, hclass, ← List.map_reverse]

theorem items_append (cs ds : List Char) : items (cs ++ ',' :: ds) = items cs ++ items ds := by
  rw [items, List.splitOn_append_cons_self, List.map_append, items, items]

theorem items_toLower (cs : List Char) :
    items (cs.map Char.toLower) = (items cs).map (List.map Char.toLower) := by
  rw [items, splitOn_map (fun c => toLower_eq_comma_iff), items, List.map_map, List.map_map]
  apply List.map_congr_left
  intro piece _
  exact trim_map isSpace_toLower piece

/-- Whether a value, read as a comma-separated list, lists a token: one of the pieces between commas is
the token in letters of either case, with white space around it. -/
def Lists (value token : String) : Prop :=
  ∃ before lead word trail after,
    value.toList = before ++ ((lead ++ (word ++ trail)) ++ after) ∧
    (∀ c ∈ before.getLast?, c = ',') ∧ (∀ c ∈ after.head?, c = ',') ∧
    ',' ∉ lead ++ (word ++ trail) ∧ (∀ c ∈ lead, isSpace c = true) ∧
    (∀ c ∈ trail, isSpace c = true) ∧ word.map Char.toLower = foldCase token

/-- A value lists a token without white space at its ends exactly if, in lower case, one of its items is
that token. -/
theorem lists_iff_mem_items {value token : String}
    (htoken : trim isSpace token.toList = token.toList) :
    Lists value token ↔ foldCase token ∈ items (foldCase value) := by
  have hfold : trim isSpace (foldCase token) = foldCase token := by
    rw [foldCase, trim_map isSpace_toLower, htoken]
  rw [show foldCase value = value.toList.map Char.toLower from rfl, items_toLower, items,
    List.map_map, List.mem_map]
  constructor
  · rintro ⟨before, lead, word, trail, after, hvalue, hbefore, hafter, hcomma, hlead, htrail, hword⟩
    have hspaces : ∀ {cs : List Char}, (∀ c ∈ cs, isSpace c = true) →
        ∀ c ∈ cs.map Char.toLower, isSpace c = true := by
      intro cs hcs c hc
      obtain ⟨d, hd, rfl⟩ := List.mem_map.1 hc
      rw [isSpace_toLower]
      exact hcs d hd
    refine ⟨lead ++ (word ++ trail), ?_, ?_⟩
    · exact mem_splitOn_iff.2 ⟨hcomma, before, after, hvalue, hbefore, hafter⟩
    · -- in lower case the word is the token, which neither begins nor ends with white space
      rw [Function.comp_apply, ← trim_map isSpace_toLower, List.map_append, List.map_append, hword]
      exact trim_between (hspaces hlead) (hspaces htrail) hfold
  · rintro ⟨piece, hpiece, hword⟩
    obtain ⟨hcomma, before, after, hvalue, hbefore, hafter⟩ := mem_splitOn_iff.1 hpiece
    obtain ⟨-, lead, trail, hsplit, hlead, htrail⟩ := trim_eq_iff.1 (Eq.refl (trim isSpace piece))
    rw [hsplit] at hvalue hcomma
    exact ⟨before, lead, _, trail, after, hvalue, hbefore, hafter, hcomma, hlead, htrail, hword⟩

end Text

/-! ## Fields -/

/-- Whether a field of a name lists a token, both in letters of either case. -/
def Field.lists (field : Field) (name token : String) : Bool :=
  decide (foldCase field.name = foldCase name ∧ foldCase token ∈ items (foldCase field.value))

namespace Fields

variable {name token : String} {xs ys : List Field}

/-- A collection lists a token if one of its fields does. -/
theorem lists_eq_any (fields : Fields) (name token : String) :
    fields.lists name token = fields.toList.any fun field => field.lists name token := by
  have hitems : ∀ value : String,
      ((listItems value).any fun item => sameFold item token) =
        decide (foldCase token ∈ items (foldCase value)) := by
    intro value
    rw [Bool.eq_iff_iff, List.any_eq_true, decide_eq_true_eq, listItems,
      show foldCase value = value.toList.map Char.toLower from rfl, items_toLower, items]
    constructor
    · rintro ⟨item, hitem, hsame⟩
      obtain ⟨piece, hpiece, rfl⟩ := List.mem_map.1 hitem
      rw [sameFold_iff, foldCase, String.toList_ofList] at hsame
      exact List.mem_map.2 ⟨_, List.mem_map_of_mem hpiece, hsame⟩
    · intro hmem
      obtain ⟨item, hitem, hsame⟩ := List.mem_map.1 hmem
      obtain ⟨piece, hpiece, rfl⟩ := List.mem_map.1 hitem
      refine ⟨_, List.mem_map_of_mem hpiece, ?_⟩
      rw [sameFold_iff, foldCase, String.toList_ofList]
      exact hsame
  rw [lists, getAll, List.any_map, List.any_filter]
  congr 1
  funext field
  rw [Function.comp_apply, hitems, Field.lists, Bool.decide_and, sameFold, beq_eq_decide]

theorem lists_iff_exists {fields : Fields} (htoken : trim isSpace token.toList = token.toList) :
    fields.lists name token = true ↔
      ∃ field ∈ fields.toList, sameFold field.name name = true ∧ Lists field.value token := by
  rw [lists_eq_any, List.any_eq_true]
  constructor
  · rintro ⟨field, hfield, hlists⟩
    obtain ⟨hname, hitem⟩ := of_decide_eq_true hlists
    exact ⟨field, hfield, sameFold_iff.2 hname, (lists_iff_mem_items htoken).2 hitem⟩
  · rintro ⟨field, hfield, hname, hlists⟩
    refine ⟨field, hfield, decide_eq_true ⟨sameFold_iff.1 hname, ?_⟩⟩
    exact (lists_iff_mem_items htoken).1 hlists

/-! ## Other ways to write the same lists -/

/-- The names of the fields that say something about the body and the connection by what they list. -/
def listNames : List String :=
  ["transfer-encoding", "connection", "expect"]

/-- One way to write the lists of some fields differently. -/
inductive Respelled : List Field → List Field → Prop
  /-- The fields stand in another order. -/
  | permuted {xs ys : List Field} (h : xs.Perm ys) : Respelled xs ys
  /-- A name and a value have letters of another case. -/
  | recased {front back : List Field} {field other : Field}
      (hname : sameFold field.name other.name = true)
      (hvalue : sameFold field.value other.value = true) :
      Respelled (front ++ field :: back) (front ++ other :: back)
  /-- A field of another name is inserted. -/
  | inserted {front back : List Field} {field : Field}
      (hname : ∀ name ∈ listNames, sameFold field.name name = false) :
      Respelled (front ++ back) (front ++ field :: back)
  /-- Two fields of one name become one, with a comma between their values. -/
  | joined {front between back : List Field} {first second : Field}
      (hname : sameFold second.name first.name = true) :
      Respelled (front ++ first :: (between ++ second :: back))
        (front ++ ⟨first.name, first.value ++ "," ++ second.value⟩ :: (between ++ back))

/-- The same lists in other spellings: any number of ways to write them differently, each taken forwards
or backwards. -/
def SameLists : List Field → List Field → Prop :=
  Relation.EqvGen Respelled

/-- A field with two values of one name, joined by a comma, lists what the two fields list. -/
theorem lists_joined {first second : Field} (h : sameFold second.name first.name = true) :
    Field.lists ⟨first.name, first.value ++ "," ++ second.value⟩ name token =
      (first.lists name token || second.lists name token) := by
  have hvalue : foldCase (first.value ++ "," ++ second.value) =
      foldCase first.value ++ ',' :: foldCase second.value := by
    simp [foldCase]
  simp only [Field.lists, sameFold_iff.1 h, hvalue, items_append, List.mem_append, and_or_left,
    Bool.decide_or]

theorem Respelled.lists_eq (h : Respelled xs ys) (hname : name ∈ listNames) :
    lists ⟨xs⟩ name token = lists ⟨ys⟩ name token := by
  rw [lists_eq_any, lists_eq_any]
  cases h with
  | permuted h => exact h.any_eq
  | recased hname' hvalue =>
      rw [List.any_append, List.any_append, List.any_cons, List.any_cons, Field.lists, Field.lists,
        sameFold_iff.1 hname', sameFold_iff.1 hvalue]
  | @inserted front back field hother =>
      have hfield : field.lists name token = false := by
        apply decide_eq_false
        rintro ⟨hsame, -⟩
        have hdiffers := hother name hname
        rw [sameFold_iff.2 hsame] at hdiffers
        cases hdiffers
      rw [List.any_append, List.any_append, List.any_cons, hfield, Bool.false_or]
  | @joined front between back first second hsame =>
      rw [List.any_append, List.any_append, List.any_cons, List.any_cons, List.any_append,
        List.any_append, List.any_cons, lists_joined hsame, Bool.or_assoc,
        Bool.or_left_comm (between.any _)]

theorem SameLists.lists_eq (h : SameLists xs ys) (hname : name ∈ listNames) :
    lists ⟨xs⟩ name token = lists ⟨ys⟩ name token := by
  induction h with
  | rel xs ys hstep => exact hstep.lists_eq hname
  | refl xs => rfl
  | symm xs ys _ ih => exact ih.symm
  | trans xs ys zs _ _ ih ih' => exact ih.trans ih'

end Fields

/-! ## What a head says by its lists -/

namespace Head

/-- What a head says about its body and its connection by what its fields list.

Whether its body is chunked, whether the connection stays open and whether its sender waits for leave are
the same for any two heads of one start line whose fields differ in their order, in the case of letters,
in fields of other names, and in how lists are cut into fields. And a connection does not stay open if a
`Connection` field lists `close`, whatever else the head says. -/
theorem alike_of_sameLists :
    (∀ head other : Head, other.startLine = head.startLine →
      Fields.SameLists head.fields.toList other.fields.toList →
      other.isChunked = head.isChunked ∧ other.keepsAlive = head.keepsAlive ∧
        other.expectsContinue = head.expectsContinue) ∧
    ∀ (head : Head) (field : Field), field ∈ head.fields.toList →
      sameFold field.name "connection" = true → Lists field.value "close" →
      head.keepsAlive = false := by
  constructor
  · intro head other hline hsame
    have hlists : ∀ {name token : String}, name ∈ Fields.listNames →
        other.fields.lists name token = head.fields.lists name token := by
      intro name token hname
      exact (hsame.lists_eq hname).symm
    refine ⟨?_, ?_, ?_⟩
    · exact hlists (by decide)
    · rw [keepsAlive, keepsAlive, hlists (by decide), hlists (by decide), hline]
    · rw [expectsContinue, expectsContinue, hlists (by decide), hline]
  · intro head field hfield hname hclose
    have hlists : head.fields.lists "connection" "close" = true :=
      (Fields.lists_iff_exists (by decide)).2 ⟨field, hfield, hname, hclose⟩
    rw [keepsAlive, if_pos hlists]

/-- A list is joined from two fields, a field between them is left out, and letters change their case;
and a connection of which both things are said is closed. -/
theorem alike_of_sameLists_joined :
    let line : StartLine := .request "PUT" "/" .http11
    let head : Head :=
      { startLine := line
        fields := ⟨[⟨"Transfer-Encoding", "gzip"⟩, ⟨"Host", "x"⟩,
          ⟨"transfer-encoding", " Chunked"⟩]⟩ }
    let other : Head :=
      { startLine := line, fields := ⟨[⟨"TRANSFER-ENCODING", "GZIP, chunked"⟩]⟩ }
    let last : Head :=
      { startLine := line, fields := ⟨[⟨"Connection", "keep-alive ,Close"⟩]⟩ }
    other.startLine = head.startLine ∧
      Fields.SameLists head.fields.toList other.fields.toList ∧
      (other.isChunked = head.isChunked ∧ other.keepsAlive = head.keepsAlive ∧
        other.expectsContinue = head.expectsContinue) ∧
      Lists "keep-alive ,Close" "close" ∧ last.keepsAlive = false := by
  intro line head other last
  have hsame : Fields.SameLists head.fields.toList other.fields.toList := by
    apply Relation.EqvGen.trans _ [⟨"Transfer-Encoding", "gzip, Chunked"⟩, ⟨"Host", "x"⟩]
    · exact .rel _ _ (@Fields.Respelled.joined [] [⟨"Host", "x"⟩] []
        ⟨"Transfer-Encoding", "gzip"⟩ ⟨"transfer-encoding", " Chunked"⟩ (by decide))
    apply Relation.EqvGen.trans _ [⟨"Transfer-Encoding", "gzip, Chunked"⟩]
    · exact .symm _ _ (.rel _ _ (@Fields.Respelled.inserted
        [⟨"Transfer-Encoding", "gzip, Chunked"⟩] [] ⟨"Host", "x"⟩ (by decide)))
    · exact .rel _ _ (@Fields.Respelled.recased [] [] _ _ (by decide) (by decide))
  have hlast : "keep-alive ,".toList.getLast? = some ',' := by decide +kernel
  have hclose : Lists "keep-alive ,Close" "close" := by
    refine ⟨"keep-alive ,".toList, [], "Close".toList, [], [], by decide +kernel, ?_, nofun,
      by decide +kernel, nofun, nofun, by decide +kernel⟩
    intro c hc
    rw [hlast] at hc
    cases hc
    rfl
  refine ⟨rfl, hsame, alike_of_sameLists.1 head other rfl hsame, hclose, ?_⟩
  exact alike_of_sameLists.2 last _ List.mem_cons_self (by decide) hclose

end Head

end HttpWire
