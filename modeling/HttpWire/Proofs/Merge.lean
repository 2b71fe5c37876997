import HttpWire.Event

/-!
# Events up to the size of pieces

A body is reported in pieces, and so are the bytes of another protocol. Where one piece ends and the
next begins depends on how the bytes arrived and says nothing about the message. `Event.merge` joins
neighbouring pieces, also the last piece of a body with the end of the message.

- `Event.merge_append_congr`: merging is compatible with putting reports one after the other.
- `Event.merge_body_body`, `Event.merge_body_last`, `Event.merge_raw_raw`: what is joined.
-/

set_option autoImplicit false

namespace HttpWire.Event

/-- Puts an event in front of merged events. It is joined to the first of them if both hold bytes of
one body, or if both hold raw bytes. -/
def glue : Event → List Event → List Event
  | .body data, .body next :: later => .body (data ++ next) :: later
  | .body data, .last ending :: later => .last { ending with data := data ++ ending.data } :: later
  | .raw data, .raw next :: later => .raw (data ++ next) :: later
  | event, later => event :: later

/-- The events with neighbouring pieces joined. -/
def merge (events : List Event) : List Event :=
  events.foldr glue []

/-- The report of body bytes that have arrived: none if there are no bytes. -/
def piece (data : Bytes) : List Event :=
  if data.isEmpty then [] else [.body data]

@[simp] theorem merge_nil : merge [] = [] := rfl

theorem merge_cons (event : Event) (events : List Event) :
    merge (event :: events) = glue event (merge events) := rfl

theorem merge_append (xs ys : List Event) : merge (xs ++ ys) = xs.foldr glue (merge ys) := by
  simp only [merge, List.foldr_append]

@[simp] theorem piece_nil : piece [] = [] := rfl

theorem piece_of_ne_nil {data : Bytes} (h : data ≠ []) : piece data = [.body data] := by
  cases data with
  | nil => exact absurd rfl h
  | cons b bs => rfl

/-! ## What is joined -/

theorem glue_body_glue_body (x y : Bytes) (later : List Event) :
    glue (.body x) (glue (.body y) later) = glue (.body (x ++ y)) later := by
  cases later with
  | nil => rfl
  | cons event later =>
      cases event with
      | body z => simp only [glue, List.append_assoc]
      | last ending => simp only [glue, List.append_assoc]
      | head head => rfl
      | failure cause spoiled => rfl
      | raw z => rfl

theorem glue_raw_glue_raw (x y : Bytes) (later : List Event) :
    glue (.raw x) (glue (.raw y) later) = glue (.raw (x ++ y)) later := by
  cases later with
  | nil => rfl
  | cons event later =>
      cases event with
      | raw z => simp only [glue, List.append_assoc]
      | head head => rfl
      | body z => rfl
      | last ending => rfl
      | failure cause spoiled => rfl

/-- Two neighbouring body pieces are one. -/
theorem merge_body_body (x y : Bytes) (later : List Event) :
    merge (.body x :: .body y :: later) = merge (.body (x ++ y) :: later) :=
  glue_body_glue_body x y (merge later)

theorem merge_body_last (x : Bytes) (ending : Ending) (later : List Event) :
    merge (.body x :: .last ending :: later) =
      merge (.last { ending with data := x ++ ending.data } :: later) := rfl

theorem merge_raw_raw (x y : Bytes) (later : List Event) :
    merge (.raw x :: .raw y :: later) = merge (.raw (x ++ y) :: later) :=
  glue_raw_glue_raw x y (merge later)

theorem merge_piece_piece (x y : Bytes) (later : List Event) :
    merge (piece x ++ (piece y ++ later)) = merge (piece (x ++ y) ++ later) := by
  cases x with
  | nil => rfl
  | cons a x =>
      cases y with
      | nil => simp only [piece_nil, List.nil_append, List.append_nil]
      | cons b y => exact merge_body_body (a :: x) (b :: y) later

theorem merge_pieces (x y : Bytes) : merge (piece x ++ piece y) = merge (piece (x ++ y)) := by
  have hmerge := merge_piece_piece x y []
  rwa [List.append_nil, List.append_nil] at hmerge

theorem merge_piece_last (x : Bytes) (ending : Ending) (later : List Event) :
    merge (piece x ++ .last ending :: later) =
      merge (.last { ending with data := x ++ ending.data } :: later) := by
  cases x with
  | nil => rfl
  | cons a x => exact merge_body_last (a :: x) ending later

/-! ## Merging and concatenation -/

/-- Joining an event to a list before or after the list is continued gives the same. -/
theorem merge_glue_append (event : Event) (xs ys : List Event) :
    merge (glue event xs ++ ys) = glue event (merge (xs ++ ys)) := by
  -- only the first event of the list can be joined to the one in front of it
  cases xs with
  | nil => cases event <;> rfl
  | cons first xs =>
      cases event with
      | body x =>
          cases first with
          | body y => exact (glue_body_glue_body x y (merge (xs ++ ys))).symm
          | last ending => rfl
          | head head => rfl
          | failure cause spoiled => rfl
          | raw y => rfl
      | raw x =>
          cases first with
          | raw y => exact (glue_raw_glue_raw x y (merge (xs ++ ys))).symm
          | head head => rfl
          | body y => rfl
          | last ending => rfl
          | failure cause spoiled => rfl
      | head head => rfl
      | last ending => rfl
      | failure cause spoiled => rfl

theorem merge_merge_append (xs ys : List Event) : merge (merge xs ++ ys) = merge (xs ++ ys) := by
  induction xs with
  | nil => rfl
  | cons event xs ih =>
      rw [merge_cons, merge_glue_append, ih]
      rfl

/-- Reports that agree up to the size of pieces still do when both are continued by such reports. -/
theorem merge_append_congr {xs xs' ys ys' : List Event} (hx : merge xs = merge xs')
    (hy : merge ys = merge ys') : merge (xs ++ ys) = merge (xs' ++ ys') := by
  calc merge (xs ++ ys) = merge (merge xs ++ ys) := (merge_merge_append xs ys).symm
    _ = merge (merge xs' ++ ys) := by rw [hx]
    _ = merge (xs' ++ ys) := merge_merge_append xs' ys
    _ = merge (xs' ++ ys') := by rw [merge_append, merge_append, hy]

end HttpWire.Event
