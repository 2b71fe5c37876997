import HttpWire.Text.Token

/-!
# Field collections

The fields of a header or trailer block stand in the order in which they were read, duplicates
included. Names are compared up to ASCII case; the spelling that was read is kept.

`Fields.toList` is the view of a collection: every operation is stated through it.
-/

set_option autoImplicit false

namespace HttpWire

/-- One field of a header or trailer block. -/
structure Field where
  /-- The name, as it was spelled. -/
  name : String
  /-- The value, unfolded and without the blanks around it. -/
  value : String
  deriving Repr, DecidableEq

/-- Fields in the order in which they were added. -/
structure Fields where
  /-- The fields, the oldest first. -/
  toList : List Field := []
  deriving Repr, DecidableEq

namespace Fields

/-- The collection without fields. -/
def empty : Fields := {}

/-- Adds a field at the end. -/
def push (fields : Fields) (field : Field) : Fields :=
  ⟨fields.toList ++ [field]⟩

/-- Adds several fields at the end. -/
def append (fields : Fields) (more : List Field) : Fields :=
  ⟨fields.toList ++ more⟩

/-- The number of fields, duplicates counted. -/
def size (fields : Fields) : Nat :=
  fields.toList.length

/-- Whether there is no field. -/
def isEmpty (fields : Fields) : Bool :=
  fields.toList.isEmpty

/-- The values of all fields of a name, in order. -/
def getAll (fields : Fields) (name : String) : List String :=
  (fields.toList.filter fun field => Text.sameFold field.name name).map Field.value

/-- The value of the first field of a name. -/
def get? (fields : Fields) (name : String) : Option String :=
  (fields.getAll name).head?

/-- Whether there is a field of a name. -/
def contains (fields : Fields) (name : String) : Bool :=
  (fields.get? name).isSome

/-- Whether some field of a name lists a token, up to ASCII case. -/
def lists (fields : Fields) (name token : String) : Bool :=
  (fields.getAll name).any fun value =>
    (Text.listItems value).any fun item => Text.sameFold item token

/-! ## The view after each operation -/

@[simp] theorem toList_empty : empty.toList = [] := rfl

@[simp] theorem toList_push (fields : Fields) (field : Field) :
    (fields.push field).toList = fields.toList ++ [field] := rfl

@[simp] theorem toList_append (fields : Fields) (more : List Field) :
    (fields.append more).toList = fields.toList ++ more := rfl

@[simp] theorem append_nil (fields : Fields) : fields.append [] = fields := by
  cases fields
  simp [append]

theorem append_append (fields : Fields) (xs ys : List Field) :
    (fields.append xs).append ys = fields.append (xs ++ ys) := by
  simp [append]

/-- Adding a field adds its value to those of its name and changes no other name. -/
theorem getAll_push (fields : Fields) (field : Field) (name : String) :
    (fields.push field).getAll name =
      fields.getAll name ++ (if Text.sameFold field.name name then [field.value] else []) := by
  by_cases h : Text.sameFold field.name name = true <;> simp [getAll, h]

end Fields

end HttpWire
