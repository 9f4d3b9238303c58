import NestedGraph.Attribute.Value
import NestedGraph.Error

/-! # Layouts — which attributes an entity has, and in which slots

    The place of a type in a layout is the slot of its values in every
    entity of that layout.  Reading and writing go through the layout, so
    a type that is not in it has no slot. -/

namespace NestedGraph

/-- An ordered list of attribute types; `kind` is what messages call
    them. -/
structure Layout where
  kind : String
  types : List AttributeType
deriving DecidableEq

namespace Layout

/-- The slot of a type. -/
def position? (l : Layout) (type : AttributeType) : Option Nat :=
  l.types.findIdx? (fun other => decide (other = type))

/-- The type is in the layout. -/
def contains (l : Layout) (type : AttributeType) : Bool := (l.position? type).isSome

/-- The types of a layout are those that have a slot. -/
theorem contains_iff_mem (l : Layout) (type : AttributeType) :
    l.contains type = true ↔ type ∈ l.types := by
  simp [contains, position?]

/-- A slot holds the type that it was looked up for. -/
theorem getElem?_of_position? {l : Layout} {type : AttributeType} {i : Nat}
    (h : l.position? type = some i) : l.types[i]? = some type := by
  obtain ⟨hi, hp, -⟩ := List.findIdx?_eq_some_iff_getElem.mp h
  rw [List.getElem?_eq_getElem hi]
  exact congrArg some (of_decide_eq_true hp)

/-- The names in slot order. -/
def names (l : Layout) : List String := l.types.map AttributeType.name

/-- The error for a type that has no slot. -/
def unregistered (l : Layout) (type : AttributeType) : Error :=
  .unregisteredType l.kind type.name

/-- The slot of a type, or the error that it has none. -/
def require (l : Layout) (type : AttributeType) : Except Error Nat :=
  match l.position? type with
  | some i => .ok i
  | none => .error (l.unregistered type)

/-! ## Declaring types -/

/-- Adds a type at the end; a second time is refused. -/
def declare (l : Layout) (type : AttributeType) : Except Error Layout :=
  if l.contains type then .error (.duplicateType l.kind type.name)
  else .ok { l with types := l.types ++ [type] }

/-- Adds a type at the end unless it is there. -/
def declareOnce (l : Layout) (type : AttributeType) : Layout :=
  if l.contains type then l else { l with types := l.types ++ [type] }

/-! ## Property slots -/

/-- The initial values of all properties. -/
def initialValues (l : Layout) : List Value := l.types.map AttributeType.initial

/-- The value of a property. -/
def read (l : Layout) (type : AttributeType) (slots : List Value) : Except Error Value := do
  let i ← l.require type
  match slots[i]? with
  | some v => if v.kind = type.initial.kind then return v else throw (l.unregistered type)
  | none => throw (l.unregistered type)

/-- The slots with another value for a property. -/
def write (l : Layout) (type : AttributeType) (value : Value) (slots : List Value) :
    Except Error (List Value) := do
  let i ← l.require type
  match slots[i]? with
  | some v =>
      if v.kind = value.kind then return slots.set i value else throw (l.unregistered type)
  | none => throw (l.unregistered type)

/-- The slots with another value for a property; unchanged when it has no
    slot for such a value. -/
def put (l : Layout) (type : AttributeType) (value : Value) (slots : List Value) : List Value :=
  match l.write type value slots with
  | .ok slots => slots
  | .error _ => slots

/-! ## Object slots -/

/-- One empty slot for each object type. -/
def emptySlots (l : Layout) : List (Option TypedObject) := l.types.map (fun _ => none)

/-- The object of a type, if its slot holds one of that very type. -/
def readObject (l : Layout) (type : AttributeType) (slots : List (Option TypedObject)) :
    Except Error (Option TypedObject) := do
  let i ← l.require type
  return (slots[i]?.join).filter (fun object => decide (object.type = type))

/-- The slots with another object, or none, for a type. -/
def writeObject (l : Layout) (type : AttributeType) (object : Option TypedObject)
    (slots : List (Option TypedObject)) : Except Error (List (Option TypedObject)) := do
  let i ← l.require type
  if i < slots.length then return slots.set i object else throw (l.unregistered type)

end Layout

end NestedGraph
