import NestedGraph.Attribute.Value
import NestedGraph.Tree.Replica

/-! # Catalog — a ready set of attribute types and cloners

    Nine property types, the built-in ones last, and three object types,
    in the order in which they are listed in reports.  The cloners count
    the serial numbers of the objects that they make. -/

namespace NestedGraph.Catalog

/-! ## Property types -/

def label : AttributeType := ⟨"driver::tags::Label", .text "", 0⟩
def nickname : AttributeType := ⟨"driver::tags::Alias", .text "", 0⟩
def weight : AttributeType := ⟨"driver::tags::Weight", .integer 0, 0⟩
def flag : AttributeType := ⟨"driver::tags::Flag", .flag false, 0⟩
def level : AttributeType := ⟨"driver::tags::Level", .integer 7, 0⟩
def items : AttributeType := ⟨"driver::tags::Items", .integers [], 0⟩

/-- The property types with the names they are called by. -/
def properties : List (String × AttributeType) :=
  [("Label", label), ("Alias", nickname), ("Weight", weight), ("Flag", flag), ("Level", level),
   ("Items", items), ("VertexIndex", vertexIndex), ("EdgeIndex", edgeIndex),
   ("Changed", changedFlag)]

/-! ## Object types -/

def shape : AttributeType := ⟨"driver::tags::Shape", .unit, 0⟩
def note : AttributeType := ⟨"driver::tags::Note", .unit, 0⟩
def marker : AttributeType := ⟨"driver::tags::Marker", .unit, 0⟩

/-- The object types with the names they are called by. -/
def objects : List (String × AttributeType) :=
  [("Shape", shape), ("Note", note), ("Marker", marker)]

/-- The kind of value that an object of a type holds. -/
def contentKind (type : AttributeType) : ValueKind :=
  if type = shape then .integer else if type = note then .text else .unit

/-- A type by its name. -/
def named? (types : List (String × AttributeType)) (name : String) : Option AttributeType :=
  (types.find? (fun entry => entry.1 == name)).map Prod.snd

/-- The name of a type; empty for a type that is not in the catalog. -/
def nameOf (types : List (String × AttributeType)) (type : AttributeType) : String :=
  ((types.find? (fun entry => decide (entry.2 = type))).map Prod.fst).getD ""

/-! ## Cloners -/

/-- Makes an object with the next serial number. -/
def make (type : AttributeType) (content : Value) : StateM Nat TypedObject :=
  fun serial => (⟨type, serial + 1, content⟩, serial + 1)

/-- The copy holds the very same object. -/
def share : Cloner Nat := fun object => pure object

/-- The copy holds a new object of the type: a shape ten larger, a note with
    an apostrophe at its end, a marker. -/
def renew : Cloner Nat := fun object =>
  match object.content with
  | .integer n => make object.type (.integer (n + 10))
  | .text s => make object.type (.text (s ++ "'"))
  | content => make object.type content

/-- The copy holds an object of another type: for a shape a note that spells
    its number, for a note a marker.  A marker is kept. -/
def swap : Cloner Nat := fun object =>
  match object.content with
  | .integer n => make note (.text (toString n.toInt))
  | .text _ => make marker .unit
  | _ => pure object

end NestedGraph.Catalog
