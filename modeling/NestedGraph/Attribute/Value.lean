/-! # Values — what properties and objects hold

    A property always holds a value, of one kind for good.  An object is
    optional and shared: it remembers its type and a serial number that
    tells two equal objects apart. -/

namespace NestedGraph

/-- The kinds of values.  There is one for each type that the catalog declares
    and for those that are built in; another type is another constructor. -/
inductive ValueKind where
  | text
  | integer
  | flag
  | integers
  | index
  | unit
deriving DecidableEq, Repr

/-- A value of a property or of an object. -/
inductive Value where
  | text (value : String)
  | integer (value : Int64)
  | flag (value : Bool)
  | integers (values : List Int64)
  | index (value : Nat)
  | unit
deriving DecidableEq

/-- The kind of a value. -/
def Value.kind : Value → ValueKind
  | .text _ => .text
  | .integer _ => .integer
  | .flag _ => .flag
  | .integers _ => .integers
  | .index _ => .index
  | .unit => .unit

/-- A type of attribute.  A property of the type starts out with `initial` and
    keeps its kind; an object slot of the type starts out empty. -/
structure AttributeType where
  /-- The name in messages, which two types may share. -/
  name : String
  initial : Value
  /-- Tells types apart that have one name and start out with one value. -/
  tag : Nat
deriving DecidableEq

/-- An object in an object slot.  It may sit in a slot of another type. -/
structure TypedObject where
  type : AttributeType
  serial : Nat
  content : Value
deriving DecidableEq

/-! ## Types that every configuration has -/

/-- The dense index of a vertex in its cluster. -/
def vertexIndex : AttributeType :=
  ⟨"clustergraph_core::attribute::VertexIndex", .index 0, 0⟩

/-- The dense index of an edge in its cluster. -/
def edgeIndex : AttributeType :=
  ⟨"clustergraph_core::attribute::EdgeIndex", .index 0, 0⟩

/-- The mark of a cluster whose structure changed. -/
def changedFlag : AttributeType :=
  ⟨"clustergraph_core::attribute::Changed", .flag false, 0⟩

end NestedGraph
