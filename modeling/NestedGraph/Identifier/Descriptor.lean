import NestedGraph.Identifier

/-! # Descriptors — equality, order and written form of identifiers

    Every kind of identifier has an equality and an order that agree with
    each other, a text, and a record form: a bare number for names that
    hold one number, a record of named fields for the others.  A record
    is also read from the list of its fields in order, and fields that
    are not known are skipped. -/

namespace NestedGraph

/-! ## Structured data -/

/-- Data from outside, before it is read as an identifier. -/
inductive Datum where
  | null
  | flag (value : Bool)
  | integer (value : Int)
  | decimal
  | text (value : String)
  | list (items : List Datum)
  | fields (entries : List (String × Datum))
deriving Inhabited

namespace Datum

/-- The number, if it is not negative and below the limit. -/
def natural? (limit : Nat) : Datum → Option Nat
  | .integer n => if 0 ≤ n ∧ n.toNat < limit then some n.toNat else none
  | _ => none

/-- The only entry of that name; a missing or repeated one fails. -/
def field? (name : String) (entries : List (String × Datum)) : Option Datum :=
  match entries.filter (fun entry => entry.1 == name) with
  | [entry] => some entry.2
  | _ => none

/-- The values of the named fields: from a record by name, from a list of
    exactly as many items by position. -/
def items? (names : List String) : Datum → Option (List Datum)
  | .fields entries => names.mapM (fun name => field? name entries)
  | .list items => if items.length = names.length then some items else none
  | _ => none

end Datum

/-! ## The class of identifiers -/

/-- What every kind of identifier offers. -/
class Descriptor (α : Type) where
  /-- Both name the same thing. -/
  same : α → α → Bool
  /-- The position of one relative to the other. -/
  order : α → α → Ordering
  /-- The printed form. -/
  text : α → String
  /-- The record form. -/
  encode : α → Datum
  /-- Reads a record form. -/
  decode? : Datum → Option α

instance : Descriptor GlobalVertex where
  same a b := a == b
  order a b := compare a.id b.id
  text := GlobalVertex.text
  encode v := .integer v.id.toNat
  decode? d := (d.natural? UInt64.size).map (fun n => ⟨n.toUInt64⟩)

instance : Descriptor ClusterId where
  same a b := a == b
  order a b := compare a.id b.id
  text := ClusterId.text
  encode c := .integer c.id
  decode? d := (d.natural? UInt64.size).map (fun n => ⟨n⟩)

instance : Descriptor GlobalEdge where
  same := GlobalEdge.same
  order a b := compare a.id b.id
  text := GlobalEdge.text
  encode e := .fields
    [("source", Descriptor.encode e.source), ("target", Descriptor.encode e.target),
     ("id", .integer e.id.toNat)]
  decode? d :=
    match d.items? ["source", "target", "id"] with
    | some [source, target, id] => do
        let source ← Descriptor.decode? source
        let target ← Descriptor.decode? target
        let id ← id.natural? UInt64.size
        return ⟨source, target, id.toUInt64⟩
    | _ => none

instance {entity : Entity} : Descriptor (Handle entity) where
  same a b := a == b
  order := Handle.order
  text := Handle.text
  encode h := .fields
    [("index", .integer h.index), ("generation", .integer h.generation.toNat)]
  decode? d :=
    match d.items? ["index", "generation"] with
    | some [index, generation] => do
        let index ← index.natural? UInt32.size
        let generation ← generation.natural? UInt32.size
        return ⟨index, generation.toUInt32⟩
    | _ => none

/-! ## Lists of identifiers -/

/-- The items in ascending order; items that compare equal keep their
    order. -/
def sorted {α : Type} [Descriptor α] (items : List α) : List α :=
  items.mergeSort (fun a b => (Descriptor.order a b).isLE)

/-- The items that follow `last`, without those that repeat the item kept
    before them. -/
def withoutRepeatsAfter {α : Type} [Descriptor α] (last : α) : List α → List α
  | [] => []
  | a :: rest =>
      if Descriptor.same last a then withoutRepeatsAfter last rest
      else a :: withoutRepeatsAfter a rest

/-- The items with each run of equal neighbours cut down to its first. -/
def withoutRepeats {α : Type} [Descriptor α] : List α → List α
  | [] => []
  | a :: rest => a :: withoutRepeatsAfter a rest

/-- How many different things two identifiers name. -/
def distinctCount {α : Type} [Descriptor α] (a b : α) : Nat :=
  if Descriptor.same a b then 1 else 2

end NestedGraph
