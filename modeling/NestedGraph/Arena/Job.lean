import NestedGraph.Arena
import NestedGraph.Graph.Command

/-! # Jobs — an operation at work on an arena

    An operation reads and writes the clusters of an arena one by one.  A
    step that fails ends it, and what the steps before wrote stays written.
    A loop goes on for as many steps as the clusters there are allow; one
    that takes more never ends. -/

namespace NestedGraph

/-- Why an operation comes to no end. -/
inductive Halt where
  /-- A loop takes more steps than there are clusters. -/
  | endless
  /-- The number of the next cluster does not fit into 64 bits. -/
  | overflow
deriving DecidableEq, Repr

/-- An arena that is worked on, the source of its ids, the serial number of the
    newest object, and everything reported as removed so far, the oldest
    first. -/
structure Desk where
  arena : Arena
  ids : IdSource
  serial : Nat
  reported : List Removal

/-- Steps in a row, each of which may fail. -/
abbrev Job (α : Type) := ExceptT Error (StateT Desk (Except Halt)) α

namespace Job

variable {α σ : Type}

/-! ## Single steps -/

/-- Looks something up, or fails. -/
def look (f : Arena → Except Error α) : Job α := fun d => .ok (f d.arena, d)

/-- Reads something off. -/
def read (f : Arena → α) : Job α := fun d => .ok (.ok (f d.arena), d)

/-- Comes to what was found out elsewhere. -/
def settle (x : Except Error α) : Job α := fun d => .ok (x, d)

/-- Changes the arena. -/
def edit (f : Arena → Arena) : Job Unit := fun d => .ok (.ok (), { d with arena := f d.arena })

/-- Draws an id. -/
def mint : Job UInt64 := fun d => .ok (.ok d.ids.next, { d with ids := d.ids.advance })

/-- Moves the source of ids forward. -/
def raiseIds (count : UInt64) : Job Unit := fun d =>
  .ok (.ok (), { d with ids := d.ids.raise count })

/-- Makes objects for a copy, and counts them. -/
def clone (x : StateM Nat α) : Job α := fun d =>
  let (a, serial) := x d.serial
  .ok (.ok a, { d with serial := serial })

/-- Reports something as removed. -/
def report (gone : List Removal) : Job Unit := fun d =>
  .ok (.ok (), { d with reported := d.reported ++ gone })

/-- Runs steps whose reports nobody listens to. -/
def silently (x : Job α) : Job α := fun d =>
  match x d with
  | .ok (result, d') => .ok (result, { d' with reported := d.reported })
  | .error halt => .error halt

/-- Runs steps, and goes on with what they come to even if one fails. -/
def attempt (x : Job α) : Job (Except Error α) := fun d =>
  match x d with
  | .ok (result, d) => .ok (.ok result, d)
  | .error halt => .error halt

/-- Tells what steps report as removed. -/
def telling (x : Job Unit) : Job Reply := fun d =>
  match x d with
  | .ok (.ok (), d') => .ok (.ok (.removed (d'.reported.drop d.reported.length)), d')
  | .ok (.error e, d') => .ok (.error e, d')
  | .error halt => .error halt

/-! ## Loops -/

/-- Goes through clusters, and tells what it came to. -/
def traverse (f : Arena → Option (Trace σ)) : Job σ := fun d =>
  match f d.arena with
  | some r => .ok (.ok r.state, d)
  | none => .error .endless

/-- Goes through clusters and takes things out on the way. -/
def sweep (f : Arena → Option (Trace (Arena × List Removal))) : Job Unit := do
  let (a, gone) ← traverse f
  edit (fun _ => a)
  report gone

/-! ## Clusters -/

/-- What is kept for a cluster that has to be alive. -/
def cell (c : ClusterId) : Job Cell := look (fun a => a.require c)

/-- Changes what is kept for a cluster that has to be alive. -/
def rewrite (c : ClusterId) (f : Cell → Cell) : Job Unit := do
  let _ ← cell c
  edit (fun a => a.modify c f)

/-- Marks a cluster as changed, unless it is in copy mode. -/
def mark (c : ClusterId) : Job Unit := edit (fun a => a.mark c)

/-- Marks a cluster and those around it up to `last`. -/
def markUpTo (c last : ClusterId) : Job Unit := do
  let a ← traverse (fun a => a.markUp a.count c last)
  edit (fun _ => a)

/-- Keeps an empty cluster under the next id. -/
def alloc (parent : ClusterId) (v : LocalVertex) : Job ClusterId := fun d =>
  let a := d.arena
  if a.next + 1 = 0 then .error .overflow
  else
    let child : ClusterId := ⟨a.next.toNat⟩
    let grown := a.insert ⟨a.config.newCluster child, [], some parent, some v⟩
    .ok (.ok child, { d with arena := { grown with next := a.next + 1 } })

/-! ## Looking things up -/

/-- The cluster is among those around another, or that one. -/
def isAncestor (a c : ClusterId) : Job Bool :=
  traverse (fun arena => arena.links.seekAncestor arena.count a c)

/-- The cluster inside `c` that stores a vertex, and its handle there. -/
def vertexOwner (c : ClusterId) (global : GlobalVertex) : Job (Option (ClusterId × LocalVertex)) :=
  traverse (fun a => a.links.seekVertex (2 * a.count) global c)

/-- The cluster inside `c` that stores a global edge, and the handle of the
    edge that carries it. -/
def edgeOwner (c : ClusterId) (global : GlobalEdge) : Job (Option (ClusterId × LocalEdge)) :=
  traverse (fun a => a.links.seekEdge (2 * a.count) global c)

/-- What stands in a cluster for a vertex of one inside it. -/
def representative (scope c : ClusterId) (v : LocalVertex) : Job (Option LocalVertex) :=
  traverse (fun a => a.links.seekRepresentative a.count scope c v)

/-- The vertex of a cluster with that global name; a recursive lookup also
    finds what stands for a vertex further inside. -/
def localVertex (c : ClusterId) (global : GlobalVertex) (recursive : Bool) :
    Job (Option LocalVertex) := do
  match ← read (fun a => a.get? c) with
  | none => return none
  | some k =>
      match k.storage.vertexOf? global with
      | some v => return some v
      | none =>
          if recursive then
            match ← vertexOwner c global with
            | some (owner, v) => representative c owner v
            | none => return none
          else return none

/-- The global names of all vertices in a cluster and inside it. -/
def subtreeGlobals (c : ClusterId) : Job (List GlobalVertex) :=
  traverse (fun a => a.links.collectGlobals a.count c)

/-- The global names that go with a vertex: its own, and those of all vertices
    that it stands for. -/
def moving (c : ClusterId) (v : LocalVertex) : Job (List GlobalVertex) := do
  let inside ← match ← read (fun a => a.childAt? c v) with
    | some child => subtreeGlobals child
    | none => pure []
  return inside ++ (← read (fun a => a.global? c v)).toList

end Job

end NestedGraph
