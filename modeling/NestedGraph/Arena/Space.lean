import NestedGraph.Arena.Relocation
import NestedGraph.Arena.Replica
import NestedGraph.Workspace

/-! # Spaces — several arenas side by side

    What a workspace does with trees, a space does with arenas.  Its
    operations are the same ones. -/

namespace NestedGraph

/-- Carries out a command. -/
def Job.carryOut : Command → Job Reply
  | .drawId => .id <$> mint
  | .raiseIds count => (fun _ => .done) <$> raiseIds count
  | .setChanged c => (fun _ => .done) <$> setChanged c
  | .clearChanged c => (fun _ => .done) <$> setClusterProperty changedFlag c (.flag false)
  | .setCopyMode c on => (fun _ => .done) <$> setCopyMode c on
  | .addCluster c => (fun (child, v) => .subcluster child v) <$> addCluster c
  | .removeCluster c child => telling (removeCluster c child)
  | .removeClusterOn c v => telling (removeClusterOn c v)
  | .removeClusters c => telling (removeClusters c)
  | .addVertex c => (fun (v, global) => .vertex v global) <$> addVertex c
  | .addVertexNamed c global => (fun (v, global) => .vertex v global) <$> addVertexNamed c global
  | .addEdge c v w => (fun (e, global) => .edge e global) <$> addEdge c v w
  | .connect c source target =>
      (fun (e, global, own) => .placedEdge e global own) <$> connect c source target
  | .removeVertex c v => telling (removeVertex c v)
  | .removeGlobalVertex c global => telling (removeGlobalVertex c global)
  | .removeEdge c e => telling (removeEdge c e)
  | .removeGlobalEdge c global => (fun _ => .done) <$> removeGlobalEdge c global
  | .moveIn c v child => .moved <$> moveIn c v child
  | .moveInOn c v place => .moved <$> moveInOn c v place
  | .moveOut c v => .moved <$> moveOut c v
  | .setProperty type c key value => (fun _ => .done) <$> setProperty type c key value
  | .setClusterProperty type c value => (fun _ => .done) <$> setClusterProperty type c value
  | .setSubclusterProperty type c v value =>
      (fun _ => .done) <$> setSubclusterProperty type c v value
  | .setObject c key object =>
      (fun _ => .serial object.serial) <$> writeObject object.type c key (some object)
  | .clearObject type c key => (fun _ => .done) <$> writeObject type c key none
  | .renumber c => (fun _ => .done) <$> renumber c

/-- An arena of a space, and the number of the source it draws from. -/
structure Tenant where
  arena : Arena
  source : Nat

/-- Arenas, the sources of their ids, the serial number of the newest object,
    and everything reported as removed, the oldest first. -/
structure Space where
  tenants : List Tenant
  sources : List IdSource
  serial : Nat
  reported : List Removal

namespace Space

/-- A space without arenas. -/
def empty : Space := ⟨[], [], 0, []⟩

/-- A desk with the arena under a number, and with its source. -/
def desk? (e : Space) (number : Nat) : Option Desk := do
  let tenant ← e.tenants[number]?
  let ids ← e.sources[tenant.source]?
  return ⟨tenant.arena, ids, e.serial, e.reported⟩

/-- Puts the arena on a desk back under a number, with its source, and keeps
    what was reported. -/
def put (e : Space) (number : Nat) (d : Desk) : Space :=
  let e := { e with serial := d.serial, reported := d.reported }
  match e.tenants[number]? with
  | some tenant =>
      { e with
        tenants := e.tenants.set number { tenant with arena := d.arena }
        sources := e.sources.set tenant.source d.ids }
  | none => e

/-- Adds an arena that draws from an existing source. -/
def addTenant (e : Space) (arena : Arena) (source : Nat) : Space × Reply :=
  ({ e with tenants := e.tenants ++ [⟨arena, source⟩] }, .graph e.tenants.length)

/-- Adds an arena with a source of its own. -/
def addArena (e : Space) (arena : Arena) (ids : IdSource) : Space × Reply :=
  { e with sources := e.sources ++ [ids] }.addTenant arena e.sources.length

/-- The configuration for a new arena. -/
def configFrom (e : Space) : ConfigOrigin → Except Error Config
  | .sharedWith number =>
      match e.tenants[number]? with
      | some tenant => .ok tenant.arena.config
      | none => .ok .standard
  | .declared declarations => Config.build declarations

/-- Adds an arena with an empty root. -/
def newArena (e : Space) (config : ConfigOrigin) (ids : IdOrigin) :
    Except Error (Space × Reply) := do
  let config ← e.configFrom config
  match ids with
  | .sharedWith number =>
      match e.tenants[number]? with
      | some tenant => return e.addTenant (.new config) tenant.source
      | none => return e.addArena (.new config) .fresh
  | .startingAt count => return e.addArena (.new config) (.startingAt count)
  | .fresh => return e.addArena (.new config) .fresh

/-- Runs steps on the arena under a number, and keeps what they come to, even if
    they fail; without such an arena nothing happens. -/
def within (e : Space) (number : Nat) (job : Job Reply) :
    Except Halt (Space × Except Error Reply) :=
  match e.desk? number with
  | none => .ok (e, .ok .done)
  | some d => do
      let (result, d) ← job d
      return (e.put number d, result)

/-- Runs steps on a new arena, which is added if they all succeed and lost
    otherwise. -/
def grow (e : Space) (arena : Arena) (ids : IdSource) (job : Job Unit) :
    Except Halt (Space × Except Error Reply) := do
  let (result, d) ← job ⟨arena, ids, e.serial, e.reported⟩
  let e := { e with serial := d.serial, reported := d.reported }
  match result with
  | .ok () =>
      let (e, reply) := e.addArena d.arena d.ids
      return (e, .ok reply)
  | .error error => return (e, .error error)

/-- Carries out an operation. -/
def step (e : Space) : Operation → Except Halt (Space × Except Error Reply)
  | .newGraph config ids =>
      match e.newArena config ids with
      | .ok (e, reply) => .ok (e, .ok reply)
      | .error error => .ok (e, .error error)
  | .duplicate number cloner =>
      match e.desk? number with
      | none => .ok (e, .ok .done)
      | some d =>
          e.grow (.new d.arena.config) (.startingAt d.ids.count)
            (Job.copyInto cloner d.arena d.ids.count d.arena.root Tree.rootId)
  | .copyInto number c target into cloner =>
      match e.desk? number with
      | none => .ok (e, .ok .done)
      | some d =>
          e.within target ((fun _ => .done) <$> Job.copyInto cloner d.arena d.ids.count c into)
  | .placeObject number c key type content =>
      let serial := e.serial + 1
      { e with serial := serial }.within number
        (Job.carryOut (.setObject c key ⟨type, serial, content⟩))
  | .change number command => e.within number (Job.carryOut command)

/-- Carries out operations in order. -/
def run (e : Space) : List Operation → Except Halt Space
  | [] => .ok e
  | operation :: rest => do
      let (e, _) ← e.step operation
      e.run rest

end Space

end NestedGraph
