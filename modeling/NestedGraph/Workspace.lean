import NestedGraph.Session.Command

/-! # Workspaces — several trees side by side

    Trees may draw their ids from one source, and content may be copied
    from one tree into another.  A workspace numbers its trees from zero
    in the order in which they were made, counts the objects that were
    made in it, and keeps what its operations reported as removed.  An
    operation that fails leaves whatever it did before it failed. -/

namespace NestedGraph

/-- A tree of a workspace, and the number of the source it draws from. -/
structure Member where
  tree : Tree
  source : Nat

/-- Trees, the sources of their ids, the serial number of the newest object,
    and everything reported as removed, the oldest first. -/
structure Workspace where
  members : List Member
  sources : List IdSource
  serial : Nat
  reported : List Removal

/-- Where the configuration of a new tree comes from. -/
inductive ConfigOrigin where
  | sharedWith (number : Nat)
  | declared (declarations : List Declaration)

/-- Where the ids of a new tree come from. -/
inductive IdOrigin where
  | sharedWith (number : Nat)
  | startingAt (count : UInt64)
  | fresh

/-- Something that happens in a workspace. -/
inductive Operation where
  | newGraph (config : ConfigOrigin) (ids : IdOrigin)
  | duplicate (number : Nat) (cloner : Cloner Nat)
  | copyInto (number : Nat) (c : ClusterId) (target : Nat) (into : ClusterId) (cloner : Cloner Nat)
  /-- Makes an object, and stores it in the slot of its type. -/
  | placeObject (number : Nat) (c : ClusterId) (key : AttributeKey) (type : AttributeType)
      (content : Value)
  | change (number : Nat) (command : Command)

namespace Workspace

/-- A workspace without trees. -/
def empty : Workspace := ⟨[], [], 0, []⟩

/-- A tree with its source, by number. -/
def graph? (w : Workspace) (number : Nat) : Option Graph := do
  let member ← w.members[number]?
  let ids ← w.sources[member.source]?
  return ⟨member.tree, ids⟩

/-- Puts a tree and its source back under a number. -/
def put (w : Workspace) (number : Nat) (g : Graph) : Workspace :=
  match w.members[number]? with
  | some member =>
      { w with
        members := w.members.set number { member with tree := g.tree }
        sources := w.sources.set member.source g.ids }
  | none => w

/-- Adds a tree that draws from an existing source. -/
def addMember (w : Workspace) (tree : Tree) (source : Nat) : Workspace × Reply :=
  ({ w with members := w.members ++ [⟨tree, source⟩] }, .graph w.members.length)

/-- Adds a tree with a source of its own. -/
def addGraph (w : Workspace) (g : Graph) : Workspace × Reply :=
  { w with sources := w.sources ++ [g.ids] }.addMember g.tree w.sources.length

/-- The configuration for a new tree. -/
def configFrom (w : Workspace) : ConfigOrigin → Except Error Config
  | .sharedWith number =>
      match w.members[number]? with
      | some member => .ok member.tree.config
      | none => .ok .standard
  | .declared declarations => Config.build declarations

/-- Adds an empty tree. -/
def newGraph (w : Workspace) (config : ConfigOrigin) (ids : IdOrigin) :
    Except Error (Workspace × Reply) := do
  let config ← w.configFrom config
  match ids with
  | .sharedWith number =>
      match w.members[number]? with
      | some member => return w.addMember (Tree.new config) member.source
      | none => return w.addGraph (.new config .fresh)
  | .startingAt count => return w.addGraph (.new config (.startingAt count))
  | .fresh => return w.addGraph (.new config .fresh)

/-- A session on a graph. -/
def session (w : Workspace) (g : Graph) : Session := ⟨g, w.serial, w.reported⟩

/-- Runs steps on the tree with a number, and keeps what they come to, even
    if they fail; without such a tree nothing happens. -/
def within (w : Workspace) (number : Nat) (act : Act Reply) : Workspace × Except Error Reply :=
  match w.graph? number with
  | none => (w, .ok .done)
  | some g =>
      let (result, s) := act (w.session g)
      ({ w.put number s.graph with serial := s.serial, reported := s.reported }, result)

/-- Runs steps on a new graph, which is added if they all succeed and lost
    otherwise. -/
def grow (w : Workspace) (g : Graph) (act : Act Unit) : Workspace × Except Error Reply :=
  let (result, s) := act (w.session g)
  let w := { w with serial := s.serial, reported := s.reported }
  match result with
  | .ok () =>
      let (w, reply) := w.addGraph s.graph
      (w, .ok reply)
  | .error e => (w, .error e)

/-- Carries out an operation. -/
def step (w : Workspace) : Operation → Workspace × Except Error Reply
  | .newGraph config ids =>
      match w.newGraph config ids with
      | .ok (w, reply) => (w, .ok reply)
      | .error e => (w, .error e)
  | .duplicate number cloner =>
      match w.graph? number with
      | none => (w, .ok .done)
      | some g =>
          w.grow (.new g.tree.config (.startingAt g.ids.count))
            (Act.copyInto cloner g g.tree.root Tree.rootId)
  | .copyInto number c target into cloner =>
      match w.graph? number with
      | none => (w, .ok .done)
      | some g => w.within target ((fun _ => .done) <$> Act.copyInto cloner g c into)
  | .placeObject number c key type content =>
      let serial := w.serial + 1
      { w with serial := serial }.within number (Act.carryOut (.setObject c key ⟨type, serial, content⟩))
  | .change number command => w.within number (Act.carryOut command)

/-- Carries out operations in order. -/
def run (w : Workspace) (operations : List Operation) : Workspace :=
  operations.foldl (fun w operation => (w.step operation).1) w

end Workspace

end NestedGraph
