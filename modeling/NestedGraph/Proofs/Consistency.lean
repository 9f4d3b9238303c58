import NestedGraph.Proofs.RoundTrip
import NestedGraph.Tree.Walk

/-! # Consistency — no tree disagrees with itself

    An operation may be refused for what the caller asked, or because the
    tree disagrees with itself.  The second never comes of well-behaved
    callers.  A caller that gives one name to two vertices can bring about
    one such error and no other: an edge finds no end when a vertex moves
    into a child. -/

namespace NestedGraph

/-- The error tells of what was asked, and not of a tree that disagrees with
    itself. -/
def Error.isPlain : Error → Bool
  | .cluster _ => false
  | _ => true

/-- Every error that the result can be satisfies `P`. -/
def FailsBy {α : Type} (P : Error → Prop) (x : Except Error α) : Prop := ∀ e, x = .error e → P e

/-- The result is no error, or a plain one. -/
abbrev Plain {α : Type} (x : Except Error α) : Prop := FailsBy (fun e => e.isPlain = true) x

section Steps

variable {α β : Type} {P Q : Error → Prop} {x : Except Error α} {f : α → Except Error β} {e : Error}

theorem failsBy_ok (a : α) : FailsBy P (.ok a) := fun _ h => nomatch h

theorem failsBy_error (h : P e) : FailsBy P (.error e : Except Error α) := by
  intro e' he
  cases he
  exact h

theorem FailsBy.mono (h : FailsBy P x) (hle : ∀ e, P e → Q e) : FailsBy Q x :=
  fun e he => hle e (h e he)

/-- Steps in a row fail by what one of them fails by. -/
theorem FailsBy.bind (hx : FailsBy P x) (hf : ∀ a, x = .ok a → FailsBy P (f a)) :
    FailsBy P (x >>= f) := by
  cases x with
  | error e => exact failsBy_error (hx e rfl)
  | ok a => exact hf a rfl

theorem FailsBy.map (hx : FailsBy P x) (f : α → β) : FailsBy P (f <$> x) := by
  cases x with
  | error e => exact failsBy_error (hx e rfl)
  | ok a => exact failsBy_ok _

theorem FailsBy.mapM {f : α → Except Error β} (hf : ∀ a, FailsBy P (f a)) (items : List α) :
    FailsBy P (items.mapM f) := by
  induction items with
  | nil => exact failsBy_ok _
  | cons a rest ih =>
    rw [List.mapM_cons]
    exact (hf a).bind (fun b _ => ih.bind (fun _ _ => failsBy_ok _))

end Steps

/-! ## Types and slots -/

namespace Layout

variable (l : Layout) (type : AttributeType)

theorem plain_require : Plain (l.require type) := by
  rw [require]
  split
  · exact failsBy_ok _
  · exact failsBy_error rfl

theorem plain_read (slots : List Value) : Plain (l.read type slots) := by
  refine (l.plain_require type).bind (fun i _ => ?_)
  split
  · split
    · exact failsBy_ok _
    · exact failsBy_error rfl
  · exact failsBy_error rfl

theorem plain_write (value : Value) (slots : List Value) : Plain (l.write type value slots) := by
  refine (l.plain_require type).bind (fun i _ => ?_)
  split
  · split
    · exact failsBy_ok _
    · exact failsBy_error rfl
  · exact failsBy_error rfl

theorem plain_readObject (slots : List (Option TypedObject)) : Plain (l.readObject type slots) :=
  (l.plain_require type).bind (fun _ _ => failsBy_ok _)

theorem plain_writeObject (object : Option TypedObject) (slots : List (Option TypedObject)) :
    Plain (l.writeObject type object slots) := by
  refine (l.plain_require type).bind (fun i _ => ?_)
  split
  · exact failsBy_ok _
  · exact failsBy_error rfl

theorem plain_declare : Plain (l.declare type) := by
  rw [declare]
  split
  · exact failsBy_error rfl
  · exact failsBy_ok _

end Layout

theorem Config.plain_build (declarations : List Declaration) : Plain (Config.build declarations) := by
  have hall : ∀ (ds : List Declaration) (c : Config), Plain (c.declareAll ds) := by
    intro ds
    induction ds with
    | nil => exact fun c => failsBy_ok _
    | cons d rest ih =>
      intro c
      have hd : Plain (c.declare d) := by
        cases d with
        | vertex type => exact (Layout.plain_declare _ type).bind (fun _ _ => failsBy_ok _)
        | edge type => exact (Layout.plain_declare _ type).bind (fun _ _ => failsBy_ok _)
        | cluster type => exact (Layout.plain_declare _ type).bind (fun _ _ => failsBy_ok _)
        | object type => exact (Layout.plain_declare _ type).bind (fun _ _ => failsBy_ok _)
        | vertexCapacity n => exact failsBy_ok _
        | edgeCapacity n => exact failsBy_ok _
      exact hd.bind (fun c' _ => ih c')
  exact (hall declarations _).bind (fun _ _ => failsBy_ok _)

namespace Tree

variable (t : Tree) (c child : ClusterId) (v : LocalVertex)

/-! ## Clusters and handles -/

theorem plain_require : Plain (t.require c) := by
  rw [require]
  split
  · exact failsBy_ok _
  · exact failsBy_error rfl

theorem plain_requireVertex : Plain (t.requireVertex c v) := by
  refine (t.plain_require c).bind (fun b _ => ?_)
  split
  · exact failsBy_ok _
  · exact failsBy_error rfl

theorem plain_requireEdge (e : LocalEdge) : Plain (t.requireEdge c e) := by
  refine (t.plain_require c).bind (fun b _ => ?_)
  split
  · exact failsBy_ok _
  · exact failsBy_error rfl

theorem plain_requireChildAt : Plain (t.requireChildAt c v) := by
  rw [requireChildAt]
  split
  · exact failsBy_ok _
  · exact failsBy_error rfl

/-- A child hangs on a vertex that is there. -/
theorem Sound.plain_vertexOfChild {t : Tree} (hs : t.Sound) (c child : ClusterId) :
    Plain (t.vertexOfChild c child) := by
  refine (t.plain_require c).bind (fun p hp => (t.plain_require child).bind (fun _ _ => ?_))
  split
  · rename_i q v hplace
    split
    · exact failsBy_error rfl
    · rename_i hq
      have hchild := hs.distinct.place?_eq_some_iff.mp hplace
      rw [not_not.mp hq, children_of_find? (of_require hp)] at hchild
      have hheld : p.cluster.storage.hasVertex v = true :=
        (hs.nodes _ (node_mem_of_find? (of_require hp))).held _ hchild
      rw [if_pos hheld]
      exact failsBy_ok _
  · exact failsBy_error rfl

/-! ## Attributes -/

theorem plain_vertexRecord : Plain (t.vertexRecord c v) := by
  refine (t.plain_require c).bind (fun b _ => ?_)
  split
  · exact failsBy_ok _
  · exact failsBy_error rfl

theorem plain_edgeRecord (e : LocalEdge) : Plain (t.edgeRecord c e) := by
  refine (t.plain_require c).bind (fun b _ => ?_)
  split
  · exact failsBy_ok _
  · exact failsBy_error rfl

theorem plain_carriedFor (r : EdgeRecord) (e : LocalEdge) (global : Option GlobalEdge) :
    Plain (r.carriedFor e global) := by
  cases global with
  | none =>
    rw [EdgeRecord.carriedFor]
    cases r.carried.head? with
    | none => exact failsBy_error rfl
    | some edge => exact failsBy_ok _
  | some global =>
    rw [EdgeRecord.carriedFor]
    cases r.carriedAs? global with
    | none => exact failsBy_error rfl
    | some edge => exact failsBy_ok _

theorem plain_resolve (key : AttributeKey) : Plain (t.resolve c key) := by
  cases key with
  | localVertex v => exact (t.plain_requireVertex c v).bind (fun _ _ => failsBy_ok _)
  | localEdge e => exact (t.plain_requireEdge c e).bind (fun _ _ => failsBy_ok _)
  | globalVertex global =>
    refine (t.plain_require c).bind (fun b _ => ?_)
    split
    · exact failsBy_ok _
    · exact failsBy_error rfl
  | globalEdge global =>
    refine (t.plain_require c).bind (fun b _ => ?_)
    split
    · exact failsBy_ok _
    · exact failsBy_error rfl

/-- What is done with the record of the place that a key names. -/
theorem plain_at {α : Type} (key : AttributeKey) {onVertex : ClusterId → LocalVertex → Except Error α}
    {onEdge : ClusterId → LocalEdge → Option GlobalEdge → Except Error α}
    (hv : ∀ o v, Plain (onVertex o v)) (he : ∀ o e g, Plain (onEdge o e g)) :
    Plain (t.resolve c key >>= fun place =>
      match place with
      | .vertex o v => onVertex o v
      | .edge o e g => onEdge o e g) := by
  refine (t.plain_resolve c key).bind (fun place _ => ?_)
  cases place with
  | vertex o v => exact hv o v
  | edge o e g => exact he o e g

variable (type : AttributeType)

theorem plain_property (key : AttributeKey) : Plain (t.property type c key) :=
  t.plain_at c key
    (fun o v => (t.plain_vertexRecord o v).bind (fun _ _ => Layout.plain_read _ type _))
    (fun o e _ => (t.plain_edgeRecord o e).bind (fun _ _ => Layout.plain_read _ type _))

theorem plain_setProperty (key : AttributeKey) (value : Value) :
    Plain (t.setProperty type c key value) :=
  t.plain_at c key
    (fun o v => (t.plain_vertexRecord o v).bind (fun _ _ =>
      (Layout.plain_write _ type value _).bind (fun _ _ => failsBy_ok _)))
    (fun o e _ => (t.plain_edgeRecord o e).bind (fun _ _ =>
      (Layout.plain_write _ type value _).bind (fun _ _ => failsBy_ok _)))

theorem plain_clusterProperty : Plain (t.clusterProperty type c) :=
  (t.plain_require c).bind (fun _ _ => Layout.plain_read _ type _)

theorem plain_setClusterProperty (value : Value) : Plain (t.setClusterProperty type c value) :=
  (t.plain_require c).bind (fun _ _ => (Layout.plain_write _ type value _).bind (fun _ _ => failsBy_ok _))

theorem plain_object (key : AttributeKey) : Plain (t.object type c key) :=
  t.plain_at c key
    (fun o v => (t.plain_vertexRecord o v).bind (fun _ _ => Layout.plain_readObject _ type _))
    (fun o e g => (t.plain_edgeRecord o e).bind (fun r _ =>
      (plain_carriedFor r e g).bind (fun _ _ => Layout.plain_readObject _ type _)))

theorem plain_writeObject (key : AttributeKey) (object : Option TypedObject) :
    Plain (t.writeObject type c key object) :=
  t.plain_at c key
    (fun o v => (t.plain_vertexRecord o v).bind (fun _ _ =>
      (Layout.plain_writeObject _ type object _).bind (fun _ _ => failsBy_ok _)))
    (fun o e g => (t.plain_edgeRecord o e).bind (fun r _ =>
      (plain_carriedFor r e g).bind (fun _ _ =>
        (Layout.plain_writeObject _ type object _).bind (fun _ _ => failsBy_ok _))))

theorem plain_objects (e : LocalEdge) : Plain (t.objects type c e) :=
  (t.plain_edgeRecord c e).bind (fun _ _ => FailsBy.mapM
    (fun _ => (Layout.plain_readObject _ type _).bind (fun _ _ => failsBy_ok _)) _)

/-- Nothing that is read of a tree fails because the tree disagrees with
    itself. -/
structure ReadsPlainly (t : Tree) : Prop where
  property : ∀ type c key, Plain (t.property type c key)
  clusterProperty : ∀ type c, Plain (t.clusterProperty type c)
  subclusterProperty : ∀ type c v, Plain (t.subclusterProperty type c v)
  object : ∀ type c key, Plain (t.object type c key)
  objects : ∀ type c e, Plain (t.objects type c e)
  visitType : ∀ type c recursive, Plain (t.visitType type c recursive)
  visitAll : ∀ c recursive, Plain (t.visitAll c recursive)

theorem readsPlainly (t : Tree) : t.ReadsPlainly where
  property type c key := t.plain_property c type key
  clusterProperty type c := t.plain_clusterProperty c type
  subclusterProperty type c v :=
    (t.plain_requireChildAt c v).bind (fun child _ => t.plain_clusterProperty child type)
  object type c key := t.plain_object c type key
  objects type c e := t.plain_objects c type e
  visitType type c _ :=
    (t.config.objects.plain_require type).bind (fun _ _ =>
      (t.plain_require c).bind (fun _ _ => failsBy_ok _))
  visitAll c _ := (t.plain_require c).bind (fun _ _ => failsBy_ok _)

/-! ## Removals and moves -/

theorem plain_removeGlobalVertex (global : GlobalVertex) : Plain (t.removeGlobalVertex c global) := by
  rw [removeGlobalVertex]
  split
  · exact failsBy_error rfl
  · exact failsBy_ok _

theorem plain_removeGlobalEdge (global : GlobalEdge) : Plain (t.removeGlobalEdge c global) := by
  rw [removeGlobalEdge]
  split
  · exact failsBy_error rfl
  · exact failsBy_ok _

/-- A cluster that is not the root hangs in a live one. -/
theorem Sound.plain_moveOut {t : Tree} (hs : t.Sound) (c : ClusterId) (v : LocalVertex) :
    Plain (t.moveOut c v) := by
  refine (t.plain_requireVertex c v).bind (fun inner _ => ?_)
  split
  · exact failsBy_error rfl
  · rename_i parent cv hplace
    obtain ⟨n, hn, rfl, -⟩ := exists_node_of_children (hs.distinct.place?_eq_some_iff.mp hplace)
    obtain ⟨b, hb, -⟩ := hs.distinct.find?_of_mem hn
    rw [hb]
    exact failsBy_ok _

theorem failsBy_routes (b : Branch) (moving : List GlobalVertex) (es : List GlobalEdge) :
    FailsBy (fun e => ∃ k, e = .cluster (.unresolvedEdge k)) (b.routes moving es) := by
  induction es with
  | nil => exact failsBy_ok _
  | cons k rest ih =>
    rw [Branch.routes]
    split
    · exact ih.bind (fun _ _ => failsBy_ok _)
    · exact failsBy_error ⟨k, rfl⟩

/-- A move inward fails because the tree disagrees with itself only when an
    edge finds no end in the child. -/
theorem Sound.failsBy_moveIn {t : Tree} (hs : t.Sound) (c : ClusterId) (v : LocalVertex)
    (child : ClusterId) :
    FailsBy (fun e => e.isPlain = true ∨ ∃ k, e = .cluster (.unresolvedEdge k))
      (t.moveIn c v child) := by
  refine ((hs.plain_vertexOfChild c child).mono (fun e => Or.inl)).bind (fun cv _ => ?_)
  refine ((t.plain_requireVertex c v).mono (fun e => Or.inl)).bind (fun b _ => ?_)
  dsimp only
  split
  · exact failsBy_error (Or.inl rfl)
  · refine ((t.plain_require child).mono (fun e => Or.inl)).bind (fun inner _ => ?_)
    refine ((failsBy_routes inner _ _).mono (fun e => Or.inr)).bind (fun _ _ => failsBy_ok _)

/-- In order, every edge finds its end. -/
theorem Orderly.plain_moveIn {t : Tree} {count : UInt64} (ho : t.Orderly count) (c : ClusterId)
    (v : LocalVertex) (child : ClusterId) : Plain (t.moveIn c v child) := by
  have hs := ho.sound
  refine (hs.plain_vertexOfChild c child).bind (fun cv hcv => ?_)
  refine (t.plain_requireVertex c v).bind (fun b hb => ?_)
  dsimp only
  split
  · exact failsBy_error rfl
  · rename_i hne
    refine (t.plain_require child).bind (fun inner hi => ?_)
    obtain ⟨hfind, hlive⟩ := of_requireVertex hb
    obtain ⟨record, hrecord⟩ := Storage.hasVertex_iff.mp hlive
    have hchild := of_vertexOfChild hs.distinct hcv
    rw [children_of_find? hfind] at hchild
    have hwithin := of_require hi
    obtain rfl := id_of_find? hfind
    obtain rfl := id_of_find? hwithin
    have hin : t.Inward b inner v cv record := ⟨hfind, hwithin, hchild, hrecord, hne⟩
    obtain ⟨routes, hroutes, -⟩ := hin.moveIn_eq ho
    rw [hroutes]
    exact failsBy_ok _

end Tree

namespace Graph

variable {g : Graph} {P : Error → Prop}

/-! ## Graphs -/

variable (g) (c : ClusterId)

theorem plain_addVertexNamed (global : GlobalVertex) : Plain (g.addVertexNamed c global) := by
  rw [addVertexNamed]
  dsimp only
  split
  · exact failsBy_error rfl
  · refine (g.tree.plain_require c).bind (fun b _ => ?_)
    split
    · exact failsBy_ok _
    · exact failsBy_ok _

theorem plain_requireOrdinary (v : LocalVertex) (global : GlobalVertex) :
    Plain (g.requireOrdinary c v global) := by
  rw [requireOrdinary]
  split
  · exact failsBy_error rfl
  · exact failsBy_ok _

theorem plain_requireRepresentative (b : Branch) (global : GlobalVertex) :
    Plain (requireRepresentative b global) := by
  rw [requireRepresentative]
  split
  · exact failsBy_ok _
  · exact failsBy_error rfl

theorem plain_requireOrdinaryGlobal (global : GlobalVertex) :
    Plain (g.requireOrdinaryGlobal c global) := by
  rw [requireOrdinaryGlobal]
  split
  · exact g.plain_requireOrdinary _ _ global
  · exact failsBy_ok _

theorem plain_edgeEnds (a b : LocalVertex) : Plain (g.edgeEnds c a b) := by
  rw [edgeEnds]
  dsimp only
  split
  · exact failsBy_error rfl
  · refine (g.tree.plain_requireVertex c a).bind (fun branch _ => ?_)
    split
    · exact (g.plain_requireOrdinary c a _).bind (fun _ _ =>
        (g.plain_requireOrdinary c b _).bind (fun _ _ => failsBy_ok _))
    · exact failsBy_error rfl

theorem plain_edgePlace (source target : GlobalVertex) : Plain (g.edgePlace c source target) := by
  refine (g.tree.plain_require c).bind (fun branch _ => ?_)
  refine (plain_requireRepresentative branch source).bind (fun a _ => ?_)
  refine (plain_requireRepresentative branch target).bind (fun b _ => ?_)
  refine (g.plain_requireOrdinaryGlobal c source).bind (fun _ _ => ?_)
  refine (g.plain_requireOrdinaryGlobal c target).bind (fun _ _ => ?_)
  split
  · exact failsBy_ok _
  · split
    · exact failsBy_error rfl
    · refine (plain_requireRepresentative _ source).bind (fun a' _ => ?_)
      refine (plain_requireRepresentative _ target).bind (fun b' _ => ?_)
      split
      · exact failsBy_error rfl
      · exact failsBy_ok _

end Graph

/-- The command moves a vertex into a child. -/
def Command.movesIn : Command → Bool
  | .moveIn .. => true
  | .moveInOn .. => true
  | _ => false

/-- A command fails by no more than its move inward does. -/
theorem Graph.failsBy_perform (g : Graph) {P : Error → Prop} (hP : ∀ e, e.isPlain = true → P e)
    (hs : g.tree.Sound) (command : Command)
    (hmove : command.movesIn = true → ∀ c v child, FailsBy P (g.tree.moveIn c v child)) :
    FailsBy P (g.perform command) := by
  let t := g.tree
  cases command with
  | drawId => exact failsBy_ok _
  | raiseIds count => exact failsBy_ok _
  | setChanged c =>
    exact (((t.plain_require c).bind (fun _ _ => failsBy_ok _)).map _).mono hP
  | clearChanged c => exact ((t.plain_setClusterProperty c _ _).map _).mono hP
  | setCopyMode c on =>
    exact (((t.plain_require c).bind (fun _ _ => failsBy_ok _)).map _).mono hP
  | addCluster c =>
    exact (((t.plain_require c).bind (fun _ _ => failsBy_ok _)).map _).mono hP
  | removeCluster c child =>
    exact (((hs.plain_vertexOfChild c child).bind (fun _ _ => failsBy_ok _)).map _).mono hP
  | removeClusterOn c v =>
    exact (((t.plain_requireChildAt c v).bind (fun child _ =>
      (hs.plain_vertexOfChild c child).bind (fun _ _ => failsBy_ok _))).map _).mono hP
  | removeClusters c =>
    exact (((t.plain_require c).bind (fun _ _ => failsBy_ok _)).map _).mono hP
  | addVertex c =>
    exact (((t.plain_require c).bind (fun _ _ => failsBy_ok _)).map _).mono hP
  | addVertexNamed c global => exact ((g.plain_addVertexNamed c global).map _).mono hP
  | addEdge c a b =>
    exact (((g.plain_edgeEnds c a b).bind (fun _ _ => failsBy_ok _)).map _).mono hP
  | connect c source target =>
    exact (((g.plain_edgePlace c source target).bind (fun _ _ => failsBy_ok _)).map _).mono hP
  | removeVertex c v =>
    exact (((t.plain_requireVertex c v).bind (fun _ _ => failsBy_ok _)).map _).mono hP
  | removeGlobalVertex c global => exact ((t.plain_removeGlobalVertex c global).map _).mono hP
  | removeEdge c e =>
    exact (((t.plain_requireEdge c e).bind (fun _ _ => failsBy_ok _)).map _).mono hP
  | removeGlobalEdge c global => exact ((t.plain_removeGlobalEdge c global).map _).mono hP
  | moveIn c v child => exact (hmove rfl c v child).map _
  | moveInOn c v place =>
    exact (((t.plain_requireChildAt c place).mono hP).bind (fun child _ =>
      hmove rfl c v child)).map _
  | moveOut c v => exact ((hs.plain_moveOut c v).map _).mono hP
  | setProperty type c key value => exact ((t.plain_setProperty c type key value).map _).mono hP
  | setClusterProperty type c value =>
    exact ((t.plain_setClusterProperty c type value).map _).mono hP
  | setSubclusterProperty type c v value =>
    exact (((t.plain_requireChildAt c v).bind (fun child _ =>
      t.plain_setClusterProperty child type value)).map _).mono hP
  | setObject c key object => exact ((t.plain_writeObject c object.type key _).map _).mono hP
  | clearObject type c key => exact ((t.plain_writeObject c type key none).map _).mono hP
  | renumber c =>
    exact (((t.plain_require c).bind (fun _ _ => failsBy_ok _)).map _).mono hP

/-- A copy that is refused is refused for what was asked. -/
theorem Tree.plain_copyable (source : Tree) (c : ClusterId) (target : Tree) (into : ClusterId) :
    Plain (source.copyable c target into) := by
  rw [copyable]
  dsimp only
  split
  · exact failsBy_error rfl
  · refine (source.plain_require c).bind (fun branch _ => ?_)
    refine (target.plain_require into).bind (fun place _ => ?_)
    split
    · exact failsBy_error rfl
    · exact failsBy_ok _

theorem Graph.plain_copyInto {σ : Type} (g : Graph) (c : ClusterId) (target : Graph)
    (into : ClusterId) (cloner : Cloner σ) (state : σ) :
    Plain (g.copyInto c target into cloner state).1 := by
  cases h : g.tree.copyable c target.tree into with
  | error e =>
    rw [Graph.copyInto_of_error h]
    exact failsBy_error (g.tree.plain_copyable c target.tree into e h)
  | ok branches =>
    obtain ⟨branch, place⟩ := branches
    rw [Graph.copyInto_of_ok h]
    exact failsBy_ok _

namespace Workspace

variable {w : Workspace} {P : Error → Prop}

/-! ## Operations -/

theorem failsBy_within (hw : w.Sound) {number : Nat} {command : Command}
    (h : ∀ g, w.graph? number = some g → FailsBy P (g.perform command)) :
    FailsBy P (w.within number (Act.carryOut command)).2 := by
  cases hg : w.graph? number with
  | none =>
    rw [within, hg]
    exact failsBy_ok _
  | some g =>
    have hact := Act.carryOut_eq (s := w.session g) (hw.tree hg) command
    rw [within_of_graph hg, hact]
    have hperform := h g hg
    cases hp : g.perform command with
    | error e =>
      rw [Act.atOnce_of_error (s := w.session g) hp]
      exact failsBy_error (hperform e hp)
    | ok result =>
      obtain ⟨g', reply⟩ := result
      rw [Act.atOnce_of_ok (s := w.session g) hp]
      exact failsBy_ok _

/-- A copy made piece by piece fails as one made at once does. -/
theorem plain_copyInto (cloner : Cloner Nat) {source : Graph} {s : Session}
    (hs : source.tree.Sound) (ht : s.graph.tree.Sound) (c into : ClusterId) :
    Plain (Act.copyInto cloner source c into s).1 := by
  rw [Act.copyInto_eq cloner hs ht]
  have hplain := source.plain_copyInto c s.graph into cloner s.serial
  generalize source.copyInto c s.graph into cloner s.serial = out at hplain ⊢
  obtain ⟨result, serial⟩ := out
  cases result with
  | error e => exact failsBy_error (hplain e rfl)
  | ok g => exact failsBy_ok _

theorem plain_configFrom (w : Workspace) (config : ConfigOrigin) : Plain (w.configFrom config) := by
  cases config with
  | sharedWith number =>
    rw [configFrom]
    cases w.members[number]? with
    | none => exact failsBy_ok _
    | some m => exact failsBy_ok _
  | declared declarations => exact Config.plain_build declarations

theorem plain_newGraph (w : Workspace) (config : ConfigOrigin) (ids : IdOrigin) :
    Plain (w.newGraph config ids) := by
  refine (w.plain_configFrom config).bind (fun c _ => ?_)
  cases ids with
  | sharedWith number =>
    dsimp only
    cases w.members[number]? with
    | none => exact failsBy_ok _
    | some m => exact failsBy_ok _
  | startingAt count => exact failsBy_ok _
  | fresh => exact failsBy_ok _

theorem plain_step_newGraph (w : Workspace) (config : ConfigOrigin) (ids : IdOrigin) :
    Plain (w.step (.newGraph config ids)).2 := by
  rw [step]
  cases h : w.newGraph config ids with
  | error e => exact failsBy_error (w.plain_newGraph config ids e h)
  | ok result => exact failsBy_ok _

theorem plain_step_duplicate (hw : w.Sound) (number : Nat) (cloner : Cloner Nat) :
    Plain (w.step (.duplicate number cloner)).2 := by
  rw [step]
  cases hg : w.graph? number with
  | none => exact failsBy_ok _
  | some g =>
    have hnew : (Graph.new g.tree.config (.startingAt g.ids.count)).tree.Sound :=
      Tree.sound_new (hw.tree hg).complete
    have hcopy := plain_copyInto (s := w.session (.new g.tree.config (.startingAt g.ids.count)))
      cloner (hw.tree hg) hnew g.tree.root Tree.rootId
    dsimp only [grow]
    generalize Act.copyInto cloner g g.tree.root Tree.rootId
      (w.session (.new g.tree.config (.startingAt g.ids.count))) = out at hcopy ⊢
    obtain ⟨result, s⟩ := out
    cases result with
    | error e => exact failsBy_error (hcopy e rfl)
    | ok u => exact failsBy_ok _

theorem plain_step_copyInto (hw : w.Sound) (number : Nat) (c : ClusterId) (target : Nat)
    (into : ClusterId) (cloner : Cloner Nat) :
    Plain (w.step (.copyInto number c target into cloner)).2 := by
  rw [step]
  cases hg : w.graph? number with
  | none => exact failsBy_ok _
  | some source =>
    dsimp only
    cases hg' : w.graph? target with
    | none =>
      rw [within, hg']
      exact failsBy_ok _
    | some g =>
      have hcopy := plain_copyInto (s := w.session g) cloner (hw.tree hg) (hw.tree hg') c into
      rw [within_of_graph hg']
      generalize hout : Act.copyInto cloner source c into (w.session g) = out at hcopy
      obtain ⟨result, s⟩ := out
      cases result with
      | error e =>
        rw [Act.map_of_error hout]
        exact failsBy_error (hcopy e rfl)
      | ok u =>
        rw [Act.map_of_ok hout]
        exact failsBy_ok _

/-- An operation fails by no more than a move inward does. -/
theorem failsBy_step (hw : w.Sound) (operation : Operation) (hP : ∀ e, e.isPlain = true → P e)
    (hmove : ∀ number command g, operation = .change number command → command.movesIn = true →
      w.graph? number = some g → ∀ c v child, FailsBy P (g.tree.moveIn c v child)) :
    FailsBy P (w.step operation).2 := by
  cases operation with
  | newGraph config ids => exact (w.plain_step_newGraph config ids).mono hP
  | duplicate number cloner => exact (plain_step_duplicate hw number cloner).mono hP
  | copyInto number c target into cloner =>
    exact (plain_step_copyInto hw number c target into cloner).mono hP
  | placeObject number c key type content =>
    refine failsBy_within (w := { w with serial := w.serial + 1 }) ⟨hw.trees, hw.sources⟩ (fun g hg => ?_)
    have hg' : w.graph? number = some g := hg
    exact g.failsBy_perform hP (hw.tree hg') _ (fun h => absurd h Bool.false_ne_true)
  | change number command =>
    refine failsBy_within hw (fun g hg => ?_)
    exact g.failsBy_perform hP (hw.tree hg) command (fun h => hmove number command g rfl h hg)

/-! ## Runs -/

/-- **ONE WAY TO DISAGREE**: whatever was done, a tree is found to disagree
    with itself in one case only.  A vertex is to move into a child, an edge
    of it finds no end there, and the callers gave a name twice or drew more
    ids than there are.  No reading finds a tree that disagrees with
    itself. -/
theorem inconsistency_run (operations : List Operation) :
    (∀ operation cause, ((empty.run operations).step operation).2 = .error (.cluster cause) →
      (∃ k, cause = .unresolvedEdge k)
        ∧ (∃ number command, operation = .change number command ∧ command.movesIn = true)
        ∧ ¬ empty.WellBehaved operations)
      ∧ ∀ m ∈ (empty.run operations).members, m.tree.ReadsPlainly := by
  refine ⟨fun operation cause hstep => ?_, fun m _ => m.tree.readsPlainly⟩
  have hs := sound_run operations
  have hcause := failsBy_step hs operation
    (P := fun e => e.isPlain = true ∨ (∃ k, e = .cluster (.unresolvedEdge k))
      ∧ ∃ number command, operation = .change number command ∧ command.movesIn = true)
    (fun e => Or.inl) ?_ _ hstep
  · rcases hcause with hplain | ⟨⟨k, hk⟩, hmoves⟩
    · exact absurd hplain Bool.false_ne_true
    · -- After well-behaved operations not even a move inward fails so.
      refine ⟨⟨k, Error.cluster.inj hk⟩, hmoves, fun h => ?_⟩
      have ho := ordered_empty.run h
      have hplain := failsBy_step hs operation (fun e he => he)
        (fun number command g _ _ hg c v child => (ho.tree hg).plain_moveIn c v child) _ hstep
      exact absurd hplain Bool.false_ne_true
  · intro number command g hop hmoves hg c v child
    refine ((hs.tree hg).failsBy_moveIn c v child).mono (fun e he => ?_)
    exact he.imp_right (fun hk => ⟨hk, number, command, hop, hmoves⟩)

/-- One name is given to a vertex in each of two children, and an edge of
    the second is drawn between the children.  Then the vertex of the second
    child moves into the first. -/
def twinNames : List Operation :=
  [.newGraph (.declared []) .fresh, .change 0 (.addCluster Tree.rootId),
    .change 0 (.addCluster Tree.rootId), .change 0 (.addVertexNamed ⟨1⟩ ⟨40⟩),
    .change 0 (.addVertexNamed ⟨2⟩ ⟨40⟩), .change 0 (.addVertexNamed ⟨2⟩ ⟨41⟩),
    .change 0 (.connect Tree.rootId ⟨40⟩ ⟨41⟩)]

/-- Both ends of the edge move, so it finds no other end. -/
theorem step_twinNames : ((empty.run twinNames).step (.change 0 (.moveIn Tree.rootId ⟨1, 0⟩ ⟨1⟩))).2
    = .error (.cluster (.unresolvedEdge ⟨⟨40⟩, ⟨41⟩, 42⟩)) := by
  decide +kernel

/-- So the names were not given as they should be. -/
theorem inconsistency_twinNames :
    ((empty.run twinNames).step (.change 0 (.moveIn Tree.rootId ⟨1, 0⟩ ⟨1⟩))).2
        = .error (.cluster (.unresolvedEdge ⟨⟨40⟩, ⟨41⟩, 42⟩))
      ∧ ¬ empty.WellBehaved twinNames := by
  have hstep : ((empty.run twinNames).step (.change 0 (.moveIn Tree.rootId ⟨1, 0⟩ ⟨1⟩))).2
      = .error (.cluster (.unresolvedEdge ⟨⟨40⟩, ⟨41⟩, 42⟩)) := by decide +kernel
  exact ⟨hstep, ((inconsistency_run twinNames).1 _ _ hstep).2.2⟩

end Workspace

end NestedGraph
