import NestedGraph.Proofs.Contents

/-! # Turnover — what a command brings in and takes out

    A command may create something, and it may take something out: what it
    reports, a vertex that it was asked to remove, a global edge that it
    was asked to remove by its name.  A command that is carried out changes
    the contents of its tree by just that.  Vertices and edges that only
    move stay in the tree. -/

namespace NestedGraph

/-! ## Entries -/

/-- What an answer says was created. -/
def Reply.created : Reply → List Removal
  | .subcluster c _ => [.cluster c]
  | .vertex _ global => [.vertex global]
  | .edge _ global => [.edge global]
  | .placedEdge _ global _ => [.edge global]
  | _ => []

/-- What came into a tree and what went out of it. -/
structure Ledger where
  created : List Removal
  /-- What was reported as removed. -/
  reported : List Removal
  /-- Ordinary vertices that were themselves to be removed; a report does
      not list them. -/
  removed : List GlobalVertex
  /-- Global edges that were removed by name, which is not reported. -/
  dropped : List GlobalEdge
deriving DecidableEq

namespace Ledger

def empty : Ledger := ⟨[], [], [], []⟩

def append (l l' : Ledger) : Ledger :=
  ⟨l.created ++ l'.created, l.reported ++ l'.reported, l.removed ++ l'.removed,
    l.dropped ++ l'.dropped⟩

/-- Everything that went out. -/
def gone (l : Ledger) : List Removal :=
  l.reported ++ l.removed.map .vertex ++ l.dropped.map .edge

theorem coe_gone_append (l l' : Ledger) :
    ((l.append l').gone : Multiset Removal) = l.gone + l'.gone := by
  simp only [gone, append, List.map_append, ← Multiset.coe_add]
  abel

end Ledger

namespace Command

/-- What a command created, by its answer.  A vertex that is inside the
    cluster already is not created again. -/
def created (t : Tree) (reply : Reply) : Command → List Removal
  | .addVertexNamed c name => if t.vertexOwner? c name = none then reply.created else []
  | _ => reply.created

/-- The ordinary vertex that a command is to remove. -/
def removed (t : Tree) : Command → List GlobalVertex
  | .removeVertex c v => t.ordinaryAt c v
  | .removeGlobalVertex c name =>
      match t.vertexOwner? c name with
      | some (owner, v) => t.ordinaryAt owner v
      | none => []
  | _ => []

/-- The global edge that a command is to remove by name. -/
def dropped (t : Tree) : Command → List GlobalEdge
  | .removeGlobalEdge c global =>
      match t.edgeOwner? c global with
      | some (owner, e) => (t.carried owner e).filter (fun other => other.same global)
      | none => []
  | _ => []

/-- What is entered for a command that was carried out. -/
def entry (t : Tree) (command : Command) (reply : Reply) : Ledger :=
  ⟨command.created t reply, reply.removals, command.removed t, command.dropped t⟩

end Command

namespace Tree

/-- From one tree to the other, the contents changed by what was entered. -/
def Turnover (t t' : Tree) (l : Ledger) : Prop :=
  t'.contents + (l.gone : Multiset Removal) = t.contents + (l.created : Multiset Removal)

variable {t t' : Tree} {c child : ClusterId} {v : LocalVertex} {l : Ledger}
  {result : Tree × List Removal}

theorem Turnover.of_contents (h : t'.contents = t.contents) : t.Turnover t' .empty := by
  rw [Turnover, h]
  rfl

theorem Turnover.of_cons {x : Removal} (h : t'.contents = x ::ₘ t.contents) :
    t.Turnover t' ⟨[x], [], [], []⟩ := by
  rw [Turnover, h, ← Multiset.singleton_add, add_comm ({x} : Multiset Removal)]
  exact add_zero _

theorem Restyled.turnover (h : t.Restyled t') : t.Turnover t' .empty := .of_contents h.contents

/-- How things are kept does not count. -/
theorem Turnover.restyled {t'' : Tree} (h : t.Turnover t' l) (hr : t'.Restyled t'') :
    t.Turnover t'' l := by
  rw [Turnover, hr.contents]
  exact h

/-! ## What goes -/

theorem Sound.turnover_discard (hs : t.Sound) (c : ClusterId) (v : LocalVertex) :
    t.Turnover (t.discard c v).1 ⟨[], (t.discard c v).2, t.ordinaryAt c v, []⟩ := by
  have hdiscard := hs.contents_discard c v
  rw [Turnover, Ledger.gone, List.map_nil, List.append_nil, ← Multiset.coe_add, ← add_assoc,
    ← hdiscard]
  exact (add_zero _).symm

theorem Sound.turnover_removeCluster (hs : t.Sound) (h : t.removeCluster c child = .ok result) :
    t.Turnover result.1 ⟨[], result.2, [], []⟩ := by
  obtain ⟨v, hv, h⟩ := of_bind_eq_ok h
  obtain rfl := Except.ok.inj h
  obtain ⟨n, hn, rfl, he⟩ := exists_node_of_children (of_vertexOfChild hs.distinct hv)
  -- The vertex goes with its cluster, which is why it is not one that was removed itself.
  have hcluster : t.isClusterVertex n.id v = true :=
    (hs.distinct.isClusterVertex_iff hn v).mpr (List.mem_map_of_mem he)
  have hdiscard := hs.turnover_discard n.id v
  rw [ordinaryAt, if_pos hcluster] at hdiscard
  exact hdiscard

theorem Sound.turnover_removeClusterOn (hs : t.Sound) (h : t.removeClusterOn c v = .ok result) :
    t.Turnover result.1 ⟨[], result.2, [], []⟩ := by
  obtain ⟨child, -, h⟩ := of_bind_eq_ok h
  exact hs.turnover_removeCluster h

theorem Sound.turnover_removeClusters (hs : t.Sound) (h : t.removeClusters c = .ok result) :
    t.Turnover result.1 ⟨[], result.2, [], []⟩ := by
  obtain ⟨b, hb, h⟩ := of_bind_eq_ok h
  obtain rfl := Except.ok.inj h
  obtain rfl := id_of_find? (of_require hb)
  have hmem := node_mem_of_find? (of_require hb)
  have hdiscard := hs.contents_discardAll (hs.nodes _ hmem).keys
    (fun v hv => (hs.distinct.isClusterVertex_iff hmem v).mpr hv)
  rw [Turnover, Ledger.gone, List.map_nil, List.map_nil, List.append_nil, List.append_nil]
  exact hdiscard.symm.trans (add_zero _).symm

theorem Sound.turnover_removeVertex (hs : t.Sound) (h : t.removeVertex c v = .ok result) :
    t.Turnover result.1 ⟨[], result.2, t.ordinaryAt c v, []⟩ := by
  obtain ⟨-, -, h⟩ := of_bind_eq_ok h
  obtain rfl := Except.ok.inj h
  exact hs.turnover_discard c v

theorem Sound.turnover_removeGlobalVertex (hs : t.Sound) {name : GlobalVertex}
    (h : t.removeGlobalVertex c name = .ok result) :
    t.Turnover result.1 ⟨[], result.2, Command.removed t (.removeGlobalVertex c name), []⟩ := by
  cases howner : t.vertexOwner? c name with
  | none =>
    rw [removeGlobalVertex, howner] at h
    cases h
  | some place =>
    obtain ⟨owner, v⟩ := place
    rw [removeGlobalVertex, howner] at h
    obtain rfl := Except.ok.inj h
    rw [Command.removed, howner]
    exact (hs.turnover_discard owner v).restyled
      ((hs.becomes_discard owner v).sound.distinct.restyled_markUpTo owner c)

theorem Sound.turnover_removeEdge (hs : t.Sound) {e : LocalEdge}
    (h : t.removeEdge c e = .ok result) : t.Turnover result.1 ⟨[], result.2, [], []⟩ := by
  obtain ⟨b, hb, h⟩ := of_bind_eq_ok h
  obtain rfl := Except.ok.inj h
  have hremove := hs.distinct.contents_removeEdge (of_requireEdge hb).1 e
  have hturn : t.Turnover (t.mapStorage c (fun s => s.removeEdge e))
      ⟨[], (b.cluster.storage.carried e).map .edge, [], []⟩ := by
    rw [Turnover, Ledger.gone, List.map_nil, List.map_nil, List.append_nil, List.append_nil]
    exact hremove.trans (add_zero _).symm
  exact hturn.restyled (Distinct.restyled_mark (hs.distinct.mapStorage c _) c)

theorem Sound.turnover_removeGlobalEdge (hs : t.Sound) {global : GlobalEdge}
    (h : t.removeGlobalEdge c global = .ok t') :
    t.Turnover t' ⟨[], [], [], Command.dropped t (.removeGlobalEdge c global)⟩ := by
  cases howner : t.edgeOwner? c global with
  | none =>
    rw [removeGlobalEdge, howner] at h
    cases h
  | some place =>
    obtain ⟨owner, e⟩ := place
    rw [removeGlobalEdge, howner] at h
    obtain rfl := Except.ok.inj h
    rw [Command.dropped, howner]
    have hturn : t.Turnover (t.mapStorage owner (fun s => s.withdraw (fun other => other.same global) e))
        ⟨[], [], [], (t.carried owner e).filter (fun other => other.same global)⟩ :=
      (hs.contents_withdraw (fun other => other.same global) owner e).trans (add_zero _).symm
    exact hturn.restyled (Distinct.restyled_markUpTo (hs.distinct.mapStorage owner _) owner c)

/-! ## What moves -/

theorem Sound.turnover_moveIn (hs : t.Sound) {result : Tree × LocalVertex}
    (h : t.moveIn c v child = .ok result) : t.Turnover result.1 .empty := by
  obtain ⟨b, inner, cv, record, routes, hin, -, -, hroutes, heq, -⟩ := of_moveIn hs h
  rw [heq]
  exact .of_contents ((hin.handover hs routes).contents
    (hin.carries hs (Branch.exists_target? hroutes)))

theorem Sound.turnover_moveOut (hs : t.Sound) {result : Tree × LocalVertex}
    (h : t.moveOut c v = .ok result) : t.Turnover result.1 .empty := by
  obtain ⟨b, inner, cv, record, hout, -, heq, -⟩ := of_moveOut hs h
  rw [heq]
  exact .of_contents ((hout.handover hs).contents (hout.carries hs))

end Tree

namespace Graph

variable {g h : Graph} {c : ClusterId} {v a b : LocalVertex} {name global : GlobalVertex}

/-! ## What comes -/

theorem turnover_putVertex (hs : g.tree.Sound) (hc : c ∈ g.tree.ids) (global : GlobalVertex) :
    g.tree.Turnover (g.putVertex c global) ⟨[.vertex global], [], [], []⟩ := by
  have hsound := (hs.becomes_receive c (g.tree.config.fits_newVertex global)).sound
  exact (Tree.Turnover.of_cons (hs.contents_receive hc _)).restyled
    (hsound.distinct.restyled_mark c)

theorem turnover_addVertex (hs : g.tree.Sound) (hadd : g.addVertex c = .ok (h, v, global)) :
    g.tree.Turnover h.tree ⟨[.vertex global], [], [], []⟩ := by
  obtain ⟨branch, hb, -, -, rfl⟩ := of_addVertex hadd
  exact turnover_putVertex hs (Tree.mem_ids_iff.mpr ⟨branch, hb⟩) global

theorem turnover_addVertexNamed (hs : g.tree.Sound)
    (hadd : g.addVertexNamed c name = .ok (h, v, global)) :
    g.tree.Turnover h.tree
      ⟨Command.created g.tree (.vertex v global) (.addVertexNamed c name), [], [], []⟩ := by
  rw [Command.created]
  obtain ⟨rfl, ⟨howner, rfl⟩ | ⟨hnone, -, hfind, rfl⟩⟩ := addVertexNamed_cases hs hadd
  · rw [if_neg howner]
    exact .of_contents rfl
  · rw [if_pos hnone]
    exact turnover_putVertex hs (Tree.mem_ids_iff.mpr hfind) global

theorem turnover_addCluster (hs : g.tree.Sound) {child : ClusterId}
    (hadd : g.addCluster c = .ok (h, child, v)) :
    g.tree.Turnover h.tree ⟨[.cluster child], [], [], []⟩ := by
  obtain ⟨branch, hb, rfl, -, rfl⟩ := of_addCluster hadd
  have hc : c ∈ g.tree.ids := Tree.mem_ids_iff.mpr ⟨branch, hb⟩
  have hreceive := hs.withNext.contents_receive_cluster hc (g.tree.config.newVertex ⟨g.ids.next⟩)
    g.tree.config ⟨g.tree.nextClusterId⟩
  have hsound := hs.receive_cluster c ⟨g.ids.next⟩
  exact (Tree.Turnover.of_cons hreceive).restyled (hsound.distinct.restyled_mark c)

theorem turnover_putEdge (hs : g.tree.Sound) {branch : Branch} (hc : g.tree.find? c = some branch)
    (hab : g.Between c a b) (global : GlobalEdge) :
    g.tree.Turnover (g.putEdge c a b global).tree ⟨[.edge global], [], [], []⟩ := by
  have hattach := hs.contents_attach (Tree.mem_ids_iff.mpr ⟨branch, hc⟩) a b
    g.tree.config.edge.initialValues (g.tree.config.newCarried global)
  exact (Tree.Turnover.of_cons hattach).restyled
    ((becomes_attach hs hab global).sound.distinct.restyled_mark c)

theorem turnover_addEdge (hs : g.tree.Sound) {e : LocalEdge} {edge : GlobalEdge}
    (hadd : g.addEdge c a b = .ok (h, e, edge)) :
    g.tree.Turnover h.tree ⟨[.edge edge], [], [], []⟩ := by
  obtain ⟨branch, source, target, -, hfind, hab, -, -, rfl⟩ := of_addEdge hs hadd
  exact turnover_putEdge hs hfind hab edge

theorem turnover_connect (hs : g.tree.Sound) {source target : GlobalVertex} {e : LocalEdge}
    {edge : GlobalEdge} {own : Bool} (hadd : g.connect c source target = .ok (h, e, edge, own)) :
    g.tree.Turnover h.tree ⟨[.edge edge], [], [], []⟩ := by
  obtain ⟨holder, a, b, -, hfind, hab, -, -, -, rfl⟩ := of_connect hs hadd
  exact turnover_putEdge hs hfind hab edge

/-! ## Commands -/

/-- A command that is carried out changes the contents by what is entered
    for it. -/
theorem turnover_perform (hs : g.tree.Sound) {command : Command} {reply : Reply}
    (hp : g.perform command = .ok (h, reply)) :
    g.tree.Turnover h.tree (command.entry g.tree reply) := by
  cases command with
  | drawId | raiseIds =>
    obtain ⟨rfl, rfl⟩ := Prod.mk.inj (Except.ok.inj hp)
    exact .of_contents rfl
  | addCluster c =>
    obtain ⟨⟨g', child, v⟩, hadd, heq⟩ := of_map_eq_ok hp
    obtain ⟨rfl, rfl⟩ := Prod.mk.inj heq
    exact turnover_addCluster hs hadd
  | removeCluster c child =>
    obtain ⟨r, hr, rfl, rfl⟩ := of_reporting hp
    exact hs.turnover_removeCluster hr
  | removeClusterOn c v =>
    obtain ⟨r, hr, rfl, rfl⟩ := of_reporting hp
    exact hs.turnover_removeClusterOn hr
  | removeClusters c =>
    obtain ⟨r, hr, rfl, rfl⟩ := of_reporting hp
    exact hs.turnover_removeClusters hr
  | addVertex c =>
    obtain ⟨⟨g', v, global⟩, hadd, heq⟩ := of_map_eq_ok hp
    obtain ⟨rfl, rfl⟩ := Prod.mk.inj heq
    exact turnover_addVertex hs hadd
  | addVertexNamed c name =>
    obtain ⟨⟨g', v, global⟩, hadd, heq⟩ := of_map_eq_ok hp
    obtain ⟨rfl, rfl⟩ := Prod.mk.inj heq
    exact turnover_addVertexNamed hs hadd
  | addEdge c a b =>
    obtain ⟨⟨g', e, global⟩, hadd, heq⟩ := of_map_eq_ok hp
    obtain ⟨rfl, rfl⟩ := Prod.mk.inj heq
    exact turnover_addEdge hs hadd
  | connect c source target =>
    obtain ⟨⟨g', e, global, own⟩, hadd, heq⟩ := of_map_eq_ok hp
    obtain ⟨rfl, rfl⟩ := Prod.mk.inj heq
    exact turnover_connect hs hadd
  | removeVertex c v =>
    obtain ⟨r, hr, rfl, rfl⟩ := of_reporting hp
    exact hs.turnover_removeVertex hr
  | removeGlobalVertex c global =>
    obtain ⟨r, hr, rfl, rfl⟩ := of_reporting hp
    exact hs.turnover_removeGlobalVertex hr
  | removeEdge c e =>
    obtain ⟨r, hr, rfl, rfl⟩ := of_reporting hp
    exact hs.turnover_removeEdge hr
  | removeGlobalEdge c global =>
    obtain ⟨t, ht, rfl, rfl⟩ := of_quietly hp
    exact hs.turnover_removeGlobalEdge ht
  | moveIn c v child =>
    obtain ⟨r, hr, rfl, rfl⟩ := of_moving hp
    exact hs.turnover_moveIn hr
  | moveInOn c v place =>
    obtain ⟨r, hr, rfl, rfl⟩ := of_moving hp
    obtain ⟨child, -, hr⟩ := of_bind_eq_ok hr
    exact hs.turnover_moveIn hr
  | moveOut c v =>
    obtain ⟨r, hr, rfl, rfl⟩ := of_moving hp
    exact hs.turnover_moveOut hr
  | setChanged | clearChanged | setCopyMode | setProperty | setClusterProperty
  | setSubclusterProperty | setObject | clearObject | renumber =>
    obtain ⟨t, ht, rfl, rfl | ⟨_, rfl⟩⟩ := of_restyles hs.distinct rfl hp
    · exact ht.turnover
    · exact ht.turnover

end Graph

end NestedGraph
