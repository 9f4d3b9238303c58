import NestedGraph.Proofs.Evolution
import NestedGraph.Session.Command

/-! # Stepwise — steps that cannot fail half way

    Once the checks of an operation have passed on a sound tree, none of
    its later steps fails: each looks for what the checks found, or for
    what an earlier step put there.  So an operation that goes step by step
    comes to what it comes to AT ONCE, and one that fails has changed
    nothing. -/

namespace NestedGraph

namespace Session

/-- The session with another graph. -/
def withGraph (s : Session) (g : Graph) : Session := { s with graph := g }

/-- The session with another tree. -/
def withTree (s : Session) (t : Tree) : Session := s.withGraph ⟨t, s.graph.ids⟩

@[simp] theorem graph_withGraph (s : Session) (g : Graph) : (s.withGraph g).graph = g := rfl

@[simp] theorem tree_withTree (s : Session) (t : Tree) : (s.withTree t).graph.tree = t := rfl

@[simp] theorem withTree_withTree (s : Session) (t t' : Tree) :
    (s.withTree t).withTree t' = s.withTree t' := rfl

end Session

namespace Act

variable {α β : Type} {s s' : Session}

/-! ## Single steps -/

theorem bind_run (x : Act α) (f : α → Act β) (s : Session) :
    (x >>= f) s = ExceptT.bindCont f (x s).1 (x s).2 := rfl

theorem bind_of_ok {x : Act α} {f : α → Act β} {a : α} (h : x s = (.ok a, s')) :
    (x >>= f) s = f a s' := by
  rw [bind_run, h]
  rfl

theorem bind_of_error {x : Act α} {f : α → Act β} {e : Error} (h : x s = (.error e, s')) :
    (x >>= f) s = (.error e, s') := by
  rw [bind_run, h]
  rfl

theorem map_of_ok {x : Act α} {f : α → β} {a : α} (h : x s = (.ok a, s')) :
    (f <$> x) s = (.ok (f a), s') := bind_of_ok h

theorem map_of_error {x : Act α} {f : α → β} {e : Error} (h : x s = (.error e, s')) :
    (f <$> x) s = (.error e, s') := bind_of_error h

theorem look_of_ok {f : Graph → Except Error α} {a : α} (h : f s.graph = .ok a) :
    look f s = (.ok a, s) := by
  rw [look, h]

theorem look_pure (f : Graph → α) : look (fun g => .ok (f g)) s = (.ok (f s.graph), s) := rfl

theorem look_of_error {f : Graph → Except Error α} {e : Error} (h : f s.graph = .error e) :
    look f s = (.error e, s) := by
  rw [look, h]

theorem mint_run : mint s
    = (.ok s.graph.ids.next, s.withGraph ⟨s.graph.tree, s.graph.ids.advance⟩) := rfl

theorem edit_run (f : Tree → Tree) : edit f s = (.ok (), s.withTree (f s.graph.tree)) := rfl

theorem atOnce_of_ok {f : Graph → Except Error (Graph × Reply)} {g : Graph} {reply : Reply}
    (h : f s.graph = .ok (g, reply)) :
    atOnce f s = (.ok reply, { s with graph := g, reported := s.reported ++ reply.removals }) := by
  rw [atOnce, h]

theorem atOnce_of_error {f : Graph → Except Error (Graph × Reply)} {e : Error}
    (h : f s.graph = .error e) : atOnce f s = (.error e, s) := by
  rw [atOnce, h]

/-! ## Vertices and clusters -/

variable {c : ClusterId} {b : Branch}

theorem bringIn_run (hb : s.graph.tree.find? c = some b) (record : VertexRecord)
    (nested : Option Branch) :
    bringIn c record nested s
      = (.ok b.nextVertex, s.withTree (s.graph.tree.receive c record nested)) := by
  rw [bringIn, bind_of_ok (look_of_ok (Tree.require_of_find? hb)), bind_of_ok (edit_run _)]
  rfl

/-- A new vertex takes the next id. -/
theorem bringInNew_run (hb : s.graph.tree.find? c = some b) :
    bringInNew c s = (.ok (b.nextVertex, ⟨s.graph.ids.next⟩),
      s.withGraph ⟨s.graph.tree.receive c (s.graph.tree.config.newVertex ⟨s.graph.ids.next⟩) none,
        s.graph.ids.advance⟩) := by
  have hb' : (s.withGraph ⟨s.graph.tree, s.graph.ids.advance⟩).graph.tree.find? c = some b := hb
  rw [bringInNew, bind_of_ok (look_of_ok (Tree.require_of_find? hb)), bind_of_ok mint_run,
    bind_of_ok (look_pure _), bind_of_ok (bringIn_run hb' _ none)]
  rfl

theorem bringInNew_of_error {e : Error} (h : s.graph.tree.require c = .error e) :
    bringInNew c s = (.error e, s) := by
  rw [bringInNew, bind_of_error (look_of_error h)]

theorem addVertex_eq (s : Session) (c : ClusterId) :
    ((fun (v, global) => Reply.vertex v global) <$> addVertex c) s
      = atOnce (fun g => g.perform (.addVertex c)) s := by
  cases hc : s.graph.tree.require c with
  | error e =>
      have hp : s.graph.perform (.addVertex c) = .error e := by
        rw [Graph.perform, Graph.addVertex, hc]
        rfl
      have hrun : addVertex c s = (.error e, s) := by
        rw [addVertex, bind_of_error (bringInNew_of_error hc)]
      rw [atOnce_of_error hp, map_of_error hrun]
  | ok b =>
      have hb := Tree.of_require hc
      have hp : s.graph.perform (.addVertex c) = .ok (⟨s.graph.putVertex c ⟨s.graph.ids.next⟩,
          s.graph.ids.advance⟩, .vertex b.nextVertex ⟨s.graph.ids.next⟩) := by
        rw [Graph.perform, Graph.addVertex, hc]
        rfl
      have hrun : addVertex c s = (.ok (b.nextVertex, ⟨s.graph.ids.next⟩),
          s.withGraph ⟨s.graph.putVertex c ⟨s.graph.ids.next⟩, s.graph.ids.advance⟩) := by
        rw [addVertex, bind_of_ok (bringInNew_run hb)]
        rfl
      rw [atOnce_of_ok hp, map_of_ok hrun]
      simp [Reply.removals, Session.withGraph]

/-- A new vertex with an empty child hung on it is a vertex that arrives with
    the child. -/
theorem graft_receive {t : Tree} (hd : t.Distinct) (hb : t.find? c = some b) (r : VertexRecord)
    (child : Branch) :
    (t.receive c r none).graft c b.nextVertex child = t.receive c r (some child) := by
  have htwo := Tree.update_update (c := c) (f := fun b : Branch => b.receive r none)
    (g := fun x => ⟨x.cluster, x.inside.append (.single b.nextVertex child)⟩) (fun _ hx => hx) t
  exact htwo.trans (hd.update_congr hb rfl)

theorem addCluster_eq (hs : s.graph.tree.Sound) (c : ClusterId) :
    ((fun (child, v) => Reply.subcluster child v) <$> addCluster c) s
      = atOnce (fun g => g.perform (.addCluster c)) s := by
  cases hc : s.graph.tree.require c with
  | error e =>
      have hp : s.graph.perform (.addCluster c) = .error e := by
        rw [Graph.perform, Graph.addCluster, hc]
        rfl
      have hrun : addCluster c s = (.error e, s) := by
        rw [addCluster, bind_of_error (bringInNew_of_error hc)]
      rw [atOnce_of_error hp, map_of_error hrun]
  | ok b =>
      have hb := Tree.of_require hc
      let t := s.graph.tree
      let record := t.config.newVertex ⟨s.graph.ids.next⟩
      let child : Branch := ⟨t.config.newCluster ⟨t.nextClusterId⟩, .nil⟩
      let grown := t.receive c record (some child)
      let after : Graph := ⟨({ grown with nextClusterId := t.nextClusterId + 1 } : Tree).mark c,
        s.graph.ids.advance⟩
      have hp : s.graph.perform (.addCluster c)
          = .ok (after, .subcluster ⟨t.nextClusterId⟩ b.nextVertex) := by
        rw [Graph.perform, Graph.addCluster, hc]
        rfl
      have hgrown : (t.receive c record none).graft c b.nextVertex child = grown :=
        graft_receive hs.distinct hb record child
      have hrun : addCluster c s
          = (.ok (⟨t.nextClusterId⟩, b.nextVertex), s.withGraph after) := by
        rw [addCluster, bind_of_ok (bringInNew_run hb)]
        show (Except.ok ((⟨t.nextClusterId⟩ : ClusterId), b.nextVertex), s.withGraph
          ⟨({ (t.receive c record none).graft c b.nextVertex child with
            nextClusterId := t.nextClusterId + 1 } : Tree).mark c, s.graph.ids.advance⟩) = _
        rw [hgrown]
      rw [atOnce_of_ok hp, map_of_ok hrun]
      simp [Reply.removals, Session.withGraph]

/-! ## Edges -/

variable {v w : LocalVertex}

/-- Global edges are put onto the edge that is there, or onto a new one
    between two live vertices. -/
theorem attach_run (hb : s.graph.tree.find? c = some b)
    (hv : b.cluster.storage.hasVertex v = true) (hw : b.cluster.storage.hasVertex w = true)
    (properties : List Value) (carried : List CarriedEdge) :
    attach c v w properties carried s = (.ok (b.cluster.storage.attachHandle v w),
      s.withTree (s.graph.tree.mapStorage c (fun st => st.attach v w properties carried))) := by
  rw [attach, bind_of_ok (look_of_ok (Tree.require_of_find? hb))]
  cases hedge : b.cluster.storage.edgeBetween? v w with
  | some e => rfl
  | none =>
      dsimp only
      rw [bind_of_ok (look_of_ok (Tree.requireVertex_of_find? hb hv)),
        bind_of_ok (look_of_ok (Tree.requireVertex_of_find? hb hw))]
      rfl

/-- An edge that puts several global edges in a row. -/
theorem attachLinks_run (links : List Link) (hb : s.graph.tree.find? c = some b)
    (h : ∀ l ∈ links, b.cluster.storage.hasVertex l.first = true
      ∧ b.cluster.storage.hasVertex l.second = true) :
    attachLinks c links s
      = (.ok (), s.withTree (s.graph.tree.mapStorage c (fun st => st.attachLinks links))) := by
  induction links generalizing s b with
  | nil =>
      have hsame : s.graph.tree.mapStorage c (fun st => st.attachLinks []) = s.graph.tree :=
        Tree.update_self (fun _ => rfl) _
      rw [attachLinks, hsame]
      rfl
  | cons l rest ih =>
      obtain ⟨hfirst, hsecond⟩ := h l (List.mem_cons_self ..)
      let attached := fun st : Storage =>
        st.attach l.first l.second l.record.properties l.record.carried
      have hb' : (s.graph.tree.mapStorage c attached).find? c = some (b.mapStorage attached) :=
        Tree.find?_mapStorage_self hb attached
      have hrest := ih (s := s.withTree (s.graph.tree.mapStorage c attached)) hb'
        (fun m hm => by
          have hkeep : ∀ u, (attached b.cluster.storage).hasVertex u
              = b.cluster.storage.hasVertex u := fun u =>
            congrArg (fun vertices => vertices.contains u) (Storage.vertices_attach ..)
          show (attached b.cluster.storage).hasVertex m.first = true
            ∧ (attached b.cluster.storage).hasVertex m.second = true
          rw [hkeep, hkeep]
          exact h m (List.mem_cons_of_mem _ hm))
      have htwo : (s.graph.tree.mapStorage c attached).mapStorage c (fun st => st.attachLinks rest)
          = s.graph.tree.mapStorage c (fun st => st.attachLinks (l :: rest)) :=
        Tree.mapStorage_mapStorage ..
      rw [attachLinks, bind_of_ok (attach_run hb hfirst hsecond ..), hrest]
      rw [Session.tree_withTree, Session.withTree_withTree, htwo]

/-- A new global edge takes the next id. -/
theorem attachNew_run (hb : s.graph.tree.find? c = some b)
    (hv : b.cluster.storage.hasVertex v = true) (hw : b.cluster.storage.hasVertex w = true)
    (source target : GlobalVertex) :
    attachNew c v w source target s
      = (.ok (b.cluster.storage.attachHandle v w, ⟨source, target, s.graph.ids.next⟩),
        s.withGraph (s.graph.putEdge c v w ⟨source, target, s.graph.ids.next⟩)) := by
  have hb' : (s.withGraph ⟨s.graph.tree, s.graph.ids.advance⟩).graph.tree.find? c = some b := hb
  rw [attachNew, bind_of_ok mint_run, bind_of_ok (look_pure _),
    bind_of_ok (attach_run hb' hv hw ..)]
  rfl

theorem addEdge_eq (s : Session) (c : ClusterId) (v w : LocalVertex) :
    ((fun (e, global) => Reply.edge e global) <$> addEdge c v w) s
      = atOnce (fun g => g.perform (.addEdge c v w)) s := by
  cases hends : s.graph.edgeEnds c v w with
  | error e =>
      have hp : s.graph.perform (.addEdge c v w) = .error e := by
        rw [Graph.perform, Graph.addEdge, hends]
        rfl
      have hrun : addEdge c v w s = (.error e, s) := by
        rw [addEdge, bind_of_error (look_of_error hends)]
      rw [atOnce_of_error hp, map_of_error hrun]
  | ok ends =>
      obtain ⟨b, source, target⟩ := ends
      obtain ⟨-, hb, hsource, htarget, -, -⟩ := Graph.of_edgeEnds hends
      let global : GlobalEdge := ⟨source, target, s.graph.ids.next⟩
      have hp : s.graph.perform (.addEdge c v w) = .ok (s.graph.putEdge c v w global,
          .edge (b.cluster.storage.attachHandle v w) global) := by
        rw [Graph.perform, Graph.addEdge, hends]
        rfl
      have hrun : addEdge c v w s = (.ok (b.cluster.storage.attachHandle v w, global),
          s.withGraph (s.graph.putEdge c v w global)) := by
        rw [addEdge, bind_of_ok (look_of_ok hends)]
        exact attachNew_run hb (Storage.hasVertex_of_global? hsource)
          (Storage.hasVertex_of_global? htarget) source target
      rw [atOnce_of_ok hp, map_of_ok hrun]
      simp [Reply.removals, Session.withGraph]

theorem connect_eq (hs : s.graph.tree.Sound) (c : ClusterId) (source target : GlobalVertex) :
    ((fun (e, global, own) => Reply.placedEdge e global own) <$> connect c source target) s
      = atOnce (fun g => g.perform (.connect c source target)) s := by
  cases hplace : s.graph.edgePlace c source target with
  | error e =>
      have hp : s.graph.perform (.connect c source target) = .error e := by
        rw [Graph.perform, Graph.connect, hplace]
        rfl
      have hrun : connect c source target s = (.error e, s) := by
        rw [connect, bind_of_error (look_of_error hplace)]
      rw [atOnce_of_error hp, map_of_error hrun]
  | ok place =>
      obtain ⟨b, v, w⟩ := place
      obtain ⟨-, hb, hv, hw, -⟩ := Graph.of_edgePlace hs hplace
      have hsound := hs.nodes _ (Tree.node_mem_of_find? hb)
      let global : GlobalEdge := ⟨source, target, s.graph.ids.next⟩
      let own := decide (b.cluster.id = c)
      have hp : s.graph.perform (.connect c source target)
          = .ok (s.graph.putEdge b.cluster.id v w global,
            .placedEdge (b.cluster.storage.attachHandle v w) global own) := by
        rw [Graph.perform, Graph.connect, hplace]
        rfl
      have hrun : connect c source target s
          = (.ok (b.cluster.storage.attachHandle v w, global, own),
            s.withGraph (s.graph.putEdge b.cluster.id v w global)) := by
        rw [connect, bind_of_ok (look_of_ok hplace)]
        refine (bind_of_ok (attachNew_run hb ?_ ?_ source target)).trans rfl
        · exact Tree.Node.Sound.hasVertex_of_representative? hsound hv
        · exact Tree.Node.Sound.hasVertex_of_representative? hsound hw
      rw [atOnce_of_ok hp, map_of_ok hrun]
      simp [Reply.removals, Session.withGraph]

/-! ## Moves -/

/-- A vertex is taken out with what is kept for it, and with the branch on
    it. -/
theorem takeOut_run (hb : s.graph.tree.find? c = some b) {record : VertexRecord}
    (hv : b.cluster.storage.vertex? v = some record) :
    takeOut c v s
      = (.ok (record, b.inside.branchAt? v), s.withTree (s.graph.tree.cutAt c v)) := by
  rw [takeOut, bind_of_ok (look_of_ok (Tree.require_of_find? hb)), bind_of_ok (edit_run _), hv]
  rfl

/-- Edges that come in are put where their routes lead, one by one. -/
theorem carryIn_run (routes : Routes) (entries : List (List Value × CarriedEdge))
    (hb : s.graph.tree.find? c = some b) (hv : b.cluster.storage.hasVertex v = true)
    (h : ∀ entry ∈ entries, ∃ w, routes.target? entry.2.global = some w
      ∧ b.cluster.storage.hasVertex w = true) :
    carryIn c routes v entries s = (.ok (), s.withTree (s.graph.tree.mapStorage c (fun st =>
      st.attachLinks (entries.filterMap (fun entry =>
        (routes.target? entry.2.global).map (fun w => ⟨v, w, ⟨entry.1, [entry.2]⟩⟩)))))) := by
  induction entries generalizing s b with
  | nil =>
      have hsame : s.graph.tree.mapStorage c (fun st => st.attachLinks []) = s.graph.tree :=
        Tree.update_self (fun _ => rfl) _
      rw [carryIn, List.filterMap_nil, hsame]
      rfl
  | cons entry rest ih =>
      obtain ⟨properties, x⟩ := entry
      obtain ⟨w, hroute, hw⟩ := h _ (List.mem_cons_self ..)
      let attached := fun st : Storage => st.attach v w properties [x]
      have hkeep : ∀ u, (attached b.cluster.storage).hasVertex u
          = b.cluster.storage.hasVertex u := fun u =>
        congrArg (fun vertices => vertices.contains u) (Storage.vertices_attach ..)
      have hb' := Tree.find?_mapStorage_self hb attached
      have hrest := ih (s := s.withTree (s.graph.tree.mapStorage c attached)) hb'
        ((hkeep v).trans hv) (fun entry hentry => by
          obtain ⟨u, hu, hlive⟩ := h entry (List.mem_cons_of_mem _ hentry)
          exact ⟨u, hu, (hkeep u).trans hlive⟩)
      have hroute' : routes.target? x.global = some w := hroute
      rw [carryIn, hroute', List.filterMap_cons]
      dsimp only
      rw [hroute', Option.map_some, bind_of_ok (attach_run hb hv hw ..), hrest]
      rw [Session.tree_withTree, Session.withTree_withTree, Tree.mapStorage_mapStorage]
      rfl

/-- What comes in is what is carried in, edge by edge. -/
theorem incoming_eq (records : List EdgeRecord) (routes : Routes) (nv : LocalVertex) :
    (records.flatMap (fun r => r.carried.map (fun x => (r.properties, x)))).filterMap (fun entry =>
        (routes.target? entry.2.global).map (fun w =>
          (⟨nv, w, ⟨entry.1, [entry.2]⟩⟩ : Link)))
      = Branch.incoming records routes nv := by
  rw [List.filterMap_flatMap, Branch.incoming]
  congr 1
  funext r
  rw [List.filterMap_map]
  rfl

/-- Half way in, the vertex is off its cluster and its other edges are put back;
    the child is what it was. -/
theorem half_lower (hs : s.graph.tree.Sound) {inner : Branch} {cv : LocalVertex}
    {record : VertexRecord} (h : s.graph.tree.Inward b inner v cv record) :
    let left := (s.graph.tree.cutAt b.cluster.id v).mapStorage b.cluster.id (fun st =>
      st.attachLinks (b.outward v cv))
    attachLinks b.cluster.id (b.outward v cv) (s.withTree (s.graph.tree.cutAt b.cluster.id v))
        = (.ok (), s.withTree left)
      ∧ left.Distinct ∧ ∃ x, left.find? inner.cluster.id = some x ∧ x.node = inner.node := by
  intro left
  have hb := hs.nodes _ (Tree.node_mem_of_find? h.around)
  have hd1 : (s.graph.tree.cutAt b.cluster.id v).Distinct := (hs.cutAt ..).distinct
  have hd2 : left.Distinct := hd1.mapStorage b.cluster.id _
  obtain ⟨rest, -, hcut⟩ := h.nodes_cutAt hs
  have hfind : (s.graph.tree.cutAt b.cluster.id v).find? b.cluster.id
      = some { b.mapStorage (fun st => st.removeVertex v) with inside := b.inside.eraseAt v } :=
    Tree.find?_update_self h.around rfl
  have hattach := attachLinks_run (s := s.withTree (s.graph.tree.cutAt b.cluster.id v))
    (b.outward v cv) hfind (fun l hl => by
      obtain ⟨-, h1, h2, -⟩ := Branch.fit_outward hb.storage (hb.held _ h.child) h.ne hl
      exact ⟨h1, h2⟩)
  have hmem : inner.node ∈ left.nodes := by
    have hnodes := hd1.nodes_mapStorage hcut (fun st => st.attachLinks (b.outward v cv))
    exact hnodes ▸ Multiset.mem_cons_of_mem (Multiset.mem_cons_self ..)
  obtain ⟨x, hx, hnode⟩ := hd2.find?_of_mem hmem
  exact ⟨hattach, hd2, x, hx, hnode⟩

/-- After the checks, a move inward goes through. -/
theorem lower_run (hs : s.graph.tree.Sound) {inner : Branch} {cv : LocalVertex}
    {record : VertexRecord} (h : s.graph.tree.Inward b inner v cv record) {routes : Routes}
    (hroutes : inner.routes (b.travelling v) ((b.inward v cv).flatMap EdgeRecord.globals)
      = .ok routes) :
    (do
      let (record, nested) ← takeOut b.cluster.id v
      attachLinks b.cluster.id (b.outward v cv)
      let nv ← bringIn inner.cluster.id record nested
      carryIn inner.cluster.id routes nv
        ((b.inward v cv).flatMap (fun r => r.carried.map (fun edge => (r.properties, edge))))
      edit (fun t => t.mark b.cluster.id)
      edit (fun t => t.mark inner.cluster.id)
      return nv : Act LocalVertex) s
      = (.ok inner.nextVertex, s.withTree (s.graph.tree.lower v cv routes b inner)) := by
  have hi := hs.nodes _ (Tree.node_mem_of_find? h.within)
  let left := (s.graph.tree.cutAt b.cluster.id v).mapStorage b.cluster.id (fun st =>
    st.attachLinks (b.outward v cv))
  obtain ⟨hattach, -, x, hx, hnode⟩ := half_lower hs h
  rw [bind_of_ok (takeOut_run h.around h.vertex)]
  dsimp only
  rw [bind_of_ok hattach]
  have hk : x.cluster = inner.cluster := congrArg Node.cluster hnode
  have hnext : x.nextVertex = inner.nextVertex :=
    congrArg (fun k : Cluster => k.storage.vertices.nextHandle) hk
  have hfind2 : (s.withTree left).graph.tree.find? inner.cluster.id = some x := hx
  rw [bind_of_ok (bringIn_run hfind2 record (b.inside.branchAt? v)), Session.tree_withTree,
    Session.withTree_withTree, hnext]
  -- Its edges come in after it.
  have hfind3 : (left.receive inner.cluster.id record (b.inside.branchAt? v)).find?
      inner.cluster.id = some (x.receive record (b.inside.branchAt? v)) := by
    have hid : x.cluster.id = inner.cluster.id := congrArg Cluster.id hk
    exact Tree.find?_update_self hx hid
  have hhas : ∀ u, (x.receive record (b.inside.branchAt? v)).cluster.storage.hasVertex u = true
      ↔ u = inner.nextVertex ∨ inner.cluster.storage.hasVertex u = true := by
    intro u
    have hstorage : x.cluster.storage = inner.cluster.storage := congrArg Cluster.storage hk
    show (x.cluster.storage.addVertex record).hasVertex u = true ↔ _
    rw [hstorage]
    exact Storage.hasVertex_addVertex hi.storage.vertices record u
  have hcarry := carryIn_run (s := s.withTree (left.receive inner.cluster.id record
      (b.inside.branchAt? v))) (v := inner.nextVertex) routes
    ((b.inward v cv).flatMap (fun r => r.carried.map (fun x => (r.properties, x)))) hfind3
    ((hhas _).mpr (Or.inl rfl)) (fun entry hentry => by
      obtain ⟨r, hr, hentry⟩ := List.mem_flatMap.mp hentry
      obtain ⟨y, hy, rfl⟩ := List.mem_map.mp hentry
      obtain ⟨w, hw⟩ := Branch.exists_target? hroutes r hr y hy
      exact ⟨w, hw, (hhas w).mpr (Or.inr
        (Tree.Node.Sound.hasVertex_of_target? hi hroutes y.global w hw))⟩)
  rw [incoming_eq, Session.tree_withTree, Session.withTree_withTree] at hcarry
  rw [bind_of_ok hcarry, Tree.lower, h.vertex]
  rfl

/-- What a move comes to at once, told as steps. -/
def settle (s : Session) : Except Error (Tree × LocalVertex) → Except Error LocalVertex × Session
  | .ok (t, v) => (.ok v, s.withTree t)
  | .error e => (.error e, s)

/-- A check fails for both ways of moving, or both go on. -/
theorem check_run {f : Graph → Except Error α} {k : α → Act LocalVertex}
    {k' : α → Except Error (Tree × LocalVertex)}
    (h : ∀ a, f s.graph = .ok a → k a s = settle s (k' a)) :
    (look f >>= k) s = settle s (f s.graph >>= k') := by
  cases hf : f s.graph with
  | error e => exact bind_of_error (look_of_error hf)
  | ok a => exact (bind_of_ok (look_of_ok hf)).trans (h a hf)

theorem moveIn_run (hs : s.graph.tree.Sound) (c : ClusterId) (v : LocalVertex)
    (child : ClusterId) :
    moveIn c v child s = settle s (s.graph.tree.moveIn c v child) := by
  rw [moveIn, Tree.moveIn]
  refine check_run (fun cv hcv => check_run (fun b hb => ?_))
  dsimp only
  by_cases hne : v = cv
  · rw [if_pos hne, if_pos hne]
    rfl
  · rw [if_neg hne, if_neg hne]
    refine check_run (fun inner hi => check_run (fun routes hroutes => ?_))
    obtain ⟨hfind, hlive⟩ := Tree.of_requireVertex hb
    obtain ⟨record, hrecord⟩ := Storage.hasVertex_iff.mp hlive
    have hi := Tree.of_require hi
    obtain rfl := Tree.id_of_find? hfind
    obtain rfl := Tree.id_of_find? hi
    have hchild := Tree.of_vertexOfChild hs.distinct hcv
    rw [Tree.children_of_find? hfind] at hchild
    exact lower_run hs ⟨hfind, hi, hchild, hrecord, hne⟩ hroutes

theorem moveInOn_run (hs : s.graph.tree.Sound) (c : ClusterId) (v place : LocalVertex) :
    moveInOn c v place s = settle s (s.graph.tree.moveInOn c v place) := by
  rw [moveInOn, Tree.moveInOn]
  exact check_run (fun child _ => moveIn_run hs c v child)

/-- Links that are attached after others come to one row of links. -/
theorem attachLinks_append_run (first second : List Link) (hb : s.graph.tree.find? c = some b)
    (h : ∀ l ∈ first ++ second, b.cluster.storage.hasVertex l.first = true
      ∧ b.cluster.storage.hasVertex l.second = true) :
    ∃ between, attachLinks c first s = (.ok (), between)
      ∧ attachLinks c second between = (.ok (), s.withTree
        (s.graph.tree.mapStorage c (fun st => st.attachLinks (first ++ second)))) := by
  refine ⟨_, attachLinks_run first hb (fun l hl => h l (List.mem_append_left _ hl)), ?_⟩
  have hb' := Tree.find?_mapStorage_self hb (fun st => st.attachLinks first)
  have hsecond := attachLinks_run (s := s.withTree (s.graph.tree.mapStorage c (fun st =>
      st.attachLinks first))) second hb' (fun l hl => by
    obtain ⟨h1, h2⟩ := h l (List.mem_append_right _ hl)
    exact ⟨(Storage.hasVertex_attachLinks ..).trans h1,
      (Storage.hasVertex_attachLinks ..).trans h2⟩)
  have happend : ∀ st : Storage, (st.attachLinks first).attachLinks second
      = st.attachLinks (first ++ second) := fun st => List.foldl_append.symm
  rw [Session.tree_withTree, Session.withTree_withTree, Tree.mapStorage_mapStorage] at hsecond
  simpa only [happend] using hsecond

/-- Half way out, the cluster around lost edges and no vertex, and then the vertex
    is off its cluster, which is what it was. -/
theorem half_raise {t : Tree} (hs : t.Sound) {inner : Branch} {cv : LocalVertex}
    {record : VertexRecord} (h : t.Outward inner b cv v record) (p : GlobalEdge → Bool) :
    let withdrawn := fun st : Storage => st.withdrawAt p cv
    let outer := t.mapStorage b.cluster.id withdrawn
    outer.find? inner.cluster.id = some inner
      ∧ (outer.cutAt inner.cluster.id v).Distinct
      ∧ ∃ x, (outer.cutAt inner.cluster.id v).find? b.cluster.id = some x
        ∧ x.node = b.node.mapStorage withdrawn := by
  intro withdrawn outer
  have hb := hs.nodes _ (Tree.node_mem_of_find? h.around)
  obtain ⟨rest, hnodes, hcut⟩ := h.nodes_cutAt hs withdrawn
  have hfind : outer.find? inner.cluster.id = some inner := by
    have hv := hs.distinct.branchAt?_of_child h.around hb.keys h.within h.child
    exact hs.distinct.find?_mapCluster (f := fun k => { k with storage := withdrawn k.storage })
      (fun _ => rfl) h.within (hs.distinct.notMem_child h.around hv)
  have hd : (outer.cutAt inner.cluster.id v).Distinct := by
    have hle : (outer.cutAt inner.cluster.id v).ids ≤ t.ids := by
      rw [Tree.ids, Tree.ids, hcut, hnodes]
      simp only [Multiset.map_cons, Multiset.map_add, Node.id_mapStorage, Node.id_cut]
      exact Multiset.cons_le_cons _ (Multiset.cons_le_cons _ (Multiset.le_add_left ..))
    exact Multiset.nodup_of_le hle hs.distinct
  have hmem : b.node.mapStorage withdrawn ∈ (outer.cutAt inner.cluster.id v).nodes :=
    hcut ▸ Multiset.mem_cons_self ..
  obtain ⟨x, hx, hnode⟩ := hd.find?_of_mem hmem
  exact ⟨hfind, hd, x, hx, hnode⟩

/-- After the checks, a move outward goes through. -/
theorem raise_run (hs : s.graph.tree.Sound) {inner : Branch} {cv : LocalVertex}
    {record : VertexRecord} (h : s.graph.tree.Outward inner b cv v record) :
    (do
      edit (fun t => t.mapStorage b.cluster.id (fun st =>
        st.withdrawAt (GlobalEdge.touches (inner.travelling v)) cv))
      let (record, nested) ← takeOut inner.cluster.id v
      let nv ← bringIn b.cluster.id record nested
      attachLinks b.cluster.id (inner.left v nv cv)
      attachLinks b.cluster.id (b.lifted (inner.travelling v) nv cv)
      edit (fun t => t.mark inner.cluster.id)
      edit (fun t => t.mark b.cluster.id)
      return nv : Act LocalVertex) s
      = (.ok b.nextVertex, s.withTree (s.graph.tree.raise cv v inner b)) := by
  have hb := hs.nodes _ (Tree.node_mem_of_find? h.around)
  have hi := hs.nodes _ (Tree.node_mem_of_find? h.within)
  let moving := inner.travelling v
  let withdrawn := fun st : Storage => st.withdrawAt (GlobalEdge.touches moving) cv
  let outer := s.graph.tree.mapStorage b.cluster.id withdrawn
  obtain ⟨hfind1, -, x, hx, hnode⟩ := half_raise hs h (GlobalEdge.touches moving)
  rw [bind_of_ok (edit_run _)]
  have htake := takeOut_run (s := s.withTree outer) hfind1 h.vertex
  rw [bind_of_ok htake, Session.tree_withTree, Session.withTree_withTree]
  dsimp only
  have hk : x.cluster = { b.cluster with storage := withdrawn b.cluster.storage } :=
    congrArg Node.cluster hnode
  have hstorage : x.cluster.storage = withdrawn b.cluster.storage := congrArg Cluster.storage hk
  have hnext : x.nextVertex = b.nextVertex := by
    rw [Branch.nextVertex, hstorage, Storage.vertices_withdrawAt]
    rfl
  have hfind2 : (s.withTree (outer.cutAt inner.cluster.id v)).graph.tree.find? b.cluster.id
      = some x := hx
  rw [bind_of_ok (bringIn_run hfind2 record (inner.inside.branchAt? v)), Session.tree_withTree,
    Session.withTree_withTree, hnext]
  -- The edges follow, first those from inside and then those that were lifted.
  let raised := (outer.cutAt inner.cluster.id v).receive b.cluster.id record
    (inner.inside.branchAt? v)
  let left := inner.left v b.nextVertex cv
  let lifted := b.lifted moving b.nextVertex cv
  have hfit : ∀ l ∈ left ++ lifted, (x.receive record
      (inner.inside.branchAt? v)).cluster.storage.hasVertex l.first = true
        ∧ (x.receive record (inner.inside.branchAt? v)).cluster.storage.hasVertex l.second
          = true := by
    intro l hl
    obtain ⟨-, h1, h2, -⟩ := Tree.fit_raised hb hi record (hb.held _ h.child) moving hl
    show (x.cluster.storage.addVertex record).hasVertex l.first = true
      ∧ (x.cluster.storage.addVertex record).hasVertex l.second = true
    rw [hstorage]
    exact ⟨h1, h2⟩
  have hfind3 : (s.withTree raised).graph.tree.find? b.cluster.id
      = some (x.receive record (inner.inside.branchAt? v)) := by
    have hid : x.cluster.id = b.cluster.id := by rw [hk]
    exact Tree.find?_update_self hx hid
  obtain ⟨_, hleft, hlifted⟩ := attachLinks_append_run left lifted hfind3 hfit
  rw [bind_of_ok hleft, bind_of_ok hlifted, Session.tree_withTree, Session.withTree_withTree,
    Tree.raise, h.vertex]
  rfl

theorem moveOut_run (hs : s.graph.tree.Sound) (c : ClusterId) (v : LocalVertex) :
    moveOut c v s = settle s (s.graph.tree.moveOut c v) := by
  rw [moveOut, Tree.moveOut]
  refine check_run (fun inner hi => ?_)
  obtain ⟨hfind, hlive⟩ := Tree.of_requireVertex hi
  cases hplace : s.graph.tree.place? c with
  | none =>
      refine bind_of_error (look_of_error ?_)
      rw [hplace]
  | some place =>
      obtain ⟨parent, cv⟩ := place
      refine (bind_of_ok (look_of_ok (a := (parent, cv)) ?_)).trans ?_
      · rw [hplace]
      dsimp only
      cases hb : s.graph.tree.find? parent with
      | none =>
          refine bind_of_error (look_of_error ?_)
          rw [hb]
      | some b =>
          refine (bind_of_ok (look_of_ok (a := b) ?_)).trans ?_
          · rw [hb]
          obtain ⟨record, hrecord⟩ := Storage.hasVertex_iff.mp hlive
          obtain rfl := Tree.id_of_find? hfind
          obtain rfl := Tree.id_of_find? hb
          have hchild := hs.distinct.place?_eq_some_iff.mp hplace
          rw [Tree.children_of_find? hb] at hchild
          exact raise_run hs ⟨hfind, hb, hchild, hrecord⟩

/-- A move that goes step by step is one that changes the tree at once. -/
theorem moved_eq {x : Act LocalVertex} {f : Tree → Except Error (Tree × LocalVertex)}
    (h : x s = settle s (f s.graph.tree)) :
    (Reply.moved <$> x) s = atOnce (fun g => g.moving <$> f g.tree) s := by
  cases hf : f s.graph.tree with
  | error e =>
      rw [hf] at h
      have hp : (fun g : Graph => g.moving <$> f g.tree) s.graph = .error e := by
        dsimp only
        rw [hf]
        rfl
      rw [atOnce_of_error hp]
      exact map_of_error h
  | ok result =>
      rw [hf] at h
      have hp : (fun g : Graph => g.moving <$> f g.tree) s.graph
          = .ok (⟨result.1, s.graph.ids⟩, .moved result.2) := by
        dsimp only
        rw [hf]
        rfl
      rw [atOnce_of_ok hp, map_of_ok h]
      simp [Reply.removals, Session.withTree, Session.withGraph]

/-! ## Indices -/

/-- Numbering one vertex writes what `put` writes. -/
theorem modifyVertex_congr {t : Tree} (hd : t.Distinct) (hb : t.find? c = some b)
    {r : VertexRecord} (hr : b.cluster.storage.vertex? v = some r)
    {f g : VertexRecord → VertexRecord} (hfg : f r = g r) :
    t.modifyVertex c v f = t.modifyVertex c v g := by
  refine hd.update_congr hb ?_
  rw [Branch.mapStorage, Branch.mapStorage, Storage.modifyVertex, Storage.modifyVertex,
    SlotStore.modify_congr hr hfg]

theorem modifyEdge_congr {t : Tree} (hd : t.Distinct) (hb : t.find? c = some b) {e : LocalEdge}
    {l : Link} (hl : b.cluster.storage.link? e = some l) {f g : EdgeRecord → EdgeRecord}
    (hfg : f l.record = g l.record) : t.modifyEdge c e f = t.modifyEdge c e g := by
  refine hd.update_congr hb ?_
  have hedges := SlotStore.modify_congr (f := fun l : Link => { l with record := f l.record })
    (g := fun l => { l with record := g l.record }) hl (by rw [hfg])
  rw [Branch.mapStorage, Branch.mapStorage, Storage.modifyEdge, Storage.modifyEdge, hedges]

/-- Every vertex has a slot for its index. -/
theorem numberVertices_run (hs : s.graph.tree.Sound) (vs : List LocalVertex)
    (hb : s.graph.tree.find? c = some b) (k : Nat)
    (hlive : ∀ v ∈ vs, b.cluster.storage.hasVertex v = true) :
    numberVertices c k vs s = (.ok (), s.withTree (s.graph.tree.numberVertices c k vs)) := by
  induction vs generalizing s b k with
  | nil => rfl
  | cons v rest ih =>
      obtain ⟨r, hr⟩ := Storage.hasVertex_iff.mp (hlive v (List.mem_cons_self ..))
      have hsound := hs.nodes _ (Tree.node_mem_of_find? hb)
      obtain ⟨properties, hw⟩ := (hsound.fits.vertex v r hr).1.write_eq_ok hs.complete.vertex
        (show (Value.index k).kind = vertexIndex.initial.kind from rfl)
      have hrecord : s.graph.tree.vertexRecord c v = .ok r := Tree.vertexRecord_of_find? hb hr
      have hlook : look (fun g => do
          g.tree.config.vertex.write vertexIndex (.index k) (← g.tree.vertexRecord c v).properties) s
          = (.ok properties, s) := by
        refine look_of_ok ?_
        rw [hrecord]
        exact hw
      have hput : s.graph.tree.modifyVertex c v (fun r => { r with properties := properties })
          = s.graph.tree.modifyVertex c v (fun r => { r with
            properties := s.graph.tree.config.vertex.put vertexIndex (.index k) r.properties }) := by
        refine modifyVertex_congr hs.distinct hb hr ?_
        rw [Layout.put_of_write hw]
      have hnext : s.graph.tree.Becomes (s.graph.tree.modifyVertex c v (fun r =>
          { r with properties := properties })) := by
        rw [hput]
        exact hs.becomes_numberVertices c k [v]
      have hb' := Tree.find?_mapStorage_self hb (fun st => st.modifyVertex v (fun r =>
        { r with properties := properties }))
      have hrest := ih (s := s.withTree (s.graph.tree.modifyVertex c v (fun r =>
          { r with properties := properties }))) hnext.sound hb' (k + 1) (fun w hw =>
        (Storage.hasVertex_modifyVertex ..).trans (hlive w (List.mem_cons_of_mem _ hw)))
      rw [numberVertices, bind_of_ok hlook, bind_of_ok (edit_run _), hrest, Session.tree_withTree,
        Session.withTree_withTree, hput]
      rfl

/-- Every edge has a slot for its index. -/
theorem numberEdges_run (hs : s.graph.tree.Sound) (es : List LocalEdge)
    (hb : s.graph.tree.find? c = some b) (k : Nat)
    (hlive : ∀ e ∈ es, ∃ l, b.cluster.storage.link? e = some l) :
    numberEdges c k es s = (.ok (), s.withTree (s.graph.tree.numberEdges c k es)) := by
  induction es generalizing s b k with
  | nil => rfl
  | cons e rest ih =>
      obtain ⟨l, hl⟩ := hlive e (List.mem_cons_self ..)
      have hsound := hs.nodes _ (Tree.node_mem_of_find? hb)
      obtain ⟨properties, hw⟩ := (hsound.fits.edge e l hl).1.write_eq_ok hs.complete.edge
        (show (Value.index k).kind = edgeIndex.initial.kind from rfl)
      have hrecord : s.graph.tree.edgeRecord c e = .ok l.record := Tree.edgeRecord_of_find? hb hl
      have hlook : look (fun g => do
          g.tree.config.edge.write edgeIndex (.index k) (← g.tree.edgeRecord c e).properties) s
          = (.ok properties, s) := by
        refine look_of_ok ?_
        rw [hrecord]
        exact hw
      have hput : s.graph.tree.modifyEdge c e (fun r => { r with properties := properties })
          = s.graph.tree.modifyEdge c e (fun r => { r with
            properties := s.graph.tree.config.edge.put edgeIndex (.index k) r.properties }) := by
        refine modifyEdge_congr hs.distinct hb hl ?_
        rw [Layout.put_of_write hw]
      have hnext : s.graph.tree.Becomes (s.graph.tree.modifyEdge c e (fun r =>
          { r with properties := properties })) := by
        rw [hput]
        exact hs.becomes_numberEdges c k [e]
      have hb' := Tree.find?_mapStorage_self hb (fun st => st.modifyEdge e (fun r =>
        { r with properties := properties }))
      have hrest := ih (s := s.withTree (s.graph.tree.modifyEdge c e (fun r =>
          { r with properties := properties }))) hnext.sound hb' (k + 1) (fun k hk => by
        obtain ⟨m, hm⟩ := hlive k (List.mem_cons_of_mem _ hk)
        have hlink := Storage.link?_modifyEdge b.cluster.storage e k
          (fun r => { r with properties := properties })
        by_cases hke : k = e
        · rw [if_pos hke, hl] at hlink
          exact ⟨_, hlink⟩
        · rw [if_neg hke, hm] at hlink
          exact ⟨_, hlink⟩)
      rw [numberEdges, bind_of_ok hlook, bind_of_ok (edit_run _), hrest, Session.tree_withTree,
        Session.withTree_withTree, hput]
      rfl

/-- The vertices of a cluster are the same after its vertices were
    numbered, and so are its edges. -/
theorem find?_numberVertices {t : Tree} (vs : List LocalVertex) (hb : t.find? c = some b)
    (k : Nat) : ∃ b', (t.numberVertices c k vs).find? c = some b'
      ∧ b'.cluster.storage.edges = b.cluster.storage.edges := by
  induction vs generalizing t b k with
  | nil => exact ⟨b, hb, rfl⟩
  | cons v rest ih =>
      obtain ⟨b', hb', he⟩ := ih (Tree.find?_mapStorage_self hb (fun st => st.modifyVertex v (fun r =>
        { r with properties := t.config.vertex.put vertexIndex (.index k) r.properties }))) (k + 1)
      exact ⟨b', hb', he⟩

/-- Vertices and edges numbered one by one are numbered. -/
theorem renumber_run (hs : s.graph.tree.Sound) (hb : s.graph.tree.find? c = some b) :
    renumber c s = (.ok (), s.withTree ((s.graph.tree.numberVertices c 0
      b.cluster.storage.vertices.handles).numberEdges c 0 b.cluster.storage.edges.handles)) := by
  have hvs := numberVertices_run hs b.cluster.storage.vertices.handles hb 0 (fun v hv =>
    Storage.hasVertex_iff.mpr (SlotStore.mem_handles.mp hv))
  obtain ⟨b', hb', he⟩ := find?_numberVertices b.cluster.storage.vertices.handles hb 0
  have hes := numberEdges_run
    (s := s.withTree (s.graph.tree.numberVertices c 0 b.cluster.storage.vertices.handles))
    (hs.becomes_numberVertices c 0 _).sound b.cluster.storage.edges.handles hb' 0 (fun e hemem => by
      obtain ⟨l, hl⟩ := SlotStore.mem_handles.mp hemem
      exact ⟨l, (congrArg (fun edges => edges.get? e) he).trans hl⟩)
  rw [renumber, bind_of_ok (look_of_ok (Tree.require_of_find? hb)), bind_of_ok hvs]
  exact hes

theorem renumber_eq (hs : s.graph.tree.Sound) (c : ClusterId) :
    ((fun _ => Reply.done) <$> renumber c) s = atOnce (fun g => g.perform (.renumber c)) s := by
  cases hc : s.graph.tree.require c with
  | error e =>
      have hp : s.graph.perform (.renumber c) = .error e := by
        rw [Graph.perform, Tree.renumber, hc]
        rfl
      have hrun : renumber c s = (.error e, s) := by
        rw [renumber, bind_of_error (look_of_error hc)]
      rw [atOnce_of_error hp, map_of_error hrun]
  | ok b =>
      have hp : s.graph.perform (.renumber c)
          = .ok (⟨(s.graph.tree.numberVertices c 0 b.cluster.storage.vertices.handles).numberEdges c 0
              b.cluster.storage.edges.handles, s.graph.ids⟩, .done) := by
        rw [Graph.perform, Tree.renumber, hc]
        rfl
      rw [atOnce_of_ok hp, map_of_ok (renumber_run hs (Tree.of_require hc))]
      simp [Reply.removals, Session.withTree, Session.withGraph]

/-! ## Commands -/

/-- On a sound tree every command comes to what it comes to at once. -/
theorem carryOut_eq (hs : s.graph.tree.Sound) (command : Command) :
    carryOut command s = atOnce (fun g => g.perform command) s := by
  cases command with
  | addCluster c => exact addCluster_eq hs c
  | addVertex c => exact addVertex_eq s c
  | addEdge c v w => exact addEdge_eq s c v w
  | connect c source target => exact connect_eq hs c source target
  | moveIn c v child => exact moved_eq (f := fun t => t.moveIn c v child) (moveIn_run hs c v child)
  | moveInOn c v place =>
      exact moved_eq (f := fun t => t.moveInOn c v place) (moveInOn_run hs c v place)
  | moveOut c v => exact moved_eq (f := fun t => t.moveOut c v) (moveOut_run hs c v)
  | renumber c => exact renumber_eq hs c
  | _ => rfl

end Act

end NestedGraph
