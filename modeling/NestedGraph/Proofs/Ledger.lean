import NestedGraph.Proofs.Turnover
import NestedGraph.Proofs.Whereabouts

/-! # Ledger — everything that is created is kept or accounted for

    A tree that is created empty gets a ledger, and every operation on it
    enters what it created and what it took out.  As long as no copy is
    made into the tree, its source does not overflow, and a name is given
    once, the ledger BALANCES: what is in the tree is what was created and
    did not go, and nothing goes twice. -/

namespace NestedGraph

namespace Graph

variable {g h : Graph} {l : Ledger} {x : Removal}

/-! ## What is known -/

/-- The source has given out the id, and the tree the cluster. -/
def Knows (g : Graph) : Removal → Prop
  | .vertex name => name.id ≤ g.ids.count
  | .edge global => global.id ≤ g.ids.count
  | .cluster c => c ≠ Tree.rootId ∧ c.id < g.tree.nextClusterId

theorem Knows.mono (hx : g.Knows x) (hcount : g.ids.count ≤ h.ids.count)
    (hnext : g.tree.nextClusterId ≤ h.tree.nextClusterId) : h.Knows x := by
  cases x with
  | vertex name => exact UInt64.le_trans hx hcount
  | edge global => exact UInt64.le_trans hx hcount
  | cluster c => exact ⟨hx.1, Nat.lt_of_lt_of_le hx.2 hnext⟩

/-- What a command created is known from then on.  It was not before, unless
    it is a vertex to which the caller gave its name. -/
theorem created_cases (hs : g.tree.Sound) {command : Command} {reply : Reply}
    (hcount : g.ids.count ≤ h.ids.count) (hp : g.perform command = .ok (h, reply)) :
    command.created g.tree reply = []
      ∨ ∃ x, command.created g.tree reply = [x] ∧ h.Knows x
        ∧ (¬ g.Knows x ∨ ∃ c name, command = .addVertexNamed c name
          ∧ g.tree.vertexOwner? c name = none ∧ x = .vertex name) := by
  have hdrawn : g.ids.count ≤ g.ids.advance.count → ¬ g.ids.next ≤ g.ids.count :=
    fun hle => UInt64.not_le.mpr (IdSource.count_lt_next hle)
  cases command with
  | drawId | raiseIds =>
    obtain ⟨-, rfl⟩ := Prod.mk.inj (Except.ok.inj hp)
    exact .inl rfl
  | setChanged | clearChanged | setCopyMode | setProperty | setClusterProperty
  | setSubclusterProperty | setObject | clearObject | renumber =>
    obtain ⟨t, -, -, rfl | ⟨_, rfl⟩⟩ := of_restyles hs.distinct rfl hp
    · exact .inl rfl
    · exact .inl rfl
  | removeGlobalEdge =>
    obtain ⟨t, -, -, rfl⟩ := of_quietly hp
    exact .inl rfl
  | removeCluster | removeClusterOn | removeClusters | removeVertex | removeGlobalVertex
  | removeEdge =>
    obtain ⟨r, -, -, rfl⟩ := of_reporting hp
    exact .inl rfl
  | moveIn | moveInOn | moveOut =>
    obtain ⟨r, -, -, rfl⟩ := of_moving hp
    exact .inl rfl
  | addCluster c =>
    obtain ⟨⟨g', child, v⟩, hadd, heq⟩ := of_map_eq_ok hp
    obtain ⟨rfl, rfl⟩ := Prod.mk.inj heq
    obtain ⟨branch, -, rfl, -, rfl⟩ := of_addCluster hadd
    -- The root is alive, so its id was given out before.
    have hroot : 0 < g.tree.nextClusterId := by
      have hlt := hs.bound _ g.tree.root_mem_ids
      rw [hs.root] at hlt
      exact hlt
    refine Or.inr ⟨_, rfl, ⟨fun hid => ?_, Nat.lt_succ_self _⟩, Or.inl (fun hknown => ?_)⟩
    · exact absurd (congrArg ClusterId.id hid) (Nat.ne_of_gt hroot)
    · exact Nat.lt_irrefl _ hknown.2
  | addVertex c =>
    obtain ⟨⟨g', v, global⟩, hadd, heq⟩ := of_map_eq_ok hp
    obtain ⟨rfl, rfl⟩ := Prod.mk.inj heq
    obtain ⟨branch, -, rfl, -, rfl⟩ := of_addVertex hadd
    exact Or.inr ⟨_, rfl, UInt64.le_refl _, Or.inl (hdrawn hcount)⟩
  | addVertexNamed c name =>
    obtain ⟨⟨g', v, global⟩, hadd, heq⟩ := of_map_eq_ok hp
    obtain ⟨rfl, rfl⟩ := Prod.mk.inj heq
    rw [Command.created]
    obtain ⟨rfl, ⟨howner, rfl⟩ | ⟨hnone, -, -, rfl⟩⟩ := addVertexNamed_cases hs hadd
    · exact Or.inl (if_neg howner)
    · refine Or.inr ⟨_, if_pos hnone, (IdSource.le_raise ..).2, Or.inr ⟨c, _, rfl, hnone, rfl⟩⟩
  | addEdge c a b =>
    obtain ⟨⟨g', e, global⟩, hadd, heq⟩ := of_map_eq_ok hp
    obtain ⟨rfl, rfl⟩ := Prod.mk.inj heq
    obtain ⟨branch, source, target, -, -, -, rfl, -, rfl⟩ := of_addEdge hs hadd
    exact Or.inr ⟨_, rfl, UInt64.le_refl _, Or.inl (hdrawn hcount)⟩
  | connect c source target =>
    obtain ⟨⟨g', e, global, own⟩, hadd, heq⟩ := of_map_eq_ok hp
    obtain ⟨rfl, rfl⟩ := Prod.mk.inj heq
    obtain ⟨holder, a, b, -, -, -, rfl, -, -, rfl⟩ := of_connect hs hadd
    exact Or.inr ⟨_, rfl, UInt64.le_refl _, Or.inl (hdrawn hcount)⟩

/-! ## Balance -/

/-- The ledger balances, it has nothing as created twice, and the graph knows
    what it has as created. -/
structure Audited (g : Graph) (l : Ledger) : Prop where
  balance : g.tree.contents + (l.gone : Multiset Removal)
    = .cluster Tree.rootId ::ₘ (l.created : Multiset Removal)
  created : l.created.Nodup
  known : ∀ x ∈ l.created, g.Knows x

theorem audited_new (config : Config) (ids : IdSource) : (new config ids).Audited .empty :=
  ⟨rfl, List.nodup_nil, fun _ hx => nomatch hx⟩

/-- Trees that share the source may move it forward. -/
theorem Audited.mono (ha : g.Audited l) (htree : h.tree = g.tree)
    (hcount : g.ids.count ≤ h.ids.count) : h.Audited l := by
  refine ⟨?_, ha.created, fun x hx => (ha.known x hx).mono hcount (by rw [htree])⟩
  rw [htree]
  exact ha.balance

/-- A command that is carried out keeps the balance, if the source does not
    overflow and no name is given again. -/
theorem Audited.perform (ha : g.Audited l) (hs : g.tree.Sound) {command : Command} {reply : Reply}
    (hcount : g.ids.count ≤ h.ids.count)
    (hname : ∀ c name, command = .addVertexNamed c name →
      g.tree.vertexOwner? c name ≠ none ∨ .vertex name ∉ l.created)
    (hp : g.perform command = .ok (h, reply)) :
    h.Audited (l.append (command.entry g.tree reply)) := by
  have hturn : h.tree.contents + ((command.entry g.tree reply).gone : Multiset Removal)
      = g.tree.contents + (command.created g.tree reply : Multiset Removal) :=
    turnover_perform hs hp
  have hcreated : (l.append (command.entry g.tree reply)).created
      = l.created ++ command.created g.tree reply := rfl
  constructor
  case balance =>
    rw [Ledger.coe_gone_append, hcreated, ← Multiset.coe_add, ← Multiset.cons_add, ← ha.balance,
      add_comm (l.gone : Multiset Removal), ← add_assoc, hturn]
    abel
  case created =>
    rw [hcreated]
    rcases created_cases hs hcount hp with heq | ⟨x, heq, -, hnew⟩
    · rw [heq, List.append_nil]
      exact ha.created
    · -- A drawn id is not among those drawn before; a given name is not by assumption.
      rw [heq, List.nodup_append_comm, List.singleton_append, List.nodup_cons]
      refine ⟨fun hmem => ?_, ha.created⟩
      rcases hnew with hnew | ⟨c, name, hcommand, hnone, rfl⟩
      · exact hnew (ha.known x hmem)
      · exact (hname c name hcommand).elim (absurd hnone) (absurd hmem)
  case known =>
    have hkeep : ∀ x ∈ l.created, h.Knows x := fun x hx =>
      (ha.known x hx).mono hcount (becomes_perform hs hp).next
    rw [hcreated]
    rcases created_cases hs hcount hp with heq | ⟨x, heq, hx, -⟩
    · rw [heq, List.append_nil]
      exact hkeep
    · rw [heq]
      exact List.forall_mem_append.mpr ⟨hkeep, List.forall_mem_singleton.mpr hx⟩

end Graph

/-! ## What a balanced ledger tells -/

namespace Tree

variable {t : Tree}

/-- The tree is what its ledger says: what was created and did not go. -/
structure Accounts (t : Tree) (l : Ledger) : Prop where
  edges : ∀ global, (∃ c e, global ∈ t.carried c e)
    ↔ .edge global ∈ l.created ∧ .edge global ∉ l.reported ∧ global ∉ l.dropped
  /-- The vertices on which no cluster hangs. -/
  vertices : ∀ name, (∃ c v, t.global? c v = some name ∧ t.isClusterVertex c v = false)
    ↔ .vertex name ∈ l.created ∧ .vertex name ∉ l.reported ∧ name ∉ l.removed
  clusters : ∀ c, t.isLive c = true ↔ (c = t.root ∨ .cluster c ∈ l.created) ∧ .cluster c ∉ l.reported
  /-- Nothing went twice, nor what was not created. -/
  once : l.gone.Nodup ∧ ∀ x ∈ l.gone, x ∈ l.created

theorem Distinct.edge_mem_contents (hd : t.Distinct) {global : GlobalEdge} :
    .edge global ∈ t.contents ↔ ∃ c e, global ∈ t.carried c e := by
  have hnode : ∀ {n : Node}, .edge global ∈ n.contents ↔ ∃ z, (z, global) ∈ n.storage.carries := by
    intro n
    simp [Node.contents]
  simp only [contents, Multiset.mem_bind, hnode]
  constructor
  · rintro ⟨n, hn, hz⟩
    obtain ⟨e, he⟩ := Storage.exists_mem_carried hz
    exact ⟨n.id, e, (hd.carried_of_mem hn e).symm ▸ he⟩
  · rintro ⟨c, e, he⟩
    obtain ⟨n, hn, -, he⟩ := exists_node_of_carried he
    obtain ⟨l, hl, hg⟩ := Storage.mem_carried.mp he
    exact ⟨n, hn, l.ends, Storage.mem_carries_of_link? hl hg⟩

theorem Distinct.vertex_mem_contents (hd : t.Distinct) {name : GlobalVertex} :
    .vertex name ∈ t.contents
      ↔ ∃ c v, t.global? c v = some name ∧ t.isClusterVertex c v = false := by
  have hnode : ∀ {n : Node}, .vertex name ∈ n.contents ↔ ∃ v, n.Ordinary v name := by
    intro n
    simp [Node.contents, Node.mem_ordinaries]
  simp only [contents, Multiset.mem_bind, hnode]
  constructor
  · rintro ⟨n, hn, v, hv⟩
    exact ⟨n.id, v, (hd.ordinary_iff hn).mp hv⟩
  · rintro ⟨c, v, hv⟩
    obtain ⟨n, hn, rfl, -⟩ := exists_node_of_global? hv.1
    exact ⟨n, hn, v, (hd.ordinary_iff hn).mpr hv⟩

theorem cluster_mem_contents {c : ClusterId} : .cluster c ∈ t.contents ↔ t.isLive c = true := by
  have hnode : ∀ {n : Node}, .cluster c ∈ n.contents ↔ c = n.id := by
    intro n
    simp [Node.contents]
  simp only [contents, Multiset.mem_bind, hnode]
  rw [isLive_iff, ids, Multiset.mem_map]
  exact exists_congr (fun n => and_congr_right (fun _ => eq_comm))

end Tree

theorem Graph.Audited.accounts {g : Graph} {l : Ledger} (ha : g.Audited l) (hs : g.tree.Sound) :
    g.tree.Accounts l := by
  -- The root and what was created are each there once, so nothing is both kept and gone.
  have hall : (.cluster Tree.rootId ::ₘ (l.created : Multiset Removal)).Nodup :=
    Multiset.nodup_cons.mpr ⟨fun hmem => (ha.known _ hmem).1 rfl, Multiset.coe_nodup.mpr ha.created⟩
  rw [← ha.balance, Multiset.nodup_add] at hall
  obtain ⟨-, hgone, hapart⟩ := hall
  have hwhole : ∀ x, x ∈ g.tree.contents ∨ x ∈ l.gone ↔ x = .cluster g.tree.root ∨ x ∈ l.created := by
    intro x
    rw [hs.root, ← Multiset.mem_coe, ← Multiset.mem_add, ha.balance, Multiset.mem_cons,
      Multiset.mem_coe]
  have hstays : ∀ x, x ∈ g.tree.contents
      ↔ (x = .cluster g.tree.root ∨ x ∈ l.created) ∧ x ∉ l.gone := by
    intro x
    rw [← hwhole]
    constructor
    · exact fun hx => ⟨Or.inl hx, Multiset.disjoint_left.mp hapart hx⟩
    · exact fun hx => hx.1.resolve_right hx.2
  constructor
  case edges =>
    intro global
    rw [← hs.distinct.edge_mem_contents, hstays]
    simp [Ledger.gone]
  case vertices =>
    intro name
    rw [← hs.distinct.vertex_mem_contents, hstays]
    simp [Ledger.gone]
  case clusters =>
    intro c
    rw [← Tree.cluster_mem_contents, hstays]
    simp [Ledger.gone]
  case once =>
    refine ⟨Multiset.coe_nodup.mp hgone, fun x hx => ?_⟩
    refine ((hwhole x).mp (Or.inr hx)).resolve_left (fun hroot => ?_)
    have hlive : x ∈ g.tree.contents := by
      rw [hroot, Tree.cluster_mem_contents, Tree.isLive_iff]
      exact g.tree.root_mem_ids
    exact Multiset.disjoint_left.mp hapart hlive hx

/-! ## Runs -/

/-- The tree that an operation copies into. -/
def Operation.copiesInto? : Operation → Option Nat
  | .copyInto _ _ target _ _ => some target
  | _ => none

namespace Workspace

variable {w w' : Workspace} {number other : Nat} {g g' : Graph} {l : Ledger}
  {operation : Operation}

/-- The ledger of a tree after an operation.  One that is refused, or is meant
    for another tree, enters nothing. -/
def note (number : Nat) (w : Workspace) (l : Ledger) (operation : Operation) : Ledger :=
  match (w.step operation).2 with
  | .error _ => l
  | .ok reply =>
      match operation.command? w.serial, w.graph? number with
      | some (target, command), some g =>
          if target = number then l.append (command.entry g.tree reply) else l
      | _, _ => l

/-- The ledger of a tree after a run. -/
def ledger (number : Nat) : Workspace → Ledger → List Operation → Ledger
  | _, l, [] => l
  | w, l, operation :: rest => ledger number (w.step operation).1 (w.note number l operation) rest

/-- The operation copies nothing into the tree, its source does not go back,
    as it does when it overflows, and a name that is given to a vertex is
    inside the cluster already or was not given before. -/
def Traces (number : Nat) (w : Workspace) (l : Ledger) (operation : Operation) : Prop :=
  operation.copiesInto? ≠ some number
    ∧ (∀ g ∈ w.graph? number, ∀ g' ∈ (w.step operation).1.graph? number, g.ids.count ≤ g'.ids.count)
    ∧ ∀ place ∈ operation.naming?, place.1 = number → ∀ g ∈ w.graph? number,
        g.tree.vertexOwner? place.2.1 place.2.2 ≠ none ∨ .vertex place.2.2 ∉ l.created

/-- All operations of a run do so. -/
def Traceable (number : Nat) : Workspace → Ledger → List Operation → Prop
  | _, _, [] => True
  | w, l, operation :: rest =>
      w.Traces number l operation
        ∧ Traceable number (w.step operation).1 (w.note number l operation) rest

instance (number : Nat) (w : Workspace) (l : Ledger) (operation : Operation) :
    Decidable (w.Traces number l operation) :=
  inferInstanceAs (Decidable (_ ∧ _ ∧ _))

instance decidableTraceable (number : Nat) : (w : Workspace) → (l : Ledger) →
    (operations : List Operation) → Decidable (Traceable number w l operations)
  | _, _, [] => isTrue trivial
  | w, l, operation :: rest =>
      have := decidableTraceable number (w.step operation).1 (w.note number l operation) rest
      inferInstanceAs (Decidable (_ ∧ _))

/-- A new tree has nothing in it but its root. -/
theorem audited_newGraph (hw : w.Sound) {config : ConfigOrigin} {ids : IdOrigin}
    (hnew : w.step (.newGraph config ids) = (w', .ok (.graph number))) :
    ∃ g, w'.graph? number = some g ∧ g.Audited .empty := by
  rw [step] at hnew
  cases h : w.newGraph config ids with
  | error e =>
    rw [h] at hnew
    cases (Prod.mk.inj hnew).2
  | ok result =>
    rw [h] at hnew
    obtain ⟨rfl, hreply⟩ := Prod.mk.inj hnew
    obtain ⟨config, -, hnumber, hadd⟩ := of_newGraph h
    rw [Except.ok.inj hreply] at hnumber
    obtain rfl := Reply.graph.inj hnumber
    rcases hadd with ⟨m, hm, heq⟩ | ⟨count, heq⟩
    · rw [heq]
      exact ⟨_, graph?_addMember_self (List.getElem?_eq_getElem (hw.sources m hm)) _,
        Graph.audited_new config _⟩
    · rw [heq]
      exact ⟨_, graph?_addGraph_self w _, Graph.audited_new config _⟩

/-- One operation keeps the balance. -/
theorem audited_step (hw : w.Sound) (hg : w.graph? number = some g) (ha : g.Audited l)
    (ht : w.Traces number l operation) :
    ∃ g', (w.step operation).1.graph? number = some g' ∧ g'.Audited (w.note number l operation) := by
  obtain ⟨hcopies, hforward, hname⟩ := ht
  have hstep := step_outcome hw operation
  rw [note]
  generalize w.step operation = out at hstep hforward ⊢
  obtain ⟨w', result⟩ := out
  cases hstep with
  | refused serial e => exact ⟨g, hg, ha⟩
  | idle serial hop =>
    -- A command that found no tree was not meant for this one.
    dsimp only
    split
    · rename_i target command k hcommand hk
      have hne : target ≠ number := by
        rintro rfl
        have hnone := hop _ hcommand
        rw [hk] at hnone
        exact nomatch hnone
      rw [if_neg hne]
      exact ⟨g, hg, ha⟩
    · exact ⟨g, hg, ha⟩
  | @command _ target serial command k k' reply hop hk hp =>
    dsimp only
    rw [hop, hg]
    dsimp only
    by_cases htarget : target = number
    · subst htarget
      obtain rfl := Option.some.inj (hg.symm.trans hk)
      have hput : (w.put target k').graph? target = some k' := graph?_put hg k'
      rw [if_pos rfl]
      refine ⟨k', hput, ha.perform (hw.tree hg) (hforward g hg k' hput) (fun c name hc => ?_) hp⟩
      subst hc
      exact hname _ (Operation.naming?_of_command? hop) rfl g hg
    · rw [if_neg htarget]
      obtain ⟨ids, hput⟩ := graph?_put_of_ne htarget hg k'
      exact ⟨_, hput, ha.mono rfl (hforward g hg _ hput)⟩
  | @copy _ target serial c into cloner source k k' hs hk hcopy =>
    have hne : target ≠ number := fun heq => hcopies (congrArg some heq)
    obtain ⟨ids, hput⟩ := graph?_put_of_ne hne hg k'
    exact ⟨_, hput, ha.mono rfl (hforward g hg _ hput)⟩
  | new hnew =>
    obtain ⟨config, -, -, ⟨m, -, rfl⟩ | ⟨count, rfl⟩⟩ := of_newGraph hnew
    · exact ⟨g, graph?_addMember hg .., ha⟩
    · exact ⟨g, graph?_addGraph hg _, ha⟩
  | @duplicate _ serial cloner k k' hk hcopy =>
    have hg' : ({ w with serial := serial } : Workspace).graph? number = some g := hg
    exact ⟨g, graph?_addGraph hg' _, ha⟩

/-- So does a run. -/
theorem audited_run (hw : w.Sound) (hg : w.graph? number = some g) (ha : g.Audited l)
    {operations : List Operation} (ht : w.Traceable number l operations) :
    ∃ g', (w.run operations).graph? number = some g' ∧ g'.Audited (w.ledger number l operations) := by
  induction operations generalizing w g l with
  | nil => exact ⟨g, hg, ha⟩
  | cons operation rest ih =>
    obtain ⟨hone, hrest⟩ := ht
    obtain ⟨g', hg', ha'⟩ := audited_step hw hg ha hone
    exact ih (hw.becomes_step operation).sound hg' ha' hrest

/-- **NOTHING IS LOST IN SILENCE**: a tree that is created empty, in whatever
    workspace, is at any later time what its ledger says.  In it are the
    global edges, the ordinary vertices and the clusters that were created
    and neither reported as removed nor removed by the caller.  Nothing goes
    twice. -/
theorem accounts_run (before : List Operation) {config : ConfigOrigin} {ids : IdOrigin}
    (hnew : (empty.run before).step (.newGraph config ids) = (w, .ok (.graph number)))
    {operations : List Operation} (h : w.Traceable number .empty operations) :
    ∃ m, (w.run operations).members[number]? = some m
      ∧ m.tree.Accounts (w.ledger number .empty operations) := by
  have hbefore := sound_run before
  have hw : w.Sound := by
    have hstep := (hbefore.becomes_step (.newGraph config ids)).sound
    rwa [hnew] at hstep
  obtain ⟨g, hg, ha⟩ := audited_newGraph hbefore hnew
  obtain ⟨g', hg', ha'⟩ := audited_run hw hg ha h
  obtain ⟨m, ids', hm, -, rfl⟩ := graph?_eq_some.mp hg'
  exact ⟨m, hm, ha'.accounts ((hw.becomes_run operations).sound.tree hg')⟩

/-- An edge goes into a child with the vertex that moves there, and one that
    was removed by name is not in the tree. -/
theorem accounts_moveIn :
    let before := [Operation.newGraph (.declared []) .fresh, .change 0 (.addVertex Tree.rootId)]
    let w := ((empty.run before).step (.newGraph (.sharedWith 0) (.sharedWith 0))).1
    let operations := [Operation.change 1 (.addCluster Tree.rootId),
      .change 1 (.addVertex Tree.rootId), .change 1 (.addVertexNamed ⟨1⟩ ⟨40⟩),
      .change 1 (.connect Tree.rootId ⟨13⟩ ⟨40⟩), .change 0 (.addVertex Tree.rootId),
      .change 1 (.addVertex ⟨1⟩), .change 1 (.connect Tree.rootId ⟨13⟩ ⟨43⟩),
      .change 1 (.connect ⟨1⟩ ⟨43⟩ ⟨40⟩), .change 1 (.removeGlobalEdge Tree.rootId ⟨⟨13⟩, ⟨43⟩, 44⟩),
      .change 1 (.moveIn Tree.rootId ⟨1, 0⟩ ⟨1⟩), .change 1 (.removeGlobalVertex Tree.rootId ⟨43⟩),
      .change 1 (.addVertexNamed Tree.rootId ⟨40⟩)]
    w.Traceable 1 .empty operations
      ∧ w.ledger 1 .empty operations = ⟨[.cluster ⟨1⟩, .vertex ⟨13⟩, .vertex ⟨40⟩,
          .edge ⟨⟨13⟩, ⟨40⟩, 41⟩, .vertex ⟨43⟩, .edge ⟨⟨13⟩, ⟨43⟩, 44⟩, .edge ⟨⟨43⟩, ⟨40⟩, 45⟩],
          [.edge ⟨⟨43⟩, ⟨40⟩, 45⟩], [⟨43⟩], [⟨⟨13⟩, ⟨43⟩, 44⟩]⟩
      ∧ ∃ m, (w.run operations).members[1]? = some m
        ∧ (∃ c e, ⟨⟨13⟩, ⟨40⟩, 41⟩ ∈ m.tree.carried c e)
        ∧ ¬ ∃ c e, ⟨⟨13⟩, ⟨43⟩, 44⟩ ∈ m.tree.carried c e := by
  intro before w operations
  have hnew : (empty.run before).step (.newGraph (.sharedWith 0) (.sharedWith 0))
      = (w, .ok (.graph 1)) := rfl
  have h : w.Traceable 1 .empty operations := by decide +kernel
  have hledger : w.ledger 1 .empty operations = ⟨[.cluster ⟨1⟩, .vertex ⟨13⟩, .vertex ⟨40⟩,
      .edge ⟨⟨13⟩, ⟨40⟩, 41⟩, .vertex ⟨43⟩, .edge ⟨⟨13⟩, ⟨43⟩, 44⟩, .edge ⟨⟨43⟩, ⟨40⟩, 45⟩],
      [.edge ⟨⟨43⟩, ⟨40⟩, 45⟩], [⟨43⟩], [⟨⟨13⟩, ⟨43⟩, 44⟩]⟩ := by decide +kernel
  obtain ⟨m, hm, ha⟩ := accounts_run before hnew h
  rw [hledger] at ha
  refine ⟨h, hledger, m, hm, (ha.edges _).mpr (by decide), fun hin => ?_⟩
  exact absurd ((ha.edges _).mp hin) (by decide)

end Workspace

end NestedGraph
