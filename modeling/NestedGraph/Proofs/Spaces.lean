import NestedGraph.Arena.Space
import NestedGraph.Proofs.Replicating
import NestedGraph.Proofs.Runs
import NestedGraph.Proofs.Shifting
import Mathlib.Data.List.Forall2

/-! # Spaces — arenas that follow trees

    A command ends on an arena as it ends on the tree that the arena lays
    out.  So a space that lays out a workspace does so after any number of
    operations, with the same answers, unless a tree of the workspace
    needs more numbers for its clusters than there are. -/

namespace NestedGraph

namespace Job

variable {d : Desk} {s : Session}

/-! ## Commands -/

theorem renumber_performs (hm : d.Matches s) (hs : s.graph.tree.Sound) (c : ClusterId) :
    Performs (renumber c) (Act.renumber c) d s := by
  cases hc : s.graph.tree.require c with
  | error e =>
      have hcell := cell_run hm.arena c
      rw [hc] at hcell
      exact .of_error (bind_of_error hcell) (Act.bind_of_error (Act.look_of_error hc))
  | ok b =>
      have hb := Tree.of_require hc
      refine .of_follows ?_ (Act.renumber_run hs hb)
      rw [renumber, Act.renumber]
      refine Follows.after_look (fun b' hb' => ?_)
      refine Follows.after_read (cell_of_find? hm.arena (Tree.of_require hb')) ?_
      exact (numberVertices_follows _ hm c 0).bind (fun _ _ d s h => numberEdges_follows _ h.2 c 0)

/-- What changes the tree and tells nothing. -/
theorem Performs.of_settled {x : Job Unit} {r : Except Error Tree} (hm : d.Matches s)
    (h : Meets x d (s.graph.settled <$> r)) (reply : Reply) (hreply : reply.removals = [])
    {command : Command}
    (hr : s.graph.perform command = (fun t => ({ s.graph with tree := t }, reply)) <$> r) :
    Performs ((fun _ => reply) <$> x) (Act.atOnce (fun g => g.perform command)) d s := by
  refine .of_meets hm h (fun _ => reply) (fun _ => hreply) (hr.trans ?_)
  cases r <;> rfl

/-- On an arena every command ends as it ends on the tree. -/
theorem carryOut_performs (hm : d.Matches s) (hs : s.graph.tree.Sound) (command : Command) :
    Performs (carryOut command) (Act.carryOut command) d s := by
  have hl := hm.arena
  have hids := hm.ids
  cases command with
  | drawId =>
      refine Or.inr ⟨{ d with ids := d.ids.advance }, ?_, hm.arena, congrArg IdSource.advance hids,
        hm.serial, hm.reported.trans (List.append_nil _).symm⟩
      show Except.ok (Except.ok (Reply.id d.ids.next), _) = _
      rw [hids]
  | raiseIds count =>
      exact Or.inr ⟨{ d with ids := d.ids.raise count }, rfl, hm.arena,
        congrArg (fun ids => ids.raise count) hids, hm.serial,
        hm.reported.trans (List.append_nil _).symm⟩
  | setChanged c => exact .of_settled hm (setChanged_meets hl hids c) .done rfl rfl
  | clearChanged c =>
      exact .of_settled hm (setClusterProperty_meets hl hids changedFlag c (.flag false)) .done rfl rfl
  | setCopyMode c on => exact .of_settled hm (setCopyMode_meets hl hids c on) .done rfl rfl
  | addCluster c => exact (addCluster_performs hm hs c).map _
  | removeCluster c child => exact (removeCluster_clears hs hl c child).performs hm rfl
  | removeClusterOn c v => exact (removeClusterOn_clears hs hl c v).performs hm rfl
  | removeClusters c => exact (removeClusters_clears hs hl c).performs hm rfl
  | addVertex c => exact (addVertex_performs hm c).map _
  | addVertexNamed c global =>
      exact .of_meets hm (addVertexNamed_meets hl hids hs c global) _ (fun _ => rfl) rfl
  | addEdge c v w => exact (addEdge_performs hm c v w).map _
  | connect c source target => exact (connect_performs hm hs c source target).map _
  | removeVertex c v => exact (removeVertex_clears hs hl c v).performs hm rfl
  | removeGlobalVertex c global => exact (removeGlobalVertex_clears hs hl c global).performs hm rfl
  | removeEdge c e => exact (removeEdge_clears hl c e).performs hm rfl
  | removeGlobalEdge c global =>
      exact .of_settled hm (removeGlobalEdge_meets hs hl hids c global) .done rfl rfl
  | moveIn c v child => exact (moveIn_performs hm hs c v child).map _
  | moveInOn c v place => exact (moveInOn_performs hm hs c v place).map _
  | moveOut c v => exact (moveOut_performs hm hs c v).map _
  | setProperty type c key value =>
      exact .of_settled hm (setProperty_meets hl hids hs type c key value) .done rfl rfl
  | setClusterProperty type c value =>
      exact .of_settled hm (setClusterProperty_meets hl hids type c value) .done rfl rfl
  | setSubclusterProperty type c v value =>
      exact .of_settled hm (setSubclusterProperty_meets hl hids type c v value) .done rfl rfl
  | setObject c key object =>
      exact .of_settled hm (writeObject_meets hl hids hs object.type c key (some object))
        (.serial object.serial) rfl rfl
  | clearObject type c key =>
      exact .of_settled hm (writeObject_meets hl hids hs type c key none) .done rfl rfl
  | renumber c => exact (renumber_performs hm hs c).map _

end Job

/-- A tenant has the arena that lays out the tree of a member, and draws from the
    same source. -/
structure Tenant.Lays (x : Tenant) (m : Member) : Prop where
  arena : x.arena.Lays m.tree
  source : x.source = m.source

/-- A space has an arena for every tree of a workspace, under its number, and all
    else is the same. -/
structure Space.Lays (e : Space) (w : Workspace) : Prop where
  tenants : List.Forall₂ Tenant.Lays e.tenants w.members
  sources : e.sources = w.sources
  serial : e.serial = w.serial
  reported : e.reported = w.reported

/-- A tree of the workspace needs more numbers for its clusters than there are. -/
def Workspace.Exhausted (w : Workspace) : Prop := ∃ m ∈ w.members, 2 ^ 64 ≤ m.tree.nextClusterId

theorem Workspace.Exhausted.run {w : Workspace} (h : w.Exhausted) (hw : w.Sound)
    (operations : List Operation) : (w.run operations).Exhausted := by
  obtain ⟨m, hm, hnext⟩ := h
  obtain ⟨number, hnumber⟩ := List.mem_iff_getElem?.mp hm
  obtain ⟨m', hm', -, hb⟩ := (hw.becomes_run operations).members number m hnumber
  exact ⟨m', List.mem_of_getElem? hm', hnext.trans hb.next⟩

namespace Space

variable {e : Space} {w : Workspace} {number : Nat}

/-- The same space, but for the number of objects that were made. -/
structure Keeps (e e' : Space) : Prop where
  tenants : e'.tenants = e.tenants
  sources : e'.sources = e.sources
  reported : e'.reported = e.reported

/-- What an operation on arenas comes to is what one on trees comes to, unless the
    numbers run out; and if it fails all is as it was. -/
def Meets (e : Space) (result : Except Halt (Space × Except Error Reply))
    (expected : Workspace × Except Error Reply) : Prop :=
  (result = .error .overflow ∧ expected.1.Exhausted)
    ∨ ∃ e', result = .ok (e', expected.2) ∧ e'.Lays expected.1
      ∧ ((∃ error, expected.2 = .error error) → e.Keeps e')

theorem Meets.of_ok {e e' : Space} {w : Workspace} {reply : Reply} (h : e'.Lays w) :
    Meets e (.ok (e', .ok reply)) (w, .ok reply) :=
  Or.inr ⟨e', rfl, h, fun ⟨_, herror⟩ => nomatch herror⟩

theorem Meets.of_same {e : Space} {w : Workspace} (h : e.Lays w) (result : Except Error Reply) :
    Meets e (.ok (e, result)) (w, result) :=
  Or.inr ⟨e, rfl, h, fun _ => ⟨rfl, rfl, rfl⟩⟩

theorem Meets.of_added {e : Space} {p : Space × Reply} {q : Workspace × Reply}
    (h : p.1.Lays q.1 ∧ p.2 = q.2) : Meets e (.ok (p.1, .ok p.2)) (q.1, .ok q.2) := by
  rw [h.2]
  exact .of_ok h.1

theorem Meets.of_keeps {e e' : Space} {result : Except Halt (Space × Except Error Reply)}
    {expected : Workspace × Except Error Reply} (h : e.Keeps e') (hm : Meets e' result expected) :
    Meets e result expected := by
  rcases hm with hover | ⟨e'', hresult, hl, hkeeps⟩
  · exact Or.inl hover
  · refine Or.inr ⟨e'', hresult, hl, fun herror => ?_⟩
    obtain ⟨ht, hs, hr⟩ := hkeeps herror
    exact ⟨ht.trans h.tenants, hs.trans h.sources, hr.trans h.reported⟩

/-- What was taken onto a desk and put back as it was is as it was. -/
theorem keeps_put {e : Space} {number : Nat} {d : Desk} (h : e.desk? number = some d) :
    e.Keeps (e.put number d) := by
  obtain ⟨x, hx, h⟩ := Option.bind_eq_some_iff.mp h
  obtain ⟨ids, hids, h⟩ := Option.bind_eq_some_iff.mp h
  obtain rfl := Option.some.inj h
  rw [put]
  simp only [hx]
  refine ⟨?_, ?_, rfl⟩
  · obtain ⟨hlt, rfl⟩ := List.getElem?_eq_some_iff.mp hx
    exact List.set_getElem_self hlt
  · obtain ⟨hlt, rfl⟩ := List.getElem?_eq_some_iff.mp hids
    exact List.set_getElem_self hlt

theorem lays_empty : empty.Lays Workspace.empty := ⟨.nil, rfl, rfl, rfl⟩

namespace Lays

/-! ## Tenants and members -/

theorem tenant? (h : e.Lays w) (number : Nat) :
    (e.tenants[number]? = none ∧ w.members[number]? = none)
      ∨ ∃ x m, e.tenants[number]? = some x ∧ w.members[number]? = some m ∧ x.Lays m := by
  obtain ⟨hlen, hall⟩ := List.forall₂_iff_get.mp h.tenants
  by_cases hn : number < e.tenants.length
  · exact Or.inr ⟨_, _, List.getElem?_eq_getElem hn, List.getElem?_eq_getElem (hlen ▸ hn),
      hall number hn (hlen ▸ hn)⟩
  · exact Or.inl ⟨List.getElem?_eq_none (Nat.le_of_not_lt hn),
      List.getElem?_eq_none (hlen ▸ Nat.le_of_not_lt hn)⟩

theorem exists_member (h : e.Lays w) {x : Tenant} (hx : e.tenants[number]? = some x) :
    ∃ m, w.members[number]? = some m ∧ x.Lays m := by
  rcases h.tenant? number with ⟨hnone, -⟩ | ⟨x', m, hx', hm, hl⟩
  · exact nomatch hnone.symm.trans hx
  · obtain rfl := Option.some.inj (hx.symm.trans hx')
    exact ⟨m, hm, hl⟩

/-- A desk is what a session on the same number works on. -/
theorem desk? (h : e.Lays w) (number : Nat) :
    (e.desk? number = none ∧ w.graph? number = none)
      ∨ ∃ d g, e.desk? number = some d ∧ w.graph? number = some g ∧ d.Matches (w.session g) := by
  rw [Space.desk?, Workspace.graph?, h.sources]
  rcases h.tenant? number with ⟨hx, hm⟩ | ⟨x, m, hx, hm, hl⟩
  · exact Or.inl ⟨by rw [hx]; rfl, by rw [hm]; rfl⟩
  · simp only [hx, hm, hl.source, Option.bind_eq_bind, Option.bind_some]
    cases w.sources[m.source]? with
    | none => exact Or.inl ⟨rfl, rfl⟩
    | some ids => exact Or.inr ⟨_, _, rfl, rfl, ⟨hl.arena, rfl, h.serial, h.reported⟩⟩

theorem set {xs : List Tenant} {ms : List Member} (h : List.Forall₂ Tenant.Lays xs ms) {x : Tenant}
    {m : Member} (hl : x.Lays m) (number : Nat) :
    List.Forall₂ Tenant.Lays (xs.set number x) (ms.set number m) := by
  induction h generalizing number with
  | nil => exact .nil
  | cons hfirst hrest ih =>
      cases number with
      | zero => exact .cons hl hrest
      | succ number => exact .cons hfirst (ih number)

/-- What was worked on goes back under its number. -/
theorem put (h : e.Lays w) {d : Desk} {s : Session} (hm : d.Matches s) (number : Nat) :
    (e.put number d).Lays
      { w.put number s.graph with serial := s.serial, reported := s.reported } := by
  rw [Space.put, Workspace.put]
  rcases h.tenant? number with ⟨hx, hm'⟩ | ⟨x, m, hx, hm', hl⟩
  · simp only [hx, hm']
    exact ⟨h.tenants, h.sources, hm.serial, hm.reported⟩
  · simp only [hx, hm']
    have hnew : Tenant.Lays { x with arena := d.arena } { m with tree := s.graph.tree } :=
      ⟨hm.arena, hl.source⟩
    refine ⟨set h.tenants hnew number, ?_, hm.serial, hm.reported⟩
    show e.sources.set x.source d.ids = w.sources.set m.source s.graph.ids
    rw [h.sources, hl.source, hm.ids]

/-! ## New arenas -/

theorem addTenant (h : e.Lays w) {a : Arena} {t : Tree} (hl : a.Lays t) (source : Nat) :
    (e.addTenant a source).1.Lays (w.addMember t source).1
      ∧ (e.addTenant a source).2 = (w.addMember t source).2 :=
  ⟨⟨List.rel_append h.tenants (.cons ⟨hl, rfl⟩ .nil), h.sources, h.serial, h.reported⟩,
    congrArg Reply.graph h.tenants.length_eq⟩

theorem addArena (h : e.Lays w) {a : Arena} {g : Graph} (hl : a.Lays g.tree) :
    (e.addArena a g.ids).1.Lays (w.addGraph g).1 ∧ (e.addArena a g.ids).2 = (w.addGraph g).2 := by
  have hgrown : { e with sources := e.sources ++ [g.ids] }.Lays
      { w with sources := w.sources ++ [g.ids] } :=
    ⟨h.tenants, congrArg (· ++ [g.ids]) h.sources, h.serial, h.reported⟩
  have hlen : e.sources.length = w.sources.length := congrArg List.length h.sources
  rw [Space.addArena, Workspace.addGraph, hlen]
  exact hgrown.addTenant hl w.sources.length

theorem configFrom (h : e.Lays w) (origin : ConfigOrigin) :
    e.configFrom origin = w.configFrom origin := by
  cases origin with
  | declared declarations => rfl
  | sharedWith number =>
      rw [Space.configFrom, Workspace.configFrom]
      rcases h.tenant? number with ⟨hx, hm⟩ | ⟨x, m, hx, hm, hl⟩
      · rw [hx, hm]
      · rw [hx, hm]
        exact congrArg Except.ok hl.arena.config

/-! ## Operations -/

theorem within (h : e.Lays w) {x : Job Reply} {y : Act Reply}
    (hp : ∀ (d : Desk) g, w.graph? number = some g → d.Matches (w.session g) →
      Job.Performs x y d (w.session g)) : Meets e (e.within number x) (w.within number y) := by
  rw [Space.within, Workspace.within]
  rcases h.desk? number with ⟨hd, hg⟩ | ⟨d, g, hd, hg, hm⟩
  · rw [hd, hg]
    exact .of_same h _
  · have hperforms := hp d g hg hm
    rw [Job.Performs] at hperforms
    rw [hd, hg]
    dsimp only
    rcases hy : y (w.session g) with ⟨error | reply, s⟩
    · rw [hy] at hperforms
      -- A job that fails leaves its desk alone, so what goes back is what was taken.
      obtain ⟨hx, rfl⟩ := hperforms
      rw [hx]
      exact Or.inr ⟨_, rfl, h.put hm number, fun _ => keeps_put hd⟩
    · rw [hy] at hperforms
      rcases hperforms with ⟨hover, hnext⟩ | ⟨d', hx, hm'⟩
      · rw [hover]
        obtain ⟨m, ids, hm, -, -⟩ := Workspace.graph?_eq_some.mp hg
        refine Or.inl ⟨rfl, { m with tree := s.graph.tree }, ?_, hnext⟩
        show _ ∈ (w.put number s.graph).members
        rw [Workspace.put_of_member hm]
        exact List.mem_of_getElem? (List.getElem?_set_self (List.getElem?_eq_some_iff.mp hm).1)
      · rw [hx]
        exact .of_ok (h.put hm' number)

theorem grow (h : e.Lays w) {a : Arena} {g : Graph} (hl : a.Lays g.tree) {x : Job Unit} {y : Act Unit}
    (hp : ∀ d : Desk, d.Matches (w.session g) → Job.Performs x y d (w.session g)) :
    Meets e (e.grow a g.ids x) (w.grow g y) := by
  have hm : Desk.Matches ⟨a, g.ids, e.serial, e.reported⟩ (w.session g) :=
    ⟨hl, rfl, h.serial, h.reported⟩
  have hkept : ∀ {d : Desk} {s : Session}, d.Matches s →
      Space.Lays { e with serial := d.serial, reported := d.reported }
        { w with serial := s.serial, reported := s.reported } := fun hm =>
    ⟨h.tenants, h.sources, hm.serial, hm.reported⟩
  have hperforms := hp _ hm
  rw [Job.Performs] at hperforms
  rw [Space.grow, Workspace.grow]
  rcases hy : y (w.session g) with ⟨error | _, s⟩
  · rw [hy] at hperforms
    obtain ⟨hx, rfl⟩ := hperforms
    rw [hx]
    exact Or.inr ⟨_, rfl, hkept hm, fun _ => ⟨rfl, rfl, rfl⟩⟩
  · rw [hy] at hperforms
    rcases hperforms with ⟨hover, hnext⟩ | ⟨d, hx, hm'⟩
    · rw [hover]
      exact Or.inl ⟨rfl, _, List.mem_append_right _ (List.mem_singleton.mpr rfl), hnext⟩
    · have hnew := (hkept hm').addArena (g := s.graph) hm'.arena
      rw [← hm'.ids] at hnew
      rw [hx]
      exact .of_added hnew

theorem newArena (h : e.Lays w) (config : ConfigOrigin) (ids : IdOrigin) :
    Meets e (e.step (.newGraph config ids)) (w.step (.newGraph config ids)) := by
  rw [Space.step, Workspace.step, Space.newArena, Workspace.newGraph, h.configFrom config]
  cases w.configFrom config with
  | error error => exact .of_same h _
  | ok config =>
      have hl := Arena.lays_new config
      have hown : ∀ source : IdSource,
          Meets e (.ok ((e.addArena (.new config) source).1, .ok (e.addArena (.new config) source).2))
            ((w.addGraph (.new config source)).1, .ok (w.addGraph (.new config source)).2) :=
        fun source => by
          have hnew := h.addArena (g := .new config source) hl
          exact .of_added hnew
      cases ids with
      | startingAt count => exact hown (.startingAt count)
      | fresh => exact hown .fresh
      | sharedWith number =>
          rcases h.tenant? number with ⟨hx, hm⟩ | ⟨x, m, hx, hm, hx'⟩
          · simp only [hx, hm, bind, Except.bind]
            exact hown .fresh
          · simp only [hx, hm, bind, Except.bind, hx'.source]
            have hnew := h.addTenant hl m.source
            exact .of_added hnew

/-- **ONE OPERATION** on arenas that lay out trees comes to what it comes to on the
    trees, and the arenas lay out what becomes of them. -/
theorem step (h : e.Lays w) (hw : w.Sound) (operation : Operation) :
    Meets e (e.step operation) (w.step operation) := by
  cases operation with
  | newGraph config ids => exact h.newArena config ids
  | duplicate number cloner =>
      rw [Space.step, Workspace.step]
      rcases h.desk? number with ⟨hd, hg⟩ | ⟨d, g, hd, hg, hm⟩
      · rw [hd, hg]
        exact .of_same h _
      · rw [hd, hg]
        dsimp only
        have hroot : d.arena.root = g.tree.root := hm.arena.root
        have hconfig : d.arena.config = g.tree.config := hm.arena.config
        have hids : d.ids = g.ids := hm.ids
        rw [hroot, hconfig, hids]
        have hnew := Tree.sound_new (hw.tree hg).complete
        exact h.grow (g := .new g.tree.config (.startingAt g.ids.count)) (Arena.lays_new _)
          (fun d' hm' => Job.copyInto_performs cloner hm.arena (hw.tree hg) hm' hnew _ _)
  | copyInto number c target into cloner =>
      rw [Space.step, Workspace.step]
      rcases h.desk? number with ⟨hd, hg⟩ | ⟨d, g, hd, hg, hm⟩
      · rw [hd, hg]
        exact .of_same h _
      · rw [hd, hg]
        dsimp only
        have hids : d.ids = g.ids := hm.ids
        rw [hids]
        exact h.within (fun d' g' hg' hm' =>
          (Job.copyInto_performs cloner hm.arena (hw.tree hg) hm' (hw.tree hg') c into).map _)
  | placeObject number c key type content =>
      have hcounted : Space.Lays { e with serial := e.serial + 1 } { w with serial := w.serial + 1 } :=
        ⟨h.tenants, h.sources, congrArg (· + 1) h.serial, h.reported⟩
      rw [h.serial] at hcounted
      rw [Space.step, Workspace.step, h.serial]
      have hkeeps : e.Keeps { e with serial := w.serial + 1 } := ⟨rfl, rfl, rfl⟩
      exact .of_keeps hkeeps
        (hcounted.within (fun d g hg hm => Job.carryOut_performs hm (hw.tree hg) _))
  | change number command =>
      exact h.within (fun d g hg hm => Job.carryOut_performs hm (hw.tree hg) command)

/-- **RUNS** of arenas come to arenas that lay out the trees that the run comes to,
    unless the numbers run out. -/
theorem run (h : e.Lays w) (hw : w.Sound) (operations : List Operation) :
    (e.run operations = .error .overflow ∧ (w.run operations).Exhausted)
      ∨ ∃ e', e.run operations = .ok e' ∧ e'.Lays (w.run operations) := by
  induction operations generalizing e w with
  | nil => exact Or.inr ⟨e, rfl, h⟩
  | cons operation rest ih =>
      have hsound := (hw.becomes_step operation).sound
      rcases h.step hw operation with ⟨hover, hfull⟩ | ⟨e', hstep, hl, -⟩
      · refine Or.inl ⟨?_, hfull.run hsound rest⟩
        rw [Space.run, hover]
        rfl
      · rcases ih hl hsound with ⟨hover, hfull⟩ | ⟨e'', hrun, hl'⟩
        · refine Or.inl ⟨?_, hfull⟩
          rw [Space.run, hstep]
          exact hover
        · refine Or.inr ⟨e'', ?_, hl'⟩
          rw [Space.run, hstep]
          exact hrun

end Lays

/-- What a run of arenas comes to lays out what the run of trees comes to. -/
theorem lays_run {operations : List Operation} (h : empty.run operations = .ok e) :
    e.Lays (Workspace.empty.run operations) := by
  rcases lays_empty.run Workspace.sound_empty operations with ⟨hover, -⟩ | ⟨e', hrun, hl⟩
  · exact nomatch hover.symm.trans h
  · exact Except.ok.inj (h.symm.trans hrun) ▸ hl

/-- An operation on arenas that fails leaves every arena and every source as it
    was, though nothing is rolled back. -/
theorem keeps_of_step_error {operations : List Operation} (h : empty.run operations = .ok e)
    {operation : Operation} {e' : Space} {error : Error}
    (hstep : e.step operation = .ok (e', .error error)) : e.Keeps e' := by
  rcases (lays_run h).step (Workspace.sound_run operations) operation with ⟨hover, -⟩ | ⟨e'', hok, -, hk⟩
  · exact nomatch hover.symm.trans hstep
  · obtain ⟨rfl, hresult⟩ := Prod.mk.inj (Except.ok.inj (hok.symm.trans hstep))
    exact hk ⟨error, hresult⟩

/-- An arena that a run comes to, by what is read off it. -/
theorem exists_tenant {α : Type} {result : Except Halt Space} {number : Nat} {f : Tenant → α} {a : α}
    (h : (result.toOption.bind (fun e => e.tenants[number]?)).map f = some a) :
    ∃ e x, result = .ok e ∧ e.tenants[number]? = some x ∧ f x = a := by
  obtain ⟨x, hbind, hf⟩ := Option.map_eq_some_iff.mp h
  obtain ⟨e, he, hx⟩ := Option.bind_eq_some_iff.mp hbind
  cases result with
  | error halt => exact nomatch he
  | ok e' => exact ⟨e, x, congrArg Except.ok (Option.some.inj he), hx, hf⟩

end Space

end NestedGraph
