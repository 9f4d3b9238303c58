import NestedGraph.Proofs.StepwiseCopy
import NestedGraph.Workspace

/-! # Steps — what an operation does to a workspace

    On sound trees an operation is carried out as a whole or REFUSED.  An
    operation that is not refused changes one graph by a command or by a
    copy, or adds a graph.  Every later fact about runs is read off this
    list of outcomes. -/

namespace NestedGraph

namespace Workspace

/-- All trees are sound, and each draws from a source that there is. -/
structure Sound (w : Workspace) : Prop where
  trees : ∀ m ∈ w.members, m.tree.Sound
  sources : ∀ m ∈ w.members, m.source < w.sources.length

theorem sound_empty : empty.Sound :=
  ⟨fun _ hm => absurd hm List.not_mem_nil, fun _ hm => absurd hm List.not_mem_nil⟩

variable {w : Workspace} {number : Nat} {m : Member} {g : Graph}

/-! ## Members -/

theorem graph?_eq_some : w.graph? number = some g
    ↔ ∃ m ids, w.members[number]? = some m ∧ w.sources[m.source]? = some ids
      ∧ g = ⟨m.tree, ids⟩ := by
  constructor
  · intro h
    obtain ⟨m, hm, h⟩ := Option.bind_eq_some_iff.mp h
    obtain ⟨ids, hids, h⟩ := Option.bind_eq_some_iff.mp h
    exact ⟨m, ids, hm, hids, (Option.some.inj h).symm⟩
  · rintro ⟨m, ids, hm, hids, rfl⟩
    refine Option.bind_eq_some_iff.mpr ⟨m, hm, ?_⟩
    exact Option.bind_eq_some_iff.mpr ⟨ids, hids, rfl⟩

theorem put_of_member (hm : w.members[number]? = some m) (g : Graph) :
    w.put number g = { w with
      members := w.members.set number { m with tree := g.tree }
      sources := w.sources.set m.source g.ids } := by
  rw [put, hm]

/-- A graph that was put under a number is found there. -/
theorem graph?_put (h : w.graph? number = some g) (g' : Graph) :
    (w.put number g').graph? number = some g' := by
  obtain ⟨m, ids, hm, hids, rfl⟩ := graph?_eq_some.mp h
  rw [put_of_member hm]
  refine graph?_eq_some.mpr ⟨{ m with tree := g'.tree }, g'.ids, ?_, ?_, rfl⟩
  · exact List.getElem?_set_self (List.getElem?_eq_some_iff.mp hm).1
  · exact List.getElem?_set_self (List.getElem?_eq_some_iff.mp hids).1

/-- Of two graphs that are put under one number, the later one stays. -/
theorem put_put (h : w.graph? number = some g) (g' g'' : Graph) :
    (w.put number g').put number g'' = w.put number g'' := by
  obtain ⟨m, ids, hm, -, rfl⟩ := graph?_eq_some.mp h
  have hm' : (w.put number g').members[number]? = some { m with tree := g'.tree } := by
    rw [put_of_member hm]
    exact List.getElem?_set_self (List.getElem?_eq_some_iff.mp hm).1
  rw [put_of_member hm', put_of_member hm, put_of_member hm]
  dsimp only
  rw [List.set_set, List.set_set]

/-- The trees under other numbers are kept, though not what they draw from if
    it is the same source. -/
theorem graph?_put_of_ne {other : Nat} (hne : number ≠ other) (h : w.graph? other = some g)
    (g' : Graph) : ∃ ids, (w.put number g').graph? other = some ⟨g.tree, ids⟩ := by
  cases hm : w.members[number]? with
  | none =>
      rw [put, hm]
      exact ⟨g.ids, h⟩
  | some k =>
      obtain ⟨m, ids, hother, hids, rfl⟩ := graph?_eq_some.mp h
      have hlt : m.source < (w.sources.set k.source g'.ids).length := by
        rw [List.length_set]
        exact (List.getElem?_eq_some_iff.mp hids).1
      rw [put_of_member hm]
      refine ⟨_, graph?_eq_some.mpr ⟨m, _, ?_, List.getElem?_eq_getElem hlt, rfl⟩⟩
      exact (List.getElem?_set_ne hne).trans hother

theorem graph?_addMember (h : w.graph? number = some g) (t : Tree) (source : Nat) :
    (w.addMember t source).1.graph? number = some g := by
  obtain ⟨m, ids, hm, hids, rfl⟩ := graph?_eq_some.mp h
  refine graph?_eq_some.mpr ⟨m, ids, ?_, hids, rfl⟩
  exact (List.getElem?_append_left (List.getElem?_eq_some_iff.mp hm).1).trans hm

theorem graph?_addGraph (h : w.graph? number = some g) (g' : Graph) :
    (w.addGraph g').1.graph? number = some g := by
  obtain ⟨m, ids, hm, hids, rfl⟩ := graph?_eq_some.mp h
  have hids' : (w.sources ++ [g'.ids])[m.source]? = some ids :=
    (List.getElem?_append_left (List.getElem?_eq_some_iff.mp hids).1).trans hids
  have hw : ({ w with sources := w.sources ++ [g'.ids] } : Workspace).graph? number
      = some ⟨m.tree, ids⟩ := graph?_eq_some.mpr ⟨m, ids, hm, hids', rfl⟩
  exact graph?_addMember hw ..

/-- A tree that is added gets the next number. -/
theorem graph?_addMember_self {source : Nat} {ids : IdSource} (hids : w.sources[source]? = some ids)
    (t : Tree) : (w.addMember t source).1.graph? w.members.length = some ⟨t, ids⟩ :=
  graph?_eq_some.mpr ⟨⟨t, source⟩, ids, List.getElem?_concat_length, hids, rfl⟩

theorem graph?_addGraph_self (w : Workspace) (g : Graph) :
    (w.addGraph g).1.graph? w.members.length = some g :=
  graph?_addMember_self (w := { w with sources := w.sources ++ [g.ids] })
    List.getElem?_concat_length g.tree

/-- A graph that is put back as it was changes nothing. -/
theorem put_self (h : w.graph? number = some g) : w.put number g = w := by
  obtain ⟨m, ids, hm, hids, rfl⟩ := graph?_eq_some.mp h
  have hmembers : w.members.set number m = w.members := by
    obtain ⟨hlt, hget⟩ := List.getElem?_eq_some_iff.mp hm
    rw [← hget, List.set_getElem_self]
  have hsources : w.sources.set m.source ids = w.sources := by
    obtain ⟨hlt, hget⟩ := List.getElem?_eq_some_iff.mp hids
    rw [← hget, List.set_getElem_self]
  rw [put_of_member hm]
  show ({ w with members := w.members.set number m, sources := w.sources.set m.source ids }
    : Workspace) = w
  rw [hmembers, hsources]

/-- Every tree has a source to draw from. -/
theorem Sound.exists_graph? (hw : w.Sound) (hm : w.members[number]? = some m) :
    ∃ ids, w.graph? number = some ⟨m.tree, ids⟩ :=
  ⟨_, graph?_eq_some.mpr ⟨m, _, hm,
    List.getElem?_eq_getElem (hw.sources m (List.mem_of_getElem? hm)), rfl⟩⟩

theorem Sound.tree (hw : w.Sound) (h : w.graph? number = some g) : g.tree.Sound := by
  obtain ⟨m, ids, hm, -, rfl⟩ := graph?_eq_some.mp h
  exact hw.trees m (List.mem_of_getElem? hm)

end Workspace

/-- The command that an operation gives to a graph.  An object that is
    placed was made before. -/
def Operation.command? (serial : Nat) : Operation → Option (Nat × Command)
  | .change number command => some (number, command)
  | .placeObject number c key type content =>
      some (number, .setObject c key ⟨type, serial + 1, content⟩)
  | _ => none

namespace Workspace

variable {w : Workspace} {number : Nat} {g : Graph}

/-! ## Outcomes -/

/-- What an operation comes to. -/
inductive Outcome (w : Workspace) : Operation → Workspace → Except Error Reply → Prop where
  /-- Nothing changed but the number of objects that were made. -/
  | refused {operation : Operation} (serial : Nat) (e : Error) :
      Outcome w operation { w with serial := serial } (.error e)
  /-- There is no tree with the number. -/
  | idle {operation : Operation} (serial : Nat)
      (hop : ∀ place ∈ operation.command? w.serial, w.graph? place.1 = none) :
      Outcome w operation { w with serial := serial } (.ok .done)
  | command {operation : Operation} {number serial : Nat} {command : Command} {g g' : Graph}
      {reply : Reply} (hop : operation.command? w.serial = some (number, command))
      (hg : w.graph? number = some g) (h : g.perform command = .ok (g', reply)) :
      Outcome w operation { w.put number g' with
        serial := serial, reported := w.reported ++ reply.removals } (.ok reply)
  | copy {number target serial : Nat} {c into : ClusterId} {cloner : Cloner Nat}
      {source g g' : Graph} (hs : w.graph? number = some source) (hg : w.graph? target = some g)
      (h : source.copyInto c g into cloner w.serial = (.ok g', serial)) :
      Outcome w (.copyInto number c target into cloner)
        { w.put target g' with serial := serial } (.ok .done)
  | new {config : ConfigOrigin} {ids : IdOrigin} {w' : Workspace} {reply : Reply}
      (h : w.newGraph config ids = .ok (w', reply)) : Outcome w (.newGraph config ids) w' (.ok reply)
  | duplicate {number serial : Nat} {cloner : Cloner Nat} {g g' : Graph}
      (hg : w.graph? number = some g) (h : g.duplicate cloner w.serial = (.ok g', serial)) :
      Outcome w (.duplicate number cloner) (({ w with serial := serial }).addGraph g').1
        (.ok (.graph w.members.length))

theorem put_withSerial (w : Workspace) (number : Nat) (g : Graph) (serial : Nat) :
    ({ w with serial := serial } : Workspace).put number g
      = { w.put number g with serial := serial } := by
  rw [put, put]
  cases w.members[number]? <;> rfl

theorem put_withReported (w : Workspace) (number : Nat) (g : Graph) (reported : List Removal) :
    ({ w with reported := reported } : Workspace).put number g
      = { w.put number g with reported := reported } := by
  rw [put, put]
  cases w.members[number]? <;> rfl

theorem within_of_graph (hg : w.graph? number = some g) (act : Act Reply) :
    w.within number act = ({ w.put number (act (w.session g)).2.graph with
        serial := (act (w.session g)).2.serial, reported := (act (w.session g)).2.reported },
      (act (w.session g)).1) := by
  rw [within, hg]
  rfl

@[simp] theorem reported_put (w : Workspace) (number : Nat) (g : Graph) :
    (w.put number g).reported = w.reported := by
  rw [put]
  cases w.members[number]? <;> rfl

@[simp] theorem serial_put (w : Workspace) (number : Nat) (g : Graph) :
    (w.put number g).serial = w.serial := by
  rw [put]
  cases w.members[number]? <;> rfl

/-- A command that succeeds is carried out. -/
theorem step_change (hw : w.Sound) (hg : w.graph? number = some g) {command : Command} {g' : Graph}
    {reply : Reply} (hp : g.perform command = .ok (g', reply)) :
    w.step (.change number command)
      = ({ w.put number g' with reported := w.reported ++ reply.removals }, .ok reply) := by
  have hact := Act.carryOut_eq (s := w.session g) (hw.tree hg) command
  rw [Act.atOnce_of_ok (s := w.session g) hp] at hact
  rw [step, within_of_graph hg, hact]
  show (({ w.put number g' with serial := w.serial, reported := w.reported ++ reply.removals }
    : Workspace), (.ok reply : Except Error Reply)) = _
  rw [show w.serial = (w.put number g').serial from (serial_put ..).symm]

/-- A command changes one graph, or it changes nothing. -/
theorem outcome_within (hw : w.Sound) {operation : Operation} {command : Command} (serial : Nat)
    (hop : operation.command? w.serial = some (number, command)) :
    w.Outcome operation
      (({ w with serial := serial } : Workspace).within number (Act.carryOut command)).1
      (({ w with serial := serial } : Workspace).within number (Act.carryOut command)).2 := by
  let w' : Workspace := { w with serial := serial }
  cases hg : w.graph? number with
  | none =>
      have hrun : w'.within number (Act.carryOut command) = (w', .ok .done) := by
        rw [within, show w'.graph? number = none from hg]
      show w.Outcome operation (w'.within number _).1 (w'.within number _).2
      rw [hrun]
      refine .idle serial (fun place hplace => ?_)
      rw [hop] at hplace
      obtain rfl := Option.some.inj hplace
      exact hg
  | some g =>
      have hg' : w'.graph? number = some g := hg
      have hact := Act.carryOut_eq (s := w'.session g) (hw.tree hg) command
      show w.Outcome operation (w'.within number _).1 (w'.within number _).2
      rw [within_of_graph hg', hact]
      cases hp : g.perform command with
      | error e =>
          rw [Act.atOnce_of_error (s := w'.session g) hp]
          show w.Outcome operation { w'.put number g with serial := serial, reported := w.reported } _
          rw [put_self hg']
          exact .refused serial e
      | ok result =>
          obtain ⟨g', reply⟩ := result
          rw [Act.atOnce_of_ok (s := w'.session g) hp]
          show w.Outcome operation { w'.put number g' with
            serial := serial, reported := w.reported ++ reply.removals } _
          rw [put_withSerial]
          exact .command hop hg hp

/-- A copy into a tree is made as a whole, or nothing changes. -/
theorem within_copyInto (hw : w.Sound) {source : Graph} (hs : source.tree.Sound) {target : Nat}
    (hg : w.graph? target = some g) (c into : ClusterId) (cloner : Cloner Nat) :
    w.within target ((fun _ => .done) <$> Act.copyInto cloner source c into)
      = match source.copyInto c g into cloner w.serial with
        | (.ok g', serial) => ({ w.put target g' with serial := serial }, .ok .done)
        | (.error e, serial) => ({ w with serial := serial }, .error e) := by
  have hcopy := Act.copyInto_eq (s := w.session g) cloner hs (hw.tree hg) c into
  rw [show (w.session g).graph = g from rfl, show (w.session g).serial = w.serial from rfl] at hcopy
  rw [within_of_graph hg]
  generalize source.copyInto c g into cloner w.serial = out at hcopy ⊢
  obtain ⟨result, serial⟩ := out
  cases result with
  | error e =>
      rw [Act.map_of_error (f := fun _ => Reply.done) hcopy]
      show (({ w.put target g with serial := serial, reported := w.reported } : Workspace), _) = _
      rw [put_self hg]
  | ok g' =>
      rw [Act.map_of_ok (f := fun _ => Reply.done) hcopy]
      show (({ w.put target g' with serial := serial, reported := w.reported } : Workspace), _) = _
      rw [← reported_put w target g']

/-- A copy into a tree replaces content of one graph, or changes
    nothing. -/
theorem outcome_copyInto (hw : w.Sound) (c : ClusterId) (target : Nat) (into : ClusterId)
    (cloner : Cloner Nat) {source : Graph} (hs : w.graph? number = some source) :
    w.Outcome (.copyInto number c target into cloner)
      (w.within target ((fun _ => .done) <$> Act.copyInto cloner source c into)).1
      (w.within target ((fun _ => .done) <$> Act.copyInto cloner source c into)).2 := by
  cases hg : w.graph? target with
  | none =>
      rw [within, hg]
      exact .idle w.serial (fun _ hplace => nomatch hplace)
  | some g =>
      rw [within_copyInto hw (hw.tree hs) hg]
      generalize hout : source.copyInto c g into cloner w.serial = out
      obtain ⟨result, serial⟩ := out
      cases result with
      | error e => exact .refused serial e
      | ok g' => exact .copy hs hg hout

/-- A duplicate is a new graph, or nothing changes. -/
theorem outcome_duplicate (hw : w.Sound) (cloner : Cloner Nat) (hg : w.graph? number = some g) :
    w.Outcome (.duplicate number cloner)
      (w.grow (.new g.tree.config (.startingAt g.ids.count))
        (Act.copyInto cloner g g.tree.root Tree.rootId)).1
      (w.grow (.new g.tree.config (.startingAt g.ids.count))
        (Act.copyInto cloner g g.tree.root Tree.rootId)).2 := by
  let new : Graph := .new g.tree.config (.startingAt g.ids.count)
  have hnew : (w.session new).graph.tree.Sound := Tree.sound_new (hw.tree hg).complete
  have hcopy := Act.copyInto_eq (s := w.session new) cloner (hw.tree hg) hnew g.tree.root Tree.rootId
  generalize hout : g.copyInto g.tree.root (w.session new).graph Tree.rootId cloner
    (w.session new).serial = out at hcopy
  obtain ⟨result, serial⟩ := out
  cases result with
  | error e =>
      rw [grow, hcopy]
      exact .refused serial e
  | ok g' =>
      rw [grow, hcopy]
      exact .duplicate hg hout

/-- Every operation has one of the outcomes. -/
theorem step_outcome (hw : w.Sound) (operation : Operation) :
    w.Outcome operation (w.step operation).1 (w.step operation).2 := by
  cases operation with
  | newGraph config ids =>
      rw [step]
      cases h : w.newGraph config ids with
      | error e => exact .refused w.serial e
      | ok result => exact .new h
  | duplicate number cloner =>
      rw [step]
      cases hg : w.graph? number with
      | none => exact .idle w.serial (fun _ hplace => nomatch hplace)
      | some g => exact outcome_duplicate hw cloner hg
  | copyInto number c target into cloner =>
      rw [step]
      cases hg : w.graph? number with
      | none => exact .idle w.serial (fun _ hplace => nomatch hplace)
      | some g => exact outcome_copyInto hw c target into cloner hg
  | placeObject number c key type content => exact outcome_within hw _ rfl
  | change number command => exact outcome_within hw w.serial rfl

/-- A copy that succeeds between two trees was made. -/
theorem exists_copyInto (hw : w.Sound) {target : Nat} {c into : ClusterId} {cloner : Cloner Nat}
    {source : Graph} {w' : Workspace} {reply : Reply} (hs : w.graph? number = some source)
    (hg : w.graph? target = some g)
    (hstep : w.step (.copyInto number c target into cloner) = (w', .ok reply)) :
    ∃ g' serial, source.copyInto c g into cloner w.serial = (.ok g', serial)
      ∧ w' = { w.put target g' with serial := serial } := by
  rw [step, hs] at hstep
  dsimp only at hstep
  rw [within_copyInto hw (hw.tree hs) hg] at hstep
  generalize source.copyInto c g into cloner w.serial = out at hstep
  obtain ⟨result, serial⟩ := out
  cases result with
  | error e => cases (Prod.mk.inj hstep).2
  | ok g' => exact ⟨g', serial, rfl, (Prod.mk.inj hstep).1.symm⟩

/-- An operation that gives a command to a tree carries it out there, if it
    succeeds; without such a tree nothing happens. -/
theorem carried_out_of_command? (hw : w.Sound) {operation : Operation} {command : Command}
    {reply : Reply} {w' : Workspace} (hop : operation.command? w.serial = some (number, command))
    (hstep : w.step operation = (w', .ok reply)) :
    (w.graph? number = none ∧ w'.members = w.members)
      ∨ ∃ g g' serial, w.graph? number = some g ∧ g.perform command = .ok (g', reply)
        ∧ w' = { w.put number g' with serial := serial, reported := w.reported ++ reply.removals } := by
  have hout := step_outcome hw operation
  rw [hstep] at hout
  cases hout with
  | idle serial hidle => exact Or.inl ⟨hidle (number, command) hop, rfl⟩
  | @command _ target serial command' g g' reply hop' hg hp =>
      obtain ⟨rfl, rfl⟩ := Prod.mk.inj (Option.some.inj (hop.symm.trans hop'))
      exact Or.inr ⟨g, g', serial, hg, hp, rfl⟩
  | copy => cases hop
  | new => cases hop
  | duplicate => cases hop

theorem exists_perform_of_command? (hw : w.Sound) {operation : Operation} {command : Command}
    {reply : Reply} {w' : Workspace} {m : Member}
    (hop : operation.command? w.serial = some (number, command))
    (hstep : w.step operation = (w', .ok reply)) (hm : w'.members[number]? = some m) :
    ∃ k ids g', w.members[number]? = some k ∧ w.sources[k.source]? = some ids
      ∧ (Graph.mk k.tree ids).perform command = .ok (g', reply) ∧ m = { k with tree := g'.tree } := by
  rcases carried_out_of_command? hw hop hstep with ⟨hnone, hmembers⟩ | ⟨g, g', serial, hg, hp, rfl⟩
  · obtain ⟨ids, hsome⟩ := hw.exists_graph? (hmembers ▸ hm)
    rw [hnone] at hsome
    cases hsome
  · obtain ⟨k, ids, hk, hids, rfl⟩ := graph?_eq_some.mp hg
    replace hm : (w.put number g').members[number]? = some m := hm
    rw [put_of_member hk, List.getElem?_set_self (List.getElem?_eq_some_iff.mp hk).1] at hm
    exact ⟨k, ids, g', hk, hids, hp, (Option.some.inj hm).symm⟩

/-- A command that succeeds on a tree was carried out there. -/
theorem exists_perform (hw : w.Sound) {command : Command} {reply : Reply} {w' : Workspace}
    {m : Member} (hstep : w.step (.change number command) = (w', .ok reply))
    (hm : w'.members[number]? = some m) :
    ∃ k ids g', w.members[number]? = some k ∧ w.sources[k.source]? = some ids
      ∧ (Graph.mk k.tree ids).perform command = .ok (g', reply) ∧ m = { k with tree := g'.tree } :=
  exists_perform_of_command? hw rfl hstep hm

theorem exists_perform_of_member (hw : w.Sound) {command : Command} {reply : Reply} {w' : Workspace}
    {m : Member} (hm : w.members[number]? = some m)
    (hstep : w.step (.change number command) = (w', .ok reply)) :
    ∃ ids g', w.graph? number = some ⟨m.tree, ids⟩
      ∧ (Graph.mk m.tree ids).perform command = .ok (g', reply) := by
  obtain ⟨ids, hg⟩ := hw.exists_graph? hm
  rcases carried_out_of_command? hw rfl hstep with ⟨hnone, -⟩ | ⟨g, g', -, hg', hp, -⟩
  · rw [hg] at hnone
    cases hnone
  · obtain rfl := Option.some.inj (hg.symm.trans hg')
    exact ⟨ids, g', hg, hp⟩

end Workspace

end NestedGraph
