import NestedGraph.Proofs.Steps

/-! # Runs — operations in a row

    What an operation leaves of a workspace BECOMES what it was before:
    every tree is still there under its number, sound, and no id came
    back.  So it is along a whole run, and a refused operation leaves
    everything as it was at any point of it. -/

namespace NestedGraph

/-- A copy that is made replaces content of the tree and moves its source
    forward. -/
theorem Graph.of_copyInto {σ : Type} {source g g' : Graph} {c into : ClusterId} {cloner : Cloner σ}
    {state state' : σ} (h : source.copyInto c g into cloner state = (.ok g', state')) :
    ∃ branch place, source.tree.copyable c g.tree into = .ok (branch, place)
      ∧ g.tree.replaceContent cloner place branch state = (g'.tree, state')
      ∧ g'.ids = g.ids.raise source.ids.count := by
  cases hcopy : source.tree.copyable c g.tree into with
  | error e =>
      rw [Graph.copyInto_of_error hcopy] at h
      cases (Prod.mk.inj h).1
  | ok branches =>
      obtain ⟨branch, place⟩ := branches
      rw [Graph.copyInto_of_ok hcopy] at h
      obtain ⟨hok, rfl⟩ := Prod.mk.inj h
      obtain rfl := Except.ok.inj hok
      exact ⟨branch, place, rfl, rfl, rfl⟩

theorem Graph.becomes_copyInto {σ : Type} {source g g' : Graph} {c into : ClusterId}
    {cloner : Cloner σ} {state state' : σ} (hs : source.tree.Sound) (hg : g.tree.Sound)
    (h : source.copyInto c g into cloner state = (.ok g', state')) : g.tree.Becomes g'.tree := by
  obtain ⟨branch, place, hcopy, hreplace, -⟩ := Graph.of_copyInto h
  have hbecomes := hs.becomes_replaceContent cloner hg hcopy state
  rwa [hreplace] at hbecomes

namespace Workspace

/-- Every tree is still there under its number, sound, and no id came
    back. -/
structure Becomes (w w' : Workspace) : Prop where
  sound : w'.Sound
  members : ∀ (number : Nat) (m : Member), w.members[number]? = some m →
    ∃ m', w'.members[number]? = some m' ∧ m'.source = m.source ∧ m.tree.Becomes m'.tree

variable {w w' w'' : Workspace} {number : Nat} {g g' : Graph}

theorem Sound.becomes (hw : w.Sound) : w.Becomes w :=
  ⟨hw, fun _ m hm => ⟨m, hm, rfl, (hw.trees m (List.mem_of_getElem? hm)).becomes⟩⟩

theorem Becomes.trans (h : w.Becomes w') (h' : w'.Becomes w'') : w.Becomes w'' := by
  refine ⟨h'.sound, fun number m hm => ?_⟩
  obtain ⟨m', hm', hsource, hb⟩ := h.members number m hm
  obtain ⟨m'', hm'', hsource', hb'⟩ := h'.members number m' hm'
  exact ⟨m'', hm'', hsource'.trans hsource, hb.trans hb'⟩

/-- Objects that are made and reports do not count. -/
theorem Becomes.of_eq (h : w.Becomes w') (hm : w''.members = w'.members)
    (hs : w''.sources = w'.sources) : w.Becomes w'' := by
  refine ⟨⟨fun m hmem => h.sound.trees m (hm ▸ hmem), fun m hmem => ?_⟩, fun number m hmem => ?_⟩
  · rw [hs]
    exact h.sound.sources m (hm ▸ hmem)
  · rw [hm]
    exact h.members number m hmem

theorem becomes_put (hw : w.Sound) (hg : w.graph? number = some g) (h : g.tree.Becomes g'.tree) :
    w.Becomes (w.put number g') := by
  obtain ⟨m, ids, hm, hids, rfl⟩ := graph?_eq_some.mp hg
  have hlt : number < w.members.length := (List.getElem?_eq_some_iff.mp hm).1
  rw [put_of_member hm]
  refine ⟨⟨fun m' hm' => ?_, fun m' hm' => ?_⟩, fun k m' hm' => ?_⟩
  · rcases List.mem_or_eq_of_mem_set hm' with hm' | rfl
    · exact hw.trees m' hm'
    · exact h.sound
  · rw [List.length_set]
    rcases List.mem_or_eq_of_mem_set hm' with hm' | rfl
    · exact hw.sources m' hm'
    · exact hw.sources m (List.mem_of_getElem? hm)
  · by_cases hk : number = k
    · subst hk
      obtain rfl := Option.some.inj (hm.symm.trans hm')
      exact ⟨_, List.getElem?_set_self hlt, rfl, h⟩
    · refine ⟨m', ?_, rfl, (hw.trees m' (List.mem_of_getElem? hm')).becomes⟩
      rw [List.getElem?_set_ne hk, hm']

theorem becomes_addMember (hw : w.Sound) {t : Tree} {source : Nat} (ht : t.Sound)
    (hs : source < w.sources.length) : w.Becomes (w.addMember t source).1 := by
  refine ⟨⟨fun m hm => ?_, fun m hm => ?_⟩, fun number m hm => ?_⟩
  · rcases List.mem_append.mp hm with hm | hm
    · exact hw.trees m hm
    · exact (List.mem_singleton.mp hm) ▸ ht
  · rcases List.mem_append.mp hm with hm | hm
    · exact hw.sources m hm
    · exact (List.mem_singleton.mp hm) ▸ hs
  · refine ⟨m, ?_, rfl, (hw.trees m (List.mem_of_getElem? hm)).becomes⟩
    exact (List.getElem?_append_left (List.getElem?_eq_some_iff.mp hm).1).trans hm

theorem becomes_addGraph (hw : w.Sound) (hg : g.tree.Sound) : w.Becomes (w.addGraph g).1 := by
  let w' : Workspace := { w with sources := w.sources ++ [g.ids] }
  have hw' : w.Becomes w' := by
    refine ⟨⟨hw.trees, fun m hm => ?_⟩, hw.becomes.members⟩
    rw [List.length_append]
    exact Nat.lt_add_right _ (hw.sources m hm)
  have hlt : w.sources.length < w'.sources.length := by
    show _ < (w.sources ++ [g.ids]).length
    rw [List.length_append]
    exact Nat.lt_succ_self _
  exact hw'.trans (becomes_addMember hw'.sound hg hlt)

/-- A new tree has a complete configuration. -/
theorem Sound.complete_configFrom (hw : w.Sound) {origin : ConfigOrigin} {config : Config}
    (h : w.configFrom origin = .ok config) : config.Complete := by
  cases origin with
  | sharedWith number =>
      rw [configFrom] at h
      cases hm : w.members[number]? with
      | none =>
          rw [hm] at h
          obtain rfl := Except.ok.inj h
          exact Config.blank.complete_complete
      | some m =>
          rw [hm] at h
          obtain rfl := Except.ok.inj h
          exact (hw.trees m (List.mem_of_getElem? hm)).complete
  | declared declarations => exact Config.complete_of_build h

/-- A new tree is empty, and draws from the source of another or from a new
    one. -/
theorem of_newGraph {origin : ConfigOrigin} {ids : IdOrigin} {reply : Reply}
    (h : w.newGraph origin ids = .ok (w', reply)) :
    ∃ config, w.configFrom origin = .ok config ∧ reply = .graph w.members.length
      ∧ ((∃ m ∈ w.members, w' = (w.addMember (Tree.new config) m.source).1)
        ∨ ∃ count, w' = (w.addGraph (.new config (.startingAt count))).1) := by
  obtain ⟨config, hconfig, h⟩ := of_bind_eq_ok h
  refine ⟨config, hconfig, ?_⟩
  cases ids with
  | sharedWith number =>
      dsimp only at h
      cases hm : w.members[number]? with
      | none =>
          rw [hm] at h
          obtain ⟨rfl, rfl⟩ := Prod.mk.inj (Except.ok.inj h)
          exact ⟨rfl, Or.inr ⟨0, rfl⟩⟩
      | some m =>
          rw [hm] at h
          obtain ⟨rfl, rfl⟩ := Prod.mk.inj (Except.ok.inj h)
          exact ⟨rfl, Or.inl ⟨m, List.mem_of_getElem? hm, rfl⟩⟩
  | startingAt count =>
      obtain ⟨rfl, rfl⟩ := Prod.mk.inj (Except.ok.inj h)
      exact ⟨rfl, Or.inr ⟨count, rfl⟩⟩
  | fresh =>
      obtain ⟨rfl, rfl⟩ := Prod.mk.inj (Except.ok.inj h)
      exact ⟨rfl, Or.inr ⟨0, rfl⟩⟩

/-! ## One operation -/

theorem Outcome.becomes (hw : w.Sound) {operation : Operation} {result : Except Error Reply}
    (h : w.Outcome operation w' result) : w.Becomes w' := by
  cases h with
  | refused serial e => exact hw.becomes.of_eq rfl rfl
  | idle serial => exact hw.becomes.of_eq rfl rfl
  | command _ hg hp =>
      exact (becomes_put hw hg (Graph.becomes_perform (hw.tree hg) hp)).of_eq rfl rfl
  | copy hs hg hcopy =>
      exact (becomes_put hw hg (Graph.becomes_copyInto (hw.tree hs) (hw.tree hg) hcopy)).of_eq rfl rfl
  | new hnew =>
      obtain ⟨config, hconfig, -, hadd⟩ := of_newGraph hnew
      have ht := Tree.sound_new (hw.complete_configFrom hconfig)
      rcases hadd with ⟨m, hm, rfl⟩ | ⟨count, rfl⟩
      · exact becomes_addMember hw ht (hw.sources m hm)
      · exact becomes_addGraph hw ht
  | @duplicate number serial cloner g g' hg hcopy =>
      have hnew := Tree.sound_new (hw.tree hg).complete
      have hsound := (Graph.becomes_copyInto (hw.tree hg) hnew hcopy).sound
      have hserial : w.Becomes { w with serial := serial } := hw.becomes.of_eq rfl rfl
      exact hserial.trans (becomes_addGraph hserial.sound hsound)

theorem Sound.becomes_step (hw : w.Sound) (operation : Operation) :
    w.Becomes (w.step operation).1 := (step_outcome hw operation).becomes hw

/-! ## Runs -/

theorem run_append (w : Workspace) (operations later : List Operation) :
    w.run (operations ++ later) = (w.run operations).run later := List.foldl_append

theorem Sound.becomes_run (hw : w.Sound) (operations : List Operation) :
    w.Becomes (w.run operations) := by
  induction operations generalizing w with
  | nil => exact hw.becomes
  | cons operation rest ih =>
      have hstep := hw.becomes_step operation
      exact hstep.trans (ih hstep.sound)

/-- Whatever was done, all trees are sound. -/
theorem sound_run (operations : List Operation) : (empty.run operations).Sound :=
  (sound_empty.becomes_run operations).sound

/-- **ALL OR NOTHING**: an operation that fails leaves every tree and every
    source of ids as it was, and reports nothing as removed. -/
theorem unchanged_of_step_error (operations : List Operation) (operation : Operation) {e : Error}
    (h : ((empty.run operations).step operation).2 = .error e) :
    ((empty.run operations).step operation).1.members = (empty.run operations).members
      ∧ ((empty.run operations).step operation).1.sources = (empty.run operations).sources
      ∧ ((empty.run operations).step operation).1.reported = (empty.run operations).reported := by
  have hstep := step_outcome (sound_run operations) operation
  rw [h] at hstep
  generalize ((empty.run operations).step operation).1 = w' at hstep
  cases hstep with
  | refused serial e => exact ⟨rfl, rfl, rfl⟩

/-- A vertex of the root cannot move out of it. -/
theorem unchanged_of_moveOut_root :
    let w := empty.run [.newGraph (.declared []) .fresh, .change 0 (.addVertex Tree.rootId)]
    let operation := Operation.change 0 (.moveOut Tree.rootId ⟨0, 0⟩)
    (w.step operation).2 = .error .rootHasNoParent
      ∧ (w.step operation).1.members = w.members ∧ (w.step operation).1.sources = w.sources
      ∧ (w.step operation).1.reported = w.reported :=
  ⟨rfl, unchanged_of_step_error _ _ rfl⟩

end Workspace

end NestedGraph
