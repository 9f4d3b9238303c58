import NestedGraph.Proofs.Spaces

/-! # Termination — every loop over an arena ends

    A loop knows clusters only by the ids that their records name, and
    nothing in a record bounds it.  After any run the loops that go up
    ascend to the root at the latest, and those that go down visit the
    clusters inside, or those outside, each of them once.  Some of them
    change the arena on the way: they mark clusters, take edges or whole
    clusters out, or fill another arena with copies. -/

namespace NestedGraph

/-- A copy of a cluster into one that was made ready for it ends, and visits the
    clusters inside, each of them once, unless the numbers for the copies run
    out. -/
def Arena.Copies (a : Arena) (c : ClusterId) (d : Desk) (into : ClusterId) : Prop :=
  ∀ cloner count depth, a.count ≤ depth →
    ∃ ready, Job.prepare count into d = .ok (.ok (), ready)
      ∧ (Job.copyCluster cloner a depth c into ready = .error .overflow
        ∨ ∃ visited d', Job.copyCluster cloner a depth c into ready = .ok (.ok visited, d')
          ∧ visited.Nodup ∧ ∀ o, o ∈ visited ↔ a.links.Inside c o)

namespace Arena.Lays

variable {a : Arena} {t : Tree} {c : ClusterId} (hl : a.Lays t) (hs : t.Sound)
include hl hs

/-- What is inside a cluster is copied, whatever desk the copy is made on. -/
theorem copies (hc : a.isLive c = true) {d : Desk} {s : Session} (hm : d.Matches s)
    (hs' : s.graph.tree.Sound) {into : ClusterId} (hinto : d.arena.isLive into = true) :
    a.Copies c d into := by
  intro cloner count depth hdepth
  rw [hl.isLive, Tree.isLive_iff] at hc
  rw [hm.arena.isLive, Tree.isLive_iff] at hinto
  obtain ⟨b, hb⟩ := Tree.mem_ids_iff.mp hc
  obtain ⟨place, hplace⟩ := Tree.mem_ids_iff.mp hinto
  obtain rfl := Tree.id_of_find? hb
  obtain rfl := Tree.id_of_find? hplace
  generalize hstorage : cloneStorage cloner b.cluster.storage place.cluster.cleared.storage
    s.serial = out1
  obtain ⟨⟨storage, names⟩, serial1⟩ := out1
  generalize hinside : b.inside.clone cloner names s.graph.tree.nextClusterId serial1 = out2
  obtain ⟨⟨inside, next⟩, serial2⟩ := out2
  obtain ⟨ready, hready, -⟩ := Job.prepare_run hm hs' hplace count
  refine ⟨ready, hready, ?_⟩
  rcases Job.copyCluster_prepared cloner hl hm hs' hplace hs count hb hready hdepth hstorage hinside with
    ⟨hover, -⟩ | ⟨d', hrun, -⟩
  · exact Or.inl hover
  · refine Or.inr ⟨_, d', hrun, ?_, fun o => ?_⟩
    · rw [← Multiset.coe_nodup, ← Branch.ids_eq_clusters]
      exact hs.distinct.nodup_branch hb
    · rw [hl.links, hs.inside_iff_mem_ids hb, Branch.ids_eq_clusters, Multiset.mem_coe]

end Arena.Lays

namespace Space

end Space

end NestedGraph
