import NestedGraph.Catalog
import NestedGraph.Proofs.Mirror

/-! # Compactness — a copy of a copy

    A tree that was worked on for some time has gaps between its slots,
    generations that count what was freed, clusters whose ids tell nothing
    about where they are, and edges in the order in which they came.  A
    duplicate has none of that: it is COMPACT.  Slots are filled from the
    first on and none was ever freed, edges stand by age in slot order,
    and clusters are numbered by a walk from the root.  A compact tree is
    its own duplicate, so a second duplicate is the first over again. -/

namespace NestedGraph

/-! ## Stores without gaps -/

namespace SlotStore

variable {entity : Entity} {α : Type}

/-- The store with some entities in its first slots, in order, where no slot
    was ever freed. -/
def packed (values : List α) : SlotStore entity α := ⟨values.map some, [], []⟩

theorem insert_packed (values : List α) (a : α) :
    (packed values : SlotStore entity α).insert a = packed (values ++ [a]) := by
  simp [packed, insert]

theorem nextHandle_packed (values : List α) :
    (packed values : SlotStore entity α).nextHandle = ⟨values.length, 0⟩ := by
  simp [packed, nextHandle, nextIndex, handleAt, generation]

theorem filledFrom_map_some (n : Nat) (values : List α) :
    filledFrom n (values.map some) = (values.zipIdx n).map (fun entry => (entry.2, entry.1)) := by
  induction values generalizing n with
  | nil => rfl
  | cons a rest ih => simp [filledFrom, ih]

/-- The k-th entity has the k-th slot. -/
theorem entries_packed (values : List α) :
    (packed values : SlotStore entity α).entries
      = values.zipIdx.map (fun entry => (⟨entry.2, 0⟩, entry.1)) := by
  simp [entries, packed, filledFrom_map_some, handleAt, generation]

theorem values_packed (values : List α) :
    (packed values : SlotStore entity α).values = values := by
  simp [SlotStore.values, entries_packed, Function.comp_def]

end SlotStore

namespace Storage

/-- The storage with some vertices and links in its first slots, in order,
    where nothing was ever removed. -/
def packed (records : List VertexRecord) (links : List Link) : Storage :=
  ⟨.packed records, .packed links, (SlotStore.packed links : SlotStore .edge Link).handles.reverse⟩

/-- All slots are filled from the first on, and none was ever freed. -/
def Packed (s : Storage) : Prop := ∃ records links, s = packed records links

theorem packed_nil : packed [] [] = empty := rfl

theorem addVertex_packed (records : List VertexRecord) (links : List Link) (r : VertexRecord) :
    (packed records links).addVertex r = packed (records ++ [r]) links := by
  simp [addVertex, packed, SlotStore.insert_packed]

/-- An edge that is added takes the next slot, and is the newest. -/
theorem addEdge_packed (records : List VertexRecord) (links : List Link) (a b : LocalVertex)
    (r : EdgeRecord) :
    (packed records links).addEdge a b r = packed records (links ++ [⟨a, b, r⟩]) := by
  have hhandles : (SlotStore.packed (links ++ [⟨a, b, r⟩]) : SlotStore .edge Link).handles
      = (SlotStore.packed links : SlotStore .edge Link).handles
        ++ [(SlotStore.packed links : SlotStore .edge Link).nextHandle] := by
    rw [← SlotStore.insert_packed, SlotStore.handles, SlotStore.entries_insert rfl,
      List.map_append]
    rfl
  simp [addEdge, packed, SlotStore.insert_packed, hhandles]

end Storage

/-! ## Copies are without gaps -/

section Copying

variable {σ : Type} (cloner : Cloner σ)

theorem exists_cloneVertices_packed (entries : List (LocalVertex × VertexRecord))
    (records : List VertexRecord) (links : List Link) (state : σ) :
    ∃ added, (cloneVertices cloner (.packed records links) entries state).1.1
      = .packed (records ++ added) links := by
  induction entries generalizing records state with
  | nil => exact ⟨[], by rw [List.append_nil]; rfl⟩
  | cons entry rest ih =>
      obtain ⟨v, r⟩ := entry
      let copy : VertexRecord := { r with objects := (cloneSlots cloner r.objects state).1 }
      obtain ⟨added, hadded⟩ := ih (records ++ [copy]) (cloneSlots cloner r.objects state).2
      rw [← Storage.addVertex_packed, List.append_assoc] at hadded
      exact ⟨copy :: added, hadded⟩

theorem exists_cloneEdges_packed (names : Renaming) (source : List Link)
    (records : List VertexRecord) (links : List Link) (state : σ) :
    ∃ added, (cloneEdges cloner names (.packed records links) source state).1
      = .packed records (links ++ added) := by
  induction source generalizing links state with
  | nil => exact ⟨[], by rw [List.append_nil]; rfl⟩
  | cons l rest ih =>
      rw [cloneEdges]
      cases names.handle? l.first with
      | none => exact ih links state
      | some a =>
          cases names.handle? l.second with
          | none => exact ih links state
          | some b =>
              let copy : Link :=
                ⟨a, b, { l.record with carried := (cloneCarried cloner l.record.carried state).1 }⟩
              obtain ⟨added, hadded⟩ :=
                ih (links ++ [copy]) (cloneCarried cloner l.record.carried state).2
              rw [← Storage.addEdge_packed, List.append_assoc] at hadded
              exact ⟨copy :: added, hadded⟩

/-- Whatever gaps the source has, its copy has none. -/
theorem packed_cloneStorage (source : Storage) (state : σ) :
    (cloneStorage cloner source .empty state).1.1.Packed := by
  obtain ⟨records, hrecords⟩ := exists_cloneVertices_packed cloner source.vertices.entries [] [] state
  rw [Storage.packed_nil, List.nil_append] at hrecords
  generalize hout : cloneVertices cloner .empty source.vertices.entries state = out at hrecords
  obtain ⟨⟨filled, names⟩, state'⟩ := out
  obtain rfl : filled = .packed records [] := hrecords
  obtain ⟨links, hlinks⟩ := exists_cloneEdges_packed cloner names source.edges.values records [] state'
  rw [cloneStorage_of cloner hout]
  exact ⟨records, [] ++ links, hlinks⟩

end Copying

/-! ## Sharing copies of what has no gaps -/

/-- Names under which nothing is renamed. -/
def Renaming.identity (vs : List LocalVertex) : Renaming := vs.map (fun v => (v, v))

theorem Renaming.handle?_identity {vs : List LocalVertex} {v : LocalVertex} (h : v ∈ vs) :
    (identity vs).handle? v = some v := by
  have hv : v ∈ (identity vs).map Prod.fst := by simpa [identity] using h
  obtain ⟨w, hw⟩ := exists_handle? hv
  obtain ⟨u, -, heq⟩ := List.mem_map.mp (mem_of_handle? hw)
  obtain ⟨rfl, rfl⟩ := Prod.mk.inj heq
  exact hw

open Catalog (share)

theorem cloneSlots_share (slots : List (Option TypedObject)) (state : Nat) :
    cloneSlots share slots state = (slots, state) := by
  induction slots with
  | nil => rfl
  | cons slot rest ih =>
      cases slot with
      | none =>
          show ((none :: (cloneSlots share rest state).1, (cloneSlots share rest state).2) : _ × _) = _
          rw [ih]
      | some object =>
          show ((some object :: (cloneSlots share rest state).1, (cloneSlots share rest state).2) : _ × _)
            = _
          rw [ih]

theorem cloneCarried_share (carried : List CarriedEdge) (state : Nat) :
    cloneCarried share carried state = (carried, state) := by
  induction carried with
  | nil => rfl
  | cons x rest ih =>
      show (fun out : List (Option TypedObject) × Nat =>
        ({ x with objects := out.1 } :: (cloneCarried share rest out.2).1,
          (cloneCarried share rest out.2).2)) (cloneSlots share x.objects state) = _
      rw [cloneSlots_share]
      dsimp only
      rw [ih]

/-- Vertices that are taken in slot order get the slots that they had. -/
theorem cloneVertices_share (added records : List VertexRecord) (links : List Link) (state : Nat) :
    cloneVertices share (.packed records links)
        ((added.zipIdx records.length).map (fun entry => (⟨entry.2, 0⟩, entry.1))) state
      = ((.packed (records ++ added) links,
          .identity ((added.zipIdx records.length).map (fun entry => ⟨entry.2, 0⟩))), state) := by
  induction added generalizing records with
  | nil => simp [cloneVertices, Renaming.identity]; rfl
  | cons r rest ih =>
      have hnext : (Storage.packed records links).vertices.nextHandle = ⟨records.length, 0⟩ :=
        SlotStore.nextHandle_packed records
      have hstep := ih (records ++ [r])
      rw [List.length_append, List.length_singleton, ← Storage.addVertex_packed, List.append_assoc]
        at hstep
      rw [List.zipIdx_cons, List.map_cons]
      show (fun out : List (Option TypedObject) × Nat =>
        (fun out' : (Storage × Renaming) × Nat =>
          ((out'.1.1, (⟨records.length, 0⟩, (Storage.packed records links).vertices.nextHandle)
            :: out'.1.2), out'.2))
          (cloneVertices share ((Storage.packed records links).addVertex { r with objects := out.1 })
            ((rest.zipIdx (records.length + 1)).map (fun entry => (⟨entry.2, 0⟩, entry.1))) out.2))
        (cloneSlots share r.objects state) = _
      rw [cloneSlots_share]
      dsimp only
      rw [hstep, hnext]
      rfl

theorem cloneEdges_share {names : Renaming} (records : List VertexRecord) (links : List Link)
    {added : List Link} (state : Nat)
    (h : ∀ l ∈ added, names.handle? l.first = some l.first ∧ names.handle? l.second = some l.second) :
    cloneEdges share names (.packed records links) added state
      = (.packed records (links ++ added), state) := by
  induction added generalizing links with
  | nil =>
      rw [List.append_nil]
      rfl
  | cons l rest ih =>
      obtain ⟨hfirst, hsecond⟩ := h l (List.mem_cons_self ..)
      have hstep := ih (links ++ [l]) (fun m hm => h m (List.mem_cons_of_mem _ hm))
      rw [← Storage.addEdge_packed, List.append_assoc] at hstep
      rw [cloneEdges, hfirst, hsecond]
      show (fun out : List CarriedEdge × Nat => cloneEdges share names
        ((Storage.packed records links).addEdge l.first l.second { l.record with carried := out.1 })
        rest out.2) (cloneCarried share l.record.carried state) = _
      rw [cloneCarried_share]
      exact hstep

/-- A storage without gaps is its own copy, and every vertex keeps its
    handle. -/
theorem cloneStorage_share {s : Storage} (hs : s.Sound) (hp : s.Packed) (state : Nat) :
    cloneStorage share s .empty state = ((s, .identity s.vertices.handles), state) := by
  obtain ⟨records, links, rfl⟩ := hp
  have hentries : (Storage.packed records links).vertices.entries
      = (records.zipIdx 0).map (fun entry => (⟨entry.2, 0⟩, entry.1)) :=
    SlotStore.entries_packed records
  have hhandles : (Storage.packed records links).vertices.handles
      = (records.zipIdx 0).map (fun entry => ⟨entry.2, 0⟩) := by
    simp [SlotStore.handles, hentries, Function.comp_def]
  have hvertices := cloneVertices_share records [] [] state
  rw [List.length_nil, ← hentries, ← hhandles, List.nil_append, Storage.packed_nil] at hvertices
  rw [cloneStorage_of share hvertices]
  have hlinks : (Storage.packed records links).edges.values = links := SlotStore.values_packed links
  rw [hlinks, cloneEdges_share records [] state, List.nil_append]
  intro l hl
  -- Both ends are vertices of the storage, so they have a name.
  rw [← hlinks] at hl
  obtain ⟨⟨e, l⟩, hmem, rfl⟩ := List.mem_map.mp hl
  obtain ⟨hfirst, hsecond⟩ := hs.live e l (SlotStore.mem_entries.mp hmem)
  obtain ⟨r, hr⟩ := Storage.hasVertex_iff.mp hfirst
  obtain ⟨r', hr'⟩ := Storage.hasVertex_iff.mp hsecond
  exact ⟨Renaming.handle?_identity (SlotStore.mem_handles.mpr ⟨r, hr⟩),
    Renaming.handle?_identity (SlotStore.mem_handles.mpr ⟨r', hr'⟩)⟩

/-! ## Clusters in the order of a walk -/

/-- The clusters have the ids from the first number on, up to the one before
    the second, each before those inside it and those before its later
    siblings.  None of them has gaps, and none is in copy mode. -/
inductive Forest.Compact : Nat → Forest → Nat → Prop where
  | nil (next : Nat) : Compact next .nil next
  | cons {next next' next'' : Nat} {v : LocalVertex} {k : Cluster} {inside rest : Forest}
      (id : k.id = ⟨next⟩) (storage : k.storage.Packed) (mode : k.copyMode = false)
      (inner : inside.Compact (next + 1) next') (later : rest.Compact next' next'') :
      Compact next (.cons v k inside rest) next''

/-- A tree without any trace of how it came about. -/
structure Tree.Compact (t : Tree) : Prop where
  root : t.root = rootId
  storage : t.top.cluster.storage.Packed
  mode : t.top.cluster.copyMode = false
  inside : t.top.inside.Compact 1 t.nextClusterId

/-- A copy of a forest is compact, whatever it is a copy of. -/
theorem Forest.compact_clone {σ : Type} (cloner : Cloner σ) (f : Forest) (names : Renaming)
    (next : Nat) (state : σ) :
    (f.clone cloner names next state).1.1.Compact next (f.clone cloner names next state).1.2 := by
  induction f generalizing names next state with
  | nil => exact .nil next
  | cons v k inside rest ihInside ihRest =>
      cases hw : names.handle? v with
      | none =>
          rw [Forest.clone, hw]
          exact ihRest names next state
      | some w =>
          have hpacked := packed_cloneStorage cloner k.storage state
          generalize hstorage : cloneStorage cloner k.storage .empty state = out1 at hpacked
          obtain ⟨⟨storage, inner⟩, state1⟩ := out1
          have hin := ihInside inner (next + 1) state1
          generalize hinside : inside.clone cloner inner (next + 1) state1 = out2 at hin
          obtain ⟨⟨inside', next'⟩, state2⟩ := out2
          have hlater := ihRest names next' state2
          generalize hrest : rest.clone cloner names next' state2 = out3 at hlater
          obtain ⟨⟨rest', next''⟩, state3⟩ := out3
          rw [Forest.clone_cons cloner hw hstorage hinside hrest]
          exact .cons rfl hpacked rfl hin hlater

/-- Children hang on vertices of the cluster, so that their handles are among
    those that are kept. -/
theorem Node.Sound.handle?_identity {config : Config} {b : Branch} (h : b.node.Sound config) :
    ∀ entry ∈ b.inside.entries,
      (Renaming.identity b.cluster.storage.vertices.handles).handle? entry.1 = some entry.1 := by
  intro entry he
  obtain ⟨r, hr⟩ := Storage.hasVertex_iff.mp (h.held entry he)
  exact Renaming.handle?_identity (SlotStore.mem_handles.mpr ⟨r, hr⟩)

/-- A compact forest is its own copy, and the ids come out as they are. -/
theorem Forest.Compact.clone_share {config : Config} {f : Forest} {next next' : Nat}
    (h : f.Compact next next') (hs : ∀ n ∈ f.nodes, n.Sound config) {names : Renaming}
    (hnames : ∀ entry ∈ f.entries, names.handle? entry.1 = some entry.1) (state : Nat) :
    f.clone share names next state = ((f, next'), state) := by
  induction h generalizing names with
  | nil next => rfl
  | @cons next next' next'' v k inside rest id storage mode _ _ ihInner ihLater =>
      obtain ⟨hk, hinner, hbeside⟩ := Forest.forall_nodes_cons.mp hs
      have hw : names.handle? v = some v := hnames (v, k.id) (List.mem_cons_self ..)
      have hsound : k.storage.Sound := hk.storage
      have hstorage := cloneStorage_share hsound storage state
      have hinside : inside.clone share (.identity k.storage.vertices.handles) (next + 1) state
          = ((inside, next'), state) := ihInner hinner hk.handle?_identity
      have hrest := ihLater hbeside (fun entry he => hnames entry (List.mem_cons_of_mem _ he))
      rw [Forest.clone_cons share hw hstorage hinside hrest]
      obtain ⟨kid, kstorage, kproperties, kmode⟩ := k
      obtain rfl : kid = ⟨next⟩ := id
      obtain rfl : kmode = false := mode
      rfl

/-! ## Duplicates -/

namespace IdSource

/-- Counts are words, but the larger of two is found as for numbers. -/
theorem toNat_startingAt (count : UInt64) :
    (startingAt count).count.toNat = max count.toNat (lastReservedId + 1).toNat :=
  toNat_count_raise ⟨count⟩ (lastReservedId + 1)

theorem eq_of_toNat {s s' : IdSource} (h : s.count.toNat = s'.count.toNat) : s = s' := by
  obtain ⟨count⟩ := s
  obtain ⟨count'⟩ := s'
  exact congrArg IdSource.mk (UInt64.toNat_inj.mp h)

/-- A source that is started where another one was goes on as it does. -/
theorem startingAt_startingAt (count : UInt64) :
    startingAt (startingAt count).count = startingAt count := by
  apply eq_of_toNat
  rw [toNat_startingAt, toNat_startingAt]
  omega

theorem raise_startingAt (count : UInt64) :
    (startingAt count).raise count = startingAt count := by
  apply eq_of_toNat
  rw [toNat_count_raise, toNat_startingAt]
  omega

end IdSource

namespace Tree

/-- A tree has room for any duplicate, as there is nothing in the new tree
    that would stay. -/
theorem copyable_new (t : Tree) :
    t.copyable t.root (new t.config) rootId = .ok (t.top, (new t.config).top) := by
  have hcompat : t.config.compatible t.config = true := by simp [Config.compatible]
  have hroot : t.require t.root = .ok t.top := require_of_find? (by
    rw [find?, Branch.find?, root, if_pos rfl])
  have hnew : (new t.config).require rootId = .ok (new t.config).top := rfl
  have hkept : (new t.config).remainingIds (new t.config).top = [] := rfl
  have hconfig : (new t.config).config = t.config := rfl
  have hfree : (t.top.clustersLastFirst.flatMap (fun k => k.storage.ids)).find?
      (fun id => decide (id ∈ (new t.config).remainingIds (new t.config).top)) = none := by
    rw [hkept]
    simp
  rw [copyable, hconfig, hcompat, hroot, hnew]
  simp only [Bool.not_true, Bool.false_eq_true, if_false]
  dsimp only [bind, Except.bind]
  rw [hfree]
  rfl

/-- In a new tree there is nothing around the root, and nothing in it. -/
theorem replaceContent_new {σ : Type} (cloner : Cloner σ) (t : Tree) (state : σ) {copy : Branch}
    {next : Nat} {state' : σ}
    (hcopy : t.top.clone cloner 1 (t.config.newCluster rootId) state = ((copy, next), state')) :
    (new t.config).replaceContent cloner (new t.config).top t.top state
      = (⟨t.config, next, copy⟩, state') := by
  rw [replaceContent_eq]
  have hcleared : (new t.config).top.cluster.cleared = t.config.newCluster rootId := rfl
  have hnext : (new t.config).nextClusterId = 1 := rfl
  rw [hcleared, hnext, hcopy]
  rfl

/-- A copy of a tree is compact. -/
theorem compact_clone {σ : Type} (cloner : Cloner σ) (t : Tree) (config : Config) (state : σ) :
    (⟨config, (t.top.clone cloner 1 (config.newCluster rootId) state).1.2,
      (t.top.clone cloner 1 (config.newCluster rootId) state).1.1⟩ : Tree).Compact := by
  have hpacked := packed_cloneStorage cloner t.top.cluster.storage state
  generalize hstorage : cloneStorage cloner t.top.cluster.storage .empty state = out at hpacked
  obtain ⟨⟨storage, names⟩, state1⟩ := out
  have hinner := Forest.compact_clone cloner t.top.inside names 1 state1
  generalize hinside : t.top.inside.clone cloner names 1 state1 = out' at hinner
  obtain ⟨⟨inside, next⟩, state2⟩ := out'
  have hclone : t.top.clone cloner 1 (config.newCluster rootId) state = _ :=
    Branch.clone_of cloner hstorage hinside
  rw [hclone]
  exact ⟨rfl, hpacked, rfl, hinner⟩

/-- A compact tree is its own copy. -/
theorem Compact.clone_share {t : Tree} (h : t.Compact) (hs : t.Sound) (state : Nat) :
    t.top.clone share 1 (t.config.newCluster rootId) state
      = ((t.top, t.nextClusterId), state) := by
  have htop : t.top.node.Sound t.config := hs.nodes _ (Multiset.mem_cons_self ..)
  have hstored : t.top.cluster.storage.Sound := htop.storage
  have hstorage := cloneStorage_share hstored h.storage state
  have hinside := h.inside.clone_share (fun n hn => hs.nodes n (Multiset.mem_cons_of_mem hn))
    htop.handle?_identity state
  have hclone : t.top.clone share 1 (t.config.newCluster rootId) state = _ :=
    Branch.clone_of share hstorage hinside
  rw [hclone]
  have hcluster : ({ t.config.newCluster rootId with
      storage := t.top.cluster.storage, properties := t.top.cluster.properties } : Cluster)
      = t.top.cluster := by
    have hroot : t.top.cluster.id = rootId := h.root
    rw [Config.newCluster, ← hroot, ← h.mode]
  rw [hcluster]

end Tree

namespace Graph

variable {g : Graph}

/-- A duplicate can always be made. -/
theorem duplicate_eq {σ : Type} {cloner : Cloner σ} {state state' : σ} {copy : Branch} {next : Nat}
    (hcopy : g.tree.top.clone cloner 1 (g.tree.config.newCluster Tree.rootId) state
      = ((copy, next), state')) :
    g.duplicate cloner state
      = (.ok ⟨⟨g.tree.config, next, copy⟩, .startingAt g.ids.count⟩, state') := by
  have hcopyable : g.tree.copyable g.tree.root (new g.tree.config (.startingAt g.ids.count)).tree
      Tree.rootId = .ok (g.tree.top, (Tree.new g.tree.config).top) := g.tree.copyable_new
  have hreplaced : (new g.tree.config (.startingAt g.ids.count)).tree.replaceContent cloner
      (Tree.new g.tree.config).top g.tree.top state = _ := g.tree.replaceContent_new cloner state hcopy
  have hids : (new g.tree.config (.startingAt g.ids.count)).ids.raise g.ids.count
      = .startingAt g.ids.count := IdSource.raise_startingAt _
  rw [duplicate, copyInto_of_ok hcopyable, hreplaced, hids]

/-- A duplicate is compact, and its ids go on from those of its source. -/
theorem exists_duplicate {σ : Type} (g : Graph) (cloner : Cloner σ) (state : σ) :
    ∃ g' state', g.duplicate cloner state = (.ok g', state') ∧ g'.tree.Compact
      ∧ g'.ids = .startingAt g.ids.count := by
  generalize hcopy : g.tree.top.clone cloner 1 (g.tree.config.newCluster Tree.rootId) state = out
  obtain ⟨⟨copy, next⟩, state'⟩ := out
  have hcompact := g.tree.compact_clone cloner g.tree.config state
  rw [hcopy] at hcompact
  exact ⟨_, state', duplicate_eq hcopy, hcompact, rfl⟩

/-- A compact graph is its own duplicate, if its source is one that a count
    can be started at. -/
theorem duplicate_of_compact (hs : g.tree.Sound) (hc : g.tree.Compact)
    (hids : IdSource.startingAt g.ids.count = g.ids) (state : Nat) :
    g.duplicate share state = (.ok g, state) := by
  rw [duplicate_eq (hc.clone_share hs state), hids]

end Graph

/-! ## Runs -/

namespace Workspace

variable {w : Workspace} {number : Nat} {g : Graph}

/-- A duplicate that can be made is added under the next number. -/
theorem step_duplicate (hw : w.Sound) (hg : w.graph? number = some g) {cloner : Cloner Nat}
    {g' : Graph} {serial : Nat} (h : g.duplicate cloner w.serial = (.ok g', serial)) :
    w.step (.duplicate number cloner)
      = (({ w with serial := serial }.addGraph g').1, .ok (.graph w.members.length)) := by
  have hnew : (w.session (.new g.tree.config (.startingAt g.ids.count))).graph.tree.Sound :=
    Tree.sound_new (hw.tree hg).complete
  have hcopy := Act.copyInto_eq cloner (hw.tree hg) hnew g.tree.root Tree.rootId
  rw [show g.copyInto g.tree.root
      (w.session (.new g.tree.config (.startingAt g.ids.count))).graph Tree.rootId cloner
      (w.session (.new g.tree.config (.startingAt g.ids.count))).serial = (.ok g', serial) from h]
    at hcopy
  rw [step, hg]
  show w.grow _ _ = _
  rw [grow, hcopy]
  rfl

/-- **A DUPLICATE IS A NORMAL FORM**: after any run every tree can be duplicated.
    The duplicate mirrors it from the root on and is compact, and a duplicate
    of the duplicate is the same graph once more: it has the same clusters,
    slots, edge orders, names, properties, objects and flags, and goes on with
    the same ids. -/
theorem duplicates_run (operations : List Operation) {number : Nat} {m : Member}
    (hm : (empty.run operations).members[number]? = some m) (cloner : Cloner Nat) :
    ∃ (copy : Graph) (w' w'' : Workspace),
      (empty.run operations).step (.duplicate number cloner)
        = (w', .ok (.graph (empty.run operations).members.length))
      ∧ w'.step (.duplicate (empty.run operations).members.length share)
        = (w'', .ok (.graph w'.members.length))
      ∧ w'.graph? (empty.run operations).members.length = some copy
      ∧ w''.graph? (empty.run operations).members.length = some copy
      ∧ w''.graph? w'.members.length = some copy
      ∧ copy.tree.Compact
      ∧ ∃ φ, m.tree.Mirrors cloner φ m.tree.root copy.tree Tree.rootId := by
  have hw := sound_run operations
  obtain ⟨ids, hg⟩ := hw.exists_graph? hm
  generalize empty.run operations = w at hw hm hg
  obtain ⟨copy, serial, hcopy, hcompact, hids⟩ :=
    (⟨m.tree, ids⟩ : Graph).exists_duplicate cloner w.serial
  have hnew : (Graph.new m.tree.config (.startingAt ids.count)).tree.Sound :=
    Tree.sound_new (hw.tree hg).complete
  -- The second duplicate finds a sound compact tree, which is its own copy.
  have hcopied : copy.tree.Sound := (Graph.becomes_copyInto (hw.tree hg) hnew hcopy).sound
  have hfixed : IdSource.startingAt copy.ids.count = copy.ids := by
    rw [hids]
    exact IdSource.startingAt_startingAt ids.count
  have hagain := Graph.duplicate_of_compact hcopied hcompact hfixed serial
  have hfirst := step_duplicate hw hg hcopy
  let w' := ({ w with serial := serial }.addGraph copy).1
  have hw' : w'.Sound := by
    have hstep := (hw.becomes_step (.duplicate number cloner)).sound
    rwa [hfirst] at hstep
  have hfound : w'.graph? w.members.length = some copy := graph?_addGraph_self ..
  have hsecond := step_duplicate hw' hfound hagain
  refine ⟨copy, w', (w'.addGraph copy).1, hfirst, hsecond, hfound, graph?_addGraph hfound copy,
    graph?_addGraph_self .., hcompact, ?_⟩
  obtain ⟨φ, hmirrors, -⟩ := Graph.mirrors_copyInto (hw.tree hg) hnew hcopy
  exact ⟨φ, hmirrors⟩

/-- A tree with a slot that was freed and used again, a gap that is left, an edge
    that outlived an older one, and a cluster inside another whose id is not
    the first. -/
theorem duplicates_aged :
    let operations := [Operation.newGraph (.declared []) .fresh,
      .change 0 (.addCluster Tree.rootId), .change 0 (.addVertex Tree.rootId),
      .change 0 (.addVertex Tree.rootId), .change 0 (.addVertex Tree.rootId),
      .change 0 (.addEdge Tree.rootId ⟨1, 0⟩ ⟨2, 0⟩), .change 0 (.addEdge Tree.rootId ⟨2, 0⟩ ⟨3, 0⟩),
      .change 0 (.removeCluster Tree.rootId ⟨1⟩), .change 0 (.removeVertex Tree.rootId ⟨1, 0⟩),
      .change 0 (.addCluster Tree.rootId), .change 0 (.addCluster ⟨2⟩)]
    let w := empty.run operations
    ∃ (m : Member) (copy : Graph) (w' w'' : Workspace), w.members[0]? = some m
      ∧ m.tree.vertices Tree.rootId = [⟨1, 1⟩, ⟨2, 0⟩, ⟨3, 0⟩]
      ∧ m.tree.edges Tree.rootId = [⟨1, 0⟩] ∧ m.tree.children Tree.rootId = [(⟨1, 1⟩, ⟨2⟩)]
      ∧ w.step (.duplicate 0 share) = (w', .ok (.graph 1))
      ∧ w'.step (.duplicate 1 share) = (w'', .ok (.graph 2))
      ∧ w'.graph? 1 = some copy ∧ w''.graph? 1 = some copy ∧ w''.graph? 2 = some copy
      ∧ copy.tree.vertices Tree.rootId = [⟨0, 0⟩, ⟨1, 0⟩, ⟨2, 0⟩]
      ∧ copy.tree.edges Tree.rootId = [⟨0, 0⟩]
      ∧ copy.tree.children Tree.rootId = [(⟨0, 0⟩, ⟨1⟩)] ∧ copy.tree.Compact
      ∧ ∃ φ, m.tree.Mirrors share φ m.tree.root copy.tree Tree.rootId := by
  intro operations w
  have hm : ∃ m ∈ w.members[0]?, m.tree.vertices Tree.rootId = [⟨1, 1⟩, ⟨2, 0⟩, ⟨3, 0⟩]
      ∧ m.tree.edges Tree.rootId = [⟨1, 0⟩] ∧ m.tree.children Tree.rootId = [(⟨1, 1⟩, ⟨2⟩)] := by
    decide +kernel
  have hlength : w.members.length = 1 := by decide +kernel
  have hcopied : ∀ copy ∈ (w.step (.duplicate 0 share)).1.graph? 1,
      copy.tree.vertices Tree.rootId = [⟨0, 0⟩, ⟨1, 0⟩, ⟨2, 0⟩]
      ∧ copy.tree.edges Tree.rootId = [⟨0, 0⟩]
      ∧ copy.tree.children Tree.rootId = [(⟨0, 0⟩, ⟨1⟩)] := by decide +kernel
  have hlength' : (w.step (.duplicate 0 share)).1.members.length = 2 := by decide +kernel
  obtain ⟨m, hm, hvertices, hedges, hchildren⟩ := hm
  have hrun : ∃ (copy : Graph) (w' w'' : Workspace),
      w.step (.duplicate 0 share) = (w', .ok (.graph w.members.length))
      ∧ w'.step (.duplicate w.members.length share) = (w'', .ok (.graph w'.members.length))
      ∧ w'.graph? w.members.length = some copy ∧ w''.graph? w.members.length = some copy
      ∧ w''.graph? w'.members.length = some copy ∧ copy.tree.Compact
      ∧ ∃ φ, m.tree.Mirrors share φ m.tree.root copy.tree Tree.rootId :=
    duplicates_run operations hm share
  clear_value w
  obtain ⟨copy, w', w'', hfirst, hsecond, hfound, hkept, hagain, hcompact, hmirrors⟩ := hrun
  rw [hlength] at hfirst hsecond hfound hkept
  rw [hfirst] at hcopied hlength'
  rw [hlength'] at hsecond hagain
  obtain ⟨hvertices', hedges', hchildren'⟩ := hcopied copy hfound
  exact ⟨m, copy, w', w'', hm, hvertices, hedges, hchildren, hfirst, hsecond, hfound, hkept, hagain,
    hvertices', hedges', hchildren', hcompact, hmirrors⟩

end Workspace

end NestedGraph
