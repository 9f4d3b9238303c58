import NestedGraph.Storage
import NestedGraph.Proofs.SlotStore
import Mathlib.Data.Sym.Sym2

/-! # Storage — what the edges of one cluster carry

    A storage is SOUND when its edges join two different live vertices
    each, no two of them the same two, and every edge carries something.
    The LOAD of a storage is everything that its edges carry, each global
    edge with the unordered pair of vertices that it runs between: handles
    of edges, their direction and their order do not show in it.  Every
    change is told by what it does to the load. -/

namespace NestedGraph

/-! ## Links -/

/-- Where nothing matches, nothing is taken off. -/
theorem EdgeRecord.without_of_isEmpty {r : EdgeRecord} {p : GlobalEdge → Bool}
    (h : (r.matching p).isEmpty = true) : r.without p = r := by
  have hall : r.carried.filter (fun edge => !p edge.global) = r.carried := by
    refine List.filter_eq_self.mpr (fun x hx => ?_)
    have hnil : r.carried.filter (fun edge => p edge.global) = [] := List.isEmpty_iff.mp h
    simpa using List.filter_eq_nil_iff.mp hnil x hx
  rw [without, hall]

namespace Link

/-- The two ends, without an order. -/
def ends (l : Link) : Sym2 LocalVertex := s(l.first, l.second)

/-- What the edge carries, each with the ends. -/
def load (l : Link) : Multiset (Sym2 LocalVertex × CarriedEdge) :=
  (l.record.carried : Multiset CarriedEdge).map (fun x => (l.ends, x))

theorem mem_load {l : Link} {z : Sym2 LocalVertex} {x : CarriedEdge} :
    (z, x) ∈ l.load ↔ z = l.ends ∧ x ∈ l.record.carried := by
  simp [load, and_comm, eq_comm]

theorem joins_iff {l : Link} {a b : LocalVertex} : l.joins a b = true ↔ l.ends = s(a, b) := by
  simp [joins, ends]

/-- What is left of an edge when the global edges that match are taken off;
    nothing when that was all it carried. -/
def rest? (p : GlobalEdge → Bool) (l : Link) : Option Link :=
  if (l.record.matching p).isEmpty then some l
  else if (l.record.without p).carried.isEmpty then none
  else some { l with record := l.record.without p }

/-- What is left on an edge is what does not match. -/
theorem load_rest? (p : GlobalEdge → Bool) (l : Link) :
    ((l.rest? p).map load).getD 0 = l.load.filter (fun entry => ¬ p entry.2.global = true) := by
  have hload : l.load.filter (fun entry => ¬ p entry.2.global = true)
      = ((l.record.without p).carried : Multiset CarriedEdge).map (fun x => (l.ends, x)) := by
    unfold load EdgeRecord.without
    rw [Multiset.filter_map]
    simp
  rw [hload]
  unfold rest?
  split
  · rename_i hm
    rw [EdgeRecord.without_of_isEmpty hm]
    rfl
  · split
    · rename_i hw
      rw [List.isEmpty_iff.mp hw]
      rfl
    · rfl

/-- What is left of an edge has its ends, and carries something if the edge
    did. -/
theorem of_rest? {p : GlobalEdge → Bool} {l l' : Link} (h : l.rest? p = some l')
    (hfilled : l.record.carried ≠ []) :
    l'.first = l.first ∧ l'.second = l.second ∧ l'.record.carried ≠ [] := by
  unfold rest? at h
  split at h
  · obtain rfl := Option.some.inj h
    exact ⟨rfl, rfl, hfilled⟩
  · split at h
    · exact nomatch h
    · rename_i hw
      obtain rfl := Option.some.inj h
      exact ⟨rfl, rfl, fun hnil => hw (List.isEmpty_iff.mpr hnil)⟩

end Link

namespace Storage

/-- Everything that the edges carry, each with its two ends. -/
def load (s : Storage) : Multiset (Sym2 LocalVertex × CarriedEdge) :=
  s.edges.table.bind (fun entry => entry.2.load)

theorem mem_load {s : Storage} {z : Sym2 LocalVertex} {x : CarriedEdge} :
    (z, x) ∈ s.load ↔ ∃ e l, s.link? e = some l ∧ z = l.ends ∧ x ∈ l.record.carried := by
  simp only [load, Multiset.mem_bind, Prod.exists, SlotStore.mem_table, Link.mem_load]
  rfl

/-- The global edges are those of the load. -/
theorem coe_allCarried (s : Storage) :
    (s.allCarried : Multiset GlobalEdge) = s.load.map (fun entry => entry.2.global) := by
  unfold load allCarried
  rw [Multiset.map_bind, ← Multiset.coe_bind, SlotStore.coe_values, Multiset.bind_map]
  refine Multiset.bind_congr (fun entry _ => ?_)
  simp [Link.load, EdgeRecord.globals, Function.comp_def]

/-! ## Soundness -/

/-- The edges are listed, each once. -/
structure Listed (s : Storage) : Prop where
  tidy : s.edges.Tidy
  nodup : s.recent.Nodup
  mem_recent : ∀ e, e ∈ s.recent ↔ ∃ l, s.link? e = some l

/-- Edges join two different vertices each, no two the same, and carry
    something. -/
structure Sound (s : Storage) : Prop where
  vertices : s.vertices.Tidy
  listed : s.Listed
  live : ∀ e l, s.link? e = some l → s.hasVertex l.first = true ∧ s.hasVertex l.second = true
  apart : ∀ e l, s.link? e = some l → l.first ≠ l.second
  single : ∀ e l k m, s.link? e = some l → s.link? k = some m → l.ends = m.ends → e = k
  filled : ∀ e l, s.link? e = some l → l.record.carried ≠ []

theorem hasVertex_iff {s : Storage} {v : LocalVertex} :
    s.hasVertex v = true ↔ ∃ r, s.vertex? v = some r := SlotStore.contains_iff

/-! ## Finding edges -/

theorem mem_recentWhere {s : Storage} (hs : s.Listed) {p : Link → Bool} {e : LocalEdge} :
    e ∈ s.recentWhere p ↔ ∃ l, s.link? e = some l ∧ p l = true := by
  rw [recentWhere, List.mem_filter, hs.mem_recent]
  cases h : s.link? e <;> simp

/-- The edges at a vertex are those that end there. -/
theorem mem_incident {s : Storage} (hs : s.Listed) {v : LocalVertex} {e : LocalEdge} :
    e ∈ s.incident v ↔ ∃ l, s.link? e = some l ∧ v ∈ l.ends := by
  rw [incident, List.mem_append, mem_recentWhere hs, mem_recentWhere hs, ← exists_or]
  refine exists_congr (fun l => ?_)
  rw [← and_or_left, decide_eq_true_iff, decide_eq_true_iff, Link.ends, Sym2.mem_iff,
    eq_comm (a := l.first), eq_comm (a := l.second)]

/-- No edge is at a vertex twice. -/
theorem nodup_incident {s : Storage} (hs : s.Sound) (v : LocalVertex) : (s.incident v).Nodup := by
  refine List.Nodup.append (hs.listed.nodup.filter _) (hs.listed.nodup.filter _) ?_
  intro e h1 h2
  obtain ⟨l, hl, h1⟩ := (mem_recentWhere hs.listed).mp h1
  obtain ⟨l', hl', h2⟩ := (mem_recentWhere hs.listed).mp h2
  obtain rfl : l = l' := Option.some.inj (hl.symm.trans hl')
  exact hs.apart e l hl ((of_decide_eq_true h1).trans (of_decide_eq_true h2).symm)

theorem edgeBetween?_of_some {s : Storage} (hs : s.Listed) {a b : LocalVertex} {e : LocalEdge}
    (h : s.edgeBetween? a b = some e) : ∃ l, s.link? e = some l ∧ l.ends = s(a, b) := by
  obtain ⟨l, hl, hj⟩ := (mem_recentWhere hs).mp (List.mem_of_mem_head? h)
  exact ⟨l, hl, Link.joins_iff.mp hj⟩

theorem edgeBetween?_of_none {s : Storage} (hs : s.Listed) {a b : LocalVertex}
    (h : s.edgeBetween? a b = none) {e : LocalEdge} {l : Link} (hl : s.link? e = some l) :
    l.ends ≠ s(a, b) := by
  intro he
  have hmem : e ∈ s.recentWhere (fun l => l.joins a b) :=
    (mem_recentWhere hs).mpr ⟨l, hl, Link.joins_iff.mpr he⟩
  rw [List.head?_eq_none_iff.mp h] at hmem
  exact nomatch hmem

/-- The edge between two vertices is the one with these ends. -/
theorem Sound.edgeBetween?_eq_some {s : Storage} (hs : s.Sound) {a b : LocalVertex} {e : LocalEdge} :
    s.edgeBetween? a b = some e ↔ ∃ l, s.link? e = some l ∧ l.ends = s(a, b) := by
  refine ⟨edgeBetween?_of_some hs.listed, ?_⟩
  rintro ⟨l, hl, hends⟩
  cases he : s.edgeBetween? a b with
  | none => exact absurd hends (edgeBetween?_of_none hs.listed he hl)
  | some k =>
      obtain ⟨m, hm, hends'⟩ := edgeBetween?_of_some hs.listed he
      rw [hs.single k m e l hm hl (hends'.trans hends.symm)]

/-! ## Edges after a change -/

theorem link?_addEdge {s : Storage} (hs : s.Listed) (a b : LocalVertex) (r : EdgeRecord)
    (e : LocalEdge) :
    (s.addEdge a b r).link? e = if e = s.edges.nextHandle then some ⟨a, b, r⟩ else s.link? e :=
  SlotStore.get?_insert hs.tidy _ e

theorem link?_modifyEdge (s : Storage) (e k : LocalEdge) (f : EdgeRecord → EdgeRecord) :
    (s.modifyEdge e f).link? k
      = if k = e then (s.link? e).map (fun l => { l with record := f l.record }) else s.link? k :=
  SlotStore.get?_modify ..

theorem link?_removeEdge (s : Storage) (e k : LocalEdge) :
    (s.removeEdge e).link? k = if k = e then none else s.link? k :=
  SlotStore.get?_erase ..

theorem Listed.addEdge {s : Storage} (hs : s.Listed) (a b : LocalVertex) (r : EdgeRecord) :
    (s.addEdge a b r).Listed := by
  have hdead : s.link? s.edges.nextHandle = none := SlotStore.get?_nextHandle hs.tidy
  refine ⟨hs.tidy.insert _, List.nodup_cons.mpr ⟨?_, hs.nodup⟩, fun e => ?_⟩
  · rw [hs.mem_recent, hdead]
    rintro ⟨l, hl⟩
    exact nomatch hl
  · rw [link?_addEdge hs]
    show e ∈ s.edges.nextHandle :: s.recent ↔ _
    rw [List.mem_cons, hs.mem_recent]
    by_cases he : e = s.edges.nextHandle
    · simp [he]
    · simp [he]

theorem Listed.modifyEdge {s : Storage} (hs : s.Listed) (e : LocalEdge)
    (f : EdgeRecord → EdgeRecord) : (s.modifyEdge e f).Listed := by
  refine ⟨hs.tidy.modify .., hs.nodup, fun k => ?_⟩
  rw [link?_modifyEdge]
  show k ∈ s.recent ↔ _
  rw [hs.mem_recent]
  by_cases hk : k = e
  · simp [hk]
  · simp [hk]

theorem Listed.removeEdge {s : Storage} (hs : s.Listed) (e : LocalEdge) :
    (s.removeEdge e).Listed := by
  refine ⟨hs.tidy.erase e, hs.nodup.filter _, fun k => ?_⟩
  rw [link?_removeEdge]
  show k ∈ s.recent.filter _ ↔ _
  rw [List.mem_filter, hs.mem_recent]
  by_cases hk : k = e
  · simp [hk]
  · simp [hk]

theorem Listed.withdraw {s : Storage} (hs : s.Listed) (p : GlobalEdge → Bool) (e : LocalEdge) :
    (s.withdraw p e).Listed := by
  unfold Storage.withdraw
  split
  · exact hs
  · dsimp only
    split
    · exact (hs.modifyEdge e _).removeEdge e
    · exact hs.modifyEdge e _

/-- Taking matching global edges off one edge leaves the others alone. -/
theorem link?_withdraw (s : Storage) (p : GlobalEdge → Bool) (e k : LocalEdge) :
    (s.withdraw p e).link? k = if k = e then (s.link? e).bind (Link.rest? p) else s.link? k := by
  cases hl : s.link? e with
  | none =>
      have hm : (s.matching p e).isEmpty = true := by simp [matching, edgeRecord?, hl]
      rw [withdraw, if_pos hm]
      by_cases hk : k = e
      · rw [if_pos hk, hk, hl]
        rfl
      · rw [if_neg hk]
  | some l =>
      have hm : s.matching p e = l.record.matching p := by simp [matching, edgeRecord?, hl]
      have hmod : (s.modifyEdge e (fun record => record.without p)).link? e
          = some { l with record := l.record.without p } := by
        rw [link?_modifyEdge, if_pos rfl, hl]
        rfl
      have hc : ((s.modifyEdge e (fun record => record.without p)).carried e).isEmpty
          = (l.record.without p).carried.isEmpty := by
        simp [carried, edgeRecord?, hmod, EdgeRecord.globals]
      rw [withdraw, hm, Option.bind_some, Link.rest?]
      by_cases hempty : (l.record.matching p).isEmpty = true
      · -- Where nothing matches, nothing is done.
        rw [if_pos hempty, if_pos hempty]
        by_cases hk : k = e
        · rw [if_pos hk, hk, hl]
        · rw [if_neg hk]
      · -- Else the edge goes if nothing is left on it.
        rw [if_neg hempty, if_neg hempty]
        dsimp only
        rw [hc]
        by_cases hrest : (l.record.without p).carried.isEmpty = true
        · rw [if_pos hrest, if_pos hrest, link?_removeEdge, link?_modifyEdge]
          by_cases hk : k = e
          · rw [if_pos hk, if_pos hk]
          · rw [if_neg hk, if_neg hk, if_neg hk]
        · rw [if_neg hrest, if_neg hrest]
          by_cases hk : k = e
          · rw [if_pos hk, hk, hmod]
          · rw [if_neg hk, link?_modifyEdge, if_neg hk]

/-! ### Several edges at once -/

theorem Listed.foldl_removeEdge {s : Storage} (hs : s.Listed) (es : List LocalEdge) :
    (es.foldl Storage.removeEdge s).Listed := by
  induction es generalizing s with
  | nil => exact hs
  | cons e rest ih => exact ih (hs.removeEdge e)

@[simp] theorem vertices_foldl_removeEdge (s : Storage) (es : List LocalEdge) :
    (es.foldl removeEdge s).vertices = s.vertices := by
  induction es generalizing s with
  | nil => rfl
  | cons e rest ih => exact ih (s.removeEdge e)

theorem link?_foldl_removeEdge (s : Storage) (es : List LocalEdge) (k : LocalEdge) :
    (es.foldl removeEdge s).link? k = if k ∈ es then none else s.link? k := by
  induction es generalizing s with
  | nil => rfl
  | cons e rest ih =>
      rw [List.foldl_cons, ih, link?_removeEdge]
      by_cases hrest : k ∈ rest
      · simp [hrest]
      · by_cases hk : k = e <;> simp [hk, hrest]

/-- The edges at a removed vertex are gone, and all others stay. -/
theorem link?_removeVertex (s : Storage) (v : LocalVertex) (k : LocalEdge) :
    (s.removeVertex v).link? k = if k ∈ s.incident v then none else s.link? k :=
  link?_foldl_removeEdge ..

theorem link?_removeVertex_bind {s : Storage} (hs : s.Listed) (v : LocalVertex) (k : LocalEdge) :
    (s.removeVertex v).link? k
      = (s.link? k).bind (fun l => if v ∈ l.ends then none else some l) := by
  rw [link?_removeVertex]
  cases hl : s.link? k with
  | none => simp
  | some l =>
      have hiff : k ∈ s.incident v ↔ v ∈ l.ends := by
        rw [mem_incident hs, hl]
        simp
      by_cases hv : v ∈ l.ends
      · simp [hiff, hv]
      · simp [hiff, hv]

theorem vertex?_removeVertex (s : Storage) (v w : LocalVertex) :
    (s.removeVertex v).vertex? w = if w = v then none else s.vertex? w := by
  show ((((s.incident v).foldl removeEdge s).vertices).erase v).get? w = _
  rw [vertices_foldl_removeEdge]
  exact SlotStore.get?_erase ..

theorem Listed.removeVertex {s : Storage} (hs : s.Listed) (v : LocalVertex) :
    (s.removeVertex v).Listed := by
  obtain ⟨ht, hn, hm⟩ := hs.foldl_removeEdge (s.incident v)
  exact ⟨ht, hn, hm⟩

@[simp] theorem vertices_foldl_withdraw (s : Storage) (p : GlobalEdge → Bool)
    (es : List LocalEdge) : (es.foldl (withdraw p) s).vertices = s.vertices := by
  induction es generalizing s with
  | nil => rfl
  | cons e rest ih => exact (ih (s.withdraw p e)).trans (vertices_withdraw p s e)

@[simp] theorem vertices_withdrawAt (s : Storage) (p : GlobalEdge → Bool) (v : LocalVertex) :
    (s.withdrawAt p v).vertices = s.vertices := vertices_foldl_withdraw ..

theorem hasVertex_withdrawAt (s : Storage) (p : GlobalEdge → Bool) (v w : LocalVertex) :
    (s.withdrawAt p v).hasVertex w = s.hasVertex w :=
  congrArg (fun vertices => vertices.contains w) (vertices_withdrawAt s p v)

theorem hasVertex_attachLinks (s : Storage) (links : List Link) (w : LocalVertex) :
    (s.attachLinks links).hasVertex w = s.hasVertex w :=
  congrArg (fun vertices => vertices.contains w) (vertices_attachLinks s links)

theorem link?_foldl_withdraw (s : Storage) (p : GlobalEdge → Bool) {es : List LocalEdge}
    (hes : es.Nodup) (k : LocalEdge) :
    (es.foldl (withdraw p) s).link? k
      = if k ∈ es then (s.link? k).bind (Link.rest? p) else s.link? k := by
  induction es generalizing s with
  | nil => rfl
  | cons e rest ih =>
      obtain ⟨he, hrest⟩ := List.nodup_cons.mp hes
      rw [List.foldl_cons, ih (s.withdraw p e) hrest, link?_withdraw]
      by_cases hk : k = e
      · subst hk
        simp [he]
      · simp [hk]

/-- The edges at the vertex keep what does not match, and all others stay. -/
theorem link?_withdrawAt {s : Storage} (hs : s.Sound) (p : GlobalEdge → Bool) (v : LocalVertex)
    (k : LocalEdge) :
    (s.withdrawAt p v).link? k
      = if k ∈ s.incident v then (s.link? k).bind (Link.rest? p) else s.link? k :=
  link?_foldl_withdraw s p (nodup_incident hs v) k

theorem link?_withdrawAt_bind {s : Storage} (hs : s.Sound) (p : GlobalEdge → Bool)
    (v : LocalVertex) (k : LocalEdge) :
    (s.withdrawAt p v).link? k
      = (s.link? k).bind (fun l => if v ∈ l.ends then l.rest? p else some l) := by
  rw [link?_withdrawAt hs]
  cases hl : s.link? k with
  | none => simp
  | some l =>
      have hiff : k ∈ s.incident v ↔ v ∈ l.ends := by
        rw [mem_incident hs.listed, hl]
        simp
      by_cases hv : v ∈ l.ends
      · simp [hiff, hv]
      · simp [hiff, hv]

theorem Listed.attach {s : Storage} (hs : s.Listed) (a b : LocalVertex) (properties : List Value)
    (carried : List CarriedEdge) : (s.attach a b properties carried).Listed := by
  unfold Storage.attach
  split
  · exact hs.modifyEdge ..
  · exact hs.addEdge ..

/-! ## The load after a change -/

/-- Where each edge keeps the part of its load that satisfies a test, so
    does the storage. -/
theorem load_eq_filter {s s' : Storage} {q : Sym2 LocalVertex × CarriedEdge → Prop}
    [DecidablePred q] (φ : LocalEdge → Link → Option Link)
    (hlink : ∀ k, s'.link? k = (s.link? k).bind (φ k))
    (hload : ∀ k l, s.link? k = some l → ((φ k l).map Link.load).getD 0 = l.load.filter q) :
    s'.load = s.load.filter q := by
  rw [load, load, SlotStore.table_filterMap φ hlink, Multiset.bind_filterMap, Multiset.filter_bind]
  refine Multiset.bind_congr ?_
  rintro ⟨k, l⟩ hmem
  rw [← hload k l (SlotStore.mem_table.mp hmem)]
  cases φ k l <;> rfl

/-- A test that all ends satisfy filters nothing. -/
theorem filter_load_of_ends {l : Link} {q : Sym2 LocalVertex × CarriedEdge → Prop}
    [DecidablePred q] (h : ∀ x, q (l.ends, x)) : l.load.filter q = l.load := by
  refine Multiset.filter_eq_self.mpr ?_
  rintro ⟨z, x⟩ hmem
  obtain ⟨rfl, -⟩ := Link.mem_load.mp hmem
  exact h x

/-- Taking edges off a vertex takes everything that ends there. -/
theorem load_removeVertex {s : Storage} (hs : s.Listed) (v : LocalVertex) :
    (s.removeVertex v).load = s.load.filter (fun entry => v ∉ entry.1) := by
  refine load_eq_filter (fun k l => if v ∈ l.ends then none else some l)
    (link?_removeVertex_bind hs v) (fun k l hl => ?_)
  by_cases hv : v ∈ l.ends
  · rw [if_pos hv]
    symm
    refine Multiset.filter_eq_nil.mpr ?_
    rintro ⟨z, x⟩ hmem hz
    obtain ⟨rfl, -⟩ := Link.mem_load.mp hmem
    exact hz hv
  · rw [if_neg hv]
    exact (filter_load_of_ends (fun _ => hv)).symm

/-- Withdrawing at a vertex takes what ends there and matches. -/
theorem load_withdrawAt {s : Storage} (hs : s.Sound) (p : GlobalEdge → Bool) (v : LocalVertex) :
    (s.withdrawAt p v).load
      = s.load.filter (fun entry => ¬ (v ∈ entry.1 ∧ p entry.2.global = true)) := by
  refine load_eq_filter (fun k l => if v ∈ l.ends then l.rest? p else some l)
    (link?_withdrawAt_bind hs p v) (fun k l hl => ?_)
  by_cases hv : v ∈ l.ends
  · rw [if_pos hv, Link.load_rest?]
    refine Multiset.filter_congr ?_
    rintro ⟨z, x⟩ hmem
    obtain ⟨rfl, -⟩ := Link.mem_load.mp hmem
    simp [hv]
  · rw [if_neg hv]
    exact (filter_load_of_ends (fun _ h => hv h.1)).symm

theorem withdraw_of_dead {s : Storage} (p : GlobalEdge → Bool) {e : LocalEdge}
    (he : s.link? e = none) : s.withdraw p e = s := by
  rw [withdraw, matching, edgeRecord?, he]
  rfl

/-- Withdrawing from an edge takes what matches between its ends. -/
theorem load_withdraw {s : Storage} (hs : s.Sound) (p : GlobalEdge → Bool) {e : LocalEdge}
    {l : Link} (hl : s.link? e = some l) :
    (s.withdraw p e).load
      = s.load.filter (fun entry => ¬ (entry.1 = l.ends ∧ p entry.2.global = true)) := by
  refine load_eq_filter (fun k m => if k = e then m.rest? p else some m) ?_ ?_
  · intro k
    rw [link?_withdraw]
    by_cases hk : k = e
    · simp [hk]
    · simp [hk]
  · intro k m hm
    by_cases hk : k = e
    · subst hk
      obtain rfl : l = m := Option.some.inj (hl.symm.trans hm)
      rw [if_pos rfl, Link.load_rest?]
      refine Multiset.filter_congr ?_
      rintro ⟨z, x⟩ hmem
      obtain ⟨rfl, -⟩ := Link.mem_load.mp hmem
      simp
    · rw [if_neg hk]
      refine (filter_load_of_ends (fun _ h => hk ?_)).symm
      exact hs.single k m e l hm hl h.1

/-- A removed edge takes its load along. -/
theorem load_removeEdge {s : Storage} {e : LocalEdge} {l : Link} (hl : s.link? e = some l) :
    s.load = l.load + (s.removeEdge e).load := by
  rw [load, SlotStore.table_erase hl, Multiset.cons_bind]
  rfl

/-- Between the ends of an edge is what that edge carries. -/
theorem Sound.filter_load {s : Storage} (hs : s.Sound) {e : LocalEdge} {l : Link}
    (hl : s.link? e = some l) : s.load.filter (fun entry => entry.1 = l.ends) = l.load := by
  have hrest : (s.removeEdge e).load.filter (fun entry => entry.1 = l.ends) = 0 := by
    refine Multiset.filter_eq_nil.mpr ?_
    rintro ⟨z, x⟩ hx hz
    obtain ⟨k, m, hm, hk, -⟩ := mem_load.mp hx
    rw [link?_removeEdge] at hm
    split at hm
    · exact nomatch hm
    · rename_i hne
      exact hne (hs.single k m e l hm hl (hk.symm.trans hz))
  rw [load_removeEdge hl, Multiset.filter_add, hrest, filter_load_of_ends (fun _ => rfl), add_zero]

theorem load_modifyEdge {s : Storage} {e : LocalEdge} {l : Link} (hl : s.link? e = some l)
    (f : EdgeRecord → EdgeRecord) :
    (s.modifyEdge e f).load
      = ({ l with record := f l.record } : Link).load + (s.removeEdge e).load := by
  show (s.edges.modify e _).table.bind _ = _
  rw [SlotStore.table_modify _ hl, Multiset.cons_bind]
  rfl

theorem load_addEdge {s : Storage} (hs : s.Listed) (a b : LocalVertex) (r : EdgeRecord) :
    (s.addEdge a b r).load = (⟨a, b, r⟩ : Link).load + s.load := by
  show (s.edges.insert _).table.bind _ = _
  rw [SlotStore.table_insert hs.tidy, Multiset.cons_bind]
  rfl

/-- What is attached joins the load between the two vertices. -/
theorem load_attach {s : Storage} (hs : s.Listed) (a b : LocalVertex) (properties : List Value)
    (carried : List CarriedEdge) :
    (s.attach a b properties carried).load
      = s.load + (carried : Multiset CarriedEdge).map (fun x => (s(a, b), x)) := by
  unfold attach
  split
  · rename_i e he
    obtain ⟨l, hl, hends⟩ := edgeBetween?_of_some hs he
    rw [load_modifyEdge hl, load_removeEdge hl, ← hends]
    simp only [Link.load, ← Multiset.coe_add, Multiset.map_add]
    rw [add_right_comm]
    rfl
  · rw [load_addEdge hs, add_comm]
    rfl

/-- What is attached in a row joins the load. -/
theorem load_attachLinks {s : Storage} (hs : s.Listed) (links : List Link) :
    (s.attachLinks links).load = s.load + (links : Multiset Link).bind Link.load := by
  induction links generalizing s with
  | nil => exact (add_zero _).symm
  | cons l rest ih =>
      show ((s.attach _ _ _ _).attachLinks rest).load = _
      rw [ih (hs.attach ..), load_attach hs, ← Multiset.cons_coe, Multiset.cons_bind, add_assoc]
      rfl

@[simp] theorem load_addVertex (s : Storage) (r : VertexRecord) : (s.addVertex r).load = s.load :=
  rfl

@[simp] theorem load_modifyVertex (s : Storage) (v : LocalVertex)
    (f : VertexRecord → VertexRecord) : (s.modifyVertex v f).load = s.load := rfl

@[simp] theorem load_clear (s : Storage) : s.clear.load = 0 := by
  show s.edges.clear.table.bind _ = 0
  rw [SlotStore.table_eq_zero (SlotStore.get?_clear _), Multiset.zero_bind]

@[simp] theorem load_empty : empty.load = 0 := by
  show (SlotStore.empty : SlotStore .edge Link).table.bind _ = 0
  rw [SlotStore.table_eq_zero SlotStore.get?_empty, Multiset.zero_bind]

/-! ## Records at a vertex -/

theorem opposite?_eq_some {l : Link} {v w : LocalVertex} (h : l.opposite? v = some w) :
    l.ends = s(v, w) := by
  unfold Link.opposite? at h
  split at h
  · rename_i hf
    rw [Link.ends, hf, Option.some.inj h]
  · split at h
    · rename_i hs
      rw [Link.ends, hs, Option.some.inj h]
      exact Sym2.eq_swap
    · exact nomatch h

theorem opposite?_eq_none {l : Link} {v : LocalVertex} (h : l.opposite? v = none) :
    v ∉ l.ends := by
  unfold Link.opposite? at h
  split at h
  · exact nomatch h
  · split at h
    · exact nomatch h
    · rename_i hf hs
      rw [Link.ends, Sym2.mem_iff]
      rintro (rfl | rfl)
      · exact hf rfl
      · exact hs rfl

/-- The links at a vertex are those that end there. -/
theorem coe_linksAt {s : Storage} (hs : s.Sound) (v : LocalVertex) :
    ((s.incident v).filterMap (fun e => (s.link? e).map (fun l => (e, l)))
      : Multiset (LocalEdge × Link)) = s.edges.table.filter (fun entry => v ∈ entry.2.ends) := by
  have hnodup : ((s.incident v).filterMap (fun e =>
      (s.link? e).map (fun l => (e, l)))).Nodup := by
    refine List.pairwise_filterMap.mpr ((nodup_incident hs v).imp ?_)
    rintro e e' hne b hb b' hb' rfl
    obtain ⟨l, -, rfl⟩ := Option.map_eq_some_iff.mp hb
    obtain ⟨l', -, heq⟩ := Option.map_eq_some_iff.mp hb'
    exact hne (congrArg Prod.fst heq).symm
  refine (Multiset.Nodup.ext (Multiset.coe_nodup.mpr hnodup)
    (s.edges.nodup_table.filter _)).mpr ?_
  rintro ⟨e, l⟩
  rw [Multiset.mem_coe, List.mem_filterMap, Multiset.mem_filter, SlotStore.mem_table]
  constructor
  · rintro ⟨k, hk, heq⟩
    obtain ⟨m, hm, heq⟩ := Option.map_eq_some_iff.mp heq
    obtain ⟨rfl, rfl⟩ := Prod.mk.inj heq
    obtain ⟨l, hl, hv⟩ := (mem_incident hs.listed).mp hk
    obtain rfl : m = l := Option.some.inj (hm.symm.trans hl)
    exact ⟨hm, hv⟩
  · rintro ⟨hl, hv⟩
    have hl : s.link? e = some l := hl
    exact ⟨e, (mem_incident hs.listed).mpr ⟨l, hl, hv⟩, by rw [hl]; rfl⟩

/-- The records at a vertex are those of the edges that have a far end. -/
theorem coe_recordsAt {s : Storage} (hs : s.Sound) (v : LocalVertex) :
    (s.recordsAt v : Multiset (LocalVertex × EdgeRecord))
      = s.edges.table.filterMap (fun entry =>
          (entry.2.opposite? v).map (fun w => (w, entry.2.record))) := by
  have hfilter : s.edges.table.filterMap (fun entry =>
        (entry.2.opposite? v).map (fun w => (w, entry.2.record)))
      = (s.edges.table.filter (fun entry => v ∈ entry.2.ends)).filterMap (fun entry =>
        (entry.2.opposite? v).map (fun w => (w, entry.2.record))) := by
    rw [Multiset.filterMap_eq_bind, Multiset.filterMap_eq_bind, Multiset.bind_filter]
    refine Multiset.bind_congr (fun entry _ => ?_)
    by_cases hv : v ∈ entry.2.ends
    · simp [hv]
    · have hnone : entry.2.opposite? v = none := by
        cases ho : entry.2.opposite? v with
        | none => rfl
        | some w => exact absurd (opposite?_eq_some ho ▸ Sym2.mem_mk_left v w) hv
      simp [hv, hnone]
  rw [hfilter, ← coe_linksAt hs, Multiset.filterMap_coe, List.filterMap_filterMap]
  refine congrArg _ (List.filterMap_congr (fun e _ => ?_))
  cases s.link? e <;> rfl

/-- Whatever is collected from the records at a vertex is collected from the
    load there. -/
theorem bind_recordsAt {β : Type} {s : Storage} (hs : s.Sound) (v : LocalVertex)
    (F : LocalVertex → CarriedEdge → Multiset β)
    (G : Sym2 LocalVertex × CarriedEdge → Multiset β)
    (hin : ∀ w x, v ≠ w → G (s(v, w), x) = F w x) (hout : ∀ z x, v ∉ z → G (z, x) = 0) :
    (s.recordsAt v : Multiset (LocalVertex × EdgeRecord)).bind
        (fun near => (near.2.carried : Multiset CarriedEdge).bind (F near.1))
      = s.load.bind G := by
  rw [coe_recordsAt hs, Multiset.bind_filterMap, load, Multiset.bind_assoc]
  refine Multiset.bind_congr ?_
  rintro ⟨e, l⟩ hmem
  have hapart := hs.apart e l (SlotStore.mem_table.mp hmem)
  dsimp only
  rw [Link.load, Multiset.bind_map]
  cases ho : l.opposite? v with
  | none =>
      -- An edge elsewhere has no record at the vertex, and its load counts for nothing.
      have hv := opposite?_eq_none ho
      symm
      refine (Multiset.bind_congr (g := fun _ => 0) (fun x _ => hout _ x hv)).trans ?_
      simp
  | some w =>
      have hends := opposite?_eq_some ho
      have hne : v ≠ w := by
        rintro rfl
        have hdiag : (s(l.first, l.second)).IsDiag := by
          rw [show s(l.first, l.second) = s(v, v) from hends]
          rfl
        exact hapart hdiag
      show (l.record.carried : Multiset CarriedEdge).bind (F w) = _
      refine Multiset.bind_congr (fun x _ => ?_)
      rw [hends]
      exact (hin w x hne).symm

/-- What is found to match at a vertex is the load there that matches. -/
theorem coe_matchingAt {s : Storage} (hs : s.Sound) (p : GlobalEdge → Bool) (v : LocalVertex) :
    (s.matchingAt p v : Multiset GlobalEdge)
      = (s.load.filter (fun entry => v ∈ entry.1 ∧ p entry.2.global = true)).map
          (fun entry => entry.2.global) := by
  have hlist : s.matchingAt p v
      = ((s.incident v).filterMap (fun e => (s.link? e).map (fun l => (e, l)))).flatMap
          (fun entry => (entry.2.record.matching p).map CarriedEdge.global) := by
    rw [matchingAt]
    induction s.incident v with
    | nil => rfl
    | cons e rest ih =>
        rw [List.flatMap_cons, ih]
        cases hl : s.link? e with
        | none => simp [matching, edgeRecord?, hl]
        | some l => simp [matching, edgeRecord?, hl]
  rw [hlist, ← Multiset.coe_bind, coe_linksAt hs, Multiset.bind_filter, load, Multiset.filter_bind,
    Multiset.map_bind]
  refine Multiset.bind_congr (fun entry _ => ?_)
  rw [Link.load, Multiset.filter_map, Multiset.map_map]
  by_cases hv : v ∈ entry.2.ends
  · simp [hv, EdgeRecord.matching]
  · simp [hv, Function.comp_def]

theorem carriedAt_eq (s : Storage) (v : LocalVertex) :
    s.carriedAt v = s.matchingAt (fun _ => true) v := by
  refine List.flatMap_congr (fun e _ => ?_)
  rw [carried, matching]
  cases s.edgeRecord? e with
  | none => rfl
  | some r => simp [EdgeRecord.matching, EdgeRecord.globals]

/-! ## Soundness after a change -/

/-- A storage that loses edges or parts of them stays sound. -/
theorem Sound.shrink {s s' : Storage} (hs : s.Sound) (hv : s'.vertices = s.vertices)
    (hlisted : s'.Listed)
    (hlink : ∀ e l', s'.link? e = some l' → ∃ l, s.link? e = some l ∧ l'.first = l.first
      ∧ l'.second = l.second ∧ l'.record.carried ≠ []) : s'.Sound := by
  have hhas : ∀ v, s'.hasVertex v = s.hasVertex v := by
    intro v
    rw [hasVertex, hv]
    rfl
  refine ⟨hv ▸ hs.vertices, hlisted, ?_, ?_, ?_, ?_⟩
  · intro e l' hl'
    obtain ⟨l, hl, h1, h2, -⟩ := hlink e l' hl'
    rw [hhas, hhas, h1, h2]
    exact hs.live e l hl
  · intro e l' hl'
    obtain ⟨l, hl, h1, h2, -⟩ := hlink e l' hl'
    rw [h1, h2]
    exact hs.apart e l hl
  · intro e l' k m' hl' hm' hends
    obtain ⟨l, hl, h1, h2, -⟩ := hlink e l' hl'
    obtain ⟨m, hm, h3, h4, -⟩ := hlink k m' hm'
    refine hs.single e l k m hl hm ?_
    rw [Link.ends, Link.ends, ← h1, ← h2, ← h3, ← h4]
    exact hends
  · intro e l' hl'
    obtain ⟨-, -, -, -, h⟩ := hlink e l' hl'
    exact h

theorem Sound.removeEdge {s : Storage} (hs : s.Sound) (e : LocalEdge) : (s.removeEdge e).Sound := by
  refine hs.shrink rfl (hs.listed.removeEdge e) (fun k l hl => ?_)
  rw [link?_removeEdge] at hl
  split at hl
  · exact nomatch hl
  · exact ⟨l, hl, rfl, rfl, hs.filled k l hl⟩

theorem Sound.withdraw {s : Storage} (hs : s.Sound) (p : GlobalEdge → Bool) (e : LocalEdge) :
    (s.withdraw p e).Sound := by
  refine hs.shrink (vertices_withdraw p s e) (hs.listed.withdraw p e) (fun k l' hl' => ?_)
  rw [link?_withdraw] at hl'
  split at hl'
  · rename_i hk
    subst hk
    obtain ⟨l, hl, hrest⟩ := Option.bind_eq_some_iff.mp hl'
    exact ⟨l, hl, Link.of_rest? hrest (hs.filled k l hl)⟩
  · exact ⟨l', hl', rfl, rfl, hs.filled k l' hl'⟩

theorem Sound.withdrawAt {s : Storage} (hs : s.Sound) (p : GlobalEdge → Bool) (v : LocalVertex) :
    (s.withdrawAt p v).Sound := by
  unfold Storage.withdrawAt
  generalize s.incident v = es
  induction es generalizing s with
  | nil => exact hs
  | cons e rest ih => exact ih (hs.withdraw p e)

/-- Everything that is kept for a vertex may change. -/
theorem hasVertex_modifyVertex (s : Storage) (v w : LocalVertex)
    (f : VertexRecord → VertexRecord) : (s.modifyVertex v f).hasVertex w = s.hasVertex w := by
  show ((s.vertices.modify v f).get? w).isSome = _
  rw [SlotStore.get?_modify]
  by_cases hw : w = v
  · rw [if_pos hw, hw, Option.isSome_map]
    rfl
  · rw [if_neg hw]
    rfl

theorem Sound.modifyVertex {s : Storage} (hs : s.Sound) (v : LocalVertex)
    (f : VertexRecord → VertexRecord) : (s.modifyVertex v f).Sound := by
  refine ⟨hs.vertices.modify v f, ⟨hs.listed.tidy, hs.listed.nodup, hs.listed.mem_recent⟩, ?_,
    hs.apart, hs.single, hs.filled⟩
  intro e l hl
  rw [hasVertex_modifyVertex, hasVertex_modifyVertex]
  exact hs.live e l hl

theorem vertex?_addVertex {s : Storage} (hs : s.vertices.Tidy) (r : VertexRecord)
    (w : LocalVertex) :
    (s.addVertex r).vertex? w = if w = s.vertices.nextHandle then some r else s.vertex? w :=
  SlotStore.get?_insert hs r w

theorem hasVertex_addVertex {s : Storage} (hs : s.vertices.Tidy) (r : VertexRecord)
    (w : LocalVertex) :
    (s.addVertex r).hasVertex w = true ↔ w = s.vertices.nextHandle ∨ s.hasVertex w = true := by
  rw [hasVertex_iff, hasVertex_iff]
  simp only [vertex?_addVertex hs]
  by_cases hw : w = s.vertices.nextHandle
  · simp [hw]
  · simp [hw]

theorem Sound.addVertex {s : Storage} (hs : s.Sound) (r : VertexRecord) :
    (s.addVertex r).Sound := by
  refine ⟨hs.vertices.insert r, ⟨hs.listed.tidy, hs.listed.nodup, hs.listed.mem_recent⟩, ?_,
    hs.apart, hs.single, hs.filled⟩
  intro e l hl
  obtain ⟨h1, h2⟩ := hs.live e l hl
  exact ⟨(hasVertex_addVertex hs.vertices r _).mpr (Or.inr h1),
    (hasVertex_addVertex hs.vertices r _).mpr (Or.inr h2)⟩

theorem Sound.removeVertex {s : Storage} (hs : s.Sound) (v : LocalVertex) :
    (s.removeVertex v).Sound := by
  have hv : (s.removeVertex v).vertices = s.vertices.erase v := by
    show ((s.incident v).foldl Storage.removeEdge s).vertices.erase v = _
    rw [vertices_foldl_removeEdge]
  have hkeep : ∀ e l, (s.removeVertex v).link? e = some l → s.link? e = some l ∧ v ∉ l.ends := by
    intro e l hl
    rw [link?_removeVertex] at hl
    split at hl
    · exact nomatch hl
    · rename_i he
      exact ⟨hl, fun hmem => he ((mem_incident hs.listed).mpr ⟨l, hl, hmem⟩)⟩
  have hhas : ∀ w, w ≠ v → s.hasVertex w = true → (s.removeVertex v).hasVertex w = true := by
    intro w hw h
    obtain ⟨r, hr⟩ := hasVertex_iff.mp h
    refine hasVertex_iff.mpr ⟨r, ?_⟩
    rw [vertex?_removeVertex, if_neg hw, hr]
  refine ⟨hv ▸ hs.vertices.erase v, hs.listed.removeVertex v, ?_, ?_, ?_, ?_⟩
  · intro e l hl
    obtain ⟨hl, hnot⟩ := hkeep e l hl
    obtain ⟨h1, h2⟩ := hs.live e l hl
    rw [Link.ends, Sym2.mem_iff, not_or] at hnot
    exact ⟨hhas _ (Ne.symm hnot.1) h1, hhas _ (Ne.symm hnot.2) h2⟩
  · intro e l hl
    exact hs.apart e l (hkeep e l hl).1
  · intro e l k m hl hm hends
    exact hs.single e l k m (hkeep e l hl).1 (hkeep k m hm).1 hends
  · intro e l hl
    exact hs.filled e l (hkeep e l hl).1

theorem Sound.modifyEdge {s : Storage} (hs : s.Sound) (e : LocalEdge)
    {f : EdgeRecord → EdgeRecord} (hf : ∀ r, r.carried ≠ [] → (f r).carried ≠ []) :
    (s.modifyEdge e f).Sound := by
  refine hs.shrink rfl (hs.listed.modifyEdge e f) (fun k l' hl' => ?_)
  rw [link?_modifyEdge] at hl'
  split at hl'
  · rename_i hk
    subst hk
    obtain ⟨l, hl, rfl⟩ := Option.map_eq_some_iff.mp hl'
    exact ⟨l, hl, rfl, rfl, hf _ (hs.filled k l hl)⟩
  · exact ⟨l', hl', rfl, rfl, hs.filled k l' hl'⟩

theorem Sound.addEdge {s : Storage} (hs : s.Sound) {a b : LocalVertex} {r : EdgeRecord}
    (hne : a ≠ b) (ha : s.hasVertex a = true) (hb : s.hasVertex b = true) (hr : r.carried ≠ [])
    (hnew : ∀ e l, s.link? e = some l → l.ends ≠ s(a, b)) : (s.addEdge a b r).Sound := by
  refine ⟨hs.vertices, hs.listed.addEdge a b r, ?live, ?apart, ?single, ?filled⟩
  case live =>
    intro e l hl
    rw [link?_addEdge hs.listed] at hl
    split at hl
    · obtain rfl := Option.some.inj hl
      exact ⟨ha, hb⟩
    · exact hs.live e l hl
  case apart =>
    intro e l hl
    rw [link?_addEdge hs.listed] at hl
    split at hl
    · obtain rfl := Option.some.inj hl
      exact hne
    · exact hs.apart e l hl
  case single =>
    -- Of two edges with the same ends, neither or both are the new one.
    intro e l k m hl hm hends
    rw [link?_addEdge hs.listed] at hl hm
    split at hl
    · rename_i he
      obtain rfl := Option.some.inj hl
      split at hm
      · rename_i hk
        exact he.trans hk.symm
      · exact absurd hends.symm (hnew k m hm)
    · split at hm
      · obtain rfl := Option.some.inj hm
        exact absurd hends (hnew e l hl)
      · exact hs.single e l k m hl hm hends
  case filled =>
    intro e l hl
    rw [link?_addEdge hs.listed] at hl
    split at hl
    · obtain rfl := Option.some.inj hl
      exact hr
    · exact hs.filled e l hl

theorem Sound.attach {s : Storage} (hs : s.Sound) {a b : LocalVertex} (properties : List Value)
    {carried : List CarriedEdge} (hne : a ≠ b) (ha : s.hasVertex a = true)
    (hb : s.hasVertex b = true) (hc : carried ≠ []) : (s.attach a b properties carried).Sound := by
  unfold Storage.attach
  split
  · exact hs.modifyEdge _ (fun r _ hnil => hc (List.append_eq_nil_iff.mp hnil).2)
  · rename_i hnone
    exact hs.addEdge hne ha hb hc (fun e l hl => edgeBetween?_of_none hs.listed hnone hl)

/-- Links that may be attached in a row. -/
def Fit (s : Storage) (l : Link) : Prop :=
  l.first ≠ l.second ∧ s.hasVertex l.first = true ∧ s.hasVertex l.second = true
    ∧ l.record.carried ≠ []

theorem Fit.attach {s : Storage} {l m : Link} (hl : s.Fit l) :
    (s.attach m.first m.second m.record.properties m.record.carried).Fit l := by
  have hhas : ∀ v, (s.attach m.first m.second m.record.properties m.record.carried).hasVertex v
      = s.hasVertex v := by
    intro v
    rw [hasVertex, vertices_attach]
    rfl
  obtain ⟨hne, hfirst, hsecond, hfilled⟩ := hl
  exact ⟨hne, (hhas _).trans hfirst, (hhas _).trans hsecond, hfilled⟩

theorem Sound.attachLinks {s : Storage} (hs : s.Sound) {links : List Link}
    (h : ∀ l ∈ links, s.Fit l) : (s.attachLinks links).Sound := by
  induction links generalizing s with
  | nil => exact hs
  | cons l rest ih =>
      obtain ⟨hne, ha, hb, hc⟩ := h l (List.mem_cons_self ..)
      exact ih (hs.attach _ hne ha hb hc) (fun m hm => (h m (List.mem_cons_of_mem _ hm)).attach)

/-- Without edges nothing can be wrong with them. -/
theorem sound_of_no_edges {s : Storage} (hv : s.vertices.Tidy) (he : s.edges.Tidy)
    (hr : s.recent = []) (hnone : ∀ e, s.link? e = none) : s.Sound := by
  have hnot : ∀ e l, s.link? e ≠ some l := by
    intro e l hl
    rw [hnone] at hl
    exact nomatch hl
  refine ⟨hv, ⟨he, hr ▸ List.nodup_nil, fun e => ?_⟩, fun e l hl => absurd hl (hnot e l),
    fun e l hl => absurd hl (hnot e l), fun e l _ _ hl => absurd hl (hnot e l),
    fun e l hl => absurd hl (hnot e l)⟩
  rw [hr, hnone]
  simp

theorem sound_clear (s : Storage) : s.clear.Sound :=
  sound_of_no_edges (SlotStore.Tidy.clear _) (SlotStore.Tidy.clear _) rfl (SlotStore.get?_clear _)

theorem sound_empty : empty.Sound :=
  sound_of_no_edges SlotStore.tidy_empty SlotStore.tidy_empty rfl SlotStore.get?_empty

end Storage

end NestedGraph
