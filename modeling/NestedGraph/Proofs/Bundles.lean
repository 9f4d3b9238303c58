import NestedGraph.Proofs.Alike
import NestedGraph.Proofs.Relocation

/-! # Bundles — the record between two vertices

    Two vertices of a cluster are joined by one edge at most, so what that
    edge keeps is found by its ends.  Each change to a storage is told here
    by the record that it leaves between two given vertices: records that
    are attached are MERGED in their order, under the properties of the
    first, and where something is withdrawn a PART is left, or nothing. -/

namespace NestedGraph

/-! ## Records -/

namespace EdgeRecord

variable {p q : GlobalEdge → Bool} {r : EdgeRecord}

/-- One record for several, with the properties of the first. -/
def merged? : List EdgeRecord → Option EdgeRecord
  | [] => none
  | r :: rest => some ⟨r.properties, r.carried ++ rest.flatMap EdgeRecord.carried⟩

/-- The part of a record that matches, unless nothing does. -/
def part? (p : GlobalEdge → Bool) (r : EdgeRecord) : Option EdgeRecord :=
  if (r.matching p).isEmpty then none else some (r.part p)

@[simp] theorem merged?_toList (r : Option EdgeRecord) : merged? r.toList = r := by
  cases r with
  | none => rfl
  | some r => simp [merged?]

/-- Merging a part first comes to the same. -/
theorem merged?_append (rs ss : List EdgeRecord) :
    merged? ((merged? rs).toList ++ ss) = merged? (rs ++ ss) := by
  cases rs with
  | nil => rfl
  | cons r rest => simp [merged?]

/-- A record comes together again from its matching edges, one by one. -/
theorem merged?_singles (p : GlobalEdge → Bool) (r : EdgeRecord) :
    merged? ((r.matching p).map (fun x => ⟨r.properties, [x]⟩)) = r.part? p := by
  have hflat : ∀ xs : List CarriedEdge,
      (xs.map (fun x => (⟨r.properties, [x]⟩ : EdgeRecord))).flatMap EdgeRecord.carried = xs := by
    intro xs
    rw [List.flatMap_map]
    exact List.flatMap_singleton' xs
  rw [part?, part]
  cases r.matching p with
  | nil => rfl
  | cons x rest =>
      rw [List.map_cons, merged?, hflat]
      rfl

theorem matching_congr (h : ∀ x ∈ r.carried, p x.global = q x.global) :
    r.matching p = r.matching q :=
  List.filter_congr h

theorem part?_congr (h : ∀ x ∈ r.carried, p x.global = q x.global) : r.part? p = r.part? q := by
  rw [part?, part?, part, part, matching_congr h]

theorem bind_part?_congr {o : Option EdgeRecord}
    (h : ∀ r, o = some r → ∀ x ∈ r.carried, p x.global = q x.global) :
    o.bind (part? p) = o.bind (part? q) := by
  cases o with
  | none => rfl
  | some r => exact part?_congr (h r rfl)

end EdgeRecord

/-- What is left on an edge that carried something is the part that does not
    match. -/
theorem Link.record_rest? (p : GlobalEdge → Bool) {l : Link} (hl : l.record.carried ≠ []) :
    (l.rest? p).map Link.record = l.record.part? (fun e => !p e) := by
  have hwithout : l.record.without p = l.record.part (fun e => !p e) := rfl
  have hmatching : l.record.matching (fun e => !p e) = (l.record.without p).carried := rfl
  rw [Link.rest?, EdgeRecord.part?, hmatching, ← hwithout]
  split
  · -- Nothing matches, so all of it stays.
    rename_i hnone
    have hall : (l.record.without p).carried = l.record.carried := by
      refine List.filter_eq_self.mpr (fun x hx => ?_)
      simpa using List.filter_eq_nil_iff.mp (List.isEmpty_iff.mp hnone) x hx
    rw [hall, if_neg (fun h => hl (List.isEmpty_iff.mp h)), Option.map_some]
    exact congrArg (fun carried => some (EdgeRecord.mk l.record.properties carried)) hall.symm
  · split <;> rfl

theorem Link.ends_of_rest? {p : GlobalEdge → Bool} {l l' : Link} (h : l.rest? p = some l')
    (hl : l.record.carried ≠ []) : l'.ends = l.ends := by
  obtain ⟨hfirst, hsecond, -⟩ := Link.of_rest? h hl
  rw [Link.ends, Link.ends, hfirst, hsecond]

/-! ## Storages -/

namespace Storage

open EdgeRecord

variable {s s' : Storage} {a b v w x y : LocalVertex} {r : EdgeRecord} {p : GlobalEdge → Bool}

/-- What is kept for the edge between two vertices. -/
def recordBetween? (s : Storage) (a b : LocalVertex) : Option EdgeRecord :=
  (s.edgeBetween? a b).bind s.edgeRecord?

theorem Sound.recordBetween?_eq_some (hs : s.Sound) :
    s.recordBetween? a b = some r
      ↔ ∃ e l, s.link? e = some l ∧ l.ends = s(a, b) ∧ l.record = r := by
  rw [recordBetween?, Option.bind_eq_some_iff]
  constructor
  · rintro ⟨e, he, hr⟩
    obtain ⟨l, hl, hends⟩ := hs.edgeBetween?_eq_some.mp he
    obtain ⟨l', hl', rfl⟩ := Option.map_eq_some_iff.mp hr
    obtain rfl := Option.some.inj (hl.symm.trans hl')
    exact ⟨e, l, hl, hends, rfl⟩
  · rintro ⟨e, l, hl, hends, rfl⟩
    exact ⟨e, hs.edgeBetween?_eq_some.mpr ⟨l, hl, hends⟩, by rw [edgeRecord?, hl]; rfl⟩

theorem Sound.recordBetween?_eq_none (hs : s.Sound) :
    s.recordBetween? a b = none ↔ ∀ e l, s.link? e = some l → l.ends ≠ s(a, b) := by
  rw [Option.eq_none_iff_forall_ne_some]
  constructor
  · intro h e l hl hends
    exact h l.record (hs.recordBetween?_eq_some.mpr ⟨e, l, hl, hends, rfl⟩)
  · intro h r hr
    obtain ⟨e, l, hl, hends, -⟩ := hs.recordBetween?_eq_some.mp hr
    exact h e l hl hends

/-- At a handle that does not resolve there is no edge. -/
theorem Sound.recordBetween?_of_dead (hs : s.Sound) (ha : s.vertex? a = none) :
    s.recordBetween? a b = none := by
  refine hs.recordBetween?_eq_none.mpr (fun e l hl hends => ?_)
  have hlive := hs.hasVertex_of_ends hl (hends ▸ Sym2.mem_mk_left a b)
  obtain ⟨r, hr⟩ := hasVertex_iff.mp hlive
  exact nomatch ha.symm.trans hr

theorem Sound.recordBetween?_self (hs : s.Sound) (a : LocalVertex) :
    s.recordBetween? a a = none :=
  hs.recordBetween?_eq_none.mpr (fun _ _ hl hends => hs.ends_ne hl hends rfl)

/-- What the record between two vertices carries is the load there. -/
theorem Sound.mem_load_of_recordBetween? (hs : s.Sound) (h : s.recordBetween? a b = some r)
    {x : CarriedEdge} (hx : x ∈ r.carried) : (s(a, b), x) ∈ s.load := by
  obtain ⟨e, l, hl, hends, rfl⟩ := hs.recordBetween?_eq_some.mp h
  exact mem_load.mpr ⟨e, l, hl, hends.symm, hx⟩

/-! ### After a change -/

/-- Edges that change one by one, under their handles and between their ends,
    change the records one by one. -/
theorem Sound.recordBetween?_bind (hs : s.Sound) (hs' : s'.Sound) (φ : Link → Option Link)
    (f : EdgeRecord → Option EdgeRecord) (hlink : ∀ e, s'.link? e = (s.link? e).bind φ)
    (hends : ∀ e l l', s.link? e = some l → φ l = some l' → l'.ends = l.ends)
    (hf : ∀ e l, s.link? e = some l → l.ends = s(a, b) → (φ l).map Link.record = f l.record) :
    s'.recordBetween? a b = (s.recordBetween? a b).bind f := by
  refine Option.ext (fun r => ?_)
  rw [hs'.recordBetween?_eq_some, Option.bind_eq_some_iff]
  constructor
  · rintro ⟨e, l', hl', hends', rfl⟩
    rw [hlink, Option.bind_eq_some_iff] at hl'
    obtain ⟨l, hl, hφ⟩ := hl'
    have hsame : l.ends = s(a, b) := (hends e l l' hl hφ).symm.trans hends'
    refine ⟨l.record, hs.recordBetween?_eq_some.mpr ⟨e, l, hl, hsame, rfl⟩, ?_⟩
    rw [← hf e l hl hsame, hφ]
    rfl
  · rintro ⟨r0, hr0, hr⟩
    obtain ⟨e, l, hl, hsame, rfl⟩ := hs.recordBetween?_eq_some.mp hr0
    rw [← hf e l hl hsame] at hr
    obtain ⟨l', hφ, rfl⟩ := Option.map_eq_some_iff.mp hr
    refine ⟨e, l', ?_, (hends e l l' hl hφ).trans hsame, rfl⟩
    rw [hlink, hl]
    exact hφ

/-- Where the edges with given ends are the same, so is the record. -/
theorem Sound.recordBetween?_congr (hs : s.Sound) (hs' : s'.Sound)
    (h : ∀ e l, l.ends = s(a, b) → (s'.link? e = some l ↔ s.link? e = some l)) :
    s'.recordBetween? a b = s.recordBetween? a b := by
  refine Option.ext (fun r => ?_)
  rw [hs'.recordBetween?_eq_some, hs.recordBetween?_eq_some]
  refine exists_congr (fun e => exists_congr (fun l => ?_))
  exact and_congr_left (fun hl => h e l hl.1)

theorem Sound.recordBetween?_removeVertex (hs : s.Sound) (ha : a ≠ v) (hb : b ≠ v) :
    (s.removeVertex v).recordBetween? a b = s.recordBetween? a b := by
  refine (hs.recordBetween?_bind (hs.removeVertex v) _ some (link?_removeVertex_bind hs.listed v)
    (fun e l l' hl hφ => ?_) (fun e l hl hends => ?_)).trans (Option.bind_fun_some _)
  · split at hφ
    · cases hφ
    · exact congrArg Link.ends (Option.some.inj hφ).symm
  · have hv : v ∉ l.ends := by simp [hends, ha.symm, hb.symm]
    rw [if_neg hv]
    rfl

theorem recordBetween?_addVertex (s : Storage) (r : VertexRecord) (a b : LocalVertex) :
    (s.addVertex r).recordBetween? a b = s.recordBetween? a b := rfl

theorem Sound.recordBetween?_withdrawAt (hs : s.Sound) (p : GlobalEdge → Bool)
    (v w : LocalVertex) : (s.withdrawAt p v).recordBetween? v w
      = (s.recordBetween? v w).bind (part? (fun e => !p e)) := by
  refine hs.recordBetween?_bind (hs.withdrawAt p v) _ _ (link?_withdrawAt_bind hs p v)
    (fun e l l' hl hφ => ?_) (fun e l hl hends => ?_)
  · split at hφ
    · exact Link.ends_of_rest? hφ (hs.filled e l hl)
    · exact congrArg Link.ends (Option.some.inj hφ).symm
  · rw [if_pos (hends ▸ Sym2.mem_mk_left v w)]
    exact Link.record_rest? p (hs.filled e l hl)

theorem Sound.recordBetween?_withdrawAt_of_ne (hs : s.Sound) (p : GlobalEdge → Bool) (ha : a ≠ v)
    (hb : b ≠ v) : (s.withdrawAt p v).recordBetween? a b = s.recordBetween? a b := by
  refine (hs.recordBetween?_bind (hs.withdrawAt p v) _ some (link?_withdrawAt_bind hs p v)
    (fun e l l' hl hφ => ?_) (fun e l hl hends => ?_)).trans (Option.bind_fun_some _)
  · split at hφ
    · exact Link.ends_of_rest? hφ (hs.filled e l hl)
    · exact congrArg Link.ends (Option.some.inj hφ).symm
  · have hv : v ∉ l.ends := by simp [hends, ha.symm, hb.symm]
    rw [if_neg hv]
    rfl

/-! ### Attaching -/

section Attach

variable {l : Link} (hs : s.Sound) (hl : s.Fit l)
include hs hl

theorem Sound.attach_of_fit :
    (s.attach l.first l.second l.record.properties l.record.carried).Sound :=
  hs.attach l.record.properties hl.1 hl.2.1 hl.2.2.1 hl.2.2.2

/-- Between the ends of a link, what it carries comes last. -/
theorem Sound.recordBetween?_attach_of_joins (hends : l.ends = s(a, b)) :
    (s.attach l.first l.second l.record.properties l.record.carried).recordBetween? a b
      = merged? ((s.recordBetween? a b).toList ++ [l.record]) := by
  have hs' := hs.attach_of_fit hl
  revert hs'
  rw [Storage.attach]
  cases he : s.edgeBetween? l.first l.second with
  | some e =>
      intro hs'
      obtain ⟨m, hm, hm'⟩ := hs.edgeBetween?_eq_some.mp he
      have hold := hs.recordBetween?_eq_some.mpr ⟨e, m, hm, hm'.trans hends, rfl⟩
      rw [hold]
      refine hs'.recordBetween?_eq_some.mpr ⟨e,
        { m with record := { m.record with carried := m.record.carried ++ l.record.carried } },
        ?_, hm'.trans hends, ?_⟩
      · rw [link?_modifyEdge, if_pos rfl, hm]
        rfl
      · simp
  | none =>
      intro hs'
      have hold : s.recordBetween? a b = none :=
        hs.recordBetween?_eq_none.mpr (fun e m hm hm' =>
          edgeBetween?_of_none hs.listed he hm (hm'.trans hends.symm))
      rw [hold]
      refine hs'.recordBetween?_eq_some.mpr ⟨s.edges.nextHandle, l, ?_, hends, ?_⟩
      · rw [link?_addEdge hs.listed, if_pos rfl]
      · simp

/-- Between other vertices nothing changes. -/
theorem Sound.recordBetween?_attach_of_ne (hne : l.ends ≠ s(a, b)) :
    (s.attach l.first l.second l.record.properties l.record.carried).recordBetween? a b
      = s.recordBetween? a b := by
  have hother : ∀ m : Link, m.ends = s(a, b) → m.ends ≠ l.ends :=
    fun m hm heq => hne (heq.symm.trans hm)
  refine hs.recordBetween?_congr (hs.attach_of_fit hl) (fun e m hm => ?_)
  rw [Storage.attach]
  split
  · rename_i k hk
    obtain ⟨m', hm', hends'⟩ := hs.edgeBetween?_eq_some.mp hk
    rw [link?_modifyEdge]
    split
    · rename_i hek
      rw [hek, hm']
      refine iff_of_false (fun heq => ?_) (fun heq => ?_)
      · obtain rfl := Option.some.inj heq
        exact hother _ hm hends'
      · obtain rfl := Option.some.inj heq
        exact hother _ hm hends'
    · exact Iff.rfl
  · rw [link?_addEdge hs.listed]
    split
    · rename_i hek
      refine iff_of_false (fun heq => ?_) (fun heq => ?_)
      · obtain rfl := Option.some.inj heq
        exact hother _ hm rfl
      · have hdead : s.link? s.edges.nextHandle = none := SlotStore.get?_nextHandle hs.listed.tidy
        rw [hek, hdead] at heq
        exact nomatch heq
    · exact Iff.rfl

/-- What is attached between two vertices is merged into the record there. -/
theorem Sound.recordBetween?_attach (x y : LocalVertex) :
    (s.attach l.first l.second l.record.properties l.record.carried).recordBetween? x y
      = merged? ((s.recordBetween? x y).toList ++ if l.joins x y then [l.record] else []) := by
  by_cases hjoins : l.joins x y = true
  · rw [if_pos hjoins]
    exact hs.recordBetween?_attach_of_joins hl (Link.joins_iff.mp hjoins)
  · rw [if_neg hjoins, List.append_nil, merged?_toList]
    exact hs.recordBetween?_attach_of_ne hl (fun hends => hjoins (Link.joins_iff.mpr hends))

end Attach

/-- What is attached in a row is merged where it belongs. -/
theorem Sound.recordBetween?_attachLinks (hs : s.Sound) {links : List Link}
    (h : ∀ l ∈ links, s.Fit l) (x y : LocalVertex) :
    (s.attachLinks links).recordBetween? x y
      = merged? ((s.recordBetween? x y).toList
          ++ (links.filter (fun l => l.joins x y)).map Link.record) := by
  induction links generalizing s with
  | nil =>
      rw [List.filter_nil, List.map_nil, List.append_nil, merged?_toList]
      rfl
  | cons l rest ih =>
      have hl := h l (List.mem_cons_self ..)
      obtain ⟨hne, hfirst, hsecond, hfilled⟩ := hl
      have hrest : ∀ m ∈ rest, (s.attach l.first l.second l.record.properties
          l.record.carried).Fit m := fun m hm => (h m (List.mem_cons_of_mem l hm)).attach
      show ((s.attach _ _ _ _).attachLinks rest).recordBetween? x y = _
      rw [ih (hs.attach _ hne hfirst hsecond hfilled) hrest,
        hs.recordBetween?_attach (h l (List.mem_cons_self ..)), merged?_append, List.append_assoc]
      by_cases hj : l.joins x y = true
      · simp [hj]
      · simp [hj]

/-! ### At a vertex -/

theorem toList_of_nodup {α : Type} {L : List α} (hL : L.Nodup) {o : Option α}
    (h : ∀ x, x ∈ L ↔ o = some x) : L = o.toList := by
  have hperm : L.Perm o.toList := by
    refine (List.perm_ext_iff_of_nodup hL ?_).mpr (fun x => ?_)
    · cases o <;> simp
    · rw [h, Option.mem_toList]
  cases o with
  | none => exact List.perm_nil.mp hperm
  | some x => exact List.perm_singleton.mp hperm

/-- Among the edges at a vertex there is the one to another vertex. -/
theorem Sound.filter_incident (hs : s.Sound) (v w : LocalVertex) :
    (s.incident v).filter (fun e => (s.link? e).any (fun l => l.joins v w))
      = (s.edgeBetween? v w).toList := by
  refine toList_of_nodup ((nodup_incident hs v).filter _) (fun e => ?_)
  rw [List.mem_filter, mem_incident hs.listed, hs.edgeBetween?_eq_some, Option.any_eq_true]
  constructor
  · rintro ⟨-, l, hl, hjoins⟩
    exact ⟨l, hl, Link.joins_iff.mp hjoins⟩
  · rintro ⟨l, hl, hends⟩
    exact ⟨⟨l, hl, hends ▸ Sym2.mem_mk_left v w⟩, l, hl, Link.joins_iff.mpr hends⟩

theorem opposite?_of_ends {l : Link} (hne : l.first ≠ l.second) (h : l.ends = s(v, w)) :
    l.opposite? v = some w := by
  rw [Link.opposite?]
  rcases Sym2.eq_iff.mp h with ⟨h1, h2⟩ | ⟨h1, h2⟩
  · rw [if_pos h1, h2]
  · rw [if_neg (fun heq => hne (heq.trans h2.symm)), if_pos h2, h1]

/-- Among the records at a vertex there is the one to another vertex. -/
theorem Sound.recordsAt_to (hs : s.Sound) (v w : LocalVertex) :
    ((s.recordsAt v).filter (fun near => decide (near.1 = w))).map Prod.snd
      = (s.recordBetween? v w).toList := by
  -- Edge by edge: to be the record to that vertex is to join the two.
  have hstep : ∀ e, ((s.link? e).bind (fun l => (l.opposite? v).map (fun u => (u, l.record)))).bind
        (fun near => if near.1 = w then some near.2 else none)
      = if (s.link? e).any (fun l => l.joins v w) = true then s.edgeRecord? e else none := by
    intro e
    cases hl : s.link? e with
    | none => rfl
    | some l =>
        have hapart := hs.apart e l hl
        rw [Option.bind_some, Option.any_some, edgeRecord?, hl]
        cases ho : l.opposite? v with
        | none =>
            rw [if_neg (fun hj => opposite?_eq_none ho (Link.joins_iff.mp hj ▸
              Sym2.mem_mk_left v w))]
            rfl
        | some u =>
            have hiff : l.joins v w = true ↔ u = w := by
              rw [Link.joins_iff]
              constructor
              · intro h
                exact Option.some.inj (ho.symm.trans (opposite?_of_ends hapart h))
              · rintro rfl
                exact opposite?_eq_some ho
            by_cases hu : u = w
            · simp [hu, hiff.mpr hu]
            · have hj : ¬ l.joins v w = true := fun h => hu (hiff.mp h)
              simp [hu, hj]
  have hlist : ((s.recordsAt v).filter (fun near => decide (near.1 = w))).map Prod.snd
      = ((s.incident v).filter (fun e => (s.link? e).any (fun l => l.joins v w))).filterMap
          s.edgeRecord? := by
    rw [List.filterMap_filter, ← List.filterMap_eq_filter, ← List.filterMap_eq_map,
      List.filterMap_filterMap, recordsAt, List.filterMap_filterMap]
    refine List.filterMap_congr (fun e _ => ?_)
    rw [← hstep e]
    refine congrArg _ (funext (fun near => ?_))
    by_cases hw : near.1 = w
    · simp [hw]
    · simp [hw]
  rw [hlist, hs.filter_incident, recordBetween?]
  cases s.edgeBetween? v w with
  | none => rfl
  | some e =>
      show [e].filterMap s.edgeRecord? = _
      rw [Option.bind_some, List.filterMap_cons]
      cases s.edgeRecord? e <;> rfl

/-- The records at a vertex are those of its edges, in their order. -/
theorem Sound.snd_recordsAt (hs : s.Sound) (v : LocalVertex) :
    (s.recordsAt v).map Prod.snd = (s.incident v).filterMap s.edgeRecord? := by
  rw [recordsAt, List.map_filterMap]
  refine List.filterMap_congr (fun e he => ?_)
  obtain ⟨l, hl, hv⟩ := (mem_incident hs.listed).mp he
  obtain ⟨w, hends⟩ := Sym2.mem_iff_exists.mp hv
  rw [edgeRecord?, hl, Option.bind_some, opposite?_of_ends (hs.apart e l hl) hends]
  rfl

/-- What is withdrawn at a vertex from the edge to another one. -/
theorem Sound.withdrawnAt_to (hs : s.Sound) (p : GlobalEdge → Bool) (v w : LocalVertex) :
    ((s.withdrawnAt p v).filter (fun near => decide (near.1 = w))).map Prod.snd
      = ((s.recordBetween? v w).bind (part? p)).toList := by
  have hlist : ((s.withdrawnAt p v).filter (fun near => decide (near.1 = w))).map Prod.snd
      = (((s.recordsAt v).filter (fun near => decide (near.1 = w))).map Prod.snd).filterMap
          (part? p) := by
    rw [withdrawnAt]
    induction s.recordsAt v with
    | nil => rfl
    | cons near rest ih =>
        by_cases hw : near.1 = w
        · by_cases hm : (near.2.matching p).isEmpty = true
          · simpa [hw, hm, part?, part] using ih
          · simpa [hw, hm, part?, part] using ih
        · by_cases hm : (near.2.matching p).isEmpty = true
          · simpa [hw, hm, part] using ih
          · simpa [hw, hm, part] using ih
  rw [hlist, hs.recordsAt_to]
  cases s.recordBetween? v w with
  | none => rfl
  | some r =>
      show [r].filterMap (part? p) = ((part? p) r).toList
      cases hp : part? p r <;> simp [hp]

end Storage

/-! ## Trees -/

namespace Tree

variable {t : Tree} {c : ClusterId} {a b : LocalVertex} {n : Node}

/-- What is kept for the edge between two vertices of a cluster. -/
def recordBetween? (t : Tree) (c : ClusterId) (a b : LocalVertex) : Option EdgeRecord :=
  (t.edgeBetween? c a b).bind (fun e => (t.edgeRecord c e).toOption)

theorem Distinct.edgeRecord_of_mem (hd : t.Distinct) (hn : n ∈ t.nodes) (e : LocalEdge) :
    (t.edgeRecord n.id e).toOption = n.storage.edgeRecord? e := by
  obtain ⟨b, hb, rfl⟩ := hd.find?_of_mem hn
  show (t.edgeRecord b.node.id e).toOption = b.cluster.storage.edgeRecord? e
  rw [edgeRecord, require_of_find? hb, ok_bind]
  cases b.cluster.storage.edgeRecord? e <;> rfl

theorem Distinct.recordBetween?_of_mem (hd : t.Distinct) (hn : n ∈ t.nodes) (a b : LocalVertex) :
    t.recordBetween? n.id a b = n.storage.recordBetween? a b := by
  rw [recordBetween?, hd.edgeBetween?_of_mem hn, Storage.recordBetween?]
  exact congrArg _ (funext (hd.edgeRecord_of_mem hn))

end Tree

end NestedGraph
