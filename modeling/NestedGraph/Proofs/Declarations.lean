import NestedGraph.Attribute.Builder
import NestedGraph.Proofs.Slots

/-! # Declarations — what a row of them builds

    A register is ALIGNED when its columns stand side by side and its map
    has the slot of each type.  Every declaration keeps it so, also one
    that is refused.  The builder goes on after a refusal, but what it
    answers depends on the FIRST REPEAT alone: the first declaration of a
    type that stands in its category already.  Without one, each category
    holds what was declared for it, and the type that every configuration
    has there. -/

namespace NestedGraph

/-! ## Registers -/

namespace Register

variable {r : Register} {type : AttributeType}

/-- The columns of a register stand side by side, and its map has the slot of
    each type. -/
structure Aligned (r : Register) : Prop where
  names : r.names = r.types.map AttributeType.name
  initials : r.initials = r.types.map AttributeType.initial
  position : ∀ type i, r.position? type = some i ↔ r.types[i]? = some type

theorem aligned_empty (kind : String) : (empty kind).Aligned :=
  ⟨rfl, rfl, fun _ _ => ⟨fun h => (nomatch h), fun h => (nomatch h)⟩⟩

theorem Aligned.contains_iff (h : r.Aligned) : r.contains type = true ↔ type ∈ r.types := by
  rw [contains, Option.isSome_iff_exists, List.mem_iff_getElem?]
  exact exists_congr (fun i => h.position type i)

/-- No type has two slots. -/
theorem Aligned.nodup (h : r.Aligned) : r.types.Nodup := by
  refine List.nodup_iff_injective_getElem.mpr (fun i j heq => Fin.ext ?_)
  have hi := (h.position r.types[i.val] i.val).mpr (List.getElem?_eq_getElem i.isLt)
  have hj := (h.position r.types[i.val] j.val).mpr
    ((List.getElem?_eq_getElem j.isLt).trans (congrArg some heq.symm))
  exact Option.some.inj (hi.symm.trans hj)

theorem position?_insert (r : Register) (type other : AttributeType) :
    (r.insert type).position? other
      = if other = type then some r.types.length else r.position? other := by
  show List.lookup other ((type, r.types.length) :: r.slots) = _
  rw [List.lookup_cons]
  by_cases h : other = type
  · rw [if_pos h, beq_iff_eq.mpr h]
  · rw [if_neg h, beq_eq_false_iff_ne.mpr h]
    rfl

theorem Aligned.insert (h : r.Aligned) (hnew : type ∉ r.types) : (r.insert type).Aligned := by
  refine ⟨?_, ?_, fun other i => ?_⟩
  · simp [Register.insert, h.names]
  · simp [Register.insert, h.initials]
  · rw [position?_insert]
    show _ ↔ (r.types ++ [type])[i]? = some other
    by_cases heq : other = type
    · subst heq
      have hold : ∀ j, r.types[j]? ≠ some other := fun j hj => hnew (List.mem_of_getElem? hj)
      rw [if_pos rfl, List.getElem?_append]
      split
      · rename_i hlt
        exact ⟨fun hi => absurd (Option.some.inj hi) (Nat.ne_of_gt hlt),
          fun hi => absurd hi (hold i)⟩
      · rename_i hle
        rw [List.getElem?_singleton]
        constructor
        · intro hi
          rw [← Option.some.inj hi, Nat.sub_self, if_pos rfl]
        · intro hi
          split at hi
          · exact congrArg some (by omega)
          · cases hi
    · have hnot : ∀ j : Nat, [type][j]? ≠ some other := by
        intro j hj
        exact heq (List.mem_singleton.mp (List.mem_of_getElem? hj))
      rw [if_neg heq, h.position, List.getElem?_append]
      split
      · exact Iff.rfl
      · rename_i hle
        rw [List.getElem?_eq_none (Nat.le_of_not_lt hle)]
        exact ⟨fun hi => (nomatch hi), fun hi => absurd hi (hnot _)⟩

theorem Aligned.ensure (h : r.Aligned) (type : AttributeType) : (r.ensure type).Aligned := by
  rw [Register.ensure]
  split
  · exact h
  · rename_i hnew
    exact h.insert (fun hmem => hnew (h.contains_iff.mpr hmem))

theorem kind_ensure (r : Register) (type : AttributeType) : (r.ensure type).kind = r.kind := by
  rw [ensure]
  split <;> rfl

/-- A type is added at the end exactly if it is new. -/
theorem Aligned.types_ensure (h : r.Aligned) (type : AttributeType) :
    (r.ensure type).types = if type ∈ r.types then r.types else r.types ++ [type] := by
  rw [Register.ensure]
  by_cases hmem : type ∈ r.types
  · rw [if_pos hmem, if_pos (h.contains_iff.mpr hmem)]
  · rw [if_neg hmem, if_neg (fun hin => hmem (h.contains_iff.mp hin))]
    rfl

/-- A register that is aligned gives the slots that its layout gives. -/
theorem Aligned.position?_layout (h : r.Aligned) (type : AttributeType) :
    r.layout.position? type = r.position? type := by
  refine Option.ext (fun i => ?_)
  rw [h.position]
  refine ⟨Layout.getElem?_of_position?, fun hi => ?_⟩
  obtain ⟨j, hj⟩ := Option.isSome_iff_exists.mp
    ((r.layout.contains_iff_mem type).mpr (List.mem_of_getElem? hi))
  have hsame := (h.position type j).mpr (Layout.getElem?_of_position? hj)
  have hi' := (h.position type i).mpr hi
  rw [hj, ← hsame, hi']

theorem Aligned.contains_layout (h : r.Aligned) (type : AttributeType) :
    r.layout.contains type = r.contains type := by
  rw [Layout.contains, h.position?_layout]
  rfl

theorem Aligned.layout_ensure (h : r.Aligned) (type : AttributeType) :
    (r.ensure type).layout = r.layout.declareOnce type := by
  rw [Layout.declareOnce, h.contains_layout, Register.ensure]
  split <;> rfl

theorem Aligned.declare_layout (h : r.Aligned) (type : AttributeType) :
    r.layout.declare type = (r.push type).map layout := by
  rw [Layout.declare, h.contains_layout, push]
  split <;> rfl

end Register

/-! ## Rows of declarations -/

/-- The category and the type of a declaration that declares a type. -/
def Declaration.named? : Declaration → Option (Category × AttributeType)
  | .vertex type => some (.vertex, type)
  | .edge type => some (.edge, type)
  | .cluster type => some (.cluster, type)
  | .object type => some (.object, type)
  | _ => none

/-- The types that are declared for a category, in order. -/
def declared (declarations : List Declaration) (category : Category) : List AttributeType :=
  (declarations.filterMap Declaration.named?).filterMap (fun entry =>
    if entry.1 = category then some entry.2 else none)

/-- This type is the first that is declared for its category again. -/
def FirstRepeat (declarations : List Declaration) (category : Category) (type : AttributeType) :
    Prop :=
  ∃ before d after, declarations = before ++ d :: after ∧ d.named? = some (category, type)
    ∧ type ∈ declared before category ∧ ∀ other, (declared before other).Nodup

section Rows

variable {declarations : List Declaration} {d : Declaration} {category other : Category}
  {type : AttributeType}

theorem declared_concat_of_some (h : d.named? = some (category, type)) :
    declared (declarations ++ [d]) other
      = declared declarations other ++ if category = other then [type] else [] := by
  rw [declared, List.filterMap_append, List.filterMap_append]
  refine congrArg _ ?_
  rw [List.filterMap_cons_some h]
  split <;> simp_all

theorem declared_concat_of_none (h : d.named? = none) :
    declared (declarations ++ [d]) other = declared declarations other := by
  simp [declared, h]

theorem declared_append_sublist (before after : List Declaration) (category : Category) :
    (declared before category).Sublist (declared (before ++ after) category) := by
  rw [declared, declared, List.filterMap_append, List.filterMap_append]
  exact List.sublist_append_left ..

/-- Where nothing is declared twice, the last type was not there before. -/
theorem notMem_declared_of_nodup (hd : d.named? = some (category, type))
    (hnodup : (declared (declarations ++ [d]) category).Nodup) :
    type ∉ declared declarations category := by
  rw [declared_concat_of_some hd, if_pos rfl] at hnodup
  have hapart := (List.nodup_append.mp hnodup).2.2
  exact fun hmem => hapart type hmem type (List.mem_singleton_self _) rfl

/-- After the first repeat, a type is there twice. -/
theorem FirstRepeat.not_nodup (h : FirstRepeat declarations category type) :
    ¬ (declared declarations category).Nodup := by
  obtain ⟨before, d, after, rfl, hd, hmem, -⟩ := h
  intro hnodup
  rw [← List.singleton_append, ← List.append_assoc] at hnodup
  have hpart := hnodup.sublist (declared_append_sublist (before ++ [d]) after category)
  exact notMem_declared_of_nodup hd hpart hmem

/-- One more declaration is the first repeat, or one before it was. -/
theorem firstRepeat_concat_iff :
    FirstRepeat (declarations ++ [d]) category type ↔ FirstRepeat declarations category type
      ∨ d.named? = some (category, type) ∧ type ∈ declared declarations category
        ∧ ∀ other, (declared declarations other).Nodup := by
  constructor
  · rintro ⟨before, d', after, heq, hd, hmem, hnodup⟩
    rcases List.eq_nil_or_concat after with rfl | ⟨after, last, rfl⟩
    · obtain ⟨rfl, hlast⟩ := List.append_inj' heq rfl
      obtain rfl := (List.cons.inj hlast).1
      exact Or.inr ⟨hd, hmem, hnodup⟩
    · rw [List.concat_eq_append, ← List.cons_append, ← List.append_assoc] at heq
      obtain ⟨rfl, -⟩ := List.append_inj' heq rfl
      exact Or.inl ⟨before, d', after, rfl, hd, hmem, hnodup⟩
  · rintro (⟨before, d', after, rfl, hd, hmem, hnodup⟩ | ⟨hd, hmem, hnodup⟩)
    · exact ⟨before, d', after ++ [d], by simp, hd, hmem, hnodup⟩
    · exact ⟨declarations, d, [], rfl, hd, hmem, hnodup⟩

/-- There is a first repeat exactly if some type is declared twice in one
    category. -/
theorem exists_firstRepeat_iff : (∃ category type, FirstRepeat declarations category type)
    ↔ ∃ category, ¬ (declared declarations category).Nodup := by
  refine ⟨fun ⟨category, type, h⟩ => ⟨category, h.not_nodup⟩, ?_⟩
  induction declarations using List.reverseRecOn with
  | nil => exact fun ⟨_, h⟩ => absurd List.nodup_nil h
  | append_singleton declarations d ih =>
      rintro ⟨category, hrepeat⟩
      by_cases hnodup : ∀ other, (declared declarations other).Nodup
      · cases hd : d.named? with
        | none =>
            rw [declared_concat_of_none hd] at hrepeat
            exact absurd (hnodup category) hrepeat
        | some entry =>
            obtain ⟨own, type⟩ := entry
            rw [declared_concat_of_some hd] at hrepeat
            refine ⟨own, type, firstRepeat_concat_iff.mpr (Or.inr ⟨hd, ?_, hnodup⟩)⟩
            by_contra hnew
            refine hrepeat ?_
            split
            · rename_i hsame
              subst hsame
              rw [← List.concat_eq_append]
              exact (hnodup own).concat hnew
            · rw [List.append_nil]
              exact hnodup category
      · obtain ⟨own, type, h⟩ := ih (not_forall.mp hnodup)
        exact ⟨own, type, firstRepeat_concat_iff.mpr (Or.inl h)⟩

end Rows

/-! ## Builders -/

namespace Builder

variable {b : Builder} {declarations : List Declaration} {d : Declaration} {category : Category}
  {type : AttributeType}

/-- What is taken in goes to its own register, unless it is there. -/
theorem registers_push (b : Builder) (category other : Category) (type : AttributeType) :
    (b.push category type).registers other
      = if other = category then (b.registers category).ensure type else b.registers other := by
  rw [push, Register.push, Register.ensure]
  split
  · rename_i r hr
    split at hr
    · cases hr
    · rename_i hnew
      obtain rfl := Except.ok.inj hr
      rw [if_neg hnew]
  · rename_i e he
    split at he
    · rename_i hold
      rw [if_pos hold]
      split
      · rename_i heq
        rw [heq]
      · rfl
    · cases he

theorem error_push (b : Builder) (category : Category) (type : AttributeType) :
    (b.push category type).error
      = if (b.registers category).contains type then
          b.error.or (some (.duplicateType (b.registers category).kind type.name))
        else b.error := by
  rw [push, Register.push]
  by_cases h : (b.registers category).contains type = true
  · rw [if_pos h, if_pos h]
  · rw [if_neg h, if_neg h]

theorem take_of_some (h : d.named? = some (category, type)) : b.take d = b.push category type := by
  cases d <;> cases h <;> rfl

theorem take_of_none (h : d.named? = none) :
    (b.take d).registers = b.registers ∧ (b.take d).error = b.error := by
  cases d <;> first | exact ⟨rfl, rfl⟩ | cases h

theorem takeAll_concat (b : Builder) (declarations : List Declaration) (d : Declaration) :
    b.takeAll (declarations ++ [d]) = (b.takeAll declarations).take d := List.foldl_concat ..

/-- What a builder keeps of the declarations that it took in. -/
structure Keeps (b : Builder) (declarations : List Declaration) : Prop where
  aligned : ∀ category, (b.registers category).Aligned
  kind : ∀ category, (b.registers category).kind = category.kind
  mem : ∀ category type, type ∈ (b.registers category).types ↔ type ∈ declared declarations category
  /-- As long as nothing is repeated, everything is there in its order. -/
  types : ∀ category, (∀ other, (declared declarations other).Nodup) →
    (b.registers category).types = declared declarations category
  error : ∀ e, b.error = some e ↔ ∃ category type, FirstRepeat declarations category type
    ∧ e = .duplicateType category.kind type.name

theorem keeps_blank : blank.Keeps [] := by
  refine ⟨fun _ => Register.aligned_empty _, fun _ => rfl, fun _ _ => Iff.rfl, fun _ _ => rfl,
    fun e => ?_⟩
  refine ⟨fun h => (nomatch h), fun ⟨category, type, h, _⟩ => ?_⟩
  exact absurd List.nodup_nil h.not_nodup

/-- Nothing is refused exactly if no type is declared twice. -/
theorem Keeps.error_eq_none_iff (h : b.Keeps declarations) :
    b.error = none ↔ ∀ category, (declared declarations category).Nodup := by
  rw [← not_iff_not, ← ne_eq, Option.ne_none_iff_exists', not_forall, ← exists_firstRepeat_iff]
  constructor
  · rintro ⟨e, he⟩
    obtain ⟨category, type, hfirst, -⟩ := (h.error e).mp he
    exact ⟨category, type, hfirst⟩
  · rintro ⟨category, type, hfirst⟩
    exact ⟨_, (h.error _).mpr ⟨category, type, hfirst, rfl⟩⟩

/-- A declaration that declares no type says nothing about types. -/
theorem Keeps.take_of_none (h : b.Keeps declarations) (hd : d.named? = none) :
    (b.take d).Keeps (declarations ++ [d]) := by
  obtain ⟨hregisters, herror⟩ := Builder.take_of_none (b := b) hd
  have hdeclared : ∀ category,
      declared (declarations ++ [d]) category = declared declarations category :=
    fun _ => declared_concat_of_none hd
  refine ⟨?_, ?_, ?_, ?_, fun e => ?_⟩
  · rw [hregisters]
    exact h.aligned
  · rw [hregisters]
    exact h.kind
  · simp only [hregisters, hdeclared]
    exact h.mem
  · simp only [hregisters, hdeclared]
    exact h.types
  · rw [herror, h.error]
    simp [firstRepeat_concat_iff, hd]

/-- A register holds one type more, its own. -/
theorem Keeps.mem_push (h : b.Keeps declarations) (hd : d.named? = some (category, type))
    (other : Category) (own : AttributeType) :
    own ∈ ((b.push category type).registers other).types
      ↔ own ∈ declared (declarations ++ [d]) other := by
  rw [registers_push, declared_concat_of_some hd, List.mem_append, ← h.mem]
  by_cases heq : other = category
  · subst heq
    rw [if_pos rfl, if_pos rfl, (h.aligned other).types_ensure, List.mem_singleton]
    split
    · rename_i hold
      exact ⟨Or.inl, fun hin => hin.elim id (fun hown => hown ▸ hold)⟩
    · rw [List.mem_append, List.mem_singleton]
  · rw [if_neg heq, if_neg (Ne.symm heq)]
    simp

/-- A type that repeats nothing goes to the end of its register. -/
theorem Keeps.types_push (h : b.Keeps declarations) (hd : d.named? = some (category, type))
    (hnodup : ∀ other, (declared (declarations ++ [d]) other).Nodup) (other : Category) :
    ((b.push category type).registers other).types = declared (declarations ++ [d]) other := by
  have hbefore : ∀ other, (declared declarations other).Nodup := fun other =>
    (hnodup other).sublist (declared_append_sublist declarations [d] other)
  rw [registers_push, declared_concat_of_some hd, ← h.types other hbefore]
  by_cases heq : other = category
  · subst heq
    have hnew : type ∉ (b.registers other).types := by
      rw [h.types other hbefore]
      exact notMem_declared_of_nodup hd (hnodup other)
    rw [if_pos rfl, if_pos rfl, (h.aligned other).types_ensure, if_neg hnew]
  · rw [if_neg heq, if_neg (Ne.symm heq), List.append_nil]

/-- Where nothing was refused, the type is the first repeat if its register has
    it. -/
theorem Keeps.firstRepeat_push_iff (h : b.Keeps declarations)
    (hd : d.named? = some (category, type)) {own : Category} {other : AttributeType} :
    FirstRepeat (declarations ++ [d]) own other ↔ FirstRepeat declarations own other
      ∨ (category = own ∧ type = other) ∧ (b.registers category).contains type = true
        ∧ b.error = none := by
  rw [firstRepeat_concat_iff, hd, Option.some.injEq, Prod.mk.injEq,
    (h.aligned category).contains_iff, h.mem, h.error_eq_none_iff]
  refine or_congr_right (and_congr_right (fun heq => ?_))
  rw [heq.1, heq.2]

/-- The first repeat is what is refused, and a later one does not count. -/
theorem Keeps.error_push_iff (h : b.Keeps declarations) (hd : d.named? = some (category, type))
    (e : Error) :
    (b.push category type).error = some e ↔ ∃ own other,
      FirstRepeat (declarations ++ [d]) own other ∧ e = .duplicateType own.kind other.name := by
  rw [error_push, h.kind]
  simp only [h.firstRepeat_push_iff hd]
  cases hb : b.error with
  | some e' =>
      have hsame : (if (b.registers category).contains type then
            (some e').or (some (.duplicateType category.kind type.name)) else some e')
          = some e' := by
        split <;> rfl
      simp only [reduceCtorEq, and_false, or_false]
      rw [hsame, ← hb, h.error]
  | none =>
      have hnone : ∀ own other, ¬ FirstRepeat declarations own other := by
        intro own other hfirst
        exact hfirst.not_nodup (h.error_eq_none_iff.mp hb own)
      simp only [hnone, false_or]
      split
      · rename_i hold
        rw [Option.none_or, Option.some.injEq]
        constructor
        · exact fun he => ⟨category, type, ⟨⟨rfl, rfl⟩, hold, trivial⟩, he.symm⟩
        · rintro ⟨_, _, ⟨⟨rfl, rfl⟩, -⟩, rfl⟩
          rfl
      · rename_i hnew
        exact ⟨fun he => (nomatch he), fun ⟨_, _, ⟨_, hold, _⟩, _⟩ => absurd hold hnew⟩

/-- A type goes to its register, and is refused if it stands there already. -/
theorem Keeps.take_of_some (h : b.Keeps declarations) (hd : d.named? = some (category, type)) :
    (b.take d).Keeps (declarations ++ [d]) := by
  rw [Builder.take_of_some hd]
  refine ⟨fun other => ?aligned, fun other => ?kind, h.mem_push hd,
    fun other hnodup => h.types_push hd hnodup other, h.error_push_iff hd⟩
  case aligned =>
    rw [registers_push]
    split
    · exact (h.aligned category).ensure type
    · exact h.aligned other
  case kind =>
    rw [registers_push]
    split
    · rename_i heq
      rw [Register.kind_ensure, h.kind, heq]
    · exact h.kind other

theorem keeps_takeAll (declarations : List Declaration) :
    (blank.takeAll declarations).Keeps declarations := by
  induction declarations using List.reverseRecOn with
  | nil => exact keeps_blank
  | append_singleton declarations d ih =>
      rw [takeAll_concat]
      cases hd : d.named? with
      | none => exact ih.take_of_none hd
      | some entry => exact ih.take_of_some hd

end Builder

/-! ## What is built -/

/-- A register of a finished configuration: it holds these types, and reads
    and its layout agree on where they are and how they start out. -/
structure Register.Lists (r : Register) (kind : String) (types : List AttributeType) : Prop where
  kind : r.kind = kind
  listed : r.types = types
  nodup : types.Nodup
  names : r.names = types.map AttributeType.name
  /-- A position is the place in the order of the slots. -/
  position : ∀ type (i : Nat), r.position? type = some i ↔ types[i]? = some type
  contains : ∀ type, r.contains type = (r.position? type).isSome
  layoutPosition : ∀ type, r.layout.position? type = r.position? type
  layoutContains : ∀ type, r.layout.contains type = r.contains type
  layoutNames : r.layout.names = r.names
  /-- The value that a slot starts out with is that of the type in its place. -/
  initials : ∀ i : Nat, r.initials[i]? = types[i]?.map AttributeType.initial
  layoutInitials : r.layout.initialValues = r.initials
  reads : ∀ type ∈ types, r.layout.read type r.initials = .ok type.initial
  emptySlots : r.layout.emptySlots = types.map (fun _ => none)

theorem Register.Aligned.lists {r : Register} (h : r.Aligned) : r.Lists r.kind r.types := by
  refine ⟨rfl, rfl, h.nodup, h.names, h.position, fun _ => rfl, h.position?_layout,
    h.contains_layout, h.names.symm, fun i => ?_, h.initials.symm, fun type hmem => ?_, rfl⟩
  · rw [h.initials, List.getElem?_map]
  · obtain ⟨i, hi⟩ := List.mem_iff_getElem?.mp hmem
    refine Layout.read_eq_ok_iff.mpr ⟨i, ?_, ?_, rfl⟩
    · rw [h.position?_layout, h.position, hi]
    · rw [h.initials, List.getElem?_map, hi]
      rfl

/-- The number of the last declaration that gives one. -/
def lastNumber (number? : Declaration → Option Nat) (start : Nat)
    (declarations : List Declaration) : Nat :=
  (declarations.filterMap number?).getLast?.getD start

/-- The room for vertices that a declaration asks for. -/
def Declaration.vertexCapacity? : Declaration → Option Nat
  | .vertexCapacity n => some n
  | _ => none

/-- The room for edges that a declaration asks for. -/
def Declaration.edgeCapacity? : Declaration → Option Nat
  | .edgeCapacity n => some n
  | _ => none

/-- The types of a finished configuration: those that are declared, and at the
    end the one that every configuration has, unless it is declared. -/
def completed (declarations : List Declaration) (category : Category) : List AttributeType :=
  match category.builtIn? with
  | some type =>
      if type ∈ declared declarations category then declared declarations category
      else declared declarations category ++ [type]
  | none => declared declarations category

/-- What declarations build. -/
structure Builds (declarations : List Declaration) : Prop where
  /-- They are refused exactly if a type is declared twice in one category. -/
  refused : (∃ e, (Builder.blank.takeAll declarations).build = .error e)
    ↔ ∃ category, ¬ (declared declarations category).Nodup
  /-- The refusal names the first type that is repeated. -/
  firstRepeat : ∀ e, (Builder.blank.takeAll declarations).build = .error e
    ↔ ∃ category type, FirstRepeat declarations category type
      ∧ e = .duplicateType category.kind type.name
  accepted : ∀ b, (Builder.blank.takeAll declarations).build = .ok b →
    ∀ category, (b.registers category).Lists category.kind (completed declarations category)
  room : ∀ b, (Builder.blank.takeAll declarations).build = .ok b →
    b.vertexCapacity = lastNumber Declaration.vertexCapacity? 16 declarations
      ∧ b.edgeCapacity = lastNumber Declaration.edgeCapacity? 32 declarations
  /-- The configuration of the registers is the one that is built at once. -/
  config : (Builder.blank.takeAll declarations).build.map Builder.config = Config.build declarations

namespace Builder

variable {b : Builder} {declarations : List Declaration} {d : Declaration} {category : Category}

/-! ### Room -/

theorem lastNumber_concat (number? : Declaration → Option Nat) (start : Nat)
    (declarations : List Declaration) (d : Declaration) :
    lastNumber number? start (declarations ++ [d])
      = (number? d).getD (lastNumber number? start declarations) := by
  rw [lastNumber, lastNumber, List.filterMap_append]
  cases hd : number? d with
  | none => simp [hd]
  | some n => simp [hd]

theorem room_push (b : Builder) (category : Category) (type : AttributeType) :
    (b.push category type).vertexCapacity = b.vertexCapacity
      ∧ (b.push category type).edgeCapacity = b.edgeCapacity := by
  rw [push]
  split <;> exact ⟨rfl, rfl⟩

theorem room_takeAll (declarations : List Declaration) :
    (blank.takeAll declarations).vertexCapacity
        = lastNumber Declaration.vertexCapacity? 16 declarations
      ∧ (blank.takeAll declarations).edgeCapacity
        = lastNumber Declaration.edgeCapacity? 32 declarations := by
  induction declarations using List.reverseRecOn with
  | nil => exact ⟨rfl, rfl⟩
  | append_singleton declarations d ih =>
      rw [takeAll_concat, lastNumber_concat, lastNumber_concat]
      cases d with
      | vertexCapacity n => exact ⟨rfl, ih.2⟩
      | edgeCapacity n => exact ⟨ih.1, rfl⟩
      | vertex type => exact ⟨(room_push ..).1.trans ih.1, (room_push ..).2.trans ih.2⟩
      | edge type => exact ⟨(room_push ..).1.trans ih.1, (room_push ..).2.trans ih.2⟩
      | cluster type => exact ⟨(room_push ..).1.trans ih.1, (room_push ..).2.trans ih.2⟩
      | object type => exact ⟨(room_push ..).1.trans ih.1, (room_push ..).2.trans ih.2⟩

/-! ### Step by step and at once -/

theorem error_take (h : b.error = some e) (d : Declaration) : (b.take d).error = some e := by
  cases hd : d.named? with
  | none => rw [(take_of_none hd).2, h]
  | some entry =>
      rw [take_of_some hd, error_push, h]
      split <;> rfl

theorem error_takeAll (h : b.error = some e) (declarations : List Declaration) :
    (b.takeAll declarations).error = some e := by
  induction declarations generalizing b with
  | nil => exact h
  | cons d rest ih => exact ih (error_take h d)

theorem aligned_take (h : ∀ category, (b.registers category).Aligned) (d : Declaration)
    (category : Category) : ((b.take d).registers category).Aligned := by
  cases hd : d.named? with
  | none =>
      rw [(take_of_none hd).1]
      exact h category
  | some entry =>
      rw [take_of_some hd, registers_push]
      split
      · exact (h _).ensure _
      · exact h category

/-- A declaration is refused by both, or leads both to the same
    configuration. -/
theorem declare_config (h : ∀ category, (b.registers category).Aligned) (hb : b.error = none)
    (d : Declaration) :
    b.config.declare d = match (b.take d).error with
      | some e => .error e
      | none => .ok (b.take d).config := by
  cases d with
  | vertexCapacity n | edgeCapacity n => simp [take, hb, Config.declare, config]
  | vertex type | edge type | cluster type | object type =>
      simp only [Config.declare, config, (h _).declare_layout, take, push]
      generalize Register.push _ type = result
      cases result <;> simp [hb, Except.map]

/-- As long as nothing was refused, to go on builds what is built at once. -/
theorem build_takeAll (h : ∀ category, (b.registers category).Aligned) (hb : b.error = none)
    (declarations : List Declaration) :
    (b.takeAll declarations).build.map config
      = (b.config.declareAll declarations).map Config.complete := by
  induction declarations generalizing b with
  | nil =>
      have hfinish : b.finish.config = b.config.complete := by
        simp [finish, config, Config.complete, Category.builtIn?, (h _).layout_ensure]
      show (match b.error with
        | some e => .error e
        | none => .ok b.finish : Except Error Builder).map _ = _
      rw [hb]
      exact congrArg Except.ok hfinish
  | cons d rest ih =>
      have hd := declare_config h hb d
      cases he : (b.take d).error with
      | none =>
          rw [he] at hd
          rw [Config.declareAll, hd]
          exact ih (aligned_take h d) he
      | some e =>
          have hlast := error_takeAll he rest
          rw [he] at hd
          rw [Config.declareAll, hd]
          show ((b.take d).takeAll rest).build.map config = _
          rw [build, hlast]
          rfl

theorem build_eq_ok_iff {b' : Builder} : b.build = .ok b' ↔ b.error = none ∧ b.finish = b' := by
  rw [build]
  cases b.error <;> simp

theorem build_eq_error_iff {e : Error} : b.build = .error e ↔ b.error = some e := by
  rw [build]
  cases b.error <;> simp

/-- A finished register has its built-in type at the end, unless that was
    declared. -/
theorem Keeps.lists_finish (h : b.Keeps declarations) (hb : b.error = none) (category : Category) :
    (b.finish.registers category).Lists category.kind (completed declarations category) := by
  have hnodup := h.error_eq_none_iff.mp hb
  have haligned := h.aligned category
  have htypes := h.types category hnodup
  rw [← h.kind category, completed]
  show ((match category.builtIn? with
    | some type => (b.registers category).ensure type
    | none => b.registers category : Register)).Lists _ _
  cases category.builtIn? with
  | none => exact htypes ▸ haligned.lists
  | some type =>
      have hensured := (haligned.ensure type).lists
      rwa [Register.kind_ensure, haligned.types_ensure, htypes] at hensured

/-- **CONFIGURATIONS**: a row of declarations, of any length and in any order,
    is refused exactly if a type is declared twice in one category, and then
    for the first type that is repeated.  Otherwise each category holds what
    was declared for it, in order, and at the end the type that every
    configuration has, unless it was declared; every type is found in its
    place, and its slot starts out with its own value. -/
theorem builds_declarations (declarations : List Declaration) : Builds declarations := by
  have hkeeps := keeps_takeAll declarations
  constructor
  case refused =>
    simp only [build_eq_error_iff, hkeeps.error]
    rw [← exists_firstRepeat_iff]
    exact ⟨fun ⟨_, category, type, h, _⟩ => ⟨category, type, h⟩,
      fun ⟨category, type, h⟩ => ⟨_, category, type, h, rfl⟩⟩
  case firstRepeat =>
    intro e
    rw [build_eq_error_iff, hkeeps.error]
  case accepted =>
    intro b hb category
    obtain ⟨herror, rfl⟩ := build_eq_ok_iff.mp hb
    exact hkeeps.lists_finish herror category
  case room =>
    intro b hb
    obtain ⟨-, rfl⟩ := build_eq_ok_iff.mp hb
    exact room_takeAll declarations
  case config =>
    have hblank : blank.config = Config.blank := rfl
    rw [build_takeAll (fun category => Register.aligned_empty category.kind) rfl declarations,
      hblank, Config.build]
    cases Config.blank.declareAll declarations <;> rfl

/-- Of two types that are repeated, the one that is repeated first is named. -/
example : (blank.takeAll [.vertex vertexIndex, .edge ⟨"weight", .integer 0, 0⟩, .edgeCapacity 8,
      .edge ⟨"weight", .integer 0, 0⟩, .vertex vertexIndex]).error
    = some (.duplicateType "edge property" "weight") := by
  decide

end Builder

end NestedGraph
