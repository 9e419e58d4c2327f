import PropertyAccess.Proofs.Property.Handle
import PropertyAccess.Proofs.Schema.Inherited
import PropertyAccess.Proofs.Schema.LastPlace

/-! What a name means among the properties of a class. A pair of accessors prevails over all
fields, that of the nearest class over those of its ancestors; without a pair it is the last
field that is shown. The type of a pair is handed down the chain: each class puts the arguments
that it gives in the place of the parameters of its parent. -/

namespace PropertyAccess

namespace Schema

/-- The handle of a pair of accessors, with its type as the level sees it. -/
def pairHandle (l : Level) (p : PropertyDecl) : Handle :=
  ⟨p.name, p.type.substitute l.bindings (some l.cls), .accessors p.getter p.setter⟩

variable {σ : Schema} {c : ClassId} {mode : AccessMode} {name : String} {hd : Handle} {l : Level}
  {p : PropertyDecl} {i : Nat} {s : Slot}

/-- The last of the slots that are shown under this name. -/
def SlotPrevails (σ : Schema) (c : ClassId) (mode : AccessMode) (name : String) (i : Nat)
    (s : Slot) : Prop :=
  LastAt (fun s => s.name = name ∧ s.Shown mode) (σ.layout c) i s

/-- The last declaration of a pair, in the nearest class that declares one of that name. -/
structure PairPrevails (σ : Schema) (c : ClassId) (l : Level) (p : PropertyDecl) : Prop where
  nearest : ∃ near far, σ.levels c = near ++ l :: far ∧
    ∀ m ∈ near, ∀ q ∈ m.decl.properties, q.name ≠ p.name
  last : ∃ j, LastAt (fun q => q.name = p.name) l.decl.properties j p

theorem PairPrevails.above (prevails : PairPrevails σ c l p) : l ∈ σ.levels c := by
  obtain ⟨near, far, levels, -⟩ := prevails.nearest
  exact levels ▸ List.mem_append_right near List.mem_cons_self

/-- The type of a pair as it is resolved for `c`. Where `c` declares the pair the self type is
`c`. Otherwise it is the type that the parent sees, with the arguments for the parent's
parameters. -/
structure PairResolved (σ : Schema) (c : ClassId) (d : ClassDecl) (l : Level)
    (p : PropertyDecl) : Prop where
  own : l.cls = c → (pairHandle l p).type = p.type.substitute [] (some c)
  inherited : l.cls ≠ c → ∃ e args f, d.parent = some (e, args) ∧ σ.class? e = some f ∧
    ∃ m ∈ σ.levels e, m.cls = l.cls ∧ m.decl = l.decl ∧
      (pairHandle l p).type = (pairHandle m p).type.substitute (f.params.zip args) none
  closed : d.params = [] → (pairHandle l p).type.parameters = []

theorem pairResolved (hσ : σ.Scoped) {d : ClassDecl} (declared : σ.class? c = some d)
    (above : l ∈ σ.levels c) (names : p.type.parameters ⊆ l.decl.params) :
    PairResolved σ c d l p := by
  obtain ⟨earlier, found⟩ := exists_since declared
  have chain : σ.levels c = ⟨c, d, []⟩ :: levelsAbove d earlier [] := levelsFrom_of_since found
  refine ⟨fun own => ?_, fun other => ?_, fun none => ?_⟩
  · obtain rfl | higher := List.mem_cons.1 (chain ▸ above)
    · rfl
    · have below : l.cls < earlier.length := by
        rw [levelsAbove] at higher
        split at higher
        · cases higher
        · exact cls_lt_of_mem_levelsFrom higher
      rw [length_of_since found] at below
      exact absurd own (Nat.ne_of_lt below)
  · obtain rfl | higher := List.mem_cons.1 (chain ▸ above)
    · exact absurd rfl other
    · cases parent : d.parent with
      | none =>
        rw [levelsAbove, parent] at higher
        cases higher
      | some up =>
        obtain ⟨e, args⟩ := up
        obtain ⟨f, above, params⟩ := exists_parent hσ found parent
        obtain ⟨m, hm, same⟩ := exists_level_of_parent hσ found parent higher
        refine ⟨e, args, f, rfl, above, m, hm, same.cls.symm, same.decl.symm, ?_⟩
        rw [pairHandle, pairHandle, ← params, same.cls]
        exact (same.bindings p.type _ (same.decl ▸ names)).symm
  · exact List.subset_nil.1
      (closes_of_mem_levelsFrom hσ (closes_nil found none) above p.type _ names)

theorem forall_hasProperty_iff {P : PropertyDecl → Prop} :
    (∀ p, σ.HasProperty c p → P p) ↔ ∀ l ∈ σ.levels c, ∀ p ∈ l.decl.properties, P p :=
  ⟨fun all l above p own => all p ⟨l, above, own⟩, fun all p ⟨l, above, own⟩ => all l above p own⟩

theorem find?_slotHandles : (σ.slotHandles c mode).reverse.find? (·.name = name) = some hd ↔
    ∃ i s, SlotPrevails σ c mode name i s ∧ hd = s.handle mode i := by
  unfold slotHandles SlotPrevails
  induction σ.layout c using List.reverseRecOn with
  | nil => simp [lastAt_nil]
  | append_singleton slots t ih =>
    rw [List.zipIdx_append, List.filterMap_append, List.reverse_append, List.find?_append,
      List.zipIdx_singleton, Nat.zero_add]
    simp only [lastAt_concat]
    by_cases shown : t.Shown mode <;> by_cases own : t.name = name
    · simp [slotHandle?_eq, shown, own, Slot.name_handle, eq_comm]
    -- the slot in the end is not shown, or has another name: those before it decide
    all_goals simpa [slotHandle?_eq, shown, own, Slot.name_handle] using ih

theorem find?_accessorHandles : (accessorHandles l).reverse.find? (·.name = name) = some hd ↔
    ∃ p j, LastAt (fun q => q.name = name) l.decl.properties j p ∧ hd = pairHandle l p := by
  rw [accessorHandles, ← List.map_reverse, List.find?_map, Option.map_eq_some_iff]
  refine exists_congr fun p => ?_
  rw [exists_and_right]
  exact and_congr find?_reverse_eq_some_iff eq_comm

theorem find?_accessorHandles_eq_none : (accessorHandles l).reverse.find? (·.name = name) = none ↔
    ∀ q ∈ l.decl.properties, q.name ≠ name := by
  simp [accessorHandles]

theorem find?_pairHandles :
    ((σ.levels c).reverse.flatMap accessorHandles).reverse.find? (·.name = name) = some hd ↔
      ∃ l p, PairPrevails σ c l p ∧ p.name = name ∧ hd = pairHandle l p := by
  rw [List.reverse_flatMap, List.reverse_reverse, List.find?_flatMap,
    List.findSome?_eq_some_iff]
  simp only [Function.comp_apply, find?_accessorHandles, find?_accessorHandles_eq_none]
  constructor
  · rintro ⟨near, l, far, levels, ⟨p, j, last, rfl⟩, absent⟩
    obtain rfl := last.holds
    exact ⟨l, p, ⟨⟨near, far, levels, absent⟩, j, last⟩, rfl, rfl⟩
  · rintro ⟨l, p, ⟨⟨near, far, levels, absent⟩, j, last⟩, rfl, rfl⟩
    exact ⟨near, l, far, levels, ⟨p, j, last, rfl⟩, absent⟩

theorem find?_pairHandles_eq_none :
    ((σ.levels c).reverse.flatMap accessorHandles).reverse.find? (·.name = name) = none ↔
      ∀ p, σ.HasProperty c p → p.name ≠ name := by
  rw [List.reverse_flatMap, List.reverse_reverse, List.find?_flatMap, List.findSome?_eq_none_iff,
    forall_hasProperty_iff]
  simp only [Function.comp_apply, find?_accessorHandles_eq_none]

theorem exists_pairPrevails (has : σ.HasProperty c p) :
    ∃ l q, PairPrevails σ c l q ∧ q.name = p.name := by
  cases found : ((σ.levels c).reverse.flatMap accessorHandles).reverse.find?
      (·.name = p.name) with
  | none => exact absurd rfl (find?_pairHandles_eq_none.1 found p has)
  | some hd =>
    obtain ⟨l, q, prevails, same, -⟩ := find?_pairHandles.1 found
    exact ⟨l, q, prevails, same⟩

theorem handle?_of_pairPrevails (prevails : PairPrevails σ c l p) :
    σ.handle? c .properties p.name = some (pairHandle l p) := by
  rw [handle?_eq, declaredHandles, List.reverse_append, List.find?_append,
    find?_pairHandles.2 ⟨l, p, prevails, rfl, rfl⟩, Option.some_or]

theorem handle?_eq_some_iff_slotPrevails
    (unpaired : mode = .properties → ∀ p, σ.HasProperty c p → p.name ≠ name) :
    σ.handle? c mode name = some hd ↔
      ∃ i s, SlotPrevails σ c mode name i s ∧ hd = s.handle mode i := by
  rw [handle?_eq]
  cases mode with
  | fields => exact find?_slotHandles
  | properties =>
    rw [declaredHandles, List.reverse_append, List.find?_append,
      find?_pairHandles_eq_none.2 (unpaired rfl), Option.none_or]
    exact find?_slotHandles

theorem slotPrevails_fields_iff :
    (∃ s, SlotPrevails σ c .fields name i s) ↔ σ.fieldIndex? c name = some i := by
  rw [fieldIndex?_eq_some_iff]
  simp only [SlotPrevails, Slot.Shown, true_or, and_true]

/-- The handles of a class have distinct names, and a name leads to the handle of that name.
As properties, a pair of accessors in the nearest class that has one prevails over all fields,
with the type that the chain resolves for the class, and without a pair the last field that is
not hidden; as fields, the last of the name. -/
theorem handles_coherent (σ : Schema) (c : ClassId) :
    (∀ mode, ((σ.handles c mode).map (·.name)).Nodup) ∧
    (∀ mode name hd, σ.handle? c mode name = some hd ↔
      hd ∈ σ.handles c mode ∧ hd.name = name) ∧
    (∀ p, σ.HasProperty c p → ∃ l q, PairPrevails σ c l q ∧ q.name = p.name) ∧
    (∀ l p, PairPrevails σ c l p →
      σ.handle? c .properties p.name = some (pairHandle l p) ∧
      (σ.Scoped → p.type.parameters ⊆ l.decl.params →
        ∀ d, σ.class? c = some d → PairResolved σ c d l p)) ∧
    (∀ name, (∀ p, σ.HasProperty c p → p.name ≠ name) → ∀ hd,
      σ.handle? c .properties name = some hd ↔
        ∃ i s, SlotPrevails σ c .properties name i s ∧ hd = s.handle .properties i) ∧
    ∀ name hd, σ.handle? c .fields name = some hd ↔
      ∃ i s, σ.fieldIndex? c name = some i ∧ (σ.layout c)[i]? = some s ∧
        hd = s.handle .fields i := by
  refine ⟨σ.nodup_handles c, fun _ _ _ => handle?_eq_some_iff, fun _ => exists_pairPrevails,
    fun _ _ prevails => ⟨handle?_of_pairPrevails prevails, fun hσ names _ declared =>
      pairResolved hσ declared prevails.above names⟩,
    fun _ unpaired _ => handle?_eq_some_iff_slotPrevails fun _ => unpaired, fun name hd => ?_⟩
  rw [@handle?_eq_some_iff_slotPrevails σ c .fields name hd nofun]
  constructor
  · rintro ⟨i, s, prevails, rfl⟩
    exact ⟨i, s, slotPrevails_fields_iff.1 ⟨s, prevails⟩, prevails.there, rfl⟩
  · rintro ⟨i, s, means, there, rfl⟩
    obtain ⟨t, prevails⟩ := slotPrevails_fields_iff.2 means
    obtain rfl := Option.some.inj (prevails.there.symm.trans there)
    exact ⟨i, t, prevails, rfl⟩

end Schema

/-! A gauge with a pair of accessors, and one that declares its fields again. -/

namespace Gauges

def shown : PropertyDecl := ⟨"level", .list .any (.param "T"), some fun _ => return .null, none⟩

def gauge : ClassDecl :=
  ⟨"demo.Gauge", ["T"], none,
    [⟨"level", .number (.int .i32), .readWrite⟩, ⟨"note", .text, .readWrite⟩],
    [shown], false, .plain, none⟩

def sealed : ClassDecl :=
  ⟨"demo.Sealed", [], some (0, [.text]),
    [⟨"level", .number (.int .i32), .readWrite⟩, ⟨"note", .text, .hidden⟩],
    [], false, .plain, none⟩

def schema : Schema := (Schema.empty.declareClass gauge).declareClass sealed

theorem keeps_scope : schema.Scoped := by
  have first : gauge.Scoped [] := by
    refine ⟨by decide, ?_, ?_, ?_⟩ <;> exact fun _ _ none => nomatch none
  have second : sealed.Scoped [gauge] := by
    refine ⟨by decide, ?_, ?_, ?_⟩ <;> rintro _ _ ⟨⟩ <;> decide
  exact .cons second (.cons first Schema.allScoped_nil)

end Gauges

theorem Schema.handles_coherent_sealed :
    (∃ hd, Gauges.schema.handle? 1 .properties "level" = some hd ∧
        hd.type = .list .any .text ∧ hd.type.parameters = []) ∧
      Gauges.schema.handle? 1 .properties "note" = some ⟨"note", .text, .slot 1 true true⟩ ∧
      Gauges.schema.handle? 1 .fields "note" = some ⟨"note", .text, .slot 3 true true⟩ := by
  obtain ⟨-, -, -, pairs, slots, fields⟩ := Schema.handles_coherent Gauges.schema 1
  have prevails : Schema.PairPrevails Gauges.schema 1 ⟨0, Gauges.gauge, [("T", .text)]⟩
      Gauges.shown :=
    ⟨⟨[⟨1, Gauges.sealed, []⟩], [], rfl, by decide⟩, 0,
      lastAt_iff.2 ⟨rfl, rfl, by simp [Gauges.gauge]⟩⟩
  have unpaired : ∀ p, Gauges.schema.HasProperty 1 p → p.name ≠ "note" :=
    Schema.forall_hasProperty_iff.2 (by decide)
  have inherited : Schema.SlotPrevails Gauges.schema 1 .properties "note" 1
      ⟨0, ⟨"note", .text, .readWrite⟩, .text⟩ := by
    unfold Schema.SlotPrevails
    decide
  obtain ⟨level, resolved⟩ := pairs _ _ prevails
  have none := (resolved Gauges.keeps_scope (by decide) Gauges.sealed rfl).closed rfl
  exact ⟨⟨_, level, rfl, none⟩, (slots _ unpaired _).2 ⟨1, _, inherited, rfl⟩,
    (fields _ _).2 ⟨3, ⟨1, ⟨"note", .text, .hidden⟩, .text⟩, by decide, by decide, rfl⟩⟩

end PropertyAccess
