import Mathlib.Data.List.Forall2
import PropertyAccess.Proofs.Schema.Parameters
import PropertyAccess.Schema.Hierarchy

/-! Layouts along the chain of a class. The levels above a class bind the parameters of each
ancestor as seen from that class, all the way up; seen one step at a time, the slots that a
class inherits are those of its parent with the arguments put in for the parent's parameters.
The two agree where each class keeps to its own parameters and has an argument for each
parameter of its parent. -/

namespace PropertyAccess

/-- The class mentions no parameters but its own, and gives its parent, which is declared
before it, an argument for each parameter. -/
structure ClassDecl.Scoped (d : ClassDecl) (earlier : List ClassDecl) : Prop where
  fields : ∀ f ∈ d.fields, f.type.parameters ⊆ d.params
  args : ∀ p as, d.parent = some (p, as) → ∀ a ∈ as, a.parameters ⊆ d.params
  before : ∀ p as, d.parent = some (p, as) → p < earlier.length
  enough : ∀ p as, d.parent = some (p, as) →
    (Schema.paramsIn earlier p).length ≤ as.length

namespace Schema

/-- Each class is scoped among those declared before it. -/
def AllScoped (ds : List ClassDecl) : Prop :=
  ∀ d earlier, d :: earlier <:+ ds → d.Scoped earlier

def Scoped (σ : Schema) : Prop := AllScoped σ.classes

variable {σ : Schema} {ds earlier : List ClassDecl} {c p : ClassId} {d : ClassDecl}
  {args : List Ty} {b b' outer : List (String × Ty)} {params left : List String}

theorem AllScoped.anti (all : AllScoped ds) (before : earlier <:+ ds) : AllScoped earlier :=
  fun d more h => all d more (h.trans before)

theorem allScoped_nil : AllScoped [] := fun _ _ h => absurd (List.suffix_nil.1 h) (by simp)

theorem AllScoped.cons (own : d.Scoped ds) (all : AllScoped ds) : AllScoped (d :: ds) := by
  intro x more h
  rcases List.suffix_cons_iff.1 h with same | h
  · obtain ⟨rfl, rfl⟩ := List.cons.inj same
    exact own
  · exact all x more h

theorem suffix_of_since (declared : since ds c = some (d, earlier)) : d :: earlier <:+ ds := by
  induction ds with
  | nil => cases declared
  | cons x xs ih =>
    rw [since] at declared
    split at declared
    · obtain ⟨rfl, rfl⟩ := Prod.mk.inj (Option.some.inj declared)
      exact List.suffix_refl _
    · exact (ih declared).trans (List.suffix_cons _ _)

theorem since_of_suffix (before : earlier <:+ ds) (hp : p < earlier.length) :
    since ds p = since earlier p := by
  induction ds with
  | nil => rw [List.suffix_nil.1 before]
  | cons x xs ih =>
    rcases List.suffix_cons_iff.1 before with rfl | before
    · rfl
    · rw [since, if_neg (Nat.ne_of_lt (Nat.lt_of_lt_of_le hp before.length_le)), ih before]

theorem levelsFrom_of_suffix (before : earlier <:+ ds) (hp : p < earlier.length) :
    levelsFrom ds p b = levelsFrom earlier p b := by
  induction ds with
  | nil => rw [List.suffix_nil.1 before]
  | cons x xs ih =>
    rcases List.suffix_cons_iff.1 before with rfl | before
    · rfl
    · rw [levelsFrom, if_neg (Nat.ne_of_lt (Nat.lt_of_lt_of_le hp before.length_le)), ih before]

theorem chain_induction {motive : List ClassDecl → ClassId → Prop}
    (undeclared : ∀ ds c, since ds c = none → motive ds c)
    (declared : ∀ ds c d earlier, since ds c = some (d, earlier) →
      (∀ p args, d.parent = some (p, args) → motive earlier p) → motive ds c)
    (ds : List ClassDecl) (c : ClassId) : motive ds c := by
  induction h : ds.length using Nat.strongRecOn generalizing ds c with
  | ind n ih =>
    cases found : since ds c with
    | none => exact undeclared ds c found
    | some e =>
      have shorter : e.2.length < n :=
        h ▸ Nat.lt_of_lt_of_le (Nat.lt_succ_self _) (suffix_of_since found).length_le
      exact declared ds c e.1 e.2 found fun p _ _ => ih _ shorter e.2 p rfl

def raised (earlier : List ClassDecl) (p : ClassId) (args : List Ty) (b : List (String × Ty)) :
    List (String × Ty) :=
  (paramsIn earlier p).zip (args.map (·.substitute b none))

def levelsAbove (d : ClassDecl) (earlier : List ClassDecl) (b : List (String × Ty)) :
    List Level :=
  match d.parent with
  | none => []
  | some (p, args) => levelsFrom earlier p (raised earlier p args b)

theorem levelsFrom_of_since (declared : since ds c = some (d, earlier)) :
    levelsFrom ds c b = ⟨c, d, b⟩ :: levelsAbove d earlier b := by
  induction ds with
  | nil => cases declared
  | cons x xs ih =>
    rw [since] at declared
    rw [levelsFrom]
    split at declared
    · obtain ⟨rfl, rfl⟩ := Prod.mk.inj (Option.some.inj declared)
      rw [if_pos ‹_›, levelsAbove]
      cases x.parent <;> rfl
    · rw [if_neg ‹_›]
      exact ih declared

theorem levelsFrom_of_since_eq_none (undeclared : since ds c = none) : levelsFrom ds c b = [] := by
  induction ds with
  | nil => rfl
  | cons x xs ih =>
    rw [since] at undeclared
    split at undeclared
    · cases undeclared
    · rw [levelsFrom, if_neg ‹_›]
      exact ih undeclared

def Composes (params : List String) (outer b b' : List (String × Ty)) : Prop :=
  ∀ (t : Ty) (this : Option ClassId), t.parameters ⊆ params →
    (t.substitute b this).substitute outer none = t.substitute b' this

def Closes (params left : List String) (b : List (String × Ty)) : Prop :=
  ∀ (t : Ty) (this : Option ClassId), t.parameters ⊆ params →
    (t.substitute b this).parameters ⊆ left

theorem Composes.raised (composes : Composes d.params outer b b') (hd : d.Scoped earlier)
    (parent : d.parent = some (p, args)) :
    Composes (paramsIn earlier p) outer (raised earlier p args b) (raised earlier p args b') := by
  have inside : Schema.raised earlier p args b' =
      (Schema.raised earlier p args b).map fun e => (e.1, e.2.substitute outer none) := by
    have each : args.map (·.substitute b' none) =
        (args.map (·.substitute b none)).map (·.substitute outer none) := by
      rw [List.map_map]
      exact List.map_congr_left fun a ha => (composes a none (hd.args p args parent a ha)).symm
    rw [Schema.raised, each, List.zip_map_right]
    rfl
  intro t this own
  rw [inside]
  refine Ty.substitute_substitute outer fun name used => ?_
  exact Ty.isSome_lookup_zip (by simpa using hd.enough p args parent) (own used)

theorem Closes.raised (closes : Closes d.params left b) (hd : d.Scoped earlier)
    (parent : d.parent = some (p, args)) :
    Closes (paramsIn earlier p) left (raised earlier p args b) := by
  intro t this own
  refine Ty.parameters_substitute fun name used => ?_
  have enough : (paramsIn earlier p).length ≤ (args.map (·.substitute b none)).length := by
    simpa using hd.enough p args parent
  obtain ⟨u, found⟩ := Option.isSome_iff_exists.1 (Ty.isSome_lookup_zip enough (own used))
  obtain ⟨a, ha, rfl⟩ := List.mem_map.1 (List.of_mem_zip (Ty.mem_of_lookup found)).2
  exact ⟨_, found, closes a none (hd.args p args parent a ha)⟩

theorem paramsIn_of_since (declared : since ds c = some (d, earlier)) :
    paramsIn ds c = d.params := by
  rw [paramsIn, declared]
  rfl

def Slot.instantiated (outer : List (String × Ty)) (s : Slot) : Slot :=
  { s with type := s.type.substitute outer none }

structure Level.Composes (outer : List (String × Ty)) (l m : Level) : Prop where
  cls : m.cls = l.cls
  decl : m.decl = l.decl
  bindings : Schema.Composes l.decl.params outer l.bindings m.bindings

theorem scoped_of_mem_levelsFrom (all : AllScoped ds) {l : Level} (above : l ∈ levelsFrom ds c b) :
    ∃ earlier, l.decl.Scoped earlier := by
  induction ds generalizing c b with
  | nil => cases above
  | cons d earlier ih =>
    have older := all.anti (List.suffix_cons d earlier)
    rw [levelsFrom] at above
    split at above
    · obtain rfl | above := List.mem_cons.1 above
      · exact ⟨earlier, all d earlier (List.suffix_refl _)⟩
      · cases parent : d.parent with
        | none =>
          rw [parent] at above
          cases above
        | some up =>
          rw [parent] at above
          exact ih older above
    · exact ih older above

theorem levelsFrom_composes (all : AllScoped ds)
    (composes : Composes (paramsIn ds c) outer b b') :
    List.Forall₂ (Level.Composes outer) (levelsFrom ds c b) (levelsFrom ds c b') := by
  induction ds, c using chain_induction generalizing b b' with
  | undeclared ds c undeclared =>
    rw [levelsFrom_of_since_eq_none undeclared, levelsFrom_of_since_eq_none undeclared]
    exact .nil
  | declared ds c d earlier declared above =>
    have suffix := suffix_of_since declared
    have hd := all d earlier suffix
    rw [paramsIn_of_since declared] at composes
    rw [levelsFrom_of_since declared, levelsFrom_of_since declared]
    refine .cons ⟨rfl, rfl, composes⟩ ?_
    rw [levelsAbove, levelsAbove]
    cases parent : d.parent with
    | none => exact .nil
    | some up =>
      -- both sides bind the parent's parameters anew, so the bindings change under the induction
      exact above _ _ parent (all.anti ((List.suffix_cons d earlier).trans suffix))
        (composes.raised hd parent)

theorem closes_of_mem_levelsFrom (all : AllScoped ds) (closes : Closes (paramsIn ds c) left b)
    {l : Level} (hl : l ∈ levelsFrom ds c b) : Closes l.decl.params left l.bindings := by
  induction ds, c using chain_induction generalizing b with
  | undeclared ds c undeclared =>
    rw [levelsFrom_of_since_eq_none undeclared] at hl
    cases hl
  | declared ds c d earlier declared above =>
    have suffix := suffix_of_since declared
    have hd := all d earlier suffix
    rw [paramsIn_of_since declared] at closes
    rw [levelsFrom_of_since declared] at hl
    obtain rfl | hl := List.mem_cons.1 hl
    · exact closes
    · rw [levelsAbove] at hl
      cases parent : d.parent with
      | none =>
        rw [parent] at hl
        cases hl
      | some up =>
        rw [parent] at hl
        exact above _ _ parent (all.anti ((List.suffix_cons d earlier).trans suffix))
          (closes.raised hd parent) hl

theorem flatMap_slotsOf_composes {ls ms : List Level}
    (same : List.Forall₂ (Level.Composes outer) ls ms)
    (own : ∀ l ∈ ls, ∀ f ∈ l.decl.fields, f.type.parameters ⊆ l.decl.params) :
    ms.flatMap slotsOf = (ls.flatMap slotsOf).map (Slot.instantiated outer) := by
  induction same with
  | nil => rfl
  | @cons l m ls ms same rest ih =>
    have slots : slotsOf m = (slotsOf l).map (Slot.instantiated outer) := by
      rw [slotsOf, slotsOf, same.cls, same.decl, List.map_map]
      refine List.map_congr_left fun f hf => ?_
      rw [Function.comp_apply, Slot.instantiated,
        same.bindings f.type none (own l List.mem_cons_self f hf)]
    rw [List.flatMap_cons, List.flatMap_cons, List.map_append, slots,
      ih fun l hl => own l (List.mem_cons_of_mem _ hl)]

theorem closed_of_mem_layout (hσ : σ.Scoped) (closes : Closes (paramsIn σ.classes c) left []) :
    ∀ s ∈ σ.layout c, s.type.parameters ⊆ left := by
  intro s hs
  obtain ⟨l, hl, slot⟩ := List.mem_flatMap.1 hs
  obtain ⟨f, hf, rfl⟩ := List.mem_map.1 slot
  have above := List.mem_reverse.1 hl
  obtain ⟨_, hd⟩ := scoped_of_mem_levelsFrom hσ above
  exact closes_of_mem_levelsFrom hσ closes above f.type none (hd.fields f hf)

theorem levels_of_parent (hσ : σ.Scoped) (declared : since σ.classes c = some (d, earlier))
    (parent : d.parent = some (p, args)) :
    σ.levels p = levelsFrom earlier p [] ∧ paramsIn σ.classes p = paramsIn earlier p ∧
      levelsAbove d earlier [] = levelsFrom earlier p ((paramsIn earlier p).zip args) := by
  have suffix := suffix_of_since declared
  have before := (hσ d earlier suffix).before p args parent
  have older := (List.suffix_cons d earlier).trans suffix
  refine ⟨levelsFrom_of_suffix older before, ?_, ?_⟩
  · rw [paramsIn, paramsIn, since_of_suffix older before]
  · simp [levelsAbove, parent, raised, Ty.substitute_nil]

theorem levelsAbove_composes (hσ : σ.Scoped) (declared : since σ.classes c = some (d, earlier))
    (parent : d.parent = some (p, args)) :
    List.Forall₂ (Level.Composes ((paramsIn σ.classes p).zip args)) (σ.levels p)
      (levelsAbove d earlier []) := by
  obtain ⟨alone, params, above⟩ := levels_of_parent hσ declared parent
  have older := (List.suffix_cons d earlier).trans (suffix_of_since declared)
  rw [alone, params, above]
  exact levelsFrom_composes (hσ.anti older) fun t _ _ => Ty.substitute_nil_substitute _ t

theorem exists_level_of_parent (hσ : σ.Scoped)
    (declared : since σ.classes c = some (d, earlier)) (parent : d.parent = some (p, args))
    {l : Level} (above : l ∈ levelsAbove d earlier []) :
    ∃ m ∈ σ.levels p, Level.Composes ((paramsIn σ.classes p).zip args) m l := by
  have same := levelsAbove_composes hσ declared parent
  obtain ⟨i, inside, rfl⟩ := List.getElem_of_mem above
  exact ⟨_, List.getElem_mem (same.length_eq ▸ inside), same.get (same.length_eq ▸ inside) inside⟩

theorem closes_nil (declared : since σ.classes c = some (d, earlier)) (none : d.params = []) :
    Closes (paramsIn σ.classes c) [] [] := by
  intro t this own
  rw [paramsIn_of_since declared, none] at own
  exact Ty.parameters_substitute fun name used => absurd (own used) List.not_mem_nil

theorem layout_of_parent (hσ : σ.Scoped) (declared : since σ.classes c = some (d, earlier))
    (parent : d.parent = some (p, args)) :
    σ.layout c = (σ.layout p).map (Slot.instantiated ((paramsIn σ.classes p).zip args)) ++
      d.fields.map fun f => ⟨c, f, f.type⟩ := by
  have own : slotsOf ⟨c, d, []⟩ = d.fields.map fun f => ⟨c, f, f.type⟩ := by
    simp [slotsOf, Ty.substitute_nil]
  have bound : ∀ l ∈ (σ.levels p).reverse, ∀ f ∈ l.decl.fields,
      f.type.parameters ⊆ l.decl.params := fun l hl f hf => by
    obtain ⟨_, hd⟩ := scoped_of_mem_levelsFrom hσ (List.mem_reverse.1 hl)
    exact hd.fields f hf
  rw [layout, layout, levels, levelsFrom_of_since declared, List.reverse_cons,
    List.flatMap_append, List.flatMap_singleton, own,
    flatMap_slotsOf_composes (List.rel_reverse (levelsAbove_composes hσ declared parent)) bound]

theorem exists_since (declared : σ.class? c = some d) :
    ∃ earlier, since σ.classes c = some (d, earlier) := by
  obtain ⟨⟨e, earlier⟩, found, rfl⟩ := Option.map_eq_some_iff.1 declared
  exact ⟨earlier, found⟩

theorem exists_class? (inside : c < σ.classes.length) : ∃ d, σ.class? c = some d := by
  have found (ds : List ClassDecl) (h : c < ds.length) : ∃ e, since ds c = some e := by
    induction ds with
    | nil => cases h
    | cons x xs ih =>
      rw [since]
      split
      · exact ⟨_, rfl⟩
      · exact ih (Nat.lt_of_le_of_ne (Nat.le_of_lt_succ h) ‹_›)
  obtain ⟨e, he⟩ := found _ inside
  exact ⟨e.1, by rw [class?, he]; rfl⟩

theorem exists_parent (hσ : σ.Scoped) (declared : since σ.classes c = some (d, earlier))
    (parent : d.parent = some (p, args)) :
    ∃ e, σ.class? p = some e ∧ paramsIn σ.classes p = e.params := by
  have suffix := suffix_of_since declared
  have before := (hσ d earlier suffix).before p args parent
  have shorter : earlier.length < σ.classes.length :=
    Nat.lt_of_lt_of_le (Nat.lt_succ_self _) suffix.length_le
  obtain ⟨e, found⟩ := exists_class? (Nat.lt_trans before shorter)
  obtain ⟨older, heir⟩ := exists_since found
  exact ⟨e, found, paramsIn_of_since heir⟩

/-- A class has the fields of its parent first, of the types that they have in the parent
with its parameters replaced by the arguments all at once. No parameter is left where the
class has none itself. -/
theorem inherited_slots (hσ : σ.Scoped) (declared : σ.class? c = some d) :
    (∀ p args, d.parent = some (p, args) → ∃ e, σ.class? p = some e ∧
      ((σ.layout p).map fun s => (s.owner, s.field)) <+:
        (σ.layout c).map (fun s => (s.owner, s.field)) ∧
      ∀ (i : Nat) (s : Slot), (σ.layout p)[i]? = some s → ∃ t, (σ.layout c)[i]? = some t ∧
        t.type = s.type.substitute (e.params.zip args) none) ∧
    (d.params = [] → ∀ s ∈ σ.layout c, s.type.parameters = []) := by
  obtain ⟨earlier, found⟩ := exists_since declared
  constructor
  · intro p args parent
    obtain ⟨e, above, params⟩ := exists_parent hσ found parent
    have slots := layout_of_parent hσ found parent
    rw [params] at slots
    refine ⟨e, above, ?_, fun i s there => ⟨s.instantiated (e.params.zip args), ?_, rfl⟩⟩
    · rw [slots, List.map_append, List.map_map]
      exact List.prefix_append _ _
    · rw [slots, List.getElem?_append_left
        (by simpa using (List.getElem?_eq_some_iff.1 there).1), List.getElem?_map, there]
      rfl
  · intro none s hs
    exact List.subset_nil.1 (closed_of_mem_layout hσ (closes_nil found none) s hs)

end Schema

/-! A pair, a pair turned round under the same names of parameters, and entries of both. -/

namespace Pairs

def pair : ClassDecl :=
  ⟨"demo.Pair", ["A", "B"], none, [⟨"left", .param "A", .readWrite⟩,
    ⟨"right", .list .any (.param "B"), .readWrite⟩], [], false, .plain, none⟩

def turned : ClassDecl :=
  ⟨"demo.Turned", ["A", "B"], some (0, [.param "B", .array (.param "A")]),
    [⟨"spare", .map .any (.param "A") (.param "B"), .readWrite⟩], [], false, .plain, none⟩

def entry : ClassDecl :=
  ⟨"demo.Entry", [], some (1, [.text, .bool]), [], [], false, .plain, none⟩

def schema : Schema :=
  ((Schema.empty.declareClass pair).declareClass turned).declareClass entry

theorem keeps_scope : schema.Scoped := by
  have first : pair.Scoped [] := by
    refine ⟨by decide, ?_, ?_, ?_⟩ <;> exact fun _ _ none => nomatch none
  have second : turned.Scoped [pair] := by
    refine ⟨by decide, ?_, ?_, ?_⟩ <;> rintro _ _ ⟨⟩ <;> decide
  have third : entry.Scoped [turned, pair] := by
    refine ⟨by decide, ?_, ?_, ?_⟩ <;> rintro _ _ ⟨⟩ <;> decide
  exact .cons third (.cons second (.cons first Schema.allScoped_nil))

end Pairs

theorem Schema.inherited_slots_entry :
    Pairs.schema.Scoped ∧ Pairs.schema.class? 2 = some Pairs.entry ∧
      ∃ t, (Pairs.schema.layout 2)[1]? = some t ∧ t.type = .list .any (.array .text) ∧
        ∀ s ∈ Pairs.schema.layout 2, s.type.parameters = [] := by
  have all := Schema.inherited_slots Pairs.keeps_scope (c := 2) (d := Pairs.entry) rfl
  obtain ⟨e, found, -, each⟩ := all.1 1 [.text, .bool] rfl
  obtain rfl : Pairs.turned = e := Option.some.inj found
  obtain ⟨t, there, type⟩ := each 1 _ rfl
  exact ⟨Pairs.keeps_scope, rfl, t, there, type, all.2 rfl⟩

end PropertyAccess
