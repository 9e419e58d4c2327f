import PropertyAccess.Conversion.Service
import PropertyAccess.Proofs.Graph.Sequence
import PropertyAccess.Proofs.Schema.Assignability

/-! The table of a conversion service against the functions that were added to it. Each pair of
types has the function that was added last for it, and the pairs are in the order of their first
additions. So the additions alone say which function serves: the last one for the erased types
that are asked for, or else the last one for the earliest pair that fits. What is added for any
other pair is not asked before that one, so it makes no difference. -/

namespace PropertyAccess

theorem find?_eraseDups {α : Type} [DecidableEq α] (p : α → Bool) (xs : List α) :
    xs.eraseDups.find? p = xs.find? p := by
  induction xs using List.reverseRecOn with
  | nil => rfl
  | append_singleton xs x ih =>
    rw [eraseDups_concat, List.find?_append]
    split
    · rename_i there
      rw [ih]
      cases missing : xs.find? p with
      | some y => rfl
      | none =>
        have refused : p x = false := by simpa using List.find?_eq_none.1 missing x there
        simp [refused]
    · rw [List.find?_append, ih]

theorem Schema.assignable_erased_left (σ : Schema) (t s : Ty) :
    σ.assignable t.erased s = σ.assignable t s := by
  rw [← assignable_erased t.erased s, Ty.erased_erased, assignable_erased]

namespace ConversionTable

/-- A function, and the source and the target that it is added for. -/
structure Addition where
  source : Ty
  target : Ty
  function : ConvertFn

namespace Addition

def pair (a : Addition) : ConversionPair := .erased a.source a.target

def fits (σ : Schema) (source target : Ty) (a : Addition) : Bool :=
  a.target.erased = target.erased && σ.assignable a.source source

end Addition

def ofAdditions (as : List Addition) : ConversionTable :=
  as.foldl (fun t a => t.add a.source a.target a.function) empty

variable {σ : Schema} {as : List Addition} {b : Addition} {pair : ConversionPair} {f : ConvertFn}
  {t : ConversionTable} {source target : Ty}

/-- The function that was added last for a pair. -/
def latest? (as : List Addition) (pair : ConversionPair) : Option ConvertFn :=
  (as.reverse.find? (·.pair = pair)).map (·.function)

theorem latest?_concat (as : List Addition) (a : Addition) (pair : ConversionPair) :
    latest? (as ++ [a]) pair = if a.pair = pair then some a.function else latest? as pair := by
  rw [latest?, List.reverse_concat, List.find?_cons]
  by_cases own : a.pair = pair <;> simp [own, latest?]

theorem isSome_latest? : (latest? as pair).isSome = true ↔ ∃ a ∈ as, a.pair = pair := by
  simp [latest?]

structure Reflects (as : List Addition) (t : ConversionTable) : Prop where
  lookup_eq : ∀ pair, t.functions.lookup pair = latest? as pair
  order_eq : t.order = (as.map (·.pair)).eraseDups

theorem reflects_empty : Reflects [] empty where
  lookup_eq _ := rfl
  order_eq := rfl

theorem Reflects.add (reflects : Reflects as t) (a : Addition) :
    Reflects (as ++ [a]) (t.add a.source a.target a.function) where
  lookup_eq pair := by
    rw [latest?_concat, ← reflects.lookup_eq]
    split
    · rename_i own
      rw [← own]
      exact lookup_upsert_self a.pair a.function t.functions
    · rename_i other
      exact lookup_upsert_of_ne a.function t.functions (Ne.symm other)
  order_eq := by
    have known : (t.functions.lookup a.pair).isNone = true ↔ a.pair ∉ as.map (·.pair) := by
      rw [reflects.lookup_eq, Option.isNone_iff_eq_none, ← Option.not_isSome_iff_eq_none,
        isSome_latest?, List.mem_map]
    have appended : (t.add a.source a.target a.function).order =
        if (t.functions.lookup a.pair).isNone then t.order ++ [a.pair] else t.order := rfl
    rw [appended, List.map_append, List.map_singleton, eraseDups_concat, ← reflects.order_eq]
    simp only [known, ite_not]

theorem ofAdditions_concat (as : List Addition) (a : Addition) :
    ofAdditions (as ++ [a]) = (ofAdditions as).add a.source a.target a.function := by
  simp [ofAdditions]

theorem reflects_ofAdditions (as : List Addition) : Reflects as (ofAdditions as) := by
  induction as using List.reverseRecOn with
  | nil => exact reflects_empty
  | append_singleton as a ih =>
    rw [ofAdditions_concat]
    exact ih.add a

/-- The pair that serves, and its function. -/
inductive Serves (σ : Schema) (as : List Addition) (source target : Ty) :
    ConversionPair → ConvertFn → Prop
  | exact {f : ConvertFn} (latest : latest? as (.erased source target) = some f) :
      Serves σ as source target (.erased source target) f
  | fitting {a : Addition} {f : ConvertFn}
      (missing : latest? as (.erased source target) = none)
      (first : as.find? (·.fits σ source target) = some a) (latest : latest? as a.pair = some f) :
      Serves σ as source target a.pair f

theorem Reflects.find?_eq (reflects : Reflects as t) :
    t.find? σ source target =
      match latest? as (.erased source target) with
      | some f => some f
      | none => (as.find? (·.fits σ source target)).bind fun a => latest? as a.pair := by
  have fits : ((fun p : ConversionPair => p.target = target.erased && σ.assignable p.source source) ∘
      Addition.pair) = Addition.fits σ source target := by
    funext a
    rw [Addition.fits, ← σ.assignable_erased_left]
    rfl
  rw [find?, reflects.lookup_eq]
  cases latest? as (.erased source target) with
  | some f => rfl
  | none =>
    rw [reflects.order_eq, find?_eraseDups, List.find?_map, fits, Option.bind_map]
    simp only [reflects.lookup_eq]
    rfl

theorem Reflects.find?_eq_some_iff (reflects : Reflects as t) :
    t.find? σ source target = some f ↔ ∃ pair, Serves σ as source target pair f := by
  rw [reflects.find?_eq]
  constructor
  · intro found
    split at found
    · rename_i latest
      exact ⟨_, .exact (latest.trans found)⟩
    · rename_i missing
      obtain ⟨a, first, latest⟩ := Option.bind_eq_some_iff.1 found
      exact ⟨a.pair, .fitting missing first latest⟩
  · rintro ⟨pair, serves⟩
    cases serves with
    | exact latest => rw [latest]
    | fitting missing first latest =>
      rw [missing, first]
      exact latest

/-- It takes an addition for the target, from the source itself or from a type that takes it. -/
theorem exists_serves_iff :
    (∃ pair f, Serves σ as source target pair f) ↔
      ∃ a ∈ as, a.target.erased = target.erased ∧
        (a.source.erased = source.erased ∨ σ.assignable a.source source = true) := by
  constructor
  · rintro ⟨pair, f, serves⟩
    cases serves with
    | exact latest =>
      obtain ⟨a, ha, own⟩ := isSome_latest?.1 (Option.isSome_of_eq_some latest)
      exact ⟨a, ha, congrArg (·.target) own, .inl (congrArg (·.source) own)⟩
    | @fitting a f missing first latest =>
      have fits : a.fits σ source target = true := List.find?_some first
      rw [Addition.fits, Bool.and_eq_true, decide_eq_true_iff] at fits
      exact ⟨a, List.mem_of_find?_eq_some first, fits.1, .inr fits.2⟩
  · rintro ⟨a, ha, same, own⟩
    cases latest : latest? as (.erased source target) with
    | some f => exact ⟨_, f, .exact latest⟩
    | none =>
      have takes : σ.assignable a.source source = true := by
        refine own.resolve_left fun own => ?_
        have exact : a.pair = .erased source target := by
          rw [Addition.pair, ConversionPair.erased, own, same]
          rfl
        have there := isSome_latest?.2 ⟨a, ha, exact⟩
        simp [latest] at there
      have fits : a.fits σ source target = true := by simp [Addition.fits, same, takes]
      obtain ⟨c, first⟩ := Option.isSome_iff_exists.1 (List.find?_isSome.2 ⟨a, ha, fits⟩)
      obtain ⟨f, filed⟩ := Option.isSome_iff_exists.1
        (isSome_latest?.2 ⟨c, List.mem_of_find?_eq_some first, rfl⟩)
      exact ⟨c.pair, f, .fitting latest first filed⟩

theorem Serves.concat (serves : Serves σ as source target pair f)
    (notAsked : b.pair ≠ .erased source target) (notServing : b.pair ≠ pair) :
    Serves σ (as ++ [b]) source target pair f := by
  cases serves with
  | exact latest => exact .exact (by rw [latest?_concat, if_neg notAsked, latest])
  | fitting missing first latest =>
    refine .fitting ?_ ?_ ?_
    · rw [latest?_concat, if_neg notAsked, missing]
    · rw [List.find?_append, first]
      rfl
    · rw [latest?_concat, if_neg notServing, latest]

/-- A service can convert if a function was added for the target, from the source or from a type
that takes it. The last function of the exact pair runs if there is one, or else the last one of
the first pair that fits, and no addition for a third pair changes anything. -/
theorem service_serves (σ : Schema) (as : List Addition) (source target : Ty) :
    ((ofAdditions as).service.canConvert σ source target = true ↔
      ∃ a ∈ as, a.target.erased = target.erased ∧
        (a.source.erased = source.erased ∨ σ.assignable a.source source = true)) ∧
    ((ofAdditions as).service.canConvert σ source target = true →
      ∃ pair f, Serves σ as source target pair f) ∧
    ∀ pair f, Serves σ as source target pair f →
      (∀ v, (ofAdditions as).service.convert σ v source target = f σ v target) ∧
      ∀ b : Addition, b.pair ≠ .erased source target → b.pair ≠ pair →
        let later := ((ofAdditions as).add b.source b.target b.function).service
        later.canConvert σ source target = (ofAdditions as).service.canConvert σ source target ∧
          ∀ v, later.convert σ v source target =
            (ofAdditions as).service.convert σ v source target := by
  have reflects := reflects_ofAdditions as
  have can : (ofAdditions as).service.canConvert σ source target = true ↔
      ∃ pair f, Serves σ as source target pair f := by
    rw [canConvert_service, Option.isSome_iff_exists, exists_comm]
    exact exists_congr fun f => reflects.find?_eq_some_iff
  refine ⟨can.trans exists_serves_iff, can.1, fun pair f serves => ?_⟩
  have found : (ofAdditions as).find? σ source target = some f :=
    reflects.find?_eq_some_iff.2 ⟨pair, serves⟩
  refine ⟨fun v => by simp only [service, found], fun b notAsked notServing => ?_⟩
  have still : ((ofAdditions as).add b.source b.target b.function).find? σ source target = some f :=
    (reflects.add b).find?_eq_some_iff.2 ⟨pair, serves.concat notAsked notServing⟩
  exact ⟨by simp only [service, found, still], fun v => by simp only [service, found, still]⟩

end ConversionTable

/-! A post office that hands out labels for letters, which are a kind of parcels. -/

namespace PostOffice

def parcel : ClassDecl := ⟨"demo.Parcel", [], none, [], [], false, .plain, none⟩

def letter : ClassDecl := ⟨"demo.Letter", [], some (0, []), [], [], false, .plain, none⟩

def schema : Schema := (Schema.empty.declareClass parcel).declareClass letter

def label (s : String) : ConvertFn := fun _ _ _ => return .text s

def additions : List ConversionTable.Addition :=
  [⟨.object 0, .text, label "parcel"⟩, ⟨.any, .text, label "thing"⟩,
    ⟨.object 0, .text, label "heavy parcel"⟩]

end PostOffice

namespace ConversionTable

open PostOffice

theorem service_serves_letter :
    (ofAdditions additions).service.canConvert schema (.object 1) .text = true ∧
      ∀ v, (ofAdditions additions).service.convert schema v (.object 1) .text =
          label "heavy parcel" schema v .text ∧
        ((ofAdditions additions).add .any .text (label "item")).service.convert schema v
          (.object 1) .text = label "heavy parcel" schema v .text := by
  obtain ⟨can, -, runs⟩ := service_serves schema additions (.object 1) .text
  have serves : Serves schema additions (.object 1) .text (.erased (.object 0) .text)
      (label "heavy parcel") :=
    .fitting (a := ⟨.object 0, .text, label "parcel"⟩) rfl rfl rfl
  obtain ⟨now, later⟩ := runs _ _ serves
  refine ⟨can.2 ⟨_, List.mem_cons_self, rfl, .inr (by decide)⟩, fun v => ⟨now v, ?_⟩⟩
  rw [← now v]
  exact (later ⟨.any, .text, label "item"⟩ (by decide) (by decide)).2 v

end ConversionTable

end PropertyAccess
