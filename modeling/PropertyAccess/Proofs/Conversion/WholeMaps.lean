import PropertyAccess.Proofs.Conversion.Settled
import PropertyAccess.Proofs.Conversion.Harmless
import PropertyAccess.Proofs.Graph.Sequence

/-! What becomes of a map that is converted as a whole, where no registered converter applies to
it. If its shape does not suit, its entries are copied first. Then each entry is converted, or
all are left as they are if nothing is known of the types of keys and values and no converter
is registered for an element. If no entry became another one, the map that there is stays;
else a new one gets what was made. -/

namespace PropertyAccess

theorem TableShape.definite_eq_sorted (s : TableShape) : s.definite = .sorted ↔ s = .sorted := by
  cases s <;> simp [definite]

def TableShape.adopt (declared s : TableShape) : TableShape :=
  if declared = .any then s else declared

theorem TableShape.adopt_eq_sorted {declared kept s : TableShape}
    (fits : declared.admits kept = true)
    (open_ : declared = .any → (kept = .sorted ↔ s = .sorted)) :
    declared.adopt s = .sorted ↔ kept = .sorted := by
  by_cases any : declared = .any
  · rw [adopt, if_pos any, open_ any]
  · rw [adopt, if_neg any]
    rw [admits, Bool.or_eq_true, beq_iff_eq, beq_iff_eq] at fits
    rw [fits.resolve_left any]

theorem TableShape.adopt_of_admits {declared s : TableShape} (fits : declared.admits s = true) :
    declared.adopt s = s := by
  cases declared <;> simp_all [admits, adopt]

/-- What is converted of a map is its own entries, or those of a copy with the shape that is
declared where its own does not suit. -/
def CopiedAs (shape s : TableShape) (raw : List (Value × Value)) (s' : TableShape)
    (es : List (Value × Value)) : Prop :=
  s' = s ∧ es = raw ∨
    shape.admits s = false ∧ s' = shape.definite ∧ es = MapEntries.ofList shape.definite raw

namespace CopiedAs

variable {shape s s' t : TableShape} {raw es : List (Value × Value)}

theorem perm (copied : CopiedAs shape s raw s' es) (apart : MapEntries.Apart raw) :
    raw.Perm es := by
  rcases copied with ⟨-, rfl⟩ | ⟨-, -, rfl⟩
  · exact .refl _
  · exact (MapEntries.perm_ofList _ apart).symm

theorem open_ (copied : CopiedAs shape s raw s' es)
    (same : shape = .any → (t = .sorted ↔ s = .sorted)) (any : shape = .any) :
    t = .sorted ↔ s' = .sorted := by
  rcases copied with ⟨rfl, -⟩ | ⟨unfit, -⟩
  · exact same any
  · rw [any] at unfit
    cases unfit

theorem sorted_iff (copied : CopiedAs shape s raw s' es) (fits : shape.admits t = true)
    (same : shape = .any → (t = .sorted ↔ s = .sorted))
    (suits : shape.admits s' = true) : s' = .sorted ↔ t = .sorted := by
  rw [← TableShape.adopt_of_admits suits]
  exact TableShape.adopt_eq_sorted fits (copied.open_ same)

theorem eq_ofList (copied : CopiedAs shape s raw s' es) (fits : shape.admits t = true)
    (same : shape = .any → (t = .sorted ↔ s = .sorted)) (suits : shape.admits s' = true)
    (whole : MapEntries.ofList s raw = raw) : es = MapEntries.ofList t raw := by
  have order := MapEntries.ofList_congr (copied.sorted_iff fits same suits) raw
  rcases copied with ⟨rfl, rfl⟩ | ⟨-, rfl, rfl⟩
  · exact whole.symm.trans order
  · exact order

theorem sorted_of_ne (copied : CopiedAs shape s raw s' es) (fits : shape.admits t = true)
    (apart : MapEntries.Apart raw) (moved : es ≠ raw) :
    shape.admits s = false ∧ t = .sorted := by
  rcases copied with ⟨-, rfl⟩ | ⟨unfit, -, rfl⟩
  · exact absurd rfl moved
  refine ⟨unfit, ?_⟩
  have sorted : shape.definite = .sorted := by
    by_contra unsorted
    exact moved (MapEntries.ofList_eq_self unsorted apart)
  cases shape <;> simp_all [TableShape.definite, TableShape.admits]

end CopiedAs

theorem Heap.entries_alloc (h : Heap) (es : List (Value × Value)) :
    (h.alloc (.entries es)).2.entries (h.alloc (.entries es)).1 = es := by
  rw [entries, cell?_alloc]

namespace Strategies

variable {σ : Schema} {S : Strategies} {shape s t : TableShape} {K V : Ty} {path : Option String}
  {h h' : Heap} {l m : Loc} {v w : Value} {es : List (Value × Value)}

/-- Of the entries `es` of a map of shape `s` the map at `m` has what came of them. They were
left as they are, or each was converted; and if no entry became another one, they stay. -/
def Refilled (σ : Schema) (S : Strategies) (shape : TableShape) (K V : Ty)
    (path : Option String) (s : TableShape) (es : List (Value × Value)) (h : Heap) (m : Loc)
    (h' : Heap) : Prop :=
  (shape.admits s = true ∧ h'.entries m = es) ∧ h.Extends h' ∧
      K.isUnknown = true ∧ V.isUnknown = true ∧
      S.registered.hasElementConverter σ none path = false ∨
    ∃ fs g, (convertEntries σ ⟨S.convert σ V, S.convert σ K⟩ path es).on h = (.ok fs, g) ∧
      g.Extends h' ∧ ((shape.admits s = true ∧ h'.entries m = es) ∧ sameEntries es fs = true ∨
        h'.entries m = MapEntries.ofList (shape.adopt s) fs)

theorem on_mapOf (unfit : σ.accepts (.map shape K V) (.map s l) = false) :
    (Converter.mapOf σ (.map s l) (.map shape K V)).on h =
      (.ok (.map shape.definite h.size),
        (h.alloc (.entries (MapEntries.ofList shape.definite (h.entries l)))).2) := by
  unfold Converter.mapOf
  rw [unfit]
  rfl

theorem on_applied_map (own : S.custom? σ (.map shape K V) path = none)
    (usual : ∀ c, S.defaults.find? σ (.map shape K V) = some c → c = .map) (there : l < h.size) :
    ∃ c t m g, (S.applied σ (.map shape K V) path (.map s l)).on h = (.ok (c, .map t m), g) ∧
      (t = s ∧ m = l ∧ g = h ∨
        t = shape.definite ∧ m = h.size ∧ shape.admits s = false ∧
          g = (h.alloc (.entries (MapEntries.ofList shape.definite (h.entries l)))).2) := by
  by_cases fits : σ.accepts (.map shape K V) (.map s l) = true
  · rw [applied_of_accepts own fits]
    exact ⟨_, s, l, h, rfl, .inl ⟨rfl, rfl, rfl⟩⟩
  have unfit : σ.accepts (.map shape K V) (.map s l) = false := Bool.eq_false_iff.2 fits
  have chosen : S.chosen? σ (.map shape K V) path = S.defaults.find? σ (.map shape K V) := by
    rw [chosen?, own]
  have unsplit (wanted : Bool) : splitIf wanted (.map s l) = pure (.map s l) := rfl
  rw [applied, own, if_neg (by simpa using fits), chosen, unsplit, pure_bind]
  cases default : S.defaults.find? σ (.map shape K V) with
  | none => exact ⟨_, s, l, h, rfl, .inl ⟨rfl, rfl, rfl⟩⟩
  | some c =>
    obtain rfl := usual c default
    have other : (Value.map shape.definite h.size).same (.map s l) = false :=
      beq_false_of_ne (Nat.ne_of_gt there)
    have copied : (throughValue σ (some .map) (.map s l) (.map shape K V)).on h =
        (.ok (none, .map shape.definite h.size),
          (h.alloc (.entries (MapEntries.ofList shape.definite (h.entries l)))).2) := by
      have made : (Run.outcome (Converter.map.fromValue σ (.map s l) (.map shape K V)) :
          Run ConvertError (Except ConvertFailure Value)).on h =
            (.ok (.ok (.map shape.definite h.size)),
              (h.alloc (.entries (MapEntries.ofList shape.definite (h.entries l)))).2) := by
        change (Except.ok ((Converter.mapOf σ _ _).on h).1, ((Converter.mapOf σ _ _).on h).2) = _
        rw [on_mapOf unfit]
      rw [throughValue]
      simp only [Value.isText, Bool.false_eq_true, if_false]
      rw [Run.on_bind_of_ok made]
      simp only [other, Bool.false_eq_true, if_false]
      rfl
    rw [Run.on_bind_of_ok copied]
    exact ⟨_, _, _, _, rfl, .inr ⟨rfl, rfl, unfit, rfl⟩⟩

theorem harmless_convertEntries {contents : ContentConversions} (hc : contents.Harmless)
    (es : List (Value × Value)) : (convertEntries σ contents path es).Harmless := by
  induction es with
  | nil => exact .pure _
  | cons e es ih =>
    exact (harmless_pathOfEntry _ _).bind fun _ => (hc.key _ _).bind fun _ =>
      (hc.element _ _).bind fun _ => ih.bind fun _ => .pure _

/-- A map is refilled by the rule for maps. -/
theorem refilled_of_toMap (hσ : σ.MakesNew) (hS : S.Harmless σ) (there : l < h.size)
    (ran : (S.toMap σ (.map shape K V) (S.contents σ (.map shape K V)) path (.map s l)).on h =
      (.ok w, h')) :
    ∃ t m, w = .map t m ∧ (m = l ∨ h.size ≤ m) ∧
      S.Refilled σ shape K V path s (h.entries l) h m h' := by
  have unfolded : S.toMap σ (.map shape K V) (S.contents σ (.map shape K V)) path (.map s l) =
      (if K.isUnknown && V.isUnknown && shape.admits s &&
          !S.registered.hasElementConverter σ none path then pure (.map s l)
        else do
          let entries ← Run.lookup (·.entries l)
          let converted ← convertEntries σ ⟨S.convert σ V, S.convert σ K⟩ path entries
          if shape.admits s && sameEntries entries converted then return .map s l
          else Run.newMap (shape.adopt s) converted) := rfl
  rw [unfolded] at ran
  split at ran
  · rename_i skipped
    cases ran
    simp only [Bool.and_eq_true, Bool.not_eq_true'] at skipped
    exact ⟨s, l, rfl, .inl rfl, .inl ⟨⟨skipped.1.2, rfl⟩, .refl h, skipped.1.1.1, skipped.1.1.2,
      skipped.2⟩⟩
  · have entries : (Run.lookup (·.entries l) : Run ConvertError (List (Value × Value))).on h =
        (.ok (h.entries l), h) := rfl
    rw [Run.on_bind_of_ok entries] at ran
    rcases made : (convertEntries σ ⟨S.convert σ V, S.convert σ K⟩ path (h.entries l)).on h with
      ⟨e | fs, g⟩
    · rw [Run.on_bind_of_error made] at ran
      cases ran
    rw [Run.on_bind_of_ok made] at ran
    have quiet : (⟨S.convert σ V, S.convert σ K⟩ : ContentConversions).Harmless :=
      ⟨harmless_convert hσ hS V, harmless_convert hσ hS K⟩
    have still : (convertEntries σ ⟨S.convert σ V, S.convert σ K⟩ path (h.entries l)).Harmless :=
      harmless_convertEntries quiet _
    have grown := still h
    rw [made] at grown
    split at ran
    · rename_i stays
      cases ran
      rw [Bool.and_eq_true] at stays
      exact ⟨s, l, rfl, .inl rfl, .inr ⟨fs, _, made, .refl _, .inl ⟨⟨stays.1,
        grown.entries_eq there⟩, stays.2⟩⟩⟩
    · cases ran
      refine ⟨_, _, rfl, .inr grown.size_le, .inr ⟨fs, g, made, .alloc g _, .inr ?_⟩⟩
      rw [Heap.entries_alloc]
      exact MapEntries.ofList_congr (TableShape.definite_eq_sorted _) fs

theorem rules_map {contents : ContentConversions} :
    S.rules σ (.map shape K V) contents path false (.map s l) =
      (S.toMap σ (.map shape K V) contents path (.map s l) >>= fun w =>
        soleElement w true >>= fun r => ruleScalar σ (.map shape K V) false r.1 r.2) := by
  have container : S.ruleContainer σ (.map shape K V) contents path (.map s l) =
      (S.toMap σ (.map shape K V) contents path (.map s l) >>= fun w => pure (w, true)) := rfl
  have known : (Ty.map shape K V).isUnknown = false := rfl
  have null : (Value.map s l).isNull = false := rfl
  unfold rules
  rw [if_neg (Bool.eq_false_iff.1 null), if_neg (Bool.eq_false_iff.1 known)]
  dsimp only [Ty.unwrapped]
  rw [container, bind_assoc]
  simp only [pure_bind]

/-- A map that is converted as a whole is refilled, it or a copy of the shape that is declared
where its own does not suit. -/
theorem refilled_of_convert (hσ : σ.MakesNew) (hS : S.Harmless σ) (service : S.service = none)
    (own : S.custom? σ (.map shape K V) path = none)
    (usual : ∀ c, S.defaults.find? σ (.map shape K V) = some c → c = .map) (there : l < h.size)
    (ran : (S.convert σ (.map shape K V) path (.map s l)).on h = (.ok w, h')) :
    ∃ t m s' es g, w = .map t m ∧ (m = l ∨ h.size ≤ m) ∧ h.Extends g ∧
      S.Refilled σ shape K V path s' es g m h' ∧
      CopiedAs shape s (h.entries l) s' es := by
  obtain ⟨c, s', l', g, applied, given⟩ := on_applied_map (h := h) own usual there
  rw [convert, step_of_service_eq_none service, withoutService, Run.on_bind_of_ok applied] at ran
  simp only [Option.isSome_none] at ran
  rw [rules_map, bind_assoc] at ran
  have there' : l' < g.size := by
    rcases given with ⟨-, rfl, rfl⟩ | ⟨-, rfl, -, rfl⟩
    · exact there
    · simp
  rcases made : (S.toMap σ (.map shape K V) (S.contents σ (.map shape K V)) path
      (.map s' l')).on g with ⟨e | x, h₁⟩
  · rw [Run.on_bind_of_error made] at ran
    cases ran
  rw [Run.on_bind_of_ok made] at ran
  obtain ⟨t, m, rfl, place, refilled⟩ := refilled_of_toMap hσ hS there' made
  have unable : S.serve σ (.map shape K V) path (.map s l) = pure .unable := by
    simp [serve, service]
  have last : (S.checked σ (.map shape K V) path (.map s l) c none (.map t m) true).on h₁ =
      (.ok w, h') := ran
  unfold checked at last
  split at last
  · cases last
    rcases given with ⟨rfl, rfl, rfl⟩ | ⟨rfl, rfl, unfit, rfl⟩
    · exact ⟨t, m, s', _, g, rfl, place, .refl g, refilled, .inl ⟨rfl, rfl⟩⟩
    · have copied : (h.alloc (.entries (MapEntries.ofList shape.definite (h.entries l)))).2.entries
          h.size = MapEntries.ofList shape.definite (h.entries l) := Heap.entries_alloc h _
      rw [copied] at refilled
      refine ⟨t, m, _, _, _, rfl, .inr ?_, .alloc h _, refilled, .inr ⟨unfit, rfl, rfl⟩⟩
      rcases place with rfl | later
      · exact Nat.le_refl _
      · exact Nat.le_trans (Heap.Extends.alloc h _).size_le later
  · simp only [unable, pure_bind] at last
    cases last

end Strategies

end PropertyAccess
