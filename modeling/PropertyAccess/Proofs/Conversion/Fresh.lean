import PropertyAccess.Proofs.Conversion.Bare
import PropertyAccess.Proofs.Conversion.Uniform

/-! What the builtin converters make of default values and of keys. A default value of the
required type comes through as it is, or as a scalar: an empty container has no contents to
convert. A text that is converted once is converted every time, to the same scalar or else
to a reference each time, whatever the graph. -/

namespace PropertyAccess

def Heap.Blank (h : Heap) : Value → Prop
  | .list _ l | .set _ l => h.cell? l = some (.items [])
  | .map _ l => h.cell? l = some (.entries [])
  | _ => True

variable {σ : Schema} {S : Strategies} {required : Ty} {path : Option String} {h h' : Heap}
  {v : Value} {contents : ContentConversions}

theorem Heap.Blank.mono (blank : h.Blank v) (hx : h.Extends h') : h'.Blank v := by
  cases v with
  | list | set | map => exact hx.cell? blank
  | _ => trivial

theorem Schema.ends_defaultValue_blank (t : Ty) (h : Heap) :
    (σ.defaultValue t).Ends h (fun v h' => h'.Blank v) (fun _ _ => True) := by
  unfold defaultValue
  split
  · trivial
  · trivial
  · exact Heap.cell?_alloc h _
  · exact Heap.cell?_alloc h _
  · exact Heap.cell?_alloc h _
  · rw [Run.ends_bind]
    exact (Run.ends_on _ h).mono (fun _ _ _ => trivial) fun _ _ _ => trivial
  · trivial
  · trivial
  · trivial
  · trivial
  · trivial

namespace Strategies

theorem ends_toCollection_blank (fits : σ.accepts required v = true)
    (empty : h.elements? v = some []) :
    (S.toCollection σ required contents path v).Ends h (fun w h' => w = v ∧ h' = h)
      (fun _ _ => False) := by
  unfold toCollection
  split
  · exact ⟨rfl, rfl⟩
  · dsimp only
    split
    · exact ⟨rfl, rfl⟩
    · simp only [Run.ends_bind, Run.ends_lookup, empty, Option.getD_some, convertItems,
        Run.ends_pure, fits, sameItems, Bool.and_true, if_true]
      exact ⟨trivial, trivial⟩

theorem ends_toMap_blank {s : TableShape} {l : Loc} (fits : σ.accepts required (.map s l) = true)
    (empty : h.entries l = []) :
    (S.toMap σ required contents path (.map s l)).Ends h (fun w h' => w = .map s l ∧ h' = h)
      (fun _ _ => False) := by
  unfold toMap
  split
  · rename_i same
    obtain ⟨rfl, rfl⟩ : s = _ ∧ l = _ := by simpa using same
    dsimp only
    split
    · exact ⟨rfl, rfl⟩
    · simp only [Run.ends_bind, Run.ends_lookup, empty, convertEntries, Run.ends_pure, fits,
        sameEntries, Bool.and_true, if_true]
      exact ⟨trivial, trivial⟩
  · exact ⟨rfl, rfl⟩

theorem ends_ruleContainer_blank (fits : σ.accepts required v = true) (blank : h.Blank v) :
    (S.ruleContainer σ required contents path v).Ends h (fun r h' => r.1 = v ∧ h' = h)
      (fun _ _ => False) := by
  have items {l : Loc} (cell : h.cell? l = some (.items [])) : h.items l = [] := by
    rw [Heap.items, cell]
  unfold ruleContainer
  split
  · rw [Run.ends_bind]
    exact ends_toCollection_blank fits (congrArg some (items blank))
  · rw [Run.ends_bind]
    exact ends_toCollection_blank fits (congrArg some (items blank))
  · rename_i s l
    have entries : h.entries l = [] := by
      rw [Heap.entries, show h.cell? l = some (.entries []) from blank]
    rw [Run.ends_bind]
    exact ends_toMap_blank fits entries
  · exact ⟨rfl, rfl⟩

def Ruled.Keeps (v : Value) : Ruled → Prop
  | .done w | .open w _ => w = v ∨ w.loc? = none

theorem ends_ruleScalar_keeps (fits : σ.accepts required v = true) (deferred standard : Bool) :
    (ruleScalar σ required deferred v standard).Ends h
      (fun r h' => r.Keeps v ∧ h' = h) (fun _ _ => True) := by
  unfold ruleScalar
  split
  · simp only [Run.ends_bind, ends_written, Run.ends_pure]
    exact ⟨fun _ _ => ⟨.inr rfl, trivial⟩, fun _ => trivial⟩
  · split
    · exact ⟨.inl rfl, rfl⟩
    · split
      · split
        · exact ⟨.inr rfl, rfl⟩
        · trivial
      · exact ⟨.inl rfl, rfl⟩
    · exact ⟨.inl rfl, rfl⟩

theorem ends_rules_blank (lasting : v.Lasting) (fits : σ.accepts required v = true)
    (no_array : ∀ e, required.unwrapped ≠ .array e) (blank : h.Blank v) (deferred : Bool) :
    (S.rules σ required contents path deferred v).Ends h (fun r h' => r.Keeps v ∧ h' = h)
      (fun _ _ => True) := by
  unfold rules
  rw [lasting.1]
  split
  · contradiction
  · split
    · exact ⟨.inl rfl, rfl⟩
    · split
      · exact absurd ‹_› (no_array _)
      · rw [Run.ends_bind]
        refine (ends_ruleContainer_blank fits blank).mono (fun r g hr => ?_) fun _ _ => False.elim
        obtain ⟨w, standard⟩ := r
        obtain ⟨rfl, rfl⟩ := hr
        dsimp only
        rw [soleElement_of_lasting lasting, pure_bind]
        exact ends_ruleScalar_keeps fits deferred _

theorem Bare.ends_convert_blank (hS : S.Bare) (suited : Suited σ required v) (blank : h.Blank v) :
    (S.convert σ required path v).Ends h (fun w h' => (w = v ∨ w.loc? = none) ∧ h' = h)
      (fun _ _ => True) := by
  by_cases array : ∃ e l, v = .array e l
  · obtain ⟨e, l, rfl⟩ := array
    rw [hS.convert_array (.inr (suited.array e l rfl))]
    exact ⟨.inl rfl, rfl⟩
  · have lasting : v.Lasting := ⟨suited.notNull, fun e l same => array ⟨e, l, same⟩⟩
    have no_array := no_array_of_lasting lasting suited.instance_
    rw [hS.convert_eq, withoutService,
      applied_of_accepts (hS.custom?_eq_none _ _) suited.instance_, pure_bind, Run.ends_bind]
    refine (ends_rules_blank lasting suited.instance_ no_array blank _).mono (fun r g hr => ?_)
      fun _ _ => id
    obtain ⟨keeps, rfl⟩ := hr
    cases r with
    | done w => exact ⟨keeps, rfl⟩
    | «open» w standard =>
      unfold checked
      dsimp only
      split
      · exact ⟨keeps, rfl⟩
      · simp only [serve, hS.service]
        trivial

theorem convert_text_again (hσ : σ.Uniform) (hS : S.Uniform σ) {text : String} {g : Heap}
    (ran : (S.convert σ required path (.text text)).on h = (.ok v, g)) (f : Heap) :
    ∃ w f', (S.convert σ required path (.text text)).on f = (.ok w, f') ∧
      (v.loc? = none → w = v) := by
  have none_named (g : Heap) : Heap.Alike [] ⟨#[]⟩ g := ⟨rfl, .nil, by simp, by simp⟩
  have again (g : Heap) : ∃ N, Like N ((S.convert σ required path (.text text)).on ⟨#[]⟩).1
      ((S.convert σ required path (.text text)).on g).1 := by
    obtain ⟨N, -, -, outcome⟩ :=
      uniform_convert hσ hS required [] path _ _ (.scalar (v := .text text) rfl) _ _ (none_named g)
    exact ⟨N, outcome⟩
  obtain ⟨N, first⟩ := again h
  obtain ⟨N', second⟩ := again f
  rcases made : (S.convert σ required path (.text text)).on f with ⟨result, f'⟩
  rw [ran] at first
  rw [made] at second
  revert first second
  generalize ((S.convert σ required path (.text text)).on ⟨#[]⟩).1 = origin
  intro first second
  cases first with
  | ok first =>
    cases second with
    | ok second =>
      refine ⟨_, f', rfl, fun scalar => ?_⟩
      cases first <;> cases second <;> simp_all [Value.loc?]

end Strategies

end PropertyAccess
