import PropertyAccess.Proofs.Conversion.Instances
import PropertyAccess.Proofs.Schema.Realm

/-! New values stay in a realm. Default values are empty containers, instances and scalars,
and a grown array has its old elements and such values; so all of them belong to a realm
that the instances of classes belong to. What is made for a type is an instance of it. -/

namespace PropertyAccess.Schema

variable {σ : Schema} {R : Realm σ} {w : R.World}

/-- Instances, and what classes make of texts, belong to the realm. -/
structure Stays (σ : Schema) (R : Realm σ) : Prop where
  instantiate : ∀ w c, (σ.instantiate c).Stays R w fun w' o => R.Allows w' (.object o)
  fromText : ∀ w c text make, σ.fromText? c text = some make → make.Stays R w R.Allows
  instances : R.strict → σ.GivesInstances

theorem gives_instantiate (c : ClassId) : (σ.instantiate c).Gives fun o => o.cls = c := by
  unfold instantiate
  split
  · exact .throw _
  · refine .ite (fun _ => .throw _) fun _ => ?_
    split
    · exact .throw _
    · exact .throw _
    · exact .after fun _ => .pure rfl
    · exact Run.Gives.bind (R := fun o => o.cls = c) (.after fun _ => .pure rfl) fun o ho =>
        .after fun _ => .pure ho

theorem accepts_zeroValue (t : Ty) : σ.accepts t t.zeroValue = true := by
  cases t <;> simp [Ty.zeroValue, accepts, Ty.isPrimitive, Number.kind_zero]

theorem gives_defaultValue (t : Ty) : (σ.defaultValue t).Gives fun v => σ.accepts t v = true := by
  unfold defaultValue
  split
  · exact .after fun _ => .after fun _ => .pure (σ.assignable_self _)
  · exact .after fun _ => .pure (σ.assignable_self _)
  · rename_i s _
    exact .after fun _ => .pure s.admits_definite
  · rename_i s _
    exact .after fun _ => .pure s.admits_definite
  · rename_i s _ _
    exact .after fun _ => .pure s.admits_definite
  · rename_i c
    refine (gives_instantiate c).bind fun o ho => .pure ?_
    rw [accepts, ho]
    exact σ.descends_self c
  · exact .pure rfl
  · exact .pure rfl
  · exact .pure rfl
  · exact .pure (σ.accepts_zeroValue _)
  · exact .throw _

theorem gives_defaultValue_made (t : Ty) : (σ.defaultValue t).Gives fun v =>
    v.isNull = false ∧ ∀ e l, v = .array e l → t = .array e := by
  unfold defaultValue
  split
  · exact .after fun _ => .after fun _ => .pure ⟨rfl, fun _ _ same => by cases same; rfl⟩
  · exact .after fun _ => .pure ⟨rfl, fun _ _ same => by cases same; rfl⟩
  · exact .after fun _ => .pure ⟨rfl, by simp⟩
  · exact .after fun _ => .pure ⟨rfl, by simp⟩
  · exact .after fun _ => .pure ⟨rfl, by simp⟩
  · exact .after fun _ => .pure ⟨rfl, by simp⟩
  · exact .pure ⟨rfl, by simp⟩
  · exact .pure ⟨rfl, by simp [Ty.zeroValue]⟩
  · exact .pure ⟨rfl, by simp [Ty.zeroValue]⟩
  · exact .pure ⟨rfl, by simp [Ty.zeroValue]⟩
  · exact .throw _

theorem gives_filler (elem : Ty) : (σ.filler elem).Gives fun v => σ.accepts elem v = true := by
  refine (gives_defaultValue elem).outcome.bind fun made hmade => ?_
  split
  · exact .pure (hmade _ rfl)
  · exact .pure (σ.accepts_zeroValue elem)
  · exact .throw _

theorem loc?_zeroValue (t : Ty) : t.zeroValue.loc? = none := by
  cases t <;> rfl

theorem Stays.defaultValue (hσ : σ.Stays R) (w : R.World) (t : Ty) :
    (σ.defaultValue t).Stays R w R.Allows := by
  have none_allowed {w : R.World} : ∀ x ∈ ([] : List Value), R.Allows w x := by simp
  unfold Schema.defaultValue
  split
  · rename_i elem
    have row : (Run.newArray elem [] : Run InstanceFault Value).Gives
        fun v => σ.accepts (.array elem) v = true :=
      .after fun _ => .pure (σ.assignable_self elem)
    refine ((Run.Stays.newArray none_allowed (by simp)).and_gives row).bind fun w' v _ hv => ?_
    exact .newArray (by simpa using hv.1) fun _ => by simpa using hv.2
  · exact .newArray none_allowed (by simp)
  · exact .newList none_allowed
  · exact .newSet none_allowed
  · exact .newMap (by simp)
  · exact (hσ.instantiate w _).bind fun _ _ _ ho => .pure ho
  · exact .pure (R.scalar rfl)
  · exact .pure (R.scalar rfl)
  · exact .pure (R.scalar rfl)
  · exact .pure (R.scalar rfl)
  · exact .throw _

theorem Stays.filler (hσ : σ.Stays R) (w : R.World) (elem : Ty) :
    (σ.filler elem).Stays R w R.Allows := by
  refine (hσ.defaultValue w elem).outcome.bind fun w' made _ hmade => ?_
  split
  · exact .pure (hmade _ rfl)
  · exact .pure (R.scalar (loc?_zeroValue elem))
  · exact .throw _

theorem Stays.repeated (hσ : σ.Stays R) (w : R.World) (elem : Ty) (count : Nat) :
    (repeated (σ.filler elem) count).Stays R w fun w' vs =>
      ∀ x ∈ vs, R.Allows w' x ∧ σ.accepts elem x = true := by
  induction count generalizing w with
  | zero => exact .pure (by simp)
  | succ count ih =>
    refine ((hσ.filler w elem).and_gives (gives_filler elem)).bind fun w₁ v _ hv => ?_
    refine (ih w₁).bind fun w₂ vs later hvs => .pure ?_
    exact List.forall_mem_cons.2 ⟨⟨R.mono later hv.1, hv.2⟩, hvs⟩

theorem Stays.grownArray (hσ : σ.Stays R) {elem : Ty} {l : Loc} (ha : R.Allows w (.array elem l))
    (length : Nat) : (σ.grownArray elem l length).Stays R w R.Allows := by
  refine Run.Stays.bind (P := fun w' old =>
    (∀ x ∈ old, R.Allows w' x) ∧ (R.strict → ∀ x ∈ old, σ.accepts elem x = true))
    (.lookup fun h fits => ⟨R.items fits ha rfl, fun hs => R.instances hs fits ha⟩) ?_
  intro w₁ old _ hold
  refine (hσ.repeated w₁ elem _).bind fun w₂ new later hnew => ?_
  refine .newArray (List.forall_mem_append.2 ⟨fun x hx => ?_, fun x hx => (hnew x hx).1⟩)
    fun hs => List.forall_mem_append.2 ⟨hold.2 hs, fun x hx => (hnew x hx).2⟩
  exact R.mono later (hold.1 x hx)

end PropertyAccess.Schema
