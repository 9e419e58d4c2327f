import PropertyAccess.Proofs.Conversion.Stays
import PropertyAccess.Proofs.Schema.Harmless

/-! A conversion leaves the graph alone if the converters, the service and the
constructors that it may use do. All that it makes itself are new containers. This is
staying in the realm in which there is any value, and nothing that exists is changed. -/

namespace PropertyAccess

structure Converter.Harmless (σ : Schema) (c : Converter) : Prop where
  fromText : ∀ text required, (c.fromText σ text required).Harmless
  fromValue : ∀ v required, (c.fromValue σ v required).Harmless

def ConversionService.Harmless (σ : Schema) (s : ConversionService) : Prop :=
  ∀ v source target, (s.convert σ v source target).Harmless

def Conversion.Harmless (c : Conversion) : Prop := ∀ path v, Run.Harmless (c path v)

structure ContentConversions.Harmless (contents : ContentConversions) : Prop where
  element : contents.element.Harmless
  key : contents.key.Harmless

structure Strategies.Harmless (σ : Schema) (S : Strategies) : Prop where
  registered : ∀ c ∈ S.registered.converters, c.Harmless σ
  defaults : ∀ c ∈ S.defaults.converters, c.Harmless σ
  service : ∀ s, S.service = some s → s.Harmless σ

def Realm.still (σ : Schema) : Realm σ where
  World := Heap
  Later h h' := h.Extends h'
  Fits w h := h = w
  Allows _ _ := True
  strict := False
  refl := Heap.Extends.refl
  trans := Heap.Extends.trans
  mono _ _ := trivial
  scalar _ := trivial
  items _ _ _ _ _ := trivial
  instances strict := strict.elim
  entries _ _ _ _ := ⟨trivial, trivial⟩
  array _ fits _ _ := ⟨_, fits ▸ .alloc _ _, rfl, trivial⟩
  list _ fits _ := ⟨_, fits ▸ .alloc _ _, rfl, trivial⟩
  set _ fits _ := ⟨_, fits ▸ .alloc _ _, rfl, trivial⟩
  map _ fits _ := ⟨_, fits ▸ .alloc _ _, rfl, trivial⟩

namespace Run

variable {σ : Schema} {ε α : Type}

theorem Harmless.stays {r : Run ε α} (hr : r.Harmless) (w : Heap)
    {P : Heap → α → Prop} (hP : ∀ h a, P h a) : r.Stays (.still σ) w P := by
  rintro h rfl
  exact (hr.ends h).mono (fun a h' hx => ⟨h', hx, rfl, hP h' a⟩) fun _ h' hx => ⟨h', hx, rfl⟩

theorem Harmless.of_stays {r : Run ε α} {P : Heap → α → Prop}
    (hr : ∀ w, r.Stays (.still σ) w P) : r.Harmless := by
  rw [harmless_iff_ends]
  intro h
  refine (hr h h rfl).mono (fun a h' ha => ?_) fun _ h' he => ?_
  · obtain ⟨w', later, rfl, -⟩ := ha
    exact later
  · obtain ⟨w', later, rfl⟩ := he
    exact later

end Run

theorem Schema.MakesNew.stays {σ : Schema} (hσ : σ.MakesNew) : σ.Stays (.still σ) where
  instantiate w c := (harmless_instantiate hσ.confined c).stays w fun _ _ => trivial
  fromText w _ _ _ hm := (harmless_fromText? hσ hm).stays w fun _ _ => trivial
  instances strict := strict.elim

theorem harmless_convertItems {element : Conversion} (he : element.Harmless)
    (path : Option String) (index : Nat) (vs : List Value) :
    (convertItems element path index vs).Harmless := by
  induction vs generalizing index with
  | nil => exact .pure _
  | cons v vs ih => exact (he _ v).bind fun _ => (ih _).bind fun _ => .pure _

theorem Converter.Stays.harmless {σ : Schema} {c : Converter} (hc : c.Stays (.still σ)) :
    c.Harmless σ :=
  ⟨fun text required => .of_stays fun w => hc.fromText w text required,
    fun v required => .of_stays fun w => hc.fromValue w v required trivial⟩

namespace Strategies

variable {σ : Schema} {S : Strategies}

theorem harmless_standard (σ : Schema) : Harmless σ ⟨.empty, .standard, none⟩ :=
  ⟨by simp [Registrations.empty, Registrations.converters],
    fun c hc => (DefaultTable.stays_standard _ c hc).harmless, by simp⟩

theorem Harmless.stays (hS : S.Harmless σ) : S.Stays (.still σ) := by
  have kept : ∀ {c : Converter}, c.Harmless σ → c.Stays (.still σ) := fun hc =>
    ⟨fun w text required => (hc.fromText text required).stays w fun _ _ => trivial,
      fun w v required _ => (hc.fromValue v required).stays w fun _ _ => trivial⟩
  exact {
    registered := fun c hc => kept (hS.registered c hc)
    defaults := fun c hc => kept (hS.defaults c hc)
    service := fun s hs w v source target _ =>
      (hS.service s hs v source target).stays w fun _ _ => trivial
    instances := fun strict => strict.elim }

theorem harmless_contents (hσ : σ.MakesNew) (hS : S.Harmless σ) (t : Ty) :
    (S.contents σ t).Harmless := by
  have stays := stays_contents hσ.stays hS.stays t
  exact ⟨fun path v => .of_stays fun w => stays.element w path v trivial,
    fun path v => .of_stays fun w => stays.key w path v trivial⟩

theorem harmless_convert (hσ : σ.MakesNew) (hS : S.Harmless σ) (required : Ty) :
    (S.convert σ required).Harmless :=
  fun path _ => .of_stays fun _ => stays_convert hσ.stays hS.stays required path trivial

end Strategies

end PropertyAccess
