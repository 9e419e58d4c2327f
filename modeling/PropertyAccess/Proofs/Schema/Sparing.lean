import PropertyAccess.Proofs.Conversion.Harmless
import PropertyAccess.Proofs.Property.Handle
import PropertyAccess.Proofs.Schema.Coherent

/-! Code that leaves containers alone. What is supplied with classes and converters may
change objects, but the arrays, lists, sets and maps that exist hold what they held. Then
the same is true of new instances, of default values, of what properties are read and
written through, and of conversions. -/

namespace PropertyAccess

namespace Run

variable {ε α : Type}

/-- Whatever the outcome, the containers that exist hold what they held. -/
def Sparing (r : Run ε α) : Prop := ∀ h : Heap, h.Conserves (r.on h).2

end Run

/-- None of its getters, setters and constructors modifies a container that exists. -/
structure ClassDecl.Sparing (d : ClassDecl) : Prop where
  getter : ∀ p ∈ d.properties, ∀ g, p.getter = some g → ∀ o, (g o).Sparing
  setter : ∀ p ∈ d.properties, ∀ s, p.setter = some s → ∀ o v, (s o v).Sparing
  initializer : ∀ run, d.construction = .initialized run → ∀ (o : ObjectRef) (h : Heap),
    h.Conserves (run o h)
  fromText : ∀ make, d.fromText = some make → ∀ c text, (make c text).Sparing

def Schema.Sparing (σ : Schema) : Prop := ∀ d ∈ σ.classes, d.Sparing

structure Converter.Sparing (σ : Schema) (c : Converter) : Prop where
  fromText : ∀ text required, (c.fromText σ text required).Sparing
  fromValue : ∀ v required, (c.fromValue σ v required).Sparing

def ConversionService.Sparing (σ : Schema) (s : ConversionService) : Prop :=
  ∀ v source target, (s.convert σ v source target).Sparing

structure Strategies.Sparing (σ : Schema) (S : Strategies) : Prop where
  registered : ∀ c ∈ S.registered.converters, c.Sparing σ
  defaults : ∀ c ∈ S.defaults.converters, c.Sparing σ
  service : ∀ s, S.service = some s → s.Sparing σ

theorem Schema.instances_of_false (σ : Schema) {w h : Heap} {elem : Ty} {l : Loc} (strict : False)
    (_ : h = w) (_ : True) : ∀ x ∈ h.items l, σ.accepts elem x = true := strict.elim

def Realm.sparing (σ : Schema) : Realm σ where
  World := Heap
  Later h h' := h.Conserves h'
  Fits w h := h = w
  Allows _ _ := True
  strict := False
  refl := Heap.Conserves.refl
  trans := Heap.Conserves.trans
  mono _ _ := trivial
  scalar _ := trivial
  items _ _ _ _ _ := trivial
  instances := σ.instances_of_false
  entries _ _ _ _ := ⟨trivial, trivial⟩
  array _ fits _ _ := ⟨_, fits ▸ .of_extends (.alloc _ _), rfl, trivial⟩
  list _ fits _ := ⟨_, fits ▸ .of_extends (.alloc _ _), rfl, trivial⟩
  set _ fits _ := ⟨_, fits ▸ .of_extends (.alloc _ _), rfl, trivial⟩
  map _ fits _ := ⟨_, fits ▸ .of_extends (.alloc _ _), rfl, trivial⟩

variable {σ : Schema} {h h' : Heap}

namespace Run

variable {ε α : Type}

theorem Sparing.ends {r : Run ε α} (hr : r.Sparing) (h : Heap) :
    r.Ends h (fun _ h' => h.Conserves h') fun _ h' => h.Conserves h' := by
  have own := hr h
  unfold Ends
  split <;> simp_all

theorem Sparing.stays {r : Run ε α} (hr : r.Sparing) (w : Heap) {P : Heap → α → Prop}
    (hP : ∀ h a, P h a) : r.Stays (.sparing σ) w P := by
  rintro h rfl
  exact (hr.ends h).mono (fun a h' later => ⟨h', later, rfl, hP h' a⟩) fun _ h' later =>
    ⟨h', later, rfl⟩

theorem Sparing.of_stays {r : Run ε α} {P : Heap → α → Prop}
    (hr : ∀ w, r.Stays (.sparing σ) w P) : r.Sparing := by
  intro h
  have own := hr h h rfl
  unfold Ends at own
  split at own
  · rename_i ran
    obtain ⟨w', later, fits, -⟩ := own
    rw [ran]
    exact fits ▸ later
  · rename_i ran
    obtain ⟨w', later, fits⟩ := own
    rw [ran]
    exact fits ▸ later

end Run

theorem Heap.conserves_setSlot? {l : Loc} {i : Nat} {v : Value}
    (stored : h.setSlot? l i v = some h') : h.Conserves h' := by
  unfold setSlot? at stored
  split at stored
  · rename_i name old found
    obtain rfl := Option.some.inj stored
    have apart : ∀ {m c}, h.cell? m = some c → (∀ fields, c ≠ .slots fields) → m ≠ l := by
      rintro m c cell other rfl
      cases c with
      | slots fields => exact other fields rfl
      | _ => simp [slots, cell] at found
    refine ⟨by simp, fun m vs cell => ?_, fun m es cell => ?_⟩
    · rw [cell?_put_of_ne _ (apart cell (by simp)), cell]
    · rw [cell?_put_of_ne _ (apart cell (by simp)), cell]
  · cases stored

namespace Schema

variable {c : ClassId} {mode : AccessMode} {hd : Handle}

theorem sparing_get (hσ : σ.Sparing) {name : String} (found : σ.handle? c mode name = some hd)
    (o : ObjectRef) : (hd.get o).Sparing := by
  intro h
  unfold Handle.get
  split
  · rename_i getter setter access
    rcases access_of_handle? found with ⟨_, _, _, slot⟩ | ⟨d, hd, p, hp, own⟩
    · rw [access] at slot
      cases slot
    · rw [access] at own
      injection own with same
      exact (hσ d hd).getter p hp getter same.symm o h
  · rename_i index writable access
    have slot : Run.on (Run.lookup (·.slot? o.loc index)) h =
        ((.ok (h.slot? o.loc index) : Except PropertyFault _), h) := rfl
    rw [Run.on_bind_of_ok slot]
    split <;> exact .refl h
  · exact .refl h

theorem sparing_set (hσ : σ.Sparing) {name : String} (found : σ.handle? c mode name = some hd)
    (o : ObjectRef) (v : Value) : (hd.set σ o v).Sparing := by
  intro h
  unfold Handle.set
  split
  · split
    · rename_i getter setter access
      rcases access_of_handle? found with ⟨_, _, _, slot⟩ | ⟨d, hd, p, hp, own⟩
      · rw [access] at slot
        cases slot
      · rw [access] at own
        injection own with _ same
        exact (hσ d hd).setter p hp setter same.symm o v h
    · rename_i index readable access
      have slot : Run.on (Run.lookup (·.setSlot? o.loc index v)) h =
          ((.ok (h.setSlot? o.loc index v) : Except PropertyFault _), h) := rfl
      rw [Run.on_bind_of_ok slot]
      split
      · rename_i after stored
        exact Heap.conserves_setSlot? stored
      · exact .refl h
    · exact .refl h
  · exact .refl h

theorem Sparing.stays (hσ : σ.Sparing) : σ.Stays (.sparing σ) where
  instantiate w c := by
    unfold instantiate
    split
    · exact .throw _
    · rename_i d declared
      refine .ite (fun _ => .throw _) fun _ => ?_
      split
      · exact .throw _
      · exact .throw _
      · rintro h rfl
        exact ⟨_, .of_extends (.alloc h _), rfl, trivial⟩
      · rename_i run initialized
        have own := (hσ d (mem_of_class? declared)).initializer run initialized
        rintro h rfl
        exact ⟨_, (Heap.Conserves.of_extends (.alloc h _)).trans (own _ _), rfl, trivial⟩
  fromText w c text make hmake := by
    obtain ⟨construct, found, rfl⟩ := Option.map_eq_some_iff.1 hmake
    obtain ⟨d, declared, own⟩ := Option.bind_eq_some_iff.1 found
    exact ((hσ d (mem_of_class? declared)).fromText construct own c text).stays w
      fun _ _ => trivial
  instances strict := strict.elim

theorem Sparing.defaultValue (hσ : σ.Sparing) (t : Ty) : (σ.defaultValue t).Sparing :=
  .of_stays fun w => hσ.stays.defaultValue w t

end Schema

namespace Strategies

variable {S : Strategies}

theorem Harmless.sparing (hS : S.Harmless σ) : S.Sparing σ where
  registered c hc := ⟨fun _ _ h => .of_extends ((hS.registered c hc).fromText _ _ h),
    fun _ _ h => .of_extends ((hS.registered c hc).fromValue _ _ h)⟩
  defaults c hc := ⟨fun _ _ h => .of_extends ((hS.defaults c hc).fromText _ _ h),
    fun _ _ h => .of_extends ((hS.defaults c hc).fromValue _ _ h)⟩
  service s hs v source target h := .of_extends (hS.service s hs v source target h)

theorem Sparing.stays (hS : S.Sparing σ) : S.Stays (.sparing σ) := by
  have kept : ∀ {c : Converter}, c.Sparing σ → c.Stays (.sparing σ) := fun hc =>
    ⟨fun w text required => (hc.fromText text required).stays w fun _ _ => trivial,
      fun w v required _ => (hc.fromValue v required).stays w fun _ _ => trivial⟩
  exact {
    registered := fun c hc => kept (hS.registered c hc)
    defaults := fun c hc => kept (hS.defaults c hc)
    service := fun s hs w v source target _ =>
      (hS.service s hs v source target).stays w fun _ _ => trivial
    instances := fun strict => strict.elim }

theorem Sparing.convert (hσ : σ.Sparing) (hS : S.Sparing σ) (required : Ty) (path : Option String)
    (v : Value) : (S.convert σ required path v).Sparing :=
  .of_stays fun _ => stays_convert hσ.stays hS.stays required path trivial

end Strategies

end PropertyAccess
