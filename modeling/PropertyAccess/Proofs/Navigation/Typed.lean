import PropertyAccess.Proofs.Navigation.Ground
import PropertyAccess.Proofs.Schema.Typing

/-! Reading and writing places keeps graphs well typed. A property is only given instances
of its type, and an element of an array only what was converted to the component type. What
is made for a missing value, and what an array grows by, is made for its type. All that is
read was in the graph before, or was put there. -/

namespace PropertyAccess

/-- The node wraps an object of the graph, and its conversions keep graphs well typed. -/
structure Node.Typed (σ : Schema) (Θ : Labels) (n : Node) : Prop where
  wrapped : (Value.object n.wrapped).Labelled Θ
  strategies : n.strategies.Stays σ.typing

namespace Schema

theorem editable_typing (σ : Schema) : σ.typing.Editable where
  array fits ha hv inst stored := by
    refine fits.setItem? hv (fun elem there => ?_) stored
    obtain rfl := Ty.array.inj (Option.some.inj ((ha _ rfl).symm.trans there))
    exact inst trivial
  list fits hl hv stored :=
    fits.setItem? hv (fun elem there => absurd there (hl.not_array elem)) stored
  append fits hl hv := fits.appendItems hl hv
  insert shape fits _ hk hv := fits.insertEntry shape hk hv

theorem owns_typing {σ : Schema} {Θ : Labels} {o : ObjectRef} (ho : (Value.object o).Labelled Θ) :
    σ.typing.Owns Θ o where
  get later fits slot there := by
    obtain ⟨v, value, -, labelled⟩ := Heap.WellTyped.slot? fits (Value.Labelled.mono later ho) slot
    exact Option.some.inj (value.symm.trans there) ▸ labelled
  set later fits slot accepted hv stored :=
    Heap.WellTyped.setSlot? fits (Value.Labelled.mono later ho) slot accepted hv stored

end Schema

namespace Node

variable {σ : Schema} {n : Node} {Θ Θ' : Labels}

theorem Typed.mono (later : Θ <+: Θ') (hn : n.Typed σ Θ) : n.Typed σ Θ' :=
  ⟨hn.wrapped.mono later, hn.strategies⟩

theorem typed_ground (hσ : σ.Typed) (hn : n.Typed σ Θ) (p : Place) :
    n.Ground σ.typing Θ p fun _ => True :=
  ground hσ.fields (Schema.owns_typing hn.wrapped) hσ.stays σ.editable_typing hn.strategies p

theorem typed_read (hσ : σ.Typed) (hn : n.Typed σ Θ) (shown : String) (p : Place) :
    (n.read σ shown p).Stays σ.typing Θ fun Θ' v => v.Labelled Θ' :=
  ((typed_ground hσ hn p).reads shown Θ (List.prefix_refl Θ)).mono fun _ _ _ hv => hv.1

theorem typed_write (hσ : σ.Typed) (hn : n.Typed σ Θ) (p : Place) {raw : Value}
    (hv : raw.Labelled Θ) : (n.write σ p raw).Stays σ.typing Θ fun _ _ => True :=
  (typed_ground hσ hn p).writes Θ (List.prefix_refl Θ) raw hv trivial

theorem typed_enter (hσ : σ.Typed) (hn : n.Typed σ Θ) (p : Place) :
    (n.enter σ p).Stays σ.typing Θ fun Θ' o => (Value.object o).Labelled Θ' :=
  (typed_ground hσ hn p).enter hσ.stays

theorem typed_child (hn : n.Typed σ Θ) (s : Segment) {o : ObjectRef}
    (ho : (Value.object o).Labelled Θ) : (n.child s o).Typed σ Θ where
  wrapped := ho
  strategies :=
    ⟨fun c hc => hn.strategies.registered c (Registrations.mem_of_mem_below hc),
      hn.strategies.defaults, hn.strategies.service, hn.strategies.instances⟩

end Node

end PropertyAccess
