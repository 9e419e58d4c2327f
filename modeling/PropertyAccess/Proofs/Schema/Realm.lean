import PropertyAccess.Proofs.Graph.Ends
import PropertyAccess.Proofs.Graph.Table
import PropertyAccess.Proofs.Schema.Accepts
import PropertyAccess.Schema.Instance

/-! Realms. A realm says which values may be met in a graph, and keeps to it as new
containers are made of such values. Much of what the program does only reads values that it
meets and makes containers of them, and this stays in every realm. What is asked of the
graph may be as little as that nothing is changed, or as much as that all of it is well
typed. -/

namespace PropertyAccess

/-- A world says which values may be met in a graph as it is. A later world belongs to the
graph with more in it, and has what the earlier one had. -/
structure Realm (σ : Schema) where
  World : Type
  Later : World → World → Prop
  Fits : World → Heap → Prop
  Allows : World → Value → Prop
  /-- Arrays hold only instances of their component type. -/
  strict : Prop
  refl : ∀ w, Later w w
  trans : ∀ {u v w}, Later u v → Later v w → Later u w
  mono : ∀ {w w' v}, Later w w' → Allows w v → Allows w' v
  scalar : ∀ {w v}, v.loc? = none → Allows w v
  items : ∀ {w h v vs}, Fits w h → Allows w v → h.elements? v = some vs → ∀ x ∈ vs, Allows w x
  instances : ∀ {w h elem l}, strict → Fits w h → Allows w (.array elem l) →
    ∀ x ∈ h.items l, σ.accepts elem x = true
  entries : ∀ {w h s l}, Fits w h → Allows w (.map s l) →
    ∀ e ∈ h.entries l, Allows w e.1 ∧ Allows w e.2
  array : ∀ {w h vs} (elem : Ty), Fits w h → (∀ x ∈ vs, Allows w x) →
    (strict → ∀ x ∈ vs, σ.accepts elem x = true) →
    ∃ w', Later w w' ∧ Fits w' (h.alloc (.items vs)).2 ∧ Allows w' (.array elem h.size)
  list : ∀ {w h vs} (s : ListShape), Fits w h → (∀ x ∈ vs, Allows w x) →
    ∃ w', Later w w' ∧ Fits w' (h.alloc (.items vs)).2 ∧ Allows w' (.list s h.size)
  set : ∀ {w h vs} (s : TableShape), Fits w h → (∀ x ∈ vs, Allows w x) →
    ∃ w', Later w w' ∧ Fits w' (h.alloc (.items vs)).2 ∧ Allows w' (.set s h.size)
  map : ∀ {w h es} (s : TableShape), Fits w h → (∀ e ∈ es, Allows w e.1 ∧ Allows w e.2) →
    ∃ w', Later w w' ∧ Fits w' (h.alloc (.entries es)).2 ∧ Allows w' (.map s h.size)

namespace Run

variable {σ : Schema} {ε δ α β : Type}

/-- From a graph of the world, the graph of a later world comes about, and of a result
there is `P`. -/
def Stays (R : Realm σ) (w : R.World) (r : Run ε α) (P : R.World → α → Prop) : Prop :=
  ∀ h, R.Fits w h →
    r.Ends h (fun a h' => ∃ w', R.Later w w' ∧ R.Fits w' h' ∧ P w' a)
      (fun _ h' => ∃ w', R.Later w w' ∧ R.Fits w' h')

namespace Stays

variable {R : Realm σ} {w : R.World} {P P' : R.World → α → Prop} {Q : R.World → β → Prop}
  {r : Run ε α}

theorem mono (hr : r.Stays R w P) (hP : ∀ w' a, R.Later w w' → P w' a → P' w' a) :
    r.Stays R w P' := by
  intro h hf
  refine (hr h hf).mono (fun a h' ha => ?_) fun _ _ => id
  obtain ⟨w', hw, hf', ha⟩ := ha
  exact ⟨w', hw, hf', hP w' a hw ha⟩

theorem pure {a : α} (ha : P w a) : Stays R w (Pure.pure a : Run ε α) P :=
  fun _ hf => ⟨w, R.refl w, hf, ha⟩

theorem throw (e : ε) : Stays R w (MonadExcept.throw e : Run ε α) P :=
  fun _ hf => ⟨w, R.refl w, hf⟩

theorem computed {result : Except ε α} (hr : ∀ a, result = .ok a → P w a) :
    Stays R w (ExceptT.mk (Pure.pure result) : Run ε α) P := by
  intro h fits
  cases result with
  | ok a => exact ⟨w, R.refl w, fits, hr a rfl⟩
  | error e => exact ⟨w, R.refl w, fits⟩

theorem bind {f : α → Run ε β} (hr : r.Stays R w P)
    (hf : ∀ w' a, R.Later w w' → P w' a → (f a).Stays R w' Q) : (r >>= f).Stays R w Q := by
  intro h fits
  rw [ends_bind]
  refine (hr h fits).mono (fun a h' ha => ?_) fun _ _ => id
  obtain ⟨w', hw, fits', ha⟩ := ha
  refine (hf w' a hw ha h' fits').mono (fun b h'' hb => ?_) fun _ h'' hb => ?_
  · obtain ⟨w'', hw', rest⟩ := hb
    exact ⟨w'', R.trans hw hw', rest⟩
  · obtain ⟨w'', hw', rest⟩ := hb
    exact ⟨w'', R.trans hw hw', rest⟩

theorem lookup {f : Heap → α} (hf : ∀ h, R.Fits w h → P w (f h)) :
    Stays R w (Run.lookup f : Run ε α) P :=
  fun h fits => ⟨w, R.refl w, fits, hf h fits⟩

theorem heap {P : R.World → Heap → Prop} (hf : ∀ h, R.Fits w h → P w h) :
    Stays R w (Run.heap : Run ε Heap) P :=
  fun h fits => ⟨w, R.refl w, fits, hf h fits⟩

theorem inspect {f : Heap → Except ε α} (hf : ∀ h, R.Fits w h → ∀ a, f h = .ok a → P w a) :
    Stays R w (Run.inspect f) P :=
  fun h fits => (ends_inspect f).2
    ⟨fun a ha => ⟨w, R.refl w, fits, hf h fits a ha⟩, fun _ _ => ⟨w, R.refl w, fits⟩⟩

theorem outcome (hr : r.Stays R w P) :
    Stays R w (Run.outcome r : Run δ _) fun w' result => ∀ a, result = .ok a → P w' a := by
  intro h fits
  rw [ends_outcome]
  refine (hr h fits).mono (fun a h' ha => ?_) fun e h' he => ?_
  · obtain ⟨w', hw, fits', ha⟩ := ha
    refine ⟨w', hw, fits', fun b hb => ?_⟩
    exact Except.ok.inj hb ▸ ha
  · obtain ⟨w', hw, fits'⟩ := he
    exact ⟨w', hw, fits', fun b hb => by cases hb⟩

theorem mapError (f : ε → δ) (hr : r.Stays R w P) : Stays R w (Run.mapError f r) P :=
  fun h fits => (ends_mapError f r).2 (hr h fits)

theorem ite {c : Prop} [Decidable c] {s : Run ε α} (hr : c → r.Stays R w P)
    (hs : ¬c → s.Stays R w P) : Stays R w (if c then r else s) P := by
  split
  · exact hr ‹_›
  · exact hs ‹_›

theorem and_gives {G : α → Prop} (hr : r.Stays R w P) (hg : r.Gives G) :
    r.Stays R w fun w' a => P w' a ∧ G a := by
  intro h fits
  refine ((hr h fits).and (hg h)).mono (fun a h' ha => ?_) fun _ _ he => he.1
  obtain ⟨⟨w', hw, fits', ha⟩, hg⟩ := ha
  exact ⟨w', hw, fits', ha, hg⟩

theorem newArray {elem : Ty} {vs : List Value} (hv : ∀ x ∈ vs, R.Allows w x)
    (he : R.strict → ∀ x ∈ vs, σ.accepts elem x = true) :
    Stays R w (Run.newArray elem vs : Run ε Value) R.Allows :=
  fun _ fits => R.array elem fits hv he

theorem newList {shape : ListShape} {vs : List Value} (hv : ∀ x ∈ vs, R.Allows w x) :
    Stays R w (Run.newList shape vs : Run ε Value) R.Allows :=
  fun _ fits => R.list _ fits hv

theorem newSet {shape : TableShape} {vs : List Value} (hv : ∀ x ∈ vs, R.Allows w x) :
    Stays R w (Run.newSet shape vs : Run ε Value) R.Allows :=
  fun _ fits => R.set _ fits fun x hx => hv x (SetItems.mem_of_mem_ofList hx)

theorem newMap {shape : TableShape} {es : List (Value × Value)}
    (he : ∀ e ∈ es, R.Allows w e.1 ∧ R.Allows w e.2) :
    Stays R w (Run.newMap shape es : Run ε Value) R.Allows :=
  fun _ fits => R.map _ fits (MapEntries.forall_ofList he)

end Stays

end Run

end PropertyAccess
