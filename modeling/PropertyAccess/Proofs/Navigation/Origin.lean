import PropertyAccess.Proofs.Conversion.TextKeys
import PropertyAccess.Proofs.Navigation.Annexed

/-! Places of a graph that nothing was added to yet. In such a graph arrays have exactly the
component type that is declared where they are, so what is stored in the place of one is
stored as it is; and the key of a map is found there, or is missing, every time that the
text of it is converted. -/

namespace PropertyAccess

/-- Classes have only fields. What their constructors make leads only to what they make, and
of a text they make the same scalar every time, if a scalar. -/
structure Schema.Orderly (σ : Schema) : Prop where
  fields : ∀ d ∈ σ.classes, d.properties = []
  makesOwn : σ.MakesOwn
  settled : ∀ c text make, σ.fromText? c text = some make → make.Settled

structure Node.Native (Θ : Labels) (n : Node) : Prop where
  wrapped : (Value.object n.wrapped).Labelled Θ
  strategies : n.strategies = ⟨.empty, .standard, none⟩

/-- Wherever an array is found, its component type is the declared one, if one is declared. -/
def Heap.Exact (σ : Schema) (Θ : Labels) (h : Heap) : Prop :=
  ∀ (n : Node) p elem l type spot before, n.Native Θ →
    n.Holds σ h p (.array elem l) type spot before →
      type.isUnknown = true ∨ type.unwrapped = .array elem

namespace Node

variable {σ : Schema} {n : Node} {Θ : Labels} {h g : Heap} {p : Place} {v : Value} {type : Ty}
  {spot : Spot} {before : List Spot}

namespace Native

variable (hn : n.Native Θ)
include hn

theorem plain : n.strategies.Plain := by
  rw [hn.strategies]
  exact ⟨⟨rfl, rfl⟩, rfl⟩

theorem harmless : n.strategies.Harmless σ := by
  rw [hn.strategies]
  exact Strategies.harmless_standard σ

theorem stays (R : Realm σ) : n.strategies.Stays R := by
  rw [hn.strategies]
  exact Strategies.stays_standard R

end Native

namespace Holds

theorem labelled (hp : n.Holds σ h p v type spot before) (hc : h.Coherent Θ)
    (hw : (Value.object n.wrapped).Labelled Θ) : v.Labelled Θ := by
  induction hp with
  | field _ _ value =>
    obtain ⟨c, cell, suits⟩ := hc.cell _ _ (hw _ rfl)
    obtain rfl := Option.some.inj (cell.symm.trans (Heap.cell?_of_slot? value))
    obtain ⟨f, hf, rfl⟩ := Option.map_eq_some_iff.1 value
    exact suits f (List.mem_of_getElem? hf)
  | @item _ _ c _ _ _ l _ _ _ _ sequence _ value ih =>
    have elements : h.elements? c = some (h.items l) := by
      cases c <;> simp_all [Value.sequence?, Heap.elements?]
    exact hc.elements ih elements _ (List.mem_of_getElem? value)
  | entry _ _ _ value ih => exact ((hc.cell?_entries ih).2 _ (List.mem_of_getElem? value)).2

theorem innerType_eq (hp : n.Holds σ h p v type spot before) (exact : h.Exact σ Θ)
    (hn : n.Native Θ) :
    n.innerType σ p.root p.depth = type ∨ (n.innerType σ p.root p.depth).isUnknown = true := by
  induction hp with
  | field handle =>
    refine .inl ?_
    rw [innerType, Place.root, handle]
    rfl
  | @item holder _ c _ tc elem l _ _ _ inner sequence _ _ ih =>
    cases c with
    | array e m =>
      obtain ⟨rfl, rfl⟩ : m = l ∧ e = elem := by simpa [Value.sequence?] using sequence
      have declared := exact n holder e m _ _ _ hn inner
      rw [Place.root, Place.depth]
      rcases innerType_elements ih with same | unknown
      · rw [same]
        refine declared.elim (fun ht => .inr (Ty.isUnknown_element? ht)) fun unwrapped => .inl ?_
        rw [Ty.element?, unwrapped]
        rfl
      · exact .inr unknown
    | list s m | set s m =>
      obtain ⟨-, rfl⟩ : m = l ∧ n.innerType σ holder.root (holder.depth + 1) = elem := by
        simpa [Value.sequence?] using sequence
      exact .inl rfl
    | _ => cases sequence
  | entry => exact .inl rfl

theorem label_spot (hp : n.Holds σ h p v type spot before) (hc : h.Coherent Θ)
    (hw : (Value.object n.wrapped).Labelled Θ) :
    (∀ s elem, Θ[spot.1]? ≠ some (.set s elem)) ∨
      ∃ holder key s t inner outer, p = .element holder key ∧
        n.Holds σ h holder (.set s spot.1) t inner outer := by
  cases hp with
  | field =>
    refine .inl fun s elem same => ?_
    cases (hw n.wrapped.loc rfl).symm.trans same
  | @item _ _ c _ _ _ l _ _ _ inner sequence _ _ =>
    have label := inner.labelled hc hw
    cases c with
    | array e m | list s m =>
      obtain ⟨rfl, -⟩ : m = l ∧ _ := by simpa [Value.sequence?] using sequence
      refine .inl fun s elem same => ?_
      cases (label m rfl).symm.trans same
    | set s m =>
      obtain ⟨rfl, -⟩ : m = l ∧ _ := by simpa [Value.sequence?] using sequence
      exact .inr ⟨_, _, s, _, _, _, rfl, inner⟩
    | _ => cases sequence
  | entry inner _ _ _ =>
    refine .inl fun s elem same => ?_
    cases (inner.labelled hc hw _ rfl).symm.trans same

theorem ends_store (hp : n.Holds σ g p v type spot before) (hσ : σ.MakesNew) (hn : n.Native Θ)
    (hc : g.Coherent Θ) (hx : g.Extends h) (raw : Value) :
    (n.write σ p raw).Ends h
      (fun _ h' => (∀ s elem, Θ[spot.1]? ≠ some (.set s elem)) ∧
        ∃ w h₁, n.Converts σ h p.canonical raw type w h₁ ∧ h.Extends h₁ ∧ h' = h₁.store spot w)
      (fun _ h' => h.Extends h') := by
  rcases hp.label_spot hc hn.wrapped with free | ⟨holder, key, s, t, inner, outer, rfl, holds⟩
  · exact ((hp.mono hx).ends_write hσ hn.harmless raw).mono (fun _ _ hw => ⟨free, hw⟩)
      fun _ _ => id
  · refine (holds.mono hx).ends_write_element hσ hn.harmless rfl fun h' later => ?_
    unfold writeElement
    exact later

end Holds

section Keys

variable {holder : Place} {key : String} {shape : TableShape} {l : Loc}

/-- A map of the graph has no entry for the key, whatever the graph is like when the key is
converted. -/
inductive Vacant (σ : Schema) (n : Node) (g : Heap) : Place → Prop
  | key {holder : Place} {key : String} {shape : TableShape} {l : Loc} {type : Ty} {spot : Spot}
      {before : List Spot} (inner : n.Holds σ g holder (.map shape l) type spot before)
      (absent : ∀ h k h', g.size ≤ h.size →
        (n.convertKey σ holder.root holder.depth key).on h = (.ok k, h') →
        MapEntries.contains (g.entries l) k = false) : Vacant σ n g (.element holder key)

variable (hσ : σ.Orderly) (hn : n.Native Θ)
include hσ hn

theorem settled_convertKey (name : String) (depth : Nat) (key : String) :
    (n.convertKey σ name depth key).Settled :=
  hn.plain.settled_convert hσ.settled _ _ key

theorem ends_convertKey_own (name : String) (depth : Nat) (key : String) (h : Heap) :
    (n.convertKey σ name depth key).Ends h
      (fun k h' => (n.convertKey σ name depth key).on h = (.ok k, h') ∧ h.Extends h' ∧
        h'.Own h.size k)
      (fun _ h' => h.Extends h') := by
  have fits := Surroundings.fit_since (Nat.le_refl h.size)
  have stays := stays_convertKey (hσ.makesOwn.stays _) (hn.stays _) name depth key h fits
  have harmless := (harmless_convertKey hσ.makesOwn.makesNew hn.harmless name depth key).ends h
  refine ((Run.ends_on _ h).and (stays.and harmless)).mono (fun k h' hk => ?_)
    fun _ _ hk => hk.2.2
  obtain ⟨ran, ⟨S, -, fits, within⟩, hx⟩ := hk
  exact ⟨ran, hx, S, fits.closed, fits.hold.2, within⟩

theorem converts_of_contains {h h' : Heap} {k : Value} {entries : List (Value × Value)}
    (old : ∀ e ∈ entries, ∀ m, e.1.loc? = some m → m < h.size) {name : String} {depth : Nat}
    (ran : (n.convertKey σ name depth key).on h = (.ok k, h'))
    (there : MapEntries.contains entries k = true) :
    ∀ f, ∃ f', (n.convertKey σ name depth key).on f = (.ok k, f') := by
  refine settled_convertKey hσ hn name depth key h h' k ran ?_
  obtain ⟨-, -, T, -, new, within⟩ := (ends_convertKey_own hσ hn name depth key h).of_ok ran
  obtain ⟨e, he, same⟩ := List.any_eq_true.1 there
  cases target : k.loc? with
  | none => rfl
  | some m =>
    have older := old e he m ((Value.loc?_of_same same).trans target)
    exact absurd older (Nat.not_lt.2 (new m (within m target)))

/-- An entry of a map that is there is found, or there is none for the key. -/
theorem ends_readMap_origin {type : Ty} {spot : Spot} {before : List Spot}
    (inner : n.Holds σ g holder (.map shape l) type spot before) (hc : g.Coherent Θ)
    (hx : g.Extends h) (shown : String) :
    (n.readMap σ shown holder key l).Ends h
      (fun v h' => g.Extends h' ∧
        ((∃ type spot before, n.Holds σ g (.element holder key) v type spot before) ∨
          v = .null ∧ n.Vacant σ g (.element holder key)))
      (fun _ h' => g.Extends h') := by
  obtain ⟨cell, labelled⟩ := hc.cell?_entries (inner.labelled hc hn.wrapped)
  have old {h : Heap} (later : g.size ≤ h.size) :
      ∀ e ∈ g.entries l, ∀ m, e.1.loc? = some m → m < h.size := by
    exact fun e he m target => Nat.lt_of_lt_of_le (hc.lt_size (labelled e he).1 target) later
  refine (ends_readMap hσ.makesOwn.makesNew hn.harmless).mono (fun v h₁ hv => ?_)
    fun _ _ => hx.trans
  obtain ⟨k, ran, hy, found⟩ := hv
  rw [(hx.trans hy).entries_eq (Heap.lt_size_of_cell? cell)] at found
  refine ⟨hx.trans hy, ?_⟩
  rcases found with found | ⟨missing, -, rfl⟩
  · obtain ⟨i, e, here, value, rfl⟩ := MapEntries.findIdx?_of_get? found
    have converts := converts_of_contains hσ hn (old hx.size_le) ran
      (MapEntries.contains_of_findIdx? here)
    exact .inl ⟨_, _, _, .entry inner converts here value⟩
  · rw [MapEntries.get?_eq_none_iff] at missing
    refine .inr ⟨rfl, .key inner fun f u f' grown again => ?_⟩
    by_contra there
    rw [Bool.not_eq_false] at there
    obtain ⟨h₂, first⟩ := converts_of_contains hσ hn (old grown) again there h
    obtain rfl : k = u := Except.ok.inj (congrArg Prod.fst (ran.symm.trans first))
    rw [missing] at there
    cases there

end Keys

end Node

end PropertyAccess
