import PropertyAccess.Proofs.Conversion.Fresh
import PropertyAccess.Proofs.Graph.Renewal
import PropertyAccess.Proofs.Navigation.Growing
import PropertyAccess.Proofs.Schema.Planned

/-! Reading in a planned graph without cycles, growing or not. Where an array is too short,
the copy of it that is stored is the very copy that was made, since its component type is the
one that is declared. So whatever is made on the way, the reader comes to a place that holds
what was read, or to a map that lacks the key. -/

namespace PropertyAccess

/-- Classes have only fields. Constructors make no cycles, do the same whatever the names of
locations, and give arrays the component types that are declared. -/
structure Schema.Regular (σ : Schema) : Prop where
  fields : ∀ d ∈ σ.classes, d.properties = []
  makesTrees : σ.MakesTrees
  uniform : σ.Uniform
  plans : σ.Plans

def Strategies.builtin : Strategies := ⟨.empty, .standard, none⟩

namespace Strategies

theorem bare_builtin : builtin.Bare := ⟨rfl, rfl⟩

theorem makesTrees_builtin (σ : Schema) : builtin.MakesTrees σ := makesTrees_standard σ

theorem uniform_builtin (σ : Schema) : builtin.Uniform σ where
  registered := by simp [builtin, Registrations.empty, Registrations.converters]
  defaults := DefaultTable.uniform_standard σ
  service := by simp [builtin]

end Strategies

theorem Schema.ends_grownArray_free {σ : Schema} (hσ : σ.MakesTrees) (elem : Ty) (l : Loc)
    (length : Nat) (h : Heap) :
    (σ.grownArray elem l length).Ends h
      (fun v g => h.Extends g ∧ ∃ m, v = .array elem m ∧ h.FreeAs g (.array elem l) v ∧
        ∃ news, g.items m = h.items l ++ news ∧ length ≤ (g.items m).length)
      (fun _ _ => True) := by
  rw [ends_grownArray_iff]
  have made := (hσ.stays h.size).repeated h elem (length - (h.items l).length) h
    ⟨rfl, Nat.le_refl _⟩
  have lengths := ends_repeated (σ.filler elem) (length - (h.items l).length) h
  refine (made.and lengths).mono (fun news g hg => ?_) fun _ _ _ => trivial
  obtain ⟨⟨w, hx, ⟨rfl, -⟩, new⟩, count, -⟩ := hg
  have items : (g.alloc (.items (h.items l ++ news))).2.items g.size = h.items l ++ news := by
    have cell := Heap.cell?_alloc g (.items (h.items l ++ news))
    rw [Heap.items, show (g.alloc (.items (h.items l ++ news))).2.cell? g.size = _ from cell]
  refine ⟨hx.trans (.alloc g _), g.size, rfl, fun C old free => ?_, news, items, ?_⟩
  · refine .alloc rfl (fun hc => Nat.not_lt.2 hx.size_le (old _ hc)) trivial fun x hm => ?_
    rcases List.mem_append.1 hm with hm | hm
    · exact (free.elements rfl x hm).mono hx
    · exact (new x hm).1.anti old
  · rw [items, List.length_append, count]
    omega

theorem Value.Sits.typeAt?_element {σ : Schema} {Γ : Plan} {t : Ty} {c : Value} {l : Loc} {i : Nat}
    (sits : c.Sits Γ t) (target : c.loc? = some l)
    (mold : c.mold t = .elements (t.element?.getD .any)) :
    Γ.typeAt? σ (l, i) = some (t.element?.getD .any) := by
  rw [Plan.typeAt?, sits.planned l target, mold]
  rfl

namespace Node

variable {σ : Schema} {n : Node} {Γ Γ' : Plan} {C : Loc → Prop} {h h' g : Heap} {p : Place}
  {v : Value} {type : Ty} {spot : Spot} {before : List Spot} {holder : Place} {key : String}

/-- The object of the node has its plan. -/
abbrev Planned (Γ : Plan) (n : Node) : Prop := (Value.object n.wrapped).Sits Γ .any

namespace Holds

theorem spot_apart (hp : n.Holds σ h p v type spot before) (hh : n.Hangs C h) :
    spot.1 < h.size ∧ ¬ C spot.1 ∧ spot ∉ before := by
  have old := hp.lt_size spot List.mem_cons_self
  cases hp with
  | field => exact ⟨old, (hh.free.cell rfl).1, List.not_mem_nil⟩
  | item inner sequence =>
    obtain ⟨-, free, apart⟩ := inner.apart hh (Value.loc?_of_sequence? sequence)
    exact ⟨old, free, fun there => apart _ there rfl⟩
  | entry inner =>
    obtain ⟨-, free, apart⟩ := inner.apart hh rfl
    exact ⟨old, free, fun there => apart _ there rfl⟩

/-- What a place holds sits with the type that is planned for its spot. That is the type for
which values are converted there, and what is known of the place, unless nothing is. -/
theorem planned (hp : n.Holds σ h p v type spot before) (hσ : σ.Regular) (hf : h.Follows σ Γ)
    (hw : n.Planned Γ) :
    ∃ t, Γ.typeAt? σ spot = some t ∧ v.Sits Γ t ∧
      (type = t ∨ type.isUnknown = true ∧ (n.innerType σ p.root p.depth).isUnknown = true) ∧
      (n.innerType σ p.root p.depth = t ∨ (n.innerType σ p.root p.depth).isUnknown = true) := by
  have sits := fun t ht => hf.sits spot t v ht hp.at_spot
  induction hp with
  | @field name hd i writable v handle access =>
    obtain ⟨index, _, _, s, slot, same, access'⟩ := Schema.slot_of_handle? hσ.fields handle
    obtain ⟨rfl, -⟩ : i = index ∧ _ := by simpa [access] using access'
    have here : Γ.typeAt? σ (n.wrapped.loc, i) = some hd.type := by
      rw [Plan.typeAt?, hw.planned _ rfl, same]
      simp [Value.mold, Mold.typeAt?, slot]
    have known : n.innerType σ name 0 = hd.type := by
      rw [innerType, handle]
      rfl
    exact ⟨_, here, sits _ here, .inl rfl, .inl known⟩
  | @item holder _ c _ tc elem l _ _ _ inner sequence _ _ ih =>
    obtain ⟨t, -, hc, -, known⟩ := ih fun t ht => hf.sits _ t _ ht inner.at_spot
    cases c with
    | array e m =>
      obtain ⟨rfl, rfl⟩ : m = l ∧ e = elem := by simpa [Value.sequence?] using sequence
      have here {i : Nat} : Γ.typeAt? σ (m, i) = some e := by
        rw [Plan.typeAt?, hc.planned m rfl]
        rfl
      refine ⟨e, here, sits e here, .inl rfl, ?_⟩
      rw [Place.root, Place.depth]
      rcases innerType_elements known with same | known
      · rw [same]
        refine (hc.exact e m rfl).elim (fun ht => .inr (Ty.isUnknown_element? ht))
          fun array => .inl ?_
        rw [Ty.element?, array]
        rfl
      · exact .inr known
    | list s m | set s m =>
      obtain ⟨rfl, rfl⟩ : m = l ∧ n.innerType σ holder.root (holder.depth + 1) = elem := by
        simpa [Value.sequence?] using sequence
      have here {i : Nat} : Γ.typeAt? σ (m, i) = some (t.element?.getD .any) :=
        hc.typeAt?_element rfl rfl
      have known := innerType_elements known
      refine ⟨_, here, sits _ here, ?_, known⟩
      exact known.imp_right fun ht => ⟨ht, ht⟩
    | _ => cases sequence
  | entry inner _ _ _ ih =>
    obtain ⟨t, -, hc, -, known⟩ := ih fun t ht => hf.sits _ t _ ht inner.at_spot
    have here {i : Nat} : Γ.typeAt? σ (_, i) = some (t.element?.getD .any) :=
      hc.typeAt?_element rfl rfl
    have known := innerType_elements known
    exact ⟨_, here, sits _ here, known.imp_right fun ht => ⟨ht, ht⟩, known⟩

end Holds

/-- There is no entry for the key in the map at the holder, nor will there be one for what the
key is converted to later. -/
inductive Lacks (σ : Schema) (n : Node) (h : Heap) : Place → Prop
  | key {holder : Place} {key : String} {shape : TableShape} {l : Loc} {type : Ty} {spot : Spot}
      {before : List Spot} (inner : n.Holds σ h holder (.map shape l) type spot before)
      (old : l < h.size) (growing : n.config.growing = true)
      (absent : ∀ g, h.Extends g → (n.convertKey σ holder.root holder.depth key).Ends g
        (fun k g' => g.Extends g' ∧ MapEntries.contains (h.entries l) k = false)
        (fun _ _ => False)) : Lacks σ n h (.element holder key)

def Has (σ : Schema) (n : Node) (h : Heap) (p : Place) (v : Value) : Prop :=
  (∃ type spot before, n.Holds σ h p v type spot before) ∨ v = .null ∧ n.Lacks σ h p

structure Tends (σ : Schema) (n : Node) (C : Loc → Prop) (Γ : Plan) (h : Heap) (Γ' : Plan)
    (h' : Heap) : Prop where
  later : Γ.Later Γ'
  grafts : n.Grafts C h h'
  follows : h'.Follows σ Γ'

namespace Tends

variable {Γ'' : Plan} {h'' : Heap}

theorem of_extends (hh : n.Hangs C h) (hf : h.Follows σ Γ) (hx : h.Extends h') :
    n.Tends σ C Γ h Γ h' := ⟨.refl Γ, .of_extends hh hx, hf.mono hx⟩

theorem trans (a : n.Tends σ C Γ h Γ' h') (b : n.Tends σ C Γ' h' Γ'' h'') :
    n.Tends σ C Γ h Γ'' h'' := ⟨a.later.trans b.later, a.grafts.trans b.grafts, b.follows⟩

end Tends

theorem Lacks.mono (lacks : n.Lacks σ h p) (hx : h.Extends h') : n.Lacks σ h' p := by
  cases lacks with
  | key inner old growing absent =>
    refine .key (inner.mono hx) (Nat.lt_of_lt_of_le old hx.size_le) growing fun g hy => ?_
    rw [hx.entries_eq old]
    exact absent g (hx.trans hy)

theorem Has.mono (has : n.Has σ h p v) (hx : h.Extends h') : n.Has σ h' p v := by
  rcases has with ⟨type, spot, before, holds⟩ | ⟨null, lacks⟩
  · exact .inl ⟨type, spot, before, holds.mono hx⟩
  · exact .inr ⟨null, lacks.mono hx⟩

section Reading

variable (hσ : σ.Regular) (hn : n.strategies = .builtin)
include hσ hn

omit hσ in
theorem makesTrees_of_builtin : n.strategies.MakesTrees σ := hn ▸ Strategies.makesTrees_builtin σ

omit hσ in
theorem harmless_of_builtin : n.strategies.Harmless σ := (makesTrees_of_builtin hn).harmless

theorem convertKey_again {name : String} {depth : Nat} {k : Value}
    (ran : (n.convertKey σ name depth key).on h = (.ok k, h')) (f : Heap) :
    ∃ u f', (n.convertKey σ name depth key).on f = (.ok u, f') ∧ (k.loc? = none → u = k) :=
  Strategies.convert_text_again hσ.uniform (hn ▸ Strategies.uniform_builtin σ) ran f

theorem Has.ends_read (has : n.Has σ h p v) (shown : String) :
    (n.read σ shown p).Ends h (fun u h' => u = v ∧ h.Extends h') (fun _ _ => False) := by
  have harmless : n.strategies.Harmless σ := harmless_of_builtin hn
  rcases has with ⟨type, spot, before, holds⟩ | ⟨rfl, lacks⟩
  · exact holds.ends_read hσ.makesTrees.makesNew harmless shown
  · cases lacks with
    | key inner old growing absent =>
      rw [read_element, Run.ends_bind]
      refine (ends_readHolder rfl (inner.ends_read hσ.makesTrees.makesNew harmless shown)).mono
        (fun c g hc => ?_) fun _ _ => id
      obtain ⟨rfl, hx⟩ := hc
      simp only [readElement, readMap, Run.ends_bind, Run.ends_outcome]
      refine (absent g hx).mono (fun k g' hk => ?_) fun _ _ => False.elim
      obtain ⟨hy, missing⟩ := hk
      rw [← (hx.trans hy).entries_eq old] at missing
      simp only [Run.ends_lookup, MapEntries.get?_eq_none_iff.2 missing, growing, if_true]
      exact ⟨rfl, hx.trans hy⟩

end Reading

end Node

structure Heap.Fresh (σ : Schema) (Γ : Plan) (k : Nat) (h : Heap) (type : Ty) (v : Value) :
    Prop where
  suited : Strategies.Suited σ type v
  blank : h.Blank v
  sits : v.Sits Γ type
  new : h.New k v

theorem Heap.Fresh.mono {σ : Schema} {Γ : Plan} {k : Nat} {h h' : Heap} {type : Ty} {v : Value}
    (fresh : h.Fresh σ Γ k type v) (hx : h.Extends h') : h'.Fresh σ Γ k type v :=
  ⟨fresh.suited, fresh.blank.mono hx, fresh.sits, fresh.new.mono hx⟩

theorem Schema.ends_defaultValue_fresh {σ : Schema} (hσ : σ.Regular) {Γ : Plan} {h : Heap}
    (hf : h.Follows σ Γ) (type : Ty) :
    (σ.defaultValue type).Ends h
      (fun v g => h.Extends g ∧ ∃ Γ', Γ.Later Γ' ∧ g.Follows σ Γ' ∧ g.Fresh σ Γ' h.size type v)
      (fun _ _ => True) := by
  have new := Node.ends_defaultValue_new hσ.makesTrees type h
  have planned := planned_defaultValue hσ.plans Γ type h hf
  have blank := ends_defaultValue_blank (σ := σ) type h
  have given := (gives_defaultValue (σ := σ) type h).and (gives_defaultValue_made (σ := σ) type h)
  refine (new.and (planned.and (blank.and given))).mono (fun v g hv => ?_) fun _ _ _ => trivial
  obtain ⟨⟨hx, new⟩, ⟨Γ', later, follows, sits⟩, blank, instance_, notNull, array⟩ := hv
  refine ⟨hx, Γ', later, follows, ⟨notNull, instance_, fun e l same => ?_⟩, blank, sits, new⟩
  rw [array e l same]
  rfl

namespace Node

variable {σ : Schema} {n : Node} {Γ Γ' : Plan} {C : Loc → Prop} {h h' g : Heap} {p : Place}
  {v w raw : Value} {type : Ty} {holder : Place} {key : String}

section Writing

variable (hσ : σ.Regular) (hn : n.strategies = .builtin)
include hσ hn

omit hσ in
theorem Converts.fresh {path : String} {k : Nat} (converts : n.Converts σ h path raw type w h')
    (fresh : h.Fresh σ Γ k type raw) : h.Extends h' ∧ w.Sits Γ type ∧ h'.New k w := by
  obtain ⟨g, hx, ran⟩ := converts
  have bare : n.strategies.Bare := hn ▸ Strategies.bare_builtin
  have comes : (n.convertFor σ path raw type).Ends g
      (fun w h' => (w = raw ∨ w.loc? = none) ∧ h' = g) (fun _ _ => True) :=
    (Run.ends_mapError _ _).2 (bare.ends_convert_blank fresh.suited (fresh.blank.mono hx))
  obtain ⟨same, rfl⟩ := comes.of_ok ran
  rcases same with rfl | scalar
  · exact ⟨hx, fresh.sits, fresh.new.mono hx⟩
  · exact ⟨hx, .scalar scalar, .scalar scalar⟩

omit hσ in
theorem Converts.array_eq {path : String} {elem : Ty} {l : Loc}
    (converts : n.Converts σ h path (.array elem l) type w h')
    (own : type.isUnknown = true ∨ type.unwrapped = .array elem) : w = .array elem l := by
  obtain ⟨g, -, ran⟩ := converts
  have bare : n.strategies.Bare := hn ▸ Strategies.bare_builtin
  have kept : (n.convertFor σ path (.array elem l) type).Ends g (fun w _ => w = .array elem l)
      (fun _ _ => False) := by
    rw [convertFor, Run.ends_mapError, bare.convert_array own]
    rfl
  exact kept.of_ok ran

/-- A default value is put where null was, or into a map that lacked the key. -/
theorem ends_write_fresh (hh : n.Hangs C h) (hw : n.Planned Γ) (has : n.Has σ h p .null)
    (hx : h.Extends g) (hf : g.Follows σ Γ)
    (known : (n.innerType σ p.root p.depth).isUnknown ≠ true)
    (fresh : g.Fresh σ Γ h.size (n.innerType σ p.root p.depth) raw) :
    (n.write σ p raw).Ends g (fun _ h' => n.Grafts C h h' ∧ h'.Follows σ Γ)
      (fun _ _ => True) := by
  have makesNew := hσ.makesTrees.makesNew
  have harmless : n.strategies.Harmless σ := harmless_of_builtin hn
  rcases has with ⟨type, spot, before, holds⟩ | ⟨-, lacks⟩
  · obtain ⟨old, free, -⟩ := holds.spot_apart hh
    obtain ⟨t, ht, -, declared, inner⟩ := (holds.mono hx).planned hσ hf hw
    obtain rfl := inner.resolve_right known
    obtain rfl := declared.resolve_right fun both => known both.2
    refine ((holds.mono hx).ends_write makesNew harmless raw).mono (fun _ h' hs => ?_)
      fun _ _ _ => trivial
    obtain ⟨w, g₁, converts, hy, rfl⟩ := hs
    obtain ⟨-, sits, new⟩ := converts.fresh hn fresh
    exact ⟨.of_receives hh (.store (hx.trans hy) old new) free, (hf.mono hy).store ht sits⟩
  · cases lacks with
    | @key holder key shape l type spot before inner old growing absent =>
      obtain ⟨-, free, -⟩ := inner.apart hh rfl
      obtain ⟨t, -, sits, -, declared⟩ := (inner.mono hx).planned hσ hf hw
      have elements := (innerType_elements declared).resolve_right known
      have planned : Γ l = some (.elements (n.innerType σ holder.root (holder.depth + 1))) := by
        rw [sits.planned l rfl, elements]
        rfl
      refine (inner.mono hx).ends_write_element makesNew harmless rfl fun g₁ hy => ?_
      unfold writeElement
      refine (ends_writeMap_insert makesNew harmless _ _ _ _ _ _ g₁).mono (fun _ h' hs => ?_)
        fun _ _ _ => trivial
      obtain ⟨k, g₂, w, g₃, keyed, hz, converts, hz', rfl⟩ := hs
      obtain ⟨-, -, newKey⟩ := (ends_convertKey_new hσ.makesTrees (makesTrees_of_builtin hn)
        _ _ key g₁).of_ok keyed
      have newKey : g₂.New h.size k :=
        newKey.anti fun m hm => Nat.lt_of_lt_of_le hm (hx.trans hy).size_le
      obtain ⟨-, sits, new⟩ := converts.fresh hn (fresh.mono (hy.trans hz))
      have grown := hx.trans ((hy.trans hz).trans hz')
      refine ⟨.of_receives hh (.insertEntry grown old shape (newKey.mono hz') new) free, ?_⟩
      exact (hf.mono ((hy.trans hz).trans hz')).insertEntry planned shape k sits

end Writing

end Node

end PropertyAccess
