import PropertyAccess.Property.Handle
import PropertyAccess.Proofs.Graph.Likeness
import PropertyAccess.Proofs.Schema.Harmless
import PropertyAccess.Proofs.Schema.Stays
import PropertyAccess.Proofs.Schema.Text
import PropertyAccess.Schema.Instance

/-! What a schema says of alike graphs. Types, texts and default values do not depend on the
names of locations, if constructors do not. -/

namespace PropertyAccess

variable {N : Names} {σ : Schema} {h g : Heap} {v w : Value}

instance : Likened ObjectRef :=
  ⟨fun N o p => o.cls = p.cls ∧ N[o.loc]? = some p.loc,
    fun later h => ⟨h.1, Names.getElem?_of_prefix later h.2⟩⟩

instance : Likened InstanceFault := .plain _
instance : Likened PropertyFault := .plain _

theorem Value.Alike.ofObject {o p : ObjectRef} (h : Like N o p) :
    Like N (Value.object o) (Value.object p) := by
  obtain ⟨c, l⟩ := o
  obtain ⟨d, m⟩ := p
  obtain ⟨rfl, h⟩ := h
  exact Value.Alike.object c h

namespace Schema

theorem typeName_of_alike (hv : Like N v w) : σ.typeName w = σ.typeName v := by cases hv <;> rfl

theorem accepts_of_alike (hv : Like N v w) (t : Ty) : σ.accepts t w = σ.accepts t v := by
  cases hv with
  | scalar => rfl
  | _ => induction t <;> simp_all [accepts]

theorem textWith_of_alike (a : h.Alike N g) (hv : Like N v w)
    {inner inner' : Value → Option String} (hi : ∀ x y, Like N x y → inner' y = inner x) :
    σ.textWith g inner' w = σ.textWith h inner v := by
  cases hv with
  | scalar hv => cases v <;> first | rfl | cases hv
  | object => rfl
  | array _ hl | list _ hl | set _ hl =>
    simp only [textWith, Likened.mapM_eq (a.items hl) hi]
  | map _ hl =>
    have entry : ∀ x y : Value × Value, Like N x y → entryText inner' y = entryText inner x :=
      fun x y h => by rw [entryText, entryText, hi _ _ h.1, hi _ _ h.2]
    simp only [textWith, Likened.mapM_eq (a.entries hl) entry]

theorem textWithin_of_alike (a : h.Alike N g) (depth : Nat) (hv : Like N v w) :
    σ.textWithin g depth w = σ.textWithin h depth v := by
  induction depth generalizing v w with
  | zero => rfl
  | succ depth ih => exact textWith_of_alike a hv fun _ _ => ih

theorem valueText?_of_alike (a : h.Alike N g) (hv : Like N v w) :
    σ.valueText? g w = σ.valueText? h v := by
  rw [valueText?, textWithin_of_alike a _ hv]
  exact textWithin_eq_valueText? (Nat.lt_succ_of_le a.size_le)

/-- Constructors do the same whatever the names of locations. -/
structure Uniform (σ : Schema) : Prop where
  initialized : ∀ d ∈ σ.classes, ∀ run, d.construction = .initialized run →
    ∀ (N : Names) (o p : ObjectRef) (h g : Heap), h.Alike N g → Like N o p →
      ∃ N', N <+: N' ∧ (run o h).Alike N' (run p g)
  fromText : ∀ d ∈ σ.classes, ∀ make, d.fromText = some make →
    ∀ (N : Names) c text, (make c text).Alike N (make c text)

theorem Uniform.fromText? (hσ : σ.Uniform) {c : ClassId} {text : String} {r : Run String Value}
    (made : σ.fromText? c text = some r) (N : Names) : r.Alike N r := by
  obtain ⟨make, hm, rfl⟩ := Option.map_eq_some_iff.1 made
  obtain ⟨d, hd, hmake⟩ := Option.bind_eq_some_iff.1 hm
  exact hσ.fromText d (mem_of_class? hd) make hmake N c text

theorem alike_zeroValue (t : Ty) : Like N t.zeroValue t.zeroValue :=
  Value.Alike.scalar (loc?_zeroValue t)

theorem alike_blank (c : ClassId) : (σ.blank c).Alike N (σ.blank c) := by
  refine .alloc (.slots ?_) fun _ _ _ _ h => ⟨rfl, h⟩
  induction σ.layout c with
  | nil => exact .nil
  | cons s r ih => exact .cons ⟨rfl, alike_zeroValue s.type⟩ ih

theorem alike_instantiate (hσ : σ.Uniform) (c : ClassId) :
    (σ.instantiate c).Alike N (σ.instantiate c) := by
  unfold instantiate
  split
  · exact .throw rfl
  · rename_i d found
    split
    · exact .throw rfl
    · split
      · exact .throw rfl
      · exact .throw rfl
      · exact alike_blank c
      · rename_i run construction
        refine (alike_blank c).bind fun N' o p _ ho => ?_
        have made : (Run.update (run o) : Run InstanceFault Unit).Alike N' (Run.update (run p)) :=
          fun h g a => by
            obtain ⟨N'', later, a'⟩ :=
              hσ.initialized d (mem_of_class? found) run construction N' o p h g a ho
            exact ⟨N'', later, a', .ok rfl⟩
        exact made.bind fun N'' _ _ later _ => .pure (Likened.mono later ho)

theorem alike_defaultValue (hσ : σ.Uniform) (t : Ty) :
    (σ.defaultValue t).Alike N (σ.defaultValue t) := by
  unfold defaultValue
  split
  · refine (Run.Alike.newArray _ .nil).bind fun _ _ _ _ hv => .newArray _ (.cons hv .nil)
  · exact .newArray _ .nil
  · exact .newList _ .nil
  · exact .newSet _ .nil
  · exact .newMap _ .nil
  · exact (alike_instantiate hσ _).bind fun _ _ _ _ ho => .pure (Value.Alike.ofObject ho)
  · exact .pure (.scalar rfl)
  · exact .pure (.scalar rfl)
  · exact .pure (.scalar rfl)
  · exact .pure (.scalar rfl)
  · exact .throw rfl

theorem alike_filler (hσ : σ.Uniform) (elem : Ty) : (σ.filler elem).Alike N (σ.filler elem) := by
  refine (alike_defaultValue hσ elem).outcome.bind fun N' result result' _ h => ?_
  cases h with
  | ok h => exact .pure h
  | @error e _ h =>
    obtain rfl := h
    cases e with
    | unsupported => exact .pure (alike_zeroValue elem)
    | _ => exact .throw rfl

theorem alike_repeated {ε : Type} [Likened ε] {make : Run ε Value}
    (hm : ∀ N, make.Alike N make) (count : Nat) :
    (repeated make count).Alike N (repeated make count) := by
  induction count generalizing N with
  | zero => exact .pure .nil
  | succ count ih =>
    refine (hm N).bind fun N' x y _ hx => (ih).bind fun N'' xs ys later hxs => .pure ?_
    exact .cons (Likened.mono later hx) hxs

theorem alike_items {ε : Type} [Likened ε] {l m : Loc} (hl : N[l]? = some m) :
    (Run.lookup (·.items l) : Run ε (List Value)).Alike N (Run.lookup (·.items m)) :=
  .lookup fun _ _ a => a.items hl

theorem alike_grownArray (hσ : σ.Uniform) (elem : Ty) {l m : Loc} (hl : N[l]? = some m)
    (length : Nat) : (σ.grownArray elem l length).Alike N (σ.grownArray elem m length) := by
  refine (alike_items hl).bind fun N' old old' _ ho => ?_
  rw [Likened.length ho]
  refine (alike_repeated (fun _ => alike_filler hσ elem) _).bind fun N'' new new' later hn => ?_
  exact .newArray _ (Likened.append (Likened.mono later ho) hn)

end Schema

end PropertyAccess
