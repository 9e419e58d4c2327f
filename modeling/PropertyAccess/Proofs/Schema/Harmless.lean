import PropertyAccess.Proofs.Graph.Extension
import PropertyAccess.Schema.Instance

/-! Declarations that leave existing objects alone. A getter and a constructor
from text only make new cells; an initializer may also change the object that
it is run on, which is new. Then instances, default values and grown arrays are
made without a change to what was there before. -/

namespace PropertyAccess

structure ClassDecl.Harmless (d : ClassDecl) : Prop where
  getter : ∀ p ∈ d.properties, ∀ g, p.getter = some g → ∀ o, (g o).Harmless
  initializer : ∀ run, d.construction = .initialized run → ∀ (o : ObjectRef) (h : Heap),
    h.size ≤ (run o h).size ∧ ∀ l, l < h.size → l ≠ o.loc → (run o h).cell? l = h.cell? l
  fromText : ∀ make, d.fromText = some make → ∀ c text, (make c text).Harmless

/-- No constructor modifies objects that exist; getters may do anything. -/
structure ClassDecl.MakesNew (d : ClassDecl) : Prop where
  initializer : ∀ run, d.construction = .initialized run → ∀ (o : ObjectRef) (h : Heap),
    h.size ≤ (run o h).size ∧ ∀ l, l < h.size → l ≠ o.loc → (run o h).cell? l = h.cell? l
  fromText : ∀ make, d.fromText = some make → ∀ c text, (make c text).Harmless

namespace Schema

def Harmless (σ : Schema) : Prop := ∀ d ∈ σ.classes, d.Harmless

def MakesNew (σ : Schema) : Prop := ∀ d ∈ σ.classes, d.MakesNew

/-- Of the objects that exist, an initializer changes only the one that it is run on; getters
and constructors from text may do anything. -/
def Confined (σ : Schema) : Prop :=
  ∀ d ∈ σ.classes, ∀ run, d.construction = .initialized run → ∀ (o : ObjectRef) (h : Heap),
    h.size ≤ (run o h).size ∧ ∀ l, l < h.size → l ≠ o.loc → (run o h).cell? l = h.cell? l

theorem Harmless.makesNew {σ : Schema} (hσ : σ.Harmless) : σ.MakesNew :=
  fun d hd => ⟨(hσ d hd).initializer, (hσ d hd).fromText⟩

theorem MakesNew.confined {σ : Schema} (hσ : σ.MakesNew) : σ.Confined :=
  fun d hd => (hσ d hd).initializer

theorem mem_of_since {ds : List ClassDecl} {c : ClassId} {d : ClassDecl}
    {earlier : List ClassDecl} (h : since ds c = some (d, earlier)) : d ∈ ds := by
  induction ds with
  | nil => simp [since] at h
  | cons x xs ih =>
    rw [since] at h
    split at h
    · simp_all
    · exact List.mem_cons_of_mem _ (ih h)

variable {σ : Schema}

theorem mem_of_class? {c : ClassId} {d : ClassDecl} (h : σ.class? c = some d) :
    d ∈ σ.classes := by
  obtain ⟨⟨x, earlier⟩, hs, rfl⟩ := Option.map_eq_some_iff.1 h
  exact mem_of_since hs

theorem mem_of_mem_levelsFrom {ds : List ClassDecl} {c : ClassId}
    {bindings : List (String × Ty)} {l : Level} (h : l ∈ levelsFrom ds c bindings) :
    l.decl ∈ ds := by
  induction ds generalizing c bindings with
  | nil => simp [levelsFrom] at h
  | cons d earlier ih =>
    rw [levelsFrom] at h
    split at h
    · rcases List.mem_cons.1 h with rfl | h
      · exact List.mem_cons_self
      · split at h
        · simp at h
        · exact List.mem_cons_of_mem _ (ih h)
    · exact List.mem_cons_of_mem _ (ih h)

theorem harmless_blank (c : ClassId) : (σ.blank c).Harmless :=
  (Run.Harmless.alloc _).bind fun _ => .pure _

theorem harmless_initialized {run : ObjectRef → Heap → Heap} (c : ClassId)
    (hr : ∀ (o : ObjectRef) (h : Heap),
      h.size ≤ (run o h).size ∧ ∀ l, l < h.size → l ≠ o.loc → (run o h).cell? l = h.cell? l) :
    Run.Harmless (do
      let o ← σ.blank c
      Run.update (run o)
      return o : Run InstanceFault ObjectRef) := by
  rw [Run.harmless_iff_ends]
  intro h
  simp only [blank, Run.ends_bind, Run.ends_alloc, Run.ends_pure, Run.ends_update]
  let cell := Cell.slots ((σ.layout c).map fun s => (s.name, s.type.zeroValue))
  obtain ⟨hsize, hcell⟩ := hr ⟨c, (h.alloc cell).1⟩ (h.alloc cell).2
  have hnew := Heap.Extends.alloc h cell
  refine ⟨Nat.le_trans hnew.size_le hsize, fun l hl => ?_⟩
  have hne : l ≠ (h.alloc cell).1 := Nat.ne_of_lt hl
  rw [hcell l (Nat.lt_of_lt_of_le hl hnew.size_le) hne, hnew.cell?_eq l hl]

theorem harmless_instantiate (hσ : σ.Confined) (c : ClassId) : (σ.instantiate c).Harmless := by
  unfold instantiate
  split
  · exact .throw _
  · rename_i d hd
    refine .ite (.throw _) ?_
    split
    · exact .throw _
    · exact .throw _
    · exact harmless_blank c
    · rename_i run hrun
      exact harmless_initialized c (hσ d (mem_of_class? hd) run hrun)

theorem harmless_fromText? (hσ : σ.MakesNew) {c : ClassId} {text : String}
    {r : Run String Value} (h : σ.fromText? c text = some r) : r.Harmless := by
  obtain ⟨make, hm, rfl⟩ := Option.map_eq_some_iff.1 h
  obtain ⟨d, hd, hmake⟩ := Option.bind_eq_some_iff.1 hm
  exact (hσ d (mem_of_class? hd)).fromText make hmake c text

theorem harmless_defaultValue (hσ : σ.Confined) (t : Ty) : (σ.defaultValue t).Harmless := by
  unfold defaultValue
  split
  · exact (Run.Harmless.newArray _ _).bind fun _ => .newArray _ _
  · exact .newArray _ _
  · exact .newList _ _
  · exact .newSet _ _
  · exact .newMap _ _
  · exact (harmless_instantiate hσ _).bind fun _ => .pure _
  · exact .pure _
  · exact .pure _
  · exact .pure _
  · exact .pure _
  · exact .throw _

theorem harmless_filler (hσ : σ.Confined) (elem : Ty) : (σ.filler elem).Harmless := by
  refine (harmless_defaultValue hσ elem).outcome.bind fun made => ?_
  split
  · exact .pure _
  · exact .pure _
  · exact .throw _

theorem harmless_repeated {ε : Type} {make : Run ε Value} (hm : make.Harmless) (n : Nat) :
    (repeated make n).Harmless := by
  induction n with
  | zero => exact .pure _
  | succ n ih => exact hm.bind fun _ => ih.bind fun _ => .pure _

/-- The value is one that a new position of an array may be filled with. -/
def Fills (σ : Schema) (elem : Ty) (v : Value) : Prop :=
  ∃ h h', (σ.filler elem).on h = (.ok v, h')

theorem ends_repeated {ε : Type} (make : Run ε Value) (count : Nat) (h : Heap) :
    (repeated make count).Ends h
      (fun vs _ => vs.length = count ∧ ∀ v ∈ vs, ∃ g g', make.on g = (.ok v, g'))
      (fun _ _ => True) := by
  induction count generalizing h with
  | zero => exact ⟨rfl, by simp⟩
  | succ count ih =>
    simp only [repeated, Run.ends_bind, Run.ends_pure]
    refine (Run.ends_on make h).mono (fun v h₁ made => ?_) fun _ _ _ => trivial
    refine (ih h₁).mono (fun vs _ hvs => ?_) fun _ _ => id
    exact ⟨by rw [List.length_cons, hvs.1], List.forall_mem_cons.2 ⟨⟨h, h₁, made⟩, hvs.2⟩⟩

theorem ends_grownArray_iff {elem : Ty} {l : Loc} {length : Nat} {h : Heap}
    {Q : Value → Heap → Prop} {E : InstanceFault → Heap → Prop} :
    (σ.grownArray elem l length).Ends h Q E ↔
      (repeated (σ.filler elem) (length - (h.items l).length)).Ends h
        (fun news g => Q (.array elem g.size) (g.alloc (.items (h.items l ++ news))).2) E := by
  simp only [grownArray, Run.ends_bind, Run.ends_lookup, Run.newArray, Run.ends_alloc,
    Run.ends_pure]
  exact Iff.rfl

theorem ends_grownArray (hσ : σ.MakesNew) (elem : Ty) (l : Loc) (length : Nat) (h : Heap) :
    (σ.grownArray elem l length).Ends h
      (fun v h' => h.Extends h' ∧ ∃ g news, v = .array elem g ∧ h.size ≤ g ∧
        h'.cell? g = some (.items (h.items l ++ news)) ∧
        news.length = length - (h.items l).length ∧ ∀ u ∈ news, σ.Fills elem u)
      (fun _ h' => h.Extends h') := by
  have fillers :=
    (harmless_repeated (harmless_filler hσ.confined elem) (length - (h.items l).length)).ends h
  rw [ends_grownArray_iff]
  refine (fillers.and (ends_repeated _ _ h)).mono (fun news h' hx => ?_) fun _ _ hx => hx.1
  have grown : h.Extends (h'.alloc (.items (h.items l ++ news))).2 := hx.1.trans (.alloc h' _)
  exact ⟨grown, h'.size, news, rfl, hx.1.size_le, Heap.cell?_alloc h' _, hx.2⟩

end Schema

end PropertyAccess
