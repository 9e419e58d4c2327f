import PropertyAccess.Proofs.Navigation.Lengthened
import PropertyAccess.Proofs.Navigation.Rereading

/-! Growing only adds. Up to the first thing that is made on the way, the graph is as it was,
and what is met belongs to it. What is made leads only to new cells, so from there on all that
is met, made and written is enclosed, and the graph before has gained that one thing. This
goes for what is resolved and probed, and for what fails, wherever on the way it does. -/

namespace PropertyAccess

theorem Schema.Orderly.careful {σ : Schema} (hσ : σ.Orderly) : σ.Careful := by
  intro d hd p hp
  rw [hσ.fields d hd] at hp
  cases hp

namespace Node

variable {σ : Schema} {n : Node} {Θ : Labels} {g h : Heap} {p holder : Place} {c v : Value}
  {type : Ty} {spot : Spot} {before : List Spot}

section Reading

variable (hσ : σ.Orderly) (hn : n.Native Θ) (hc : g.Coherent Θ)
include hc

theorem Sees.adds (sees : n.Sees σ Θ g p v h) : g.Adds Θ h := by
  cases sees with
  | old later => exact .of_extends hc later
  | missing later => exact .of_extends hc later
  | added added => exact added.adds
  | unknown adds => exact adds

include hσ hn

theorem ends_readProperty_sees (hx : g.Extends h) (shown name : String) :
    (n.readProperty σ shown name).Ends h (fun v h' => n.Sees σ Θ g (.property name) v h')
      (fun _ h' => g.Adds Θ h') := by
  have old : n.wrapped.loc < g.size := hc.lt_size hn.wrapped rfl
  refine ends_readProperty_of (isField hσ.fields name)
    (fun hd i writable v found access value => ?_) fun _ => .of_extends hc hx
  rw [Heap.slot?, hx.slots_eq old] at value
  exact .old hx (.field found access value)

omit hc in
theorem Added.ends_readElement (added : n.Added σ Θ g holder c h) (shown key : String) :
    (n.readElement σ shown holder key c (n.write σ holder)).Ends h
      (fun v h' => n.Added σ Θ g (.element holder key) v h') (fun _ h' => g.Adds Θ h') := by
  obtain ⟨A, S, P, shows, fits, ground, within, own⟩ := added
  have stays := hσ.makesOwn.stays A
  have editable := Realm.editable_enclosed σ A
  refine (stays_readElement stays editable (hn.stays _) shown holder key ground.lenient
    ⟨within, own⟩ ground.writes h fits).mono (fun v h' hv => ?_) fun _ h' he => ?_
  · obtain ⟨S', later, fits, within⟩ := hv
    have ground := (ground.later later).element stays editable (hn.stays _) key
    exact ⟨A, S', _, shows, fits, ground, within, trivial⟩
  · obtain ⟨S', -, fits⟩ := he
    exact shows S' h' fits

omit hσ in
theorem ends_readSet_sees {shape : TableShape} {l : Loc}
    (hp : n.Holds σ g holder (.set shape l) type spot before) (hx : g.Extends h)
    (shown key : String) :
    (n.readSet σ shown key l).Ends h (fun v h' => n.Sees σ Θ g (.element holder key) v h')
      (fun _ h' => g.Adds Θ h') := by
  have old : l < g.size := hc.lt_size (hp.labelled hc hn.wrapped) rfl
  refine ends_readSet_of (fun i v index value => ?_) fun _ => .of_extends hc hx
  rw [hx.items_eq old] at value
  exact .old hx (.item hp rfl index value)

variable (exact : g.Exact σ Θ)
include exact

theorem Holds.ends_readElement_sees (hp : n.Holds σ g holder c type spot before)
    (hx : g.Extends h) (shown key : String) :
    (n.readElement σ shown holder key c (n.write σ holder)).Ends h
      (fun v h' => n.Sees σ Θ g (.element holder key) v h') (fun _ h' => g.Adds Θ h') := by
  unfold readElement
  split
  · exact .of_extends hc hx
  · exact ends_readArray_sees hσ hn hc exact hp hx shown
  · exact ends_readList_sees hσ hn hc hp hx shown
  · exact ends_readSet_sees hn hc hp hx shown key
  · refine (ends_readMap_origin hσ hn hp hc hx shown).mono (fun v h' hv => ?_)
      fun _ _ => .of_extends hc
    obtain ⟨later, ⟨type, spot, before, holds⟩ | ⟨rfl, vacant⟩⟩ := hv
    · exact .old later holds
    · exact .missing later vacant
  · exact .of_extends hc hx

theorem Sees.ends_readElement (sees : n.Sees σ Θ g holder c h) (shown key : String) :
    (n.readElement σ shown holder key c (n.write σ holder)).Ends h
      (fun v h' => n.Sees σ Θ g (.element holder key) v h') (fun _ h' => g.Adds Θ h') := by
  cases sees with
  | old later holds => exact holds.ends_readElement_sees hσ hn hc exact later shown key
  | missing later => exact .of_extends hc later
  | added added =>
    exact (added.ends_readElement hσ hn shown key).mono (fun _ _ => .added) fun _ _ => id
  | unknown adds => exact adds

omit hσ hn hc exact in
theorem ends_present_null {read : Run PathError Value} {write : Value → Run PathError Unit}
    {Q : Value → Heap → Prop} {E : PathError → Heap → Prop} {shown : String}
    (made : (n.vivify σ p read write).Ends h Q E) (still : E (n.nullAt σ shown) h) :
    (n.present σ p shown .null read write).Ends h Q E := by
  unfold present
  split
  · rename_i there
    cases there
  · split
    · exact made
    · exact still

theorem Sees.ends_present (sees : n.Sees σ Θ g p v h) (shown again : String) :
    (n.present σ p shown v (n.read σ again p) (n.write σ p)).Ends h
      (fun u h' => n.Sees σ Θ g p u h') (fun _ h' => g.Adds Θ h') := by
  cases sees with
  | @old _ _ _ _ _ later holds =>
    cases null : v.isNull with
    | false =>
      rw [present_eq null]
      exact .old later holds
    | true =>
      obtain rfl : v = .null := by cases v <;> simp_all [Value.isNull]
      refine ends_present_null ?_ (.of_extends hc later)
      exact (holds.ends_vivify hσ hn hc exact later again).mono (fun _ _ => .added) fun _ _ => id
  | missing later vacant =>
    refine ends_present_null ?_ (.of_extends hc later)
    exact (vacant.ends_vivify hσ hn hc later again).mono (fun _ _ => .added) fun _ _ => id
  | added added =>
    obtain ⟨A, S, P, shows, fits, ground, within, own⟩ := added
    refine (ground.present (hσ.makesOwn.stays A) shown ⟨within, own⟩ again h fits).mono
      (fun u h' hu => ?_) fun _ h' he => ?_
    · obtain ⟨S', later, fits, within, own⟩ := hu
      exact .added ⟨A, S', P, shows, fits, ground.later later, within, own⟩
    · obtain ⟨S', -, fits⟩ := he
      exact shows S' h' fits
  | unknown adds unknown =>
    refine ends_present_null ?_ adds
    rw [vivify, if_pos unknown]
    exact adds

theorem ends_read_sees (hx : g.Extends h) (p : Place) (shown : String) :
    (n.read σ shown p).Ends h (fun v h' => n.Sees σ Θ g p v h') (fun _ h' => g.Adds Θ h') := by
  -- To read an element its holder is read first.
  induction p with
  | property name =>
    rw [read_property]
    exact ends_readProperty_sees hσ hn hc hx shown name
  | element holder key ih =>
    have held : (n.readHolder σ shown holder).Ends h
        (fun c h' => n.Sees σ Θ g holder c h') (fun _ h' => g.Adds Θ h') := by
      exact ends_readHolder_of ih (fun _ _ => id)
        fun v h₁ sees => sees.ends_present hσ hn hc exact shown holder.canonical
    rw [read_element, Run.ends_bind]
    exact held.mono (fun c h₁ sees => sees.ends_readElement hσ hn hc exact shown key) fun _ _ => id

end Reading

section Writing

variable (hσ : σ.Orderly) (hn : n.Native Θ) (hc : g.Coherent Θ) (exact : g.Exact σ Θ) {raw : Value}
  {key : String}
include hσ

theorem ends_writeProperty_failed (builtin : n.strategies = .builtin) (name : String) :
    (n.writeProperty σ name raw).Ends h (fun _ _ => True) (fun _ h' => h.Extends h') :=
  (allOrNothing_writeProperty hσ.makesOwn.makesNew hσ.careful (harmless_of_builtin builtin) name
    raw h).mono (fun _ _ _ => trivial) fun _ _ => id

include hn hc exact

theorem Holds.ends_writeElement_failed (hp : n.Holds σ g holder c type spot before)
    (hx : g.Extends h) (whole : Place) :
    (n.writeElement σ whole holder key raw c (n.write σ holder)).Ends h (fun _ _ => True)
      (fun _ h' => g.Adds Θ h') := by
  have makesNew := hσ.makesOwn.makesNew
  have unchanged {f : Heap} (later : h.Extends f) : g.Adds Θ f := .of_extends hc (hx.trans later)
  unfold writeElement
  split
  · simp only [writeArray, Run.ends_bind]
    refine (harmless_convertFor makesNew hn.harmless _ _ _).ends_of (fun v h₁ hx₁ => ?_)
      fun _ _ => unchanged
    refine (harmless_indexOf _ _).ends_of (fun i h₂ hx₂ => ?_)
      fun _ _ hx₂ => unchanged (hx₁.trans hx₂)
    have later := hx.trans (hx₁.trans hx₂)
    refine (ends_lengthened_yields hσ hn hc exact hp later true _ i).mono (fun m h₃ hm => ?_)
      fun _ _ => .of_extends hc
    refine (ends_putItem m i v _ h₃).mono (fun _ _ _ => trivial) fun _ h₄ missing => ?_
    rw [missing.1]
    rcases hm with ⟨-, rfl⟩ | yields
    · exact .of_extends hc later
    · exact yields.adds hc hp
  · exact (allOrNothing_writeList makesNew hn.harmless _ _ _ _ h).mono (fun _ _ _ => trivial)
      fun _ _ => unchanged
  · exact (allOrNothing_writeMap makesNew hn.harmless _ _ _ _ _ _ h).mono (fun _ _ _ => trivial)
      fun _ _ => unchanged
  · exact unchanged (.refl h)

theorem Sees.ends_writeElement_failed (sees : n.Sees σ Θ g holder c h) (whole : Place) :
    (n.writeElement σ whole holder key raw c (n.write σ holder)).Ends h (fun _ _ => True)
      (fun _ h' => g.Adds Θ h') := by
  cases sees with
  | old later holds => exact holds.ends_writeElement_failed hσ hn hc exact later whole
  | missing later => exact .of_extends hc later
  | added added =>
    obtain ⟨A, S, P, shows, fits, ground, within, own⟩ := added
    refine (Node.ends_writeElement_failed hσ.makesOwn hn.harmless whole holder key raw
      ground.lenient fits ⟨within, own⟩ ground.writes).mono (fun _ _ _ => trivial)
      fun _ h' he => ?_
    obtain ⟨S', fits⟩ := he
    exact shows S' h' fits
  | unknown adds => exact adds

theorem ends_write_failed (hx : g.Extends h) (p : Place) :
    (n.write σ p raw).Ends h (fun _ _ => True) (fun _ h' => g.Adds Θ h') := by
  cases p with
  | property name =>
    rw [write_property]
    exact (ends_writeProperty_failed hσ hn.strategies name).mono (fun _ _ => id)
      fun _ _ later => .of_extends hc (hx.trans later)
  | element holder key =>
    rw [Node.write, Run.ends_bind, Run.ends_mapError]
    refine (ends_read_sees hσ hn hc exact hx holder _).mono (fun v h₁ sees => ?_) fun _ _ => id
    rw [Run.ends_bind]
    refine (sees.ends_present hσ hn hc exact _ _).mono (fun c h₂ sees => ?_) fun _ _ => id
    exact sees.ends_writeElement_failed hσ hn hc exact _

end Writing

/-- An object that is met belongs to the graph, and that is as it was; or else it was made for
what was missing, and is enclosed. -/
inductive Meets (Θ : Labels) (g : Heap) (o : ObjectRef) (h : Heap) : Prop
  | native (label : (Value.object o).Labelled Θ) (later : g.Extends h)
  | enclosed (A : Surroundings) (S : Loc → Prop) (shows : A.Shows Θ g) (fits : A.Fit S h)
      (own : S o.loc)

theorem Meets.adds {o : ObjectRef} (meets : Meets Θ g o h) (hc : g.Coherent Θ) : g.Adds Θ h := by
  cases meets with
  | native _ later => exact .of_extends hc later
  | enclosed A S shows fits => exact shows S h fits

section Meeting

variable (hσ : σ.Orderly) (builtin : n.strategies = .builtin)
include hσ builtin

theorem ground_enclosed (A : Surroundings) {S : Loc → Prop} (own : S n.wrapped.loc) (p : Place) :
    n.Ground (.enclosed σ A) S p fun _ => True := by
  have stays : n.strategies.Stays (.enclosed σ A) := by
    rw [builtin]
    exact Strategies.stays_standard _
  exact ground hσ.fields (Realm.owns_enclosed own) (hσ.makesOwn.stays A)
    (Realm.editable_enclosed σ A) stays p

variable (hc : g.Coherent Θ) (exact : g.Exact σ Θ) (meets : Meets Θ g n.wrapped h)
include hc exact meets

theorem Meets.ends_read (p : Place) (shown : String) :
    (n.read σ shown p).Ends h (fun _ h' => g.Adds Θ h') (fun _ h' => g.Adds Θ h') := by
  cases meets with
  | native label later =>
    exact (ends_read_sees hσ ⟨label, builtin⟩ hc exact later p shown).mono
      (fun _ _ sees => sees.adds hc) fun _ _ => id
  | enclosed A S shows fits own =>
    refine ((ground_enclosed hσ builtin A own p).reads shown S (fun _ => id) h fits).mono
      (fun v h' hv => ?_) fun _ h' he => ?_
    · obtain ⟨S', -, fits, -⟩ := hv
      exact shows S' h' fits
    · obtain ⟨S', -, fits⟩ := he
      exact shows S' h' fits

theorem Meets.ends_write_failed (p : Place) (raw : Value) :
    (n.write σ p raw).Ends h (fun _ _ => True) (fun _ h' => g.Adds Θ h') := by
  cases meets with
  | native label later => exact Node.ends_write_failed hσ ⟨label, builtin⟩ hc exact later p
  | enclosed A S shows fits own =>
    cases p with
    | property name =>
      rw [write_property]
      exact (ends_writeProperty_failed hσ builtin name).mono (fun _ _ => id)
        fun _ h' later => shows S h' (fits.mono later)
    | element holder key =>
      refine ((ground_enclosed hσ builtin A own holder).ends_write_failed hσ.makesOwn
        (harmless_of_builtin builtin) fits key raw).mono (fun _ _ => id) fun _ h' he => ?_
      obtain ⟨S', fits⟩ := he
      exact shows S' h' fits

theorem Meets.ends_enter (p : Place) :
    (n.enter σ p).Ends h (fun o h' => Meets Θ g o h') (fun _ h' => g.Adds Θ h') := by
  cases meets with
  | native label later =>
    have hn : n.Native Θ := ⟨label, builtin⟩
    simp only [enter, Run.ends_bind]
    refine (ends_read_sees hσ hn hc exact later p _).mono (fun v h₁ sees => ?_) fun _ _ => id
    refine (sees.ends_present hσ hn hc exact _ _).mono (fun u h₂ sees => ?_) fun _ _ => id
    split
    · cases sees with
      | old later holds => exact .native (holds.labelled hc label) later
      | added added =>
        obtain ⟨A, S, P, shows, fits, -, within, -⟩ := added
        exact .enclosed A S shows fits (within _ rfl)
    · exact sees.adds hc
  | enclosed A S shows fits own =>
    refine ((ground_enclosed hσ builtin A own p).enter (hσ.makesOwn.stays A) h fits).mono
      (fun o h' ho => ?_) fun _ h' he => ?_
    · obtain ⟨S', -, fits, within⟩ := ho
      exact .enclosed A S' shows fits (within _ rfl)
    · obtain ⟨S', -, fits⟩ := he
      exact shows S' h' fits

end Meeting

end Node

/-- The graph has gained something at most: all that has changed is what was added, and of what
was stored only null and arrays are replaced. -/
structure Heap.OnlyGains (Θ : Labels) (h h' : Heap) : Prop where
  adds : h.Adds Θ h'
  keeps : h.Keeps h'

namespace Accessor

variable {σ : Schema} {a : Accessor} {n : Node} {Θ : Labels} {g h : Heap} {at_ : List String}

structure Comes (Θ : Labels) (g : Heap) (n : Node) (a : Accessor) (h : Heap) : Prop where
  meets : Node.Meets Θ g n.wrapped h
  builtin : n.strategies = .builtin
  kept : ∀ c ∈ a.children, c.2.strategies = .builtin

section Walking

variable (hσ : σ.Orderly) (hc : g.Coherent Θ) (exact : g.Exact σ Θ)
include hσ hc exact

theorem ends_reach_comes (comes : Comes Θ g n a h) (segments : List Segment) :
    Walk.Ends (reach σ at_ n segments) a h (fun r b h' => Comes Θ g r.1 b h')
      (fun _ _ h' => g.Adds Θ h') := by
  induction segments generalizing at_ n a h with
  | nil => exact comes.meets.adds hc
  | cons s rest ih =>
    cases rest with
    | nil => exact comes
    | cons t rest =>
      rw [Walk.reach_cons _ _ s (by simp), Walk.ends_bind, Walk.ends_enter]
      refine (comes.meets.ends_enter hσ comes.builtin hc exact (Place.ofSegment s)).mono
        (fun o h₁ meets => ih ?_) fun _ _ => id
      have fresh : (n.child s o).strategies = .builtin := by
        rw [Node.child, comes.builtin]
        simp only [Strategies.builtin, Registrations.below_empty]
      have kept : (keep (at_ ++ [s.canonical]) (n.child s o) a.children).1.strategies = .builtin ∧
          ∀ c ∈ (keep (at_ ++ [s.canonical]) (n.child s o) a.children).2,
            c.2.strategies = .builtin :=
        forall_keep (P := fun _ n => n.strategies = .builtin) fresh comes.kept
      refine ⟨?_, kept.1, kept.2⟩
      rw [wrapped_keep]
      exact meets

theorem ends_follow_comes (comes : Comes Θ g a.node a h) (p : Path) :
    Walk.Ends (follow σ p) a h (fun r b h' => Comes Θ g r.1 b h')
      (fun _ _ h' => g.Adds Θ h') := by
  rw [follow, Walk.ends_bind, Walk.ends_get]
  exact ends_reach_comes hσ hc exact comes p.segments

variable (comes : Comes Θ g a.node a h) (path : String)
include comes

theorem ends_followed_adds :
    Walk.Ends (do follow σ (← parsed path)) a h
      (fun r _ h' => g.Adds Θ h' ∧ ∀ shown p,
        (r.1.read σ shown p).Ends h' (fun _ h'' => g.Adds Θ h'') fun _ h'' => g.Adds Θ h'')
      (fun _ _ h' => g.Adds Θ h') := by
  rw [Walk.ends_bind, Walk.ends_parsed]
  refine ⟨fun p _ => ?_, fun _ _ => comes.meets.adds hc⟩
  refine (ends_follow_comes hσ hc exact comes p).mono (fun r b h₁ hr => ?_) fun _ _ _ => id
  exact ⟨hr.meets.adds hc, fun shown p => hr.meets.ends_read hσ hr.builtin hc exact p shown⟩

theorem ends_apply_failed_adds (raw : Value) :
    Walk.Ends (apply σ path raw) a h (fun _ _ _ => True) (fun _ _ h' => g.Adds Θ h') := by
  refine Walk.ends_apply_of (fun p _ => ?_) fun _ _ => comes.meets.adds hc
  refine (ends_follow_comes hσ hc exact comes p).mono (fun r b h₁ hr => ?_) fun _ _ _ => id
  exact hr.meets.ends_write_failed hσ hr.builtin hc exact r.2 raw

end Walking

/-- Growing only adds. Where arrays have the component type that is declared where they are,
reading, probing and writing without success let null give way to a value, let maps, lists and
arrays get more, and change nothing else. -/
theorem onlyGains_of_failed_apply (hσ : σ.Orderly)
    (builtin : ∀ n ∈ a.nodes, n.strategies = .builtin) (hc : h.Coherent Θ)
    (root : (Value.object a.node.wrapped).Labelled Θ) (exact : h.Exact σ Θ) (path : String)
    (raw : Value) :
    (∀ e a' h', on (apply σ path raw) a h = ((.error e, a'), h') → h.OnlyGains Θ h') ∧
      h.OnlyGains Θ (on (resolve σ path) a h).2 ∧
      h.OnlyGains Θ (on (isReadable σ path) a h).2 ∧
      h.OnlyGains Θ (on (isWritable σ path) a h).2 ∧
      h.OnlyGains Θ (on (typeAt? σ path) a h).2 := by
  have comes : Comes Θ h a.node a h :=
    ⟨.native root (.refl h), builtin _ List.mem_cons_self,
      fun c hc => builtin _ (mem_nodes_of_mem_children hc)⟩
  have gains {f : Heap} (adds : h.Adds Θ f) : h.OnlyGains Θ f := ⟨adds, adds.keeps hc⟩
  have followed := ends_followed_adds hσ hc exact comes path
  refine ⟨fun e a' h' failed => ?_, gains (Walk.ends_resolve_of followed).heap,
    gains (Walk.ends_isReadable_of followed).heap, gains (Walk.ends_isWritable_of followed).heap,
    gains (Walk.ends_typeAt?_of followed).heap⟩
  exact gains ((ends_apply_failed_adds hσ hc exact comes path raw).of_error failed)

end Accessor

theorem Heap.Follows.exact {σ : Schema} {Γ : Plan} {Θ : Labels} {h : Heap} (hf : h.Follows σ Γ)
    (hσ : σ.Regular) (planned : ∀ n : Node, n.Native Θ → n.Planned Γ) : h.Exact σ Θ := by
  intro n p elem l type spot before hn holds
  obtain ⟨t, -, sits, declared, -⟩ := holds.planned hσ hf (planned n hn)
  rcases declared with rfl | ⟨unknown, -⟩
  · exact sits.exact elem l rfl
  · exact .inl unknown

namespace Orchard

def labels : Labels := [.object 1, .array (.array (.object 0))]

theorem orderly_schema : schema.Orderly where
  fields := regular_schema.fields
  makesOwn := regular_schema.makesTrees.makesOwn
  settled c text make made := by
    obtain ⟨make, here, -⟩ := Option.map_eq_some_iff.1 made
    obtain ⟨d, hd, own⟩ := Option.bind_eq_some_iff.1 here
    rw [(plain d (Schema.mem_of_class? hd)).2.1] at own
    cases own

theorem coherent_heap : heap.Coherent labels where
  length := rfl
  cell
    | 0, t, label => by
      obtain rfl : .object 1 = t := Option.some.inj label
      refine ⟨_, rfl, fun f hf => ?_⟩
      obtain rfl := List.mem_singleton.1 hf
      rintro l ⟨⟩
      rfl
    | 1, t, label => by
      obtain rfl : .array (.array (.object 0)) = t := Option.some.inj label
      exact ⟨_, rfl, fun _ none => absurd none List.not_mem_nil⟩
    | _ + 2, _, label => by cases label

theorem planned_of_native (n : Node) (hn : n.Native labels) : n.Planned plan := by
  have known : ∀ o : ObjectRef, labels[o.loc]? = some (.object o.cls) → o = ⟨1, 0⟩ := by
    rintro ⟨c, _ | _ | l⟩ label
    · cases label
      rfl
    · cases label
    · cases label
  have here := known n.wrapped (hn.wrapped _ rfl)
  rw [Node.Planned, here]
  exact ⟨by simp, fun l hl => by cases hl; rfl⟩

end Orchard

namespace Accessor

theorem onlyGains_of_failed_apply_orchard :
    ∃ e a' h', on (apply Orchard.schema "rows[1][2].height" (.text "tall")) Orchard.accessor
        Orchard.heap = ((.error e, a'), h') ∧ Orchard.heap.OnlyGains Orchard.labels h' := by
  have refused : (on (apply Orchard.schema "rows[1][2].height" (.text "tall")) Orchard.accessor
      Orchard.heap).1.1.toBool = false := by decide +kernel
  rcases ho : on (apply Orchard.schema "rows[1][2].height" (.text "tall")) Orchard.accessor
    Orchard.heap with ⟨⟨result, a'⟩, h'⟩
  rw [ho] at refused
  cases result with
  | ok _ => cases refused
  | error e =>
    have builtin : ∀ n ∈ Orchard.accessor.nodes, n.strategies = .builtin := by
      intro n hn
      obtain rfl := List.mem_singleton.1 hn
      rfl
    have root : (Value.object Orchard.accessor.node.wrapped).Labelled Orchard.labels := by
      rintro l ⟨⟩
      rfl
    have exact := Orchard.follows_plan.exact Orchard.regular_schema Orchard.planned_of_native
    exact ⟨e, a', h', rfl, (onlyGains_of_failed_apply Orchard.orderly_schema builtin
      Orchard.coherent_heap root exact "rows[1][2].height" (.text "tall")).1 e a' h' ho⟩

end Accessor

end PropertyAccess
