import PropertyAccess.Proofs.Navigation.History
import PropertyAccess.Proofs.Navigation.Typed

/-! Graphs stay well typed under all that is done with an accessor. Every walk from a
well-typed graph ends in one, and the nodes that are kept on the way wrap objects of it; so
this is induction on the history of an accessor, whose raw values have to be of the graph
when they are handed over. -/

namespace PropertyAccess

namespace Accessor

def Typed (σ : Schema) (Θ : Labels) (a : Accessor) : Prop := ∀ n ∈ a.nodes, n.Typed σ Θ

end Accessor

namespace Walk

def Stays (σ : Schema) {α : Type} (Θ : Labels) (w : Walk α) (P : Labels → α → Prop) : Prop :=
  ∀ a h, a.Typed σ Θ → h.WellTyped σ Θ →
    Walk.Ends w a h
      (fun x a' h' => ∃ Θ', Θ <+: Θ' ∧ a'.Typed σ Θ' ∧ h'.WellTyped σ Θ' ∧ P Θ' x)
      (fun _ a' h' => ∃ Θ', Θ <+: Θ' ∧ a'.Typed σ Θ' ∧ h'.WellTyped σ Θ')

namespace Stays

variable {σ : Schema} {Θ : Labels} {α β : Type} {P P' : Labels → α → Prop} {Q : Labels → β → Prop}

theorem pure {x : α} (hx : P Θ x) : Stays σ Θ (Pure.pure x : Walk α) P :=
  fun _ _ ha hh => ⟨Θ, List.prefix_refl Θ, ha, hh, hx⟩

theorem throw (e : PathError) : Stays σ Θ (MonadExcept.throw e : Walk α) P :=
  fun _ _ ha hh => ⟨Θ, List.prefix_refl Θ, ha, hh⟩

theorem bind {w : Walk α} {f : α → Walk β} (hw : Stays σ Θ w P)
    (hf : ∀ Θ' x, Θ <+: Θ' → P Θ' x → Stays σ Θ' (f x) Q) : Stays σ Θ (w >>= f) Q := by
  intro a h ha hh
  rw [Walk.ends_bind]
  refine (hw a h ha hh).mono (fun x a' h' hx => ?_) fun _ _ _ => id
  obtain ⟨Θ₁, later, ha', hh', hx⟩ := hx
  refine (hf Θ₁ x later hx a' h' ha' hh').mono (fun y a'' h'' hy => ?_) fun _ a'' h'' hy => ?_
  · obtain ⟨Θ₂, later', rest⟩ := hy
    exact ⟨Θ₂, later.trans later', rest⟩
  · obtain ⟨Θ₂, later', rest⟩ := hy
    exact ⟨Θ₂, later.trans later', rest⟩

theorem outcome {w : Walk α} (hw : Stays σ Θ w P) :
    Stays σ Θ (Accessor.outcome w) fun Θ' result => ∀ x, result = .ok x → P Θ' x := by
  intro a h ha hh
  rw [Walk.ends_outcome]
  refine (hw a h ha hh).mono (fun x a' h' hx => ?_) fun e a' h' he => ?_
  · obtain ⟨Θ₁, later, ha', hh', hx⟩ := hx
    refine ⟨Θ₁, later, ha', hh', fun y hy => ?_⟩
    exact Except.ok.inj hy ▸ hx
  · obtain ⟨Θ₁, later, ha', hh'⟩ := he
    exact ⟨Θ₁, later, ha', hh', fun y hy => by cases hy⟩

theorem attempt {w : Walk α} (hw : Stays σ Θ w P) :
    Stays σ Θ (Accessor.attempt w) fun Θ' result => ∀ x, result = some x → P Θ' x := by
  refine hw.outcome.bind fun Θ₁ result _ hx => ?_
  split
  · exact .pure fun y hy => Option.some.inj hy ▸ hx _ rfl
  · exact .throw _
  · exact .pure fun _ => nofun

theorem lift {r : Run PathError α} (hr : r.Stays σ.typing Θ P) :
    Stays σ Θ (Accessor.lift r) P := by
  intro a h ha hh
  rw [Walk.ends_lift]
  refine (hr h hh).mono (fun x h' hx => ?_) fun _ h' hx => ?_
  · obtain ⟨Θ₁, later, hh', hx⟩ := hx
    exact ⟨Θ₁, later, fun n hn => (ha n hn).mono later, hh', hx⟩
  · obtain ⟨Θ₁, later, hh'⟩ := hx
    exact ⟨Θ₁, later, fun n hn => (ha n hn).mono later, hh'⟩

theorem get : Stays σ Θ (MonadState.get : Walk Accessor) fun Θ' a => a.Typed σ Θ' :=
  fun _ _ ha hh => ⟨Θ, List.prefix_refl Θ, ha, hh, ha⟩

theorem parsed (path : String) : Stays σ Θ (Accessor.parsed path) fun _ _ => True := by
  unfold Accessor.parsed
  split
  · exact .pure trivial
  · exact .throw _

end Stays

end Walk

namespace Accessor

variable {σ : Schema} {Θ : Labels} {n : Node}

theorem stays_enter (hσ : σ.Typed) (hn : n.Typed σ Θ) (at_ : List String) (s : Segment) :
    Walk.Stays σ Θ (enter σ at_ n s) fun Θ' m => m.Typed σ Θ' := by
  intro a h ha hh
  rw [Walk.ends_enter]
  refine (Node.typed_enter hσ hn _ h hh).mono (fun o h' ho => ?_) fun _ h' he => ?_
  · obtain ⟨Θ₁, later, hh', ho⟩ := ho
    have kept : ∀ c ∈ a.children, c.2.Typed σ Θ₁ :=
      fun c hc => (ha _ (mem_nodes_of_mem_children hc)).mono later
    have all : (keep at_ (n.child s o) a.children).1.Typed σ Θ₁ ∧
        ∀ c ∈ (keep at_ (n.child s o) a.children).2, c.2.Typed σ Θ₁ :=
      forall_keep (P := fun _ m => m.Typed σ Θ₁) (Node.typed_child (hn.mono later) s ho) kept
    refine ⟨Θ₁, later, fun m hm => ?_, hh', all.1⟩
    rcases List.mem_cons.1 hm with rfl | hm
    · exact (ha _ List.mem_cons_self).mono later
    · obtain ⟨c, hc, rfl⟩ := List.mem_map.1 hm
      exact all.2 c hc
  · obtain ⟨Θ₁, later, hh'⟩ := he
    exact ⟨Θ₁, later, fun m hm => (ha m hm).mono later, hh'⟩

theorem stays_reach (hσ : σ.Typed) (hn : n.Typed σ Θ) (at_ : List String)
    (segments : List Segment) :
    Walk.Stays σ Θ (reach σ at_ n segments) fun Θ' r => r.1.Typed σ Θ' := by
  induction segments generalizing Θ at_ n with
  | nil => exact .throw _
  | cons s rest ih =>
    cases rest with
    | nil => exact .pure hn
    | cons next rest => exact (stays_enter hσ hn _ s).bind fun _ _ _ hm => ih hm _

theorem stays_follow (hσ : σ.Typed) (p : Path) :
    Walk.Stays σ Θ (follow σ p) fun Θ' r => r.1.Typed σ Θ' :=
  Walk.Stays.get.bind fun _ _ _ ha => stays_reach hσ (ha _ List.mem_cons_self) [] _

theorem stays_follow_parsed (hσ : σ.Typed) (path : String) :
    Walk.Stays σ Θ (do follow σ (← parsed path)) fun Θ' r => r.1.Typed σ Θ' :=
  (Walk.Stays.parsed path).bind fun _ p _ _ => stays_follow hσ p

theorem stays_resolve (hσ : σ.Typed) (path : String) :
    Walk.Stays σ Θ (resolve σ path) fun Θ' v => v.Labelled Θ' :=
  (Walk.Stays.parsed path).bind fun _ p _ _ => (stays_follow hσ p).bind fun _ _ _ hn =>
    .lift (Node.typed_read hσ hn _ _)

theorem stays_apply (hσ : σ.Typed) (path : String) {raw : Value} (hv : raw.Labelled Θ) :
    Walk.Stays σ Θ (apply σ path raw) fun _ _ => True := by
  refine (Walk.Stays.parsed path).bind fun Θ₁ p later₁ _ => ?_
  refine Walk.Stays.get.bind fun Θ₂ a later₂ _ => ?_
  refine (stays_follow hσ p).outcome.bind fun Θ₃ found later₃ hfound => ?_
  split
  · have hv := hv.mono (later₁.trans (later₂.trans later₃))
    exact .lift (Node.typed_write hσ (hfound _ rfl) _ hv)
  · exact .throw _

theorem stays_isReadable (hσ : σ.Typed) (path : String) :
    Walk.Stays σ Θ (isReadable σ path) fun _ _ => True := by
  refine (stays_follow_parsed hσ path).attempt.bind fun Θ₁ found _ hfound => ?_
  split
  · exact .pure trivial
  · exact .pure trivial
  · exact (Walk.Stays.lift (Node.typed_read hσ (hfound _ rfl) _ _)).attempt.bind fun _ _ _ _ =>
      .pure trivial

theorem stays_isWritable (hσ : σ.Typed) (path : String) :
    Walk.Stays σ Θ (isWritable σ path) fun _ _ => True := by
  refine (stays_follow_parsed hσ path).attempt.bind fun Θ₁ found _ hfound => ?_
  split
  · exact .pure trivial
  · exact .pure trivial
  · refine (Walk.Stays.lift (Node.typed_read hσ (hfound _ rfl) _ _)).attempt.bind
      fun _ container _ _ => ?_
    split
    · exact .pure trivial
    · exact .pure trivial

theorem stays_typeAt? (hσ : σ.Typed) (path : String) :
    Walk.Stays σ Θ (typeAt? σ path) fun _ _ => True := by
  refine (stays_follow_parsed hσ path).attempt.bind fun Θ₁ found _ _ => ?_
  split
  · exact .pure trivial
  · exact .pure trivial

theorem stays_convert (hσ : σ.Typed) {v : Value} (hv : v.Labelled Θ) (required : Ty) :
    Walk.Stays σ Θ (convert σ v required) fun Θ' x => x.Labelled Θ' := by
  refine Walk.Stays.get.bind fun Θ₁ a later ha => .lift (Run.Stays.mapError _ ?_)
  have hn := (ha a.node List.mem_cons_self).strategies
  exact Strategies.stays_convert hσ.stays hn required none (hv.mono later)

theorem stays_applyAll (hσ : σ.Typed) (o : BatchOptions) {b : Batch}
    (hv : ∀ v ∈ b, v.value.Labelled Θ) (failures : List (String × PathError)) :
    Walk.Stays σ Θ (applyAll σ o b failures) fun _ _ => True := by
  induction b generalizing Θ failures with
  | nil => cases failures <;> exact .pure trivial
  | cons v vs ih =>
    refine (stays_apply hσ v.path (hv v List.mem_cons_self)).outcome.bind
      fun Θ₁ written later _ => ?_
    have rest : ∀ u ∈ vs, u.value.Labelled Θ₁ :=
      fun u hu => (hv u (List.mem_cons_of_mem _ hu)).mono later
    split
    · exact ih rest failures
    · split
      · exact ih rest failures
      · exact ih rest _
      · exact .pure trivial

end Accessor

def Call.raws : Call → List Value
  | .apply _ raw => [raw]
  | .applyBatch _ batch => batch.map (·.value)
  | .convert v _ => [v]
  | .resolve _ | .isReadable _ | .isWritable _ | .typeAt _ => []

def Answer.Labelled (Θ : Labels) : Answer → Prop
  | .value v => v.Labelled Θ
  | _ => True

namespace Accessor

variable {σ : Schema} {Θ : Labels}

/-- Whatever is asked for, and whether it succeeds or fails. -/
theorem stays_call (hσ : σ.Typed) (call : Call) (hv : ∀ v ∈ call.raws, v.Labelled Θ) :
    Walk.Stays σ Θ (call.walk σ) fun Θ' answer => answer.Labelled Θ' := by
  cases call with
  | resolve path => exact (stays_resolve hσ path).bind fun _ _ _ hx => .pure hx
  | apply path raw =>
    exact (stays_apply hσ path (hv raw List.mem_cons_self)).bind fun _ _ _ _ => .pure trivial
  | applyBatch options batch =>
    have values : ∀ v ∈ batch, v.value.Labelled Θ := fun v hm => hv _ (List.mem_map_of_mem hm)
    exact (stays_applyAll hσ options values []).bind fun _ _ _ _ => .pure trivial
  | isReadable path => exact (stays_isReadable hσ path).bind fun _ _ _ _ => .pure trivial
  | isWritable path => exact (stays_isWritable hσ path).bind fun _ _ _ _ => .pure trivial
  | typeAt path => exact (stays_typeAt? hσ path).bind fun _ _ _ _ => .pure trivial
  | convert v required =>
    exact (stays_convert hσ (hv v List.mem_cons_self) required).bind fun _ _ _ hx => .pure hx

theorem Typed.withGrowing {a : Accessor} (ha : a.Typed σ Θ) (growing : Bool) (limit : Nat) :
    (a.withGrowing growing limit).Typed σ Θ := by
  intro n hn
  rcases List.mem_cons.1 hn with rfl | hn
  · have own := ha a.node List.mem_cons_self
    exact ⟨own.wrapped, own.strategies⟩
  · obtain ⟨c, hc, rfl⟩ := List.mem_map.1 hn
    obtain ⟨d, hd, rfl⟩ := List.mem_map.1 hc
    have kept := ha d.2 (mem_nodes_of_mem_children hd)
    exact ⟨kept.wrapped, kept.strategies⟩

end Accessor

/-- The values handed over with each call are well typed at that time, whatever types the
new locations have by then, and what others do in between keeps the graph well typed. -/
def Event.Supplied (σ : Schema) : Labels → Accessor × Heap → List Event → Prop
  | _, _, [] => True
  | Θ, s, .call c :: rest =>
    (∀ v ∈ c.raws, v.Labelled Θ) ∧
      ∀ Θ', Θ <+: Θ' → (Event.on σ s (.call c)).2.WellTyped σ Θ' →
        (∀ answer, (Accessor.on (c.walk σ) s.1 s.2).1.1 = .ok answer → answer.Labelled Θ') →
          Supplied σ Θ' (Event.on σ s (.call c)) rest
  | Θ, s, .growing enabled limit :: rest =>
    Supplied σ Θ (Event.on σ s (.growing enabled limit)) rest
  | Θ, s, .outside change :: rest =>
    ∃ Θ', Θ <+: Θ' ∧ (change s.2).WellTyped σ Θ' ∧
      Supplied σ Θ' (Event.on σ s (.outside change)) rest

namespace Accessor

variable {σ : Schema} {Θ : Labels} {a : Accessor} {h : Heap}

theorem wellTyped_event (hσ : σ.Typed) (ha : a.Typed σ Θ) (hh : h.WellTyped σ Θ) {event : Event}
    {rest : List Event} (supplied : Event.Supplied σ Θ (a, h) (event :: rest)) :
    ∃ Θ', Θ <+: Θ' ∧ (event.on σ (a, h)).1.Typed σ Θ' ∧ (event.on σ (a, h)).2.WellTyped σ Θ' ∧
      Event.Supplied σ Θ' (event.on σ (a, h)) rest := by
  cases event with
  | growing enabled limit =>
    exact ⟨Θ, List.prefix_refl Θ, ha.withGrowing enabled limit, hh, supplied⟩
  | outside change =>
    obtain ⟨Θ', later, hh', rest⟩ := supplied
    exact ⟨Θ', later, fun n hn => (ha n hn).mono later, hh', rest⟩
  | call c =>
    obtain ⟨raws, continued⟩ := supplied
    have ends := stays_call hσ c raws a h ha hh
    rw [Walk.ends_iff] at ends
    split at ends
    · rename_i answer a' h' ran
      obtain ⟨Θ', later, ha', hh', labelled⟩ := ends
      simp only [Event.on, ran] at continued ⊢
      refine ⟨Θ', later, ha', hh', continued Θ' later hh' fun x hx => ?_⟩
      exact Except.ok.inj hx ▸ labelled
    · rename_i e a' h' ran
      obtain ⟨Θ', later, ha', hh'⟩ := ends
      simp only [Event.on, ran] at continued ⊢
      exact ⟨Θ', later, ha', hh', continued Θ' later hh' fun x hx => by cases hx⟩

/-- Classes may have any fields, and an accessor may have any converters, as long as these
make nothing ill typed: after every history the graph is well typed. -/
theorem wellTyped_of_events (hσ : σ.Typed) (ha : a.Typed σ Θ) (hh : h.WellTyped σ Θ)
    (events : List Event) (supplied : Event.Supplied σ Θ (a, h) events) :
    ∃ Θ', Θ <+: Θ' ∧ (events.foldl (Event.on σ) (a, h)).2.WellTyped σ Θ' := by
  induction events generalizing Θ a h with
  | nil => exact ⟨Θ, List.prefix_refl Θ, hh⟩
  | cons event rest ih =>
    obtain ⟨Θ₁, later, ha', hh', supplied'⟩ := wellTyped_event hσ ha hh supplied
    obtain ⟨Θ₂, later', done⟩ := ih ha' hh' supplied'
    exact ⟨Θ₂, later.trans later', done⟩

end Accessor

/-! A kennel, declared to have pets, with an array for dogs. -/

namespace Kennel

def animal : ClassDecl where
  path := "demo.Animal"
  params := []
  parent := none
  fields := [⟨"name", .text, .readWrite⟩]
  properties := []
  isAbstract := true
  construction := .plain
  fromText := none

theorem holds_one : IntKind.i32.Holds 1 := by decide

def grow (o : ObjectRef) (h : Heap) : Heap :=
  (h.setSlot? o.loc 1 (.number (.int .i32 1 holds_one))).getD h

def dog : ClassDecl where
  path := "demo.Dog"
  params := []
  parent := some (0, [])
  fields := [⟨"age", .number (.int .i32), .readWrite⟩]
  properties := []
  isAbstract := false
  construction := .initialized grow
  fromText := none

def kennel : ClassDecl where
  path := "demo.Kennel"
  params := []
  parent := none
  fields := [⟨"pets", .array (.object 0), .readWrite⟩]
  properties := []
  isAbstract := false
  construction := .plain
  fromText := none

def schema : Schema := ((Schema.empty.declareClass animal).declareClass dog).declareClass kennel

def heap : Heap := ⟨#[.slots [("pets", .array (.object 1) 1)], .items []]⟩

def labels : Labels := [.object 2, .array (.object 1)]

def accessor : Accessor := .rooted ⟨.empty, .standard, none⟩ .autoGrowing ⟨2, 0⟩

def events : List Event :=
  [.call (.resolve "pets[1].age"), .growing false 4, .call (.apply "pets[0].name" (.text "Rex"))]

theorem class?_cases {c : ClassId} {d : ClassDecl} (h : schema.class? c = some d) :
    c = 0 ∧ d = animal ∨ c = 1 ∧ d = dog ∨ c = 2 ∧ d = kennel := by
  have declared : schema.class? c =
      if c = 2 then some kennel else if c = 1 then some dog else if c = 0 then some animal
      else none := by
    simp only [Schema.class?, schema, Schema.declareClass, Schema.empty, Schema.since,
      List.length_cons, List.length_nil]
    split
    · rfl
    · split
      · rfl
      · split <;> rfl
  grind

theorem typed_schema : schema.Typed where
  fields d hd := by
    simp only [schema, Schema.declareClass, Schema.empty, List.mem_cons, List.not_mem_nil,
      or_false] at hd
    obtain rfl | rfl | rfl := hd <;> rfl
  initializer c d run declared initialized l Θ h fits labelled := by
    obtain ⟨rfl, rfl⟩ | ⟨rfl, rfl⟩ | ⟨rfl, rfl⟩ := class?_cases declared
    · cases initialized
    · obtain rfl : grow = run := by simpa [dog] using initialized
      refine ⟨Θ, List.prefix_refl Θ, ?_⟩
      have layout : (schema.layout 1)[1]? =
          some ⟨1, ⟨"age", .number (.int .i32), .readWrite⟩, .number (.int .i32)⟩ := by
        decide +kernel
      rw [grow]
      cases stored : h.setSlot? l 1 (.number (.int .i32 1 (by decide))) with
      | none => exact fits
      | some after => exact fits.setSlot? labelled layout rfl (.scalar rfl) stored
    · cases initialized
  fromText Θ c text make made := by
    obtain ⟨construct, found, rfl⟩ := Option.map_eq_some_iff.1 made
    obtain ⟨d, declared, own⟩ := Option.bind_eq_some_iff.1 found
    obtain ⟨-, rfl⟩ | ⟨-, rfl⟩ | ⟨-, rfl⟩ := class?_cases declared <;> cases own
  instances c text make made := by
    obtain ⟨construct, found, rfl⟩ := Option.map_eq_some_iff.1 made
    obtain ⟨d, declared, own⟩ := Option.bind_eq_some_iff.1 found
    obtain ⟨-, rfl⟩ | ⟨-, rfl⟩ | ⟨-, rfl⟩ := class?_cases declared <;> cases own

theorem typed_accessor : accessor.Typed schema labels := by
  intro n hn
  obtain rfl : n = accessor.node := List.mem_singleton.1 hn
  exact ⟨fun l hl => Option.some.inj hl ▸ rfl, Strategies.stays_standard _⟩

theorem wellTyped_heap : heap.WellTyped schema labels := by
  refine ⟨rfl, fun l t hl => ?_⟩
  have inside : l < 2 := (List.getElem?_eq_some_iff.1 hl).1
  obtain rfl | rfl := Nat.le_one_iff_eq_zero_or_eq_one.1 (Nat.le_of_lt_succ inside)
  · obtain rfl := Option.some.inj hl
    refine ⟨_, rfl, by decide +kernel, fun i s f hs hf => ?_⟩
    have layout : schema.layout 2 =
        [⟨2, ⟨"pets", .array (.object 0), .readWrite⟩, .array (.object 0)⟩] := by
      decide +kernel
    obtain rfl : i = 0 := by
      have inside : i < 1 := (List.getElem?_eq_some_iff.1 hf).1
      omega
    rw [layout] at hs
    obtain rfl := Option.some.inj hs
    obtain rfl := Option.some.inj hf
    exact ⟨by decide +kernel, fun m hm => Option.some.inj hm ▸ rfl⟩
  · obtain rfl := Option.some.inj hl
    exact ⟨_, rfl, fun v hv => by cases hv⟩

end Kennel

namespace Accessor

theorem wellTyped_of_events_kennel :
    ((Kennel.events.foldl (Event.on Kennel.schema) (Kennel.accessor, Kennel.heap)).2.slot? 0 0).map
        Value.runtimeType = some (.array (.object 0)) ∧
      ∃ Θ', Kennel.labels <+: Θ' ∧
        (Kennel.events.foldl (Event.on Kennel.schema)
          (Kennel.accessor, Kennel.heap)).2.WellTyped Kennel.schema Θ' := by
  refine ⟨by decide +kernel, ?_⟩
  refine wellTyped_of_events Kennel.typed_schema Kennel.typed_accessor Kennel.wellTyped_heap _ ?_
  refine ⟨by simp [Call.raws], fun Θ₁ _ _ _ => ⟨?_, fun _ _ _ _ => trivial⟩⟩
  exact List.forall_mem_singleton.2 (.scalar rfl)

end Accessor

end PropertyAccess
