import Mathlib.Data.List.Forall2
import PropertyAccess.Proofs.Conversion.Consulting
import PropertyAccess.Proofs.Conversion.Precedence
import PropertyAccess.Proofs.Navigation.History
import PropertyAccess.Proofs.Navigation.Spelling

/-! Which converter a write consults. All that becomes of a raw value is that it is converted
at the path of its place, and a registered converter that is found there is the one that is
applied. The node at the end of a path has the registrations that the segments on the way
leave, kept or made anew. So one converter registered for a path is consulted at every path
with the same names where the keys that are left out may be left out. -/

namespace PropertyAccess

namespace Registrations

open PropertyAccess.Path

theorem mem_outlines_of_forall₂ {outer heads : List Segment}
    (h : List.Forall₂ Segment.Outlines outer heads) : outer ∈ outlines heads := by
  induction h with
  | nil => exact List.mem_singleton_self []
  | cons outlined _ ih => exact mem_outlines_cons.2 ⟨_, _, outlined, ih, rfl⟩

theorem mem_of_mem_foldl_below {heads : List Segment} {rs : Registrations} {c : Converter}
    (h : c ∈ (heads.foldl below rs).converters) : c ∈ rs.converters := by
  induction heads generalizing rs with
  | nil => exact h
  | cons s r ih => exact mem_of_mem_below (ih h)

/-- One converter for a path is found below wherever the path leads. -/
theorem find?_foldl_below_one {σ : Schema} {rs : Registrations} {c : Converter}
    {scope path : String} {outer heads : List Segment} {inner last : Segment}
    (registered : empty.register none (some scope) c = .ok rs)
    (readScope : Path.parse scope = .ok ⟨outer ++ [inner]⟩)
    (read : Path.parse path = .ok ⟨heads ++ [last]⟩)
    (whole : List.Forall₂ Segment.Outlines outer heads) (name : inner.name = last.name)
    (part : inner.keys.Sublist last.keys) (required : Ty) :
    (heads.foldl below rs).find? σ required (some last.canonical) = some c := by
  have filed : Filed rs.byPath := (Made.empty.register registered).filed
  have readable := Path.readable_of_parse read
  have hs : ∀ s ∈ heads, s.Readable := fun s hm => readable.2 s (List.mem_append_left _ hm)
  have hl : last.Readable := readable.2 last (List.mem_append_right _ List.mem_cons_self)
  obtain rfl : rs = ⟨[], [⟨⟨outer ++ [inner]⟩, [(none, c)]⟩]⟩ := by
    have made := registered
    rw [register, readScope] at made
    exact (Except.ok.inj made).symm
  have apart : Apart [⟨⟨outer ++ [inner]⟩, [(none, c)]⟩] heads := by
    rintro o - o' - tail - ⟨t, ht, here⟩ ⟨t', ht', here'⟩
    rw [List.mem_singleton.1 ht] at here
    rw [List.mem_singleton.1 ht'] at here'
    exact List.append_cancel_right (here.symm.trans here')
  have variant : [inner] ∈ variants [last] :=
    mem_variants_singleton.2 ⟨inner.keys, part, by rw [← name]⟩
  have served :
      servedAt σ ⟨[], [⟨⟨outer ++ [inner]⟩, [(none, c)]⟩]⟩ required (outer ++ [inner]) := by
    simp [servedAt, findAt?, PathScope.find?, serves, canonical]
  have isSome := isSome_below? (mem_outlines_of_forall₂ whole) variant served
  rw [← findByPath?_foldl_below σ required filed hs hl apart] at isSome
  obtain ⟨d, found⟩ := Option.isSome_iff_exists.1 isSome
  -- There is only one converter to be found.
  have only : d ∈ (⟨[], [⟨⟨outer ++ [inner]⟩, [(none, c)]⟩]⟩ : Registrations).converters :=
    mem_of_mem_foldl_below (mem_of_findByPath? found)
  rw [find?, Option.bind_some, found]
  simpa [converters, PathScope.converters] using only

end Registrations

namespace Node

variable {σ : Schema} {n : Node}

/-- Puts into a container what comes out of a conversion to the type of its elements. -/
def putElement (σ : Schema) (n : Node) (whole holder : Place) (key : String) (container : Value)
    (converted : Ty → Run PathError Value) (writeHolder : Value → Run PathError Unit) :
    Run PathError Unit :=
  let path := whole.canonical
  match container with
  | .array elem l => do
    let v ← converted elem
    let index ← n.indexOf σ path key
    let target ← n.lengthened σ true path elem l index writeHolder
    putItem target index v (n.badIndexAt σ path "array index out of bounds")
  | .list _ l => do
    let v ← converted (n.innerType σ whole.root whole.depth)
    let index ← n.indexOf σ path key
    let length := (← Run.lookup (·.items l)).length
    if length ≤ index && index < n.config.limit then
      Run.update (·.appendItems l (List.replicate (index - length) .null ++ [v]))
    else putItem l index v (n.badIndexAt σ path "list index out of bounds")
  | .map shape l => do
    let k ← Run.mapError (n.conversionAt path) (n.convertKey σ holder.root holder.depth key)
    let v ← converted (n.innerType σ whole.root whole.depth)
    Run.update (·.insertEntry shape l k v)
  | other => throw (n.noContainerAt σ path other)

/-- Puts at a place what comes out of a conversion to its type. -/
def put (σ : Schema) (n : Node) (converted : Ty → Run PathError Value) : Place → Run PathError Unit
  | .property name =>
    let path := (Place.property name).canonical
    match n.handle? σ name with
    | some h =>
      if h.isWritable then do
        let v ← converted h.type
        Run.mapError (n.faultAt σ path h.type) (h.set σ n.wrapped v)
      else throw (n.unwritableAt σ path "the property has no setter")
    | none => throw (n.unwritableAt σ path "the property does not exist")
  | .element holder key => do
    let whole := Place.element holder key
    let found ← Run.mapError (n.holderError σ whole.canonical)
      (n.read σ holder.canonical holder)
    let container ← n.present σ holder whole.canonical found
      (n.read σ holder.canonical holder) (n.write σ holder)
    n.putElement σ whole holder key container converted (n.write σ holder)

theorem write_eq_put (place : Place) (raw : Value) :
    n.write σ place raw = n.put σ (n.convertFor σ place.canonical raw) place := by
  cases place with
  | property name =>
    rw [write]
    rfl
  | element holder key =>
    rw [write]
    dsimp only [put]
    refine bind_congr fun found => bind_congr fun container => ?_
    cases container <;> rfl

end Node

namespace Accessor

variable {σ : Schema} {r n : Node} {at_ : List String} {a : Accessor} {h : Heap}

theorem ends_reach_below (ha : Of r a) (hn : r.Met at_ n) {segments : List Segment}
    (hs : ∀ s ∈ segments, s.Readable) :
    Walk.Ends (reach σ at_ n segments) a h
      (fun found a' _ => Of r a' ∧ ∃ heads last, segments = heads ++ [last] ∧
        found.2 = Place.ofSegment last ∧
        found.1.strategies = { n.strategies with
          registered := heads.foldl Registrations.below n.strategies.registered })
      (fun _ a' _ => Of r a') := by
  induction segments generalizing at_ n a h with
  | nil => exact ha
  | cons s rest ih =>
    cases rest with
    | nil => exact ⟨ha, [], s, rfl, rfl, rfl⟩
    | cons next rest =>
      rw [List.forall_mem_cons] at hs
      simp only [reach, Walk.ends_bind, Walk.ends_enter]
      refine (Run.ends_on _ h).mono (fun o h' _ => ?_) fun _ _ _ => ha
      -- A kept node is the one that would be made.
      obtain ⟨same, kept⟩ := keep_met ha.kept (hn.child hs.1 o)
      rw [same]
      have met : Of r ⟨a.node, (keep (at_ ++ [s.canonical]) (n.child s o) a.children).2⟩ :=
        ⟨ha.node, kept⟩
      refine (ih met (hn.child hs.1 o) hs.2).mono (fun found a' h' hx => ?_)
        fun _ _ _ hx => hx
      obtain ⟨ha', heads, last, split, place, strategies⟩ := hx
      refine ⟨ha', s :: heads, last, by rw [split, List.cons_append], place, ?_⟩
      rw [strategies]
      rfl

theorem on_apply {path : String} {p : Path} (read : Path.parse path = .ok p) (raw : Value)
    (a : Accessor) (h : Heap) :
    on (apply σ path raw) a h =
      match on (follow σ p) a h with
      | ((.ok (n, place), a'), h') => on (lift (n.write σ place raw)) a' h'
      | ((.error e, a'), h') =>
        ((.error (e.whileWriting (a.node.rootName σ) (a.node.fullPath p.canonical)), a'), h') := by
  have start : on (pure p) a h = ((.ok p, a), h) := rfl
  have top : on get a h = ((.ok a, a), h) := rfl
  rw [apply, parsed_eq read, Walk.on_bind, start]
  dsimp only
  rw [Walk.on_bind, top]
  dsimp only
  rw [Walk.on_bind, Walk.on_outcome]
  rcases on (follow σ p) a h with ⟨⟨_ | ⟨n, place⟩, a'⟩, h'⟩ <;> rfl

theorem registered_rooted {S : Strategies} (bare : S.registered = .empty) {config : AccessConfig}
    {root : ObjectRef} {type : Option Ty} {path : Option String} {c : Converter} {set : Accessor}
    (registered : (rooted S config root).register type path c = .ok set) :
    ∃ rs, Registrations.empty.register type path c = .ok rs ∧
      set = rooted { S with registered := rs } config root := by
  unfold register at registered
  rw [show (rooted S config root).node.strategies.registered = .empty from bare] at registered
  cases made : Registrations.empty.register type path c with
  | error e =>
    rw [made] at registered
    cases registered
  | ok rs =>
    rw [made] at registered
    exact ⟨rs, rfl, (Except.ok.inj registered).symm⟩

/-- One converter is registered for a path before anything else. Whatever happens then, a
write at a path that it scopes converts with this converter, at the node that holds the last
segment; a write that does not get there converts nothing. -/
theorem consults_registered (σ : Schema) {S : Strategies} (bare : S.registered = .empty)
    (config : AccessConfig) (root : ObjectRef) {scope path : String} {c : Converter}
    {set : Accessor} (registered : (rooted S config root).register none (some scope) c = .ok set)
    {outer heads : List Segment} {inner last : Segment}
    (readScope : Path.parse scope = .ok ⟨outer ++ [inner]⟩)
    (read : Path.parse path = .ok ⟨heads ++ [last]⟩)
    (whole : List.Forall₂ Segment.Outlines outer heads) (name : inner.name = last.name)
    (part : inner.keys.Sublist last.keys) (events : List Event) (h : Heap) :
    let used := events.foldl (Event.on σ) (set, h)
    (∀ n place a' h', on (follow σ ⟨heads ++ [last]⟩) used.1 used.2 = ((.ok (n, place), a'), h') →
      (∀ required, n.strategies.custom? σ required (some place.canonical) = some c) ∧
      ∀ raw, on (apply σ path raw) used.1 used.2 =
        on (lift (n.put σ (fun required => Run.mapError (n.conversionAt place.canonical)
          (n.strategies.consulting σ c required (some place.canonical) raw)) place)) a' h') ∧
    ∀ e a' h', on (follow σ ⟨heads ++ [last]⟩) used.1 used.2 = ((.error e, a'), h') →
      ∀ raw, ∃ e', on (apply σ path raw) used.1 used.2 = ((.error e', a'), h') := by
  intro used
  obtain ⟨rs, made, rfl⟩ := registered_rooted bare registered
  have kept : Of ⟨root, root, "", events.foldl Event.config config, { S with registered := rs }⟩
      used.1 := of_events (of_rooted _ config root) h events
  have readable := Path.readable_of_parse read
  refine ⟨fun n place a' h' followed => ?_, fun e a' h' followed raw => ?_⟩
  · have reached : on (reach σ [] used.1.node (heads ++ [last])) used.1 used.2 =
        ((.ok (n, place), a'), h') := followed
    rw [kept.node] at reached
    obtain ⟨-, heads', last', split, rfl, strategies⟩ :=
      (ends_reach_below kept .top readable.2).of_ok reached
    obtain ⟨rfl, lasts⟩ := List.append_inj' split rfl
    obtain rfl := (List.cons.inj lasts).1
    have text : (Place.ofSegment last).canonical = last.canonical := by
      rw [Place.canonical, Place.segment_ofSegment]
    have found : ∀ required,
        n.strategies.custom? σ required (some (Place.ofSegment last).canonical) = some c := by
      intro required
      rw [Strategies.custom?, show n.strategies.registered = _ from
        congrArg Strategies.registered strategies, text]
      exact Registrations.find?_foldl_below_one made readScope read whole name part required
    refine ⟨found, fun raw => ?_⟩
    have converts : n.convertFor σ (Place.ofSegment last).canonical raw = fun required =>
        Run.mapError (n.conversionAt (Place.ofSegment last).canonical)
          (n.strategies.consulting σ c required (some (Place.ofSegment last).canonical) raw) := by
      funext required
      rw [Node.convertFor, Strategies.convert_of_custom (found required)]
    rw [on_apply read, followed, ← converts, ← Node.write_eq_put]
  · rw [on_apply read, followed]
    exact ⟨_, rfl⟩

end Accessor

/-! A basket of items with prices in euros, and another item that takes the place of one. -/

namespace Basket

def item : ClassDecl :=
  ⟨"demo.Item", [], none, [⟨"price", .text, .readWrite⟩], [], false, .plain, none⟩

def basket : ClassDecl :=
  ⟨"demo.Basket", [], none, [⟨"items", .list .vector (.object 0), .readWrite⟩], [], false, .plain,
    none⟩

def schema : Schema := (Schema.empty.declareClass item).declareClass basket

def heap : Heap :=
  ⟨#[.slots [("items", .list .vector 1)], .items [.object ⟨0, 2⟩], .slots [("price", .text "1")],
    .slots [("price", .text "2")]]⟩

def inEuros : Converter := .ofText "euros" fun _ text _ => return .text (text ++ " EUR")

def strategies : Strategies := ⟨.empty, .standard, none⟩

def registrations : Registrations :=
  ⟨[], [⟨⟨[⟨"items", []⟩, ⟨"price", []⟩]⟩, [(none, inEuros)]⟩]⟩

def accessor : Accessor := .rooted { strategies with registered := registrations } .standard ⟨1, 0⟩

def events : List Event :=
  [.call (.resolve "items[0].price"), .outside (·.put 1 (.items [.object ⟨0, 3⟩]))]

end Basket

namespace Accessor

theorem consults_registered_basket :
    (rooted Basket.strategies .standard ⟨1, 0⟩).register none (some "items.price")
        Basket.inEuros = .ok Basket.accessor ∧
      ∃ used n place a' h', Basket.events.foldl (Event.on Basket.schema)
          (Basket.accessor, Basket.heap) = used ∧
        on (follow Basket.schema ⟨[⟨"items", ["0"]⟩] ++ [⟨"price", []⟩]⟩) used.1 used.2 =
          ((.ok (n, place), a'), h') ∧
        used.1.children.map (·.2.wrapped) = [⟨0, 2⟩] ∧ n.wrapped = ⟨0, 3⟩ ∧
        n.strategies.custom? Basket.schema .text (some place.canonical) = some Basket.inEuros ∧
        (on (apply Basket.schema "items[0].price" (.text "7")) used.1 used.2).2.slot? 3 0 =
          some (.text "7 EUR") := by
  have registered : (rooted Basket.strategies .standard ⟨1, 0⟩).register none
      (some "items.price") Basket.inEuros = .ok Basket.accessor := by
    have made : Registrations.empty.register none (some "items.price") Basket.inEuros =
        .ok Basket.registrations := by cbv
    rw [register, show (rooted Basket.strategies .standard ⟨1, 0⟩).node.strategies.registered =
      .empty from rfl, made]
    rfl
  have readScope : Path.parse "items.price" = .ok ⟨[⟨"items", []⟩] ++ [⟨"price", []⟩]⟩ := by cbv
  have read : Path.parse "items[0].price" = .ok ⟨[⟨"items", ["0"]⟩] ++ [⟨"price", []⟩]⟩ := by cbv
  refine ⟨registered, ?_⟩
  have consults := (consults_registered Basket.schema rfl .standard ⟨1, 0⟩ registered readScope read
    (.cons (.inr rfl) .nil) rfl (.refl _) Basket.events Basket.heap).1
  have replaced : ((on (follow Basket.schema ⟨[⟨"items", ["0"]⟩] ++ [⟨"price", []⟩]⟩)
      (Basket.events.foldl (Event.on Basket.schema) (Basket.accessor, Basket.heap)).1
      (Basket.events.foldl (Event.on Basket.schema)
        (Basket.accessor, Basket.heap)).2).1.1.toOption.map fun found => found.1.wrapped) = some ⟨0, 3⟩ := by decide +kernel
  have kept : (Basket.events.foldl (Event.on Basket.schema)
      (Basket.accessor, Basket.heap)).1.children.map (·.2.wrapped) = [⟨0, 2⟩] := by decide +kernel
  have written : (on (apply Basket.schema "items[0].price" (.text "7"))
      (Basket.events.foldl (Event.on Basket.schema) (Basket.accessor, Basket.heap)).1
      (Basket.events.foldl (Event.on Basket.schema) (Basket.accessor, Basket.heap)).2).2.slot? 3 0 =
        some (.text "7 EUR") := by decide +kernel
  generalize Basket.events.foldl (Event.on Basket.schema) (Basket.accessor, Basket.heap) = used
    at consults replaced kept written ⊢
  rcases followed : on (follow Basket.schema ⟨[⟨"items", ["0"]⟩] ++ [⟨"price", []⟩]⟩) used.1 used.2
    with ⟨⟨_ | ⟨n, place⟩, a'⟩, h'⟩
  · rw [followed] at replaced
    cases replaced
  · rw [followed] at replaced
    exact ⟨used, n, place, a', h', rfl, followed, kept, Option.some.inj replaced,
      (consults n place a' h' followed).1 .text, written⟩

end Accessor

end PropertyAccess
