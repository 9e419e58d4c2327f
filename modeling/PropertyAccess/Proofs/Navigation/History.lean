import PropertyAccess.Navigation.Batch
import PropertyAccess.Proofs.Navigation.Keep
import PropertyAccess.Proofs.Navigation.Walk
import PropertyAccess.Proofs.Path.Canonical

/-! What an accessor keeps is never seen. The segments on the way to a node and the
object that it wraps settle everything about it, and a kept node is used only for
the object that it wraps. So it is the node that would be made anew, and whatever
happens between two calls, the answer is that of an accessor that keeps nothing. -/

namespace PropertyAccess

/-- The nodes to be met from the node `r`, by the canonical segments on the way. -/
inductive Node.Met (r : Node) : List String → Node → Prop
  | top : Met r [] r
  | child {at_ : List String} {n : Node} {s : Segment} (met : Met r at_ n) (read : s.Readable)
      (o : ObjectRef) : Met r (at_ ++ [s.canonical]) (n.child s o)

namespace Node.Met

variable {r n m : Node} {at_ : List String}

theorem eq_top (hn : r.Met at_ n) (he : at_ = []) : n = r := by
  cases hn with
  | top => rfl
  | child => simp at he

theorem eq_child (hn : r.Met at_ n) {before : List String} {last : String}
    (he : at_ = before ++ [last]) :
    ∃ m s o, r.Met before m ∧ s.Readable ∧ s.canonical = last ∧ n = m.child s o := by
  cases hn with
  | top => simp at he
  | @child _ m s met read o =>
    obtain ⟨rfl, hs⟩ := List.append_inj' he rfl
    exact ⟨m, s, o, met, read, by simpa using hs, rfl⟩

theorem settled (hn : r.Met at_ n) (hm : r.Met at_ m) :
    { n with wrapped := m.wrapped } = m := by
  induction hn generalizing m with
  | top => rw [hm.eq_top rfl]
  | @child _ n s _ read o ih =>
    obtain ⟨m', t, o', met, read', same, rfl⟩ := hm.eq_child rfl
    obtain rfl := (Segment.canonical_inj read' read).1 same
    have parents := ih met
    calc { n.child t o with wrapped := o' }
        = ({ n with wrapped := m'.wrapped } : Node).child t o' := rfl
      _ = m'.child t o' := by rw [parents]

theorem eq_of_wrapped (hn : r.Met at_ n) (hm : r.Met at_ m) (hw : n.wrapped = m.wrapped) :
    n = m := by
  have same := hn.settled hm
  rwa [← hw] at same

end Node.Met

namespace Accessor

structure Of (r : Node) (a : Accessor) : Prop where
  node : a.node = r
  kept : ∀ c ∈ a.children, r.Met c.1 c.2

def Blind (r : Node) {α : Type} (w : Walk α) : Prop :=
  ∀ h, ∃ result h', ∀ a, Of r a → ∃ a', on w a h = ((result, a'), h') ∧ Of r a'

variable {σ : Schema} {r n : Node} {at_ : List String} {α β : Type}

theorem of_rooted (S : Strategies) (config : AccessConfig) (root : ObjectRef) :
    Of ⟨root, root, "", config, S⟩ (rooted S config root) :=
  ⟨rfl, by simp [rooted]⟩

theorem blind_pure (x : α) : Blind r (pure x : Walk α) :=
  fun h => ⟨.ok x, h, fun a ha => ⟨a, rfl, ha⟩⟩

theorem blind_throw (e : PathError) : Blind r (throw e : Walk α) :=
  fun h => ⟨.error e, h, fun a ha => ⟨a, rfl, ha⟩⟩

theorem blind_lift (run : Run PathError α) : Blind r (lift run) :=
  fun h => ⟨(run.on h).1, (run.on h).2, fun a ha => ⟨a, rfl, ha⟩⟩

theorem Blind.bind {w : Walk α} {f : α → Walk β} (hw : Blind r w) (hf : ∀ x, Blind r (f x)) :
    Blind r (w >>= f) := by
  intro h
  obtain ⟨result, h', first⟩ := hw h
  cases result with
  | error e =>
    refine ⟨.error e, h', fun a ha => ?_⟩
    obtain ⟨a', run, ha'⟩ := first a ha
    rw [Walk.on_bind, run]
    exact ⟨a', rfl, ha'⟩
  | ok x =>
    obtain ⟨result, h'', second⟩ := hf x h'
    refine ⟨result, h'', fun a ha => ?_⟩
    obtain ⟨a', run, ha'⟩ := first a ha
    obtain ⟨a'', run', ha''⟩ := second a' ha'
    rw [Walk.on_bind, run]
    exact ⟨a'', run', ha''⟩

theorem Blind.outcome {w : Walk α} (hw : Blind r w) : Blind r (outcome w) := by
  intro h
  obtain ⟨result, h', first⟩ := hw h
  refine ⟨.ok result, h', fun a ha => ?_⟩
  obtain ⟨a', run, ha'⟩ := first a ha
  refine ⟨a', ?_, ha'⟩
  have unfolded : on (Accessor.outcome w) a h =
      ((.ok (on w a h).1.1, (on w a h).1.2), (on w a h).2) := rfl
  rw [unfolded, run]

theorem Blind.attempt {w : Walk α} (hw : Blind r w) : Blind r (attempt w) := by
  refine hw.outcome.bind fun result => ?_
  split
  · exact blind_pure _
  · exact blind_throw _
  · exact blind_pure _

theorem blind_get_bind {f : Accessor → Walk α}
    (same : ∀ a b : Accessor, a.node = b.node → f a = f b)
    (hf : ∀ a : Accessor, a.node = r → Blind r (f a)) : Blind r (get >>= f) := by
  intro h
  obtain ⟨result, h', first⟩ := hf ⟨r, []⟩ rfl h
  refine ⟨result, h', fun a ha => ?_⟩
  obtain ⟨a', run, ha'⟩ := first a ha
  refine ⟨a', ?_, ha'⟩
  have unfolded : on (get >>= f) a h = on (f a) a h := rfl
  rw [unfolded, same a ⟨r, []⟩ ha.node, run]

theorem keep_met {fresh : Node} {children : List (List String × Node)}
    (hc : ∀ c ∈ children, r.Met c.1 c.2) (hf : r.Met at_ fresh) :
    (keep at_ fresh children).1 = fresh ∧ ∀ c ∈ (keep at_ fresh children).2, r.Met c.1 c.2 := by
  have all := forall_keep (P := r.Met) hf hc
  exact ⟨all.1.eq_of_wrapped hf wrapped_keep, all.2⟩

theorem blind_enter_bind (hn : r.Met at_ n) {s : Segment} (hs : s.Readable) {f : Node → Walk α}
    (hf : ∀ o, Blind r (f (n.child s o))) :
    Blind r (enter σ (at_ ++ [s.canonical]) n s >>= f) := by
  intro h
  have entered (a : Accessor) :=
    (Walk.ends_enter σ (at_ ++ [s.canonical]) n s).1 (Walk.ends_on (enter σ _ n s) a h)
  rcases ho : (n.enter σ (Place.ofSegment s)).on h with ⟨result, h'⟩
  cases result with
  | error e =>
    refine ⟨.error e, h', fun a ha => ⟨a, ?_, ha⟩⟩
    rw [Walk.on_bind, (entered a).of_error ho]
  | ok o =>
    obtain ⟨result, h'', rest⟩ := hf o h'
    refine ⟨result, h'', fun a ha => ?_⟩
    have kept := keep_met ha.kept (hn.child hs o)
    have run := (entered a).of_ok ho
    -- What is kept for this object is the node that an accessor without it would make.
    rw [kept.1] at run
    obtain ⟨a', run', ha'⟩ := rest
      ⟨a.node, (keep (at_ ++ [s.canonical]) (n.child s o) a.children).2⟩ ⟨ha.node, kept.2⟩
    rw [Walk.on_bind, run]
    exact ⟨a', run', ha'⟩

theorem blind_reach (hn : r.Met at_ n) {segments : List Segment}
    (hs : ∀ s ∈ segments, s.Readable) : Blind r (reach σ at_ n segments) := by
  induction segments generalizing at_ n with
  | nil => exact blind_throw _
  | cons s rest ih =>
    cases rest with
    | nil => exact blind_pure _
    | cons next rest =>
      have head := hs s List.mem_cons_self
      exact blind_enter_bind hn head fun o =>
        ih (hn.child head o) fun t ht => hs t (List.mem_cons_of_mem _ ht)

theorem blind_follow {p : Path} (hp : ∀ s ∈ p.segments, s.Readable) : Blind r (follow σ p) := by
  refine blind_get_bind (fun a b same => by rw [same]) fun a ha => ?_
  rw [ha]
  exact blind_reach .top hp

theorem blind_parsed_bind {f : Path → Walk α} {text : String}
    (hf : ∀ p, (∀ s ∈ p.segments, s.Readable) → Blind r (f p)) : Blind r (parsed text >>= f) := by
  unfold parsed
  split
  · rename_i p read
    exact (hf p (Path.readable_of_parse read).2)
  · exact blind_throw _

theorem blind_follow_parsed (text : String) : Blind r (do follow σ (← parsed text)) :=
  blind_parsed_bind fun _ hp => blind_follow hp

theorem blind_resolve (path : String) : Blind r (resolve σ path) :=
  blind_parsed_bind fun _ hp => (blind_follow hp).bind fun _ => blind_lift _

theorem blind_apply (path : String) (raw : Value) : Blind r (apply σ path raw) := by
  refine blind_parsed_bind fun p hp => ?_
  refine blind_get_bind (fun a b same => by rw [same]) fun a _ => ?_
  refine (blind_follow hp).outcome.bind fun found => ?_
  cases found with
  | ok _ => exact blind_lift _
  | error _ => exact blind_throw _

theorem blind_isReadable (path : String) : Blind r (isReadable σ path) := by
  refine (blind_follow_parsed path).attempt.bind fun found => ?_
  rcases found with _ | ⟨n, place⟩
  · exact blind_pure _
  · cases place with
    | property => exact blind_pure _
    | element => exact (blind_lift _).attempt.bind fun _ => blind_pure _

theorem blind_isWritable (path : String) : Blind r (isWritable σ path) := by
  refine (blind_follow_parsed path).attempt.bind fun found => ?_
  rcases found with _ | ⟨n, place⟩
  · exact blind_pure _
  · cases place with
    | property => exact blind_pure _
    | element =>
      refine (blind_lift _).attempt.bind fun container => ?_
      cases container <;> exact blind_pure _

theorem blind_typeAt? (path : String) : Blind r (typeAt? σ path) := by
  refine (blind_follow_parsed path).attempt.bind fun found => ?_
  cases found <;> exact blind_pure _

theorem blind_convert (v : Value) (required : Ty) : Blind r (convert σ v required) :=
  blind_get_bind (fun a b same => by rw [same]) fun _ _ => blind_lift _

theorem blind_applyAll (o : BatchOptions) (b : Batch) (failures : List (String × PathError)) :
    Blind r (applyAll σ o b failures) := by
  induction b generalizing failures with
  | nil => cases failures <;> exact blind_pure _
  | cons v vs ih =>
    refine (blind_apply v.path v.value).outcome.bind fun written => ?_
    cases written with
    | ok _ => exact ih failures
    | error e =>
      dsimp only
      split
      · exact ih failures
      · exact ih _
      · exact blind_pure _

theorem Of.withGrowing {a : Accessor} (ha : Of r a) (growing : Bool) (limit : Nat) :
    Of { r with config := { r.config with growing, limit } } (a.withGrowing growing limit) := by
  have met : ∀ {at_ n}, r.Met at_ n →
      Node.Met { r with config := { r.config with growing, limit } } at_
        { n with config := { n.config with growing, limit } } := by
    intro at_ n hn
    induction hn with
    | top => exact .top
    | child _ read o ih => exact ih.child read o
  refine ⟨?_, fun c hc => ?_⟩
  · rw [← ha.node]
    rfl
  · obtain ⟨d, hd, rfl⟩ := List.mem_map.1 hc
    exact met (ha.kept d hd)

end Accessor

/-! Histories of an accessor: what is set at first, and what happens later. -/

inductive Setting
  | register (type : Option Ty) (path : Option String) (converter : Converter)
  | service (provider : Option ConversionService)
  | growing (enabled : Bool) (limit : Nat)

/-- A registration that is refused changes nothing. -/
def Setting.on (a : Accessor) : Setting → Accessor
  | .register type path converter =>
    match a.register type path converter with
    | .ok a' => a'
    | .error _ => a
  | .service provider => a.withService provider
  | .growing enabled limit => a.withGrowing enabled limit

/-- A call of an accessor that answers. -/
inductive Call
  | resolve (path : String)
  | apply (path : String) (raw : Value)
  | applyBatch (options : BatchOptions) (batch : Batch)
  | isReadable (path : String)
  | isWritable (path : String)
  | typeAt (path : String)
  | convert (v : Value) (required : Ty)

inductive Answer
  | value (v : Value)
  | written
  | batch (ended : Option BatchError)
  | flag (holds : Bool)
  | type (type : Option Ty)

def Call.walk (σ : Schema) : Call → Walk Answer
  | .resolve path => do return .value (← Accessor.resolve σ path)
  | .apply path raw => do
    Accessor.apply σ path raw
    return .written
  | .applyBatch options batch => do return .batch (← Accessor.applyBatch σ options batch)
  | .isReadable path => do return .flag (← Accessor.isReadable σ path)
  | .isWritable path => do return .flag (← Accessor.isWritable σ path)
  | .typeAt path => do return .type (← Accessor.typeAt? σ path)
  | .convert v required => do return .value (← Accessor.convert σ v required)

/-- What happens to an accessor and the graph it is used on. -/
inductive Event
  | call (c : Call)
  | growing (enabled : Bool) (limit : Nat)
  /-- The graph is changed by others, in any way. -/
  | outside (change : Heap → Heap)

namespace Event

def on (σ : Schema) : Accessor × Heap → Event → Accessor × Heap
  | (a, h), .call c => ((Accessor.on (c.walk σ) a h).1.2, (Accessor.on (c.walk σ) a h).2)
  | (a, h), .growing enabled limit => (a.withGrowing enabled limit, h)
  | (a, h), .outside change => (a, change h)

def config (c : AccessConfig) : Event → AccessConfig
  | .growing enabled limit => { c with growing := enabled, limit }
  | _ => c

end Event

namespace Accessor

variable {σ : Schema} {r : Node}

theorem blind_call (call : Call) : Blind r (call.walk σ) := by
  cases call with
  | resolve path => exact (blind_resolve path).bind fun _ => blind_pure _
  | apply path raw => exact (blind_apply path raw).bind fun _ => blind_pure _
  | applyBatch options batch =>
    exact (blind_applyAll options batch []).bind fun _ => blind_pure _
  | isReadable path => exact (blind_isReadable path).bind fun _ => blind_pure _
  | isWritable path => exact (blind_isWritable path).bind fun _ => blind_pure _
  | typeAt path => exact (blind_typeAt? path).bind fun _ => blind_pure _
  | convert v required => exact (blind_convert v required).bind fun _ => blind_pure _

theorem rooted_settings (settings : List Setting) (S : Strategies) (config : AccessConfig)
    (root : ObjectRef) :
    ∃ S' config', settings.foldl Setting.on (rooted S config root) = rooted S' config' root := by
  induction settings generalizing S config with
  | nil => exact ⟨S, config, rfl⟩
  | cons s rest ih =>
    cases s with
    | register type path converter =>
      cases registered : S.registered.register type path converter with
      | error fault =>
        have step : Setting.on (rooted S config root) (.register type path converter) =
            rooted S config root := by
          simp [Setting.on, register, rooted, registered, Except.map]
        rw [List.foldl_cons, step]
        exact ih S config
      | ok rs =>
        have step : Setting.on (rooted S config root) (.register type path converter) =
            rooted { S with registered := rs } config root := by
          simp [Setting.on, register, rooted, registered, Except.map]
        rw [List.foldl_cons, step]
        exact ih _ config
    | service provider => exact ih { S with service := provider } config
    | growing enabled limit => exact ih S { config with growing := enabled, limit }

theorem of_event {a : Accessor} (ha : Of r a) (h : Heap) (event : Event) :
    Of { r with config := event.config r.config } (event.on σ (a, h)).1 := by
  cases event with
  | call c =>
    have blind : Blind r (c.walk σ) := blind_call c
    obtain ⟨result, h', answered⟩ := blind h
    obtain ⟨a', run, ha'⟩ := answered a ha
    rw [Event.on, run]
    exact ha'
  | growing enabled limit => exact ha.withGrowing enabled limit
  | outside => exact ha

theorem of_events {a : Accessor} (ha : Of r a) (h : Heap) (events : List Event) :
    Of { r with config := events.foldl Event.config r.config }
      (events.foldl (Event.on σ) (a, h)).1 := by
  induction events generalizing r a h with
  | nil => exact ha
  | cons event rest ih => exact ih (of_event ha h event) _

/-- Once registrations and the service are set, every call is answered, and changes
the graph, as by a new accessor with these settings, whatever came before. -/
theorem answers_as_new (σ : Schema) (S : Strategies) (config : AccessConfig) (root : ObjectRef)
    (settings : List Setting) (events : List Event) (call : Call) (h : Heap) :
    let set := settings.foldl Setting.on (rooted S config root)
    let used := events.foldl (Event.on σ) (set, h)
    let new := rooted set.node.strategies (events.foldl Event.config set.node.config) root
    (on (call.walk σ) used.1 used.2).1.1 = (on (call.walk σ) new used.2).1.1 ∧
      (on (call.walk σ) used.1 used.2).2 = (on (call.walk σ) new used.2).2 := by
  intro set used new
  obtain ⟨S', config', hset⟩ := rooted_settings settings S config root
  have before : Of ⟨root, root, "", config', S'⟩ set := by
    rw [show set = rooted S' config' root from hset]
    exact of_rooted S' config' root
  have after : Of ⟨root, root, "", events.foldl Event.config config', S'⟩ used.1 :=
    of_events before h events
  have fresh : Of ⟨root, root, "", events.foldl Event.config config', S'⟩ new := by
    have node : set.node = ⟨root, root, "", config', S'⟩ := before.node
    simp only [new, node]
    exact of_rooted _ _ root
  have blind : Blind ⟨root, root, "", events.foldl Event.config config', S'⟩ (call.walk σ) :=
    blind_call call
  obtain ⟨result, h', answered⟩ := blind used.2
  obtain ⟨a', run, -⟩ := answered used.1 after
  obtain ⟨b', run', -⟩ := answered new fresh
  rw [run, run']
  exact ⟨rfl, rfl⟩

end Accessor

end PropertyAccess
