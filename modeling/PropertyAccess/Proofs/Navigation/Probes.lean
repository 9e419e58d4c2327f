import PropertyAccess.Proofs.Navigation.Ground
import PropertyAccess.Proofs.Navigation.Unwritable
import PropertyAccess.Proofs.Schema.Furnished

/-! What probes tell. A probe follows the same path as the operation that it predicts, from the
same graph, so both fail where the path cannot be followed. At its end a probe looks at the
property only, or reads what the operation would read first. That a property can be read is
enough for a read to succeed if getters never fail, since the object has all of its slots. -/

namespace PropertyAccess

namespace Schema

variable {σ : Schema} {K : ObjectRef → Prop}

theorem editable_furnishing (σ : Schema) : σ.furnishing.Editable where
  array fits _ hv _ stored := Heap.Furnished.setItem? fits hv stored
  list fits _ hv stored := Heap.Furnished.setItem? fits hv stored
  append fits _ hv := Heap.Furnished.appendItems fits hv
  insert shape fits _ hk hv := Heap.Furnished.insertEntry fits shape hk hv

/-- The properties of a known object only give known objects, and take them. -/
theorem Honest.accesses (hσ : σ.Honest) {n : Node} (known : K n.wrapped) (name : String) :
    n.Accesses σ.furnishing K name where
  get := by
    intro K' hd later found
    rcases Schema.isSlot_or_accessors found with
      ⟨i, readable, writable, s, slot, -, access⟩ | ⟨p, has, access⟩
    · cases readable with
      | false =>
        rw [Handle.get, access]
        exact .throw _
      | true =>
        intro h fits
        obtain ⟨v, value, hv⟩ := Heap.Furnished.slot? fits (later _ known)
          (List.getElem?_eq_some_iff.1 slot).1
        simp only [Handle.get, access, Run.ends_bind, Run.ends_lookup, value]
        exact ⟨K', fun _ => id, fits, hv⟩
    · cases getter : p.getter with
      | none =>
        rw [Handle.get, access, getter]
        exact .throw _
      | some g =>
        rw [Handle.get, access, getter]
        exact hσ.getter _ p g has getter K' (later _ known)
  set := by
    intro K' hd v later found hv
    rw [Handle.set]
    refine .ite (fun _ => ?_) fun _ => .throw _
    rcases Schema.isSlot_or_accessors found with
      ⟨i, readable, writable, s, -, -, access⟩ | ⟨p, has, access⟩
    · rw [access]
      cases writable with
      | false => exact .throw _
      | true =>
        intro h fits
        simp only [Run.ends_bind, Run.ends_lookup]
        split
        · rename_i after stored
          exact ⟨K', fun _ => id, Heap.Furnished.setSlot? fits hv stored, trivial⟩
        · exact ⟨K', fun _ => id, fits⟩
    · cases setter : p.setter with
      | none =>
        rw [access, setter]
        exact .throw _
      | some s =>
        rw [access, setter]
        exact hσ.setter _ p s has setter K' v (later _ known) hv

end Schema

namespace Node

variable {σ : Schema} {n : Node} {K : ObjectRef → Prop} {h g : Heap}

theorem stays_enter (hσ : σ.Honest) (known : K n.wrapped) (hn : n.strategies.Stays σ.furnishing)
    (s : Segment) :
    (n.enter σ (Place.ofSegment s)).Stays σ.furnishing K fun K' o => (Value.object o).Known K' :=
  (ground_of_accesses (hσ.accesses known _) hσ.stays σ.editable_furnishing hn).enter hσ.stays

/-- A property that can be read is read. -/
theorem exists_of_readable (answers : σ.Answers) (fits : h.Furnished σ K) (known : K n.wrapped)
    {name : String} (yes : n.readable σ name = true) (shown : String) :
    ∃ v h', (n.readProperty σ shown name).on h = (.ok v, h') := by
  rw [readable] at yes
  rw [readProperty]
  cases found : n.handle? σ name with
  | none =>
    rw [found] at yes
    cases yes
  | some hd =>
    rw [found] at yes
    have readable : hd.isReadable = true := yes
    dsimp only
    rw [if_pos readable, Run.on_mapError]
    obtain ⟨v, h', got⟩ : ∃ v h', (hd.get n.wrapped).on h = (.ok v, h') := by
      rw [Handle.isReadable] at readable
      rcases Schema.isSlot_or_accessors found with
        ⟨i, _, writable, s, slot, -, access⟩ | ⟨p, has, access⟩
      · rw [access] at readable
        obtain rfl := readable
        obtain ⟨v, value, -⟩ := fits.slot? known (List.getElem?_eq_some_iff.1 slot).1
        refine ⟨v, h, ?_⟩
        have looked : (Run.lookup (·.slot? n.wrapped.loc i) : Run PropertyFault _).on h =
            (.ok (some v), h) := by
          rw [← value]
          rfl
        rw [Handle.get, access]
        dsimp only
        rw [Run.on_bind_of_ok looked]
        rfl
      · rw [access] at readable
        obtain ⟨g, getter⟩ := Option.isSome_iff_exists.1 readable
        rw [Handle.get, access, getter]
        exact answers n.wrapped p g has getter K h fits known
    rw [got]
    exact ⟨v, h', rfl⟩

theorem exists_error_of_missing {place : Place} (missing : n.handle? σ place.root = none)
    (h : Heap) :
    (∀ shown, ∃ e g, (n.read σ shown place).on h = (.error e, g)) ∧
      ∀ raw, ∃ e g, (n.write σ place raw).on h = (.error e, g) := by
  have unreadable : n.readable σ place.root = false := by rw [readable, missing]; rfl
  refine ⟨fun shown => ?_, fun raw => ?_⟩
  · rw [read_of_unreadable unreadable]
    exact ⟨_, h, rfl⟩
  · cases place with
    | property name =>
      rw [write, writeProperty, show n.handle? σ name = none from missing]
      exact ⟨_, h, rfl⟩
    | element holder key =>
      rw [write_of_unreadable holder key unreadable]
      exact ⟨_, h, rfl⟩

theorem exists_error_of_unwritable {name : String}
    (no : ((n.handle? σ name).map Handle.isWritable).getD false = false) (raw : Value) (h : Heap) :
    ∃ e g, (n.write σ (.property name) raw).on h = (.error e, g) := by
  rw [write, writeProperty]
  cases found : n.handle? σ name with
  | none => exact ⟨_, h, rfl⟩
  | some hd =>
    rw [found] at no
    have unwritable : ¬ hd.isWritable = true := Bool.eq_false_iff.1 no
    dsimp only
    rw [if_neg unwritable]
    exact ⟨_, h, rfl⟩

theorem exists_error_of_container {holder : Place}
    (no : ∀ v g, (n.read σ holder.canonical holder).on h = (.ok v, g) →
      (n.config.growing || !v.isNull) = false) (key : String) (raw : Value) :
    ∃ e g, (n.write σ (.element holder key) raw).on h = (.error e, g) := by
  rw [write, Run.on_bind, Run.on_mapError]
  rcases found : (n.read σ holder.canonical holder).on h with ⟨e | v, g⟩
  · exact ⟨_, g, rfl⟩
  · have neither := no v g found
    rw [Bool.or_eq_false_iff] at neither
    have null : ¬ (!v.isNull) = true := Bool.eq_false_iff.1 neither.2
    have fixed : ¬ n.config.growing = true := Bool.eq_false_iff.1 neither.1
    dsimp only [Except.mapError]
    rw [present, if_neg null, if_neg fixed]
    exact ⟨_, g, rfl⟩

end Node

namespace Accessor

variable {σ : Schema} {r n : Node} {a b : Accessor} {h g : Heap} {place : Place} {path : String}

def located (σ : Schema) (path : String) : Walk (Node × Place) := do follow σ (← parsed path)

theorem resolve_eq_located (σ : Schema) (path : String) : resolve σ path = (do
    let found ← located σ path
    lift (found.1.read σ found.2.canonical found.2)) := by
  rw [resolve, located, bind_assoc]

theorem followed_of_located {result : Except PathError (Node × Place)} {p : Path}
    (read : Path.parse path = .ok p) (ran : on (located σ path) a h = ((result, b), g)) :
    on (follow σ p) a h = ((result, b), g) := by
  rwa [located, parsed_eq read, pure_bind] at ran

theorem exists_error_of_located {e : PathError}
    (failed : on (located σ path) a h = ((.error e, b), g)) :
    (on (resolve σ path) a h).1.1 = .error e ∧
      ∀ raw, ∃ e', (on (apply σ path raw) a h).1.1 = .error e' := by
  refine ⟨by rw [resolve_eq_located, Walk.on_bind, failed], fun raw => ?_⟩
  cases read : Path.parse path with
  | error fault =>
    rw [apply, parsed, read]
    exact ⟨_, rfl⟩
  | ok p =>
    rw [on_apply read, followed_of_located read failed]
    exact ⟨_, rfl⟩

theorem on_of_located (found : on (located σ path) a h = ((.ok (n, place), b), g)) :
    (on (resolve σ path) a h).1.1 = ((n.read σ place.canonical place).on g).1 ∧
      ∀ raw, (on (apply σ path raw) a h).1.1 = ((n.write σ place raw).on g).1 := by
  refine ⟨by rw [resolve_eq_located, Walk.on_bind, found]; rfl, fun raw => ?_⟩
  cases read : Path.parse path with
  | error fault =>
    rw [located, parsed, read] at found
    cases found
  | ok p =>
    rw [on_apply read, followed_of_located read found]
    rfl

/-- Whether an operation succeeds, if it comes back. -/
def verdict {α : Type} : Except PathError α → Except PathError Bool
  | .ok _ => .ok true
  | .error .endless => .error .endless
  | .error _ => .ok false

theorem verdict_error {α : Type} {e : PathError} (ended : e ≠ .endless) :
    verdict (.error e : Except PathError α) = .ok false := by
  cases e with
  | endless => exact absurd rfl ended
  | _ => rfl

theorem verdict_eq_true_iff {α : Type} {r : Except PathError α} :
    verdict r = .ok true ↔ ∃ x, r = .ok x := by
  cases r with
  | ok x => simp [verdict]
  | error e => cases e <;> simp [verdict]

theorem exists_error_of_verdict {α : Type} {r : Except PathError α} (no : verdict r = .ok false) :
    ∃ e, r = .error e := by
  cases r with
  | ok x => cases no
  | error e => exact ⟨e, rfl⟩

theorem on_attempt_of_failed {α : Type} {w : Walk α} {answer : Option α → Walk Bool}
    (lost : answer none = pure false) {e : PathError} (failed : on w a h = ((.error e, b), g)) :
    (on (attempt w >>= answer) a h).1.1 = verdict (.error e : Except PathError Value) := by
  rw [Walk.on_bind]
  by_cases endless : e = .endless
  · subst endless
    rw [Walk.on_attempt_of_endless failed]
    rfl
  · rw [Walk.on_attempt_of_error failed endless, verdict_error endless]
    dsimp only
    rw [lost]
    rfl

/-- A probe for reading tells what becomes of the read: always for an element, and for a
property that can be read if it is. -/
theorem isReadable_eq
    (reads : ∀ n name b g, on (located σ path) a h = ((.ok (n, .property name), b), g) →
      n.readable σ name = true →
        ∀ shown, ∃ v g', (n.readProperty σ shown name).on g = (.ok v, g')) :
    (on (isReadable σ path) a h).1.1 = verdict (on (resolve σ path) a h).1.1 := by
  rw [isReadable, ← located]
  rcases found : on (located σ path) a h with ⟨⟨e | ⟨n, place⟩, b⟩, g⟩
  · rw [(exists_error_of_located found).1]
    exact on_attempt_of_failed rfl found
  · rw [Walk.on_bind, Walk.on_attempt_of_ok found, (on_of_located found).1]
    cases place with
    | element holder key =>
      dsimp only
      have lifted := Walk.on_lift (n.read σ (Place.element holder key).canonical
        (.element holder key)) b g
      rcases read : (n.read σ (Place.element holder key).canonical (.element holder key)).on g with
        ⟨e | v, g'⟩ <;> rw [read] at lifted
      · exact on_attempt_of_failed rfl lifted
      · rw [Walk.on_bind, Walk.on_attempt_of_ok lifted]
        rfl
    | property name =>
      rw [Node.read]
      cases readable : n.readable σ name with
      | true =>
        obtain ⟨v, g', read⟩ := reads n name b g found readable (Place.property name).canonical
        rw [read]
        exact congrArg Except.ok readable
      | false =>
        rw [Node.readProperty_of_unreadable readable]
        exact congrArg Except.ok readable

theorem exists_error_of_isWritable (no : (on (isWritable σ path) a h).1.1 = .ok false)
    (raw : Value) : ∃ e, (on (apply σ path raw) a h).1.1 = .error e := by
  rcases found : on (located σ path) a h with ⟨⟨e | ⟨n, place⟩, b⟩, g⟩
  · exact (exists_error_of_located found).2 raw
  · rw [isWritable, ← located, Walk.on_bind, Walk.on_attempt_of_ok found] at no
    have written : ∃ e g', (n.write σ place raw).on g = (.error e, g') := by
      cases place with
      | property name => exact Node.exists_error_of_unwritable (Except.ok.inj no) raw g
      | element holder key =>
        refine Node.exists_error_of_container (fun v g' held => ?_) key raw
        have lifted : on (lift (n.read σ holder.canonical holder)) b g = ((.ok v, b), g') := by
          rw [Walk.on_lift, held]
        dsimp only at no
        rw [Walk.on_bind, Walk.on_attempt_of_ok lifted] at no
        exact Except.ok.inj no
    obtain ⟨e, g', failed⟩ := written
    exact ⟨e, by rw [(on_of_located found).2, failed]⟩

theorem exists_error_of_typeAt? (unknown : (on (typeAt? σ path) a h).1.1 = .ok none) :
    (∃ e, (on (resolve σ path) a h).1.1 = .error e) ∧
      ∀ raw, ∃ e, (on (apply σ path raw) a h).1.1 = .error e := by
  rcases found : on (located σ path) a h with ⟨⟨e | ⟨n, place⟩, b⟩, g⟩
  · obtain ⟨unresolved, unwritten⟩ := exists_error_of_located found
    exact ⟨⟨e, unresolved⟩, unwritten⟩
  · rw [typeAt?, ← located, Walk.on_bind, Walk.on_attempt_of_ok found] at unknown
    have missing : n.handle? σ place.root = none := Option.map_eq_none_iff.1 (Except.ok.inj unknown)
    obtain ⟨reads, writes⟩ := Node.exists_error_of_missing missing g
    obtain ⟨e, g', failed⟩ := reads place.canonical
    refine ⟨⟨e, by rw [(on_of_located found).1, failed]⟩, fun raw => ?_⟩
    obtain ⟨e, g', failed⟩ := writes raw
    exact ⟨e, by rw [(on_of_located found).2, failed]⟩

/-- The object at the end of a path has its slots, whichever nodes are kept: one of them is
used only for the object that it wraps. -/
theorem ends_reach_furnished (hσ : σ.Honest) {K : ObjectRef → Prop} (known : K n.wrapped)
    (hn : n.strategies.Stays σ.furnishing)
    (kept : ∀ c ∈ a.children, c.2.strategies.Stays σ.furnishing) (fits : h.Furnished σ K)
    (at_ : List String) (segments : List Segment) :
    Walk.Ends (reach σ at_ n segments) a h
      (fun found _ g => ∃ K', g.Furnished σ K' ∧ K' found.1.wrapped) fun _ _ _ => True := by
  induction segments generalizing K at_ n a h with
  | nil => trivial
  | cons s rest ih =>
    cases rest with
    | nil => exact ⟨K, fits, known⟩
    | cons next rest =>
      rw [reach, Walk.ends_bind, Walk.ends_enter]
      refine (Node.stays_enter hσ known hn s h fits).mono (fun o g ho => ?_) fun _ _ _ => trivial
      obtain ⟨K', -, fits', ho⟩ := ho
      let fresh := n.child s o
      have own : fresh.strategies.Stays σ.furnishing :=
        ⟨fun c hc => hn.registered c (Registrations.mem_of_mem_below hc), hn.defaults, hn.service,
          hn.instances⟩
      have all : (keep (at_ ++ [s.canonical]) fresh a.children).1.strategies.Stays σ.furnishing ∧
          ∀ c ∈ (keep (at_ ++ [s.canonical]) fresh a.children).2,
            c.2.strategies.Stays σ.furnishing :=
        forall_keep (P := fun _ m => m.strategies.Stays σ.furnishing) own kept
      have wrapped : K' (keep (at_ ++ [s.canonical]) fresh a.children).1.wrapped := by
        rw [wrapped_keep]
        exact ho o rfl
      exact ih wrapped all.1 all.2 fits' _

/-- Whatever an accessor keeps and has registered: a probe for reading says yes exactly where
the path can be resolved, and a probe for writing or for the type says no only where the
operations fail. -/
theorem probes_tell (hσ : σ.Honest) (answers : σ.Answers)
    (strategies : ∀ n ∈ a.nodes, n.strategies.Stays σ.furnishing) {K : ObjectRef → Prop}
    (fits : h.Furnished σ K) (known : K a.node.wrapped) (path : String) :
    (on (isReadable σ path) a h).1.1 = verdict (on (resolve σ path) a h).1.1 ∧
      ((on (isWritable σ path) a h).1.1 = .ok false →
        ∀ raw, ∃ e, (on (apply σ path raw) a h).1.1 = .error e) ∧
      ((on (typeAt? σ path) a h).1.1 = .ok none →
        (∃ e, (on (resolve σ path) a h).1.1 = .error e) ∧
          ∀ raw, ∃ e, (on (apply σ path raw) a h).1.1 = .error e) := by
  refine ⟨isReadable_eq fun n name b g found readable shown => ?_, exists_error_of_isWritable,
    exists_error_of_typeAt?⟩
  cases read : Path.parse path with
  | error fault =>
    rw [located, parsed, read] at found
    cases found
  | ok p =>
    have reached := ends_reach_furnished hσ known (strategies _ List.mem_cons_self)
      (fun c hc => strategies _ (mem_nodes_of_mem_children hc)) fits [] p.segments
    obtain ⟨K', fits', known'⟩ :=
      (Walk.ends_follow.2 reached).of_ok (followed_of_located read found)
    exact Node.exists_of_readable answers fits' known' readable shown

end Accessor

/-! A lamp whose code is set as `code` and read as `serial`. -/

namespace Lamp

def serial : Getter := fun o => do
  match ← Run.lookup (·.slot? o.loc 0) with
  | some v => return v
  | none => throw (.failed "there is no code")

def decl : ClassDecl :=
  ⟨"demo.Lamp", [], none, [⟨"code", .text, .writeOnly⟩], [⟨"serial", .text, some serial, none⟩],
    false, .plain, none⟩

def schema : Schema := Schema.empty.declareClass decl

def heap : Heap := ⟨#[.slots [("code", .text "L1")]]⟩

def lamp : ObjectRef := ⟨0, 0⟩

def strategies : Strategies := ⟨.empty, .standard, none⟩

def accessor : Accessor := .rooted strategies .standard lamp

variable {K : ObjectRef → Prop} {o : ObjectRef} {p : PropertyDecl} {h : Heap}

theorem eq_of_hasProperty (has : schema.HasProperty o.cls p) :
    o.cls = 0 ∧ p = ⟨"serial", .text, some serial, none⟩ := by
  obtain ⟨l, hl, own⟩ := has
  have levels : schema.levels o.cls = if o.cls = 0 then [⟨o.cls, decl, []⟩] else [] := rfl
  rw [levels] at hl
  split at hl
  · rename_i first
    obtain rfl := List.mem_singleton.1 hl
    exact ⟨first, List.mem_singleton.1 own⟩
  · cases hl

theorem exists_serial (fits : h.Furnished schema K) (known : K o) (cls : o.cls = 0) :
    ∃ v, (serial o).on h = (.ok v, h) ∧ v.Known K := by
  have inside : 0 < (schema.layout o.cls).length := by
    rw [cls]
    decide
  obtain ⟨v, code, hv⟩ := fits.slot? known inside
  refine ⟨v, ?_, hv⟩
  have looked : (Run.lookup (·.slot? o.loc 0) : Run PropertyFault _).on h = (.ok (some v), h) := by
    rw [← code]
    rfl
  rw [serial, Run.on_bind_of_ok looked]
  rfl

theorem answers : schema.Answers := by
  intro o p g has getter K h fits known
  obtain ⟨cls, rfl⟩ := eq_of_hasProperty has
  obtain rfl := Option.some.inj getter
  obtain ⟨v, got, -⟩ := exists_serial fits known cls
  exact ⟨v, h, got⟩

theorem honest : schema.Honest where
  initializer c d run declared initialized := by
    obtain rfl := List.mem_singleton.1 (Schema.mem_of_class? declared)
    cases initialized
  fromText K c text make made := by
    rw [Schema.fromText?] at made
    cases declared : schema.class? c with
    | none =>
      rw [declared] at made
      cases made
    | some d =>
      obtain rfl := List.mem_singleton.1 (Schema.mem_of_class? declared)
      rw [declared] at made
      cases made
  getter o p g has getter K known h fits := by
    obtain ⟨cls, rfl⟩ := eq_of_hasProperty has
    obtain rfl := Option.some.inj getter
    obtain ⟨v, got, hv⟩ := exists_serial fits known cls
    exact .intro got ⟨K, fun _ => id, fits, hv⟩
  setter o p s has setter := by
    obtain ⟨-, rfl⟩ := eq_of_hasProperty has
    cases setter

theorem furnished : heap.Furnished schema (· = lamp) where
  slots := by
    rintro o rfl
    exact ⟨_, rfl, rfl⟩
  known l c cell v hv := by
    obtain rfl : l = 0 := Nat.lt_one_iff.1 (Heap.lt_size_of_cell? cell)
    obtain rfl := Option.some.inj cell
    obtain rfl := List.mem_singleton.1 hv
    exact .scalar rfl

end Lamp

namespace Accessor

theorem probes_tell_lamp :
    (∃ v, (on (resolve Lamp.schema "serial") Lamp.accessor Lamp.heap).1.1 = .ok v) ∧
      (∀ raw, ∃ e, (on (apply Lamp.schema "serial" raw) Lamp.accessor Lamp.heap).1.1 = .error e) ∧
      (∃ e, (on (resolve Lamp.schema "code") Lamp.accessor Lamp.heap).1.1 = .error e) ∧
      (∃ e, (on (resolve Lamp.schema "cord") Lamp.accessor Lamp.heap).1.1 = .error e) ∧
      ∀ raw, ∃ e, (on (apply Lamp.schema "cord" raw) Lamp.accessor Lamp.heap).1.1 = .error e := by
  have own : ∀ n ∈ Lamp.accessor.nodes, n.strategies.Stays Lamp.schema.furnishing := fun n hn => by
    obtain rfl := List.mem_singleton.1 hn
    exact Strategies.stays_standard _
  have told (path : String) := probes_tell Lamp.honest Lamp.answers own Lamp.furnished rfl path
  have readable : (on (isReadable Lamp.schema "serial") Lamp.accessor Lamp.heap).1.1 =
      .ok true := by decide +kernel
  have unwritable : (on (isWritable Lamp.schema "serial") Lamp.accessor Lamp.heap).1.1 =
      .ok false := by decide +kernel
  have unreadable : (on (isReadable Lamp.schema "code") Lamp.accessor Lamp.heap).1.1 =
      .ok false := by decide +kernel
  have unknown : (on (typeAt? Lamp.schema "cord") Lamp.accessor Lamp.heap).1.1 = .ok none := by
    decide +kernel
  obtain ⟨serial, refused, -⟩ := told "serial"
  obtain ⟨code, -⟩ := told "code"
  obtain ⟨-, -, missing⟩ := told "cord"
  exact ⟨verdict_eq_true_iff.1 (serial.symm.trans readable), refused unwritable,
    exists_error_of_verdict (code.symm.trans unreadable), missing unknown⟩

end Accessor

end PropertyAccess
