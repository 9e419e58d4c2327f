import PropertyAccess.Proofs.Navigation.Recorded

/-! From places to calls. What reading, entering and writing the places of a node keeps is kept
by all that is done with an accessor: a call goes from node to node, and the nodes that it
makes are like those it comes from. A condition on nodes may speak of the segments on the way
to them, and one on the graph of the arrays that have been put down. -/

namespace PropertyAccess

variable {σ : Schema} {N : List String → Node → Prop} {I : List Loc → Heap → Prop} {α β : Type}

structure Accessor.Throughout (N : List String → Node → Prop) (a : Accessor) : Prop where
  node : N [] a.node
  kept : ∀ c ∈ a.children, N c.1 c.2

structure Recording.Sound (N : List String → Node → Prop) (I : List Loc → Heap → Prop)
    (s : Recording) : Prop where
  nodes : s.accessor.Throughout N
  graph : I s.grown s.heap

namespace Recorded

def Keeps (N : List String → Node → Prop) (I : List Loc → Heap → Prop) (w : Recorded α)
    (P : α → Prop) : Prop :=
  ∀ s, s.Sound N I → (w.on s).2.Sound N I ∧ ∀ x, (w.on s).1 = .ok x → P x

namespace Keeps

variable {w : Recorded α} {P : α → Prop} {Q : β → Prop}

theorem pure {x : α} (hx : P x) : Keeps N I (Pure.pure x : Recorded α) P :=
  fun _ hs => ⟨hs, fun _ same => Except.ok.inj same ▸ hx⟩

theorem throw (e : PathError) : Keeps N I (MonadExcept.throw e : Recorded α) P :=
  fun _ hs => ⟨hs, nofun⟩

theorem bind {f : α → Recorded β} (hw : Keeps N I w P) (hf : ∀ x, P x → Keeps N I (f x) Q) :
    Keeps N I (w >>= f) Q := by
  intro s hs
  obtain ⟨sound, result⟩ := hw s hs
  rw [on_bind]
  rcases ran : w.on s with ⟨e | x, t⟩ <;> rw [ran] at sound result
  · exact ⟨sound, nofun⟩
  · exact hf x (result x rfl) t sound

theorem mapError (f : PathError → PathError) (hw : Keeps N I w P) :
    Keeps N I (Recorded.mapError f w) P := by
  intro s hs
  obtain ⟨sound, result⟩ := hw s hs
  refine ⟨sound, fun x ran => result x ?_⟩
  have unfolded : ((Recorded.mapError f w).on s).1 = (w.on s).1.mapError f := rfl
  rw [unfolded] at ran
  cases own : (w.on s).1 <;> simp_all [Except.mapError]

theorem outcome (hw : Keeps N I w P) :
    Keeps N I (Recorded.outcome w) fun result => ∀ x, result = .ok x → P x := by
  intro s hs
  obtain ⟨sound, result⟩ := hw s hs
  refine ⟨sound, fun _ same => ?_⟩
  cases same
  exact result

theorem attempt (hw : Keeps N I w P) :
    Keeps N I (Recorded.attempt w) fun result => ∀ x, result = some x → P x := by
  refine hw.outcome.bind fun result hx => ?_
  rcases result with e | x
  · cases e with
    | endless => exact .throw _
    | _ => exact .pure nofun
  · exact .pure fun _ same => hx _ (congrArg Except.ok (Option.some.inj same))

theorem get : Keeps N I (walk MonadState.get) (Accessor.Throughout N) :=
  fun _ hs => ⟨hs, fun _ same => Except.ok.inj same ▸ hs.nodes⟩

theorem run {r : Run PathError α} (hr : ∀ grown h, I grown h → I grown (r.on h).2) :
    Keeps N I (Recorded.run r) fun _ => True :=
  fun s hs => ⟨⟨hs.nodes, hr s.grown s.heap hs.graph⟩, fun _ _ => trivial⟩

theorem parsed (path : String) : Keeps N I (walk (Accessor.parsed path)) fun _ => True := by
  unfold Accessor.parsed
  split
  · exact fun _ hs => ⟨hs, fun _ _ => trivial⟩
  · exact fun _ hs => ⟨hs, fun _ _ => trivial⟩

theorem of_tells {r : Run PathError α} (hw : Tells w (Accessor.lift r)) :
    Keeps N (fun _ _ => True) w fun _ => True := by
  intro s hs
  obtain ⟨grown, same⟩ := hw s
  rw [same]
  exact ⟨⟨hs.nodes, trivial⟩, fun _ _ => trivial⟩

end Keeps

/-- Going on from a node with `N`, one comes to such a node, and what is done at its places
keeps all that is sound. -/
structure Upholds (σ : Schema) (N : List String → Node → Prop) (I : List Loc → Heap → Prop) :
    Prop where
  child : ∀ {at_ n}, N at_ n → ∀ s o, N (at_ ++ [s.canonical]) (n.child s o)
  read : ∀ {at_ n}, N at_ n → ∀ shown p, Keeps N I (read σ n shown p) fun _ => True
  write : ∀ {at_ n}, N at_ n → ∀ p raw, Keeps N I (write σ n p raw) fun _ => True
  enter : ∀ {at_ n}, N at_ n → ∀ p, Keeps N I (enter σ n p) fun _ => True
  convert : ∀ {at_ n}, N at_ n → ∀ required v grown h, I grown h →
    I grown ((n.strategies.convert σ required none v).on h).2

/-- A condition on nodes alone need only be handed on. -/
theorem upholds_of_child
    (child : ∀ {at_ n}, N at_ n → ∀ s o, N (at_ ++ [s.canonical]) (n.child s o)) :
    Upholds σ N fun _ _ => True where
  child := child
  read _ shown p := .of_tells ((tells_read_write σ _ p).1 shown)
  write _ p raw := .of_tells ((tells_read_write σ _ p).2 raw)
  enter _ p := .of_tells (tells_enter σ _ p)
  convert _ _ _ _ _ _ := trivial

section Calls

variable (hN : Upholds σ N I)
include hN

theorem keeps_advance {at_ : List String} {n : Node} (hn : N at_ n) (s : Segment) :
    Keeps N I (advance σ (at_ ++ [s.canonical]) n s) (N (at_ ++ [s.canonical])) := by
  refine (hN.enter hn _).bind fun o _ t ht => ?_
  have all := Accessor.forall_keep (P := N) (hN.child hn s o) ht.nodes.kept
  exact ⟨⟨⟨ht.nodes.node, all.2⟩, ht.graph⟩, fun _ same => Except.ok.inj same ▸ all.1⟩

theorem keeps_reach {at_ : List String} {n : Node} (hn : N at_ n) (segments : List Segment) :
    Keeps N I (reach σ at_ n segments)
      fun r => N (at_ ++ segments.dropLast.map Segment.canonical) r.1 := by
  induction segments generalizing at_ n with
  | nil => exact .throw _
  | cons s rest ih =>
    cases rest with
    | nil => exact .pure (by simpa using hn)
    | cons next rest =>
      refine (keeps_advance hN hn s).bind fun m hm => ?_
      simpa using ih hm

theorem keeps_follow (p : Path) :
    Keeps N I (follow σ p) fun r => N (p.segments.dropLast.map Segment.canonical) r.1 :=
  Keeps.get.bind fun _ ha => keeps_reach hN ha.node p.segments

theorem keeps_follow_parsed (path : String) :
    Keeps N I (do follow σ (← walk (Accessor.parsed path))) fun r => ∃ at_, N at_ r.1 :=
  (Keeps.parsed path).bind fun p _ s hs =>
    ((keeps_follow hN p) s hs).imp_right fun result x ran => ⟨_, result x ran⟩

theorem keeps_resolve (path : String) : Keeps N I (resolve σ path) fun _ => True :=
  (Keeps.parsed path).bind fun p _ => (keeps_follow hN p).bind fun _ hr => hN.read hr _ _

theorem keeps_apply (path : String) (raw : Value) : Keeps N I (apply σ path raw) fun _ => True := by
  refine (Keeps.parsed path).bind fun p _ => Keeps.get.bind fun a _ => ?_
  refine (keeps_follow hN p).outcome.bind fun found hfound => ?_
  split
  · exact hN.write (hfound _ rfl) _ _
  · exact .throw _

theorem keeps_isReadable (path : String) : Keeps N I (isReadable σ path) fun _ => True := by
  refine (keeps_follow_parsed hN path).attempt.bind fun found hfound => ?_
  split
  · exact .pure trivial
  · exact .pure trivial
  · obtain ⟨at_, hn⟩ := hfound _ rfl
    exact (hN.read hn _ _).attempt.bind fun _ _ => .pure trivial

theorem keeps_isWritable (path : String) : Keeps N I (isWritable σ path) fun _ => True := by
  refine (keeps_follow_parsed hN path).attempt.bind fun found hfound => ?_
  split
  · exact .pure trivial
  · exact .pure trivial
  · obtain ⟨at_, hn⟩ := hfound _ rfl
    refine (hN.read hn _ _).attempt.bind fun container _ => ?_
    cases container <;> exact .pure trivial

theorem keeps_typeAt? (path : String) : Keeps N I (typeAt? σ path) fun _ => True := by
  refine (keeps_follow_parsed hN path).attempt.bind fun found _ => ?_
  cases found <;> exact .pure trivial

theorem keeps_applyAll (o : BatchOptions) (b : Batch) (failures : List (String × PathError)) :
    Keeps N I (applyAll σ o b failures) fun _ => True := by
  induction b generalizing failures with
  | nil => cases failures <;> exact .pure trivial
  | cons v vs ih =>
    refine (keeps_apply hN v.path v.value).outcome.bind fun written _ => ?_
    cases written with
    | ok => exact ih failures
    | error e =>
      dsimp only
      cases o.verdict v.optional e with
      | skip => exact ih failures
      | collect => exact ih _
      | stop => exact .pure trivial

theorem keeps_convert (v : Value) (required : Ty) :
    Keeps N I (convert σ v required) fun _ => True := by
  refine Keeps.get.bind fun a ha => .run fun grown h hi => ?_
  rw [Run.on_mapError]
  exact hN.convert ha.node required v grown h hi

/-- Whatever is asked for, and whether it succeeds or fails. -/
theorem keeps_call (call : Call) : Keeps N I (call.recorded σ) fun _ => True := by
  have done {α : Type} {w : Recorded α} {f : α → Answer} (hw : Keeps N I w fun _ => True) :
      Keeps N I (w >>= fun x => pure (f x)) fun _ => True := hw.bind fun _ _ => .pure trivial
  cases call with
  | resolve path => exact done (keeps_resolve hN path)
  | apply path raw => exact done (keeps_apply hN path raw)
  | applyBatch options batch => exact done (keeps_applyAll hN options batch [])
  | isReadable path => exact done (keeps_isReadable hN path)
  | isWritable path => exact done (keeps_isWritable hN path)
  | typeAt path => exact done (keeps_typeAt? hN path)
  | convert v required => exact done (keeps_convert hN v required)

end Calls

end Recorded

/-- What happens to an accessor at any time: it is used, or something is set. -/
inductive Incident
  | event (e : Event)
  | setting (s : Setting)

def Incident.on (σ : Schema) : Accessor × Heap → Incident → Accessor × Heap
  | s, .event e => e.on σ s
  | (a, h), .setting s => (s.on a, h)

namespace Incident

def config (c : AccessConfig) : Incident → AccessConfig
  | .event e => e.config c
  | .setting (.growing growing limit) => { c with growing, limit }
  | .setting _ => c

/-- What becomes of a node for which it is set. -/
def node (n : Node) : Incident → Node
  | .event e => { n with config := e.config n.config }
  | .setting (.register type path c) =>
    match n.strategies.registered.register type path c with
    | .ok registered => { n with strategies := { n.strategies with registered } }
    | .error _ => n
  | .setting (.service service) => { n with strategies := { n.strategies with service } }
  | .setting (.growing growing limit) => { n with config := { n.config with growing, limit } }

theorem exists_node_eq (n : Node) (i : Incident) : ∃ strategies,
    i.node n = { n with config := i.config n.config, strategies } := by
  rcases i with e | s
  · exact ⟨_, rfl⟩
  · cases s with
    | register type path c =>
      unfold node
      dsimp only
      split <;> exact ⟨_, rfl⟩
    | _ => exact ⟨_, rfl⟩

end Incident

namespace Accessor

variable {a : Accessor}

theorem Throughout.follow (ha : a.Throughout N)
    (child : ∀ {at_ n}, N at_ n → ∀ s o, N (at_ ++ [s.canonical]) (n.child s o)) {p : Path}
    {h g : Heap} {b : Accessor} {r : Node × Place}
    (followed : on (follow σ p) a h = ((.ok r, b), g)) :
    N (p.segments.dropLast.map Segment.canonical) r.1 := by
  obtain ⟨grown, same⟩ := Recorded.tells_follow (σ := σ) p ⟨a, h, []⟩
  have kept := Recorded.keeps_follow (σ := σ) (I := fun _ _ => True)
    (Recorded.upholds_of_child child) p ⟨a, h, []⟩ ⟨ha, trivial⟩
  rw [same, followed] at kept
  exact kept.2 r rfl

theorem Throughout.call (ha : a.Throughout N)
    (child : ∀ {at_ n}, N at_ n → ∀ s o, N (at_ ++ [s.canonical]) (n.child s o)) (call : Call)
    (h : Heap) : (on (call.walk σ) a h).1.2.Throughout N := by
  obtain ⟨grown, same⟩ := Recorded.tells_call (σ := σ) call ⟨a, h, []⟩
  have kept := Recorded.keeps_call (σ := σ) (I := fun _ _ => True)
    (Recorded.upholds_of_child child) call ⟨a, h, []⟩ ⟨ha, trivial⟩
  rw [same] at kept
  exact kept.1.nodes

variable {M : List String → Node → Prop}

theorem Throughout.withGrowing (ha : a.Throughout N) {growing : Bool} {limit : Nat}
    (set : ∀ {at_ n}, N at_ n → M at_ { n with config := { n.config with growing, limit } }) :
    (a.withGrowing growing limit).Throughout M := by
  refine ⟨set ha.node, fun c hc => ?_⟩
  obtain ⟨d, hd, rfl⟩ := List.mem_map.1 hc
  exact set (ha.kept d hd)

theorem Throughout.of_nodes {P : Node → Prop} (nodes : ∀ n ∈ a.nodes, P n) :
    a.Throughout fun _ => P :=
  ⟨nodes _ List.mem_cons_self, fun _ hc => nodes _ (mem_nodes_of_mem_children hc)⟩

theorem Throughout.mono (ha : a.Throughout N) (later : ∀ {at_ n}, N at_ n → M at_ n) :
    a.Throughout M := ⟨later ha.node, fun c hc => later (ha.kept c hc)⟩

/-- Growing is set for all nodes that are kept, converters and the service for the first one. -/
theorem Throughout.incident (ha : a.Throughout N)
    (child : ∀ {at_ n}, N at_ n → ∀ s o, N (at_ ++ [s.canonical]) (n.child s o)) (i : Incident)
    (set : ∀ {at_ n}, N at_ n → M at_ (i.node n))
    (left : (∀ c, i.config c = c) → ∀ {at_ n}, N at_ n → M at_ n) (h : Heap) :
    (i.on σ (a, h)).1.Throughout M := by
  rcases i with e | s
  · cases e with
    | call c => exact (ha.call (σ := σ) child c h).mono (left fun _ => rfl)
    | growing => exact ha.withGrowing set
    | outside => exact ha.mono (left fun _ => rfl)
  · cases s with
    | register type path c =>
      -- What is kept has its own converters, and gets no others.
      have own := set ha.node
      have kept := (ha.mono (left fun _ => rfl)).kept
      cases registered : a.node.strategies.registered.register type path c with
      | ok =>
        simp only [Incident.node, registered] at own
        simpa [Incident.on, Setting.on, Accessor.register, registered, Except.map] using
          (⟨own, kept⟩ : Throughout M { a with node := _ })
      | error =>
        simp only [Incident.node, registered] at own
        simpa [Incident.on, Setting.on, Accessor.register, registered, Except.map] using
          (⟨own, kept⟩ : a.Throughout M)
    | service => exact ⟨set ha.node, (ha.mono (left fun _ => rfl)).kept⟩
    | growing => exact ha.withGrowing set

/-- What every incident keeps of the nodes is true of them after any history. It may speak of the
configuration, which is that of the first node throughout. -/
theorem Throughout.incidents {N : AccessConfig → List String → Node → Prop} {A : Incident → Prop}
    (child : ∀ {c at_ n}, N c at_ n → ∀ s o, N c (at_ ++ [s.canonical]) (n.child s o))
    (set : ∀ {c at_ n i}, A i → N c at_ n → N (i.config c) at_ (i.node n))
    (incidents : List Incident) (allowed : ∀ i ∈ incidents, A i) {c : AccessConfig}
    (ha : a.Throughout (N c)) (h : Heap) :
    (incidents.foldl (Incident.on σ) (a, h)).1.Throughout
      (N (incidents.foldl Incident.config c)) := by
  induction incidents generalizing a c h with
  | nil => exact ha
  | cons i rest ih =>
    refine ih (fun j hj => allowed j (List.mem_cons_of_mem _ hj)) ?_ _
    exact ha.incident child i (set (allowed i List.mem_cons_self))
      (fun same _ _ hn => (same c).symm ▸ hn) h

/-- All nodes go by the same configuration, whatever is set and when. -/
theorem Throughout.configured (alike : ∀ n ∈ a.nodes, n.config = a.node.config)
    (incidents : List Incident) (h : Heap) :
    (incidents.foldl (Incident.on σ) (a, h)).1.Throughout fun _ n =>
      n.config = incidents.foldl Incident.config a.node.config :=
  Throughout.incidents (N := fun c _ n => n.config = c) (A := fun _ => True) (fun hn _ _ => hn)
    (fun _ hn => by
      obtain ⟨_, same⟩ := Incident.exists_node_eq _ _
      rw [same, hn])
    incidents (fun _ _ => trivial) (.of_nodes alike) h

end Accessor

end PropertyAccess
