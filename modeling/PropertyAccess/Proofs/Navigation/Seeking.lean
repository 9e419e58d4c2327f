import PropertyAccess.Proofs.Navigation.Consulted
import PropertyAccess.Proofs.Navigation.Uniform

/-! Following a path without keeping nodes. An accessor whose registrations were set before
anything was kept reads and writes as if it kept nothing, and such reads and writes do the same
on alike graphs. -/

namespace PropertyAccess

variable {σ : Schema} {N : Names} {v w : Value}

namespace Node

def seek (σ : Schema) (n : Node) : List Segment → Run PathError (Node × Place)
  | [] => throw (.notReadable (n.rootName σ) n.nestedPath)
  | [s] => return (n, Place.ofSegment s)
  | s :: next :: rest => do
    let o ← n.enter σ (Place.ofSegment s)
    seek σ (n.child s o) (next :: rest)

def fetch (σ : Schema) (r : Node) (path : String) : Run PathError Value :=
  match Path.parse path with
  | .error e => throw (.malformedPath e)
  | .ok p => do
    let found ← r.seek σ p.segments
    found.1.read σ found.2.canonical found.2

def assign (σ : Schema) (r : Node) (path : String) (raw : Value) : Run PathError Unit :=
  match Path.parse path with
  | .error e => throw (.malformedPath e)
  | .ok p => do
    match ← Run.outcome (r.seek σ p.segments) with
    | .ok (n, place) => n.write σ place raw
    | .error e => throw (e.whileWriting (r.rootName σ) (r.fullPath p.canonical))

theorem on_fetch {path : String} {p : Path} (read : Path.parse path = .ok p) (r : Node)
    (h : Heap) :
    (r.fetch σ path).on h =
      match (r.seek σ p.segments).on h with
      | (.ok (n, place), g) => (n.read σ place.canonical place).on g
      | (.error e, g) => (.error e, g) := by
  rw [fetch, read]
  dsimp only
  rw [Run.on_bind]
  rcases (r.seek σ p.segments).on h with ⟨_ | ⟨n, place⟩, g⟩ <;> rfl

theorem on_assign {path : String} {p : Path} (read : Path.parse path = .ok p) (r : Node)
    (raw : Value) (h : Heap) :
    (r.assign σ path raw).on h =
      match (r.seek σ p.segments).on h with
      | (.ok (n, place), g) => (n.write σ place raw).on g
      | (.error e, g) =>
        (.error (e.whileWriting (r.rootName σ) (r.fullPath p.canonical)), g) := by
  rw [assign, read]
  dsimp only
  rw [Run.on_bind, Run.on_outcome]
  rcases (r.seek σ p.segments).on h with ⟨_ | ⟨n, place⟩, g⟩ <;> rfl

end Node

namespace Accessor

variable {r n : Node} {at_ : List String} {a : Accessor}

theorem on_reach (ha : Of r a) (hn : r.Met at_ n) {segments : List Segment}
    (hs : ∀ s ∈ segments, s.Readable) (h : Heap) :
    ∃ a', on (reach σ at_ n segments) a h =
      ((((n.seek σ segments).on h).1, a'), ((n.seek σ segments).on h).2) ∧ Of r a' := by
  induction segments generalizing at_ n a h with
  | nil => exact ⟨a, rfl, ha⟩
  | cons s rest ih =>
    cases rest with
    | nil => exact ⟨a, rfl, ha⟩
    | cons next rest =>
      rw [List.forall_mem_cons] at hs
      have entered := (Walk.ends_enter σ (at_ ++ [s.canonical]) n s).1
        (Walk.ends_on (enter σ _ n s) a h)
      rcases ho : (n.enter σ (Place.ofSegment s)).on h with ⟨_ | o, h'⟩
      · rw [reach, Walk.on_bind, entered.of_error ho, Node.seek, Run.on_bind_of_error ho]
        exact ⟨a, rfl, ha⟩
      · -- A kept node is the one that would be made.
        obtain ⟨same, kept⟩ := keep_met ha.kept (hn.child hs.1 o)
        have run := entered.of_ok ho
        rw [same] at run
        rw [reach, Walk.on_bind, run, Node.seek, Run.on_bind_of_ok ho]
        have after : Of r ⟨a.node, (keep (at_ ++ [s.canonical]) (n.child s o) a.children).2⟩ :=
          ⟨ha.node, kept⟩
        exact ih after (hn.child hs.1 o) hs.2 h'

theorem on_follow_of (ha : Of r a) {p : Path} (hs : ∀ s ∈ p.segments, s.Readable) (h : Heap) :
    ∃ a', on (follow σ p) a h =
      ((((r.seek σ p.segments).on h).1, a'), ((r.seek σ p.segments).on h).2) ∧ Of r a' := by
  obtain ⟨a', reached, ha'⟩ := on_reach (σ := σ) ha .top hs h
  refine ⟨a', ?_, ha'⟩
  rw [← reached, ← ha.node]
  rfl

theorem on_resolve_of (ha : Of r a) (path : String) (h : Heap) :
    ∃ a', on (resolve σ path) a h =
      ((((r.fetch σ path).on h).1, a'), ((r.fetch σ path).on h).2) ∧ Of r a' := by
  cases read : Path.parse path with
  | error e =>
    refine ⟨a, ?_, ha⟩
    rw [Node.fetch, read, resolve, parsed, read]
    rfl
  | ok p =>
    obtain ⟨a', followed, ha'⟩ := on_follow_of (σ := σ) ha (Path.readable_of_parse read).2 h
    have start : on (pure p) a h = ((.ok p, a), h) := rfl
    refine ⟨a', ?_, ha'⟩
    rw [resolve, parsed_eq read, Walk.on_bind, start]
    dsimp only
    rw [Walk.on_bind, followed, Node.on_fetch read]
    rcases (r.seek σ p.segments).on h with ⟨_ | ⟨n, place⟩, h'⟩ <;> rfl

theorem on_apply_of (ha : Of r a) (path : String) (raw : Value) (h : Heap) :
    ∃ a', on (apply σ path raw) a h =
      ((((r.assign σ path raw).on h).1, a'), ((r.assign σ path raw).on h).2) ∧ Of r a' := by
  cases read : Path.parse path with
  | error e =>
    refine ⟨a, ?_, ha⟩
    rw [Node.assign, read, apply, parsed, read]
    rfl
  | ok p =>
    obtain ⟨a', followed, ha'⟩ := on_follow_of (σ := σ) ha (Path.readable_of_parse read).2 h
    refine ⟨a', ?_, ha'⟩
    rw [on_apply read, followed, Node.on_assign read, ha.node]
    rcases (r.seek σ p.segments).on h with ⟨_ | ⟨n, place⟩, h'⟩ <;> rfl

end Accessor

instance : Likened Place := .plain _

instance : Likened Node :=
  ⟨fun N n m => Like N n.wrapped m.wrapped ∧ m = n.wrapping m.wrapped,
    fun later h => ⟨Likened.mono later h.1, h.2⟩⟩

theorem PathError.alike_whileWriting (root path : String) {e f : PathError} (he : Like N e f) :
    Like N (e.whileWriting root path) (f.whileWriting root path) := by
  cases he with
  | conversion he => exact .conversion he
  | same _ other =>
    cases e with
    | conversion => exact (other rfl).elim
    | _ => exact .same _ nofun

namespace Node

variable {n : Node} (fields : ∀ d ∈ σ.classes, d.properties = []) (hσ : σ.Uniform)
  (hn : n.Uniform σ)

include hn in
theorem gives_seek (segments : List Segment) :
    (n.seek σ segments).Gives fun found => found.1.Uniform σ := by
  induction segments generalizing n with
  | nil => exact .throw _
  | cons s rest ih =>
    cases rest with
    | nil => exact .pure hn
    | cons next rest => exact .after fun o => ih (hn.child s o)

include fields hσ hn in
theorem alike_seek {o : ObjectRef} (ho : Like N n.wrapped o) (segments : List Segment) :
    (n.seek σ segments).Alike N ((n.wrapping o).seek σ segments) := by
  induction segments generalizing n o N with
  | nil => exact .throw (.same _ nofun)
  | cons s rest ih =>
    cases rest with
    | nil => exact .pure ⟨⟨ho, rfl⟩, rfl⟩
    | cons next rest =>
      exact (alike_enter fields hσ hn ho _).bind fun N' p q _ hp => ih (hn.child s p) hp

include fields hσ hn in
theorem alike_fetch (known : Like N n.wrapped n.wrapped) (path : String) :
    (n.fetch σ path).Alike N (n.fetch σ path) := by
  unfold fetch
  split
  · exact .throw (.same _ nofun)
  · refine (alike_seek fields hσ hn known _).bind_gives (gives_seek hn _)
      fun N' found found' later hf uniform => ?_
    obtain ⟨⟨hm, rest⟩, place⟩ := hf
    rw [rest, place]
    exact alike_read fields hσ uniform hm _ _

include fields hσ hn in
theorem alike_assign (known : Like N n.wrapped n.wrapped) (path : String) (hv : Like N v w) :
    (n.assign σ path v).Alike N (n.assign σ path w) := by
  unfold assign
  split
  · exact .throw (.same _ nofun)
  · refine (alike_seek fields hσ hn known _).outcome.bind_gives (gives_seek hn _).outcome
      fun N' found found' later hf uniform => ?_
    cases hf with
    | error he => exact .throw (PathError.alike_whileWriting _ _ he)
    | @ok x y hf =>
      obtain ⟨m, place⟩ := x
      obtain ⟨m', place'⟩ := y
      obtain ⟨⟨hm, rest⟩, rfl⟩ := hf
      dsimp only at hm rest ⊢
      rw [rest]
      exact alike_write fields hσ (uniform _ rfl) hm place (Likened.mono later hv)

end Node

end PropertyAccess
