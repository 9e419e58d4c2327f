import PropertyAccess.Proofs.Navigation.Inside
import PropertyAccess.Proofs.Navigation.Rebased

/-! Paths put together. Resolving or writing at a path that goes on from another path does what
a new accessor does at the rest of it, over the object that the other path leads to: it is the
same walk, and each failure is reported from the root of the whole path. -/

namespace PropertyAccess

theorem joined_append {outer rest : List Segment} (ho : outer ≠ []) (hr : rest ≠ []) :
    joined (outer ++ rest) = joined outer ++ "." ++ joined rest := by
  induction outer with
  | nil => exact absurd rfl ho
  | cons s outer ih =>
    cases outer with
    | nil => exact joined_cons s hr
    | cons t outer =>
      rw [List.cons_append, joined_cons s (by simp), ih (by simp), joined_cons s (by simp)]
      simp only [String.append_assoc]

theorem Path.parse_append {outer inner : String} {p q : Path} (hp : parse outer = .ok p)
    (hq : parse inner = .ok q) :
    parse (p.canonical ++ "." ++ q.canonical) = .ok ⟨p.segments ++ q.segments⟩ := by
  have before := readable_of_parse hp
  have after := readable_of_parse hq
  rw [canonical, canonical, ← joined_append before.1 after.1]
  refine Readable.parse_joined ⟨by simp [before.1], fun s there => ?_⟩
  exact (List.mem_append.1 there).elim (before.2 s) (after.2 s)

/-- What comes out further up, where it came out so further down: the corresponding result, or
a failure of the same kind, whose path goes on from `front`. -/
inductive Carried {α : Type} (R : α → α → Prop) (front : String) :
    Except PathError α → Except PathError α → Prop
  | ok {x y : α} (h : R x y) : Carried R front (.ok x) (.ok y)
  | error {e f : PathError} (kind : f.kind = e.kind) (path : f.path? = e.path?.map (front ++ ·)) :
    Carried R front (.error e) (.error f)

namespace Carried

variable {α : Type} {front : String}

theorem rebased (root front : String) (result : Except PathError α) :
    Carried Eq front result (result.mapError (PathError.rebased root front)) := by
  cases result with
  | ok a => exact .ok rfl
  | error e => exact .error (e.kind_rebased root front) (e.path?_rebased root front)

theorem whileWriting {R : α → α → Prop} (below above front path : String) (e : PathError) :
    Carried R front (.error (e.whileWriting below path))
      (.error ((e.rebased above front).whileWriting above (front ++ path))) := by
  cases e <;> exact .error rfl rfl

theorem of_alike [Likened α] {N : Names} {x y z : Except PathError α} (alike : Like N x y)
    (carried : Carried Eq front y z) : Carried (Like N) front x z := by
  cases alike with
  | ok same =>
    cases carried with
    | ok eq => exact .ok (eq ▸ same)
  | error same =>
    cases carried with
    | error kind path =>
      cases same with
      | same => exact .error kind path
      | conversion same =>
        refine .error kind ?_
        rw [path]
        exact congrArg (Option.map _) (ConversionError.Alike.parts same).2.2.1

end Carried

/-- What is done further up leaves the graph that it leaves further down, and what comes out
is carried. -/
structure Continues {α : Type} (front : String) (inner whole : Except PathError α × Heap) :
    Prop where
  heap : whole.2 = inner.2
  result : Carried Eq front inner.1 whole.1

/-- The same but for the names of new cells: the first `k` cells have the same names. -/
structure Mirrors {α : Type} [Likened α] (k : Nat) (front : String) (N : Names)
    (inner whole : Except PathError α × Heap) : Prop where
  named : ∀ l, l < k → N[l]? = some l
  heap : inner.2.Alike N whole.2
  result : Carried (Like N) front inner.1 whole.1

theorem Continues.mirrors {α : Type} [Likened α] {k : Nat} {front : String} {N N' : Names}
    {x y z : Except PathError α × Heap} (named : ∀ l, l < k → N[l]? = some l) (later : N <+: N')
    (alike : x.2.Alike N' y.2 ∧ Like N' x.1 y.1) (onward : Continues front y z) :
    Mirrors k front N' x z where
  named l hl := Names.getElem?_of_prefix later (named l hl)
  heap := onward.heap ▸ alike.1
  result := .of_alike alike.2 onward.result

namespace Node

variable {σ : Schema} {n r : Node} {h g : Heap} {o : ObjectRef} {text inner : String} {p q : Path}

theorem fetch_rebased (read : Path.parse text = .ok p) (root : ObjectRef) (front : String)
    (h : Heap) :
    Continues front ((n.fetch σ text).on h) (((n.rebased root front).fetch σ text).on h) := by
  rw [on_fetch read, on_fetch read, seek_rebased, Run.on_mapError, Run.on_bind]
  rcases (n.seek σ p.segments).on h with ⟨e | ⟨m, place⟩, g⟩
  · exact ⟨rfl, .rebased _ front (.error e)⟩
  · change Continues front _ (((m.rebased root front).read σ place.canonical place).on g)
    rw [(read_write_rebased place).1, Run.on_mapError]
    exact ⟨rfl, .rebased _ front _⟩

theorem assign_rebased (read : Path.parse text = .ok p) (root : ObjectRef) (front : String)
    (raw : Value) (h : Heap) :
    Continues front ((n.assign σ text raw).on h)
      (((n.rebased root front).assign σ text raw).on h) := by
  rw [on_assign read, on_assign read, seek_rebased, Run.on_mapError, Run.on_bind]
  rcases (n.seek σ p.segments).on h with ⟨e | ⟨m, place⟩, g⟩
  · refine ⟨rfl, ?_⟩
    rw [fullPath_rebased]
    exact .whileWriting _ _ front _ e
  · change Continues front _ (((m.rebased root front).write σ place raw).on g)
    rw [(read_write_rebased place).2, Run.on_mapError]
    exact ⟨rfl, .rebased _ front _⟩

theorem gives_seek_settings (none_ : n.strategies.registered = .empty) (segments : List Segment) :
    (n.seek σ segments).Gives fun found =>
      found.1.config = n.config ∧ found.1.strategies = n.strategies := by
  induction segments generalizing n with
  | nil => exact .throw _
  | cons s rest ih =>
    cases rest with
    | nil => exact .pure ⟨rfl, rfl⟩
    | cons next rest =>
      refine .after fun o => ?_
      have same : (n.child s o).strategies = n.strategies := by
        obtain ⟨wrapped, root, nestedPath, config, ⟨registered, defaults, service⟩⟩ := n
        obtain rfl : registered = .empty := none_
        rfl
      have further := ih (n := n.child s o) (by rw [same, none_])
      rw [same] at further
      exact further

theorem seek_cons (s : Segment) {rest : List Segment} (hr : rest ≠ []) :
    n.seek σ (s :: rest) = (do
      let o ← n.enter σ (Place.ofSegment s)
      (n.child s o).seek σ rest) := by
  cases rest with
  | nil => exact absurd rfl hr
  | cons => rfl

theorem seek_append (outer : List Segment) (s : Segment) (rest : List Segment) :
    n.seek σ (outer ++ s :: rest) = (do
      let found ← n.seek σ (outer ++ [s])
      found.1.seek σ (s :: rest)) := by
  induction outer generalizing n with
  | nil => rfl
  | cons t outer ih =>
    rw [List.cons_append, List.cons_append, seek_cons t (by simp), seek_cons t (by simp),
      bind_assoc]
    exact bind_congr fun o => ih

theorem gives_seek_place (outer : List Segment) (s : Segment) :
    (n.seek σ (outer ++ [s])).Gives fun found =>
      found.2 = Place.ofSegment s ∧ found.1.root = n.root ∧
        found.1.fullPath s.canonical = n.fullPath (joined (outer ++ [s])) := by
  induction outer generalizing n with
  | nil => exact .pure ⟨rfl, rfl, rfl⟩
  | cons t outer ih =>
    rw [List.cons_append, seek_cons t (by simp)]
    refine .after fun o h => (ih h).mono (fun found _ there => ?_) fun _ _ => id
    obtain ⟨place, root, path⟩ := there
    refine ⟨place, root, ?_⟩
    rw [path, joined_cons t (by simp), fullPath, fullPath, child, fullPath]
    simp only [String.append_assoc]

theorem on_enter_of_object {place : Place}
    (found : (n.read σ place.canonical place).on h = (.ok (.object o), g)) :
    (n.enter σ place).on h = (.ok o, g) := by
  rw [enter, Run.on_bind_of_ok found]
  rfl

theorem seek_from (none_ : r.strategies.registered = .empty) (read : Path.parse text = .ok p)
    (found : (r.fetch σ text).on h = (.ok (.object o), g)) {rest : List Segment}
    (further : rest ≠ []) :
    (r.seek σ (p.segments ++ rest)).on h =
      (((⟨o, o, "", r.config, r.strategies⟩ : Node).rebased r.root
        (r.fullPath p.canonical ++ ".")).seek σ rest).on g := by
  rw [on_fetch read] at found
  rcases sought : (r.seek σ p.segments).on h with ⟨e | ⟨n, place⟩, k⟩
  · rw [sought] at found
    cases found
  rw [sought] at found
  obtain ⟨outer, s, split_⟩ := Path.exists_concat (Path.readable_of_parse read).1
  rw [split_] at sought
  obtain ⟨rfl, root, path⟩ := (gives_seek_place outer s h).of_ok sought
  obtain ⟨config, strategies⟩ := (gives_seek_settings none_ _ h).of_ok sought
  have child : n.child s o = (⟨o, o, "", r.config, r.strategies⟩ : Node).rebased r.root
      (r.fullPath p.canonical ++ ".") := by
    rw [Path.canonical, split_, ← path, ← config, ← strategies, ← root]
    rw [← strategies] at none_
    obtain ⟨wrapped, root, nestedPath, config, ⟨registered, defaults, service⟩⟩ := n
    obtain rfl : registered = .empty := none_
    exact congrArg (Node.mk _ _ · _ _) String.append_empty.symm
  rw [split_, List.append_assoc, List.singleton_append, seek_append, Run.on_bind_of_ok sought,
    seek_cons s further, Run.on_bind_of_ok (on_enter_of_object found), child]

section Onward

variable (none_ : r.strategies.registered = .empty) (hp : Path.parse text = .ok p)
  (hq : Path.parse inner = .ok q) (found : (r.fetch σ text).on h = (.ok (.object o), g))

include none_ hp hq found

theorem fetch_onward :
    Continues (r.fullPath p.canonical ++ ".")
      ((fetch σ ⟨o, o, "", r.config, r.strategies⟩ inner).on g)
      ((r.fetch σ (p.canonical ++ "." ++ q.canonical)).on h) := by
  have whole : (r.fetch σ (p.canonical ++ "." ++ q.canonical)).on h =
      (((⟨o, o, "", r.config, r.strategies⟩ : Node).rebased r.root
        (r.fullPath p.canonical ++ ".")).fetch σ inner).on g := by
    rw [on_fetch (Path.parse_append hp hq), on_fetch hq,
      seek_from none_ hp found (Path.readable_of_parse hq).1]
  rw [whole]
  exact fetch_rebased hq _ _ g

theorem assign_onward (raw : Value) :
    Continues (r.fullPath p.canonical ++ ".")
      ((assign σ ⟨o, o, "", r.config, r.strategies⟩ inner raw).on g)
      ((r.assign σ (p.canonical ++ "." ++ q.canonical) raw).on h) := by
  have before := Path.readable_of_parse hp
  have after := Path.readable_of_parse hq
  have full : r.fullPath (joined (p.segments ++ q.segments)) =
      ((⟨o, o, "", r.config, r.strategies⟩ : Node).rebased r.root
        (r.fullPath p.canonical ++ ".")).fullPath q.canonical := by
    rw [joined_append before.1 after.1, fullPath_rebased]
    simp [fullPath, Path.canonical, String.append_assoc]
  have whole : (r.assign σ (p.canonical ++ "." ++ q.canonical) raw).on h =
      (((⟨o, o, "", r.config, r.strategies⟩ : Node).rebased r.root
        (r.fullPath p.canonical ++ ".")).assign σ inner raw).on g := by
    rw [on_assign (Path.parse_append hp hq), on_assign hq, seek_from none_ hp found after.1, ← full]
    rfl
  rw [whole]
  exact assign_rebased hq _ _ raw g

end Onward

end Node

namespace Accessor

def answer {α : Type} (w : Walk α) (a : Accessor) (h : Heap) : Except PathError α × Heap :=
  ((on w a h).1.1, (on w a h).2)

variable {σ : Schema} {r : Node} {a : Accessor} {h g : Heap}

theorem answer_resolve (ha : Of r a) (path : String) (h : Heap) :
    answer (resolve σ path) a h = (r.fetch σ path).on h := by
  obtain ⟨a', ran, -⟩ := on_resolve_of (σ := σ) ha path h
  rw [answer, ran]

theorem answer_apply (ha : Of r a) (path : String) (raw : Value) (h : Heap) :
    answer (apply σ path raw) a h = (r.assign σ path raw).on h := by
  obtain ⟨a', ran, -⟩ := on_apply_of (σ := σ) ha path raw h
  rw [answer, ran]

/-- Nothing grows and classes have only fields; conversions leave the graph alone and do not
tell its cells apart. -/
structure Still (σ : Schema) (S : Strategies) (config : AccessConfig) : Prop where
  growing : config.growing = false
  fields : ∀ d ∈ σ.classes, d.properties = []
  makesNew : σ.MakesNew
  uniform : σ.Uniform
  harmless : S.Harmless σ
  alike : S.Uniform σ

/-- An accessor without registrations keeps only nodes that were made with its conversions, and
a path leads from it to an object. Then a call for a path that goes on from there does what a
new accessor over the object does, on the graph as the way to the object leaves it: the value
and the graph are the same, or a failure is of the same kind, its path with that of the object
in front. Where nothing grows and conversions only convert, the way to the object changes
nothing, and the new accessor may as well be used on the graph as it was before. -/
theorem continues_of_resolve {σ : Schema} {defaults : DefaultTable}
    {service : Option ConversionService} {config : AccessConfig} {root o : ObjectRef}
    {a b : Accessor} {h g : Heap} {outer inner : String} {p q : Path}
    (kept : Of ⟨root, root, "", config, ⟨.empty, defaults, service⟩⟩ a)
    (hp : Path.parse outer = .ok p) (hq : Path.parse inner = .ok q)
    (found : on (resolve σ outer) a h = ((.ok (.object o), b), g)) :
    let new := rooted ⟨.empty, defaults, service⟩ config o
    let front := p.canonical ++ "."
    let whole := p.canonical ++ "." ++ q.canonical
    Continues front (answer (resolve σ inner) new g) (answer (resolve σ whole) a h) ∧
    (∀ raw,
      Continues front (answer (apply σ inner raw) new g) (answer (apply σ whole raw) a h)) ∧
    (Still σ ⟨.empty, defaults, service⟩ config → h.Closed (· < h.size) → root.loc < h.size →
      h.Extends g ∧
      (∃ N, Mirrors h.size front N (answer (resolve σ inner) new h)
        (answer (resolve σ whole) a h)) ∧
      ∀ raw : Value, raw.Within (· < h.size) →
        ∃ N, Mirrors h.size front N (answer (apply σ inner raw) new h)
          (answer (apply σ whole raw) a h)) := by
  intro new front whole
  have fresh : Of ⟨o, o, "", config, ⟨.empty, defaults, service⟩⟩ new := of_rooted _ config o
  have start : front = (⟨root, root, "", config, ⟨.empty, defaults, service⟩⟩ : Node).fullPath
      p.canonical ++ "." := by
    rw [Node.fullPath, String.empty_append]
  have fetched : (Node.fetch σ ⟨root, root, "", config, ⟨.empty, defaults, service⟩⟩ outer).on h =
      (.ok (.object o), g) := by
    rw [← answer_resolve kept, answer, found]
  have read := Node.fetch_onward (by rfl) hp hq fetched
  have written := Node.assign_onward (by rfl) hp hq fetched
  rw [← start] at read written
  simp only [answer_resolve kept, answer_resolve fresh, answer_apply kept, answer_apply fresh]
  refine ⟨read, written, fun still closed inside => ?_⟩
  have calm : Node.Calm σ ⟨root, root, "", config, ⟨.empty, defaults, service⟩⟩ :=
    ⟨still.growing, still.harmless⟩
  have harmless : σ.Harmless := fun d hd =>
    ⟨by simp [still.fields d hd], (still.makesNew d hd).initializer, (still.makesNew d hd).fromText⟩
  have extends_ : h.Extends g := ((ends_resolve harmless (kept.calm calm) outer).of_ok found).2
  have there : o.loc < h.size :=
    ((Node.finds_fetch still.fields still.makesNew calm inside outer h closed).of_ok fetched).2
      o.loc rfl
  have same : h.Alike (List.range h.size) g := closed.alike.more extends_
  have named : ∀ l, l < h.size → (List.range h.size)[l]? = some l := fun l => List.getElem?_range
  have known : Like (List.range h.size) o o := ⟨rfl, named o.loc there⟩
  have top : Node.Uniform σ ⟨o, o, "", config, ⟨.empty, defaults, service⟩⟩ :=
    ⟨still.growing, still.alike⟩
  refine ⟨extends_, ?_, fun raw within => ?_⟩
  · obtain ⟨N, later, alike⟩ :=
      Node.alike_fetch still.fields still.uniform top known inner h g same
    exact ⟨N, read.mirrors named later alike⟩
  · obtain ⟨N, later, alike⟩ :=
      Node.alike_assign still.fields still.uniform top known inner within.alike h g same
    exact ⟨N, (written raw).mirrors named later alike⟩

end Accessor

/-! The desk with a service that marks every text. -/

namespace Desk

def marker : ConversionService where
  canConvert _ source target := source == .text && target == .text
  convert _ v _ _ :=
    match v with
    | .text text => return .text (text ++ "!")
    | other => return other

theorem harmless_marker : marker.Harmless schema := by
  intro v source target
  cases v <;> exact .pure _

theorem uniform_marker : marker.Uniform schema := by
  intro N v w source target same
  cases same with
  | scalar none_ => cases v <;> first | exact .pure (.scalar rfl) | cases none_
  | object c there => exact .pure (.object c there)
  | array elem there => exact .pure (.array elem there)
  | list s there => exact .pure (.list s there)
  | set s there => exact .pure (.set s there)
  | map s there => exact .pure (.map s there)

def serving : Strategies := ⟨.empty, .standard, some marker⟩

theorem still : Accessor.Still schema serving .standard where
  growing := rfl
  fields := fields
  makesNew := makesNew
  uniform := uniform
  harmless := {
    registered := by simp [serving, Registrations.converters, Registrations.empty]
    defaults := (Strategies.harmless_standard schema).defaults
    service := by
      rintro s ⟨⟩
      exact harmless_marker }
  alike := {
    registered := by simp [serving, Registrations.converters, Registrations.empty]
    defaults := DefaultTable.uniform_standard schema
    service := by
      rintro s ⟨⟩
      exact uniform_marker }

def served : Accessor × Heap := lookUp.on schema (.rooted serving .standard ⟨1, 0⟩, heap)

def late : Accessor × Heap :=
  let read := lookUp.on schema (new, heap)
  (read.1.withService (some marker), read.2)

theorem node_late : late.1.node = ⟨⟨1, 0⟩, ⟨1, 0⟩, "", .standard, serving⟩ := by
  have before := (Accessor.of_event (σ := schema)
    (Accessor.of_rooted ⟨.empty, .standard, none⟩ .standard ⟨1, 0⟩) heap lookUp).node
  rw [late, Accessor.withService]
  dsimp only
  rw [new, before]
  rfl

end Desk

namespace Accessor

open Desk

theorem continues_of_resolve_desk :
    ∃ (b : Accessor) (g : Heap),
      on (resolve schema "tray") served.1 served.2 = ((.ok (.object ⟨0, 1⟩), b), g) ∧
      Continues "tray." (answer (apply schema "note" (.text "n"))
        (rooted serving .standard ⟨0, 1⟩) g)
        (answer (apply schema "tray.note" (.text "n")) served.1 served.2) ∧
      (∃ N, Mirrors 3 "tray." N (answer (resolve schema "gone") (rooted serving .standard ⟨0, 1⟩)
        served.2) (answer (resolve schema "tray.gone") served.1 served.2)) ∧
      (answer (apply schema "tray.note" (.text "n")) served.1 served.2).2.slot? 1 0 =
        some (.text "n!") := by
  have kept : Of ⟨⟨1, 0⟩, ⟨1, 0⟩, "", .standard, serving⟩ served.1 :=
    of_event (of_rooted serving .standard ⟨1, 0⟩) heap lookUp
  have tray : Path.parse "tray" = .ok ⟨[⟨"tray", []⟩]⟩ := by cbv
  have note : Path.parse "note" = .ok ⟨[⟨"note", []⟩]⟩ := by cbv
  have gone : Path.parse "gone" = .ok ⟨[⟨"gone", []⟩]⟩ := by cbv
  have object : (on (resolve schema "tray") served.1 served.2).1.1 = .ok (.object ⟨0, 1⟩) := by
    decide +kernel
  have unchanged : served.2 = heap := by decide +kernel
  rcases ran : on (resolve schema "tray") served.1 served.2 with ⟨⟨result, b⟩, g⟩
  rw [ran] at object
  dsimp only at object
  subst object
  have writes := (continues_of_resolve kept tray note ran).2.1
  have reads := (continues_of_resolve kept tray gone ran).2.2 still
    (by rw [unchanged]; exact closed) (by rw [unchanged]; decide)
  refine ⟨b, g, rfl, writes (.text "n"), ?_, by decide +kernel⟩
  have size : served.2.size = 3 := by rw [unchanged]; rfl
  rw [← size]
  exact reads.2.1

/-- From the desk, the note is written through the node that was kept for the tray, which was
made before the service was set; a new accessor over the tray asks the service. -/
theorem continues_fails :
    ∃ (b : Accessor) (g : Heap),
      late.1.node.strategies.registered = .empty ∧ late.1.node.config.growing = false ∧
      (∀ d ∈ schema.classes, d.properties = []) ∧
      on (resolve schema "tray") late.1 late.2 = ((.ok (.object ⟨0, 1⟩), b), g) ∧ g = late.2 ∧
      ¬ Continues "tray."
        (answer (apply schema "note" (.text "n"))
          (rooted late.1.node.strategies late.1.node.config ⟨0, 1⟩) g)
        (answer (apply schema "tray.note" (.text "n")) late.1 late.2) := by
  have object : (on (resolve schema "tray") late.1 late.2).1.1 = .ok (.object ⟨0, 1⟩) := by
    decide +kernel
  have unchanged : (on (resolve schema "tray") late.1 late.2).2 = late.2 := by decide +kernel
  have asked : (answer (apply schema "note" (.text "n"))
      (rooted late.1.node.strategies late.1.node.config ⟨0, 1⟩) late.2).2.slot? 1 0 =
        some (.text "n!") := by decide +kernel
  have kept : (answer (apply schema "tray.note" (.text "n")) late.1 late.2).2.slot? 1 0 =
      some (.text "n") := by decide +kernel
  rcases ran : on (resolve schema "tray") late.1 late.2 with ⟨⟨result, b⟩, g⟩
  rw [ran] at object unchanged
  dsimp only at object unchanged
  subst object unchanged
  refine ⟨b, late.2, by rw [node_late]; rfl, by rw [node_late]; rfl, fields, rfl, rfl,
    fun same => ?_⟩
  rw [same.heap, asked] at kept
  exact absurd kept (by decide)

end Accessor

end PropertyAccess
