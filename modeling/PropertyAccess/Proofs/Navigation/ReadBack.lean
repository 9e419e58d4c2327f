import PropertyAccess.Proofs.Navigation.Along
import PropertyAccess.Proofs.Navigation.ArrayWrite
import PropertyAccess.Proofs.Navigation.Growing

/-! What was written is read back. In a graph without cycles the way to an object is not
changed by what is written to that object, whatever had to be made to come there. So
after a write that succeeds, the path leads to the same place, and that holds the value. -/

namespace PropertyAccess

theorem Place.depth_ofSegment (s : Segment) : (Place.ofSegment s).depth = s.keys.length := by
  have keys : (Place.ofSegment s).keys = s.keys := congrArg Segment.keys (segment_ofSegment s)
  rw [← keys, Place.length_keys]

namespace Node

variable {σ : Schema} {n : Node} {C : Loc → Prop} {h : Heap}

/-- The segment leads through a field, keys that settle, and arrays that need not grow. -/
structure Clear (σ : Schema) (n : Node) (h : Heap) (s : Segment) : Prop where
  field : n.HasField σ s.name
  settled : n.Settled σ (Place.ofSegment s)
  roomy : n.Roomy σ h (Place.ofSegment s)

/-- The last key, if there is one, is not one of an array, and if it is one of a map it
becomes a scalar that is found again. -/
def Addressed (σ : Schema) (n : Node) (h : Heap) : Place → Prop
  | .property _ => True
  | .element holder key => ∀ c g, (n.container σ holder key).on h = (.ok c, g) →
      (∀ elem l, c ≠ .array elem l) ∧ n.Addresses σ holder key c

theorem ends_write_stores (hσ : σ.MakesTrees) (hn : n.strategies.MakesTrees σ)
    (hh : n.Hangs C h) {p : Place} (hf : n.HasField σ p.root) (settled : n.Settled σ p)
    (roomy : n.Roomy σ h p) (addressed : n.Addressed σ h p) {raw : Value}
    (scalar : raw.loc? = none) :
    (n.write σ p raw).Ends h
      (fun _ h' => n.Stores σ C h p raw (n.innerType σ p.root p.depth) True h')
      (fun _ _ => True) := by
  cases p with
  | property name =>
    rw [write_property]
    exact ends_writeProperty_stores hσ hn hh (.refl h) (.scalar scalar) hf
  | element holder key =>
    rw [write_element, Run.ends_bind]
    have field : n.HasField σ holder.root := hf
    have made := (ends_container hσ hn hh field settled.1 roomy.1 key).and (Run.ends_on _ h)
    refine made.mono (fun c g hc => ?_) fun _ _ _ => trivial
    obtain ⟨⟨grafts, notNull, holds⟩, ran⟩ := hc
    obtain ⟨other, addresses⟩ := addressed c g ran
    have container : n.HasContainer σ g holder key c :=
      ⟨holds, notNull, fun elem l _ array => absurd array (other elem l)⟩
    have new : g.New g.size raw := .scalar scalar
    have write := ends_writeElement_stores hσ hn grafts.hangs (.refl g) new settled.2 container
      (n.write σ holder)
    refine write.mono (fun _ h' hs => ?_) fun _ _ => id
    obtain ⟨type, declared, stores⟩ := hs
    obtain rfl := declared other
    obtain ⟨further, rest⟩ := stores.imp fun _ => addresses
    exact ⟨grafts.trans further, rest⟩

theorem makesTrees_child (hn : n.strategies.MakesTrees σ) (s : Segment) (o : ObjectRef) :
    (n.child s o).strategies.MakesTrees σ where
  harmless := harmless_child hn.harmless s o
  stays k :=
    have stays := hn.stays k
    ⟨fun c hc => stays.registered c (Registrations.mem_of_mem_below hc), stays.defaults,
      stays.service, stays.instances⟩

end Node

namespace Accessor

variable {σ : Schema} {a a' : Accessor} {n : Node} {h h' : Heap} {C : Loc → Prop}
  {outer : List Segment} {s : Segment} {at_ : List String}

/-- The accessor has come to a node whose graph hangs below `D`, and all that the way goes
through is in `D`. -/
structure Trod (σ : Schema) (C : Loc → Prop) (at_ : List String) (n : Node) (a : Accessor)
    (h : Heap) (outer : List Segment) (D : Loc → Prop) (spots : List Spot) (m : Node)
    (b : Accessor) (g : Heap) : Prop where
  way : Way σ g at_ n a outer m b spots
  wider : ∀ l, C l → D l
  through : ∀ x ∈ spots, D x.1
  hangs : m.Hangs D g
  kept : ∀ l, C l → g.cell? l = h.cell? l

theorem Trod.here (hh : n.Hangs C h) : Trod σ C at_ n a h [] C [] n a h :=
  ⟨.here, fun _ => id, by simp, hh, fun _ _ => rfl⟩

section Enter

variable {g g' : Heap} {o : ObjectRef} {type : Ty} {spot : Spot} {before spots : List Spot}
  {D : Loc → Prop} {m : Node} {b : Accessor} {t : Segment} (grafts : n.Grafts C h g)
  (object : n.Holds σ g (Place.ofSegment t) (.object o) type spot before)
include grafts object

theorem hangs_keep :
    (keep (at_ ++ [t.canonical]) (n.child t o) a.children).1.Hangs
      (fun l => C l ∨ ∃ x ∈ spot :: before, x.1 = l) g := by
  refine ⟨?_, ?_⟩
  · rintro l (hl | ⟨x, hx, rfl⟩)
    · exact grafts.hangs.old l hl
    · exact object.lt_size x hx
  · rw [wrapped_keep]
    exact object.avoids grafts.hangs.free

theorem Trod.enter
    (rest : Trod σ (fun l => C l ∨ ∃ x ∈ spot :: before, x.1 = l) (at_ ++ [t.canonical])
      (keep (at_ ++ [t.canonical]) (n.child t o) a.children).1
      ⟨a.node, (keep (at_ ++ [t.canonical]) (n.child t o) a.children).2⟩ g outer D spots m b g') :
    Trod σ C at_ n a h (t :: outer) D (spot :: (before ++ spots)) m b g' := by
  have there := object.congr fun x hx => rest.kept x.1 (.inr ⟨x, hx, rfl⟩)
  refine ⟨.enter there rest.way, fun l hl => rest.wider l (.inl hl), fun x hx => ?_, rest.hangs,
    fun l hl => ?_⟩
  · rw [← List.cons_append] at hx
    rcases List.mem_append.1 hx with hx | hx
    · exact rest.wider x.1 (.inr ⟨x, hx, rfl⟩)
    · exact rest.through x hx
  · rw [rest.kept l (.inl hl), grafts.kept l hl]

end Enter

structure Reached (σ : Schema) (C : Loc → Prop) (at_ : List String) (n : Node) (a : Accessor)
    (h : Heap) (outer : List Segment) (s : Segment) (D : Loc → Prop) (spots : List Spot) (m : Node)
    (b : Accessor) (g : Heap) : Prop extends Trod σ C at_ n a h outer D spots m b g where
  clear : m.Clear σ g s
  strategies : m.strategies.MakesTrees σ

/-- Each object on the way hangs below what the way has gone through so far. -/
theorem ends_reach_clear (hσ : σ.MakesTrees) (hn : n.strategies.MakesTrees σ)
    (ha : ∀ c ∈ a.children, c.2.strategies.MakesTrees σ) (hh : n.Hangs C h)
    (along : Along σ (Node.Clear σ) at_ n a h (outer ++ [s])) :
    Walk.Ends (reach σ at_ n (outer ++ [s])) a h
      (fun r b g => r.2 = Place.ofSegment s ∧
        ∃ D spots, Reached σ C at_ n a h outer s D spots r.1 b g)
      (fun _ _ _ => True) := by
  induction outer generalizing at_ n a h C with
  | nil =>
    exact ⟨rfl, C, [], .here hh, along, hn⟩
  | cons t outer ih =>
    have split : ∃ u rest, outer ++ [s] = u :: rest := by
      cases outer with
      | nil => exact ⟨s, [], rfl⟩
      | cons u rest => exact ⟨u, rest ++ [s], rfl⟩
    obtain ⟨u, rest, split⟩ := split
    rw [List.cons_append, split] at along
    obtain ⟨clear, further⟩ := along
    rw [List.cons_append, Walk.reach_cons _ _ t (by simp), Walk.ends_bind]
    have field : n.HasField σ (Place.ofSegment t).root := by
      rw [Place.root_ofSegment]
      exact clear.field
    have enters : Walk.Ends (enter σ (at_ ++ [t.canonical]) n t) a h
        (fun m b g => ∃ o, m = (keep (at_ ++ [t.canonical]) (n.child t o) a.children).1 ∧
          b = ⟨a.node, (keep (at_ ++ [t.canonical]) (n.child t o) a.children).2⟩ ∧
          n.Grafts C h g ∧
          ∃ type spot before, n.Holds σ g (Place.ofSegment t) (.object o) type spot before)
        (fun _ _ _ => True) := by
      rw [Walk.ends_enter]
      exact (Node.ends_enter_roomy hσ hn hh field clear.settled clear.roomy).mono
        (fun o g ho => ⟨o, rfl, rfl, ho⟩) fun _ _ => id
    refine (enters.and (Walk.ends_on _ a h)).mono (fun m b g hm => ?_) fun _ _ _ _ => trivial
    obtain ⟨⟨o, rfl, rfl, grafts, type, spot, before, holds⟩, ran⟩ := hm
    have kept : (keep (at_ ++ [t.canonical]) (n.child t o) a.children).1.strategies.MakesTrees σ ∧
        ∀ c ∈ (keep (at_ ++ [t.canonical]) (n.child t o) a.children).2,
          c.2.strategies.MakesTrees σ :=
      forall_keep (P := fun _ n => n.strategies.MakesTrees σ) (Node.makesTrees_child hn t o) ha
    have along := further _ _ _ ran
    rw [← split] at along
    refine (ih kept.1 kept.2 (hangs_keep grafts holds) along).mono (fun r b g' hr => ?_)
      fun _ _ _ => id
    obtain ⟨place, D, spots, reached⟩ := hr
    exact ⟨place, D, _, reached.toTrod.enter grafts holds, reached.clear, reached.strategies⟩

/-- A scalar that was written to a path is read there as it was converted, whether or not
anything had to be made on the way. -/
theorem resolve_of_apply (hσ : σ.MakesTrees) (hS : ∀ n ∈ a.nodes, n.strategies.MakesTrees σ)
    (tree : h.Acyclic (.object a.node.wrapped)) {text : String}
    (read : Path.parse text = .ok ⟨outer ++ [s]⟩)
    (along : Along σ (Node.Clear σ) [] a.node a h (outer ++ [s]))
    (addressed : ∀ n b g, on (follow σ ⟨outer ++ [s]⟩) a h = ((.ok (n, Place.ofSegment s), b), g) →
      n.Addressed σ g (Place.ofSegment s))
    {raw : Value} (scalar : raw.loc? = none)
    (ok : on (apply σ text raw) a h = ((.ok (), a'), h')) :
    ∃ n g g₁ v g₂,
      on (follow σ ⟨outer ++ [s]⟩) a h = ((.ok (n, Place.ofSegment s), a'), g) ∧
      (n.convertFor σ s.canonical raw (n.innerType σ s.name s.keys.length)).on g₁ = (.ok v, g₂) ∧
      g₂.Takes v h' ∧ (on (resolve σ text) a' h').1.1 = .ok v := by
  have hangs : a.node.Hangs (fun _ => False) h := ⟨fun _ => False.elim, tree⟩
  have children : ∀ c ∈ a.children, c.2.strategies.MakesTrees σ :=
    fun c hc => hS _ (mem_nodes_of_mem_children hc)
  have ends : Walk.Ends (apply σ text raw) a h
      (fun _ b k => ∃ n g D spots, on (follow σ ⟨outer ++ [s]⟩) a h =
          ((.ok (n, Place.ofSegment s), b), g) ∧
        Reached σ (fun _ => False) [] a.node a h outer s D spots n b g ∧
        n.Stores σ D g (Place.ofSegment s) raw (n.innerType σ s.name s.keys.length) True k)
      (fun _ _ _ => True) := by
    refine Walk.ends_apply_of_parse read ?_
    have reaches := ends_reach_clear hσ (hS _ List.mem_cons_self) children hangs along
    have followed : Walk.Ends (follow σ ⟨outer ++ [s]⟩) a h _ _ :=
      Walk.ends_follow.2 reaches
    refine (followed.and (Walk.ends_on _ a h)).mono (fun r b g hr => ?_) fun _ _ _ _ => trivial
    obtain ⟨⟨place, D, spots, reached⟩, ran⟩ := hr
    obtain ⟨n, p⟩ := r
    obtain rfl : p = Place.ofSegment s := place
    have root := Place.root_ofSegment s
    have field : n.HasField σ (Place.ofSegment s).root := root ▸ reached.clear.field
    refine (Node.ends_write_stores hσ reached.strategies reached.hangs field reached.clear.settled
      reached.clear.roomy (addressed n b g ran) scalar).mono (fun _ k hs => ?_) fun _ _ _ => trivial
    rw [root, Place.depth_ofSegment] at hs
    exact ⟨n, g, D, spots, ran, reached, hs⟩
  obtain ⟨n, g, D, spots, ran, reached, grafts, -, g₁, v, g₂, converted, takes, holds⟩ :=
    ends.of_ok ok
  obtain ⟨type, spot, before, holds⟩ := holds trivial
  rw [Place.canonical, Place.segment_ofSegment] at converted
  refine ⟨n, g, g₁, v, g₂, ran, converted, takes, ?_⟩
  -- What the way goes through is as it was, and its nodes are kept by now.
  have way := reached.way.map (g := h') fun hp inside =>
    hp.congr fun x hx => grafts.kept x.1 (reached.through x (inside x hx))
  have same : a'.node = a.node := way.node
  have gentle : Gentle σ a.node a :=
    ⟨(hS _ List.mem_cons_self).harmless, fun c hc => (children c hc).harmless⟩
  have gentle' : Gentle σ a'.node a' := by
    rw [same]
    exact ⟨gentle.node, (way.ends_reach hσ.makesNew gentle (.refl h') s).1.kept⟩
  have again : Way σ h' [] a'.node a' outer n a' spots := by
    rw [same]
    exact way.again
  exact again.resolve_eq hσ.makesNew gentle' holds read

end Accessor

/-! A library that keeps lists of names on its shelves, and has no shelves yet. -/

namespace Library

def decl : ClassDecl :=
  ⟨"demo.Library", [], none, [⟨"shelves", .map .sorted .text (.list .vector .text), .readWrite⟩],
    [], false, .plain, none⟩

def schema : Schema := Schema.empty.declareClass decl

def heap : Heap := ⟨#[.slots [("shelves", .null)]]⟩

def accessor : Accessor := .rooted ⟨.empty, .standard, none⟩ .autoGrowing ⟨0, 0⟩

def segment : Segment := ⟨"shelves", ["new", "0"]⟩

theorem makesTrees_schema : schema.MakesTrees := by
  refine Schema.makesTrees_of_plain fun d hd => ?_
  obtain rfl : d = decl := List.mem_singleton.1 hd
  exact ⟨rfl, fun run plain => by cases plain⟩

theorem makesTrees_strategies (n : Node) (hn : n ∈ accessor.nodes) :
    n.strategies.MakesTrees schema := by
  obtain rfl : n = accessor.node := List.mem_singleton.1 hn
  exact Strategies.makesTrees_standard schema

theorem acyclic_heap : heap.Acyclic (.object accessor.node.wrapped) := by
  refine .ref rfl id rfl trivial fun x hx => ?_
  obtain rfl := List.mem_singleton.1 hx
  exact .scalar rfl

theorem settles {holder : Place} {key : String} {made : Value}
    (converts : ∀ g,
      (accessor.node.convertKey schema holder.root holder.depth key).on g = (.ok made, g)) :
    accessor.node.Settles schema holder key := by
  intro g g' k ran _ f
  rw [converts g] at ran
  obtain rfl : made = k := by simpa using congrArg Prod.fst ran
  exact ⟨f, converts f⟩

theorem clear_segment : accessor.node.Clear schema heap segment := by
  have handle : accessor.node.handle? schema "shelves" = some
      ⟨"shelves", .map .sorted .text (.list .vector .text), .slot 0 true true⟩ := rfl
  have shelves : ∀ shown, ((accessor.node.readHolder schema shown (.property "shelves")).on
      heap).1.toOption = some (.map .sorted 1) := fun _ => by with_unfolding_all rfl
  have missing : ∀ shown, ((accessor.node.readHolder schema shown
      (.element (.property "shelves") "new")).on heap).1.toOption = some .null :=
    fun _ => by with_unfolding_all rfl
  refine ⟨fun hd found => ?_, ⟨⟨trivial, settles fun _ => rfl⟩, settles fun _ => rfl⟩,
    ⟨trivial, fun shown elem l i g ran _ => ?_⟩, fun shown elem l i g ran _ => ?_⟩
  · obtain rfl := Option.some.inj (handle.symm.trans found)
    exact ⟨0, true, rfl⟩
  · have found := (congrArg (·.1.toOption) ran).symm.trans (shelves shown)
    cases found
  · have found := (congrArg (·.1.toOption) ran).symm.trans (missing shown)
    cases found

theorem addressed_segment : accessor.node.Addressed schema heap (Place.ofSegment segment) := by
  intro c g ran
  have made : ((accessor.node.container schema (.element (.property "shelves") "new") "0").on
      heap).1.toOption = some (.list .vector 2) := by decide +kernel
  obtain rfl : c = .list .vector 2 :=
    Option.some.inj ((congrArg (·.1.toOption) ran).symm.trans made)
  exact ⟨fun _ _ array => (by cases array), fun _ _ map => (by cases map)⟩

end Library

namespace Accessor

theorem resolve_of_apply_library :
    ∃ a' h' n g g₁ v g₂,
      on (apply Library.schema "shelves[new][0]" (.text "Emma")) Library.accessor Library.heap =
        ((.ok (), a'), h') ∧
      on (follow Library.schema ⟨[Library.segment]⟩) Library.accessor Library.heap =
        ((.ok (n, Place.ofSegment Library.segment), a'), g) ∧
      (n.convertFor Library.schema Library.segment.canonical (.text "Emma")
        (n.innerType Library.schema "shelves" 2)).on g₁ = (.ok v, g₂) ∧
      g₂.Takes v h' ∧ (on (resolve Library.schema "shelves[new][0]") a' h').1.1 = .ok v := by
  have works : (on (apply Library.schema "shelves[new][0]" (.text "Emma"))
      Library.accessor Library.heap).1.1.toBool = true := by decide +kernel
  rcases ho : on (apply Library.schema "shelves[new][0]" (.text "Emma")) Library.accessor
    Library.heap with ⟨⟨result, a'⟩, h'⟩
  rw [ho] at works
  cases result with
  | error e => cases works
  | ok u =>
    have path : Path.parse "shelves[new][0]" = .ok ⟨[] ++ [Library.segment]⟩ := by cbv
    have read := resolve_of_apply Library.makesTrees_schema Library.makesTrees_strategies
      Library.acyclic_heap path Library.clear_segment (fun n b g ran => ?_) rfl ho
    · obtain ⟨n, g, g₁, v, g₂, rest⟩ := read
      exact ⟨a', h', n, g, g₁, v, g₂, rfl, rest⟩
    · have reached : on (follow Library.schema ⟨[] ++ [Library.segment]⟩) Library.accessor
          Library.heap = ((.ok (Library.accessor.node, Place.ofSegment Library.segment),
            Library.accessor), Library.heap) := rfl
      rw [reached] at ran
      cases ran
      exact Library.addressed_segment

end Accessor

/-! A cabinet without cycles. A ring that is made for it goes round in itself, and so does what a
link is converted to. What it keeps in an optional that may be missing once more has no type for
its elements. -/

namespace Cabinet

def close (o : ObjectRef) (h : Heap) : Heap := (h.setField? o.loc "next" (.object o)).getD h

def ring : ClassDecl :=
  ⟨"demo.Ring", [], none, [⟨"next", .any, .readWrite⟩], [], false, .initialized close, none⟩

def link : ClassDecl :=
  ⟨"demo.Link", [], none, [⟨"next", .any, .readWrite⟩], [], false, .plain, none⟩

def decl : ClassDecl :=
  ⟨"demo.Cabinet", [], none, [⟨"ring", .object 0, .readWrite⟩, ⟨"link", .object 1, .readWrite⟩,
    ⟨"counts", .map .sorted .text (.number (.int .i32)), .readWrite⟩,
    ⟨"sizes", .nullable (.nullable (.list .vector (.number (.int .i32)))), .readWrite⟩],
    [], false, .plain, none⟩

def schema : Schema := ((Schema.empty.declareClass ring).declareClass link).declareClass decl

def five : Value := .number (.int .i32 5 (by decide))

def heap : Heap :=
  ⟨#[.slots [("ring", .null), ("link", .null), ("counts", .map .sorted 1),
    ("sizes", .list .vector 2)], .entries [], .items [five]]⟩

/-- Another link, which goes round in itself. -/
def looped : Converter :=
  ⟨"demo.looped", fun _ _ _ => throw (.invalid "no link"), fun _ _ _ => do
    let l ← Run.alloc (.slots [("next", .null)])
    Run.update (close ⟨1, l⟩)
    return .object ⟨1, l⟩⟩

/-- The texts are numbered as they come. -/
def numbered : Converter :=
  .ofText "demo.numbered" fun _ text _ => do
    let count ← Run.alloc (.items [])
    return .text (text ++ toString count)

def accessor : Accessor := .rooted ⟨.empty, .standard, none⟩ .autoGrowing ⟨2, 0⟩

def looping : Accessor :=
  .rooted ⟨⟨[(.object 1, looped)], []⟩, .standard, none⟩ .autoGrowing ⟨2, 0⟩

def numbering : Accessor := .rooted ⟨⟨[(.text, numbered)], []⟩, .standard, none⟩ .standard ⟨2, 0⟩

def readBack (a : Accessor) (path : String) : Except PathError Unit × Except PathError Value :=
  let written := Accessor.on (Accessor.apply schema path (.text "7")) a heap
  (written.1.1, (Accessor.on (Accessor.resolve schema path) written.1.2 written.2).1.1)

end Cabinet

namespace Accessor

/-- What was written is not read back where a cycle is made on the way, or where a key becomes
another one the next time. Inside an optional in an optional there is no type for it to be
converted to. -/
theorem written_otherwise_cabinet :
    Cabinet.readBack Cabinet.accessor "ring.next.next" =
        (.ok (), .error (.notReadable "demo.Cabinet" "ring.next")) ∧
      Cabinet.readBack Cabinet.looping "link.next.next" =
        (.ok (), .error (.notReadable "demo.Cabinet" "link.next")) ∧
      Cabinet.readBack Cabinet.numbering "counts[a]" = (.ok (), .error
        (.invalidIndex "demo.Cabinet" "counts[a]" "map has no entry for key `a`")) ∧
      Cabinet.readBack Cabinet.accessor "sizes[0]" = (.ok (), .ok (.text "7")) ∧
      ((Cabinet.accessor.node.convertFor Cabinet.schema "sizes[0]" (.text "7")
        (.number (.int .i32))).on Cabinet.heap).1 =
          .ok (.number (.int .i32 7 (by decide))) := by
  refine ⟨?_, ?_, ?_, ?_, ?_⟩
  all_goals decide +kernel

end Accessor

end PropertyAccess
