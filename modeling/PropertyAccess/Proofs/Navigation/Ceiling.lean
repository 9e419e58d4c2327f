import PropertyAccess.Proofs.Conversion.Bare
import PropertyAccess.Proofs.Navigation.Conduct
import PropertyAccess.Proofs.Navigation.FailedWrite
import PropertyAccess.Proofs.Navigation.Growing
import PropertyAccess.Proofs.Navigation.Steps
import PropertyAccess.Proofs.Schema.Accepts

/-! The limit of growing. No call makes a container longer than the limit, whatever came
before it. A position beyond the end is written exactly if it is below the limit: a list is
made longer where it is, and an array by a copy that its holder has to take, which nothing
but a converter or a service keeps it from. -/

namespace PropertyAccess

theorem Heap.Conserves.grows {h h' : Heap} (later : h.Conserves h') : h.Grows h' :=
  fun l vs cell => ⟨vs, later.items l vs cell, Nat.le_refl _⟩

namespace Schema

variable {σ : Schema} {h : Heap} {elem : Ty}

theorem Sparing.filler (hσ : σ.Sparing) (elem : Ty) : (σ.filler elem).Sparing :=
  .of_stays fun w => hσ.stays.filler w elem

theorem ends_repeated_of_succeeds {ε : Type} {make : Run ε Value} (count : Nat)
    (succeeds : ∀ g, h.Conserves g → make.Ends g (fun _ g' => g.Conserves g') fun _ _ => False) :
    (repeated make count).Ends h (fun _ h' => h.Conserves h') fun _ _ => False := by
  induction count generalizing h with
  | zero => exact .refl h
  | succ count ih =>
    simp only [repeated, Run.ends_bind, Run.ends_pure]
    refine (succeeds h (.refl h)).mono (fun _ g made => ?_) fun _ _ => id
    exact (ih fun g' later => succeeds g' (made.trans later)).mono (fun _ _ => made.trans)
      fun _ _ => id

theorem ends_grownArray_of_fillers (hσ : σ.Sparing) (l : Loc) (length : Nat)
    (fillers : ∀ g, h.Conserves g → ∃ u g', (σ.filler elem).on g = (.ok u, g')) :
    (σ.grownArray elem l length).Ends h (fun _ h' => h.Conserves h') fun _ _ => False := by
  rw [ends_grownArray_iff]
  refine (ends_repeated_of_succeeds _ fun g later => ?_).mono (fun _ h' made => ?_) fun _ _ => id
  · obtain ⟨u, g', made⟩ := fillers g later
    have kept := hσ.filler elem g
    rw [made] at kept
    exact .intro made kept
  · exact made.trans (.of_extends (.alloc h' _))

end Schema

namespace Node

variable {σ : Schema} {n : Node} {h : Heap} {p holder : Place} {v w : Value} {type elem : Ty}
  {spot : Spot} {before : List Spot} {key : String}

/-- What the place holds can be replaced: it is in a property with a setter, or in a
container that is no set. -/
def Replaceable (σ : Schema) (n : Node) (h : Heap) : Place → Prop
  | .property name => ∀ hd, n.handle? σ name = some hd → hd.isWritable = true
  | .element holder _ => ∀ c type spot before, n.Holds σ h holder c type spot before →
      ∀ s l, c ≠ .set s l

theorem Holds.ends_container (later : n.Later σ Heap.Conserves)
    (inner : n.Holds σ h holder v type spot before) (hv : v.isNull = false) (key : String) :
    (n.container σ holder key).Ends h (fun c h' => c = v ∧ h.Conserves h') fun _ _ => False := by
  simp only [container, Run.ends_bind, Run.ends_mapError]
  refine (inner.ends_read_later later _).mono (fun c g hc => ?_) fun _ _ => id
  obtain ⟨rfl, kept⟩ := hc
  rw [present_eq hv]
  exact ⟨rfl, kept⟩

/-- A value that no conversion changes takes the place of another. -/
theorem Holds.ends_write_unconverted (later : n.Later σ Heap.Conserves)
    (hp : n.Holds σ h p v type spot before) (replaceable : n.Replaceable σ h p)
    (unconverted : n.convertFor σ p.canonical w type = pure w) (fits : σ.accepts type w = true) :
    (n.write σ p w).Ends h (fun _ h' => h.Grows h') fun _ _ => False := by
  cases hp with
  | @field name hd i writable _ handle access value =>
    have may := replaceable hd handle
    obtain rfl : writable = true := by simpa [Handle.isWritable, access] using may
    simp only [write, writeProperty, handle, may, if_true, unconverted, pure_bind,
      Run.ends_mapError, Handle.set, fits, access, Run.ends_bind, Run.ends_lookup,
      Heap.setSlot?_of_some value, Run.ends_update]
    exact Heap.grows_setSlot? (Heap.setSlot?_of_some value)
  | @item holder key c _ outer _ l spot before i inner cell index value =>
    rw [write_element, Run.ends_bind]
    refine (inner.ends_container later (Value.isNull_of_sequence? cell) key).mono
      (fun u g hu => ?_) fun _ _ => id
    obtain ⟨rfl, kept⟩ := hu
    rw [← kept.items_of_item value] at value
    have inside := (List.getElem?_eq_some_iff.1 value).1
    have grown : h.Grows (g.store (l, i) w) :=
      kept.grows.trans (Heap.grows_setItem? (Heap.setItem?_of_some value))
    cases u with
    | array e m =>
      obtain ⟨rfl, rfl⟩ : m = l ∧ e = type := by simpa [Value.sequence?] using cell
      simp only [writeElement, writeArray, unconverted, indexOf_eq index, pure_bind, Run.ends_bind]
      refine (ends_lengthened_of_lt inside _ _ _ _).mono (fun _ g' hm => ?_) fun _ _ => id
      obtain ⟨rfl, rfl⟩ := hm
      exact (ends_putItem_of_some value w _).mono (fun _ _ hs => hs ▸ grown) fun _ _ => id
    | list s m =>
      obtain ⟨rfl, rfl⟩ : m = l ∧ _ := by simpa [Value.sequence?] using cell
      have declared : n.innerType σ (Place.element holder key).root
          (Place.element holder key).depth = n.innerType σ holder.root (holder.depth + 1) := rfl
      simp only [writeElement, writeList, declared, unconverted, indexOf_eq index, pure_bind,
        Run.ends_bind, Run.ends_lookup]
      rw [if_neg (by simp [Nat.not_le.2 inside])]
      exact (ends_putItem_of_some value w _).mono (fun _ _ hs => hs ▸ grown) fun _ _ => id
    | set s m => exact absurd rfl (replaceable _ _ _ _ inner s m)
    | _ => simp [Value.sequence?] at cell
  | @entry holder key shape k e type l spot before i inner converts found value =>
    rw [write_element, Run.ends_bind]
    refine (inner.ends_container later rfl key).mono (fun u g hu => ?_) fun _ _ => id
    obtain ⟨rfl, kept⟩ := hu
    have declared : n.innerType σ (Place.element holder key).root
        (Place.element holder key).depth = n.innerType σ holder.root (holder.depth + 1) := rfl
    simp only [writeElement, writeMap, Run.ends_bind, Run.ends_mapError, declared, unconverted,
      pure_bind, Run.ends_update]
    refine (later.ends_convertKey converts).mono (fun _ g' hk => ?_) fun _ _ => id
    exact (kept.trans hk.2).grows.trans (Heap.grows_insertEntry _ _ _)

/-- Position `i` is to be written of the container `c` at `l`, whose last element comes before
it. The container was come to in `g`, or made there, and then the value converted. -/
structure Beyond (σ : Schema) (n : Node) (g : Heap) (holder : Place) (key : String)
    (raw c : Value) (elem : Ty) (l : Loc) (old : List Value) (i : Nat) (v : Value)
    (g₁ g₂ : Heap) : Prop where
  container : (n.container σ holder key).on g = (.ok c, g₁)
  sequence : c.sequence? (n.innerType σ holder.root (holder.depth + 1)) = some (l, elem)
  notSet : ∀ s m, c ≠ .set s m
  cell : g₁.cell? l = some (.items old)
  index : Text.index? key = some i
  outside : old.length ≤ i
  converts : (n.convertFor σ (Place.element holder key).canonical raw elem).on g₁ = (.ok v, g₂)

/-- The elements that the array lacks can be made. By then the array is still what its holder
has, and may have by its type, and something else may take its place. -/
structure TakesCopy (σ : Schema) (n : Node) (h : Heap) (holder : Place) (elem : Ty) (l : Loc)
    (i : Nat) : Prop where
  fillers : ∀ g, h.Conserves g → ∃ u g', (σ.filler elem).on g = (.ok u, g')
  held : ∀ copy g, (σ.grownArray elem l (i + 1)).on h = (.ok copy, g) →
    n.Replaceable σ g holder ∧ ∃ type spot before,
      n.Holds σ g holder (.array elem l) type spot before ∧
        (type.isUnknown = true ∨ type.unwrapped = .array elem)

section Beyond

variable {g g₁ g₂ : Heap} {raw c : Value} {l : Loc} {old : List Value} {i : Nat} {s : ListShape}

/-- How a write beyond the end ends: the position has to be below the limit, and what is at
`l` stays the same if it is not. -/
def Bounded (σ : Schema) (n : Node) (path : String) (l : Loc) (old : List Value) (i : Nat)
    (r : Run PathError Unit) (g : Heap) : Prop :=
  r.Ends g (fun _ _ => i < n.config.limit) fun e h' => n.config.limit ≤ i ∧
    (∃ reason, e = .invalidIndex (n.rootName σ) (n.fullPath path) reason) ∧
    h'.cell? l = some (.items old)

theorem bounded_putItem (cell : h.cell? l = some (.items old)) (outside : old.length ≤ i)
    (limit : n.config.limit ≤ i) (path reason : String) :
    n.Bounded σ path l old i (putItem l i v (n.badIndexAt σ path reason)) h := by
  have items : h.items l = old := by simp [Heap.items, cell]
  unfold Bounded
  simp only [putItem, Run.ends_bind, Run.ends_lookup, Heap.setItem?, items,
    if_neg (Nat.not_lt.2 outside)]
  exact ⟨limit, ⟨reason, rfl⟩, cell⟩

theorem bounded_writeList (conserves : g₁.Conserves g₂)
    (hb : n.Beyond σ g holder key raw (.list s l) elem l old i v g₁ g₂) :
    n.Bounded σ (Place.element holder key).canonical l old i
      (n.writeList σ (.element holder key) l key raw) g₁ := by
  have cell := conserves.items l old hb.cell
  have items : g₂.items l = old := by simp [Heap.items, cell]
  have declared : n.innerType σ holder.root (holder.depth + 1) = elem := by
    simpa [Value.sequence?] using hb.sequence
  subst declared
  unfold Bounded
  rw [writeList, Run.ends_bind]
  refine .intro hb.converts ?_
  simp only [indexOf_eq hb.index, pure_bind, Run.ends_bind, Run.ends_lookup, items]
  split
  · rename_i grows
    simp only [Bool.and_eq_true, decide_eq_true_eq] at grows
    exact grows.2
  · rename_i full
    simp only [Bool.and_eq_true, decide_eq_true_eq] at full
    have outside := hb.outside
    exact bounded_putItem cell outside (by omega) _ _

/-- The copy has the position, and nothing that stores it makes it shorter. -/
theorem bounded_writeArray (hσ : σ.Sparing) (hn : n.strategies.Sparing σ)
    (bare : n.strategies.Bare) (conserves : g₁.Conserves g₂)
    (hb : n.Beyond σ g holder key raw (.array elem l) elem l old i v g₁ g₂)
    (copied : n.TakesCopy σ g₂ holder elem l i) :
    n.Bounded σ (Place.element holder key).canonical l old i
      (n.writeArray σ (.element holder key) elem l key raw (n.write σ holder)) g₁ := by
  have cell := conserves.items l old hb.cell
  have items : g₂.items l = old := by simp [Heap.items, cell]
  unfold Bounded
  rw [writeArray, Run.ends_bind]
  refine .intro hb.converts ?_
  rw [indexOf_eq hb.index, pure_bind, Run.ends_bind, ends_lengthened_iff, items]
  split
  · rename_i grows
    have made := (Schema.ends_grownArray_of_fillers hσ l (i + 1) copied.fillers).and
      ((Schema.ends_grownArray_length (σ := σ) elem l (i + 1) g₂).and (Run.ends_on _ g₂))
    refine made.mono (fun copy g₃ hc => ?_) fun _ _ he => he.1.elim
    obtain ⟨-, ⟨m, vs, rfl, copy, length⟩, ran⟩ := hc
    obtain ⟨replaceable, type, spot, before, holds, own⟩ := copied.held _ g₃ ran
    have unconverted : n.convertFor σ holder.canonical (.array elem m) type =
        pure (.array elem m) := by
      rw [convertFor, bare.convert_array own]
      rfl
    have fits : σ.accepts type (.array elem m) = true :=
      own.elim (σ.accepts_of_isUnknown · _) (σ.accepts_array_self · m)
    refine (holds.ends_write_unconverted (later_conserves hσ hn) replaceable unconverted
      fits).mono (fun _ g₄ grown => ?_) fun _ _ => False.elim
    obtain ⟨ws, copy', longer⟩ := grown m vs copy
    have there : (g₄.items m).length = ws.length := by simp [Heap.items, copy']
    refine (ends_putItem m i v _ g₄).mono (fun _ _ _ => grows.2.2) fun _ _ failed => ?_
    exact absurd failed.2 (by omega)
  · rename_i full
    have outside := hb.outside
    exact bounded_putItem cell outside
      (Nat.le_of_not_lt fun below => full ⟨rfl, outside, below⟩) _ _

theorem bounded_write (hσ : σ.Sparing) (hn : n.strategies.Sparing σ) (bare : n.strategies.Bare)
    (hb : n.Beyond σ g holder key raw c elem l old i v g₁ g₂)
    (copied : c = .array elem l → n.TakesCopy σ g₂ holder elem l i) :
    n.Bounded σ (Place.element holder key).canonical l old i
      (n.write σ (.element holder key) raw) g := by
  have conserves : g₁.Conserves g₂ := by
    have kept := (hn.convert hσ elem (some (Place.element holder key).canonical) raw).ends g₁
    have converted := (Run.ends_mapError (E := fun _ _ => True)
      (n.conversionAt (Place.element holder key).canonical) _).2
      (kept.mono (fun _ _ => id) fun _ _ _ => trivial)
    exact converted.of_ok hb.converts
  unfold Bounded
  rw [write_element, Run.ends_bind]
  refine .intro hb.container ?_
  cases c with
  | array e m =>
    obtain ⟨rfl, rfl⟩ : m = l ∧ e = elem := by simpa [Value.sequence?] using hb.sequence
    exact bounded_writeArray hσ hn bare conserves hb (copied rfl)
  | list s m =>
    obtain ⟨rfl, -⟩ : m = l ∧ _ := by simpa [Value.sequence?] using hb.sequence
    exact bounded_writeList conserves hb
  | set s m => exact absurd rfl (hb.notSet s m)
  | _ => simpa [Value.sequence?] using hb.sequence

end Beyond

theorem bare_child (bare : n.strategies.Bare) (s : Segment) (o : ObjectRef) :
    (n.child s o).strategies.Bare := by
  refine ⟨?_, bare.service⟩
  change n.strategies.registered.below s = .empty
  rw [bare.registered]
  rfl

end Node

namespace Accessor

variable {σ : Schema} {a : Accessor}

theorem ends_apply_of_follow {h g : Heap} {b : Accessor} {text : String} {p : Path} {n : Node}
    {place : Place} {raw : Value} (read : Path.parse text = .ok p)
    (reached : on (follow σ p) a h = ((.ok (n, place), b), g)) {Q : Heap → Prop}
    {E : PathError → Heap → Prop} (write : (n.write σ place raw).Ends g (fun _ => Q) E) :
    Walk.Ends (apply σ text raw) a h (fun _ _ => Q) fun e _ => E e := by
  have came : Walk.Ends (follow σ p) a h (fun r _ h' => r = (n, place) ∧ h' = g)
      fun _ _ _ => False := by
    rw [Walk.ends_iff]
    rw [reached]
    exact ⟨rfl, rfl⟩
  refine Walk.ends_apply_of_parse read (came.mono (fun r b' g' hr => ?_) fun _ _ _ => False.elim)
  obtain ⟨rfl, rfl⟩ := hr
  exact write

/-- The limit holds over every history. Whatever was called and set before, as long as growing was
set below `C`, the next call leaves everything that exists no longer than it was or than `C`, and
every array that it made to grow, as its record has them, no longer than `C`. Where no
converter and no service is supplied, a write beyond the end of a container succeeds if the
position is below the limit. Otherwise the index is refused, and the container stays the same. -/
theorem grows_to_limit (hσ : σ.Sparing) {C : Nat} (nodes : ∀ n ∈ a.nodes, n.Capped σ C)
    (incidents : List Incident) (allowed : ∀ i ∈ incidents, i.Capped σ C) (h : Heap) :
    let used := incidents.foldl (Incident.on σ) (a, h)
    (∀ call : Call, let ended := on (call.walk σ) used.1 used.2
      used.2.StaysBelow C ended.2 ∧ ∃ grown, (call.recorded σ).on ⟨used.1, used.2, []⟩ =
        (ended.1.1, ⟨ended.1.2, ended.2, grown⟩) ∧ ∀ l ∈ grown, ended.2.Short C l) ∧
    ((∀ n ∈ a.nodes, n.config = a.node.config) → (∀ n ∈ used.1.nodes, n.strategies.Bare) →
      ∀ {text : String} {p : Path} {n : Node} {holder : Place} {key : String} {b : Accessor}
        {g g₁ g₂ : Heap} {raw c : Value} {elem : Ty} {l : Loc} {old : List Value} {i : Nat}
        {v : Value}, Path.parse text = .ok p →
        on (follow σ p) used.1 used.2 = ((.ok (n, .element holder key), b), g) →
        n.Beyond σ g holder key raw c elem l old i v g₁ g₂ →
        (c = .array elem l → n.TakesCopy σ g₂ holder elem l i) →
        let limit := (incidents.foldl Incident.config a.node.config).limit
        let written := on (apply σ text raw) used.1 used.2
        (i < limit → written.1.1 = .ok ()) ∧
        (limit ≤ i → (∃ reason, written.1.1 = .error (.invalidIndex (n.rootName σ)
          (n.fullPath (Place.element holder key).canonical) reason)) ∧
          written.2.cell? l = some (.items old))) := by
  intro used
  have capped : used.1.Throughout fun _ n => n.Capped σ C :=
    Throughout.incidents (N := fun _ _ n => n.Capped σ C) (c := a.node.config)
      (fun hn s o => hn.child s o) (fun allowed hn => hn.node allowed) incidents allowed (.of_nodes nodes) h
  refine ⟨fun call => ?_, ?_⟩
  · intro ended
    obtain ⟨grown, same⟩ := Recorded.tells_call (σ := σ) call ⟨used.1, used.2, []⟩
    have kept := Recorded.keeps_call (Recorded.upholds_limits hσ C used.2) call
      ⟨used.1, used.2, []⟩ ⟨capped, .refl _, by simp⟩
    rw [same] at kept
    exact ⟨kept.1.graph.before, grown, same, kept.1.graph.short⟩
  · intro alike bare text p n holder key b g g₁ g₂ raw c elem l old i v read reached beyond copied
    -- Wherever the node that writes was made, it goes by the limit that was set last.
    have configured := Throughout.configured (σ := σ) alike incidents h
    have sparing := (capped.follow (fun hm s o => hm.child s o) reached).strategies
    have own : n.strategies.Bare := Throughout.follow (N := fun _ m => m.strategies.Bare)
      (.of_nodes bare) (fun hm s o => Node.bare_child hm s o) reached
    have bounded := Node.bounded_write hσ sparing own beyond copied
    unfold Node.Bounded at bounded
    rw [configured.follow (fun hm _ _ => hm) reached] at bounded
    have ended := ends_apply_of_follow read reached bounded
    rw [Walk.ends_iff] at ended
    intro limit written
    split at ended <;> rename_i ran
    · exact ⟨fun _ => by rw [show written = _ from ran], fun full => absurd ended (by omega)⟩
    · obtain ⟨full, ⟨reason, rfl⟩, kept⟩ := ended
      refine ⟨fun below => absurd below (by omega), fun _ => ?_⟩
      rw [show written = _ from ran]
      exact ⟨⟨reason, rfl⟩, kept⟩

end Accessor

namespace Board

theorem sparing_schema : schema.Sparing := by
  intro d hd
  obtain rfl : d = decl := List.mem_singleton.1 hd
  refine ⟨fun p hp g hg o h => ?_, fun p hp s hs o v h => ?_, fun run hr => (by cases hr),
    fun make hm => (by cases hm)⟩
  all_goals obtain rfl : p = sealedProperty := List.mem_singleton.1 hp
  · obtain rfl := Option.some.inj hg
    exact .refl h
  · obtain rfl := Option.some.inj hs
    exact .refl h

def limited : Accessor := .rooted ⟨.empty, .standard, none⟩ ⟨false, 3, .properties⟩ root

def growing : Node := { limited.node with config := ⟨true, 3, .properties⟩ }

theorem follow_scores (key : String) :
    Accessor.on (Accessor.follow schema ⟨[⟨"scores", [key]⟩]⟩) ⟨growing, []⟩ heap =
      ((.ok (growing, .element (.property "scores") key), ⟨growing, []⟩), heap) := rfl

theorem takesCopy_scores (i : Nat) :
    growing.TakesCopy schema heap (.property "scores") (.number (.int .i32)) 1 i := by
  have handle : growing.handle? schema "scores" =
      some ⟨"scores", .array (.number (.int .i32)), .slot 0 true true⟩ := rfl
  refine ⟨fun g _ => ⟨_, g, rfl⟩, fun copy g made => ⟨fun hd found => ?_,
    .array (.number (.int .i32)), (0, 0), [], ?_, .inr rfl⟩⟩
  · obtain rfl := Option.some.inj (handle.symm.trans found)
    rfl
  · have grown := Schema.ends_grownArray harmless_schema.makesNew (.number (.int .i32)) 1 (i + 1)
      heap
    exact (Node.Holds.field handle rfl rfl).mono (grown.of_ok made).1

theorem beyond_scores {key : String} {i : Nat} (index : Text.index? key = some i)
    (outside : 1 ≤ i) :
    growing.Beyond schema heap (.property "scores") key (score 7 (by decide))
      (.array (.number (.int .i32)) 1) (.number (.int .i32)) 1 [score 1 (by decide)] i
      (score 7 (by decide)) heap heap where
  container := rfl
  sequence := rfl
  notSet _ _ same := by cases same
  cell := rfl
  index := index
  outside := outside
  converts := by
    have bare : growing.strategies.Bare := ⟨rfl, rfl⟩
    rw [Node.convertFor, Strategies.convert, Strategies.step_of_service_eq_none rfl,
      Strategies.withoutService, Strategies.applied_of_accepts (bare.custom?_eq_none _ _)
        (by decide)]
    rfl

end Board

namespace Accessor

theorem grows_to_limit_board :
    let used := [Incident.event (.growing true 3)].foldl (Incident.on Board.schema)
      (Board.limited, Board.heap)
    let raw := Board.score 7 (by decide)
    (∀ call : Call, let ended := on (call.walk Board.schema) used.1 used.2
      used.2.StaysBelow 3 ended.2 ∧ ∃ grown, (call.recorded Board.schema).on
        ⟨used.1, used.2, []⟩ = (ended.1.1, ⟨ended.1.2, ended.2, grown⟩) ∧
          ∀ l ∈ grown, ended.2.Short 3 l) ∧
      (((Call.apply "scores[2]" raw).recorded Board.schema).on
        ⟨used.1, used.2, []⟩).2.grown = [2] ∧
      (on (apply Board.schema "scores[2]" raw) used.1 used.2).1.1 = .ok () ∧
      ∃ reason, (on (apply Board.schema "scores[3]" raw) used.1 used.2).1.1 =
        .error (.invalidIndex "demo.Board" "scores[3]" reason) := by
  have capped : ∀ n ∈ Board.limited.nodes, n.Capped Board.schema 3 := by
    intro n hn
    obtain rfl : n = Board.limited.node := List.mem_singleton.1 hn
    exact ⟨Nat.le_refl 3, (Strategies.harmless_standard Board.schema).sparing⟩
  have alike : ∀ n ∈ Board.limited.nodes, n.config = Board.limited.node.config :=
    fun n hn => congrArg Node.config (List.mem_singleton.1 hn)
  have allowed : ∀ i ∈ [Incident.event (.growing true 3)], i.Capped Board.schema 3 := by
    intro i hi
    obtain rfl := List.mem_singleton.1 hi
    exact Nat.le_refl 3
  obtain ⟨calls, writes⟩ := grows_to_limit Board.sparing_schema capped
    [.event (.growing true 3)] allowed Board.heap
  have bare : ∀ n ∈ [Board.growing], n.strategies.Bare := by
    intro n hn
    obtain rfl := List.mem_singleton.1 hn
    exact ⟨rfl, rfl⟩
  have third : Path.parse "scores[2]" = .ok ⟨[⟨"scores", ["2"]⟩]⟩ := by cbv
  have fourth : Path.parse "scores[3]" = .ok ⟨[⟨"scores", ["3"]⟩]⟩ := by cbv
  have two : Text.index? "2" = some 2 := by decide +kernel
  have three : Text.index? "3" = some 3 := by decide +kernel
  have inside := writes alike bare third (Board.follow_scores "2")
    (Board.beyond_scores two (by decide)) fun _ => Board.takesCopy_scores 2
  have outside := writes alike bare fourth (Board.follow_scores "3")
    (Board.beyond_scores three (by decide)) fun _ => Board.takesCopy_scores 3
  exact ⟨calls, by decide +kernel, inside.1 (by decide), (outside.2 (Nat.le_refl 3)).1⟩

end Accessor

end PropertyAccess
