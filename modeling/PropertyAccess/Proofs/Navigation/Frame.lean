import PropertyAccess.Proofs.Navigation.ArrayWrite

/-! A write that succeeds without growing anything else changes one location: a slot, a
list, a map entry or an array element. Where an array is too short, a longer copy takes its
place in the one location that held it. The array itself is changed then only if that
location is one of its own elements. -/

namespace PropertyAccess

namespace Node

variable {σ : Schema} {n : Node}

/-- The keys of the place that are keys of maps become the same value every time. -/
def Steady (σ : Schema) (n : Node) : Place → Prop
  | .property _ => True
  | .element holder key =>
    Steady σ n holder ∧
      ∀ g g' k, (n.convertKey σ holder.root holder.depth key).on g = (.ok k, g') →
        ∀ g, ∃ g', (n.convertKey σ holder.root holder.depth key).on g = (.ok k, g')

def Reads (σ : Schema) (n : Node) (h : Heap) (p : Place) (v : Value) : Prop :=
  ∃ g g', h.Extends g ∧ (n.read σ p.canonical p).on g = (.ok v, g')

/-- What a write of `raw` to a place does to the cells of `h`, by the container that is
written to. -/
inductive Writes (σ : Schema) (n : Node) : Heap → Value → Place → Heap → Prop
  | slot {h h' g : Heap} {raw v : Value} {name : String} {hd : Handle} {i : Nat}
      {readable writable : Bool} (handle : n.handle? σ name = some hd)
      (access : hd.access = .slot i readable writable)
      (value : n.Converts σ h (Place.property name).canonical raw hd.type v g)
      (change : h.ChangesOnly h' n.wrapped.loc (Cell.edit i v)) :
      Writes σ n h raw (.property name) h'
  | list {h h' g : Heap} {raw v : Value} {holder : Place} {key : String} {s : ListShape} {l : Loc}
      {i : Nat} (container : n.Reads σ h holder (.list s l)) (index : Text.index? key = some i)
      (value : n.Converts σ h (Place.element holder key).canonical raw
        (n.innerType σ holder.root (holder.depth + 1)) v g)
      (change : h.ChangesOnly h' l (Cell.mapItems (itemsPut i v))) :
      Writes σ n h raw (.element holder key) h'
  | entry {h h' g k₀ k₁ : Heap} {raw v k : Value} {holder : Place} {key : String} {s : TableShape}
      {l : Loc} {put : List (Value × Value) → List (Value × Value)}
      (container : n.Reads σ h holder (.map s l)) (old : h.Extends k₀)
      (converts : (n.convertKey σ holder.root holder.depth key).on k₀ = (.ok k, k₁))
      (value : n.Converts σ h (Place.element holder key).canonical raw
        (n.innerType σ holder.root (holder.depth + 1)) v g)
      (only : ∀ es, MapEntries.Put k v es (put es))
      (change : h.ChangesOnly h' l (Cell.mapEntries put)) :
      Writes σ n h raw (.element holder key) h'
  | item {h h' g : Heap} {raw v : Value} {holder : Place} {key : String} {elem : Ty} {l : Loc}
      {i : Nat} (container : n.Reads σ h holder (.array elem l)) (index : Text.index? key = some i)
      (value : n.Converts σ h (Place.element holder key).canonical raw elem v g)
      (inside : l < h.size → i < (h.items l).length)
      (change : h.ChangesOnly h' l (Cell.edit i v)) :
      Writes σ n h raw (.element holder key) h'
  | grown {h h' g : Heap} {raw v : Value} {holder : Place} {key : String} {elem : Ty} {l t : Loc}
      {i : Nat} (container : n.Reads σ h holder (.array elem l)) (index : Text.index? key = some i)
      (value : n.Converts σ h (Place.element holder key).canonical raw elem v g)
      (outside : l < h.size → (h.items l).length ≤ i) (fresh : h.size ≤ t)
      (stored : Writes σ n h (.array elem t) holder h')
      (held : n.Steady σ holder → ∃ made type spot before w, h.Extends made ∧
        n.Holds σ made holder (.array elem l) type spot before ∧
        h.ChangesOnly h' spot.1 (Cell.edit spot.2 w)) :
      Writes σ n h raw (.element holder key) h'

theorem Reads.mono {h g : Heap} {p : Place} {v : Value} (hx : h.Extends g)
    (hr : n.Reads σ g p v) : n.Reads σ h p v := by
  obtain ⟨k, k', hy, ran⟩ := hr
  exact ⟨k, k', hx.trans hy, ran⟩

theorem Writes.mono {h h' g g' : Heap} {raw : Value} {p : Place} (hx : h.Extends g)
    (hs : h.size ≤ h'.size) (hy : ∀ m, m < h.size → h'.cell? m = g'.cell? m)
    (hw : n.Writes σ g raw p g') : n.Writes σ h raw p h' := by
  have items : ∀ {l}, l < h.size → h.items l = g.items l := fun hl => (hx.items_eq hl).symm
  have older : ∀ {l}, l < h.size → l < g.size := fun hl => Nat.lt_of_lt_of_le hl hx.size_le
  induction hw with
  | slot handle access value change =>
    exact .slot handle access (value.mono hx) (change.mono hx hs hy)
  | list container index value change =>
    exact .list (container.mono hx) index (value.mono hx) (change.mono hx hs hy)
  | entry container old converts value only change =>
    exact .entry (container.mono hx) (hx.trans old) converts (value.mono hx) only
      (change.mono hx hs hy)
  | item container index value inside change =>
    exact .item (container.mono hx) index (value.mono hx)
      (fun hl => items hl ▸ inside (older hl)) (change.mono hx hs hy)
  | grown container index value outside fresh stored held ih =>
    refine .grown (container.mono hx) index (value.mono hx)
      (fun hl => items hl ▸ outside (older hl)) (Nat.le_trans hx.size_le fresh)
      (ih hy) fun steady => ?_
    obtain ⟨made, type, spot, before, w, hz, holds, change⟩ := held steady
    exact ⟨made, type, spot, before, w, hx.trans hz, holds, change.mono hx hs hy⟩

theorem Writes.size_le {h h' : Heap} {raw : Value} {p : Place} (hw : n.Writes σ h raw p h') :
    h.size ≤ h'.size := by
  induction hw with
  | slot _ _ _ change => exact change.size_le
  | list _ _ _ change => exact change.size_le
  | entry _ _ _ _ _ change => exact change.size_le
  | item _ _ _ _ change => exact change.size_le
  | grown _ _ _ _ _ _ _ ih => exact ih

theorem ends_readProperty_holds {name : String} (hf : n.IsField σ name) (shown : String)
    (h : Heap) :
    (n.readProperty σ shown name).Ends h
      (fun v h' => ∃ type spot before, n.Holds σ h' (.property name) v type spot before)
      (fun _ _ => True) :=
  ends_readProperty_of hf
    (fun _ _ _ _ found access value => ⟨_, _, _, .field found access value⟩) fun _ => trivial

theorem ends_readElement_holds (hσ : σ.MakesNew) (hn : n.Calm σ) {holder : Place} {key : String}
    (steady : n.Steady σ (.element holder key)) {c : Value} {type : Ty} {spot : Spot}
    {before : List Spot} {h : Heap} (holds : n.Holds σ h holder c type spot before)
    (shown : String) (write : Value → Run PathError Unit) :
    (n.readElement σ shown holder key c write).Ends h
      (fun v h' => ∃ type spot before, n.Holds σ h' (.element holder key) v type spot before)
      (fun _ _ => True) := by
  refine hn.ends_readElement hσ (fun l elem i v sequence index value => ?_)
    (fun s l k v g map converts hx found => ?_) write
  · exact ⟨_, _, _, .item holds sequence index value⟩
  · subst map
    obtain ⟨i, e, first, value, rfl⟩ := MapEntries.findIdx?_of_get? found
    exact ⟨_, _, _, .entry (holds.mono hx) (steady.2 h g k converts) first value⟩

theorem ends_read_holds (hσ : σ.MakesNew) (hn : n.Calm σ) {p : Place} (hf : n.IsField σ p.root)
    (steady : n.Steady σ p) (shown : String) (h : Heap) :
    (n.read σ shown p).Ends h
      (fun v h' => ∃ type spot before, n.Holds σ h' p v type spot before)
      (fun _ _ => True) := by
  induction p generalizing h with
  | property name =>
    rw [Node.read]
    exact ends_readProperty_holds hf shown h
  | element holder key ih =>
    have container : (n.readHolder σ shown holder).Ends h
        (fun c h' => ∃ type spot before, n.Holds σ h' holder c type spot before)
        (fun _ _ => True) := by
      refine ends_readHolder_of (ih hf steady.1 h) (fun _ _ => id) fun c h' hc => ?_
      rw [present, hn.growing]
      split
      · exact hc
      · trivial
    rw [read_element, Run.ends_bind]
    refine container.mono (fun c g hc => ?_) fun _ _ => id
    obtain ⟨type, spot, before, holds⟩ := hc
    exact ends_readElement_holds hσ hn steady holds shown _

/-- What is written to a field is stored in its slot. -/
theorem ends_writeProperty_store (hσ : σ.MakesNew) (hn : n.strategies.Harmless σ) {name : String}
    (hf : n.IsField σ name) (raw : Value) (h : Heap) :
    (n.writeProperty σ name raw).Ends h
      (fun _ h' => ∃ hd i readable writable v g w, n.handle? σ name = some hd ∧
        hd.access = .slot i readable writable ∧
        n.Converts σ h (Place.property name).canonical raw hd.type v g ∧ h.Extends g ∧
        g.slot? n.wrapped.loc i = some w ∧ h' = g.store (n.wrapped.loc, i) v)
      (fun _ _ => True) := by
  unfold writeProperty
  split
  · rename_i hd found
    obtain ⟨i, readable, writable, access⟩ := hf hd found
    dsimp only
    split
    · rw [Run.ends_bind]
      refine (ends_convertFor hσ hn _ raw hd.type).mono (fun v g hv => ?_)
        fun _ _ _ => trivial
      rw [Run.ends_mapError, Handle.set]
      split
      · rw [access]
        cases writable with
        | false => trivial
        | true =>
          simp only [Run.ends_bind, Run.ends_lookup]
          split
          · rename_i after set
            obtain ⟨w, there, rfl⟩ := Heap.eq_store_of_setSlot? set
            exact ⟨hd, i, readable, true, v, g, w, found, access, hv.1, hv.2, there, rfl⟩
          · trivial
      · trivial
    · trivial
  · trivial

theorem ends_writeList_edit (hσ : σ.MakesNew) (hn : n.strategies.Harmless σ) (whole : Place)
    (l : Loc) (key : String) (raw : Value) (h : Heap) :
    (n.writeList σ whole l key raw).Ends h
      (fun _ h' => ∃ i v g, Text.index? key = some i ∧
        n.Converts σ h whole.canonical raw (n.innerType σ whole.root whole.depth) v g ∧
        h.Extends g ∧ h' = g.editItems l (itemsPut i v))
      (fun _ _ => True) := by
  rw [writeList, Run.ends_bind]
  refine (ends_convertFor hσ hn _ raw _).mono (fun v g hv => ?_) fun _ _ _ => trivial
  rw [Run.ends_bind]
  refine ends_indexOf_of (fun i index => ?_) fun _ => trivial
  simp only [Run.ends_bind, Run.ends_lookup]
  split
  · rename_i long
    simp only [Bool.and_eq_true, decide_eq_true_eq] at long
    exact ⟨i, v, g, index, hv.1, hv.2, Heap.appendItems_eq long.1⟩
  · refine (ends_putItem_store v _).mono (fun _ h' hs => ?_) fun _ _ => id
    obtain ⟨inside, rfl⟩ := hs
    exact ⟨i, v, g, index, hv.1, hv.2, Heap.store_eq_editItems inside⟩

theorem ends_writeMap_insert (hσ : σ.MakesNew) (hn : n.strategies.Harmless σ)
    (whole holder : Place) (s : TableShape) (l : Loc) (key : String) (raw : Value) (h : Heap) :
    (n.writeMap σ whole holder s l key raw).Ends h
      (fun _ h' => ∃ k g v g', (n.convertKey σ holder.root holder.depth key).on h = (.ok k, g) ∧
        h.Extends g ∧
        n.Converts σ g whole.canonical raw (n.innerType σ whole.root whole.depth) v g' ∧
        g.Extends g' ∧ h' = g'.insertEntry s l k v)
      (fun _ h' => h.Extends h') := by
  simp only [writeMap, Run.ends_bind, Run.ends_mapError]
  have ran := (harmless_convertKey hσ hn holder.root holder.depth key).ends h
  refine (ran.and (Run.ends_on _ h)).mono (fun k g hk => ?_) fun _ _ he => he.1
  refine (ends_convertFor hσ hn _ raw _).mono (fun v g' hv => ?_) fun _ _ => hk.1.trans
  exact ⟨k, g, v, g', hk.2, hk.1, hv.1, hv.2, rfl⟩

theorem ends_writeProperty_frame (hσ : σ.MakesNew) (hn : n.strategies.Harmless σ) {name : String}
    (hf : n.IsField σ name) (raw : Value) (h : Heap) :
    (n.writeProperty σ name raw).Ends h (fun _ h' => n.Writes σ h raw (.property name) h')
      (fun _ _ => True) := by
  refine (ends_writeProperty_store hσ hn hf raw h).mono (fun _ h' hw => ?_) fun _ _ => id
  obtain ⟨hd, i, readable, writable, v, g, w, found, access, value, hx, -, rfl⟩ := hw
  exact .slot found access value (.store hx)

section Element

variable {h g : Heap} {raw : Value} {holder : Place} {key : String} (hσ : σ.MakesNew)
  (hn : n.strategies.Harmless σ) (hx : h.Extends g)
include hσ hn hx

theorem ends_writeList_frame {s : ListShape} {l : Loc}
    (container : n.Reads σ h holder (.list s l)) :
    (n.writeList σ (.element holder key) l key raw).Ends g
      (fun _ h' => n.Writes σ h raw (.element holder key) h') (fun _ _ => True) := by
  refine (ends_writeList_edit hσ hn _ l key raw g).mono (fun _ h' hw => ?_) fun _ _ => id
  obtain ⟨i, v, k, index, value, hy, rfl⟩ := hw
  exact .list container index (value.mono hx) (.editItems (hx.trans hy) _)

theorem ends_writeMap_frame {s : TableShape} {l : Loc} (container : n.Reads σ h holder (.map s l)) :
    (n.writeMap σ (.element holder key) holder s l key raw).Ends g
      (fun _ h' => n.Writes σ h raw (.element holder key) h') (fun _ _ => True) := by
  refine (ends_writeMap_insert hσ hn _ holder s l key raw g).mono (fun _ h' hw => ?_)
    fun _ _ _ => trivial
  obtain ⟨k, g₁, v, g₂, converts, hy, value, hz, rfl⟩ := hw
  have old := hx.trans hy
  exact .entry container hx converts (value.mono old) (fun es => MapEntries.put_insert s es k v)
    (.editEntries (old.trans hz) _)

/-- An array that is too short gives its place to a longer copy, and so it is the holder
that is written. -/
theorem ends_writeArray_frame {elem : Ty} {l : Loc} (container : n.Reads σ h holder (.array elem l))
    (held : n.Steady σ holder →
      ∃ type spot before, n.Holds σ g holder (.array elem l) type spot before)
    (ih : ∀ v k, (n.write σ holder v).Ends k (fun _ k' => n.Writes σ k v holder k')
      fun _ _ => True) :
    (n.writeArray σ (.element holder key) elem l key raw (n.write σ holder)).Ends g
      (fun _ h' => n.Writes σ h raw (.element holder key) h') (fun _ _ => True) := by
  refine ends_writeArray hσ hn (fun i v g₁ index value hy room => ?_)
    fun i v g₁ t news g₂ index value hy copied => ?_
  · have old := hx.trans hy
    refine .item container index (value.mono hx) (fun hl => ?_) (.store old)
    rwa [← old.items_eq hl]
  · have old := hx.trans hy
    have fresh : h.size ≤ t := Nat.le_trans old.size_le copied.fresh
    have older := old.trans copied.later
    -- With steady keys the holder is written where the array was read.
    have place : (n.write σ holder (.array elem t)).Ends g₂
        (fun _ g₃ => n.Steady σ holder → ∃ type spot before w k, g₂.Extends k ∧
          n.Holds σ g₂ holder (.array elem l) type spot before ∧ g₃ = k.store spot w)
        (fun _ _ => True) := by
      by_cases steady : n.Steady σ holder
      · obtain ⟨type, spot, before, holds⟩ := held steady
        have holds := holds.mono (hy.trans copied.later)
        refine (holds.ends_write hσ hn _).mono (fun _ g₃ hw _ => ?_) fun _ _ _ => trivial
        obtain ⟨w, k, -, hz, rfl⟩ := hw
        exact ⟨type, spot, before, w, k, hz, holds, rfl⟩
      · exact (Run.ends_on _ g₂).mono (fun _ _ _ hs => absurd hs steady) fun _ _ _ => trivial
    refine ((ih _ g₂).and place).mono (fun _ g₃ hw => ?_) fun _ _ _ => trivial
    obtain ⟨stored, place⟩ := hw
    have size : h.size ≤ (g₃.store (t, i) v).size := by
      rw [Heap.size_store]
      exact Nat.le_trans older.size_le stored.size_le
    have apart : ∀ m, m < h.size → (g₃.store (t, i) v).cell? m = g₃.cell? m := fun m hm =>
      Heap.cell?_store_of_ne (Nat.ne_of_lt (Nat.lt_of_lt_of_le hm fresh))
    refine .grown container index (value.mono hx) (fun hl => ?_) fresh
      (stored.mono older size apart) fun steady => ?_
    · rw [← old.items_eq hl]
      exact copied.short
    · obtain ⟨type, spot, before, w, k, hz, holds, rfl⟩ := place steady
      refine ⟨g₂, type, spot, before, w, older, holds, ?_⟩
      exact (Heap.ChangesOnly.store (older.trans hz)).mono (.refl h) size apart

end Element

/-- An element is written by writing to its container, or to the holder of that. -/
theorem ends_write_frame (hσ : σ.MakesNew) (hn : n.Calm σ) {p : Place} (hf : n.IsField σ p.root)
    (raw : Value) (h : Heap) :
    (n.write σ p raw).Ends h (fun _ h' => n.Writes σ h raw p h') (fun _ _ => True) := by
  induction p generalizing raw h with
  | property name =>
    rw [write]
    exact ends_writeProperty_frame hσ hn.strategies hf raw h
  | element holder key ih =>
    have field : n.IsField σ holder.root := hf
    have held : (n.read σ holder.canonical holder).Ends h
        (fun c g => n.Steady σ holder → ∃ type spot before, n.Holds σ g holder c type spot before)
        (fun _ _ => True) := by
      by_cases steady : n.Steady σ holder
      · exact (ends_read_holds hσ hn field steady _ h).mono (fun _ _ hc _ => hc) fun _ _ => id
      · exact (Run.ends_on _ h).mono (fun _ _ _ hs => absurd hs steady) fun _ _ _ => trivial
    have harmless := (harmless_read hσ hn holder.canonical field.quiet).ends h
    rw [write, Run.ends_bind, Run.ends_mapError]
    refine (harmless.and ((Run.ends_on _ h).and held)).mono (fun c g hc => ?_)
      fun _ _ _ => trivial
    obtain ⟨hx, ran, held⟩ := hc
    have container : n.Reads σ h holder c := ⟨h, g, .refl h, ran⟩
    rw [present, hn.growing]
    split
    · rw [pure_bind]
      unfold writeElement
      split
      · exact ends_writeArray_frame hσ hn.strategies hx container held fun v k => ih field v k
      · exact ends_writeList_frame hσ hn.strategies hx container
      · exact ends_writeMap_frame hσ hn.strategies hx container
      · trivial
    · trivial

end Node

namespace Accessor

variable {σ : Schema} {a a' : Accessor} {h h' : Heap}

/-- A path through fields is written without growing anything. Of all that existed, only
what the write to its last place says has changed. -/
theorem frame_of_apply (hσ : σ.MakesNew) (hg : ∀ n ∈ a.nodes, n.config.growing = false)
    (hS : ∀ n ∈ a.nodes, n.strategies.Harmless σ) {text : String} {p : Path}
    (read : Path.parse text = .ok p)
    (fields : Along σ (fun n _ s => n.IsField σ s.name) [] a.node a h p.segments) {raw : Value}
    (ok : on (apply σ text raw) a h = ((.ok (), a'), h')) :
    ∃ outer s n g, p.segments = outer ++ [s] ∧ h.Extends g ∧
      on (follow σ p) a h = ((.ok (n, Place.ofSegment s), a'), g) ∧
      n.Writes σ h raw (Place.ofSegment s) h' := by
  have ha : a.Calm σ := fun n hn => ⟨hg n hn, hS n hn⟩
  have ends : Walk.Ends (apply σ text raw) a h
      (fun _ b k => ∃ outer s n g, p.segments = outer ++ [s] ∧ h.Extends g ∧
        on (follow σ p) a h = ((.ok (n, Place.ofSegment s), b), g) ∧
        n.Writes σ h raw (Place.ofSegment s) k)
      (fun _ _ _ => True) := by
    refine Walk.ends_apply_of_parse read ?_
    refine ((ends_follow hσ ha (fun _ _ _ => Node.IsField.quiet) fields).and
      (Walk.ends_on _ a h)).mono (fun r b g hr => ?_) fun _ _ _ _ => trivial
    obtain ⟨⟨⟨outer, s, segments, place, field⟩, calm, -, hx⟩, ran⟩ := hr
    obtain ⟨n, last⟩ := r
    obtain rfl : last = Place.ofSegment s := place
    have root : n.IsField σ (Place.ofSegment s).root := by rwa [Place.root_ofSegment]
    refine (Node.ends_write_frame hσ calm root raw g).mono (fun _ k hw => ?_) fun _ _ _ => trivial
    exact ⟨outer, s, n, g, segments, hx, ran,
      hw.mono hx (Nat.le_trans hx.size_le hw.size_le) fun _ _ => rfl⟩
  exact ends.of_ok ok

theorem frame_of_apply_board :
    ∃ a' h', on (apply Board.schema "scores[2]" (Board.score 7 (by decide)))
        Board.accessor Board.heap = ((.ok (), a'), h') ∧
      ∃ outer s n g, [⟨"scores", ["2"]⟩] = outer ++ [s] ∧ Board.heap.Extends g ∧
        on (follow Board.schema ⟨[⟨"scores", ["2"]⟩]⟩) Board.accessor Board.heap =
          ((.ok (n, Place.ofSegment s), a'), g) ∧
        n.Writes Board.schema Board.heap (Board.score 7 (by decide)) (Place.ofSegment s) h' := by
  have works : (on (apply Board.schema "scores[2]" (Board.score 7 (by decide)))
      Board.accessor Board.heap).1.1.toBool = true := by decide +kernel
  rcases ho : on (apply Board.schema "scores[2]" (Board.score 7 (by decide)))
    Board.accessor Board.heap with ⟨⟨result, a'⟩, h'⟩
  rw [ho] at works
  cases result with
  | error e => cases works
  | ok u =>
    have path : Path.parse "scores[2]" = .ok ⟨[⟨"scores", ["2"]⟩]⟩ := by cbv
    have field : Board.accessor.node.IsField Board.schema "scores" := fun hd found =>
      ⟨0, true, true, by rw [← Option.some.inj (Board.handle_scores.symm.trans found)]⟩
    exact ⟨a', h', rfl, frame_of_apply Board.harmless_schema.makesNew
      (growing_withGrowing 256) Board.harmless_strategies path field ho⟩

end Accessor

/-! A hall with a mirror: an array that is its own first element. -/

namespace Mirror

def decl : ClassDecl :=
  ⟨"demo.Hall", [], none, [⟨"mirror", .array .any, .readWrite⟩], [], false, .plain, none⟩

def schema : Schema := Schema.empty.declareClass decl

def heap : Heap := ⟨#[.slots [("mirror", .array .any 1)], .items [.array .any 1]]⟩

def accessor : Accessor := .rooted ⟨.empty, .standard, none⟩ .standard ⟨0, 0⟩

end Mirror

namespace Accessor

/-- The array that is too short changes all the same, since it holds itself: the longer
copy takes its place in it. -/
theorem mirror_changed_by_growing :
    (on (resolve Mirror.schema "mirror[0]") Mirror.accessor Mirror.heap).1.1.toOption =
        some (.array .any 1) ∧
      (Mirror.heap.items 1).length ≤ 2 ∧
      (on (apply Mirror.schema "mirror[0][2]" (.text "v")) Mirror.accessor
        Mirror.heap).1.1.toBool = true ∧
      (on (apply Mirror.schema "mirror[0][2]" (.text "v")) Mirror.accessor
        Mirror.heap).2.items 1 ≠ Mirror.heap.items 1 := by
  decide +kernel

end Accessor

end PropertyAccess
