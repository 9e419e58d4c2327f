import PropertyAccess.Proofs.Conversion.Entrywise
import PropertyAccess.Proofs.Navigation.Batches

/-! A map that is written as a whole, and the same entries written one by one to an empty map.
Either way each entry is converted and put into the map that the property has in the end. If
both ways come to the same converters, what they leave is equal up to the identity of what is
new. -/

namespace PropertyAccess

open Strategies

variable {σ : Schema} {n : Node} {name : String} {shape s t : TableShape} {K V : Ty} {i : Nat}
  {g h h' : Heap} {e l : Loc} {raw v : Value}

def textEntries (pairs : List (String × Value)) : List (Value × Value) :=
  pairs.map fun x => (.text x.1, x.2)

/-- The property is that slot: what is there is read, and what is set is stored there. -/
structure Handle.Backed (σ : Schema) (hd : Handle) (i : Nat) : Prop where
  readable : hd.isReadable = true
  writable : hd.isWritable = true
  get : ∀ (o : ObjectRef) (h : Heap) (v : Value), h.slot? o.loc i = some v →
    (hd.get o).on h = (.ok v, h)
  set : ∀ (o : ObjectRef) (v : Value) (h h' : Heap), (hd.set σ o v).on h = (.ok (), h') →
    h.setSlot? o.loc i v = some h'

theorem Handle.backed_of_slot {hd : Handle} (access : hd.access = .slot i true true) :
    hd.Backed σ i where
  readable := by simp [isReadable, access]
  writable := by simp [isWritable, access]
  get o h v there := hd.on_get_of_slot access there
  set o v h h' stored := ((on_set_of_slot_iff access).1 stored).2.2

namespace Node

/-- The property is a map in a slot, and no converter applies to it as a whole. -/
structure HasMap (σ : Schema) (n : Node) (name : String) (shape : TableShape) (K V : Ty) (i : Nat) :
    Prop where
  handle : ∃ hd, n.handle? σ name = some hd ∧ hd.type = .map shape K V ∧ hd.Backed σ i
  own : n.strategies.custom? σ (.map shape K V) (some (wholePath name)) = none
  usual : ∀ c, n.strategies.defaults.find? σ (.map shape K V) = some c → c = .map

namespace HasMap

variable (has : n.HasMap σ name shape K V i)
include has

theorem exists_of_whole (ran : (n.write σ (.property name) raw).on h = (.ok (), h')) :
    ∃ v g, (n.strategies.convert σ (.map shape K V) (some (wholePath name)) raw).on h = (.ok v, g) ∧
      g.setSlot? n.wrapped.loc i v = some h' := by
  obtain ⟨hd, found, type, backed⟩ := has.handle
  rw [write, writeProperty, found] at ran
  dsimp only at ran
  rw [if_pos backed.writable, type] at ran
  obtain ⟨v, g, converted, stored⟩ := Run.exists_of_bind ran
  exact ⟨v, g, Run.on_of_mapError converted, backed.set _ _ _ _ (Run.on_of_mapError stored)⟩

theorem exists_of_entry {k : String} (slot : h.slot? n.wrapped.loc i = some (.map s e))
    (ran : (n.write σ (.element (.property name) k) raw).on h = (.ok (), h')) :
    ∃ f g, (n.strategies.convertAlone σ K V name (.text k, raw)).on h = (.ok f, g) ∧
      h' = g.insertEntry s e f.1 f.2 := by
  obtain ⟨hd, found, type, backed⟩ := has.handle
  have read : (Run.mapError (n.holderError σ (entryPath name k))
      (n.read σ (wholePath name) (.property name))).on h = (.ok (.map s e), h) := by
    rw [Node.read, readProperty, found]
    dsimp only
    rw [if_pos backed.readable, Run.on_mapError, Run.on_mapError, backed.get _ _ _ slot]
    rfl
  have start : n.write σ (.element (.property name) k) raw = (do
      let found ← Run.mapError (n.holderError σ (entryPath name k))
        (n.read σ (wholePath name) (.property name))
      let container ← n.present σ (.property name) (entryPath name k) found
        (n.read σ (wholePath name) (.property name)) (n.write σ (.property name))
      n.writeElement σ (.element (.property name) k) (.property name) k raw container
        (n.write σ (.property name))) := rfl
  rw [start, Run.on_bind_of_ok read] at ran
  have element : (n.writeMap σ (.element (.property name) k) (.property name) s e k raw).on h =
      (.ok (), h') := ran
  have keyType : n.innerKeyType σ name 0 = K := by
    rw [innerKeyType, found, Option.map_some, type]
    rfl
  have valueType : n.innerType σ name 1 = V := by
    rw [innerType, found, Option.map_some, type]
    rfl
  obtain ⟨key, g, first, rest⟩ := Run.exists_of_bind element
  obtain ⟨value, g', second, last⟩ := Run.exists_of_bind rest
  have first : (n.strategies.convert σ (n.innerKeyType σ name 0) none (.text k)).on h =
      (.ok key, g) := Run.on_of_mapError first
  have second : (n.strategies.convert σ (n.innerType σ name 1) (some (entryPath name k)) raw).on g =
      (.ok value, g') := Run.on_of_mapError second
  rw [keyType] at first
  rw [valueType] at second
  cases last
  exact ⟨(key, value), g',
    (Run.on_bind_of_ok first _).trans ((Run.on_bind_of_ok second _).trans rfl),
    rfl⟩

end HasMap

end Node

namespace Accessor

variable {a a' : Accessor}

theorem exists_of_apply {text : String} {s : Segment} (read : Path.parse text = .ok ⟨[s]⟩)
    (ran : on (apply σ text raw) a h = ((.ok (), a'), h')) :
    a' = a ∧ (a.node.write σ (Place.ofSegment s) raw).on h = (.ok (), h') := by
  have followed : on (follow σ ⟨[s]⟩) a h = ((.ok (a.node, Place.ofSegment s), a), h) := rfl
  rw [on_apply read, followed] at ran
  obtain ⟨outcome, rfl⟩ := Prod.mk.inj ran
  obtain ⟨result, rfl⟩ := Prod.mk.inj outcome
  exact ⟨rfl, Prod.ext result rfl⟩

/-- The entries, each as a write of its own at a spelling of its path. -/
def entryWrites (spelled : String → String) (pairs : List (String × Value)) : Batch :=
  pairs.map fun x => ⟨spelled x.1, x.2, false⟩

theorem turns_of_applyEach {i : Nat} (has : a.node.HasMap σ name shape K V i)
    (quiet : Run.Derives σ (a.node.strategies.convertAlone σ K V name))
    {spelled : String → String} {pairs : List (String × Value)}
    (read : ∀ x ∈ pairs, Path.parse (spelled x.1) = .ok ⟨[⟨name, [x.1]⟩]⟩)
    (slot : h.slot? a.node.wrapped.loc i = some (.map s e)) {es : List (Value × Value)}
    (cell : h.cell? e = some (.entries es))
    (ran : on (applyEach σ (entryWrites spelled pairs)) a h = ((.ok (), a'), h')) :
    ∃ fs, Run.Turns (a.node.strategies.convertAlone σ K V name)
        (fun f g => g.insertEntry s e f.1 f.2) h (textEntries pairs) fs h' ∧
      h'.slot? a.node.wrapped.loc i = some (.map s e) ∧
      h'.cell? e = some (.entries (fs.foldl (fun es f => MapEntries.insert s es f.1 f.2) es)) := by
  induction pairs generalizing h es with
  | nil =>
    cases ran
    exact ⟨[], .nil _, slot, cell⟩
  | cons x pairs ih =>
    rw [List.forall_mem_cons] at read
    rw [entryWrites, List.map_cons, applyEach, Walk.on_bind] at ran
    dsimp only at ran
    rcases first : on (apply σ (spelled x.1) x.2) a h with ⟨⟨_ | ⟨⟩, b⟩, g⟩
    · rw [first] at ran
      cases ran
    rw [first] at ran
    obtain ⟨rfl, wrote⟩ := exists_of_apply read.1 first
    obtain ⟨f, h₁, converted, rfl⟩ := has.exists_of_entry slot wrote
    have grown : h.Extends h₁ := by simpa [converted] using quiet.harmless (.text x.1, x.2) h
    have changes : h.ChangesOnly (h₁.insertEntry s e f.1 f.2) e
        (Cell.mapEntries (MapEntries.insert s · f.1 f.2)) := .editEntries grown _
    have owned := Heap.cell?_of_slot? slot
    have apart : b.node.wrapped.loc ≠ e := fun same => by
      rw [same, cell] at owned
      cases owned
    have slot₁ : (h₁.insertEntry s e f.1 f.2).slot? b.node.wrapped.loc i = some (.map s e) := by
      rw [Heap.slot?, Heap.slots, changes.of_ne (Heap.lt_size_of_cell? owned) apart, ← Heap.slots,
        ← Heap.slot?, slot]
    have cell₁ : (h₁.insertEntry s e f.1 f.2).cell? e =
        some (.entries (MapEntries.insert s es f.1 f.2)) := by
      rw [changes.cell?_eq e (Heap.lt_size_of_cell? cell), if_pos rfl, cell]
      rfl
    obtain ⟨fs, turns, last, entries⟩ := ih read.2 slot₁ cell₁ ran
    exact ⟨f :: fs, .cons converted turns, last, entries⟩

end Accessor

section Maps

variable {T : Loc → Prop} {pairs : List (String × Value)} {S : Strategies}

/-- A map in the graph with texts as keys, from which only cells of the set can be reached. -/
structure Heap.TextMap (h : Heap) (T : Loc → Prop) (s : TableShape) (l : Loc)
    (pairs : List (String × Value)) : Prop where
  closed : h.Closed T
  inside : T l
  entries : h.entries l = textEntries pairs
  whole : MapEntries.ofList s (textEntries pairs) = textEntries pairs

theorem texts_textEntries (pairs : List (String × Value)) :
    ∀ e ∈ textEntries pairs, ∃ x ∈ pairs, e = (.text x.1, x.2) := by
  intro e he
  obtain ⟨x, hx, rfl⟩ := List.mem_map.1 he
  exact ⟨x, hx, rfl⟩

theorem exists_text_of_mem {f : Value × Value} (hf : f ∈ textEntries pairs) :
    ∃ k, f.1 = .text k := by
  obtain ⟨x, -, rfl⟩ := texts_textEntries pairs f hf
  exact ⟨x.1, rfl⟩

theorem Heap.TextMap.apart (map : h.TextMap T s l pairs) :
    MapEntries.Apart (textEntries pairs) := by
  rw [← map.whole]
  exact MapEntries.apart_ofList s _

/-- The keys are converted to scalars, no two of which are the same. -/
structure Strategies.KeysApart (σ : Schema) (S : Strategies) (K : Ty) (h : Heap)
    (pairs : List (String × Value)) (key : String → Value) : Prop where
  converts : ∀ x ∈ pairs, ((S.convert σ K none (.text x.1)).on h).1 = .ok (key x.1)
  scalar : ∀ x ∈ pairs, (key x.1).loc? = none
  apart : pairs.Pairwise fun x y => (key x.1).same (key y.1) = false

namespace Accessor

variable {a a₁ a₂ : Accessor} {b c h₁ h₂ : Heap} {N : Names} {text : String} {w : Value}

/-- Written as a whole, the map of the property has the entries of imprints, or still those that
it was given. -/
theorem exists_imprints_of_whole (hS : a.node.strategies.Local σ)
    (service : a.node.strategies.service = none) (has : a.node.HasMap σ name shape K V i)
    (given : h.TextMap T s l pairs) (outside : ¬ T a.node.wrapped.loc)
    (served : ∀ x ∈ pairs, a.node.strategies.ServesAlike σ K V name x.1)
    (read : Path.parse text = .ok ⟨[⟨name, []⟩]⟩)
    (held : h.setSlot? a.node.wrapped.loc i w = some b)
    (whole : on (apply σ text (.map s l)) a b = ((.ok (), a₁), h₁)) (alike : c.Alike N h)
    (names : ∀ l, l ∈ N ↔ T l) :
    ∃ (r : Value × Value → Run ConvertError (Value × Value)) (ts : List Imprint) (u : TableShape)
      (m : Loc) (s' : TableShape) (es : List (Value × Value)),
      (∀ k v, a.node.strategies.ServesAlike σ K V name k →
        (r (.text k, v)).Concurs (a.node.strategies.convertAlone σ K V name (.text k, v))) ∧
      CopiedAs shape s (textEntries pairs) s' es ∧
      Imprint.Series r c N h.size h₁ (es.map N.entry) ts ∧
      h₁.slot? a.node.wrapped.loc i = some (.map u m) ∧
      ((shape.admits s' = true ∧ h₁.entries m = es) ∧ List.Forall₂ Stayed es (ts.map (·.made)) ∨
        h₁.entries m = MapEntries.ofList (shape.adopt s') (ts.map (·.made))) := by
  obtain ⟨-, wrote⟩ := exists_of_apply read whole
  obtain ⟨v, g', converted, stored⟩ := has.exists_of_whole wrote
  obtain ⟨w', there, rfl⟩ := Heap.eq_store_of_setSlot? held
  have other {m : Loc} (hm : T m) : m ≠ a.node.wrapped.loc := fun same => outside (same ▸ hm)
  have closed : h.Closed (· ∈ N) := by simpa only [names] using given.closed
  have kept : ∀ m ∈ N, (h.store (a.node.wrapped.loc, i) w).cell? m = h.cell? m := fun m hm =>
    Heap.cell?_store_of_ne (other ((names m).1 hm))
  have inside : l < (h.store (a.node.wrapped.loc, i) w).size := by
    rw [Heap.size_store]
    exact given.closed.lt_size given.inside
  have entries : (h.store (a.node.wrapped.loc, i) w).entries l = textEntries pairs := by
    rw [Heap.entries_store_of_ne (other given.inside), given.entries]
  obtain ⟨u, m, s', es, g, rfl, place, grown, refilled, copied⟩ := refilled_of_convert
    hS.makesOwn.makesNew hS.harmless service has.own has.usual inside converted
  rw [entries] at copied
  have mem {e : Value × Value} (he : e ∈ es) : e ∈ textEntries pairs :=
    (copied.perm given.apart).mem_iff.2 he
  have served' : ∀ e ∈ es, ∃ k, e.1 = .text k ∧ a.node.strategies.ServesAlike σ K V name k := by
    intro e he
    obtain ⟨x, hx, rfl⟩ := texts_textEntries pairs e (mem he)
    exact ⟨x.1, rfl, served x hx⟩
  have within : ∀ e ∈ es, e.1.Within (· ∈ N) ∧ e.2.Within (· ∈ N) := fun e he =>
    closed.entries ((names l).2 given.inside) e (given.entries ▸ mem he)
  obtain ⟨r, ts, concurs, series, outcome⟩ := refilled.exists_imprints hS service served'
    ((alike.of_cells (Nat.le_of_eq Heap.size_store.symm) kept).more grown)
    ((closed.of_cells kept).mono grown) within
  obtain ⟨w'', slot, rfl⟩ := Heap.eq_store_of_setSlot? stored
  have larger : h.size ≤ g.size := Heap.size_store ▸ grown.size_le
  have root : a.node.wrapped.loc < h.size := Heap.lt_size_of_cell? (Heap.cell?_of_slot? there)
  have apart_m : m ≠ a.node.wrapped.loc := by
    rcases place with rfl | new
    · exact other given.inside
    · exact Nat.ne_of_gt (Nat.lt_of_lt_of_le root (Heap.size_store ▸ new))
  rw [← Heap.entries_store_of_ne (h := g') (s := (a.node.wrapped.loc, i)) (v := .map u m) apart_m]
    at outcome
  refine ⟨r, ts, u, m, s', es, concurs, copied, (series.anti larger).of_cells fun m own => ?_,
    Heap.slot?_store_self slot, outcome⟩
  refine Heap.cell?_store_of_ne ?_
  rcases own with old | new
  · exact other ((names m).1 old)
  · exact Nat.ne_of_gt (Nat.lt_of_lt_of_le root new)

/-- Written one by one to an empty map, the entries are imprints of the given ones. -/
theorem exists_imprints_of_each (hS : a.node.strategies.Local σ)
    (has : a.node.HasMap σ name shape K V i) (given : h.TextMap T s l pairs) (outside : ¬ T e)
    (slot : h.slot? a.node.wrapped.loc i = some (.map t e))
    (empty : h.cell? e = some (.entries []))
    {key : String → Value} (keys : a.node.strategies.KeysApart σ K h pairs key)
    {spelled : String → String}
    (read : ∀ x ∈ pairs, Path.parse (spelled x.1) = .ok ⟨[⟨name, [x.1]⟩]⟩)
    (each : on (applyEach σ (entryWrites spelled pairs)) a h = ((.ok (), a₂), h₂))
    (alike : c.Alike N h) (names : ∀ l, l ∈ N ↔ T l) :
    ∃ us, Imprint.Series (a.node.strategies.convertAlone σ K V name) c N h.size h₂
        ((textEntries pairs).map N.entry) us ∧
      us.map (·.made.1) = pairs.map (key ·.1) ∧
      h₂.slot? a.node.wrapped.loc i = some (.map t e) ∧
      h₂.entries e = MapEntries.ofList t (us.map (·.made)) := by
  have quiet : Run.Derives σ (a.node.strategies.convertAlone σ K V name) := derives_convertEntry hS
  have closed : h.Closed (· ∈ N) := by simpa only [names] using given.closed
  obtain ⟨fs, turns, last, entries⟩ := turns_of_applyEach has quiet read slot empty each
  have within : ∀ f ∈ textEntries pairs, f.1.Within (· ∈ N) ∧ f.2.Within (· ∈ N) := fun f hf =>
    closed.entries ((names l).2 given.inside) f (given.entries ▸ hf)
  obtain ⟨us, series, rfl⟩ := turns.exists_imprints quiet
    (sparesAfter_insertEntry t e) (fun l same => ⟨fun hl => outside (same ▸ (names l).1 hl),
      same ▸ Heap.lt_size_of_cell? empty⟩) alike closed (Names.alike_entries within)
  refine ⟨us, series, ?_, last, ?_⟩
  · have known : ∀ u ∈ us, u.made.1 = key u.given.1.keyText := by
      intro u hu
      obtain ⟨f, hf, own⟩ := List.mem_map.1 (series.mem hu)
      obtain ⟨x, hx, rfl⟩ := texts_textEntries pairs f hf
      have text : u.given.1 = .text x.1 := by
        rw [← own]
        rfl
      rw [(series.sound u hu).made_key hS alike text (keys.scalar x hx) (keys.converts x hx), text]
      rfl
    have of_given : us.map (fun u => key u.given.1.keyText) =
        (us.map (·.given)).map fun f => key f.1.keyText := by
      rw [List.map_map]
      rfl
    rw [List.map_congr_left known, of_given, series.given, textEntries, List.map_map, List.map_map]
    rfl
  · rw [Heap.entries, entries]
    rfl

/-- A map of texts is written to a property that is a map, as a whole or entry by entry to an
empty one. Where no converter applies to the map as a whole, each entry is served by the same
converters either way and its key becomes a scalar of its own, the property has the same entries
in the end, up to the identity of what is new. They are in the same sequence, too, if both maps
are sorted or neither is, where the type leaves that open, and if a sorted map that gets the
entries in another order knows the order of their keys. -/
theorem same_entries (hS : a.node.strategies.Local σ) (service : a.node.strategies.service = none)
    (has : a.node.HasMap σ name shape K V i) (given : h.TextMap T s l pairs)
    (served : ∀ x ∈ pairs, a.node.strategies.ServesAlike σ K V name x.1)
    {key : String → Value} (keys : a.node.strategies.KeysApart σ K h pairs key)
    (slot : h.slot? a.node.wrapped.loc i = some (.map t e))
    (empty : h.cell? e = some (.entries [])) (outside : ¬ T e) (fits : shape.admits t = true)
    (read : Path.parse text = .ok ⟨[⟨name, []⟩]⟩) {spelled : String → String}
    (readEach : ∀ x ∈ pairs, Path.parse (spelled x.1) = .ok ⟨[⟨name, [x.1]⟩]⟩)
    (held : h.setSlot? a.node.wrapped.loc i w = some b)
    (whole : on (apply σ text (.map s l)) a b = ((.ok (), a₁), h₁))
    (each : on (applyEach σ (entryWrites spelled pairs)) a h = ((.ok (), a₂), h₂)) :
    ∃ u m B, h₁.slot? a.node.wrapped.loc i = some (.map u m) ∧
      h₂.slot? a.node.wrapped.loc i = some (.map t e) ∧ Heap.Paired h.size B h₁ h₂ ∧
      (∃ es : List (Value × Value), (h₁.entries m).Perm es ∧
        List.Forall₂ (MapEntries.Beside (Value.Matches B)) es (h₂.entries e)) ∧
      ((shape = .any → (t = .sorted ↔ s = .sorted)) →
        (t = .sorted → shape.admits s = false →
          ∃ rank, MapEntries.Ranked rank (pairs.map fun x => (key x.1, x.2))) →
        List.Forall₂ (MapEntries.Beside (Value.Matches B)) (h₁.entries m) (h₂.entries e)) := by
  obtain ⟨c, N, alike, names⟩ := given.closed.exists_alike
  have root : ¬ T a.node.wrapped.loc := fun inside =>
    outside (given.closed.slot inside slot e rfl)
  obtain ⟨r, ts, u, m, s', es, concurs, copied, seriesT, slotT, outcome⟩ :=
    exists_imprints_of_whole hS service has given root served read held whole alike names
  obtain ⟨us, seriesU, keysU, slotU, entriesU⟩ :=
    exists_imprints_of_each hS has given outside slot empty keys readEach each alike names
  -- Either way the same comes of an entry.
  have concur : ∀ u ∈ us,
      (r u.given).Concurs (a.node.strategies.convertAlone σ K V name u.given) := by
    intro u hu
    obtain ⟨f, hf, own⟩ := List.mem_map.1 (seriesU.mem hu)
    obtain ⟨x, hx, rfl⟩ := texts_textEntries pairs f hf
    rw [← own]
    exact concurs x.1 _ (served x hx)
  have perm := copied.perm given.apart
  have nodup := Names.nodup_entries (N := N) (fun _ => exists_text_of_mem) given.apart
  have scalar : ∀ u ∈ us, u.made.1.loc? = none := by
    intro u hu
    obtain ⟨x, hx, own⟩ := List.mem_map.1 (keysU ▸ List.mem_map_of_mem hu)
    rw [← own]
    exact keys.scalar x hx
  have keyed : (us.map (·.made)).map (·.1) = (pairs.map fun x => (key x.1, x.2)).map (·.1) := by
    rw [List.map_map, List.map_map]
    exact keysU
  have apart : MapEntries.Apart (pairs.map fun x => (key x.1, x.2)) :=
    List.pairwise_map.2 keys.apart
  refine ⟨u, m, Imprint.Pairs ts us, slotT, slotU, Imprint.paired_pairs seriesT.sound seriesU.sound
    concur (seriesT.apart ((perm.map _).nodup_iff.1 nodup)) (seriesU.apart nodup), ?_⟩
  rw [entriesU]
  rcases outcome with ⟨⟨suits, entries⟩, stayed⟩ | entries
  · -- The entries of the whole map are still those that it was given.
    have matched := Imprint.matched_of_stayed seriesT seriesU concur perm scalar stayed
    rw [entries]
    refine ⟨?_, fun same _ => ?_⟩
    · obtain ⟨gs, order, aligned⟩ := MapEntries.exists_perm_ofList matched (apart.of_keys keyed) t
      exact ⟨gs, perm.symm.trans order, aligned⟩
    · rw [copied.eq_ofList fits same suits given.whole]
      exact MapEntries.forall₂_ofList t matched
  · obtain ⟨fs, order, unmoved, matched⟩ := Imprint.exists_matched seriesT seriesU concur perm
      scalar
    have keyed' := (MapEntries.map_fst_of_beside matched).trans keyed
    have apart' := apart.of_keys keyed'
    rw [entries]
    refine ⟨?_, fun same ranked => ?_⟩
    · obtain ⟨gs, order', aligned⟩ := MapEntries.exists_perm_ofList matched (apart.of_keys keyed) t
      exact ⟨gs, ((MapEntries.perm_ofList _ (apart'.perm order)).trans order.symm).trans order',
        aligned⟩
    have sequence : MapEntries.ofList (shape.adopt s') (ts.map (·.made)) =
        MapEntries.ofList t fs := by
      rw [MapEntries.ofList_congr (TableShape.adopt_eq_sorted fits (copied.open_ same))]
      by_cases moved : es = textEntries pairs
      · rw [unmoved moved]
      · -- Only here does it matter in which order the entries come.
        obtain ⟨unfit, rfl⟩ := copied.sorted_of_ne fits given.apart moved
        obtain ⟨rank, ranked⟩ := ranked rfl unfit
        exact (MapEntries.ofList_sorted_of_perm apart' (ranked.of_keys keyed') order).symm
    rw [sequence]
    exact MapEntries.forall₂_ofList t matched

end Accessor

end Maps

/-! A sorted stock of numbers, and a converter for one of its entries. -/

namespace Stock

def schema : Schema := Schema.empty.declareClass
  ⟨"demo.Store", [], none, [⟨"stock", .map .sorted .text (.number (.int .i32)), .readWrite⟩], [],
    false, .plain, none⟩

def heap : Heap :=
  ⟨#[.slots [("stock", .map .sorted 1)], .entries [],
    .entries [(.text "b", .text "5"), (.text "a", .text "7")]]⟩

def pairs : List (String × Value) := [("b", .text "5"), ("a", .text "7")]

def number (z : Int) (h : IntKind.i32.Holds z) : Value := .number (.int .i32 z h)

theorem holds_seven : IntKind.i32.Holds 7 := by decide

theorem holds_hundred : IntKind.i32.Holds 100 := by decide

def hundred : Converter := .ofText "hundred" fun _ _ _ => return number 100 holds_hundred

def strategies : Strategies :=
  ⟨⟨[], [⟨⟨[⟨"stock", ["b"]⟩]⟩, [(some (.number (.int .i32)), hundred)]⟩]⟩, .standard, none⟩

def accessor : Accessor := .rooted strategies .standard ⟨0, 0⟩

def spelled (key : String) : String := "stock[" ++ key ++ "]"

theorem mem_registered {c : Converter} (hc : c ∈ strategies.registered.converters) :
    c = hundred := by
  simpa [strategies, Registrations.converters, PathScope.converters] using hc

theorem plain : ∀ d ∈ schema.classes, d.fromText = none ∧
    ∀ run, d.construction ≠ .initialized run := by
  intro d hd
  rw [List.mem_singleton.1 hd]
  exact ⟨rfl, nofun⟩

theorem local_strategies : strategies.Local schema where
  makesOwn := (Schema.makesTrees_of_plain plain).makesOwn
  constructs :=
    ⟨fun d hd run made => absurd made ((plain d hd).2 run), fun d hd make made => by
      rw [(plain d hd).1] at made
      cases made⟩
  harmless :=
    { registered := fun c hc => by
        rw [mem_registered hc]
        exact ⟨fun _ _ => .pure _, fun _ _ => .pure _⟩
      defaults := (Strategies.harmless_standard schema).defaults
      service := by simp [strategies] }
  uniform :=
    { registered := fun c hc => by
        rw [mem_registered hc]
        exact Converter.uniform_ofText schema _ fun _ _ _ => .pure (.scalar rfl)
      defaults := DefaultTable.uniform_standard schema
      service := by simp [strategies] }
  encloses A :=
    { registered := fun c hc => by
        rw [mem_registered hc]
        exact ⟨fun _ _ _ => .pure (.scalar rfl), fun _ _ _ hv => .pure hv⟩
      defaults := DefaultTable.stays_standard _
      service := by simp [strategies]
      instances := False.elim }

theorem hasMap : accessor.node.HasMap schema "stock" .sorted .text (.number (.int .i32)) 0 where
  handle := ⟨⟨"stock", .map .sorted .text (.number (.int .i32)), .slot 0 true true⟩, by rfl, rfl,
    Handle.backed_of_slot rfl⟩
  own := Option.isNone_iff_eq_none.1 (by decide +kernel)
  usual c found := by
    have standard : strategies.defaults.find? schema (.map .sorted .text (.number (.int .i32))) =
        some .map := by rfl
    exact (Option.some.inj (standard.symm.trans found)).symm

theorem textMap : heap.TextMap (· = 2) .linked 2 pairs where
  closed l hl := by
    subst hl
    exact ⟨_, rfl, fun v hv => .scalar (by revert v; decide)⟩
  inside := rfl
  entries := rfl
  whole := by decide

theorem served : ∀ x ∈ pairs,
    strategies.ServesAlike schema .text (.number (.int .i32)) "stock" x.1 := by
  have key (k : String) (none_ : strategies.custom? schema .text
      (keyedPath (some (wholePath "stock")) k) = none) :
      strategies.Interchangeable schema .text none (keyedPath (some (wholePath "stock")) k) :=
    ⟨none_.symm, trivial⟩
  intro x hx
  simp only [pairs, List.mem_cons, List.not_mem_nil, or_false] at hx
  rcases hx with rfl | rfl
  · exact servesAlike_of_plain (by decide)
      (key "b" (Option.isNone_iff_eq_none.1 (by decide +kernel)))
      rfl
  · exact servesAlike_of_plain (by decide)
      (key "a" (Option.isNone_iff_eq_none.1 (by decide +kernel)))
      rfl

theorem keysApart : strategies.KeysApart schema .text heap pairs .text where
  converts x _ := rfl
  scalar _ _ := rfl
  apart := by decide

def converted : List (Value × Value) :=
  [(.text "a", number 7 holds_seven), (.text "b", number 100 holds_hundred)]

def cleared : Heap := (heap.setSlot? 0 0 .null).getD heap

end Stock

namespace Accessor

open Stock

theorem same_entries_stock :
    ∃ a₁ h₁ a₂ h₂ u m B,
      on (apply schema "stock" (.map .linked 2)) accessor cleared = ((.ok (), a₁), h₁) ∧
      on (applyEach schema (entryWrites spelled pairs)) accessor heap = ((.ok (), a₂), h₂) ∧
      h₁.slot? 0 0 = some (.map u m) ∧ h₂.slot? 0 0 = some (.map .sorted 1) ∧
      Heap.Paired heap.size B h₁ h₂ ∧
      List.Forall₂ (MapEntries.Beside (Value.Matches B)) (h₁.entries m) (h₂.entries 1) ∧
      h₂.entries 1 = converted := by
  have works : (on (apply schema "stock" (.map .linked 2)) accessor cleared).1.1.toBool = true := by
    decide +kernel
  have works' : (on (applyEach schema (entryWrites spelled pairs)) accessor heap).1.1.toBool =
      true := by decide +kernel
  have order : (on (applyEach schema (entryWrites spelled pairs)) accessor heap).2.entries 1 =
      converted := by decide +kernel
  rcases whole : on (apply schema "stock" (.map .linked 2)) accessor cleared with ⟨⟨_ | ⟨⟩, a₁⟩, h₁⟩
  · rw [whole] at works
    cases works
  rcases each : on (applyEach schema (entryWrites spelled pairs)) accessor heap with
    ⟨⟨_ | ⟨⟩, a₂⟩, h₂⟩
  · rw [each] at works'
    cases works'
  rw [each] at order
  have read : Path.parse "stock" = .ok ⟨[⟨"stock", []⟩]⟩ := by cbv
  have readEach : ∀ x ∈ pairs, Path.parse (spelled x.1) = .ok ⟨[⟨"stock", [x.1]⟩]⟩ := by
    intro x hx
    simp only [pairs, List.mem_cons, List.not_mem_nil, or_false] at hx
    rcases hx with rfl | rfl <;> cbv
  obtain ⟨u, m, B, slot, slot', paired, -, sequence⟩ := same_entries (a := accessor) (w := .null)
    local_strategies rfl hasMap textMap served keysApart rfl rfl (by decide) rfl read readEach rfl
    whole each
  refine ⟨a₁, h₁, a₂, h₂, u, m, B, rfl, rfl, slot, slot', paired, ?_, order⟩
  refine sequence (fun open_ => by cases open_) fun _ _ => ?_
  refine MapEntries.exists_ranked_of_texts (fun e he => ?_) (List.pairwise_map.2 keysApart.apart)
  obtain ⟨x, -, rfl⟩ := List.mem_map.1 he
  exact ⟨x.1, rfl⟩

end Accessor

end PropertyAccess
