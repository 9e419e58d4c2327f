import PropertyAccess.Proofs.Conversion.Arrays
import PropertyAccess.Proofs.Navigation.FailedWrite
import PropertyAccess.Proofs.Navigation.Way

/-! Writing an element of an array that is there. An array without that position is
copied into a longer one, which is converted for the place that holds it, and the
element is put into the copy. So the element is lost if the conversion gives anything
but the copy itself, and that is the only way in which it is lost. -/

namespace PropertyAccess

/-- What a list of elements becomes when position `i` is written: the value is there,
the others stay, and positions between the end and `i` are filled. -/
structure Schema.Written (σ : Schema) (elem : Ty) (old : List Value) (i : Nat) (v : Value)
    (after : List Value) : Prop where
  length : after.length = max old.length (i + 1)
  value : after[i]? = some v
  others : ∀ j, j < old.length → j ≠ i → after[j]? = old[j]?
  filled : ∀ j, old.length ≤ j → j < i → ∃ u, after[j]? = some u ∧ σ.Fills elem u

/-- In `g'` there is a longer copy at `t` of the array at `l`, which has no position `i` in
`g`. The positions up to `i` hold `news` in it. -/
structure Schema.Copied (σ : Schema) (elem : Ty) (l : Loc) (i : Nat) (g : Heap) (t : Loc)
    (news : List Value) (g' : Heap) : Prop where
  short : (g.items l).length ≤ i
  later : g.Extends g'
  fresh : g.size ≤ t
  cell : g'.cell? t = some (.items (g.items l ++ news))
  length : news.length = i + 1 - (g.items l).length
  fills : ∀ u ∈ news, σ.Fills elem u

theorem Schema.written_set {σ : Schema} {elem : Ty} {old news : List Value} {i : Nat}
    (length : news.length = i + 1 - old.length) (fills : ∀ u ∈ news, σ.Fills elem u) (v : Value) :
    σ.Written elem old i v ((old ++ news).set i v) := by
  have total : (old ++ news).length = max old.length (i + 1) := by
    rw [List.length_append, length]
    omega
  have inside : i < (old ++ news).length := by omega
  refine ⟨by rw [List.length_set, total], List.getElem?_set_self inside, fun j hj hne => ?_,
    fun j hj hlt => ?_⟩
  · rw [List.getElem?_set_ne (Ne.symm hne), List.getElem?_append_left hj]
  · have there : j - old.length < news.length := by omega
    refine ⟨news[j - old.length], ?_, fills _ (List.getElem_mem there)⟩
    rw [List.getElem?_set_ne (Nat.ne_of_gt hlt), List.getElem?_append_right hj,
      List.getElem?_eq_getElem there]

namespace Node

/-- Position `i` is written of an array at `l` with the elements `old`, which `holder`
has at a spot for values of the type. What is written is `v`, into the array at
`target`, once the graph is `made`. That is the same array if it has the position;
otherwise it is a longer copy, and `stored` is what the copy became for the holder. -/
structure PutsItem (σ : Schema) (n : Node) (h : Heap) (holder : Place) (key : String) (raw : Value)
    (elem : Ty) (l : Loc) (old : List Value) (type : Ty) (spot : Spot) (i : Nat) (v : Value)
    (news : List Value) (target : Loc) (stored : Value) (made : Heap) : Prop where
  index : Text.index? key = some i
  value : ∃ g, n.Converts σ h (Place.element holder key).canonical raw elem v g
  length : news.length = i + 1 - old.length
  fills : ∀ u ∈ news, σ.Fills elem u
  items : made.items target = old ++ news
  same : i < old.length → target = l ∧ stored = .array elem l ∧ h.Extends made
  grown : old.length ≤ i → h.size ≤ target ∧ ∃ g g', h.Extends g ∧ g.Extends g' ∧
    g.cell? target = some (.items (old ++ news)) ∧
    (n.convertFor σ holder.canonical (.array elem target) type).on g = (.ok stored, g') ∧
    made = g'.store spot stored

variable {σ : Schema} {n : Node} {h : Heap} {holder : Place} {key : String} {raw : Value}
  {elem type : Ty} {l : Loc} {old : List Value} {spot : Spot} {before : List Spot}

theorem ends_putItem_store {m : Loc} {i : Nat} (v : Value) (missing : PathError) :
    (putItem m i v missing).Ends h (fun _ h' => i < (h.items m).length ∧ h' = h.store (m, i) v)
      (fun _ _ => True) := by
  by_cases hi : i < (h.items m).length
  · refine (ends_putItem_of_some (List.getElem?_eq_getElem hi) v missing).mono
      (fun _ _ hs => ⟨hi, hs⟩) fun _ _ _ => trivial
  · simp only [putItem, Run.ends_bind, Run.ends_lookup, Heap.setItem?, if_neg hi]
    trivial

/-- An element that the array has is replaced. For one that it lacks a copy is written to the
holder first, and the element is put into that. -/
theorem ends_writeArray (hσ : σ.MakesNew) (hn : n.strategies.Harmless σ) {whole : Place}
    {write : Value → Run PathError Unit} {Q : Heap → Prop}
    (inside : ∀ i v g, Text.index? key = some i → n.Converts σ h whole.canonical raw elem v g →
      h.Extends g → i < (g.items l).length → Q (g.store (l, i) v))
    (grown : ∀ i v g t news g', Text.index? key = some i →
      n.Converts σ h whole.canonical raw elem v g → h.Extends g →
      σ.Copied elem l i g t news g' →
      (write (.array elem t)).Ends g' (fun _ g'' => Q (g''.store (t, i) v)) (fun _ _ => True)) :
    (n.writeArray σ whole elem l key raw write).Ends h (fun _ h' => Q h') (fun _ _ => True) := by
  rw [writeArray, Run.ends_bind]
  refine (ends_convertFor hσ hn _ raw elem).mono (fun v g hv => ?_) fun _ _ _ => trivial
  obtain ⟨value, hx⟩ := hv
  rw [Run.ends_bind]
  refine ends_indexOf_of (fun i index => ?_) fun _ => trivial
  rw [Run.ends_bind, ends_lengthened_iff]
  split
  · rename_i grows
    refine (Schema.ends_grownArray hσ elem l (i + 1) g).mono (fun copy g' hc => ?_)
      fun _ _ _ => trivial
    obtain ⟨later, t, news, rfl, fresh, cell, length, fills⟩ := hc
    have copied : σ.Copied elem l i g t news g' :=
      ⟨grows.2.1, later, fresh, cell, length, fills⟩
    refine (grown i v g t news g' index value hx copied).mono (fun _ g'' hq => ?_) fun _ _ => id
    exact (ends_putItem_store v _).mono (fun _ _ stored => stored.2 ▸ hq) fun _ _ => id
  · refine (ends_putItem_store v _).mono (fun _ h' stored => ?_) fun _ _ => id
    obtain ⟨room, rfl⟩ := stored
    exact inside i v g index value hx room

theorem Holds.ends_write_array (hσ : σ.MakesNew) (hn : n.strategies.Harmless σ)
    (hp : n.Holds σ h holder (.array elem l) type spot before)
    (cell : h.cell? l = some (.items old)) (key : String) (raw : Value) :
    (n.write σ (.element holder key) raw).Ends h
      (fun _ h' => ∃ i v news target stored made,
        n.PutsItem σ h holder key raw elem l old type spot i v news target stored made ∧
          h' = made.store (target, i) v)
      (fun _ _ => True) := by
  have old_items {g : Heap} (hx : h.Extends g) : g.items l = old := by
    simp only [Heap.items, hx.cell? cell]
  refine hp.ends_write_element hσ hn rfl fun g hx => ?_
  refine ends_writeArray hσ hn (fun i v g₁ index value hy room => ?_)
    fun i v g₁ t news g₂ index value hy copied => ?_
  · rw [old_items (hx.trans hy)] at room
    refine ⟨i, v, [], l, .array elem l, g₁, ?_, rfl⟩
    exact {
      index
      value := ⟨g₁, value.mono hx⟩
      length := by
        rw [List.length_nil]
        omega
      fills := by simp
      items := by rw [old_items (hx.trans hy), List.append_nil]
      same := fun _ => ⟨rfl, rfl, hx.trans hy⟩
      grown := fun short => absurd room (Nat.not_lt.2 short) }
  · have hx₁ := hx.trans hy
    obtain ⟨short, hx₂, fresh, copy, length, fills⟩ := copied
    rw [old_items hx₁] at short copy length
    refine ((hp.mono (hx₁.trans hx₂)).ends_write hσ hn _).mono (fun _ g₃ hw => ?_)
      fun _ _ _ => trivial
    obtain ⟨stored, g₄, ⟨g₀, hx₃, converts⟩, -, rfl⟩ := hw
    have hx₄ : g₀.Extends g₄ := by
      have ran := harmless_convertFor hσ hn holder.canonical (.array elem t) type g₀
      rwa [converts] at ran
    -- The copy is newer than the spot of the holder, so what is stored there leaves it alone.
    have older : spot.1 < h.size := hp.lt_size spot List.mem_cons_self
    have apart : t ≠ spot.1 :=
      Nat.ne_of_gt (Nat.lt_of_lt_of_le older (Nat.le_trans hx₁.size_le fresh))
    have items : (g₄.store spot stored).items t = old ++ news := by
      rw [Heap.items_store_of_ne apart, Heap.items, (hx₃.trans hx₄).cell? copy]
    refine ⟨i, v, news, t, stored, g₄.store spot stored, ?_, rfl⟩
    exact {
      index, length, fills, items
      value := ⟨g₁, value.mono hx⟩
      same := fun room => absurd room (Nat.not_lt.2 short)
      grown := fun _ => ⟨Nat.le_trans hx₁.size_le fresh, g₀, g₄, hx₁.trans (hx₂.trans hx₃), hx₄,
        hx₃.cell? copy, converts, rfl⟩ }

namespace PutsItem

variable {g : Heap} {i : Nat} {v : Value} {news : List Value} {target : Loc} {stored : Value}
  {made : Heap} {other : Place} {u : Value} {t : Ty} {s : Spot} {passed : List Spot} {m : Node}

theorem mono (hx : h.Extends g)
    (hw : n.PutsItem σ g holder key raw elem l old type spot i v news target stored made) :
    n.PutsItem σ h holder key raw elem l old type spot i v news target stored made where
  index := hw.index
  value := hw.value.imp fun _ hv => hv.mono hx
  length := hw.length
  fills := hw.fills
  items := hw.items
  same hi := ⟨(hw.same hi).1, (hw.same hi).2.1, hx.trans (hw.same hi).2.2⟩
  grown hi := by
    obtain ⟨fresh, g₀, g₁, hy, rest⟩ := hw.grown hi
    exact ⟨Nat.le_trans hx.size_le fresh, g₀, g₁, hx.trans hy, rest⟩

theorem keeps (hw : n.PutsItem σ h holder key raw elem l old type spot i v news target stored made)
    (hp : m.Holds σ h other u t s passed) (hi : i < old.length → (l, i) ∉ s :: passed)
    (hs : old.length ≤ i → spot ∉ s :: passed) :
    m.Holds σ (made.store (target, i) v) other u t s passed := by
  by_cases short : i < old.length
  · obtain ⟨rfl, -, hx⟩ := hw.same short
    exact (hp.mono hx).store_of_not_mem (hi short) v
  · have new := Nat.le_of_not_lt short
    obtain ⟨fresh, g, g', hx, hy, -, -, rfl⟩ := hw.grown new
    refine ((hp.mono (hx.trans hy)).store_of_not_mem (hs new) stored).store_of_not_mem ?_ v
    exact fun hm => absurd (hp.lt_size _ hm) (Nat.not_lt.2 fresh)

theorem holds (hw : n.PutsItem σ h holder key raw elem l old type spot i v news target stored made)
    (hp : n.Holds σ h holder (.array elem l) type spot before)
    (hi : i < old.length → (l, i) ∉ spot :: before) (hs : old.length ≤ i → spot ∉ before) :
    n.Holds σ (made.store (target, i) v) holder stored type spot before := by
  by_cases short : i < old.length
  · obtain ⟨rfl, rfl, hx⟩ := hw.same short
    exact (hp.mono hx).store_of_not_mem (hi short) v
  · have new := Nat.le_of_not_lt short
    obtain ⟨fresh, g, g', hx, hy, -, -, rfl⟩ := hw.grown new
    refine ((hp.mono (hx.trans hy)).store_self (hs new) stored).store_of_not_mem ?_ v
    exact fun hm => absurd (hp.lt_size _ hm) (Nat.not_lt.2 fresh)

theorem written
    (hw : n.PutsItem σ h holder key raw elem l old type spot i v news target stored made) :
    σ.Written elem old i v ((made.store (target, i) v).items target) := by
  have items : (made.store (target, i) v).items target = (made.items target).set i v :=
    Heap.items_store_self
  rw [items, hw.items]
  exact Schema.written_set hw.length hw.fills v

theorem written_iff
    (hw : n.PutsItem σ h holder key raw elem l old type spot i v news target stored made) :
    (∃ m, stored = .array elem m ∧ σ.Written elem old i v ((made.store (target, i) v).items m)) ↔
      stored = .array elem target ∨
        ∃ m, stored = .array elem m ∧ σ.Written elem old i v (made.items m) := by
  have elsewhere : ∀ {m}, m ≠ target → (made.store (target, i) v).items m = made.items m :=
    fun hm => Heap.items_store_of_ne hm
  constructor
  · rintro ⟨m, rfl, written⟩
    by_cases hm : m = target
    · exact .inl (by rw [hm])
    · rw [elsewhere hm] at written
      exact .inr ⟨m, rfl, written⟩
  · rintro (rfl | ⟨m, rfl, written⟩)
    · exact ⟨target, rfl, hw.written⟩
    · refine ⟨m, rfl, ?_⟩
      by_cases hm : m = target
      · rw [hm]
        exact hw.written
      · rwa [elsewhere hm]

theorem stored_iff
    (hw : n.PutsItem σ h holder key raw elem l old type spot i v news target stored made)
    (hσ : σ.MakesNew) (hn : n.strategies.Harmless σ) (hi : old.length ≤ i)
    (service : n.strategies.service = none)
    (own : n.strategies.custom? σ type (some holder.canonical) = none)
    (shape : type.isUnknown = true ∨ type.isArray = true)
    (fits : σ.accepts type (.array elem l) = true) :
    stored = .array elem target ↔
      n.strategies.passes σ type (some holder.canonical) elem = true := by
  obtain ⟨-, g, g', -, -, copy, converts, -⟩ := hw.grown hi
  rw [σ.accepts_array type elem l target] at fits
  have ends := Strategies.ends_convert_array hσ hn service own shape fits
    (Heap.lt_size_of_cell? copy)
  have mapped := (Run.ends_mapError (E := fun _ _ => True) (n.conversionAt holder.canonical) _).2
    ends
  exact mapped.of_ok converts

end PutsItem

end Node

namespace Accessor

variable {σ : Schema} {a a' : Accessor} {n : Node} {h h' : Heap} {outer : List Segment}
  {s : Segment} {spots : List Spot}

theorem Way.ends_follow (way : Way σ h [] a.node a outer n a' spots) (hσ : σ.MakesNew)
    (hn : Gentle σ a.node a) (s : Segment) :
    Walk.Ends (follow σ ⟨outer ++ [s]⟩) a h
      (fun x b g => x = (n, Place.ofSegment s) ∧ b = a' ∧ h.Extends g) (fun _ _ _ => False) := by
  simp only [follow, Walk.ends_bind, Walk.ends_get]
  exact (way.ends_reach hσ hn (.refl h) s).2

theorem Way.ends_resolve (way : Way σ h [] a.node a outer n a' spots) (hσ : σ.MakesNew)
    (hn : Gentle σ a.node a) {text : String} (parsed : Path.parse text = .ok ⟨outer ++ [s]⟩)
    {v : Value} (reads : ∀ g, h.Extends g →
      (n.read σ (Place.ofSegment s).canonical (Place.ofSegment s)).Ends g
        (fun u g' => u = v ∧ g.Extends g') (fun _ _ => False)) :
    Walk.Ends (resolve σ text) a h (fun u b g => u = v ∧ b = a' ∧ h.Extends g)
      (fun _ _ _ => False) := by
  rw [resolve, Walk.ends_bind, Walk.ends_parsed, parsed]
  refine ⟨fun p hp => ?_, fun e he => by cases he⟩
  obtain rfl := Except.ok.inj hp
  rw [Walk.ends_bind]
  refine (way.ends_follow hσ hn s).mono (fun x b g hx => ?_) fun _ _ _ => id
  obtain ⟨rfl, rfl, hx⟩ := hx
  rw [Walk.ends_lift]
  exact (reads g hx).mono (fun _ _ hu => ⟨hu.1, rfl, hx.trans hu.2⟩) fun _ _ => id

theorem Way.resolve_eq (way : Way σ h [] a.node a outer n a' spots) (hσ : σ.MakesNew)
    (hn : Gentle σ a.node a) {v : Value} {type : Ty} {spot : Spot} {before : List Spot}
    (hp : n.Holds σ h (Place.ofSegment s) v type spot before) {text : String}
    (read : Path.parse text = .ok ⟨outer ++ [s]⟩) :
    (on (resolve σ text) a h).1.1 = .ok v := by
  have gentle := (way.ends_reach hσ hn (.refl h) s).1
  have ends := way.ends_resolve hσ hn read fun g hx => (hp.mono hx).ends_read hσ gentle.node _
  obtain ⟨u, b, g, ran, rfl, -⟩ := ends.exists_ok
  rw [ran]

theorem Way.ends_apply_array (way : Way σ h [] a.node a outer n a' spots) (hσ : σ.MakesNew)
    (hn : Gentle σ a.node a) {elem type : Ty} {l : Loc} {old : List Value} {spot : Spot}
    {before : List Spot} (hp : n.Holds σ h (Place.ofSegment s) (.array elem l) type spot before)
    (cell : h.cell? l = some (.items old)) {text key : String}
    (read : Path.parse text = .ok ⟨outer ++ [{ s with keys := s.keys ++ [key] }]⟩) (raw : Value) :
    Walk.Ends (apply σ text raw) a h
      (fun _ b h' => b = a' ∧ ∃ i v news target stored made,
        n.PutsItem σ h (Place.ofSegment s) key raw elem l old type spot i v news target stored
          made ∧ h' = made.store (target, i) v)
      (fun _ _ _ => True) := by
  have gentle := (way.ends_reach hσ hn (.refl h) s).1
  refine Walk.ends_apply_of_parse read ?_
  refine (way.ends_follow hσ hn _).mono (fun x b g hx => ?_) fun _ _ _ => False.elim
  obtain ⟨rfl, rfl, hx⟩ := hx
  rw [Place.ofSegment_append]
  refine ((hp.mono hx).ends_write_array hσ gentle.node (hx.cell? cell) key raw).mono
    (fun _ h' hw => ⟨rfl, ?_⟩) fun _ _ => id
  obtain ⟨i, v, news, target, stored, made, hw, rfl⟩ := hw
  exact ⟨i, v, news, target, stored, made, .mono hx hw, rfl⟩

/-- An element is written of an array that a path leads to. Afterwards the path has an
array with the element written exactly if what was stored there is the array that was
written to, or had the element already. A position that the array has is written in
place. A new one is written to a copy, and what is stored is what the copy was
converted to: where neither a service nor a converter for the holder has a say, it is
the copy itself exactly if its component type is the declared one and has no converter. -/
theorem element_written_iff (hσ : σ.Harmless) (hS : ∀ n ∈ a.nodes, n.strategies.Harmless σ)
    {path element key : String} (hA : Path.parse path = .ok ⟨outer ++ [s]⟩)
    (hAi : Path.parse element = .ok ⟨outer ++ [{ s with keys := s.keys ++ [key] }]⟩)
    {kept : Accessor} (way : Way σ h [] a.node a outer n kept spots) {elem type : Ty} {l : Loc}
    {old : List Value} {spot : Spot} {before : List Spot}
    (holds : n.Holds σ h (Place.ofSegment s) (.array elem l) type spot before)
    (cell : h.cell? l = some (.items old))
    (apart : ∀ i, Text.index? key = some i →
      if i < old.length then (l, i) ∉ spot :: (before ++ spots) else spot ∉ before ++ spots)
    {raw : Value} (ok : on (apply σ element raw) a h = ((.ok (), a'), h')) :
    ∃ i v news target stored made,
      n.PutsItem σ h (Place.ofSegment s) key raw elem l old type spot i v news target stored
        made ∧
      h' = made.store (target, i) v ∧
      (on (resolve σ path) a' h').1.1 = .ok stored ∧
      ((∃ m, stored = .array elem m ∧ σ.Written elem old i v (h'.items m)) ↔
        stored = .array elem target ∨
          ∃ m, stored = .array elem m ∧ σ.Written elem old i v (made.items m)) ∧
      ((∃ m, stored = .array elem m ∧ σ.Written elem old i v (h'.items m)) →
        (on (resolve σ element) a' h').1.1 = .ok v) ∧
      (i < old.length → stored = .array elem target) ∧
      (old.length ≤ i → n.strategies.service = none →
        n.strategies.custom? σ type (some s.canonical) = none →
        type.isUnknown = true ∨ type.isArray = true → σ.accepts type (.array elem l) = true →
        (stored = .array elem target ↔
          n.strategies.passes σ type (some s.canonical) elem = true)) := by
  have gentle : Gentle σ a.node a :=
    ⟨hS _ List.mem_cons_self, fun c hc => hS _ (mem_nodes_of_mem_children hc)⟩
  obtain ⟨rfl, i, v, news, target, stored, made, hw, rfl⟩ :=
    (way.ends_apply_array hσ.makesNew gentle holds cell hAi raw).of_ok ok
  have item : i < old.length → (l, i) ∉ spot :: (before ++ spots) := by
    intro hi
    have here := apart i hw.index
    rwa [if_pos hi] at here
  have own : old.length ≤ i → spot ∉ before ++ spots := by
    intro hi
    have here := apart i hw.index
    rwa [if_neg (Nat.not_lt.2 hi)] at here
  have same : a'.node = a.node := way.node
  have gentle' : Gentle σ a'.node a' := by
    rw [same]
    exact ⟨gentle.node, (way.ends_reach hσ.makesNew gentle (.refl h) s).1.kept⟩
  -- By now the nodes on the way are kept, so the accessor comes to the same one again.
  have way' : Way σ (made.store (target, i) v) [] a'.node a' outer n a' spots := by
    rw [same]
    refine way.again.map fun hp inside => hw.keeps hp (fun hi hm => ?_) fun hi hm => ?_
    · exact item hi (List.mem_cons_of_mem _ (List.mem_append_right _ (inside _ hm)))
    · exact own hi (List.mem_append_right _ (inside _ hm))
  have holds' :
      n.Holds σ (made.store (target, i) v) (Place.ofSegment s) stored type spot before := by
    refine hw.holds holds (fun hi hm => item hi ?_) fun hi hm => own hi ?_
    · rw [← List.cons_append]
      exact List.mem_append_left _ hm
    · exact List.mem_append_left _ hm
  refine ⟨i, v, news, target, stored, made, hw, rfl, way'.resolve_eq hσ.makesNew gentle' holds' hA,
    hw.written_iff, ?_, fun hi => ?_, fun hi service own shape fits => ?_⟩
  · rintro ⟨m, rfl, written⟩
    have read : n.Holds σ (made.store (target, i) v)
        (Place.ofSegment { s with keys := s.keys ++ [key] }) v elem (m, i) (spot :: before) := by
      rw [Place.ofSegment_append]
      exact .item holds' rfl hw.index written.value
    exact way'.resolve_eq hσ.makesNew gentle' read hAi
  · rw [(hw.same hi).1]
    exact (hw.same hi).2.1
  · have shown : (Place.ofSegment s).canonical = s.canonical := by simp [Place.canonical]
    rw [← shown] at own ⊢
    have calm := (way.ends_reach hσ.makesNew gentle (.refl h) s).1
    exact hw.stored_iff hσ.makesNew calm.node hi service own shape fits

end Accessor

namespace Board

def numbers : Converter := .ofText "number" fun _ text _ => throw (.invalid text)

def numbered : Accessor :=
  .rooted ⟨⟨[(.number (.int .i32), numbers)], []⟩, .standard, none⟩ .standard root

theorem harmless_numbered (n : Node) (hn : n ∈ numbered.nodes) : n.strategies.Harmless schema := by
  obtain rfl : n = numbered.node := List.mem_singleton.1 hn
  have standard := Strategies.harmless_standard schema
  refine ⟨fun c hc => ?_, standard.defaults, standard.service⟩
  obtain rfl : c = numbers := List.mem_singleton.1 hc
  exact ⟨fun _ _ => .throw _, fun _ _ => .pure _⟩

theorem handle_scores :
    numbered.node.handle? schema "scores" =
      some ⟨"scores", .array (.number (.int .i32)), .slot 0 true true⟩ := by
  rfl

theorem holds_scores :
    numbered.node.Holds schema heap (Place.ofSegment ⟨"scores", []⟩)
      (.array (.number (.int .i32)) 1) (.array (.number (.int .i32))) (0, 0) [] :=
  .field handle_scores rfl rfl

end Board

namespace Accessor

theorem element_written_iff_board :
    ∃ a' h' i v news target stored made,
      on (apply Board.schema "scores[2]" (Board.score 7 (by decide))) Board.numbered Board.heap =
        ((.ok (), a'), h') ∧
      Board.numbered.node.PutsItem Board.schema Board.heap (.property "scores") "2"
        (Board.score 7 (by decide)) (.number (.int .i32)) 1 [Board.score 1 (by decide)]
        (.array (.number (.int .i32))) (0, 0) i v news target stored made ∧
      stored ≠ .array (.number (.int .i32)) target ∧
      (on (resolve Board.schema "scores[2]") a' h').1.1.toOption =
        some (Board.score 0 (by decide)) := by
  have works : (on (apply Board.schema "scores[2]" (Board.score 7 (by decide)))
      Board.numbered Board.heap).1.1.toBool = true := by decide +kernel
  have reads : (on (resolve Board.schema "scores[2]")
      (on (apply Board.schema "scores[2]" (Board.score 7 (by decide)))
        Board.numbered Board.heap).1.2
      (on (apply Board.schema "scores[2]" (Board.score 7 (by decide)))
        Board.numbered Board.heap).2).1.1.toOption = some (Board.score 0 (by decide)) := by
    decide +kernel
  rcases ho : on (apply Board.schema "scores[2]" (Board.score 7 (by decide)))
    Board.numbered Board.heap with ⟨⟨result, a'⟩, h'⟩
  rw [ho] at works reads
  cases result with
  | error e => cases works
  | ok u =>
    have path : Path.parse "scores" = .ok ⟨[] ++ [⟨"scores", []⟩]⟩ := by cbv
    have element : Path.parse "scores[2]" = .ok ⟨[] ++ [⟨"scores", [] ++ ["2"]⟩]⟩ := by cbv
    have number : Text.index? "2" = some 2 := by decide +kernel
    have cell : Board.heap.cell? 1 = some (.items [Board.score 1 (by decide)]) := rfl
    obtain ⟨i, v, news, target, stored, made, written, -, -, -, -, -, new⟩ :=
      element_written_iff Board.harmless_schema Board.harmless_numbered path element .here
        Board.holds_scores cell (fun i _ => by split <;> simp) ho
    refine ⟨a', h', i, v, news, target, stored, made, rfl, written, ?_, reads⟩
    obtain rfl : 2 = i := Option.some.inj (number.symm.trans written.index)
    have kept := new (by decide) rfl (by decide +kernel) (.inr rfl) (by decide +kernel)
    rw [ne_eq, kept]
    decide +kernel

end Accessor

end PropertyAccess
