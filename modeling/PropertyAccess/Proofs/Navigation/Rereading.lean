import PropertyAccess.Proofs.Navigation.Planned
import PropertyAccess.Proofs.Navigation.ReadBack

/-! Reading twice. A path that was read leads to a place that has what was read, whatever had
to be made on the way: objects for null, elements of lists, entries of maps, and longer copies
of arrays at any depth. So it is read again there, and nothing is made any more. -/

namespace PropertyAccess

theorem Plan.Later.typeAt? {σ : Schema} {Γ Γ' : Plan} (later : Γ.Later Γ') {s : Spot} {t : Ty}
    (ht : Γ.typeAt? σ s = some t) : Γ'.typeAt? σ s = some t := by
  obtain ⟨m, hm, there⟩ := Option.bind_eq_some_iff.1 ht
  rw [Plan.typeAt?, later s.1 m hm]
  exact there

theorem Registrations.below_empty (s : Segment) : empty.below s = .empty := rfl

theorem Heap.FreeAs.mono {h g g' : Heap} {v w : Value} (free : h.FreeAs g v w)
    (hx : g.Extends g') : h.FreeAs g' v w := fun C old avoids => (free C old avoids).mono hx

theorem Schema.planned_growList {σ : Schema} (hσ : σ.Plans) {Γ : Plan} {h : Heap} {elem : Ty}
    {l : Loc} (hf : h.Follows σ Γ) (planned : Γ l = some (.elements elem)) (missing : Nat) :
    (σ.growList elem l missing).Ends h (fun _ h' => ∃ Γ', Γ.Later Γ' ∧ h'.Follows σ Γ')
      (fun _ _ => True) := by
  induction missing generalizing Γ h with
  | zero => exact ⟨Γ, .refl Γ, hf⟩
  | succ missing ih =>
    simp only [growList, Run.ends_bind, Run.ends_update]
    refine (planned_defaultValue hσ Γ elem h hf).mono (fun v g hv => ?_) fun _ _ _ => trivial
    obtain ⟨Γ₁, later, (follows : g.Follows σ Γ₁), sits⟩ := hv
    have single : ∀ x ∈ [v], x.Sits Γ₁ elem := by simpa using sits
    have appended := follows.appendItems (later l _ planned) single
    refine (ih appended (later l _ planned)).mono (fun _ h' hh' => ?_) fun _ _ => id
    obtain ⟨Γ₂, later', follows'⟩ := hh'
    exact ⟨Γ₂, later.trans later', follows'⟩

namespace Node

variable {σ : Schema} {n : Node} {Γ : Plan} {C : Loc → Prop} {h : Heap} {p : Place}
  {type elem : Ty} {spot : Spot} {before : List Spot} {holder : Place} {key : String} {l : Loc}

def Finds (σ : Schema) (n : Node) (C : Loc → Prop) (Γ : Plan) (h : Heap) (p : Place) (v : Value)
    (h' : Heap) : Prop :=
  ∃ Γ', n.Tends σ C Γ h Γ' h' ∧ n.Has σ h' p v

section Reading

variable (hσ : σ.Regular) (hn : n.strategies = .builtin) (hh : n.Hangs C h) (hf : h.Follows σ Γ)
  (hw : n.Planned Γ)
include hσ hn hh hf hw

theorem ends_lengthened_tends (inner : n.Holds σ h holder (.array elem l) type spot before)
    (shown : String) (i : Nat) :
    (n.lengthened σ n.config.growing shown elem l i (n.write σ holder)).Ends h
      (fun m h' => ∃ Γ', n.Tends σ C Γ h Γ' h' ∧
        n.Holds σ h' holder (.array elem m) type spot before)
      (fun _ _ => True) := by
  obtain ⟨old, outside, apart⟩ := inner.spot_apart hh
  obtain ⟨t, ht, sits, declared, -⟩ := inner.planned hσ hf hw
  have own : type.isUnknown = true ∨ type.unwrapped = .array elem := by
    rcases declared with rfl | ⟨unknown, -⟩
    · exact sits.exact elem l rfl
    · exact .inl unknown
  rw [ends_lengthened_iff]
  split
  · refine ((Schema.planned_grownArray hσ.plans sits (i + 1) h hf).and
      (Schema.ends_grownArray_free hσ.makesTrees elem l (i + 1) h)).mono (fun copy g hc => ?_)
      fun _ _ _ => trivial
    obtain ⟨⟨Γ', later, (follows : g.Follows σ Γ'), sits'⟩, hx, m, rfl, free, -⟩ := hc
    refine ((inner.mono hx).ends_write hσ.makesTrees.makesNew (harmless_of_builtin hn) _).mono
      (fun _ h' hs => ?_) fun _ _ _ => trivial
    obtain ⟨w, g₁, converts, hy, rfl⟩ := hs
    obtain rfl := converts.array_eq hn own
    refine ⟨Γ', ⟨later, ?_, (follows.mono hy).store (later.typeAt? ht) sits'⟩, ?_⟩
    · exact .of_renews hh (.store (hx.trans hy) inner.at_spot (free.mono hy)) outside
    · exact (inner.mono (hx.trans hy)).store_self apart _
  · exact ⟨Γ, .of_extends hh hf (.refl h), inner⟩

theorem ends_readArray_finds (inner : n.Holds σ h holder (.array elem l) type spot before)
    (shown : String) :
    (n.readArray σ shown holder key elem l (n.write σ holder)).Ends h
      (fun v h' => n.Finds σ C Γ h (.element holder key) v h') (fun _ _ => True) := by
  refine ends_readArray_of (fun i index => ?_) fun _ => trivial
  refine (ends_lengthened_tends hσ hn hh hf hw inner _ i).mono (fun m g hm => ?_) fun _ _ => id
  obtain ⟨Γ', tends, holds⟩ := hm
  exact ⟨fun v value => ⟨Γ', tends, .inl ⟨_, _, _, .item holds rfl index value⟩⟩,
    fun _ => trivial⟩

omit hn in
theorem ends_readList_finds {s : ListShape}
    (inner : n.Holds σ h holder (.list s l) type spot before) (shown : String) :
    (n.readList σ shown holder key l).Ends h
      (fun v h' => n.Finds σ C Γ h (.element holder key) v h') (fun _ _ => True) := by
  obtain ⟨old, outside, apart⟩ := inner.apart hh rfl
  obtain ⟨t, ht, sits, -, known⟩ := inner.planned hσ hf hw
  have grown (i : Nat) : (n.growListForRead σ holder
      (n.innerType σ holder.root (holder.depth + 1)) l i).Ends h
      (fun _ h' => ∃ Γ', Γ.Later Γ' ∧ h'.Follows σ Γ') (fun _ _ => True) := by
    rw [ends_growListForRead_iff]
    split
    · rename_i grows
      have elements : n.innerType σ holder.root (holder.depth + 1) = t.element?.getD .any :=
        (innerType_elements known).resolve_right (by simp [grows.2.1])
      have planned : Γ l = some (.elements (n.innerType σ holder.root (holder.depth + 1))) := by
        rw [sits.planned l rfl, elements]
        rfl
      exact Schema.planned_growList hσ.plans hf planned _
    · exact ⟨Γ, .refl Γ, hf⟩
  refine ends_readList_of (fun i index => ?_) fun _ => trivial
  refine ((ends_growListForRead_receives hσ.makesTrees _ _ i old).and (grown i)).mono
    (fun _ g hg => ⟨fun v value => ?_, fun _ => trivial⟩) fun _ _ _ => trivial
  obtain ⟨receives, Γ', later, follows⟩ := hg
  have kept := inner.receives receives apart
  exact ⟨Γ', ⟨later, .of_receives hh receives outside, follows⟩,
    .inl ⟨_, _, _, .item kept rfl index value⟩⟩

omit hσ hn hw in
theorem ends_readSet_finds {s : TableShape}
    (inner : n.Holds σ h holder (.set s l) type spot before) (shown : String) :
    (n.readSet σ shown key l).Ends h
      (fun v h' => n.Finds σ C Γ h (.element holder key) v h') (fun _ _ => True) :=
  ends_readSet_of
    (fun _ _ index value =>
      ⟨Γ, .of_extends hh hf (.refl h), .inl ⟨_, _, _, .item inner rfl index value⟩⟩)
    fun _ => trivial

omit hf hw in
theorem converts_of_found {s : TableShape} (inner : n.Holds σ h holder (.map s l) type spot before)
    {f f' : Heap} {k : Value} (grown : h.size ≤ f.size)
    (ran : (n.convertKey σ holder.root holder.depth key).on f = (.ok k, f'))
    (there : MapEntries.contains (h.entries l) k = true) :
    ∀ g, ∃ g', (n.convertKey σ holder.root holder.depth key).on g = (.ok k, g') := by
  obtain ⟨-, -, new⟩ :=
    (ends_convertKey_new hσ.makesTrees (makesTrees_of_builtin hn) _ _ key f).of_ok ran
  have new : f'.New h.size k := new.anti fun m hm => Nat.lt_of_lt_of_le hm grown
  obtain ⟨e, he, same⟩ := List.any_eq_true.1 there
  have scalar := scalar_of_found hh inner new he same
  intro g
  obtain ⟨u, g', again, alike⟩ := convertKey_again hσ hn ran g
  obtain rfl := alike scalar
  exact ⟨g', again⟩

omit hw in
/-- A key that a map lacks is converted to something that it lacks every time. -/
theorem ends_readMap_finds {s : TableShape}
    (inner : n.Holds σ h holder (.map s l) type spot before) (shown : String) :
    (n.readMap σ shown holder key l).Ends h
      (fun v h' => n.Finds σ C Γ h (.element holder key) v h') (fun _ _ => True) := by
  obtain ⟨old, -, -⟩ := inner.apart hh rfl
  have harmless : n.strategies.Harmless σ := harmless_of_builtin hn
  refine (ends_readMap hσ.makesTrees.makesNew harmless).mono (fun v g hv => ?_)
    fun _ _ _ => trivial
  obtain ⟨k, ran, hx, found⟩ := hv
  rw [hx.entries_eq old] at found
  rcases found with found | ⟨missing, growing, rfl⟩
  · refine ⟨Γ, .of_extends hh hf hx, .inl ?_⟩
    obtain ⟨i, e, first, value, rfl⟩ := MapEntries.findIdx?_of_get? found
    have settled := converts_of_found hσ hn hh inner (Nat.le_refl _) ran
      (MapEntries.contains_of_findIdx? first)
    rw [← hx.entries_eq old] at first value
    exact ⟨_, _, _, .entry (inner.mono hx) settled first value⟩
  · rw [MapEntries.get?_eq_none_iff] at missing
    refine ⟨Γ, .of_extends hh hf hx, .inr ⟨rfl, ?_⟩⟩
    refine .key (inner.mono hx) (Nat.lt_of_lt_of_le old hx.size_le) growing fun f hy => ?_
    obtain ⟨u, f', again, -⟩ := convertKey_again hσ hn ran f
    have hz : f.Extends f' :=
      ((harmless_convertKey hσ.makesTrees.makesNew harmless _ _ key).ends f).of_ok again
    refine .intro again ⟨hz, ?_⟩
    rw [hx.entries_eq old]
    by_contra there
    rw [Bool.not_eq_false] at there
    obtain ⟨g', first⟩ :=
      converts_of_found hσ hn hh inner (hx.trans hy).size_le again there h
    obtain rfl : k = u := Except.ok.inj (congrArg Prod.fst (ran.symm.trans first))
    rw [missing] at there
    cases there

theorem ends_readElement_finds {c : Value} (inner : n.Holds σ h holder c type spot before)
    (shown : String) :
    (n.readElement σ shown holder key c (n.write σ holder)).Ends h
      (fun v h' => n.Finds σ C Γ h (.element holder key) v h') (fun _ _ => True) := by
  unfold readElement
  split
  · trivial
  · exact ends_readArray_finds hσ hn hh hf hw inner shown
  · exact ends_readList_finds hσ hh hf hw inner shown
  · exact ends_readSet_finds hh hf inner shown
  · exact ends_readMap_finds hσ hn hh hf inner shown
  · trivial

omit hn hw in
theorem ends_readProperty_finds (name shown : String) :
    (n.readProperty σ shown name).Ends h
      (fun v h' => n.Finds σ C Γ h (.property name) v h') (fun _ _ => True) := by
  have field : n.IsField σ name := isField hσ.fields name
  refine ((ends_readProperty_holds field shown h).and
    ((harmless_readProperty field.quiet shown).ends h)).mono (fun v h' hv => ?_)
    fun _ _ _ => trivial
  exact ⟨Γ, .of_extends hh hf hv.2, .inl hv.1⟩

/-- What is missing is made, and is there then. -/
theorem ends_present_holds {v : Value} (has : n.Has σ h p v) (again : String)
    (reads : ∀ Γ h, n.Hangs C h → h.Follows σ Γ → n.Planned Γ →
      (n.read σ again p).Ends h (fun v h' => n.Finds σ C Γ h p v h') (fun _ _ => True))
    (shown : String) :
    (n.present σ p shown v (n.read σ again p) (n.write σ p)).Ends h
      (fun u h' => ∃ Γ', n.Tends σ C Γ h Γ' h' ∧ ∃ type spot before,
        n.Holds σ h' p u type spot before)
      (fun _ _ => True) := by
  unfold present
  split
  · rename_i there
    rcases has with holds | ⟨rfl, -⟩
    · exact ⟨Γ, .of_extends hh hf (.refl h), holds⟩
    · cases there
  rename_i null
  obtain rfl : v = .null := by cases v <;> simp_all [Value.isNull]
  split
  · unfold vivify
    dsimp only
    split
    · trivial
    rename_i known
    rw [Run.ends_bind, Run.ends_mapError]
    refine (Schema.ends_defaultValue_fresh hσ hf _).mono (fun fresh g hg => ?_) fun _ _ _ => trivial
    obtain ⟨hx, Γ₁, later, follows, made⟩ := hg
    rw [Run.ends_bind]
    refine (ends_write_fresh hσ hn hh (hw.mono later) has hx follows known made).mono
      (fun _ g₁ hs => ?_) fun _ _ => id
    rw [Run.ends_bind]
    refine (reads Γ₁ g₁ hs.1.hangs hs.2 (hw.mono later)).mono (fun u h' hu => ?_) fun _ _ => id
    obtain ⟨Γ₂, tends, has⟩ := hu
    split
    · trivial
    · rename_i there
      rcases has with holds | ⟨rfl, -⟩
      · exact ⟨Γ₂, .trans ⟨later, hs.1, hs.2⟩ tends, holds⟩
      · exact absurd rfl there
  · trivial

end Reading

section Places

variable (hσ : σ.Regular) (hn : n.strategies = .builtin)
include hσ hn

theorem ends_read_finds (hh : n.Hangs C h) (hf : h.Follows σ Γ) (hw : n.Planned Γ) (p : Place)
    (shown : String) :
    (n.read σ shown p).Ends h (fun v h' => n.Finds σ C Γ h p v h') (fun _ _ => True) := by
  induction p generalizing h Γ shown with
  | property name =>
    rw [read_property]
    exact ends_readProperty_finds hσ hh hf name shown
  | element holder key ih =>
    have held : (n.readHolder σ shown holder).Ends h
        (fun c g => ∃ Γ', n.Tends σ C Γ h Γ' g ∧ n.Has σ g holder c) (fun _ _ => True) := by
      refine ends_readHolder_of (ih hh hf hw shown) (fun _ _ => id) fun v g hv => ?_
      obtain ⟨Γ₁, tends, has⟩ := hv
      refine (ends_present_holds hσ hn tends.grafts.hangs tends.follows (hw.mono tends.later) has
        holder.canonical (fun _ _ hh hf hw => ih hh hf hw _) shown).mono (fun u g' hu => ?_)
        fun _ _ => id
      obtain ⟨Γ₂, tends', holds⟩ := hu
      exact ⟨Γ₂, tends.trans tends', .inl holds⟩
    rw [read_element, Run.ends_bind]
    refine held.mono (fun c g hc => ?_) fun _ _ => id
    obtain ⟨Γ₁, tends, ⟨type, spot, before, holds⟩ | ⟨rfl, -⟩⟩ := hc
    · refine (ends_readElement_finds hσ hn tends.grafts.hangs tends.follows
        (hw.mono tends.later) holds shown).mono (fun v g' hv => ?_) fun _ _ => id
      obtain ⟨Γ₂, tends', has⟩ := hv
      exact ⟨Γ₂, tends.trans tends', has⟩
    · trivial

theorem ends_enter_holds (hh : n.Hangs C h) (hf : h.Follows σ Γ) (hw : n.Planned Γ) (p : Place) :
    (n.enter σ p).Ends h
      (fun o h' => ∃ Γ', n.Tends σ C Γ h Γ' h' ∧
        ∃ type spot before, n.Holds σ h' p (.object o) type spot before)
      (fun _ _ => True) := by
  simp only [enter, Run.ends_bind]
  refine (ends_read_finds hσ hn hh hf hw p _).mono (fun v g hv => ?_) fun _ _ => id
  obtain ⟨Γ₁, tends, has⟩ := hv
  refine (ends_present_holds hσ hn tends.grafts.hangs tends.follows (hw.mono tends.later) has _
    (fun _ _ hh hf hw => ends_read_finds hσ hn hh hf hw p _) _).mono (fun u h' hu => ?_)
    fun _ _ => id
  obtain ⟨Γ₂, tends', holds⟩ := hu
  split
  · exact ⟨Γ₂, tends.trans tends', holds⟩
  · trivial

end Places

end Node

namespace Accessor

variable {σ : Schema} {a a' : Accessor} {n : Node} {h h' : Heap} {C : Loc → Prop} {Γ : Plan}
  {outer : List Segment} {s : Segment} {at_ : List String}

structure Led (σ : Schema) (C : Loc → Prop) (at_ : List String) (n : Node) (a : Accessor)
    (h : Heap) (outer : List Segment) (Γ : Plan) (D : Loc → Prop) (spots : List Spot) (m : Node)
    (b : Accessor) (g : Heap) : Prop extends Trod σ C at_ n a h outer D spots m b g where
  follows : g.Follows σ Γ
  planned : m.Planned Γ
  builtin : m.strategies = .builtin

theorem ends_reach_led (hσ : σ.Regular) (hn : n.strategies = .builtin)
    (ha : ∀ c ∈ a.children, c.2.strategies = .builtin) (hh : n.Hangs C h) (hf : h.Follows σ Γ)
    (hw : n.Planned Γ) (outer : List Segment) (s : Segment) :
    Walk.Ends (reach σ at_ n (outer ++ [s])) a h
      (fun r b g => r.2 = Place.ofSegment s ∧
        ∃ Γ' D spots, Led σ C at_ n a h outer Γ' D spots r.1 b g)
      (fun _ _ _ => True) := by
  induction outer generalizing at_ n a h C Γ with
  | nil => exact ⟨rfl, Γ, C, [], .here hh, hf, hw, hn⟩
  | cons t outer ih =>
    rw [List.cons_append, Walk.reach_cons _ _ t (by simp), Walk.ends_bind, Walk.ends_enter]
    refine (Node.ends_enter_holds hσ hn hh hf hw (Place.ofSegment t)).mono (fun o g ho => ?_)
      fun _ _ => id
    obtain ⟨Γ₁, tends, type, spot, before, holds⟩ := ho
    have fresh : (n.child t o).strategies = .builtin := by
      rw [Node.child, hn]
      simp only [Strategies.builtin, Registrations.below_empty]
    have kept : (keep (at_ ++ [t.canonical]) (n.child t o) a.children).1.strategies = .builtin ∧
        ∀ c ∈ (keep (at_ ++ [t.canonical]) (n.child t o) a.children).2,
          c.2.strategies = .builtin :=
      forall_keep (P := fun _ n => n.strategies = .builtin) fresh ha
    obtain ⟨t', -, sits, -, -⟩ := holds.planned hσ tends.follows (hw.mono tends.later)
    have planned : (keep (at_ ++ [t.canonical]) (n.child t o) a.children).1.Planned Γ₁ := by
      rw [Node.Planned, wrapped_keep]
      exact ⟨by simp, sits.planned⟩
    refine (ih kept.1 kept.2 (hangs_keep tends.grafts holds) tends.follows planned).mono
      (fun r b g' hr => ?_) fun _ _ _ => id
    obtain ⟨place, Γ₂, D, spots, led⟩ := hr
    exact ⟨place, Γ₂, D, _, led.toTrod.enter tends.grafts holds, led.follows, led.planned,
      led.builtin⟩

/-- What a path resolved to is what it resolves to again, and nothing that is there changes
any more. -/
theorem resolve_again (hσ : σ.Regular) (builtin : ∀ n ∈ a.nodes, n.strategies = .builtin)
    (tree : h.Acyclic (.object a.node.wrapped)) (planned : h.Follows σ Γ)
    (root : a.node.Planned Γ) {text : String} {v : Value}
    (ok : on (resolve σ text) a h = ((.ok v, a'), h')) :
    ∃ h'', on (resolve σ text) a' h' = ((.ok v, a'), h'') ∧ h'.Extends h'' := by
  have hangs : a.node.Hangs (fun _ => False) h := ⟨fun _ => False.elim, tree⟩
  have top := builtin _ List.mem_cons_self
  have kept : ∀ c ∈ a.children, c.2.strategies = .builtin :=
    fun c hc => builtin _ (mem_nodes_of_mem_children hc)
  have ends : Walk.Ends (resolve σ text) a h
      (fun u b k => ∃ outer s n g Γ' D spots, Path.parse text = .ok ⟨outer ++ [s]⟩ ∧
        Led σ (fun _ => False) [] a.node a h outer Γ' D spots n b g ∧
        n.Finds σ D Γ' g (Place.ofSegment s) u k)
      (fun _ _ _ => True) := by
    rw [resolve, Walk.ends_bind, Walk.ends_parsed]
    refine ⟨fun p parsed => ?_, fun _ _ => trivial⟩
    obtain ⟨segments⟩ := p
    rw [Walk.ends_bind, follow, Walk.ends_bind, Walk.ends_get]
    rcases segments.eq_nil_or_concat with rfl | ⟨outer, s, rfl⟩
    · trivial
    · rw [List.concat_eq_append] at parsed ⊢
      refine (ends_reach_led hσ top kept hangs planned root outer s).mono (fun r b g hr => ?_)
        fun _ _ _ => id
      obtain ⟨n, p⟩ := r
      obtain ⟨rfl, Γ', D, spots, led⟩ := hr
      rw [Walk.ends_lift]
      refine (Node.ends_read_finds hσ led.builtin led.hangs led.follows led.planned _ _).mono
        (fun u k hu => ?_) fun _ _ => id
      exact ⟨outer, s, n, g, Γ', D, spots, parsed, led, hu⟩
  obtain ⟨outer, s, n, g, Γ', D, spots, parsed, led, Γ'', tends, has⟩ := ends.of_ok ok
  have makesNew := hσ.makesTrees.makesNew
  have gentle : Gentle σ a.node a :=
    ⟨Node.harmless_of_builtin top, fun c hc => Node.harmless_of_builtin (kept c hc)⟩
  -- What the way goes through is as it was, and its nodes are kept by now.
  have way : Way σ h' [] a.node a outer n a' spots := led.way.map fun hp inside =>
    hp.congr fun x hx => tends.grafts.kept x.1 (led.through x (inside x hx))
  have same : a'.node = a.node := way.node
  have again : Way σ h' [] a'.node a' outer n a' spots := same ▸ way.again
  have gentle' : Gentle σ a'.node a' := by
    rw [same]
    exact ⟨gentle.node, (way.ends_reach makesNew gentle (.refl h') s).1.kept⟩
  obtain ⟨u, b, h'', ran, rfl, rfl, hx⟩ := (again.ends_resolve makesNew gentle' parsed
    fun g hx => (has.mono hx).ends_read hσ led.builtin _).exists_ok
  exact ⟨h'', ran, hx⟩

end Accessor

/-! An orchard that has no rows yet, to be planted with trees. -/

namespace Orchard

def tree : ClassDecl :=
  ⟨"demo.Tree", [], none, [⟨"height", .number (.int .i32), .readWrite⟩], [], false, .plain, none⟩

def decl : ClassDecl :=
  ⟨"demo.Orchard", [], none, [⟨"rows", .array (.array (.object 0)), .readWrite⟩], [], false, .plain,
    none⟩

def schema : Schema := (Schema.empty.declareClass tree).declareClass decl

def heap : Heap := ⟨#[.slots [("rows", .array (.array (.object 0)) 1)], .items []]⟩

def accessor : Accessor := .rooted .builtin .autoGrowing ⟨1, 0⟩

def plan : Plan
  | 0 => some (.object 1)
  | 1 => some (.elements (.array (.object 0)))
  | _ => none

theorem plain (d : ClassDecl) (hd : d ∈ schema.classes) :
    d.properties = [] ∧ d.fromText = none ∧ ∀ run, d.construction ≠ .initialized run := by
  rcases List.mem_cons.1 hd with rfl | hd
  · exact ⟨rfl, rfl, fun run plain => by cases plain⟩
  · obtain rfl := List.mem_singleton.1 hd
    exact ⟨rfl, rfl, fun run plain => by cases plain⟩

theorem regular_schema : schema.Regular where
  fields d hd := (plain d hd).1
  makesTrees := Schema.makesTrees_of_plain fun d hd => (plain d hd).2
  uniform :=
    { initialized := fun d hd run made => absurd made ((plain d hd).2.2 run)
      fromText := fun d hd make made => by
        rw [(plain d hd).2.1] at made
        cases made }
  plans := Schema.plans_of_plain fun d hd => (plain d hd).2.2

theorem acyclic_heap : heap.Acyclic (.object accessor.node.wrapped) := by
  refine .ref rfl id rfl trivial fun x hx => ?_
  obtain rfl := List.mem_singleton.1 hx
  exact .ref rfl (fun seen => seen.elim id (by decide)) rfl trivial
    fun _ none => absurd none List.not_mem_nil

theorem follows_plan : heap.Follows schema plan where
  lt_size
    | 0, _, _ => by decide
    | 1, _, _ => by decide
    | _ + 2, _, planned => by cases planned
  sits
    | (0, 0), t, v, declared, there => by
      obtain rfl : .array (.array (.object 0)) = t := Option.some.inj declared
      obtain rfl : .array (.array (.object 0)) 1 = v := Option.some.inj there
      refine ⟨fun elem l same => ?_, fun l hl => ?_⟩
      · cases same
        exact .inr rfl
      · cases hl
        rfl
    | (0, _ + 1), _, _, _, there => by cases there
    | (1, _), _, _, _, there => by cases there
    | (_ + 2, _), _, _, declared, _ => by cases declared

end Orchard

namespace Accessor

theorem resolve_again_orchard :
    ∃ v a' h' h'',
      on (resolve Orchard.schema "rows[1][2].height") Orchard.accessor Orchard.heap =
        ((.ok v, a'), h') ∧
      on (resolve Orchard.schema "rows[1][2].height") a' h' = ((.ok v, a'), h'') ∧
      h'.Extends h'' := by
  have works : (on (resolve Orchard.schema "rows[1][2].height") Orchard.accessor
      Orchard.heap).1.1.toBool = true := by decide +kernel
  rcases ho : on (resolve Orchard.schema "rows[1][2].height") Orchard.accessor Orchard.heap with
    ⟨⟨result, a'⟩, h'⟩
  rw [ho] at works
  cases result with
  | error e => cases works
  | ok v =>
    have builtin : ∀ n ∈ Orchard.accessor.nodes, n.strategies = .builtin := by
      intro n hn
      obtain rfl := List.mem_singleton.1 hn
      rfl
    have root : Orchard.accessor.node.Planned Orchard.plan :=
      ⟨by simp, fun l hl => by cases hl; rfl⟩
    obtain ⟨h'', again, later⟩ := resolve_again Orchard.regular_schema builtin
      Orchard.acyclic_heap Orchard.follows_plan root ho
    exact ⟨v, a', h', h'', rfl, again, later⟩

end Accessor

end PropertyAccess
