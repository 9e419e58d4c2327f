import PropertyAccess.Proofs.Graph.Steps
import PropertyAccess.Proofs.Navigation.Conduct
import PropertyAccess.Proofs.Schema.Sparing

/-! How long containers become where a place is read or written. Code that is supplied leaves
them as they are, a value is put where there is room for it, and a list that grows stays below
the ceiling, as does the copy of an array that has to grow. Reading a place may write its holder
and writing it reads the holder, at any depth, so both are taken in one induction. -/

namespace PropertyAccess

namespace Heap

/-- No array, list or set that exists is longer than `C`, unless it was before. -/
def StaysBelow (C : Nat) (h h' : Heap) : Prop :=
  ∀ l vs, h.cell? l = some (.items vs) →
    ∃ ws, h'.cell? l = some (.items ws) ∧ ws.length ≤ max vs.length C

def Appends (l : Loc) (count : Nat) (h h' : Heap) : Prop :=
  ∀ m vs, h.cell? m = some (.items vs) →
    ∃ ws, h'.cell? m = some (.items (vs ++ ws)) ∧ ws.length ≤ if m = l then count else 0

variable {C count more : Nat} {h h' h'' : Heap} {l : Loc}

namespace StaysBelow

theorem refl (h : Heap) : h.StaysBelow C h := fun _ vs cell => ⟨vs, cell, Nat.le_max_left _ _⟩

theorem trans (a : h.StaysBelow C h') (b : h'.StaysBelow C h'') : h.StaysBelow C h'' := by
  intro l vs cell
  obtain ⟨ws, cell', short⟩ := a l vs cell
  obtain ⟨xs, cell'', short'⟩ := b l ws cell'
  exact ⟨xs, cell'', by omega⟩

theorem of_conserves (a : h.Conserves h') : h.StaysBelow C h' :=
  fun l vs cell => ⟨vs, a.items l vs cell, Nat.le_max_left _ _⟩

theorem put_items {vs ws : List Value} (cell : h.cell? l = some (.items vs))
    (short : ws.length ≤ max vs.length C) : h.StaysBelow C (h.put l (.items ws)) := by
  intro m us hm
  by_cases same : m = l
  · subst same
    obtain rfl : vs = us := by simpa [cell] using hm
    exact ⟨ws, cell?_put_self (lt_size_of_cell? cell), short⟩
  · exact ⟨us, by rw [cell?_put_of_ne _ same, hm], Nat.le_max_left _ _⟩

theorem setItem? {i : Nat} {v : Value} (stored : h.setItem? l i v = some h') :
    h.StaysBelow C h' := by
  unfold Heap.setItem? at stored
  split at stored
  · rename_i inside
    obtain rfl := Option.some.inj stored
    refine put_items (cell?_of_mem_items (List.getElem_mem inside)) ?_
    rw [List.length_set]
    exact Nat.le_max_left _ _
  · cases stored

theorem insertEntry (s : TableShape) (k v : Value) : h.StaysBelow C (h.insertEntry s l k v) := by
  unfold Heap.insertEntry editEntries
  split
  · rename_i pairs cell
    intro m us hm
    have apart : m ≠ l := by
      rintro rfl
      cases cell.symm.trans hm
    exact ⟨us, by rw [cell?_put_of_ne _ apart, hm], Nat.le_max_left _ _⟩
  · exact .refl h

theorem appendItems {vs : List Value} (short : (h.items l).length + vs.length ≤ C) :
    h.StaysBelow C (h.appendItems l vs) := by
  unfold Heap.appendItems editItems
  split
  · rename_i old cell
    have own : h.items l = old := by simp [items, cell]
    rw [own] at short
    refine put_items cell ?_
    rw [List.length_append]
    omega
  · exact .refl h

theorem of_appends (a : h.Appends l count h') (short : (h.items l).length + count ≤ C) :
    h.StaysBelow C h' := by
  intro m vs cell
  obtain ⟨ws, cell', few⟩ := a m vs cell
  refine ⟨vs ++ ws, cell', ?_⟩
  rw [List.length_append]
  split at few
  · rename_i same
    have own : h.items l = vs := by simp [items, ← same, cell]
    rw [own] at short
    omega
  · omega

instance : IsPreorder Heap (StaysBelow C) where
  refl := .refl
  trans _ _ _ := .trans

end StaysBelow

def Short (C : Nat) (h : Heap) (l : Loc) : Prop :=
  ∃ vs, h.cell? l = some (.items vs) ∧ vs.length ≤ C

/-- The ceiling is kept: by what there was in the first heap, which may have been longer, and
by the arrays that growing has made since. -/
structure Limits (C : Nat) (first : Heap) (grown : List Loc) (h : Heap) : Prop where
  before : first.StaysBelow C h
  short : ∀ l ∈ grown, h.Short C l

theorem StaysBelow.short (later : h.StaysBelow C h') (short : h.Short C l) : h'.Short C l := by
  obtain ⟨vs, cell, few⟩ := short
  obtain ⟨ws, cell', few'⟩ := later l vs cell
  exact ⟨ws, cell', by omega⟩

theorem Limits.later {first : Heap} {grown : List Loc} (limits : Limits C first grown h)
    (later : h.StaysBelow C h') : Limits C first grown h' :=
  ⟨limits.before.trans later, fun l hl => later.short (limits.short l hl)⟩

namespace Appends

theorem of_conserves (a : h.Conserves h') : h.Appends l count h' :=
  fun m vs cell => ⟨[], by rw [List.append_nil, a.items m vs cell], Nat.zero_le _⟩

theorem trans (a : h.Appends l count h') (b : h'.Appends l more h'') :
    h.Appends l (more + count) h'' := by
  intro m vs cell
  obtain ⟨ws, cell', few⟩ := a m vs cell
  obtain ⟨xs, cell'', few'⟩ := b m (vs ++ ws) cell'
  refine ⟨ws ++ xs, by rw [← List.append_assoc, cell''], ?_⟩
  rw [List.length_append]
  split at few' <;> rename_i at_ <;> simp only [at_, if_true, if_false] at few ⊢ <;> omega

theorem appendItems (v : Value) : h.Appends l 1 (h.appendItems l [v]) := by
  intro m vs cell
  unfold Heap.appendItems editItems
  split
  · rename_i old own
    by_cases same : m = l
    · subst same
      obtain rfl : old = vs := by simpa [own] using cell
      exact ⟨[v], cell?_put_self (lt_size_of_cell? own), by simp⟩
    · exact ⟨[], by rw [cell?_put_of_ne _ same, cell, List.append_nil], Nat.zero_le _⟩
  · exact ⟨[], by rw [cell, List.append_nil], Nat.zero_le _⟩

end Appends

end Heap

namespace Schema

variable {σ : Schema} {C : Nat}

theorem ends_growList_appends (hσ : σ.Sparing) (elem : Ty) (l : Loc) (missing : Nat) (h : Heap) :
    (σ.growList elem l missing).Ends h (fun _ h' => h.Appends l missing h')
      fun _ h' => h.Appends l missing h' := by
  induction missing generalizing h with
  | zero => exact .of_conserves (.refl h)
  | succ missing ih =>
    rw [Schema.growList, Run.ends_bind]
    refine ((hσ.defaultValue elem).ends h).mono (fun v g made => ?_) fun _ _ => .of_conserves
    rw [Run.ends_bind, Run.ends_update]
    have appended : h.Appends l 1 (g.appendItems l [v]) := by
      have first : h.Appends l 0 g := .of_conserves made
      simpa using first.trans (.appendItems v)
    exact (ih _).mono (fun _ _ => appended.trans) fun _ _ => appended.trans

theorem ends_grownArray_length (elem : Ty) (l : Loc) (length : Nat) (h : Heap) :
    (σ.grownArray elem l length).Ends h
      (fun v h' => ∃ m vs, v = .array elem m ∧ h'.cell? m = some (.items vs) ∧
        vs.length = max (h.items l).length length)
      (fun _ _ => True) := by
  rw [ends_grownArray_iff]
  refine (ends_repeated _ _ h).mono (fun news g hnews => ?_) fun _ _ => id
  refine ⟨g.size, _, rfl, Heap.cell?_alloc g _, ?_⟩
  rw [List.length_append, hnews.1]
  omega

theorem Sparing.grownArray (hσ : σ.Sparing) (elem : Ty) (l : Loc) (length : Nat) :
    (σ.grownArray elem l length).Sparing :=
  .of_stays fun w => hσ.stays.grownArray (w := w) trivial length

end Schema

theorem Run.Sparing.takes {ε α : Type} {r : Run ε α} {C : Nat} (hr : r.Sparing) :
    r.Takes (Heap.StaysBelow C) := fun h => .of_conserves (hr h)

/-- Nothing grows beyond the ceiling, and a conversion leaves containers alone. -/
structure Node.Capped (σ : Schema) (C : Nat) (n : Node) : Prop where
  limit : n.config.limit ≤ C
  strategies : n.strategies.Sparing σ

theorem Node.Capped.child {σ : Schema} {C : Nat} {n : Node} (hn : n.Capped σ C) (s : Segment)
    (o : ObjectRef) : (n.child s o).Capped σ C where
  limit := hn.limit
  strategies :=
    ⟨fun c hc => hn.strategies.registered c (Registrations.mem_of_mem_below hc),
      hn.strategies.defaults, hn.strategies.service⟩

/-- Growing is set below the ceiling, and what is supplied leaves containers alone. -/
def Incident.Capped (σ : Schema) (C : Nat) : Incident → Prop
  | .event (.growing _ limit) => limit ≤ C
  | .event _ => True
  | .setting (.growing _ limit) => limit ≤ C
  | .setting (.register _ _ c) => c.Sparing σ
  | .setting (.service service) => ∀ s, service = some s → s.Sparing σ

theorem Node.Capped.node {σ : Schema} {C : Nat} {n : Node} {i : Incident}
    (allowed : i.Capped σ C) (hn : n.Capped σ C) : (i.node n).Capped σ C := by
  rcases i with e | s
  · cases e with
    | growing => exact ⟨allowed, hn.strategies⟩
    | _ => exact hn
  · cases s with
    | register type path c =>
      unfold Incident.node
      dsimp only
      split
      · rename_i registered made
        refine ⟨hn.limit, fun d hd => ?_, hn.strategies.defaults, hn.strategies.service⟩
        rcases Registrations.mem_of_register made hd with rfl | hd
        · exact allowed
        · exact hn.strategies.registered d hd
      · exact hn
    | service =>
      exact ⟨hn.limit, hn.strategies.registered, hn.strategies.defaults, allowed⟩
    | growing => exact ⟨allowed, hn.strategies⟩

/-! Where no array grows. -/

namespace Node

variable {σ : Schema} {C : Nat} {n : Node}

theorem takes_indexOf (path key : String) : (n.indexOf σ path key).Takes (Heap.StaysBelow C) := by
  unfold indexOf
  split
  · exact .pure _
  · exact .throw _

theorem takes_itemAt (shown : String) (l : Loc) (index : Nat) :
    (n.itemAt σ shown l index).Takes (Heap.StaysBelow C) := by
  refine (Run.Takes.lookup _).bind fun items => ?_
  split
  · exact .pure _
  · exact .throw _

theorem takes_readSet (shown key : String) (l : Loc) :
    (n.readSet σ shown key l).Takes (Heap.StaysBelow C) := by
  refine (takes_indexOf _ _).bind fun index => (Run.Takes.lookup _).bind fun items => ?_
  split
  · exact .pure _
  · exact .throw _

theorem takes_putItem (l : Loc) (index : Nat) (v : Value) (missing : PathError) :
    (putItem l index v missing).Takes (Heap.StaysBelow C) := by
  rw [Run.takes_iff_ends]
  intro h
  simp only [putItem, Run.ends_bind, Run.ends_lookup]
  split
  · rename_i after stored
    exact .setItem? stored
  · exact .refl h

section Reading

variable (hσ : σ.Sparing)
include hσ

theorem takes_readProperty (shown name : String) :
    (n.readProperty σ shown name).Takes (Heap.StaysBelow C) := by
  unfold readProperty
  split
  · rename_i hd found
    exact .ite (.mapError _ (Schema.sparing_get hσ found _).takes) (.throw _)
  · exact .throw _

theorem takes_makeDefault (path : String) (type : Ty) :
    (Run.mapError (n.uninstantiableAt path type) (σ.defaultValue type)).Takes
      (Heap.StaysBelow C) := .mapError _ (hσ.defaultValue type).takes

theorem takes_growListForRead (hn : n.Capped σ C) (p : Place) (elem : Ty) (l : Loc)
    (index : Nat) : (n.growListForRead σ p elem l index).Takes (Heap.StaysBelow C) := by
  rw [Run.takes_iff_ends]
  intro h
  rw [ends_growListForRead_iff]
  split
  · rename_i grows
    have below := hn.limit
    have short : (h.items l).length + (index + 1 - (h.items l).length) ≤ C := by omega
    exact (Schema.ends_growList_appends hσ elem l _ h).mono (fun _ _ a => .of_appends a short)
      fun _ _ a => .of_appends a short
  · exact .refl h

theorem takes_readList (hn : n.Capped σ C) (shown : String) (holder : Place) (key : String)
    (l : Loc) :
    (n.readList σ shown holder key l).Takes (Heap.StaysBelow C) :=
  (takes_indexOf _ _).bind fun _ =>
    (takes_growListForRead hσ hn _ _ _ _).bind fun _ => takes_itemAt _ _ _

end Reading

section Converting

variable (hσ : σ.Sparing) (hn : n.Capped σ C)
include hσ hn

theorem takes_convert (required : Ty) (path : Option String) (v : Value) :
    (n.strategies.convert σ required path v).Takes (Heap.StaysBelow C) :=
  (hn.strategies.convert hσ required path v).takes

theorem takes_convertFor (path : String) (raw : Value) (required : Ty) :
    (n.convertFor σ path raw required).Takes (Heap.StaysBelow C) :=
  .mapError _ (takes_convert hσ hn _ _ _)

theorem takes_convertKey (name : String) (depth : Nat) (key : String) :
    (n.convertKey σ name depth key).Takes (Heap.StaysBelow C) :=
  takes_convert hσ hn _ _ _

theorem takes_writeProperty (name : String) (raw : Value) :
    (n.writeProperty σ name raw).Takes (Heap.StaysBelow C) := by
  unfold writeProperty
  split
  · rename_i hd found
    refine .ite ?_ (.throw _)
    exact (takes_convertFor hσ hn _ _ _).bind fun v =>
      .mapError _ (Schema.sparing_set hσ found _ _).takes
  · exact .throw _

theorem takes_readMap (shown : String) (holder : Place) (key : String) (l : Loc) :
    (n.readMap σ shown holder key l).Takes (Heap.StaysBelow C) := by
  refine (takes_convertKey hσ hn _ _ _).outcome.bind fun converted => ?_
  split
  · refine Run.Takes.heap.bind fun _ => ?_
    split
    · exact .throw _
    · exact .throw _
  · refine (Run.Takes.lookup _).bind fun entries => ?_
    split
    · exact .pure _
    · exact .ite (.pure _) (.throw _)

theorem takes_writeList (whole : Place) (l : Loc) (key : String) (raw : Value) :
    (n.writeList σ whole l key raw).Takes (Heap.StaysBelow C) := by
  refine (takes_convertFor hσ hn _ _ _).bind fun v => (takes_indexOf _ _).bind fun index => ?_
  rw [Run.takes_iff_ends]
  intro h
  simp only [Run.ends_bind, Run.ends_lookup]
  split
  · rename_i grows
    simp only [Bool.and_eq_true, decide_eq_true_eq] at grows
    have below := hn.limit
    refine .appendItems ?_
    rw [List.length_append, List.length_replicate, List.length_singleton]
    omega
  · exact (takes_putItem _ _ _ _).ends h

theorem takes_writeMap (whole holder : Place) (s : TableShape) (l : Loc) (key : String)
    (raw : Value) : (n.writeMap σ whole holder s l key raw).Takes (Heap.StaysBelow C) :=
  (Run.Takes.mapError _ (takes_convertKey hσ hn _ _ _)).bind fun _ =>
    (takes_convertFor hσ hn _ _ _).bind fun _ _ => .insertEntry _ _ _

theorem takes_readContainer (shown name : String) :
    (n.readContainer σ shown name).Takes (Heap.StaysBelow C) := by
  refine (takes_readProperty hσ _ _).bind fun found => .ite (.pure _) (.ite ?_ (.throw _))
  refine .ite (.throw _) ((takes_makeDefault hσ _ _).bind fun fresh => ?_)
  refine (takes_writeProperty hσ hn name fresh).bind fun _ =>
    (takes_readProperty hσ _ _).bind fun v => ?_
  exact .ite (.throw _) (.pure _)

end Converting

end Node

/-! Where an array may grow. -/

namespace Recorded

variable {σ : Schema} {C : Nat} {n : Node} {first : Heap}
  {N : List String → Node → Prop}

theorem Keeps.of_takes {α : Type} {r : Run PathError α} (hr : r.Takes (Heap.StaysBelow C)) :
    Keeps N (Heap.Limits C first) (Recorded.run r) fun _ => True :=
  .run fun _ h limits => limits.later (hr h)

/-- The copy is put down, and it is short if what was asked for is. -/
theorem sound_grownArray (hσ : σ.Sparing) (elem : Ty) {l : Loc} {length : Nat} {s : Recording}
    (short : max (s.heap.items l).length length ≤ C) (hs : s.Sound N (Heap.Limits C first))
    (shown : String) :
    ((grownArray σ n shown elem l length).on s).2.Sound N (Heap.Limits C first) := by
  have ends := (Schema.ends_grownArray_length (σ := σ) elem l length s.heap).and
    ((hσ.grownArray elem l length).ends s.heap)
  have ran : (run (Run.mapError (n.uninstantiableAt shown elem) (σ.grownArray elem l length))).on s
      = (((σ.grownArray elem l length).on s.heap).1.mapError (n.uninstantiableAt shown elem),
        { s with heap := ((σ.grownArray elem l length).on s.heap).2 }) := by
    change ((Run.mapError _ _).on s.heap |>.1, { s with heap := ((Run.mapError _ _).on s.heap).2 }) = _
    rw [Run.on_mapError]
  rw [grownArray, on_bind, ran]
  rcases made : (σ.grownArray elem l length).on s.heap with ⟨e | v, g⟩
  · exact ⟨hs.nodes, hs.graph.later (.of_conserves (ends.of_error made).2)⟩
  · obtain ⟨⟨m, vs, rfl, cell, own⟩, conserves⟩ := ends.of_ok made
    have later := hs.graph.later (.of_conserves conserves)
    refine ⟨hs.nodes, later.before, fun k hk => ?_⟩
    rcases List.mem_append.1 hk with hk | hk
    · exact later.short k hk
    · obtain rfl := List.mem_singleton.1 hk
      exact ⟨vs, cell, by omega⟩

section Places

variable (hσ : σ.Sparing) (hn : n.Capped σ C) {writes : Value → Recorded Unit}
include hσ

theorem keeps_present {reads : Recorded Value}
    (hr : Keeps N (Heap.Limits C first) reads fun _ => True)
    (hw : ∀ v, Keeps N (Heap.Limits C first) (writes v) fun _ => True) (p : Place)
    (shown : String) (found : Value) :
    Keeps N (Heap.Limits C first) (present σ n p shown found reads writes) fun _ => True := by
  have made : Keeps N (Heap.Limits C first) (vivify σ n p reads writes) fun _ => True := by
    unfold vivify
    dsimp only
    split
    · exact .throw _
    · refine (Keeps.of_takes (Node.takes_makeDefault hσ _ _)).bind fun fresh _ => ?_
      refine (hw fresh).bind fun _ _ => hr.bind fun v _ => ?_
      split
      · exact .throw _
      · exact .pure trivial
  unfold present
  split
  · exact .pure trivial
  · split
    · exact made
    · exact .throw _

include hn

theorem keeps_lengthened (hw : ∀ v, Keeps N (Heap.Limits C first) (writes v) fun _ => True)
    (may : Bool) (shown : String) (elem : Ty) (l : Loc) (index : Nat) :
    Keeps N (Heap.Limits C first) (lengthened σ n may shown elem l index writes)
      fun _ => True := by
  intro s hs
  have below := hn.limit
  have looked : (run (Run.lookup (·.items l))).on s = (.ok (s.heap.items l), s) := rfl
  rw [lengthened, on_bind, looked]
  dsimp only
  split
  · rename_i grows
    simp only [Bool.and_eq_true, decide_eq_true_eq] at grows
    have short : max (s.heap.items l).length (index + 1) ≤ C := by omega
    have grown := sound_grownArray (n := n) hσ elem short hs shown
    rw [on_bind]
    rcases made : (grownArray σ n shown elem l (index + 1)).on s with ⟨e | v, t⟩ <;>
      rw [made] at grown
    · exact ⟨grown, nofun⟩
    · exact (hw v).bind (fun _ _ => .pure trivial) t grown
  · exact ⟨hs, fun _ _ => trivial⟩

theorem keeps_readElement (hw : ∀ v, Keeps N (Heap.Limits C first) (writes v) fun _ => True)
    (shown : String) (holder : Place) (key : String) (container : Value) :
    Keeps N (Heap.Limits C first) (readElement σ n shown holder key container writes)
      fun _ => True := by
  cases container with
  | array elem l =>
    exact (Keeps.of_takes (Node.takes_indexOf _ _)).bind fun index _ =>
      (keeps_lengthened hσ hn hw _ _ _ _ _).bind fun _ _ => .of_takes (Node.takes_itemAt _ _ _)
  | list => exact .of_takes (Node.takes_readList hσ hn _ _ _ _)
  | set => exact .of_takes (Node.takes_readSet _ _ _)
  | map => exact .of_takes (Node.takes_readMap hσ hn _ _ _ _)
  | _ => exact .throw _

theorem keeps_writeElement (hw : ∀ v, Keeps N (Heap.Limits C first) (writes v) fun _ => True)
    (whole holder : Place) (key : String) (raw container : Value) :
    Keeps N (Heap.Limits C first) (writeElement σ n whole holder key raw container writes)
      fun _ => True := by
  cases container with
  | array elem l =>
    exact (Keeps.of_takes (Node.takes_convertFor hσ hn _ _ _)).bind fun v _ =>
      (Keeps.of_takes (Node.takes_indexOf _ _)).bind fun index _ =>
        (keeps_lengthened hσ hn hw _ _ _ _ _).bind fun _ _ =>
          .of_takes (Node.takes_putItem _ _ _ _)
  | list => exact .of_takes (Node.takes_writeList hσ hn _ _ _ _)
  | map => exact .of_takes (Node.takes_writeMap hσ hn _ _ _ _ _ _)
  | _ => exact .throw _

theorem keeps_read_write (p : Place) :
    (∀ shown, Keeps N (Heap.Limits C first) (Recorded.read σ n shown p) fun _ => True) ∧
      ∀ raw, Keeps N (Heap.Limits C first) (Recorded.write σ n p raw) fun _ => True := by
  -- A place is read and written by way of its holder.
  induction p with
  | property name =>
    refine ⟨fun shown => ?_, fun raw => ?_⟩
    · rw [Recorded.read]
      exact .of_takes (Node.takes_readProperty hσ _ _)
    · rw [Recorded.write]
      exact .of_takes (Node.takes_writeProperty hσ hn _ _)
  | element holder key ih =>
    obtain ⟨reads, writes⟩ := ih
    refine ⟨fun shown => ?_, fun raw => ?_⟩
    · cases holder with
      | property name =>
        rw [Recorded.read]
        exact (Keeps.of_takes (Node.takes_readContainer hσ hn _ _)).bind fun c _ =>
          keeps_readElement hσ hn writes _ _ _ c
      | element =>
        rw [Recorded.read]
        exact (reads shown).bind fun c _ => keeps_readElement hσ hn writes _ _ _ c
    · rw [Recorded.write]
      refine ((reads _).mapError _).bind fun found _ => ?_
      exact (keeps_present hσ (reads _) writes _ _ _).bind fun c _ =>
        keeps_writeElement hσ hn writes _ _ _ _ c

theorem keeps_enter (p : Place) :
    Keeps N (Heap.Limits C first) (enter σ n p) fun _ => True := by
  obtain ⟨reads, writes⟩ := keeps_read_write (N := N) hσ hn p
  refine (reads _).bind fun found _ => (keeps_present hσ (reads _) writes _ _ _).bind fun v _ => ?_
  cases v with
  | object => exact .pure trivial
  | _ => exact .throw _

end Places

theorem upholds_limits (hσ : σ.Sparing) (C : Nat) (first : Heap) :
    Upholds σ (fun _ n => n.Capped σ C) (Heap.Limits C first) where
  child hn s o := hn.child s o
  read hn shown p := (keeps_read_write hσ hn p).1 shown
  write hn p raw := (keeps_read_write hσ hn p).2 raw
  enter hn p := keeps_enter hσ hn p
  convert hn required v _ h limits := limits.later (Node.takes_convert hσ hn required none v h)

end Recorded

end PropertyAccess
