import Mathlib.Data.List.Induction
import PropertyAccess.Proofs.Navigation.FailedWrite
import PropertyAccess.Proofs.Navigation.Seeking
import PropertyAccess.Proofs.Schema.Enclosed

/-! What a batch does. Its entries are taken in order, each at the graph that the earlier ones
left, and each succeeds, is left out, is collected as a failure, or stops the batch. Entries
that fail leave nothing behind, so the graph at the end is the one that the entries that
succeeded make alone. -/

namespace PropertyAccess

variable {σ : Schema} {N : Names}

namespace Batch

theorem mem_push {b : Batch} {v x : PropertyValue} (distinct : (b.map (·.path)).Nodup)
    (hx : x ∈ b.push v) : x = v ∨ x ∈ b ∧ x.path ≠ v.path := by
  induction b with
  | nil => exact .inl (List.mem_singleton.1 hx)
  | cons y r ih =>
    rw [List.map_cons, List.nodup_cons] at distinct
    rw [push] at hx
    split at hx
    · rename_i same
      refine (List.mem_cons.1 hx).imp_right fun hr => ⟨List.mem_cons_of_mem _ hr, fun eq => ?_⟩
      exact distinct.1 (same ▸ eq ▸ List.mem_map_of_mem hr)
    · rename_i other
      rcases List.mem_cons.1 hx with rfl | hr
      · exact .inr ⟨List.mem_cons_self, other⟩
      · exact (ih distinct.2 hr).imp_right fun h => ⟨List.mem_cons_of_mem _ h.1, h.2⟩

theorem ofList_append (vs : List PropertyValue) (v : PropertyValue) :
    ofList (vs ++ [v]) = (ofList vs).push v := by
  rw [ofList, ofList, List.foldl_append]
  rfl

theorem map_path_ofList (vs : List PropertyValue) :
    (ofList vs).map (·.path) = (vs.map (·.path)).eraseDups := by
  induction vs using List.reverseRecOn with
  | nil => rfl
  | append_singleton vs v ih =>
    rw [ofList_append, map_path_push, ih, List.map_append, List.map_singleton, eraseDups_concat]
    simp only [List.mem_eraseDups]

theorem nodup_ofList (vs : List PropertyValue) : ((ofList vs).map (·.path)).Nodup := by
  induction vs using List.reverseRecOn with
  | nil => exact List.nodup_nil
  | append_singleton vs v ih =>
    rw [ofList_append, map_path_push]
    split
    · exact ih
    · rename_i unknown
      exact List.nodup_append.2 ⟨ih, by simp, by
        rintro p hp q hq rfl
        exact unknown (List.mem_singleton.1 hq ▸ hp)⟩

theorem last_of_mem_ofList {vs : List PropertyValue} {x : PropertyValue} (hx : x ∈ ofList vs) :
    ∃ before after, vs = before ++ x :: after ∧ ∀ y ∈ after, y.path ≠ x.path := by
  induction vs using List.reverseRecOn with
  | nil => cases hx
  | append_singleton vs v ih =>
    rw [ofList_append] at hx
    rcases mem_push (nodup_ofList vs) hx with rfl | ⟨hx, other⟩
    · exact ⟨vs, [], rfl, by simp⟩
    · obtain ⟨before, after, rfl, later⟩ := ih hx
      refine ⟨before, after ++ [v], by simp, fun y hy => ?_⟩
      rcases List.mem_append.1 hy with hy | hy
      · exact later y hy
      · rw [List.mem_singleton.1 hy]
        exact Ne.symm other

end Batch

def PathError.IsCollected (e : PathError) : Prop :=
  e.kind ∈ [ErrorKind.access, .typeClash, .conversion, .numericOverflow]

def BatchOptions.Skips (o : BatchOptions) (v : PropertyValue) (e : PathError) : Prop :=
  e.kind = .notWritable ∧ (o.ignoreUnknown = true ∨ v.optional = true) ∨
    e.kind = .nullIntermediate ∧ o.ignoreInvalid = true

theorem BatchOptions.verdict_cases (o : BatchOptions) (v : PropertyValue) (e : PathError) :
    o.verdict v.optional e = .skip ∧ o.Skips v e ∨
      o.verdict v.optional e = .collect ∧ e.IsCollected ∨
      o.verdict v.optional e = .stop ∧ ¬ o.Skips v e ∧ ¬ e.IsCollected := by
  unfold verdict Skips PathError.IsCollected PathError.isCollected
  cases e.kind with
  | notWritable =>
    simp
    grind
  | _ => simp

namespace Accessor

/-- What becomes of the entries of a batch that does not stop: the failures that it collects,
and the entries that are written. -/
inductive Processed (σ : Schema) (o : BatchOptions) :
    Accessor × Heap → Batch → List (String × PathError) → Batch → Accessor × Heap → Prop
  | nil (s : Accessor × Heap) : Processed σ o s [] [] [] s
  | written {s t u : Accessor × Heap} {v : PropertyValue} {vs failures written}
      (ran : on (apply σ v.path v.value) s.1 s.2 = ((.ok (), t.1), t.2))
      (rest : Processed σ o t vs failures written u) :
      Processed σ o s (v :: vs) failures (v :: written) u
  | skipped {s t u : Accessor × Heap} {v : PropertyValue} {e : PathError} {vs failures written}
      (ran : on (apply σ v.path v.value) s.1 s.2 = ((.error e, t.1), t.2)) (skips : o.Skips v e)
      (rest : Processed σ o t vs failures written u) :
      Processed σ o s (v :: vs) failures written u
  | collected {s t u : Accessor × Heap} {v : PropertyValue} {e : PathError} {vs failures written}
      (ran : on (apply σ v.path v.value) s.1 s.2 = ((.error e, t.1), t.2)) (own : e.IsCollected)
      (rest : Processed σ o t vs failures written u) :
      Processed σ o s (v :: vs) ((v.path, e) :: failures) written u

inductive Concluded (σ : Schema) (o : BatchOptions) (s : Accessor × Heap) (b : Batch) :
    List (String × PathError) → Option PathError → Batch → Accessor × Heap → Prop
  | finished {t : Accessor × Heap} {failures written}
      (all : Processed σ o s b failures written t) :
      Concluded σ o s b failures none written t
  | stopped {t u : Accessor × Heap} {v : PropertyValue} {e : PathError}
      {before after : Batch} {failures written} (split : b = before ++ v :: after)
      (earlier : Processed σ o s before failures written t)
      (ran : on (apply σ v.path v.value) t.1 t.2 = ((.error e, u.1), u.2))
      (other : ¬ o.Skips v e ∧ ¬ e.IsCollected) :
      Concluded σ o s b failures (some e) written u

def conclusion : List (String × PathError) → Option PathError → Option BatchError
  | _, some e => some (.stopped e)
  | [], none => none
  | failures, none => some (.collected failures)

variable {o : BatchOptions}

theorem Processed.sublist {s t : Accessor × Heap} {b failures written}
    (all : Processed σ o s b failures written t) :
    (failures.map (·.1)).Sublist (b.map (·.path)) := by
  induction all with
  | nil => exact .slnil
  | written _ _ ih | skipped _ _ _ ih => exact .cons _ ih
  | collected _ _ _ ih => exact ih.cons_cons _

theorem Processed.written_eq {s t : Accessor × Heap} {b failures written}
    (all : Processed σ o s b failures written t) (distinct : (b.map (·.path)).Nodup)
    (never : ∀ v ∈ b, ∀ e, ¬ o.Skips v e) :
    written = b.filter fun v => v.path ∉ failures.map (·.1) := by
  induction all with
  | nil => rfl
  | written ran rest ih =>
    rw [List.map_cons, List.nodup_cons] at distinct
    rw [List.forall_mem_cons] at never
    have other := fun failed => distinct.1 (rest.sublist.subset failed)
    rw [List.filter_cons_of_pos (by simpa using other), ih distinct.2 never.2]
  | skipped _ skips => exact absurd skips (never _ List.mem_cons_self _)
  | @collected _ _ _ v e vs failures written ran own rest ih =>
    rw [List.map_cons, List.nodup_cons] at distinct
    rw [List.forall_mem_cons] at never
    rw [List.filter_cons_of_neg (by simp), ih distinct.2 never.2]
    refine List.filter_congr fun x hx => ?_
    have other : x.path ≠ v.path := fun eq => distinct.1 (eq ▸ List.mem_map_of_mem hx)
    simp [other]
theorem Concluded.cons {s t u : Accessor × Heap} {v : PropertyValue} {vs failures stop w}
    (f : List (String × PathError) → List (String × PathError)) (g : Batch → Batch)
    (step : ∀ {vs failures w u}, Processed σ o t vs failures w u →
      Processed σ o s (v :: vs) (f failures) (g w) u)
    (rest : Concluded σ o t vs failures stop w u) :
    Concluded σ o s (v :: vs) (f failures) stop (g w) u := by
  cases rest with
  | finished all => exact .finished (step all)
  | stopped split earlier ran other =>
    exact .stopped (by rw [split, List.cons_append]) (step earlier) ran other

theorem concluded_applyAll (σ : Schema) (o : BatchOptions) (b : Batch)
    (gathered : List (String × PathError)) (s : Accessor × Heap) :
    ∃ failures stop w t, Concluded σ o s b failures stop w t ∧
      on (applyAll σ o b gathered) s.1 s.2 =
        ((.ok (conclusion (gathered ++ failures) stop), t.1), t.2) := by
  induction b generalizing gathered s with
  | nil =>
    refine ⟨[], none, [], s, .finished (.nil s), ?_⟩
    rw [List.append_nil]
    cases gathered <;> rfl
  | cons v vs ih =>
    rw [applyAll, Walk.on_bind, Walk.on_outcome]
    rcases ran : on (apply σ v.path v.value) s.1 s.2 with ⟨⟨e | ⟨⟩, a'⟩, h'⟩
    · dsimp only
      rcases o.verdict_cases v e with ⟨verdict, skips⟩ | ⟨verdict, own⟩ | ⟨verdict, other⟩
      · obtain ⟨failures, stop, w, t, done, answer⟩ := ih gathered (a', h')
        rw [verdict]
        exact ⟨failures, stop, w, t, done.cons id id (.skipped ran skips), answer⟩
      · obtain ⟨failures, stop, w, t, done, answer⟩ := ih (gathered ++ [(v.path, e)]) (a', h')
        rw [verdict]
        refine ⟨_, stop, w, t, done.cons ((v.path, e) :: ·) id (.collected ran own), ?_⟩
        simpa using answer
      · rw [verdict]
        exact ⟨[], some e, [], (a', h'), .stopped rfl (.nil s) ran other, rfl⟩
    · obtain ⟨failures, stop, w, t, done, answer⟩ := ih gathered (a', h')
      exact ⟨failures, stop, v :: w, t, done.cons id (v :: ·) (.written ran), answer⟩

/-! The entries that succeed, alone. -/

def applyEach (σ : Schema) : Batch → Walk Unit
  | [] => return ()
  | v :: vs => do
    apply σ v.path v.value
    applyEach σ vs

variable {r : Node}

theorem Of.calm {a : Accessor} (ha : Of r a) (hr : r.Calm σ) : a.Calm σ := by
  have met : ∀ {at_ n}, r.Met at_ n → n.Calm σ := by
    intro at_ n hn
    induction hn with
    | top => exact hr
    | child _ _ o ih => exact Node.calm_child ih _ o
  exact calm_of (ha.node ▸ hr) fun c hc => met (ha.kept c hc)

section Alone

variable (fields : ∀ d ∈ σ.classes, d.properties = []) (makesNew : σ.MakesNew)
  (uniform : σ.Uniform) (calm : r.Calm σ) (same : r.strategies.Uniform σ)

include fields makesNew calm in
theorem extends_of_failed {s t : Accessor × Heap} (ha : Of r s.1) {path : String} {raw : Value}
    {e : PathError} (ran : on (apply σ path raw) s.1 s.2 = ((.error e, t.1), t.2)) :
    s.2.Extends t.2 := by
  have harmless : σ.Harmless := fun d hd =>
    ⟨by simp [fields d hd], (makesNew d hd).initializer, (makesNew d hd).fromText⟩
  have careful : σ.Careful := fun d hd => by simp [ClassDecl.Careful, fields d hd]
  exact ((ends_apply harmless careful (ha.calm calm) path raw).of_error ran).2

theorem of_apply {s t : Accessor × Heap} (ha : Of r s.1) {path : String} {raw : Value}
    {result : Except PathError Unit}
    (ran : on (apply σ path raw) s.1 s.2 = ((result, t.1), t.2)) :
    Of r t.1 ∧ (r.assign σ path raw).on s.2 = (result, t.2) := by
  obtain ⟨a', eq, ha'⟩ := on_apply_of (σ := σ) ha path raw s.2
  rw [ran] at eq
  simp only [Prod.mk.injEq] at eq
  exact ⟨eq.1.2 ▸ ha', Prod.ext eq.1.1.symm eq.2.symm⟩

include fields makesNew uniform calm same in
/-- On an alike graph the entries that were written succeed alone, and the graphs stay alike. -/
theorem Processed.alone {o : BatchOptions} {s t : Accessor × Heap} {b failures written}
    (all : Processed σ o s b failures written t) (hs : Of r s.1) {u : Accessor × Heap}
    (hu : Of r u.1) (alike : u.2.Alike N s.2) (root : Like N r.wrapped r.wrapped)
    (values : ∀ v ∈ b, Like N v.value v.value) :
    Of r t.1 ∧ ∃ (u' : Accessor × Heap) (N' : Names),
      on (applyEach σ written) u.1 u.2 = ((.ok (), u'.1), u'.2) ∧ N <+: N' ∧
        u'.2.Alike N' t.2 := by
  induction all generalizing u N with
  | nil s => exact ⟨hs, u, N, rfl, List.prefix_rfl, alike⟩
  | @written s t t' v vs failures written ran rest ih =>
    rw [List.forall_mem_cons] at values
    obtain ⟨ht, assigned⟩ := of_apply hs ran
    obtain ⟨a', ran', ha'⟩ := on_apply_of (σ := σ) hu v.path v.value u.2
    obtain ⟨N', later, alike', outcome⟩ := Node.alike_assign fields uniform ⟨calm.growing, same⟩
      root v.path values.1 u.2 s.2 alike
    rw [assigned] at alike' outcome
    have values' : ∀ x ∈ vs, Like N' x.value x.value :=
      fun x hx => Likened.mono later (values.2 x hx)
    have root' := Likened.mono later root
    obtain ⟨ht', u'', N'', ran'', later', alike''⟩ := ih ht
      (u := (a', ((r.assign σ v.path v.value).on u.2).2)) ha' alike' root' values'
    refine ⟨ht', u'', N'', ?_, later.trans later', alike''⟩
    have written : ((r.assign σ v.path v.value).on u.2).1 = .ok () := by
      revert outcome
      generalize ((r.assign σ v.path v.value).on u.2).1 = x
      intro outcome
      cases outcome
      rfl
    rw [applyEach, Walk.on_bind, ran', written]
    exact ran''
  | skipped ran _ rest ih | collected ran _ rest ih =>
    rw [List.forall_mem_cons] at values
    have kept := extends_of_failed fields makesNew calm hs ran
    exact ih (of_apply hs ran).1 hu (alike.more kept) root values.2

include fields makesNew uniform calm same in
theorem Concluded.alone {o : BatchOptions} {s t : Accessor × Heap} {b failures stop written}
    (done : Concluded σ o s b failures stop written t) (hs : Of r s.1) (alike : s.2.Alike N s.2)
    (root : Like N r.wrapped r.wrapped) (values : ∀ v ∈ b, Like N v.value v.value) :
    ∃ (u : Accessor × Heap) (N' : Names), on (applyEach σ written) s.1 s.2 = ((.ok (), u.1), u.2) ∧
      N <+: N' ∧ u.2.Alike N' t.2 := by
  cases done with
  | finished all => exact (all.alone fields makesNew uniform calm same hs hs alike root values).2
  | @stopped _ _ _ _ before _ _ _ split earlier ran other =>
    have first : ∀ v ∈ before, Like N v.value v.value := fun v hv =>
      values v (split ▸ List.mem_append_left _ hv)
    obtain ⟨ht, u, N', ran', later, alike'⟩ :=
      earlier.alone fields makesNew uniform calm same hs hs alike root first
    exact ⟨u, N', ran', later, alike'.more (extends_of_failed fields makesNew calm ht ran)⟩

end Alone

end Accessor

/-! A graph is alike to itself. -/

theorem Value.Within.alike {k : Nat} {v : Value} (hv : v.Within (· < k)) :
    Like (List.range k) v v := by
  have known : ∀ l, v.loc? = some l → (List.range k)[l]? = some l := fun l hl => by
    rw [List.getElem?_range (hv l hl)]
  cases v with
  | object o => exact Value.Alike.object o.cls (known _ rfl)
  | array elem l => exact Value.Alike.array elem (known _ rfl)
  | list s l => exact Value.Alike.list s (known _ rfl)
  | set s l => exact Value.Alike.set s (known _ rfl)
  | map s l => exact Value.Alike.map s (known _ rfl)
  | _ => exact Value.Alike.scalar rfl

theorem Cell.alike_self {c : Cell} (hc : ∀ v ∈ c.contents, Like N v v) : Like N c c := by
  cases c with
  | slots fields =>
    refine Cell.Alike.slots (List.forall₂_same.2 fun f hf => ⟨rfl, hc _ ?_⟩)
    exact List.mem_map_of_mem hf
  | items vs => exact Cell.Alike.items (List.forall₂_same.2 hc)
  | entries es =>
    refine Cell.Alike.entries (List.forall₂_same.2 fun e he => ?_)
    exact ⟨hc _ (Cell.mem_contents_entries he).1, hc _ (Cell.mem_contents_entries he).2⟩

theorem Heap.Closed.alike {h : Heap} (closed : h.Closed (· < h.size)) :
    h.Alike (List.range h.size) h := by
  refine ⟨List.length_range, List.pairwise_lt_range, fun m => List.mem_range.1, fun l m hl => ?_⟩
  obtain ⟨lt, eq⟩ := List.getElem?_eq_some_iff.1 hl
  obtain rfl : l = m := by simpa using eq
  obtain ⟨c, cell, contents⟩ := closed l (by simpa using lt)
  rw [cell]
  exact .some (Cell.alike_self fun v hv => (contents v hv).alike)

namespace Accessor

/-- Where nothing grows, a batch has one entry for each path that was pushed, in the order in
which the paths came up first, with what was pushed last. It always answers, with the failures
that it collected or with the one that stopped it. If registrations and the service were set
before the accessor was used, the graph at the end is the one that the entries that succeeded
make alone, but for cells that nothing in it refers to. -/
theorem concluded_applyBatch {σ : Schema} (fields : ∀ d ∈ σ.classes, d.properties = [])
    (makesNew : σ.MakesNew) (uniform : σ.Uniform) {a : Accessor} {h : Heap}
    (still : a.node.config.growing = false) (harmless : a.node.strategies.Harmless σ)
    (same : a.node.strategies.Uniform σ) (closed : h.Closed (· < h.size)) (o : BatchOptions)
    (pushed : List PropertyValue) (given : ∀ v ∈ pushed, v.value.Within (· < h.size)) :
    let b := Batch.ofList pushed
    (b.map (·.path) = (pushed.map (·.path)).eraseDups ∧
      ∀ x ∈ b, ∃ earlier later, pushed = earlier ++ x :: later ∧ ∀ y ∈ later, y.path ≠ x.path) ∧
    ∃ failures stop written t, Concluded σ o (a, h) b failures stop written t ∧
      on (applyBatch σ o b) a h = ((.ok (conclusion failures stop), t.1), t.2) ∧
      ∀ (S : Strategies) (config : AccessConfig) (root : ObjectRef) (settings : List Setting)
        (events : List Event) (before : Heap), root.loc < h.size →
        events.foldl (Event.on σ) (settings.foldl Setting.on (rooted S config root), before) =
          (a, h) →
        ∃ (u : Accessor × Heap) (N : Names), on (applyEach σ written) a h = ((.ok (), u.1), u.2) ∧
          (∀ l, l < h.size → N[l]? = some l) ∧ u.2.Alike N t.2 := by
  intro b
  refine ⟨⟨Batch.map_path_ofList pushed, fun x hx => Batch.last_of_mem_ofList hx⟩, ?_⟩
  obtain ⟨failures, stop, written, t, done, answer⟩ := concluded_applyAll σ o b [] (a, h)
  refine ⟨failures, stop, written, t, done, answer, ?_⟩
  intro S config root settings events before inside used
  obtain ⟨S', config', set⟩ := rooted_settings settings S config root
  have kept := of_events (σ := σ) (of_rooted S' config' root) before events
  rw [← set, used] at kept
  have wrapped : a.node.wrapped = root := by rw [kept.node]
  have ha : Of a.node a := kept.node ▸ kept
  have known : Like (List.range h.size) a.node.wrapped a.node.wrapped := by
    rw [wrapped]
    exact ⟨rfl, by rw [List.getElem?_range inside]⟩
  have values : ∀ v ∈ b, Like (List.range h.size) v.value v.value := fun v hv => by
    obtain ⟨earlier, later, split, -⟩ := Batch.last_of_mem_ofList hv
    exact (given v (by simp [split])).alike
  obtain ⟨u, N, alone, later, alike⟩ := done.alone fields makesNew uniform ⟨still, harmless⟩ same ha
    closed.alike known values
  refine ⟨u, N, alone, fun l hl => ?_, alike⟩
  exact Names.getElem?_of_prefix later (List.getElem?_range hl)

end Accessor

/-! A desk with one of two trays, and a converter that marks every text. -/

namespace Desk

def tray : ClassDecl :=
  ⟨"demo.Tray", [], none,
    [⟨"note", .text, .readWrite⟩, ⟨"count", .number (.int .i32), .readWrite⟩], [], false, .plain,
    none⟩

def desk : ClassDecl :=
  ⟨"demo.Desk", [], none, [⟨"tray", .object 0, .readWrite⟩], [], false, .plain, none⟩

def schema : Schema := (Schema.empty.declareClass tray).declareClass desk

def number (z : Int) (h : IntKind.i32.Holds z) : Value := .number (.int .i32 z h)

theorem holds_one : IntKind.i32.Holds 1 := by decide

theorem holds_two : IntKind.i32.Holds 2 := by decide

def heap : Heap :=
  ⟨#[.slots [("tray", .object ⟨0, 1⟩)],
    .slots [("note", .text "a"), ("count", number 1 holds_one)],
    .slots [("note", .text "b"), ("count", number 2 holds_two)]]⟩

def marked : Converter := .ofText "marked" fun _ text _ => return .text (text ++ "!")

def new : Accessor := .rooted ⟨.empty, .standard, none⟩ .standard ⟨1, 0⟩

def marking : Setting := .register (some .text) none marked

def lookUp : Event := .call (.resolve "tray.note")

def used : Accessor × Heap :=
  [lookUp].foldl (Event.on schema) ([marking].foldl Setting.on new, heap)

def entry (path : String) (raw : Value) (optional : Bool) : PropertyValue := ⟨path, raw, optional⟩

def pushed : List PropertyValue :=
  [entry "tray.count" (.text "x") false, entry "tray.note" (.text "n") false,
    entry "tray.gone" (.text "1") true, entry "tray.count" (.text "y") false]

def strict : BatchOptions := ⟨false, false⟩

theorem fields : ∀ d ∈ schema.classes, d.properties = [] := by decide

theorem mem_classes {d : ClassDecl} (hd : d ∈ schema.classes) :
    d.construction = .plain ∧ d.fromText = none := by
  rcases List.mem_cons.1 hd with rfl | hd
  · exact ⟨rfl, rfl⟩
  · rw [List.mem_singleton.1 hd]
    exact ⟨rfl, rfl⟩

theorem makesNew : schema.MakesNew := by
  refine fun d hd => ⟨fun run hr => ?_, fun make hm => ?_⟩
  · rw [(mem_classes hd).1] at hr
    cases hr
  · rw [(mem_classes hd).2] at hm
    cases hm

theorem uniform : schema.Uniform where
  initialized d hd run hr := by
    rw [(mem_classes hd).1] at hr
    cases hr
  fromText d hd make hm := by
    rw [(mem_classes hd).2] at hm
    cases hm

theorem closed : heap.Closed (· < heap.size) := by
  have one : (Value.object ⟨0, 1⟩).Within (· < heap.size) := by
    rintro l ⟨⟩
    decide
  have none_ {v : Value} (hv : v.loc? = none) : v.Within (· < heap.size) := .scalar hv
  intro l hl
  match l, hl with
  | 0, _ => exact ⟨_, rfl, List.forall_mem_singleton.2 one⟩
  | 1, _ | 2, _ =>
    exact ⟨_, rfl, List.forall_mem_cons.2 ⟨none_ rfl, List.forall_mem_singleton.2 (none_ rfl)⟩⟩

theorem heap_used : used.2 = heap := by decide +kernel

def strategies : Strategies := ⟨⟨[(.text, marked)], []⟩, .standard, none⟩

theorem marking_new : [marking].foldl Setting.on new = .rooted strategies .standard ⟨1, 0⟩ := rfl

theorem node_used : used.1.node = ⟨⟨1, 0⟩, ⟨1, 0⟩, "", .standard, strategies⟩ := by
  rw [used, marking_new]
  exact (Accessor.of_events (Accessor.of_rooted strategies .standard ⟨1, 0⟩) heap [lookUp]).node

theorem mem_registered {c : Converter} (hc : c ∈ strategies.registered.converters) :
    c = marked := by
  simpa [strategies, Registrations.converters] using hc

theorem harmless_strategies : strategies.Harmless schema where
  registered c hc := by
    rw [mem_registered hc]
    exact ⟨fun _ _ => .pure _, fun _ _ => .pure _⟩
  defaults := (Strategies.harmless_standard schema).defaults
  service := by simp [strategies]

theorem uniform_strategies : strategies.Uniform schema where
  registered c hc := by
    rw [mem_registered hc]
    exact Converter.uniform_ofText schema _ fun _ _ _ => .pure (.scalar rfl)
  defaults := DefaultTable.uniform_standard schema
  service := by simp [strategies]

def failedPaths : Except PathError (Option BatchError) → List String
  | .ok (some (.collected failures)) => failures.map (·.1)
  | _ => []

def moved : Accessor × Heap :=
  let read := lookUp.on schema (new, heap)
  Event.on schema (marking.on read.1, read.2) (.call (.apply "tray" (.object ⟨0, 2⟩)))

def restoring : Batch :=
  [entry "tray.count" (.text "x") false, entry "tray" (.object ⟨0, 1⟩) false,
    entry "tray.note" (.text "n") false]

end Desk

namespace Accessor

open Desk

theorem concluded_applyBatch_desk :
    ∃ (failures : List (String × PathError)) (written : Batch) (t u : Accessor × Heap) (N : Names),
      Concluded schema strict used (Batch.ofList pushed) failures none written t ∧
      on (applyBatch schema strict (Batch.ofList pushed)) used.1 used.2 =
        ((.ok (some (.collected failures)), t.1), t.2) ∧ failures.map (·.1) = ["tray.count"] ∧
      on (applyEach schema written) used.1 used.2 = ((.ok (), u.1), u.2) ∧
      (∀ l, l < 3 → N[l]? = some l) ∧ u.2.Alike N t.2 ∧
      t.2.slot? 1 0 = some (.text "n!") := by
  have closed : used.2.Closed (· < used.2.size) := by
    rw [heap_used]
    exact Desk.closed
  have scalars : ∀ v ∈ pushed, v.value.loc? = none := by decide
  obtain ⟨-, failures, stop, written, t, done, answer, alone⟩ := concluded_applyBatch fields
    makesNew uniform (a := used.1) (h := used.2) (by rw [node_used]; rfl)
    (by rw [node_used]; exact harmless_strategies) (by rw [node_used]; exact uniform_strategies)
    closed strict pushed fun v hv => .scalar (scalars v hv)
  obtain ⟨u, N, ran, same, alike⟩ := alone ⟨.empty, .standard, none⟩ .standard ⟨1, 0⟩ [marking]
    [lookUp] heap (by rw [heap_used]; decide) rfl
  have paths : failedPaths
      (on (applyBatch schema strict (Batch.ofList pushed)) used.1 used.2).1.1 = ["tray.count"] := by
    decide +kernel
  have note : (on (applyBatch schema strict (Batch.ofList pushed)) used.1 used.2).2.slot? 1 0 =
      some (.text "n!") := by decide +kernel
  rw [answer] at paths note
  cases stop with
  | some e => cases paths
  | none =>
    cases failures with
    | nil => cases paths
    | cons f fs =>
      refine ⟨_, written, t, u, N, done, answer, paths, ran, fun l hl => same l ?_, alike, note⟩
      rw [heap_used]
      exact hl

/-- Without the entry that fails, the note is written by the node that was kept for the first
tray, which was made before the converter was set. -/
theorem applyBatch_differs :
    (∀ n ∈ moved.1.nodes, n.config.growing = false) ∧
    ∃ (failures : List (String × PathError)) (t u : Accessor × Heap),
      Concluded schema strict moved restoring failures none restoring.tail t ∧
      on (applyBatch schema strict restoring) moved.1 moved.2 =
        ((.ok (some (.collected failures)), t.1), t.2) ∧
      on (applyEach schema restoring.tail) moved.1 moved.2 = ((.ok (), u.1), u.2) ∧
      t.2.slot? 1 0 = some (.text "n!") ∧ u.2.slot? 1 0 = some (.text "n") := by
  obtain ⟨failures, stop, written, t, done, answer⟩ :=
    concluded_applyAll schema strict restoring [] moved
  have answer : on (applyBatch schema strict restoring) moved.1 moved.2 =
    ((.ok (conclusion failures stop), t.1), t.2) := answer
  have paths : failedPaths (on (applyBatch schema strict restoring) moved.1 moved.2).1.1 =
      ["tray.count"] := by decide +kernel
  have note : (on (applyBatch schema strict restoring) moved.1 moved.2).2.slot? 1 0 =
      some (.text "n!") := by decide +kernel
  have ran : (on (applyEach schema restoring.tail) moved.1 moved.2).1.1.toBool = true := by
    decide +kernel
  have alone : (on (applyEach schema restoring.tail) moved.1 moved.2).2.slot? 1 0 =
      some (.text "n") := by decide +kernel
  have still : ∀ c ∈ moved.1.nodes.map (·.config.growing), c = false := by decide +kernel
  refine ⟨fun n hn => still _ (List.mem_map_of_mem hn), ?_⟩
  rw [answer] at paths note
  cases done with
  | stopped => cases paths
  | finished all =>
    have never : ∀ v ∈ restoring, ∀ e, ¬ strict.Skips v e := by
      simp [restoring, entry, BatchOptions.Skips, strict]
    have others := all.written_eq (by decide) never
    cases failures with
    | nil => cases paths
    | cons f fs =>
      have failed : (f :: fs).map (·.1) = ["tray.count"] := paths
      rw [failed] at others
      obtain rfl : written = restoring.tail := others.trans (by decide)
      rcases wrote : on (applyEach schema restoring.tail) moved.1 moved.2 with ⟨⟨_ | _, a'⟩, h'⟩
      · rw [wrote] at ran
        cases ran
      · rw [wrote] at alone
        exact ⟨_, t, (a', h'), .finished all, answer, rfl, note, alone⟩

end Accessor

end PropertyAccess
