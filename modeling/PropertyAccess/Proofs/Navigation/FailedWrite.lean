import PropertyAccess.Proofs.Navigation.Along

/-! An accessor that does not grow anything. Reads and probes change nothing that
exists, and neither does a write that fails. What it keeps for later does not
matter: each kept node grows as little as the accessor itself. -/

namespace PropertyAccess

namespace Accessor

variable {σ : Schema} {a : Accessor} {h : Heap}

theorem ends_follow_calm (hσ : σ.Harmless) (ha : a.Calm σ) (p : Path) :
    Walk.Ends (follow σ p) a h (fun r a' h' => r.1.Calm σ ∧ a'.Calm σ ∧ h.Extends h')
      (fun _ a' h' => a'.Calm σ ∧ h.Extends h') := by
  have quiet : Along σ (fun n _ s => n.Quiet σ s.name) [] a.node a h p.segments :=
    along_of_forall fun _ _ s => Node.quiet hσ s.name
  exact (ends_follow hσ.makesNew ha (fun _ _ _ => id) quiet).mono (fun _ _ _ hx => hx.2)
    fun _ _ _ => id

theorem ends_followed (hσ : σ.Harmless) (ha : a.Calm σ) (path : String) :
    Walk.Ends (do follow σ (← parsed path)) a h
      (fun r a' h' => (a'.Calm σ ∧ h.Extends h') ∧ ∀ shown p, (r.1.read σ shown p).Ends h'
        (fun _ g => a'.Calm σ ∧ h.Extends g) fun _ g => a'.Calm σ ∧ h.Extends g)
      (fun _ a' h' => a'.Calm σ ∧ h.Extends h') := by
  rw [Walk.ends_bind, Walk.ends_parsed]
  refine ⟨fun p _ => ?_, fun _ _ => ⟨ha, .refl h⟩⟩
  refine (ends_follow_calm hσ ha p).mono (fun r a' h' hx => ?_) fun _ _ _ hx => hx
  obtain ⟨hm, ha', hx⟩ := hx
  exact ⟨⟨ha', hx⟩, fun shown p => (hm.harmless_read hσ shown p).ends_of
    (fun _ _ hy => ⟨ha', hx.trans hy⟩) fun _ _ hy => ⟨ha', hx.trans hy⟩⟩

theorem ends_resolve (hσ : σ.Harmless) (ha : a.Calm σ) (path : String) :
    Walk.Ends (resolve σ path) a h (fun _ a' h' => a'.Calm σ ∧ h.Extends h')
      (fun _ a' h' => a'.Calm σ ∧ h.Extends h') :=
  Walk.ends_resolve_of (ends_followed hσ ha path)

theorem ends_apply (hσ : σ.Harmless) (hs : σ.Careful) (ha : a.Calm σ) (path : String)
    (raw : Value) :
    Walk.Ends (apply σ path raw) a h (fun _ a' h' => a'.Calm σ ∧ h.Grows h')
      (fun _ a' h' => a'.Calm σ ∧ h.Extends h') := by
  refine Walk.ends_apply_of (fun p _ => ?_) fun _ _ => ⟨ha, .refl h⟩
  refine (ends_follow_calm hσ ha p).mono (fun r a' h' hx => ?_) fun _ _ _ hx => hx
  exact (Node.allOrNothing_write hσ hs hx.1 r.2 raw h').mono
    (fun _ _ hy => ⟨hx.2.1, hx.2.2.grows.trans hy⟩) fun _ _ hy => ⟨hx.2.1, hx.2.2.trans hy⟩

theorem growing_withGrowing (limit : Nat) :
    ∀ n ∈ (a.withGrowing false limit).nodes, n.config.growing = false := by
  intro n hn
  rcases List.mem_cons.1 hn with rfl | hn
  · rfl
  · obtain ⟨c, hc, rfl⟩ := List.mem_map.1 hn
    obtain ⟨d, -, rfl⟩ := List.mem_map.1 hc
    rfl

/-- Without growing, a write that fails leaves every object and container that
exists as it was, and so do reading and all probes, whatever comes out. -/
theorem extends_of_failed_apply (hσ : σ.Harmless) (hs : σ.Careful)
    (hg : ∀ n ∈ a.nodes, n.config.growing = false)
    (hS : ∀ n ∈ a.nodes, n.strategies.Harmless σ) (path : String) (raw : Value) (h : Heap) :
    (∀ e a' h', on (apply σ path raw) a h = ((.error e, a'), h') → h.Extends h') ∧
      h.Extends (on (resolve σ path) a h).2 ∧
      h.Extends (on (isReadable σ path) a h).2 ∧
      h.Extends (on (isWritable σ path) a h).2 ∧
      h.Extends (on (typeAt? σ path) a h).2 := by
  have ha : a.Calm σ := fun n hn => ⟨hg n hn, hS n hn⟩
  have heaps {α : Type} {w : Walk α}
      (hw : Walk.Ends w a h (fun _ a' h' => a'.Calm σ ∧ h.Extends h')
        (fun _ a' h' => a'.Calm σ ∧ h.Extends h')) : h.Extends (on w a h).2 :=
    (hw.mono (fun _ _ _ hx => hx.2) fun _ _ _ hx => hx.2).heap
  have followed := ends_followed hσ ha path (h := h)
  refine ⟨fun e a' h' ho => ((ends_apply hσ hs ha path raw).of_error ho).2, ?_⟩
  exact ⟨heaps (Walk.ends_resolve_of followed), heaps (Walk.ends_isReadable_of followed),
    heaps (Walk.ends_isWritable_of followed), heaps (Walk.ends_typeAt?_of followed)⟩

end Accessor

/-! A board with an array of scores and a property that refuses every write. -/

namespace Board

def sealedProperty : PropertyDecl :=
  ⟨"sealed", .text, some fun _ => return .text "yes", some fun _ _ => throw (.failed "sealed")⟩

def decl : ClassDecl :=
  ⟨"demo.Board", [], none, [⟨"scores", .array (.number (.int .i32)), .readWrite⟩],
    [sealedProperty], false, .plain, none⟩

def schema : Schema := Schema.empty.declareClass decl

def score (z : Int) (h : IntKind.i32.Holds z) : Value := .number (.int .i32 z h)

def heap : Heap :=
  ⟨#[.slots [("scores", .array (.number (.int .i32)) 1)], .items [score 1 (by decide)]]⟩

def root : ObjectRef := ⟨0, 0⟩

def accessor : Accessor :=
  (Accessor.rooted ⟨.empty, .standard, none⟩ .autoGrowing root).withGrowing false 256

theorem harmless_schema : schema.Harmless := by
  intro d hd
  obtain rfl : d = decl := List.mem_singleton.1 hd
  refine ⟨fun p hp g hg o => ?_, fun run hr => (by cases hr), fun make hm => (by cases hm)⟩
  obtain rfl : p = sealedProperty := List.mem_singleton.1 hp
  obtain rfl := Option.some.inj hg
  exact .pure _

theorem careful_schema : schema.Careful := by
  intro d hd p hp s hs o v h
  obtain rfl : d = decl := List.mem_singleton.1 hd
  obtain rfl : p = sealedProperty := List.mem_singleton.1 hp
  obtain rfl := Option.some.inj hs
  exact .refl h

theorem harmless_strategies (n : Node) (hn : n ∈ accessor.nodes) :
    n.strategies.Harmless schema := by
  obtain rfl : n = accessor.node := List.mem_singleton.1 hn
  exact Strategies.harmless_standard schema

end Board

namespace Accessor

theorem extends_of_failed_apply_board :
    ∃ e a' h', on (apply Board.schema "scores[2]" (.text "x")) Board.accessor Board.heap =
      ((.error e, a'), h') ∧ Board.heap.Extends h' := by
  have failed : (on (apply Board.schema "scores[2]" (.text "x"))
      Board.accessor Board.heap).1.1.toBool = false := by decide +kernel
  rcases ho : on (apply Board.schema "scores[2]" (.text "x")) Board.accessor Board.heap with
    ⟨⟨result, a'⟩, h'⟩
  rw [ho] at failed
  cases result with
  | ok _ => cases failed
  | error e =>
    have kept := (extends_of_failed_apply Board.harmless_schema Board.careful_schema
      (growing_withGrowing 256) Board.harmless_strategies "scores[2]" (.text "x") Board.heap).1
    exact ⟨e, a', h', rfl, kept e a' h' ho⟩

end Accessor

end PropertyAccess
