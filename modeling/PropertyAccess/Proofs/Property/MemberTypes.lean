import PropertyAccess.Proofs.Property.Prevailing
import PropertyAccess.Proofs.Schema.Parameters

/-! One type declared for a field and for a pair of accessors. The field has the arguments of
the chain put in when its class is laid out, and the self type in what comes of it; the pair has
both put in at once. A self type in an argument is therefore resolved for the field and stays
open for the pair, and this is the only difference. -/

namespace PropertyAccess

/-- No argument for a parameter of the parent mentions the self type. -/
def ClassDecl.GivesNoSelf (d : ClassDecl) : Prop :=
  ∀ p args, d.parent = some (p, args) → ∀ a ∈ args, a.mentionsSelf = false

namespace Schema

variable {σ : Schema} {c : ClassId} {ds : List ClassDecl} {b : List (String × Ty)}
  {l m : Level} {p : PropertyDecl} {i : Nat} {s : Slot}

theorem pairwise_cls_levelsFrom (ds : List ClassDecl) (c : ClassId) (b : List (String × Ty)) :
    (levelsFrom ds c b).Pairwise fun l m => m.cls < l.cls := by
  induction ds generalizing c b with
  | nil => exact .nil
  | cons d earlier ih =>
    rw [levelsFrom]
    split
    · rename_i own
      subst own
      cases d.parent with
      | none => exact List.pairwise_singleton _ _
      | some up => exact .cons (fun _ above => cls_lt_of_mem_levelsFrom above) (ih _ _)
    · exact ih c b

theorem eq_of_mem_levels (hl : l ∈ σ.levels c) (hm : m ∈ σ.levels c) (same : l.cls = m.cls) :
    l = m := by
  have distinct : ((σ.levels c).map (·.cls)).Nodup := by
    refine List.pairwise_map.2 ((pairwise_cls_levelsFrom _ _ _).imp fun less => ?_)
    exact (Nat.ne_of_lt less).symm
  exact List.inj_on_of_nodup_map distinct hl hm same

theorem type_of_mem_layout (slot : s ∈ σ.layout c) (above : l ∈ σ.levels c)
    (own : s.owner = l.cls) : s.type = s.field.type.substitute l.bindings none := by
  obtain ⟨m, hm, declared⟩ := List.mem_flatMap.1 slot
  obtain ⟨f, -, rfl⟩ := List.mem_map.1 declared
  rw [← eq_of_mem_levels (List.mem_reverse.1 hm) above own]

theorem selfless_bindings (selfless : ∀ l ∈ levelsFrom ds c b, l.decl.GivesNoSelf)
    (start : ∀ e ∈ b, e.2.mentionsSelf = false) (above : l ∈ levelsFrom ds c b) :
    ∀ e ∈ l.bindings, e.2.mentionsSelf = false := by
  induction ds generalizing c b with
  | nil => cases above
  | cons d earlier ih =>
    rw [levelsFrom] at above selfless
    split at above
    · rw [if_pos ‹_›] at selfless
      obtain rfl | above := List.mem_cons.1 above
      · exact start
      · have given := selfless _ List.mem_cons_self
        cases parent : d.parent with
        | none =>
          rw [parent] at above
          cases above
        | some up =>
          -- the arguments as seen from the start: what they mention comes from `b` or from them
          rw [parent] at above selfless
          refine ih (fun m hm => selfless m (List.mem_cons_of_mem _ hm)) (fun e he => ?_) above
          obtain ⟨a, ha, inside⟩ := List.mem_map.1 (List.of_mem_zip he).2
          rw [← inside]
          exact Ty.mentionsSelf_substitute (given _ _ parent a ha) fun _ _ found =>
            start _ (Ty.mem_of_lookup found)
    · rw [if_neg ‹_›] at selfless
      exact ih selfless start above

/-- A field and a pair of accessors that one class declares with one type: as properties of a
descendant they have one type exactly where no argument put for a parameter in the type
mentions the self type. It does not matter which class the descendant is and how far up the
declaring class stands. -/
theorem types_agree_iff (above : l ∈ σ.levels c) (pair : PairPrevails σ c l p)
    (field : SlotPrevails σ c .properties s.name i s) (own : s.owner = l.cls)
    (alone : ∀ q, σ.HasProperty c q → q.name ≠ s.name) (same : p.type = s.field.type) :
    ∃ hf hp, σ.handle? c .properties s.name = some hf ∧
      hf.access = .slot i s.field.exposure.isReadable s.field.exposure.isWritable ∧
      σ.handle? c .properties p.name = some hp ∧ hp.access = .accessors p.getter p.setter ∧
      (hf.type = hp.type ↔
        ∀ name ∈ p.type.parameters, ∀ u, l.bindings.lookup name = some u →
          u.mentionsSelf = false) ∧
      ((∀ m ∈ σ.levels c, m.decl.GivesNoSelf) → hf.type = hp.type) := by
  have agree : (s.handle .properties i).type = (pairHandle l p).type ↔
      ∀ name ∈ p.type.parameters, ∀ u, l.bindings.lookup name = some u →
        u.mentionsSelf = false := by
    rw [← Ty.substitute_in_turn_iff l.cls, same]
    rw [Slot.handle, Slot.memberType, pairHandle, own, same,
      type_of_mem_layout (List.mem_of_getElem? field.there) above own]
  refine ⟨_, _, (handle?_eq_some_iff_slotPrevails fun _ => alone).2 ⟨i, s, field, rfl⟩, rfl,
    handle?_of_pairPrevails pair, rfl, agree, fun selfless => agree.2 fun _ _ _ found => ?_⟩
  exact selfless_bindings selfless (List.forall_mem_nil _) above _ (Ty.mem_of_lookup found)

end Schema

/-! A box, and a node that is a box of itself. -/

namespace Boxes

def second : PropertyDecl := ⟨"second", .param "T", some fun _ => return .null, none⟩

def box : ClassDecl :=
  ⟨"demo.Box", ["T"], none, [⟨"first", .param "T", .readWrite⟩], [second], false, .plain, none⟩

def node : ClassDecl := ⟨"demo.Node", [], some (0, [.self]), [], [], false, .plain, none⟩

def schema : Schema := (Schema.empty.declareClass box).declareClass node

end Boxes

theorem Schema.types_agree_iff_node :
    ∃ hf hp, Boxes.schema.handle? 1 .properties "first" = some hf ∧
      Boxes.schema.handle? 1 .properties "second" = some hp ∧ hf.type ≠ hp.type := by
  have above : (⟨0, Boxes.box, [("T", .self)]⟩ : Level) ∈ Boxes.schema.levels 1 :=
    .tail _ (.head _)
  have pair : Schema.PairPrevails Boxes.schema 1 ⟨0, Boxes.box, [("T", .self)]⟩ Boxes.second :=
    ⟨⟨[⟨1, Boxes.node, []⟩], [], rfl, by decide⟩, 0, lastAt_iff.2 ⟨rfl, rfl, by simp [Boxes.box]⟩⟩
  let s : Schema.Slot := ⟨0, ⟨"first", .param "T", .readWrite⟩, .self⟩
  have field : Schema.SlotPrevails Boxes.schema 1 .properties s.name 0 s := by
    unfold Schema.SlotPrevails
    decide
  have alone : ∀ q, Boxes.schema.HasProperty 1 q → q.name ≠ s.name :=
    Schema.forall_hasProperty_iff.2 (by decide)
  obtain ⟨hf, hp, first, -, second, -, agree, -⟩ :=
    Schema.types_agree_iff above pair field rfl alone rfl
  refine ⟨hf, hp, first, second, fun same => ?_⟩
  exact absurd (agree.1 same "T" (by decide) .self rfl) (by decide)

end PropertyAccess
