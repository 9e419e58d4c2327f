import PropertyAccess.Navigation.Accessor
import PropertyAccess.Proofs.Path.Canonical

/-! Texts of one path. An accessor reads a text first and from then on has only
the path, so two texts of one path do the same. The canonical text is one of
them. -/

namespace PropertyAccess

namespace Accessor

variable {text text' : String} {p : Path}

theorem parsed_eq (h : Path.parse text = .ok p) : parsed text = pure p := by
  rw [parsed, h]

theorem resolve_congr (σ : Schema) (h : Path.parse text = .ok p)
    (h' : Path.parse text' = .ok p) : resolve σ text = resolve σ text' := by
  rw [resolve, resolve, parsed_eq h, parsed_eq h']

theorem apply_congr (σ : Schema) (h : Path.parse text = .ok p)
    (h' : Path.parse text' = .ok p) (raw : Value) : apply σ text raw = apply σ text' raw := by
  rw [apply, apply, parsed_eq h, parsed_eq h']

/-- The canonical text of a path is a text of that path and of no other, and an
accessor does with it what it does with any text of the path. -/
theorem canonical_spells (h : Path.parse text = .ok p) :
    Path.parse p.canonical = .ok p ∧
      (∀ text' p', Path.parse text' = .ok p' →
        (p.canonical = p'.canonical ↔ p.segments = p'.segments)) ∧
      ∀ (σ : Schema) (a : Accessor) (heap : Heap),
        on (resolve σ text) a heap = on (resolve σ p.canonical) a heap ∧
          ∀ raw, on (apply σ text raw) a heap = on (apply σ p.canonical raw) a heap := by
  have again := Path.parse_canonical h
  refine ⟨again, fun text' p' h' => Path.canonical_inj h h', fun σ a heap => ⟨?_, fun raw => ?_⟩⟩
  · rw [resolve_congr σ h again]
  · rw [apply_congr σ h again]

theorem canonical_spells_quoted :
    ∃ p, Path.parse "a\\.b['x]\"y'][\"u']v\"][k[0]].c" = .ok p ∧
      p.canonical = "a\\.b['x]\"y'][\"u']v\"][k[0]].c" ∧
      Path.parse p.canonical = .ok p := by
  have read : Path.parse "a\\.b['x]\"y'][\"u']v\"][k[0]].c" =
      .ok ⟨[⟨"a.b", ["x]\"y", "u']v", "k[0]"]⟩, ⟨"c", []⟩]⟩ := by
    cbv
  exact ⟨_, read, by decide +kernel, (canonical_spells read).1⟩

end Accessor

end PropertyAccess
