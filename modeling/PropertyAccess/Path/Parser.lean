import PropertyAccess.Path.Segment
import PropertyAccess.Text.Basic

/-! Reading a path. Segments are separated by dots outside of brackets; a
backslash in a name takes the next character as it is; a key runs to the
bracket that closes it or, when it starts with a quote that is closed right
before a bracket, to that quote. What is refused is reported with the number
of bytes before the character at fault. -/

namespace PropertyAccess

inductive PathFault
  | emptyName
  | keyWithoutName
  | unbalanced
  | afterKey
  | danglingEscape
  | unclosedKey
  deriving DecidableEq

def PathFault.message : PathFault → String
  | .emptyName => "empty property name"
  | .keyWithoutName => "index without property name"
  | .unbalanced => "unbalanced `]`"
  | .afterKey => "expected `.` or `[` after key"
  | .danglingEscape => "dangling escape"
  | .unclosedKey => "unclosed `[`"

structure MalformedPath where
  path : String
  offset : Nat
  fault : PathFault
  deriving DecidableEq

def MalformedPath.message (e : MalformedPath) : String :=
  s!"Encountered an error at offset {e.offset} while parsing property path `" ++
    e.path ++ "`: " ++ e.fault.message

namespace Path

/-- The text up to the first `q` that a closing bracket follows, and the text after both. -/
def scanQuoted (q : Char) : List Char → Option (List Char × List Char)
  | c :: d :: r =>
    if c = q ∧ d = ']' then some ([], r)
    else (scanQuoted q (d :: r)).map fun (key, rest) => (c :: key, rest)
  | _ => none

/-- The text up to the bracket that closes `depth + 1` open ones, and the text after it. -/
def scanPlain : Nat → List Char → Option (List Char × List Char)
  | _, [] => none
  | depth, c :: r =>
    if c = '[' then (scanPlain (depth + 1) r).map fun (key, rest) => (c :: key, rest)
    else if c = ']' then
      if depth = 0 then some ([], r)
      else (scanPlain (depth - 1) r).map fun (key, rest) => (c :: key, rest)
    else (scanPlain depth r).map fun (key, rest) => (c :: key, rest)

/-- The key behind an opening bracket, and the text after its closing bracket. -/
def scanKey : List Char → Option (List Char × List Char)
  | [] => none
  | q :: r =>
    if Segment.isQuote q then
      match scanQuoted q r with
      | some found => some found
      | none => scanPlain 0 (q :: r)
    else scanPlain 0 (q :: r)

theorem scanQuoted_length {q : Char} {cs key rest : List Char}
    (h : scanQuoted q cs = some (key, rest)) : rest.length < cs.length := by
  fun_induction scanQuoted q cs generalizing key rest with
  | case1 c d r hc =>
    obtain ⟨rfl, -⟩ : rest = r ∧ key = [] := by simpa [and_comm, eq_comm] using h
    simp only [List.length_cons]
    omega
  | case2 c d r _ ih =>
    obtain ⟨⟨k, s⟩, hs, he⟩ := Option.map_eq_some_iff.1 h
    obtain ⟨-, rfl⟩ := Prod.mk.inj he
    have := ih hs
    simp only [List.length_cons] at this ⊢
    omega
  | case3 => simp at h

theorem scanPlain_length {depth : Nat} {cs key rest : List Char}
    (h : scanPlain depth cs = some (key, rest)) : rest.length < cs.length := by
  induction cs generalizing depth key rest with
  | nil => simp [scanPlain] at h
  | cons c r ih =>
    have step : ∀ d, (scanPlain d r).map (fun p => (c :: p.1, p.2)) = some (key, rest) →
        rest.length < (c :: r).length := by
      intro d hd
      obtain ⟨⟨k, s⟩, hs, he⟩ := Option.map_eq_some_iff.1 hd
      obtain ⟨-, rfl⟩ := Prod.mk.inj he
      have := ih hs
      simp only [List.length_cons]
      omega
    rw [scanPlain] at h
    split at h
    · exact step _ h
    · split at h
      · split at h
        · simp_all
        · exact step _ h
      · exact step _ h

theorem scanKey_length {cs key rest : List Char}
    (h : scanKey cs = some (key, rest)) : rest.length < cs.length := by
  cases cs with
  | nil => simp [scanKey] at h
  | cons q r =>
    rw [scanKey] at h
    split at h
    · split at h
      · rename_i found hf
        have := scanQuoted_length (hf.trans h)
        simp only [List.length_cons]
        omega
      · exact scanPlain_length h
    · exact scanPlain_length h

/-- Reads segments, given the name and the keys of the one already begun.
A refusal carries the text from the character at fault on. -/
def scan (name : List Char) (keys : List String) :
    List Char → Except (PathFault × List Char) (List Segment)
  | [] =>
    if name.isEmpty then .error (.emptyName, [])
    else .ok [⟨String.ofList name, keys⟩]
  | c :: r =>
    if c = '.' then
      if name.isEmpty then .error (.emptyName, c :: r)
      else (scan [] [] r).map (⟨String.ofList name, keys⟩ :: ·)
    else if c = '[' then
      if name.isEmpty then .error (.keyWithoutName, c :: r)
      else
        match h : scanKey r with
        | none => .error (.unclosedKey, c :: r)
        | some (key, rest) =>
          have := scanKey_length h
          scan name (keys ++ [String.ofList key]) rest
    else if c = ']' then .error (.unbalanced, c :: r)
    else if !keys.isEmpty then .error (.afterKey, c :: r)
    else if c = '\\' then
      match r with
      | [] => .error (.danglingEscape, [c])
      | e :: rest => scan (name ++ [e]) keys rest
    else scan (name ++ [c]) keys r
termination_by cs => cs.length
decreasing_by all_goals simp_all <;> omega

def parse (text : String) : Except MalformedPath Path :=
  match scan [] [] text.toList with
  | .ok segments => .ok ⟨segments⟩
  | .error (fault, rest) =>
    .error ⟨text, Text.utf8Length text.toList - Text.utf8Length rest, fault⟩

end Path

end PropertyAccess
