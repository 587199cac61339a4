/-!
Reading positions. A cursor holds the number of characters before it and the characters from it on.
-/
namespace SourceSpecs

structure Span where
  start : Nat
  stop : Nat
  deriving DecidableEq, Repr

def Span.slice (s : Span) (t : List Char) : List Char := (t.drop s.start).take (s.stop - s.start)

def after? : List Char → List Char → Option (List Char)
  | [], t => some t
  | _ :: _, [] => none
  | a :: word, b :: t => if a = b then after? word t else none

theorem after?_eq_some_iff {word t u : List Char} : after? word t = some u ↔ t = word ++ u := by
  induction word generalizing t with
  | nil => simp [after?]
  | cons a word ih =>
    cases t with
    | nil => simp [after?]
    | cons b t =>
      by_cases h : a = b
      · simp [after?, h, ih]
      · simp [after?, h, Ne.symm h]

structure Cursor where
  offset : Nat
  rest : List Char
  deriving DecidableEq, Repr

namespace Cursor

def ofText (t : List Char) : Cursor := ⟨0, t⟩

def drop (n : Nat) (c : Cursor) : Cursor := ⟨c.offset + n, c.rest.drop n⟩

def past? (c : Cursor) (word : List Char) : Option Cursor :=
  (after? word c.rest).map fun rest => ⟨c.offset + word.length, rest⟩

def skip (p : Char → Bool) (c : Cursor) : Cursor :=
  ⟨c.offset + (c.rest.takeWhile p).length, c.rest.dropWhile p⟩

def skipSome? (p : Char → Bool) (c : Cursor) : Option Cursor :=
  match c.rest with
  | [] => none
  | x :: _ => if p x then some (c.skip p) else none

def next? (p : Char → Bool) (c : Cursor) : Option (Char × Cursor) :=
  match c.rest with
  | [] => none
  | x :: rest => if p x then some (x, ⟨c.offset + 1, rest⟩) else none

def firstAlongFrom (p : Char → Bool) (k : Cursor → Option α) (offset : Nat) :
    List Char → Option α
  | [] => k ⟨offset, []⟩
  | x :: rest =>
    match k ⟨offset, x :: rest⟩ with
    | some a => some a
    | none => if p x then firstAlongFrom p k (offset + 1) rest else none

/-- The answer at the nearest position that has one, here or over characters of the class. -/
def firstAlong (p : Char → Bool) (k : Cursor → Option α) (c : Cursor) : Option α :=
  firstAlongFrom p k c.offset c.rest

def lastAlongFrom (p : Char → Bool) (k : Cursor → Option α) (offset : Nat) :
    List Char → Option α
  | [] => k ⟨offset, []⟩
  | x :: rest =>
    match if p x then lastAlongFrom p k (offset + 1) rest else none with
    | some a => some a
    | none => k ⟨offset, x :: rest⟩

def lastAlong (p : Char → Bool) (k : Cursor → Option α) (c : Cursor) : Option α :=
  lastAlongFrom p k c.offset c.rest

def Reaches (c d : Cursor) : Prop :=
  ∃ between, c.rest = between ++ d.rest ∧ d.offset = c.offset + between.length

theorem Reaches.refl (c : Cursor) : c.Reaches c := ⟨[], by simp⟩

theorem Reaches.trans {a b c : Cursor} (h : a.Reaches b) (k : b.Reaches c) : a.Reaches c := by
  obtain ⟨u, hu, hu'⟩ := h
  obtain ⟨v, hv, hv'⟩ := k
  exact ⟨u ++ v, by simp [hu, hv], by simp [hu', hv']; omega⟩

theorem reaches_past? {c d : Cursor} {word : List Char} (h : c.past? word = some d) :
    c.Reaches d := by
  obtain ⟨rest, found, rfl⟩ := Option.map_eq_some_iff.1 h
  exact ⟨word, after?_eq_some_iff.1 found, rfl⟩

theorem reaches_skip (p : Char → Bool) (c : Cursor) : c.Reaches (c.skip p) :=
  ⟨c.rest.takeWhile p, by simp [skip], rfl⟩

theorem reaches_skipSome? {p : Char → Bool} {c d : Cursor} (h : c.skipSome? p = some d) :
    c.Reaches d := by
  unfold skipSome? at h
  split at h
  · simp at h
  · split at h
    · exact Option.some.inj h ▸ reaches_skip p c
    · simp at h

theorem Reaches.offset_le {c d : Cursor} (h : c.Reaches d) : c.offset ≤ d.offset := by
  obtain ⟨between, _, offset⟩ := h
  omega

theorem Reaches.eq_of_offset_le {c d : Cursor} (h : c.Reaches d) (le : d.offset ≤ c.offset) : d = c := by
  obtain ⟨between, rest, offset⟩ := h
  obtain rfl : between = [] := List.length_eq_zero_iff.1 (by omega)
  cases c
  cases d
  simp only [List.nil_append, List.length_nil, Nat.add_zero] at rest offset
  rw [rest, offset]

theorem Reaches.length_le {c d : Cursor} (h : c.Reaches d) : d.rest.length ≤ c.rest.length := by
  obtain ⟨between, e, _⟩ := h
  simp [e]

end Cursor

end SourceSpecs
