/-!
The pieces of a text between the occurrences of a mark.
-/
namespace SourceSpecs.Text

/-- One more piece than there are marks. -/
def pieces (mark : Char) (t : List Char) : List (List Char) :=
  t.foldr (fun c rest =>
    if c = mark then [] :: rest
    else match rest with
      | [] => [[c]]
      | piece :: more => (c :: piece) :: more) [[]]

def joinPieces (mark : Char) (ps : List (List Char)) : List Char := List.intercalate [mark] ps

theorem pieces_ne_nil (mark : Char) (t : List Char) : pieces mark t ≠ [] := by
  cases t with
  | nil => simp [pieces]
  | cons c t =>
    simp only [pieces, List.foldr_cons]
    split
    · simp
    · split <;> simp

theorem pieces_mark (mark : Char) (t : List Char) : pieces mark (mark :: t) = [] :: pieces mark t := by
  simp [pieces]

theorem pieces_cons {mark c : Char} (h : c ≠ mark) (t : List Char) :
    ∃ piece more, pieces mark t = piece :: more ∧ pieces mark (c :: t) = (c :: piece) :: more := by
  match e : pieces mark t with
  | [] => exact absurd e (pieces_ne_nil mark t)
  | piece :: more =>
    refine ⟨piece, more, rfl, ?_⟩
    have : pieces mark (c :: t) = (match pieces mark t with
      | [] => [[c]]
      | piece :: more => (c :: piece) :: more) := by
      simp [pieces, h]
    rw [this, e]

theorem joinPieces_cons_cons (mark c : Char) (piece : List Char) (more : List (List Char)) :
    joinPieces mark ((c :: piece) :: more) = c :: joinPieces mark (piece :: more) := by
  cases more <;> simp [joinPieces, List.intercalate]

theorem joinPieces_nil_cons {mark : Char} {more : List (List Char)} (h : more ≠ []) :
    joinPieces mark ([] :: more) = mark :: joinPieces mark more := by
  cases more with
  | nil => exact absurd rfl h
  | cons piece more => simp [joinPieces, List.intercalate]

theorem joinPieces_pieces (mark : Char) (t : List Char) : joinPieces mark (pieces mark t) = t := by
  induction t with
  | nil => rfl
  | cons c t ih =>
    by_cases h : c = mark
    · rw [h, pieces_mark, joinPieces_nil_cons (pieces_ne_nil mark t), ih]
    · obtain ⟨piece, more, e, e'⟩ := pieces_cons h t
      rw [e', joinPieces_cons_cons, ← e, ih]

end SourceSpecs.Text
