import Mathlib.Data.List.TakeWhile
import SourceSpecs.Signature
/-!
Texts that are cut off at both ends. All characters of a class are cut off there, and what is left is
the one part of the text that neither begins nor ends with them. So it is with the blanks around a
type in its annotation.
-/
namespace SourceSpecs.Text

def trimBy (p : Char → Bool) (t : List Char) : List Char :=
  ((t.dropWhile p).reverse.dropWhile p).reverse

/-- A text that neither begins nor ends with a character of the class. -/
structure Trimmed (p : Char → Bool) (t : List Char) : Prop where
  first : ∃ x u, t = x :: u ∧ p x = false
  last : ∃ u x, t = u ++ [x] ∧ p x = false

variable {p : Char → Bool} {before behind t : List Char}

theorem dropWhile_append_trimmed (blank : ∀ x ∈ before, p x = true) {x : Char} (other : p x = false)
    (t : List Char) : (before ++ x :: t).dropWhile p = x :: t := by
  rw [List.dropWhile_append_of_pos blank, List.dropWhile_cons_of_neg]
  rw [other]
  exact Bool.false_ne_true

theorem trimBy_append (blank : ∀ x ∈ before ++ behind, p x = true) (trimmed : Trimmed p t) :
    trimBy p (before ++ t ++ behind) = t := by
  rw [List.forall_mem_append] at blank
  obtain ⟨⟨x, u, first, other⟩, v, y, last, other'⟩ := trimmed
  have left : (before ++ t ++ behind).dropWhile p = t ++ behind := by
    rw [first, List.append_assoc, List.cons_append]
    exact dropWhile_append_trimmed blank.1 other _
  have right : (t ++ behind).reverse.dropWhile p = t.reverse := by
    rw [last, List.reverse_append, List.reverse_append, List.reverse_singleton,
      List.singleton_append]
    exact dropWhile_append_trimmed (fun z inside => blank.2 z (List.mem_reverse.1 inside)) other' _
  rw [trimBy, left, right, List.reverse_reverse]

theorem exists_around_trimBy (p : Char → Bool) (t : List Char) : ∃ before behind,
    t = before ++ trimBy p t ++ behind ∧ ∀ x ∈ before ++ behind, p x = true := by
  refine ⟨t.takeWhile p, ((t.dropWhile p).reverse.takeWhile p).reverse, ?_, ?_⟩
  · rw [trimBy, List.append_assoc, ← List.reverse_append, List.takeWhile_append_dropWhile,
      List.reverse_reverse, List.takeWhile_append_dropWhile]
  · intro x inside
    rcases List.mem_append.1 inside with first | last
    · exact List.mem_takeWhile_imp first
    · exact List.mem_takeWhile_imp (List.mem_reverse.1 last)

theorem head_dropWhile {x : Char} {u : List Char} (left : t.dropWhile p = x :: u) : p x = false := by
  have some_left : t.dropWhile p ≠ [] := by simp [left]
  have head := List.head_dropWhile_not p some_left
  simpa [left] using head

theorem trimmed_trimBy (other : ∃ x ∈ t, p x = false) : Trimmed p (trimBy p t) := by
  obtain ⟨before, behind, parts, around⟩ := exists_around_trimBy p t
  have some_left : trimBy p t ≠ [] := by
    intro nothing
    obtain ⟨x, inside, other⟩ := other
    rw [nothing, List.append_nil] at parts
    rw [around x (parts ▸ inside)] at other
    cases other
  constructor
  · obtain ⟨x, u, left⟩ := List.exists_cons_of_ne_nil some_left
    refine ⟨x, u, left, ?_⟩
    have front : trimBy p t <+: t.dropWhile p := by
      rw [← List.reverse_suffix, trimBy, List.reverse_reverse]
      exact List.dropWhile_suffix p
    rw [left] at front
    obtain ⟨v, whole⟩ := front
    exact head_dropWhile (t := t) whole.symm
  · have some_kept : (t.dropWhile p).reverse.dropWhile p ≠ [] := fun nothing =>
      some_left (by rw [trimBy, nothing, List.reverse_nil])
    obtain ⟨x, u, left⟩ := List.exists_cons_of_ne_nil some_kept
    exact ⟨u.reverse, x, by rw [trimBy, left, List.reverse_cons], head_dropWhile left⟩

theorem typingText_of_slice {source : List Char} {c : Syntax.Tree}
    (text : c.span.slice source = ':' :: (before ++ t ++ behind))
    (blank : ∀ x ∈ before ++ behind, isBlank x = true) (trimmed : Trimmed isBlank t) :
    Signature.typingText source c = String.ofList t := by
  obtain ⟨u, x, last, other⟩ := trimmed.last
  have whole : Trimmed isBlank (':' :: (before ++ t)) :=
    ⟨⟨':', _, rfl, by decide⟩, ':' :: (before ++ u), x, by simp [last], other⟩
  rw [List.forall_mem_append] at blank
  have written : trim (c.text source).toList = ':' :: (before ++ t) := by
    rw [Syntax.Tree.text, String.toList_ofList, text]
    exact trimBy_append (List.forall_mem_append.2 ⟨List.forall_mem_nil _, blank.2⟩) whole
  have bare : trim (before ++ t) = t := by
    have alone := trimBy_append (List.forall_mem_append.2 ⟨blank.1, List.forall_mem_nil _⟩) trimmed
    rwa [List.append_nil] at alone
  rw [Signature.typingText, written]
  exact congrArg String.ofList bare

end SourceSpecs.Text
