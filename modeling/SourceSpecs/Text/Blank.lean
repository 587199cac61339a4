/-!
Blank characters, and what is left of a text once the blanks at its ends are cut off.
-/
namespace SourceSpecs.Text

/-- Space, tab, the line and page breaks, the four information separators, and the
    space, line and paragraph separators of Unicode. Zero-width characters are not blank. -/
def isBlank (c : Char) : Bool :=
  let n := c.toNat
  (9 ≤ n && n ≤ 13) || (28 ≤ n && n ≤ 32) || n == 0x85 || n == 0xA0 || n == 0x1680 ||
    (0x2000 ≤ n && n ≤ 0x200A) || n == 0x2028 || n == 0x2029 || n == 0x202F ||
    n == 0x205F || n == 0x3000

def trimStart (t : List Char) : List Char := t.dropWhile isBlank

def trimEnd (t : List Char) : List Char := (t.reverse.dropWhile isBlank).reverse

def trim (t : List Char) : List Char := trimEnd (trimStart t)

theorem not_isBlank_head_trimStart {c : Char} {t u : List Char} (h : trimStart t = c :: u) :
    isBlank c = false := by
  induction t with
  | nil => simp [trimStart] at h
  | cons d t ih =>
    by_cases b : isBlank d = true
    · exact ih (by simpa [trimStart, List.dropWhile_cons, b] using h)
    · simp only [trimStart, List.dropWhile_cons, b] at h
      simp_all

end SourceSpecs.Text
