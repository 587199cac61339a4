/-!
Line endings of stored texts: a carriage return, alone or before a line feed, ends a line like the
line feed.
-/
namespace SourceSpecs.Text

def foldEnding (before c : Char) : Option Char :=
  if c = '\r' then some '\n'
  else if c = '\n' ∧ before = '\r' then none
  else some c

/-- Every `\r\n` and every lone `\r` written as `\n`. -/
def foldEndings (t : List Char) : List Char :=
  (List.zip (' ' :: t) t).filterMap fun (before, c) => foldEnding before c

theorem foldEnding_of_ne {before c : Char} (hr : c ≠ '\r') (hn : before ≠ '\r') :
    foldEnding before c = some c := by
  simp [foldEnding, hr, hn]

theorem zip_filterMap_foldEnding {t : List Char} (h : '\r' ∉ t) {before : Char}
    (hb : before ≠ '\r') :
    ((List.zip (before :: t) t).filterMap fun (b, c) => foldEnding b c) = t := by
  induction t generalizing before with
  | nil => rfl
  | cons c t ih =>
    have hc : c ≠ '\r' := fun e => h (by simp [e])
    simp only [List.zip_cons_cons, List.filterMap_cons, foldEnding_of_ne hc hb]
    rw [ih (fun m => h (List.mem_cons_of_mem _ m)) hc]

theorem foldEndings_eq_self {t : List Char} (h : '\r' ∉ t) : foldEndings t = t :=
  zip_filterMap_foldEnding h (by decide)

end SourceSpecs.Text
