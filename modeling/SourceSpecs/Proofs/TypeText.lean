import SourceSpecs.Proofs.Identifier
import SourceSpecs.Syntax.References
/-!
Types as they are written, without parentheses: predefined types, names with a path or arguments,
arrays, unions, intersections, and object types in one line.
-/
namespace SourceSpecs.Syntax

def predefinedTypes : List (List Char) :=
  Grammar.words ["any", "number", "boolean", "string", "symbol", "void", "unknown", "never", "object"] ++
    Grammar.words ["null", "undefined"]

mutual

inductive TypeText where
  | predefined (word : List Char) (known : word ∈ predefinedTypes)
  | named (first : Identifier) (path : List Identifier) (arguments : List TypeText)
  | array (element : TypeText)
  | union (left right : TypeText)
  | intersection (left right : TypeText)
  | object (first : MemberText) (others : List MemberText) (closed : Bool)

inductive MemberText where
  | mk (key : Identifier) (type : TypeText)

end

def pathChars (first : Identifier) (path : List Identifier) : List Char :=
  first.chars ++ path.flatMap ('.' :: ·.chars)

theorem pathChars_eq (first : Identifier) (path : List Identifier) :
    pathChars first path = dottedChars first (path.map Identifier.name) := by
  rw [pathChars, dottedChars, List.flatMap_map]
  rfl

mutual

def TypeText.chars : TypeText → List Char
  | .predefined word _ => word
  | .named first path arguments =>
    pathChars first path ++
      if arguments.isEmpty then [] else '<' :: setApart [',', ' '] (charsOfAll arguments) ++ ['>']
  | .array element => element.chars ++ ['[', ']']
  | .union left right => left.chars ++ [' ', '|', ' '] ++ right.chars
  | .intersection left right => left.chars ++ [' ', '&', ' '] ++ right.chars
  | .object first others closed =>
    ['\x7b', ' '] ++ setApart [';', ' '] (first.chars :: charsOfMembers others) ++
      (if closed then [';'] else []) ++ [' ', '\x7d']

def MemberText.chars : MemberText → List Char
  | .mk key type => key.chars ++ [':', ' '] ++ type.chars

def charsOfAll : List TypeText → List (List Char)
  | [] => []
  | t :: ts => t.chars :: charsOfAll ts

def charsOfMembers : List MemberText → List (List Char)
  | [] => []
  | m :: ms => m.chars :: charsOfMembers ms

end

mutual

/-- The names that a type refers to. Below a type with arguments only its own name counts. -/
def TypeText.names : TypeText → List String
  | .predefined _ _ => []
  | .named first path _ => [String.ofList (pathChars first path)]
  | .array element => element.names
  | .union left right | .intersection left right => left.names ++ right.names
  | .object first others _ => first.names ++ namesOfMembers others

def MemberText.names : MemberText → List String
  | .mk _ type => type.names

def namesOfMembers : List MemberText → List String
  | [] => []
  | m :: ms => m.names ++ namesOfMembers ms

end

theorem charsOfAll_eq (ts : List TypeText) : charsOfAll ts = ts.map TypeText.chars := by
  induction ts with
  | nil => rfl
  | cons t ts ih => rw [charsOfAll, ih, List.map_cons]

theorem charsOfMembers_eq (ms : List MemberText) : charsOfMembers ms = ms.map MemberText.chars := by
  induction ms with
  | nil => rfl
  | cons m ms ih => rw [charsOfMembers, ih, List.map_cons]

theorem namesOfMembers_eq (ms : List MemberText) : namesOfMembers ms = ms.flatMap MemberText.names := by
  induction ms with
  | nil => rfl
  | cons m ms ih => rw [namesOfMembers, ih, List.flatMap_cons]

theorem Identifier.ends (i : Identifier) : ∃ u x, i.chars = u ++ [x] ∧ isIdentifierPart x = true := by
  obtain ⟨x, u, chars, _⟩ := i.begins
  have nonempty : i.chars ≠ [] := by simp [chars]
  exact ⟨_, _, (List.dropLast_concat_getLast nonempty).symm, i.parts _ (List.getLast_mem nonempty)⟩

theorem predefined_letters {word : List Char} (known : word ∈ predefinedTypes) :
    word ≠ [] ∧ word.all isIdentifierStart = true := by
  revert word
  decide +kernel

theorem predefined_parts {word : List Char} (known : word ∈ predefinedTypes) :
    ∀ x ∈ word, isIdentifierPart x = true := by
  intro x member
  exact isIdentifierPart_of_start (List.all_eq_true.1 (predefined_letters known).2 x member)

theorem TypeText.begins :
    (T : TypeText) → ∃ x u, T.chars = x :: u ∧ (isIdentifierPart x = true ∨ x = '\x7b')
  | .predefined word known => by
    cases word with
    | nil => exact absurd rfl (predefined_letters known).1
    | cons x u => exact ⟨x, u, rfl, Or.inl (predefined_parts known x List.mem_cons_self)⟩
  | .named first path arguments => by
    obtain ⟨x, u, begins, start⟩ := first.begins
    rw [chars, pathChars, begins]
    exact ⟨x, _, rfl, Or.inl (isIdentifierPart_of_start start)⟩
  | .array element => by
    obtain ⟨x, u, begins, sort⟩ := element.begins
    rw [chars, begins]
    exact ⟨x, _, rfl, sort⟩
  | .union left right => by
    obtain ⟨x, u, begins, sort⟩ := left.begins
    rw [chars, begins]
    exact ⟨x, _, rfl, sort⟩
  | .intersection left right => by
    obtain ⟨x, u, begins, sort⟩ := left.begins
    rw [chars, begins]
    exact ⟨x, _, rfl, sort⟩
  | .object first others closed => ⟨'\x7b', _, rfl, Or.inr rfl⟩

theorem pathChars_ends (first : Identifier) (path : List Identifier) :
    ∃ u x, pathChars first path = u ++ [x] ∧ isIdentifierPart x = true := by
  rcases List.eq_nil_or_concat path with rfl | ⟨path, i, rfl⟩
  · obtain ⟨u, x, ends, part⟩ := first.ends
    exact ⟨u, x, by rw [pathChars, List.flatMap_nil, List.append_nil, ends], part⟩
  · obtain ⟨u, x, ends, part⟩ := i.ends
    refine ⟨first.chars ++ path.flatMap ('.' :: ·.chars) ++ '.' :: u, x, ?_, part⟩
    simp [pathChars, ends]

theorem TypeText.ends :
    (T : TypeText) → ∃ u x, T.chars = u ++ [x] ∧ (isIdentifierPart x = true ∨ x ∈ [']', '>', '\x7d'])
  | .predefined word known => by
    have nonempty := (predefined_letters known).1
    exact ⟨_, _, (List.dropLast_concat_getLast nonempty).symm,
      Or.inl (predefined_parts known _ (List.getLast_mem nonempty))⟩
  | .named first path [] => by
    obtain ⟨u, x, ends, part⟩ := pathChars_ends first path
    refine ⟨u, x, ?_, Or.inl part⟩
    rw [chars, List.isEmpty_nil, if_pos rfl, List.append_nil, ends]
  | .named first path (a :: as) => by
    rw [chars, List.isEmpty_cons, if_neg Bool.false_ne_true, ← List.append_assoc]
    exact ⟨_, '>', rfl, Or.inr (by decide)⟩
  | .array element => ⟨element.chars ++ ['['], ']', by simp [chars], Or.inr (by decide)⟩
  | .union left right => by
    obtain ⟨u, x, ends, sort⟩ := right.ends
    exact ⟨left.chars ++ [' ', '|', ' '] ++ u, x, by simp [chars, ends], sort⟩
  | .intersection left right => by
    obtain ⟨u, x, ends, sort⟩ := right.ends
    exact ⟨left.chars ++ [' ', '&', ' '] ++ u, x, by simp [chars, ends], sort⟩
  | .object first others closed => by
    refine ⟨['\x7b', ' '] ++ setApart [';', ' '] (first.chars :: charsOfMembers others) ++
      (if closed then [';'] else []) ++ [' '], '\x7d', ?_, Or.inr (by decide)⟩
    simp [chars]

def isInSignature (c : Char) : Bool := isIdentifierPart c || " .<>,[]|&\x7b\x7d;:?=-".toList.contains c

theorem isInSignature_of_part {c : Char} (h : isIdentifierPart c = true) : isInSignature c = true := by
  rw [isInSignature, h, Bool.true_or]

theorem Identifier.all_isInSignature (i : Identifier) : i.chars.all isInSignature = true :=
  List.all_eq_true.2 fun x member => isInSignature_of_part (i.parts x member)

theorem all_isInSignature_setApart (separator : List Char) (marks : separator.all isInSignature = true)
    {ws : List (List Char)} (h : ∀ w ∈ ws, w.all isInSignature = true) :
    (setApart separator ws).all isInSignature = true := by
  cases ws with
  | nil => rfl
  | cons w ws =>
    rw [setApart, List.all_append, h w List.mem_cons_self, Bool.true_and, List.all_flatMap,
      List.all_eq_true]
    intro v member
    rw [List.all_append, marks, h v (List.mem_cons_of_mem w member), Bool.and_self]

theorem all_isInSignature_pathChars (first : Identifier) (path : List Identifier) :
    (pathChars first path).all isInSignature = true := by
  rw [pathChars, List.all_append, first.all_isInSignature, Bool.true_and, List.all_flatMap,
    List.all_eq_true]
  intro i _
  rw [List.all_cons, i.all_isInSignature]
  rfl

mutual

theorem TypeText.all_isInSignature : (T : TypeText) → T.chars.all isInSignature = true
  | .predefined word known =>
    List.all_eq_true.2 fun x member => isInSignature_of_part (predefined_parts known x member)
  | .named first path arguments => by
    have listed := all_isInSignature_setApart [',', ' '] (by decide)
      (TypeText.all_isInSignature_all arguments)
    rw [TypeText.chars, List.all_append, all_isInSignature_pathChars, Bool.true_and]
    split
    · rfl
    · rw [List.cons_append, List.all_cons, List.all_append, listed]
      rfl
  | .array element => by
    rw [TypeText.chars, List.all_append, TypeText.all_isInSignature element]
    rfl
  | .union left right => by
    rw [TypeText.chars, List.all_append, List.all_append, TypeText.all_isInSignature left,
      TypeText.all_isInSignature right]
    rfl
  | .intersection left right => by
    rw [TypeText.chars, List.all_append, List.all_append, TypeText.all_isInSignature left,
      TypeText.all_isInSignature right]
    rfl
  | .object first others closed => by
    have members : ∀ w ∈ first.chars :: charsOfMembers others, w.all isInSignature = true := by
      intro w member
      rcases List.mem_cons.1 member with rfl | member
      · exact MemberText.all_isInSignature first
      · exact MemberText.all_isInSignature_all others w member
    have listed := all_isInSignature_setApart [';', ' '] (by decide) members
    rw [TypeText.chars, List.all_append, List.all_append, List.all_append, listed]
    cases closed <;> rfl

theorem MemberText.all_isInSignature : (m : MemberText) → m.chars.all isInSignature = true
  | .mk key type => by
    rw [MemberText.chars, List.all_append, List.all_append, key.all_isInSignature,
      TypeText.all_isInSignature type]
    rfl

theorem TypeText.all_isInSignature_all :
    (Ts : List TypeText) → ∀ w ∈ charsOfAll Ts, w.all isInSignature = true
  | [] => by simp [charsOfAll]
  | T :: Ts => by
    intro w member
    rw [charsOfAll] at member
    rcases List.mem_cons.1 member with same | member
    · rw [same]
      exact TypeText.all_isInSignature T
    · exact TypeText.all_isInSignature_all Ts w member

theorem MemberText.all_isInSignature_all :
    (ms : List MemberText) → ∀ w ∈ charsOfMembers ms, w.all isInSignature = true
  | [] => by simp [charsOfMembers]
  | m :: ms => by
    intro w member
    rw [charsOfMembers] at member
    rcases List.mem_cons.1 member with same | member
    · rw [same]
      exact MemberText.all_isInSignature m
    · exact MemberText.all_isInSignature_all ms w member

end

end SourceSpecs.Syntax
