import SourceSpecs.Proofs.Block
import SourceSpecs.Proofs.Tiling
/-!
A block is read back from its text. Each form is followed part by part up to the end of the block,
whatever text comes behind it.
-/
namespace SourceSpecs.Block

open Text Declaration

def ReadBy (f : Form) (b : Block) (rest : List Char) : Prop :=
  ∀ o, ∃ capture, f.at? ⟨o, b.text ++ rest⟩ = some (capture, ⟨o + b.text.length, rest⟩) ∧
    ∀ m : Match, m.start = o → m.text = b.text → b.shape? = some (shapeOf m capture)

def FreeOf (marker front : List Char) : Prop :=
  ∀ i < front.length, ∀ behind, ¬ marker <+: front.drop i ++ behind

theorem word_append (w : String) (o : Nat) (t : List Char) :
    word w ⟨o, w.toList ++ t⟩ = some ⟨o + w.toList.length, t⟩ :=
  Cursor.past?_eq_some_iff.2 (Cursor.reads_of_rest rfl)

theorem word_eq_none {w : String} {o : Nat} {t : List Char} (h : ¬ w.toList <+: t) :
    word w ⟨o, t⟩ = none := by
  cases read : word w ⟨o, t⟩ with
  | none => rfl
  | some d => exact absurd ⟨d.rest, (Cursor.past?_eq_some_iff.1 read).1.symm⟩ h

theorem skip_append {p : Char → Bool} {u t : List Char} (o : Nat) (inside : ∀ x ∈ u, p x = true)
    (outside : ∀ x ∈ t.head?, p x = false) :
    Cursor.skip p ⟨o, u ++ t⟩ = ⟨o + u.length, t⟩ :=
  Cursor.skip_eq_iff.2 ⟨u, Cursor.reads_of_rest rfl, inside, outside⟩

theorem skipSome?_append {p : Char → Bool} {u t : List Char} (o : Nat) (nonempty : u ≠ [])
    (inside : ∀ x ∈ u, p x = true) (outside : ∀ x ∈ t.head?, p x = false) :
    Cursor.skipSome? p ⟨o, u ++ t⟩ = some ⟨o + u.length, t⟩ :=
  Cursor.skipSome?_eq_some_iff.2 ⟨u, Cursor.reads_of_rest rfl, nonempty, inside, outside⟩

theorem space_append {t : List Char} (o : Nat) (outside : ∀ x ∈ t.head?, isBlank x = false) :
    Cursor.skipSome? isBlank ⟨o, [' '] ++ t⟩ = some ⟨o + 1, t⟩ :=
  skipSome?_append o (by simp) (by simp; rfl) outside

theorem firstAlong_append {α : Type} {p : Char → Bool} {k : Cursor → Option α} {u t : List Char}
    {o : Nat} {a : α} (inside : ∀ x ∈ u, p x = true) (found : k ⟨o + u.length, t⟩ = some a)
    (before : ∀ i < u.length, k ⟨o + i, (u ++ t).drop i⟩ = none) :
    Cursor.firstAlong p k ⟨o, u ++ t⟩ = some a := by
  refine Cursor.firstAlong_eq_some_iff.2
    ⟨u, _, Cursor.reads_of_rest rfl, inside, found, fun v e reads less => ?_⟩
  obtain ⟨offset, rest⟩ := e
  obtain ⟨parts, rfl⟩ := reads
  have := before v.length less
  rwa [show u ++ t = v ++ rest from parts, List.drop_left] at this

theorem part_eq {m : Match} {u n v : List Char} (text : m.text = u ++ (n ++ v)) :
    part m ⟨m.start + u.length, m.start + u.length + n.length⟩ = String.ofList n := by
  rw [part, Span.slice, text]
  simp only [Nat.add_sub_cancel_left, Nat.add_assoc, List.drop_left, List.take_left]

theorem freeOf_append {marker clause gap : List Char} (free : ¬ marker <:+: clause)
    (nonempty : gap ≠ []) (apart : ∀ x ∈ gap, x ∉ marker) (some_marker : marker ≠ []) :
    FreeOf marker (clause ++ gap) := by
  rintro i less behind ⟨v, e⟩
  by_cases inside : i < clause.length
  · rw [List.drop_append_of_le_length (Nat.le_of_lt inside), List.append_assoc] at e
    by_cases short : marker.length ≤ (clause.drop i).length
    · -- the marker would end within the clause
      have within : marker <+: clause.drop i :=
        List.prefix_of_prefix_length_le ⟨v, e⟩ ⟨_, rfl⟩ short
      exact free (within.isInfix.trans (List.drop_suffix i clause).isInfix)
    · -- the marker would hold the beginning of the gap
      obtain ⟨w, rfl⟩ := List.prefix_of_prefix_length_le ⟨gap ++ behind, rfl⟩ ⟨v, e⟩
        (Nat.le_of_lt (Nat.lt_of_not_le short))
      rw [List.append_assoc, List.append_cancel_left_eq] at e
      cases gap with
      | nil => exact nonempty rfl
      | cons x gap =>
        cases w with
        | nil => simp at short
        | cons y w =>
          obtain ⟨rfl, _⟩ := List.cons.inj e
          exact apart y List.mem_cons_self (by simp)
  · rw [List.drop_append, List.drop_eq_nil_of_le (Nat.le_of_not_lt inside), List.nil_append] at e
    cases rest : gap.drop (i - clause.length) with
    | nil =>
      have := List.drop_eq_nil_iff.1 rest
      simp only [List.length_append] at less
      omega
    | cons x gap' =>
      cases marker with
      | nil => exact some_marker rfl
      | cons y marker =>
        rw [rest] at e
        obtain ⟨rfl, _⟩ := List.cons.inj e
        exact apart y (List.mem_of_mem_drop (rest ▸ List.mem_cons_self)) List.mem_cons_self

theorem freeOf_drop {marker front : List Char} (free : FreeOf marker front) (n : Nat) :
    FreeOf marker (front.drop n) := by
  intro i less behind
  rw [List.drop_drop]
  refine free (n + i) ?_ behind
  simp only [List.length_drop] at less
  omega

theorem closesFirst_append {closer : String} {front body : List Char}
    (free : FreeOf closer.toList front) (closes : ClosesFirst closer body) :
    ClosesFirst closer (front ++ body) := by
  intro i less
  rw [List.append_assoc]
  by_cases inside : i < front.length
  · rw [List.drop_append_of_le_length (Nat.le_of_lt inside)]
    exact free i inside _
  · obtain ⟨j, rfl⟩ := Nat.exists_eq_add_of_le (Nat.le_of_not_lt inside)
    rw [← List.drop_drop, List.drop_left]
    rw [List.length_append] at less
    exact closes j (by omega)

section Named

variable {keyword opener closer : String} {name body rest : List Char} (o : Nat)

theorem namedAfter_append (keyword : String) (rest : List Char) (name_formed : IsName name)
    (outside : ∀ x ∈ rest.head?, isWord x = false) :
    namedAfter keyword ⟨o, keyword.toList ++ ([' '] ++ (name ++ rest))⟩ =
      some (⟨o + keyword.toList.length + 1, o + keyword.toList.length + 1 + name.length⟩,
        ⟨o + keyword.toList.length + 1 + name.length, rest⟩) := by
  have first : ∀ x ∈ (name ++ rest).head?, isBlank x = false := by
    cases name with
    | nil => exact absurd rfl name_formed.1
    | cons y name =>
      rintro x ⟨⟩
      exact not_isBlank_of_isWord (name_formed.2 y List.mem_cons_self)
  have gap := space_append (o + keyword.toList.length) first
  have named := skipSome?_append (o + keyword.toList.length + 1) name_formed.1 name_formed.2 outside
  simp only [namedAfter, word_append, gap, named, Option.bind_eq_bind, Option.bind_some,
    Option.pure_def]

theorem exportMark_given (exported : Bool) {t : List Char}
    (first : ∃ x ∈ t.head?, x ≠ 'e' ∧ isBlank x = false) :
    ∃ span : Option Span, span.isSome = exported ∧
      exportMark ⟨o, given exported "export " ++ t⟩ =
        (span, ⟨o + (given exported "export ").length, t⟩) := by
  obtain ⟨x, first, not_e, not_blank⟩ := first
  cases exported with
  | true =>
    refine ⟨some ⟨o, o + 7⟩, rfl, ?_⟩
    have outside : ∀ y ∈ t.head?, isBlank y = false := by
      intro y member
      rw [Option.mem_def.1 first] at member
      cases member
      exact not_blank
    have marked : word "export" ⟨o, given true "export " ++ t⟩ = some ⟨o + 6, [' '] ++ t⟩ :=
      word_append "export" o ([' '] ++ t)
    simp only [exportMark, marked, Option.bind_some, space_append (o + 6) outside]
    rfl
  | false =>
    refine ⟨none, rfl, ?_⟩
    have unmarked : word "export" ⟨o, given false "export " ++ t⟩ = none := by
      refine word_eq_none ?_
      rintro ⟨v, e⟩
      have := congrArg List.head? e
      rw [show given false "export " ++ t = t from rfl, first] at this
      exact not_e (Option.some.inj this).symm
    simp only [exportMark, unmarked, Option.bind_none]
    rfl

theorem closer_append (capture : Cursor → Capture) (rest : List Char) (closes : ClosesFirst closer body) :
    Cursor.firstAlong (fun _ => true) (fun c => do
      let d ← word closer c
      some (capture d, d)) ⟨o, body ++ (closer.toList ++ rest)⟩ =
        let d : Cursor := ⟨o + body.length + closer.toList.length, rest⟩
        some (capture d, d) := by
  refine firstAlong_append (fun _ _ => rfl) (by simp [word_append]) fun i less => ?_
  have unread : ¬ closer.toList <+: (body ++ (closer.toList ++ rest)).drop i := by
    intro read
    refine closes i less (List.prefix_of_prefix_length_le read ⟨rest, ?_⟩ (by simp; omega))
    have within : i ≤ (body ++ closer.toList).length := by
      rw [List.length_append]
      omega
    rw [← List.append_assoc, List.drop_append_of_le_length within]
  simp only [word_eq_none unread, Option.bind_eq_bind, Option.bind_none]

theorem readNamed_append (capture : Span → Option Span → Span → Capture) (exported : Bool)
    (rest : List Char) (name_formed : IsName name) (closes : ClosesFirst closer body)
    (keyword_first : ∃ x ∈ keyword.toList.head?, x ≠ 'e' ∧ isBlank x = false)
    (opener_first : ∃ x ∈ opener.toList.head?, isBlank x = false) :
    let start := o + (given exported "export ").length + keyword.toList.length + 1
    let stop := start + name.length + 1 + opener.toList.length + body.length + closer.toList.length
    ∃ span : Option Span, span.isSome = exported ∧
      readNamed keyword opener closer capture (fun x d => some (x, d))
        ⟨o, given exported "export " ++ (keyword.toList ++ ([' '] ++ (name ++ ([' '] ++
          (opener.toList ++ (body ++ (closer.toList ++ rest)))))))⟩ =
        some (capture ⟨o, stop⟩ span ⟨start, start + name.length⟩, ⟨stop, rest⟩) := by
  intro start stop
  have keyword_here : ∃ x ∈ (keyword.toList ++ ([' '] ++ (name ++ ([' '] ++
      (opener.toList ++ (body ++ (closer.toList ++ rest))))))).head?,
      x ≠ 'e' ∧ isBlank x = false := by
    obtain ⟨x, first, apart⟩ := keyword_first
    exact ⟨x, by simp [List.head?_append, Option.mem_def.1 first], apart⟩
  have opener_here : ∀ x ∈ (opener.toList ++ (body ++ (closer.toList ++ rest))).head?,
      isBlank x = false := by
    obtain ⟨x, first, apart⟩ := opener_first
    intro y member
    simp only [List.head?_append, Option.mem_def.1 first, Option.some_or, Option.mem_def,
      Option.some.injEq] at member
    exact member ▸ apart
  obtain ⟨span, present, mark⟩ := exportMark_given o exported keyword_here
  refine ⟨span, present, ?_⟩
  have named := namedAfter_append (o + (given exported "export ").length) keyword
    ([' '] ++ (opener.toList ++ (body ++ (closer.toList ++ rest)))) name_formed
    (by simp; decide)
  have gap := skip_append (p := isBlank) (u := [' ']) (start + name.length) (by simp; rfl)
    opener_here
  have closed := closer_append (start + name.length + 1 + opener.toList.length)
    (fun d => capture ⟨o, d.offset⟩ span ⟨start, start + name.length⟩) rest closes
  simp only [List.length_singleton] at gap
  simp only [readNamed, mark, named, Option.bind_eq_bind, Option.bind_some]
  rw [gap, word_append]
  simpa only [Option.bind_some, Option.bind_eq_bind] using closed

theorem named_readBy {f : Form} {b : Block} (exported : Bool)
    {capture : Span → Option Span → Span → Capture} (shape : String → Bool → Shape)
    (reader : f.at? = readNamed keyword opener closer capture fun x d => some (x, d))
    (text : b.text = given exported "export " ++ (keyword.toList ++ ([' '] ++ (name ++ ([' '] ++
      (opener.toList ++ (body ++ closer.toList)))))))
    (shape_eq : b.shape? = some (shape (String.ofList name) exported))
    (shapeOf_eq : ∀ m whole span named,
      shapeOf m (capture whole span named) = shape (part m named) span.isSome)
    (name_formed : IsName name) (closes : ClosesFirst closer body)
    (keyword_first : ∃ x ∈ keyword.toList.head?, x ≠ 'e' ∧ isBlank x = false)
    (opener_first : ∃ x ∈ opener.toList.head?, isBlank x = false) : ReadBy f b rest := by
  intro o
  obtain ⟨span, present, read⟩ := readNamed_append o capture exported rest
    name_formed closes keyword_first opener_first
  refine ⟨capture ⟨o, o + b.text.length⟩ span
    ⟨o + (given exported "export ").length + keyword.toList.length + 1,
      o + (given exported "export ").length + keyword.toList.length + 1 + name.length⟩,
    ?_, fun m start same => ?_⟩
  · have stop : o + b.text.length = o + (given exported "export ").length + keyword.toList.length +
        1 + name.length + 1 + opener.toList.length + body.length + closer.toList.length := by
      simp only [text, List.length_append, List.length_singleton]
      omega
    rw [reader, stop, text]
    simpa only [List.append_assoc] using read
  · have here := part_eq (m := m) (u := given exported "export " ++ (keyword.toList ++ [' ']))
      (n := name) (v := [' '] ++ (opener.toList ++ (body ++ closer.toList)))
      (by rw [same, text]; simp only [List.append_assoc])
    rw [shape_eq, shapeOf_eq, present, ← here, start]
    simp only [List.length_append, List.length_singleton, Nat.add_assoc]

end Named

theorem interface_readBy {exported : Bool} {name body : List Char}
    (formed : (interface exported name body).WellFormed) (rest : List Char) :
    ReadBy .interface (interface exported name body) rest := by
  obtain ⟨name_formed, closes⟩ : IsName name ∧ ClosesFirst "\n\x7d\n" body := formed
  have reader : Form.interface.at? =
      readNamed "interface" "\x7b" "\n\x7d\n" .interface fun x d => some (x, d) := by
    funext c
    rw [Form.at?, Form.read, readInterface_eq]
  have layout : (interface exported name body).text = given exported "export " ++
      ("interface".toList ++ ([' '] ++ (name ++ ([' '] ++ ("\x7b".toList ++ (body ++
        "\n\x7d\n".toList)))))) := by
    change given exported "export " ++ ("interface".toList ++ [' ']) ++ name ++
      ([' '] ++ "\x7b".toList) ++ body ++ _ = _
    simp only [List.append_assoc]
  exact named_readBy exported .interface reader layout rfl
    (fun _ _ _ _ => rfl) name_formed closes ⟨'i', rfl, by decide, by decide⟩
    ⟨'\x7b', rfl, by decide⟩

theorem typeAlias_readBy {exported : Bool} {name body : List Char}
    (formed : (typeAlias exported name body).WellFormed) (rest : List Char) :
    ReadBy .typeAlias (typeAlias exported name body) rest := by
  obtain ⟨name_formed, body_closes⟩ : IsName name ∧ ClosesFirst ";\n" body := formed
  have closes : ClosesFirst ";\n" ([' '] ++ body) := by
    rintro (_ | i) less
    · simp
    · exact body_closes i (by simpa using less)
  have reader : Form.typeAlias.at? =
      readNamed "type" "=" ";\n" .typeAlias fun x d => some (x, d) := by
    funext c
    rw [Form.at?, Form.read, readTypeAlias_eq]
  have layout : (typeAlias exported name body).text = given exported "export " ++
      ("type".toList ++ ([' '] ++ (name ++ ([' '] ++ ("=".toList ++ (([' '] ++ body) ++
        ";\n".toList)))))) := by
    change given exported "export " ++ ("type".toList ++ [' ']) ++ name ++
      ([' '] ++ ("=".toList ++ [' '])) ++ body ++ _ = _
    simp only [List.append_assoc]
  exact named_readBy exported .typeAlias reader layout rfl
    (fun _ _ _ _ => rfl) name_formed closes ⟨'t', rfl, by decide, by decide⟩ ⟨'=', rfl, by decide⟩

theorem lineEnd_append (semicolon : Bool) (n : Nat) (rest : List Char) :
    let close := given semicolon ";" ++ ['\n']
    lineEnd ⟨n, close ++ rest⟩ = some ⟨n + close.length, rest⟩ := by
  cases semicolon <;> rfl

theorem callEnd_append (semicolon : Bool) (n : Nat) (rest : List Char) :
    let close := ')' :: given semicolon ";" ++ ['\n']
    callEnd ⟨n, close ++ rest⟩ = some ⟨n + close.length, rest⟩ := by
  intro close
  have here : Cursor.skip isBlank ⟨n, close ++ rest⟩ = ⟨n, close ++ rest⟩ :=
    skip_append (u := []) n (by simp) (by rintro x ⟨⟩; decide)
  have called : word ")" ⟨n, close ++ rest⟩ =
      some ⟨n + 1, given semicolon ";" ++ ['\n'] ++ rest⟩ :=
    word_append ")" n _
  rw [callEnd, here, called, Option.bind_some, lineEnd_append]
  simp only [close, List.length_append, List.length_cons, Option.some.injEq, Cursor.mk.injEq,
    and_true]
  omega

section Source

variable {marker : String} {closing : Cursor → Option Cursor} (capture : Span → Span → Capture)
  {front gap path close rest : List Char} {q : Char} (o start : Nat)

theorem path_append (quote : isQuote q = true) (path_formed : IsPath path)
    (closes : ∀ n, closing ⟨n, close ++ rest⟩ = some ⟨n + close.length, rest⟩) :
    Cursor.firstAlong isInLine (fun stop => (stop.next? isQuote).bind fun x =>
      (closing x.2).bind fun d => some (capture ⟨start, d.offset⟩ ⟨o, stop.offset⟩, d))
      ⟨o, path ++ (q :: (close ++ rest))⟩ =
        let stop := o + path.length + 1 + close.length
        some (capture ⟨start, stop⟩ ⟨o, o + path.length⟩, ⟨stop, rest⟩) := by
  refine firstAlong_append (fun x member => ?_) ?_ fun i less => ?_
  · simpa [isInLine] using (path_formed x member).2
  · simp [Cursor.next?, quote, closes]
  · have here : (path ++ (q :: (close ++ rest))).drop i =
        path[i] :: (path ++ (q :: (close ++ rest))).drop (i + 1) := by
      rw [List.drop_eq_getElem_cons (by simp; omega), List.getElem_append_left less]
    have plain := (path_formed path[i] (List.getElem_mem less)).1
    simp [here, Cursor.next?, plain]

theorem source_append (free : FreeOf marker.toList front) (blank : ∀ x ∈ gap, isBlank x = true)
    (quote : isQuote q = true) (path_formed : IsPath path)
    (closes : ∀ n, closing ⟨n, close ++ rest⟩ = some ⟨n + close.length, rest⟩) :
    Cursor.firstAlong (fun _ => true)
      (readSource marker closing capture (fun x d => some (x, d)) start)
      ⟨o, front ++ (marker.toList ++ (gap ++ (q :: (path ++ (q :: (close ++ rest))))))⟩ =
        let inner := o + front.length + marker.toList.length + gap.length + 1
        let stop := inner + path.length + 1 + close.length
        some (capture ⟨start, stop⟩ ⟨inner, inner + path.length⟩, ⟨stop, rest⟩) := by
  refine firstAlong_append (fun _ _ => rfl) ?_ fun i less => ?_
  · have skipped := skip_append (p := isBlank) (u := gap)
      (t := q :: (path ++ (q :: (close ++ rest)))) (o + front.length + marker.toList.length) blank
      (by rintro x ⟨⟩; exact not_isBlank_of_isQuote quote)
    have read := path_append capture
      (o + front.length + marker.toList.length + gap.length + 1) start quote path_formed closes
    simp only [readSource, word_append, skipped, Option.bind_eq_bind, Option.bind_some,
      Cursor.next?, quote, if_true]
    exact read
  · have unread := free i less (marker.toList ++ (gap ++ (q :: (path ++ (q :: (close ++ rest))))))
    rw [← List.drop_append_of_le_length (Nat.le_of_lt less)] at unread
    simp only [readSource, word_eq_none unread, Option.bind_eq_bind, Option.bind_none]

theorem path_part {m : Match} {before : List Char}
    (text : m.text = before ++ (q :: (path ++ (q :: close)))) :
    part m ⟨m.start + before.length + 1, m.start + before.length + 1 + path.length⟩ =
      String.ofList path := by
  have := part_eq (m := m) (u := before ++ [q]) (n := path) (v := q :: close) (by simp [text])
  simpa [Nat.add_assoc] using this

theorem sourced_readBy {f : Form} {b : Block} {opening : Cursor → Option Cursor}
    (shape : String → Shape) {head : List Char} {n : Nat}
    (reader : f.at? = fun c => (opening c).bind fun d => d.firstAlong (fun _ => true)
      (readSource marker closing capture (fun x d => some (x, d)) c.offset))
    (text : b.text = head ++ (front ++ (marker.toList ++ (gap ++ (q :: (path ++ (q :: close)))))))
    (opened : ∀ o, opening ⟨o, b.text ++ rest⟩ = some ⟨o + head.length + n, front.drop n ++
      (marker.toList ++ (gap ++ (q :: (path ++ (q :: (close ++ rest))))))⟩)
    (within : n ≤ front.length) (shape_eq : b.shape? = some (shape (String.ofList path)))
    (shapeOf_eq : ∀ m whole inner, shapeOf m (capture whole inner) = shape (part m inner))
    (free : FreeOf marker.toList front) (blank : ∀ x ∈ gap, isBlank x = true)
    (quote : isQuote q = true) (path_formed : IsPath path)
    (closes : ∀ n, closing ⟨n, close ++ rest⟩ = some ⟨n + close.length, rest⟩) :
    ReadBy f b rest := by
  intro o
  set before := head ++ (front ++ (marker.toList ++ gap)) with before_eq
  have before_size :
      before.length = head.length + front.length + marker.toList.length + gap.length := by
    simp only [before_eq, List.length_append]
    omega
  have size : b.text.length = before.length + 1 + path.length + 1 + close.length := by
    simp only [text, before_size, List.length_append, List.length_cons]
    omega
  refine ⟨capture ⟨o, o + b.text.length⟩
    ⟨o + before.length + 1, o + before.length + 1 + path.length⟩, ?_, fun m starts same => ?_⟩
  · have source := source_append capture (o + head.length + n) o (freeOf_drop free n)
      blank quote path_formed closes
    have inner : o + head.length + n + (front.drop n).length + marker.toList.length + gap.length + 1 =
        o + before.length + 1 := by
      rw [before_size, List.length_drop]
      omega
    have stop : o + b.text.length = o + before.length + 1 + path.length + 1 + close.length := by
      rw [size]
      omega
    simp only [inner] at source
    rw [reader, stop]
    simp only [opened, Option.bind_some, source]
  · have whole : m.text = before ++ (q :: (path ++ (q :: close))) := by
      rw [same, text, before_eq]
      simp only [List.append_assoc]
    rw [shape_eq, shapeOf_eq, ← starts, path_part whole]

end Source

theorem skipSome?_front {x : Char} (front : List Char) {t : List Char} (o : Nat) (first : isBlank x = true)
    (outside : ∀ y ∈ t.head?, isBlank y = false) :
    Cursor.skipSome? isBlank ⟨o, x :: front ++ t⟩ =
      some ⟨o + ((x :: front).takeWhile isBlank).length,
        (x :: front).drop ((x :: front).takeWhile isBlank).length ++ t⟩ := by
  have rest : (x :: front).drop ((x :: front).takeWhile isBlank).length =
      (x :: front).dropWhile isBlank := by
    conv_lhs => rhs; rw [← List.takeWhile_append_dropWhile (p := isBlank) (l := x :: front)]
    exact List.drop_left
  have parts : x :: front ++ t =
      (x :: front).takeWhile isBlank ++ ((x :: front).dropWhile isBlank ++ t) := by
    rw [← List.append_assoc, List.takeWhile_append_dropWhile]
  rw [rest, parts]
  refine skipSome?_append o (by simp [first]) (fun y member => ?_) fun y member => ?_
  · exact List.all_eq_true.1 List.all_takeWhile y member
  · cases left : (x :: front).dropWhile isBlank with
    | nil => exact outside y (by simpa [left] using member)
    | cons z left' =>
      have := List.head?_dropWhile_not isBlank (x :: front)
      simp only [left, List.head?_cons] at this
      obtain rfl : z = y := by simpa [left] using member
      simpa using this

theorem importFrom_readBy {clause path : List Char} {q : Char} {semicolon : Bool}
    (formed : (importFrom clause q path semicolon).WellFormed) (rest : List Char) :
    ReadBy .importFrom (importFrom clause q path semicolon) rest := by
  obtain ⟨free, quote, path_formed⟩ :
    ¬ "from".toList <:+: clause ∧ isQuote q = true ∧ IsPath path := formed
  have reader : Form.importFrom.at? = fun c =>
      ((word "import" c).bind (Cursor.skipSome? isBlank)).bind fun d =>
        d.firstAlong (fun _ => true)
          (readSource "from" lineEnd .importFrom (fun x d => some (x, d)) c.offset) := by
    funext c
    rw [Form.at?, Form.read, readImport_eq, Option.bind_assoc]
  have layout : (importFrom clause q path semicolon).text = "import".toList ++
      ((' ' :: clause ++ [' ']) ++ ("from".toList ++ ([' '] ++ (q :: (path ++ (q ::
        (given semicolon ";" ++ ['\n']))))))) := by
    change ("import".toList ++ [' ']) ++ clause ++ ([' '] ++ ("from".toList ++ [' '])) ++ q :: path ++
      q :: given semicolon ";" ++ ['\n'] = _
    simp
  have free_front : FreeOf "from".toList (' ' :: clause ++ [' ']) := by
    refine freeOf_append ?_ (by simp) (by simp) (by simp)
    rw [List.infix_cons_iff]
    rintro (⟨v, e⟩ | inside)
    · exact absurd (List.cons.inj e).1 (by decide)
    · exact free inside
  refine sourced_readBy _ .importFrom reader layout (fun o => ?_)
    (List.takeWhile_prefix isBlank).length_le rfl (fun _ _ _ => rfl) free_front (by simp; rfl) quote
    path_formed fun n => lineEnd_append semicolon n rest
  have skipped := skipSome?_front (x := ' ') (clause ++ [' '])
    (t := "from".toList ++ ([' '] ++ (q :: (path ++ (q :: (given semicolon ";" ++ ['\n'] ++ rest))))))
    (o + "import".toList.length) (by decide) (by rintro y ⟨⟩; decide)
  rw [layout, List.append_assoc, word_append, Option.bind_some]
  simpa only [List.append_assoc, List.cons_append] using skipped

theorem require_readBy {clause path : List Char} {q : Char} {semicolon : Bool}
    (formed : (require clause q path semicolon).WellFormed) (rest : List Char) :
    ReadBy .require (require clause q path semicolon) rest := by
  obtain ⟨free, quote, path_formed⟩ :
    ¬ "require(".toList <:+: clause ∧ isQuote q = true ∧ IsPath path := formed
  have reader : Form.require.at? = fun c => (word "const" c).bind fun d =>
      d.firstAlong (fun _ => true)
        (readSource "require(" callEnd .require (fun x d => some (x, d)) c.offset) := by
    funext c
    rw [Form.at?, Form.read, readRequire_eq]
  have layout : (require clause q path semicolon).text = "const".toList ++
      ((' ' :: clause ++ " = ".toList) ++ ("require(".toList ++ ([] ++ (q :: (path ++ (q ::
        (')' :: given semicolon ";" ++ ['\n']))))))) := by
    change ("const".toList ++ [' ']) ++ clause ++ (" = ".toList ++ "require(".toList) ++ q :: path ++
      q :: ')' :: given semicolon ";" ++ ['\n'] = _
    simp
  have free_front : FreeOf "require(".toList (' ' :: clause ++ " = ".toList) := by
    refine freeOf_append ?_ (by simp) (by simp) (by simp)
    rw [List.infix_cons_iff]
    rintro (⟨v, e⟩ | inside)
    · exact absurd (List.cons.inj e).1 (by decide)
    · exact free inside
  refine sourced_readBy (n := 0) _ .require reader layout (fun o => ?_) (Nat.zero_le _) rfl
    (fun _ _ _ => rfl) free_front (by simp) quote path_formed fun n => callEnd_append semicolon n rest
  rw [layout, List.append_assoc, word_append]
  simp only [List.append_assoc, List.cons_append, List.drop_zero, Nat.add_zero]

end SourceSpecs.Block
