import SourceSpecs.Proofs.GapReading
import SourceSpecs.Proofs.ListRelations
import SourceSpecs.Signature
/-!
Trees of two texts that read the same. The stretches that their nodes cover have moved, but what
stands there has not changed, so the same specs come of them.
-/
namespace SourceSpecs.Syntax

/-- Two trees, each over a text of its own, that read the same, the second `n` characters on. -/
inductive Echoes (source source' : List Char) (n : Nat) : Tree → Tree → Prop where
  | node {k : Kind} {x : Option Field} {s : Span} {cs cs' : List Tree}
      (text : s.slice source = (s.move n).slice source')
      (children : List.Forall₂ (Echoes source source' n) cs cs') :
      Echoes source source' n (.node k x s cs) (.node k x (s.move n) cs')

namespace Echoes

variable {source source' : List Char} {n : Nat} {t t' : Tree}

theorem kind (h : Echoes source source' n t t') : t.kind = t'.kind := by
  cases h
  rfl

theorem field (h : Echoes source source' n t t') : t.field = t'.field := by
  cases h
  rfl

theorem span (h : Echoes source source' n t t') : t'.span = t.span.move n := by
  cases h
  rfl

theorem text (h : Echoes source source' n t t') : t.text source = t'.text source' := by
  cases h with
  | node text _ => exact congrArg String.ofList text

theorem children (h : Echoes source source' n t t') :
    List.Forall₂ (Echoes source source' n) t.children t'.children := by
  cases h with
  | node _ children => exact children

theorem as (x : Field) (h : Echoes source source' n t t') :
    Echoes source source' n (t.as x) (t'.as x) := by
  cases h with
  | node text children => exact .node text children

end Echoes

variable {source source' : List Char} {n : Nat}

theorem echoes_markLast (x : Field) {ts ts' : List Tree}
    (h : List.Forall₂ (Echoes source source' n) ts ts') :
    List.Forall₂ (Echoes source source' n) (markLast x ts) (markLast x ts') := by
  induction h with
  | nil => exact .nil
  | cons head rest ih =>
    cases rest with
    | nil => exact .cons (head.as x) .nil
    | cons next rest => exact .cons head ih

theorem hasKeyword_eq (t : Tree) (word : String) : t.hasKeyword word =
    (t.children.map Tree.kind).any (· == .keyword word.toList) := by
  rw [List.any_map]
  rfl

theorem elim_echoes {α : Type} {f g : Tree → α} {o o' : Option Tree} (a : α)
    (same : ∀ t t', Echoes source source' n t t' → f t = g t')
    (h : Option.Rel (Echoes source source' n) o o') : o.elim a f = o'.elim a g := by
  cases h with
  | none => rfl
  | some h => exact same _ _ h

theorem map?_echoes {α : Type} {f g : Tree → α} {o o' : Option Tree}
    (same : ∀ t t', Echoes source source' n t t' → f t = g t')
    (h : Option.Rel (Echoes source source' n) o o') : o.map f = o'.map g := by
  cases h with
  | none => rfl
  | some h => exact congrArg some (same _ _ h)

namespace Echoes

variable {t t' : Tree}

theorem child? (x : Field) (h : Echoes source source' n t t') :
    Option.Rel (Echoes source source' n) (t.child? x) (t'.child? x) :=
  forall₂_find? (fun _ _ echo => by rw [echo.field]) h.children

theorem childrenOf (k : Kind) (h : Echoes source source' n t t') :
    List.Forall₂ (Echoes source source' n) (t.childrenOf k) (t'.childrenOf k) :=
  List.rel_filter (fun _ _ echo => by simp only [echo.kind]) h.children

theorem hasKeyword (word : String) (h : Echoes source source' n t t') :
    t.hasKeyword word = t'.hasKeyword word := by
  have kinds := map_eq_of_forall₂ (f := Tree.kind) (g := Tree.kind) (fun _ _ echo => echo.kind) h.children
  rw [hasKeyword_eq, hasKeyword_eq, kinds]

theorem localName (h : Echoes source source' n t t') : t.localName source = t'.localName source' := by
  have alias_echo := h.child? .alias
  have name_echo := h.child? .name
  unfold Tree.localName
  generalize t.child? .alias = a, t'.child? .alias = a' at alias_echo
  generalize t.child? .name = b, t'.child? .name = b' at name_echo
  cases alias_echo with
  | some echo => exact congrArg (fun x => [x]) echo.text
  | none =>
    cases name_echo with
    | some echo => exact congrArg (fun x => [x]) echo.text
    | none => rfl

theorem typeImports (h : Echoes source source' n t t') :
    t.typeImports source = t'.typeImports source' := by
  unfold Tree.typeImports
  refine flatMap_eq_of_forall₂ (fun clause clause' clause_echo => ?_) (h.childrenOf _)
  refine flatMap_eq_of_forall₂ (fun named named' named_echo => ?_) (clause_echo.childrenOf _)
  rw [h.hasKeyword, clause_echo.hasKeyword]
  refine flatMap_eq_of_forall₂ (fun _ _ echo => echo.localName) (List.rel_filter ?_ (named_echo.childrenOf _))
  intro specifier specifier' echo
  simp only [echo.hasKeyword]

theorem boundName {ts ts' : List Tree} (h : List.Forall₂ (Echoes source source' n) ts ts') :
    Tree.boundName source ts = Tree.boundName source' ts' := by
  rcases h with _ | ⟨_, _ | ⟨_, _ | ⟨echo, _ | _⟩⟩⟩
  · rfl
  · rfl
  · rfl
  · simp only [Tree.boundName]
    rw [echo.kind, echo.text]
  · rfl

theorem ownNames (declared : Bool) (h : Echoes source source' n t t') :
    t.ownNames source declared = t'.ownNames source' declared := by
  unfold Tree.ownNames
  rw [← h.kind, ← h.text, ← h.typeImports, ← boundName h.children]

theorem sameNode {u u' : Tree} (h : Echoes source source' n t t') (k : Echoes source source' n u u') :
    Tree.sameNode t u = Tree.sameNode t' u' := by
  have spans : (t.span == u.span) = (t'.span == u'.span) := by
    rw [h.span, k.span, Bool.eq_iff_iff, beq_iff_eq, beq_iff_eq]
    exact ⟨congrArg (Span.move n), Span.move_inj⟩
  rw [Tree.sameNode, Tree.sameNode, h.kind, k.kind, spans]

theorem declaredName? (h : Echoes source source' n t t') :
    Option.Rel (Echoes source source' n) t.declaredName? t'.declaredName? := by
  rw [Tree.declaredName?, Tree.declaredName?, h.kind]
  split
  · exact h.child? .name
  · exact .none

end Echoes

theorem names_other {k : Kind} {x : Option Field} {s : Span} {cs : List Tree} (declared : Bool)
    (not_generic : k ≠ .genericType) (not_qualified : k ≠ .qualifiedName) :
    Tree.names source declared (.node k x s cs) =
      Tree.ownNames source declared (.node k x s cs) ++
        Tree.namesOfAll source (Tree.node k x s cs).declaredName? cs := by
  rw [Tree.names.eq_def]
  split <;> simp_all

mutual

theorem names_echo (declared : Bool) (t t' : Tree) (h : Echoes source source' n t t') :
    t.names source declared = t'.names source' declared := by
  cases t with
  | node k x s cs =>
    cases t' with
    | node k' x' s' cs' =>
      obtain rfl : k = k' := h.kind
      by_cases generic : k = .genericType
      · subst generic
        have name_echo := h.child? .name
        rw [Tree.names, Tree.names]
        generalize Tree.child? (.node .genericType x s cs) .name = a,
          Tree.child? (.node .genericType x' s' cs') .name = a' at name_echo
        cases name_echo with
        | none => rfl
        | some echo => exact congrArg (fun x => [x]) echo.text
      · by_cases qualified : k = .qualifiedName
        · subst qualified
          rw [Tree.names, Tree.names, h.text]
        · rw [names_other declared generic qualified, names_other declared generic qualified,
            h.ownNames, namesOfAll_echo h.declaredName? cs cs' h.children]

theorem namesOfAll_echo {declared declared' : Option Tree}
    (name : Option.Rel (Echoes source source' n) declared declared') (ts ts' : List Tree)
    (h : List.Forall₂ (Echoes source source' n) ts ts') :
    Tree.namesOfAll source declared ts = Tree.namesOfAll source' declared' ts' := by
  cases ts with
  | nil =>
    cases h
    rfl
  | cons t ts =>
    cases ts' with
    | nil => cases h
    | cons t' ts' =>
      obtain ⟨head, rest⟩ := List.forall₂_cons.1 h
      have same : declared.any (Tree.sameNode · t) = declared'.any (Tree.sameNode · t') := by
        cases name with
        | none => rfl
        | some echo => exact echo.sameNode head
      rw [Tree.namesOfAll, Tree.namesOfAll, same, names_echo _ t t' head,
        namesOfAll_echo name ts ts' rest]

end

theorem customTypes_echo {t t' : Tree} (h : Echoes source source' n t t') :
    t.customTypes source = t'.customTypes source' := by
  rw [Tree.customTypes, Tree.customTypes, names_echo false t t' h]

theorem typingText_echo {t t' : Tree} (h : Echoes source source' n t t') :
    Signature.typingText source t = Signature.typingText source' t' := by
  rw [Signature.typingText, Signature.typingText, h.text]

theorem patternText_eq (source : List Char) (t : Tree) :
    Signature.patternText source t =
      if t.kind = .restPattern then
        (t.children.find? Tree.isNamed).elim (t.text source) (Tree.text source)
      else t.text source := by
  rw [← List.head?_filter]
  unfold Signature.patternText
  split
  · simp_all
  · rename_i other
    split
    · rename_i rest
      cases e : t.children.filter Tree.isNamed with
      | nil => rfl
      | cons first ts => exact absurd e (other first ts rest)
    · rfl

theorem patternText_echo {t t' : Tree} (h : Echoes source source' n t t') :
    Signature.patternText source t = Signature.patternText source' t' := by
  have named := forall₂_find? (p := Tree.isNamed) (q := Tree.isNamed)
    (fun _ _ echo => by rw [Tree.isNamed, Tree.isNamed, echo.kind]) h.children
  rw [patternText_eq, patternText_eq, h.kind, h.text, elim_echoes _ (fun _ _ => Echoes.text) named]

theorem paramOf_echo {t t' : Tree} (h : Echoes source source' n t t') :
    Signature.paramOf source t = Signature.paramOf source' t' := by
  unfold Signature.paramOf
  rw [elim_echoes "" (fun _ _ => patternText_echo) (h.child? .pattern),
    map?_echoes (fun _ _ => typingText_echo) (h.child? .typing),
    map?_echoes (fun _ _ => Echoes.text) (h.child? .value)]

theorem paramsOf_echo {t t' : Tree} (h : Echoes source source' n t t') :
    Signature.paramsOf source t = Signature.paramsOf source' t' := by
  have list := h.child? .parameters
  unfold Signature.paramsOf
  generalize t.child? .parameters = a, t'.child? .parameters = a' at list
  cases list with
  | none => rfl
  | some echo => exact map_eq_of_forall₂ (fun _ _ => paramOf_echo) (echo.childrenOf _)

theorem specOf_echo {t t' : Tree} (h : Echoes source source' n t t') :
    Signature.specOf source t = Signature.specOf source' t' := by
  unfold Signature.specOf
  rw [elim_echoes "" (fun _ _ => Echoes.text) (h.child? .name), paramsOf_echo h,
    elim_echoes "void" (fun _ _ => typingText_echo) (h.child? .returnType), customTypes_echo h]

theorem exported_echo {t t' : Tree} (h : Echoes source source' n t t') :
    Echoes source source' n (Signature.exported t) (Signature.exported t') := by
  have declaration := h.child? .declaration
  have value := h.child? .value
  unfold Signature.exported
  rw [← h.kind]
  generalize t.child? .declaration = a, t'.child? .declaration = a' at declaration
  generalize t.child? .value = b, t'.child? .value = b' at value
  split
  · cases declaration with
    | some echo => exact echo
    | none =>
      cases value with
      | some echo => exact echo
      | none => exact h
  · exact h

theorem isFunction_echo {t t' : Tree} (h : Echoes source source' n t t') :
    Signature.isFunction t = Signature.isFunction t' := by
  rw [Signature.isFunction, Signature.isFunction, h.kind]

def functionsAmong (source : List Char) (ts : List Tree) : List FunctionSpec :=
  ((ts.map Signature.exported).filter Signature.isFunction).map (Signature.specOf source)

theorem functionsAmong_append (ts us : List Tree) :
    functionsAmong source (ts ++ us) = functionsAmong source ts ++ functionsAmong source us := by
  simp [functionsAmong]

/-- Statements that read the same define the same functions. -/
theorem functionsAmong_echo {ts ts' : List Tree} (h : List.Forall₂ (Echoes source source' n) ts ts') :
    functionsAmong source ts = functionsAmong source' ts' := by
  have exports : List.Forall₂ (Echoes source source' n) (ts.map Signature.exported)
      (ts'.map Signature.exported) := by
    rw [List.forall₂_map_left_iff, List.forall₂_map_right_iff]
    exact h.imp fun _ _ => exported_echo
  exact map_eq_of_forall₂ (fun _ _ => specOf_echo) (List.rel_filter (fun _ _ echo => Bool.eq_iff_iff.1 (isFunction_echo echo)) exports)

end SourceSpecs.Syntax
