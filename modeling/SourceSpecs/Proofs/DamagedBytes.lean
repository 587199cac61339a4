import SourceSpecs.Proofs.FileReading
/-!
Bytes that are no text, between texts. The first byte of a character stands in no other place of one,
so a broken sequence ends where a text begins, and the texts around it are read as they are.
-/
namespace SourceSpecs.Text

section Decodes

variable {part rest bytes front : List UInt8} {t : List Char}

theorem not_opens_of_first {c : Char} {b : UInt8} {v : List UInt8}
    (first : String.utf8EncodeChar c = b :: v) (some_byte : front ≠ []) :
    ¬ OpensCharacter (front ++ [b]) := by
  intro ⟨c', w, whole⟩
  have begins : b.IsUTF8FirstByte := by
    have some_byte : 0 < (String.utf8EncodeChar c).length := by
      rw [first]
      exact Nat.zero_lt_succ _
    have opening := @UInt8.isUTF8FirstByte_getElem_utf8EncodeChar c 0 some_byte
    simpa [first] using opening
  have inside : front.length < (String.utf8EncodeChar c').length := by
    rw [← whole]
    simp
  have within := @UInt8.isUTF8FirstByte_getElem_utf8EncodeChar c' front.length inside
  simp only [← whole, List.append_assoc, List.singleton_append, List.getElem_append_right,
    Nat.le_refl, Nat.sub_self, List.getElem_cons_zero] at within
  exact some_byte (List.length_eq_zero_iff.1 (within.1 begins))

theorem front_within (stands : front <+: bytes ++ encodeUtf8 t) (some_byte : bytes ≠ [])
    (opens : OpensCharacter front) : front <+: bytes := by
  refine List.prefix_of_prefix_length_le stands (List.prefix_append bytes _) ?_
  refine Nat.not_lt.1 ?_
  intro longer
  cases t with
  | nil =>
    have length := stands.length_le
    rw [encodeUtf8, List.flatMap_nil, List.append_nil] at length
    omega
  | cons c t =>
    obtain ⟨b, v, first⟩ := List.exists_cons_of_ne_nil (encode_ne_nil c)
    have next : bytes ++ [b] <+: bytes ++ encodeUtf8 (c :: t) := by
      rw [encodeUtf8, List.flatMap_cons, first]
      exact ⟨v ++ encodeUtf8 t, by simp [encodeUtf8]⟩
    have inside : bytes ++ [b] <+: front := by
      apply List.prefix_of_prefix_length_le next stands
      rw [List.length_append, List.length_singleton]
      omega
    obtain ⟨c', opened⟩ := opens
    exact not_opens_of_first first some_byte ⟨c', inside.trans opened⟩

theorem Broken.before_text (h : Broken part rest) (u : List Char) :
    Broken part (rest ++ encodeUtf8 u) := by
  have some_byte : part ++ rest ≠ [] := by simp [h.some_byte]
  have within {front : List UInt8} (stands : front <+: part ++ (rest ++ encodeUtf8 u))
      (opens : OpensCharacter front) : front <+: part ++ rest := by
    rw [← List.append_assoc] at stands
    exact front_within stands some_byte opens
  refine ⟨?_, h.some_byte, h.opens, ?_⟩
  · intro c stands
    exact h.no_character c (within stands ⟨c, List.prefix_rfl⟩)
  · intro front stands opens
    exact h.longest front (within stands opens) opens

theorem Decodes.before_text (h : Decodes bytes t) (u : List Char) :
    Decodes (bytes ++ encodeUtf8 u) (t ++ u) := by
  induction h with
  | nil => exact decodes_encodeUtf8 u
  | char c _ ih =>
    rw [List.append_assoc]
    exact .char c ih
  | broken here _ ih =>
    rw [List.append_assoc]
    exact .broken (here.before_text u) ih

theorem Decodes.behind_text (h : Decodes bytes t) (s : List Char) :
    Decodes (encodeUtf8 s ++ bytes) (s ++ t) := by
  induction s with
  | nil => exact h
  | cons c s ih =>
    have parts : encodeUtf8 (c :: s) = String.utf8EncodeChar c ++ encodeUtf8 s := List.flatMap_cons
    rw [parts, List.append_assoc]
    exact .char c ih

/-- Between two texts, bytes stand for what they stand for alone. -/
theorem Decodes.between_texts (h : Decodes bytes t) (s u : List Char) :
    Decodes (encodeUtf8 s ++ bytes ++ encodeUtf8 u) (s ++ t ++ u) :=
  (h.behind_text s).before_text u

end Decodes

end SourceSpecs.Text

namespace SourceSpecs.FileReport

open Text

/-- Damage stays local. Bytes in a file stand for one and the same text, whatever texts stand around
    them: the characters that they hold, and a replacement character for each maximal part of a
    broken sequence. The file is answered as the three texts together are, the line endings folded. -/
theorem answer_of_damaged (bytes : List UInt8) :
    ∃ x, (∀ t, Decodes bytes t ↔ t = x) ∧ (∀ y, bytes = encodeUtf8 y → x = y) ∧
      ∀ (s u : List Char) (w : Workspace) (path : String) (project : Option String) (limit : Int)
          (place : Place), w.locateSource path project = .ok place → IsSource place →
        Holds w place (encodeUtf8 s ++ bytes ++ encodeUtf8 u) →
        (encodeUtf8 s ++ bytes ++ encodeUtf8 u).length ≤ limit →
        ∃ t, (∀ t', Folds (s ++ x ++ u) t' ↔ t' = t) ∧ answer w path project limit =
          (Tool.parseSpecs.answer w (String.ofList t)).map (withFile place) := by
  refine ⟨decodeUtf8 bytes, ?_, ?_, ?_⟩
  · intro t
    rw [decodes_iff, eq_comm]
  · rintro y rfl
    exact decodes_iff.1 (decodes_encodeUtf8 y)
  · intro s u w path project limit place resolved source file fits
    have decodes := (decodes_iff.2 rfl : Decodes bytes (decodeUtf8 bytes)).between_texts s u
    refine ⟨foldEndings (s ++ decodeUtf8 bytes ++ u), ?_, ?_⟩
    · intro t
      rw [folds_iff, eq_comm]
    · exact answer_of_stores resolved file source fits ⟨_, decodes, folds_iff.2 rfl⟩

def cutSign : List UInt8 := encodeUtf8 "type A = B".toList ++ [0xE2, 0x82] ++ encodeUtf8 ";\n".toList

theorem answer_of_cutSign :
    answer (onlyFile cutSign) "/a.ts" none 14 =
      (Tool.parseSpecs.answer (onlyFile cutSign) "type A = B\uFFFD;\n").map (withFile ["a.ts"]) := by
  obtain ⟨x, alone, _, reads⟩ := answer_of_damaged [0xE2, 0x82]
  obtain ⟨t, folded, answered⟩ := reads "type A = B".toList ";\n".toList (onlyFile cutSign) "/a.ts"
    none 14 ["a.ts"] (onlyFile_resolved cutSign) isSource_lineFile rfl (by decide)
  have replaced : ['\uFFFD'] = x := (alone ['\uFFFD']).1 (decodes_iff.2 (by decide))
  have text : "type A = B\uFFFD;\n".toList = t := by
    rw [← folded, ← replaced]
    exact folds_iff.2 (by decide)
  rw [answered, ← text, String.ofList_toList]

end SourceSpecs.FileReport
