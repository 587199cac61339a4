/-!
Texts as UTF-8 bytes. Reading never fails: every maximal part of a broken sequence is read as one
replacement character.
-/
namespace SourceSpecs.Text

def encodeUtf8 (t : List Char) : List UInt8 := t.flatMap String.utf8EncodeChar

namespace Utf8

def replacement : Char := '\uFFFD'

/-- A sequence under way: how many bytes it still needs, the bits read so far, and the range of
    its next byte. -/
structure Pending where
  need : Nat
  bits : Nat
  low : UInt8
  high : UInt8

/-- What a byte starts: a character of its own, a longer sequence, or nothing readable. The range of
    the second byte leaves out overlong forms, surrogates and values above U+10FFFF. -/
def start (b : UInt8) : List Char × Option Pending :=
  if b < 0x80 then ([Char.ofNat b.toNat], none)
  else if b < 0xC2 then ([replacement], none)
  else if b < 0xE0 then ([], some ⟨1, b.toNat - 0xC0, 0x80, 0xBF⟩)
  else if b < 0xF0 then
    ([], some ⟨2, b.toNat - 0xE0, if b = 0xE0 then 0xA0 else 0x80, if b = 0xED then 0x9F else 0xBF⟩)
  else if b < 0xF5 then
    ([], some ⟨3, b.toNat - 0xF0, if b = 0xF0 then 0x90 else 0x80, if b = 0xF4 then 0x8F else 0xBF⟩)
  else ([replacement], none)

/-- Reads one byte. A byte that does not fit ends the sequence under way and is read afresh. -/
def step (pending : Option Pending) (b : UInt8) : List Char × Option Pending :=
  match pending with
  | none => start b
  | some p =>
    if p.low ≤ b ∧ b ≤ p.high then
      let bits := p.bits * 64 + (b.toNat - 0x80)
      if p.need ≤ 1 then ([Char.ofNat bits], none)
      else ([], some ⟨p.need - 1, bits, 0x80, 0xBF⟩)
    else
      let (out, next) := start b
      (replacement :: out, next)

structure Reading where
  read : List Char
  pending : Option Pending

def Reading.push (r : Reading) (b : UInt8) : Reading :=
  let (out, next) := step r.pending b
  ⟨out.reverse ++ r.read, next⟩

def Reading.finish (r : Reading) : List Char :=
  (match r.pending with
    | none => r.read
    | some _ => replacement :: r.read).reverse

end Utf8

def decodeUtf8 (bytes : List UInt8) : List Char :=
  (bytes.foldl Utf8.Reading.push ⟨[], none⟩).finish

end SourceSpecs.Text
