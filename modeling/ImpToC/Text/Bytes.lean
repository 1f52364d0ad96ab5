/-!
Texts as bytes in UTF-8, read strictly or leniently. The lenient reading puts a
replacement character for every longest beginning of a character that does not
go on as it has to.
-/
namespace ImpToC

abbrev Bytes := List UInt8

namespace Bytes

def ofText (text : String) : Bytes := text.toUTF8.data.toList

/-- The text, if the bytes are those of one. -/
def toText? (bytes : Bytes) : Option String := String.fromUTF8? ⟨bytes.toArray⟩

/-- A character some of whose bytes are still missing: its value so far, how
many bytes it needs, and the range of the next one. -/
structure Pending where
  value : Nat
  missing : Nat
  low : UInt8
  high : UInt8
  deriving DecidableEq, Repr

def replacement : Char := '�'

/-- The first byte of a character: what it gives at once and what it opens. The
ranges leave out overlong forms, surrogates and what lies above the last
character. -/
def first (b : UInt8) : List Char × Option Pending :=
  if b < 0x80 then ([Char.ofNat b.toNat], none)
  else if b < 0xC2 then ([replacement], none)
  else if b < 0xE0 then ([], some ⟨b.toNat - 0xC0, 1, 0x80, 0xBF⟩)
  else if b = 0xE0 then ([], some ⟨0, 2, 0xA0, 0xBF⟩)
  else if b = 0xED then ([], some ⟨0xD, 2, 0x80, 0x9F⟩)
  else if b < 0xF0 then ([], some ⟨b.toNat - 0xE0, 2, 0x80, 0xBF⟩)
  else if b = 0xF0 then ([], some ⟨0, 3, 0x90, 0xBF⟩)
  else if b < 0xF4 then ([], some ⟨b.toNat - 0xF0, 3, 0x80, 0xBF⟩)
  else if b = 0xF4 then ([], some ⟨4, 3, 0x80, 0x8F⟩)
  else ([replacement], none)

/-- One more byte. A byte that does not go on with the open character begins a
new one. -/
def step (pending : Option Pending) (b : UInt8) : List Char × Option Pending :=
  match pending with
  | none => first b
  | some p =>
    if p.low ≤ b && b ≤ p.high then
      let value := p.value * 64 + (b.toNat - 0x80)
      if p.missing ≤ 1 then ([Char.ofNat value], none)
      else ([], some ⟨value, p.missing - 1, 0x80, 0xBF⟩)
    else
      let (out, open_) := first b
      (replacement :: out, open_)

def decodeFrom (pending : Option Pending) : Bytes → List Char
  | [] =>
    match pending with
    | none => []
    | some _ => [replacement]
  | b :: bs =>
    let (out, pending) := step pending b
    out ++ decodeFrom pending bs

/-- The lenient reading. -/
def toTextLossy (bytes : Bytes) : String := String.ofList (decodeFrom none bytes)

end Bytes

end ImpToC
