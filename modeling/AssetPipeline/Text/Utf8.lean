/-! Texts as bytes, and bytes read as text. Not all bytes are those of a text. Where they are not, the
reader goes on behind the bytes that could still have become a character, or behind one byte if none
could. -/

namespace AssetPipeline

/-- The bytes of a text. -/
def utf8Bytes (text : String) : List UInt8 :=
  text.toUTF8.data.toList

namespace Utf8

/-- The character whose bytes stand in front. -/
def front? (bytes : List UInt8) : Option Char :=
  bytes.toByteArray.utf8DecodeChar? 0

/-- Where the bytes lie that follow the first byte of a character, each between two bounds. -/
def followers (first : UInt8) : List (UInt8 × UInt8) :=
  let tail := (0x80, 0xBF)
  if 0xC2 ≤ first ∧ first ≤ 0xDF then [tail]
  else if first = 0xE0 then [(0xA0, 0xBF), tail]
  else if first = 0xED then [(0x80, 0x9F), tail]
  else if 0xE1 ≤ first ∧ first ≤ 0xEF then [tail, tail]
  else if first = 0xF0 then [(0x90, 0xBF), tail, tail]
  else if first = 0xF4 then [(0x80, 0x8F), tail, tail]
  else if 0xF1 ≤ first ∧ first ≤ 0xF3 then [tail, tail, tail]
  else []

/-- How many bytes in front lie where they should. -/
def countWithin : List (UInt8 × UInt8) → List UInt8 → Nat
  | (low, high) :: bounds, b :: bytes =>
    if low ≤ b ∧ b ≤ high then countWithin bounds bytes + 1 else 0
  | _, _ => 0

/-- What bytes are read as, after so many that are passed over: characters, and nothing for each run of
bytes that is none. -/
def readFrom : (passed : Nat) → List UInt8 → List (Option Char)
  | _, [] => []
  | passed + 1, _ :: bytes => readFrom passed bytes
  | 0, b :: bytes =>
    match front? (b :: bytes) with
    | some c => some c :: readFrom (c.utf8Size - 1) bytes
    | none => none :: readFrom (countWithin (followers b) bytes) bytes

def read (bytes : List UInt8) : List (Option Char) :=
  readFrom 0 bytes

end Utf8

end AssetPipeline
