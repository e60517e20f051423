import AssetPipeline.Text.Chars
import AssetPipeline.Text.Utf8

/-! Names and paths as the system holds them. They are bytes; only a slash and a zero byte mean anything,
and the others need not be those of a text. -/

namespace AssetPipeline

@[ext] structure RawPath where
  bytes : List UInt8
  deriving DecidableEq

namespace RawPath

def slash : UInt8 := 0x2F

/-- The path that a text spells. -/
@[coe] def ofString (text : String) : RawPath :=
  ⟨utf8Bytes text⟩

instance : Coe String RawPath := ⟨ofString⟩

def size (path : RawPath) : Nat :=
  path.bytes.length

/-- The segments of a path, the empty ones between adjacent slashes included. -/
def segments (path : RawPath) : List RawPath :=
  (Chars.splitOn slash path.bytes).map mk

/-- The path of names, one below the other. -/
def join (names : List RawPath) : RawPath :=
  ⟨[slash].intercalate (names.map bytes)⟩

/-- A path as text. Bytes that are no text show as replacement characters. -/
def shown (path : RawPath) : String :=
  String.ofList ((Utf8.read path.bytes).map (·.getD '\uFFFD'))

/-- The text that spells a path, if one does. -/
def text? (path : RawPath) : Option String :=
  if (Utf8.read path.bytes).all (·.isSome) then some path.shown else none

end RawPath

end AssetPipeline
