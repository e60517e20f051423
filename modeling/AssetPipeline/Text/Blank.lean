import AssetPipeline.Text.Unprintable

/-! White space: the characters that leave a text empty to its reader. -/

namespace AssetPipeline.Text

def blanks : Ranges :=
  [(0x09, 0x0D), (0x20, 0x20), (0x85, 0x85), (0xA0, 0xA0), (0x1680, 0x1680), (0x2000, 0x200A),
   (0x2028, 0x2029), (0x202F, 0x202F), (0x205F, 0x205F), (0x3000, 0x3000)]

/-- A text of white space alone. -/
def isBlank (text : String) : Bool :=
  text.toList.all blanks.contains

theorem blanks_ascending : blanks.ascending = true := by decide

end AssetPipeline.Text
