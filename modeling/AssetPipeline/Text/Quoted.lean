import AssetPipeline.Text.Unprintable

/-! Text in double quotes, as messages show it: what a reader could not see or tell apart is spelled
out. -/

namespace AssetPipeline.Text

/-- A character by its number. -/
def numbered (c : Char) : List Char :=
  ['\\', 'u', '{'] ++ Nat.toDigits 16 c.toNat ++ ['}']

/-- A character as it stands between double quotes. -/
def shown (c : Char) : List Char :=
  match c with
  | '\x00' => ['\\', '0']
  | '\t' => ['\\', 't']
  | '\n' => ['\\', 'n']
  | '\r' => ['\\', 'r']
  | '"' => ['\\', '"']
  | '\\' => ['\\', '\\']
  | c =>
    if combining.contains c || unprintable.contains c || fillers.contains c then numbered c
    else [c]

def quoted (text : String) : String :=
  String.ofList ('"' :: text.toList.flatMap shown ++ ['"'])

end AssetPipeline.Text
