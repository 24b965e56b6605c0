import IncludeScan.Outline
import IncludeScan.Text.Utf8

/-!
# Content — a source file as it is handed in

A source file is handed in as a text, or as bytes that are read as UTF-8.  A byte order mark is
dropped from bytes only: in front of a text it is a character like any other.
-/

namespace IncludeScan

/-- What a source file holds. -/
inductive Content where
  | text (s : String)
  | bytes (bs : List UInt8)
deriving DecidableEq, Repr

namespace Content

/-- The text of a source file. -/
def decoded : Content → String
  | .text s => s
  | .bytes bs => Text.Utf8.decode bs

/-- The tokens of a source file. -/
def tokenize (c : Content) : Tokenization := IncludeScan.tokenize c.decoded

/-- The outline of a source file, or the reason why it cannot be cut into tokens. -/
def outline (c : Content) : Except ScanError Outline := Outline.ofText c.decoded

end Content

end IncludeScan
