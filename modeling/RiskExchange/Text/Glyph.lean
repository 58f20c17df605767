/-! # Glyphs — a file's bytes read as characters and stray bytes

    A solver file or a store may hold bytes that are not UTF-8. Outside strings
    they are malformed, inside a string they spoil that string only, and in a
    value that is skipped they do no harm; so they are kept. Valid text is its
    characters and nothing else. -/

namespace RiskExchange.Text

/-- A character, or a byte that belongs to none. -/
inductive Glyph where
  | char (c : Char)
  | stray (byte : UInt8)
  deriving DecidableEq, Repr

/-- How many bytes the glyph takes in a file. -/
def Glyph.octets : Glyph → Nat
  | .char c => c.utf8Size
  | .stray _ => 1

/-- The glyphs of a text. -/
def glyphsOf (s : String) : List Glyph := s.toList.map .char

/-- The glyphs from a byte position on: the character encoded there, or else
    one stray byte. -/
def glyphsFrom (bytes : ByteArray) (i : Nat) : List Glyph :=
  if h : i < bytes.size then
    match bytes.utf8DecodeChar? i with
    | some c => .char c :: glyphsFrom bytes (i + c.utf8Size)
    | none => .stray bytes[i] :: glyphsFrom bytes (i + 1)
  else []
termination_by bytes.size - i
decreasing_by
  · have := c.utf8Size_pos; omega
  · omega

/-- The glyphs of a file. -/
def glyphs (bytes : ByteArray) : List Glyph :=
  match String.fromUTF8? bytes with
  | some s => glyphsOf s
  | none => glyphsFrom bytes 0

end RiskExchange.Text
