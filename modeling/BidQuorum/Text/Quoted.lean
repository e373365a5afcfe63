import BidQuorum.Text.Glyphless

set_option autoImplicit false

/-! # Quoted text

A log line names texts that a peer chose, so it quotes them: the text stands between double quotes,
and whatever could be mistaken for the end of it, or not be seen at all, is written by an escape. -/

namespace BidQuorum.Quoted

/-- How one character is written between the quotes. -/
def escape (c : Char) : List Char :=
  match c with
  | '\x00' => ['\\', '0']
  | '\t' => ['\\', 't']
  | '\n' => ['\\', 'n']
  | '\r' => ['\\', 'r']
  | '"' => ['\\', '"']
  | '\\' => ['\\', '\\']
  | c => if isGlyphless c then ['\\', 'u', '\x7b'] ++ Nat.toDigits 16 c.toNat ++ ['\x7d'] else [c]

/-- The text between double quotes. -/
def text (s : String) : String := String.ofList ('"' :: s.toList.flatMap escape ++ ['"'])

/-- The texts, each quoted, between square brackets. -/
def list (texts : List String) : String := "[" ++ ", ".intercalate (texts.map text) ++ "]"

end BidQuorum.Quoted
