import CountedBTree.Text.Formless

/-!
# Quoted text

A text is written between double quotes. The quote, the backslash, and the line
break, carriage return, tab and null have short forms behind a backslash; any other
character that does not show by itself is written as its number in hexadecimal
digits. All others stand for themselves, the single quote among them.
-/

namespace CountedBTree

namespace Text

/-- How one character is written between quotes. -/
def quotedChar (character : Char) : String :=
  match character with
  | '"' => "\\\""
  | '\\' => "\\\\"
  | '\n' => "\\n"
  | '\r' => "\\r"
  | '\t' => "\\t"
  | '\x00' => "\\0"
  | other =>
      if isFormless other then
        "\\u\x7b" ++ String.ofList (Nat.toDigits 16 other.toNat) ++ "\x7d"
      else String.singleton other

/-- A text between quotes. -/
def quoted (text : String) : String :=
  "\"" ++ String.join (text.toList.map quotedChar) ++ "\""

end Text

end CountedBTree
