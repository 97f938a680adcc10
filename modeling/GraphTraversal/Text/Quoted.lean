import GraphTraversal.Text.Unprintable

/-! # Quoted text

A quoted text stands between double quotes.  Inside, the quote, the backslash and four controls have
short escapes, and every unprintable character is spelled by its code point in hexadecimal.
-/

namespace GraphTraversal.Text

def escape (c : Char) : List Char :=
  match c with
  | '\x00' => ['\\', '0']
  | '\t' => ['\\', 't']
  | '\r' => ['\\', 'r']
  | '\n' => ['\\', 'n']
  | '"' => ['\\', '"']
  | '\\' => ['\\', '\\']
  | c =>
    if isUnprintable c then ['\\', 'u', '\x7b'] ++ Nat.toDigits 16 c.toNat ++ ['\x7d']
    else [c]

def quote (s : String) : String :=
  String.ofList ('"' :: s.toList.flatMap escape ++ ['"'])

end GraphTraversal.Text
