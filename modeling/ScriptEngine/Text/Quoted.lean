import ScriptEngine.Text.Printable

/-!
# Quoted text

The written form of a string inside source-like output and inside messages: double quotes around
it, and a backslash escape for every character that may not stand as it is.

## Main definitions

* `ScriptEngine.Text.escapeChar`: the written form of one character;
* `ScriptEngine.Text.quoted`: the written form of a string.
-/

namespace ScriptEngine.Text

/-- The lower-case hexadecimal digits of a number, without leading zeros. -/
def hexDigits (n : Nat) : String :=
  String.ofList (Nat.toDigits 16 n)

/-- **One character inside quotes**: five short escapes, the characters that are printable as they
are, and the code point in braces for the rest. -/
def escapeChar (c : Char) : String :=
  match c with
  | '"' => "\\\""
  | '\\' => "\\\\"
  | '\n' => "\\n"
  | '\t' => "\\t"
  | '\r' => "\\r"
  | '\x00' => "\\0"
  | c => if isPrintable c then c.toString else "\\u\x7b" ++ hexDigits c.toNat ++ "\x7d"

/-- **Quoted text**: the escapes of the characters in order, between double quotes. -/
def quoted (s : String) : String :=
  "\"" ++ String.join (s.toList.map escapeChar) ++ "\""

end ScriptEngine.Text
