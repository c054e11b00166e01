import HeapDump.Text.Hex
import HeapDump.Text.Printable

/-! Quoted text in messages.  A quoted text stands between double quotes; a double quote and a
backslash in it have a backslash in front, and NUL, tab, line feed and carriage return are written
`\0`, `\t`, `\n` and `\r`.  Any other character that is not printable is written by its code as
`\u{1f}`. -/

namespace HeapDump.Text.Quoted

/-- A character by its code. -/
def byCode (c : Char) : String :=
  "\\u\x7b" ++ hexLower c.toNat ++ "\x7d"

def escape (c : Char) : String :=
  if c = '"' then "\\\""
  else if c = '\\' then "\\\\"
  else if c = '\x00' then "\\0"
  else if c = '\t' then "\\t"
  else if c = '\n' then "\\n"
  else if c = '\r' then "\\r"
  else if Printable.isPrintable c then c.toString
  else byCode c

def quote (text : String) : String :=
  "\"" ++ String.join (text.toList.map escape) ++ "\""

end HeapDump.Text.Quoted
