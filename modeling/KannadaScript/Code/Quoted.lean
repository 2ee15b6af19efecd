/-!
# Quoted literals

A literal of the written code stands between double quotes. Inside it a backslash announces itself,
a quote, or one of the three control characters that have a letter of their own; every other
character stands for itself.

Other control characters and characters beyond ASCII are not escaped. They stand in the code as they
stand in the text, in the encoding of the whole file.
-/

namespace KannadaScript.Code

/-- A character as it stands inside a literal. -/
def escapeChar (c : Char) : List Char :=
  if c = '\\' then ['\\', '\\']
  else if c = '"' then ['\\', '"']
  else if c = '\n' then ['\\', 'n']
  else if c = '\t' then ['\\', 't']
  else if c = '\r' then ['\\', 'r']
  else [c]

/-- A text as it stands inside a literal. -/
def escape (s : String) : String := String.ofList (s.toList.flatMap escapeChar)

/-- A text as a literal, with its quotes. -/
def literal (s : String) : String := "\"" ++ escape s ++ "\""

end KannadaScript.Code
