import KannadaScript.Text.Bytes
import KannadaScript.Text.Kannada
import KannadaScript.Token.Basic

/-!
# Scanning

A cursor is the bytes not yet scanned and the line that they start on. Every move of a cursor
goes through `Cursor.advance`, which counts the line feeds among the bytes it passes; so the
line is always one more than the number of line feeds before the cursor.

`Lexeme.scan` says which lexeme starts at a byte that is no blank, and how many bytes it covers.
It never fails: an unexpected character is a malformed lexeme of one byte, even when the
character has more, and the next reading then starts inside the character.

`Cursor.next` skips blanks and scans one token; at the end of the bytes it gives the end-of-file
token again and again. `Cursor.tokens` scans up to the end of file, or to the first malformed
token; in both cases the cursor that is left stands after the last token scanned.
-/

namespace KannadaScript

/-! ### Single lexemes -/

namespace Lexeme

/-- The byte of a line feed. -/
def lineFeed : UInt8 := 0x0A

/-- The byte of a double quote. -/
def quote : UInt8 := 0x22

/-- Blank, tab, carriage return and line feed separate lexemes. -/
def isBlank (b : UInt8) : Bool := b == 0x20 || b == 0x09 || b == 0x0D || b == lineFeed

/-- The signed 32-bit value of a run of digits, most significant first; overflow wraps. -/
def valueOf (digits : List Reading) : Int32 :=
  digits.foldl (fun v r ↦ v * 10 + Int32.ofNat (Kannada.digitValue r.codePoint)) 0

/-- A number is the longest run of digits. -/
def scanNumber (bytes : List UInt8) : Lexeme × Nat :=
  let digits := Reading.run Kannada.isDigit bytes
  (.number (valueOf digits), Reading.span digits)

/-- What the bytes of a word stand for: a keyword, or else a name. -/
def ofWord (word : List UInt8) : Lexeme :=
  match Text.ofBytes? word with
  | none => .malformed .nameNotText
  | some text =>
    if maxNameBytes < word.length then .malformed .nameTooLong
    else
      match Keyword.ofSpelling? text with
      | some k => .keyword k
      | none => .name text

/-- A word is the longest run of letters and digits. -/
def scanWord (bytes : List UInt8) : Lexeme × Nat :=
  let size := Reading.span (Reading.run Kannada.isWordPart bytes)
  (ofWord (bytes.take size), size)

/-- A quoted text runs to the next quote, whatever lies between; `rest` are the bytes after the
opening quote. Bytes that are no text, which only a cursor inside a character can meet, stand for
the empty text. -/
def scanQuoted (rest : List UInt8) : Lexeme × Nat :=
  let body := rest.takeWhile (· != quote)
  match rest.drop body.length with
  | [] => (.malformed .unterminated, body.length + 1)
  | _ :: _ => (.quoted ((Text.ofBytes? body).getD ""), body.length + 2)

/-- The character with the given code point; U+FFFD if there is none. -/
def charOf (cp : Nat) : Char := if cp.isValidChar then Char.ofNat cp else '\uFFFD'

/-- A mark, or a malformed lexeme of one byte. `cp` is the code point read at `lead`. -/
def scanMark (cp : Nat) (lead : UInt8) (rest : List UInt8) : Lexeme × Nat :=
  match Mark.ofByte? lead with
  | some .assign => if rest.head? = some 0x3D then (.mark .equal, 2) else (.mark .assign, 1)
  | some m => (.mark m, 1)
  | none => (.malformed (.unexpected (charOf cp)), 1)

/-- The lexeme that starts at `lead`, with the number of bytes it covers. -/
def scan (lead : UInt8) (rest : List UInt8) : Lexeme × Nat :=
  let cp := (Reading.ofLead lead rest).codePoint
  if Kannada.isDigit cp then scanNumber (lead :: rest)
  else if Kannada.isLetter cp then scanWord (lead :: rest)
  else if cp = quote.toNat then scanQuoted rest
  else scanMark cp lead rest

end Lexeme

/-! ### Cursors -/

/-- The bytes not yet scanned, and the line on which they start. -/
structure Cursor where
  rest : List UInt8
  line : Nat
deriving DecidableEq, Repr

namespace Cursor

/-- The cursor at the start of a text. -/
def start (source : String) : Cursor := ⟨Text.bytes source, 1⟩

/-- Move past `n` bytes, counting the lines that end among them. -/
def advance (c : Cursor) (n : Nat) : Cursor :=
  ⟨c.rest.drop n, c.line + (c.rest.take n).count Lexeme.lineFeed⟩

/-- Move past the blanks at the cursor. -/
def skipBlanks (c : Cursor) : Cursor := c.advance (c.rest.takeWhile Lexeme.isBlank).length

/-- The next token, and the cursor after it. -/
def next (c : Cursor) : Token × Cursor :=
  let here := c.skipBlanks
  match here.rest with
  | [] => (⟨.endOfFile, here.line⟩, here)
  | lead :: rest =>
    let (lexeme, size) := Lexeme.scan lead rest
    (⟨lexeme, here.line⟩, here.advance size)

/-- The tokens up to the end of file, or the first malformed one, among the next `calls`. -/
def tokensWithin : (calls : Nat) → EStateM LexicalError Cursor (List Token)
  | 0 => pure []
  | calls + 1 => do
    let token ← modifyGet next
    match token.lexeme with
    | .endOfFile => pure [token]
    | .malformed fault => throw ⟨fault, token.line⟩
    | _ => return token :: (← tokensWithin calls)

/-- The tokens up to and including the end of file, or the first malformed one. Each token but
the last covers a byte, so one call more than there are bytes reaches the end. -/
def tokens : EStateM LexicalError Cursor (List Token) := do
  tokensWithin ((← get).rest.length + 1)

end Cursor

/-- The tokens of a text, the end of file last. -/
def tokenize (source : String) : Except LexicalError (List Token) :=
  match Cursor.tokens (Cursor.start source) with
  | .ok tokens _ => .ok tokens
  | .error e _ => .error e

end KannadaScript
