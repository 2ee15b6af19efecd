import KannadaScript.Text.Layout

/-!
# Tokens

A token is a lexeme and the line on which it starts. Keywords and marks are closed lists with their
spellings; names, numbers and texts carry a value. Input that is no lexeme becomes a malformed token
that carries its fault, so that a scan can go on after it.

A number carries the value that it has in 32 bits, and not its digits, and a text carries what
stands between its quotes. So tokens do not tell how they were spelled: a number with zeros in front
is the same token as the one without them.

`Lexeme.describe` is the wording in which every message about a token names it. Keywords are
described by their spelling and by what they mean.
-/

namespace KannadaScript

/-! ### Keywords -/

/-- The reserved words. -/
inductive Keyword where
  | ifWord
  | elseWord
  | whileWord
  | printWord
  | trueWord
  | falseWord
  | noneWord
deriving DecidableEq, Repr

namespace Keyword

/-- Every reserved word. -/
def all : List Keyword :=
  [.ifWord, .elseWord, .whileWord, .printWord, .trueWord, .falseWord, .noneWord]

/-- The word as it stands in a source text. -/
def spelling : Keyword → String
  | .ifWord => "ಯದಿ"
  | .elseWord => "ಅನ್ಯಥಾ"
  | .whileWord => "ಆಗಿರುವ"
  | .printWord => "ಮುದ್ರಿಸು"
  | .trueWord => "ನಿಜ"
  | .falseWord => "ಸುಳ್ಳು"
  | .noneWord => "ಶೂನ್ಯ"

/-- The meaning that messages give beside the spelling. -/
def gloss : Keyword → String
  | .ifWord => "if"
  | .elseWord => "else"
  | .whileWord => "while"
  | .printWord => "print"
  | .trueWord => "true"
  | .falseWord => "false"
  | .noneWord => "none"

/-- The reserved word with the given spelling. -/
def ofSpelling? (text : String) : Option Keyword := all.find? (·.spelling == text)

end Keyword

/-! ### Marks -/

/-- Operators and delimiters. -/
inductive Mark where
  | plus
  | minus
  | star
  | slash
  | assign
  | equal
  | openParen
  | closeParen
  | openBrace
  | closeBrace
  | semicolon
deriving DecidableEq, Repr

namespace Mark

/-- The mark as it stands in a source text. -/
def spelling : Mark → String
  | .plus => "+"
  | .minus => "-"
  | .star => "*"
  | .slash => "/"
  | .assign => "="
  | .equal => "=="
  | .openParen => "("
  | .closeParen => ")"
  | .openBrace => "\x7b"
  | .closeBrace => "\x7d"
  | .semicolon => ";"

/-- The mark that a single byte spells. -/
def ofByte? : UInt8 → Option Mark
  | 0x2B => some .plus
  | 0x2D => some .minus
  | 0x2A => some .star
  | 0x2F => some .slash
  | 0x3D => some .assign
  | 0x28 => some .openParen
  | 0x29 => some .closeParen
  | 0x7B => some .openBrace
  | 0x7D => some .closeBrace
  | 0x3B => some .semicolon
  | _ => none

end Mark

/-! ### Faults of the input -/

/-- The greatest number of bytes in a name. -/
def maxNameBytes : Nat := 255

/-- Why a piece of input is no lexeme. -/
inductive Fault where
  /-- A character that starts no lexeme. -/
  | unexpected (c : Char)
  /-- A quote that is never closed. -/
  | unterminated
  /-- A name of more than `maxNameBytes` bytes. -/
  | nameTooLong
  /-- A word whose bytes are not text. -/
  | nameNotText
  /-- A fault in the words of whoever made the token. -/
  | reported (message : String)
deriving DecidableEq, Repr

/-- The wording of a fault. -/
def Fault.message : Fault → String
  | .unexpected c => "Unexpected character: '" ++ c.toString ++ "'"
  | .unterminated => "Unterminated string literal"
  | .nameTooLong => "Identifier exceeds maximum length of " ++ maxNameBytes.repr ++ " bytes"
  | .nameNotText => "Invalid UTF-8 sequence in identifier"
  | .reported message => message

/-! ### Lexemes and tokens -/

/-- What a token is, apart from where it stands. -/
inductive Lexeme where
  | endOfFile
  | malformed (fault : Fault)
  | name (text : String)
  | number (value : Int32)
  | quoted (value : String)
  | keyword (word : Keyword)
  | mark (mark : Mark)
deriving DecidableEq, Repr

/-- How messages name a lexeme. -/
def Lexeme.describe : Lexeme → String
  | .endOfFile => "end of file"
  | .malformed fault => "invalid token (" ++ fault.message ++ ")"
  | .name s => "identifier '" ++ s ++ "'"
  | .number n => "number " ++ Text.decimal n.toInt
  | .quoted s => "string literal \"" ++ s ++ "\""
  | .keyword k => "'" ++ k.spelling ++ "' (" ++ k.gloss ++ ")"
  | .mark m => "'" ++ m.spelling ++ "'"

/-- A lexeme and the line, counted from one, on which it starts. -/
structure Token where
  lexeme : Lexeme
  line : Nat
deriving DecidableEq, Repr

/-- The first malformed token of a scan. -/
structure LexicalError where
  fault : Fault
  line : Nat
deriving DecidableEq, Repr

/-- The wording of a scan that stopped at a malformed token. -/
def LexicalError.message (e : LexicalError) : String :=
  "Lexer error at line " ++ e.line.repr ++ ": " ++ e.fault.message

end KannadaScript
