/-!
# Numbers, columns and lines

How texts are laid out for a reader: numbers as plain decimals or flush right in a column, runs of
blanks, and the division of a text into numbered lines.

A number that is wider than its column is not cut; it moves what follows to the right. Lines end
with a line feed or with a carriage return and a line feed, and they are numbered from one. A text
that ends with a line end has no empty line behind it, so its lines are as many as its line feeds.
-/

namespace KannadaScript.Text

/-! ### Numbers and blanks -/

/-- The decimal text of an integer, with a minus sign when it is negative. -/
def decimal (n : Int) : String :=
  if n < 0 then "-" ++ n.natAbs.repr else n.natAbs.repr

/-- `n` blanks. -/
def blanks (n : Nat) : String := String.ofList (List.replicate n ' ')

/-- The decimal text of `n`, flush right in a column of the given width. -/
def flushRight (width n : Nat) : String := blanks (width - n.repr.length) ++ n.repr

/-! ### Lines -/

/-- The lines of a text: a line feed ends a line, a carriage return just before it belongs to
the line end, and what follows the last line feed is a line unless it is empty. -/
def linesOf : List Char → List (List Char)
  | [] => []
  | '\r' :: '\n' :: rest => [] :: linesOf rest
  | '\n' :: rest => [] :: linesOf rest
  | c :: rest =>
    match linesOf rest with
    | [] => [[c]]
    | line :: lines => (c :: line) :: lines

/-- The line with the given number, counted from one. -/
def line? (s : String) (number : Nat) : Option String :=
  if number = 0 then none else ((linesOf s.toList)[number - 1]?).map String.ofList

end KannadaScript.Text
