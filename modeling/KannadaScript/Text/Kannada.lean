/-!
# The Kannada script

The classes of code points that words and numbers are written in: the ten Kannada digits, and the
letters, which are the rest of the Kannada block together with the Vedic extensions.

Letters are a matter of blocks and not of properties of characters. Vowel signs and the virama,
which stand only behind other letters, are letters here, and so are the code points of the block
that are not assigned.
-/

namespace KannadaScript.Kannada

/-- The code point of the digit zero. -/
def zero : Nat := 0x0CE6

/-- The code point of the digit nine. -/
def nine : Nat := 0x0CEF

/-- The ten digits. -/
def isDigit (cp : Nat) : Bool := zero ≤ cp && cp ≤ nine

/-- The Kannada block without its digits, and the Vedic extensions. -/
def isLetter (cp : Nat) : Bool :=
  (0x0C80 ≤ cp && cp ≤ 0x0CFF && !isDigit cp) || (0x1CD0 ≤ cp && cp ≤ 0x1CFA)

/-- What a word is made of after its first letter. -/
def isWordPart (cp : Nat) : Bool := isLetter cp || isDigit cp

/-- The value of a digit. -/
def digitValue (cp : Nat) : Nat := cp - zero

end KannadaScript.Kannada
