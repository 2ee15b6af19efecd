import KannadaScript.Text.Reading

/-!
# Text as bytes

`bytes` encodes a text and `ofBytes?` is its partial inverse: it accepts a list of bytes when each
reading, encoded again, gives exactly the bytes that it was read from. Strays, overlong forms,
surrogates and sequences cut short all fail that test.

Decoding is built on the same readings as the scanner, which never fail. The test is what makes the
difference, and nothing else has to be said about malformed bytes: what is wrong with them shows in
that no character is encoded so.

Both are functions of lists. A list of bytes is passed over one by one, with the number of bytes of
the current character that are still to be skipped as an argument, so the recursion is on the list.
-/

namespace KannadaScript.Text

/-- The UTF-8 bytes of a list of characters. -/
def encode (cs : List Char) : List UInt8 := cs.flatMap String.utf8EncodeChar

/-- The UTF-8 bytes of a text. -/
def bytes (s : String) : List UInt8 := encode s.toList

/-- The characters that the bytes after the first `skip` encode. -/
def decodeAfter? : (skip : Nat) → List UInt8 → Option (List Char)
  | _, [] => some []
  | skip + 1, _ :: rest => decodeAfter? skip rest
  | 0, lead :: rest =>
    let r := Reading.ofLead lead rest
    let c := Char.ofNat r.codePoint
    if String.utf8EncodeChar c = (lead :: rest).take r.width then
      (decodeAfter? (r.width - 1) rest).map (c :: ·)
    else none

/-- The text that the bytes encode, if they encode one. -/
def ofBytes? (bs : List UInt8) : Option String := (decodeAfter? 0 bs).map String.ofList

end KannadaScript.Text
