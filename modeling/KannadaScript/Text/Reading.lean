/-!
# Reading code points from bytes

A source text reaches the scanner as bytes, and the scanner looks at the code point that starts
at its cursor. The reading is decided by the first byte alone: it announces a width, the bytes
that follow contribute six bits each, and a sequence cut short by the end of the bytes reads as
U+FFFD. On the encoding of a character this gives the character back; on any other bytes it
still gives some code point and a width of at least one, so a cursor inside a character can
always move on.

`run` collects the longest run of readings whose code points belong to a class. It recurses on
the bytes themselves: the bytes that a reading covers are skipped one at a time.
-/

namespace KannadaScript

/-- A code point and the number of bytes it was read from. -/
structure Reading where
  /-- The code point; not always a scalar value. -/
  codePoint : Nat
  /-- The number of bytes covered. -/
  width : Nat
deriving DecidableEq, Repr

namespace Reading

/-- The code point of a sequence that the end of the bytes cuts short. -/
def replacement : Nat := 0xFFFD

/-- The number of bytes that `lead` announces, itself included. -/
def announced (lead : UInt8) : Nat :=
  if lead < 0x80 then 1 else if lead < 0xE0 then 2 else if lead < 0xF0 then 3 else 4

/-- The bits that `lead` contributes to its code point. -/
def leadBits (lead : UInt8) : Nat :=
  if lead < 0x80 then lead.toNat
  else if lead < 0xE0 then lead.toNat % 32
  else if lead < 0xF0 then lead.toNat % 16
  else lead.toNat % 8

/-- Append the six low bits of a following byte to a code point. -/
def extend (codePoint : Nat) (b : UInt8) : Nat := codePoint * 64 + b.toNat % 64

/-- The reading that starts with `lead`, where `rest` are the bytes after it. -/
def ofLead (lead : UInt8) (rest : List UInt8) : Reading :=
  let tail := rest.take (announced lead - 1)
  { codePoint :=
      if tail.length + 1 = announced lead then tail.foldl extend (leadBits lead)
      else replacement
    width := tail.length + 1 }

/-- The reading at the head of the bytes, if there are any. -/
def first? : List UInt8 → Option Reading
  | [] => none
  | lead :: rest => some (ofLead lead rest)

/-- The longest run of readings with code points in `p`, after `skip` bytes. -/
def runAfter (p : Nat → Bool) : (skip : Nat) → List UInt8 → List Reading
  | _, [] => []
  | skip + 1, _ :: rest => runAfter p skip rest
  | 0, lead :: rest =>
    let r := ofLead lead rest
    if p r.codePoint then r :: runAfter p (r.width - 1) rest else []

/-- The longest run of readings at the head of the bytes with code points in `p`. -/
def run (p : Nat → Bool) (bytes : List UInt8) : List Reading := runAfter p 0 bytes

/-- The number of bytes that a run covers. -/
def span : List Reading → Nat
  | [] => 0
  | r :: rs => r.width + span rs

/-! ### Equations -/

theorem runAfter_eq_run_drop (p : Nat → Bool) (skip : Nat) (bytes : List UInt8) :
    runAfter p skip bytes = run p (bytes.drop skip) := by
  induction bytes generalizing skip with
  | nil => simp [run, runAfter]
  | cons lead rest ih =>
    cases skip with
    | zero => rfl
    | succ skip => simpa [runAfter] using ih skip

theorem run_cons (p : Nat → Bool) (lead : UInt8) (rest : List UInt8) :
    run p (lead :: rest) =
      if p (ofLead lead rest).codePoint then
        ofLead lead rest :: run p (rest.drop ((ofLead lead rest).width - 1))
      else [] := by
  simp only [run, runAfter]
  rw [runAfter_eq_run_drop]
  rfl

theorem width_ofLead (lead : UInt8) (rest : List UInt8) :
    (ofLead lead rest).width = min (announced lead - 1) rest.length + 1 := by
  simp [ofLead]

end Reading

end KannadaScript
