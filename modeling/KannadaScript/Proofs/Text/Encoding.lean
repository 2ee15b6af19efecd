import KannadaScript.Text.Bytes
import Mathlib

/-!
# Readings of encoded text

The scanner walks over bytes, and everything said about it is said about characters. The bridge is
the reading of a single encoded character (`Reading.ofLead_of_encode`): it gives the character's
code point and covers exactly its bytes, whatever follows. It is proved by the four lengths that an
encoded character can have (`encodeChar_cases`), once for the first byte, which announces the length
and has the highest bits (`lead_of_encode`), and once for the bytes behind it
(`foldl_extend_of_encode`). From it, by induction on the characters, come the two views that the
scanner needs:

* `Reading.run_encode`: the longest run of code points in a class is the longest run of characters
  in that class;
* `Text.takeWhile_encode`: a class of bytes that never cuts a character open is a class of
  characters.

The second is for blanks and quotes, which the scanner looks for byte by byte. No byte of a longer
character is below 0x80, so a class of such bytes is met only by characters of one byte.

Decoding is then the inverse of encoding (`Text.ofBytes?_encode`), which rests on the same bridge.
Readings of bytes that encode nothing are the subject of `reading_inverts_encoding`.
-/

namespace KannadaScript

/-! ### One character -/

namespace Text

/-- The four shapes of an encoded character. -/
theorem encodeChar_cases (c : Char) :
    c.toNat < 0x80 ∧ String.utf8EncodeChar c = [UInt8.ofNat c.toNat] ∨
    (0x80 ≤ c.toNat ∧ c.toNat < 0x800 ∧
      String.utf8EncodeChar c =
        [UInt8.ofNat (c.toNat / 64 % 32 + 0xC0), UInt8.ofNat (c.toNat % 64 + 0x80)]) ∨
    (0x800 ≤ c.toNat ∧ c.toNat < 0x10000 ∧
      String.utf8EncodeChar c =
        [UInt8.ofNat (c.toNat / 4096 % 16 + 0xE0), UInt8.ofNat (c.toNat / 64 % 64 + 0x80),
          UInt8.ofNat (c.toNat % 64 + 0x80)]) ∨
    (0x10000 ≤ c.toNat ∧ c.toNat < 0x110000 ∧
      String.utf8EncodeChar c =
        [UInt8.ofNat (c.toNat / 262144 % 8 + 0xF0), UInt8.ofNat (c.toNat / 4096 % 64 + 0x80),
          UInt8.ofNat (c.toNat / 64 % 64 + 0x80), UInt8.ofNat (c.toNat % 64 + 0x80)]) := by
  have hvalid := c.valid
  simp only [UInt32.isValidChar, Nat.isValidChar] at hvalid
  have hval : c.toNat = c.val.toNat := rfl
  simp only [String.utf8EncodeChar, hval]
  split
  · exact Or.inl ⟨by omega, rfl⟩
  · split
    · exact Or.inr (Or.inl ⟨by omega, by omega, rfl⟩)
    · split
      · exact Or.inr (Or.inr (Or.inl ⟨by omega, by omega, rfl⟩))
      · exact Or.inr (Or.inr (Or.inr ⟨by omega, by omega, rfl⟩))

end Text

namespace Reading

/-- The reading that a character's own encoding gives. -/
def ofChar (c : Char) : Reading := ⟨c.toNat, (String.utf8EncodeChar c).length⟩

/-- What the first byte of an encoded character announces and contributes. -/
theorem lead_of_encode {c : Char} {lead : UInt8} {tail : List UInt8}
    (h : String.utf8EncodeChar c = lead :: tail) :
    announced lead = tail.length + 1 ∧ leadBits lead = c.toNat / 64 ^ tail.length := by
  rcases Text.encodeChar_cases c with ⟨hn, he⟩ | ⟨hn, hn', he⟩ | ⟨hn, hn', he⟩ | ⟨hn, hn', he⟩
  all_goals
    obtain ⟨rfl, rfl⟩ := List.cons.inj (he.symm.trans h)
    simp only [announced, leadBits, UInt8.lt_iff_toNat_lt, UInt8.toNat_ofNat',
      UInt8.reduceToNat, List.length_cons, List.length_nil]
    constructor <;> (repeat' split) <;> omega

/-- The bytes after the first contribute the rest of the code point. -/
theorem foldl_extend_of_encode {c : Char} {lead : UInt8} {tail : List UInt8}
    (h : String.utf8EncodeChar c = lead :: tail) :
    tail.foldl extend (c.toNat / 64 ^ tail.length) = c.toNat := by
  rcases Text.encodeChar_cases c with ⟨hn, he⟩ | ⟨hn, hn', he⟩ | ⟨hn, hn', he⟩ | ⟨hn, hn', he⟩
  all_goals
    obtain ⟨rfl, rfl⟩ := List.cons.inj (he.symm.trans h)
    simp only [List.foldl_cons, List.foldl_nil, extend, UInt8.toNat_ofNat', List.length_cons,
      List.length_nil]
    omega

/-- **The bridge.** Read at the first byte of an encoded character, the bytes give back the
character and cover exactly its encoding. -/
theorem ofLead_of_encode {c : Char} {lead : UInt8} {tail : List UInt8}
    (h : String.utf8EncodeChar c = lead :: tail) (rest : List UInt8) :
    ofLead lead (tail ++ rest) = ofChar c := by
  obtain ⟨hann, hbits⟩ := lead_of_encode h
  have htake : (tail ++ rest).take (announced lead - 1) = tail := by
    rw [hann, Nat.add_sub_cancel, List.take_left]
  rw [ofLead, htake, hbits, if_pos hann.symm, foldl_extend_of_encode h, ofChar, h,
    List.length_cons]

end Reading

/-! ### Texts -/

namespace Text

@[simp] theorem encode_nil : encode [] = [] := rfl

theorem encode_cons (c : Char) (cs : List Char) :
    encode (c :: cs) = String.utf8EncodeChar c ++ encode cs := rfl

theorem encode_append (cs ds : List Char) : encode (cs ++ ds) = encode cs ++ encode ds :=
  List.flatMap_append

/-- Encoding a character gives a first byte. -/
theorem exists_lead (c : Char) : ∃ lead tail, String.utf8EncodeChar c = lead :: tail :=
  List.exists_cons_of_ne_nil String.utf8EncodeChar_ne_nil

theorem encode_eq_nil_iff {cs : List Char} : encode cs = [] ↔ cs = [] := by
  cases cs with
  | nil => simp
  | cons c cs => simp [encode_cons, String.utf8EncodeChar_ne_nil]

/-- A class of bytes that holds every byte of the characters in `p`, and the first byte of no
other, ends on the encoded text where `p` ends on the text. -/
theorem takeWhile_encode {q : UInt8 → Bool} {p : Char → Bool}
    (hin : ∀ c, p c = true → ∀ b ∈ String.utf8EncodeChar c, q b = true)
    (hout : ∀ c, p c = false → ∀ b ∈ (String.utf8EncodeChar c).head?, q b = false)
    (cs : List Char) : (encode cs).takeWhile q = encode (cs.takeWhile p) := by
  induction cs with
  | nil => rfl
  | cons c cs ih =>
    rw [encode_cons, List.takeWhile_cons]
    cases hc : p c with
    | true => rw [List.takeWhile_append_of_pos (hin c hc), ih, if_pos rfl, encode_cons]
    | false =>
      obtain ⟨lead, tail, he⟩ := exists_lead c
      have hlead : q lead = false := hout c hc lead (by rw [he]; rfl)
      rw [he, List.cons_append, List.takeWhile_cons_of_neg (by simp [hlead])]
      rfl

/-! ### Characters of one byte -/

/-- A byte below 0x80 encodes one character, and is its whole encoding. -/
theorem encodeChar_of_mem {c : Char} {b : UInt8} (hb : b.toNat < 0x80)
    (h : b ∈ String.utf8EncodeChar c) :
    c.toNat = b.toNat ∧ String.utf8EncodeChar c = [b] := by
  rcases encodeChar_cases c with ⟨hn, he⟩ | ⟨hn, hn', he⟩ | ⟨hn, hn', he⟩ | ⟨hn, hn', he⟩
  · rw [he, List.mem_singleton] at h
    subst h
    refine ⟨?_, he⟩
    simp only [UInt8.toNat_ofNat']
    omega
  -- the bytes of a longer encoding are at least 0x80
  all_goals
    rw [he] at h
    simp only [List.mem_cons, List.not_mem_nil, or_false, ← UInt8.toNat_inj,
      UInt8.toNat_ofNat'] at h
    omega

/-- A character below 0x80 is one byte. -/
theorem encodeChar_of_lt {c : Char} (h : c.toNat < 0x80) :
    String.utf8EncodeChar c = [UInt8.ofNat c.toNat] := by
  rcases encodeChar_cases c with ⟨-, he⟩ | ⟨hn, -⟩ | ⟨hn, -⟩ | ⟨hn, -⟩
  · exact he
  all_goals omega

/-! ### Decoding -/

/-- To pass over bytes is to drop them. -/
theorem decodeAfter?_eq_drop (skip : Nat) (bs : List UInt8) :
    decodeAfter? skip bs = decodeAfter? 0 (bs.drop skip) := by
  induction bs generalizing skip with
  | nil => simp [decodeAfter?]
  | cons b bs ih =>
    cases skip with
    | zero => rfl
    | succ skip => simpa [decodeAfter?] using ih skip

/-- Decoding inverts encoding. -/
theorem decodeAfter?_encode (cs : List Char) : decodeAfter? 0 (encode cs) = some cs := by
  induction cs with
  | nil => rfl
  | cons c cs ih =>
    obtain ⟨lead, tail, he⟩ := exists_lead c
    have htake : (lead :: (tail ++ encode cs)).take (tail.length + 1) = lead :: tail := by
      simp
    rw [encode_cons, he, List.cons_append, decodeAfter?]
    simp only [Reading.ofLead_of_encode he, Reading.ofChar, Char.ofNat_toNat, he,
      List.length_cons, htake, if_true, Nat.add_sub_cancel]
    rw [decodeAfter?_eq_drop, List.drop_left, ih]
    rfl

/-- A text is told by its encoding. -/
theorem encode_injective {cs ds : List Char} (h : encode cs = encode ds) : cs = ds := by
  have hdecode := decodeAfter?_encode cs
  rw [h, decodeAfter?_encode] at hdecode
  exact (Option.some.inj hdecode).symm

/-- **Decoding inverts encoding.** The bytes of a text are read as the text. -/
theorem ofBytes?_encode (cs : List Char) : ofBytes? (encode cs) = some (String.ofList cs) := by
  rw [ofBytes?, decodeAfter?_encode]
  rfl

end Text

/-! ### Runs -/

namespace Reading

/-- A run on an encoded text is the run of its characters. -/
theorem run_encode (p : Nat → Bool) (cs : List Char) :
    run p (Text.encode cs) = (cs.takeWhile fun c ↦ p c.toNat).map ofChar := by
  induction cs with
  | nil => rfl
  | cons c cs ih =>
    obtain ⟨lead, tail, he⟩ := Text.exists_lead c
    rw [Text.encode_cons, he, List.cons_append, run_cons, ofLead_of_encode he, ofChar, he,
      List.length_cons, Nat.add_sub_cancel, List.drop_left, ih, List.takeWhile_cons]
    split <;> simp [ofChar, he]

/-- The readings of characters cover their bytes. -/
theorem span_map_ofChar (cs : List Char) : span (cs.map ofChar) = (Text.encode cs).length := by
  induction cs with
  | nil => rfl
  | cons c cs ih =>
    rw [List.map_cons, span, ih, Text.encode_cons, List.length_append]
    rfl

end Reading

end KannadaScript
