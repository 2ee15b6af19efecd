import KannadaScript.Proofs.Text.Encoding

/-!
# Cuts through an encoded text

The bytes of a text may be cut anywhere. A cut lies between two characters, and then the bytes after
it encode the characters after it; or it lies inside a character, and then the bytes after it start
with a byte that only continues a character (`Text.drop_encode_cases`).

Read at such a byte, the bytes give some code point all the same. The byte announces two bytes,
whatever the character has, so the code point lies below 0x800, or it is the replacement for a
sequence cut short (`Reading.codePoint_of_continues`). Digits and letters of the language are all
greater than that and none is the replacement; this is why a scan that stands inside a character
never takes what it reads for the start of a word.

A scanner comes to such a place only after a fault, when it has moved past the first byte of a
character that starts no lexeme. From then on it may cut characters at every byte until it is at a
boundary again, and the two cases of a cut are the two cases of everything that is said about it.
-/

namespace KannadaScript

/-! ### Bytes inside a character -/

namespace Text

/-- The byte belongs to a character without being its first. -/
def Continues (b : UInt8) : Prop := 0x80 ≤ b.toNat ∧ b.toNat < 0xC0

/-- All bytes of a character but the first continue it. -/
theorem continues_of_mem_tail {c : Char} {lead : UInt8} {tail : List UInt8}
    (h : String.utf8EncodeChar c = lead :: tail) {b : UInt8} (hb : b ∈ tail) : Continues b := by
  rcases encodeChar_cases c with ⟨-, he⟩ | ⟨-, -, he⟩ | ⟨-, -, he⟩ | ⟨-, -, he⟩
  · obtain ⟨-, rfl⟩ := List.cons.inj (he.symm.trans h)
    exact absurd hb List.not_mem_nil
  all_goals
    obtain ⟨-, rfl⟩ := List.cons.inj (he.symm.trans h)
    simp only [List.mem_cons, List.not_mem_nil, or_false, ← UInt8.toNat_inj,
      UInt8.toNat_ofNat'] at hb
    constructor <;> omega

/-- **Where a cut lies.** The bytes after a cut encode the characters after it, or they start
inside a character. -/
theorem drop_encode_cases {cs : List Char} {n : Nat} (h : n ≤ (encode cs).length) :
    (∃ before after, cs = before ++ after ∧ (encode before).length = n ∧
      (encode cs).drop n = encode after) ∨
    ∃ b rest, (encode cs).drop n = b :: rest ∧ Continues b := by
  induction cs generalizing n with
  | nil =>
    have hn : n = 0 := Nat.le_zero.1 h
    exact .inl ⟨[], [], rfl, hn.symm, by rw [hn]; rfl⟩
  | cons c cs ih =>
    obtain ⟨lead, tail, he⟩ := exists_lead c
    have hbytes : encode (c :: cs) = lead :: (tail ++ encode cs) := by
      rw [encode_cons, he, List.cons_append]
    rcases n with - | n
    · exact .inl ⟨[], c :: cs, rfl, rfl, rfl⟩
    rcases Nat.lt_or_ge n tail.length with hin | hout
    · -- the cut lies inside `c`
      have hdrop : (encode (c :: cs)).drop (n + 1) =
          tail[n] :: (tail.drop (n + 1) ++ encode cs) := by
        rw [hbytes, List.drop_succ_cons, List.drop_append_of_le_length hin.le,
          List.drop_eq_getElem_cons hin, List.cons_append]
      exact .inr ⟨_, _, hdrop, continues_of_mem_tail he (List.getElem_mem hin)⟩
    · have hdrop : (encode (c :: cs)).drop (n + 1) = (encode cs).drop (n - tail.length) := by
        rw [hbytes, List.drop_succ_cons, List.drop_append, List.drop_eq_nil_of_le hout,
          List.nil_append]
      have hlength : n - tail.length ≤ (encode cs).length := by
        rw [hbytes, List.length_cons, List.length_append] at h
        omega
      rcases ih hlength with ⟨before, after, rfl, hstart, hafter⟩ | ⟨b, rest, hrest, hb⟩
      · refine .inl ⟨c :: before, after, rfl, ?_, hdrop.trans hafter⟩
        rw [encode_cons, he, List.length_append, List.length_cons, hstart]
        omega
      · exact .inr ⟨b, rest, hdrop.trans hrest, hb⟩

end Text

/-! ### Readings inside a character -/

namespace Reading

/-- A byte that continues a character announces two bytes when it is read as a first one. -/
theorem lead_of_continues {lead : UInt8} (h : Text.Continues lead) :
    announced lead = 2 ∧ leadBits lead = lead.toNat % 32 := by
  obtain ⟨hlow, hhigh⟩ := h
  have hone : ¬ lead < 0x80 := by
    rw [UInt8.lt_iff_toNat_lt]
    exact Nat.not_lt.2 hlow
  have htwo : lead < 0xE0 := by
    rw [UInt8.lt_iff_toNat_lt]
    exact hhigh.trans (by decide)
  rw [announced, leadBits, if_neg hone, if_pos htwo, if_neg hone, if_pos htwo]
  exact ⟨rfl, rfl⟩

/-- **Readings inside a character are small.** Five bits of one byte and six of the next. -/
theorem codePoint_of_continues {lead : UInt8} (h : Text.Continues lead) (rest : List UInt8) :
    (ofLead lead rest).codePoint < 0x800 ∨ (ofLead lead rest).codePoint = replacement := by
  obtain ⟨htwo, hbits⟩ := lead_of_continues h
  rw [ofLead, htwo]
  rcases rest with - | ⟨b, rest⟩
  · exact .inr rfl
  · left
    show leadBits lead * 64 + b.toNat % 64 < 0x800
    omega

end Reading

end KannadaScript
