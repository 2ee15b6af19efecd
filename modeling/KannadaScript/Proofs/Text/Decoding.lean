import KannadaScript.Proofs.Text.Encoding

/-!
# Readings of arbitrary bytes

A reading is decided by the first byte alone, so it exists for all bytes that are not empty, whether
they encode a text or not. The first byte announces one to four bytes (`Reading.lead_cases`). If as
many are there, the reading covers just these, and its code point is put together from their low
bits, by masks and shifts of a 32-bit word in which nothing overlaps and nothing is lost
(`Reading.toNat_assembled`). If the bytes end before, the reading covers all of them and its code
point is the replacement. So it never reaches beyond the bytes, and never covers none
(`Reading.width_mem`).

On the encoding of a character the two cases are the whole character and a character cut short.

Main statement: `reading_inverts_encoding`.
-/

namespace KannadaScript

namespace Reading

/-! ### First bytes -/

/-- What a byte announces as the first one, and the bits that it contributes then. -/
theorem lead_cases (lead : UInt8) :
    announced lead = 1 ∧ leadBits lead = lead.toNat ∨
    announced lead = 2 ∧ leadBits lead = lead.toNat % 32 ∨
    announced lead = 3 ∧ leadBits lead = lead.toNat % 16 ∨
    announced lead = 4 ∧ leadBits lead = lead.toNat % 8 := by
  rw [announced, leadBits]
  split_ifs <;> simp

variable {lead : UInt8} {rest tail : List UInt8}

/-- The bounds of a reading. -/
theorem width_mem (lead : UInt8) (rest : List UInt8) :
    1 ≤ (ofLead lead rest).width ∧ (ofLead lead rest).width ≤ min 4 (lead :: rest).length := by
  have hannounced := lead_cases lead
  rw [width_ofLead, List.length_cons]
  omega

/-- A sequence that the end of the bytes cuts short. -/
theorem ofLead_of_lt (h : (lead :: rest).length < announced lead) :
    ofLead lead rest = ⟨replacement, (lead :: rest).length⟩ := by
  rw [List.length_cons] at h
  have htake : rest.take (announced lead - 1) = rest := List.take_of_length_le (by omega)
  rw [ofLead, htake, if_neg h.ne, List.length_cons]

/-! ### Masks and shifts -/

/-- The six low bits of a byte. -/
def sixBits (b : UInt8) : UInt32 := (b &&& 0x3F).toUInt32

/-- The code point of a sequence of one to four bytes, put together in a word. -/
def assembled (lead : UInt8) : (tail : List UInt8) → UInt32
  | [] => lead.toUInt32
  | [b] => (lead &&& 0x1F).toUInt32 <<< 6 ||| sixBits b
  | [b, c] => (lead &&& 0x0F).toUInt32 <<< 12 ||| sixBits b <<< 6 ||| sixBits c
  | b :: c :: d :: _ =>
    (lead &&& 0x07).toUInt32 <<< 18 ||| sixBits b <<< 12 ||| sixBits c <<< 6 ||| sixBits d

/-- A mask of low bits takes the remainder. -/
theorem toNat_mask (b : UInt8) {mask : UInt8} {n : Nat} (h : mask.toNat = 2 ^ n - 1) :
    (b &&& mask).toUInt32.toNat = b.toNat % 2 ^ n := by
  rw [UInt8.toNat_toUInt32, UInt8.toNat_and, h, Nat.and_two_pow_sub_one_eq_mod]

/-- Append the six low bits of a following byte to a word. -/
def shiftIn (x : UInt32) (b : UInt8) : UInt32 := x <<< 6 ||| sixBits b

/-- **Step.** Six more bits do not meet those that are there, and push none of them out. -/
theorem toNat_shiftIn {x : UInt32} (hx : x.toNat < 2 ^ 26) (b : UInt8) :
    (shiftIn x b).toNat = extend x.toNat b := by
  have hsix : (sixBits b).toNat = b.toNat % 2 ^ 6 := toNat_mask b rfl
  have hshift : (x <<< 6).toNat = x.toNat <<< 6 := by
    rw [UInt32.toNat_shiftLeft, Nat.shiftLeft_eq, Nat.shiftLeft_eq]
    exact Nat.mod_eq_of_lt (by simp; omega)
  rw [shiftIn, UInt32.toNat_or, hshift, hsix,
    ← Nat.shiftLeft_add_eq_or_of_lt (Nat.mod_lt _ (by decide)), Nat.shiftLeft_eq]
  rfl

/-- **Run.** The word takes in all following bytes, if there is room for six bits of each. -/
theorem toNat_foldl_shiftIn {x : UInt32} (hx : (x.toNat + 1) * 64 ^ tail.length ≤ 2 ^ 32) :
    (tail.foldl shiftIn x).toNat = tail.foldl extend x.toNat := by
  induction tail generalizing x with
  | nil => rfl
  | cons b tail ih =>
    rw [List.length_cons, pow_succ', ← mul_assoc] at hx
    have hsix : (x.toNat + 1) * 64 ≤ 2 ^ 32 :=
      (Nat.le_mul_of_pos_right _ (by positivity)).trans hx
    have hroom : x.toNat < 2 ^ 26 := by omega
    have hstep := toNat_shiftIn hroom b
    have hnext : ((shiftIn x b).toNat + 1) * 64 ^ tail.length ≤ 2 ^ 32 := by
      refine le_trans (Nat.mul_le_mul_right _ ?_) hx
      rw [hstep, extend]
      omega
    rw [List.foldl_cons, List.foldl_cons, ih hnext, hstep]

/-- The low bits of a first byte and the bits of the others, put together in a word and put together
as numbers, are the same, as long as there is room. -/
theorem toNat_foldl_mask (tail : List UInt8) {mask : UInt8} (n : Nat)
    (hmask : mask.toNat = 2 ^ n - 1) (hbits : leadBits lead = lead.toNat % 2 ^ n)
    (hroom : 2 ^ n * 64 ^ tail.length ≤ 2 ^ 32) :
    (tail.foldl shiftIn (lead &&& mask).toUInt32).toNat = tail.foldl extend (leadBits lead) := by
  have hlead : (lead &&& mask).toUInt32.toNat = leadBits lead := by
    rw [toNat_mask lead hmask, hbits]
  have hlt : leadBits lead < 2 ^ n := hbits ▸ Nat.mod_lt _ (by positivity)
  rw [toNat_foldl_shiftIn, hlead]
  rw [hlead]
  exact (Nat.mul_le_mul_right _ hlt).trans hroom

/-- Shifts one after the other add up. -/
theorem shiftIn_shiftIn (x : UInt32) (b c : UInt8) :
    shiftIn (shiftIn x b) c = x <<< 12 ||| sixBits b <<< 6 ||| sixBits c := by
  have htwelve : x <<< 6 <<< 6 = x <<< 12 :=
    (UInt32.shiftLeft_add (by decide) (by decide) (by decide)).symm
  rw [shiftIn, shiftIn, UInt32.shiftLeft_or, htwelve]

/-- Four bytes: three shifts in a row are one shift for each byte. -/
theorem shiftIn_shiftIn_shiftIn (x : UInt32) (b c d : UInt8) :
    shiftIn (shiftIn (shiftIn x b) c) d =
      x <<< 18 ||| sixBits b <<< 12 ||| sixBits c <<< 6 ||| sixBits d := by
  have heighteen : x <<< 6 <<< 12 = x <<< 18 :=
    (UInt32.shiftLeft_add (by decide) (by decide) (by decide)).symm
  rw [shiftIn_shiftIn, shiftIn, UInt32.shiftLeft_or, heighteen]

/-- **Masks and shifts.** Put together in a word, a complete sequence gives its code point. -/
theorem toNat_assembled (h : tail.length + 1 = announced lead) :
    (assembled lead tail).toNat = tail.foldl extend (leadBits lead) := by
  have hlead := lead_cases lead
  rw [← h] at hlead
  -- the cases are the four widths; no byte announces more
  rcases tail with - | ⟨b, - | ⟨c, - | ⟨d, - | ⟨e, tail⟩⟩⟩⟩ <;>
    simp only [List.length_cons, List.length_nil] at hlead
  · rw [assembled, UInt8.toNat_toUInt32]
    exact (by omega : lead.toNat = leadBits lead)
  · exact toNat_foldl_mask [b] 5 rfl (by omega) (by simp)
  · rw [assembled, ← shiftIn_shiftIn]
    exact toNat_foldl_mask [b, c] 4 rfl (by omega) (by simp)
  · rw [assembled, ← shiftIn_shiftIn_shiftIn]
    exact toNat_foldl_mask [b, c, d] 3 rfl (by omega) (by simp)
  · omega

/-- A sequence of which all announced bytes are there. -/
theorem ofLead_of_le (h : announced lead ≤ (lead :: rest).length) : ofLead lead rest =
    ⟨(assembled lead (rest.take (announced lead - 1))).toNat, announced lead⟩ := by
  have hpos := lead_cases lead
  have hcomplete : (rest.take (announced lead - 1)).length + 1 = announced lead := by
    rw [List.length_cons] at h
    rw [List.length_take]
    omega
  rw [ofLead, if_pos hcomplete, toNat_assembled hcomplete, hcomplete]

end Reading

/-- **Readings invert the encoding.** Whatever bytes follow, an encoded character is read as the
character, and the reading covers its encoding; cut short, it is read as the replacement. Any bytes
that are not empty have a reading, which covers one to four of them. If the first of them announces
more than there are, the reading is the replacement and covers all; otherwise it covers as many as
are announced, and its code point is put together from their bits. -/
theorem reading_inverts_encoding :
    (∀ (c : Char) (rest : List UInt8),
      Reading.first? (String.utf8EncodeChar c ++ rest) =
        some ⟨c.toNat, (String.utf8EncodeChar c).length⟩) ∧
    (∀ (c : Char) (n : Nat), 0 < n → n < (String.utf8EncodeChar c).length →
      Reading.first? ((String.utf8EncodeChar c).take n) = some ⟨0xFFFD, n⟩) ∧
    ∀ (lead : UInt8) (rest : List UInt8), ∃ r, Reading.first? (lead :: rest) = some r ∧
      1 ≤ r.width ∧ r.width ≤ min 4 (lead :: rest).length ∧
      ((lead :: rest).length < Reading.announced lead →
        r = ⟨0xFFFD, (lead :: rest).length⟩) ∧
      (Reading.announced lead ≤ (lead :: rest).length →
        r = ⟨(Reading.assembled lead (rest.take (Reading.announced lead - 1))).toNat,
          Reading.announced lead⟩) := by
  refine ⟨fun c rest ↦ ?_, fun c n hpos hlt ↦ ?_, fun lead rest ↦ ?_⟩
  · obtain ⟨lead, tail, he⟩ := Text.exists_lead c
    rw [he, List.cons_append, Reading.first?, Reading.ofLead_of_encode he, Reading.ofChar, he]
  · obtain ⟨lead, tail, he⟩ := Text.exists_lead c
    obtain ⟨n, rfl⟩ := Nat.exists_eq_succ_of_ne_zero hpos.ne'
    rw [he, List.length_cons] at hlt
    have hcut : (lead :: tail.take n).length = n + 1 := by simp; omega
    rw [he, List.take_succ_cons, Reading.first?, Reading.ofLead_of_lt, hcut]
    · rfl
    · rw [hcut, (Reading.lead_of_encode he).1]
      exact hlt
  · obtain ⟨hlow, hhigh⟩ := Reading.width_mem lead rest
    exact ⟨_, rfl, hlow, hhigh, Reading.ofLead_of_lt, Reading.ofLead_of_le⟩

/-- A letter without its last byte, a first byte that no text has, and a byte from inside a
character read as if it were a first one. -/
theorem reading_inverts_encoding_malformed :
    (0 < 2 ∧ 2 < (String.utf8EncodeChar 'ಕ').length ∧
      Reading.first? ((String.utf8EncodeChar 'ಕ').take 2) = some ⟨0xFFFD, 2⟩) ∧
    ([0xF5, 0x41].length < Reading.announced 0xF5 ∧
      Reading.first? [0xF5, 0x41] = some ⟨0xFFFD, 2⟩) ∧
    (Reading.announced 0x80 ≤ [0x80, 0xFF, 0x22].length ∧
      Reading.first? [0x80, 0xFF, 0x22] = some ⟨0x3F, 2⟩) := by
  obtain ⟨-, hcut, hany⟩ := reading_inverts_encoding
  refine ⟨⟨by decide, by decide, hcut 'ಕ' 2 (by decide) (by decide)⟩, ⟨by decide, ?_⟩,
    ⟨by decide, ?_⟩⟩
  · obtain ⟨r, hr, -, -, hshort, -⟩ := hany 0xF5 [0x41]
    rw [hr, hshort (by decide)]
    rfl
  · obtain ⟨r, hr, -, -, -, hlong⟩ := hany 0x80 [0xFF, 0x22]
    rw [hr, hlong (by decide)]
    rfl

end KannadaScript
