import KannadaScript.Proofs.Text.Boundaries
import KannadaScript.Proofs.Token.Places

/-!
# What a scan finds at any byte

A scan that goes on after a fault has moved past a single byte, so it may stand inside a character.
What it can find at any byte of a text, inside a character or not, is said once, by `Lexeme.Found`.
Between two characters it finds the lexeme that starts there or the fault of the character that
starts none. Inside a character no word and no number starts: the code points read there are too
small. All that can happen is a stray byte, or a reading that looks like a quote and opens a quoted
text (`head_of_continues`).

Such a quoted text is no mistake of the proof. Some characters have bytes that read as the code
point of a quote, and a scan that is inside one of them takes everything up to the next quote for a
text. Only then can the bytes of a text be cut in the middle of a character, and stand for the empty
text. That words and numbers are never cut is what keeps this from spreading.

Everything that is said of single calls is read off `Lexeme.Found` by its cases: which characters a
word covers (`Found.exists_spells`), that no word is refused for its bytes (`Found.message_ne`), and
where line feeds can be.

Main statements: `Lexeme.head_fits`, a scan covers a byte at least and never runs over the end,
whatever the bytes; `Lexeme.head_found`, what a scan finds in the bytes of a text; and
`Lexeme.Found.isQuoted_of_lineFeed`, that only quoted texts cover line feeds.
-/

namespace KannadaScript

/-! ### How much a scan covers -/

namespace Reading

/-- A run never covers more bytes than there are. -/
theorem span_runAfter_le (p : Nat → Bool) (skip : Nat) (bytes : List UInt8) :
    span (runAfter p skip bytes) ≤ bytes.length - skip := by
  induction bytes generalizing skip with
  | nil => simp [runAfter, span]
  | cons lead rest ih =>
    rcases skip with - | skip
    · have hwidth := width_ofLead lead rest
      have hrest := ih ((ofLead lead rest).width - 1)
      simp only [runAfter]
      split
      · rw [span, List.length_cons]
        omega
      · exact Nat.zero_le _
    · simpa [runAfter] using ih skip

theorem span_run_le (p : Nat → Bool) (bytes : List UInt8) : span (run p bytes) ≤ bytes.length :=
  span_runAfter_le p 0 bytes

/-- A run that starts covers a byte. -/
theorem span_run_pos {p : Nat → Bool} {lead : UInt8} {rest : List UInt8}
    (h : p (ofLead lead rest).codePoint = true) : 0 < span (run p (lead :: rest)) := by
  rw [run_cons, if_pos h, span, width_ofLead]
  omega

end Reading

namespace Lexeme

/-- Something other than the end of file, which covers one of the bytes at least and no more than
there are. -/
structure Fits (bytes : List UInt8) (found : Lexeme × Nat) : Prop where
  proper : found.1 ≠ .endOfFile
  pos : 0 < found.2
  le : found.2 ≤ bytes.length

/-- No word is the end of file. -/
theorem ofWord_ne_endOfFile (word : List UInt8) : ofWord word ≠ .endOfFile := by
  rw [ofWord]
  repeat' split
  all_goals simp

section Scanners

variable (lead : UInt8) (rest : List UInt8)

theorem scanQuoted_fits : Fits (lead :: rest) (scanQuoted rest) := by
  have hle : (rest.takeWhile (· != quote)).length ≤ rest.length :=
    (List.takeWhile_prefix _).length_le
  rw [scanQuoted]
  rcases hdrop : rest.drop (rest.takeWhile (· != quote)).length with - | ⟨b, after⟩
  · exact ⟨by simp, Nat.succ_pos _, Nat.succ_le_succ hle⟩
  · have hlt : (rest.takeWhile (· != quote)).length < rest.length := by
      by_contra hge
      rw [List.drop_eq_nil_of_le (Nat.not_lt.1 hge)] at hdrop
      exact absurd hdrop (List.cons_ne_nil b after).symm
    exact ⟨by simp, Nat.succ_pos _, Nat.succ_le_succ hlt⟩

theorem scanMark_fits (cp : Nat) : Fits (lead :: rest) (scanMark cp lead rest) := by
  have hone : 1 ≤ (lead :: rest).length := Nat.succ_le_succ (Nat.zero_le _)
  fun_cases scanMark cp lead rest with
  | case1 _ heq =>
    obtain ⟨after, rfl⟩ := List.head?_eq_some_iff.1 heq
    exact ⟨by simp, Nat.two_pos, Nat.succ_le_succ (Nat.succ_le_succ (Nat.zero_le _))⟩
  | case2 | case3 | case4 => exact ⟨by simp, Nat.one_pos, hone⟩

/-- Whatever the bytes, what is scanned covers some of them and is not the end of file. -/
theorem scan_fits : Fits (lead :: rest) (scan lead rest) := by
  fun_cases scan lead rest with
  | case1 cp hdigit =>
    exact ⟨by simp [scanNumber], Reading.span_run_pos hdigit, Reading.span_run_le _ _⟩
  | case2 cp _ hletter =>
    have hpart := Kannada.isWordPart_iff.2 (.inl hletter)
    exact ⟨ofWord_ne_endOfFile _, Reading.span_run_pos hpart, Reading.span_run_le _ _⟩
  | case3 => exact scanQuoted_fits lead rest
  | case4 cp => exact scanMark_fits lead rest cp

end Scanners

/-- **One byte at least.** A scan covers bytes unless there are none, and never more than there
are. -/
theorem head_fits {bytes : List UInt8} (h : bytes ≠ []) : Fits bytes (head bytes) := by
  obtain ⟨lead, rest, rfl⟩ := List.exists_cons_of_ne_nil h
  exact scan_fits lead rest

/-! ### Inside a character -/

/-- A quoted text, closed or not. -/
def isQuoted : Lexeme → Bool
  | .quoted _ | .malformed .unterminated => true
  | _ => false

theorem isQuoted_scanQuoted (rest : List UInt8) : (scanQuoted rest).1.isQuoted = true := by
  rw [scanQuoted]
  split <;> rfl

/-- Inside a character a scan finds something quoted, or a stray byte. -/
theorem head_of_continues {lead : UInt8} (h : Text.Continues lead) (rest : List UInt8) :
    (head (lead :: rest)).1.isQuoted = true ∨
      ∃ c, head (lead :: rest) = (.malformed (.unexpected c), 1) := by
  have hsmall := Reading.codePoint_of_continues h rest
  rw [Reading.replacement] at hsmall
  have hdigit : ¬ Kannada.isDigit (Reading.ofLead lead rest).codePoint = true := by
    rw [Kannada.isDigit_iff]
    omega
  have hletter : ¬ Kannada.isLetter (Reading.ofLead lead rest).codePoint = true := by
    rw [Kannada.isLetter_iff]
    omega
  rw [head, scan, if_neg hdigit, if_neg hletter]
  split
  · exact .inl (isQuoted_scanQuoted rest)
  · refine .inr ⟨charOf (Reading.ofLead lead rest).codePoint, ?_⟩
    rw [scanMark, Mark.ofByte?_of_le h.1]

/-! ### What a scan finds -/

/-- What a scan may find after `n` bytes of a text, with the number of bytes it covers. -/
inductive Found (cs : List Char) (n : Nat) : Lexeme × Nat → Prop
  /-- The end of the text. -/
  | nothing (ends : (Text.encode cs).length = n) : Found cs n (.endOfFile, 0)
  /-- A lexeme of whole characters, which could not have been longer. -/
  | whole {before x rest : List Char} {l : Lexeme} (place : cs = before ++ x ++ rest)
      (start : (Text.encode before).length = n) (spells : Spells x l) (ends : l.EndsBefore rest) :
      Found cs n (l, (Text.encode x).length)
  /-- A piece that starts with a character and is no lexeme. -/
  | broken {before x rest : List Char} {f : Fault} {size : Nat} (place : cs = before ++ x ++ rest)
      (start : (Text.encode before).length = n) (breaks : Breaks x rest f)
      (covers : f = .unterminated ∨ size ≤ (Text.encode x).length) :
      Found cs n (.malformed f, size)
  /-- A byte inside a character. -/
  | stray {b : UInt8} {rest : List UInt8} (inside : (Text.encode cs).drop n = b :: rest)
      (continues : Text.Continues b) (c : Char) : Found cs n (.malformed (.unexpected c), 1)
  /-- A quoted text, opened by what is read inside a character. -/
  | opened {b : UInt8} {rest : List UInt8} {l : Lexeme} {size : Nat}
      (inside : (Text.encode cs).drop n = b :: rest) (continues : Text.Continues b)
      (quoted : l.isQuoted = true) : Found cs n (l, size)

/-- A text whose first byte is no blank starts with no blank. -/
theorem isBlankChar_of_head {c : Char} {cs : List Char}
    (h : ∀ b ∈ (Text.encode (c :: cs)).head?, isBlank b = false) : isBlankChar c = false := by
  obtain ⟨lead, tail, he⟩ := Text.exists_lead c
  have hbytes : Text.encode (c :: cs) = lead :: (tail ++ Text.encode cs) := by
    rw [Text.encode_cons, he, List.cons_append]
  have hlead : isBlank lead = false := h lead (by rw [hbytes]; rfl)
  have hnone : (Text.encode (c :: cs)).takeWhile isBlank = [] := by
    rw [hbytes, List.takeWhile_cons_of_neg (by simp [hlead])]
  rw [takeWhile_isBlank_encode, Text.encode_eq_nil_iff] at hnone
  rw [Bool.eq_false_iff]
  intro hc
  rw [List.takeWhile_cons_of_pos hc] at hnone
  exact absurd hnone (List.cons_ne_nil _ _)

/-- **At any byte.** What a scan finds at a byte of a text that is no blank. -/
theorem head_found {cs : List Char} {n : Nat} (hn : n ≤ (Text.encode cs).length)
    (hblank : ∀ b ∈ ((Text.encode cs).drop n).head?, isBlank b = false) :
    Found cs n (head ((Text.encode cs).drop n)) := by
  rcases Text.drop_encode_cases hn with ⟨before, after, rfl, hstart, hdrop⟩ | ⟨b, rest, hdrop, hb⟩
  · rw [hdrop] at hblank ⊢
    rcases after with - | ⟨c, after⟩
    · exact .nothing (by rw [List.append_nil, hstart])
    have hplace {x rest : List Char} (heq : c :: after = x ++ rest) :
        before ++ c :: after = before ++ x ++ rest := by
      rw [heq, List.append_assoc]
    rcases startsText_or_breaks (isBlankChar_of_head hblank) after with
      ⟨x, rest, l, heq, hx, hl⟩ | ⟨x, rest, f, heq, hx⟩
    · rw [heq, head_encode hx hl, ← heq]
      exact .whole (hplace heq) hstart hx hl
    · obtain ⟨size, hhead, hcovers⟩ := head_of_breaks hx
      rw [heq, hhead, ← heq]
      exact .broken (hplace heq) hstart hx hcovers
  · rw [hdrop]
    rcases head_of_continues hb rest with hquoted | ⟨c, hstray⟩
    · exact .opened hdrop hb hquoted
    · rw [hstray]
      exact .stray hdrop hb c

/-! ### Words and numbers -/

/-- A keyword, a name or a number. -/
def isWordOrNumber : Lexeme → Bool
  | .keyword _ | .name _ | .number _ => true
  | _ => false

/-- Words and numbers are spelled by letters and digits. -/
theorem Spells.isWordPart_of_mem {x : List Char} {l : Lexeme} (h : Spells x l)
    (hl : l.isWordOrNumber = true) : ∀ c ∈ x, Kannada.isWordPart c.toNat = true := by
  cases h with
  | keyword k => exact (isWord_eq_true_iff.1 k.isWord_spelling).2
  | name free => exact (isWord_eq_true_iff.1 (isName_eq_true_iff.1 free).1).2
  | number nonempty digits value => exact fun c hc ↦ Kannada.isWordPart_iff.2 (.inr (digits c hc))
  | quoted _ | mark _ => exact absurd hl Bool.false_ne_true

/-- **Whole characters.** A word or a number is found only at a character, and covers whole
characters. -/
theorem Found.exists_spells {cs : List Char} {n : Nat} {found : Lexeme × Nat}
    (h : Found cs n found) (hl : found.1.isWordOrNumber = true) :
    ∃ before x rest, cs = before ++ x ++ rest ∧ (Text.encode before).length = n ∧
      (Text.encode x).length = found.2 ∧ Spells x found.1 := by
  cases h with
  | whole place start spells ends => exact ⟨_, _, _, place, start, rfl, spells⟩
  | @opened b rest l size inside continues quoted =>
    exact absurd quoted (by cases l <;> simp_all [isQuoted, isWordOrNumber])
  | nothing _ | broken _ _ _ _ | stray _ _ _ => exact absurd hl Bool.false_ne_true

/-- The messages of two faults are not the same. -/
theorem message_unexpected_ne (c : Char) :
    (Fault.unexpected c).message ≠ Fault.nameNotText.message := by
  have hmessage : (Fault.unexpected c).message = "Unexpected character: '" ++ c.toString ++ "'" :=
    rfl
  have hfirst : "Unexpected character: '".toList.head? = some 'U' := by decide
  intro h
  have hhead : (Fault.unexpected c).message.toList.head? = some 'U' := by
    rw [hmessage, String.toList_append, String.toList_append, List.head?_append,
      List.head?_append, hfirst]
    rfl
  rw [h] at hhead
  exact absurd hhead (by decide)

/-- The bytes of a word are always text, so nothing is found that says otherwise. -/
theorem Found.message_ne {cs : List Char} {n : Nat} {found : Lexeme × Nat} {f : Fault}
    (h : Found cs n found) (hf : found.1 = .malformed f) :
    f.message ≠ Fault.nameNotText.message := by
  cases h with
  | nothing _ => cases hf
  | whole _ _ spells _ => exact absurd hf (spells.isProper.2 f)
  | broken _ _ breaks _ =>
    cases hf
    cases breaks with
    | unexpected _ _ _ _ _ => exact message_unexpected_ne _
    | unterminated _ | nameTooLong _ _ _ => decide
  | stray _ _ c =>
    cases hf
    exact message_unexpected_ne c
  | opened _ _ quoted =>
    cases hf
    cases f with
    | unterminated => decide
    | _ => cases quoted

/-! ### Line feeds -/

/-- A line feed is a byte of its own. -/
theorem lineFeed_mem_encode_iff {cs : List Char} : lineFeed ∈ Text.encode cs ↔ '\n' ∈ cs := by
  rw [← List.count_pos_iff, count_lineFeed_encode, List.count_pos_iff]

/-- Letters and digits are no line feeds. -/
theorem not_mem_of_isWordPart {x : List Char}
    (h : ∀ c ∈ x, Kannada.isWordPart c.toNat = true) : '\n' ∉ x := by
  intro hmem
  exact absurd (Kannada.le_of_isWordPart (h _ hmem)) (by decide)

/-- A lexeme that is spelled with a line feed is quoted. -/
theorem Spells.isQuoted_of_mem {x : List Char} {l : Lexeme} (h : Spells x l) (hfeed : '\n' ∈ x) :
    l.isQuoted = true := by
  have hword (hx : isWord x = true) : '\n' ∉ x :=
    not_mem_of_isWordPart (isWord_eq_true_iff.1 hx).2
  cases h with
  | keyword k => exact absurd hfeed (hword k.isWord_spelling)
  | name free => exact absurd hfeed (hword (isName_eq_true_iff.1 free).1)
  | number nonempty digits value =>
    have hdigits := not_mem_of_isWordPart fun c hc ↦ Kannada.isWordPart_iff.2 (.inr (digits c hc))
    exact absurd hfeed hdigits
  | quoted inner => rfl
  | mark m => exact absurd hfeed (by cases m <;> decide)

/-- A fault that covers a line feed is a quote that is never closed. -/
theorem Breaks.eq_unterminated_of_mem {x rest : List Char} {f : Fault} (h : Breaks x rest f)
    (hfeed : '\n' ∈ x) : f = .unterminated := by
  cases h with
  | unexpected blank digit letter quote mark =>
    rw [← List.mem_singleton.1 hfeed] at blank
    exact absurd blank (by decide)
  | unterminated unclosed => rfl
  | nameTooLong word ends long =>
    exact absurd hfeed (not_mem_of_isWordPart (isWord_eq_true_iff.1 word).2)

/-- **Line feeds.** Of all that a scan finds, only a quoted text covers line feeds. -/
theorem Found.isQuoted_of_lineFeed {cs : List Char} {n : Nat} {found : Lexeme × Nat}
    (h : Found cs n found) (hfeed : lineFeed ∈ ((Text.encode cs).drop n).take found.2) :
    found.1.isQuoted = true := by
  have hplace {before x rest : List Char} (place : cs = before ++ x ++ rest)
      (start : (Text.encode before).length = n) :
      (Text.encode cs).drop n = Text.encode x ++ Text.encode rest := by
    rw [place, List.append_assoc, Text.encode_append, List.drop_left' start, Text.encode_append]
  cases h with
  | nothing ends => exact absurd hfeed (by simp)
  | whole place start spells ends =>
    rw [hplace place start, List.take_left' rfl, lineFeed_mem_encode_iff] at hfeed
    exact spells.isQuoted_of_mem hfeed
  | broken place start breaks covers =>
    rcases covers with rfl | hsize
    · rfl
    · rw [hplace place start, List.take_append_of_le_length hsize] at hfeed
      rw [breaks.eq_unterminated_of_mem (lineFeed_mem_encode_iff.1 (List.mem_of_mem_take hfeed))]
      rfl
  | stray inside continues c =>
    rw [inside, List.take_succ_cons, List.take_zero, List.mem_singleton] at hfeed
    rw [← hfeed] at continues
    exact absurd continues.1 (by decide)
  | opened inside continues quoted => exact quoted

end Lexeme

end KannadaScript
