import KannadaScript.Proofs.Token.Places

/-!
# When a scan fails

A scan fails when blanks and lexemes lead to a place at which no lexeme can start. There are three
reasons for that, each with its own message (`Lexeme.Complains`), and a scan gives no other: a
character that starts nothing, a quote that is never closed, and a word that is too long for a name.

The reasons are given as a message and the conditions for it, in terms of the characters at the
place and behind it. So whoever sees a message knows what stands there, and whoever sees the text
knows the message (`complains_iff`). A word whose bytes are no text has a message as well, but in
the bytes of a text it is never given.

Both directions are about the first fault. That a failing scan has come to such a place is
`leads_of_tokenize_error`; that a scan which can come to such a place does so, and stops there, is
`Cursor.tokensWithin_of_leads`. The second needs that blanks and lexemes lead to one place only.
That comes with maximal munch: at each place the scan finds the lexeme that could not have been
longer, and the text has no other.

Main statement: `lexical_error_iff_complains`.
-/

namespace KannadaScript

/-! ### Messages -/

namespace Lexeme

/-- The characters of marks. -/
def markChars : List Char := ['+', '-', '*', '/', '=', '(', ')', '\x7b', '\x7d', ';']

/-- The message about a text that starts with no lexeme. -/
inductive Complains : (text : List Char) → (message : String) → Prop
  /-- A quote that is never closed. -/
  | unterminated {rest : List Char} (unclosed : '"' ∉ rest) :
      Complains ('"' :: rest) "Unterminated string literal"
  /-- A word of more than 255 bytes, up to where it ends. -/
  | nameTooLong {x rest : List Char} (word : isWord x = true)
      (ends : ∀ c ∈ rest.head?, Kannada.isWordPart c.toNat = false)
      (long : 255 < (Text.encode x).length) :
      Complains (x ++ rest) "Identifier exceeds maximum length of 255 bytes"
  /-- A character that stands for nothing. -/
  | unexpected {c : Char} {rest : List Char} (blank : c ∉ [' ', '\t', '\r', '\n'])
      (letter : Kannada.isLetter c.toNat = false) (digit : Kannada.isDigit c.toNat = false)
      (quote : c ≠ '"') (mark : c ∉ markChars) :
      Complains (c :: rest) ("Unexpected character: '" ++ c.toString ++ "'")

/-- The blanks, one by one. -/
theorem isBlankChar_eq_false_iff {c : Char} :
    isBlankChar c = false ↔ c ∉ [' ', '\t', '\r', '\n'] := by
  simp [isBlankChar, and_assoc]

/-- A character that spells no mark is none of the characters of marks. -/
theorem not_mark_iff {c : Char} : (∀ m : Mark, m.spelling.toList ≠ [c]) ↔ c ∉ markChars := by
  have hspelled : ∀ m : Mark, (m.spelling.toList.all fun d ↦ markChars.contains d) = true := by
    intro m
    cases m <;> decide
  constructor
  · intro h hmem
    simp only [markChars, List.mem_cons, List.not_mem_nil, or_false] at hmem
    rcases hmem with rfl | rfl | rfl | rfl | rfl | rfl | rfl | rfl | rfl | rfl
    exacts [h .plus rfl, h .minus rfl, h .star rfl, h .slash rfl, h .assign rfl, h .openParen rfl,
      h .closeParen rfl, h .openBrace rfl, h .closeBrace rfl, h .semicolon rfl]
  · intro h m hm
    have hmark := hspelled m
    rw [hm, List.all_cons, List.all_nil, Bool.and_true, List.contains_iff_mem] at hmark
    exact h hmark

/-- What is complained about is what breaks a scan, in the words of its fault. -/
theorem complains_iff {text : List Char} {message : String} : Complains text message ↔
    ∃ x rest f, text = x ++ rest ∧ Breaks x rest f ∧ f.message = message := by
  constructor
  · rintro (⟨unclosed⟩ | ⟨word, ends, long⟩ | ⟨blank, letter, digit, quote, mark⟩)
    · exact ⟨['"'], _, _, rfl, .unterminated unclosed, rfl⟩
    · exact ⟨_, _, _, rfl, .nameTooLong word ends long, by decide⟩
    · exact ⟨[_], _, _, rfl, .unexpected (isBlankChar_eq_false_iff.2 blank) digit letter quote
        (not_mark_iff.2 mark), rfl⟩
  · rintro ⟨x, rest, f, rfl, hbreaks, rfl⟩
    cases hbreaks with
    | unexpected blank digit letter quote mark =>
      exact .unexpected (isBlankChar_eq_false_iff.1 blank) letter digit quote (not_mark_iff.1 mark)
    | unterminated unclosed => exact .unterminated unclosed
    | nameTooLong word ends long => exact .nameTooLong word ends long

end Lexeme

/-! ### Scans that fail -/

/-- A scan that lexemes lead to a fault stops there. -/
theorem Cursor.tokensWithin_of_leads {before rest before' rest' : List Char} {ts : List Token}
    (h : Leads before rest ts before' rest') {x after : List Char} {f : Fault}
    (hplace : rest' = x ++ after) (hbreaks : Lexeme.Breaks x after f) :
    ∀ calls, (Text.encode rest).length < calls →
      ∃ c, tokensWithin calls (between before rest) = .error ⟨f, lineAfter before'⟩ c := by
  -- On the way. As for a whole splitting, the calls outlast the text.
  induction h with
  | @here before w rest blank =>
    intro calls hcalls
    obtain ⟨calls, rfl⟩ := Nat.exists_eq_add_of_lt hcalls
    have hnext := next_of_breaks before blank hbreaks
    rw [List.append_assoc, ← hplace] at hnext
    refine ⟨(between before (w ++ rest)).next.2, ?_⟩
    rw [tokensWithin_of_malformed _ (by rw [hnext]), hnext]
  | @lexeme before w x' rest before' rest' l ts blank spells ends more ih =>
    intro calls hcalls
    have hshorter := spells.length_encode_lt w rest
    obtain ⟨calls, rfl⟩ : ∃ n, calls = n + 1 := ⟨calls - 1, by omega⟩
    have hnext := next_of_spells before blank spells ends
    obtain ⟨c, hc⟩ := ih hplace calls (by omega)
    refine ⟨c, ?_⟩
    rw [tokensWithin_of_lexeme calls (by rw [hnext]; exact spells.isProper.1)
      (by rw [hnext]; exact spells.isProper.2), hnext, Step.bind_of_error hc]

/-- A scan that can come to a place where no lexeme starts fails there, with the line of the
place. -/
theorem tokenize_of_leads {source : String} {ts : List Token} {before x rest : List Char}
    {f : Fault} (h : Leads [] source.toList ts before (x ++ rest))
    (hbreaks : Lexeme.Breaks x rest f) : tokenize source = .error ⟨f, lineAfter before⟩ := by
  obtain ⟨c, hc⟩ := Cursor.tokensWithin_of_leads h rfl hbreaks _ (Nat.lt_succ_self _)
  have hrun : Cursor.tokens (Cursor.start source) = .error ⟨f, lineAfter before⟩ c := hc
  rw [tokenize, hrun]

/-- **Lexical errors.** A scan of a text fails with a message and a line exactly when the text has
a first part that splits, by maximal munch, into blanks and lexemes, and the rest starts with
a quote that is never closed, a word that is too long, or a character that stands for nothing. The
message is that of the rest, and the line is one more than the number of line feeds in the first
part. -/
theorem lexical_error_iff_complains (source message : String) (line : Nat) :
    (∃ e, tokenize source = .error e ∧ e.fault.message = message ∧ e.line = line) ↔
      ∃ ts before text, source.toList = before ++ text ∧ Leads [] source.toList ts before text ∧
        Lexeme.Complains text message ∧
        line = 1 + (Text.encode before).count Lexeme.lineFeed := by
  constructor
  · rintro ⟨e, he, rfl, rfl⟩
    obtain ⟨ts, before, x, rest, hleads, hbreaks, hline⟩ := leads_of_tokenize_error he
    exact ⟨ts, before, x ++ rest, hleads.append_eq, hleads,
      Lexeme.complains_iff.2 ⟨x, rest, e.fault, rfl, hbreaks, rfl⟩, hline⟩
  · rintro ⟨ts, before, text, -, hleads, hcomplains, rfl⟩
    obtain ⟨x, rest, f, rfl, hbreaks, rfl⟩ := Lexeme.complains_iff.1 hcomplains
    exact ⟨⟨f, lineAfter before⟩, tokenize_of_leads hleads hbreaks, rfl, rfl⟩

end KannadaScript
