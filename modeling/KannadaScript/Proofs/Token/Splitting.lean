import KannadaScript.Proofs.Steps
import KannadaScript.Proofs.Token.Spelling

/-!
# Splitting a text into lexemes

What a scan has to give: the text is cut into blanks and lexemes, each lexeme spells its token, and
no lexeme could have been longer. `Splits` states this over the characters of the text, with the
text already passed as an argument, from which the line of each token is read off. The scan is not
mentioned in it, so it can be held against the description of the language.

A cursor that stands between two characters is given by the characters before it and behind it
(`Cursor.between`). From there one call has three outcomes, by what stands behind the blanks:
nothing (`next_of_blank`), a lexeme (`next_of_spells`) or what is none (`next_of_breaks`); and every
text has one of the three (`text_cases`). A run is then followed in both directions by induction.
From a splitting to a scan it is on the splitting, and from a scan to a splitting on the calls that
are left, with one case for each outcome.

The number of calls is bounded by the length of the text. Every lexeme has at least one byte, so the
bound is never met before the end of file is.

Main statement: `tokenize_eq_ok_iff_splits`. A scan gives a list of tokens exactly when the text
splits into that list.
-/

namespace KannadaScript

/-! ### Splittings -/

/-- The line on which the text after `before` starts. -/
def lineAfter (before : List Char) : Nat := 1 + (Text.encode before).count Lexeme.lineFeed

/-- `rest`, which follows `before`, splits by maximal munch into blanks and the lexemes of
`tokens`, the end of file last. Each token is on the line of its first character. -/
inductive Splits : (before rest : List Char) → (tokens : List Token) → Prop
  | done {before w : List Char} (blank : Lexeme.IsBlankText w) :
      Splits before w [⟨.endOfFile, lineAfter (before ++ w)⟩]
  | lexeme {before w x rest : List Char} {l : Lexeme} {tokens : List Token}
      (blank : Lexeme.IsBlankText w) (spells : Lexeme.Spells x l) (ends : l.EndsBefore rest)
      (more : Splits (before ++ w ++ x) rest tokens) :
      Splits before (w ++ x ++ rest) (⟨l, lineAfter (before ++ w)⟩ :: tokens)

/-- Blanks before a text change no token. -/
theorem Splits.blank {before w rest : List Char} {tokens : List Token}
    (hw : Lexeme.IsBlankText w) (h : Splits (before ++ w) rest tokens) :
    Splits before (w ++ rest) tokens := by
  have hblank {v : List Char} (hv : Lexeme.IsBlankText v) : Lexeme.IsBlankText (w ++ v) :=
    List.forall_mem_append.2 ⟨hw, hv⟩
  cases h with
  | @done _ v blank =>
    rw [List.append_assoc]
    exact .done (hblank blank)
  | @lexeme _ v x rest l tokens blank spells ends more =>
    rw [List.append_assoc before, ← List.append_assoc w, ← List.append_assoc w]
    refine .lexeme (hblank blank) spells ends ?_
    rwa [← List.append_assoc before]

/-! ### Cursors in a text -/

namespace Cursor

/-- The cursor between `before` and `rest`. -/
def between (before rest : List Char) : Cursor := ⟨Text.encode rest, lineAfter before⟩

/-- To move past characters is to move past their bytes. -/
theorem advance_between (before x rest : List Char) :
    (between before (x ++ rest)).advance (Text.encode x).length = between (before ++ x) rest := by
  simp only [between, advance, lineAfter, Text.encode_append, List.drop_left, List.take_left,
    List.count_append, Nat.add_assoc]

/-- A step of the scan, in terms of the lexeme at the head of the bytes after the blanks. -/
theorem next_eq (c : Cursor) :
    c.next = (⟨(Lexeme.head c.skipBlanks.rest).1, c.skipBlanks.line⟩,
      c.skipBlanks.advance (Lexeme.head c.skipBlanks.rest).2) := by
  rw [next]
  generalize c.skipBlanks = here
  rcases here with ⟨- | ⟨lead, rest⟩, line⟩ <;> rfl

/-- A cursor passes the blanks before a lexeme, all of them and no more. -/
theorem skipBlanks_between (before : List Char) {w : List Char} (hw : Lexeme.IsBlankText w)
    (rest : List Char) (hrest : ∀ c ∈ rest.head?, Lexeme.isBlankChar c = false) :
    (between before (w ++ rest)).skipBlanks = between (before ++ w) rest := by
  have htake : (between before (w ++ rest)).rest.takeWhile Lexeme.isBlank = Text.encode w := by
    rw [between, Lexeme.takeWhile_isBlank_encode, Lexeme.takeWhile_append_stop hw hrest]
  rw [skipBlanks, htake, advance_between]

/-- **The end.** Nothing but blanks scans as the end of file. -/
theorem next_of_blank (before : List Char) {w : List Char} (hw : Lexeme.IsBlankText w) :
    (between before w).next =
      (⟨.endOfFile, lineAfter (before ++ w)⟩, between (before ++ w) []) := by
  have hskip := skipBlanks_between before hw [] (by simp)
  rw [List.append_nil] at hskip
  rw [next_eq, hskip]
  rfl

/-- **One lexeme.** Blanks and a piece that spells a lexeme scan as that lexeme. -/
theorem next_of_spells (before : List Char) {w x rest : List Char} {l : Lexeme}
    (hw : Lexeme.IsBlankText w) (hx : Lexeme.Spells x l) (hl : l.EndsBefore rest) :
    (between before (w ++ x ++ rest)).next =
      (⟨l, lineAfter (before ++ w)⟩, between (before ++ w ++ x) rest) := by
  obtain ⟨c, cs, rfl, hc⟩ := hx.exists_cons
  have hskip := skipBlanks_between before hw (c :: cs ++ rest)
    (by rintro d ⟨rfl⟩; exact Lexeme.isBlankChar_of_lt hc)
  have hhead : Lexeme.head (between (before ++ w) (c :: cs ++ rest)).rest =
      (l, (Text.encode (c :: cs)).length) := Lexeme.head_encode hx hl
  rw [List.append_assoc, next_eq, hskip, hhead, advance_between]
  rfl

/-- **No lexeme.** Blanks and a piece that is no lexeme scan as its fault. -/
theorem next_of_breaks (before : List Char) {w x rest : List Char} {f : Fault}
    (hw : Lexeme.IsBlankText w) (hx : Lexeme.Breaks x rest f) :
    (between before (w ++ x ++ rest)).next.1 = ⟨.malformed f, lineAfter (before ++ w)⟩ := by
  obtain ⟨c, cs, rfl, hc⟩ := hx.exists_cons
  have hskip := skipBlanks_between before hw (c :: cs ++ rest) (by rintro d ⟨rfl⟩; exact hc)
  obtain ⟨size, hhead, -⟩ := Lexeme.head_of_breaks hx
  rw [List.append_assoc, next_eq, hskip, between, hhead]

/-- A text is blank, or starts with blanks and then a lexeme or something malformed. -/
theorem text_cases (cs : List Char) :
    Lexeme.IsBlankText cs ∨
    (∃ w x rest l, cs = w ++ x ++ rest ∧ Lexeme.IsBlankText w ∧ Lexeme.Spells x l ∧
      l.EndsBefore rest) ∨
    ∃ w x rest f, cs = w ++ x ++ rest ∧ Lexeme.IsBlankText w ∧ Lexeme.Breaks x rest f := by
  have hw : Lexeme.IsBlankText (cs.takeWhile Lexeme.isBlankChar) := fun c hc ↦
    List.mem_takeWhile_imp hc
  have hrest : ∀ c ∈ (cs.dropWhile Lexeme.isBlankChar).head?, Lexeme.isBlankChar c = false :=
    Lexeme.head?_dropWhile_eq_false
  have hcut := List.takeWhile_append_dropWhile (p := Lexeme.isBlankChar) (l := cs)
  generalize cs.takeWhile Lexeme.isBlankChar = w at hw hcut
  generalize cs.dropWhile Lexeme.isBlankChar = rest at hrest hcut
  subst hcut
  cases rest with
  | nil => exact Or.inl (by rwa [List.append_nil])
  | cons c rest =>
    rcases Lexeme.startsText_or_breaks (hrest c rfl) rest with
      ⟨x, rest', l, heq, hx, hl⟩ | ⟨x, rest', f, heq, hx⟩
    · exact Or.inr (Or.inl ⟨w, x, rest', l, by rw [heq, List.append_assoc], hw, hx, hl⟩)
    · exact Or.inr (Or.inr ⟨w, x, rest', f, by rw [heq, List.append_assoc], hw, hx⟩)

/-! ### Runs of the scan -/

/-- A run ends with the end of file. -/
theorem tokensWithin_of_endOfFile (calls : Nat) {c : Cursor}
    (h : c.next.1.lexeme = .endOfFile) : tokensWithin (calls + 1) c = .ok [c.next.1] c.next.2 := by
  rw [tokensWithin, Step.bind_of_ok (Step.modifyGet_apply next c), h]
  rfl

/-- A run fails with the first fault. -/
theorem tokensWithin_of_malformed (calls : Nat) {c : Cursor} {f : Fault}
    (h : c.next.1.lexeme = .malformed f) :
    tokensWithin (calls + 1) c = .error ⟨f, c.next.1.line⟩ c.next.2 := by
  rw [tokensWithin, Step.bind_of_ok (Step.modifyGet_apply next c), h]
  rfl

/-- A run that starts with a proper lexeme goes on after it. -/
theorem tokensWithin_of_lexeme (calls : Nat) {c : Cursor} (hend : c.next.1.lexeme ≠ .endOfFile)
    (hgood : ∀ f, c.next.1.lexeme ≠ .malformed f) :
    tokensWithin (calls + 1) c =
      (tokensWithin calls >>= fun tokens ↦ pure (c.next.1 :: tokens)) c.next.2 := by
  rw [tokensWithin, Step.bind_of_ok (Step.modifyGet_apply next c)]
  cases h : c.next.1.lexeme with
  | endOfFile => exact absurd h hend
  | malformed f => exact absurd h (hgood f)
  | _ => rfl

/-- Enough calls scan a text that splits into its tokens. -/
theorem tokensWithin_of_splits {before rest : List Char} {tokens : List Token}
    (h : Splits before rest tokens) :
    ∀ calls, (Text.encode rest).length < calls →
      ∃ c, tokensWithin calls (between before rest) = .ok tokens c := by
  -- On the splitting. Every lexeme covers a byte at least, so the calls outlast the text.
  induction h with
  | @done before w blank =>
    intro calls hcalls
    obtain ⟨calls, rfl⟩ := Nat.exists_eq_add_of_lt hcalls
    have hnext := next_of_blank before blank
    refine ⟨between (before ++ w) [], ?_⟩
    rw [tokensWithin_of_endOfFile _ (by rw [hnext]), hnext]
  | @lexeme before w x rest l tokens blank spells ends more ih =>
    intro calls hcalls
    have hshorter := spells.length_encode_lt w rest
    obtain ⟨calls, rfl⟩ : ∃ n, calls = n + 1 := ⟨calls - 1, by omega⟩
    have hnext := next_of_spells before blank spells ends
    obtain ⟨c', hc'⟩ := ih calls (by omega)
    refine ⟨c', ?_⟩
    rw [tokensWithin_of_lexeme calls (by rw [hnext]; exact spells.isProper.1)
      (by rw [hnext]; exact spells.isProper.2), hnext, Step.bind_of_ok hc']
    rfl

/-- What enough calls scan is a splitting of the text. -/
theorem splits_of_tokensWithin :
    ∀ (calls : Nat) {before rest : List Char} {tokens : List Token} {c : Cursor},
      (Text.encode rest).length < calls →
        tokensWithin calls (between before rest) = .ok tokens c → Splits before rest tokens := by
  intro calls
  induction calls with
  | zero =>
    intro before rest tokens c hcalls
    exact absurd hcalls (Nat.not_lt_zero _)
  | succ calls ih =>
    intro before rest tokens c hcalls h
    rcases text_cases rest with
      hw | ⟨w, x, rest, l, rfl, hw, hx, hl⟩ | ⟨w, x, rest, f, rfl, hw, hx⟩
    · rw [tokensWithin_of_endOfFile calls (by rw [next_of_blank before hw])] at h
      cases h
      rw [next_of_blank before hw]
      exact .done hw
    · have hnext := next_of_spells before hw hx hl
      rw [tokensWithin_of_lexeme calls (by rw [hnext]; exact hx.isProper.1)
        (by rw [hnext]; exact hx.isProper.2), hnext, Step.bind_eq_ok_iff] at h
      obtain ⟨tokens', c', hrun, hdone⟩ := h
      cases hdone
      have hshorter := hx.length_encode_lt w rest
      exact .lexeme hw hx hl (ih (by omega) hrun)
    · rw [tokensWithin_of_malformed calls (by rw [next_of_breaks before hw hx])] at h
      cases h

end Cursor

/-- A text that splits into tokens is scanned to these. -/
theorem tokenize_of_splits {source : String} {tokens : List Token}
    (h : Splits [] source.toList tokens) : tokenize source = .ok tokens := by
  obtain ⟨c, hc⟩ := Cursor.tokensWithin_of_splits h _ (Nat.lt_succ_self _)
  have hrun : Cursor.tokens (Cursor.start source) = .ok tokens c := hc
  rw [tokenize, hrun]

/-- A text that is scanned to tokens splits into these. -/
theorem splits_of_tokenize {source : String} {tokens : List Token}
    (h : tokenize source = .ok tokens) : Splits [] source.toList tokens := by
  rw [tokenize] at h
  rcases hrun : Cursor.tokens (Cursor.start source) with ⟨ts, c⟩ | ⟨e, c⟩
  · rw [hrun] at h
    cases h
    exact Cursor.splits_of_tokensWithin _ (Nat.lt_succ_self _) hrun
  · rw [hrun] at h
    cases h

/-- **The scan loses and invents nothing.** A text is scanned into a list of tokens exactly when
it splits, by maximal munch, into blanks and the lexemes of that list. -/
theorem tokenize_eq_ok_iff_splits (source : String) (tokens : List Token) :
    tokenize source = .ok tokens ↔ Splits [] source.toList tokens :=
  ⟨splits_of_tokenize, tokenize_of_splits⟩

end KannadaScript
