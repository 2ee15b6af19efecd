import KannadaScript.Proofs.Token.Alignment

/-!
# Calls of the scan, one after another

A scan may be asked for one token after another, and asked again after a fault and at the end of the
text. This module follows such a run from the start of a text, call by call, with the number of
bytes that it has moved past.

Each call moves past blanks and past what its token covers (`Cursor.stride`). What one call does to
the place of the cursor is `advance_placed`; by induction over the calls, the cursor always stands
at its position, on the line of it (`after_eq_placed`), and never beyond the end
(`position_le_length`). What a call finds there is read off `Lexeme.Found`.

The line of a cursor is counted on every move, so that it is the line of the position is no wonder.
What is one is where line feeds can be: only among blanks and in quoted texts, closed or not
(`KeepsPlace.feeds`). A scan that counts in these two places, and moves past everything else without
looking, is `Cursor.nextCounting`, and from the start of a text it does the same at every call
(`next_eq_nextCounting`). On bytes that are no text it need not.

Each call but one that gives the end of file moves the cursor (`position_lt_succ`). So the end is
reached after as many calls as there are bytes, and from then on nothing changes
(`settled_of_endOfFile`).

Main statements: `scan_keeps_place`, the invariant of every run, faults included; and
`words_and_numbers_are_whole`, that words and numbers never cut a character.
-/

namespace KannadaScript.Cursor

/-! ### Runs -/

/-- The cursor after a number of calls from the start of a text. -/
def after (source : String) : (calls : Nat) → Cursor
  | 0 => start source
  | calls + 1 => (after source calls).next.2

/-- The token of the call that follows. -/
def tokenAfter (source : String) (calls : Nat) : Token := (after source calls).next.1

/-- The number of blanks at the cursor. -/
def gap (c : Cursor) : Nat := (c.rest.takeWhile Lexeme.isBlank).length

/-- The number of bytes that the next call moves past: the blanks, and what its token covers. -/
def stride (c : Cursor) : Nat := c.gap + (Lexeme.head c.skipBlanks.rest).2

/-- The number of bytes that a number of calls have moved past. -/
def position (source : String) : (calls : Nat) → Nat
  | 0 => 0
  | calls + 1 => position source calls + (after source calls).stride

/-- The place of the token of the call that follows, behind the blanks. -/
def tokenStart (source : String) (calls : Nat) : Nat :=
  position source calls + (after source calls).gap

/-! ### Places -/

/-- The cursor after the first `n` of some bytes. -/
def placed (bytes : List UInt8) (n : Nat) : Cursor :=
  ⟨bytes.drop n, 1 + (bytes.take n).count Lexeme.lineFeed⟩

/-- **Step lemma.** A move from one place leads to another, on the line of it. -/
theorem advance_placed (bytes : List UInt8) (n m : Nat) :
    (placed bytes n).advance m = placed bytes (n + m) := by
  rw [placed, advance, placed, List.drop_drop, List.take_add, List.count_append, Nat.add_assoc]

theorem next_snd (c : Cursor) :
    c.next.2 = (c.advance c.gap).advance (Lexeme.head c.skipBlanks.rest).2 := by
  rw [next_eq]
  rfl

/-- **Run lemma.** After any number of calls the cursor stands where they have moved it. -/
theorem after_eq_placed (source : String) (calls : Nat) :
    after source calls = placed (Text.bytes source) (position source calls) := by
  induction calls with
  | zero => rfl
  | succ calls ih =>
    rw [after, next_snd, position, stride, ← Nat.add_assoc]
    generalize (Lexeme.head (after source calls).skipBlanks.rest).2 = size
    generalize (after source calls).gap = gap
    rw [ih, advance_placed, advance_placed]

theorem skipBlanks_after (source : String) (calls : Nat) :
    (after source calls).skipBlanks = placed (Text.bytes source) (tokenStart source calls) := by
  rw [tokenStart, ← advance_placed, ← after_eq_placed]
  rfl

/-- The token of a call is what stands behind the blanks, with the line of that place. -/
theorem tokenAfter_eq (source : String) (calls : Nat) :
    tokenAfter source calls =
      ⟨(Lexeme.head ((Text.bytes source).drop (tokenStart source calls))).1,
        1 + ((Text.bytes source).take (tokenStart source calls)).count Lexeme.lineFeed⟩ := by
  rw [tokenAfter, next_eq, skipBlanks_after]
  rfl

/-- A call moves to the end of its token. -/
theorem position_succ (source : String) (calls : Nat) :
    position source (calls + 1) = tokenStart source calls +
      (Lexeme.head ((Text.bytes source).drop (tokenStart source calls))).2 := by
  rw [position, stride, ← Nat.add_assoc, skipBlanks_after]
  rfl

/-! ### Bounds -/

/-- The bytes from `n` up to `m`. -/
def piece (bytes : List UInt8) (n m : Nat) : List UInt8 := (bytes.take m).drop n

theorem piece_add (bytes : List UInt8) (n k : Nat) :
    piece bytes n (n + k) = (bytes.drop n).take k := by
  rw [piece, List.drop_take, Nat.add_sub_cancel_left]

/-- The blanks at a cursor, and what follows them. -/
theorem exists_rest_eq (c : Cursor) : ∃ blanks others, c.rest = blanks ++ others ∧
    blanks.length = c.gap ∧ (∀ b ∈ blanks, Lexeme.isBlank b = true) ∧
      ∀ b ∈ others.head?, Lexeme.isBlank b = false :=
  ⟨c.rest.takeWhile Lexeme.isBlank, c.rest.dropWhile Lexeme.isBlank,
    List.takeWhile_append_dropWhile.symm, rfl, fun _ hb ↦ List.mem_takeWhile_imp hb,
    Lexeme.head?_dropWhile_eq_false⟩

section Run

variable (source : String) (calls : Nat)

/-- Between the position and the token there are blanks only, and the token starts with none. -/
theorem blanks_before_token :
    (∀ b ∈ piece (Text.bytes source) (position source calls) (tokenStart source calls),
      Lexeme.isBlank b = true) ∧
    ∀ b ∈ ((Text.bytes source).drop (tokenStart source calls)).head?, Lexeme.isBlank b = false := by
  obtain ⟨blanks, others, hrest, hgap, hblanks, hothers⟩ := exists_rest_eq (after source calls)
  have hplace : (Text.bytes source).drop (position source calls) = blanks ++ others := by
    rw [← hrest, after_eq_placed]
    rfl
  constructor
  · rw [tokenStart, piece_add, hplace, List.take_left' hgap]
    exact hblanks
  · rw [tokenStart, ← List.drop_drop, hplace, List.drop_left' hgap]
    exact hothers

theorem tokenStart_le_of_position_le
    (h : position source calls ≤ (Text.bytes source).length) :
    tokenStart source calls ≤ (Text.bytes source).length := by
  have hgap : (after source calls).gap ≤ (after source calls).rest.length :=
    (List.takeWhile_prefix _).length_le
  have hrest : (after source calls).rest.length =
      (Text.bytes source).length - position source calls := by
    rw [after_eq_placed, placed, List.length_drop]
  rw [tokenStart]
  omega

/-- **Never beyond the end.** What one call moves past was there to be passed. -/
theorem position_le_length : position source calls ≤ (Text.bytes source).length := by
  induction calls with
  | zero => exact Nat.zero_le _
  | succ calls ih =>
    have hstart := tokenStart_le_of_position_le source calls ih
    have hlength := List.length_drop (i := tokenStart source calls) (l := Text.bytes source)
    rw [position_succ]
    rcases hdrop : (Text.bytes source).drop (tokenStart source calls) with - | ⟨lead, rest⟩
    · exact hstart
    · have hfits := (Lexeme.head_fits (List.cons_ne_nil lead rest)).le
      rw [← hdrop] at hfits ⊢
      omega

theorem tokenStart_le_length : tokenStart source calls ≤ (Text.bytes source).length :=
  tokenStart_le_of_position_le source calls (position_le_length source calls)

/-- What the next call finds, at whatever byte it stands. -/
theorem found_after : Lexeme.Found source.toList (tokenStart source calls)
    (Lexeme.head ((Text.bytes source).drop (tokenStart source calls))) :=
  Lexeme.head_found (tokenStart_le_length source calls) (blanks_before_token source calls).2

/-! ### The end of file -/

/-- The end of file is given exactly when nothing is left behind the blanks. -/
theorem tokenAfter_eq_endOfFile_iff : (tokenAfter source calls).lexeme = .endOfFile ↔
    (Text.bytes source).drop (tokenStart source calls) = [] := by
  rw [tokenAfter_eq]
  constructor
  · intro h
    by_contra hne
    exact (Lexeme.head_fits hne).proper h
  · intro h
    rw [h]
    rfl

/-- **Step lemma.** A call that does not give the end of file moves the cursor. -/
theorem position_lt_succ (h : (tokenAfter source calls).lexeme ≠ .endOfFile) :
    position source calls < position source (calls + 1) := by
  have hne := mt (tokenAfter_eq_endOfFile_iff source calls).2 h
  have hpos := (Lexeme.head_fits hne).pos
  have hstart : position source calls ≤ tokenStart source calls := Nat.le_add_right _ _
  rw [position_succ]
  omega

/-- As many calls as there are bytes, and one more, reach the end of file. -/
theorem exists_endOfFile : ∃ calls ≤ (Text.bytes source).length,
    (tokenAfter source calls).lexeme = .endOfFile := by
  by_contra hnone
  have hmoves : ∀ calls ≤ (Text.bytes source).length + 1, calls ≤ position source calls := by
    intro calls
    induction calls with
    | zero => exact fun _ ↦ Nat.zero_le _
    | succ calls ih =>
      intro hle
      have hcalls := ih (by omega)
      have hlt := position_lt_succ source calls fun h ↦ hnone ⟨calls, by omega, h⟩
      omega
  have hover := hmoves _ le_rfl
  have hwithin := position_le_length source ((Text.bytes source).length + 1)
  omega

end Run

/-- With nothing left a call gives the end of file, and changes nothing. -/
theorem next_of_rest_eq_nil {c : Cursor} (h : c.rest = []) :
    c.next = (⟨.endOfFile, c.line⟩, c) ∧ c.stride = 0 := by
  obtain ⟨rest, line⟩ := c
  obtain rfl : rest = [] := h
  exact ⟨rfl, rfl⟩

/-- Once the end of file has been given, nothing changes any more. -/
theorem settled_of_endOfFile {source : String} {calls : Nat}
    (h : (tokenAfter source calls).lexeme = .endOfFile) {later : Nat} (hlater : calls < later) :
    tokenAfter source later = tokenAfter source calls ∧
      after source later = after source (calls + 1) ∧
      position source later = position source (calls + 1) := by
  have hnil := (tokenAfter_eq_endOfFile_iff source calls).1 h
  have hstart : position source (calls + 1) = tokenStart source calls := by
    rw [position_succ, hnil]
    rfl
  have hplace : after source (calls + 1) =
      placed (Text.bytes source) (tokenStart source calls) := by
    rw [after_eq_placed, hstart]
  have hrest : (after source (calls + 1)).rest = [] := by
    rw [hplace]
    exact hnil
  obtain ⟨hnext, hstride⟩ := next_of_rest_eq_nil hrest
  -- on the later calls: each of them finds the cursor where the first one left it
  have hsame : after source later = after source (calls + 1) ∧
      position source later = position source (calls + 1) := by
    induction later, hlater using Nat.le_induction with
    | base => exact ⟨rfl, rfl⟩
    | succ later hle ih =>
      obtain ⟨hafter, hposition⟩ := ih
      rw [after, position, hafter, hposition, hnext, hstride]
      exact ⟨rfl, rfl⟩
  refine ⟨?_, hsame⟩
  rw [tokenAfter, hsame.1, hnext, tokenAfter_eq, hnil, hplace]
  rfl

/-! ### The invariant of runs -/

/-- What holds after a number of calls from the start of a text, and of the call that follows. -/
structure KeepsPlace (source : String) (calls : Nat) : Prop where
  /-- The calls have not moved beyond the end. -/
  within : position source calls ≤ (Text.bytes source).length
  /-- The cursor stands at its position. -/
  rest_eq : (after source calls).rest = (Text.bytes source).drop (position source calls)
  /-- The cursor is on the line of its position. -/
  line_eq : (after source calls).line =
    1 + ((Text.bytes source).take (position source calls)).count Lexeme.lineFeed
  /-- There are only blanks up to the place where the next token starts. -/
  blanks : ∀ b ∈ piece (Text.bytes source) (position source calls) (tokenStart source calls),
    Lexeme.isBlank b = true
  /-- The next token does not start with a blank. -/
  solid : ∀ b ∈ ((Text.bytes source).drop (tokenStart source calls)).head?,
    Lexeme.isBlank b = false
  /-- The next token is on the line of the place where it starts. -/
  token_line : (tokenAfter source calls).line =
    1 + ((Text.bytes source).take (tokenStart source calls)).count Lexeme.lineFeed
  /-- No line feed is passed but among blanks and in quoted texts. -/
  feeds : Lexeme.lineFeed ∈
      piece (Text.bytes source) (tokenStart source calls) (position source (calls + 1)) →
    (tokenAfter source calls).lexeme.isQuoted = true
  /-- Unless it gives the end of file, the next call moves the cursor. -/
  moves : (tokenAfter source calls).lexeme ≠ .endOfFile →
    position source calls < position source (calls + 1)

/-- The invariant holds after any number of calls, as each of its parts does. -/
theorem keepsPlace (source : String) (calls : Nat) : KeepsPlace source calls where
  within := position_le_length source calls
  rest_eq := by rw [after_eq_placed, placed]
  line_eq := by rw [after_eq_placed, placed]
  blanks := (blanks_before_token source calls).1
  solid := (blanks_before_token source calls).2
  token_line := by rw [tokenAfter_eq]
  feeds := by
    rw [position_succ, piece_add, tokenAfter_eq]
    exact (found_after source calls).isQuoted_of_lineFeed
  moves := position_lt_succ source calls

/-- The next token, and the cursor after it, for a scan that counts line ends in two places only:
among blanks, and in a quoted text, closed or not. -/
def nextCounting (c : Cursor) : Token × Cursor :=
  let here := c.skipBlanks
  let (lexeme, size) := Lexeme.head here.rest
  (⟨lexeme, here.line⟩,
    if lexeme.isQuoted then here.advance size else ⟨here.rest.drop size, here.line⟩)

/-- **Two places to count.** At every call from the start of a text it is enough to count line ends
among blanks and in quoted texts, since nothing else that is passed holds one. -/
theorem next_eq_nextCounting (source : String) (calls : Nat) :
    (after source calls).next = (after source calls).nextCounting := by
  have hfeeds := (keepsPlace source calls).feeds
  rw [position_succ, piece_add, tokenAfter_eq] at hfeeds
  rw [next_eq, nextCounting, skipBlanks_after]
  rcases hhead : Lexeme.head (placed (Text.bytes source) (tokenStart source calls)).rest with
    ⟨lexeme, size⟩
  rw [show Lexeme.head ((Text.bytes source).drop _) = (lexeme, size) from hhead] at hfeeds
  dsimp only at hfeeds ⊢
  split_ifs with hquoted
  · rfl
  · rw [advance, placed, List.count_eq_zero.2 (mt hfeeds hquoted), Nat.add_zero]

/-- **The invariant of runs.** However often a scan is asked for the next token, and whatever faults
it has met, its cursor is within the text, on the line that its position is on, and so is every
token; each call moves on, so the end of file is given at the latest when there have been as many
calls as bytes, and from then on every call gives it again and changes nothing. -/
theorem scan_keeps_place (source : String) :
    (∀ calls, KeepsPlace source calls) ∧
      (∃ calls ≤ (Text.bytes source).length, (tokenAfter source calls).lexeme = .endOfFile) ∧
      ∀ calls, (tokenAfter source calls).lexeme = .endOfFile → ∀ later, calls < later →
        tokenAfter source later = tokenAfter source calls ∧
          after source later = after source (calls + 1) ∧
          position source later = position source (calls + 1) :=
  ⟨keepsPlace source, exists_endOfFile source, fun _ h _ hlater ↦ settled_of_endOfFile h hlater⟩

/-- The second byte of the first character, read with the third, looks like a quote: a quoted text
is opened there, and runs over the end of the first line. -/
theorem scan_keeps_place_inside :
    let source := "ࠢ\n\""
    (tokenAfter source 0 = ⟨.malformed (.unexpected 'ࠢ'), 1⟩ ∧
      tokenAfter source 1 = ⟨.quoted "", 1⟩ ∧ tokenAfter source 2 = ⟨.endOfFile, 2⟩) ∧
    KeepsPlace source 1 ∧ KeepsPlace source 2 ∧
      ∀ later, 2 < later → tokenAfter source later = ⟨.endOfFile, 2⟩ := by
  intro source
  have hend : tokenAfter source 2 = ⟨.endOfFile, 2⟩ := by decide +kernel
  obtain ⟨hkeeps, -, hsettled⟩ := scan_keeps_place source
  refine ⟨⟨by decide +kernel, by decide +kernel, hend⟩, hkeeps 1, hkeeps 2, fun later hlater ↦ ?_⟩
  rw [(hsettled 2 (by rw [hend]) later hlater).1, hend]

/-! ### Words and numbers -/

/-- **Words and numbers are whole.** Whatever calls came before, faults included, a keyword, a name
or a number starts and ends between characters of the text, and is spelled by the letters and digits
between. So no word is ever refused because its bytes were no text. -/
theorem words_and_numbers_are_whole (source : String) (calls : Nat) :
    ((tokenAfter source calls).lexeme.isWordOrNumber = true →
      ∃ before x rest, source.toList = before ++ x ++ rest ∧
        (Text.encode before).length = tokenStart source calls ∧
        (Text.encode (before ++ x)).length = position source (calls + 1) ∧
        x ≠ [] ∧ (∀ c ∈ x, Kannada.isWordPart c.toNat = true) ∧
        Lexeme.Spells x (tokenAfter source calls).lexeme) ∧
    ∀ fault, (tokenAfter source calls).lexeme = .malformed fault →
      fault.message ≠ "Invalid UTF-8 sequence in identifier" := by
  have hfound := found_after source calls
  rw [position_succ, tokenAfter_eq]
  constructor
  · intro hl
    obtain ⟨before, x, rest, hplace, hstart, hsize, hspells⟩ := hfound.exists_spells hl
    obtain ⟨c, cs, hx, -⟩ := hspells.exists_cons
    refine ⟨before, x, rest, hplace, hstart, ?_, ?_, hspells.isWordPart_of_mem hl, hspells⟩
    · rw [Text.encode_append, List.length_append, hstart, hsize]
    · rw [hx]
      exact List.cons_ne_nil c cs
  · intro fault hfault
    exact hfound.message_ne hfault

/-- A name behind a character that starts no lexeme. The first three calls stand at its three bytes,
and the last of these, read with the first byte of the name, looks like a blank; the fourth finds
the name. -/
theorem words_and_numbers_are_whole_behind_fault :
    let source := "ࠀಕ೧"
    (tokenAfter source 2 = ⟨.malformed (.unexpected ' '), 1⟩ ∧
      tokenAfter source 3 = ⟨.name "ಕ೧", 1⟩ ∧ tokenStart source 3 = 3 ∧ position source 4 = 9) ∧
    ∃ before x rest, source.toList = before ++ x ++ rest ∧ (Text.encode before).length = 3 ∧
      (Text.encode (before ++ x)).length = 9 ∧ Lexeme.Spells x (.name "ಕ೧") := by
  intro source
  have htoken : tokenAfter source 3 = ⟨.name "ಕ೧", 1⟩ := by decide +kernel
  have hstart : tokenStart source 3 = 3 := by decide +kernel
  have hposition : position source 4 = 9 := by decide +kernel
  obtain ⟨before, x, rest, hplace, hbefore, hend, -, -, hspells⟩ :=
    (words_and_numbers_are_whole source 3).1 (by rw [htoken]; rfl)
  rw [htoken] at hspells
  exact ⟨⟨by decide +kernel, htoken, hstart, hposition⟩, before, x, rest, hplace,
    hbefore.trans hstart, hend.trans hposition, hspells⟩

end KannadaScript.Cursor
