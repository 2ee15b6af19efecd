import KannadaScript.Proofs.Text.Encoding
import KannadaScript.Token.Cursor

/-!
# Spellings of lexemes

What pieces of text spell, said without a cursor and without bytes: `Lexeme.Spells` gives the lexeme
of a piece of text, and `Lexeme.EndsBefore` says where a lexeme may end, so that it could not have
been longer. Words end before anything but a letter or a digit, numbers before anything but a digit;
the mark of assignment ends before anything but a second sign of its kind, and all others end
anywhere. `Lexeme.Breaks` says where no lexeme can start, and why.

The scan is taken through its branches once for each kind of lexeme, on encoded characters. The
class of the first character decides the branch (`head_encode_digit`, `head_encode_letter`,
`head_encode_quote`, and `head_encode_of_lt` for marks), and in each branch the run of bytes that is
taken is the run of characters of a class. So nothing about bytes is left in what follows.

Both directions are needed. From a spelling to its lexeme the run is known and is shown to be what
the scan takes; from a lexeme to its spelling the run is what the scan takes, and is shown to be a
spelling that ends there.

Main statements: `Lexeme.head_encode`, the lexeme at the head of some bytes is the one that the
characters there spell; and `Lexeme.startsText_or_breaks`, a text that starts with anything but a
blank starts with a lexeme or with something malformed.
-/

namespace KannadaScript

/-! ### What pieces of text spell -/

namespace Lexeme

/-- Blank, tab, carriage return and line feed. -/
def isBlankChar (c : Char) : Bool := c == ' ' || c == '\t' || c == '\r' || c == '\n'

/-- A text of nothing but blanks. -/
def IsBlankText (cs : List Char) : Prop := ∀ c ∈ cs, isBlankChar c = true

/-- A letter, then letters and digits. -/
def isWord : List Char → Bool
  | [] => false
  | c :: cs => Kannada.isLetter c.toNat && cs.all fun d ↦ Kannada.isWordPart d.toNat

/-- A word that is short enough for a name and not reserved. -/
def isName (cs : List Char) : Bool :=
  isWord cs && decide ((Text.encode cs).length ≤ maxNameBytes) &&
    Keyword.all.all fun k ↦ k.spelling.toList != cs

/-- The number that a run of Kannada digits writes in base ten. -/
def decimalValue (ds : List Char) : Nat :=
  ds.foldl (fun v d ↦ v * 10 + Kannada.digitValue d.toNat) 0

/-- The lexeme that a piece of text spells. -/
inductive Spells : List Char → Lexeme → Prop
  | keyword (k : Keyword) : Spells k.spelling.toList (.keyword k)
  | name {cs : List Char} (free : isName cs = true) : Spells cs (.name (String.ofList cs))
  | number {ds : List Char} {v : Int32} (nonempty : ds ≠ [])
      (digits : ∀ d ∈ ds, Kannada.isDigit d.toNat = true)
      (value : v.toInt = Int.bmod (decimalValue ds) (2 ^ 32)) : Spells ds (.number v)
  | quoted {cs : List Char} (inner : '"' ∉ cs) :
      Spells ('"' :: cs ++ ['"']) (.quoted (String.ofList cs))
  | mark (m : Mark) : Spells m.spelling.toList (.mark m)

/-- **Maximal munch.** Whether a lexeme can end where `rest` begins: a word not before a letter
or a digit, a number not before a digit, and a single `=` not before another. -/
def EndsBefore (rest : List Char) : Lexeme → Prop
  | .keyword _ | .name _ => ∀ c ∈ rest.head?, Kannada.isWordPart c.toNat = false
  | .number _ => ∀ c ∈ rest.head?, Kannada.isDigit c.toNat = false
  | .mark .assign => ∀ c ∈ rest.head?, c ≠ '='
  | _ => True

/-- Why `x`, in front of `rest`, is no lexeme: a character that starts none, a quote that is never
closed, or a word that is too long and could not have been shorter. -/
inductive Breaks : (x rest : List Char) → Fault → Prop
  | unexpected {c : Char} {rest : List Char} (blank : isBlankChar c = false)
      (digit : Kannada.isDigit c.toNat = false) (letter : Kannada.isLetter c.toNat = false)
      (quote : c ≠ '"') (mark : ∀ m : Mark, m.spelling.toList ≠ [c]) :
      Breaks [c] rest (.unexpected c)
  | unterminated {rest : List Char} (unclosed : '"' ∉ rest) : Breaks ['"'] rest .unterminated
  | nameTooLong {x rest : List Char} (word : isWord x = true)
      (ends : ∀ c ∈ rest.head?, Kannada.isWordPart c.toNat = false)
      (long : maxNameBytes < (Text.encode x).length) : Breaks x rest .nameTooLong

end Lexeme

/-! ### Classes of characters -/

namespace Kannada

theorem isDigit_iff {cp : Nat} : isDigit cp = true ↔ 0x0CE6 ≤ cp ∧ cp ≤ 0x0CEF := by
  show (decide (0x0CE6 ≤ cp) && decide (cp ≤ 0x0CEF)) = true ↔ _
  simp

/-- The letters: the block of the script without its digits, and the Vedic signs. -/
theorem isLetter_iff {cp : Nat} :
    isLetter cp = true ↔
      (0x0C80 ≤ cp ∧ cp ≤ 0x0CFF ∧ ¬ (0x0CE6 ≤ cp ∧ cp ≤ 0x0CEF)) ∨
        (0x1CD0 ≤ cp ∧ cp ≤ 0x1CFA) := by
  rw [← isDigit_iff]
  simp [isLetter, and_assoc]

theorem isWordPart_iff {cp : Nat} :
    isWordPart cp = true ↔ isLetter cp = true ∨ isDigit cp = true := by
  simp [isWordPart]

/-- Letters and digits have more than one byte. -/
theorem le_of_isWordPart {cp : Nat} (h : isWordPart cp = true) : 0x80 ≤ cp := by
  rw [isWordPart_iff, isLetter_iff, isDigit_iff] at h
  omega

end Kannada

namespace Mark

/-- The first byte of a longer character is no mark. -/
theorem ofByte?_of_le {b : UInt8} (h : 0x80 ≤ b.toNat) : ofByte? b = none := by
  fun_cases ofByte? b <;> first | rfl | simp at h

/-- A byte spells a mark exactly when it is the mark's whole spelling. -/
theorem ofByte?_eq_some_iff {b : UInt8} {m : Mark} :
    ofByte? b = some m ↔ Text.bytes m.spelling = [b] := by
  constructor
  · intro h
    unfold ofByte? at h
    split at h <;> cases h <;> rfl
  · intro h
    cases m <;> cases h <;> rfl

end Mark

/-! ### Words -/

namespace Keyword

theorem isWord_spelling (k : Keyword) : Lexeme.isWord k.spelling.toList = true := by
  cases k <;> rfl

/-- No keyword is too long for a name. -/
theorem length_spelling_le (k : Keyword) : (Text.bytes k.spelling).length ≤ maxNameBytes := by
  cases k <;> decide

/-- A keyword is found by its spelling, and by no other text. -/
theorem ofSpelling?_eq_some_iff {text : String} {k : Keyword} :
    ofSpelling? text = some k ↔ k.spelling = text := by
  constructor
  · intro h
    have hk := List.find?_some h
    exact eq_of_beq hk
  · rintro rfl
    cases k <;> decide

end Keyword

namespace Lexeme

/-- A word starts with a letter and goes on with letters and digits. -/
theorem isWord_eq_true_iff {cs : List Char} :
    isWord cs = true ↔
      (∃ c ∈ cs.head?, Kannada.isLetter c.toNat = true) ∧
        ∀ d ∈ cs, Kannada.isWordPart d.toNat = true := by
  cases cs with
  | nil => simp [isWord]
  | cons c cs =>
    simp only [isWord, Bool.and_eq_true, List.all_eq_true, List.head?_cons, Option.mem_some_iff,
      exists_eq_left', List.mem_cons, forall_eq_or_imp]
    constructor
    · rintro ⟨hc, hcs⟩
      exact ⟨hc, by simp [Kannada.isWordPart, hc], hcs⟩
    · rintro ⟨hc, -, hcs⟩
      exact ⟨hc, hcs⟩

/-- A name is a word that is not too long and no keyword. -/
theorem isName_eq_true_iff {cs : List Char} :
    isName cs = true ↔
      isWord cs = true ∧ (Text.encode cs).length ≤ maxNameBytes ∧
        Keyword.ofSpelling? (String.ofList cs) = none := by
  have hfree : (Keyword.all.all fun k ↦ k.spelling.toList != cs) = true ↔
      Keyword.ofSpelling? (String.ofList cs) = none := by
    rw [Keyword.ofSpelling?, List.find?_eq_none, List.all_eq_true]
    refine forall₂_congr fun k _ ↦ ?_
    rw [bne_iff_ne, beq_iff_eq, ← String.toList_inj, String.toList_ofList]
  rw [isName, Bool.and_eq_true, Bool.and_eq_true, hfree, decide_eq_true_iff, and_assoc]

/-- What a word stands for, by its text. -/
theorem ofWord_encode (cs : List Char) :
    ofWord (Text.encode cs) =
      if maxNameBytes < (Text.encode cs).length then .malformed .nameTooLong
      else
        match Keyword.ofSpelling? (String.ofList cs) with
        | some k => .keyword k
        | none => .name (String.ofList cs) := by
  cases hword : Keyword.ofSpelling? (String.ofList cs) <;>
    simp [ofWord, Text.ofBytes?_encode, hword]

/-! ### The scanners on encoded text -/

/-- A number's value is that of its digits, reduced to 32 bits. -/
theorem valueOf_map_ofChar (ds : List Char) :
    valueOf (ds.map Reading.ofChar) = Int32.ofNat (decimalValue ds) := by
  -- `Int32.ofNat` commutes with sums and products, so it may be taken once, at the end.
  have hfold : ∀ n : Nat,
      (ds.map Reading.ofChar).foldl
          (fun v r ↦ v * 10 + Int32.ofNat (Kannada.digitValue r.codePoint)) (Int32.ofNat n) =
        Int32.ofNat (ds.foldl (fun v d ↦ v * 10 + Kannada.digitValue d.toNat) n) := by
    induction ds with
    | nil => intro n; rfl
    | cons d ds ih =>
      intro n
      rw [List.map_cons, List.foldl_cons, List.foldl_cons, ← ih, Int32.ofNat_add, Int32.ofNat_mul]
      rfl
  exact hfold 0

/-- On a text, a number is scanned as far as its digits go. -/
theorem scanNumber_encode (cs : List Char) :
    scanNumber (Text.encode cs) =
      (.number (Int32.ofNat (decimalValue (cs.takeWhile fun c ↦ Kannada.isDigit c.toNat))),
        (Text.encode (cs.takeWhile fun c ↦ Kannada.isDigit c.toNat)).length) := by
  rw [scanNumber, Reading.run_encode, valueOf_map_ofChar, Reading.span_map_ofChar]

/-- On a text, a word is scanned as far as its letters and digits go. -/
theorem scanWord_encode (cs : List Char) :
    scanWord (Text.encode cs) =
      (ofWord (Text.encode (cs.takeWhile fun c ↦ Kannada.isWordPart c.toNat)),
        (Text.encode (cs.takeWhile fun c ↦ Kannada.isWordPart c.toNat)).length) := by
  have hsplit := Text.encode_append (cs.takeWhile fun c ↦ Kannada.isWordPart c.toNat)
    (cs.dropWhile fun c ↦ Kannada.isWordPart c.toNat)
  rw [List.takeWhile_append_dropWhile] at hsplit
  rw [scanWord, Reading.run_encode, Reading.span_map_ofChar]
  simp only [hsplit, List.take_left]

/-- The bytes up to the next quote are the characters up to the next quote. -/
theorem takeWhile_ne_quote_encode (cs : List Char) :
    (Text.encode cs).takeWhile (· != quote) = Text.encode (cs.takeWhile (· != '"')) := by
  refine Text.takeWhile_encode (fun c hc b hb ↦ ?_) (fun c hc b hb ↦ ?_) cs
  · refine bne_iff_ne.2 fun h ↦ bne_iff_ne.1 hc ?_
    subst h
    exact Char.toNat_inj.1 (Text.encodeChar_of_mem (by decide) hb).1
  · have hquote : c = '"' := by simpa using hc
    subst hquote
    cases hb
    decide

/-- What stands before the next quote is the quoted text. -/
theorem scanQuoted_encode_append {cs rest : List Char} (h : '"' ∉ cs) :
    scanQuoted (Text.encode (cs ++ '"' :: rest)) =
      (.quoted (String.ofList cs), (Text.encode cs).length + 2) := by
  have hne : ∀ c ∈ cs, (c != '"') = true := fun c hc ↦ bne_iff_ne.2 fun heq ↦ h (heq ▸ hc)
  have hcs : (cs ++ '"' :: rest).takeWhile (· != '"') = cs := by
    rw [List.takeWhile_append_of_pos hne]
    simp
  rw [scanQuoted, takeWhile_ne_quote_encode, hcs, Text.encode_append, List.drop_left]
  show (Lexeme.quoted ((Text.ofBytes? (Text.encode cs)).getD ""), _) = _
  rw [Text.ofBytes?_encode]
  rfl

/-- Without a quote everything that is left is malformed. -/
theorem scanQuoted_encode_of_not_mem {cs : List Char} (h : '"' ∉ cs) :
    scanQuoted (Text.encode cs) = (.malformed .unterminated, (Text.encode cs).length + 1) := by
  have hcs : cs.takeWhile (· != '"') = cs :=
    List.takeWhile_eq_self_iff.2 fun c hc ↦ bne_iff_ne.2 fun heq ↦ h (heq ▸ hc)
  rw [scanQuoted, takeWhile_ne_quote_encode, hcs, List.drop_length]

/-! ### The lexeme at the head of a text -/

/-- The lexeme at the head of the bytes, with the number of bytes it covers; the end of file where
there are none. -/
def head : List UInt8 → Lexeme × Nat
  | [] => (.endOfFile, 0)
  | lead :: rest => scan lead rest

/-- Which scanner a text is given to is decided by its first character. -/
theorem head_encode_cons {c : Char} {lead : UInt8} {tail : List UInt8}
    (h : String.utf8EncodeChar c = lead :: tail) (cs : List Char) :
    head (Text.encode (c :: cs)) =
      if Kannada.isDigit c.toNat then scanNumber (Text.encode (c :: cs))
      else if Kannada.isLetter c.toNat then scanWord (Text.encode (c :: cs))
      else if c.toNat = quote.toNat then scanQuoted (tail ++ Text.encode cs)
      else scanMark c.toNat lead (tail ++ Text.encode cs) := by
  rw [Text.encode_cons, h, List.cons_append, head, scan, Reading.ofLead_of_encode h]
  rfl

/-- A digit starts a number. -/
theorem head_encode_digit {c : Char} (h : Kannada.isDigit c.toNat = true) (cs : List Char) :
    head (Text.encode (c :: cs)) = scanNumber (Text.encode (c :: cs)) := by
  obtain ⟨lead, tail, he⟩ := Text.exists_lead c
  rw [head_encode_cons he, if_pos h]

/-- A letter starts a word. -/
theorem head_encode_letter {c : Char} (h : Kannada.isLetter c.toNat = true) (cs : List Char) :
    head (Text.encode (c :: cs)) = scanWord (Text.encode (c :: cs)) := by
  obtain ⟨lead, tail, he⟩ := Text.exists_lead c
  have hdigit : ¬ Kannada.isDigit c.toNat = true := by
    rw [Kannada.isLetter_iff] at h
    rw [Kannada.isDigit_iff]
    omega
  rw [head_encode_cons he, if_neg hdigit, if_pos h]

/-- A quote starts a quoted text. -/
theorem head_encode_quote (cs : List Char) :
    head (Text.encode ('"' :: cs)) = scanQuoted (Text.encode cs) :=
  head_encode_cons (c := '"') rfl cs

/-- A character below 0x80 other than a quote is a mark or nothing. -/
theorem head_encode_of_lt {c : Char} (h : c.toNat < 0x80) (hq : c ≠ '"') (cs : List Char) :
    head (Text.encode (c :: cs)) = scanMark c.toNat (UInt8.ofNat c.toNat) (Text.encode cs) := by
  have hdigit : ¬ Kannada.isDigit c.toNat = true := by
    rw [Kannada.isDigit_iff]
    omega
  have hletter : ¬ Kannada.isLetter c.toNat = true := by
    rw [Kannada.isLetter_iff]
    omega
  have hquote : ¬ c.toNat = quote.toNat := fun heq ↦ hq (Char.toNat_inj.1 heq)
  rw [head_encode_cons (Text.encodeChar_of_lt h), if_neg hdigit, if_neg hletter, if_neg hquote,
    List.nil_append]

theorem charOf_toNat (c : Char) : charOf c.toNat = c := by
  have hvalid : c.toNat.isValidChar := c.valid
  rw [charOf, if_pos hvalid, Char.ofNat_toNat]

/-- A character of no class and no mark starts no lexeme. -/
theorem head_encode_other {c : Char} (hdigit : Kannada.isDigit c.toNat = false)
    (hletter : Kannada.isLetter c.toNat = false) (hquote : c ≠ '"')
    (hmark : ∀ m : Mark, m.spelling.toList ≠ [c]) (cs : List Char) :
    head (Text.encode (c :: cs)) = (.malformed (.unexpected c), 1) := by
  obtain ⟨lead, tail, he⟩ := Text.exists_lead c
  -- A mark is one byte below 0x80, and such a byte is a whole character.
  have hnone : Mark.ofByte? lead = none := by
    by_cases hlead : lead.toNat < 0x80
    · obtain ⟨-, hone⟩ := Text.encodeChar_of_mem hlead (he ▸ List.mem_cons_self)
      refine Option.eq_none_iff_forall_ne_some.2 fun m hm ↦ hmark m ?_
      rw [Mark.ofByte?_eq_some_iff, ← hone] at hm
      exact Text.encode_injective (hm.trans (List.append_nil _).symm)
    · exact Mark.ofByte?_of_le (by omega)
  have hne : ¬ c.toNat = quote.toNat := fun heq ↦ hquote (Char.toNat_inj.1 heq)
  rw [head_encode_cons he, hdigit, hletter, if_neg Bool.false_ne_true, if_neg Bool.false_ne_true,
    if_neg hne, scanMark, hnone, charOf_toNat]

/-! ### From a spelling to its lexeme -/

/-- The longest run of a class, where the run is known. -/
theorem takeWhile_append_stop {α : Type} {p : α → Bool} {xs rest : List α}
    (hxs : ∀ a ∈ xs, p a = true) (hrest : ∀ a ∈ rest.head?, p a = false) :
    (xs ++ rest).takeWhile p = xs := by
  rw [List.takeWhile_append_of_pos hxs]
  cases rest with
  | nil => exact List.append_nil xs
  | cons a rest => rw [List.takeWhile_cons_of_neg (by simp [hrest a rfl]), List.append_nil]

/-- A word that cannot be longer is scanned whole. -/
theorem head_of_isWord {x rest : List Char} (hx : isWord x = true)
    (hrest : ∀ c ∈ rest.head?, Kannada.isWordPart c.toNat = false) :
    head (Text.encode (x ++ rest)) = (ofWord (Text.encode x), (Text.encode x).length) := by
  obtain ⟨⟨c, hc, hletter⟩, hparts⟩ := isWord_eq_true_iff.1 hx
  cases x with
  | nil => cases hc
  | cons d x =>
    cases hc
    rw [List.cons_append, head_encode_letter hletter, scanWord_encode, ← List.cons_append,
      takeWhile_append_stop hparts hrest]

/-- A mark that cannot be longer is scanned whole. -/
theorem head_of_mark (m : Mark) {rest : List Char} (h : EndsBefore rest (.mark m)) :
    head (Text.encode (m.spelling.toList ++ rest)) =
      (.mark m, (Text.encode m.spelling.toList).length) := by
  cases m with
  | assign =>
    -- the byte of `=` is the first byte of no other character
    have hhead : ¬ (Text.encode rest).head? = some 0x3D := by
      cases rest with
      | nil => simp
      | cons c rest =>
        obtain ⟨lead, tail, he⟩ := Text.exists_lead c
        rw [Text.encode_cons, he, List.cons_append, List.head?_cons]
        rintro ⟨rfl⟩
        have hc := (Text.encodeChar_of_mem (c := c) (by decide) (he ▸ List.mem_cons_self)).1
        exact h c rfl (Char.toNat_inj.1 hc)
    show head (Text.encode ('=' :: rest)) = _
    rw [head_encode_of_lt (by decide) (by decide)]
    exact if_neg hhead
  | equal =>
    show head (Text.encode ('=' :: '=' :: rest)) = _
    rw [head_encode_of_lt (by decide) (by decide)]
    rfl
  | plus | minus | star | slash | openParen | closeParen | openBrace | closeBrace | semicolon =>
    exact head_encode_of_lt (by decide) (by decide) rest

/-- What a piece of text spells is what the scan finds there, if the piece cannot be longer. -/
theorem head_encode {x rest : List Char} {l : Lexeme} (hx : Spells x l) (hl : l.EndsBefore rest) :
    head (Text.encode (x ++ rest)) = (l, (Text.encode x).length) := by
  cases hx with
  | keyword k =>
    have hshort : (Text.encode k.spelling.toList).length ≤ maxNameBytes := k.length_spelling_le
    rw [head_of_isWord k.isWord_spelling hl, ofWord_encode, String.ofList_toList,
      Keyword.ofSpelling?_eq_some_iff.2 rfl, if_neg (Nat.not_lt.2 hshort)]
  | name free =>
    obtain ⟨hword, hshort, hfree⟩ := isName_eq_true_iff.1 free
    rw [head_of_isWord hword hl, ofWord_encode, hfree, if_neg (Nat.not_lt.2 hshort)]
  | @number ds v nonempty digits value =>
    obtain ⟨d, ds, rfl⟩ := List.exists_cons_of_ne_nil nonempty
    have hv : Int32.ofNat (decimalValue (d :: ds)) = v :=
      Int32.toInt_inj.1 (Int32.toInt_ofNat'.trans value.symm)
    rw [List.cons_append, head_encode_digit (digits d List.mem_cons_self), scanNumber_encode,
      ← List.cons_append, takeWhile_append_stop digits hl, hv]
  | @quoted cs inner =>
    rw [List.cons_append, List.cons_append, head_encode_quote, List.append_assoc,
      List.singleton_append, scanQuoted_encode_append inner, Text.encode_cons, Text.encode_append,
      List.length_append, List.length_append]
    refine Prod.ext rfl ?_
    show (Text.encode cs).length + 2 = 1 + ((Text.encode cs).length + 1)
    omega
  | mark m => exact head_of_mark m hl

/-! ### From a lexeme to its spelling -/

theorem head?_dropWhile_eq_false {α : Type} {p : α → Bool} {xs : List α} :
    ∀ a ∈ (xs.dropWhile p).head?, p a = false := by
  intro a ha
  have h := List.head?_dropWhile_not p xs
  rw [Option.mem_def.1 ha] at h
  exact h

/-- The text starts with a piece that spells a lexeme and cannot be longer. -/
def StartsText (cs : List Char) : Prop :=
  ∃ x rest l, cs = x ++ rest ∧ Spells x l ∧ l.EndsBefore rest

/-- A text that starts with a digit starts with a number. -/
theorem startsText_of_digit {c : Char} (h : Kannada.isDigit c.toNat = true) (cs : List Char) :
    StartsText (c :: cs) := by
  refine ⟨(c :: cs).takeWhile fun d ↦ Kannada.isDigit d.toNat,
    (c :: cs).dropWhile fun d ↦ Kannada.isDigit d.toNat, .number _,
    List.takeWhile_append_dropWhile.symm, .number ?_ ?_ Int32.toInt_ofNat', ?_⟩
  · rw [List.takeWhile_cons, if_pos h]
    exact List.cons_ne_nil _ _
  · intro d hd
    exact List.mem_takeWhile_imp (p := fun d : Char ↦ Kannada.isDigit d.toNat) hd
  · exact head?_dropWhile_eq_false (p := fun d : Char ↦ Kannada.isDigit d.toNat)

/-- The text starts with a piece that is no lexeme. -/
def BreaksText (cs : List Char) : Prop := ∃ x rest f, cs = x ++ rest ∧ Breaks x rest f

/-- The longest run of letters and digits is a keyword or a name, or else it is too long. -/
theorem startsText_of_letter {c : Char} (h : Kannada.isLetter c.toNat = true) (cs : List Char) :
    StartsText (c :: cs) ∨ BreaksText (c :: cs) := by
  have hcut := List.takeWhile_append_dropWhile (p := fun d : Char ↦ Kannada.isWordPart d.toNat)
    (l := c :: cs)
  have hend : ∀ d ∈ ((c :: cs).dropWhile fun d ↦ Kannada.isWordPart d.toNat).head?,
      Kannada.isWordPart d.toNat = false :=
    head?_dropWhile_eq_false (p := fun d : Char ↦ Kannada.isWordPart d.toNat)
  have hword : isWord ((c :: cs).takeWhile fun d ↦ Kannada.isWordPart d.toNat) = true := by
    refine isWord_eq_true_iff.2 ⟨⟨c, ?_, h⟩, fun d hd ↦ ?_⟩
    · rw [List.takeWhile_cons, if_pos (Kannada.isWordPart_iff.2 (Or.inl h))]
      rfl
    · exact List.mem_takeWhile_imp (p := fun d : Char ↦ Kannada.isWordPart d.toNat) hd
  generalize (c :: cs).takeWhile (fun d ↦ Kannada.isWordPart d.toNat) = x at hcut hword
  generalize (c :: cs).dropWhile (fun d ↦ Kannada.isWordPart d.toNat) = rest at hcut hend
  rw [← hcut]
  by_cases hlong : maxNameBytes < (Text.encode x).length
  · exact Or.inr ⟨x, rest, _, rfl, .nameTooLong hword hend hlong⟩
  · left
    rcases hkey : Keyword.ofSpelling? (String.ofList x) with - | k
    · exact ⟨x, rest, .name _, rfl,
        .name (isName_eq_true_iff.2 ⟨hword, Nat.not_lt.1 hlong, hkey⟩), hend⟩
    · have hk : k.spelling.toList = x := by
        rw [Keyword.ofSpelling?_eq_some_iff.1 hkey, String.toList_ofList]
      subst hk
      exact ⟨_, rest, .keyword k, rfl, .keyword k, hend⟩

/-- A single mark, or the two signs of an equality. -/
theorem startsText_of_mark {c : Char} {m : Mark} (h : m.spelling.toList = [c]) (cs : List Char) :
    StartsText (c :: cs) := by
  by_cases hends : EndsBefore cs (.mark m)
  · exact ⟨_, cs, .mark m, (congrArg (· ++ cs) h).symm, .mark m, hends⟩
  · cases m with
    | assign =>
      cases h
      have hhead : cs.head? = some '=' := by
        by_contra hne
        refine hends fun d hd heq ↦ hne ?_
        rw [← heq]
        exact hd
      obtain ⟨rest, rfl⟩ := List.head?_eq_some_iff.1 hhead
      exact ⟨['=', '='], rest, .mark .equal, rfl, .mark .equal, trivial⟩
    | _ => exact absurd trivial hends

/-- A text that starts with no blank starts with a lexeme, or with something malformed. -/
theorem startsText_or_breaks {c : Char} (hblank : isBlankChar c = false) (cs : List Char) :
    StartsText (c :: cs) ∨ BreaksText (c :: cs) := by
  by_cases hdigit : Kannada.isDigit c.toNat = true
  · exact Or.inl (startsText_of_digit hdigit cs)
  by_cases hletter : Kannada.isLetter c.toNat = true
  · exact startsText_of_letter hletter cs
  by_cases hquote : c = '"'
  · subst hquote
    by_cases hclosed : '"' ∈ cs
    · obtain ⟨inner, rest, rfl, hinner⟩ := List.eq_append_cons_of_mem hclosed
      exact Or.inl ⟨_, rest, _, by simp, .quoted hinner, trivial⟩
    · exact Or.inr ⟨['"'], cs, _, rfl, .unterminated hclosed⟩
  by_cases hmark : ∃ m : Mark, m.spelling.toList = [c]
  · obtain ⟨m, hm⟩ := hmark
    exact Or.inl (startsText_of_mark hm cs)
  · rw [Bool.not_eq_true] at hdigit hletter
    exact Or.inr ⟨[c], cs, _, rfl,
      .unexpected hblank hdigit hletter hquote fun m hm ↦ hmark ⟨m, hm⟩⟩

/-- What is no lexeme scans as its fault. Only the search for a closing quote goes beyond it. -/
theorem head_of_breaks {x rest : List Char} {f : Fault} (h : Breaks x rest f) :
    ∃ size, head (Text.encode (x ++ rest)) = (.malformed f, size) ∧
      (f = .unterminated ∨ size ≤ (Text.encode x).length) := by
  cases h with
  | @unexpected c rest blank digit letter quote mark =>
    have hone : 0 < (Text.encode [c]).length :=
      List.length_pos_iff.2 (mt Text.encode_eq_nil_iff.1 (List.cons_ne_nil c []))
    exact ⟨1, head_encode_other digit letter quote mark rest, .inr hone⟩
  | unterminated unclosed =>
    have hhead := (head_encode_quote _).trans (scanQuoted_encode_of_not_mem unclosed)
    exact ⟨_, hhead, .inl rfl⟩
  | nameTooLong word ends long =>
    have hhead := head_of_isWord word ends
    rw [ofWord_encode, if_pos long] at hhead
    exact ⟨_, hhead, .inr le_rfl⟩

/-! ### Blanks -/

/-- The bytes up to the first that is no blank are the characters up to the first that is none. -/
theorem takeWhile_isBlank_encode (cs : List Char) :
    (Text.encode cs).takeWhile isBlank = Text.encode (cs.takeWhile isBlankChar) := by
  refine Text.takeWhile_encode (fun c hc b hb ↦ ?_) (fun c hc b hb ↦ ?_) cs
  · simp only [isBlankChar, Bool.or_eq_true, beq_iff_eq] at hc
    rcases hc with ((rfl | rfl) | rfl) | rfl <;>
      · obtain rfl := List.mem_singleton.1 hb
        rfl
  · rw [Bool.eq_false_iff]
    intro hblank
    have hmem := List.mem_of_mem_head? hb
    simp only [isBlank, Bool.or_eq_true, beq_iff_eq] at hblank
    have hne : isBlankChar c = true := by
      rcases hblank with ((rfl | rfl) | rfl) | rfl <;>
        · have hchar := (Text.encodeChar_of_mem (by decide) hmem).1
          rw [← Char.ofNat_toNat c, hchar]
          decide
    exact absurd hc (by simp [hne])

/-- No blank lies above the space. -/
theorem isBlankChar_of_lt {c : Char} (h : 0x20 < c.toNat) : isBlankChar c = false := by
  rw [Bool.eq_false_iff]
  intro hblank
  simp only [isBlankChar, Bool.or_eq_true, beq_iff_eq] at hblank
  rcases hblank with ((rfl | rfl) | rfl) | rfl <;> exact absurd h (by decide)

theorem exists_cons_of_isWord {x : List Char} (h : isWord x = true) :
    ∃ c cs, x = c :: cs ∧ 0x20 < c.toNat := by
  obtain ⟨⟨c, hc, hletter⟩, -⟩ := isWord_eq_true_iff.1 h
  obtain ⟨cs, rfl⟩ := List.head?_eq_some_iff.1 hc
  rw [Kannada.isLetter_iff] at hletter
  exact ⟨c, cs, rfl, by omega⟩

/-- A lexeme starts with a character beyond the blanks. -/
theorem Spells.exists_cons {x : List Char} {l : Lexeme} (h : Spells x l) :
    ∃ c cs, x = c :: cs ∧ 0x20 < c.toNat := by
  cases h with
  | keyword k => exact exists_cons_of_isWord k.isWord_spelling
  | name free => exact exists_cons_of_isWord (isName_eq_true_iff.1 free).1
  | number nonempty digits value =>
    obtain ⟨d, ds, rfl⟩ := List.exists_cons_of_ne_nil nonempty
    have hd := Kannada.isDigit_iff.1 (digits d List.mem_cons_self)
    exact ⟨d, ds, rfl, by omega⟩
  | quoted inner => exact ⟨_, _, rfl, by decide⟩
  | mark m => cases m <;> exact ⟨_, _, rfl, by decide⟩

/-- What is no lexeme starts with no blank either. -/
theorem Breaks.exists_cons {x rest : List Char} {f : Fault} (h : Breaks x rest f) :
    ∃ c cs, x = c :: cs ∧ isBlankChar c = false := by
  cases h with
  | unexpected blank _ _ _ _ => exact ⟨_, _, rfl, blank⟩
  | unterminated _ => exact ⟨_, _, rfl, by decide⟩
  | nameTooLong word _ _ =>
    obtain ⟨c, cs, rfl, hc⟩ := exists_cons_of_isWord word
    exact ⟨c, cs, rfl, isBlankChar_of_lt hc⟩

/-- A lexeme covers at least one byte. -/
theorem Spells.length_encode_lt {x : List Char} {l : Lexeme} (h : Spells x l)
    (w rest : List Char) : (Text.encode rest).length < (Text.encode (w ++ x ++ rest)).length := by
  obtain ⟨c, cs, rfl, -⟩ := h.exists_cons
  have hone : 0 < (Text.encode (c :: cs)).length :=
    List.length_pos_iff.2 (mt Text.encode_eq_nil_iff.1 (List.cons_ne_nil c cs))
  rw [Text.encode_append, Text.encode_append, List.length_append, List.length_append]
  omega

/-- What spells a lexeme is neither the end of file nor malformed. -/
theorem Spells.isProper {x : List Char} {l : Lexeme} (h : Spells x l) :
    l ≠ .endOfFile ∧ ∀ f, l ≠ .malformed f := by
  cases h <;> simp

end Lexeme

end KannadaScript
