import KannadaScript.Proofs.Code.Atoms
import KannadaScript.Proofs.Token.Splitting

/-!
# Code told in the language

Written code uses other words and other digits than source texts do. `retell` puts the words and the
digits of the language in their place, outside quoted literals; so code becomes a source text. It
goes through the characters once, with the letters of a word not yet finished in hand, and knows
nothing of atoms or trees: what it does can be checked on any text.

A row of atoms is readable (`Readable`) when each atom can be read by itself and no two of them run
together. An atom can be read by itself if it is a blank, a word or a mark of the language, a name
of the language, a number, or a text without the characters that a literal writes in another way
(`Atom.Plain`). Two words in a row would be one word, and an equals sign before another one would be
a comparison; so these ask for a separator behind them (`Atom.needsGap`, `separates`).

Both directions meet in the source text of an atom (`Atom.source`): retelling the code of an atom
gives its source text (`retell_code`), and the source text spells the atom's lexeme
(`spells_source`), which ends where the next atom begins (`endsBefore`).

Main statements: readable atoms are retold atom by atom (`retell_codeOf`), and the text that results
splits into exactly their lexemes (`exists_splits_sourceOf`).
-/

namespace KannadaScript.Code

/-! ### Retelling -/

/-- The keywords that code can contain. -/
def codeWords : List Keyword :=
  [.ifWord, .elseWord, .whileWord, .printWord, .trueWord, .falseWord]

/-- A word of code as the language spells it; other words stay. -/
def retellWord (word : List Char) : List Char :=
  match codeWords.find? (·.gloss.toList == word) with
  | some k => k.spelling.toList
  | none => word

/-- A digit of code as the language writes it; other characters stay. -/
def retellChar (c : Char) : Char :=
  if c.isDigit then Char.ofNat (Kannada.zero + (c.toNat - '0'.toNat)) else c

/-- Retell code that continues `word`, or that starts inside a quoted literal. -/
def retellFrom (word : List Char) (quoted : Bool) : List Char → List Char
  | [] => retellWord word
  | c :: cs =>
    if quoted then c :: retellFrom [] (c != '"') cs
    else if c.isAlpha then retellFrom (word ++ [c]) false cs
    else retellWord word ++ retellChar c :: retellFrom [] (c == '"') cs

/-- Code with the words and digits of the language instead of its own, outside quoted literals. -/
def retell (code : List Char) : List Char := retellFrom [] false code

theorem retellWord_nil : retellWord [] = [] := by decide

/-- A word of written code is retold as the keyword that it stands for. -/
theorem retellWord_gloss {k : Keyword} (h : k ∈ codeWords) :
    retellWord k.gloss.toList = k.spelling.toList := by
  cases k <;> first | rfl | simp [codeWords] at h

theorem retell_nil : retell [] = [] := retellWord_nil

/-- Letters are gathered into a word. -/
theorem retellFrom_letters {w : List Char} (hw : ∀ c ∈ w, c.isAlpha = true)
    (word rest : List Char) :
    retellFrom word false (w ++ rest) = retellFrom (word ++ w) false rest := by
  induction w generalizing word with
  | nil => simp
  | cons c w ih =>
    rw [List.forall_mem_cons] at hw
    rw [List.cons_append, retellFrom, if_neg Bool.false_ne_true, if_pos hw.1, ih hw.2,
      List.append_assoc]
    rfl

/-- Where no letter follows, a word ends. -/
theorem retellFrom_of_not_letter {rest : List Char} (h : ∀ c ∈ rest.head?, c.isAlpha = false)
    (word : List Char) : retellFrom word false rest = retellWord word ++ retell rest := by
  cases rest with
  | nil => rw [retell_nil, retellFrom, List.append_nil]
  | cons c rest =>
    have hc : c.isAlpha = false := h c rfl
    simp [retell, retellFrom, hc, retellWord_nil]

/-- A word with no letter behind it is retold by itself. -/
theorem retell_word {w rest : List Char} (hw : ∀ c ∈ w, c.isAlpha = true)
    (hrest : ∀ c ∈ rest.head?, c.isAlpha = false) :
    retell (w ++ rest) = retellWord w ++ retell rest := by
  rw [retell, retellFrom_letters hw, List.nil_append, retellFrom_of_not_letter hrest]

/-- Characters that are neither letters nor quotes are retold one by one. -/
theorem retell_chars {cs : List Char} (h : ∀ c ∈ cs, c.isAlpha = false ∧ c ≠ '"')
    (rest : List Char) : retell (cs ++ rest) = cs.map retellChar ++ retell rest := by
  induction cs with
  | nil => rfl
  | cons c cs ih =>
    rw [List.forall_mem_cons] at h
    have hquote : (c == '"') = false := beq_eq_false_iff_ne.2 h.1.2
    rw [List.map_cons, List.cons_append, List.cons_append, ← ih h.2]
    simp [retell, retellFrom, h.1.1, hquote, retellWord_nil]

/-- Nothing is retold inside a quoted literal. -/
theorem retell_quoted {cs : List Char} (h : '"' ∉ cs) (rest : List Char) :
    retell ('"' :: cs ++ '"' :: rest) = '"' :: cs ++ '"' :: retell rest := by
  have inside : retellFrom [] true (cs ++ '"' :: rest) = cs ++ '"' :: retell rest := by
    induction cs with
    | nil => simp [retellFrom, retell]
    | cons c cs ih =>
      rw [List.mem_cons, not_or] at h
      have hc : (c != '"') = true := bne_iff_ne.2 (Ne.symm h.1)
      rw [List.cons_append, retellFrom, if_pos rfl, hc, ih h.2, List.cons_append]
  rw [List.cons_append, retell, retellFrom, if_neg Bool.false_ne_true, if_neg (by decide),
    retellWord_nil, List.nil_append, List.cons_append, ← inside]
  rfl

/-! ### Atoms in the language -/

namespace Atom

/-- How an atom stands in a source text. -/
def source : Atom → List Char
  | .gap blanks => blanks
  | .keyword k => k.spelling.toList
  | .mark m => m.spelling.toList
  | .name x => x.toList
  | .digits n => n.repr.toList.map retellChar
  | .quoted s => '"' :: s.toList ++ ['"']

/-- The lexeme of an atom; a gap has none. -/
def lexeme? : Atom → Option Lexeme
  | .gap _ => none
  | .keyword k => some (.keyword k)
  | .mark m => some (.mark m)
  | .name x => some (.name x)
  | .digits n => some (.number (Int32.ofNat n))
  | .quoted s => some (.quoted s)

/-- The characters that a literal writes in another way, or that would end it. -/
def specialChars : List Char := ['"', '\\', '\n', '\r', '\t']

/-- The atom can be read by itself. -/
def Plain : Atom → Prop
  | .gap blanks => Lexeme.IsBlankText blanks
  | .keyword k => k ∈ codeWords
  | .name x => Lexeme.isName x.toList = true
  | .quoted s => ∀ c ∈ s.toList, c ∉ specialChars
  | .mark _ | .digits _ => True

/-- The atom runs together with some characters behind it. -/
def needsGap : Atom → Bool
  | .keyword _ | .name _ | .digits _ | .mark .assign => true
  | _ => false

end Atom

/-- A row of atoms as it stands in a source text. -/
def sourceOf (atoms : List Atom) : List Char := atoms.flatMap Atom.source

/-- The lexemes of a row of atoms. -/
def lexemesOf (atoms : List Atom) : List Lexeme := atoms.filterMap Atom.lexeme?

@[simp] theorem lexemesOf_nil : lexemesOf [] = [] := rfl

@[simp] theorem lexemesOf_cons (a : Atom) (as : List Atom) :
    lexemesOf (a :: as) = a.lexeme?.toList ++ lexemesOf as := by
  cases h : a.lexeme? with
  | none => exact List.filterMap_cons_none h
  | some l => exact List.filterMap_cons_some h

@[simp] theorem lexemesOf_append (as bs : List Atom) :
    lexemesOf (as ++ bs) = lexemesOf as ++ lexemesOf bs :=
  List.filterMap_append

/-- A row of atoms runs together with nothing before it: it is empty, or starts with a blank, a
parenthesis or a semicolon. -/
def separates : List Atom → Bool
  | [] | .gap (_ :: _) :: _ => true
  | .mark .openParen :: _ | .mark .closeParen :: _ | .mark .semicolon :: _ => true
  | _ => false

/-- Each atom can be read by itself, and what needs a gap has one. -/
def Readable : List Atom → Prop
  | [] => True
  | a :: as => a.Plain ∧ (a.needsGap = true → separates as = true) ∧ Readable as

/-- The characters with which a separating row can start. -/
def clearChars : List Char := [' ', '\t', '\r', '\n', '(', ')', ';']

/-- Blanks keep words apart. -/
theorem mem_clearChars_of_isBlankChar {c : Char} (h : Lexeme.isBlankChar c = true) :
    c ∈ clearChars := by
  simp only [Lexeme.isBlankChar, Bool.or_eq_true, beq_iff_eq] at h
  rcases h with ((rfl | rfl) | rfl) | rfl <;> decide

/-- What separates starts with a clear character, in code and in a source text. -/
theorem head?_of_separates {as : List Atom} (h : separates as = true) (hread : Readable as) :
    (∀ c ∈ (codeOf as).head?, c ∈ clearChars) ∧ ∀ c ∈ (sourceOf as).head?, c ∈ clearChars := by
  rcases as with _ | ⟨a, as⟩
  · exact ⟨nofun, nofun⟩
  · rcases a with (_ | ⟨b, bs⟩) | k | m | x | n | s
    case gap.cons =>
      have hb := mem_clearChars_of_isBlankChar (hread.1 b List.mem_cons_self)
      constructor
      · rintro c ⟨rfl⟩
        exact hb
      · rintro c ⟨rfl⟩
        exact hb
    case mark =>
      cases m
      case openParen | closeParen | semicolon =>
        constructor
        · rintro c ⟨rfl⟩
          decide
        · rintro c ⟨rfl⟩
          decide
      all_goals cases h
    all_goals cases h

/-! ### Classes of characters -/

/-- A character beyond ASCII is no letter, digit or quote of code. -/
theorem not_ascii {c : Char} (h : 0x80 ≤ c.toNat) :
    c.isAlpha = false ∧ c.isDigit = false ∧ c ≠ '"' := by
  refine ⟨?_, ?_, ?_⟩
  · simp [Char.isAlpha, Char.isUpper, Char.isLower, UInt32.le_iff_toNat_le]
    omega
  · simp [Char.isDigit, UInt32.le_iff_toNat_le]
    omega
  · rintro rfl
    exact absurd h (by decide)

/-- Decimal digits are neither letters nor quotes. -/
theorem not_letter_of_isDigit {c : Char} (h : c.isDigit = true) :
    c.isAlpha = false ∧ c ≠ '"' := by
  have hc : 48 ≤ c.toNat ∧ c.toNat ≤ 57 := by
    simpa [Char.isDigit, UInt32.le_iff_toNat_le] using h
  refine ⟨?_, ?_⟩
  · simp [Char.isAlpha, Char.isUpper, Char.isLower, UInt32.le_iff_toNat_le]
    omega
  · rintro rfl
    exact absurd h (by decide)

/-- The characters of a name are none of the characters of code. -/
theorem toNat_of_isName {x : List Char} (h : Lexeme.isName x = true) :
    ∀ c ∈ x, 0x80 ≤ c.toNat := by
  intro c hc
  have hword := (Lexeme.isName_eq_true_iff.1 h).1
  exact Kannada.le_of_isWordPart ((Lexeme.isWord_eq_true_iff.1 hword).2 c hc)

/-- A digit is retold as the digit of the language with the same value. -/
theorem toNat_retellChar {c : Char} (h : c.isDigit = true) :
    (retellChar c).toNat = 0x0CE6 + (c.toNat - '0'.toNat) ∧ c.toNat - '0'.toNat < 10 := by
  have hc : 48 ≤ c.toNat ∧ c.toNat ≤ 57 := by
    simpa [Char.isDigit, UInt32.le_iff_toNat_le] using h
  have hzero : '0'.toNat = 48 := rfl
  have hvalid : (0x0CE6 + (c.toNat - 48)).isValidChar := .inl (by omega)
  refine ⟨?_, by omega⟩
  rw [retellChar, if_pos h, Char.toNat_ofNat]
  exact if_pos hvalid

/-- The digits of code become digits of the language. -/
theorem isDigit_retellChar {c : Char} (h : c.isDigit = true) :
    Kannada.isDigit (retellChar c).toNat = true := by
  obtain ⟨hval, hlt⟩ := toNat_retellChar h
  rw [Kannada.isDigit_iff, hval]
  omega

/-- A number is written in digits. -/
theorem isDigit_of_mem_repr {n : Nat} {c : Char} (h : c ∈ n.repr.toList) : c.isDigit = true := by
  rw [Nat.toList_repr] at h
  exact Nat.isDigit_of_mem_toDigits (by decide) (by decide) h

theorem not_mem_repr {c : Char} (hc : c.isDigit = false) (n : Nat) : c ∉ n.repr.toList :=
  fun hmem ↦ absurd (isDigit_of_mem_repr hmem) (Bool.eq_false_iff.1 hc)

/-- Retold digits write the same number. -/
theorem decimalValue_map_retellChar (n : Nat) :
    Lexeme.decimalValue (n.repr.toList.map retellChar) = n := by
  -- Both values are folds over the digits, and agree digit by digit from any start.
  have hfold : ∀ (ds : List Char) (v : Nat), (∀ d ∈ ds, d.isDigit = true) →
      (ds.map retellChar).foldl (fun v d ↦ v * 10 + Kannada.digitValue d.toNat) v =
        Nat.ofDigitChars 10 ds v := by
    intro ds
    induction ds with
    | nil =>
      intro v _
      rw [List.map_nil, List.foldl_nil, Nat.ofDigitChars_nil]
    | cons d ds ih =>
      intro v hds
      rw [List.forall_mem_cons] at hds
      have hd : Kannada.digitValue (retellChar d).toNat = d.toNat - '0'.toNat := by
        rw [Kannada.digitValue, (toNat_retellChar hds.1).1]
        exact Nat.add_sub_cancel_left _ _
      rw [List.map_cons, List.foldl_cons, ih _ hds.2, hd, Nat.mul_comm v 10,
        Nat.ofDigitChars_cons]
  rw [Lexeme.decimalValue, hfold _ _ fun d hd ↦ isDigit_of_mem_repr hd, Nat.toList_repr,
    Nat.ofDigitChars_ten_toDigits]

/-! ### Atom by atom -/

/-- What is no digit is retold as it is. -/
theorem map_retellChar_of_not_digit {cs : List Char} (h : ∀ c ∈ cs, c.isDigit = false) :
    cs.map retellChar = cs := by
  have hid : ∀ c ∈ cs, retellChar c = id c := fun c hc ↦ if_neg (by rw [h c hc]; decide)
  rw [List.map_congr_left hid, List.map_id]

/-- Characters that code and language share stay. -/
theorem retell_shared {cs : List Char}
    (h : ∀ c ∈ cs, c.isAlpha = false ∧ c.isDigit = false ∧ c ≠ '"') (rest : List Char) :
    retell (cs ++ rest) = cs ++ retell rest := by
  rw [retell_chars fun c hc ↦ ⟨(h c hc).1, (h c hc).2.2⟩,
    map_retellChar_of_not_digit fun c hc ↦ (h c hc).2.1]

/-- A text without special characters is written between quotes as it is. -/
theorem literal_of_plain {s : String} (h : ∀ c ∈ s.toList, c ∉ Atom.specialChars) :
    (literal s).toList = '"' :: s.toList ++ ['"'] := by
  have hescape : ∀ c ∈ s.toList, escapeChar c = [c] := by
    intro c hc
    have hplain := h c hc
    simp only [Atom.specialChars, List.mem_cons, List.not_mem_nil, or_false, not_or] at hplain
    simp [escapeChar, hplain]
  have hflat : s.toList.flatMap escapeChar = s.toList := by
    rw [List.flatMap_congr hescape, List.flatMap_singleton']
  simp [literal, escape, hflat]

namespace Atom

/-- An atom is retold by itself, if no letter runs together with it. -/
theorem retell_code {a : Atom} (h : a.Plain) {rest : List Char}
    (hrest : a.needsGap = true → ∀ c ∈ rest.head?, c ∈ clearChars) :
    retell (a.code ++ rest) = a.source ++ retell rest := by
  cases a with
  | gap blanks =>
    refine retell_shared (fun c hc ↦ ?_) rest
    have hblank := h c hc
    simp only [Lexeme.isBlankChar, Bool.or_eq_true, beq_iff_eq] at hblank
    rcases hblank with ((rfl | rfl) | rfl) | rfl <;> decide
  | keyword k =>
    have hclear : ∀ c ∈ rest.head?, c.isAlpha = false := by
      intro c hc
      have hmem := hrest rfl c hc
      simp only [clearChars, List.mem_cons, List.not_mem_nil, or_false] at hmem
      rcases hmem with rfl | rfl | rfl | rfl | rfl | rfl | rfl <;> decide
    have hletters : ∀ c ∈ k.gloss.toList, c.isAlpha = true :=
      List.all_eq_true.1 (by cases k <;> rfl)
    rw [code, source, retell_word hletters hclear, retellWord_gloss h]
  | mark m =>
    have hshared : m.spelling.toList.all
        (fun c ↦ c.isAlpha == false && (c.isDigit == false && c != '"')) = true := by
      cases m <;> rfl
    rw [code, source]
    exact retell_shared (by simpa using hshared) rest
  | name x => exact retell_shared (fun c hc ↦ not_ascii (toNat_of_isName h c hc)) rest
  | digits n =>
    exact retell_chars (fun c hc ↦ not_letter_of_isDigit (isDigit_of_mem_repr hc)) rest
  | quoted s =>
    have hquote : '"' ∉ s.toList := fun hmem ↦ h _ hmem (by decide)
    rw [code, source, literal_of_plain h, List.append_assoc, List.singleton_append,
      retell_quoted hquote, List.append_assoc]
    rfl

/-- An atom that is no gap spells its lexeme. -/
theorem spells_source {a : Atom} {l : Lexeme} (h : a.Plain) (hl : a.lexeme? = some l) :
    Lexeme.Spells a.source l := by
  cases a <;> cases hl
  case keyword k => exact .keyword k
  case mark m => exact .mark m
  case name x =>
    have := Lexeme.Spells.name h
    rwa [String.ofList_toList] at this
  case digits n =>
    rw [source]
    refine .number ?_ ?_ ?_
    · rw [Ne, List.map_eq_nil_iff, Nat.toList_repr]
      exact Nat.toDigits_ne_nil
    · intro d hd
      obtain ⟨c, hc, rfl⟩ := List.mem_map.1 hd
      exact isDigit_retellChar (isDigit_of_mem_repr hc)
    · rw [decimalValue_map_retellChar]
      exact Int32.toInt_ofNat'
  case quoted s =>
    have := @Lexeme.Spells.quoted s.toList fun hmem ↦ h _ hmem (by decide)
    rwa [String.ofList_toList] at this

/-- A lexeme ends where a clear character follows, or where it needs no gap. -/
theorem endsBefore {a : Atom} {l : Lexeme} (hl : a.lexeme? = some l) {rest : List Char}
    (hrest : a.needsGap = true → ∀ c ∈ rest.head?, c ∈ clearChars) : l.EndsBefore rest := by
  have hclear : a.needsGap = true → ∀ c ∈ rest.head?,
      Kannada.isWordPart c.toNat = false ∧ Kannada.isDigit c.toNat = false ∧ c ≠ '=' := by
    intro hgap c hc
    have hmem := hrest hgap c hc
    simp only [clearChars, List.mem_cons, List.not_mem_nil, or_false] at hmem
    rcases hmem with rfl | rfl | rfl | rfl | rfl | rfl | rfl <;> decide
  cases a <;> cases hl
  case keyword | name => exact fun c hc ↦ (hclear rfl c hc).1
  case digits => exact fun c hc ↦ (hclear rfl c hc).2.1
  case quoted => trivial
  case mark m =>
    cases m
    case assign => exact fun c hc ↦ (hclear rfl c hc).2.2
    all_goals trivial

end Atom

/-! ### Rows of atoms -/

/-- **Retold atom by atom.** -/
theorem retell_codeOf {as : List Atom} (h : Readable as) : retell (codeOf as) = sourceOf as := by
  induction as with
  | nil => exact retell_nil
  | cons a as ih =>
    obtain ⟨hplain, hgap, hread⟩ := h
    rw [codeOf_cons, Atom.retell_code hplain fun hneeds ↦
      (head?_of_separates (hgap hneeds) hread).1, ih hread]
    rfl

/-- **Split into its lexemes.** A readable row of atoms, as a source text, splits into the lexemes
of its atoms. -/
theorem exists_splits_sourceOf {as : List Atom} (h : Readable as) (before : List Char) :
    ∃ tokens, Splits before (sourceOf as) tokens ∧
      tokens.map Token.lexeme = lexemesOf as ++ [.endOfFile] := by
  induction as generalizing before with
  | nil => exact ⟨_, .done nofun, rfl⟩
  | cons a as ih =>
    obtain ⟨hplain, hgap, hread⟩ := h
    obtain ⟨tokens, hsplit, hlexemes⟩ := ih hread (before ++ a.source)
    cases hl : a.lexeme? with
    | none =>
      obtain ⟨w, rfl⟩ : ∃ w, a = .gap w := by
        cases a <;> first | exact ⟨_, rfl⟩ | cases hl
      exact ⟨tokens, hsplit.blank hplain, hlexemes⟩
    | some l =>
      have hends : l.EndsBefore (sourceOf as) :=
        Atom.endsBefore hl fun hneeds ↦ (head?_of_separates (hgap hneeds) hread).2
      -- gaps are atoms of their own, so a lexeme has no blanks before it here
      refine ⟨⟨l, lineAfter (before ++ [])⟩ :: tokens, ?_, ?_⟩
      · refine Splits.lexeme (w := []) nofun (Atom.spells_source hplain hl) hends ?_
        rwa [List.append_nil]
      · rw [List.map_cons, hlexemes, lexemesOf_cons, hl]
        rfl

end KannadaScript.Code
