import KannadaScript.Proofs.Code.Escaping
import KannadaScript.Proofs.Code.Retelling

/-!
# Code outside its literals

Which characters of a code belong to quoted literals is read off the code alone: a quote starts a
literal, the next quote ends it, and a backslash inside takes away the meaning of the character
behind it (`outsideLiterals`). Three states are enough for this (`Quoting`): outside, inside, and
behind a backslash.

A text may hold quotes and backslashes of its own, but escaped as they are they never end its
literal, so that a literal leaves nothing outside, whatever its text (`outsideLiterals_literal`).
This follows from the rules that an escaped text obeys (`Denotes`), and not from a look at how each
character is escaped: wherever the rules see a literal, the three states do too
(`Denotes.outsideLiterals_quote`).

Atoms that can stand within a line (`Atom.Inline`) are words, marks, numbers and quoted texts, gaps
of spaces, and names of the language; another name might hold a quote, and open a literal.
Statements about the braces, the operators and the lines of a code all start from such atoms.

Main statements: `outsideLiterals_codeOf`, what is outside literals in a row of atoms is what its
other atoms write; and `lineFeed_not_mem_codeOf`, a row of atoms that can stand within a line has no
line feed, whatever the texts in it.
-/

namespace KannadaScript.Code

/-! ### Scanning for literals -/

/-- Where a point of a code is. -/
inductive Quoting where
  | outside
  /-- Inside a literal. -/
  | inside
  /-- Inside a literal, behind a backslash. -/
  | escaped
deriving DecidableEq, Repr

/-- The characters outside literals. The quotes belong to the literals. -/
def outsideLiterals : Quoting → List Char → List Char
  | _, [] => []
  | .outside, c :: cs =>
    if c = '"' then outsideLiterals .inside cs else c :: outsideLiterals .outside cs
  | .inside, c :: cs =>
    if c = '"' then outsideLiterals .outside cs
    else if c = '\\' then outsideLiterals .escaped cs
    else outsideLiterals .inside cs
  | .escaped, _ :: cs => outsideLiterals .inside cs

/-- Outside of literals, characters without a quote are kept and open nothing. -/
theorem outsideLiterals_append {cs : List Char} (h : '"' ∉ cs) (rest : List Char) :
    outsideLiterals .outside (cs ++ rest) = cs ++ outsideLiterals .outside rest := by
  induction cs with
  | nil => rfl
  | cons c cs ih =>
    rw [List.mem_cons, not_or] at h
    rw [List.cons_append, outsideLiterals, if_neg (Ne.symm h.1), ih h.2, List.cons_append]

/-- Whether a character is outside literals depends on what comes before it only. -/
theorem exists_outsideLiterals_append (q : Quoting) (as bs : List Char) :
    ∃ rest, outsideLiterals q (as ++ bs) = outsideLiterals q as ++ rest := by
  induction as generalizing q with
  | nil => exact ⟨outsideLiterals q bs, by rw [outsideLiterals]; rfl⟩
  | cons c as ih =>
    match q with
    | .outside =>
      rw [List.cons_append, outsideLiterals, outsideLiterals]
      split
      · exact ih .inside
      · obtain ⟨rest, hrest⟩ := ih .outside
        exact ⟨rest, by rw [hrest, List.cons_append]⟩
    | .inside =>
      rw [List.cons_append, outsideLiterals, outsideLiterals]
      split
      · exact ih .outside
      · split
        · exact ih .escaped
        · exact ih .inside
    | .escaped => exact ih .inside

/-- What denotes a text stays inside its literal, and the quote behind it ends the literal. -/
theorem Denotes.outsideLiterals_quote {body text : List Char} (h : Denotes body text)
    (rest : List Char) :
    outsideLiterals .inside (body ++ '"' :: rest) = outsideLiterals .outside rest := by
  induction h with
  | nil => rfl
  | plain hquote hbackslash _ ih =>
    rw [List.cons_append, outsideLiterals, if_neg hquote, if_neg hbackslash, ih]
  | escaped _ _ ih => exact ih

/-- A literal ends where it should, and what comes after it is outside. -/
theorem outsideLiterals_literal (s : String) (rest : List Char) :
    outsideLiterals .outside ((literal s).toList ++ rest) = outsideLiterals .outside rest := by
  have hliteral : (literal s).toList ++ rest = '"' :: ((escape s).toList ++ '"' :: rest) := by
    simp [literal]
  rw [hliteral, outsideLiterals, if_pos rfl, (denotes_escape s).outsideLiterals_quote]

/-! ### Atoms -/

namespace Atom

/-- The part of an atom that stands outside literals. -/
def bare : Atom → List Char
  | .quoted _ => []
  | a => a.code

/-- The atom can stand within a line: a gap is made of spaces, and a name is one of the language. -/
def Inline : Atom → Prop
  | .gap blanks => ∀ c ∈ blanks, c = ' '
  | .name x => Lexeme.isName x.toList = true
  | .keyword _ | .mark _ | .digits _ | .quoted _ => True

/-- A space, a letter or a digit of code, or a character beyond ASCII. -/
def isTame (c : Char) : Bool := c == ' ' || c.isAlpha || c.isDigit || decide (0x80 ≤ c.toNat)

/-- Outside literals, only marks have other characters than spaces, letters and digits. -/
theorem Inline.not_mem_bare {a : Atom} (h : a.Inline) {c : Char} (hc : isTame c = false)
    (hmark : ∀ m, a = .mark m → c ∉ m.spelling.toList) : c ∉ a.bare := by
  have hwild (htame : isTame c = true) : False := absurd (hc.symm.trans htame) Bool.false_ne_true
  match a with
  | .mark m => exact hmark m rfl
  | .quoted s => exact List.not_mem_nil
  | .gap blanks =>
    intro hmem
    exact hwild (by rw [h c hmem]; rfl)
  | .keyword k =>
    intro hmem
    have hletters : ∀ d ∈ k.gloss.toList, isTame d = true :=
      List.all_eq_true.1 (by cases k <;> rfl)
    exact hwild (hletters c hmem)
  | .name x =>
    intro hmem
    exact hwild (by simp [isTame, toNat_of_isName h c hmem])
  | .digits n =>
    intro hmem
    exact hwild (by simp [isTame, isDigit_of_mem_repr hmem])

theorem Inline.quote_not_mem_bare {a : Atom} (h : a.Inline) : '"' ∉ a.bare :=
  h.not_mem_bare (by decide) fun m _ ↦ by cases m <;> decide

/-- An atom of a line shows its bare characters outside of literals, and ends where it started:
outside. -/
theorem Inline.outsideLiterals_code {a : Atom} (h : a.Inline) (rest : List Char) :
    outsideLiterals .outside (a.code ++ rest) = a.bare ++ outsideLiterals .outside rest := by
  match a with
  | .quoted s => exact outsideLiterals_literal s rest
  | .gap _ | .keyword _ | .mark _ | .name _ | .digits _ =>
    exact outsideLiterals_append h.quote_not_mem_bare rest

/-- A line feed of a text is written in another way. -/
theorem lineFeed_not_mem_literal (s : String) : '\n' ∉ (literal s).toList := by
  have hescape : '\n' ∉ (escape s).toList := fun hmem ↦ (ne_of_mem_escape hmem).1 rfl
  simp only [literal, String.toList_append, List.mem_append, not_or]
  exact ⟨⟨by decide, hescape⟩, by decide⟩

/-- An atom of a line has no line feed. -/
theorem Inline.lineFeed_not_mem_code {a : Atom} (h : a.Inline) : '\n' ∉ a.code := by
  match a with
  | .quoted s => exact lineFeed_not_mem_literal s
  | .gap _ | .keyword _ | .mark _ | .name _ | .digits _ =>
    exact h.not_mem_bare (by decide) fun m _ ↦ by cases m <;> decide

end Atom

/-! ### Rows of atoms -/

/-- **Outside of literals.** What a row of atoms writes there is what its atoms write that are no
literals, whatever the texts of those that are. -/
theorem outsideLiterals_codeOf {as : List Atom} (h : ∀ a ∈ as, a.Inline) (rest : List Char) :
    outsideLiterals .outside (codeOf as ++ rest) =
      as.flatMap Atom.bare ++ outsideLiterals .outside rest := by
  induction as with
  | nil => rfl
  | cons a as ih =>
    rw [List.forall_mem_cons] at h
    rw [codeOf_cons, List.append_assoc, h.1.outsideLiterals_code, ih h.2, List.flatMap_cons,
      List.append_assoc]

/-- A row of atoms that can stand within a line has no line feed, whatever the texts in it. -/
theorem lineFeed_not_mem_codeOf {as : List Atom} (h : ∀ a ∈ as, a.Inline) : '\n' ∉ codeOf as := by
  rw [codeOf, List.mem_flatMap]
  rintro ⟨a, ha, hmem⟩
  exact (h a ha).lineFeed_not_mem_code hmem

end KannadaScript.Code
