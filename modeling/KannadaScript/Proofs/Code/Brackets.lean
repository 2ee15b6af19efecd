import KannadaScript.Proofs.Code.Retelling
import KannadaScript.Proofs.Tree.Nesting

/-!
# Brackets in a text

How deep the parentheses and braces of a text nest, with the text alone to go by: a text nests
within a number of levels if at none of its beginnings more brackets than that are open
(`Code.NestsWithin`). The brackets inside quoted literals do not count, so quotes have to be told
apart first (`outsideQuotes`). This is a statement about characters that anyone can check without a
scanner, and it can be evaluated.

The reader, on the other hand, counts brackets among tokens (`Grammar.NestsWithin`). The two counts
meet in the atoms of a row. Outside of its literals an atom has at most one bracket, and has it
exactly when its lexeme is one (`countP_outside`); so over a whole row the characters and the lexemes
have the same brackets (`countP_outsideQuotes`), at the end of every atom. Between two ends nothing
is claimed, and nothing is needed.

Main statement: the tokens of a readable row of atoms nest no deeper than its source text
(`Code.nestsWithin_of_sourceOf`). So a limit on the nesting of tokens can be stated for texts.
-/

namespace KannadaScript.Code

/-! ### Nesting of a text -/

/-- The characters of a text outside its quoted literals. -/
def outsideQuotes (quoted : Bool) : List Char → List Char
  | [] => []
  | c :: cs =>
    if c = '"' then outsideQuotes (!quoted) cs
    else if quoted then outsideQuotes true cs
    else c :: outsideQuotes false cs

/-- An opening parenthesis or brace. -/
def isOpening (c : Char) : Bool := c == '(' || c == '\x7b'

/-- A closing parenthesis or brace. -/
def isClosing (c : Char) : Bool := c == ')' || c == '\x7d'

/-- At no point of a text are more than `k` of its brackets open, those inside quoted literals not
counted. -/
def NestsWithin (k : Nat) (text : List Char) : Prop :=
  ∀ before, before <+: text →
    (outsideQuotes false before).countP isOpening ≤
      (outsideQuotes false before).countP isClosing + k

instance (k : Nat) (text : List Char) : Decidable (NestsWithin k text) :=
  decidable_of_iff (∀ before ∈ text.inits, (outsideQuotes false before).countP isOpening ≤
    (outsideQuotes false before).countP isClosing + k) (by simp [NestsWithin, List.mem_inits])

/-! ### The brackets of an atom -/

/-- Characters without a quote are outside of literals, and leave it so for what follows. -/
theorem outsideQuotes_append {cs : List Char} (h : '"' ∉ cs) (rest : List Char) :
    outsideQuotes false (cs ++ rest) = cs ++ outsideQuotes false rest := by
  induction cs with
  | nil => rfl
  | cons c cs ih =>
    rw [List.mem_cons, not_or] at h
    rw [List.cons_append, outsideQuotes, if_neg (Ne.symm h.1), if_neg Bool.false_ne_true, ih h.2]
    rfl

/-- A literal from quote to quote disappears as a whole. -/
theorem outsideQuotes_quoted {cs : List Char} (h : '"' ∉ cs) (rest : List Char) :
    outsideQuotes false ('"' :: cs ++ '"' :: rest) = outsideQuotes false rest := by
  have inside : outsideQuotes true (cs ++ '"' :: rest) = outsideQuotes false rest := by
    induction cs with
    | nil => rfl
    | cons c cs ih =>
      rw [List.mem_cons, not_or] at h
      rw [List.cons_append, outsideQuotes, if_neg (Ne.symm h.1), if_pos rfl, ih h.2]
  exact inside

namespace Atom

/-- The part of an atom that stands outside quoted literals. -/
def outside : Atom → List Char
  | .quoted _ => []
  | a => a.source

/-- Outside of literals an atom shows itself, unless it is a literal. -/
theorem outsideQuotes_source {a : Atom} (h : a.Plain) (rest : List Char) :
    outsideQuotes false (a.source ++ rest) = a.outside ++ outsideQuotes false rest := by
  cases a with
  | gap blanks =>
    refine outsideQuotes_append (fun hmem ↦ ?_) rest
    exact absurd (h _ hmem) (by decide)
  | keyword k =>
    refine outsideQuotes_append ?_ rest
    rw [← List.contains_iff_mem]
    cases k <;> decide
  | mark m =>
    refine outsideQuotes_append ?_ rest
    cases m <;> decide
  | name x =>
    exact outsideQuotes_append (fun hmem ↦ (not_ascii (toNat_of_isName h _ hmem)).2.2 rfl) rest
  | digits n =>
    refine outsideQuotes_append (fun hmem ↦ ?_) rest
    obtain ⟨c, hc, heq⟩ := List.mem_map.1 hmem
    have := isDigit_retellChar (isDigit_of_mem_repr hc)
    rw [heq] at this
    exact absurd this (by decide)
  | quoted s =>
    have hquote : '"' ∉ s.toList := fun hmem ↦ h _ hmem (by decide)
    rw [source, List.append_assoc, List.singleton_append, outsideQuotes_quoted hquote]
    rfl

/-- A text without brackets counts none. -/
theorem countP_of_no_bracket {cs : List Char}
    (h : ∀ c ∈ cs, isOpening c = false ∧ isClosing c = false) :
    cs.countP isOpening = 0 ∧ cs.countP isClosing = 0 :=
  ⟨List.countP_eq_zero.2 fun c hc ↦ Bool.eq_false_iff.1 (h c hc).1,
    List.countP_eq_zero.2 fun c hc ↦ Bool.eq_false_iff.1 (h c hc).2⟩

/-- No character of the language is a bracket. -/
theorem not_bracket_of_le {c : Char} (h : 0x80 ≤ c.toNat) :
    isOpening c = false ∧ isClosing c = false := by
  have hne : ∀ d : Char, d.toNat < 0x80 → (c == d) = false := by
    rintro d hd
    refine beq_eq_false_iff_ne.2 ?_
    rintro rfl
    omega
  constructor
  · rw [isOpening, hne _ (by decide), hne _ (by decide)]
    rfl
  · rw [isClosing, hne _ (by decide), hne _ (by decide)]
    rfl

/-- The brackets of an atom are those of its lexeme. -/
theorem countP_outside {a : Atom} (h : a.Plain) :
    a.outside.countP isOpening = a.lexeme?.toList.countP Lexeme.opens ∧
      a.outside.countP isClosing = a.lexeme?.toList.countP Lexeme.closes := by
  cases a with
  | gap blanks =>
    refine countP_of_no_bracket fun c hc ↦ ?_
    have hblank := h c hc
    simp only [Lexeme.isBlankChar, Bool.or_eq_true, beq_iff_eq] at hblank
    rcases hblank with ((rfl | rfl) | rfl) | rfl <;> decide
  | keyword k => cases k <;> exact ⟨rfl, rfl⟩
  | mark m => cases m <;> exact ⟨rfl, rfl⟩
  | name x => exact countP_of_no_bracket fun c hc ↦ not_bracket_of_le (toNat_of_isName h c hc)
  | digits n =>
    refine countP_of_no_bracket fun d hd ↦ not_bracket_of_le ?_
    obtain ⟨c, hc, rfl⟩ := List.mem_map.1 hd
    rw [(toNat_retellChar (isDigit_of_mem_repr hc)).1]
    omega
  | quoted s => exact ⟨rfl, rfl⟩

end Atom

/-! ### The brackets of a row -/

/-- The brackets of a source text are those of its lexemes. -/
theorem countP_outsideQuotes {as : List Atom} (h : ∀ a ∈ as, a.Plain) :
    (outsideQuotes false (sourceOf as)).countP isOpening =
        (lexemesOf as).countP Lexeme.opens ∧
      (outsideQuotes false (sourceOf as)).countP isClosing =
        (lexemesOf as).countP Lexeme.closes := by
  induction as with
  | nil => exact ⟨rfl, rfl⟩
  | cons a as ih =>
    rw [List.forall_mem_cons] at h
    have hsource : sourceOf (a :: as) = a.source ++ sourceOf as := rfl
    rw [hsource, lexemesOf_cons, Atom.outsideQuotes_source h.1]
    simp only [List.countP_append, (Atom.countP_outside h.1).1, (Atom.countP_outside h.1).2,
      (ih h.2).1, (ih h.2).2, and_self]

/-- In a readable row every atom is plain. -/
theorem Readable.plain {as : List Atom} (h : Readable as) : ∀ a ∈ as, a.Plain := by
  induction as with
  | nil => exact nofun
  | cons a as ih => exact List.forall_mem_cons.2 ⟨h.1, ih h.2.2⟩

/-- **Same brackets.** Tokens with the lexemes of a readable row nest no deeper than its text. -/
theorem nestsWithin_of_sourceOf {as : List Atom} (h : Readable as) {k : Nat}
    (htext : NestsWithin k (sourceOf as)) {tokens : List Token}
    (hlexemes : tokens.map Token.lexeme = lexemesOf as) :
    Grammar.NestsWithin k tokens := by
  rintro before ⟨after, rfl⟩
  -- A prefix of the tokens ends where some atom ends, hence at a point of the text.
  rw [List.map_append, eq_comm, lexemesOf, List.filterMap_eq_append_iff] at hlexemes
  obtain ⟨bs, cs, rfl, hbefore, -⟩ := hlexemes
  have hplain := (List.forall_mem_append.1 h.plain).1
  have hpoint := htext (sourceOf bs) ⟨sourceOf cs, List.flatMap_append.symm⟩
  rw [(countP_outsideQuotes hplain).1, (countP_outsideQuotes hplain).2, lexemesOf, hbefore,
    List.countP_map, List.countP_map] at hpoint
  exact hpoint

end KannadaScript.Code
