import KannadaScript.Command.Run
import KannadaScript.Proofs.Token.Alignment
import KannadaScript.Proofs.Tree.Readability

/-!
# Token dumps read one way

A token dump has an entry for each token: the number of its line, flush right in a column, and the
description of its lexeme. The dump tells all of it. The blanks before the number are told from its
digits, and the digits end at the next blank (`Text.eq_of_flushRight_eq`). Descriptions start in one
of a few ways, none of which starts another (`Lexeme.Kind.eq_of_isPrefix`), and what follows gives
away the rest of the lexeme.

What remains is to find the end of a description. It is the next line feed, unless a text is quoted:
that one may hold line feeds, so an entry is not always a line. But it holds no quote, and ends at
the next one. Both are true of the lexemes that a scan gives, and not of every lexeme
(`Lexeme.Legible`): a fault may have any wording, among it one with line feeds, so a list with
malformed tokens need not be told from its dump. A scan that meets a fault has no dump.

Main statements: `Command.eq_of_tokenLine_eq`, what one entry tells whatever follows it; from it, by
induction along the list, `Command.eq_of_tokenDump_eq`; and `Command.tokenDump_determines_tokens`,
for the tokens of source texts.
-/

namespace KannadaScript

/-! ### Line numbers -/

namespace Text

theorem exists_repr_eq (n : Nat) : ∃ d ds, n.repr.toList = d :: ds ∧ d ≠ ' ' := by
  rcases hdigits : n.repr.toList with - | ⟨d, ds⟩
  · exact absurd (String.toList_eq_nil_iff.1 hdigits) n.repr_ne_empty
  · refine ⟨d, ds, rfl, ?_⟩
    rintro rfl
    exact Code.not_mem_repr (by decide) n (hdigits ▸ List.mem_cons_self)

/-- In a column of any width a number and what comes behind the next blank can be told. -/
theorem eq_of_flushRight_eq {width n n' : Nat} {rest rest' : List Char}
    (h : (flushRight width n).toList ++ ' ' :: rest =
      (flushRight width n').toList ++ ' ' :: rest') : n = n' ∧ rest = rest' := by
  have hdrop (m : Nat) (cs : List Char) :
      ((flushRight width m).toList ++ ' ' :: cs).dropWhile (· == ' ') =
        m.repr.toList ++ ' ' :: cs := by
    obtain ⟨d, ds, hdigits, hd⟩ := exists_repr_eq m
    rw [flushRight, blanks, String.toList_append, String.toList_ofList, List.append_assoc,
      List.dropWhile_append_of_pos fun c hc ↦ beq_iff_eq.2 (List.eq_of_mem_replicate hc), hdigits]
    exact List.dropWhile_cons_of_neg (by simpa using hd)
  have hblank : ∀ m : Nat, ' ' ∉ m.repr.toList := Code.not_mem_repr (by decide)
  have hdigits := congrArg (List.dropWhile (· == ' ')) h
  rw [hdrop, hdrop] at hdigits
  obtain ⟨hrepr, hrest⟩ := eq_of_append_stop_eq (hblank n) (hblank n') hdigits
  exact ⟨Nat.repr_inj.1 (String.toList_inj.1 hrepr), hrest⟩

end Text

/-! ### Descriptions -/

namespace Lexeme

/-- What the start of a description tells of a lexeme. -/
inductive Kind where
  | endOfFile
  | malformed
  | name
  | number
  | quoted
  /-- Keywords and marks. -/
  | fixed
deriving DecidableEq, Repr

/-- How the descriptions of a kind start. -/
def Kind.stem : Kind → String
  | .endOfFile => "end of file"
  | .malformed => "invalid token ("
  | .name => "identifier '"
  | .number => "number "
  | .quoted => "string literal \""
  | .fixed => "'"

/-- The kind of a lexeme. -/
def kind : Lexeme → Kind
  | .endOfFile => .endOfFile
  | .malformed _ => .malformed
  | .name _ => .name
  | .number _ => .number
  | .quoted _ => .quoted
  | .keyword _ | .mark _ => .fixed

/-- What the description of a lexeme says besides its kind. -/
def particulars : Lexeme → String
  | .endOfFile => ""
  | .malformed fault => fault.message ++ ")"
  | .name s => s ++ "'"
  | .number n => Text.decimal n.toInt
  | .quoted s => s ++ "\""
  | .keyword k => k.spelling ++ "' (" ++ k.gloss ++ ")"
  | .mark m => m.spelling ++ "'"

theorem describe_eq (l : Lexeme) : l.describe = l.kind.stem ++ l.particulars := by
  match l with
  | .endOfFile => exact String.append_empty.symm
  | .malformed _ | .name _ | .quoted _ | .mark _ => exact String.append_assoc
  | .number _ => rfl
  | .keyword k =>
    show "'" ++ k.spelling ++ "' (" ++ k.gloss ++ ")" =
      "'" ++ (k.spelling ++ "' (" ++ k.gloss ++ ")")
    simp only [String.append_assoc]

/-- Every kind. -/
def Kind.all : List Kind := [.endOfFile, .malformed, .name, .number, .quoted, .fixed]

theorem Kind.mem_all (k : Kind) : k ∈ all := by
  cases k <;> decide

/-- The start of no kind is the start of another. -/
theorem Kind.eq_of_isPrefix {k k' : Kind} (h : k.stem.toList <+: k'.stem.toList) : k = k' := by
  have hall : ∀ k ∈ all, ∀ k' ∈ all, k.stem.toList <+: k'.stem.toList → k = k' := by
    decide +kernel
  exact hall k (mem_all k) k' (mem_all k') h

/-- Descriptions that start the same text are of the same kind, and go on in the same way. -/
theorem kind_eq_of_describe {l l' : Lexeme} {rest rest' : List Char}
    (h : l.describe.toList ++ rest = l'.describe.toList ++ rest') :
    l.kind = l'.kind ∧ l.particulars.toList ++ rest = l'.particulars.toList ++ rest' := by
  rw [describe_eq, describe_eq, String.toList_append, String.toList_append, List.append_assoc,
    List.append_assoc] at h
  have hkind : l.kind = l'.kind := by
    rcases List.prefix_or_prefix_of_prefix (List.prefix_append _ _)
      (h ▸ List.prefix_append l'.kind.stem.toList _) with hstem | hstem
    · exact Kind.eq_of_isPrefix hstem
    · exact (Kind.eq_of_isPrefix hstem).symm
  rw [hkind] at h
  exact ⟨hkind, List.append_cancel_left h⟩

/-! ### Lexemes with an end -/

/-- The end of the description can be found: a name stays on its line, and a quoted text holds no
quote. -/
def Legible : Lexeme → Prop
  | .malformed _ => False
  | .name s => '\n' ∉ s.toList
  | .quoted s => '"' ∉ s.toList
  | .endOfFile | .number _ | .keyword _ | .mark _ => True

/-- What a text spells is legible. -/
theorem Spells.legible {x : List Char} {l : Lexeme} (h : Spells x l) : l.Legible := by
  cases h with
  | keyword k | mark m | number _ _ _ => trivial
  | name free =>
    show '\n' ∉ (String.ofList _).toList
    rw [String.toList_ofList]
    exact not_mem_of_isWordPart (isWord_eq_true_iff.1 (isName_eq_true_iff.1 free).1).2
  | quoted inner =>
    show '"' ∉ (String.ofList _).toList
    rwa [String.toList_ofList]

/-- The keywords and the marks. -/
def fixed : List Lexeme :=
  Keyword.all.map keyword ++ [Mark.plus, .minus, .star, .slash, .assign, .equal, .openParen,
    .closeParen, .openBrace, .closeBrace, .semicolon].map mark

theorem mem_fixed {l : Lexeme} (h : l.kind = .fixed) : l ∈ fixed := by
  match l with
  | .keyword k => cases k <;> decide
  | .mark m => cases m <;> decide

/-- A description without a quoted text stays on its line. -/
theorem Legible.unbroken {l : Lexeme} (hl : l.Legible) (hkind : l.kind ≠ .quoted) :
    '\n' ∉ l.particulars.toList := by
  match l with
  | .endOfFile => exact List.not_mem_nil
  | .name s =>
    rw [particulars, String.toList_append, List.mem_append, not_or]
    exact ⟨hl, by decide⟩
  | .number v => exact Text.lineFeed_not_mem_decimal v.toInt
  | .quoted _ => exact absurd rfl hkind
  | .keyword k => cases k <;> decide
  | .mark m => cases m <;> decide

/-- A legible lexeme is told by its kind and its particulars. -/
theorem eq_of_particulars_eq {l l' : Lexeme} (hl : l.Legible) (hkind : l.kind = l'.kind)
    (h : l.particulars = l'.particulars) : l = l' := by
  have hfixed : ∀ l ∈ fixed, ∀ l' ∈ fixed, l.particulars = l'.particulars → l = l' := by
    decide +kernel
  match l, l', hkind with
  | .endOfFile, .endOfFile, _ => rfl
  | .name s, .name s', _ => exact congrArg name (String.append_left_inj _ |>.1 h)
  | .number v, .number v', _ =>
    exact congrArg number (Int32.toInt_inj.1 (Text.decimal_injective h))
  | .quoted s, .quoted s', _ => exact congrArg quoted (String.append_left_inj _ |>.1 h)
  | .keyword k, .keyword k', _ | .keyword k, .mark m', _ | .mark m, .keyword k', _
  | .mark m, .mark m', _ => exact hfixed _ (mem_fixed rfl) _ (mem_fixed rfl) h

/-- **What a description tells.** From any text that starts with the description of a legible
lexeme and a line feed, the lexeme and what comes behind can be told. -/
theorem Legible.eq_of_describe {l l' : Lexeme} {rest rest' : List Char} (hl : l.Legible)
    (hl' : l'.Legible)
    (h : l.describe.toList ++ '\n' :: rest = l'.describe.toList ++ '\n' :: rest') :
    l = l' ∧ rest = rest' := by
  obtain ⟨hkind, h⟩ := kind_eq_of_describe h
  by_cases hquoted : l.kind = .quoted
  · -- the first quote ends both texts, whatever lines they run over
    match l, l', hquoted, hkind with
    | .quoted s, .quoted s', _, _ =>
      simp only [particulars, String.toList_append, List.append_assoc] at h
      obtain ⟨hs, hrest⟩ := Text.eq_of_append_stop_eq hl hl' h
      exact ⟨congrArg quoted (String.toList_inj.1 hs), (List.cons.inj hrest).2⟩
  · obtain ⟨hparticulars, hrest⟩ := Text.eq_of_append_stop_eq (hl.unbroken hquoted)
      (hl'.unbroken (hkind ▸ hquoted)) h
    exact ⟨eq_of_particulars_eq hl hkind (String.toList_inj.1 hparticulars), hrest⟩

end Lexeme

/-! ### Dumps -/

/-- A text splits into legible lexemes. -/
theorem Splits.legible {before rest : List Char} {tokens : List Token}
    (h : Splits before rest tokens) : ∀ t ∈ tokens, t.lexeme.Legible := by
  induction h with
  | done _ => exact List.forall_mem_singleton.2 trivial
  | lexeme _ spells _ _ ih => exact List.forall_mem_cons.2 ⟨spells.legible, ih⟩

namespace Command

theorem toList_tokenLine (t : Token) (rest : List Char) :
    (tokenLine t).toList ++ rest = (Text.flushRight 4 t.line).toList ++
      ' ' :: ' ' :: (t.lexeme.describe.toList ++ '\n' :: rest) := by
  simp [tokenLine]

/-- **Step.** From any text that starts with the entry of a legible token, the token and what comes
behind its entry can be told. -/
theorem eq_of_tokenLine_eq {t t' : Token} {rest rest' : List Char} (ht : t.lexeme.Legible)
    (ht' : t'.lexeme.Legible)
    (h : (tokenLine t).toList ++ rest = (tokenLine t').toList ++ rest') :
    t = t' ∧ rest = rest' := by
  rw [toList_tokenLine, toList_tokenLine] at h
  obtain ⟨hline, h⟩ := Text.eq_of_flushRight_eq h
  obtain ⟨hlexeme, hrest⟩ := ht.eq_of_describe ht' (List.cons.inj h).2
  rcases t with ⟨lexeme, line⟩
  rcases t' with ⟨lexeme', line'⟩
  rw [Token.mk.injEq]
  exact ⟨⟨hlexeme, hline⟩, hrest⟩

theorem tokenDump_cons (t : Token) (ts : List Token) :
    (tokenDump (t :: ts)).toList = (tokenLine t).toList ++ (tokenDump ts).toList := by
  rw [tokenDump, List.map_cons, String.join_cons, String.toList_append]
  rfl

theorem tokenDump_cons_ne (t : Token) (ts : List Token) : tokenDump (t :: ts) ≠ "" := by
  intro h
  have hnil := congrArg String.toList h
  rw [tokenDump_cons, toList_tokenLine] at hnil
  simp at hnil

/-- **Run.** By induction along the list: a dump tells its legible tokens one by one. -/
theorem eq_of_tokenDump_eq {ts ts' : List Token} (hts : ∀ t ∈ ts, t.lexeme.Legible)
    (hts' : ∀ t ∈ ts', t.lexeme.Legible) (h : tokenDump ts = tokenDump ts') : ts = ts' := by
  induction ts generalizing ts' with
  | nil =>
    rcases ts' with - | ⟨t', ts'⟩
    · rfl
    · exact absurd h.symm (tokenDump_cons_ne t' ts')
  | cons t ts ih =>
    rcases ts' with - | ⟨t', ts'⟩
    · exact absurd h (tokenDump_cons_ne t ts)
    · rw [List.forall_mem_cons] at hts hts'
      have hlist := congrArg String.toList h
      rw [tokenDump_cons, tokenDump_cons] at hlist
      obtain ⟨ht, hrest⟩ := eq_of_tokenLine_eq hts.1 hts'.1 hlist
      rw [ht, ih hts.2 hts'.2 (String.toList_inj.1 hrest)]

/-- **Token dumps determine tokens.** Two source texts that are scanned without a fault have the
same token dump exactly if they have the same tokens: the same keywords, marks, names, numbers and
quoted texts in the same order, on the same lines. -/
theorem tokenDump_determines_tokens {source source' : String} {tokens tokens' : List Token}
    (h : tokenize source = .ok tokens) (h' : tokenize source' = .ok tokens') :
    tokenDump tokens = tokenDump tokens' ↔ tokens = tokens' :=
  ⟨eq_of_tokenDump_eq (splits_of_tokenize h).legible (splits_of_tokenize h').legible,
    congrArg tokenDump⟩

example : tokenDump [⟨.keyword .ifWord, 3⟩, ⟨.quoted "ಕ", 12⟩, ⟨.endOfFile, 12⟩] =
    "   3  'ಯದಿ' (if)\n  12  string literal \"ಕ\"\n  12  end of file\n" := by decide +kernel

end Command

end KannadaScript
