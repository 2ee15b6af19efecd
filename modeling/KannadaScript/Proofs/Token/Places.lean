import KannadaScript.Proofs.Text.SourceLines
import KannadaScript.Proofs.Token.Splitting

/-!
# Where lexemes stand

A scan passes blanks and lexemes on its way to a place in the text (`Leads`). Every token of a
splitting has such a place, at which its spelling starts, and so has the fault of a scan that fails.
The line of both is the line of the place.

A place is a way to divide the text in two: what stands before it and what stands behind it. Nothing
is counted, and the line of a place is read off what stands before it (`lineAfter`). `Leads` says in
addition how the scan has come there, token by token, so that the tokens before a place are known as
well as its characters. This is what ties a token in a list to a piece of text: a list with a token
somewhere in its middle is one that leads to the place of the token (`Splits.leads`).

Tokens have lines, and lines of a text are quoted in reports. A line is one more than the line feeds
before the place, counted in bytes; that no byte of another character is a line feed makes it the
number of the line in characters too (`count_lineFeed_encode`).

Main statements: `Splits.leads`, where a token stands; `leads_of_tokenize_error`, where a scan
breaks; and `exists_line_of_place`, which line of the text that is.
-/

namespace KannadaScript

/-! ### Places -/

/-- From the place between `before` and `rest`, blanks and the lexemes of `tokens` lead to the place
between `before'` and `rest'`. No lexeme on the way could have been longer. -/
inductive Leads : (before rest : List Char) → (tokens : List Token) →
    (before' rest' : List Char) → Prop
  | here {before w rest : List Char} (blank : Lexeme.IsBlankText w) :
      Leads before (w ++ rest) [] (before ++ w) rest
  | lexeme {before w x rest before' rest' : List Char} {l : Lexeme} {tokens : List Token}
      (blank : Lexeme.IsBlankText w) (spells : Lexeme.Spells x l) (ends : l.EndsBefore rest)
      (more : Leads (before ++ w ++ x) rest tokens before' rest') :
      Leads before (w ++ x ++ rest) (⟨l, lineAfter (before ++ w)⟩ :: tokens) before' rest'

/-- On the way nothing of the text is lost. -/
theorem Leads.append_eq {before rest before' rest' : List Char} {tokens : List Token}
    (h : Leads before rest tokens before' rest') : before ++ rest = before' ++ rest' := by
  induction h with
  | here blank => rw [List.append_assoc]
  | lexeme blank spells ends more ih => rw [← ih, List.append_assoc, List.append_assoc,
      List.append_assoc]

/-- Every token has its place, and the line of it. The place of the end of file is the end. -/
theorem Splits.leads {before rest : List Char} {tokens : List Token}
    (h : Splits before rest tokens) {ts ts' : List Token} {t : Token}
    (heq : tokens = ts ++ t :: ts') :
    (∃ before' x rest', Leads before rest ts before' (x ++ rest') ∧ Lexeme.Spells x t.lexeme ∧
      t.lexeme.EndsBefore rest' ∧ Splits (before' ++ x) rest' ts' ∧ t.line = lineAfter before') ∨
    t = ⟨.endOfFile, lineAfter (before ++ rest)⟩ ∧ Leads before rest ts (before ++ rest) [] := by
  induction h generalizing ts with
  | @done before w blank =>
    rcases ts with - | ⟨u, ts⟩
    · obtain ⟨rfl, -⟩ := List.cons.inj heq
      refine .inr ⟨rfl, ?_⟩
      simpa using @Leads.here before w [] blank
    · simp at heq
  | @lexeme before w x rest l tokens blank spells ends more ih =>
    rcases ts with - | ⟨u, ts⟩
    · obtain ⟨rfl, rfl⟩ := List.cons.inj heq
      refine .inl ⟨before ++ w, x, rest, ?_, spells, ends, more, rfl⟩
      rw [List.append_assoc]
      exact .here blank
    · obtain ⟨rfl, hmore⟩ := List.cons.inj heq
      rcases ih hmore with ⟨before', x', rest', hleads, hplace⟩ | ⟨ht, hleads⟩
      · exact .inl ⟨before', x', rest', .lexeme blank spells ends hleads, hplace⟩
      · have hend : before ++ w ++ x ++ rest = before ++ (w ++ x ++ rest) := by
          simp only [List.append_assoc]
        rw [hend] at ht hleads
        exact .inr ⟨ht, .lexeme blank spells ends hleads⟩

/-! ### Scans that fail -/

/-- A run that fails has passed lexemes, and then met something that is none. -/
theorem Cursor.leads_of_tokensWithin_error :
    ∀ (calls : Nat) {before rest : List Char} {e : LexicalError} {c : Cursor},
      tokensWithin calls (between before rest) = .error e c →
        ∃ ts before' x rest', Leads before rest ts before' (x ++ rest') ∧
          Lexeme.Breaks x rest' e.fault ∧ e.line = lineAfter before' := by
  intro calls
  induction calls with
  | zero =>
    intro before rest e c h
    cases h
  | succ calls ih =>
    intro before rest e c h
    rcases text_cases rest with
      hw | ⟨w, x, rest, l, rfl, hw, hx, hl⟩ | ⟨w, x, rest, f, rfl, hw, hx⟩
    · rw [tokensWithin_of_endOfFile calls (by rw [next_of_blank before hw])] at h
      cases h
    · have hnext := next_of_spells before hw hx hl
      rw [tokensWithin_of_lexeme calls (by rw [hnext]; exact hx.isProper.1)
        (by rw [hnext]; exact hx.isProper.2), hnext, Step.bind_eq_error_iff] at h
      rcases h with h | ⟨ts, c', -, h⟩
      · obtain ⟨ts, before', x', rest', hleads, hplace⟩ := ih h
        exact ⟨_ :: ts, before', x', rest', .lexeme hw hx hl hleads, hplace⟩
      · cases h
    · have hnext := next_of_breaks before hw hx
      rw [tokensWithin_of_malformed calls (by rw [hnext]), hnext] at h
      cases h
      refine ⟨[], before ++ w, x, rest, ?_, hx, rfl⟩
      rw [List.append_assoc]
      exact .here hw

/-- A scan fails at a piece of text that is no lexeme, and reports its line. -/
theorem leads_of_tokenize_error {source : String} {e : LexicalError}
    (h : tokenize source = .error e) :
    ∃ ts before x rest, Leads [] source.toList ts before (x ++ rest) ∧
      Lexeme.Breaks x rest e.fault ∧ e.line = lineAfter before := by
  rw [tokenize] at h
  rcases hrun : Cursor.tokens (Cursor.start source) with ⟨ts, c⟩ | ⟨e', c⟩
  · rw [hrun] at h
    cases h
  · rw [hrun] at h
    cases h
    exact Cursor.leads_of_tokensWithin_error _ hrun

/-! ### Lines -/

/-- The bytes of a line feed are the characters of a line feed. -/
theorem count_lineFeed_encode (cs : List Char) :
    (Text.encode cs).count Lexeme.lineFeed = cs.count '\n' := by
  induction cs with
  | nil => rfl
  | cons c cs ih =>
    rw [Text.encode_cons, List.count_append, ih]
    by_cases hc : c = '\n'
    · subst hc
      rw [List.count_cons_self, Nat.add_comm]
      rfl
    · have hnone : Lexeme.lineFeed ∉ String.utf8EncodeChar c := by
        intro hmem
        exact hc (Char.toNat_inj.1 (Text.encodeChar_of_mem (by decide) hmem).1)
      rw [List.count_eq_zero_of_not_mem hnone, List.count_cons_of_ne hc, Nat.zero_add]

/-- **The line of a place.** A piece of text without line ends stands in the line whose number is
that of its place. -/
theorem exists_line_of_place {source : String} {before x rest : List Char}
    (hsource : source.toList = before ++ x ++ rest) (hx : x ≠ []) (hfeed : '\n' ∉ x)
    (hreturn : '\r' ∉ x) : ∃ line, Text.Holds line before x rest ∧
      Text.line? source (lineAfter before) = some (String.ofList line) := by
  obtain ⟨line, hholds, hline⟩ := Text.exists_holds before rest hx hfeed hreturn
  rw [← hsource, String.ofList_toList, ← count_lineFeed_encode] at hline
  exact ⟨line, hholds, hline⟩

end KannadaScript
