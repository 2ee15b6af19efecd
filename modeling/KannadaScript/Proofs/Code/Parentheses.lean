import KannadaScript.Proofs.Code.Derivation
import KannadaScript.Proofs.Tree.Acceptance

/-!
# As few parentheses as can be

Written code has parentheses only where the grammar leaves no choice. A tree binds as tightly as the
operator at its root (`Node.tightness`), and each place in an expression asks for some tightness: an
operand that binds more loosely has to be put in parentheses there. Counting these places gives
`Node.needed`, which is a number of the tree alone and knows nothing of how it is written.

It is a lower bound for every spelling: by induction on a derivation, tokens that spell a tree have
at least as many opening parentheses as the tree needs (`Derives.neededAt_le`). The induction is
over places: what is derived as a phrase of some tightness has the parentheses that its tree needs
there. A parenthesised expression may stand anywhere, and pays for that with one of its own.

And written code has no more (`Node.count_openParen`), as long as no number is negative; those are
always put in parentheses, and no token spells them. Parentheses are counted as characters of the
code, so the ones in names and quoted texts have to be counted too, by what the leaves of the tree
hold (`Node.contents`); escaping adds none and takes none away.

Main statement: `fewest_parentheses`.
-/

namespace KannadaScript

open Grammar Code

namespace Node

/-! ### The parentheses that a tree needs -/

/-- How tightly a tree binds: a sign tighter than any other operator, and a leaf tightest. Unlike at
its `level`, a negative number counts as the leaf that it is. -/
def tightness : Node → Nat
  | .binary _ op _ _ => op.precedence
  | .negate _ _ => 4
  | .program _ _ | .block _ _ | .ifThen _ _ _ | .ifElse _ _ _ _ | .loop _ _ _ | .print _ _
  | .assign _ _ _ | .var _ _ | .number _ _ | .quoted _ _ | .truth _ _ => 5

/-- The parentheses inside a tree. A left operand may bind as tightly as its operator, a right one
has to bind tighter, and behind a minus sign there can be a leaf only. -/
def needed : Node → Nat
  | .binary _ op a b =>
    (a.needed + if a.tightness < op.precedence then 1 else 0) +
      (b.needed + if b.tightness < op.precedence + 1 then 1 else 0)
  | .negate _ a => a.needed + if a.tightness < 5 then 1 else 0
  | .program _ _ | .block _ _ | .ifThen _ _ _ | .ifElse _ _ _ _ | .loop _ _ _ | .print _ _
  | .assign _ _ _ | .var _ _ | .number _ _ | .quoted _ _ | .truth _ _ => 0

/-- The parentheses of a tree at a place that asks for a tightness. -/
def neededAt (k : Nat) (n : Node) : Nat := n.needed + if n.tightness < k then 1 else 0

theorem needed_binary (l : Nat) (op : BinaryOp) (a b : Node) :
    (binary l op a b).needed = a.neededAt op.precedence + b.neededAt (op.precedence + 1) := rfl

theorem needed_negate (l : Nat) (a : Node) : (negate l a).needed = a.neededAt 5 := rfl

/-- A place that asks for no more tightness than a tree has costs no parenthesis. -/
theorem neededAt_of_le {n : Node} {k : Nat} (h : k ≤ n.tightness) : n.neededAt k = n.needed := by
  rw [neededAt, if_neg (Nat.not_lt.2 h)]
  rfl

/-- A place costs one parenthesis at most. -/
theorem neededAt_le (n : Node) (k : Nat) : n.neededAt k ≤ n.needed + 1 := by
  rw [neededAt]
  split <;> omega

theorem needed_le_neededAt (n : Node) (k : Nat) : n.needed ≤ n.neededAt k := Nat.le_add_right _ _

/-- A tighter place never costs less. -/
theorem neededAt_mono (n : Node) {j k : Nat} (h : j ≤ k) : n.neededAt j ≤ n.neededAt k := by
  rw [neededAt, neededAt]
  split
  · rw [if_pos (by omega)]
  · omega

/-- Lines have no part in how tightly a tree binds. -/
theorem tightness_unlined (n : Node) : n.unlined.tightness = n.tightness := by
  cases n <;> rfl

theorem needed_unlined (n : Node) : n.unlined.needed = n.needed := by
  match n with
  | .binary _ op a b =>
    rw [unlined, needed, needed, tightness_unlined, tightness_unlined, needed_unlined a,
      needed_unlined b]
  | .negate _ a => rw [unlined, needed, needed, tightness_unlined, needed_unlined a]
  | .program _ _ | .block _ _ | .ifThen _ _ _ | .ifElse _ _ _ _ | .loop _ _ _ | .print _ _
  | .assign _ _ _ | .var _ _ | .number _ _ | .quoted _ _ | .truth _ _ => rfl

end Node

namespace Grammar

/-! ### The parentheses of a spelling -/

/-- The number of opening parentheses. -/
def openParens (ts : List Token) : Nat := ts.countP (·.lexeme == .mark .openParen)

@[simp] theorem openParens_nil : openParens [] = 0 := rfl

/-- Parentheses are counted token by token. -/
theorem openParens_append (ts ts' : List Token) :
    openParens (ts ++ ts') = openParens ts + openParens ts' :=
  List.countP_append

theorem openParens_cons_of_ne {t : Token} {l : Lexeme} (ht : t.lexeme = l)
    (hl : l ≠ .mark .openParen) (ts : List Token) : openParens (t :: ts) = openParens ts :=
  List.countP_cons_of_neg (by simp [ht, hl])

theorem openParens_cons_of_eq {t : Token} (ht : t.lexeme = .mark .openParen) (ts : List Token) :
    openParens (t :: ts) = openParens ts + 1 :=
  List.countP_cons_of_pos (by simp [ht])

/-- How tightly the trees of a phrase bind, unless they stand in parentheses. -/
def Phrase.tightness : Phrase → Nat
  | .joined tier | .more tier _ => tier.precedence
  | .factor => 4
  | .primary => 5

/-- The operands of a tier bind more tightly than its operators. -/
theorem tightness_operand (tier : Tier) : (operand tier).tightness = tier.precedence + 1 := by
  cases tier <;> rfl

/-- The parentheses of the tree that a phrase continues. -/
def Phrase.neededGiven : Phrase → Nat
  | .more tier l => l.neededAt tier.precedence
  | .joined _ | .factor | .primary => 0

theorem neededGiven_operand (tier : Tier) : (operand tier).neededGiven = 0 := by
  cases tier <;> rfl

/-- A single token needs no parenthesis anywhere. -/
theorem neededAt_of_leaf {t : Token} {n : Node} (h : leaf? t = some n) : n.neededAt 5 = 0 := by
  rcases t with ⟨l, line⟩
  cases l with
  | keyword w => cases w <;> cases h <;> rfl
  | _ => cases h <;> rfl

/-- **No spelling has fewer.** A phrase has a parenthesis for each one that its tree needs where the
phrase stands, those of the tree that it continues not counted. -/
theorem Derives.neededAt_le {ph : Phrase} {ts : List Token} {n : Node} (h : Derives ph ts n) :
    n.neededAt ph.tightness ≤ ph.neededGiven + openParens ts := by
  induction h with
  | leaf h =>
    rw [Phrase.tightness, neededAt_of_leaf h]
    exact Nat.zero_le _
  | @paren o c ts n ho inside hc ih =>
    -- the pair makes up for whatever the place asks for
    have hinside := (n.needed_le_neededAt _).trans ih
    have hpair := n.neededAt_le 5
    rw [Phrase.neededGiven] at hinside
    rw [openParens_append, openParens_cons_of_eq ho, Phrase.tightness, Phrase.neededGiven]
    omega
  | @plain ts n h ih => exact (n.neededAt_mono (by decide)).trans ih
  | @negated t ts n ht h ih =>
    rw [openParens_cons_of_ne ht (by decide)]
    exact ih
  | @joined tier ts ts' l n first rest ih ih' =>
    rw [tightness_operand, neededGiven_operand] at ih
    have hleft := l.neededAt_mono (Nat.le_add_right tier.precedence 1)
    rw [Phrase.tightness, Phrase.neededGiven] at ih'
    rw [openParens_append, Phrase.tightness, Phrase.neededGiven]
    omega
  | done => exact Nat.le_add_right _ _
  | @more tier t op ts ts' l r n ht hop next rest ih ih' =>
    -- the operator stands at the level of its tier, so joined to `l` it asks for no parentheses
    have hbinary : (Node.binary t.line op l r).neededAt tier.precedence =
        l.neededAt tier.precedence + r.neededAt (tier.precedence + 1) := by
      rw [Node.neededAt_of_le hop.ge, Node.needed_binary, hop]
    have hmark : Lexeme.mark op.mark ≠ .mark .openParen := by cases op <;> decide
    rw [tightness_operand, neededGiven_operand] at ih
    rw [Phrase.tightness, Phrase.neededGiven, hbinary] at ih'
    rw [List.cons_append, openParens_cons_of_ne ht hmark, openParens_append, Phrase.tightness,
      Phrase.neededGiven]
    omega

/-- The tokens of a statement that prints have the parentheses of the printed expression. -/
theorem needed_le_of_print {tokens : List Token} {l l' : Nat} {e : Node}
    (h : Node.ofTokens tokens = .ok (.program l [.print l' e])) : e.needed ≤ openParens tokens := by
  obtain ⟨hprogram, -, -⟩ := (ofTokens_eq_ok_iff tokens _).1 h
  obtain ⟨-, hstatements⟩ := hprogram
  have hbefore : openParens (beforeEnd tokens) ≤ openParens tokens :=
    (List.takeWhile_sublist _).countP_le
  refine le_trans ?_ hbefore
  generalize beforeEnd tokens = ts at hstatements
  cases hstatements with
  | cons first rest =>
    cases first with
    | @print t f es _ ht value hf =>
      have hvalue := (e.needed_le_neededAt _).trans value.neededAt_le
      rw [Phrase.neededGiven] at hvalue
      rw [List.append_assoc, List.cons_append, openParens_cons_of_ne ht (by decide),
        openParens_append]
      omega

end Grammar

namespace Node

/-! ### The parentheses that are written -/

/-- No number in the tree is negative. -/
def Unsigned (n : Node) : Prop := ∀ l v, .number l v ∈ n.nodes → 0 ≤ v

theorem Unsigned.left {l : Nat} {op : BinaryOp} {a b : Node} (h : (binary l op a b).Unsigned) :
    a.Unsigned :=
  fun l' v hv ↦ h l' v (List.mem_cons_of_mem _ (List.mem_append_left _ hv))

theorem Unsigned.right {l : Nat} {op : BinaryOp} {a b : Node} (h : (binary l op a b).Unsigned) :
    b.Unsigned :=
  fun l' v hv ↦ h l' v (List.mem_cons_of_mem _ (List.mem_append_right _ hv))

theorem Unsigned.operand {l : Nat} {a : Node} (h : (negate l a).Unsigned) : a.Unsigned :=
  fun l' v hv ↦ h l' v (List.mem_cons_of_mem _ hv)

theorem Unsigned.not_lt {l : Nat} {v : Int32} (h : (number l v).Unsigned) : ¬ v < 0 :=
  Int32.not_lt.2 (h l v (List.mem_singleton_self _))

section Wraps

variable {n : Node} (h : n.Unsigned)

include h

/-- Unless it is a negative number, an operand is wrapped exactly when it binds too loosely for its
place. Here on the left of an operator. -/
theorem Unsigned.wrapsLeft_eq (op : BinaryOp) :
    n.wrapsLeft op = decide (n.tightness < op.precedence) := by
  have hop := op.precedence_le
  cases n with
  | binary _ _ _ _ => rfl
  | number _ v =>
    rw [wrapsLeft, decide_eq_false h.not_lt, tightness, decide_eq_false (by omega)]
  | _ => exact (decide_eq_false (by rw [tightness]; omega)).symm

/-- On the right of an operator, where one step more is asked for. -/
theorem Unsigned.wrapsRight_eq (op : BinaryOp) :
    n.wrapsRight op = decide (n.tightness < op.precedence + 1) := by
  have hop := op.precedence_le
  cases n with
  | binary _ inner _ _ => exact decide_eq_decide.2 Nat.lt_succ_iff.symm
  | number _ v =>
    rw [wrapsRight, decide_eq_false h.not_lt, tightness, decide_eq_false (by omega)]
  | _ => exact (decide_eq_false (by rw [tightness]; omega)).symm

/-- Behind a minus sign, an operand without negative numbers is wrapped if it has an operator at its
root. -/
theorem Unsigned.wrapsNegated_eq : n.wrapsNegated = decide (n.tightness < 5) := by
  cases n with
  | binary _ op _ _ =>
    have hop := op.precedence_le
    exact (decide_eq_true (by rw [tightness]; omega)).symm
  | number _ v => rw [wrapsNegated, decide_eq_false h.not_lt, tightness, decide_eq_false (by omega)]
  | _ => rfl

end Wraps

/-- The characters of the names and texts in a tree. -/
def contents (n : Node) : List Char := (n.names ++ n.texts).flatMap String.toList

/-- What the leaves of a tree hold is held by one of its operands. -/
theorem count_contents_binary (c : Char) (l : Nat) (op : BinaryOp) (a b : Node) :
    (binary l op a b).contents.count c = a.contents.count c + b.contents.count c := by
  simp only [contents, names, texts, nodes, name?, text?, List.filterMap_cons,
    List.filterMap_append, List.flatMap_append, List.count_append]
  omega

theorem contents_negate (l : Nat) (a : Node) : (negate l a).contents = a.contents := rfl

theorem contents_var (l : Nat) (x : String) : (var l x).contents = x.toList := List.append_nil _

theorem contents_number (l : Nat) (v : Int32) : (number l v).contents = [] := rfl

theorem contents_quoted (l : Nat) (s : String) : (quoted l s).contents = s.toList :=
  List.append_nil _

end Node

/-! ### Characters of written atoms -/

/-- To wrap is to write one opening parenthesis. -/
theorem count_codeOf_wrapped (wrap : Bool) (atoms : List Atom) :
    (codeOf (wrappedAtoms wrap atoms)).count '(' =
      (codeOf atoms).count '(' + if wrap then 1 else 0 := by
  cases wrap with
  | false => rfl
  | true =>
    rw [wrappedAtoms, if_pos rfl, List.cons_append, codeOf_cons, codeOf_append, List.count_append,
      List.count_append]
    have hopen : (Atom.mark .openParen).code.count '(' = 1 := by decide
    have hclose : (codeOf [.mark .closeParen]).count '(' = 0 := by decide
    rw [hopen, hclose, if_pos rfl]
    omega

/-- Digits are no parentheses. -/
theorem count_digits (n : Nat) : n.repr.toList.count '(' = 0 :=
  List.count_eq_zero.2 (not_mem_repr (by decide) _)

/-- Escapes leave parentheses alone. -/
theorem count_literal (s : String) : (literal s).toList.count '(' = s.toList.count '(' := by
  have hescape (c : Char) : (escapeChar c).count '(' = [c].count '(' := by
    rw [escapeChar]
    split_ifs with h h h h h
    all_goals first | rfl | (subst h; decide)
  have hbody (cs : List Char) : (cs.flatMap escapeChar).count '(' = cs.count '(' := by
    induction cs with
    | nil => rfl
    | cons c cs ih =>
      rw [List.flatMap_cons, List.count_append, hescape, ih, ← List.count_append]
      rfl
  simp [literal, escape, hbody]

/-- **Written code has no more.** Apart from those in names and texts, the parentheses that are
written are those that the tree needs. -/
theorem Node.count_openParen (n : Node) (h : n.isExpression = true) (hn : n.Unsigned) :
    (codeOf n.expressionAtoms).count '(' = n.needed + n.contents.count '(' := by
  match n with
  | .binary l op a b =>
    rw [isExpression, Bool.and_eq_true] at h
    have hleft := count_openParen a h.1 hn.left
    have hright := count_openParen b h.2 hn.right
    have hop : (codeOf [.gap [' '], .mark op.mark, .gap [' ']]).count '(' = 0 := by
      cases op <;> decide
    have hatoms : (binary l op a b).expressionAtoms =
        wrappedAtoms (a.wrapsLeft op) a.expressionAtoms ++
          ([.gap [' '], .mark op.mark, .gap [' ']] ++
            wrappedAtoms (b.wrapsRight op) b.expressionAtoms) := rfl
    rw [hatoms, codeOf_append, codeOf_append, List.count_append, List.count_append, hop,
      count_codeOf_wrapped, count_codeOf_wrapped, hleft, hright, hn.left.wrapsLeft_eq,
      hn.right.wrapsRight_eq, count_contents_binary, needed_binary, neededAt, neededAt]
    simp only [decide_eq_true_eq]
    omega
  | .negate l a =>
    rw [isExpression] at h
    have hinner := count_openParen a h hn.operand
    have hsign : (Atom.mark .minus).code.count '(' = 0 := by decide
    rw [expressionAtoms, codeOf_cons, List.count_append, hsign, count_codeOf_wrapped, hinner,
      hn.operand.wrapsNegated_eq, contents_negate, needed_negate, neededAt]
    simp only [decide_eq_true_eq]
    omega
  | .var l x =>
    have hcode : codeOf (var l x).expressionAtoms = x.toList := List.append_nil _
    rw [hcode, contents_var, needed, Nat.zero_add]
  | .number l v =>
    have hcode : codeOf [.digits v.toInt.natAbs] = v.toInt.natAbs.repr.toList := List.append_nil _
    rw [expressionAtoms, if_neg hn.not_lt, hcode, count_digits, contents_number, needed]
    rfl
  | .quoted l s =>
    have hcode : codeOf (quoted l s).expressionAtoms = (literal s).toList := List.append_nil _
    rw [hcode, count_literal, contents_quoted, needed, Nat.zero_add]
  | .truth _ v => cases v <;> rfl

/-- **Fewest parentheses.** An expression without negative numbers is written with no more
parentheses than any tokens have that spell it: whichever tokens are read between the word to print
and a semicolon as the same expression up to lines, at least as many of them are opening parentheses
as the written text has, those in names and texts not counted. -/
theorem fewest_parentheses (e : Node) (he : e.isExpression = true)
    (hv : ∀ l v, .number l v ∈ e.nodes → 0 ≤ v) (first last : Token) (ts : List Token)
    (hfirst : first.lexeme = .keyword .printWord) (hlast : last.lexeme = .mark .semicolon)
    {l l' : Nat} {e' : Node}
    (hread : Node.ofTokens (first :: ts ++ [last]) = .ok (.program l [.print l' e']))
    (hsame : e'.unlined = e.unlined) :
    ∃ text : List Char,
      (∀ s : Sink, s.limit = none →
        e.emitExpression s = .ok () { s with written := s.written ++ Text.encode text }) ∧
      text.count '(' ≤ ts.countP (·.lexeme == .mark .openParen) +
        ((e.names ++ e.texts).flatMap String.toList).count '(' := by
  have hscript := e.expressionScript_of_isExpression he
  refine ⟨codeOf e.expressionAtoms, fun s hlimit ↦ ?_, ?_⟩
  · rw [e.emitExpression_eq_play, hscript, Script.play_of_unlimited _ hlimit]
  · have hneeded : e'.needed = e.needed := by
      rw [← e'.needed_unlined, hsame, e.needed_unlined]
    have htokens : openParens (first :: ts ++ [last]) = openParens ts := by
      rw [List.cons_append, openParens_cons_of_ne hfirst (by decide), openParens_append,
        openParens_cons_of_ne hlast (by decide), openParens_nil, Nat.add_zero]
    have hspelling := needed_le_of_print hread
    rw [htokens, hneeded] at hspelling
    rw [e.count_openParen he hv]
    exact Nat.add_le_add_right hspelling _

/-- One pair is written for a product of a difference, which these tokens spell with two. -/
theorem fewest_parentheses_product :
    let e : Node := .binary 1 .mul (.binary 1 .sub (.number 1 7) (.var 1 "ಕ")) (.number 1 3)
    let e' : Node := .binary 2 .mul (.binary 2 .sub (.number 2 7) (.var 2 "ಕ")) (.number 2 3)
    let first : Token := ⟨.keyword .printWord, 2⟩
    let last : Token := ⟨.mark .semicolon, 2⟩
    let ts : List Token := [⟨.mark .openParen, 2⟩, ⟨.mark .openParen, 2⟩, ⟨.number 7, 2⟩,
      ⟨.mark .minus, 2⟩, ⟨.name "ಕ", 2⟩, ⟨.mark .closeParen, 2⟩, ⟨.mark .star, 2⟩, ⟨.number 3, 2⟩,
      ⟨.mark .closeParen, 2⟩]
    (e.isExpression = true ∧ (∀ l v, .number l v ∈ e.nodes → 0 ≤ v) ∧
      Node.ofTokens (first :: ts ++ [last]) = .ok (.program 2 [.print 2 e']) ∧
      e'.unlined = e.unlined) ∧
    ∃ text : List Char,
      (∀ s : Sink, s.limit = none →
        e.emitExpression s = .ok () { s with written := s.written ++ Text.encode text }) ∧
      text.count '(' ≤ ts.countP (·.lexeme == .mark .openParen) +
        ((e.names ++ e.texts).flatMap String.toList).count '(' := by
  intro e e' first last ts
  have hshape : e.isExpression = true := rfl
  have hsigns : ∀ l v, .number l v ∈ e.nodes → 0 ≤ v := by
    intro l v hv
    have hmem : Node.number l v = .number 1 7 ∨ Node.number l v = .number 1 3 := by
      simpa [e, Node.nodes] using hv
    rcases hmem with hmem | hmem <;> cases hmem <;> decide
  have hread : Node.ofTokens (first :: ts ++ [last]) = .ok (.program 2 [.print 2 e']) := rfl
  have hsame : e'.unlined = e.unlined := rfl
  exact ⟨⟨hshape, hsigns, hread, hsame⟩,
    fewest_parentheses e hshape hsigns first last ts rfl rfl hread hsame⟩

end KannadaScript
