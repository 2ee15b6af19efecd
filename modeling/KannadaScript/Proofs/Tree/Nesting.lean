import KannadaScript.Proofs.Tree.Grammar

/-!
# Open brackets

How many parentheses and blocks are open at most at a time, as tokens are read from the left:
`Grammar.peak`. It is computed from the right, so that a bracket adds one to what its inside needs,
and `Grammar.peak_le_iff` says in terms of the brackets read so far what a bound on it means. Every
phrase of the grammar closes all that it opens (`Grammar.Balanced`), hence the peak of phrases in a
row is the greatest of their peaks.

Parentheses and braces count alike, and the peak is a number of the tokens alone: it is defined for
any list of them, balanced or not. A bracket that closes takes one from what is needed behind it,
and one too many counts as none. On the tokens of a phrase this never happens.

Balance is stated by what it is good for. Tokens are balanced when, in front of any others, they
have the greater of the two peaks, and nothing is said about which bracket closes which. So balance
of a sequence is a rewriting, and for a phrase it is one step for each rule of the grammar
(`Derives.balanced`, `Statement.balanced`).

The blocks of a tree are brackets of its tokens (`Statement.blockDepth_le`), which is how a bound on
what is read becomes one on how deep the written code is indented.
-/

namespace KannadaScript

/-- An opening parenthesis or brace. -/
def Lexeme.opens : Lexeme → Bool
  | .mark .openParen | .mark .openBrace => true
  | _ => false

/-- A closing parenthesis or brace. -/
def Lexeme.closes : Lexeme → Bool
  | .mark .closeParen | .mark .closeBrace => true
  | _ => false

theorem Lexeme.opens_of_closes {l : Lexeme} (h : l.closes = true) : l.opens = false := by
  rcases l with _ | _ | _ | _ | _ | _ | m
  case mark => cases m <;> first | rfl | cases h
  all_goals cases h

namespace Grammar

/-! ### Peaks -/

/-- The most brackets that are open at a time. -/
def peak : List Token → Nat
  | [] => 0
  | t :: ts =>
    if t.lexeme.opens then peak ts + 1 else if t.lexeme.closes then peak ts - 1 else peak ts

@[simp] theorem peak_nil : peak [] = 0 := rfl

/-- A bracket that opens adds one to what follows. -/
theorem peak_opening {t : Token} (h : t.lexeme.opens = true) (ts : List Token) :
    peak (t :: ts) = peak ts + 1 := by
  rw [peak, if_pos h]

/-- A bracket that closes takes one from what follows. -/
theorem peak_closing {t : Token} (h : t.lexeme.closes = true) (ts : List Token) :
    peak (t :: ts) = peak ts - 1 := by
  rw [peak, Lexeme.opens_of_closes h, h]
  rfl

/-- A token that is no bracket changes nothing. -/
theorem peak_neutral {t : Token} {l : Lexeme} (ht : t.lexeme = l) (ho : l.opens = false)
    (hc : l.closes = false) (ts : List Token) : peak (t :: ts) = peak ts := by
  rw [peak, ht, ho, hc]
  rfl

/-- At no point are more than `k` brackets open. -/
def NestsWithin (k : Nat) (ts : List Token) : Prop :=
  ∀ before, before <+: ts →
    before.countP (·.lexeme.opens) ≤ before.countP (·.lexeme.closes) + k

/-- What is open before the rest of a list counts from its first token on. -/
theorem nestsWithin_cons (k : Nat) (t : Token) (ts : List Token) :
    NestsWithin k (t :: ts) ↔ ∀ before, before <+: ts →
      (t :: before).countP (·.lexeme.opens) ≤ (t :: before).countP (·.lexeme.closes) + k := by
  constructor
  · intro h before hb
    exact h _ (List.cons_prefix_cons.2 ⟨rfl, hb⟩)
  · intro h before hb
    rcases List.prefix_cons_iff.1 hb with rfl | ⟨b, rfl, hb'⟩
    · simp
    · exact h b hb'

/-- The peak is the least bound on the number of open brackets. -/
theorem peak_le_iff (ts : List Token) (k : Nat) : peak ts ≤ k ↔ NestsWithin k ts := by
  induction ts generalizing k with
  | nil => simp [NestsWithin]
  | cons t ts ih =>
    rw [nestsWithin_cons]
    simp only [List.countP_cons]
    -- An opening bracket lowers the bound for what follows and a closing one raises it, so the
    -- induction is for every bound.
    cases hc : t.lexeme.closes
    · cases ho : t.lexeme.opens
      · rw [peak_neutral rfl ho hc, ih]
        simp [NestsWithin]
      · rw [peak_opening ho]
        cases k with
        | zero =>
          simp only [Nat.le_zero, Nat.add_one_ne_zero, false_iff, not_forall]
          exact ⟨[], List.nil_prefix, by simp⟩
        | succ k =>
          rw [Nat.add_le_add_iff_right, ih]
          simp [NestsWithin, ← Nat.add_assoc]
    · rw [peak_closing hc, Nat.sub_le_iff_le_add, ih, Lexeme.opens_of_closes hc]
      simp [NestsWithin, Nat.add_assoc, Nat.add_comm 1 k]

/-! ### Balance -/

/-- All that is opened is closed. -/
def Balanced (ts : List Token) : Prop :=
  ∀ rest, peak (ts ++ rest) = max (peak ts) (peak rest)

theorem balanced_nil : Balanced [] := by
  intro rest
  simp

/-- Two balanced lists in a row are balanced. -/
theorem Balanced.append {ts ts' : List Token} (h : Balanced ts) (h' : Balanced ts') :
    Balanced (ts ++ ts') := by
  intro rest
  rw [List.append_assoc, h, h', h, max_assoc]

/-- A token that is no bracket keeps the balance. -/
theorem Balanced.cons {t : Token} {l : Lexeme} {ts : List Token} (h : Balanced ts)
    (ht : t.lexeme = l) (ho : l.opens = false) (hc : l.closes = false) : Balanced (t :: ts) := by
  intro rest
  rw [List.cons_append, peak_neutral ht ho hc, peak_neutral ht ho hc, h]

theorem Balanced.peak_cons {t : Token} {l : Lexeme} {ts : List Token} (h : Balanced ts)
    (ht : t.lexeme = l) (ho : l.opens = false) (hc : l.closes = false) (ts' : List Token) :
    peak (t :: ts ++ ts') = max (peak ts) (peak ts') := by
  rw [List.cons_append, peak_neutral ht ho hc, h]

section Bracket

variable {o c : Token} {l l' : Lexeme} {ts : List Token}

/-- A pair of brackets adds one to what its inside needs. -/
theorem Balanced.peak_bracket (h : Balanced ts) (ho : o.lexeme = l) (hl : l.opens = true)
    (hc : c.lexeme = l') (hl' : l'.closes = true) : peak (o :: ts ++ [c]) = peak ts + 1 := by
  rw [List.cons_append, peak_opening (ho ▸ hl), h, peak_closing (hc ▸ hl')]
  simp

/-- A bracket around balanced tokens is balanced. -/
theorem Balanced.bracket (h : Balanced ts) (ho : o.lexeme = l) (hl : l.opens = true)
    (hc : c.lexeme = l') (hl' : l'.closes = true) : Balanced (o :: ts ++ [c]) := by
  intro rest
  rw [h.peak_bracket ho hl hc hl', List.append_assoc, List.cons_append, peak_opening (ho ▸ hl), h,
    List.singleton_append, peak_closing (hc ▸ hl')]
  omega

end Bracket

/-! ### Phrases are balanced -/

/-- Leaves are no brackets. -/
theorem leaf?_neutral {t : Token} {n : Node} (h : leaf? t = some n) :
    t.lexeme.opens = false ∧ t.lexeme.closes = false := by
  rcases t with ⟨l, line⟩
  cases l with
  | mark m => cases h
  | _ => exact ⟨rfl, rfl⟩

theorem operator_neutral (op : BinaryOp) :
    (Lexeme.mark op.mark).opens = false ∧ (Lexeme.mark op.mark).closes = false := by
  cases op <;> exact ⟨rfl, rfl⟩

theorem peak_operator {t : Token} {op : BinaryOp} {ts : List Token} (ht : t.lexeme = .mark op.mark)
    (h : Balanced ts) (ts' : List Token) : peak (t :: ts ++ ts') = max (peak ts) (peak ts') :=
  h.peak_cons ht (operator_neutral op).1 (operator_neutral op).2 ts'

/-- Phrases of expressions close what they open. -/
theorem Derives.balanced {ph : Phrase} {ts : List Token} {n : Node} (h : Derives ph ts n) :
    Balanced ts := by
  induction h with
  | leaf h => exact balanced_nil.cons rfl (leaf?_neutral h).1 (leaf?_neutral h).2
  | paren ho inside hc ih => exact ih.bracket ho rfl hc rfl
  | plain h ih => exact ih
  | negated ht h ih => exact ih.cons ht rfl rfl
  | joined first rest ih ih' => exact ih.append ih'
  | done => exact balanced_nil
  | @more _ _ op _ _ _ _ _ ht hop next rest ih ih' =>
    exact (ih.cons ht (operator_neutral op).1 (operator_neutral op).2).append ih'

mutual
theorem Block.balanced {ts : List Token} {n : Node} : Block ts n → Balanced ts
  | .mk ho inside hc => inside.balanced.bracket ho rfl hc rfl
/-- Statements close what they open. -/
theorem Statement.balanced {ts : List Token} {n : Node} : Statement ts n → Balanced ts
  | .ifThen ht e b | .loop ht e b => (e.balanced.cons ht rfl rfl).append b.balanced
  | .ifElse ht e b hu c =>
    ((e.balanced.cons ht rfl rfl).append b.balanced).append (c.balanced.cons hu rfl rfl)
  | .print ht e he => (e.balanced.cons ht rfl rfl).append (balanced_nil.cons he rfl rfl)
  | .assign ht ha e he =>
    ((e.balanced.cons ha rfl rfl).cons ht rfl rfl).append (balanced_nil.cons he rfl rfl)
theorem Statements.balanced {ts : List Token} {ss : List Node} : Statements ts ss → Balanced ts
  | .nil => balanced_nil
  | .cons first more => first.balanced.append more.balanced
end

/-! ### Blocks are brackets -/

mutual
theorem Block.blockDepth_le {ts : List Token} {n : Node} : Block ts n → n.blockDepth ≤ peak ts
  | .mk ho inside hc => by
    rw [inside.balanced.peak_bracket ho rfl hc rfl, Node.blockDepth]
    exact Nat.succ_le_succ inside.blockDepthAll_le
/-- Blocks are nested no deeper than the brackets of the tokens. -/
theorem Statement.blockDepth_le {ts : List Token} {n : Node} :
    Statement ts n → n.blockDepth ≤ peak ts
  | .ifThen ht e b | .loop ht e b => by
    rw [e.balanced.peak_cons ht rfl rfl]
    exact b.blockDepth_le.trans (le_max_right _ _)
  | .ifElse ht e b hu c => by
    rw [List.append_assoc, e.balanced.peak_cons ht rfl rfl, b.balanced, peak_neutral hu rfl rfl,
      Node.blockDepth]
    exact (max_le_max b.blockDepth_le c.blockDepth_le).trans (le_max_right _ _)
  | .print _ _ _ | .assign _ _ _ _ => Nat.zero_le _
theorem Statements.blockDepthAll_le {ts : List Token} {ss : List Node} :
    Statements ts ss → Node.blockDepthAll ss ≤ peak ts
  | .nil => le_rfl
  | .cons first more => by
    rw [first.balanced, Node.blockDepthAll]
    exact max_le_max first.blockDepth_le more.blockDepthAll_le
end

end Grammar

end KannadaScript
