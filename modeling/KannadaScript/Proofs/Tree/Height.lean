import KannadaScript.Proofs.Tree.Acceptance

/-!
# How high a tree can be

Checking a tree and writing its code recurse on it, so how deep they go is the length of the longest
path from its root to a leaf (`Node.height`). No check bounds it. What bounds it are two counts made
while the tree is read: the brackets open at a time, and the operators of each statement.

In an expression every node of a path is a binary operator, a minus sign or a leaf. All operators of
a tier count, also those that the path does not meet, and a minus sign right inside another needs a
parenthesis between them (`Derives.height_le`). A block is a bracket too, and it puts two nodes on a
path, itself and the statement around it (`Statement.height_le`).

A path is a list of nodes, each a child of the one before it (`Node.IsPath`). No path is longer than
the tree is high, and one is as long (`exists_isPath`), so a bound on the height is a bound on paths
and the best one. Heights are what the induction over the grammar is about: the height of a phrase
is bounded by the peak of its tokens and the operators of its tree, and both are computed along the
same rules.

Nothing is said about the children of a node one by one. `Node.children` lists them, and what holds
of a tree because it holds of all of them is said once.

Main statement: `path_length_le`. A witness beside it, of parentheses and minus signs, shows how the
nesting comes in twice.
-/

namespace KannadaScript

namespace Node

/-! ### Paths -/

/-- The nodes right below a node. -/
def children : Node → List Node
  | .program _ ss | .block _ ss => ss
  | .ifThen _ a b | .loop _ a b | .binary _ _ a b => [a, b]
  | .ifElse _ c t e => [c, t, e]
  | .print _ a | .assign _ _ a | .negate _ a => [a]
  | .var _ _ | .number _ _ | .quoted _ _ | .truth _ _ => []

/-- The nodes on a way from the root of a tree down to a leaf, both included. -/
inductive IsPath : Node → List Node → Prop
  | leaf {n : Node} (h : n.children = []) : IsPath n [n]
  | step {n c : Node} {path : List Node} (hc : c ∈ n.children) (h : IsPath c path) :
      IsPath n (n :: path)

mutual
/-- The number of nodes on the longest path. -/
def height : Node → Nat
  | .program _ ss | .block _ ss => heightAll ss + 1
  | .ifThen _ a b | .loop _ a b | .binary _ _ a b => max a.height b.height + 1
  | .ifElse _ c t e => max c.height (max t.height e.height) + 1
  | .print _ a | .assign _ _ a | .negate _ a => a.height + 1
  | .var _ _ | .number _ _ | .quoted _ _ | .truth _ _ => 1
/-- The number of nodes on the longest path of any tree of a list. -/
def heightAll : List Node → Nat
  | [] => 0
  | n :: ns => max n.height (heightAll ns)
end

theorem height_eq (n : Node) : n.height = heightAll n.children + 1 := by
  cases n <;> simp [height, heightAll, children]

theorem height_le_heightAll {n : Node} {ns : List Node} (h : n ∈ ns) : n.height ≤ heightAll ns := by
  induction ns with
  | nil => cases h
  | cons m ns ih =>
    rw [heightAll]
    rcases List.mem_cons.1 h with rfl | h
    · exact le_max_left _ _
    · exact (ih h).trans (le_max_right _ _)

/-- Every step down a tree costs height. -/
theorem height_lt_of_mem_children {n c : Node} (h : c ∈ n.children) : c.height < n.height := by
  rw [height_eq n]
  exact Nat.lt_succ_of_le (height_le_heightAll h)

/-- No path is longer than the tree is high. -/
theorem IsPath.length_le_height {n : Node} {path : List Node} (h : n.IsPath path) :
    path.length ≤ n.height := by
  induction h with
  | @leaf n h =>
    rw [height_eq]
    exact Nat.le_add_left _ _
  | step hc h ih => exact Nat.succ_le_of_lt (ih.trans_lt (height_lt_of_mem_children hc))

/-- Of several trees one is as high as any. -/
theorem exists_height_eq_heightAll {ns : List Node} (h : ns ≠ []) :
    ∃ n ∈ ns, n.height = heightAll ns := by
  induction ns with
  | nil => exact absurd rfl h
  | cons m ns ih =>
    rw [heightAll]
    rcases eq_or_ne ns [] with rfl | hns
    · exact ⟨m, List.mem_singleton_self m, (Nat.max_eq_left (Nat.zero_le _)).symm⟩
    · obtain ⟨n, hn, hheight⟩ := ih hns
      rcases le_total (heightAll ns) m.height with hle | hle
      · exact ⟨m, List.mem_cons_self, (max_eq_left hle).symm⟩
      · exact ⟨n, List.mem_cons_of_mem m hn, hheight.trans (max_eq_right hle).symm⟩

/-- Some path is as long as the tree is high. -/
theorem exists_isPath (n : Node) : ∃ path, n.IsPath path ∧ path.length = n.height := by
  induction hk : n.height using Nat.strong_induction_on generalizing n with
  | _ k ih =>
    subst hk
    rcases eq_or_ne n.children [] with hleaf | hinner
    · refine ⟨[n], .leaf hleaf, ?_⟩
      rw [height_eq, hleaf]
      rfl
    · obtain ⟨c, hc, hheight⟩ := exists_height_eq_heightAll hinner
      obtain ⟨path, hpath, hlength⟩ := ih c.height (height_lt_of_mem_children hc) c rfl
      refine ⟨n :: path, .step hc hpath, ?_⟩
      rw [height_eq n, ← hheight, ← hlength]
      rfl

end Node

namespace Grammar

/-! ### Expressions -/

/-- What a phrase adds at most to its operators and brackets: a leaf and a minus sign, where a
primary phrase has no sign of its own. -/
def Phrase.spare : Phrase → Nat
  | .primary => 1
  | .joined _ | .more _ _ | .factor => 2

theorem spare_operand (tier : Tier) : (operand tier).spare = 2 := by
  cases tier <;> rfl

/-- The height of the tree that a phrase continues. -/
def Phrase.heightGiven : Phrase → Nat
  | .more _ l => l.height
  | .joined _ | .factor | .primary => 0

theorem heightGiven_operand (tier : Tier) : (operand tier).heightGiven = 0 := by
  cases tier <;> rfl

theorem height_of_leaf {t : Token} {n : Node} (h : leaf? t = some n) : n.height = 1 := by
  rcases t with ⟨l, line⟩
  cases l with
  | keyword w => cases w <;> cases h <;> rfl
  | _ => cases h <;> rfl

/-- An expression is no higher than its operators, its nested parentheses, a sign and a leaf. A
tree that is continued keeps within any bound that it kept, so the bound `k` is the same for all
operands of a chain. -/
theorem Derives.height_le {ph : Phrase} {ts : List Token} {n : Node} (h : Derives ph ts n) {k : Nat}
    (hk : peak ts + ph.spare ≤ k) (hgiven : ph.heightGiven ≤ Parse.operatorsGiven ph + k) :
    n.height ≤ n.operatorCount + k := by
  induction h generalizing k with
  | leaf h =>
    rw [height_of_leaf h]
    exact (Nat.le_add_left _ _).trans (hk.trans (Nat.le_add_left _ _))
  | paren ho inside hc ih =>
    rw [inside.balanced.peak_bracket ho rfl hc rfl] at hk
    exact ih hk (Nat.zero_le _)
  | plain h ih => exact ih (Nat.le_of_succ_le hk) (Nat.zero_le _)
  | @negated t ts n ht h ih =>
    -- the sign takes what a primary phrase has less to spare
    rw [peak_neutral ht rfl rfl, Phrase.spare] at hk
    obtain ⟨k, rfl⟩ : ∃ k', k = k' + 1 := ⟨k - 1, by omega⟩
    rw [Node.height, Node.operatorCount]
    exact Nat.succ_le_succ (ih (Nat.le_of_succ_le_succ hk) (Nat.zero_le _))
  | @joined tier ts ts' l n first rest ih ih' =>
    rw [first.balanced, Phrase.spare] at hk
    have hfirst := ih (k := k) (by rw [spare_operand]; omega) (by rw [heightGiven_operand]; omega)
    exact ih' (by rw [Phrase.spare]; omega) hfirst
  | done => exact hgiven
  | @more tier t op ts ts' l r n ht hop next rest ih ih' =>
    rw [peak_operator ht next.balanced, Phrase.spare] at hk
    have hleft : l.height ≤ l.operatorCount + k := hgiven
    have hright := ih (k := k) (by rw [spare_operand]; omega) (by rw [heightGiven_operand]; omega)
    refine ih' (by rw [Phrase.spare]; omega) ?_
    show max l.height r.height + 1 ≤ l.operatorCount + r.operatorCount + 1 + k
    omega

/-- The expression of a statement, within the limit on its operators. -/
theorem expression_height_le {es : List Token} {e : Node} (h : Expression es e)
    (hmodest : e.operatorCount ≤ maxOperators) : e.height ≤ peak es + maxOperators + 2 := by
  have hheight := h.height_le le_rfl (Nat.zero_le _)
  rw [Phrase.spare] at hheight
  omega

/-! ### Statements -/

open Parse (Modest modest_cons modest_append)

mutual
/-- Blocks: themselves, and what their statements have. -/
theorem Block.height_le {ts : List Token} {n : Node} :
    Block ts n → Modest n.ownExpressions → n.height ≤ 2 * peak ts + maxOperators + 2
  | .mk ho inside hc, hmodest => by
    have hinside := inside.heightAll_le hmodest
    rw [inside.balanced.peak_bracket ho rfl hc rfl, Node.height]
    omega
/-- **Step lemma of the grammar.** A statement is at most twice as high as its brackets are deep,
apart from one expression. -/
theorem Statement.height_le {ts : List Token} {n : Node} :
    Statement ts n → Modest n.ownExpressions → n.height ≤ 2 * peak ts + maxOperators + 3
  | .ifThen ht e b, hmodest | .loop ht e b, hmodest => by
    obtain ⟨hown, hmodest⟩ := modest_cons.1 hmodest
    have hcondition := expression_height_le e hown
    have hbody := b.height_le hmodest
    rw [e.balanced.peak_cons ht rfl rfl, Node.height]
    omega
  | .ifElse ht e b hu c, hmodest => by
    obtain ⟨hown, hmodest⟩ := modest_cons.1 hmodest
    obtain ⟨hmodest, hmodest'⟩ := modest_append.1 hmodest
    have hcondition := expression_height_le e hown
    have hbody := b.height_le hmodest
    have hother := c.height_le hmodest'
    rw [List.append_assoc, e.balanced.peak_cons ht rfl rfl, b.balanced, peak_neutral hu rfl rfl,
      Node.height]
    omega
  | .print ht e he, hmodest => by
    have hvalue := expression_height_le e (modest_cons.1 hmodest).1
    rw [e.balanced.peak_cons ht rfl rfl, Node.height]
    omega
  | .assign ht ha e he, hmodest => by
    have hvalue := expression_height_le e (modest_cons.1 hmodest).1
    rw [List.cons_append, peak_neutral ht rfl rfl, e.balanced.peak_cons ha rfl rfl, Node.height]
    omega
/-- Lists of statements are as high as the highest of them. -/
theorem Statements.heightAll_le {ts : List Token} {ss : List Node} :
    Statements ts ss → Modest (Node.ownExpressionsAll ss) →
      Node.heightAll ss ≤ 2 * peak ts + maxOperators + 3
  | .nil, _ => Nat.zero_le _
  | .cons first more, hmodest => by
    obtain ⟨hmodest, hmodest'⟩ := modest_append.1 hmodest
    have hfirst := first.height_le hmodest
    have hmore := more.heightAll_le hmodest'
    rw [first.balanced, Node.heightAll]
    omega
end

end Grammar

/-- The program, two nodes for each bracket, a statement, its operators, a sign and a leaf. -/
theorem height_of_ofTokens {tokens : List Token} {p : Node} (h : Node.ofTokens tokens = .ok p) :
    p.height ≤ 1 + 2 * maxNesting + 1 + maxOperators + 1 + 1 := by
  obtain ⟨⟨-, hstatements⟩, hpeak, hmodest⟩ := (ofTokens_eq_ok_iff tokens p).1 h
  have hheight := hstatements.heightAll_le hmodest
  rw [Node.height]
  omega

/-- **Bounded height.** However long the tokens of a program are, no path from the root of its tree
to a leaf has more than 1156 nodes. -/
theorem path_length_le {tokens : List Token} {p : Node} (h : Node.ofTokens tokens = .ok p)
    {path : List Node} (hpath : p.IsPath path) : path.length ≤ 1156 :=
  hpath.length_le_height.trans (height_of_ofTokens h)

/-- Seven nodes on the path to a doubly negated variable in the body of a loop. -/
theorem path_length_le_negations :
    let tokens : List Token := [⟨.keyword .whileWord, 1⟩, ⟨.name "ಕ", 1⟩, ⟨.mark .openBrace, 1⟩,
      ⟨.keyword .printWord, 2⟩, ⟨.mark .minus, 2⟩, ⟨.mark .openParen, 2⟩, ⟨.mark .minus, 2⟩,
      ⟨.name "ಕ", 2⟩, ⟨.mark .closeParen, 2⟩, ⟨.mark .semicolon, 2⟩, ⟨.mark .closeBrace, 3⟩]
    let inner : Node := .negate 2 (.var 2 "ಕ")
    let body : Node := .block 1 [.print 2 (.negate 2 inner)]
    let p : Node := .program 1 [.loop 1 (.var 1 "ಕ") body]
    let path : List Node := [p, .loop 1 (.var 1 "ಕ") body, body, .print 2 (.negate 2 inner),
      .negate 2 inner, inner, .var 2 "ಕ"]
    (Node.ofTokens tokens = .ok p ∧ p.IsPath path) ∧ path.length ≤ 1156 := by
  intro tokens inner body p path
  have hrun : Node.ofTokens tokens = .ok p := rfl
  have hpath : p.IsPath path :=
    .step (.head _) (.step (.tail _ (.head _)) (.step (.head _) (.step (.head _)
      (.step (.head _) (.step (.head _) (.leaf rfl))))))
  exact ⟨⟨hrun, hpath⟩, path_length_le hrun hpath⟩

end KannadaScript
