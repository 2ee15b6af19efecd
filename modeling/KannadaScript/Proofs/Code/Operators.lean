import KannadaScript.Proofs.Code.Indentation
import KannadaScript.Proofs.Code.Overrun
import KannadaScript.Proofs.Phases

/-!
# Operators of written code stand apart

The operators of a tree show in its code as characters of five kinds. Where two such characters met,
a reader of the code could take them for one operator, or for the start of a comment. What keeps
them apart are the blanks around a binary operator and an assignment, and the parentheses around
whatever would start with a minus sign behind another one.

The code is taken without its literals and cut into its longest runs of operator characters
(`Code.operatorRuns`). What stands on the two sides of a literal so counts as side by side, and even
then no two operators share a run. Anything else between two texts keeps their runs apart
(`Code.operatorRuns_append_cons`), so the lines of a code can be followed one by one, and within a
line its expression (`Node.expression_tells`). There only a minus sign has no blank behind it; it
asks for an operand that starts with no operator (`Node.startsClear_of_not_wrapsNegated`).

Main statement: `operators_never_fuse`.
-/

namespace KannadaScript

namespace Code

/-! ### Runs of operator characters -/

/-- A character that operators are made of. -/
def isOperatorChar (c : Char) : Bool := c ∈ ['+', '-', '*', '/', '=']

/-- The longest runs of operator characters in a text, from left to right. -/
def operatorRuns (cs : List Char) : List (List Char) :=
  (cs.splitOnP fun c ↦ !isOperatorChar c).filter fun run ↦ !run.isEmpty

/-- The text does not start with an operator. -/
def ClearStart (cs : List Char) : Prop := ∀ c ∈ cs.head?, isOperatorChar c = false

/-- The text does not end in an operator. -/
def ClearEnd (cs : List Char) : Prop := ∀ c ∈ cs.getLast?, isOperatorChar c = false

theorem operatorRuns_nil : operatorRuns [] = [] := rfl

/-- A character that is no operator separates the runs on its two sides. -/
theorem operatorRuns_append_cons {c : Char} (h : isOperatorChar c = false) (as bs : List Char) :
    operatorRuns (as ++ c :: bs) = operatorRuns as ++ operatorRuns bs := by
  rw [operatorRuns, List.splitOnP_append_cons as bs (by rw [h]; rfl), List.filter_append]
  rfl

/-- A character that is no operator character is in no run. -/
theorem operatorRuns_cons {c : Char} (h : isOperatorChar c = false) (cs : List Char) :
    operatorRuns (c :: cs) = operatorRuns cs :=
  operatorRuns_append_cons h [] cs

/-- Characters that are no operator characters add no run. -/
theorem operatorRuns_append_left {as : List Char} (h : ∀ c ∈ as, isOperatorChar c = false)
    (bs : List Char) : operatorRuns (as ++ bs) = operatorRuns bs := by
  induction as with
  | nil => rfl
  | cons c as ih =>
    rw [List.forall_mem_cons] at h
    rw [List.cons_append, operatorRuns_cons h.1, ih h.2]

/-- Operator characters up to a place where none follows are one run. -/
theorem operatorRuns_run {run rest : List Char} (hrun : ∀ c ∈ run, isOperatorChar c = true)
    (hne : run ≠ []) (hrest : ClearStart rest) :
    operatorRuns (run ++ rest) = run :: operatorRuns rest := by
  have hwhole : operatorRuns run = [run] := by
    rw [operatorRuns, List.splitOnP_eq_singleton fun c hc ↦ by rw [hrun c hc]; rfl]
    simp [hne]
  match rest with
  | [] => rw [List.append_nil, hwhole, operatorRuns_nil]
  | c :: rest =>
    have hc : isOperatorChar c = false := hrest c rfl
    rw [operatorRuns_append_cons hc, operatorRuns_cons hc, hwhole, List.singleton_append]

/-- A run that stands between two texts is one of the runs of the whole, with those of the texts
before and behind it. -/
theorem operatorRuns_around {before run after : List Char} (hbefore : ClearEnd before)
    (hrun : ∀ c ∈ run, isOperatorChar c = true) (hne : run ≠ []) (hafter : ClearStart after) :
    operatorRuns (before ++ (run ++ after)) =
      operatorRuns before ++ run :: operatorRuns after := by
  rcases List.eq_nil_or_concat' before with rfl | ⟨as, c, rfl⟩
  · exact operatorRuns_run hrun hne hafter
  · have hc : isOperatorChar c = false := hbefore c List.getLast?_concat
    rw [List.append_assoc, List.singleton_append, operatorRuns_append_cons hc,
      operatorRuns_append_cons hc, operatorRuns_run hrun hne hafter, operatorRuns_nil,
      List.append_nil]

/-! ### Operators -/

/-- What operator characters are written for. -/
inductive Operator where
  | assignment
  | binary (op : BinaryOp)
  | negation
  /-- The sign of a negative number. -/
  | sign
deriving DecidableEq, Repr

/-- How an operator is written. -/
def Operator.spelling : Operator → List Char
  | .assignment => ['=']
  | .binary op => op.spelling.toList
  | .negation => negationSpelling.toList
  | .sign => ['-']

/-- Two operator characters stand side by side only as the `==` of one of the given operators, with
no third one next to them. Which of the operators it is, the runs before it tell. -/
def Unfused (operators : List Operator) (cs : List Char) : Prop :=
  ∀ before c d after, cs = before ++ c :: d :: after →
    isOperatorChar c = true → isOperatorChar d = true →
    (c = '=' ∧ d = '=') ∧ ClearEnd before ∧ ClearStart after ∧
      ∃ os os', operators = os ++ .binary .eq :: os' ∧
        operatorRuns before = os.map Operator.spelling

/-- Only one operator has two characters, and none has more. -/
theorem Operator.spelling_of_pair {o : Operator} {as bs : List Char} {c d : Char}
    (h : o.spelling = as ++ c :: d :: bs) :
    o = .binary .eq ∧ as = [] ∧ (c = '=' ∧ d = '=') ∧ bs = [] := by
  have hlength : o.spelling.length = as.length + bs.length + 2 := by
    rw [h, List.length_append, List.length_cons, List.length_cons]
    omega
  have hshort : o.spelling.length = 1 ∨ o = .binary .eq := by
    rcases o with - | op | - | -
    case binary => rcases op with - | - | - | - | - <;> decide
    all_goals decide
  rcases hshort with hone | rfl
  · omega
  · replace hlength : 2 = as.length + bs.length + 2 := hlength
    obtain rfl : as = [] := List.eq_nil_of_length_eq_zero (by omega)
    obtain rfl : bs = [] := List.eq_nil_of_length_eq_zero (by omega)
    replace h : ['=', '='] = [c, d] := h
    rw [List.cons.injEq, List.cons.injEq] at h
    exact ⟨rfl, rfl, ⟨h.1.symm, h.2.1.symm⟩, rfl⟩

theorem clearStart_dropWhile (cs : List Char) : ClearStart (cs.dropWhile isOperatorChar) :=
  Lexeme.head?_dropWhile_eq_false

/-- Without its last run a text ends clear. -/
theorem clearEnd_rdropWhile (cs : List Char) : ClearEnd (cs.rdropWhile isOperatorChar) := by
  intro c hc
  rw [List.rdropWhile, List.getLast?_reverse] at hc
  exact clearStart_dropWhile cs.reverse c hc

/-- Where each run is an operator, no two of them fuse. -/
theorem unfused_of_operatorRuns {operators : List Operator} {cs : List Char}
    (h : operatorRuns cs = operators.map Operator.spelling) : Unfused operators cs := by
  intro before c d after hcs hc hd
  -- the run that the two characters belong to, as far as it goes to both sides
  have hbefore := before.rdropWhile_append_rtakeWhile (p := isOperatorChar)
  have hafter := after.takeWhile_append_dropWhile (p := isOperatorChar)
  have hrun : ∀ e ∈ before.rtakeWhile isOperatorChar ++ c :: d :: after.takeWhile isOperatorChar,
      isOperatorChar e = true := by
    rw [List.forall_mem_append, List.forall_mem_cons, List.forall_mem_cons]
    exact ⟨fun e he ↦ List.mem_rtakeWhile_imp he, hc, hd, fun e he ↦ List.mem_takeWhile_imp he⟩
  have hruns := operatorRuns_around (clearEnd_rdropWhile before) hrun (by simp)
    (clearStart_dropWhile after)
  rw [List.append_assoc, List.cons_append, List.cons_append, hafter, ← List.append_assoc, hbefore,
    ← hcs, h] at hruns
  obtain ⟨os, os', hoperators, hos, hos'⟩ := List.map_eq_append_iff.1 hruns
  obtain ⟨o, os', rfl, ho, -⟩ := List.map_eq_cons_iff.1 hos'
  obtain ⟨rfl, hleft, hpair, hright⟩ := Operator.spelling_of_pair ho
  rw [hleft, List.append_nil] at hbefore
  rw [hright, List.nil_append] at hafter
  refine ⟨hpair, ?_, ?_, os, os', hoperators, ?_⟩
  · rw [← hbefore]
    exact clearEnd_rdropWhile before
  · rw [← hafter]
    exact clearStart_dropWhile after
  · rw [hos, hbefore]

/-- What is unfused as a whole is so from its start to any point. -/
theorem Unfused.of_append {operators : List Operator} {as bs : List Char}
    (h : Unfused operators (as ++ bs)) : Unfused operators as := by
  intro before c d after has hc hd
  have hwhole : as ++ bs = before ++ c :: d :: (after ++ bs) := by
    rw [has, List.append_assoc, List.cons_append, List.cons_append]
  obtain ⟨hpair, hbefore, hafter, hoperator⟩ := h before c d (after ++ bs) hwhole hc hd
  refine ⟨hpair, hbefore, fun e he ↦ hafter e ?_, hoperator⟩
  rw [List.head?_append, Option.mem_def.1 he]
  rfl

/-- None of the pairs that would read as something else, and no third character behind `==`. -/
theorem Unfused.not_infix {operators : List Operator} {cs : List Char}
    (h : Unfused operators cs) :
    ∀ w ∈ ["--", "//", "/*", "==="], ¬ w.toList <:+: cs := by
  simp only [List.forall_mem_cons]
  have distinct {c d : Char} (hc : isOperatorChar c = true) (hd : isOperatorChar d = true)
      (hne : c ≠ '=') : ¬ [c, d] <:+: cs := by
    rintro ⟨before, after, rfl⟩
    exact hne (h before c d after (by simp) hc hd).1.1
  refine ⟨distinct rfl rfl (by decide), distinct rfl rfl (by decide),
    distinct rfl rfl (by decide), ?_, List.forall_mem_nil _⟩
  rintro ⟨before, after, rfl⟩
  have hclear := (h before '=' '=' ('=' :: after) (by simp) rfl rfl).2.2.1
  exact absurd (hclear '=' rfl) (by decide)

/-! ### Rows of atoms -/

namespace Atom

/-- The atom writes no operator outside literals. -/
def Silent (a : Atom) : Prop := ∀ c ∈ a.bare, isOperatorChar c = false

/-- Tame characters are no operator characters. -/
theorem isTame_of_isOperatorChar {c : Char} (h : isOperatorChar c = true) : isTame c = false := by
  have hmem : c ∈ ['+', '-', '*', '/', '='] := of_decide_eq_true h
  simp only [List.mem_cons, List.not_mem_nil, or_false] at hmem
  rcases hmem with rfl | rfl | rfl | rfl | rfl <;> rfl

/-- Only marks write operators. -/
theorem Inline.silent {a : Atom} (h : a.Inline) (hmark : ∀ m, a ≠ .mark m) : a.Silent := by
  intro c hc
  by_contra hoperator
  rw [Bool.not_eq_false] at hoperator
  exact h.not_mem_bare (isTame_of_isOperatorChar hoperator) (fun m hm ↦ absurd hm (hmark m)) hc

theorem silent_space : (gap [' ']).Silent := flat_space.1.silent fun _ ↦ by simp

theorem silent_keyword (k : Keyword) : (keyword k).Silent :=
  Inline.silent (a := keyword k) trivial fun _ ↦ by simp

/-- A mark without operator characters is silent. -/
theorem silent_mark {m : Mark} (h : m.spelling.toList.any isOperatorChar = false) :
    (mark m).Silent :=
  fun c hc ↦ Bool.eq_false_iff.2 (List.any_eq_false.1 h c hc)

end Atom

/-- Followed by anything that starts with no operator, the atoms write the given operators, each as
a run of its own. -/
def Tells (atoms : List Atom) (operators : List Operator) : Prop :=
  ∀ rest, ClearStart rest → operatorRuns (atoms.flatMap Atom.bare ++ rest) =
    operators.map Operator.spelling ++ operatorRuns rest

/-- The atoms do not start with an operator. -/
def StartsClear (atoms : List Atom) : Prop := ClearStart (atoms.flatMap Atom.bare)

/-- A text starts clear if its parts do. -/
theorem ClearStart.append {as bs : List Char} (has : ClearStart as) (hbs : ClearStart bs) :
    ClearStart (as ++ bs) := by
  intro c hc
  rw [List.head?_append] at hc
  rcases Option.or_eq_some_iff.1 hc with h | ⟨-, h⟩
  · exact has c h
  · exact hbs c h

theorem clearStart_nil : ClearStart [] := by
  intro c hc
  cases hc

/-- A row starts clear if its first atom is silent, and shows something or leaves the start to a row
that starts clear. -/
theorem Atom.Silent.startsClear {a : Atom} {as : List Atom} (ha : a.Silent)
    (has : a.bare = [] → StartsClear as) : StartsClear (a :: as) := by
  intro c hc
  rw [List.flatMap_cons, List.head?_append] at hc
  rcases Option.or_eq_some_iff.1 hc with h | ⟨hnone, h⟩
  · exact ha c (List.mem_of_mem_head? h)
  · exact has (List.head?_eq_none_iff.1 hnone) c h

theorem Atom.Silent.startsClear_singleton {a : Atom} (ha : a.Silent) : StartsClear [a] :=
  ha.startsClear fun _ ↦ clearStart_nil

theorem Atom.Silent.startsClear_of_ne {a : Atom} {as : List Atom} (ha : a.Silent)
    (hne : a.bare ≠ []) : StartsClear (a :: as) :=
  ha.startsClear fun hnil ↦ absurd hnil hne

theorem startsClear_space (as : List Atom) : StartsClear (.gap [' '] :: as) :=
  Atom.silent_space.startsClear_of_ne (List.cons_ne_nil _ _)

variable {as bs : List Atom} {os os' : List Operator}

theorem tells_nil : Tells [] [] := fun _ _ ↦ rfl

/-- A silent atom in front changes nothing. -/
theorem Tells.silent {a : Atom} (h : Tells as os) (ha : a.Silent) : Tells (a :: as) os := by
  intro rest hrest
  rw [List.flatMap_cons, List.append_assoc, operatorRuns_append_left ha, h rest hrest]

/-- Rows in a row tell their operators one after the other, if the second starts clear. -/
theorem Tells.append (ha : Tells as os) (hb : Tells bs os') (hclear : StartsClear bs) :
    Tells (as ++ bs) (os ++ os') := by
  intro rest hrest
  rw [List.flatMap_append, List.append_assoc, ha _ (hclear.append hrest), hb rest hrest,
    List.map_append, List.append_assoc]

/-- An operator is told where no operator follows. -/
theorem Tells.operator {m : Mark} {o : Operator} (h : Tells as os)
    (hm : m.spelling.toList = o.spelling) (hclear : StartsClear as) :
    Tells (.mark m :: as) (o :: os) := by
  intro rest hrest
  have hrun : o.spelling.all isOperatorChar = true ∧ o.spelling ≠ [] := by
    rcases o with - | op | - | -
    case binary => rcases op with - | - | - | - | - <;> exact ⟨rfl, List.cons_ne_nil _ _⟩
    all_goals exact ⟨rfl, List.cons_ne_nil _ _⟩
  show operatorRuns (m.spelling.toList ++ as.flatMap Atom.bare ++ rest) = _
  rw [hm, List.append_assoc, operatorRuns_run (List.all_eq_true.1 hrun.1) hrun.2
    (hclear.append hrest), h rest hrest]
  rfl

/-- The runs of a row that tells its operators are the spellings of these. -/
theorem Tells.operatorRuns_eq (h : Tells as os) :
    operatorRuns (as.flatMap Atom.bare) = os.map Operator.spelling := by
  have hruns := h [] clearStart_nil
  rwa [List.append_nil, operatorRuns_nil, List.append_nil] at hruns

/-- Parentheses are silent. -/
theorem Tells.wrapped (h : Tells as os) (wrap : Bool) : Tells (wrappedAtoms wrap as) os := by
  have hopen : (Atom.mark .openParen).Silent := Atom.silent_mark rfl
  have hclose : (Atom.mark .closeParen).Silent := Atom.silent_mark rfl
  match wrap with
  | false => exact h
  | true =>
    rw [← List.append_nil os]
    exact (h.append (tells_nil.silent hclose) hclose.startsClear_singleton).silent hopen

end Code

open Code

namespace Node

/-! ### The operators of a tree -/

mutual
/-- The operators of a tree, in the order in which its code has them. -/
def operators : Node → List Operator
  | .program _ ss | .block _ ss => operatorsAll ss
  | .ifThen _ c t | .loop _ c t => c.operators ++ t.operators
  | .ifElse _ c t e => c.operators ++ (t.operators ++ e.operators)
  | .print _ v => v.operators
  | .assign _ _ v => .assignment :: v.operators
  | .binary _ op a b => a.operators ++ .binary op :: b.operators
  | .negate _ a => .negation :: a.operators
  | .number _ v => if v < 0 then [.sign] else []
  | .var _ _ | .quoted _ _ | .truth _ _ => []
/-- The operators of a list of trees. -/
def operatorsAll : List Node → List Operator
  | [] => []
  | n :: ns => n.operators ++ operatorsAll ns
end

/-! ### Expressions -/

/-- What stands behind a minus sign without parentheses starts with no operator. -/
theorem startsClear_of_not_wrapsNegated {n : Node} (h : n.isExpression = true) (hn : n.Named)
    (hwrap : n.wrapsNegated = false) : StartsClear n.expressionAtoms := by
  have sole {a : Atom} (ha : a.Inline) (hmark : ∀ m, a ≠ .mark m) : StartsClear [a] :=
    (ha.silent hmark).startsClear_singleton
  match n with
  | .binary _ _ _ _ | .negate _ _ => exact absurd hwrap.symm Bool.false_ne_true
  | .var _ x => exact sole (hn _ List.mem_cons_self x rfl) fun _ ↦ by simp
  | .number _ v =>
    rw [expressionAtoms, if_neg (by simpa [wrapsNegated] using hwrap)]
    exact sole trivial fun _ ↦ by simp
  | .quoted _ _ | .truth _ _ => exact sole trivial fun _ ↦ by simp

/-- The operators of an expression are told one by one. -/
theorem expression_tells (n : Node) (h : n.isExpression = true) (hn : n.Named) :
    Tells n.expressionAtoms n.operators := by
  match n with
  | .binary _ op a b =>
    rw [isExpression, Bool.and_eq_true] at h
    rw [Named, nodes, List.forall_mem_cons, List.forall_mem_append] at hn
    have hop : op.mark.spelling.toList = (Operator.binary op).spelling := by cases op <;> rfl
    have hright := ((expression_tells b h.2 hn.2.2).wrapped (b.wrapsRight op)).silent
      Atom.silent_space
    exact ((expression_tells a h.1 hn.2.1).wrapped (a.wrapsLeft op)).append
      ((hright.operator hop (startsClear_space _)).silent Atom.silent_space) (startsClear_space _)
  | .negate _ a =>
    rw [isExpression] at h
    rw [Named, nodes, List.forall_mem_cons] at hn
    refine ((expression_tells a h hn.2).wrapped a.wrapsNegated).operator rfl ?_
    rcases hwrap : a.wrapsNegated with - | -
    · exact startsClear_of_not_wrapsNegated h hn.2 hwrap
    · exact (Atom.silent_mark rfl).startsClear_of_ne (List.cons_ne_nil _ _)
  | .var _ x =>
    exact tells_nil.silent (Atom.Inline.silent (hn _ List.mem_cons_self x rfl) (by simp))
  | .number _ v =>
    have hdigits : (Atom.digits v.toInt.natAbs).Silent := Atom.Inline.silent trivial (by simp)
    rw [expressionAtoms, operators]
    split
    · exact (tells_nil.silent hdigits).operator rfl hdigits.startsClear_singleton
    · exact tells_nil.silent hdigits
  | .quoted _ _ | .truth _ _ => exact tells_nil.silent (Atom.Inline.silent trivial (by simp))

end Node

/-! ### Lines -/

namespace Code

/-- The runs of operator characters in a line, outside literals. -/
def CodeLine.runs (l : CodeLine) : List (List Char) := operatorRuns (l.content.flatMap Atom.bare)

/-- The indentation of a line adds no run. -/
theorem CodeLine.Fine.operatorRuns_atoms {l : CodeLine} (h : l.Fine) (width : Nat) :
    operatorRuns ((l.atoms width).flatMap Atom.bare) = l.runs := by
  have hindent : (indentAtom width l.level).Silent :=
    (h.inline_atoms width _ List.mem_cons_self).silent fun _ ↦ by simp [indentAtom]
  rw [CodeLine.atoms, List.flatMap_cons, operatorRuns_append_left hindent, CodeLine.runs]

/-- The runs of a text that is made of lines are those of its lines. -/
theorem operatorRuns_text (width : Nat) {lines : List CodeLine} (h : ∀ l ∈ lines, l.Fine) :
    operatorRuns (outsideLiterals .outside
      ((lines.map (CodeLine.text width)).flatMap (· ++ ['\n']))) = lines.flatMap CodeLine.runs := by
  induction lines with
  | nil => rfl
  | cons l ls ih =>
    rw [List.forall_mem_cons] at h
    rw [List.map_cons, List.flatMap_cons, List.append_assoc, CodeLine.text,
      outsideLiterals_codeOf (h.1.inline_atoms width), List.singleton_append, outsideLiterals,
      if_neg (by decide), operatorRuns_append_cons (by decide), h.1.operatorRuns_atoms width,
      ih h.2, List.flatMap_cons]

end Code

namespace Node

/-- A line that opens a block has the operators of its condition. -/
theorem runs_entering (depth : Nat) (k : Keyword) {c : Node} (h : c.isExpression = true)
    (hn : c.Named) : CodeLine.runs ⟨depth, entering k c⟩ = c.operators.map Operator.spelling := by
  have hclose : (Atom.mark .closeParen).Silent := Atom.silent_mark rfl
  have hbrace : Tells [.gap [' '], .mark .openBrace] [] :=
    (tells_nil.silent (Atom.silent_mark rfl)).silent Atom.silent_space
  have hcondition := (expression_tells c h hn).append (hbrace.silent hclose)
    (hclose.startsClear_of_ne (List.cons_ne_nil _ _))
  rw [List.append_nil] at hcondition
  exact (((hcondition.silent (Atom.silent_mark rfl)).silent Atom.silent_space).silent
    (Atom.silent_keyword k)).operatorRuns_eq

theorem runs_turning (depth : Nat) : CodeLine.runs ⟨depth, turning⟩ = [] := rfl

theorem runs_leaving (depth : Nat) : CodeLine.runs ⟨depth, leaving⟩ = [] := rfl

mutual
/-- The lines of a statement have the operators of the statement as their runs. -/
theorem statementLines_runs (depth : Nat) (n : Node) (h : n.isStatement = true) (hn : n.Named) :
    (n.statementLines depth).flatMap CodeLine.runs = n.operators.map Operator.spelling := by
  match n with
  | .ifThen _ c t | .loop _ c t =>
    rw [isStatement, Bool.and_eq_true] at h
    rw [Named, nodes, List.forall_mem_cons, List.forall_mem_append] at hn
    rw [statementLines, List.flatMap_cons, List.flatMap_append, List.flatMap_singleton,
      runs_entering depth _ h.1 hn.2.1, bodyLines_runs depth t h.2 hn.2.2, runs_leaving,
      List.append_nil, operators, List.map_append]
  | .ifElse _ c t e =>
    rw [isStatement, Bool.and_eq_true, Bool.and_eq_true] at h
    rw [Named, nodes, List.forall_mem_cons, List.forall_mem_append, List.forall_mem_append] at hn
    rw [statementLines, List.flatMap_cons, List.flatMap_append, List.flatMap_cons,
      List.flatMap_append, List.flatMap_singleton, runs_entering depth _ h.1.1 hn.2.1,
      bodyLines_runs depth t h.1.2 hn.2.2.1, bodyLines_runs depth e h.2 hn.2.2.2, runs_turning,
      runs_leaving, List.nil_append, List.append_nil, operators, List.map_append, List.map_append]
  | .print _ v =>
    rw [Named, nodes, List.forall_mem_cons] at hn
    have hclose : (Atom.mark .closeParen).Silent := Atom.silent_mark rfl
    have hend : (Atom.mark .semicolon).Silent := Atom.silent_mark rfl
    have hvalue := (expression_tells v h hn.2).append ((tells_nil.silent hend).silent hclose)
      (hclose.startsClear_of_ne (List.cons_ne_nil _ _))
    rw [List.append_nil] at hvalue
    rw [statementLines, List.flatMap_singleton, operators]
    exact ((hvalue.silent (Atom.silent_mark rfl)).silent
      (Atom.silent_keyword _)).operatorRuns_eq
  | .assign _ x v =>
    rw [Named, nodes, List.forall_mem_cons] at hn
    have hname : (Atom.name x).Silent := Atom.Inline.silent (hn.1 x rfl) (by simp)
    have hend : (Atom.mark .semicolon).Silent := Atom.silent_mark rfl
    have hvalue := (expression_tells v h hn.2).append (tells_nil.silent hend)
      hend.startsClear_singleton
    rw [List.append_nil] at hvalue
    rw [statementLines, List.flatMap_singleton, operators]
    exact ((((hvalue.silent Atom.silent_space).operator rfl (startsClear_space _)).silent
      Atom.silent_space).silent hname).operatorRuns_eq
theorem bodyLines_runs (depth : Nat) (n : Node) (h : n.isBody = true) (hn : n.Named) :
    (n.bodyLines depth).flatMap CodeLine.runs = n.operators.map Operator.spelling := by
  match n with
  | .block _ ss =>
    rw [Named, nodes, List.forall_mem_cons] at hn
    exact statementsLines_runs (depth + 1) ss h hn.2
/-- The lines of statements in a row have their operators, in the order of the tree. -/
theorem statementsLines_runs (depth : Nat) (ns : List Node) (h : areStatements ns = true)
    (hn : ∀ m ∈ nodesAll ns, ∀ x ∈ m.name?, Lexeme.isName x.toList = true) :
    (statementsLines depth ns).flatMap CodeLine.runs =
      (operatorsAll ns).map Operator.spelling := by
  match ns with
  | [] => rfl
  | n :: ns =>
    rw [areStatements, Bool.and_eq_true] at h
    rw [nodesAll, List.forall_mem_append] at hn
    rw [statementsLines, List.flatMap_append, statementLines_runs depth n h.1 hn.1,
      statementsLines_runs depth ns h.2 hn.2, operatorsAll, List.map_append]
end

/-! ### Programs -/

/-- Outside literals, the code of a program has just the operators of the program as its runs. -/
theorem operatorRuns_code (width : Nat) {p : Node} (hp : p.isProgram = true)
    (hnames : ∀ x ∈ p.names, Lexeme.isName x.toList = true) :
    operatorRuns (outsideLiterals .outside (codeOf (p.programAtoms width))) =
      p.operators.map Operator.spelling := by
  have hfine := (programLines_nests hp hnames).fine
  match p with
  | .program _ ss =>
    rw [codeOf_programAtoms, operatorRuns_text width hfine]
    refine statementsLines_runs 0 ss hp fun m hm x hx ↦ hnames x ?_
    exact List.mem_filterMap.2 ⟨m, List.mem_cons_of_mem _ hm, hx⟩

/-- A tree as a program: itself if it is one, else a program of this one statement. -/
def asProgram : Node → Node
  | n@(.program _ _) => n
  | n => .program 0 [n]

/-- A statement, taken as a program of its own, is a program. -/
theorem isProgram_asProgram {n : Node} (h : n.isProgram = true ∨ n.isStatement = true) :
    n.asProgram.isProgram = true := by
  cases n with
  | program _ ss => exact h.resolve_right Bool.false_ne_true
  | _ =>
    rw [asProgram, isProgram, areStatements, areStatements, Bool.and_true]
    · exact h.resolve_left Bool.false_ne_true
    · rintro _ _ ⟨⟩

theorem names_asProgram (n : Node) : n.asProgram.names = n.names := by
  cases n with
  | program _ ss => rfl
  | _ =>
    show ((Node.program 0 _) :: (nodes _ ++ [])).filterMap name? = _
    rw [List.append_nil]
    rfl

theorem operators_asProgram (n : Node) : n.asProgram.operators = n.operators := by
  cases n with
  | program _ ss => rfl
  | _ => exact List.append_nil _

/-- A single statement is written as a program of this statement. -/
theorem script_asProgram (width depth : Nat) (n : Node) :
    n.asProgram.script width depth = n.script width depth := by
  have halone (a : Script) : a.andThen .nothing = a := by
    rcases a with ⟨text, - | f⟩
    · rw [Script.andThen_of_none, Script.nothing, List.append_nil]
    · rfl
  cases n with
  | program _ ss => rfl
  | _ =>
    rw [asProgram, script, statementsScript, statementsScript, halone, script]
    all_goals rintro _ _ ⟨⟩

end Node

/-- A tree of statements is written to its end, or up to a line that is too wide. -/
theorem generate_root_cases (width : Nat) {root : Node}
    (hroot : root.isProgram = true ∨ root.isStatement = true) :
    ∃ text g, g.sink.written = (Text.encode text).toArray ∧
      ((Generator.generate root { width } = .ok () g ∧
          text = codeOf (root.asProgram.programAtoms width)) ∨
        ∃ d rest, Generator.generate root { width } = .error (.paddingTooWide d) g ∧
          text ++ rest = codeOf (root.asProgram.programAtoms width)) := by
  have hemit := root.emit_of_unlimited width 0 (s := {}) rfl rfl
  have hcovers := Node.script_covers width (Node.isProgram_asProgram hroot)
  rw [Node.script_asProgram] at hcovers
  have hbytes (text : List Char) : (#[] : Array UInt8) ++ Text.encode text =
      (Text.encode text).toArray := by
    simp
  rcases hcovers with ⟨-, hscript⟩ | ⟨-, ⟨d, hd⟩, rest, -, hcode⟩
  · rw [hscript, hbytes] at hemit
    refine ⟨_, .holding width _, rfl, .inl ⟨?_, rfl⟩⟩
    rw [Generator.generate, hemit]
    rfl
  · rw [hd, hbytes] at hemit
    refine ⟨(root.script width 0).text, { width, depth := d, sink := { written := _ } }, rfl,
      .inr ⟨d, rest, ?_, hcode.symm⟩⟩
    rw [Generator.generate, hemit]
    rfl

/-- **Operators never fuse.** Let a program of statements, or a single statement, have only names of
the language, whatever its numbers and texts. What is written of it, be it to the end or only up to
a line that is too wide, has outside its literals no two operator characters side by side, but for
the two of a `==` that is written for an operator of the tree. Written to its end it has exactly the
operators of the tree as its runs, in their order. -/
theorem operators_never_fuse (root : Node) (width : Nat)
    (hroot : root.isProgram = true ∨ root.isStatement = true)
    (hnames : ∀ x ∈ root.names, Lexeme.isName x.toList = true) :
    ∃ text g, g.sink.written = (Text.encode text).toArray ∧
      Unfused root.operators (outsideLiterals .outside text) ∧
      (∀ w ∈ ["--", "//", "/*", "==="], ¬ w.toList <:+: outsideLiterals .outside text) ∧
      ((Generator.generate root { width } = .ok () g ∧
          operatorRuns (outsideLiterals .outside text) = root.operators.map Operator.spelling) ∨
        ∃ d, Generator.generate root { width } = .error (.paddingTooWide d) g) := by
  have hruns := Node.operatorRuns_code width (Node.isProgram_asProgram hroot)
    (by rwa [Node.names_asProgram])
  rw [Node.operators_asProgram] at hruns
  obtain ⟨text, g, hwritten, ⟨hok, rfl⟩ | ⟨d, rest, hwide, hcode⟩⟩ :=
    generate_root_cases width hroot
  · have hunfused := unfused_of_operatorRuns hruns
    exact ⟨_, g, hwritten, hunfused, hunfused.not_infix, .inl ⟨hok, hruns⟩⟩
  · rw [← hcode] at hruns
    obtain ⟨tail, htail⟩ := exists_outsideLiterals_append .outside text rest
    rw [htail] at hruns
    have hunfused := (unfused_of_operatorRuns hruns).of_append
    exact ⟨text, g, hwritten, hunfused, hunfused.not_infix, .inr ⟨d, hwide⟩⟩

/-- A loop in which signs, negations and the least number meet, and texts that are made of operator
characters stand behind operators. -/
theorem operators_never_fuse_signs :
    let least : Node := .negate 2 (.negate 2 (.number 2 (-2147483648)))
    let value : Node := .binary 2 .eq (.binary 2 .sub (.var 2 "ಕ") (.number 2 (-5))) least
    let condition : Node := .binary 1 .eq (.quoted 1 "-- \" // ===") (.negate 1 (.quoted 1 "="))
    let root : Node := .loop 1 condition (.block 1 [.assign 2 "ಕ" value, .print 3 value])
    ((root.isProgram = true ∨ root.isStatement = true) ∧
      ∀ x ∈ root.names, Lexeme.isName x.toList = true) ∧
    ∃ text g, g.sink.written = (Text.encode text).toArray ∧
      Unfused root.operators (outsideLiterals .outside text) ∧
      (∀ w ∈ ["--", "//", "/*", "==="], ¬ w.toList <:+: outsideLiterals .outside text) ∧
      ((Generator.generate root { width := 2 } = .ok () g ∧
          operatorRuns (outsideLiterals .outside text) = root.operators.map Operator.spelling) ∨
        ∃ d, Generator.generate root { width := 2 } = .error (.paddingTooWide d) g) := by
  intro least value condition root
  have hroot : root.isProgram = true ∨ root.isStatement = true := .inr (by decide)
  have hnames : ∀ x ∈ root.names, Lexeme.isName x.toList = true := by decide +kernel
  exact ⟨⟨hroot, hnames⟩, operators_never_fuse root 2 hroot hnames⟩

end KannadaScript
