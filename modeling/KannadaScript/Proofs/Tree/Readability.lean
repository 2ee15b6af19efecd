import KannadaScript.Proofs.Code.Retelling
import KannadaScript.Tree.Outline

/-!
# Outlines read one way

An outline says of each node what it is and how deep it stands, and of a conditional not whether it
has a second branch. Still the outline determines the tree. A title gives away the kind of its node,
what the node holds and how many statements are below it (`Node.sameTitle_of_title_eq`), and so how
many trees come next; only behind the first branch of a conditional it is open what follows. There a
heading for a second branch belongs to this conditional and to no other: those around it stand
higher, and no title of a node reads so (`Node.Follows`).

In the text of an outline each heading is a line. The blanks before a title are told from the title,
which starts with a letter, and the line feed behind it is the first one, unless a name or a text
holds one. Names that were read never do. Texts are shown as they are, so a text with a line feed in
it can look like headings, and then two trees may have one dump.

That a list of lines can be cut up again, by a character that is in none of them, is
`Text.eq_of_append_stop_eq`. It is used for headings here, and for the lines of a token dump.

The induction is on one of the two trees, in front of any headings that may follow it
(`Node.Reads`). It gives back the rest as well, since the other tree is not known to end at the same
heading. Trees are compared without their lines, which do not show (`Node.outline_unlined`).

Main statement: `dump_determines_tree`.
-/

namespace KannadaScript

/-! ### Decimals -/

namespace Text

/-- The sign and the digits tell the number. -/
theorem decimal_injective : Function.Injective decimal := by
  have unsigned {m n : Nat} (h : "-" ++ m.repr = n.repr) : False := by
    have hminus : '-' ∈ n.repr.toList := by
      rw [← h, String.toList_append]
      exact List.mem_cons_self
    exact Code.not_mem_repr (by decide) n hminus
  intro m n h
  rw [decimal, decimal] at h
  split at h <;> split at h
  case isTrue.isTrue =>
    have := Nat.repr_inj.1 (String.append_right_inj _ |>.1 h)
    omega
  case isTrue.isFalse => exact (unsigned h).elim
  case isFalse.isTrue => exact (unsigned h.symm).elim
  case isFalse.isFalse =>
    have := Nat.repr_inj.1 h
    omega

/-- Decimals stand on one line, whatever their sign. -/
theorem lineFeed_not_mem_decimal (n : Int) : '\n' ∉ (decimal n).toList := by
  rw [decimal]
  split
  · rw [String.toList_append, List.mem_append, not_or]
    exact ⟨by decide, Code.not_mem_repr (by decide) _⟩
  · exact Code.not_mem_repr (by decide) _

end Text

/-! ### Titles -/

theorem BinaryOp.spelling_injective : Function.Injective spelling := by
  have mem_all (op : BinaryOp) : op ∈ all := by cases op <;> decide
  have hall : ∀ op ∈ all, ∀ op' ∈ all, op.spelling = op'.spelling → op = op' := by decide
  exact fun op op' ↦ hall op (mem_all op) op' (mem_all op')

namespace Node

/-- What titles tell of the kind of a node: everything, but for the second branch of a
conditional. -/
inductive Kind where
  | program
  | block
  | conditional
  | loop
  | print
  | assign
  | binary
  | negate
  | var
  | number
  | quoted
  | truth
deriving DecidableEq, Repr

/-- How the titles of a kind start. -/
def Kind.stem : Kind → String
  | .program => "Program ("
  | .block => "Block ("
  | .conditional => "If"
  | .loop => "While"
  | .print => "Print"
  | .assign => "Assign: "
  | .binary => "Binary Op: "
  | .negate => "Unary Op: "
  | .var => "Variable: "
  | .number => "Number: "
  | .quoted => "String: "
  | .truth => "Boolean: "

/-- The kind of a node. -/
def kind : Node → Kind
  | .program _ _ => .program
  | .block _ _ => .block
  | .ifThen _ _ _ | .ifElse _ _ _ _ => .conditional
  | .loop _ _ _ => .loop
  | .print _ _ => .print
  | .assign _ _ _ => .assign
  | .binary _ _ _ _ => .binary
  | .negate _ _ => .negate
  | .var _ _ => .var
  | .number _ _ => .number
  | .quoted _ _ => .quoted
  | .truth _ _ => .truth

/-- What the title of a node says besides its kind. -/
def particulars : Node → String
  | .program _ ss | .block _ ss => ss.length.repr ++ " statements)"
  | .ifThen _ _ _ | .ifElse _ _ _ _ | .loop _ _ _ | .print _ _ => ""
  | .assign _ x _ | .var _ x => x
  | .binary _ op _ _ => op.spelling
  | .negate _ _ => negationSpelling
  | .number _ v => Text.decimal v.toInt
  | .quoted _ s => s
  | .truth _ b => cond b "true" "false"

/-- A title is the stem of its kind, with what the node holds. -/
theorem title_eq (n : Node) : n.title = n.kind.stem ++ n.particulars := by
  match n with
  | .program _ _ | .block _ _ => exact String.append_assoc
  | .ifThen _ _ _ | .ifElse _ _ _ _ | .loop _ _ _ | .print _ _ => exact String.append_empty.symm
  | .assign _ _ _ | .binary _ _ _ _ | .negate _ _ | .var _ _ | .number _ _ | .quoted _ _
  | .truth _ _ => rfl

/-- Every kind. -/
def Kind.all : List Kind :=
  [.program, .block, .conditional, .loop, .print, .assign, .binary, .negate, .var, .number,
    .quoted, .truth]

theorem Kind.mem_all (k : Kind) : k ∈ all := by
  cases k <;> decide

/-- The first three characters tell the kinds apart. -/
theorem Kind.eq_of_take_stem {k k' : Kind}
    (h : k.stem.toList.take 3 = k'.stem.toList.take 3) : k = k' := by
  have hall : ∀ k ∈ all, ∀ k' ∈ all,
      k.stem.toList.take 3 = k'.stem.toList.take 3 → k = k' := by
    decide +kernel
  exact hall k (mem_all k) k' (mem_all k') h

theorem Kind.stem_long (k : Kind) : k = .conditional ∨ 3 ≤ k.stem.toList.length := by
  cases k <;> decide

/-- The kind of a node shows in three characters of its title. -/
theorem take_title (n : Node) : n.title.toList.take 3 = n.kind.stem.toList.take 3 := by
  rcases n.kind.stem_long with hkind | hlong
  · have hnone : n.particulars = "" := by
      match n with
      | .ifThen _ _ _ | .ifElse _ _ _ _ => rfl
    rw [title_eq, hnone, String.append_empty]
  · rw [title_eq, String.toList_append, List.take_append_of_le_length hlong]

/-- What two nodes with the same title have in common. -/
inductive SameTitle : Node → Node → Prop
  | program {l l' : Nat} {ss ss' : List Node} (h : ss.length = ss'.length) :
    SameTitle (.program l ss) (.program l' ss')
  | block {l l' : Nat} {ss ss' : List Node} (h : ss.length = ss'.length) :
    SameTitle (.block l ss) (.block l' ss')
  | ifThen {l l' : Nat} {c c' t t' : Node} : SameTitle (.ifThen l c t) (.ifThen l' c' t')
  | ifElse {l l' : Nat} {c c' t t' e e' : Node} :
    SameTitle (.ifElse l c t e) (.ifElse l' c' t' e')
  | widened {l l' : Nat} {c c' t t' e' : Node} : SameTitle (.ifThen l c t) (.ifElse l' c' t' e')
  | narrowed {l l' : Nat} {c c' t t' e : Node} : SameTitle (.ifElse l c t e) (.ifThen l' c' t')
  | loop {l l' : Nat} {c c' b b' : Node} : SameTitle (.loop l c b) (.loop l' c' b')
  | print {l l' : Nat} {v v' : Node} : SameTitle (.print l v) (.print l' v')
  | assign {l l' : Nat} {x : String} {v v' : Node} : SameTitle (.assign l x v) (.assign l' x v')
  | binary {l l' : Nat} {op : BinaryOp} {a a' b b' : Node} :
    SameTitle (.binary l op a b) (.binary l' op a' b')
  | negate {l l' : Nat} {a a' : Node} : SameTitle (.negate l a) (.negate l' a')
  | var {l l' : Nat} {x : String} : SameTitle (.var l x) (.var l' x)
  | number {l l' : Nat} {v : Int32} : SameTitle (.number l v) (.number l' v)
  | quoted {l l' : Nat} {s : String} : SameTitle (.quoted l s) (.quoted l' s)
  | truth {l l' : Nat} {b : Bool} : SameTitle (.truth l b) (.truth l' b)

/-- A title tells what a node is, what it holds and how many statements it has. -/
theorem sameTitle_of_title_eq {n n' : Node} (h : n.title = n'.title) : SameTitle n n' := by
  have hkind : n.kind = n'.kind :=
    Kind.eq_of_take_stem (by rw [← take_title, ← take_title, h])
  have hsame : n.particulars = n'.particulars := by
    rw [title_eq, title_eq, hkind] at h
    exact String.append_right_inj _ |>.1 h
  have length_eq {ss ss' : List Node}
      (h : ss.length.repr ++ " statements)" = ss'.length.repr ++ " statements)") :
      ss.length = ss'.length :=
    Nat.repr_inj.1 (String.append_left_inj _ |>.1 h)
  have htruth : ∀ b b' : Bool, cond b "true" "false" = cond b' "true" "false" → b = b' := by decide
  match n, n', hkind with
  | .program _ ss, .program _ ss', _ => exact .program (length_eq hsame)
  | .block _ ss, .block _ ss', _ => exact .block (length_eq hsame)
  | .ifThen _ _ _, .ifThen _ _ _, _ => exact .ifThen
  | .ifElse _ _ _ _, .ifElse _ _ _ _, _ => exact .ifElse
  | .ifThen _ _ _, .ifElse _ _ _ _, _ => exact .widened
  | .ifElse _ _ _ _, .ifThen _ _ _, _ => exact .narrowed
  | .loop _ _ _, .loop _ _ _, _ => exact .loop
  | .print _ _, .print _ _, _ => exact .print
  | .assign _ x _, .assign _ x' _, _ =>
    obtain rfl : x = x' := hsame
    exact .assign
  | .binary _ op _ _, .binary _ op' _ _, _ =>
    obtain rfl : op = op' := BinaryOp.spelling_injective hsame
    exact .binary
  | .negate _ _, .negate _ _, _ => exact .negate
  | .var _ x, .var _ x', _ =>
    obtain rfl : x = x' := hsame
    exact .var
  | .number _ v, .number _ v', _ =>
    obtain rfl : v = v' := Int32.toInt_inj.1 (Text.decimal_injective hsame)
    exact .number
  | .quoted _ s, .quoted _ s', _ =>
    obtain rfl : s = s' := hsame
    exact .quoted
  | .truth _ b, .truth _ b', _ =>
    obtain rfl : b = b' := htruth b b' hsame
    exact .truth

/-- No title of a node reads like the heading of a second branch. -/
theorem title_ne_else (n : Node) : n.title ≠ "Else" := by
  intro h
  have hall : ∀ k ∈ Kind.all, k.stem.toList.take 3 ≠ "Else".toList.take 3 := by decide +kernel
  exact hall n.kind (Kind.mem_all _) (by rw [← take_title, h])

/-! ### Headings in a row -/

/-- What can come behind the headings of a tree that stands at `depth`: nothing deeper, and no
second branch of a conditional there. -/
def Follows (depth : Nat) (rest : List Heading) : Prop :=
  ∀ h ∈ rest.head?, h.depth ≤ depth ∧ h ≠ ⟨depth, "Else"⟩

theorem outline_eq_cons (depth : Nat) (n : Node) :
    ∃ below, n.outline depth = ⟨depth, n.title⟩ :: below := by
  cases n <;> exact ⟨_, rfl⟩

/-- Behind a tree another can come. -/
theorem follows_outline (depth : Nat) (n : Node) (rest : List Heading) :
    Follows depth (n.outline depth ++ rest) := by
  obtain ⟨below, hbelow⟩ := n.outline_eq_cons depth
  rw [hbelow]
  rintro h ⟨⟩
  exact ⟨le_rfl, fun heq ↦ n.title_ne_else (congrArg Heading.title heq)⟩

variable {depth : Nat} {rest rest' : List Heading}

/-- Behind a tree may stand other trees of its depth. -/
theorem follows_outlineAll (ns : List Node) (h : Follows depth rest) :
    Follows depth (outlineAll depth ns ++ rest) := by
  rcases ns with - | ⟨n, ns⟩
  · exact h
  · rw [outlineAll, List.append_assoc]
    exact follows_outline depth n _

/-- What may follow a tree may follow those below it. -/
theorem Follows.below (h : Follows depth rest) : Follows (depth + 1) rest := by
  intro first hfirst
  have hdepth := (h first hfirst).1
  refine ⟨by omega, ?_⟩
  rintro rfl
  exact absurd hdepth (by simp)

/-- Behind a first branch, and below a conditional, the second may follow. -/
theorem follows_else (depth : Nat) (rest : List Heading) :
    Follows (depth + 1) (⟨depth, "Else"⟩ :: rest) := by
  rintro h ⟨⟩
  exact ⟨Nat.le_succ depth, by simp⟩

/-- Behind a whole conditional no heading of a second branch may follow. -/
theorem not_follows_else : ¬ Follows depth (⟨depth, "Else"⟩ :: rest) :=
  fun h ↦ (h _ rfl).2 rfl

/-- From any headings that start with those of the tree, the tree and the remaining headings can be
told. -/
def Reads (n : Node) : Prop :=
  ∀ ⦃n' : Node⦄ ⦃depth : Nat⦄ ⦃rest rest' : List Heading⦄, Follows depth rest →
    Follows depth rest' → n.outline depth ++ rest = n'.outline depth ++ rest' →
    n.unlined = n'.unlined ∧ rest = rest'

/-- The same for trees in a row, of which the number is known. -/
def ReadAll (ns : List Node) : Prop :=
  ∀ ⦃ns' : List Node⦄ ⦃depth : Nat⦄ ⦃rest rest' : List Heading⦄, ns.length = ns'.length →
    Follows depth rest → Follows depth rest' →
    outlineAll depth ns ++ rest = outlineAll depth ns' ++ rest' →
    unlinedAll ns = unlinedAll ns' ∧ rest = rest'

/-- Two trees in a row are read one after the other. -/
theorem Reads.pair {a b a' b' : Node} (ha : a.Reads) (hb : b.Reads) (hrest : Follows depth rest)
    (hrest' : Follows depth rest')
    (h : a.outline depth ++ (b.outline depth ++ rest) =
      a'.outline depth ++ (b'.outline depth ++ rest')) :
    a.unlined = a'.unlined ∧ b.unlined = b'.unlined ∧ rest = rest' := by
  obtain ⟨hleft, h⟩ := ha (follows_outline _ _ _) (follows_outline _ _ _) h
  exact ⟨hleft, hb hrest hrest' h⟩

/-- Trees whose headings start the same row have the same title. -/
theorem sameTitle_of_outline {n n' : Node}
    (h : n.outline depth ++ rest = n'.outline depth ++ rest') : SameTitle n n' := by
  obtain ⟨below, hbelow⟩ := n.outline_eq_cons depth
  obtain ⟨below', hbelow'⟩ := n'.outline_eq_cons depth
  rw [hbelow, hbelow', List.cons_append, List.cons_append, List.cons.injEq] at h
  exact sameTitle_of_title_eq (congrArg Heading.title h.1)

mutual
/-- **Unique readability.** By induction on the tree: its title tells how many trees are below it,
and each of them is read with what comes behind it as the rest. -/
theorem reads (n : Node) : n.Reads := by
  intro n' depth rest rest' hrest hrest' h
  have htitle := sameTitle_of_outline h
  match n with
  | .program _ ss =>
    cases htitle with | program hlength =>
    obtain ⟨hss, heq⟩ := readAll ss hlength hrest.below hrest'.below (List.cons.inj h).2
    exact ⟨by rw [unlined, unlined, hss], heq⟩
  | .block _ ss =>
    cases htitle with | block hlength =>
    obtain ⟨hss, heq⟩ := readAll ss hlength hrest.below hrest'.below (List.cons.inj h).2
    exact ⟨by rw [unlined, unlined, hss], heq⟩
  | .ifThen _ c t =>
    cases htitle with
    | ifThen =>
      simp only [outline, List.cons_append, List.append_assoc, List.cons.injEq] at h
      obtain ⟨hc, ht, heq⟩ := (reads c).pair (reads t) hrest.below hrest'.below h.2
      exact ⟨by rw [unlined, unlined, hc, ht], heq⟩
    | widened =>
      simp only [outline, List.cons_append, List.append_assoc, List.cons.injEq] at h
      obtain ⟨-, -, heq⟩ := (reads c).pair (reads t) hrest.below (follows_else _ _) h.2
      exact absurd (heq ▸ hrest) not_follows_else
  | .ifElse _ c t e =>
    cases htitle with
    | ifElse =>
      simp only [outline, List.cons_append, List.append_assoc, List.cons.injEq] at h
      obtain ⟨hc, ht, heq⟩ := (reads c).pair (reads t) (follows_else _ _) (follows_else _ _) h.2
      obtain ⟨he, heq⟩ := reads e hrest.below hrest'.below (List.cons.inj heq).2
      exact ⟨by rw [unlined, unlined, hc, ht, he], heq⟩
    | narrowed =>
      simp only [outline, List.cons_append, List.append_assoc, List.cons.injEq] at h
      obtain ⟨-, -, heq⟩ := (reads c).pair (reads t) (follows_else _ _) hrest'.below h.2
      exact absurd (heq ▸ hrest') not_follows_else
  | .loop _ c b =>
    cases htitle with | loop =>
    simp only [outline, List.cons_append, List.append_assoc, List.cons.injEq] at h
    obtain ⟨hc, hb, heq⟩ := (reads c).pair (reads b) hrest.below hrest'.below h.2
    exact ⟨by rw [unlined, unlined, hc, hb], heq⟩
  | .binary _ op a b =>
    cases htitle with | binary =>
    simp only [outline, List.cons_append, List.append_assoc, List.cons.injEq] at h
    obtain ⟨ha, hb, heq⟩ := (reads a).pair (reads b) hrest.below hrest'.below h.2
    exact ⟨by rw [unlined, unlined, ha, hb], heq⟩
  | .print _ v =>
    cases htitle with | print =>
    obtain ⟨hv, heq⟩ := reads v hrest.below hrest'.below (List.cons.inj h).2
    exact ⟨by rw [unlined, unlined, hv], heq⟩
  | .assign _ x v =>
    cases htitle with | assign =>
    obtain ⟨hv, heq⟩ := reads v hrest.below hrest'.below (List.cons.inj h).2
    exact ⟨by rw [unlined, unlined, hv], heq⟩
  | .negate _ a =>
    cases htitle with | negate =>
    obtain ⟨ha, heq⟩ := reads a hrest.below hrest'.below (List.cons.inj h).2
    exact ⟨by rw [unlined, unlined, ha], heq⟩
  | .var _ _ | .number _ _ | .quoted _ _ | .truth _ _ =>
    cases htitle
    exact ⟨rfl, (List.cons.inj h).2⟩
/-- Lists of trees, of the same length, are read the same way. -/
theorem readAll (ns : List Node) : ReadAll ns := by
  intro ns' depth rest rest' hlength hrest hrest' h
  match ns, ns' with
  | [], [] => exact ⟨rfl, h⟩
  | n :: ns, n' :: ns' =>
    rw [outlineAll, outlineAll, List.append_assoc, List.append_assoc] at h
    obtain ⟨hn, h⟩ := reads n (follows_outlineAll ns hrest) (follows_outlineAll ns' hrest') h
    obtain ⟨hns, heq⟩ := readAll ns (Nat.succ.inj hlength) hrest hrest' h
    exact ⟨by rw [unlinedAll, unlinedAll, hn, hns], heq⟩
end

/-! ### Lines do not show -/

theorem length_unlinedAll (ns : List Node) : (unlinedAll ns).length = ns.length := by
  induction ns with
  | nil => rfl
  | cons n ns ih => rw [unlinedAll, List.length_cons, List.length_cons, ih]

theorem title_unlined (n : Node) : n.unlined.title = n.title := by
  match n with
  | .program _ ss | .block _ ss => rw [unlined, title, title, length_unlinedAll]
  | .ifThen _ _ _ | .ifElse _ _ _ _ | .loop _ _ _ | .print _ _ | .assign _ _ _ | .binary _ _ _ _
  | .negate _ _ | .var _ _ | .number _ _ | .quoted _ _ | .truth _ _ => rfl

mutual
/-- Lines do not show in an outline. -/
theorem outline_unlined (depth : Nat) (n : Node) : n.unlined.outline depth = n.outline depth := by
  have htitle := n.title_unlined
  match n with
  | .program _ ss | .block _ ss =>
    rw [unlined] at htitle ⊢
    rw [outline, outline, htitle, outlineAll_unlined (depth + 1) ss]
  | .ifThen _ a b | .loop _ a b | .binary _ _ a b =>
    rw [unlined] at htitle ⊢
    rw [outline, outline, htitle, outline_unlined (depth + 1) a, outline_unlined (depth + 1) b]
  | .ifElse _ c t e =>
    rw [unlined] at htitle ⊢
    rw [outline, outline, htitle, outline_unlined (depth + 1) c, outline_unlined (depth + 1) t,
      outline_unlined (depth + 1) e]
  | .print _ v | .assign _ _ v | .negate _ v =>
    rw [unlined] at htitle ⊢
    rw [outline, outline, htitle, outline_unlined (depth + 1) v]
  | .var _ _ | .number _ _ | .quoted _ _ | .truth _ _ => rfl
theorem outlineAll_unlined (depth : Nat) (ns : List Node) :
    outlineAll depth (unlinedAll ns) = outlineAll depth ns := by
  match ns with
  | [] => rfl
  | n :: ns =>
    rw [unlinedAll, outlineAll, outlineAll, outline_unlined depth n, outlineAll_unlined depth ns]
end

end Node

/-! ### Headings as lines -/

/-- What ends at the first `stop` can be told from whatever follows it. -/
theorem Text.eq_of_append_stop_eq {stop : Char} {x x' rest rest' : List Char} (hx : stop ∉ x)
    (hx' : stop ∉ x') (h : x ++ stop :: rest = x' ++ stop :: rest') : x = x' ∧ rest = rest' := by
  have hstart {y : List Char} (hy : stop ∉ y) (cs : List Char) :
      (y ++ stop :: cs).takeWhile (· != stop) = y :=
    Lexeme.takeWhile_append_stop (fun c hc ↦ bne_iff_ne.2 fun hstop ↦ hy (hstop ▸ hc))
      fun c hc ↦ by cases hc; exact bne_self_eq_false stop
  have heq : x = x' := by rw [← hstart hx, h, hstart hx']
  rw [heq, List.append_cancel_left_eq, List.cons.injEq] at h
  exact ⟨heq, h.2⟩

namespace Heading

/-- The title does not start with a blank and stays on its line. -/
structure Clean (h : Heading) : Prop where
  flush : h.title.toList.head? ≠ some ' '
  unbroken : '\n' ∉ h.title.toList

/-- The line of a heading, without its line feed. -/
def line (h : Heading) : List Char := List.replicate (2 * h.depth) ' ' ++ h.title.toList

theorem toList_render (h : Heading) : h.render.toList = h.line ++ ['\n'] := by
  simp [render, Text.blanks, line]

variable {h h' : Heading}

/-- A clean heading is one line. -/
theorem Clean.lineFeed_not_mem (hclean : h.Clean) : '\n' ∉ h.line := by
  rw [line, List.mem_append, not_or]
  exact ⟨fun hmem ↦ absurd (List.eq_of_mem_replicate hmem) (by decide), hclean.unbroken⟩

/-- The blanks of a line tell the depth, and what is behind them the title. -/
theorem Clean.eq_of_line_eq (hclean : h.Clean) (hclean' : h'.Clean) (heq : h.line = h'.line) :
    h = h' := by
  have hblanks {g : Heading} (hg : g.Clean) :
      g.line.takeWhile (· == ' ') = List.replicate (2 * g.depth) ' ' :=
    Lexeme.takeWhile_append_stop (fun c hc ↦ beq_iff_eq.2 (List.eq_of_mem_replicate hc))
      fun c hc ↦ beq_eq_false_iff_ne.2 fun hblank ↦ hg.flush (hblank ▸ hc)
  have hdepth : h.depth = h'.depth := by
    have hlength := congrArg List.length (hblanks hclean)
    rw [heq, hblanks hclean', List.length_replicate, List.length_replicate] at hlength
    omega
  rw [line, line, hdepth, List.append_cancel_left_eq] at heq
  rcases h with ⟨depth, title⟩
  rcases h' with ⟨depth', title'⟩
  rw [mk.injEq]
  exact ⟨hdepth, String.toList_inj.1 heq⟩

/-- A text that consists of the lines of clean headings tells them. -/
theorem eq_of_flatMap_line_eq {hs hs' : List Heading} (hclean : ∀ h ∈ hs, h.Clean)
    (hclean' : ∀ h ∈ hs', h.Clean)
    (heq : hs.flatMap (fun h ↦ h.line ++ ['\n']) = hs'.flatMap fun h ↦ h.line ++ ['\n']) :
    hs = hs' := by
  induction hs generalizing hs' with
  | nil =>
    match hs' with
    | [] => rfl
    | h' :: hs' => simp at heq
  | cons h hs ih =>
    match hs' with
    | [] => simp at heq
    | h' :: hs' =>
      rw [List.forall_mem_cons] at hclean hclean'
      simp only [List.flatMap_cons, List.append_assoc, List.singleton_append] at heq
      obtain ⟨hline, heq⟩ := Text.eq_of_append_stop_eq hclean.1.lineFeed_not_mem
        hclean'.1.lineFeed_not_mem heq
      rw [hclean.1.eq_of_line_eq hclean'.1 hline, ih hclean.2 hclean'.2 heq]

end Heading

namespace Node

/-- What the node itself is called or holds has no line feed. -/
def Unbroken (n : Node) : Prop := ∀ s, n.name? = some s ∨ n.text? = some s → '\n' ∉ s.toList

/-- What a node holds stands on one line if its name or text does. -/
theorem Unbroken.particulars {n : Node} (h : n.Unbroken) : '\n' ∉ n.particulars.toList := by
  match n with
  | .program _ ss | .block _ ss =>
    rw [Node.particulars, String.toList_append, List.mem_append, not_or]
    exact ⟨Code.not_mem_repr (by decide) _, by decide⟩
  | .ifThen _ _ _ | .ifElse _ _ _ _ | .loop _ _ _ | .print _ _ => exact List.not_mem_nil
  | .assign _ x _ | .var _ x => exact h x (.inl rfl)
  | .binary _ op _ _ =>
    show '\n' ∉ op.spelling.toList
    cases op <;> decide
  | .negate _ _ =>
    show '\n' ∉ negationSpelling.toList
    decide
  | .number _ v => exact Text.lineFeed_not_mem_decimal v.toInt
  | .quoted _ s => exact h s (.inr rfl)
  | .truth _ b =>
    show '\n' ∉ (cond b "true" "false").toList
    cases b <;> decide

/-- The heading of an unbroken node is clean. -/
theorem Unbroken.clean {n : Node} (h : n.Unbroken) (depth : Nat) :
    Heading.Clean ⟨depth, n.title⟩ := by
  have hstem : ∀ k ∈ Kind.all, '\n' ∉ k.stem.toList ∧ (k.stem.toList.take 3).head? ≠ some ' ' := by
    decide +kernel
  obtain ⟨hfeed, hblank⟩ := hstem n.kind (Kind.mem_all _)
  refine ⟨?_, ?_⟩
  · rwa [← take_title, List.head?_take, if_neg (by decide)] at hblank
  · show '\n' ∉ n.title.toList
    rw [title_eq, String.toList_append, List.mem_append, not_or]
    exact ⟨hfeed, h.particulars⟩

mutual
/-- All headings of a tree are clean if its names and texts are unbroken. -/
theorem outline_clean (depth : Nat) (n : Node) (hn : ∀ m ∈ n.nodes, m.Unbroken) :
    ∀ h ∈ n.outline depth, h.Clean := by
  match n with
  | .program _ ss | .block _ ss =>
    rw [nodes, List.forall_mem_cons] at hn
    rw [outline, List.forall_mem_cons]
    exact ⟨hn.1.clean depth, outlineAll_clean (depth + 1) ss hn.2⟩
  | .ifThen _ a b | .loop _ a b | .binary _ _ a b =>
    rw [nodes, List.forall_mem_cons, List.forall_mem_append] at hn
    rw [outline, List.forall_mem_cons, List.forall_mem_append]
    exact ⟨hn.1.clean depth, outline_clean (depth + 1) a hn.2.1, outline_clean (depth + 1) b hn.2.2⟩
  | .ifElse _ c t e =>
    rw [nodes, List.forall_mem_cons, List.forall_mem_append, List.forall_mem_append] at hn
    rw [outline, List.forall_mem_cons, List.forall_mem_append, List.forall_mem_append,
      List.forall_mem_cons]
    have helse : "Else".toList.head? ≠ some ' ' ∧ '\n' ∉ "Else".toList := by decide
    exact ⟨hn.1.clean depth,
      ⟨outline_clean (depth + 1) c hn.2.1, outline_clean (depth + 1) t hn.2.2.1⟩,
      ⟨helse.1, helse.2⟩, outline_clean (depth + 1) e hn.2.2.2⟩
  | .print _ v | .assign _ _ v | .negate _ v =>
    rw [nodes, List.forall_mem_cons] at hn
    rw [outline, List.forall_mem_cons]
    exact ⟨hn.1.clean depth, outline_clean (depth + 1) v hn.2⟩
  | .var _ _ | .number _ _ | .quoted _ _ | .truth _ _ =>
    exact List.forall_mem_singleton.2 ((hn _ List.mem_cons_self).clean depth)
/-- The headings of trees are clean if all their nodes are unbroken. -/
theorem outlineAll_clean (depth : Nat) (ns : List Node) (hns : ∀ m ∈ nodesAll ns, m.Unbroken) :
    ∀ h ∈ outlineAll depth ns, h.Clean := by
  match ns with
  | [] => exact List.forall_mem_nil _
  | n :: ns =>
    rw [nodesAll, List.forall_mem_append] at hns
    rw [outlineAll, List.forall_mem_append]
    exact ⟨outline_clean depth n hns.1, outlineAll_clean depth ns hns.2⟩
end

/-- A tree is unbroken if none of its names and texts holds a line feed. -/
theorem unbroken_of_names_of_texts {n : Node} (h : ∀ s ∈ n.names ++ n.texts, '\n' ∉ s.toList) :
    ∀ m ∈ n.nodes, m.Unbroken := by
  rintro m hm s (hname | htext)
  · exact h s (List.mem_append_left _ (List.mem_filterMap.2 ⟨m, hm, hname⟩))
  · exact h s (List.mem_append_right _ (List.mem_filterMap.2 ⟨m, hm, htext⟩))

/-- A dump is the headings of the outline, line by line. -/
theorem toList_dump (n : Node) :
    n.dump.toList = (n.outline 0).flatMap fun h ↦ h.line ++ ['\n'] := by
  rw [dump, String.toList_join, List.flatMap_map]
  exact congrArg (List.flatMap · _) (funext Heading.toList_render)

end Node

/-- **The outline determines the tree.** Of any two trees, whatever nodes stand wherever in them,
the outlines have the same text exactly if the trees are equal up to lines, provided that no name
and no text in them holds a line feed. -/
theorem dump_determines_tree (n n' : Node) (h : ∀ s ∈ n.names ++ n.texts, '\n' ∉ s.toList)
    (h' : ∀ s ∈ n'.names ++ n'.texts, '\n' ∉ s.toList) :
    n.dump = n'.dump ↔ n.unlined = n'.unlined := by
  constructor
  · intro hdump
    have hlines := congrArg String.toList hdump
    rw [n.toList_dump, n'.toList_dump] at hlines
    have houtline : n.outline 0 = n'.outline 0 :=
      Heading.eq_of_flatMap_line_eq (n.outline_clean 0 (Node.unbroken_of_names_of_texts h))
        (n'.outline_clean 0 (Node.unbroken_of_names_of_texts h')) hlines
    have hnothing : Node.Follows 0 [] := fun _ hmem ↦ absurd hmem (by simp)
    exact (n.reads hnothing hnothing (by rw [houtline])).1
  · intro hunlined
    rw [Node.dump, Node.dump, ← n.outline_unlined, ← n'.outline_unlined, hunlined]

/-- A second branch inside a first one, or behind it, with a name and a text that read like its
heading. -/
theorem dump_determines_tree_branches :
    let inner : Node := .ifThen 2 (.var 2 "Else") (.quoted 2 "  Else")
    let wide : Node := .ifElse 2 (.var 2 "Else") (.quoted 2 "  Else") (.number 3 (-1))
    let n : Node := .ifElse 1 (.truth 1 true) (.block 1 [inner]) (.number 3 (-1))
    let n' : Node := .ifThen 1 (.truth 1 true) (.block 1 [wide])
    ((∀ s ∈ n.names ++ n.texts, '\n' ∉ s.toList) ∧ ∀ s ∈ n'.names ++ n'.texts, '\n' ∉ s.toList) ∧
    (n.dump = n'.dump ↔ n.unlined = n'.unlined) ∧ n.unlined ≠ n'.unlined := by
  intro inner wide n n'
  have h : ∀ s ∈ n.names ++ n.texts, '\n' ∉ s.toList := by decide +kernel
  have h' : ∀ s ∈ n'.names ++ n'.texts, '\n' ∉ s.toList := by decide +kernel
  exact ⟨⟨h, h'⟩, dump_determines_tree n n' h h', by decide +kernel⟩

end KannadaScript
