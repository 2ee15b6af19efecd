import KannadaScript.Text.Layout
import Mathlib.Data.List.Induction

/-!
# The lines of a text

`Text.IsLine` says what a line of a text is, without counting: it starts the text or follows a line
feed, has no line feed in it, and ends the text or stands before a line end, which is a line feed
together with a carriage return before it.

The division of a text into lines is a function (`Text.linesOf`), and the two are tied together by
following the text from its start: what comes before a line consists of lines that have ended, as
many as there are line feeds (`linesOf_append`), and then comes the line itself (`linesOf_line`). So
the number of a line is one more than the number of line feeds before it (`line?_of_isLine`), with
both kinds of line ends, since each has one line feed.

Around any place in a text there is a line: it starts behind the last line feed before the place
(`exists_lineStart`) and ends at the next line end (`exists_lineEnd`). A carriage return needs some
care. Before a line feed it belongs to the line end and not to the line; anywhere else it is a
character of the line like any other. A piece of text that has neither is never cut by a line end.

Main statement: `Text.exists_holds`. A piece of text without line ends stands in one line, and this
is the line whose number is one more than the number of line feeds before the piece.
-/

namespace KannadaScript.Text

/-- `line` is a line of the text, with `pre` before it and `post` behind. -/
structure IsLine (pre line post : List Char) : Prop where
  starts : ∀ c ∈ pre.getLast?, c = '\n'
  unbroken : '\n' ∉ line
  ends : post = [] ∨ (∃ more, post = '\r' :: '\n' :: more) ∨
    (∃ more, post = '\n' :: more) ∧ line.getLast? ≠ some '\r'

/-- `x`, which stands between `before` and `rest`, is in `line`. -/
def Holds (line before x rest : List Char) : Prop :=
  ∃ pre left right post, before = pre ++ left ∧ rest = right ++ post ∧
    line = left ++ x ++ right ∧ IsLine pre line post

/-! ### Division into lines -/

theorem linesOf_eq_nil_iff (cs : List Char) : linesOf cs = [] ↔ cs = [] := by
  fun_cases linesOf cs <;> simp_all

/-- A character that belongs to no line end goes to the first line. -/
theorem linesOf_cons {c : Char} {cs : List Char} (hc : c ≠ '\n')
    (hcs : c = '\r' → cs.head? ≠ some '\n') : linesOf (c :: cs) =
      match linesOf cs with
      | [] => [[c]]
      | line :: lines => (c :: line) :: lines := by
  refine linesOf.eq_4 c cs ?_ hc
  rintro rest hreturn rfl
  exact hcs hreturn rfl

/-- A text that ends in a line feed is divided apart from what follows it. -/
theorem linesOf_append {pre : List Char} (h : ∀ c ∈ pre.getLast?, c = '\n') (rest : List Char) :
    linesOf (pre ++ rest) = linesOf pre ++ linesOf rest ∧
      (linesOf pre).length = pre.count '\n' := by
  fun_induction linesOf pre with
  | case1 => exact ⟨rfl, rfl⟩
  | case2 pre ih =>
    obtain ⟨hlines, hcount⟩ := ih (by cases pre <;> simp_all)
    exact ⟨by simp [linesOf, hlines], by simp [hcount]⟩
  | case3 pre ih =>
    obtain ⟨hlines, hcount⟩ := ih (by cases pre <;> simp_all)
    exact ⟨by simp [linesOf, hlines], by simp [hcount]⟩
  | case4 c pre _ hc hnil ih =>
    -- the text is a single character, and no line feed
    obtain rfl := (linesOf_eq_nil_iff pre).1 hnil
    exact absurd (h c rfl) hc
  | case5 c pre hreturn hc line lines hpre ih =>
    have hne : pre ≠ [] := fun hnil ↦ by simp [hnil, linesOf] at hpre
    obtain ⟨d, pre, rfl⟩ := List.exists_cons_of_ne_nil hne
    obtain ⟨hlines, hcount⟩ := ih (by simpa using h)
    have hhead : c = '\r' → (d :: pre ++ rest).head? ≠ some '\n' := by
      rintro hr hd
      exact hreturn pre hr (by simpa using hd)
    rw [hpre] at hlines hcount
    refine ⟨?_, ?_⟩
    · rw [List.cons_append, linesOf_cons hc hhead, hlines]
      rfl
    · rw [List.count_cons_of_ne hc]
      exact hcount

/-- A line is divided off whole. -/
theorem linesOf_line {pre line post : List Char} (h : IsLine pre line post) (hline : line ≠ []) :
    ∃ lines, linesOf (line ++ post) = line :: lines := by
  obtain ⟨-, hunbroken, hends⟩ := h
  induction line with
  | nil => exact absurd rfl hline
  | cons c line ih =>
    rw [List.mem_cons, not_or] at hunbroken
    have hhead : c = '\r' → (line ++ post).head? ≠ some '\n' := by
      rintro rfl
      rcases line with - | ⟨d, line⟩
      · rcases hends with rfl | ⟨more, rfl⟩ | ⟨-, hreturn⟩
        · simp
        · simp
        · exact absurd rfl hreturn
      · simpa using fun hd ↦ hunbroken.2 (by simp [hd])
    rw [List.cons_append, linesOf_cons (Ne.symm hunbroken.1) hhead]
    rcases line with - | ⟨d, line⟩
    · rcases hends with rfl | ⟨more, rfl⟩ | ⟨⟨more, rfl⟩, -⟩
      · exact ⟨[], rfl⟩
      · exact ⟨linesOf more, by simp [linesOf]⟩
      · exact ⟨linesOf more, by simp [linesOf]⟩
    · obtain ⟨lines, hlines⟩ := ih (List.cons_ne_nil _ _) hunbroken.2 (by simpa using hends)
      exact ⟨lines, by rw [hlines]⟩

/-- The number of a line is one more than the number of line feeds before it. -/
theorem line?_of_isLine {pre line post : List Char} (h : IsLine pre line post) (hline : line ≠ []) :
    line? (String.ofList (pre ++ line ++ post)) (1 + pre.count '\n') =
      some (String.ofList line) := by
  obtain ⟨lines, hlines⟩ := linesOf_line h hline
  obtain ⟨happend, hcount⟩ := linesOf_append h.starts (line ++ post)
  rw [line?, if_neg (by omega), Nat.add_sub_cancel_left, String.toList_ofList, List.append_assoc,
    happend, ← hcount, List.getElem?_append_right (Nat.le_refl _), Nat.sub_self, hlines]
  rfl

/-! ### Lines around a piece of text -/

/-- What follows the last line feed of a text. -/
theorem exists_lineStart (before : List Char) : ∃ pre left, before = pre ++ left ∧
    (∀ c ∈ pre.getLast?, c = '\n') ∧ '\n' ∉ left := by
  induction before using List.reverseRecOn with
  | nil => exact ⟨[], [], rfl, by simp, by simp⟩
  | append_singleton before c ih =>
    by_cases hc : c = '\n'
    · exact ⟨before ++ [c], [], by simp, by simp [hc], by simp⟩
    · obtain ⟨pre, left, rfl, hpre, hleft⟩ := ih
      exact ⟨pre, left ++ [c], by simp, hpre, by simp [hleft, Ne.symm hc]⟩

/-- What precedes the first line end of `rest`, in a line that starts with `left`. -/
theorem exists_lineEnd (left rest : List Char)
    (h : left.getLast? = some '\r' → rest.head? ≠ some '\n') :
    ∃ right post, rest = right ++ post ∧ '\n' ∉ right ∧
      (post = [] ∨ (∃ more, post = '\r' :: '\n' :: more) ∨
        (∃ more, post = '\n' :: more) ∧ (left ++ right).getLast? ≠ some '\r') := by
  induction rest generalizing left with
  | nil => exact ⟨[], [], rfl, by simp, .inl rfl⟩
  | cons c rest ih =>
    by_cases hc : c = '\n'
    · subst hc
      refine ⟨[], _, rfl, by simp, .inr (.inr ⟨⟨rest, rfl⟩, fun hleft ↦ h ?_ rfl⟩)⟩
      rwa [List.append_nil] at hleft
    by_cases hreturn : c = '\r' ∧ rest.head? = some '\n'
    · obtain ⟨rfl, hhead⟩ := hreturn
      obtain ⟨more, rfl⟩ := List.head?_eq_some_iff.1 hhead
      exact ⟨[], _, rfl, by simp, .inr (.inl ⟨more, rfl⟩)⟩
    · have hnext : (left ++ [c]).getLast? = some '\r' → rest.head? ≠ some '\n' := by
        rw [List.getLast?_concat]
        rintro ⟨rfl⟩ hhead
        exact hreturn ⟨rfl, hhead⟩
      obtain ⟨right, post, rfl, hright, hends⟩ := ih (left ++ [c]) hnext
      rw [List.append_assoc, List.singleton_append] at hends
      exact ⟨c :: right, post, rfl, by simp [hright, Ne.symm hc], hends⟩

/-- **One line.** A piece of text that has no line end in it stands in one line. -/
theorem exists_holds (before rest : List Char) {x : List Char} (hx : x ≠ []) (hfeed : '\n' ∉ x)
    (hreturn : '\r' ∉ x) : ∃ line, Holds line before x rest ∧
      line? (String.ofList (before ++ x ++ rest)) (1 + before.count '\n') =
        some (String.ofList line) := by
  obtain ⟨pre, left, rfl, hpre, hleft⟩ := exists_lineStart before
  have hlast : (left ++ x).getLast? = some '\r' → rest.head? ≠ some '\n' := by
    intro hlast
    rw [List.getLast?_append, List.getLast?_eq_some_getLast hx, Option.some_or] at hlast
    exact absurd (Option.some.inj hlast ▸ List.getLast_mem hx) hreturn
  obtain ⟨right, post, rfl, hright, hends⟩ := exists_lineEnd (left ++ x) rest hlast
  have hline : IsLine pre (left ++ x ++ right) post :=
    ⟨hpre, by simp [hleft, hfeed, hright], hends⟩
  refine ⟨left ++ x ++ right, ⟨pre, left, right, post, rfl, rfl, rfl, hline⟩, ?_⟩
  have hcount : (pre ++ left).count '\n' = pre.count '\n' := by
    rw [List.count_append, List.count_eq_zero_of_not_mem hleft, Nat.add_zero]
  rw [hcount, ← line?_of_isLine hline (by simp [hx])]
  simp only [List.append_assoc]

end KannadaScript.Text
