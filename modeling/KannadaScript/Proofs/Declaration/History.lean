import KannadaScript.Proofs.Declaration.Stacks
import KannadaScript.Proofs.Text.Encoding

/-!
# A table and the history of its declarations

Every table comes about by declarations, one after the other, and answers as one would who has kept
all of them in a list. What a table keeps instead are stacks with their names in the order of their
bytes. Each stack is in use and holds nothing but declarations of its own name (`Table.Tidy`); a
declaration leaves this so (`Table.tidy_push`) and comes to the top of the one stack of its name
(`Table.stackIn_push_of_tidy`). By induction over the history the stack of a name is then that part
of the history that is about the name, newest first (`Table.stack_ofHistory`).

The order of the names is a convenience of the table, and another table might keep them in another
one, or in none. Whoever goes through the stacks in any order still finds the whole history, name by
name newest first (`Table.Tidy.filter_of_perm`). So what is said about going through a table
(`NameStack.iterate`) is said for every permutation of its stacks.

The number of declarations is counted as they are made, and is not a matter of looking at the
stacks. The table carries the proof that it is theirs (`Table.size_eq`), and since the stacks have
the declarations of the history (`Table.declarations_ofHistory`), it is the length of the history.

Main statement: `table_recalls_history`.
-/

namespace KannadaScript

/-- A text is told by its bytes. -/
theorem Text.bytes_injective : Function.Injective bytes :=
  fun _ _ h ↦ String.toList_inj.1 (encode_injective h)

namespace Table

/-! ### Stacks in order -/

/-- Stacks as a table keeps them. -/
structure Tidy (entries : List NameStack) : Prop where
  ascending : entries.Pairwise fun s s' ↦ Text.bytes s.name < Text.bytes s'.name
  /-- No stack is empty. -/
  used : ∀ s ∈ entries, s.declarations ≠ []
  own : ∀ s ∈ entries, ∀ d ∈ s.declarations, d.name = s.name

variable {d : Declaration} {s : NameStack} {entries rest : List NameStack} {x : String}

theorem tidy_nil : Tidy [] :=
  ⟨.nil, List.forall_mem_nil _, List.forall_mem_nil _⟩

/-- Stacks are tidy if the first is, and comes before the others, which are. -/
theorem tidy_cons_iff : Tidy (s :: rest) ↔
    (∀ s' ∈ rest, Text.bytes s.name < Text.bytes s'.name) ∧ s.declarations ≠ [] ∧
      (∀ d ∈ s.declarations, d.name = s.name) ∧ Tidy rest := by
  constructor
  · rintro ⟨hascending, hused, hown⟩
    rw [List.pairwise_cons] at hascending
    rw [List.forall_mem_cons] at hused hown
    exact ⟨hascending.1, hused.1, hown.1, hascending.2, hused.2, hown.2⟩
  · rintro ⟨hlt, hne, hname, hascending, hused, hown⟩
    exact ⟨List.pairwise_cons.2 ⟨hlt, hascending⟩, List.forall_mem_cons.2 ⟨hne, hused⟩,
      List.forall_mem_cons.2 ⟨hname, hown⟩⟩

/-- What comes before the first name comes before all. -/
theorem Tidy.forall_lt (h : Tidy (s :: rest)) (hx : Text.bytes x < Text.bytes s.name) :
    ∀ s' ∈ s :: rest, Text.bytes x < Text.bytes s'.name :=
  List.forall_mem_cons.2 ⟨hx, fun s' hs' ↦ List.lt_trans hx ((tidy_cons_iff.1 h).1 s' hs')⟩

/-- No name has two stacks. -/
theorem Tidy.names_nodup (h : Tidy entries) : (entries.map NameStack.name).Nodup := by
  refine List.pairwise_map.2 (h.ascending.imp fun hlt heq ↦ ?_)
  rw [heq] at hlt
  exact List.lt_irrefl _ hlt

/-! ### One more declaration -/

/-- Of two names one comes first. -/
theorem lt_of_not_precedes {x y : String} (hne : x ≠ y) (h : ¬ precedes x y = true) :
    Text.bytes y < Text.bytes x := by
  rw [precedes, decide_eq_true_iff] at h
  rcases Std.lt_trichotomy (Text.bytes x) (Text.bytes y) with hlt | heq | hgt
  · exact absurd hlt h
  · exact absurd (Text.bytes_injective heq) hne
  · exact hgt

/-- A declaration brings no stack but that of its name. -/
theorem name_of_mem_push (h : s ∈ push d entries) : s.name = d.name ∨ s ∈ entries := by
  induction entries with
  | nil => exact .inl (congrArg NameStack.name (List.mem_singleton.1 h))
  | cons s' rest ih =>
    rw [push] at h
    split_ifs at h with hname
    · rcases List.mem_cons.1 h with rfl | h
      · exact .inl hname
      · exact .inr (List.mem_cons_of_mem _ h)
    · rcases List.mem_cons.1 h with rfl | h
      · exact .inl rfl
      · exact .inr h
    · rcases List.mem_cons.1 h with rfl | h
      · exact .inr List.mem_cons_self
      · exact (ih h).imp_right (List.mem_cons_of_mem _)

/-- **Step.** A declaration leaves the stacks of a table tidy. -/
theorem tidy_push (h : Tidy entries) (d : Declaration) : Tidy (push d entries) := by
  have hnew : ∀ e ∈ [d], e.name = d.name := List.forall_mem_singleton.2 rfl
  induction entries with
  | nil => exact tidy_cons_iff.2 ⟨List.forall_mem_nil _, List.cons_ne_nil _ _, hnew, tidy_nil⟩
  | cons s rest ih =>
    obtain ⟨hlt, hused, hown, hrest⟩ := tidy_cons_iff.1 h
    rw [push]
    split_ifs with hname hprecedes
    · exact tidy_cons_iff.2 ⟨hlt, List.cons_ne_nil _ _,
        List.forall_mem_cons.2 ⟨hname.symm, hown⟩, hrest⟩
    · have hfirst : Text.bytes d.name < Text.bytes s.name := of_decide_eq_true hprecedes
      exact tidy_cons_iff.2 ⟨h.forall_lt hfirst, List.cons_ne_nil _ _, hnew, h⟩
    · refine tidy_cons_iff.2 ⟨fun s' hs' ↦ ?_, hused, hown, ih hrest⟩
      rcases name_of_mem_push hs' with heq | hmem
      · rw [heq]
        exact lt_of_not_precedes (Ne.symm hname) hprecedes
      · exact hlt s' hmem

/-- A name without a stack has no declarations. -/
theorem stackIn_of_missing (h : ∀ s ∈ entries, s.name ≠ x) : stackIn x entries = [] := by
  induction entries with
  | nil => rfl
  | cons s rest ih =>
    rw [List.forall_mem_cons] at h
    rw [stackIn_cons, if_neg h.1, ih h.2]

/-- A name that comes before all others has no stack yet. -/
theorem stackIn_of_lt (h : ∀ s ∈ entries, Text.bytes x < Text.bytes s.name) :
    stackIn x entries = [] := by
  refine stackIn_of_missing fun s hs heq ↦ List.lt_irrefl (Text.bytes x) ?_
  rw [← heq]
  exact heq ▸ h s hs

/-- In a tidy table the new declaration lies on top of all others of its name. -/
theorem stackIn_push_of_tidy (h : Tidy entries) (d : Declaration) :
    stackIn d.name (push d entries) = d :: stackIn d.name entries := by
  induction entries with
  | nil => rw [push, stackIn_cons, if_pos rfl]; rfl
  | cons s rest ih =>
    obtain ⟨-, -, -, hrest⟩ := tidy_cons_iff.1 h
    rw [push]
    split_ifs with hname hprecedes
    · rw [stackIn_cons, stackIn_cons, if_pos hname, if_pos hname]
    · have hfirst : Text.bytes d.name < Text.bytes s.name := of_decide_eq_true hprecedes
      rw [stackIn_cons, if_pos rfl, stackIn_of_lt (h.forall_lt hfirst)]
    · rw [stackIn_cons, stackIn_cons, if_neg hname, if_neg hname, ih hrest]

/-! ### Histories -/

/-- The table after declarations that are made one by one in a new table. -/
def ofHistory (buckets : Nat) (history : List Declaration) : Table :=
  history.foldl insert (empty buckets)

variable (buckets : Nat) (history : List Declaration)

theorem ofHistory_concat (d : Declaration) :
    ofHistory buckets (history ++ [d]) = (ofHistory buckets history).insert d :=
  List.foldl_concat ..

/-- The number of buckets never changes. -/
theorem bucketCount_ofHistory : (ofHistory buckets history).bucketCount = max buckets 1 := by
  induction history using List.reverseRecOn with
  | nil => rfl
  | append_singleton history d ih =>
    rw [ofHistory_concat]
    exact ih

/-- **Run.** The stacks of every table are tidy. -/
theorem tidy_ofHistory : Tidy (ofHistory buckets history).entries := by
  induction history using List.reverseRecOn with
  | nil => exact tidy_nil
  | append_singleton history d ih =>
    rw [ofHistory_concat]
    exact tidy_push ih d

/-- **Run.** The stack of a name is what the history has of it, newest first. -/
theorem stack_ofHistory (x : String) :
    (ofHistory buckets history).stack x = (history.filter (·.name == x)).reverse := by
  induction history using List.reverseRecOn with
  | nil => rfl
  | append_singleton history d ih =>
    rw [ofHistory_concat, List.filter_append, List.reverse_append, ← ih]
    by_cases h : d.name = x
    · subst h
      rw [List.filter_cons_of_pos (by simp)]
      exact stackIn_push_of_tidy (tidy_ofHistory buckets history) d
    · rw [stack_insert_of_ne (Ne.symm h), List.filter_cons_of_neg (by simpa using h)]
      rfl

/-- **Run.** A table has the declarations that were made, and no others. -/
theorem declarations_ofHistory : (ofHistory buckets history).declarations.Perm history := by
  induction history using List.reverseRecOn with
  | nil => exact .nil
  | append_singleton history d ih =>
    rw [ofHistory_concat]
    exact (declarations_insert _ d).trans
      ((ih.cons d).trans (List.perm_append_singleton d history).symm)

/-! ### Stacks in any order -/

variable {order : List NameStack}

/-- To keep the declarations of some names is to keep the stacks of these names. -/
theorem filter_declarations (hown : ∀ s ∈ order, ∀ d ∈ s.declarations, d.name = s.name)
    (p : String → Bool) :
    (NameStack.iterate order).filter (fun d ↦ p d.name) =
      NameStack.iterate (order.filter fun s ↦ p s.name) := by
  induction order with
  | nil => rfl
  | cons s rest ih =>
    rw [List.forall_mem_cons] at hown
    rw [NameStack.iterate_cons, List.filter_append, ih hown.2]
    rcases hp : p s.name with - | -
    · have hnone : s.declarations.filter (fun d ↦ p d.name) = [] :=
        List.filter_eq_nil_iff.2 fun d hd ↦ by rw [hown.1 d hd, hp]; exact Bool.false_ne_true
      rw [hnone, List.filter_cons_of_neg (by simp [hp]), List.nil_append]
    · have hall : s.declarations.filter (fun d ↦ p d.name) = s.declarations :=
        List.filter_eq_self.2 fun d hd ↦ by rw [hown.1 d hd, hp]
      rw [hall, List.filter_cons_of_pos (by simp [hp]), NameStack.iterate_cons]

/-- There is one stack for a name at most. -/
theorem Tidy.filter_name (h : Tidy entries) (x : String) :
    entries.filter (·.name == x) = (entries.find? (·.name == x)).toList := by
  induction entries with
  | nil => rfl
  | cons s rest ih =>
    obtain ⟨hlt, -, -, hrest⟩ := tidy_cons_iff.1 h
    by_cases hs : s.name = x
    · have hnone : rest.filter (·.name == x) = [] := by
        refine List.filter_eq_nil_iff.2 fun s' hs' heq ↦ List.lt_irrefl (Text.bytes x) ?_
        have hafter := hlt s' hs'
        rwa [hs, beq_iff_eq.1 heq] at hafter
      rw [List.filter_cons_of_pos (by simpa using hs), List.find?_cons_of_pos (by simpa using hs),
        hnone]
      rfl
    · rw [List.filter_cons_of_neg (by simpa using hs), List.find?_cons_of_neg (by simpa using hs),
        ih hrest]

/-- In whatever order the stacks come, the declarations of a name come newest first. -/
theorem Tidy.filter_of_perm (h : Tidy entries) (hperm : order.Perm entries) (x : String) :
    (NameStack.iterate order).filter (·.name == x) = stackIn x entries := by
  have hown : ∀ s ∈ order, ∀ d ∈ s.declarations, d.name = s.name :=
    fun s hs ↦ h.own s (hperm.mem_iff.1 hs)
  have hfilter : order.filter (·.name == x) = (entries.find? (·.name == x)).toList := by
    have hsame := hperm.filter (·.name == x)
    rw [h.filter_name] at hsame
    generalize entries.find? (·.name == x) = found at hsame ⊢
    rcases found with - | s
    · exact hsame.eq_nil
    · exact hsame.eq_singleton
  rw [filter_declarations hown (· == x), hfilter, stackIn]
  generalize entries.find? (·.name == x) = found
  rcases found with - | s
  · rfl
  · exact List.append_nil _

end Table

/-- **The table recalls its history.** Let declarations be made one by one in a new table. A name is
found with the newest of its declarations, and not at all if it has none; the size is the number of
declarations. Through whatever order of the names one goes, the stacks give all declarations that
were made and no others, and those of each name newest first. -/
theorem table_recalls_history (buckets : Nat) (history : List Declaration) :
    let t := Table.ofHistory buckets history
    (∀ x, t.lookup? x = (history.filter (·.name == x)).getLast? ∧
      (t.contains x = true ↔ ∃ d, t.lookup? x = some d)) ∧
    t.size = history.length ∧ (t.isEmpty = true ↔ t.size = 0) ∧
    (t.entries.map NameStack.name).Nodup ∧
    ∀ order : List NameStack, order.Perm t.entries →
      (NameStack.iterate order).Perm history ∧
      ∀ x, (NameStack.iterate order).filter (·.name == x) =
        (history.filter (·.name == x)).reverse := by
  intro t
  have htidy := Table.tidy_ofHistory buckets history
  have hperm := Table.declarations_ofHistory buckets history
  refine ⟨fun x ↦ ⟨?_, ?_⟩, t.size_eq.trans hperm.length_eq, ?_, htidy.names_nodup,
    fun order horder ↦ ⟨(horder.flatMap_right _).trans hperm, fun x ↦ ?_⟩⟩
  · rw [Table.lookup?_eq_head?_stack, Table.stack_ofHistory, List.head?_reverse]
  · rw [Table.contains, Option.isSome_iff_exists]
  · rw [Table.isEmpty, beq_iff_eq]
  · rw [htidy.filter_of_perm horder]
    exact Table.stack_ofHistory buckets history x

/-- Two names in turn, one of them declared again, and the stacks gone through backwards. -/
theorem table_recalls_history_backwards :
    let a : Declaration := ⟨"ಕ", .var, 1⟩
    let b : Declaration := ⟨"ಖ", .var, 2⟩
    let c : Declaration := ⟨"ಕ", .func, 5⟩
    let order : List NameStack := [⟨"ಖ", [b]⟩, ⟨"ಕ", [c, a]⟩]
    order.Perm (Table.ofHistory 16 [a, b, c]).entries ∧
    (NameStack.iterate order).Perm [a, b, c] ∧
    ∀ x, (NameStack.iterate order).filter (·.name == x) =
      ([a, b, c].filter (·.name == x)).reverse := by
  intro a b c order
  have horder : order.Perm (Table.ofHistory 16 [a, b, c]).entries := by decide +kernel
  exact ⟨horder, (table_recalls_history 16 [a, b, c]).2.2.2.2 order horder⟩

end KannadaScript
