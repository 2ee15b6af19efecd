import KannadaScript.Code.Quoted
import Mathlib.Tactic.SplitIfs

/-!
# Reading literals back

What the characters between two quotes mean is a matter of a few rules: a backslash and the letter
behind it stand for one character, a quote that is not behind a backslash ends the literal, and
every other character stands for itself (`Denotes`). `readLiteral` follows the rules from left to
right and finds a literal exactly where the rules see one (`readLiteral_eq_some_iff`). So there is
one way only to divide characters into a literal and a rest, and the rest has no part in it
(`readLiteral_append`).

An escaped text denotes the text. Each character is written as something that denotes it, whatever
comes behind (`denotes_escapeChar`), and this needs no look at its neighbours: a run of backslashes
and quotes is read pair by pair, up to the closing quote.

Main statement: `escaped_text_reads_back`.
-/

namespace KannadaScript.Code

/-! ### The rules of a literal -/

/-- The character that a letter stands for behind a backslash. -/
def unescape? : Char → Option Char
  | '\\' => some '\\'
  | '"' => some '"'
  | 'n' => some '\n'
  | 't' => some '\t'
  | 'r' => some '\r'
  | _ => none

/-- The characters `body`, between two quotes, stand for the text. -/
inductive Denotes : (body text : List Char) → Prop
  | nil : Denotes [] []
  | plain {c : Char} {body text : List Char} (hquote : c ≠ '"') (hbackslash : c ≠ '\\') :
      Denotes body text → Denotes (c :: body) (c :: text)
  | escaped {letter c : Char} {body text : List Char} (hletter : unescape? letter = some c) :
      Denotes body text → Denotes ('\\' :: letter :: body) (c :: text)

/-- Read a literal from behind its opening quote: its text, and what follows its closing quote. -/
def readLiteral : List Char → Option (List Char × List Char)
  | [] => none
  | '"' :: rest => some ([], rest)
  | ['\\'] => none
  | '\\' :: letter :: cs => do
    let c ← unescape? letter
    let (text, rest) ← readLiteral cs
    return (c :: text, rest)
  | c :: cs => do
    let (text, rest) ← readLiteral cs
    return (c :: text, rest)

variable {cs body text rest : List Char}

/-- Characters that denote a text are read as it, up to the quote behind them. -/
theorem Denotes.readLiteral_quote (h : Denotes body text) (rest : List Char) :
    readLiteral (body ++ '"' :: rest) = some (text, rest) := by
  induction h with
  | nil => rfl
  | plain hquote hbackslash _ ih =>
    rw [List.cons_append, readLiteral.eq_5 _ _ hquote (fun h _ ↦ hbackslash h)
      (fun _ _ h _ ↦ hbackslash h), ih]
    rfl
  | escaped hletter _ ih =>
    rw [List.cons_append, List.cons_append, readLiteral, hletter, ih]
    rfl

/-- What is read as a literal denotes what is read. -/
theorem exists_denotes_of_readLiteral (h : readLiteral cs = some (text, rest)) :
    ∃ body, cs = body ++ '"' :: rest ∧ Denotes body text := by
  fun_induction readLiteral cs generalizing text with
  | case1 => cases h
  | case2 cs =>
    cases h
    exact ⟨[], rfl, .nil⟩
  | case3 => cases h
  | case4 letter cs ih =>
    simp only [Option.bind_eq_bind, Option.bind_eq_some_iff, Prod.exists] at h
    obtain ⟨c, hletter, text, rest, hread, heq⟩ := h
    cases heq
    obtain ⟨body, rfl, hbody⟩ := ih hread
    exact ⟨'\\' :: letter :: body, rfl, .escaped hletter hbody⟩
  | case5 c cs hquote hlast hpair ih =>
    have hbackslash : c ≠ '\\' := by
      rintro rfl
      rcases cs with - | ⟨letter, cs⟩
      · exact hlast rfl rfl
      · exact hpair letter cs rfl rfl
    simp only [Option.bind_eq_bind, Option.bind_eq_some_iff, Prod.exists] at h
    obtain ⟨text, rest, hread, heq⟩ := h
    cases heq
    obtain ⟨body, rfl, hbody⟩ := ih hread
    exact ⟨c :: body, rfl, .plain hquote hbackslash hbody⟩

/-- **Reading follows the rules.** A literal is read exactly if one starts the characters. -/
theorem readLiteral_eq_some_iff : readLiteral cs = some (text, rest) ↔
    ∃ body, cs = body ++ '"' :: rest ∧ Denotes body text := by
  refine ⟨exists_denotes_of_readLiteral, ?_⟩
  rintro ⟨body, rfl, hbody⟩
  exact hbody.readLiteral_quote rest

/-- More characters at the end do not change what is read. -/
theorem readLiteral_append (h : readLiteral cs = some (text, rest)) (more : List Char) :
    readLiteral (cs ++ more) = some (text, rest ++ more) := by
  obtain ⟨body, rfl, hbody⟩ := readLiteral_eq_some_iff.1 h
  rw [List.append_assoc, List.cons_append]
  exact hbody.readLiteral_quote _

/-- What can be read as a literal up to its closing quote cannot be read with any less. -/
theorem Denotes.readLiteral_eq_none (h : Denotes body text) {part : List Char}
    (hpart : part <+: body) : readLiteral part = none := by
  obtain ⟨left, rfl⟩ := hpart
  refine Option.eq_none_iff_forall_ne_some.2 fun ⟨text', rest⟩ hread ↦ ?_
  -- the closing quote would be left over
  have hwhole := readLiteral_append hread (left ++ ['"'])
  rw [← List.append_assoc, h.readLiteral_quote []] at hwhole
  have hrest : rest ++ (left ++ ['"']) = [] := (congrArg Prod.snd (Option.some.inj hwhole)).symm
  simp at hrest

/-! ### Escaped texts -/

/-- **Step.** A character is written as what denotes it, whatever comes behind. -/
theorem denotes_escapeChar (c : Char) (h : Denotes body text) :
    Denotes (escapeChar c ++ body) (c :: text) := by
  rw [escapeChar]
  split_ifs with hbackslash hquote hfeed htab hreturn
  case neg => exact .plain hquote hbackslash h
  all_goals
    subst c
    exact .escaped rfl h

/-- **Run.** An escaped text denotes the text. -/
theorem denotes_escape (s : String) : Denotes (escape s).toList s.toList := by
  rw [escape, String.toList_ofList]
  induction s.toList with
  | nil => exact .nil
  | cons c cs ih => exact denotes_escapeChar c ih

/-- The three control characters of an escaped text are written as letters. -/
theorem ne_of_mem_escape {s : String} {c : Char} (h : c ∈ (escape s).toList) :
    c ≠ '\n' ∧ c ≠ '\r' ∧ c ≠ '\t' := by
  rw [escape, String.toList_ofList, List.mem_flatMap] at h
  obtain ⟨d, -, hc⟩ := h
  rw [escapeChar] at hc
  split_ifs at hc with hbackslash hquote hfeed htab hreturn
  case neg =>
    rw [List.mem_singleton] at hc
    exact hc ▸ ⟨hfeed, hreturn, htab⟩
  all_goals
    simp only [List.mem_cons, List.not_mem_nil, or_false] at hc
    rcases hc with rfl | rfl <;> decide

end KannadaScript.Code

namespace KannadaScript

open Code

/-- **Texts survive escaping.** Whatever comes behind it, an escaped text and a quote are read as
the text, up to this quote; without the quote no part of it is read as a literal. It holds none of
the three control characters, and different texts are escaped in different ways. -/
theorem escaped_text_reads_back :
    (∀ (s : String) (rest : List Char),
      readLiteral ((escape s).toList ++ '"' :: rest) = some (s.toList, rest)) ∧
    (∀ (s : String) (part : List Char), part <+: (escape s).toList → readLiteral part = none) ∧
    (∀ (s : String), ∀ c ∈ (escape s).toList, c ≠ '\n' ∧ c ≠ '\r' ∧ c ≠ '\t') ∧
    Function.Injective escape := by
  refine ⟨fun s rest ↦ (denotes_escape s).readLiteral_quote rest,
    fun s part hpart ↦ (denotes_escape s).readLiteral_eq_none hpart,
    fun s c hc ↦ ne_of_mem_escape hc, fun s s' heq ↦ ?_⟩
  have hread := (denotes_escape s).readLiteral_quote []
  rw [heq, (denotes_escape s').readLiteral_quote []] at hread
  exact String.toList_inj.1 (congrArg Prod.fst (Option.some.inj hread)).symm

/-- A text of quotes and backslashes, with a backslash last, before a rest that starts with one. -/
theorem escaped_text_reads_back_backslash :
    let s := "\\\"\n\\"
    readLiteral ((escape s).toList ++ '"' :: ['\\', '"']) = some (s.toList, ['\\', '"']) ∧
    (['\\', '\\', '\\', '"'] <+: (escape s).toList ∧
      readLiteral ['\\', '\\', '\\', '"'] = none) ∧
    ('n' ∈ (escape s).toList ∧ 'n' ≠ '\n' ∧ 'n' ≠ '\r' ∧ 'n' ≠ '\t') ∧
    escape s ≠ escape "\\\"\n" := by
  intro s
  obtain ⟨hread, hpart, hcontrol, hinjective⟩ := escaped_text_reads_back
  have hstart : ['\\', '\\', '\\', '"'] <+: (escape s).toList := by decide
  have hfeed : 'n' ∈ (escape s).toList := by decide
  exact ⟨hread s _, ⟨hstart, hpart s _ hstart⟩, ⟨hfeed, hcontrol s _ hfeed⟩,
    hinjective.ne (by decide)⟩

end KannadaScript
