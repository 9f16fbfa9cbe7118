import Mathlib.Data.List.TakeWhile
import Linefold.Scanner

/-!
# A line is cut into tokens and comments

`Cut g line col cs ls`: the characters `cs`, which stand on a line from column `col` on, are cut into `ls`. A
piece is what `Scanner.lexeme` takes from its first character on, and before it there are only blanks. The calls
of the scanner on a line come to an end and cut it in this way (`Scanner.scans_scanAll`, `Scanner.cut_scanAll`),
so the pieces tile the line (`Scanner.tiling_scanAll`).
-/

namespace Linefold

/-! ### Pieces -/

namespace Lexed

def span : Lexed → Span
  | token t => t.span
  | comment span => span

/-- The piece of a kind, or the comment, that stands at a place. -/
def ofKind (kind : Scanner.LexemeKind) (text : List Char) (span : Span) : Lexed :=
  match kind with
  | some k => token ⟨k, String.ofList text, span⟩
  | none => comment span

@[simp] theorem span_ofKind {kind : Scanner.LexemeKind} {text : List Char} {span : Span} :
    (ofKind kind text span).span = span := by
  cases kind <;> rfl

theorem lexeme_of_ofKind {kind : Scanner.LexemeKind} {text : List Char} {span : Span} {t : Token}
    (h : ofKind kind text span = token t) : t.lexeme = String.ofList text := by
  cases kind with
  | none => cases h
  | some k =>
    cases h
    rfl

end Lexed

namespace Scanner

/-- The calls of the scanner give `ls` and then nothing more. -/
inductive Scans (g : Scope) : Scanner → List Lexed → Scanner → Prop where
  | done {s t} : s.scan g = (none, t) → Scans g s [] t
  | more {s l t ls u} : s.scan g = (some l, t) → Scans g t ls u → Scans g s (l :: ls) u

inductive Cut (g : Scope) (line : Nat) : Nat → List Char → List Lexed → Prop where
  | blanks {col gap} : (∀ x ∈ gap, isBlank x) → Cut g line col gap []
  | piece {col gap c cs ls kind n} : (∀ x ∈ gap, isBlank x) → isBlank c = false → lexeme g c cs = (kind, n) →
      Cut g line (col + gap.length + (n + 1)) (cs.drop n) ls →
      Cut g line col (gap ++ c :: cs)
        (.ofKind kind (c :: cs.take n) ⟨line, col + gap.length, col + gap.length + (n + 1)⟩ :: ls)

variable {g : Scope} {s t u : Scanner} {c mark : Char} {gap cs : List Char} {ls : List Lexed} {line col n : Nat}

theorem lengthThrough?_le (h : lengthThrough? mark cs = some n) : n ≤ cs.length := by
  obtain ⟨i, hi, rfl⟩ := Option.map_eq_some_iff.1 h
  obtain ⟨hlt, -⟩ := List.findIdx?_eq_some_iff_getElem.1 hi
  exact hlt

/-- A lexeme does not reach beyond the line. -/
theorem lexeme_le_length (g : Scope) (c : Char) (cs : List Char) : (lexeme g c cs).2 ≤ cs.length := by
  have htake (p : Char → Bool) : (cs.takeWhile p).length ≤ cs.length := (List.takeWhile_prefix p).length_le
  unfold lexeme
  split
  · exact Nat.zero_le _
  split
  · split
    · next h => exact lengthThrough?_le h
    · exact Nat.le_refl _
  split
  · exact Nat.le_refl _
  split
  · cases h : lengthThrough? c cs with
    | some n => exact lengthThrough?_le h
    | none => exact Nat.le_refl _
  split
  · exact Nat.zero_le _
  split
  · exact htake _
  split
  · exact htake _
  · exact Nat.zero_le _

theorem length_le_of_lexeme {kind : LexemeKind} (h : lexeme g c cs = (kind, n)) : n ≤ cs.length := by
  have hle := lexeme_le_length g c cs
  rwa [h] at hle

/-! ### One call -/

theorem dropWhile_blanks (hgap : ∀ x ∈ gap, isBlank x) (hc : isBlank c = false) :
    (gap ++ c :: cs).takeWhile isBlank = gap ∧ (gap ++ c :: cs).dropWhile isBlank = c :: cs := by
  rw [List.takeWhile_append_of_pos hgap, List.dropWhile_append_of_pos hgap]
  simp [hc]

theorem skipBlanks_eq : s.skipBlanks = ⟨s.line, s.position + (s.rest.takeWhile isBlank).length,
    (s.rest.takeWhile isBlank).reverse ++ s.past, s.rest.dropWhile isBlank⟩ := by
  have htake : s.rest.take (s.rest.takeWhile isBlank).length = s.rest.takeWhile isBlank :=
    (List.prefix_iff_eq_take.1 (List.takeWhile_prefix _)).symm
  have hdrop : s.rest.drop (s.rest.takeWhile isBlank).length = s.rest.dropWhile isBlank := by
    have happend : s.rest.takeWhile isBlank ++ s.rest.dropWhile isBlank = s.rest := List.takeWhile_append_dropWhile
    calc s.rest.drop (s.rest.takeWhile isBlank).length
        = (s.rest.takeWhile isBlank ++ s.rest.dropWhile isBlank).drop (s.rest.takeWhile isBlank).length := by rw [happend]
      _ = s.rest.dropWhile isBlank := List.drop_left
  unfold skipBlanks eatWhile skip
  simp only [htake, hdrop, position, List.length_append, List.length_reverse]
  rw [Nat.add_comm]

theorem scan_of_blanks (h : ∀ x ∈ s.rest, isBlank x) : ∃ t, s.scan g = (none, t) ∧ t.rest = [] := by
  have hrest : s.skipBlanks.rest = [] := by
    rw [skipBlanks_eq]
    exact List.dropWhile_eq_nil_iff.2 h
  unfold scan
  simp only [hrest]
  exact ⟨_, rfl, hrest⟩

/-- The blanks go first and then all of a lexeme. -/
theorem scan_of_cons (hrest : s.rest = gap ++ c :: cs) (hgap : ∀ x ∈ gap, isBlank x) (hc : isBlank c = false) :
    ∃ t, s.scan g = (some (.ofKind (lexeme g c cs).1 (c :: cs.take (lexeme g c cs).2)
        ⟨s.line, s.position + gap.length, s.position + gap.length + ((lexeme g c cs).2 + 1)⟩), t) ∧
      t.line = s.line ∧ t.position = s.position + gap.length + ((lexeme g c cs).2 + 1) ∧
      t.rest = cs.drop (lexeme g c cs).2 := by
  have ⟨htake, hdrop⟩ : s.rest.takeWhile isBlank = gap ∧ s.rest.dropWhile isBlank = c :: cs :=
    hrest ▸ dropWhile_blanks hgap hc
  have hskip : s.skipBlanks = ⟨s.line, s.position + gap.length, gap.reverse ++ s.past, c :: cs⟩ := by
    rw [skipBlanks_eq, htake, hdrop]
  have hle : (lexeme g c cs).2 ≤ cs.length := lexeme_le_length g c cs
  unfold scan
  simp only [hskip]
  generalize lexeme g c cs = found at hle ⊢
  obtain ⟨kind, n⟩ := found
  have hstop : (skip ⟨s.line, s.position + gap.length, gap.reverse ++ s.past, c :: cs⟩ (n + 1)).position =
      s.position + gap.length + (n + 1) := by
    simp only [skip, position, List.length_append, List.length_reverse, List.length_take, List.length_cons] at hle ⊢
    omega
  refine ⟨skip ⟨s.line, s.position + gap.length, gap.reverse ++ s.past, c :: cs⟩ (n + 1), ?_, rfl, hstop, rfl⟩
  cases kind <;> simp only [Lexed.ofKind, span, hstop] <;> rfl

/-! ### All calls -/

theorem scanAll_of_none (h : s.scan g = (none, t)) : s.scanAll g = [] := by
  rw [scanAll]
  split
  · rfl
  · next h' => cases h.symm.trans h'

theorem scanAll_of_some {l : Lexed} (h : s.scan g = (some l, t)) : s.scanAll g = l :: t.scanAll g := by
  rw [scanAll]
  split
  · next h' => cases h.symm.trans h'
  · next h' =>
    cases h.symm.trans h'
    rfl

theorem Scans.eq_scanAll (h : Scans g s ls t) : ls = s.scanAll g := by
  induction h with
  | done h => exact (scanAll_of_none h).symm
  | more h _ ih => rw [scanAll_of_some h, ← ih]

/-- After finitely many calls nothing is left of the line. -/
theorem scans_scanAll (g : Scope) (s : Scanner) : ∃ t, Scans g s (s.scanAll g) t ∧ t.eol := by
  induction hn : s.rest.length using Nat.strongRecOn generalizing s with
  | ind n ih =>
    subst hn
    rcases hs : s.scan g with ⟨_ | l, t⟩
    · refine ⟨t, ?_, ?_⟩
      · rw [scanAll_of_none hs]
        exact .done hs
      · unfold scan at hs
        simp only at hs
        split at hs
        · next hnil =>
          cases hs
          simp [eol, hnil]
        · split at hs <;> cases hs
    · obtain ⟨u, hu, heol⟩ := ih _ (length_rest_scan_lt hs) t rfl
      rw [scanAll_of_some hs]
      exact ⟨u, .more hs hu, heol⟩

/-! ### Cuts -/

/-- A line is blank, or blanks stand before a first character that is none. -/
theorem blanks_or_cons (cs : List Char) : (∀ x ∈ cs, isBlank x) ∨
    ∃ gap c rest, cs = gap ++ c :: rest ∧ (∀ x ∈ gap, isBlank x) ∧ isBlank c = false := by
  cases h : cs.dropWhile isBlank with
  | nil => exact .inl (List.dropWhile_eq_nil_iff.1 h)
  | cons c rest =>
    refine .inr ⟨cs.takeWhile isBlank, c, rest, ?_, fun x hx => List.mem_takeWhile_imp hx, ?_⟩
    · rw [← h, List.takeWhile_append_dropWhile]
    · have hne : cs.dropWhile isBlank ≠ [] := by simp [h]
      have hhead := List.head_dropWhile_not isBlank hne
      simpa [h] using hhead

theorem cut_scanAll (g : Scope) (s : Scanner) : Cut g s.line s.position s.rest (s.scanAll g) := by
  induction hn : s.rest.length using Nat.strongRecOn generalizing s with
  | ind n ih =>
    subst hn
    rcases blanks_or_cons s.rest with hblanks | ⟨gap, c, cs, hrest, hgap, hc⟩
    · obtain ⟨t, ht, -⟩ := scan_of_blanks (g := g) hblanks
      rw [scanAll_of_none ht]
      exact .blanks hblanks
    · obtain ⟨t, ht, hline, hposition, htrest⟩ := scan_of_cons (g := g) hrest hgap hc
      have hcut := ih _ (length_rest_scan_lt ht) t rfl
      rw [hline, hposition, htrest] at hcut
      rw [scanAll_of_some ht, hrest]
      exact .piece hgap hc rfl hcut

/-- A line is cut in one way. -/
theorem Cut.eq_scanAll (h : Cut g s.line s.position s.rest ls) : s.scanAll g = ls := by
  generalize hline : s.line = line at h
  generalize hcol : s.position = col at h
  generalize hcs : s.rest = cs at h
  induction h generalizing s with
  | blanks hgap =>
    obtain ⟨t, ht, -⟩ := scan_of_blanks (g := g) (hcs ▸ hgap)
    exact scanAll_of_none ht
  | piece hgap hc hlexeme _ ih =>
    obtain ⟨t, ht, htline, hposition, htrest⟩ := scan_of_cons (g := g) hcs hgap hc
    rw [hlexeme] at ht hposition htrest
    rw [scanAll_of_some ht, ih (htline.trans hline) (hcol ▸ hposition) htrest, hline, hcol]

/-! ### Tilings -/

end Scanner

/-- The piece takes up a column. -/
def Lexed.Covers (l : Lexed) (i : Nat) : Prop := l.span.start ≤ i ∧ i < l.span.stop

/-- The pieces stand on a line one after the other, and between them there are only blanks. -/
structure Tiling (line : Nat) (cs : List Char) (ls : List Lexed) : Prop where
  inside : ∀ l ∈ ls, l.span.line = line ∧ l.span.start < l.span.stop ∧ l.span.stop ≤ cs.length
  ordered : ls.Pairwise fun l l' => l.span.stop ≤ l'.span.start
  lexemes : ∀ t, .token t ∈ ls → t.lexeme = String.ofList ((cs.take t.span.stop).drop t.span.start)
  /-- Every character is blank or belongs to exactly one piece. -/
  covered : ∀ i c, cs[i]? = some c → isBlank c = false → ∃! l, l ∈ ls ∧ l.Covers i

namespace Scanner

variable {g : Scope} {s : Scanner} {gap cs : List Char} {ls : List Lexed} {line col : Nat}

/-- Pieces that come later stand further on. -/
theorem Cut.inside (h : Cut g line col cs ls) :
    ∀ l ∈ ls, l.span.line = line ∧ col ≤ l.span.start ∧ l.span.start < l.span.stop ∧
      l.span.stop ≤ col + cs.length := by
  induction h with
  | blanks => simp
  | @piece col gap c cs ls kind n _ _ hlexeme _ ih =>
    have hle : n ≤ cs.length := length_le_of_lexeme hlexeme
    have hlength : (gap ++ c :: cs).length = gap.length + (cs.length + 1) := List.length_append
    rw [hlength]
    refine List.forall_mem_cons.2 ⟨?_, fun l hl => ?_⟩
    · rw [Lexed.span_ofKind]
      refine ⟨rfl, Nat.le_add_right col _, Nat.lt_add_of_pos_right (Nat.succ_pos n), ?_⟩
      show col + gap.length + (n + 1) ≤ col + (gap.length + (cs.length + 1))
      omega
    · obtain ⟨hline, hstart, hlt, hstop⟩ := ih l hl
      rw [List.length_drop] at hstop
      omega

theorem Cut.ordered (h : Cut g line col cs ls) : ls.Pairwise fun l l' => l.span.stop ≤ l'.span.start := by
  induction h with
  | blanks => exact .nil
  | piece _ _ _ hrest ih =>
    refine List.pairwise_cons.2 ⟨fun l hl => ?_, ih⟩
    rw [Lexed.span_ofKind]
    exact (hrest.inside l hl).2.1

/-- The text that a piece is taken from is what comes before it, the piece and the rest. -/
theorem Cut.length_before {before : List Char} {n : Nat} {c : Char} (hle : n ≤ cs.length)
    (hbefore : before.length = col) : (before ++ gap ++ c :: cs.take n).length = col + gap.length + (n + 1) := by
  simp only [List.length_append, List.length_cons, List.length_take, hbefore, Nat.min_eq_left hle]

theorem Cut.lexemes (h : Cut g line col cs ls) {before : List Char} (hbefore : before.length = col) {t : Token}
    (ht : .token t ∈ ls) : t.lexeme = String.ofList (((before ++ cs).take t.span.stop).drop t.span.start) := by
  induction h generalizing before with
  | blanks => cases ht
  | @piece col gap c cs ls kind n _ _ hlexeme _ ih =>
    rcases List.mem_cons.1 ht with ht | ht
    · have hspan : t.span = ⟨line, col + gap.length, col + gap.length + (n + 1)⟩ :=
        (congrArg Lexed.span ht).trans Lexed.span_ofKind
      have hstart : col + gap.length = (before ++ gap).length := by rw [List.length_append, hbefore]
      rw [Lexed.lexeme_of_ofKind ht.symm, hspan, ← List.append_assoc]
      simp only [hstart]
      rw [List.take_length_add_append, List.drop_left, List.take_succ_cons]
    · have hle : n ≤ cs.length := length_le_of_lexeme hlexeme
      have htext : before ++ gap ++ c :: cs.take n ++ cs.drop n = before ++ (gap ++ c :: cs) := by simp
      rw [← htext]
      exact ih (length_before hle hbefore) ht

theorem isBlank_of_gap {before rest : List Char} {i : Nat} {x : Char} (hgap : ∀ y ∈ gap, isBlank y)
    (hi : before.length ≤ i) (hlt : i < before.length + gap.length) (hget : (before ++ (gap ++ rest))[i]? = some x) :
    isBlank x := by
  rw [List.getElem?_append_right hi, List.getElem?_append_left (by omega)] at hget
  exact hgap x (List.mem_of_getElem? hget)

/-- A character that is not blank belongs to the first piece or to a later one. -/
theorem Cut.covered (h : Cut g line col cs ls) {before : List Char} (hbefore : before.length = col) {i : Nat} {x : Char}
    (hi : col ≤ i) (hget : (before ++ cs)[i]? = some x) (hx : isBlank x = false) : ∃ l ∈ ls, l.Covers i := by
  induction h generalizing before with
  | @blanks col gap hgap =>
    obtain ⟨hlt, -⟩ := List.getElem?_eq_some_iff.1 hget
    rw [List.length_append] at hlt
    rw [← List.append_nil gap] at hget
    cases hx.symm.trans (isBlank_of_gap hgap (hbefore ▸ hi) hlt hget)
  | @piece col gap c cs ls kind n hgap _ hlexeme _ ih =>
    by_cases hstart : i < col + gap.length
    · cases hx.symm.trans (isBlank_of_gap hgap (hbefore ▸ hi) (hbefore ▸ hstart) hget)
    by_cases hstop : i < col + gap.length + (n + 1)
    · refine ⟨_, List.mem_cons_self, ?_⟩
      unfold Lexed.Covers
      rw [Lexed.span_ofKind]
      exact ⟨Nat.not_lt.1 hstart, hstop⟩
    · have htext : before ++ gap ++ c :: cs.take n ++ cs.drop n = before ++ (gap ++ c :: cs) := by simp
      obtain ⟨l, hl, hcovers⟩ :=
        ih (length_before (length_le_of_lexeme hlexeme) hbefore) (Nat.not_lt.1 hstop) (htext.symm ▸ hget)
      exact ⟨l, .tail _ hl, hcovers⟩

/-- No column belongs to two pieces. -/
theorem eq_of_covers (hordered : ls.Pairwise fun l l' => l.span.stop ≤ l'.span.start) {l l' : Lexed} {i : Nat}
    (hl : l ∈ ls) (hl' : l' ∈ ls) (h : l.Covers i) (h' : l'.Covers i) : l = l' := by
  induction hordered with
  | nil => cases hl
  | cons hhead _ ih =>
    rcases List.mem_cons.1 hl with rfl | hmem <;> rcases List.mem_cons.1 hl' with heq | hmem'
    · exact heq.symm
    · exact absurd (Nat.lt_of_lt_of_le h.2 (hhead l' hmem')) (Nat.not_lt.2 h'.1)
    · subst heq
      exact absurd (Nat.lt_of_lt_of_le h'.2 (hhead l hmem)) (Nat.not_lt.2 h.1)
    · exact ih hmem hmem'

theorem Cut.tiling (h : Cut g line 0 cs ls) : Tiling line cs ls where
  inside l hl := by
    obtain ⟨hline, -, hlt, hstop⟩ := h.inside l hl
    exact ⟨hline, hlt, Nat.zero_add cs.length ▸ hstop⟩
  ordered := h.ordered
  lexemes _ ht := h.lexemes List.length_nil ht
  covered i x hget hx := by
    obtain ⟨l, hl, hcovers⟩ := h.covered List.length_nil (Nat.zero_le i) hget hx
    exact ⟨l, ⟨hl, hcovers⟩, fun l' hl' => eq_of_covers h.ordered hl'.1 hl hl'.2 hcovers⟩

/-- Called again and again on a line, the scanner comes to the end of it, and the tokens and comments that it has
given by then tile the line, whatever stands in it. -/
theorem tiling_scanAll (g : Scope) (line : Nat) (text : String) :
    (∃ t, Scans g (ofText line text) ((ofText line text).scanAll g) t ∧ t.eol) ∧
      Tiling line text.toList ((ofText line text).scanAll g) :=
  ⟨scans_scanAll g _, (cut_scanAll g (ofText line text)).tiling⟩

/-- A comment between two operators, characters that start no token, and a string without an end. -/
example : ((ofText 0 "1 + |x|/\u00e9$ 'it").scanAll Environment.initial.globals).map Lexed.span =
    [⟨0, 0, 1⟩, ⟨0, 2, 3⟩, ⟨0, 4, 7⟩, ⟨0, 7, 8⟩, ⟨0, 8, 9⟩, ⟨0, 9, 10⟩, ⟨0, 11, 14⟩] := by
  decide +kernel

end Scanner

end Linefold
