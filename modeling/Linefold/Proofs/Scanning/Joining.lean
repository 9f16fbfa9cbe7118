import Mathlib.Data.List.TakeWhile
import Linefold.Proofs.Respacing.Texts
import Linefold.Proofs.Scanning.Tiling

/-!
# Tokens are read again from their lexemes

What a token is depends on its own characters and on nothing before it, and at the end of the line or before a
space it ends where it ended (`Scanner.lexeme_take_append`). Only a string without its closing quote runs on to
the end of the line, and after it there is no other token. So the lexemes of a line, joined by single spaces, are
scanned into the same tokens (`Scanner.scanAll_join_tokens`).
-/

namespace Linefold

namespace Scanner

variable {g : Scope} {c mark : Char} {cs rest : List Char} {ls : List Lexed} {line col n : Nat} {k : TokenKind}
  {p : Char → Bool}

/-! ### One token -/

theorem take_lengthThrough? (h : lengthThrough? mark cs = some n) :
    lengthThrough? mark (cs.take n ++ rest) = some n := by
  obtain ⟨i, hi, rfl⟩ := Option.map_eq_some_iff.1 h
  obtain ⟨hlt, hmark, hbefore⟩ := List.findIdx?_eq_some_iff_getElem.1 hi
  have htake : (cs.take (i + 1)).findIdx? (· = mark) = some i := by
    refine List.findIdx?_eq_some_iff_getElem.2 ⟨by simp; omega, ?_, fun j hj => ?_⟩
    · rw [List.getElem_take]
      exact hmark
    · rw [List.getElem_take]
      exact hbefore j hj
  unfold lengthThrough?
  rw [List.findIdx?_append, htake]
  rfl

/-- A class of characters that the space does not belong to stops at a space as it does at the end of a line. -/
theorem takeWhile_take_append (hp : p ' ' = false) (hrest : rest = [] ∨ rest.head? = some ' ') :
    (cs.take (cs.takeWhile p).length ++ rest).takeWhile p = cs.takeWhile p := by
  have htake : cs.take (cs.takeWhile p).length = cs.takeWhile p :=
    (List.prefix_iff_eq_take.1 (List.takeWhile_prefix p)).symm
  have hnil : rest.takeWhile p = [] := by
    rcases hrest with rfl | hspace
    · rfl
    · obtain ⟨tail, rfl⟩ := List.head?_eq_some_iff.1 hspace
      simp [hp]
  rw [htake, List.takeWhile_append_of_pos fun _ hx => List.mem_takeWhile_imp hx, hnil, List.append_nil]

/-- A token that does not run on to the end of the line ends in the same place before a space, and every token does
at the end of a line. -/
theorem lexeme_take_append (h : lexeme g c cs = (some k, n))
    (hrest : rest = [] ∨ rest.head? = some ' ' ∧ n < cs.length) : lexeme g c (cs.take n ++ rest) = (some k, n) := by
  have hstop : rest = [] ∨ rest.head? = some ' ' := hrest.imp_right And.left
  unfold lexeme at h ⊢
  split
  · next hk =>
    rw [hk] at h
    exact h
  next hk =>
  rw [hk] at h
  simp only at h
  by_cases hquote : (decide (c = '"') || decide (c = '\x27')) = true
  · rw [if_pos hquote] at h ⊢
    cases hlength : lengthThrough? c cs with
    | some m =>
      rw [hlength] at h
      obtain ⟨hkind, rfl⟩ := Prod.mk.inj h
      rw [take_lengthThrough? hlength, hkind]
    | none =>
      rw [hlength] at h
      obtain ⟨hkind, rfl⟩ := Prod.mk.inj h
      have hnil : rest = [] := hrest.resolve_right fun ⟨_, hlt⟩ => absurd hlt (Nat.lt_irrefl _)
      rw [hnil, List.append_nil, List.take_length, hlength, hkind]
  rw [if_neg hquote] at h ⊢
  by_cases hcomment : (decide (c = '/') && decide (cs.head? = some '/')) = true
  · rw [if_pos hcomment] at h
    cases h
  rw [if_neg hcomment] at h
  by_cases hmark : isCommentMark c = true
  · rw [if_pos hmark] at h
    cases h
  rw [if_neg hmark] at h
  have hslash : ¬(decide (c = '/') && decide ((cs.take n ++ rest).head? = some '/')) = true := by
    intro hboth
    obtain ⟨hc, hhead⟩ := Bool.and_eq_true_iff.1 hboth
    obtain rfl : c = '/' := of_decide_eq_true hc
    obtain ⟨-, rfl⟩ := Prod.mk.inj h
    rcases hstop with rfl | hspace
    · cases of_decide_eq_true hhead
    · rw [List.take_zero, List.nil_append, hspace] at hhead
      cases of_decide_eq_true hhead
  rw [if_neg hslash, if_neg hmark]
  by_cases hsign : isOperatorSign c = true
  · rw [if_pos hsign] at h ⊢
    exact h
  rw [if_neg hsign] at h ⊢
  by_cases hname : isNameStart c = true
  · rw [if_pos hname] at h ⊢
    obtain ⟨hkind, rfl⟩ := Prod.mk.inj h
    rw [takeWhile_take_append rfl hstop]
    exact Prod.ext hkind rfl
  rw [if_neg hname] at h ⊢
  by_cases hnum : isNumeric c = true
  · rw [if_pos hnum] at h ⊢
    obtain ⟨hkind, rfl⟩ := Prod.mk.inj h
    rw [takeWhile_take_append rfl hstop, hkind]
  rw [if_neg hnum] at h ⊢
  exact h

/-! ### All tokens -/

/-- A space before a text moves its pieces by a column and is no piece. -/
theorem Cut.space (h : Cut g line (col + 1) cs ls) : Cut g line col (' ' :: cs) ls := by
  cases h with
  | blanks hgap => exact .blanks (List.forall_mem_cons.2 ⟨rfl, hgap⟩)
  | @piece _ gap c cs ls kind n hgap hc hlexeme hcut =>
    have hcol : col + 1 + gap.length = col + (' ' :: gap).length := by rw [List.length_cons]; omega
    rw [hcol] at hcut ⊢
    have hblanks : ∀ x ∈ ' ' :: gap, isBlank x := List.forall_mem_cons.2 ⟨rfl, hgap⟩
    exact .piece hblanks hc hlexeme hcut

/-- A token is cut off before a text that it does not run into. -/
theorem Cut.token (hc : isBlank c = false) (h : lexeme g c cs = (some k, n))
    (hrest : rest = [] ∨ rest.head? = some ' ' ∧ n < cs.length) (hcut : Cut g line (col + (n + 1)) rest ls) :
    Cut g line col (c :: cs.take n ++ rest)
      (.token ⟨k, String.ofList (c :: cs.take n), ⟨line, col, col + (n + 1)⟩⟩ :: ls) := by
  have hlength : (cs.take n).length = n := by rw [List.length_take, Nat.min_eq_left (length_le_of_lexeme h)]
  have htake : (cs.take n ++ rest).take n = cs.take n := List.take_left' hlength
  have hdrop : (cs.take n ++ rest).drop n = rest := List.drop_left' hlength
  have hnone : ∀ x ∈ ([] : List Char), isBlank x := List.forall_mem_nil _
  have hpiece := Cut.piece hnone hc (lexeme_take_append h hrest) (hdrop.symm ▸ hcut)
  rw [htake] at hpiece
  exact hpiece

theorem Cut.of_nil (h : Cut g line col [] ls) : ls = [] := by
  generalize hcs : ([] : List Char) = cs at h
  cases h with
  | blanks => rfl
  | piece => exact absurd hcs.symm (by simp)

/-- The tokens of a cut text are also those of their lexemes with a space between every two. -/
theorem Cut.join (h : Cut g line col cs ls) (line' col' : Nat) :
    ∃ us : List Token,
      Cut g line' col' ([' '].intercalate ((ls.filterMap Lexed.token?).map fun t => t.lexeme.toList))
        (us.map .token) ∧
      us.map (fun t => (t.kind, t.lexeme)) = (ls.filterMap Lexed.token?).map fun t => (t.kind, t.lexeme) := by
  induction h generalizing col' with
  | blanks => exact ⟨[], .blanks (List.forall_mem_nil _), rfl⟩
  | @piece col gap c cs ls kind n hgap hc hlexeme hrest ih =>
    cases kind with
    | none => exact ih col'
    | some k =>
      have hpieces : (Lexed.ofKind (some k) (c :: cs.take n)
          ⟨line, col + gap.length, col + gap.length + (n + 1)⟩ :: ls).filterMap Lexed.token? =
          ⟨k, String.ofList (c :: cs.take n), ⟨line, col + gap.length, col + gap.length + (n + 1)⟩⟩ ::
            ls.filterMap Lexed.token? := rfl
      rw [hpieces]
      cases hts : ls.filterMap Lexed.token? with
      | nil =>
        have hnone : Cut g line' (col' + (n + 1)) [] [] := .blanks (List.forall_mem_nil _)
        have hcut := Cut.token hc hlexeme (.inl rfl) hnone
        exact ⟨[⟨k, String.ofList (c :: cs.take n), ⟨line', col', col' + (n + 1)⟩⟩], by simpa using hcut, rfl⟩
      | cons t ts =>
        -- Another token follows, so that this one has not taken all that is left of the line.
        have hlt : n < cs.length := by
          refine lt_of_not_ge fun hge => ?_
          rw [List.drop_eq_nil_of_le hge] at hrest
          rw [hrest.of_nil] at hts
          cases hts
        obtain ⟨us, hus, hread⟩ := ih (col' + (n + 1) + 1)
        rw [hts] at hus hread
        have hcut := Cut.token hc hlexeme (.inr ⟨rfl, hlt⟩) hus.space
        refine ⟨⟨k, String.ofList (c :: cs.take n), ⟨line', col', col' + (n + 1)⟩⟩ :: us, ?_, ?_⟩
        · simpa [List.intercalate_cons_cons] using hcut
        · simpa using hread

/-- The lexemes of the tokens of a line, joined by single spaces, are scanned into tokens only, and these are of the
same kinds and have the same lexemes as before. -/
theorem scanAll_join_tokens (g : Scope) (line line' : Nat) (text : String) :
    ∃ us : List Token,
      (ofText line' (" ".intercalate (((ofText line text).tokens g).map Token.lexeme))).scanAll g = us.map .token ∧
      us.map (fun t => (t.kind, t.lexeme)) = ((ofText line text).tokens g).map fun t => (t.kind, t.lexeme) := by
  obtain ⟨us, hus, hread⟩ := (cut_scanAll g (ofText line text)).join line' 0
  refine ⟨us, Cut.eq_scanAll ?_, hread⟩
  simpa [tokens, ofText, position, String.toList_intercalate, Function.comp_def] using hus

end Scanner

end Linefold
