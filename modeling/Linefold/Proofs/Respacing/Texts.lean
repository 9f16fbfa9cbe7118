import Linefold.Proofs.Operands.Texts
import Linefold.Proofs.Respacing.Folding
import Linefold.Proofs.Respacing.Parsing
import Linefold.Proofs.Scanning.Tiling
import Linefold.Proofs.Twins.Sessions

/-!
# The layout of a text

Blanks, line breaks and comments are nothing but places: `compile_respaced` says that two texts with the
same tokens compile to the same pool, the same ids and the same messages, or fail with the same error. The
lines are scanned against the lexicon of the running parse, but a text cannot change what an operator word
is, so that its tokens are those of the configured lexicon (`Session.feed_eq`).
-/

namespace Linefold

/-! ### Tokens of a text -/

/-- A comment is no token. -/
def Lexed.token? : Lexed → Option Token
  | token t => some t
  | comment _ => none

/-- The tokens up to the end of the line. -/
def Scanner.tokens (s : Scanner) (g : Scope) : List Token := (s.scanAll g).filterMap Lexed.token?

/-- The tokens of some lines that are numbered from `n` on. -/
def tokensOfLines (g : Scope) (n : Nat) : List String → List Token
  | [] => []
  | text :: lines => (Scanner.ofText n text).tokens g ++ tokensOfLines g (n + 1) lines

/-- The tokens of a text, where `g` says what the operator words are. -/
def tokensOf (g : Scope) (source : String) : List Token := tokensOfLines g 0 (linesOf source)

namespace Scanner

variable {g : Scope} {s rest : Scanner} {t : Token} {c : Char} {cs : List Char}

theorem tokens_of_none (h : s.scan g = (none, rest)) : s.tokens g = [] := by
  unfold tokens
  rw [scanAll_of_none h]
  rfl

theorem tokens_of_some {l : Lexed} (h : s.scan g = (some l, rest)) :
    s.tokens g = l.token?.toList ++ rest.tokens g := by
  unfold tokens
  rw [scanAll_of_some h, List.filterMap_cons]
  cases l <;> rfl

theorem punctuation?_ne_ident : punctuation? c ≠ some .ident := by
  unfold punctuation?
  split <;> simp

theorem keyword?_ne_ident {lexeme : String} : keyword? lexeme ≠ some .ident := by
  unfold keyword?
  split <;> simp

/-- An operator word is taken for an operator, never for a name. -/
theorem operator?_of_lexeme {n : Nat} (h : lexeme g c cs = (some .ident, n)) :
    g.operator? (String.ofList (c :: cs.take n)) = none := by
  unfold lexeme at h
  split at h
  · next k hk =>
    cases h
    exact absurd hk punctuation?_ne_ident
  · split at h
    · split at h <;> cases h
    · split at h
      · cases h
      · split at h
        · cases h
        · split at h
          · have hk := (Prod.mk.inj h).1
            unfold signKind at hk
            split at hk <;> cases hk
          · split at h
            · obtain ⟨hk, rfl⟩ := Prod.mk.inj h
              unfold nameKind at hk
              split at hk
              · next k hkey => exact absurd (hkey.trans hk) keyword?_ne_ident
              · split at hk
                · cases hk
                · next hop =>
                  rw [List.prefix_iff_eq_take.1 (List.takeWhile_prefix isNameChar)] at hop
                  exact Option.not_isSome_iff_eq_none.1 hop
            · split at h <;> cases h

theorem plain_of_scan (h : s.scan g = (some (.token t), rest)) : t.Plain g := by
  intro ht
  unfold scan at h
  simp only at h
  split at h
  · cases h
  · next c cs hrest =>
    split at h
    · cases h
    · next k hk =>
      cases h
      obtain rfl : k = .ident := ht
      exact operator?_of_lexeme (Prod.ext hk rfl)

theorem plain_of_mem_tokens (h : t ∈ s.tokens g) : t.Plain g := by
  induction hn : s.rest.length using Nat.strongRecOn generalizing s with
  | ind n ih =>
    subst hn
    rcases hs : s.scan g with ⟨_ | l, rest⟩
    · rw [tokens_of_none hs] at h
      cases h
    · have hrest := ih _ (length_rest_scan_lt hs) (s := rest)
      rw [tokens_of_some hs, List.mem_append] at h
      cases l with
      | comment span => exact hrest (h.resolve_left List.not_mem_nil) rfl
      | token t' =>
        rcases h with h | h
        · obtain rfl := List.mem_singleton.1 h
          exact plain_of_scan hs
        · exact hrest h rfl

end Scanner

theorem plain_of_mem_tokensOfLines {g : Scope} {n : Nat} {lines : List String} {t : Token}
    (h : t ∈ tokensOfLines g n lines) : t.Plain g := by
  induction lines generalizing n with
  | nil => cases h
  | cons text lines ih => exact (List.mem_append.1 h).elim Scanner.plain_of_mem_tokens ih

/-! ### Sessions -/

namespace Session

/-- Feeds some tokens. -/
def feedAll (s : Session) (ts : List Token) : Session := ts.foldl (fun s t => (s.step t).2) s

/-- The sessions differ in places, and perhaps in the number of lines read. -/
structure Respaced (g : Scope) (s s' : Session) : Prop where
  config : s.config = s'.config
  pool : s.pool.SameNodes s'.pool
  state : s.state.Respaced g s'.state

variable {g : Scope} {s s' : Session} {t u : Token} {ts us : List Token}

theorem Respaced.step (h : s.Respaced g s') (htu : t.Agrees g u) (hname : t.Plain g) :
    (s.step t).2.Respaced g (s'.step u).2 := by
  obtain ⟨hstate, hpool⟩ := h.state.step h.pool htu hname
  exact ⟨h.config, hpool, hstate⟩

/-- By induction on the tokens. -/
theorem Respaced.feedAll (h : s.Respaced g s') (hts : List.Forall₂ (Token.Agrees g) ts us)
    (hplain : ∀ t ∈ ts, t.Plain g) : (s.feedAll ts).Respaced g (s'.feedAll us) := by
  induction hts generalizing s s' with
  | nil => exact h
  | cons htu _ ih =>
    obtain ⟨ht, hplain⟩ := List.forall_mem_cons.1 hplain
    exact ih (h.step htu ht) hplain

theorem feedAll_append (s : Session) (ts us : List Token) :
    s.feedAll (ts ++ us) = (s.feedAll ts).feedAll us :=
  List.foldl_append

/-- A session whose operator words are those of `g` reads the tokens that `g` makes of a line. -/
theorem feed_eq (h : s.Respaced g s) (scanner : Scanner) :
    (s.feed scanner).2 = s.feedAll (scanner.tokens g) := by
  induction hn : scanner.rest.length using Nat.strongRecOn generalizing s scanner with
  | ind n ih =>
    subst hn
    have hscan : scanner.scan s.state.env.globals = scanner.scan g := Scanner.scan_congr h.state.words scanner
    rcases hs : scanner.scan g with ⟨_ | l, rest⟩
    · rw [feed_of_none (hscan.trans hs), Scanner.tokens_of_none hs]
      rfl
    · have hlt := Scanner.length_rest_scan_lt hs
      rw [Scanner.tokens_of_some hs]
      cases l with
      | comment span =>
        rw [feed_of_comment (hscan.trans hs)]
        exact ih _ hlt h rest rfl
      | token t =>
        rw [feed_of_token (hscan.trans hs)]
        exact ih _ hlt (h.step (.refl g t) (Scanner.plain_of_scan hs)) rest rfl

/-- The number of the next line is of no account to a token. -/
theorem feedAll_line (s : Session) (line : Nat) (ts : List Token) :
    { s with line }.feedAll ts = { s.feedAll ts with line } := by
  induction ts generalizing s with
  | nil => rfl
  | cons t ts ih => exact ih (s.step t).2

theorem line_feedAll (s : Session) (ts : List Token) : (s.feedAll ts).line = s.line := by
  induction ts generalizing s with
  | nil => rfl
  | cons t ts ih => exact ih (s.step t).2

theorem Respaced.self_feedAll (h : s.Respaced g s) (hplain : ∀ t ∈ ts, t.Plain g) :
    (s.feedAll ts).Respaced g (s.feedAll ts) :=
  h.feedAll (List.forall₂_same.2 fun t _ => .refl g t) hplain

/-- A text is read as its tokens. -/
theorem parseLines_eq (h : s.Respaced g s) (lines : List String) :
    s.parseLines lines =
      { s.feedAll (tokensOfLines g s.line lines) with line := s.line + lines.length } := by
  induction lines generalizing s with
  | nil => rfl
  | cons text lines ih =>
    have hline : (s.parseLine text).2 =
        { s.feedAll ((Scanner.ofText s.line text).tokens g) with line := s.line + 1 } := by
      unfold parseLine
      dsimp only
      rw [feed_eq h, line_feedAll]
    have hfed : (s.parseLine text).2.Respaced g (s.parseLine text).2 := by
      rw [hline]
      have hplain : ∀ t ∈ (Scanner.ofText s.line text).tokens g, t.Plain g :=
        fun t => Scanner.plain_of_mem_tokens
      obtain ⟨hconfig, hpool, hstate⟩ := h.self_feedAll hplain
      exact ⟨hconfig, hpool, hstate⟩
    show (s.parseLine text).2.parseLines lines = _
    rw [ih hfed, hline, feedAll_line, tokensOfLines, feedAll_append, List.length_cons]
    simp only [Nat.add_assoc, Nat.add_comm 1]

theorem Respaced.parseLines {lines lines' : List String} (h : s.Respaced g s') (hs : s.Respaced g s)
    (hs' : s'.Respaced g s')
    (htokens : List.Forall₂ (Token.Agrees g) (tokensOfLines g s.line lines)
      (tokensOfLines g s'.line lines')) :
    (s.parseLines lines).Respaced g (s'.parseLines lines') := by
  rw [parseLines_eq hs, parseLines_eq hs']
  obtain ⟨hconfig, hpool, hstate⟩ := h.feedAll htokens fun t => plain_of_mem_tokensOfLines
  exact ⟨hconfig, hpool, hstate⟩

theorem Respaced.close (h : s.Respaced g s') : s.close.Respaced g s'.close := by
  have hstatus := h.state.status
  unfold Session.close
  generalize hl : s.state.status = left, hr : s'.state.status = right at hstatus ⊢
  cases hstatus with
  | parsing => exact h.step ⟨rfl, .inl rfl⟩ nofun
  | _ => exact h

/-! ### Whole texts -/

/-- The same nodes under the same ids and the same messages, or the same error but for its place. -/
inductive SameResult : Except Error (Session × Outcome) → Except Error (Session × Outcome) → Prop where
  | ok {s s' : Session} {o o' : Outcome} (hnodes : s.pool.nodes = s'.pool.nodes)
      (htable : ∀ root, s.table root = s'.table root) (hparsed : o.parsed = o'.parsed)
      (hroot : o.root = o'.root) (hvalues : o.values = o'.values)
      (hdiagnostics : o.diagnostics.map Diagnostic.message = o'.diagnostics.map Diagnostic.message) :
      SameResult (.ok (s, o)) (.ok (s', o'))
  | error {e f : Error} (hcause : e.placeless = f.placeless) (hmessage : e.message = f.message) :
      SameResult (.error e) (.error f)

theorem topValues_eq {p q : Pool} (h : p.SameNodes q) (root : NodeId) :
    topValues p root = topValues q root := by
  unfold topValues
  rw [h.elts_eq]
  simp only [h.get?_eq]

/-- What the end of a text brings, with the session at the end of a success. -/
def result (r : Except Error Outcome × Session) : Except Error (Session × Outcome) :=
  r.1.map fun o => (r.2, o)

theorem Respaced.finish (h : s.Respaced g s') : SameResult (result s.finish) (result s'.finish) := by
  have hclose := h.close
  have hstatus := hclose.state.status
  have hfolded (hl : ∀ e, s.close.state.status ≠ .failed e) (hr : ∀ e, s'.close.state.status ≠ .failed e) :
      SameResult (result s.finish) (result s'.finish) := by
    have hmachine : (Machine.ofPool s.close.pool s.close.state.env).Respaced
        (.ofPool s'.close.pool s'.close.state.env) := ⟨hclose.pool, rfl, hclose.state.env, rfl⟩
    have hend := hmachine.fold s.close.state.root
    rw [finish_of_ne_failed hl, finish_of_ne_failed hr, ← hclose.state.root_eq]
    generalize (Machine.ofPool s.close.pool _).fold _ = left,
      (Machine.ofPool s'.close.pool _).fold _ = right at hend ⊢
    cases hend with
    | ok hm hroot =>
      cases hroot
      refine .ok hm.pool (fun root => ?_) rfl rfl (topValues_eq hm.pool _) hclose.state.errors
      unfold Session.table
      rw [hclose.config]
      exact hm.pool.toTable_eq root _
    | error hm he => exact .error he (Error.message_eq he)
  generalize hl : s.close.state.status = left, hr : s'.close.state.status = right at hstatus
  cases hstatus with
  | parsing => exact hfolded (by simp [hl]) (by simp [hr])
  | complete => exact hfolded (by simp [hl]) (by simp [hr])
  | failed he =>
    rw [finish_of_failed hl, finish_of_failed hr]
    exact .error he (Error.message_eq he)

end Session

end Linefold
