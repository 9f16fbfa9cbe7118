import Linefold.Proofs.Naming.Positions
import Linefold.Proofs.Respacing.Texts

/-!
# The unknown names of a text

`unknownNames_of_complete`: the soft errors of a text that is parsed to its end are the names in it that lexical
scoping does not bind where they stand, in source order and each at its place. The positions of a parse say at
every turn which names the rest of the text will report (`Turns.reports`), and a run of turns adds up to the
whole text.
-/

namespace Linefold

open Relation (ReflTransGen)

/-! ### Turns -/

variable {t : Token} {e e' : Environment} {c : Cont} {a : Turn} {ds : List Diagnostic} {root : NodeId}
  {s : ParseState} {p : Pool} {start : Moment}

/-- A position that needs no token takes none. -/
theorem Acts.passes_of_reduction (h : Acts t e c a e' ds) (hc : c.isReduction) : ∃ next, a = .passes next := by
  cases h with
  | still h =>
    cases h with
    | negate => exact ⟨_, rfl⟩
    | endOfList hc' | item hc' => exact ⟨_, rfl⟩
    | _ => cases hc
  | letBody | ofEnd => exact ⟨_, rfl⟩
  | _ => cases hc

namespace Moment

variable {m m' : Moment} {v D : List Token}

/-- What the positions of a moment report on the token and the text that comes after it. -/
def Finds (m : Moment) (v D : List Token) : Prop :=
  Reports m.conts m.parsed.env.names m.parsed.env.outerNames (m.token.toList ++ v) D

/-- A turn reports the names that the positions will not report any more. -/
theorem Turns.reports (h : m.Turns m') (hfair : Fair start m) (hK : Nested m.conts) (hr : m'.Finds v D) :
    ∃ E, m'.parsed.errors.toList = m.parsed.errors.toList ++ E.map Token.unknownName ∧ m.Finds v (E ++ D) := by
  obtain ⟨t, c, K, a, ds, hconts, htoken, ha, hds, hafter⟩ := h.acts
  unfold Fair at hfair
  unfold Finds at hr ⊢
  rw [conts_of_after hafter] at hr
  rw [hconts] at hK hfair ⊢
  have hplaced : ∀ d name K e, Placed start m d name K e → d + 1 = e.depth ∧ name ∈ e.names := by
    intro d name K e hp
    refine ⟨hp.depth_eq, ?_⟩
    obtain ⟨o, -, rfl⟩ := hp
    rw [Environment.names_bind]
    exact Set.mem_insert ..
  have acted {w : List Token} (hw : a.Ready t c w) (hw' : m'.token.toList ++ v = w)
      (hfinds : a.finds t w = m.token.toList ++ v) : ∃ E, m'.parsed.errors.toList =
        m.parsed.errors.toList ++ E.map Token.unknownName ∧ Reports (c :: K) m.parsed.env.names
          m.parsed.env.outerNames (m.token.toList ++ v) (E ++ D) := by
    rw [hw'] at hr
    obtain ⟨E, rfl, hE⟩ := ha.reports hplaced hK hfair hw hr
    rw [hfinds] at hE
    exact ⟨E, hds, hE⟩
  have given (hno : ¬ ∃ next, a = .passes next) : m.token = some t :=
    htoken.resolve_right fun h => hno (ha.passes_of_reduction h.2)
  cases a with
  | takes cls next =>
    have ht := given (by simp)
    refine acted (w := v) trivial ?_ (by rw [ht]; rfl)
    rw [← Progress.goes.inj hafter]
    rfl
  | finishes root =>
    have ht := given (by simp)
    refine acted (w := v) trivial ?_ (by rw [ht]; rfl)
    rw [← Progress.goes.inj hafter]
    rfl
  | passes next =>
    refine acted (w := m.token.toList ++ v) ?_ (by rw [← Progress.goes.inj hafter]) rfl
    rcases htoken with ht | ht
    · exact .inr ⟨v, by rw [ht]; rfl⟩
    · exact .inl ht.2

/-- By induction on the turns, from the last one back to the first one. -/
theorem reports_of_turns (h : ReflTransGen Turns m m') (hfair : Fair start start)
    (hreached : ReflTransGen Moves start m) (hK : Nested m.conts) (hr : m'.Finds v D) :
    ∃ E, m'.parsed.errors.toList = m.parsed.errors.toList ++ E.map Token.unknownName ∧ m.Finds v (E ++ D) := by
  induction h using ReflTransGen.head_induction_on with
  | refl => exact ⟨[], by simp, hr⟩
  | @head m x hturns hrest ih =>
    have hnow := fair_of_reached hfair hreached
    have further : ∃ E, m'.parsed.errors.toList = x.parsed.errors.toList ++ E.map Token.unknownName ∧
        x.Finds v (E ++ D) := by
      rcases hturns.nested hK with ⟨-, hx⟩ | ⟨root, hx⟩
      · exact ih (hreached.tail (.turn hturns)) hx
      -- A program that has ended has no further turns.
      · rcases hrest.cases_head with rfl | ⟨y, hy, -⟩
        · exact ⟨[], by simp, hr⟩
        · rw [hx] at hy
          cases hy
    obtain ⟨E, hE, hfinds⟩ := further
    obtain ⟨E', hE', hfinds⟩ := hturns.reports hnow hK hfinds
    refine ⟨E' ++ E, ?_, ?_⟩
    · rw [hE, hE', List.map_append, List.append_assoc]
    · rw [List.append_assoc]
      exact hfinds

end Moment

/-! ### Runs -/

/-- The tokens up to the first end of a program. -/
def throughEnd : List Token → List Token
  | [] => []
  | t :: ts => if t.kind = .eof then [t] else t :: throughEnd ts

namespace ParseState

open Moment

/-- From a parse that goes on to the end of the program, exactly the names are reported that its positions
report. -/
theorem Came.reports (hfair : Fair start start) {ts : List Token} (h : s.Came start p) (hs : s.status = .parsing)
    (hend : (s.run p ts).1.status = .complete root) :
    ∃ D, (s.run p ts).1.errors.toList = s.errors.toList ++ D.map Token.unknownName ∧
      Reports s.conts s.env.names s.env.outerNames (throughEnd ts) D := by
  induction ts generalizing s p with
  | nil => cases hs.symm.trans hend
  | cons t ts ih =>
    obtain ⟨hK, hreached⟩ := reached_given hs h t
    rw [ParseState.run] at hend ⊢
    rcases step_turns hs hK p t with ⟨m, htakes, hstep, hm⟩ | ⟨e, s', -, hstep⟩
    · have htoken := htakes.token_eq_none
      have hnext : (s.step p t).2.1 = m.state := by rw [hstep]
      have hcame := h.step (t := t)
      have before {v D : List Token} (hv : throughEnd (t :: ts) = t :: v)
          (hr : Reports m.conts m.parsed.env.names m.parsed.env.outerNames v D) :
          ∃ E, m.parsed.errors.toList = s.errors.toList ++ E.map Token.unknownName ∧
            Reports s.conts s.env.names s.env.outerNames (throughEnd (t :: ts)) (E ++ D) := by
        rw [hv]
        refine reports_of_turns htakes.turns hfair hreached hK (v := v) ?_
        unfold Finds
        rw [htoken]
        exact hr
      rcases hm with ⟨hroot, hnested, -⟩ | ⟨hconts, hroot⟩
      · have hgoes : (s.step p t).2.1.status = .parsing := by
          rw [hnext]
          simp [state, hroot]
        have hne : t.kind ≠ .eof := fun h => step_eof_ne_parsing (.inl ⟨hs, hK⟩) h hgoes
        obtain ⟨D, hD, hr⟩ := ih hcame hgoes hend
        rw [hnext] at hD hr
        obtain ⟨E, hE, hr⟩ := before (by rw [throughEnd, if_neg hne]) hr
        refine ⟨E ++ D, ?_, hr⟩
        rw [hnext, hD]
        show m.parsed.errors.toList ++ _ = _
        rw [hE, List.map_append, List.append_assoc]
      · obtain ⟨root', hroot'⟩ := Option.isSome_iff_exists.1 hroot
        have hdone : (s.step p t).2.1.status = .complete root' := by
          rw [hnext]
          simp [state, hroot']
        have heof : t.kind = .eof := by
          rcases step_cases hs hK p t with ⟨h, -⟩ | ⟨-, h, -⟩ | ⟨e, -, h, -⟩
          · cases h.symm.trans hdone
          · exact h
          · cases h.symm.trans hdone
        have hr : Reports m.conts m.parsed.env.names m.parsed.env.outerNames [] [] := by
          rw [hconts]
          exact ⟨rfl, rfl⟩
        obtain ⟨E, hE, hr⟩ := before (by rw [throughEnd, if_pos heof]) hr
        rw [List.append_nil] at hr
        refine ⟨E, ?_, hr⟩
        rw [run_of_ne_parsing (by rw [hdone]; simp), hnext]
        exact hE
    · rw [hstep, run_of_ne_parsing (by simp)] at hend
      cases hend

theorem run_append (ts us : List Token) : s.run p (ts ++ us) = (s.run p ts).1.run (s.run p ts).2 us := by
  induction ts generalizing s p with
  | nil => rfl
  | cons t ts ih => exact ih

end ParseState

/-! ### Texts -/

/-- The tokens of a text up to the end of its program, which is that of the text if it has no other. -/
def tokensToEnd (g : Scope) (source : String) : List Token :=
  throughEnd (tokensOf g source ++ [.eof ⟨(linesOf source).length, 0, 0⟩])

namespace Session

variable {config : Config} {s : Session}

theorem state_feedAll (s : Session) (ts : List Token) :
    (s.feedAll ts).state = (s.state.run s.pool ts).1 ∧ (s.feedAll ts).pool = (s.state.run s.pool ts).2 := by
  induction ts generalizing s with
  | nil => exact ⟨rfl, rfl⟩
  | cons t ts ih => exact ih (s.step t).2

/-- A text that is read and ended is a run over its tokens. -/
theorem close_parseLines (hs : ofConfig config = .ok s) (source : String) :
    (s.parseLines (linesOf source)).close.state = (s.state.run s.pool
      (tokensOf s.env.globals source ++ [.eof ⟨(linesOf source).length, 0, 0⟩])).1 := by
  unfold ofConfig Except.map at hs
  split at hs
  · cases hs
  · next env henv =>
    cases hs
    let g := env.globals
    let start : Session := { config, env, pool := .empty, state := .initial env, line := 0 }
    have hstart : start.Respaced g start := ⟨rfl, .refl _, .initial fun _ => rfl⟩
    obtain ⟨hstate, hpool⟩ := start.state_feedAll (tokensOf g source)
    rw [ParseState.run_append, ← hstate, ← hpool, parseLines_eq hstart]
    show (close { start.feedAll (tokensOf g source) with line := 0 + (linesOf source).length }).state = _
    rw [Nat.zero_add]
    unfold close
    split
    · rfl
    · next hne => rw [ParseState.run_of_ne_parsing hne]

/-- The soft errors of a text that is parsed to its end are its unknown names, in source order and each at its
place: with the words of the environment known at the start, the text is read in one way, and those are the names
that are not known where they stand. -/
theorem unknownNames_of_complete (hs : ofConfig config = .ok s) (source : String) {root : NodeId}
    (hroot : (s.parseLines (linesOf source)).close.state.status = .complete root) :
    ∃ D, (s.parseLines (linesOf source)).close.state.errors.toList = D.map Token.unknownName ∧
      D.Sublist ((tokensToEnd s.env.globals source).filter (·.kind = .ident)) ∧
      ∀ D', (∃ N', Lexical .program s.env.names (tokensToEnd s.env.globals source) N' [] D') ↔ D' = D := by
  rw [close_parseLines hs] at hroot ⊢
  unfold ofConfig Except.map at hs
  split at hs
  · cases hs
  · next env henv =>
    cases hs
    have hinner : env.inner = [] :=
      (Environment.all_of_ofConfig (P := fun _ _ => True) (fun _ _ _ => trivial) henv).2
    let start := (ParseState.initial env).moment .empty .error
    have hfair : Moment.Fair start start := hinner
    obtain ⟨D, hD, hr⟩ := (ParseState.came_initial env .empty).reports hfair rfl hroot
    obtain ⟨N', v, D₁, D₂, hl, ⟨eof, w, rfl, heof, rfl, rfl⟩, rfl⟩ := hr
    rw [List.append_nil] at hD
    have hlexical : Lexical .program env.names (tokensToEnd env.globals source) N' [] D₁ := .program hl heof
    refine ⟨D₁, hD, ?_, fun D' => ⟨?_, ?_⟩⟩
    · obtain ⟨u, hu, hsub⟩ := hlexical.among
      rw [List.append_nil] at hu
      rw [hu]
      exact hsub
    · rintro ⟨N'', h⟩
      exact (h.unique hlexical).2.2
    · rintro rfl
      exact ⟨N', hlexical⟩

/-- A parameter, a pattern and a definition, each used in its scope and out of it. -/
def scopes : String := "let f x = <y: x y z> y.. case f of k: k of [k]: g end\nlet g x = [g, x, h]"

/-- The second `k` stands in a list, so that it is no new name, and `g` is not known before its definition. -/
theorem unknownNames_of_complete_scopes :
    (∃ root, (fresh.parseLines (linesOf scopes)).close.state.status = .complete root) ∧
      ∃ D N', Lexical .program fresh.env.names (tokensToEnd fresh.env.globals scopes) N' [] D ∧
        D.map Token.unknownName = [.nameNotFound ⟨0, 18, 19⟩ "z", .nameNotFound ⟨0, 21, 22⟩ "y",
          .nameNotFound ⟨0, 44, 45⟩ "k", .nameNotFound ⟨0, 48, 49⟩ "g", .nameNotFound ⟨1, 17, 18⟩ "h"] := by
  have hs : ofConfig {} = .ok fresh := rfl
  have hroot : (fresh.parseLines (linesOf scopes)).close.state.status =
      .complete (fresh.parseLines (linesOf scopes)).close.state.root := by decide +kernel
  obtain ⟨D, hD, -, hreads⟩ := unknownNames_of_complete hs scopes hroot
  obtain ⟨N', h⟩ := (hreads D).2 rfl
  refine ⟨⟨_, hroot⟩, D, N', h, hD.symm.trans ?_⟩
  decide +kernel

end Session

end Linefold
