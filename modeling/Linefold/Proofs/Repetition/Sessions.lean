import Linefold.Proofs.Grammar.Acceptance
import Linefold.Proofs.Repetition.Folding
import Linefold.Proofs.Twins.Restoring
import Mathlib.Logic.Function.Iterate

/-!
# Ending a text again

To end a text is to end its parse and to fold what was parsed. A parse that has ended stays as it is, and the
fold finds all that it needs, so whoever asks for the end of a text again is told the same, ids and places
included, and the session stays what it was (`Host.Reachable.finish_iterate`).
-/

namespace Linefold

attribute [local irreducible] Pool.intern

/-! ### What every parse has -/

section

variable {P : ParseState → Prop} {s : Session} {h : Host}

theorem Session.state_finish (s : Session) : s.finish.2.state = s.close.state := by
  by_cases hfailed : ∃ e, s.close.state.status = .failed e
  · obtain ⟨e, he⟩ := hfailed
    rw [finish_of_failed he]
  · rw [finish_of_ne_failed fun e he => hfailed ⟨e, he⟩]
    split <;> rfl

variable (hstep : ∀ s pool t, P s → P (s.step pool t).2.1)

include hstep

theorem Session.state_feed (hs : P s.state) (scanner : Scanner) : P (s.feed scanner).2.state := by
  induction hn : scanner.rest.length using Nat.strongRecOn generalizing s scanner with
  | ind n ih =>
    subst hn
    generalize hscan : scanner.scan s.state.env.globals = lexed
    rcases lexed with ⟨_ | lexed, rest⟩
    · rw [feed_of_none hscan]
      exact hs
    · have hlt := Scanner.length_rest_scan_lt hscan
      cases lexed with
      | comment span =>
        rw [feed_of_comment hscan]
        exact ih _ hlt hs _ rfl
      | token t =>
        rw [feed_of_token hscan]
        exact ih _ hlt (hstep _ _ t hs) _ rfl

theorem Session.state_close (hs : P s.state) : P s.close.state := by
  unfold close
  split
  · exact hstep _ _ _ hs
  · exact hs

/-- What a parse has at its start and keeps with each token, the parses and the checkpoints of a host have. -/
theorem Host.Reachable.parses (hinitial : ∀ env, P (.initial env)) (hh : h.Reachable) :
    P h.session.state ∧ ∀ c ∈ h.kept, P c.state := by
  induction hh with
  | @start config s hs =>
    refine ⟨?_, fun _ hc => absurd hc List.not_mem_nil⟩
    unfold Session.ofConfig Except.map at hs
    split at hs
    · cases hs
    · cases hs
      exact hinitial _
  | @act h _ a ih =>
    obtain ⟨hsession, hkept⟩ := ih
    cases a with
    | line text => exact ⟨Session.state_feed hstep hsession _, hkept⟩
    | token t => exact ⟨hstep _ _ t hsession, hkept⟩
    | finish =>
      refine ⟨?_, hkept⟩
      rw [show (h.act .finish).2.session.state = h.session.close.state from Session.state_finish _]
      exact Session.state_close hstep hsession
    | reset => exact ⟨hinitial _, hkept⟩
    | checkpoint =>
      refine ⟨hsession, fun c hc => ?_⟩
      rcases List.mem_append.1 hc with hc | hc
      · exact hkept c hc
      · rw [List.mem_singleton.1 hc]
        exact hsession
    | restore i =>
      cases hc : h.kept[i]? with
      | none =>
        simp only [Host.act, hc]
        exact ⟨hsession, hkept⟩
      | some c =>
        simp only [Host.act, hc]
        exact ⟨hkept c (List.mem_of_getElem? hc), hkept⟩

end

/-! ### The end of a text -/

/-- A parse that goes on is at positions of the grammar. -/
def ParseState.Nests (s : ParseState) : Prop := s.status = .parsing → Nested s.conts

theorem ParseState.Nests.step {s : ParseState} {pool : Pool} {t : Token} (h : s.Nests) :
    (s.step pool t).2.1.Nests := by
  by_cases hs : s.status = .parsing
  · rcases step_cases hs (h hs) pool t with ⟨-, hN, -⟩ | ⟨⟨root, hr⟩, -⟩ | ⟨e, -, he, -⟩
    · exact fun _ => hN
    · exact fun hp => by cases hr.symm.trans hp
    · exact fun hp => by cases he.symm.trans hp
  · rw [step_of_ne_parsing hs]
    exact h

namespace Session

variable {s : Session}

theorem close_of_ne_parsing (h : s.state.status ≠ .parsing) : s.close = s := by
  unfold close
  split
  · next hs => exact absurd hs h
  · rfl

theorem close_ended (h : s.state.Nests) : s.close.state.status ≠ .parsing := by
  unfold close
  split
  · next hs => exact ParseState.step_eof_ne_parsing (.inl ⟨hs, h hs⟩) rfl
  · assumption

/-- The second fold of a root is carried out over what the first one has left. -/
theorem finish_finish (hs : s.Alike s) (hnests : s.state.Nests) : s.finish.2.finish = s.finish := by
  have hclosed := close_ended hnests
  have hagain (p : Pool) : Session.close { s.close with pool := p } = { s.close with pool := p } :=
    close_of_ne_parsing hclosed
  by_cases hfailed : ∃ e, s.close.state.status = .failed e
  · obtain ⟨e, he⟩ := hfailed
    have hsame := close_of_ne_parsing hclosed
    rw [finish_of_failed he]
    exact (finish_of_failed (hsame.symm ▸ he)).trans (by rw [hsame])
  · have hne : ∀ e, s.close.state.status ≠ .failed e := fun e he => hfailed ⟨e, he⟩
    have hstate := hs.close.alike.state
    have hm : (Machine.ofPool s.close.pool s.close.state.env).Alike (.ofPool s.close.pool s.close.state.env) :=
      ⟨.empty, hstate.env, rfl⟩
    have hfold := hm.fold_repeats hstate.root.le_left
    have hfinish (p : Pool) := finish_of_ne_failed (s := { s.close with pool := p }) (by rw [hagain p]; exact hne)
    rw [finish_of_ne_failed hne]
    cases hm : (Machine.ofPool s.close.pool s.close.state.env).fold s.close.state.root with
    | ok root m =>
      have htwice : (Machine.ofPool m.values.pool s.close.state.env).fold s.close.state.root = .ok root m :=
        (hfold.ok hm).2 m.pool (.refl _)
      rw [hfinish, hagain]
      simp only [htwice]
    | error e m =>
      have htwice : (Machine.ofPool m.values.pool s.close.state.env).fold s.close.state.root = .error e m :=
        (hfold.error hm).2 m.pool (.refl _)
      rw [hfinish, hagain]
      simp only [htwice]

end Session

namespace Host

/-- The result is the first one, and so is the session that is left: its pool with ids and places, and its parse. -/
theorem Reachable.finish_iterate {h : Host} (hh : h.Reachable) (n : Nat) :
    ((fun s => s.finish.2)^[n] h.session.finish.2).finish = h.session.finish := by
  have hnests : h.session.state.Nests :=
    (hh.parses (P := ParseState.Nests) (fun _ _ _ => .step) fun _ _ => ⟨rfl, rfl⟩).1
  have htwice := Session.finish_finish hh.alike.session hnests
  have hfixed : (fun s : Session => s.finish.2) h.session.finish.2 = h.session.finish.2 := congrArg Prod.snd htwice
  rw [Function.iterate_fixed hfixed n]
  exact htwice

/-- A session with a text that is accepted and cannot be folded to its end: of three, no clause says anything. -/
def exhausting : Host := ((Host.mk .fresh []).act (.line "1 + 2. case 3 of 4: 5 end.")).2

theorem finish_exhausting : exhausting.session.state.status = .parsing ∧
    ((fun s => s.finish.2)^[3] exhausting.session.finish.2).finish = exhausting.session.finish := by
  have hs : Session.ofConfig {} = .ok .fresh := rfl
  refine ⟨by decide +kernel, ?_⟩
  exact Reachable.finish_iterate (.act (.start hs) _) 3

end Host

end Linefold
