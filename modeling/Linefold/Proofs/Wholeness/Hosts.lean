import Linefold.Proofs.Twins.Restoring
import Linefold.Proofs.Wholeness.Folding
import Linefold.Proofs.Wholeness.Parsing

/-!
# No host makes holes

A new session is whole, and so it stays whatever is done with it, in whatever order: lines and tokens, ends
of texts that fold or fail to, and returns to checkpoints that were kept while the pool was smaller
(`Host.Reachable.whole`).
-/

namespace Linefold

namespace Session

/-- The pool is whole, and the parse and the first environment refer to nodes of it. -/
structure Whole (s : Session) : Prop where
  pool : s.pool.Whole
  env : s.env.All (Word.Whole s.pool)
  state : s.state.Whole s.pool

/-- The pool has grown, and the session is whole. -/
structure GrowsWhole (s r : Session) : Prop where
  grows : s.pool.Extends r.pool
  whole : r.Whole

variable {s r q : Session} {t : Token}

theorem GrowsWhole.trans (h : s.GrowsWhole r) (h' : r.GrowsWhole q) : s.GrowsWhole q :=
  ⟨h.grows.trans h'.grows, h'.whole⟩

theorem whole_of_ofConfig {config : Config} (h : ofConfig config = .ok s) : s.Whole := by
  unfold ofConfig Except.map at h
  split at h
  · cases h
  · next env henv =>
    cases h
    have hwords : env.All (Word.Whole .empty) :=
      (Environment.all_of_ofConfig (fun _ _ => Word.whole_operator) henv).1
    exact ⟨Pool.whole_empty, hwords, ParseState.whole_initial hwords⟩

namespace Whole

theorem refl (h : s.Whole) : s.GrowsWhole s := ⟨.refl _, h⟩

theorem step (h : s.Whole) : s.GrowsWhole (s.step t).2 := by
  obtain ⟨hgrows, hpool, hstate⟩ := h.state.step (t := t) h.pool
  exact ⟨hgrows, hpool, Environment.all_whole_mono h.env hgrows, hstate⟩

theorem feed (h : s.Whole) (scanner : Scanner) : s.GrowsWhole (s.feed scanner).2 := by
  induction hn : scanner.rest.length using Nat.strongRecOn generalizing s scanner with
  | ind n ih =>
    subst hn
    generalize hscan : scanner.scan s.state.env.globals = lexed
    rcases lexed with ⟨_ | lexed, rest⟩
    · rw [feed_of_none hscan]
      exact h.refl
    · have hlt := Scanner.length_rest_scan_lt hscan
      cases lexed with
      | comment span =>
        rw [feed_of_comment hscan]
        exact ih _ hlt h _ rfl
      | token t =>
        rw [feed_of_token hscan]
        have hstep := h.step (t := t)
        exact hstep.trans (ih _ hlt hstep.whole _ rfl)

theorem parseLine (h : s.Whole) (text : String) : s.GrowsWhole (s.parseLine text).2 := by
  have hfeed := h.feed (.ofText s.line text)
  exact ⟨hfeed.grows, hfeed.whole.pool, hfeed.whole.env, hfeed.whole.state⟩

theorem close (h : s.Whole) : s.GrowsWhole s.close := by
  unfold Session.close
  split
  · exact h.step
  · exact h.refl

theorem withPool {p : Pool} (h : s.Whole) (hgrows : s.pool.Extends p) (hp : p.Whole) :
    s.GrowsWhole { s with pool := p } :=
  ⟨hgrows, hp, Environment.all_whole_mono h.env hgrows, h.state.mono hgrows⟩

/-- Ending a text adds whole nodes, also if its fold fails half way. -/
theorem finish (h : s.Whole) : s.GrowsWhole s.finish.2 := by
  have hclose := h.close
  by_cases hfailed : ∃ e, s.close.state.status = .failed e
  · obtain ⟨e, he⟩ := hfailed
    rw [finish_of_failed he]
    exact hclose
  · rw [finish_of_ne_failed fun e he => hfailed ⟨e, he⟩]
    have hm : (Machine.ofPool s.close.pool s.close.state.env).Whole :=
      ⟨⟨hclose.whole.pool, nofun⟩, hclose.whole.state.env⟩
    have hfold := hm.fold s.close.state.root
    generalize (Machine.ofPool s.close.pool s.close.state.env).fold s.close.state.root = folded at hfold ⊢
    cases folded with
    | ok root m => exact hclose.trans (hclose.whole.withPool hfold.1 hfold.2.values.pool)
    | error e m => exact hclose.trans (hclose.whole.withPool hfold.1 hfold.2.values.pool)

theorem reset (h : s.Whole) : s.GrowsWhole s.reset :=
  ⟨.refl _, h.pool, h.env, ParseState.whole_initial h.env⟩

theorem restore {c : Checkpoint} (h : s.Whole) (hc : c.state.Whole s.pool) : s.GrowsWhole (s.restore c) :=
  ⟨.refl _, h.pool, h.env, hc⟩

end Whole

end Session

namespace Host

structure Whole (h : Host) : Prop where
  session : h.session.Whole
  kept : ∀ c ∈ h.kept, c.state.Whole h.session.pool

variable {h : Host}

theorem Whole.act (hh : h.Whole) (a : Action) : (h.act a).2.Whole := by
  have go {s : Session} (hs : h.session.GrowsWhole s) : Whole ⟨s, h.kept⟩ :=
    ⟨hs.whole, fun c hc => (hh.kept c hc).mono hs.grows⟩
  cases a with
  | line text => exact go (hh.session.parseLine text)
  | token t => exact go hh.session.step
  | finish => exact go hh.session.finish
  | reset => exact go hh.session.reset
  | checkpoint =>
    refine ⟨hh.session, fun c hc => ?_⟩
    rcases List.mem_append.1 hc with hc | hc
    · exact hh.kept c hc
    · rw [List.mem_singleton.1 hc]
      exact hh.session.state
  | restore i =>
    cases hc : h.kept[i]? with
    | none =>
      simp only [Host.act, hc]
      exact hh
    | some c =>
      simp only [Host.act, hc]
      exact go (hh.session.restore (hh.kept c (List.mem_of_getElem? hc)))

theorem Reachable.whole (hh : h.Reachable) : h.Whole := by
  induction hh with
  | start hs => exact ⟨Session.whole_of_ofConfig hs, fun _ hc => absurd hc List.not_mem_nil⟩
  | act _ a ih => exact ih.act a

end Host

end Linefold
