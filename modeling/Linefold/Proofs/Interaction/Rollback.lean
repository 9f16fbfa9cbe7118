import Linefold.Proofs.Interaction.Replies

/-!
# Lines that are taken back

The session to which a line is taken back differs from the one before in the nodes of its pool, which no reply but a
table shows. So a line that is taken back might as well not have been entered, but for the error that is printed for
it (`Session.Alike.rejected`).
-/

namespace Linefold

/-- What was made of a line that is taken back are nodes. -/
theorem Session.Alike.rejected {s s' : Session} (h : s.Alike s') (text : String) :
    ((s.parseLine text).2.restore s.checkpoint).Alike s' := by
  have hparsed := (h.parseLine text).2
  have hgrows : (s.twin s').Grows (((s.parseLine text).2.restore s.checkpoint).twin s') := ⟨hparsed.grows.1, .refl _⟩
  have henv : ((s.parseLine text).2.restore s.checkpoint).env = s.env := hparsed.env
  refine ⟨hparsed.config.trans h.config, ?_, h.state.mono hgrows, h.line⟩
  rw [henv]
  exact h.env.mono hgrows

namespace Repl

variable {config : Option Source} {r r₀ : Repl} {line text : String} {lines later : List String} {e : Error}

theorem Alike.rejected {r' : Repl} (h : r.Alike r') (text : String) : (r.rejecting text).Alike r' :=
  ⟨h.session.rejected text, h.shown, h.reported⟩

theorem run_eq (h : start config = .ok r) :
    run config lines = ⟨(r.answer lines).2, banner ++ (r.answer lines).1, []⟩ := by
  unfold run
  simp only [h]

theorem answer_cons_enter (hline : (Text.typed? line).map Command.ofLine = some (.enter text)) :
    r.answer (line :: lines) =
      ((r.enter text).1 ++ ((r.enter text).2.answer lines).1, ((r.enter text).2.answer lines).2) := by
  obtain ⟨typed, htyped, hcommand⟩ := Option.map_eq_some_iff.1 hline
  have hreply : r.reply line = ((r.enter text).1, .more (r.enter text).2) := by
    simp only [reply, htyped, hcommand, perform]
  rw [answer, hreply]

/-- A line of the program that is taken back for an error adds the line for that error to the output. The lines before it
are answered as they are without it, and so are those that follow, but for the tables, which may list other nodes
around the same tree. -/
theorem run_without (hstart : start config = .ok r₀) (hlines : r₀.after? lines = some r)
    (hline : (Text.typed? line).map Command.ofLine = some (.enter text)) (he : r.refusal? text = some e) :
    ∃ code,
      run config (lines ++ line :: later) = ⟨code, banner ++ ((r₀.replies lines).flatMap Prod.snd ++
        errorLine e.message :: ((r.rejecting text).replies later).flatMap Prod.snd), []⟩ ∧
      run config (lines ++ later) =
        ⟨code, banner ++ ((r₀.replies lines).flatMap Prod.snd ++ (r.replies later).flatMap Prod.snd), []⟩ ∧
      List.Forall₂ SameReply ((r.rejecting text).replies later) (r.replies later) := by
  have hr : r.Alike r := (alike_of_start hstart).after hlines
  have hback : (r.rejecting text).Alike r := hr.rejected text
  refine ⟨(r.answer later).2, ?_, ?_, hback.replies later⟩
  · rw [run_eq hstart, answer_append hlines, answer_cons_enter hline, enter_of_refusal he, ← hback.code_eq later,
      answer_fst, answer_fst]
    rfl
  · rw [run_eq hstart, answer_append hlines, answer_fst, answer_fst]

/-- A parenthesis that closes nothing is taken back. -/
theorem run_without_parenthesis :
    ∃ code,
      run none ([] ++ [") 3.", "3 + 4.", ":export"]) =
        ⟨code, banner ++ ([] ++ errorLine (Error.unexpected .eof .rightParen ⟨0, 0, 1⟩).message ::
          ((rejecting { session := .fresh } ") 3.").replies ["3 + 4.", ":export"]).flatMap Prod.snd), []⟩ ∧
      run none ([] ++ ["3 + 4.", ":export"]) =
        ⟨code, banner ++ ([] ++ (replies { session := .fresh } ["3 + 4.", ":export"]).flatMap Prod.snd), []⟩ ∧
      List.Forall₂ SameReply ((rejecting { session := .fresh } ") 3.").replies ["3 + 4.", ":export"])
        (replies { session := .fresh } ["3 + 4.", ":export"]) := by
  have hstart : start none = .ok { session := .fresh } := rfl
  have hline : (Text.typed? ") 3.").map Command.ofLine = some (.enter ") 3.") := by decide +kernel
  have hstatus : (Session.fresh.parseLine ") 3.").2.state.status = .failed (.unexpected .eof .rightParen ⟨0, 0, 1⟩) := by
    decide +kernel
  have he : refusal? { session := .fresh } ") 3." = some (.unexpected .eof .rightParen ⟨0, 0, 1⟩) := by
    unfold refusal?
    rw [hstatus]
  have hlines : after? { session := .fresh } [] = some { session := .fresh } := rfl
  exact run_without hstart hlines hline he

end Repl

end Linefold
