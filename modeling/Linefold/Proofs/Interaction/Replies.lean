import Linefold.Proofs.Twins.Restoring
import Linefold.Repl

/-!
# Replies of the interactive program

The program answers line by line. A line of the program is taken back for an error of its own (`Repl.refusal?`), or
it is accepted and brings messages and values (`Repl.news`). Over two pools the replies are the same, but for
tables, which list the nodes of their pools (`Repl.Alike.replies`).
-/

namespace Linefold

attribute [local irreducible] Pool.intern

namespace Repl

variable {r r' : Repl} {line text : String} {lines later : List String} {e : Error}

/-! ### Lines in turn -/

/-- Each line that is answered with what is printed for it, up to the one that ends the program. -/
def replies (r : Repl) : List String → List (String × List String)
  | [] => []
  | line :: lines =>
    match r.reply line with
    | (output, .more r) => (line, output) :: r.replies lines
    | (output, _) => [(line, output)]

/-- The state after some lines, unless one of them ends the program. -/
def after? (r : Repl) : List String → Option Repl
  | [] => some r
  | line :: lines =>
    match (r.reply line).2 with
    | .more r => r.after? lines
    | _ => none

theorem answer_fst : (r.answer lines).1 = (r.replies lines).flatMap Prod.snd := by
  induction lines generalizing r with
  | nil => rfl
  | cons line lines ih =>
    unfold answer replies
    split
    · next hreply => simp only [hreply, List.flatMap_cons, ih]
    · next hreply => simp [hreply]
    · next hreply => simp [hreply]

theorem answer_append (h : r.after? lines = some r') :
    r.answer (lines ++ later) = ((r.answer lines).1 ++ (r'.answer later).1, (r'.answer later).2) := by
  induction lines generalizing r with
  | nil =>
    cases h
    rfl
  | cons line lines ih =>
    unfold after? at h
    split at h
    · next next hnext =>
      have hreply : r.reply line = ((r.reply line).1, .more next) := Prod.ext rfl hnext
      rw [List.cons_append, answer, answer, hreply]
      simp only [ih h, List.append_assoc]
    · cases h

/-! ### Lines of the program -/

/-- Why a line of the program is taken back, if it is: it is refused by the parse, or the fold of the program so far
fails, and not because of its end. -/
def refusal? (r : Repl) (text : String) : Option Error :=
  match (r.session.parseLine text).2.state.status with
  | .failed e => some e
  | _ =>
    match (r.session.parseLine text).2.finish.1 with
    | .error (.unexpected ..) => none
    | .error e => some e
    | .ok _ => none

/-- The new messages and values that come with a line. -/
def news (r : Repl) (text : String) : List String × List String :=
  match (r.session.parseLine text).2.finish with
  | (.ok outcome, copy) =>
    ((outcome.diagnostics.toList.drop r.reported).map (·.message), treeLines copy.pool (outcome.values.drop r.shown))
  | (.error _, _) => ([], [])

/-- The state after a line that is accepted. -/
def accepting (r : Repl) (text : String) : Repl :=
  match (r.session.parseLine text).2.finish.1 with
  | .ok outcome => ⟨(r.session.parseLine text).2, outcome.values.length, outcome.diagnostics.size⟩
  | .error _ => { r with session := (r.session.parseLine text).2 }

/-- The state after a line that is taken back. -/
def rejecting (r : Repl) (text : String) : Repl :=
  { r with session := (r.session.parseLine text).2.restore r.session.checkpoint }

theorem enter_of_refusal (h : r.refusal? text = some e) : r.enter text = ([errorLine e.message], r.rejecting text) := by
  unfold refusal? at h
  unfold enter showNew preview rejecting
  generalize (r.session.parseLine text).2 = s at h ⊢
  cases hstatus : s.state.status with
  | failed e' =>
    simp only [hstatus, Option.some.injEq] at h ⊢
    rw [h]
  | parsing | complete =>
    simp only [hstatus] at h ⊢
    rcases hfinish : s.finish with ⟨e' | outcome, copy⟩
    · cases e' <;> simp_all
    · simp [hfinish] at h

theorem enter_of_accepted (h : r.refusal? text = none) :
    r.enter text = ((r.news text).1.map errorLine ++ (r.news text).2, r.accepting text) := by
  unfold refusal? at h
  unfold enter showNew preview news accepting
  generalize (r.session.parseLine text).2 = s at h ⊢
  cases hstatus : s.state.status with
  | failed e' => simp [hstatus] at h
  | parsing | complete =>
    simp only [hstatus] at h ⊢
    rcases hfinish : s.finish with ⟨e' | outcome, copy⟩
    · cases e' <;> simp_all
    · simp [List.map_map, Function.comp_def]

/-! ### Replies over two pools -/

structure Alike (r r' : Repl) : Prop where
  session : r.session.Alike r'.session
  shown : r.shown = r'.shown
  reported : r.reported = r'.reported

/-- A line is answered alike: with the same output, or with tables of pools in which the root is the same tree. -/
inductive SameReply : String × List String → String × List String → Prop where
  | same (x : String × List String) : SameReply x x
  | table {line : String} {p q : Pool} {i j : NodeId} {version : String}
      (hline : (Text.typed? line).map Command.ofLine = some .showTable) (h : p.tree? i = q.tree? j) :
      SameReply (line, [(p.toTable i version).pretty]) (line, [(q.toTable j version).pretty])

inductive Next.Alike : Next → Next → Prop where
  | more {r r' : Repl} (h : r.Alike r') : Alike (.more r) (.more r')
  | quit : Alike .quit .quit
  | broken : Alike .broken .broken

theorem treeLines_eq {p q : Pool} {is js : List NodeId} (h : is.map p.tree? = js.map q.tree?) (n : Nat) :
    treeLines p (is.drop n) = treeLines q (js.drop n) := by
  have htrees (p : Pool) (is : List NodeId) : treeLines p is = (is.map p.tree?).filterMap (·.map Tree.text) := by
    rw [List.filterMap_map]
    rfl
  rw [htrees, htrees, List.map_drop, List.map_drop, h]

/-- Sessions that are alike end in outcomes with the same trees, or in errors that differ in places only. -/
theorem finish_cases {s s' : Session} (h : s.Alike s') :
    (∃ o o' c c', s.finish = (.ok o, c) ∧ s'.finish = (.ok o', c') ∧ o.trees c.pool = o'.trees c'.pool) ∨
      ∃ e e' c c', s.finish = (.error e, c) ∧ s'.finish = (.error e', c') ∧ e.bare = e'.bare := by
  have hreport := h.finish.1
  rcases hs : s.finish with ⟨e | o, c⟩ <;> rcases hs' : s'.finish with ⟨e' | o', c'⟩ <;> rw [hs, hs'] at hreport
  · exact .inr ⟨e, e', c, c', rfl, rfl, Except.error.inj hreport⟩
  · cases hreport
  · cases hreport
  · exact .inl ⟨o, o', c, c', rfl, rfl, Except.ok.inj hreport⟩

namespace Alike

theorem refusal?_eq (h : r.Alike r') (text : String) :
    (r.refusal? text).map Error.bare = (r'.refusal? text).map Error.bare := by
  have hparsed := (h.session.parseLine text).2.alike
  have hstatus := hparsed.state.status
  unfold refusal?
  generalize (r.session.parseLine text).2.state.status = left, (r'.session.parseLine text).2.state.status = right at hstatus
  rcases finish_cases hparsed with ⟨o, o', c, c', hs, hs', -⟩ | ⟨e, e', c, c', hs, hs', he⟩
  · rw [hs, hs']
    cases hstatus <;> rfl
  · rw [hs, hs']
    cases hstatus with
    | failed => rfl
    | _ => cases e <;> cases e' <;> simp_all [Error.bare]

theorem news_eq (h : r.Alike r') (text : String) : r.news text = r'.news text := by
  unfold news
  rcases finish_cases (h.session.parseLine text).2.alike with ⟨o, o', c, c', hs, hs', ho⟩ | ⟨e, e', c, c', hs, hs', -⟩
  · rw [hs, hs']
    have hdiagnostics : o.diagnostics = o'.diagnostics := congrArg Outcome.Trees.diagnostics ho
    have hvalues : o.values.map c.pool.tree? = o'.values.map c'.pool.tree? := congrArg Outcome.Trees.values ho
    simp only [h.shown, h.reported, hdiagnostics, treeLines_eq hvalues]
  · rw [hs, hs']

theorem accepting (h : r.Alike r') (text : String) : (r.accepting text).Alike (r'.accepting text) := by
  have hparsed := (h.session.parseLine text).2.alike
  unfold Repl.accepting
  rcases finish_cases hparsed with ⟨o, o', c, c', hs, hs', ho⟩ | ⟨e, e', c, c', hs, hs', -⟩
  · rw [hs, hs']
    have hdiagnostics : o.diagnostics = o'.diagnostics := congrArg Outcome.Trees.diagnostics ho
    have hvalues : o.values.map c.pool.tree? = o'.values.map c'.pool.tree? := congrArg Outcome.Trees.values ho
    exact ⟨hparsed, by simpa using congrArg List.length hvalues, congrArg Array.size hdiagnostics⟩
  · rw [hs, hs']
    exact ⟨hparsed, h.shown, h.reported⟩

theorem rejecting (h : r.Alike r') (text : String) : (r.rejecting text).Alike (r'.rejecting text) := by
  have hparsed := (h.session.parseLine text).2
  exact ⟨(hparsed.alike.restore (h.session.checkpoint.mono hparsed.grows)).alike, h.shown, h.reported⟩

theorem enter (h : r.Alike r') (text : String) :
    (r.enter text).1 = (r'.enter text).1 ∧ (r.enter text).2.Alike (r'.enter text).2 := by
  have hrefusal := h.refusal?_eq text
  cases hr : r.refusal? text with
  | none =>
    rw [hr] at hrefusal
    have hr' : r'.refusal? text = none := Option.map_eq_none_iff.1 hrefusal.symm
    rw [enter_of_accepted hr, enter_of_accepted hr', h.news_eq]
    exact ⟨rfl, h.accepting text⟩
  | some e =>
    rw [hr] at hrefusal
    obtain ⟨e', hr', he⟩ := Option.map_eq_some_iff.1 hrefusal.symm
    rw [enter_of_refusal hr, enter_of_refusal hr', ← Error.message_bare e, ← Error.message_bare e', he]
    exact ⟨rfl, h.rejecting text⟩

theorem tableLines (h : r.Alike r') (hline : (Text.typed? line).map Command.ofLine = some .showTable) :
    SameReply (line, r.tableLines) (line, r'.tableLines) := by
  unfold Repl.tableLines preview
  have hfinish := h.session.finish.2
  rcases finish_cases h.session with ⟨o, o', c, c', hs, hs', ho⟩ | ⟨e, e', c, c', hs, hs', he⟩
  · rw [hs, hs'] at hfinish ⊢
    have hconfig : c.config = c'.config := hfinish.alike.config
    simp only [Session.table, hconfig]
    exact .table hline (congrArg Outcome.Trees.root ho)
  · rw [hs, hs']
    simp only [← Error.message_bare e, ← Error.message_bare e', he]
    exact .same _

theorem perform (h : r.Alike r') {c : Command} (hc : c ≠ .showTable) :
    (r.perform c).1 = (r'.perform c).1 ∧ (r.perform c).2.Alike (r'.perform c).2 := by
  cases c with
  | help => exact ⟨rfl, .more h⟩
  | quit => exact ⟨rfl, .quit⟩
  | reset => exact ⟨rfl, .more ⟨h.session.reset.alike, rfl, rfl⟩⟩
  | showTable => exact absurd rfl hc
  | enter text =>
    obtain ⟨houtput, hnext⟩ := h.enter text
    exact ⟨houtput, .more hnext⟩

theorem reply (h : r.Alike r') (line : String) :
    SameReply (line, (r.reply line).1) (line, (r'.reply line).1) ∧ (r.reply line).2.Alike (r'.reply line).2 := by
  unfold Repl.reply
  cases htyped : Text.typed? line with
  | none => exact ⟨.same _, .broken⟩
  | some text =>
    simp only
    by_cases hc : Command.ofLine text = .showTable
    · rw [hc]
      have hline : (Text.typed? line).map Command.ofLine = some .showTable := by rw [htyped, Option.map_some, hc]
      exact ⟨h.tableLines hline, .more h⟩
    · obtain ⟨houtput, hnext⟩ := h.perform hc
      rw [houtput]
      exact ⟨.same _, hnext⟩

theorem replies (h : r.Alike r') (lines : List String) : List.Forall₂ SameReply (r.replies lines) (r'.replies lines) := by
  induction lines generalizing r r' with
  | nil => exact .nil
  | cons line lines ih =>
    obtain ⟨hsame, hnext⟩ := h.reply line
    unfold Repl.replies
    generalize r.reply line = left, r'.reply line = right at hsame hnext ⊢
    obtain ⟨output, next⟩ := left
    obtain ⟨output', next'⟩ := right
    cases hnext with
    | more hnext => exact .cons hsame (ih hnext)
    | _ => exact .cons hsame .nil

theorem code_eq (h : r.Alike r') (lines : List String) : (r.answer lines).2 = (r'.answer lines).2 := by
  induction lines generalizing r r' with
  | nil => rfl
  | cons line lines ih =>
    obtain ⟨-, hnext⟩ := h.reply line
    unfold answer
    generalize r.reply line = left, r'.reply line = right at hnext ⊢
    obtain ⟨output, next⟩ := left
    obtain ⟨output', next'⟩ := right
    cases hnext with
    | more hnext => exact ih hnext
    | _ => rfl

end Alike

/-! ### States that can be reached -/

/-- What a fresh program has refers to no nodes. -/
theorem alike_of_start {config : Option Source} (h : start config = .ok r) : r.Alike r := by
  unfold start at h
  split at h
  · cases h
  · split at h
    · cases h
    · next hs =>
      cases h
      exact ⟨Session.alike_of_ofConfig hs, rfl, rfl⟩

theorem Alike.after (h : r.Alike r) (hr : r.after? lines = some r') : r'.Alike r' := by
  induction lines generalizing r with
  | nil =>
    cases hr
    exact h
  | cons line lines ih =>
    obtain ⟨-, hnext⟩ := h.reply line
    unfold after? at hr
    generalize (r.reply line).2 = next at hr hnext
    cases hnext with
    | more hnext => exact ih hnext hr
    | _ => cases hr

end Repl

end Linefold
