import Linefold.Proofs.Folding.Limited
import Linefold.Proofs.Places.Parsing
import Linefold.Proofs.Respacing.Texts
import Linefold.Proofs.Wholeness.Hosts

/-!
# Where an error points

A `Draft` records what a host has entered by whole lines: the lines that stand, and those that a return to a
checkpoint or a new start has undone. Places stay with the pool, and so a case that is entered again after it was
undone keeps the place where it stood first. An error about a case that no clause is left for points to a
`case` or `if` that stands, or else to one that was undone after its `end` had been read (`Host.run_points`).
-/

namespace Linefold

attribute [local irreducible] Pool.intern

/-! ### Drafts -/

/-- What a host does with whole lines. -/
inductive Edit where
  | line (text : String)
  | finish
  | reset
  | checkpoint
  | restore (i : Nat)

def Edit.action : Edit → Action
  | line text => .line text
  | finish => .finish
  | reset => .reset
  | checkpoint => .checkpoint
  | restore i => .restore i

/-- The lines of a text that is being entered. -/
structure Draft where
  /-- The lines since the last new start that have not been undone. -/
  lines : List String
  /-- The lines that were undone, with their numbers. -/
  undone : List (String × Nat)
  /-- The lines that stood when each of the checkpoints was kept. -/
  kept : List (List String)

namespace Draft

def blank : Draft := ⟨[], [], []⟩

/-- The number of lines that two texts have in common from the start. -/
def agreed : List String → List String → Nat
  | a :: as, b :: bs => if a = b then agreed as bs + 1 else 0
  | _, _ => 0

/-- Goes back to other lines. -/
def back (d : Draft) (lines : List String) : Draft :=
  { d with lines, undone := d.undone ++ d.lines.zipIdx.drop (agreed d.lines lines) }

def enter (d : Draft) (text : String) : Draft := { d with lines := d.lines ++ [text] }

def edit (d : Draft) : Edit → Draft
  | .line text => d.enter text
  | .finish => d
  | .reset => d.back []
  | .checkpoint => { d with kept := d.kept ++ [d.lines] }
  | .restore i =>
    match d.kept[i]? with
    | some lines => d.back lines
    | none => d

def after (d : Draft) (edits : List Edit) : Draft := edits.foldl edit d

end Draft

/-- The numbered line has a token of one of the kinds at the place. -/
def HasToken (g : Scope) (kinds : List TokenKind) (span : Span) (line : String × Nat) : Prop :=
  ∃ t ∈ (Scanner.ofText line.2 line.1).tokens g, t.kind ∈ kinds ∧ t.span = span

/-- A `case` or an `if` stands at the place in one of the lines. -/
def Opening (g : Scope) (lines : List (String × Nat)) (span : Span) : Prop :=
  ∃ line ∈ lines, HasToken g [.keyCase, .keyIf] span line

/-- There is an `end` in one of the lines. -/
def Ending (g : Scope) (lines : List (String × Nat)) : Prop :=
  ∃ line ∈ lines, ∃ t ∈ (Scanner.ofText line.2 line.1).tokens g, t.kind = .keyEnd

instance {g : Scope} {kinds : List TokenKind} {span : Span} {line : String × Nat} :
    Decidable (HasToken g kinds span line) :=
  inferInstanceAs (Decidable (∃ _ ∈ _, _))

instance {g : Scope} {lines : List (String × Nat)} {span : Span} : Decidable (Opening g lines span) :=
  inferInstanceAs (Decidable (∃ _ ∈ _, _))

instance {g : Scope} {lines : List (String × Nat)} : Decidable (Ending g lines) :=
  inferInstanceAs (Decidable (∃ _ ∈ _, _))

section

variable {g : Scope} {d : Draft} {a b : List String} {text : String} {span : Span} {n : Nat}
  {lines lines' rest : List (String × Nat)}

theorem Opening.mono (h : Opening g lines span) (hsub : ∀ line ∈ lines, line ∈ lines') : Opening g lines' span :=
  h.imp fun line hline => ⟨hsub line hline.1, hline.2⟩

theorem opening_append : Opening g (lines ++ rest) span ↔ Opening g lines span ∨ Opening g rest span := by
  simp only [Opening, List.mem_append, or_and_right, exists_or]

theorem Ending.mono (h : Ending g lines) (hsub : ∀ line ∈ lines, line ∈ lines') : Ending g lines' :=
  h.imp fun line hline => ⟨hsub line hline.1, hline.2⟩

/-! ### Places in a draft -/

/-- A `case` or an `if` stands at the place, and an `end` in the same line or a later one. -/
def Closed (g : Scope) (lines : List (String × Nat)) (span : Span) : Prop :=
  ∃ first line, first ++ [line] <+: lines ∧ Opening g (first ++ [line]) span ∧ Ending g [line]

theorem Closed.mono (h : Closed g lines span) (hbegins : lines <+: lines') : Closed g lines' span :=
  h.imp fun _ h => h.imp fun _ h => ⟨h.1.trans hbegins, h.2⟩

theorem Closed.opening (h : Closed g lines span) : Opening g lines span := by
  obtain ⟨first, line, hbegins, hopening, -⟩ := h
  exact hopening.mono fun _ hline => hbegins.subset hline

/-- What is closed is closed before a line, or the line with the `end` is among those from there on. -/
theorem Closed.split (h : Closed g (lines ++ rest) span) : Closed g lines span ∨ Ending g rest := by
  obtain ⟨first, line, hbegins, hopening, hend⟩ := h
  rcases Nat.lt_or_ge lines.length (first ++ [line]).length with hlong | hshort
  · refine .inr (hend.mono fun l hl => ?_)
    obtain ⟨first', rfl⟩ : lines <+: first := by
      refine List.prefix_of_prefix_length_le (List.prefix_append lines rest) ?_ ?_
      · exact (List.prefix_append first [line]).trans hbegins
      · simpa using Nat.lt_succ_iff.1 (by simpa using hlong)
    rw [List.append_assoc, List.prefix_append_right_inj] at hbegins
    exact hbegins.subset (List.mem_append_right _ hl)
  · exact .inl ⟨first, line, List.prefix_of_prefix_length_le hbegins (List.prefix_append lines rest) hshort, hopening,
      hend⟩

/-- Where a case may have its place: it stands there, or its `end` is undone and perhaps more of it. -/
def Draft.Place (g : Scope) (d : Draft) (span : Span) : Prop :=
  Closed g d.lines.zipIdx span ∨
    Ending g d.undone ∧ (Opening g d.lines.zipIdx span ∨ Opening g d.undone span)

namespace Draft

theorem zipIdx_take_agreed : (a.zipIdx n).take (agreed a b) <+: b.zipIdx n := by
  induction a generalizing b n with
  | nil => cases b <;> exact List.nil_prefix
  | cons x a ih =>
    cases b with
    | nil => exact List.nil_prefix
    | cons y b =>
      unfold agreed
      split
      · next h =>
        subst h
        exact List.prefix_cons_inj _ |>.2 ih
      · exact List.nil_prefix

theorem zipIdx_enter : (d.enter text).lines.zipIdx = d.lines.zipIdx ++ [(text, d.lines.length)] := by
  rw [enter, List.zipIdx_append]
  simp

theorem Place.enter (h : d.Place g span) (text : String) : (d.enter text).Place g span := by
  have hbegins : d.lines.zipIdx <+: (d.enter text).lines.zipIdx := by
    rw [zipIdx_enter]
    exact List.prefix_append ..
  rcases h with h | ⟨hend, h⟩
  · exact .inl (h.mono hbegins)
  · exact .inr ⟨hend, h.imp_left fun h => h.mono fun _ hline => hbegins.subset hline⟩

/-- What is taken back with the lines is undone. -/
theorem Place.back (h : d.Place g span) (lines : List String) : (d.back lines).Place g span := by
  have hsplit := List.take_append_drop (agreed d.lines lines) d.lines.zipIdx
  have hbegins : d.lines.zipIdx.take (agreed d.lines lines) <+: lines.zipIdx := zipIdx_take_agreed
  have hopening (h : Opening g d.lines.zipIdx span) :
      Opening g lines.zipIdx span ∨ Opening g (d.back lines).undone span := by
    rw [← hsplit, opening_append] at h
    exact h.imp (fun h => h.mono fun _ hline => hbegins.subset hline) fun h => opening_append.2 (.inr h)
  rcases h with h | ⟨hend, h⟩
  · have hopen := hopening h.opening
    rw [← hsplit] at h
    rcases h.split with h | h
    · exact .inl (h.mono hbegins)
    · exact .inr ⟨h.mono fun _ hline => List.mem_append_right _ hline, hopen⟩
  · refine .inr ⟨hend.mono fun _ hline => List.mem_append_left _ hline, ?_⟩
    exact h.elim hopening fun h => .inr (opening_append.2 (.inl h))

end Draft

end

/-! ### Sessions and drafts -/

namespace Session

variable {g : Scope} {P O : Span → Prop} {s : Session} {ts : List Token}

/-- The places of cases are among those that `P` allows, and the parse is suspended in constructs whose keywords
stand where `O` says. -/
structure Places (g : Scope) (P O : Span → Prop) (s : Session) : Prop where
  whole : s.Whole
  words : s.Respaced g s
  pool : s.pool.Placed P
  opened : s.state.Opened O

namespace Places

theorem step {t : Token} (h : s.Places g P O) (hplain : t.Plain g) (hopens : ParseM.OpensAt O t)
    (hcloses : ParseM.EndsAt P O t) : (s.step t).2.Places g P O := by
  obtain ⟨hpool, hopened⟩ := h.opened.step h.whole.state.conts h.pool hopens hcloses
  exact ⟨h.whole.step.whole, h.words.step (.refl g t) hplain, hpool, hopened⟩

theorem feedAll (h : s.Places g P O) (hplain : ∀ t ∈ ts, t.Plain g) (hopens : ∀ t ∈ ts, ParseM.OpensAt O t)
    (hcloses : ∀ t ∈ ts, ParseM.EndsAt P O t) : (s.feedAll ts).Places g P O := by
  induction ts generalizing s with
  | nil => exact h
  | cons t ts ih =>
    obtain ⟨ht, hplain⟩ := List.forall_mem_cons.1 hplain
    obtain ⟨hopen, hopens⟩ := List.forall_mem_cons.1 hopens
    obtain ⟨hclose, hcloses⟩ := List.forall_mem_cons.1 hcloses
    exact ih (h.step ht hopen hclose) hplain hopens hcloses

theorem close (h : s.Places g P O) : s.close.Places g P O := by
  unfold Session.close
  split
  · exact h.step nofun (by simp [ParseM.OpensAt, Token.eof]) (by simp [ParseM.EndsAt, Token.eof])
  · exact h

theorem withPool {p : Pool} (h : s.Places g P O) (hgrows : s.pool.Accrues p) (hp : p.Whole) :
    Places g P O { s with pool := p } :=
  ⟨(h.whole.withPool hgrows.keeps hp).whole, ⟨h.words.config, .refl p, h.words.state⟩, h.pool.accrues hgrows, h.opened⟩

/-- The place that the end of a text tells is that of a case in the pool. -/
theorem finish (h : s.Places g P O) : s.finish.2.Places g P O ∧
    ∀ text span, s.finish.1 = .error (.nonExhaustiveCase text (some span)) → P span := by
  have hclose := h.close
  by_cases hfailed : ∃ e, s.close.state.status = .failed e
  · obtain ⟨e, he⟩ := hfailed
    rw [finish_of_failed he]
    refine ⟨hclose, fun text span hspan => ?_⟩
    cases hspan
    cases hclose.opened.failed _ he
  · rw [finish_of_ne_failed fun e he => hfailed ⟨e, he⟩]
    have hm : (Machine.ofPool s.close.pool s.close.state.env).Whole :=
      ⟨⟨hclose.whole.pool, nofun⟩, hclose.whole.state.env⟩
    have hwhole := hm.fold s.close.state.root
    have hfold := (Machine.ofPool s.close.pool s.close.state.env).fold_accrues s.close.state.root
    generalize (Machine.ofPool s.close.pool s.close.state.env).fold s.close.state.root = folded at hwhole hfold ⊢
    cases folded with
    | ok root m => exact ⟨hclose.withPool hfold hwhole.2.values.pool, nofun⟩
    | error e m =>
      obtain ⟨hgrows, hcase⟩ := hfold
      have hend := hclose.withPool hgrows hwhole.2.values.pool
      refine ⟨hend, fun text span hspan => ?_⟩
      cases hspan
      obtain ⟨id, es, hid, hcoord⟩ := hcase
      obtain ⟨n, hn, hplace⟩ := hend.pool id span hcoord
      cases hid.symm.trans hn
      exact hplace rfl

end Places

theorem line_finish (s : Session) : s.finish.2.line = s.line := by
  have hclose : s.close.line = s.line := by
    unfold close
    split <;> rfl
  by_cases hfailed : ∃ e, s.close.state.status = .failed e
  · obtain ⟨e, he⟩ := hfailed
    rw [finish_of_failed he, hclose]
  · rw [finish_of_ne_failed fun e he => hfailed ⟨e, he⟩]
    split <;> exact hclose

end Session

namespace Host

variable {g : Scope} {d : Draft} {h : Host}

/-- A checkpoint of a parse of the lines. -/
structure Keeps (g : Scope) (c : Checkpoint) (lines : List String) : Prop where
  line : c.line = lines.length
  words : c.state.Respaced g c.state
  opened : c.state.Opened (Opening g lines.zipIdx)

/-- The draft records what the host has entered. -/
structure Records (g : Scope) (d : Draft) (h : Host) : Prop where
  reachable : h.Reachable
  globals : h.session.env.globals = g
  session : h.session.Places g (d.Place g) (Opening g d.lines.zipIdx)
  line : h.session.line = d.lines.length
  kept : List.Forall₂ (Keeps g) h.kept d.kept

theorem records_start {config : Config} {s : Session} (hs : Session.ofConfig config = .ok s) :
    Records s.env.globals .blank ⟨s, []⟩ := by
  have hwhole := Session.whole_of_ofConfig hs
  have hstart := Reachable.start hs
  unfold Session.ofConfig Except.map at hs
  split at hs
  · cases hs
  · next env henv =>
    cases hs
    refine ⟨hstart, rfl, ⟨hwhole, ?_, Pool.placed_empty, ?_⟩, rfl, .nil⟩
    · exact ⟨rfl, .refl _, .initial fun _ => rfl⟩
    · exact ParseState.opened_initial

/-- A line is read as its tokens; what opens a construct in it, or closes one, stands in the line. -/
theorem Records.places_parseLine (hr : h.Records g d) (text : String) :
    (h.session.parseLine text).2.Places g ((d.enter text).Place g) (Opening g (d.enter text).lines.zipIdx) := by
  have hstart : h.session.Places g ((d.enter text).Place g) (Opening g (d.enter text).lines.zipIdx) := by
    refine ⟨hr.session.whole, hr.session.words, hr.session.pool.mono fun _ h => h.enter text, ?_⟩
    refine hr.session.opened.mono fun span hspan => ?_
    rw [Draft.zipIdx_enter]
    exact opening_append.2 (.inl hspan)
  have hfed : Session.Places g ((d.enter text).Place g) (Opening g (d.enter text).lines.zipIdx)
      (h.session.feedAll ((Scanner.ofText h.session.line text).tokens g)) := by
    rw [hr.line]
    refine hstart.feedAll (fun t => Scanner.plain_of_mem_tokens) (fun t ht hopen => ?_) fun t ht hclose span hspan => ?_
    · rw [Draft.zipIdx_enter]
      exact opening_append.2 (.inr ⟨_, .head _, t, ht, by simpa using hopen, rfl⟩)
    · rw [Draft.zipIdx_enter] at hspan
      exact .inl ⟨d.lines.zipIdx, _, Draft.zipIdx_enter ▸ List.prefix_rfl, hspan, _, .head _, t, ht, hclose⟩
  rw [← Session.feed_eq hr.session.words] at hfed
  exact ⟨⟨hfed.whole.pool, hfed.whole.env, hfed.whole.state⟩, ⟨hfed.words.config, hfed.words.pool, hfed.words.state⟩,
    hfed.pool, hfed.opened⟩

theorem Records.line_parseLine (hr : h.Records g d) (text : String) :
    (h.session.parseLine text).2.line = (d.enter text).lines.length := by
  show (h.session.feed _).2.line + 1 = _
  rw [Session.feed_eq hr.session.words, Session.line_feedAll, hr.line, Draft.enter, List.length_append]
  rfl

/-- Going back keeps the pool; what is taken back is noted. -/
theorem Records.places_back (hr : h.Records g d) {lines : List String} {state : ParseState} {line : Nat}
    (hwhole : Session.Whole { h.session with state, line }) (hwords : state.Respaced g state)
    (hopened : state.Opened (Opening g lines.zipIdx)) :
    Session.Places g ((d.back lines).Place g) (Opening g lines.zipIdx) { h.session with state, line } :=
  ⟨hwhole, ⟨rfl, .refl _, hwords⟩, hr.session.pool.mono fun _ h => h.back lines, hopened⟩

theorem Records.edit (hr : h.Records g d) (e : Edit) : (h.act e.action).2.Records g (d.edit e) := by
  have hreachable := hr.reachable.act e.action
  have henv : (h.act e.action).2.session.env = h.session.env := (hr.reachable.alike.act e.action).2.2.env
  have hglobals : (h.act e.action).2.session.env.globals = g := henv ▸ hr.globals
  have hwhole := hreachable.whole.session
  cases e with
  | line text => exact ⟨hreachable, hglobals, hr.places_parseLine text, hr.line_parseLine text, hr.kept⟩
  | finish => exact ⟨hreachable, hglobals, hr.session.finish.1, h.session.line_finish.trans hr.line, hr.kept⟩
  | reset =>
    have hwords : (ParseState.initial h.session.env).Respaced g (.initial h.session.env) :=
      .initial fun name => by rw [hr.globals]
    exact ⟨hreachable, hglobals, hr.places_back hwhole hwords ParseState.opened_initial, rfl, hr.kept⟩
  | checkpoint =>
    have hkeeps : Keeps g h.session.checkpoint d.lines := ⟨hr.line, hr.session.words.state, hr.session.opened⟩
    exact ⟨hreachable, hglobals, hr.session, hr.line, List.rel_append hr.kept (.cons hkeeps .nil)⟩
  | restore i =>
    have hc := getElem?_rel hr.kept i
    generalize hk : h.kept[i]? = left, hd : d.kept[i]? = right at hc
    cases hc with
    | none =>
      simp only [Edit.action, Host.act, hk, Draft.edit, hd]
      exact hr
    | some hc =>
      simp only [Edit.action, Host.act, hk, Draft.edit, hd] at hreachable hglobals hwhole ⊢
      exact ⟨hreachable, hglobals, hr.places_back hwhole hc.words hc.opened, hc.line, hr.kept⟩

theorem Records.run (hr : h.Records g d) (edits : List Edit) :
    (h.run (edits.map Edit.action)).2.Records g (d.after edits) := by
  induction edits generalizing h d with
  | nil => exact hr
  | cons e edits ih => exact ih (hr.edit e)

/-- The place that an error about a case tells is that of a `case` or an `if` that stands, or of one that was undone,
and then an `end` was undone, too. -/
theorem run_points {config : Config} {s : Session} (hs : Session.ofConfig config = .ok s) (edits : List Edit)
    {text : String} {span : Span}
    (hfinish : ((Host.mk s []).run (edits.map Edit.action)).2.session.finish.1 =
      .error (.nonExhaustiveCase text (some span))) :
    Opening s.env.globals (Draft.blank.after edits).lines.zipIdx span ∨
      Opening s.env.globals (Draft.blank.after edits).undone span ∧
        Ending s.env.globals (Draft.blank.after edits).undone := by
  have hplace := ((records_start hs).run edits).session.finish.2 text span hfinish
  rcases hplace with h | ⟨hend, h | h⟩
  · exact .inl h.opening
  · exact .inl h
  · exact .inr ⟨h, hend⟩

/-! ### A place that is left behind -/

theorem finish_of_foldWithin {s : Session} {n : Nat} {e : Error} (hnot : ∀ e, s.close.state.status ≠ .failed e)
    (h : (Machine.foldWithin n (.ofPool s.close.pool s.close.state.env) s.close.state.root).bind Machine.failure? = some e) :
    s.finish.1 = .error e := by
  obtain ⟨k, hfold⟩ := Machine.exists_of_failure? h
  rw [Session.finish_of_ne_failed hnot, hfold]

/-- A case is entered, taken back and entered again two columns further on. -/
def indented : List Edit :=
  [.checkpoint, .line "case 1 of 2: 3 end.", .restore 0, .line "  case 1 of 2: 3 end."]

theorem finish_indented : ((Host.mk .fresh []).run (indented.map Edit.action)).2.session.finish.1 =
    .error (.nonExhaustiveCase "1" (some ⟨0, 0, 4⟩)) := by
  have hstatus : ((Host.mk .fresh []).run (indented.map Edit.action)).2.session.close.state.status = .complete 8 := by
    decide +kernel
  exact finish_of_foldWithin (n := 60) (by simp [hstatus]) (by decide +kernel)

theorem run_points_indented : ((Host.mk .fresh []).run (indented.map Edit.action)).2.session.finish.1 =
      .error (.nonExhaustiveCase "1" (some ⟨0, 0, 4⟩)) ∧
    (Opening Environment.initial.globals (Draft.blank.after indented).lines.zipIdx ⟨0, 0, 4⟩ ∨
      Opening Environment.initial.globals (Draft.blank.after indented).undone ⟨0, 0, 4⟩ ∧
        Ending Environment.initial.globals (Draft.blank.after indented).undone) := by
  have hs : Session.ofConfig {} = .ok .fresh := rfl
  exact ⟨finish_indented, run_points hs indented finish_indented⟩

/-- The error points to where the case stood first, although it stands elsewhere now. -/
theorem points_elsewhere : ((Host.mk .fresh []).run (indented.map Edit.action)).2.session.finish.1 =
      .error (.nonExhaustiveCase "1" (some ⟨0, 0, 4⟩)) ∧
    (Draft.blank.after indented).lines = ["  case 1 of 2: 3 end."] ∧
    ¬ Opening Environment.initial.globals (Draft.blank.after indented).lines.zipIdx ⟨0, 0, 4⟩ ∧
    Opening Environment.initial.globals (Draft.blank.after indented).lines.zipIdx ⟨0, 2, 6⟩ :=
  ⟨finish_indented, by decide +kernel, by decide +kernel, by decide +kernel⟩

end Host

end Linefold
