import Linefold.Proofs.Arithmetic.Computed
import Linefold.Proofs.Folding.Limited
import Linefold.Proofs.Interaction.Rollback
import Linefold.Proofs.Wholeness.Hosts

/-!
# What is shown of the values

Each line folds the whole program so far, and of its values those are shown that come after as many as were shown before.
What has been shown are the values of the program so far exactly if each of its complete parts begins with the values of
the one before it (`Repl.Shows`). A function at the end of a line takes the values on the next one, so this may fail.
-/

namespace Linefold

/-! ### Values of a program -/

namespace Pool

variable {p : Pool} {id root : NodeId} {ids : List NodeId}

/-- Without holes every node is a tree. -/
theorem Whole.exists_tree (h : p.Whole) (hid : p.Has id) : ∃ t, p.tree? id = some t := by
  induction id using Nat.strongRecOn with
  | ind id ih =>
    obtain ⟨n, hn⟩ := hid
    cases n with
    | branch t es =>
      have hes : ∃ ts, p.HasTrees es ts := by
        refine ⟨es.map fun e => (p.tree? e).getD .null, List.forall₂_map_right_iff.2 (List.forall₂_same.2 fun e he => ?_)⟩
        obtain ⟨u, hu⟩ := ih e (h.child hn e he).2 (h.has hn e he)
        rw [hu, Option.getD_some]
      obtain ⟨ts, hts⟩ := hes
      exact ⟨.node t ts, tree?_eq_node_iff.2 ⟨es, hn, hts⟩⟩
    | num x => exact ⟨_, (tree?_eq_leaf_iff rfl).2 hn⟩
    | str s => exact ⟨_, (tree?_eq_leaf_iff rfl).2 hn⟩
    | ident s => exact ⟨_, (tree?_eq_leaf_iff rfl).2 hn⟩
    | bool b => exact ⟨_, (tree?_eq_leaf_iff rfl).2 hn⟩
    | null => exact ⟨_, (tree?_eq_leaf_iff rfl).2 hn⟩

theorem Whole.topValues (h : p.Whole) : ∀ id ∈ Session.topValues p root, p.Has id := by
  unfold Session.topValues
  split
  · split
    · next hn => exact h.has hn
    · nofun
  · nofun

/-- Without holes there is a line for each value. -/
theorem Whole.treeLines_eq (h : p.Whole) (hids : ∀ id ∈ ids, p.Has id) :
    treeLines p ids = ids.map fun id => ((p.tree? id).map Tree.text).getD "" := by
  induction ids with
  | nil => rfl
  | cons id ids ih =>
    obtain ⟨t, ht⟩ := h.exists_tree (hids id List.mem_cons_self)
    have hrest : treeLines p ids = _ := ih fun i hi => hids i (List.mem_cons_of_mem _ hi)
    rw [List.map_cons, ← hrest, treeLines, List.filterMap_cons, ht]
    rfl

end Pool

namespace Session

/-- The lines for the values of the program, if it is complete and folds. -/
def valueLines? (s : Session) : Option (List String) :=
  match s.finish with
  | (.ok outcome, copy) => some (treeLines copy.pool outcome.values)
  | (.error _, _) => none

variable {s s' : Session} {config : Config} {o : Outcome} {c : Session} {lines : List String} {n : Nat}

theorem topValues_of_finish (h : s.finish = (.ok o, c)) : o.values = topValues c.pool o.root := by
  by_cases hfailed : ∃ e, s.close.state.status = .failed e
  · obtain ⟨e, he⟩ := hfailed
    rw [finish_of_failed he] at h
    cases h
  · rw [finish_of_ne_failed fun e he => hfailed ⟨e, he⟩] at h
    split at h
    · cases h
      rfl
    · cases h

theorem parseLines_append (s : Session) (lines later : List String) :
    s.parseLines (lines ++ later) = (s.parseLines lines).parseLines later :=
  List.foldl_append

theorem whole_parseLines (h : s.Whole) : (s.parseLines lines).Whole := by
  induction lines generalizing s with
  | nil => exact h
  | cons line lines ih => exact ih (h.parseLine line).whole

/-- The lines for the values of a program that is complete, where its fold ends within a number of steps. -/
def valueLinesWithin? (n : Nat) (s : Session) : Option (List String) :=
  match s.close.state.status with
  | .complete _ =>
    match Machine.foldWithin n (.ofPool s.close.pool s.close.state.env) s.close.state.root with
    | some (.ok root m) => some (treeLines m.values.pool (topValues m.values.pool root))
    | _ => none
  | _ => none

theorem valueLines?_of_within {vs : List String} (h : valueLinesWithin? n s = some vs) : s.valueLines? = some vs := by
  unfold valueLinesWithin? at h
  split at h
  · next hstatus =>
    split at h
    · next hfold =>
      have hnot : ∀ e, s.close.state.status ≠ .failed e := by
        rw [hstatus]
        nofun
      unfold valueLines?
      rw [finish_of_ne_failed hnot, Machine.fold_of_foldWithin hfold]
      exact h
    · cases h
  · cases h

/-- Nothing has no values. -/
theorem valueLines?_of_ofConfig (h : ofConfig config = .ok s) : s.valueLines? = some [] := by
  unfold ofConfig Except.map at h
  split at h
  · cases h
  · cases h
    exact valueLines?_of_within (n := 8) rfl

end Session

namespace Repl

variable {config : Option Source} {r : Repl} {s : Session} {text : String} {lines texts buffer : List String} {vs : List String}

/-! ### Lines of the program in turn -/

/-- The line is no command, and is entered as the text. -/
def Enters (line text : String) : Prop := (Text.typed? line).map Command.ofLine = some (.enter text)

instance (line text : String) : Decidable (Enters line text) := inferInstanceAs (Decidable (_ = _))

/-- What is printed for a line of the program: lines for errors, and lines for values. -/
def saying (r : Repl) (text : String) : List String × List String :=
  match r.refusal? text with
  | some e => ([errorLine e.message], [])
  | none => ((r.news text).1.map errorLine, (r.news text).2)

/-- What is printed for each line. -/
def sayings (r : Repl) : List String → List (List String × List String)
  | [] => []
  | text :: texts => r.saying text :: (r.enter text).2.sayings texts

/-- The lines of the values that have been shown. -/
def valuesShown (r : Repl) (texts : List String) : List String := (r.sayings texts).flatMap Prod.snd

/-- The lines that are not taken back. -/
def accepted (r : Repl) : List String → List String
  | [] => []
  | text :: texts =>
    match r.refusal? text with
    | some _ => (r.enter text).2.accepted texts
    | none => text :: (r.enter text).2.accepted texts

theorem enter_fst : (r.enter text).1 = (r.saying text).1 ++ (r.saying text).2 := by
  unfold saying
  cases he : r.refusal? text with
  | some e => rw [enter_of_refusal he, List.append_nil]
  | none => rw [enter_of_accepted he]

theorem answer_of_enters (h : List.Forall₂ Enters lines texts) :
    r.answer lines = ((r.sayings texts).flatMap fun said => said.1 ++ said.2, 0) := by
  induction h generalizing r with
  | nil => rfl
  | cons hline _ ih =>
    rw [answer_cons_enter hline, ih, enter_fst]
    rfl

theorem sayings_grows {entered : List String} (h : entered <+: texts) : r.sayings entered <+: r.sayings texts := by
  obtain ⟨later, rfl⟩ := h
  induction entered generalizing r with
  | nil => exact List.nil_prefix
  | cons text entered ih => exact List.cons_prefix_cons.2 ⟨rfl, ih⟩

theorem valuesShown_grows {entered : List String} (h : entered <+: texts) :
    r.valuesShown entered <+: r.valuesShown texts := by
  obtain ⟨later, hlater⟩ := sayings_grows (r := r) h
  exact ⟨later.flatMap Prod.snd, by rw [valuesShown, valuesShown, ← hlater, List.flatMap_append]⟩

/-- The first lines that are accepted are those of the first lines. -/
theorem exists_prefix_of_accepted (h : buffer <+: r.accepted texts) :
    ∃ entered, entered <+: texts ∧ r.accepted entered = buffer := by
  induction texts generalizing r buffer with
  | nil => exact ⟨[], List.nil_prefix, (List.prefix_nil.1 h).symm⟩
  | cons text texts ih =>
    cases he : r.refusal? text with
    | some e =>
      simp only [accepted, he] at h
      obtain ⟨entered, hentered, haccepted⟩ := ih h
      exact ⟨text :: entered, List.cons_prefix_cons.2 ⟨rfl, hentered⟩, by simp only [accepted, he, haccepted]⟩
    | none =>
      simp only [accepted, he] at h
      rcases buffer with _ | ⟨first, buffer⟩
      · exact ⟨[], List.nil_prefix, rfl⟩
      · obtain ⟨rfl, hbuffer⟩ := List.cons_prefix_cons.1 h
        obtain ⟨entered, hentered, haccepted⟩ := ih hbuffer
        exact ⟨first :: entered, List.cons_prefix_cons.2 ⟨rfl, hentered⟩, by simp only [accepted, he, haccepted]⟩

/-! ### One line -/

theorem status_of_finish {c : Session} {o : Outcome} (h : s.finish = (.ok o, c)) (e : Error) : s.state.status ≠ .failed e := by
  intro hstatus
  have hclose : s.close = s := by
    unfold Session.close
    rw [hstatus]
  rw [Session.finish_of_failed (hclose.symm ▸ hstatus)] at h
  cases h

theorem refusal?_of_finish {c : Session} {o : Outcome} (h : (r.session.parseLine text).2.finish = (.ok o, c)) :
    r.refusal? text = none := by
  have hstatus := status_of_finish h
  unfold refusal?
  split
  · next e he => exact absurd he (hstatus e)
  · rw [h]

/-- The values that come with a line are those of the program so far beyond the ones that were shown. -/
theorem news_of_valueLines? (h : r.session.Alike s) (hs : s.Whole) (hvs : (s.parseLine text).2.valueLines? = some vs) :
    r.refusal? text = none ∧ (r.news text).2 = vs.drop r.shown ∧ (r.accepting text).shown = vs.length := by
  unfold Session.valueLines? at hvs
  rcases finish_cases (h.parseLine text).2.alike with ⟨o, o', c, c', ho, ho', htrees⟩ | ⟨e, e', c, c', -, he', -⟩
  · rw [ho'] at hvs
    obtain rfl := Option.some.inj hvs
    have hvalues : o.values.map c.pool.tree? = o'.values.map c'.pool.tree? := congrArg Outcome.Trees.values htrees
    have hfinish := (hs.parseLine text).whole.finish.whole.pool
    rw [ho'] at hfinish
    have hhas : ∀ id ∈ o'.values, c'.pool.Has id := Session.topValues_of_finish ho' ▸ hfinish.topValues
    refine ⟨refusal?_of_finish ho, ?_, ?_⟩
    · simp only [news, ho]
      rw [treeLines_eq hvalues, hfinish.treeLines_eq hhas, ← List.map_drop]
      exact hfinish.treeLines_eq fun id hid => hhas id (List.mem_of_mem_drop hid)
    · simp only [accepting, ho]
      rw [hfinish.treeLines_eq hhas, List.length_map]
      simpa using congrArg List.length hvalues
  · rw [he'] at hvs
    cases hvs

theorem news_of_none (h : r.session.Alike s) (hvs : (s.parseLine text).2.valueLines? = none) :
    (r.news text).2 = [] ∧ (r.accepting text).shown = r.shown := by
  unfold Session.valueLines? at hvs
  rcases finish_cases (h.parseLine text).2.alike with ⟨o, o', c, c', -, ho', -⟩ | ⟨e, e', c, c', he, -, -⟩
  · rw [ho'] at hvs
    cases hvs
  · simp only [news, accepting, he]
    exact ⟨trivial, trivial⟩

/-! ### Programs that grow -/

/-- Each complete part of the program has the values of the one before it, and perhaps more. -/
def Accumulates (s : Session) (buffer : List String) : Prop :=
  ∀ part whole, part <+: whole → whole <+: buffer → ∀ vs ws,
    (s.parseLines part).valueLines? = some vs → (s.parseLines whole).valueLines? = some ws → vs <+: ws

/-- At any time at which the program so far is complete, what has been shown are its values. -/
def Shows (r : Repl) (texts : List String) : Prop :=
  ∀ entered, entered <+: texts → ∀ vs,
    (r.session.parseLines (r.accepted entered)).valueLines? = some vs → r.valuesShown entered = vs

/-- Where the program stands: the session is as after the lines that were accepted, and what was shown are the values of the
last complete part. -/
structure Stands (s : Session) (r : Repl) (buffer shown : List String) : Prop where
  session : r.session.Alike (s.parseLines buffer)
  count : r.shown = shown.length
  last : ∃ part, part <+: buffer ∧ (s.parseLines part).valueLines? = some shown
  current : ∀ vs, (s.parseLines buffer).valueLines? = some vs → shown = vs

theorem parseLines_concat (s : Session) (buffer : List String) (text : String) :
    s.parseLines (buffer ++ [text]) = ((s.parseLines buffer).parseLine text).2 := by
  rw [Session.parseLines_append]
  rfl

variable {shown : List String}

/-- A line that is accepted shows what is new, if the complete part before it has not lost any values. -/
theorem Stands.accept (h : Stands s r buffer shown) (hs : s.Whole)
    (hgrows : Accumulates s (buffer ++ [text])) :
    Stands s (r.accepting text) (buffer ++ [text]) (shown ++ (r.news text).2) := by
  have hsession : (r.accepting text).session.Alike (s.parseLines (buffer ++ [text])) := by
    rw [parseLines_concat]
    unfold accepting
    split <;> exact (h.session.parseLine text).2.alike
  obtain ⟨part, hpart, hlast⟩ := h.last
  have hpart : part <+: buffer ++ [text] := hpart.trans (List.prefix_append _ _)
  cases hvs : (s.parseLines (buffer ++ [text])).valueLines? with
  | none =>
    obtain ⟨hnews, hcount⟩ := news_of_none h.session (parseLines_concat s buffer text ▸ hvs)
    rw [hnews, List.append_nil]
    refine ⟨hsession, hcount.trans h.count, ⟨part, hpart, hlast⟩, fun vs h' => ?_⟩
    rw [hvs] at h'
    cases h'
  | some vs =>
    obtain ⟨-, hnews, hcount⟩ :=
      news_of_valueLines? h.session (Session.whole_parseLines hs) (parseLines_concat s buffer text ▸ hvs)
    obtain ⟨new, rfl⟩ := hgrows part _ hpart (List.prefix_refl _) shown vs hlast hvs
    rw [hnews, h.count, List.drop_left]
    refine ⟨hsession, hcount, ⟨_, List.prefix_refl _, hvs⟩, fun ws h' => ?_⟩
    rw [hvs] at h'
    exact Option.some.inj h'

theorem Stands.reject (h : Stands s r buffer shown) (text : String) : Stands s (r.rejecting text) buffer shown :=
  ⟨h.session.rejected text, h.count, h.last, h.current⟩

/-- What is shown are the values, if no part of the program loses any. -/
theorem Stands.shows (h : Stands s r buffer shown) (hs : s.Whole) (hgrows : Accumulates s (buffer ++ r.accepted texts)) :
    ∀ vs, (s.parseLines (buffer ++ r.accepted texts)).valueLines? = some vs → shown ++ r.valuesShown texts = vs := by
  induction texts generalizing r buffer shown with
  | nil =>
    intro vs hvs
    rw [accepted, List.append_nil] at hvs
    exact (List.append_nil shown).trans (h.current vs hvs)
  | cons text texts ih =>
    cases he : r.refusal? text with
    | some e =>
      have hstep : (r.enter text).2 = r.rejecting text := by rw [enter_of_refusal he]
      have hsaid : (r.saying text).2 = [] := by simp only [saying, he]
      simp only [accepted, he, hstep] at hgrows ⊢
      have hrest := ih (h.reject text) hgrows
      rwa [valuesShown, sayings, List.flatMap_cons, hsaid, List.nil_append, hstep]
    | none =>
      have hstep : (r.enter text).2 = r.accepting text := by rw [enter_of_accepted he]
      have hsaid : (r.saying text).2 = (r.news text).2 := by simp only [saying, he]
      simp only [accepted, he, hstep] at hgrows ⊢
      rw [List.append_cons] at hgrows ⊢
      have hpart : Accumulates s (buffer ++ [text]) := fun part whole hpart hwhole =>
        hgrows part whole hpart (hwhole.trans (List.prefix_append _ _))
      have hrest := ih (h.accept hs hpart) hgrows
      rwa [valuesShown, sayings, List.flatMap_cons, hsaid, hstep, ← List.append_assoc]

theorem session_of_start (h : start config = .ok r) : ∃ c, Session.ofConfig c = .ok r.session ∧ r.shown = 0 := by
  unfold start at h
  split at h
  · cases h
  · next c _ =>
    split at h
    · cases h
    · next hs =>
      cases h
      exact ⟨c, hs, rfl⟩

theorem stands_of_start (h : start config = .ok r) : Stands r.session r [] [] := by
  obtain ⟨c, hs, hshown⟩ := session_of_start h
  have hnone : (r.session.parseLines []).valueLines? = some [] := Session.valueLines?_of_ofConfig hs
  refine ⟨Session.alike_of_ofConfig hs, hshown, ⟨[], List.prefix_refl _, hnone⟩, fun vs hvs => ?_⟩
  rw [hnone] at hvs
  exact Option.some.inj hvs

theorem accepted_grows {entered : List String} (h : entered <+: texts) : r.accepted entered <+: r.accepted texts := by
  obtain ⟨later, rfl⟩ := h
  induction entered generalizing r with
  | nil => exact List.nil_prefix
  | cons text entered ih =>
    cases he : r.refusal? text with
    | some e => simpa only [List.cons_append, accepted, he] using ih
    | none => simpa only [List.cons_append, accepted, he] using List.cons_prefix_cons.2 ⟨rfl, ih⟩

/-- After any lines of the program, each is answered with lines for errors and for values. The lines for values so far are
those of the program so far, whenever it is complete and folds, if and only if each complete part of the program has
the values of the one before it, and perhaps more. -/
theorem run_shows_iff (hstart : start config = .ok r) (hlines : List.Forall₂ Enters lines texts) :
    run config lines = ⟨0, banner ++ (r.sayings texts).flatMap fun said => said.1 ++ said.2, []⟩ ∧
      (r.Shows texts ↔ Accumulates r.session (r.accepted texts)) := by
  refine ⟨by rw [run_eq hstart, answer_of_enters hlines], fun hshows part whole hpart hwhole vs ws hvs hws => ?_,
    fun hgrows entered hentered => ?_⟩
  · obtain ⟨entered, hentered, rfl⟩ := exists_prefix_of_accepted hwhole
    obtain ⟨first, hfirst, rfl⟩ := exists_prefix_of_accepted hpart
    rw [← hshows first (hfirst.trans hentered) vs hvs, ← hshows entered hentered ws hws]
    exact valuesShown_grows hfirst
  · obtain ⟨c, hs, -⟩ := session_of_start hstart
    exact (stands_of_start hstart).shows (Session.whole_of_ofConfig hs) fun part whole hpart hwhole =>
      hgrows part whole hpart (hwhole.trans (accepted_grows hentered))

section

variable {c : Config} {first second : String} {ws : List String}

/-- Of two lines after each of which the program is complete both are accepted, and of the values after the second one those
are shown that come after as many as there were. -/
theorem sayings_pair (hs : Session.ofConfig c = .ok s) (hfirst : (s.parseLines [first]).valueLines? = some vs)
    (hboth : (s.parseLines [first, second]).valueLines? = some ws) :
    accepted { session := s } [first, second] = [first, second] ∧
      valuesShown { session := s } [first, second] = vs ++ ws.drop vs.length := by
  have hwhole : s.Whole := Session.whole_of_ofConfig hs
  have halike : s.Alike s := Session.alike_of_ofConfig hs
  obtain ⟨he, hnews, hshown⟩ := news_of_valueLines? (r := { session := s }) halike hwhole hfirst
  have henter := congrArg Prod.snd (enter_of_accepted he)
  have hsession : (accepting { session := s } first).session.Alike (s.parseLine first).2 := by
    unfold accepting
    split <;> exact (halike.parseLine first).2.alike
  obtain ⟨he', hnews', -⟩ := news_of_valueLines? hsession (hwhole.parseLine first).whole hboth
  constructor
  · simp only [accepted, he, henter, he']
  · simp only [valuesShown, sayings, saying, he, henter, he', List.flatMap_cons, List.flatMap_nil, hnews, hnews', hshown,
      List.drop_zero, List.append_nil]

theorem accumulates_pair (hs : Session.ofConfig c = .ok s) (hfirst : (s.parseLines [first]).valueLines? = some vs)
    (hboth : (s.parseLines [first, second]).valueLines? = some (vs ++ ws)) : Accumulates s [first, second] := by
  have hnone : (s.parseLines []).valueLines? = some [] := Session.valueLines?_of_ofConfig hs
  intro part whole hpart hwhole us us' hus hus'
  have hparts (l : List String) (hl : l <+: [first, second]) : l = [] ∨ l = [first] ∨ l = [first, second] := by
    rcases l with _ | ⟨x, _ | ⟨y, l⟩⟩ <;> simp_all [List.cons_prefix_cons]
  have hlength : part.length ≤ whole.length := hpart.length_le
  rcases hparts part (hpart.trans hwhole) with rfl | rfl | rfl
  · obtain rfl := Option.some.inj (hnone.symm.trans hus)
    exact List.nil_prefix
  · obtain rfl := Option.some.inj (hfirst.symm.trans hus)
    rcases hparts whole hwhole with rfl | rfl | rfl
    · cases hlength
    · obtain rfl := Option.some.inj (hfirst.symm.trans hus')
      exact List.prefix_refl _
    · obtain rfl := Option.some.inj (hboth.symm.trans hus')
      exact List.prefix_append _ _
  · obtain rfl := hwhole.eq_of_length_le hlength
    obtain rfl := Option.some.inj (hus.symm.trans hus')
    exact List.prefix_refl _

end

/-- Two sums on two lines are shown as two values. -/
theorem run_shows_sums :
    let r : Repl := { session := .fresh }
    let texts := ["1 + 2.", "3 + 4."]
    r.Shows texts ∧ r.accepted texts = texts ∧ (r.session.parseLines texts).valueLines? = some ["3", "7"] := by
  intro r texts
  have hs : Session.ofConfig {} = .ok .fresh := rfl
  have hstart : start none = .ok r := rfl
  have hlines : List.Forall₂ Enters texts texts := .cons (by decide +kernel) (.cons (by decide +kernel) .nil)
  have hfirst : (r.session.parseLines ["1 + 2."]).valueLines? = some ["3"] :=
    Session.valueLines?_of_within (n := 30) (by decide +kernel)
  have hboth : (r.session.parseLines texts).valueLines? = some ["3", "7"] :=
    Session.valueLines?_of_within (n := 30) (by decide +kernel)
  have haccepted : r.accepted texts = texts := (sayings_pair hs hfirst hboth).1
  refine ⟨(run_shows_iff hstart hlines).2.2 ?_, haccepted, hboth⟩
  rw [haccepted]
  exact accumulates_pair hs hfirst hboth

/-- A function takes the value on the next line, which is then not shown. -/
theorem valuesShown_function :
    let r : Repl := { session := .fresh }
    let texts := ["<x: x>", "5."]
    start none = .ok r ∧ List.Forall₂ Enters texts texts ∧ r.accepted texts = texts ∧
      (r.session.parseLines texts).valueLines? = some ["5"] ∧ r.valuesShown texts = ["(LAMBDA (LIST x) x (LIST x))"] := by
  intro r texts
  have hs : Session.ofConfig {} = .ok .fresh := rfl
  have hlines : List.Forall₂ Enters texts texts := .cons (by decide +kernel) (.cons (by decide +kernel) .nil)
  have hfirst : (r.session.parseLines ["<x: x>"]).valueLines? = some ["(LAMBDA (LIST x) x (LIST x))"] :=
    Session.valueLines?_of_within (n := 30) (by decide +kernel)
  have hboth : (r.session.parseLines texts).valueLines? = some ["5"] :=
    Session.valueLines?_of_within (n := 30) (by decide +kernel)
  obtain ⟨haccepted, hvalues⟩ := sayings_pair hs hfirst hboth
  exact ⟨rfl, hlines, haccepted, hboth, hvalues⟩

end Repl

end Linefold
