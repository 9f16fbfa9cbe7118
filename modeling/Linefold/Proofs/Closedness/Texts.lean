import Linefold.Proofs.Closedness.Folding
import Linefold.Proofs.Closedness.Run
import Linefold.Proofs.Folding.Limited
import Linefold.Proofs.Respacing.Texts

/-!
# Closed programs

A text without soft errors folds to a program in which nothing is free, but for names that a list pattern or
a definition inside a function or a clause introduces (`Session.free_of_compile`). These are real exceptions.
A list pattern may be longer than the list that it meets, and then leaves its last names free; and the scope
of a function or of a clause is thrown away with the definitions in it.
-/

namespace Linefold

variable {M Op N : String → Prop} {p q : Pool} {g : Scope} {name : String} {w : Word} {l : Level} {s₀ s : Session}
  {config : Config} {x : String}

/-! ### Where a complete program is folded -/

/-- Functions carry no operator words. -/
theorem Word.Closed.unnamed (h : w.Closed M p N name) (hcls : w.cls = .function) :
    w.Throughout (Word.Unnamed q) name := by
  induction h with
  | intro self _ ih =>
    refine .intro (fun t ht => nomatch hcls.symm.trans ht) fun hcls c hc nw hnw => ?_
    obtain ⟨-, c', hc', hclosed⟩ := self hcls
    cases hc.symm.trans hc'
    by_cases hfunction : nw.2.cls = .function
    · exact ih hcls c hc nw hnw hfunction
    · have hvalue := (hclosed.values nw hnw hfunction).1
      exact .of_ne hfunction fun t ht => nomatch hvalue.symm.trans ht

/-- Globals are functions and operator words once the program is complete. -/
theorem Level.Good.function_or_operator (h : l.Good M Op N p none) (howner : l.owner = .globals)
    (hparts : l.parts = []) (hw : (name, w) ∈ l.scope.lexicon) :
    (w.cls = .function ∧ w.Closed M p N name) ∨ ∃ t, w.cls = .operator t ∧ Op name := by
  have hallows := h.words _ hw
  unfold Level.Allows at hallows
  rw [howner] at hallows
  cases hcls : w.cls with
  | function =>
    simp only [hcls] at hallows
    exact .inl ⟨rfl, hallows.resolve_left nofun⟩
  | operator t =>
    simp only [hcls] at hallows
    exact .inr ⟨t, rfl, hallows.2.1⟩
  | value =>
    simp only [hcls] at hallows
    obtain ⟨-, part, hpart, -⟩ := hallows
    rw [hparts] at hpart
    cases hpart

namespace Standing

variable {operands : List NodeId} {e : Environment}

/-- Only the outermost scope is left where the only level is. -/
theorem lookup?_eq (h : Standing M Op [l] ⟨p, operands, e, #[]⟩) :
    e.inner = [] ∧ e.globals = l.scope ∧ ∀ x, e.lookup? x = l.scope.lexicon.find? x := by
  have hscopes : [l.scope] = e.inner ++ [e.globals] := h.scopes
  obtain ⟨hinner, hglobals⟩ : e.inner = [] ∧ e.globals = l.scope := by
    cases hi : e.inner with
    | nil =>
      rw [hi] at hscopes
      exact ⟨rfl, (List.cons.inj hscopes).1.symm⟩
    | cons sc inner =>
      rw [hi] at hscopes
      exact absurd (List.cons.inj hscopes).2 (by simp)
  refine ⟨hinner, hglobals, fun x => ?_⟩
  unfold Environment.lookup?
  rw [hinner, hglobals]
  rfl

/-- What a complete program knows is open or resolved where it is folded. -/
theorem within_of_known (h : Standing M Op [l] ⟨p, operands, e, #[]⟩) (hx : Known M #[] [l.scope] x) :
    e.Within M x := by
  obtain ⟨-, -, hlookup⟩ := h.lookup?_eq
  rcases hx with hx | hx | ⟨sc, hsc, hx⟩
  · exact absurd rfl hx
  · exact .inl hx
  · obtain rfl := List.mem_singleton.1 hsc
    rw [Environment.Within, hlookup]
    exact .inr (Lexicon.isSome_find?_of_mem hx)

theorem resolves (h : Standing M Op [l] ⟨p, operands, e, #[]⟩) (howner : l.owner = .globals) (hparts : l.parts = []) :
    Resolves M M p p e := by
  obtain ⟨-, -, hlookup⟩ := h.lookup?_eq
  have hword {x : String} {w : Word} (hw : e.lookup? x = some w) := by
    rw [hlookup] at hw
    have hall : l.scope.lexicon.All fun x w => (x, w) ∈ l.scope.lexicon := fun nw hnw => hnw
    exact h.nest.1.function_or_operator howner hparts (hall.find? hw)
  refine ⟨.refl p, fun _ hx => hx, fun x w hw hcls => ?_, fun x w hw => ?_⟩
  · rcases hword hw with ⟨hfunction, -⟩ | ⟨t, hoperator, -⟩
    · exact nomatch hcls.symm.trans hfunction
    · exact nomatch hcls.symm.trans hoperator
  · rcases hword hw with ⟨-, hclosed⟩ | ⟨t, hoperator, -⟩
    · exact hclosed.mono fun x hx => h.within_of_known hx
    · exact .of_ne (by simp [hoperator])

theorem unnamed (h : Standing M Op [l] ⟨p, operands, e, #[]⟩) (howner : l.owner = .globals) (hparts : l.parts = []) :
    e.Unnamed p := by
  obtain ⟨hinner, hglobals, -⟩ := h.lookup?_eq
  refine ⟨fun nw hnw => ?_, by simp [hinner]⟩
  rw [hglobals] at hnw
  rcases h.nest.1.function_or_operator howner hparts hnw with ⟨hfunction, hclosed⟩ | ⟨t, hoperator, hop⟩
  · exact hclosed.unnamed hfunction
  · exact .of_ne (by simp [hoperator]) fun _ _ id hid => h.pool.names id nw.1 hid hop

end Standing

/-- A complete program without soft errors folds to one that sees the names `M` only. -/
theorem sees_of_goes {root root' : NodeId} {operands : List NodeId} {e : Environment} {stack : OperandStack}
    {b : Nat} {m : Machine} (h : Goes M Op [] (.finished root) ⟨p, operands, e, #[]⟩)
    (hfold : Machine.fold ⟨⟨p, stack⟩, e, b⟩ root = .ok root' m) : m.pool.Sees M root' := by
  obtain ⟨l, howner, hparts, hstanding, hroot⟩ := h
  have hoperand := showsOne_operand (closes hstanding.pool e root) (hstanding.resolves howner hparts)
    (hroot.2.mono fun x hx => hstanding.within_of_known hx)
  have hcomputes : Machine.Computes stack Machine.operatorBudget e
      (Machine.doing ⟨⟨p, stack.stacked [[]]⟩, e, Machine.operatorBudget⟩ [.operand root])
      (Evaluator.operand e root) (fun id => [[id]]) p :=
    Machine.computes_operand (Machine.evaluates e root) (hstanding.unnamed howner hparts)
  have heq := (Machine.fold_eq_concluded (b := b)).trans (Machine.concluded_of_computes hcomputes)
  unfold ShowsOne Ensures at hoperand
  rw [heq] at hfold
  split at hoperand
  · next u q hres =>
    rw [hres] at hfold
    cases hfold
    exact hoperand.2.2
  · next err q hres =>
    rw [hres] at hfold
    cases hfold

/-! ### Lines -/

namespace Session

/-- A name introduced now may be lost: it belongs to a list pattern, or to a definition in a scope that is thrown
away. -/
def losing : List Cont → Bool
  | .params .rightBracket _ :: _ => true
  | .letName :: K => discards K
  | _ => false

/-- The token introduces a name for which nothing is promised. -/
def Loses (y : ParseState × Token) : Prop :=
  y.2.kind = .ident ∧ losing y.1.conts = true

instance : DecidablePred Loses := fun y => inferInstanceAs (Decidable (y.2.kind = .ident ∧ losing y.1.conts = true))

/-- The parse knows its names, and the operator words are those of `g`. -/
structure Scoped (M : String → Prop) (g : Scope) (s : Session) : Prop where
  words : s.Respaced g s
  state : s.state.Scoped M (fun x => (g.operator? x).isSome) s.pool

theorem Scoped.step {t : Token} (h : s.Scoped M g) (hplain : t.Plain g) (hlet : NotForValue (s.state, t))
    (hM : Loses (s.state, t) → M t.lexeme) : (s.step t).2.Scoped M g := by
  refine ⟨h.words.step (.refl g t) hplain, ParseState.Scoped.step h.state (fun ht => ?_) fun _ => ?_⟩
  · simp [hplain ht]
  · unfold SuitedHead
    split
    · trivial
    · next c K hconts =>
      refine ⟨fun ht => by simp [hplain ht], ?_, ?_, ?_⟩
      · rintro rfl hk
        exact hlet hk (by rw [hconts]; rfl)
      · rintro base rfl hk
        exact hM ⟨hk, by rw [hconts]; rfl⟩
      · rintro rfl hk hdiscards
        exact hM ⟨hk, by rw [hconts]; exact hdiscards⟩

theorem Scoped.feed {scanner : Scanner} (h : s.Scoped M g) (hlet : ∀ y ∈ s.fed scanner, NotForValue y)
    (hM : ∀ y ∈ s.fed scanner, Loses y → M y.2.lexeme) : (s.feed scanner).2.Scoped M g := by
  fun_induction Session.fed s scanner with
  | case1 s scanner rest hscan =>
    rw [feed_of_none hscan]
    exact h
  | case2 s scanner span rest hscan _ ih =>
    rw [feed_of_comment hscan]
    exact ih h hlet hM
  | case3 s scanner t rest hscan _ ih =>
    rw [feed_of_token hscan]
    obtain ⟨hlet, hlets⟩ := List.forall_mem_cons.1 hlet
    obtain ⟨hM, hMs⟩ := List.forall_mem_cons.1 hM
    have hplain : t.Plain g := Scanner.plain_of_scan ((Scanner.scan_congr h.words.state.words scanner).symm.trans hscan)
    exact ih (h.step hplain hlet hM) hlets hMs

theorem Scoped.parseLines {lines : List String} (h : s.Scoped M g) (hlet : ∀ y ∈ s.fedLines lines, NotForValue y)
    (hM : ∀ y ∈ s.fedLines lines, Loses y → M y.2.lexeme) : (s.parseLines lines).Scoped M g := by
  induction lines generalizing s with
  | nil => exact h
  | cons text lines ih =>
    have hfed := h.feed (fun y hy => hlet y (List.mem_append_left _ hy))
      fun y hy => hM y (List.mem_append_left _ hy)
    have hline : (s.parseLine text).2.Scoped M g := by
      obtain ⟨⟨hconfig, hpool, hstate⟩, hscoped⟩ := hfed
      exact ⟨⟨hconfig, hpool, hstate⟩, hscoped⟩
    exact ih hline (fun y hy => hlet y (List.mem_append_right _ hy)) fun y hy => hM y (List.mem_append_right _ hy)

theorem Scoped.close (h : s.Scoped M g) : s.close.Scoped M g := by
  unfold Session.close
  split
  · exact h.step nofun nofun fun hloses => nomatch hloses.1
  · exact h

end Session

/-! ### Fresh sessions -/

theorem Environment.nodup_addOperators {e e' : Environment} {words : List (String × String)}
    (h : e.globals.lexicon.names.Nodup) (he : e.addOperators words = .ok e') : e'.globals.lexicon.names.Nodup := by
  induction words generalizing e with
  | nil =>
    cases he
    exact h
  | cons nt words ih =>
    unfold addOperators at he
    split at he
    · next t _ =>
      exact ih (e := { e with globals := e.globals.bind nt.1 (.operator nt.1 t) }) (Lexicon.nodup_names_insert h) he
    · cases he

/-- A configured environment has each operator word once. -/
theorem Environment.nodup_ofConfig {e : Environment} (he : ofConfig config = .ok e) :
    e.globals.lexicon.names.Nodup := by
  refine nodup_addOperators (e := { initial with limit := config.recursionLimit }) ?_ he
  show (operatorLexicon operatorWords).names.Nodup
  unfold operatorLexicon
  exact List.foldlRecOn operatorWords _ (motive := fun l : Lexicon => l.names.Nodup) .nil
    fun l hl w _ => Lexicon.nodup_names_insert hl

theorem Environment.isSome_operator?_of_mem {e : Environment} {t : Tag} (hl : e.globals.lexicon.names.Nodup)
    (hw : (name, w) ∈ e.globals.lexicon) (hcls : w.cls = .operator t) : (e.globals.operator? name).isSome := by
  obtain ⟨cls, _⟩ := w
  cases hcls
  unfold Scope.operator? Scope.get?
  rw [Lexicon.find?_of_mem hl hw]
  rfl

namespace Session

theorem scoped_of_ofConfig (h : ofConfig config = .ok s) : s.Scoped M s.env.globals := by
  unfold ofConfig Except.map at h
  split at h
  · cases h
  · next env henv =>
    cases h
    obtain ⟨hwords, hinner⟩ : env.All (fun _ w => ∃ t, w.cls = .operator t ∧ t.isOperator) ∧ _ :=
      Environment.all_of_ofConfig (fun _ t ht => ⟨t, rfl, ht⟩) henv
    have hdistinct := Environment.nodup_ofConfig henv
    have hgood : Level.Good M (fun x => (env.globals.operator? x).isSome) (Known M #[] [env.globals]) .empty none
        ⟨.globals, env.globals, []⟩ := by
      refine ⟨nofun, hdistinct, fun nw hnw => ?_, nofun⟩
      obtain ⟨t, hcls, ht⟩ := hwords.globals nw hnw
      simp only [Level.Allows, hcls]
      exact ⟨trivial, Environment.isSome_operator?_of_mem hdistinct hnw hcls, ht⟩
    have hempty (id : NodeId) (n : Node) : Pool.empty.get? id ≠ some n := by cases id <;> simp [Pool.get?, Pool.empty]
    have htidy : Pool.empty.Tidy M fun x => (env.globals.operator? x).isSome :=
      ⟨fun id _ hid => absurd hid (hempty id _), fun id _ _ _ _ hid => absurd hid (hempty id _)⟩
    have hstanding : Standing M _ [⟨.globals, env.globals, []⟩] ⟨.empty, [], env, #[]⟩ :=
      ⟨by rw [hinner]; rfl, ⟨hgood, trivial⟩, htidy⟩
    refine ⟨⟨rfl, .refl _, .initial fun _ => rfl⟩, ⟨rfl, rfl⟩, rfl, ⟨.globals, env.globals, []⟩, [], ?_, hstanding, rfl⟩
    exact ⟨0, [], rfl, rfl, rfl, trivial, rfl, rfl⟩

/-! ### Whole texts -/

/-- A name that is free in what a text without soft errors folds to was introduced by a list pattern, or by a
definition in a function or a clause. No definition stands where one value is waited for. -/
theorem free_of_compile {o : Outcome} (hs : ofConfig config = .ok s₀) (source : String)
    (hlet : ∀ y ∈ s₀.fedLines (linesOf source), NotForValue y) (h : compile config source = .ok (s, o))
    (herrors : o.diagnostics = #[]) :
    ∀ x, s.pool.Free x o.root → ∃ y ∈ s₀.fedLines (linesOf source), Loses y ∧ y.2.lexeme = x := by
  have hscoped := ((scoped_of_ofConfig (M := fun x => ∃ y ∈ s₀.fedLines (linesOf source), Loses y ∧ y.2.lexeme = x)
    hs).parseLines hlet fun y hy hloses => ⟨y, hy, hloses, rfl⟩).close
  have hfinish : (s₀.parseLines (linesOf source)).finish = (.ok o, s) := by
    simp only [compile, hs, bind, Except.bind] at h
    revert h
    generalize finish _ = r
    obtain ⟨_ | o', s'⟩ := r
    · rintro ⟨⟩
    · rintro ⟨⟩
      rfl
  have hnot : ∀ err, (s₀.parseLines (linesOf source)).close.state.status ≠ .failed err := fun err herr => by
    rw [finish_of_failed herr] at hfinish
    cases hfinish
  have hparsing := close_ne_parsing ((sound_of_ofConfig hs).parseLines hlet)
  rw [finish_of_ne_failed hnot] at hfinish
  obtain ⟨-, hstate⟩ := hscoped
  revert hstate hnot hparsing hfinish
  generalize (s₀.parseLines (linesOf source)).close = closed
  intro hfinish hnot hparsing hstate
  unfold ParseState.Scoped at hstate
  cases hstatus : closed.state.status with
  | parsing => exact absurd hstatus hparsing
  | failed err => exact absurd hstatus (hnot err)
  | complete root =>
    have hroot : closed.state.root = root := by
      unfold ParseState.root
      rw [hstatus]
    rw [hstatus] at hstate
    rw [hroot] at hfinish
    cases hfold : (Machine.ofPool closed.pool closed.state.env).fold root with
    | error err m =>
      rw [hfold] at hfinish
      cases hfinish
    | ok root' m =>
      rw [hfold] at hfinish
      cases hfinish
      have herrors : closed.state.errors = #[] := herrors
      rw [herrors] at hstate
      exact (sees_of_goes hstate hfold).free

/-- A function over a call whose argument is not known yet. -/
def closedText : String :=
  "let inc x = x + 1.. <y: inc y>."

/-- A program that introduces no name in a list pattern or a discarded scope folds to one in which nothing is
free. -/
theorem free_of_compile_closedText :
    ∃ s o, compile {} closedText = .ok (s, o) ∧ o.diagnostics = #[] ∧ ∀ x, ¬ s.pool.Free x o.root := by
  have hs : ofConfig {} = .ok fresh := rfl
  have hlet : ∀ y ∈ fresh.fedLines (linesOf closedText), NotForValue y := by
    unfold NotForValue
    decide +kernel
  have hkeeps : ∀ y ∈ fresh.fedLines (linesOf closedText), ¬ Loses y := by decide +kernel
  have hclean : (compileWithin 100 {} closedText).map (fun r => r.2.diagnostics) = some #[] := by decide +kernel
  obtain ⟨⟨s, o⟩, hr, herrors⟩ := Option.map_eq_some_iff.1 hclean
  have h := compile_of_compileWithin hr
  refine ⟨s, o, h, herrors, fun x hx => ?_⟩
  obtain ⟨y, hy, hloses, -⟩ := free_of_compile hs closedText hlet h herrors x hx
  exact hkeeps y hy hloses

/-- A list pattern is longer than the list that it meets. -/
def shortList : String :=
  "<[a]: a> []."

/-- The name for which the list has no element stays free. -/
theorem free_of_compile_shortList :
    ∃ s o, compile {} shortList = .ok (s, o) ∧ o.diagnostics = #[] ∧ s.pool.Free "a" o.root := by
  have hrun : (compileWithin 100 {} shortList).map (fun r => (r.2.root, r.2.diagnostics)) = some (9, #[]) := by
    decide +kernel
  have hnodes : (compileWithin 100 {} shortList).map (fun r => (r.1.pool.get? 9, r.1.pool.get? 3, r.1.pool.get? 1)) =
      some (some (.branch .prog [3]), some (.branch .exprs [1]), some (.ident "a")) := by decide +kernel
  obtain ⟨⟨s, o⟩, hr, hroot⟩ := Option.map_eq_some_iff.1 hrun
  rw [hr] at hnodes
  simp only [Option.map_some, Option.some.injEq, Prod.mk.injEq] at hroot hnodes
  obtain ⟨hroot, herrors⟩ := hroot
  obtain ⟨hprog, hexprs, hname⟩ := hnodes
  refine ⟨s, o, compile_of_compileWithin hr, herrors, ?_⟩
  rw [hroot]
  exact .child hprog (by decide) (List.mem_singleton_self 3)
    (.child hexprs (by decide) (List.mem_singleton_self 1) (.name hname))

end Session

end Linefold
