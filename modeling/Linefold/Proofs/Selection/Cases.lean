import Linefold.Proofs.Selection.Follows

/-!
# Cases on machines that are abreast

On scrutinees that are the same, exactly or through groups, the clauses of two cases are tried with the same outcome if
their patterns follow each other (`Machine.chooses_follows`): a ground pattern matches or refutes its clause on both sides. A
case inside an expression hands this on to what its clauses come to (`Machine.follows_case`).
-/

namespace Linefold

open List (Forall₂)

namespace Machine

variable {m m' n n' k k' l m₁ n₁ : Machine} {t u : Task} {v w i j scr scr' : NodeId} {ids ids' : List NodeId}
  {cs ds : List Clause} {c d : Clause} {o o' : Choice} {x y : Bool} {e : Environment} {T : Twin} {p q : Pool}

/-! ### Clauses -/

/-- The clauses have the same variable, or patterns of which the second one follows the first one through groups. -/
structure Clause.Follows (e : Environment) (T : Twin) (c d : Clause) : Prop where
  name : ∀ m n, Abreast e T m n → ( c.variable? m.pool).map Prod.fst = ( d.variable? n.pool).map Prod.fst
  pattern : Machine.Follows e T false (.operand c.pattern) (.operand d.pattern)

/-- Both choices take their clause, in the same way. -/
inductive Choice.Takes₂ (p : Pool) (c d : Clause) : Choice → Choice → Prop where
  | binds {name : String} {names : NodeId} (hvar : c.variable? p = some (name, names)) :
      Takes₂ p c d (.binds name c.body) (.binds name d.body)
  | equal : Takes₂ p c d (.equal c.body) (.equal d.body)

/-- The clause at the position `k` is taken: the clauses before it are refuted. -/
def SelectsAt (v : NodeId) (m : Machine) (cs : List Clause) (k : Nat) (o : Choice) (m' : Machine) : Prop :=
  ∃ c m₁, cs[k]? = some c ∧ Chooses v m (cs.take k) .exhausted m₁ ∧ Chooses v m₁ [c] o m' ∧ o.Takes c

theorem SelectsAt.zero (h : Chooses v m [c] o m') (hc : o.Takes c) : SelectsAt v m (c :: cs) 0 o m' :=
  ⟨c, m, rfl, .exhausted, h, hc⟩

theorem SelectsAt.succ {l : Nat} (hvar : c.variable? m.pool = none) (hfold : m.FoldsTo c.pattern w m₁)
    (hne : m₁.pool.unwrapGroup w ≠ m₁.pool.unwrapGroup v) (hground : m₁.pool.isGround v ∧ m₁.pool.isGround w)
    (h : SelectsAt v m₁ cs l o m') : SelectsAt v m (c :: cs) (l + 1) o m' := by
  obtain ⟨d, m₂, hd, hrefuted, h, hdo⟩ := h
  exact ⟨d, m₂, hd, .refuted hvar hfold hne hground hrefuted, h, hdo⟩

/-- Clauses that follow each other are tried with the same outcome, on scrutinees that are the same through groups. The
induction is on the clauses that are tried. -/
theorem chooses_follows {R : Clause → Clause → Prop} (hR : ∀ c d, R c d → Clause.Follows e T c d) (h : Chooses v m cs o m')
    (hundecided : o ≠ .undecided) (hfailed : ∀ err, o ≠ .failed err) (hcs : Forall₂ R cs ds) (hmn : Abreast e T m n)
    (hvw : (m.twin n).Seen y v w) (hv : m.pool.isGround v) :
    ∃ o' n', Chooses w n ds o' n' ∧ Abreast e T m' n' ∧ (m'.twin n').Seen y v w ∧
      ((∃ l c d, R c d ∧ Choice.Takes₂ m'.pool c d o o' ∧ SelectsAt v m cs l o m' ∧ SelectsAt w n ds l o' n') ∨
        o = .exhausted ∧ o' = .exhausted) := by
  induction h generalizing ds n with
  | exhausted =>
    cases hcs
    exact ⟨_, n, .exhausted, hmn, hvw, .inr ⟨rfl, rfl⟩⟩
  | @binds m c cs name names hvar =>
    obtain ⟨d, ds, hcd, -, rfl⟩ := List.forall₂_cons_left_iff.1 hcs
    have hname := (hR c d hcd).name m n hmn
    rw [hvar] at hname
    obtain ⟨⟨name', names'⟩, hvar', rfl⟩ := Option.map_eq_some_iff.1 hname.symm
    refine ⟨_, n, .binds hvar', hmn, hvw, .inl ⟨0, c, d, hcd, .binds hvar, ?_, ?_⟩⟩
    · exact .zero (.binds hvar) .binds
    · exact .zero (.binds hvar') .binds
  | @equal m m' c cs u hvar hfold heq =>
    obtain ⟨d, ds, hcd, -, rfl⟩ := List.forall₂_cons_left_iff.1 hcs
    have hvar' : d.variable? n.pool = none := by
      have hname := (hR c d hcd).name m n hmn
      rw [hvar] at hname
      exact Option.map_eq_none_iff.1 hname.symm
    have hu : m'.pool.isGround u := by
      rw [← Pool.isGround_unwrapGroup, heq, Pool.isGround_unwrapGroup]
      exact Pool.isGround_of_extends hfold.accrues.keeps hv
    obtain ⟨u', n', hfold', hmn', huu'⟩ := (hR c d hcd).pattern m n hmn u m' hfold.pushes ⟨_, .refl _, hu⟩
    have hvw' : (m'.twin n').Seen y v w := hvw.mono ⟨hfold.accrues.keeps, hfold'.grows⟩
    have heq' := (Twin.eq_iff_eq huu'.groups hvw'.groups).1 heq
    refine ⟨_, n', .equal hvar' hfold'.foldsTo heq', hmn', hvw', .inl ⟨0, c, d, hcd, .equal, ?_, ?_⟩⟩
    · exact .zero (.equal hvar hfold heq) .equal
    · exact .zero (.equal hvar' hfold'.foldsTo heq') .equal
  | @refuted m m₁ m' c cs u o hvar hfold hne hground hrest ih =>
    obtain ⟨d, ds, hcd, hrests, rfl⟩ := List.forall₂_cons_left_iff.1 hcs
    have hvar' : d.variable? n.pool = none := by
      have hname := (hR c d hcd).name m n hmn
      rw [hvar] at hname
      exact Option.map_eq_none_iff.1 hname.symm
    obtain ⟨u', n₁, hfold', hmn₁, huu'⟩ := (hR c d hcd).pattern m n hmn u m₁ hfold.pushes ⟨_, .refl _, hground.2⟩
    have hvw₁ : (m₁.twin n₁).Seen y v w := hvw.mono ⟨hfold.accrues.keeps, hfold'.grows⟩
    have hne' := mt (Twin.eq_iff_eq huu'.groups hvw₁.groups).2 hne
    have hground' : n₁.pool.isGround w ∧ n₁.pool.isGround u' :=
      ⟨hvw₁.isGround_eq ▸ hground.1, huu'.isGround_eq ▸ hground.2⟩
    obtain ⟨o', n', hrest', hmn', hvw', hl⟩ := ih hundecided hfailed hrests hmn₁ hvw₁ hground.1
    refine ⟨o', n', .refuted hvar' hfold'.foldsTo hne' hground' hrest', hmn', hvw', ?_⟩
    rcases hl with ⟨l, c, d, hcd, htakes, hl, hl'⟩ | hexhausted
    · refine .inl ⟨l + 1, c, d, hcd, htakes, .succ hvar hfold hne hground hl, ?_⟩
      exact .succ hvar' hfold'.foldsTo hne' hground' hl'
    · exact .inr hexhausted
  | undecided => exact absurd rfl hundecided
  | failed => exact absurd rfl (hfailed _)

/-- Over ground patterns, a ground scrutinee leaves no choice open. -/
theorem Chooses.ne_undecided (h : Chooses v m cs o m') (hv : m.pool.isGround v)
    (hground : ∀ c ∈ cs, ∀ k, m.pool.Extends (pool k) → k.env = m.env → c.variable? k.pool = none →
      ∀ w k', k.FoldsTo c.pattern w k' → k'.pool.isGround w) : o ≠ .undecided := by
  induction h with
  | @undecided m m' c cs w hvar hfold hne hopen =>
    refine absurd ⟨Pool.isGround_of_extends hfold.accrues.keeps hv, ?_⟩ hopen
    exact hground c (.head _) m (.refl _) rfl hvar w m' hfold
  | @refuted m m₁ m' c cs w o hvar hfold hne hg hrest ih =>
    refine ih hg.1 fun c hc k hk henv => hground c (.tail _ hc) k ?_ ?_
    · exact hfold.accrues.keeps.trans hk
    · exact henv.trans hfold.env_eq
  | _ => simp

/-! ### Cases inside an expression -/

theorem exists_of_forall₂ {α β : Type} {R : α → β → Prop} {as : List α} {bs : List β} (h : Forall₂ R as bs) :
    ∀ a ∈ as, ∃ b, R a b := by
  induction h with
  | nil => exact List.forall_mem_nil _
  | cons hab _ ih => exact List.forall_mem_cons.2 ⟨⟨_, hab⟩, ih⟩

theorem work_of_steps {r r' : Step} {ts us : List Task} (h : StepsRelated Twin.Alike T r r')
    (hts : ∀ U, T.Grows U → Task.AllRelated Twin.Alike U ts us) :
    Corresponds T (fun _ => Eq) (Step.work r ts) (Step.work r' us) := by
  cases r with
  | ok new m =>
    cases r' with
    | ok new' n =>
      obtain ⟨hgrows, halike, hnew⟩ := h
      have hruns := halike.run_of (fun h hij => .steps (h.visit hij)) (List.rel_append hnew (hts _ hgrows))
      exact hruns.mono_left hgrows
    | error => exact h.elim
  | error err m =>
    cases r' with
    | ok => exact h.elim
    | error => exact h

/-- Where a variable is bound, the bodies are carried out alike. -/
theorem corresponds_binds {b b' : NodeId} (name : String) (i j : NodeId) (hmn : m.Alike n) (hvw : (m.twin n).Alike v w)
    (hbody : (m.twin n).Alike b b') :
    Corresponds (m.twin n) (fun _ => Eq) ((Choice.binds name b).work m i v [.reduce .collect])
      ((Choice.binds name b').work n j w [.reduce .collect]) := by
  have hword : Word.Alike (m.twin n) { Word.value name 0 with nid := v } { Word.value name 0 with nid := w } :=
    Word.alike_value hvw
  have htasks : Task.AllRelated Twin.Alike (m.twin n) [.visit b, .exit] [.visit b', .exit] :=
    .cons (.visit hbody) (.cons .exit .nil)
  have hsteps : StepsRelated Twin.Alike (m.twin n)
      (m.entering "case" [] [{ Word.value name 0 with nid := v }] [.visit b, .exit])
      (n.entering "case" [] [{ Word.value name 0 with nid := w }] [.visit b', .exit]) :=
    hmn.entering .nil (.cons hword .nil) htasks
  exact work_of_steps hsteps fun _ _ => .cons (.reduce .collect) .nil

/-- A clause of a case inside an expression. Where the clause binds the scrutinee, this is exactly the same. -/
structure Clause.Leads (e : Environment) (T : Twin) (x y : Bool) (c d : Clause) : Prop where
  follows : Clause.Follows e T c d
  ground : ∀ k, T.left.Extends (Machine.pool k) → k.env = e → c.variable? k.pool = none →
    ∀ w k', k.FoldsTo c.pattern w k' → k'.pool.isGround w
  body : (y = true ∧ T.Alike c.body d.body) ∨
    (∀ m n, Abreast e T m n → c.variable? m.pool = none) ∧ Machine.Follows e T x (.operand c.body) (.operand d.body)

/-- The machine with an empty frame on another one. -/
def nested (m : Machine) : Machine := m.onStack (OperandStack.stacked {} [[], []])

theorem nested_nested (m : Machine) : m.nested.values.stack.Nested :=
  (OperandStack.alike_stacked (T := ⟨m.pool, m.pool⟩) (OperandStack.alike_stacked .empty .nil) .nil).nested

theorem Abreast.nested (h : Abreast e T m n) : Abreast e T m.nested n.nested :=
  ⟨h.grows, ⟨OperandStack.alike_stacked (OperandStack.alike_stacked .empty .nil) .nil, h.alike.env, h.alike.budget⟩, h.env⟩

theorem run_framed_operand (hk : k.values.stack = OperandStack.stacked {} [[], []]) (ts : List Task) :
    (k.framed []).run (.operand i :: ts) = k.run (.visit i :: .reduce .collect :: ts) := by
  have hself : k.onStack (OperandStack.stacked {} [[], []]) = k := by
    rw [← hk]
    rfl
  have hrun : (k.framed []).run (.operand i :: ts) =
      (k.onStack (OperandStack.stacked {} [[], []])).run (.visit i :: .reduce .collect :: ts) := run_operand
  rw [hrun, hself]

/-- A case that comes to something folds its scrutinee. -/
theorem exists_foldsTo_scrutinee {z : Machine} (hi : k.pool.get? i = some (.branch .case (scr :: ids))) {ts : List Task}
    (hrun : k.run (.visit i :: ts) = .ok () z) : ∃ v k', k.FoldsTo scr v k' := by
  rcases k.exists_foldsTo scr with ⟨v, q, b, hfold, -⟩ | herror
  · exact ⟨v, _, hfold⟩
  · obtain ⟨err, k', herror⟩ := herror k.values.stack (.select i :: ts)
    have hvisit : k.resume (.visit i) = .ok [.operand scr, .select i] k := visit_of_plan hi (by decide) rfl
    exact nomatch hrun.symm.trans ((run_of_resume hvisit _).trans herror)

/-- Operands that come to what two tasks come to, of which the second one follows the first one. -/
theorem Pushes.follows_of_run (hv : m.Pushes (.operand i) v m') (hq : ∃ q, m'.pool.Extends q ∧ q.isGround v)
    (hmn : Abreast e T m n) (hkl : Abreast e T k l) (h : Follows e T x t u) (hk : k.Single t)
    (hrun : (k.framed []).run [t] = .ok () (m'.framed [v])) (hrun' : (n.framed []).run [.operand j] = (l.framed []).run [u]) :
    ∃ w n', n.Pushes (.operand j) w n' ∧ Abreast e T m' n' ∧ (m'.twin n').Seen x v w := by
  obtain ⟨w, l', hw, hml, hvw⟩ := h k l hkl v _ (hk.pushes_of_run hrun) hq
  have hpushes : n.Pushes (.operand j) w (n.after l'.pool l'.budget) :=
    single_operand.pushes_of_run (hrun'.trans hw.run_framed_nil)
  refine ⟨w, _, hpushes, ?_, hvw⟩
  rw [hv.after_eq]
  exact hmn.after hv.grows hpushes.grows hml.alike.budget

/-- Cases of which the scrutinees and the patterns are ground and follow each other come to what the clauses come to. -/
theorem follows_case (hi : T.left.get? i = some (.branch .case (scr :: ids)))
    (hj : T.right.get? j = some (.branch .case (scr' :: ids'))) (hids : ids.mapM (clause T.left) = .ok cs)
    (hids' : ids'.mapM (clause T.right) = .ok ds) (hscr : Follows e T y (.operand scr) (.operand scr'))
    (hground : ∀ k, T.left.Extends (pool k) → k.env = e → ∀ v k', k.FoldsTo scr v k' → k'.pool.isGround v)
    (hcs : Forall₂ (Clause.Leads e T x y) cs ds) : Follows e T x (.operand i) (.operand j) := by
  intro m n hmn v m' hv hq
  have hm := hmn.nested
  have hi' := hm.grows.1 _ _ hi
  have hrun : m.nested.run [.visit i, .reduce .collect] = .ok () (m'.framed [v]) :=
    (run_framed_operand (k := m.nested) rfl []).symm.trans hv.run_framed_nil
  obtain ⟨u, m₁, hfold⟩ := exists_foldsTo_scrutinee hi' hrun
  have hu := hground m.nested hm.grows.1 hm.env u m₁ hfold
  obtain ⟨o, m₂, hchooses⟩ := exists_chooses u m₁ cs
  have hwork := run_select m.nested_nested hi' (mapM_clause_mono hids hm.grows.1) hfold hchooses [.reduce .collect]
  rw [hrun] at hwork
  have hfailed : ∀ err, o ≠ .failed err := by
    rintro err rfl
    cases hwork
  have hundecided : o ≠ .undecided := hchooses.ne_undecided hu fun c hc k hk henv => by
    obtain ⟨d, hcd⟩ := exists_of_forall₂ hcs c hc
    exact hcd.ground k ((hm.grows.1.trans hfold.accrues.keeps).trans hk) (henv.trans (hfold.env_eq.trans hm.env))
  obtain ⟨w, n₁, hfold', hm₁, huw⟩ := hscr m.nested n.nested hm u m₁ hfold.pushes ⟨_, .refl _, hu⟩
  obtain ⟨o', n₂, hchooses', hm₂, huw₂, hselects⟩ :=
    chooses_follows (fun _ _ h => h.follows) hchooses hundecided hfailed hcs hm₁ huw hu
  have hwork' := run_select n.nested_nested (hm.grows.2 _ _ hj) (mapM_clause_mono hids' hm.grows.2) hfold'.foldsTo
    hchooses' [.reduce .collect]
  rw [← run_framed_operand (k := n.nested) rfl []] at hwork'
  obtain ⟨-, c, d, hcd, htakes, -⟩ | ⟨rfl, -⟩ := hselects
  · cases htakes with
    | equal =>
      have hbody : Machine.Follows e T x (.operand c.body) (.operand d.body) := by
        rcases hcd.body with ⟨-, h⟩ | ⟨-, h⟩
        · exact (repeats_operand h).follows
        · exact h
      have hstack : m₂.values.stack = OperandStack.stacked {} [[], []] := (hchooses.stack_eq hfailed).trans hfold.stack_eq
      have hstack' : n₂.values.stack = OperandStack.stacked {} [[], []] :=
        (hchooses'.stack_eq (by simp)).trans hfold'.stack_eq
      exact hv.follows_of_run hq hmn hm₂ hbody single_operand ((run_framed_operand hstack []).trans hwork.symm)
        (hwork'.trans (run_framed_operand hstack' []).symm)
    | @binds name names hvar =>
      obtain ⟨rfl, hbody⟩ | ⟨hnone, -⟩ := hcd.body
      · have hruns := corresponds_binds name i j hm₂.alike huw₂ (hbody.mono hm₂.grows)
        rw [← hwork, ← hwork'] at hruns
        obtain ⟨z, n', hz, halike, hvz⟩ := hv.alike_of_corresponds hmn.alike single_operand hruns
        exact ⟨z, n', hz, ⟨hmn.grows.trans ⟨hv.grows, hz.grows⟩, halike, hv.env_eq.trans hmn.env⟩, hvz.seen⟩
      · exact nomatch hvar.symm.trans (hnone m₂ n₂ hm₂)
  · have hu₂ := Pool.isGround_of_extends hchooses.accrues.keeps hu
    simp only [Choice.work, exhausted, if_pos hu₂] at hwork
    cases hwork

end Machine

end Linefold
