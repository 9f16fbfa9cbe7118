import Linefold.Proofs.Folding.Reductions

/-!
# Steps of a fold do not go wrong

`Machine.Holds s L m`: pool and environment are well-formed, and the open frames on `s` hold what the
layouts `L` say. A task that turns `L` into `L'` is carried out without an internal error and gives way to
tasks that lead to `L'` as well (`goes_resume`).
-/

namespace Linefold

attribute [local irreducible] Pool.intern

/-- A pool and an environment that a fold can work on. -/
structure WellFormed (p : Pool) (e : Environment) : Prop where
  shaped : p.WellShaped
  words : e.All (Word.Usable p)

/-- The errors that a fold of a well-formed tree may end in. -/
def Error.isOfFold : Error → Bool
  | .recursion _ | .unimplemented _ | .nonExhaustiveCase _ _ => true
  | _ => false

variable {s : OperandStack} {p q : Pool} {e : Environment} {L L' : List Layout}
  {fs : List (List NodeId)} {vs es args clauses : List NodeId} {nid id scrutinee : NodeId} {t : Tag}
  {tasks : List Task} {b : Nat}

namespace Machine

structure Holds (s : OperandStack) (L : List Layout) (m : Machine) : Prop where
  values : m.values.Filled s L
  words : m.env.All (Word.Usable m.pool)

theorem Holds.wellFormed {m : Machine} (h : m.Holds s L) : WellFormed m.pool m.env :=
  ⟨h.values.wellShaped, h.words⟩

theorem Holds.forget {m : Machine} (h : m.Holds s (.on .value .values :: L)) :
    m.Holds s (.values :: L) :=
  ⟨h.values.forget, h.words⟩

theorem allUsable_mono (he : e.All (Word.Usable p)) (hpq : p.Grows q) : e.All (Word.Usable q) :=
  he.mono fun _ _ h => h.mono hpq

/-- A step from the pool `p`: the tasks it gives lead to `L'`, or it fails as a fold may fail. -/
def Goes (s : OperandStack) (p : Pool) (L' : List Layout) : Step → Prop
  | .ok tasks m => p.Grows m.pool ∧ ∃ L, m.Holds s L ∧ Task.Leads m.pool tasks L L'
  | .error e m => e.isOfFold ∧ p.Grows m.pool ∧ WellFormed m.pool m.env

theorem Goes.mono_left {r : Step} (h : Goes s q L' r) (hpq : p.Grows q) : Goes s p L' r := by
  cases r with
  | ok tasks m => exact ⟨hpq.trans h.1, h.2⟩
  | error e m => exact ⟨h.1, hpq.trans h.2.1, h.2.2⟩

theorem Holds.goes_ok {m : Machine} (h : m.Holds s L) (htasks : Task.Leads m.pool tasks L L') :
    Goes s m.pool L' (.ok tasks m) :=
  ⟨.refl _, L, h, htasks⟩

theorem Holds.goes_error {m : Machine} {err : Error} (h : m.Holds s L) (herr : err.isOfFold) :
    Goes s m.pool L' (.error err m) :=
  ⟨herr, .refl _, h.wellFormed⟩

/-! ### Work on values -/

theorem goes_onValues {α : Type} {m : Machine} {f : ValuesM α} {k : α → Machine → Step}
    {Q : α → Values → Prop}
    (hf : Ensures f (fun a v => m.pool.Grows v.pool ∧ Q a v) (fun _ _ => False) m.values)
    (hk : ∀ a v, m.pool.Grows v.pool → Q a v →
      Goes s v.pool L' (k a ⟨v, m.env, m.budget⟩)) : Goes s m.pool L' (m.onValues f k) := by
  obtain ⟨v, e, b⟩ := m
  unfold Ensures at hf
  split at hf
  · next a v hv =>
    rw [onValues_of_ok hv]
    exact (hk a v hf.1 hf.2).mono_left hf.1
  · exact hf.elim

/-- A computation on values that leaves the frames laid out as the given tasks need them. -/
theorem goes_reducing {m : Machine} {f : ValuesM Unit} (he : m.env.All (Word.Usable m.pool))
    (hf : m.values.Becomes s L f) (htasks : ∀ q, m.pool.Grows q → Task.Leads q tasks L L') :
    Goes s m.pool L' (m.reducing f tasks) := by
  refine goes_onValues hf fun _ v hpq hv => ?_
  exact Holds.goes_ok (m := ⟨v, m.env, m.budget⟩) ⟨hv, allUsable_mono he hpq⟩ (htasks _ hpq)

/-! ### Scopes -/

theorem goes_entering {m : Machine} {name : String} {lexicon : Lexicon} {ws : List Word}
    (h : m.Holds s L) (hlexicon : lexicon.All (Word.Usable m.pool))
    (hws : Pattern.AllUsable ws m.pool) (htasks : Task.Leads m.pool tasks L L') :
    Goes s m.pool L' (m.entering name lexicon ws tasks) := by
  obtain ⟨v, e, b⟩ := m
  unfold entering
  rcases e.enter_cases name with henter | henter
  · simp only [henter]
    exact h.goes_error rfl
  · simp only [henter]
    have hwords := ((h.words.enter name).extend hlexicon).bindAll hws
    exact ⟨.refl _, L, ⟨h.values, hwords⟩, htasks⟩

/-! ### Names -/

theorem goes_apply {callee : Callee} (hp : p.WellShaped) (he : e.All (Word.Usable p))
    (hcallee : callee.Sound p) (hvs : ∀ v ∈ vs, p.Fits .value v) (hfs : List.Forall₂ p.Fills L fs) :
    Goes s p (.values :: L) (apply ⟨⟨p, s.stacked (vs :: fs)⟩, e, b⟩ callee) := by
  unfold apply
  rw [onValues_of_ok takeArgs_stacked]
  have hargs : ∀ v ∈ vs.take callee.pattern.length, p.Fits .value v := fun v hv =>
    hvs v (List.mem_of_mem_take hv)
  have hrest : ∀ v ∈ vs.drop callee.pattern.length, p.Fits .value v := fun v hv =>
    hvs v (List.mem_of_mem_drop hv)
  have hm : Holds s (.values :: L)
      ⟨⟨p, s.stacked (vs.drop callee.pattern.length :: fs)⟩, e, b⟩ :=
    ⟨⟨p, _, rfl, hp, .cons (.values hrest) hfs⟩, he⟩
  split
  · exact hm.goes_error rfl
  · have hbind := gives_bindCallee hp hcallee hargs
    unfold Pattern.Gives Ensures at hbind
    split at hbind
    · next bound q hq =>
      obtain ⟨hpq, hq', hws, htasks⟩ := hbind
      have hon : onPool (bindCallee callee (vs.take callee.pattern.length))
          ⟨p, s.stacked (vs.drop callee.pattern.length :: fs)⟩ =
          .ok bound ⟨q, s.stacked (vs.drop callee.pattern.length :: fs)⟩ := by
        simp only [onPool, hq]
      rw [onValues_of_ok hon]
      refine (goes_entering (m := ⟨⟨q, _⟩, e, b⟩) (L := .values :: L) ?_ ?_ hws (htasks L)).mono_left hpq
      · exact ⟨⟨q, _, rfl, hq', .cons (.values fun v hv => (hrest v hv).mono hpq.keeps)
          (Values.forall₂_fills_mono hfs hpq.keeps)⟩, allUsable_mono he hpq⟩
      · exact hcallee.lexicon.mono fun _ _ h => h.mono hpq
    · exact hbind.elim

theorem goes_push (hp : p.WellShaped) (he : e.All (Word.Usable p)) (hid : p.Fits .value id)
    (hvs : ∀ v ∈ vs, p.Fits .value v) (hfs : List.Forall₂ p.Fills L fs) :
    Goes s p (.values :: L) (reducing ⟨⟨p, s.stacked (vs :: fs)⟩, e, b⟩ (ValuesM.push id) []) :=
  goes_reducing (m := ⟨⟨p, s.stacked (vs :: fs)⟩, e, b⟩) he
    (Values.becomes_push hp hid (.values hvs) hfs) fun _ _ => .forget .nil

theorem goes_visitName {name : String} (hp : p.WellShaped) (he : e.All (Word.Usable p))
    (hnid : p.get? nid = some (.ident name)) (hvs : ∀ v ∈ vs, p.Fits .value v)
    (hfs : List.Forall₂ p.Fills L fs) :
    Goes s p (.values :: L) (visitName ⟨⟨p, s.stacked (vs :: fs)⟩, e, b⟩ nid name) := by
  have hfits : p.Fits .value nid := ⟨_, hnid, by simp [Node.tag]⟩
  have hself := goes_push (s := s) (b := b) hp he hfits hvs hfs
  unfold visitName
  split
  · exact hself
  · next w hw =>
    cases he.lookup? hw with
    | operator hcls hname => exact absurd hnid (hname nid)
    | operand hcls hw' hpattern hlexicon =>
      split
      · split
        · exact hself
        · next hne => exact goes_push hp he (hw'.resolve_left hne) hvs hfs
      · split
        · exact hself
        · next closure hclosure =>
          split
          · exact hself
          · next hne =>
            refine goes_apply hp he ⟨hw'.resolve_left hne, ?_, ?_⟩ hvs hfs
            · exact hpattern closure hclosure
            · exact hlexicon closure hclosure
      · next t ht => exact absurd ht (hcls t)

/-! ### Nodes -/

/-- A plan for a node leads from the frame that it asks for to values. -/
def Plans (p : Pool) (L : List Layout) : Except Error Plan → Prop
  | .ok plan => Task.Leads p plan.tasks
      (if plan.frame then .values :: .values :: L else .values :: L) (.values :: L)
  | .error err => err.isOfFold

/-- Parts are worked out one by one and then taken by the node that is built over them. -/
theorem leads_build {parts : List Part} (ht : t.Admits parts) (hes : List.Forall₂ p.Fits parts es)
    (hparts : ∀ part ∈ parts, part = .value ∨ part = .binding) (hpart : t.part = .value) :
    Task.Leads p (es.map .operand ++ [.reduce (.build t es.length)]) (.values :: L) (.values :: L) := by
  refine (Task.leads_map hes fun part id l hmem hid => ?_).concat ?_
  · rcases hparts part hmem with rfl | rfl
    · exact .operand hid
    · exact .operandBinding hid
  · rw [← hpart]
    exact .build parts ht hes.length_eq.symm

theorem plans_operatorPlan {r : Reduction} (ht : t.isOperator)
    (hr : r = .arithmetic t ∨ r = .concat ∨ r = .compare t)
    (hes : List.Forall₂ p.Fits [.value, .value] es) : Plans p L (operatorPlan es r) := by
  rcases hes with _ | ⟨ha, _ | ⟨hb, ⟨⟩⟩⟩
  exact .cons (.operand ha) (.cons (.operand hb) (.cons (.operator ht hr) (.forget .nil)))

theorem plans_plan (hp : p.WellShaped) (hnid : p.get? nid = some (.branch t es)) (hb : t ≠ .binding)
    (ho : t ≠ .of) (hl : t ≠ .lambda) : Plans p L (plan nid t es) := by
  obtain ⟨parts, hparts, hes⟩ := hp.admits hnid
  have hvisits (hvalue : ∀ part ∈ parts, part = .value) (L : List Layout) :
      Task.Leads p (es.reverse.map .visit) (.values :: L) (.values :: L) :=
    Task.leads_visits fun id hid => forall_fits_of_forall₂ hes hvalue id (List.mem_reverse.1 hid)
  have hoperands (hvalue : ∀ part ∈ parts, part = .value) :
      ∀ part ∈ parts, part = .value ∨ part = .binding :=
    fun part hpart => .inl (hvalue part hpart)
  cases t with
  | prog =>
    cases hparts
    rcases hes with _ | ⟨hexprs, ⟨⟩⟩
    have hvisit := hexprs.value (by decide) (by decide)
    exact .cons (.visit hvisit) (.cons (.close (.inl rfl)) (.forget .nil))
  | exprs => exact hvisits hparts L
  | paren =>
    have hvalue : ∀ part ∈ parts, part = .value := by
      rintro part hpart
      rw [show parts = [.value] from hparts] at hpart
      exact List.mem_singleton.1 hpart
    exact (hvisits hvalue _).concat (.close (.inr (.inl rfl)))
  | list => exact (hvisits hparts _).concat (.close (.inr (.inr rfl)))
  | apply => exact leads_build hparts hes (hoperands hparts) rfl
  | val => exact leads_build hparts hes (hoperands hparts) rfl
  | arg => exact leads_build hparts hes (hoperands hparts) rfl
  | record => exact leads_build hparts hes (fun part hpart => .inr (hparts part hpart)) rfl
  | case =>
    obtain ⟨clauses, rfl, hclauses⟩ := hparts
    rcases hes with _ | ⟨hscrutinee, hes⟩
    exact .cons (.operand hscrutinee) (.cons (.select hnid) .nil)
  | neg =>
    cases hparts
    rcases hes with _ | ⟨ha, ⟨⟩⟩
    exact .cons (.operand ha) (.cons .negate (.forget .nil))
  | or | and => rfl
  | add | sub | div | mod | pow => exact plans_operatorPlan rfl (.inl rfl) (hparts.2 ▸ hes)
  | concat => exact plans_operatorPlan (t := .concat) rfl (.inr (.inl rfl)) (hparts.2 ▸ hes)
  | eq | ne | lt | gt | le | ge => exact plans_operatorPlan rfl (.inr (.inr rfl)) (hparts.2 ▸ hes)
  | binding => exact absurd rfl hb
  | of => exact absurd rfl ho
  | lambda => exact absurd rfl hl
  | num | str | ident | bool | null => cases hparts.1

theorem exists_lambda (hp : p.WellShaped) (hnid : p.get? nid = some (.branch .lambda es)) :
    ∃ callee, lambda p es = .ok callee ∧ callee.Sound p := by
  obtain ⟨parts, hparts, hes⟩ := hp.admits hnid
  cases hparts
  rcases hes with _ | @⟨_, names, _, _, hnames, _ | @⟨_, body, _, _, hbody, _ | ⟨⟨ps, hps, hpattern⟩, ⟨⟩⟩⟩⟩
  refine ⟨⟨"lambda", body, ps, []⟩, ?_, hbody, hpattern, Lexicon.all_nil⟩
  simp only [lambda, hps]
  rfl

theorem goes_openFrame {l : Layout} (hp : p.WellShaped) (he : e.All (Word.Usable p)) (hl : p.Fills l [])
    (hfs : List.Forall₂ p.Fills L fs) (htasks : ∀ q, p.Grows q → Task.Leads q tasks (l :: L) L') :
    Goes s p L' (reducing ⟨⟨p, s.stacked fs⟩, e, b⟩ openFrame tasks) := by
  refine goes_reducing (m := ⟨⟨p, s.stacked fs⟩, e, b⟩) (L := l :: L) he ?_ htasks
  exact .of_ok openFrame_stacked ⟨.refl p, p, _, rfl, hp, .cons hl hfs⟩

theorem goes_visit (hp : p.WellShaped) (he : e.All (Word.Usable p)) (hnid : p.Fits .value nid)
    (hvs : ∀ v ∈ vs, p.Fits .value v) (hfs : List.Forall₂ p.Fills L fs) :
    Goes s p (.values :: L) (visit ⟨⟨p, s.stacked (vs :: fs)⟩, e, b⟩ nid) := by
  have hm : Holds s (.values :: L) ⟨⟨p, s.stacked (vs :: fs)⟩, e, b⟩ :=
    ⟨⟨p, _, rfl, hp, .cons (.values hvs) hfs⟩, he⟩
  obtain ⟨n, hn, hb, ho⟩ := hnid
  unfold visit
  simp only [pool, hn]
  split
  · next h => cases h
  · next h => exact goes_visitName hp he (hn.trans h) hvs hfs
  · next es h =>
    obtain ⟨callee, hcallee, hsound⟩ := exists_lambda hp (hn.trans h)
    simp only [hcallee]
    exact goes_apply hp he hsound hvs hfs
  · next t es hl h =>
    cases h
    have hplans := plans_plan (L := L) hp hn hb ho hl
    split
    · next err herr =>
      rw [herr] at hplans
      exact hm.goes_error hplans
    · next plan hplan =>
      rw [hplan] at hplans
      split
      · next hframe =>
        simp only [Plans, if_pos hframe] at hplans
        refine goes_openFrame hp he (.values (List.forall_mem_nil _)) (.cons (.values hvs) hfs) ?_
        exact fun q hpq => hplans.mono hpq.keeps
      · next hframe =>
        simp only [Plans, if_neg hframe] at hplans
        exact hm.goes_ok hplans
  · exact goes_push hp he ⟨_, hn, hb, ho⟩ hvs hfs

/-- A binding is rebuilt in the frame that was opened for it. -/
theorem goes_visit_binding (hp : p.WellShaped) (he : e.All (Word.Usable p)) (hnid : p.Fits .binding nid)
    (hfs : List.Forall₂ p.Fills L fs) :
    Goes s p (.on .binding .nothing :: L) (visit ⟨⟨p, s.stacked ([] :: fs)⟩, e, b⟩ nid) := by
  have hm : Holds s (.nothing :: L) ⟨⟨p, s.stacked ([] :: fs)⟩, e, b⟩ :=
    ⟨⟨p, _, rfl, hp, .cons .nothing hfs⟩, he⟩
  obtain ⟨es, hn⟩ := hnid
  obtain ⟨parts, hparts, hes⟩ := hp.admits hn
  cases hparts
  rcases hes with _ | ⟨hkey, _ | ⟨hvalue, ⟨⟩⟩⟩
  unfold visit
  simp only [pool, hn]
  refine hm.goes_ok (.cons (.push hkey) (.cons (.operand hvalue) (.cons ?_ .nil)))
  exact .build (l := .nothing) (t := .binding) [.key, .value] rfl rfl

/-! ### Cases -/

theorem exists_clause (hp : p.WellShaped) (h : p.Fits .clause id) :
    ∃ c, clause p id = .ok c ∧ p.Fits .value c.pattern ∧ p.Fits .value c.body ∧
      ∀ names, c.names = some names → p.Fits .names names := by
  obtain ⟨es, hn⟩ := h
  obtain ⟨parts, hparts, hes⟩ := hp.admits hn
  unfold clause
  simp only [hn]
  rcases hparts with rfl | rfl
  · rcases hes with _ | @⟨_, pattern, _, _, hpattern, _ | @⟨_, body, _, _, hbody, ⟨⟩⟩⟩
    exact ⟨⟨pattern, body, none⟩, rfl, hpattern, hbody, fun _ h => nomatch h⟩
  · rcases hes with _ | @⟨_, pattern, _, _, hpattern, hes⟩
    rcases hes with _ | @⟨_, body, _, _, hbody, _ | @⟨_, names, _, _, hnames, ⟨⟩⟩⟩
    refine ⟨⟨pattern, body, some names⟩, rfl, hpattern, hbody, ?_⟩
    rintro _ ⟨⟩
    exact hnames

theorem names_eq_some {c : Clause} {name : String} {names : NodeId}
    (h : c.variable? p = some (name, names)) : c.names = some names := by
  unfold Clause.variable? at h
  split at h
  · next hnames _ =>
    cases h
    exact hnames
  · cases h

theorem leads_residualClause (hp : p.WellShaped) (hid : p.Fits .clause id) :
    ∃ ts, residualClause p id = .ok ts ∧ ∀ l, Task.Leads p ts (l :: L) (.on .clause l :: L) := by
  obtain ⟨c, hc, hpattern, hbody, hnames⟩ := exists_clause hp hid
  unfold residualClause
  simp only [hc, bind, Except.bind]
  split
  · next name names hvar =>
    have hnames := hnames names (names_eq_some hvar)
    refine ⟨_, rfl, fun l => ?_⟩
    refine .cons (.push hpattern) (.cons .enter (.cons (.operand hbody) (.cons .exit ?_)))
    refine .cons (.push hnames) (.cons ?_ .nil)
    exact .build (t := .of) [.value, .value, .names] (.inr rfl) rfl
  · refine ⟨_, rfl, fun l => .cons (.operand hpattern) (.cons (.operand hbody) (.cons ?_ .nil))⟩
    exact .build (t := .of) [.value, .value] (.inl rfl) rfl

theorem fits_clauses (hp : p.WellShaped) (hnid : p.get? nid = some (.branch .case es)) :
    ∀ c ∈ es.drop 1, p.Fits .clause c := by
  obtain ⟨parts, ⟨clauses, rfl, hclauses⟩, hes⟩ := hp.admits hnid
  rcases hes with _ | ⟨-, hes⟩
  exact forall_fits_of_forall₂ hes hclauses

theorem exists_mapM {α β ε : Type} {f : α → Except ε β} {P : β → Prop} {l : List α}
    (h : ∀ a ∈ l, ∃ b, f a = .ok b ∧ P b) :
    ∃ bs, l.mapM f = .ok bs ∧ bs.length = l.length ∧ ∀ b ∈ bs, P b := by
  induction l with
  | nil => exact ⟨[], rfl, rfl, by simp⟩
  | cons a l ih =>
    obtain ⟨⟨b, hb, hP⟩, hl⟩ := List.forall_mem_cons.1 h
    obtain ⟨bs, hbs, hlength, hall⟩ := ih hl
    refine ⟨b :: bs, ?_, by simp [hlength], List.forall_mem_cons.2 ⟨hP, hall⟩⟩
    simp only [List.mapM_cons, hb, hbs, bind, Except.bind]
    rfl

/-- All clauses are rebuilt over the scrutinee. -/
theorem goes_residualCase {m : Machine} (h : m.Holds s (.values :: L))
    (hnid : m.pool.get? nid = some (.branch .case es)) (hscrutinee : m.pool.Fits .value scrutinee) :
    Goes s m.pool (.values :: L) (m.residualCase nid scrutinee) := by
  have hp := h.wellFormed.shaped
  obtain ⟨parts, ⟨clauses, rfl, hclauses⟩, hes⟩ := hp.admits hnid
  rcases hes with _ | @⟨_, scrutinee', _, es, -, hes⟩
  have hfits := forall_fits_of_forall₂ hes hclauses
  obtain ⟨tss, htss, hlength, hleads⟩ := exists_mapM fun id hid => leads_residualClause hp (hfits id hid)
  unfold residualCase
  simp only [hnid, Node.elts, List.drop_succ_cons, List.drop_zero, htss]
  refine h.goes_ok (.cons (.push hscrutinee) ?_)
  refine (Task.leads_flatten hleads).concat ?_
  have hadmits : Tag.case.Admits (.value :: List.replicate tss.length .clause) :=
    ⟨_, rfl, fun _ hx => List.eq_of_mem_replicate hx⟩
  have honto := Layout.onto_reverse_cons .values .value (List.replicate tss.length .clause)
  rw [List.reverse_replicate] at honto
  rw [← honto]
  exact .build _ hadmits (by simp [hlength])

theorem goes_exhausted {m : Machine} (h : m.Holds s (.values :: L))
    (hnid : m.pool.get? nid = some (.branch .case es)) (hscrutinee : m.pool.Fits .value scrutinee) :
    Goes s m.pool (.values :: L) (m.exhausted nid scrutinee) := by
  unfold exhausted
  split
  · exact h.goes_error rfl
  · exact goes_residualCase h hnid hscrutinee

theorem goes_select {m : Machine} (h : m.Holds s (.values :: L))
    (hnid : m.pool.get? nid = some (.branch .case es)) (hscrutinee : m.pool.Fits .value scrutinee)
    (hclauses : ∀ c ∈ clauses, m.pool.Fits .clause c) :
    Goes s m.pool (.values :: L) (m.select nid scrutinee clauses) := by
  unfold select
  split
  · exact goes_exhausted h hnid hscrutinee
  · next id clauses =>
    obtain ⟨c, hc, hpattern, hbody, -⟩ := exists_clause h.wellFormed.shaped (hclauses id (.head _))
    simp only [hc]
    split
    · next name _ _ =>
      refine goes_entering h Lexicon.all_nil ?_ (.cons (.visit hbody) (.cons .exit .nil))
      rintro _ (_ | ⟨_, ⟨⟩⟩)
      exact Word.usable_value (.inr hscrutinee)
    · exact h.goes_ok (.cons (.operand hpattern) (.cons (.clause hnid (List.cons_ne_nil _ _) hclauses hscrutinee) .nil))

theorem goes_tryClause {m : Machine} {pattern : NodeId} (h : m.Holds s (.values :: L))
    (hnid : m.pool.get? nid = some (.branch .case es)) (hscrutinee : m.pool.Fits .value scrutinee)
    (hne : clauses ≠ []) (hclauses : ∀ c ∈ clauses, m.pool.Fits .clause c) :
    Goes s m.pool (.values :: L) (m.tryClause nid scrutinee pattern clauses) := by
  cases clauses with
  | nil => exact absurd rfl hne
  | cons id clauses =>
    obtain ⟨hid, hclauses⟩ := List.forall_mem_cons.1 hclauses
    simp only [tryClause]
    split
    · obtain ⟨c, hc, -, hbody, -⟩ := exists_clause h.wellFormed.shaped hid
      simp only [hc]
      exact h.goes_ok (.cons (.visit hbody) .nil)
    · split
      · exact goes_select h hnid hscrutinee hclauses
      · exact goes_residualCase h hnid hscrutinee

/-! ### All tasks -/

/-- A task is carried out without fault, and the tasks that replace it leave what it would leave. -/
theorem goes_resume {m : Machine} {t : Task} (ht : t.Turns m.pool L L') (h : m.Holds s L) :
    Goes s m.pool L' (m.resume t) := by
  obtain ⟨v, e, b⟩ := m
  obtain ⟨⟨p, fs, rfl, hp, hfs⟩, he⟩ := h
  cases t with
  | visit nid =>
    cases ht with
    | visit hnid =>
      rcases hfs with _ | ⟨_ | hvs, hfs⟩
      exact goes_visit hp he hnid hvs hfs
    | visitBinding hnid =>
      rcases hfs with _ | ⟨⟨⟩, hfs⟩
      exact goes_visit_binding hp he hnid hfs
  | operand nid =>
    cases ht with
    | operand hnid =>
      refine goes_openFrame (l := .values) hp he (.values fun _ h => nomatch h) hfs fun q hpq => ?_
      exact .cons (.visit (hnid.mono hpq.keeps)) (.cons .collect .nil)
    | operandBinding hnid =>
      refine goes_openFrame (l := .nothing) hp he .nothing hfs fun q hpq => ?_
      exact .cons (.visitBinding (hnid.mono hpq.keeps)) (.cons .collectBinding .nil)
  | reduce r =>
    refine goes_reducing (m := ⟨⟨p, s.stacked fs⟩, e, b⟩) he ?_ fun _ _ => .nil
    exact Values.becomes_run ht hp hfs
  | select nid =>
    cases ht with
    | select hnid =>
      rcases hfs with _ | ⟨_ | _ | ⟨hv, hvs⟩, hfs⟩
      have hm : Holds s (.values :: _) ⟨⟨p, _⟩, e, b⟩ := ⟨⟨p, _, rfl, hp, .cons hvs hfs⟩, he⟩
      have hget : p.get? nid = _ := hnid
      simp only [resume, onValues_of_ok ValuesM.pop_stacked, pool, hget]
      exact goes_select hm hnid hv (fits_clauses hp hnid)
  | clause nid clauses scrutinee =>
    cases ht with
    | clause hnid hne hclauses hscrutinee =>
      rcases hfs with _ | ⟨_ | _ | ⟨hv, hvs⟩, hfs⟩
      have hm : Holds s (.values :: _) ⟨⟨p, _⟩, e, b⟩ := ⟨⟨p, _, rfl, hp, .cons hvs hfs⟩, he⟩
      simp only [resume, onValues_of_ok ValuesM.pop_stacked]
      exact goes_tryClause hm hnid hscrutinee hne hclauses
  | enter name =>
    cases ht
    refine goes_entering ⟨⟨p, fs, rfl, hp, hfs⟩, he⟩ Lexicon.all_nil ?_ .nil
    rintro _ (_ | ⟨_, ⟨⟩⟩)
    exact Word.usable_value (.inl rfl)
  | exit =>
    cases ht
    exact ⟨.refl p, _, ⟨⟨p, fs, rfl, hp, hfs⟩, he.exit⟩, .nil⟩

end Machine

end Linefold
