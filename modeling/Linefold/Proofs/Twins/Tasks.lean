import Linefold.Proofs.Folding.Frames
import Linefold.Proofs.Twins.Patterns
import Linefold.Proofs.Twins.Reductions

/-!
# Tasks over two pools

Two machines that are alike have tasks to carry out on nodes that are related in some way `S`, which may
relate more nodes than those that are alike (`Twin.Widens`). Whatever they do apart from visiting a node
leaves them alike, with tasks on nodes that are related again. The only thing that a fold ever reads of a
pool apart from its trees is the place of a case, which ends up in an error.
-/

namespace Linefold

attribute [local irreducible] Pool.intern

/-- An error without the place of a case that no clause matches. -/
def Error.bare : Error → Error
  | nonExhaustiveCase scrutinee _ => nonExhaustiveCase scrutinee none
  | e => e

theorem Error.message_bare (e : Error) : e.bare.message = e.message := by
  cases e <;> rfl

/-! ### Related nodes -/

/-- Nodes that are alike are related, and so they stay as the pools grow; a name is related to itself only. -/
class Twin.Widens (S : Twin → NodeId → NodeId → Prop) : Prop where
  mono {T U : Twin} {i j : NodeId} (h : S T i j) (hTU : T.Grows U) : S U i j
  of_alike {T : Twin} {i j : NodeId} (h : T.Alike i j) : S T i j
  name {T : Twin} {i j : NodeId} {s : String} (h : S T i j)
    (hs : T.left.get? i = some (.ident s) ∨ T.right.get? j = some (.ident s)) : T.Alike i j

instance : Twin.Widens Twin.Alike where
  mono := Twin.Alike.mono
  of_alike := id
  name h _ := h

variable {S : Twin → NodeId → NodeId → Prop} {T U : Twin} {i j : NodeId}
  {is js es fs args args' : List NodeId} {ts us : List Task} {name : String}

theorem Twin.Widens.get?_ident_iff [Twin.Widens S] {s : String} (h : S T i j) :
    T.left.get? i = some (.ident s) ↔ T.right.get? j = some (.ident s) := by
  constructor <;> intro hs
  · cases Twin.Widens.name h (.inl hs) with
    | absent => cases hs
    | node hi hj hm =>
      cases hi.symm.trans hs
      cases hm
      exact hj
  · cases Twin.Widens.name h (.inr hs) with
    | absent => cases hs
    | node hi hj hm =>
      cases hj.symm.trans hs
      cases hm
      exact hi

/-- Clauses of a case with parts in relation. -/
inductive Twin.Clauses (S : Twin → NodeId → NodeId → Prop) (T : Twin) : NodeId → NodeId → Prop where
  | alike {i j : NodeId} (h : T.Alike i j) : Clauses S T i j
  | plain {i j p p' b b' : NodeId} (hi : T.left.get? i = some (.branch .of [p, b]))
      (hj : T.right.get? j = some (.branch .of [p', b'])) (hp : S T p p') (hb : S T b b') : Clauses S T i j
  | binder {i j p p' b b' n n' : NodeId} (hi : T.left.get? i = some (.branch .of [p, b, n]))
      (hj : T.right.get? j = some (.branch .of [p', b', n'])) (hp : S T p p') (hb : S T b b')
      (hn : T.Alike n n') : Clauses S T i j

/-- Cases with related clauses. -/
structure Twin.Cases (S : Twin → NodeId → NodeId → Prop) (T : Twin) (i j : NodeId) : Prop where
  nodes : ∃ a b cs ds, T.left.get? i = some (.branch .case (a :: cs)) ∧
    T.right.get? j = some (.branch .case (b :: ds)) ∧ List.Forall₂ (Twin.Clauses S T) cs ds

/-- Children of nodes with one tag, the parameters of a `LAMBDA` apart: what is not folded is alike. -/
inductive Twin.Parts (S : Twin → NodeId → NodeId → Prop) (T : Twin) : Tag → List NodeId → List NodeId → Prop where
  | all {t : Tag} {es fs : List NodeId} (ht : t ≠ .binding ∧ t ≠ .case) (h : List.Forall₂ (S T) es fs) :
      Parts S T t es fs
  | binding {es fs : List NodeId} (h : List.Forall₂ T.Alike es fs) : Parts S T .binding es fs
  | entry {k k' v v' : NodeId} (hk : T.Alike k k') (hv : S T v v') : Parts S T .binding [k, v] [k', v']
  | nil : Parts S T .case [] []
  | case {a b : NodeId} {cs ds : List NodeId} (h : S T a b) (hcs : List.Forall₂ (Twin.Clauses S T) cs ds) :
      Parts S T .case (a :: cs) (b :: ds)

section

variable [Twin.Widens S]

theorem Twin.Clauses.mono (h : Twin.Clauses S T i j) (hTU : T.Grows U) : Twin.Clauses S U i j := by
  cases h with
  | alike h => exact .alike (h.mono hTU)
  | plain hi hj hp hb =>
    exact .plain (hTU.1 _ _ hi) (hTU.2 _ _ hj) (Twin.Widens.mono hp hTU) (Twin.Widens.mono hb hTU)
  | binder hi hj hp hb hn =>
    exact .binder (hTU.1 _ _ hi) (hTU.2 _ _ hj) (Twin.Widens.mono hp hTU) (Twin.Widens.mono hb hTU)
      (hn.mono hTU)

theorem Twin.forall₂_clauses_mono (h : List.Forall₂ (Twin.Clauses S T) is js) (hTU : T.Grows U) :
    List.Forall₂ (Twin.Clauses S U) is js :=
  h.imp fun _ _ h => h.mono hTU

theorem Twin.Cases.mono (h : Twin.Cases S T i j) (hTU : T.Grows U) : Twin.Cases S U i j := by
  obtain ⟨a, b, cs, ds, hi, hj, hcs⟩ := h
  exact ⟨a, b, cs, ds, hTU.1 _ _ hi, hTU.2 _ _ hj, Twin.forall₂_clauses_mono hcs hTU⟩

theorem Twin.forall₂_of_alike (h : List.Forall₂ T.Alike is js) : List.Forall₂ (S T) is js :=
  h.imp fun _ _ h => Twin.Widens.of_alike h

/-- The children of nodes that are alike. -/
theorem Twin.parts_of_alike {t : Tag} (h : List.Forall₂ T.Alike es fs) : Twin.Parts S T t es fs := by
  by_cases hbinding : t = .binding
  · subst hbinding
    exact .binding h
  by_cases hcase : t = .case
  · subst hcase
    cases h with
    | nil => exact .nil
    | cons hab hcs => exact .case (Twin.Widens.of_alike hab) (hcs.imp fun _ _ => .alike)
  · exact .all ⟨hbinding, hcase⟩ (Twin.forall₂_of_alike h)

end

/-! ### Tasks -/

/-- Tasks of one kind, on nodes that are related where they are to be folded and alike elsewhere. -/
inductive Task.Related (S : Twin → NodeId → NodeId → Prop) (T : Twin) : Task → Task → Prop where
  | visit {i j : NodeId} (h : S T i j) : Task.Related S T (.visit i) (.visit j)
  | operand {i j : NodeId} (h : S T i j) : Task.Related S T (.operand i) (.operand j)
  | reduce {r r' : Reduction} (h : r.Alike T r') : Task.Related S T (.reduce r) (.reduce r')
  | select {i j : NodeId} (h : Twin.Cases S T i j) : Task.Related S T (.select i) (.select j)
  | clause {i j scrutinee scrutinee' : NodeId} {clauses clauses' : List NodeId} (h : Twin.Cases S T i j)
      (hclauses : List.Forall₂ (Twin.Clauses S T) clauses clauses')
      (hscrutinee : T.Alike scrutinee scrutinee') :
      Task.Related S T (.clause i clauses scrutinee) (.clause j clauses' scrutinee')
  | enter (name : String) : Task.Related S T (.enter name) (.enter name)
  | exit : Task.Related S T .exit .exit

abbrev Task.AllRelated (S : Twin → NodeId → NodeId → Prop) (T : Twin) : List Task → List Task → Prop :=
  List.Forall₂ (Task.Related S T)

theorem Task.Related.mono [Twin.Widens S] {t u : Task} (h : Task.Related S T t u) (hTU : T.Grows U) :
    Task.Related S U t u := by
  cases h with
  | visit h => exact .visit (Twin.Widens.mono h hTU)
  | operand h => exact .operand (Twin.Widens.mono h hTU)
  | reduce h => exact .reduce (h.mono hTU)
  | select h => exact .select (h.mono hTU)
  | clause h hclauses hscrutinee =>
    exact .clause (h.mono hTU) (Twin.forall₂_clauses_mono hclauses hTU) (hscrutinee.mono hTU)
  | enter name => exact .enter name
  | exit => exact .exit

namespace Task.AllRelated

theorem mono [Twin.Widens S] (h : AllRelated S T ts us) (hTU : T.Grows U) : AllRelated S U ts us :=
  h.imp fun _ _ h => h.mono hTU

theorem map {R : NodeId → NodeId → Prop} {f : NodeId → Task} (h : List.Forall₂ R is js)
    (hf : ∀ i j, R i j → Task.Related S T (f i) (f j)) : AllRelated S T (is.map f) (js.map f) := by
  induction h with
  | nil => exact .nil
  | cons hij _ ih => exact .cons (hf _ _ hij) ih

theorem visits (h : List.Forall₂ (S T) is js) :
    AllRelated S T (is.reverse.map .visit) (js.reverse.map .visit) :=
  map (List.rel_reverse h) fun _ _ => .visit

end Task.AllRelated

namespace Machine

/-! ### Functions -/

structure Callee.Related (S : Twin → NodeId → NodeId → Prop) (T : Twin) (c d : Callee) : Prop where
  name : c.name = d.name
  body : S T c.body d.body
  pattern : List.Forall₂ T.Alike c.pattern d.pattern
  lexicon : c.lexicon.Alike T d.lexicon

variable {c d : Callee}

theorem Callee.Related.mono [Twin.Widens S] (h : Callee.Related S T c d) (hTU : T.Grows U) : Callee.Related S U c d :=
  ⟨h.name, Twin.Widens.mono h.body hTU, Twin.forall₂_mono h.pattern hTU, h.lexicon.mono hTU⟩

theorem agree_bindCallee [Twin.Widens S] (h : Callee.Related S T c d) (hargs : List.Forall₂ T.Alike args args') :
    Agree T (bindCallee c args) (bindCallee d args')
      fun U a b => List.Forall₂ (Word.Alike U) a.1 b.1 ∧ Task.AllRelated S U a.2 b.2 := by
  unfold bindCallee
  refine (Pattern.agree_bindAll hargs h.pattern).bind fun U bound bound' hTU hbound => ?_
  have hwords : List.Forall₂ (Word.Alike U) bound.words bound'.words := hbound.words.imp fun _ _ h => h.alike
  rw [hbound.late, hargs.length_eq, h.pattern.length_eq]
  have h := h.mono hTU
  have hargs := Twin.forall₂_mono hargs hTU
  split
  · refine (Pattern.agree_lambdaParts h.pattern).bind ?_
    rintro V ⟨names, pattern⟩ ⟨names', pattern'⟩ hUV ⟨hnames, hpattern⟩
    refine agree_pure fun W hVW => ⟨?_, .cons ?_ (.cons ?_ (List.rel_append ?_ ?_))⟩
    · exact hwords.imp fun _ _ h => h.mono (hUV.trans hVW)
    · exact .operand (Twin.Widens.mono h.body (hUV.trans hVW))
    · exact .reduce (.lambda (hnames.mono hVW) (hpattern.mono hVW))
    · exact Task.AllRelated.map (Twin.forall₂_mono hargs (hUV.trans hVW)) fun _ _ h => .reduce (.push h)
    · exact .cons (.reduce (.build _ _)) (.cons .exit .nil)
  · split
    · refine agree_pure fun V hUV => ⟨?_, .cons (.visit (Twin.Widens.mono h.body hUV)) (.cons .exit .nil)⟩
      exact hwords.imp fun _ _ h => h.mono hUV
    · refine (Pattern.agree_lambdaParts (List.forall₂_drop _ h.pattern)).bind ?_
      rintro V ⟨names, pattern⟩ ⟨names', pattern'⟩ hUV ⟨hnames, hpattern⟩
      refine agree_pure fun W hVW => ⟨?_, .cons ?_ (.cons ?_ (.cons .exit .nil))⟩
      · exact hwords.imp fun _ _ h => h.mono (hUV.trans hVW)
      · exact .operand (Twin.Widens.mono h.body (hUV.trans hVW))
      · exact .reduce (.lambda (hnames.mono hVW) (hpattern.mono hVW))

/-! ### Machines -/

/-- The pools of two machines. -/
def twin (m n : Machine) : Twin := ⟨m.pool, n.pool⟩

structure Alike (m n : Machine) : Prop where
  stack : m.values.stack.Alike (m.twin n) n.values.stack
  env : m.env.Alike (m.twin n) n.env
  budget : m.budget = n.budget

/-- Outcomes of folding that are alike. -/
def Corresponds {α : Type} (T : Twin) (R : Twin → α → α → Prop) :
    EStateM.Result Error Machine α → EStateM.Result Error Machine α → Prop
  | .ok a m, .ok b n => T.Grows (m.twin n) ∧ m.Alike n ∧ R (m.twin n) a b
  | .error e m, .error e' n => T.Grows (m.twin n) ∧ m.Alike n ∧ e.bare = e'.bare
  | _, _ => False

/-- Steps that leave related tasks. -/
abbrev StepsRelated (S : Twin → NodeId → NodeId → Prop) (T : Twin) : Step → Step → Prop :=
  Corresponds T (Task.AllRelated S)

variable {α : Type} {R : Twin → α → α → Prop} {m n : Machine} {e e' : Error}

theorem Corresponds.mono_left {r r' : EStateM.Result Error Machine α} (h : Corresponds U R r r')
    (hTU : T.Grows U) : Corresponds T R r r' := by
  cases r <;> cases r' <;> first | exact ⟨hTU.trans h.1, h.2⟩ | exact h

namespace Alike

theorem ok (h : m.Alike n) (htasks : Task.AllRelated S (m.twin n) ts us) :
    StepsRelated S (m.twin n) (.ok ts m) (.ok us n) :=
  ⟨.refl _, h, htasks⟩

theorem error (h : m.Alike n) (he : e.bare = e'.bare) :
    StepsRelated S (m.twin n) (.error e m) (.error e' n) :=
  ⟨.refl _, h, he⟩

theorem fail {fault : InternalFault} (h : m.Alike n) :
    StepsRelated S (m.twin n) (m.fail fault) (n.fail fault) :=
  h.error rfl

/-! ### Work on values -/

theorem onValues {f g : ValuesM α} {k k' : α → Machine → Step} (h : m.Alike n)
    (hfg : Agree (m.twin n) f g R)
    (hk : ∀ a b m' n', (m.twin n).Grows (twin m' n') → m'.Alike n' → R (twin m' n') a b →
      StepsRelated S (twin m' n') (k a m') (k' b n')) :
    StepsRelated S (m.twin n) (m.onValues f k) (n.onValues g k') := by
  obtain ⟨v, env, k⟩ := m
  obtain ⟨w, env', l⟩ := n
  obtain ⟨hstack, henv, hbudget⟩ := h
  have hres := hfg v w (.refl _) hstack
  unfold Machine.onValues
  unfold Agreed at hres
  split at hres
  · next a v' b w' hv hw =>
    obtain ⟨hgrows, hstack, hab⟩ := hres
    simp only [hv, hw]
    have hnext := hk a b ⟨v', env, k⟩ ⟨w', env', l⟩ hgrows ⟨hstack, henv.mono hgrows, hbudget⟩ hab
    exact hnext.mono_left hgrows
  · next err v' err' w' hv hw =>
    obtain ⟨hgrows, hstack, rfl⟩ := hres
    simp only [hv, hw]
    exact ⟨hgrows, ⟨hstack, henv.mono hgrows, hbudget⟩, rfl⟩
  · exact hres.elim

variable [Twin.Widens S]

theorem reducing {f g : ValuesM Unit} (h : m.Alike n) (hfg : Agree (m.twin n) f g fun _ => Eq)
    (htasks : Task.AllRelated S (m.twin n) ts us) :
    StepsRelated S (m.twin n) (m.reducing f ts) (n.reducing g us) :=
  h.onValues hfg fun _ _ _ _ hgrows h _ => h.ok (htasks.mono hgrows)

theorem push (h : m.Alike n) (hij : (m.twin n).Alike i j) :
    StepsRelated S (m.twin n) (m.reducing (ValuesM.push i) []) (n.reducing (ValuesM.push j) []) :=
  h.reducing (ValuesM.agree_push hij) .nil

theorem agree_openFrame : Agree T openFrame openFrame fun _ => Eq :=
  fun _ _ _ hst => ⟨.refl _, OperandStack.Alike.openFrame hst, rfl⟩

theorem agree_takeArgs {k : Nat} :
    Agree T (takeArgs k) (takeArgs k) fun U => List.Forall₂ U.Alike := by
  intro v w _ hst
  obtain ⟨hargs, hrest⟩ := OperandStack.Alike.popMany (n := k) hst
  exact ⟨.refl _, hrest, hargs⟩

theorem agree_onPool {f g : Pattern.PoolM α} (h : Agree T f g R) :
    Agree T (onPool f) (onPool g) R := by
  rintro ⟨p, s⟩ ⟨q, t⟩ hT hst
  have hres := h p q hT trivial
  unfold Agreed at hres
  split at hres
  · next a p' b q' hp hq =>
    obtain ⟨hgrows, -, hab⟩ := hres
    simp only [onPool, hp, hq]
    exact ⟨hgrows, OperandStack.Alike.mono hst hgrows, hab⟩
  · next err p' err' q' hp hq =>
    obtain ⟨hgrows, -, he⟩ := hres
    simp only [onPool, hp, hq]
    exact ⟨hgrows, OperandStack.Alike.mono hst hgrows, he⟩
  · exact hres.elim

/-! ### Scopes and functions -/

omit [Twin.Widens S] in
theorem entering {l l' : Lexicon} {ws vs : List Word} (h : m.Alike n)
    (hl : l.Alike (m.twin n) l') (hws : List.Forall₂ (Word.Alike (m.twin n)) ws vs)
    (htasks : Task.AllRelated S (m.twin n) ts us) :
    StepsRelated S (m.twin n) (m.entering name l ws ts) (n.entering name l' vs us) := by
  obtain ⟨v, env, b⟩ := m
  obtain ⟨w, env', b'⟩ := n
  unfold Machine.entering
  rcases h.env.enter name with ⟨hm, hn⟩ | ⟨e, f, hm, hn, henv⟩
  · simp only [hm, hn]
    exact h.error rfl
  · simp only [hm, hn]
    exact ⟨.refl _, ⟨h.stack, (henv.extend hl).bindAll hws, h.budget⟩, htasks⟩

theorem apply {c d : Callee} (h : m.Alike n) (hcd : Callee.Related S (m.twin n) c d) :
    StepsRelated S (m.twin n) (m.apply c) (n.apply d) := by
  unfold Machine.apply
  rw [hcd.pattern.length_eq]
  refine h.onValues agree_takeArgs fun args args' m' n' hgrows h hargs => ?_
  have hcd := hcd.mono hgrows
  rw [h.env.limit, h.env.depth_eq]
  split
  · exact h.error rfl
  · refine h.onValues (agree_onPool (agree_bindCallee hcd hargs)) ?_
    rintro ⟨ws, ts⟩ ⟨vs, us⟩ m'' n'' hgrows' h ⟨hws, htasks⟩
    rw [hcd.name]
    exact h.entering (hcd.lexicon.mono hgrows') hws htasks

/-! ### Names -/

theorem visitName (h : m.Alike n) (hij : (m.twin n).Alike i j) :
    StepsRelated S (m.twin n) (m.visitName i name) (n.visitName j name) := by
  have hword : Option.Rel _ (m.env.lookup? name) (n.env.lookup? name) := h.env.lookup?
  unfold Machine.visitName
  generalize m.env.lookup? name = left, n.env.lookup? name = right at hword ⊢
  cases hword with
  | none => exact h.push hij
  | @some w v hw =>
    have hnid : w.nid = 0 ↔ v.nid = 0 := hw.head.nid.eq_zero_iff
    simp only [hw.head.cls]
    cases v.cls with
    | value =>
      refine h.push ?_
      by_cases hzero : w.nid = 0
      · rw [if_pos hzero, if_pos (hnid.1 hzero)]
        exact hij
      · rw [if_neg hzero, if_neg (fun hv => hzero (hnid.2 hv))]
        exact hw.head.nid
    | function =>
      have hclosure := hw.closure
      generalize w.closure = left, v.closure = right at hclosure ⊢
      cases hclosure with
      | none => exact h.push hij
      | some hlexicon _ hpattern =>
        by_cases hzero : w.nid = 0
        · simp only [if_pos hzero, if_pos (hnid.1 hzero)]
          exact h.push hij
        · simp only [if_neg hzero, if_neg (fun hv => hzero (hnid.2 hv))]
          exact h.apply ⟨rfl, Twin.Widens.of_alike hw.head.nid, hpattern, hlexicon⟩
    | operator t =>
      refine h.onValues agree_takeArgs fun args args' m' n' hgrows h hargs => ?_
      refine h.onValues (ValuesM.agree_intern (.branch t hargs)) fun id id' m'' n'' hgrows' h hid => ?_
      rw [hargs.length_eq]
      split
      · obtain ⟨v, env, b⟩ := m''
        obtain ⟨w, env', b'⟩ := n''
        obtain ⟨hstack, henv, rfl⟩ := h
        cases b with
        | zero => exact ⟨.refl _, ⟨hstack, henv, rfl⟩, rfl⟩
        | succ b => exact ⟨.refl _, ⟨hstack, henv, rfl⟩, .cons (.visit (Twin.Widens.of_alike hid)) .nil⟩
      · exact h.push hid

end Alike

/-! ### Case -/

structure Clause.Related (S : Twin → NodeId → NodeId → Prop) (T : Twin) (c d : Clause) : Prop where
  pattern : S T c.pattern d.pattern
  body : S T c.body d.body
  names : Option.Rel T.Alike c.names d.names

theorem clause_related [Twin.Widens S] (h : Twin.Clauses S T i j) :
    SameOutcome (Clause.Related S T) (clause T.left i) (clause T.right j) := by
  unfold clause
  cases h with
  | plain hi hj hp hb =>
    simp only [hi, hj]
    exact .ok ⟨hp, hb, .none⟩
  | binder hi hj hp hb hn =>
    simp only [hi, hj]
    exact .ok ⟨hp, hb, .some hn⟩
  | alike h =>
    cases h with
    | absent => exact .error _
    | @node i j n m hi hj hm =>
      have helts := hm.forall₂_elts
      simp only [hi, hj]
      generalize n.elts = left, m.elts = right at helts ⊢
      rcases helts with _ | ⟨hpattern, _ | ⟨hbody, _ | ⟨hnames, _ | ⟨hx, hrest⟩⟩⟩⟩
      · exact .error _
      · exact .error _
      · exact .ok ⟨Twin.Widens.of_alike hpattern, Twin.Widens.of_alike hbody, .none⟩
      · exact .ok ⟨Twin.Widens.of_alike hpattern, Twin.Widens.of_alike hbody, .some hnames⟩
      · exact .error _

/-- A clause that binds a name has the same pattern in both. -/
theorem Clause.Related.variable_rel [Twin.Widens S] {c d : Clause} (h : Clause.Related S T c d) :
    Option.Rel (fun a b => a.1 = b.1 ∧ T.Alike a.2 b.2 ∧ T.Alike c.pattern d.pattern)
      ( c.variable? T.left) ( d.variable? T.right) := by
  obtain ⟨pattern, body, names⟩ := c
  obtain ⟨pattern', body', names'⟩ := d
  have hpattern : S T pattern pattern' := h.pattern
  have hnames : Option.Rel T.Alike names names' := h.names
  unfold Clause.variable?
  cases hnames with
  | none => exact .none
  | some hnames =>
    by_cases hs : ∃ s, T.left.get? pattern = some (.ident s)
    · obtain ⟨s, hi⟩ := hs
      have hj := (Twin.Widens.get?_ident_iff hpattern).1 hi
      simp only [hi, hj]
      exact .some ⟨rfl, hnames, Twin.Widens.name hpattern (.inl hi)⟩
    · split
      · next h => exact absurd ⟨_, h⟩ hs
      · split
        · next h => exact absurd ⟨_, (Twin.Widens.get?_ident_iff hpattern).2 h⟩ hs
        · exact .none

theorem residualClause_related [Twin.Widens S] (h : Twin.Clauses S T i j) :
    SameOutcome (Task.AllRelated S T) (residualClause T.left i) (residualClause T.right j) := by
  refine (clause_related h).bind fun c d hcd => ?_
  have hvar := hcd.variable_rel
  generalize c.variable? T.left = left, d.variable? T.right = right at hvar ⊢
  cases hvar with
  | none =>
    refine .ok (.cons (.operand hcd.pattern) (.cons (.operand hcd.body) ?_))
    exact .cons (.reduce (.build _ _)) .nil
  | @some a b hab =>
    obtain ⟨name, names⟩ := a
    obtain ⟨name', names'⟩ := b
    obtain ⟨rfl, hnames, hpattern⟩ := hab
    refine .ok (.cons (.reduce (.push hpattern)) (.cons (.enter name) (.cons (.operand hcd.body) ?_)))
    exact .cons .exit (.cons (.reduce (.push hnames)) (.cons (.reduce (.build _ _)) .nil))

theorem forall₂_flatten {α : Type} {R : α → α → Prop} {xss yss : List (List α)}
    (h : List.Forall₂ (List.Forall₂ R) xss yss) : List.Forall₂ R xss.flatten yss.flatten := by
  induction h with
  | nil => exact .nil
  | cons hxs _ ih => exact List.rel_append hxs ih

namespace Alike

variable [Twin.Widens S] {scrutinee scrutinee' pattern pattern' : NodeId} {clauses clauses' : List NodeId}

theorem residualCase (h : m.Alike n) (hij : Twin.Cases S (m.twin n) i j)
    (hscrutinee : (m.twin n).Alike scrutinee scrutinee') :
    StepsRelated S (m.twin n) (m.residualCase i scrutinee) (n.residualCase j scrutinee') := by
  obtain ⟨a, b, cs, ds, hi, hj, hcs⟩ := hij
  have hi : m.pool.get? i = some (.branch .case (a :: cs)) := hi
  have hj : n.pool.get? j = some (.branch .case (b :: ds)) := hj
  have htasks : SameOutcome _ (cs.mapM (residualClause m.pool)) (ds.mapM (residualClause n.pool)) :=
    SameOutcome.mapM hcs fun _ _ => residualClause_related
  unfold Machine.residualCase
  simp only [hi, hj, Node.elts, List.drop_one, List.tail_cons]
  generalize cs.mapM (residualClause m.pool) = left, ds.mapM (residualClause n.pool) = right at htasks ⊢
  cases htasks with
  | error fault => exact h.fail
  | ok htasks =>
    rw [List.length_cons, List.length_cons, hcs.length_eq]
    refine h.ok (.cons (.reduce (.push hscrutinee)) (List.rel_append (forall₂_flatten htasks) ?_))
    exact .cons (.reduce (.build _ _)) .nil

/-- The error names the tree of the scrutinee, and the case by its place only. -/
theorem exhausted (h : m.Alike n) (hij : Twin.Cases S (m.twin n) i j)
    (hscrutinee : (m.twin n).Alike scrutinee scrutinee') :
    StepsRelated S (m.twin n) (m.exhausted i scrutinee) (n.exhausted j scrutinee') := by
  have hground : m.pool.isGround scrutinee = n.pool.isGround scrutinee' := hscrutinee.isGround_eq
  have htree : m.pool.tree? scrutinee = n.pool.tree? scrutinee' := hscrutinee.tree?_eq
  unfold Machine.exhausted
  rw [hground, htree]
  split
  · exact h.error rfl
  · exact h.residualCase hij hscrutinee

theorem select (h : m.Alike n) (hij : Twin.Cases S (m.twin n) i j)
    (hscrutinee : (m.twin n).Alike scrutinee scrutinee')
    (hclauses : List.Forall₂ (Twin.Clauses S (m.twin n)) clauses clauses') :
    StepsRelated S (m.twin n) (m.select i scrutinee clauses) (n.select j scrutinee' clauses') := by
  unfold Machine.select
  cases hclauses with
  | nil => exact h.exhausted hij hscrutinee
  | @cons id id' _ _ hid hrest =>
    have hclause : SameOutcome _ (clause m.pool id) (clause n.pool id') := clause_related hid
    simp only
    generalize clause m.pool id = left, clause n.pool id' = right at hclause ⊢
    cases hclause with
    | error fault => exact h.fail
    | @ok c d hcd =>
      have hvar : Option.Rel _ ( c.variable? m.pool) ( d.variable? n.pool) := hcd.variable_rel
      simp only
      generalize c.variable? m.pool = left, d.variable? n.pool = right at hvar ⊢
      cases hvar with
      | none =>
        have hclauses := List.Forall₂.cons hid hrest
        exact h.ok (.cons (.operand hcd.pattern) (.cons (.clause hij hclauses hscrutinee) .nil))
      | @some a b hab =>
        obtain ⟨name, names⟩ := a
        obtain ⟨name', names'⟩ := b
        obtain ⟨rfl, -⟩ := hab
        refine h.entering .nil (.cons (Word.alike_value hscrutinee) .nil) ?_
        exact .cons (.visit hcd.body) (.cons .exit .nil)

/-- Ids are equal in both pools or in neither, since each pool holds a tree once. -/
theorem tryClause (h : m.Alike n) (hij : Twin.Cases S (m.twin n) i j)
    (hscrutinee : (m.twin n).Alike scrutinee scrutinee') (hpattern : (m.twin n).Alike pattern pattern')
    (hclauses : List.Forall₂ (Twin.Clauses S (m.twin n)) clauses clauses') :
    StepsRelated S (m.twin n) (m.tryClause i scrutinee pattern clauses)
      (n.tryClause j scrutinee' pattern' clauses') := by
  cases hclauses with
  | nil => exact h.fail
  | @cons id id' _ _ hid hrest =>
    have hsame : m.pool.unwrapGroup pattern = m.pool.unwrapGroup scrutinee ↔
        n.pool.unwrapGroup pattern' = n.pool.unwrapGroup scrutinee' :=
      Twin.eq_iff_eq hpattern.unwrapGroup hscrutinee.unwrapGroup
    have hground : m.pool.isGround scrutinee = n.pool.isGround scrutinee' := hscrutinee.isGround_eq
    have hground' : m.pool.isGround pattern = n.pool.isGround pattern' := hpattern.isGround_eq
    unfold Machine.tryClause
    by_cases heq : m.pool.unwrapGroup pattern = m.pool.unwrapGroup scrutinee
    · simp only [if_pos heq, if_pos (hsame.1 heq)]
      have hclause : SameOutcome _ (clause m.pool id) (clause n.pool id') := clause_related hid
      generalize clause m.pool id = left, clause n.pool id' = right at hclause ⊢
      cases hclause with
      | error fault => exact h.fail
      | ok hcd => exact h.ok (.cons (.visit hcd.body) .nil)
    · simp only [if_neg heq, if_neg (fun hn => heq (hsame.2 hn)), hground, hground']
      split
      · exact h.select hij hscrutinee hrest
      · exact h.residualCase hij hscrutinee

end Alike

/-! ### Nodes -/

structure Plan.Related (S : Twin → NodeId → NodeId → Prop) (T : Twin) (a b : Plan) : Prop where
  frame : a.frame = b.frame
  tasks : Task.AllRelated S T a.tasks b.tasks

theorem operatorPlan_related {r : Reduction} (h : List.Forall₂ (S T) es fs) (hr : r.Alike T r) :
    SameOutcome (Plan.Related S T) (operatorPlan es r) (operatorPlan fs r) := by
  rcases h with _ | ⟨ha, _ | ⟨hb, _ | ⟨hc, hrest⟩⟩⟩
  · exact .error _
  · exact .error _
  · exact .ok ⟨rfl, .cons (.operand ha) (.cons (.operand hb) (.cons (.reduce hr) .nil))⟩
  · exact .error _

/-- The plan for a node all of whose children are folded. -/
theorem plan_related_all {t : Tag} (ht : t ≠ .binding ∧ t ≠ .case) (h : List.Forall₂ (S T) es fs) :
    SameOutcome (Plan.Related S T) (plan i t es) (plan j t fs) := by
  have hbuild : Task.AllRelated S T (es.map .operand ++ [.reduce (.build t es.length)])
      (fs.map .operand ++ [.reduce (.build t fs.length)]) := by
    rw [h.length_eq]
    exact List.rel_append (Task.AllRelated.map h fun _ _ => .operand) (.cons (.reduce (.build _ _)) .nil)
  have hclose : Task.AllRelated S T (es.reverse.map .visit ++ [.reduce (.close t)])
      (fs.reverse.map .visit ++ [.reduce (.close t)]) :=
    List.rel_append (Task.AllRelated.visits h) (.cons (.reduce (.close t)) .nil)
  cases t
  case prog =>
    have hfirst := Task.AllRelated.map (List.forall₂_take 1 h) fun _ _ => Task.Related.visit
    exact .ok ⟨rfl, List.rel_append hfirst (.cons (.reduce (.close .prog)) .nil)⟩
  case exprs => exact .ok ⟨rfl, Task.AllRelated.visits h⟩
  case paren | list => exact .ok ⟨rfl, hclose⟩
  case record | apply | val | arg | of => exact .ok ⟨rfl, hbuild⟩
  case binding => exact absurd rfl ht.1
  case case => exact absurd rfl ht.2
  case add | sub | div | mod | pow => exact operatorPlan_related h (.arithmetic _)
  case concat => exact operatorPlan_related h .concat
  case eq | ne | lt | gt | le | ge => exact operatorPlan_related h (.compare _)
  case neg =>
    cases h with
    | nil => exact .error _
    | cons ha hrest => exact .ok ⟨rfl, .cons (.operand ha) (.cons (.reduce .negate) .nil)⟩
  all_goals exact .error _

theorem plan_related [Twin.Widens S] {t : Tag} (hi : T.left.get? i = some (.branch t es))
    (hj : T.right.get? j = some (.branch t fs)) (h : Twin.Parts S T t es fs) :
    SameOutcome (Plan.Related S T) (plan i t es) (plan j t fs) := by
  have hentry {k k' v v' : NodeId} (hk : T.Alike k k') (hv : S T v v') :
      SameOutcome (Plan.Related S T) (plan i .binding [k, v]) (plan j .binding [k', v']) :=
    .ok ⟨rfl, .cons (.reduce (.push hk)) (.cons (.operand hv) (.cons (.reduce (.build _ _)) .nil))⟩
  cases h with
  | all ht h => exact plan_related_all ht h
  | binding h =>
    rcases h with _ | ⟨hk, _ | ⟨hv, _ | ⟨hx, hrest⟩⟩⟩
    · exact .error _
    · exact .error _
    · exact hentry hk (Twin.Widens.of_alike hv)
    · exact .error _
  | entry hk hv => exact hentry hk hv
  | nil => exact .error _
  | case hab hcs =>
    exact .ok ⟨rfl, .cons (.operand hab) (.cons (.select ⟨_, _, _, _, hi, hj, hcs⟩) .nil)⟩

theorem lambda_related {a b c a' b' c' : NodeId} (hb : S T b b') (hc : T.Alike c c') :
    SameOutcome (Callee.Related S T) (lambda T.left [a, b, c]) (lambda T.right [a', b', c']) := by
  unfold lambda
  cases hc with
  | absent => exact .error _
  | node hi hj hm =>
    simp only [hi, hj]
    exact .ok ⟨rfl, hb, hm.forall₂_elts, .nil⟩

namespace Alike

variable [Twin.Widens S]

/-- Nodes with one tag and related children are visited in the same way. -/
theorem visit_branch {t : Tag} (h : m.Alike n) (hi : m.pool.get? i = some (.branch t es))
    (hj : n.pool.get? j = some (.branch t fs)) (ht : t ≠ .lambda) (hparts : Twin.Parts S (m.twin n) t es fs) :
    StepsRelated S (m.twin n) (m.visit i) (n.visit j) := by
  have hplan : SameOutcome _ (plan i t es) (plan j t fs) := plan_related hi hj hparts
  unfold Machine.visit
  simp only [hi, hj]
  generalize plan i t es = left, plan j t fs = right at hplan ⊢
  cases hplan with
  | error e => cases t <;> first | exact absurd rfl ht | exact h.error rfl
  | @ok a b hab =>
    have hstep : StepsRelated S (m.twin n)
        (if a.frame then m.reducing openFrame a.tasks else .ok a.tasks m)
        (if b.frame then n.reducing openFrame b.tasks else .ok b.tasks n) := by
      simp only [hab.frame]
      split
      · exact h.reducing agree_openFrame hab.tasks
      · exact h.ok hab.tasks
    cases t <;> first | exact absurd rfl ht | exact hstep

theorem visit_lambda {a b c a' b' c' : NodeId} (h : m.Alike n)
    (hi : m.pool.get? i = some (.branch .lambda [a, b, c]))
    (hj : n.pool.get? j = some (.branch .lambda [a', b', c'])) (hb : S (m.twin n) b b')
    (hc : (m.twin n).Alike c c') : StepsRelated S (m.twin n) (m.visit i) (n.visit j) := by
  have hcallee : SameOutcome (Callee.Related S (m.twin n)) (lambda m.pool [a, b, c])
      (lambda n.pool [a', b', c']) := lambda_related hb hc
  unfold Machine.visit
  simp only [hi, hj]
  generalize lambda m.pool [a, b, c] = left, lambda n.pool [a', b', c'] = right at hcallee ⊢
  cases hcallee with
  | error fault => exact h.fail
  | ok hcd => exact h.apply hcd

/-- Nodes that are alike are visited in the same way. -/
theorem visit (h : m.Alike n) (hij : (m.twin n).Alike i j) :
    StepsRelated S (m.twin n) (m.visit i) (n.visit j) := by
  have hid := hij
  cases hij with
  | absent => exact h.fail
  | @node i j a b hi hj hab =>
    have hi : m.pool.get? i = some a := hi
    have hj : n.pool.get? j = some b := hj
    cases hab with
    | ident s =>
      unfold Machine.visit
      simp only [hi, hj]
      exact h.visitName hid
    | @branch t es fs hes =>
      by_cases ht : t = .lambda
      · subst ht
        rcases hes with _ | ⟨ha, _ | ⟨hb, _ | ⟨hc, _ | ⟨hx, hrest⟩⟩⟩⟩
        case cons.cons.cons.nil => exact h.visit_lambda hi hj (Twin.Widens.of_alike hb) hc
        all_goals
          unfold Machine.visit
          simp only [hi, hj]
          exact h.fail
      · exact h.visit_branch hi hj ht (Twin.parts_of_alike hes)
    | _ =>
      unfold Machine.visit
      simp only [hi, hj]
      exact h.push hid

/-- Tasks other than a visit are carried out in the same way. -/
theorem resume {t u : Task} (h : m.Alike n) (htu : Task.Related S (m.twin n) t u)
    (hvisit : ∀ i, t ≠ .visit i) : StepsRelated S (m.twin n) (m.resume t) (n.resume u) := by
  cases htu with
  | visit => exact absurd rfl (hvisit _)
  | operand hij =>
    exact h.reducing agree_openFrame (.cons (.visit hij) (.cons (.reduce .collect) .nil))
  | reduce hr => exact h.reducing hr.agree_run .nil
  | @select i j hij =>
    unfold Machine.resume
    refine h.onValues ValuesM.agree_pop fun _ _ m' n' hgrows h hscrutinee => ?_
    have hij := hij.mono hgrows
    obtain ⟨a, b, cs, ds, hi, hj, hcs⟩ := hij
    have hi' : m'.pool.get? i = some (.branch .case (a :: cs)) := hi
    have hj' : n'.pool.get? j = some (.branch .case (b :: ds)) := hj
    simp only [hi', hj', Node.elts, List.drop_one, List.tail_cons]
    exact h.select ⟨a, b, cs, ds, hi, hj, hcs⟩ hscrutinee hcs
  | clause hij hclauses hscrutinee =>
    unfold Machine.resume
    refine h.onValues ValuesM.agree_pop fun _ _ m' n' hgrows h hpattern => ?_
    exact h.tryClause (hij.mono hgrows) (hscrutinee.mono hgrows) hpattern
      (Twin.forall₂_clauses_mono hclauses hgrows)
  | enter name => exact h.entering .nil (.cons (Word.alike_plain rfl rfl rfl) .nil) .nil
  | exit => exact ⟨.refl _, ⟨h.stack, h.env.exit.2, h.budget⟩, .nil⟩

end Alike

end Machine

end Linefold
