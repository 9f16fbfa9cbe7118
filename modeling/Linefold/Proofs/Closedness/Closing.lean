import Linefold.Proofs.Closedness.Scopes

/-!
# Scopes that are closed

The names of a function are bound by its parameters and that of a clause by its pattern, so that a node over
them no longer needs the scope (`goes_takeLambdaEnd`, `inScope_finishClause`). A definition carries its scope
with it (`inScope_finishLet`). What a function or a clause defines is lost, and is one of the names `M`.
-/

namespace Linefold

attribute [local irreducible] Pool.intern

variable {M Op N : String → Prop} {t : Token} {K : List Cont} {l l₁ : Level} {ls : List Level} {s : Parsed}
  {base depth : Nat} {span : Span} {name x : String} {slot : Slot} {body : NodeId} {n : Node} {p : Pool}
  {Γ : List Slot} {pattern : List NodeId} {errors : Array Diagnostic} {scopes : List Scope}

/-! ### What a scope binds -/

/-- The level of a function or a definition that is through. -/
def Level.Whole (l : Level) (body : NodeId) (pattern : List NodeId) : Prop :=
  l.parts = (.node, body) :: pattern.reverse.map (Prod.mk .param)

namespace Level.Whole

variable {pending : Option String}

theorem fills_body (hl : l.Whole body pattern) (h : l.Good M Op N p pending) :
    Slot.node.Fills M N p body :=
  h.parts (.node, body) (by rw [hl]; exact List.mem_cons_self)

theorem fills_param (hl : l.Whole body pattern) (h : l.Good M Op N p pending) :
    ∀ id ∈ pattern, Slot.param.Fills M N p id := fun id hid => by
  refine h.parts (.param, id) ?_
  rw [hl]
  exact .tail _ (List.mem_map.2 ⟨id, List.mem_reverse.2 hid, rfl⟩)

theorem mem_params_of_binds (hl : l.Whole body pattern) (h : l.Binds p x) : x ∈ p.params pattern := by
  obtain ⟨q, hq, hbinds, hx⟩ := h
  rw [hl] at hq
  rcases List.mem_cons.1 hq with rfl | hq
  · cases hbinds
  · obtain ⟨id, hid, rfl⟩ := List.mem_map.1 hq
    exact Pool.mem_params.2 ⟨id, List.mem_reverse.1 hid, hx⟩

end Level.Whole

/-- What a clause binds is the name of its pattern. -/
theorem Level.Binds.of_clause {owner : Owner} {scope : Scope} {pat : NodeId} (hslot : slot = .node ∨ slot = .subject)
    (hpat : slot.Fills M N p pat) (h : Level.Binds ⟨owner, scope, [(.node, body), (slot, pat)]⟩ p x) :
    p.get? pat = some (.ident x) := by
  obtain ⟨q, hq, hbinds, hx⟩ := h
  rcases List.mem_cons.1 hq with rfl | hq
  · cases hbinds
  · obtain rfl := List.mem_singleton.1 hq
    rcases hslot with rfl | rfl
    · cases hbinds
    · obtain ⟨y, hget, -⟩ := hpat
      rw [Pool.idents_ident hget, List.mem_singleton] at hx
      exact hx ▸ hget

theorem Slot.Fills.sees (h : slot.Fills M N p body) (hslot : slot = .node ∨ slot = .subject) : p.Sees N body := by
  rcases hslot with rfl | rfl
  · exact h.2
  · obtain ⟨y, hget, hy⟩ := h
    exact Pool.sees_ident hget hy

/-- The values of a scope are no operator words. -/
theorem Level.Good.not_op_of_mem_params {pending : Option String} (h : l.Good M Op N p pending)
    (hp : p.Tidy M Op) (hx : x ∈ l.scope.params) : ¬ Op x := by
  obtain ⟨q, -, -, hident⟩ := h.binds_of_mem_params hx
  obtain ⟨id, hid⟩ := Pool.exists_ident hident
  exact hp.names id x hid

theorem Leveled.grow (h : Leveled M Op l ls s) (hext : s.pool.Extends p) (hp : p.Tidy M Op) :
    Leveled M Op l ls { s with pool := p } :=
  ⟨h.toStanding.grow hext hp, h.operands⟩

/-- A node is interned for what it is wherever it is found. -/
theorem Leveled.interned {E : Error → Parsed → Prop} {Q : NodeId → Parsed → Prop} (h : Leveled M Op l ls s)
    (hn : n.Tidy M Op s.pool)
    (hQ : ∀ id pool, s.pool.Extends pool → pool.get? id = some n → Leveled M Op l ls { s with pool } →
      Q id { s with pool }) :
    Ensures (ParseM.intern n) Q E s :=
  hQ _ _ (s.pool.extends_intern n) (Pool.get?_intern hn.held) (h.grow (s.pool.extends_intern n) (h.pool.intern hn))

namespace ParseM

theorem ensures_internNames_tidy {E : Error → Parsed → Prop} {names : List String} (h : Leveled M Op l ls s)
    (hnames : ∀ x ∈ names, ¬ Op x) : Ensures (internNames names) (fun ids s' => s.pool.Extends s'.pool ∧
      s' = { s with pool := s'.pool } ∧ Leveled M Op l ls s' ∧ (∀ id ∈ ids, id ≤ s'.pool.size) ∧
      ids.length = names.length) E s := by
  induction names generalizing s with
  | nil => exact ⟨.refl _, rfl, h, nofun, rfl⟩
  | cons x names ih =>
    obtain ⟨hx, hnames⟩ := List.forall_mem_cons.1 hnames
    unfold internNames
    refine Ensures.bind_iff.2 (h.interned (Node.tidy_ident hx) fun id pool hext hget h => ?_)
    refine Ensures.bind_iff.2 ((ih h hnames).mono ?_ fun _ _ he => he)
    rintro ids s' ⟨hext', heq, h', hids, hlength⟩
    refine ⟨hext.trans hext', heq, h', List.forall_mem_cons.2 ⟨?_, hids⟩, congrArg (· + 1) hlength⟩
    exact hext'.le_size (Pool.le_size_of_get? hget)

/-- The end of a function or of a definition takes its level. -/
theorem ensures_closing {β : Type} {E : Error → Parsed → Prop} {Q : β → Parsed → Prop}
    {k : NodeId → List NodeId → ParseM β} {next : Owner → List Slot → List Row → Prop}
    (hΓ : Closing [.node] .param base (l.parts.map Prod.fst) (ls.map Level.row) next) (h : Leveled M Op l ls s)
    (hk : ∀ body pattern l₁ ls', ls = l₁ :: ls' → next l₁.owner (l₁.parts.map Prod.fst) (ls'.map Level.row) →
      l.Whole body pattern → Ensures (k body pattern) Q E { s with operands := operandsOf ls }) :
    Ensures (do k (← pop) (← drainFrom base)) Q E s := by
  obtain ⟨n, o, Γ₀, Ξ₀, hΓ, hΞ, hb, hnext⟩ := hΓ
  obtain ⟨owner, scope, parts⟩ := l
  rcases parts with _ | ⟨⟨slot, body⟩, parts⟩
  · cases hΓ
  obtain ⟨rfl, hslots⟩ := List.cons.inj hΓ
  have hslots : parts.map Prod.fst = List.replicate n .param ++ [] := by rw [List.append_nil]; exact hslots
  obtain ⟨ids, rest, rfl, hrest, -⟩ := parts_of_replicate hslots
  obtain rfl := List.map_eq_nil_iff.1 hrest
  obtain ⟨l₁, ls', rfl, hrow, rfl⟩ := List.map_eq_cons_iff.1 hΞ
  have hids : operandsOf (⟨owner, scope, ids.map (Prod.mk .param) ++ []⟩ :: l₁ :: ls') = ids ++ operandsOf (l₁ :: ls') :=
    operandsOf_append
  have hops : s.operands = body :: (ids ++ operandsOf (l₁ :: ls')) := h.operands.trans (congrArg (body :: ·) hids)
  rw [Ensures.bind_iff, ensures_pop_cons hops, Ensures.bind_iff,
    ensures_drainFrom_append rfl (hb.trans operandCount_eq)]
  obtain ⟨rfl, rfl⟩ := Prod.mk.inj hrow
  refine hk body ids.reverse l₁ ls' rfl hnext ?_
  rw [Level.Whole, List.reverse_reverse, List.append_nil]

/-! ### Functions -/

theorem goes_takeLambdaEnd (hK : Laid (.lambdaEnd base :: K) l.owner (l.parts.map Prod.fst) (ls.map Level.row))
    (h : Leveled M Op l ls s) : Ensures (takeLambdaEnd base t) (Goes M Op K) (fun _ _ => True) s := by
  unfold takeLambdaEnd
  rw [Ensures.bind_iff, ensures_expect]
  split
  · obtain ⟨howner, hclosing⟩ := hK
    refine ensures_closing hclosing h fun body pattern l₁ ls' hls hK hwhole => ?_
    subst hls
    have hgood := h.nest.1
    obtain ⟨env, hexit, hstanding⟩ := h.toStanding.exit (l := l) (by rw [howner]; rfl)
    rw [Ensures.bind_iff, ensures_exit]
    simp only [hexit]
    have hleft : Leveled M Op l₁ ls' { s with operands := operandsOf (l₁ :: ls'), env } :=
      ⟨⟨hstanding.scopes, hstanding.nest, hstanding.pool⟩, rfl⟩
    have hbody := hwhole.fills_body hgood
    have hparams := hwhole.fills_param hgood
    -- A name of the scope is a parameter, unless nothing is promised for it.
    have hinside (x : String) (hx : Known M s.errors ((l :: l₁ :: ls').map Level.scope) x) :
        Known M s.errors ((l₁ :: ls').map Level.scope) x ∨ x ∈ s.pool.params pattern :=
      (hgood.known_or_binds (by rw [howner]; trivial) hx).imp_right fun hx => hwhole.mem_params_of_binds hx.2
    have hsees := hbody.2.mono hinside
    refine Ensures.bind_iff.2 ((ensures_internNames_tidy hleft
      fun x hx => hgood.not_op_of_mem_params h.pool hx).mono ?_ fun _ _ he => he)
    rintro names s₁ ⟨hext₁, heq, h₁, hnames, -⟩
    have herrors : s₁.errors = s.errors := by rw [heq]
    have hnode : (Node.branch .list names).Tidy M Op s₁.pool := Node.tidy_branch (by decide) hnames
    refine Ensures.bind_iff.2 (h₁.interned hnode fun nid p₂ hext₂ hnid h₂ => ?_)
    have hpattern : (Node.branch .list pattern).Tidy M Op p₂ :=
      Node.tidy_branch (by decide) fun c hc => (hext₁.trans hext₂).le_size (hparams c hc).1
    refine Ensures.bind_iff.2 (h₂.interned hpattern fun pid p₃ hext₃ hpid h₃ => ?_)
    have hext : s.pool.Extends p₃ := (hext₁.trans hext₂).trans hext₃
    have htidy : (Node.branch .lambda [nid, body, pid]).Tidy M Op p₃ := by
      refine ⟨?_, nofun, fun _ _ _ m heq hm i hi => ?_⟩
      · have hle := hext₃.le_size (Pool.le_size_of_get? hnid)
        simpa [Node.elts] using ⟨hle, hext.le_size hbody.2.held, Pool.le_size_of_get? hpid⟩
      · cases heq
        obtain rfl := Option.some.inj (hpid.symm.trans hm)
        exact (hparams i hi).2.grow (hparams i hi).1 hext
    have hleft := h₃.leaveAt .node t.span htidy fun p₄ hext₄ id hid => by
      refine fills_node hid (Pool.sees_lambda hid (hext₄ _ _ hpid) ?_)
      refine (hsees.grow (hext.trans hext₄)).mono fun x hx => ?_
      rw [Node.elts, (hext.trans hext₄).params_eq fun id hid => (hparams id hid).1]
      exact hx.imp_left fun hx => by rw [KnownOn, herrors]; exact hx
    exact hleft.inScope hK
  · trivial

/-! ### Definitions -/

/-- The word of a definition that is through. -/
theorem closed_of_definition {w : Word} (howner : l.owner = .definition x)
    (hgood : l.Good M Op (fun y => y ∈ l.scope.lexicon.names ∨ N y) p none) (hwhole : l.Whole body pattern)
    (hw : w.nid = body ∧ w.closure = some ⟨l.scope.lexicon, l.scope.params, pattern⟩) : w.Closed M p N name := by
  obtain ⟨rfl, hclosure⟩ := hw
  have hbody := hwhole.fills_body hgood
  have hparams := hwhole.fills_param hgood
  have hallows (y : String) (v : Word) (hmem : (y, v) ∈ l.scope.lexicon) := hgood.words _ hmem
  unfold Level.Allows at hallows
  rw [howner] at hallows
  refine .intro (fun _ => ⟨hbody.1, _, hclosure, ⟨⟨?_, fun i hi => (hparams i hi).1⟩,
    fun i hi => (hparams i hi).2, ?_⟩⟩) fun _ c hc nw hnw => ?_
  · exact hbody.2.mono fun y hy => by tauto
  · rintro ⟨y, v⟩ hmem hne
    have hv := hallows y v hmem
    cases hcls : v.cls with
    | function => exact absurd hcls hne
    | operator t =>
      simp only [hcls] at hv
      exact hv.1.elim
    | value =>
      simp only [hcls] at hv
      exact ⟨rfl, hwhole.mem_params_of_binds hv.2⟩
  · cases hclosure.symm.trans hc
    obtain ⟨y, v⟩ := nw
    by_cases hcls : v.cls = .function
    · have hv := hallows y v hnw
      simp only [hcls] at hv
      exact (hv.resolve_left nofun).mono fun z hz => hz.symm
    · exact .of_ne hcls

theorem inScope_finishLet {E : Error → Parsed → Prop}
    (hK : Laid (.letBody depth name base :: K) l.owner (l.parts.map Prod.fst) (ls.map Level.row))
    (h : Leveled M Op l ls s) : Ensures (finishLet depth name base) (fun _ s => InScope M Op K s) E s := by
  obtain ⟨howner, hdepth, hclosing⟩ := hK
  refine ensures_closing hclosing h fun body pattern l₁ ls' hls hK hwhole => ?_
  subst hls
  obtain rfl : depth = ls'.length := by simpa using hdepth
  have hgood := h.nest.1
  have hgood₁ := h.nest.2.1
  rw [howner] at hgood₁
  have hallows (w : Word) (hcls : w.cls = .function) (hnid : w.nid = body)
      (hclosure : w.closure = some ⟨l.scope.lexicon, l.scope.params, pattern⟩) : (l₁.define name w).Allows M Op
        (Known M s.errors ((l₁.define name w :: ls').map Level.scope)) s.pool none name w := by
    have hinside : l.Good M Op (fun y => y ∈ l.scope.lexicon.names ∨
        Known M s.errors ((l₁.define name w :: ls').map Level.scope) y) s.pool none :=
      hgood.mono (fun y hy => hy.inside.imp_right fun hy => hy.bind name w) (.refl _)
    have hclosed : w.Closed M s.pool _ name := closed_of_definition howner hinside hwhole ⟨hnid, hclosure⟩
    simp only [Level.Allows, hcls, Level.define]
    cases ho : l₁.owner with
    | globals | definition => exact Or.inr hclosed
    | function | clause => exact hgood₁.pends name rfl (by rw [ho]; trivial)
  obtain ⟨env, hexit, hstanding⟩ := h.toStanding.finish (l := l) (by rw [howner]; rfl)
    (hallows { Word.function name with
      nid := body
      arity := pattern.length
      closure := some ⟨l.scope.lexicon, l.scope.params, pattern⟩ } rfl rfl rfl)
  rw [Ensures.bind_iff, ensures_exit]
  simp only [hexit]
  exact ⟨l₁.define name _, ls', hK, ⟨hstanding.scopes, hstanding.nest, hstanding.pool⟩, rfl⟩

/-! ### Clauses -/

theorem goes_takePattern (hplain : t.kind = .ident → ¬ Op t.lexeme)
    (hnode : Laid K l.owner (.node :: l.parts.map Prod.fst) (ls.map Level.row))
    (hsubject : Laid K l.owner (.subject :: l.parts.map Prod.fst) (ls.map Level.row))
    (h : Leveled M Op l ls s) : Ensures (takePattern t) (Goes M Op K) (fun _ _ => True) s := by
  unfold takePattern
  rw [Ensures.bind_iff, ensures_lookup?]
  split
  · next ht =>
    simp only [Ensures.bind_iff, ensures_internAt, ensures_define, ensures_push]
    have hdefined (id : NodeId) := leveled_defineValue
      (w := { Word.value t.lexeme 0 with patterns := [id] }) h .subject t.span (hplain ht.1) ⟨rfl, rfl⟩ rfl
      fun p _ id hget => ⟨_, hget, .inr (.inr ⟨_, List.mem_cons_self, Lexicon.mem_names_insert.2 (.inl rfl)⟩)⟩
    exact (hdefined _).inScope (K := K) hsubject
  · exact (delivers_takeOperand hplain hnode h).goes

/-- The clause of a variable binds it in its body, and any other clause binds nothing. -/
theorem inScope_leaveClause {E : Error → Parsed → Prop} {pat : NodeId}
    (hK : Laid K l.owner (.clause :: l.parts.map Prod.fst) (ls.map Level.row)) (h : Leveled M Op l ls s)
    (hpat : s.pool.Sees (KnownOn M s l ls) pat) (hbody : s.pool.Sees (KnownOn M s l ls) body) :
    Ensures (leave (.branch .of [pat, body])) (fun _ s => InScope M Op K s) E s := by
  have htidy : (Node.branch .of [pat, body]).Tidy M Op s.pool :=
    Node.tidy_branch (by decide) (by simpa using ⟨hpat.held, hbody.held⟩)
  have hleft := h.leave .clause htidy fun p hext id hid =>
    Pool.seesClause_pair hid (hpat.grow hext) (hbody.grow hext)
  exact hleft.inScope hK

theorem inScope_leaveBindingClause {E : Error → Parsed → Prop} {pat : NodeId} {names : List NodeId}
    (hK : Laid K l.owner (.clause :: l.parts.map Prod.fst) (ls.map Level.row)) (h : Leveled M Op l ls s)
    (hpat : s.pool.get? pat = some (.ident x)) (hbody : s.pool.Sees (fun y => KnownOn M s l ls y ∨ y = x) body)
    (hnames : ∀ id ∈ names, id ≤ s.pool.size) :
    Ensures (do leave (.branch .of [pat, body, ← intern (.branch .list names)])) (fun _ s => InScope M Op K s) E s := by
  have hlist : (Node.branch .list names).Tidy M Op s.pool := Node.tidy_branch (by decide) hnames
  refine Ensures.bind_iff.2 (h.interned hlist fun nid p hext hnid h => ?_)
  have htidy : (Node.branch .of [pat, body, nid]).Tidy M Op p := Node.tidy_branch (by decide) (by
    simpa using ⟨hext.le_size (Pool.le_size_of_get? hpat), hext.le_size hbody.held, Pool.le_size_of_get? hnid⟩)
  have hleft := h.leave .clause htidy fun q hext' id hid =>
    Pool.seesClause_variable hid ((hext.trans hext') _ _ hpat) (hbody.grow (hext.trans hext'))
  exact hleft.inScope hK

theorem inScope_finishClause {E : Error → Parsed → Prop}
    (hK : Laid (.ofEnd :: K) l.owner (l.parts.map Prod.fst) (ls.map Level.row)) (h : Leveled M Op l ls s) :
    Ensures finishClause (fun _ s => InScope M Op K s) E s := by
  obtain ⟨howner, slot, o, Γ, Ξ, hslot, hΓ, hΞ, hK⟩ := hK
  obtain ⟨l₁, ls', rfl, hrow, rfl⟩ := List.map_eq_cons_iff.1 hΞ
  obtain ⟨rfl, rfl⟩ := Prod.mk.inj hrow
  obtain ⟨owner, scope, parts⟩ := l
  rcases parts with _ | ⟨⟨first, body⟩, _ | ⟨⟨second, pat⟩, _ | ⟨q, parts⟩⟩⟩
  · cases hΓ
  · cases hΓ
  · obtain ⟨rfl, rfl⟩ : first = .node ∧ second = slot := by simpa using hΓ
    have hgood := h.nest.1
    have hbody := (hgood.parts _ (.head _)).2
    have hpat := hgood.parts (second, pat) (.tail _ (.head _))
    have howner : owner.Discards := by
      cases owner <;> first | exact howner.elim | trivial
    obtain ⟨env, hexit, hstanding⟩ := h.toStanding.exit (by cases owner <;> first | exact howner.elim | rfl)
    unfold finishClause
    rw [Ensures.bind_iff, ensures_pop_cons h.operands, Ensures.bind_iff, ensures_pop_cons rfl,
      Ensures.bind_iff, ensures_exit]
    simp only [hexit]
    have hleft : Leveled M Op l₁ ls' { s with operands := operandsOf (l₁ :: ls'), env } :=
      ⟨⟨hstanding.scopes, hstanding.nest, hstanding.pool⟩, rfl⟩
    refine Ensures.bind_iff.2 ((ensures_internNames_tidy hleft
      fun x hx => hgood.not_op_of_mem_params h.pool hx).mono ?_ fun _ _ he => he)
    rintro names s₁ ⟨hext₁, heq, h₁, hnames, hlength⟩
    have hknown : KnownOn M s₁ l₁ ls' = Known M s.errors ((l₁ :: ls').map Level.scope) := by rw [heq]
    have hinside (x : String) (hx : Known M s.errors (scope :: (l₁ :: ls').map Level.scope) x) :
        KnownOn M s₁ l₁ ls' x ∨ x ∈ scope.params ∧ s.pool.get? pat = some (.ident x) := by
      rw [hknown]
      exact (hgood.known_or_binds howner hx).imp_right fun hx => ⟨hx.1, hx.2.of_clause hslot hpat⟩
    split
    · next hempty =>
      have hparams : scope.params = [] := by
        rw [← List.length_eq_zero_iff, ← hlength, List.isEmpty_iff.1 hempty]
        rfl
      have hoften {id : NodeId} (h : s.pool.Sees _ id) : s₁.pool.Sees (KnownOn M s₁ l₁ ls') id :=
        (h.mono fun x hx => (hinside x hx).resolve_right fun hx => by simp [hparams] at hx).grow hext₁
      exact inScope_leaveClause hK h₁ (hoften (hpat.sees hslot)) (hoften hbody)
    · next hempty =>
      obtain ⟨y, hy⟩ : ∃ y, y ∈ scope.params := by
        refine List.exists_mem_of_ne_nil _ fun hparams => hempty ?_
        rw [hparams] at hlength
        exact List.isEmpty_iff.2 (List.length_eq_zero_iff.1 hlength)
      have hget := Level.Binds.of_clause hslot hpat (hgood.binds_of_mem_params hy)
      have hsees : s.pool.Sees (fun x => KnownOn M s₁ l₁ ls' x ∨ x = y) body := hbody.mono fun x hx =>
        (hinside x hx).imp_right fun hx => Node.ident.inj (Option.some.inj (hx.2.symm.trans hget))
      exact inScope_leaveBindingClause hK h₁ (hext₁ _ _ hget) (hsees.grow hext₁) hnames
  · cases hΓ

/-- The end of a case takes its clauses, and its scrutinee below them. -/
theorem goes_leaveCase (hK : Laid (.caseClauses base span :: K) l.owner (l.parts.map Prod.fst) (ls.map Level.row))
    (h : Leveled M Op l ls s) : Ensures (do
      leaveAt (.branch .case (← drainFrom base)) span
      return .taken .keyword []) (Goes M Op K) (fun _ _ => True) s := by
  obtain ⟨n, Γ, hΓ, hb, hK⟩ := hK
  obtain ⟨owner, scope, parts⟩ := l
  obtain ⟨ids, rest, rfl, hrest, -⟩ := parts_of_replicate hΓ
  rcases rest with _ | ⟨⟨slot, first⟩, rest⟩
  · cases hrest
  obtain ⟨rfl, rfl⟩ := List.cons.inj hrest
  have hops : s.operands = (ids ++ [first]) ++ operandsOf (⟨owner, scope, rest⟩ :: ls) := by
    rw [List.append_assoc]
    exact h.operands.trans operandsOf_append
  have hparts : Standing M Op (⟨owner, scope, (ids.map (Prod.mk .clause) ++ [(.node, first)]) ++ rest⟩ :: ls) s := by
    simpa using h.toStanding
  have hdrop : Standing M Op (⟨owner, scope, rest⟩ :: ls) s := by
    refine hparts.drop fun q hq => ?_
    rcases List.mem_append.1 hq with hq | hq
    · obtain ⟨id, -, rfl⟩ := List.mem_map.1 hq
      rfl
    · obtain rfl := List.mem_singleton.1 hq
      rfl
  have hfirst : Slot.node.Fills M _ s.pool first := h.nest.1.parts _ (List.mem_append_right _ (.head _))
  have hclauses : ∀ id ∈ ids.reverse, s.pool.SeesClause (KnownOn M s ⟨owner, scope, rest⟩ ls) id := fun id hid =>
    h.nest.1.parts (.clause, id)
      (List.mem_append_left _ (List.mem_map.2 ⟨id, List.mem_reverse.1 hid, rfl⟩))
  rw [Ensures.bind_iff, ensures_drainFrom_append hops (hb.trans length_operandsOf.symm), Ensures.bind_iff,
    ensures_leaveAt, List.reverse_append, List.reverse_singleton]
  have hdrained : Leveled M Op ⟨owner, scope, rest⟩ ls
      { s with operands := operandsOf (⟨owner, scope, rest⟩ :: ls) } :=
    ⟨⟨hdrop.scopes, hdrop.nest, hdrop.pool⟩, rfl⟩
  have htidy : (Node.branch .case (first :: ids.reverse)).Tidy M Op s.pool :=
    Node.tidy_branch (by decide) (List.forall_mem_cons.2 ⟨hfirst.2.held, fun id hid => (hclauses id hid).held⟩)
  have hleft := hdrained.leaveAt .node span htidy fun p hext id hget =>
    fills_node hget (Pool.sees_case hget (hfirst.2.grow hext) fun id hid => (hclauses id hid).grow hext)
  exact hleft.inScope hK

theorem goes_takeCaseClause
    (hK : Laid (.caseClauses base span :: K) l.owner (l.parts.map Prod.fst) (ls.map Level.row))
    (h : Leveled M Op l ls s) : Ensures (takeCaseClause base span t) (Goes M Op K) (fun _ _ => True) s := by
  unfold takeCaseClause
  split
  · rw [Ensures.bind_iff, ensures_enter]
    split
    · trivial
    · obtain ⟨n, Γ, hΓ, hb, hK⟩ := hK
      have hentered : Leveled M Op ⟨.clause, ⟨"case", []⟩, []⟩ (l :: ls) _ :=
        ⟨h.toStanding.enter rfl "case", h.operands⟩
      have hnext : Laid (.caseClauses base span :: K) l.owner (.clause :: l.parts.map Prod.fst) (ls.map Level.row) :=
        ⟨n + 1, Γ, by rw [hΓ]; rfl, hb, hK⟩
      have hlaid (slot : Slot) (hslot : slot = .node ∨ slot = .subject) :
          Laid (.ofColon :: .ofEnd :: .caseClauses base span :: K) .clause [slot] ((l :: ls).map Level.row) :=
        ⟨rfl, slot, _, _, _, hslot, rfl, rfl, hnext⟩
      exact hentered.inScope (K := .pattern :: .ofColon :: .ofEnd :: .caseClauses base span :: K)
        ⟨hlaid .node (.inl rfl), hlaid .subject (.inr rfl)⟩
  · rw [Ensures.bind_iff, ensures_expect]
    split
    · exact goes_leaveCase hK h
    · trivial

/-- A conditional is a case on the two booleans. -/
theorem goes_takeIfEnd (hΓ : l.parts.map Prod.fst = [.node, .node, .node] ++ Γ)
    (hb : base = Γ.length + operandCount (ls.map Level.row))
    (hK : Laid K l.owner (.node :: Γ) (ls.map Level.row)) (h : Leveled M Op l ls s) :
    Ensures (takeIfEnd base span t) (Goes M Op K) (fun _ _ => True) s := by
  unfold takeIfEnd
  rw [Ensures.bind_iff, ensures_expect]
  split
  · have hover : Over .node base (l.parts.map Prod.fst) (ls.map Level.row)
        fun Γ => Laid K l.owner (.node :: Γ) (ls.map Level.row) := ⟨3, Γ, hΓ, hb, hK⟩
    refine Ensures.bind_iff.2 (h.drainFrom hover rfl fun ids parts rest hids hK h => ?_)
    split
    · next condition yes no =>
      have hc : Slot.node.Fills M _ s.pool condition := hids condition (by simp)
      have hy : Slot.node.Fills M _ s.pool yes := hids yes (by simp)
      have hn : Slot.node.Fills M _ s.pool no := hids no (by simp)
      refine Ensures.bind_iff.2 (h.interned (Node.tidy_literal rfl) fun yid p₁ h₁ hyid h => ?_)
      refine Ensures.bind_iff.2 (h.interned (Node.tidy_literal rfl) fun nid p₂ h₂ hnid h => ?_)
      have h₁₂ := h₁.trans h₂
      have hyid : p₂.Sees (KnownOn M s l ls) yid := (Pool.sees_literal hyid rfl).grow h₂
      have hnid : p₂.Sees (KnownOn M s l ls) nid := Pool.sees_literal hnid rfl
      have hyes : (Node.branch .of [yid, yes]).Tidy M Op p₂ :=
        Node.tidy_branch (by decide) (by simpa using ⟨hyid.held, h₁₂.le_size hy.2.held⟩)
      refine Ensures.bind_iff.2 (h.interned hyes fun yes' p₃ h₃ hyes h => ?_)
      have hno : (Node.branch .of [nid, no]).Tidy M Op p₃ := Node.tidy_branch (by decide)
        (by simpa using ⟨h₃.le_size hnid.held, h₃.le_size (h₁₂.le_size hn.2.held)⟩)
      refine Ensures.bind_iff.2 (h.interned hno fun no' p₄ h₄ hno h => ?_)
      have hyes : p₄.SeesClause (KnownOn M s l ls) yes' :=
        (Pool.seesClause_pair hyes (hyid.grow h₃) ((hy.2.grow h₁₂).grow h₃)).grow h₄
      have hno : p₄.SeesClause (KnownOn M s l ls) no' := Pool.seesClause_pair hno
        ((hnid.grow h₃).grow h₄) (((hn.2.grow h₁₂).grow h₃).grow h₄)
      have hc : p₄.Sees (KnownOn M s l ls) condition := ((hc.2.grow h₁₂).grow h₃).grow h₄
      have htidy : (Node.branch .case [condition, yes', no']).Tidy M Op p₄ :=
        Node.tidy_branch (by decide) (by simpa using ⟨hc.held, hyes.held, hno.held⟩)
      have hleft := h.leaveAt .node span htidy fun p hext id hget =>
        fills_node hget (Pool.sees_case hget (hc.grow hext) (by simpa using ⟨hyes.grow hext, hno.grow hext⟩))
      exact hleft.inScope hK
    · trivial
  · trivial

end ParseM

end Linefold
