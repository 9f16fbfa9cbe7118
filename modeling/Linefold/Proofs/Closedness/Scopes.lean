import Linefold.Proofs.Closedness.Parsing

/-!
# Names that a scope introduces

The values of a scope are bound by operands of its level, and stay so once the elements of a list pattern are
elements of one node (`goes_takeParamList`). What is known in a scope that is thrown away is known around it or
bound by its level, but for what is lost with it, which is one of the names `M` (`Level.Good.known_or_binds`).
-/

namespace Linefold

attribute [local irreducible] Pool.intern

variable {M Op N : String → Prop} {t : Token} {K : List Cont} {l l₁ : Level} {ls : List Level} {s : Parsed}
  {brk : TokenKind} {base : Nat} {span : Span} {name x : String} {slot : Slot} {id : NodeId} {n : Node}
  {p q : Pool} {Γ : List Slot} {pending : Option String} {errors : Array Diagnostic} {scopes : List Scope}
  {sc : Scope}

/-! ### Names of a scope -/

theorem Known.inside (h : Known M errors (sc :: scopes) x) :
    x ∈ sc.lexicon.names ∨ Known M errors scopes x := by
  rcases h with h | h | ⟨k, hk, hx⟩
  · exact .inr (.inl h)
  · exact .inr (.inr (.inl h))
  · rcases List.mem_cons.1 hk with rfl | hk
    · exact .inl hx
    · exact .inr (.inr (.inr ⟨k, hk, hx⟩))

theorem Pool.exists_ident (h : x ∈ (p.pattern id).idents) : ∃ i, p.get? i = some (.ident x) := by
  induction id using Nat.strongRecOn with
  | ind id ih =>
    cases hn : p.get? id with
    | none =>
      rw [pattern_of_none hn, Pattern.idents] at h
      cases h
    | some n =>
      by_cases hname : ∃ s, n = .ident s
      · obtain ⟨s, rfl⟩ := hname
        rw [idents_ident hn, List.mem_singleton] at h
        exact ⟨id, h ▸ hn⟩
      · by_cases hlist : ∃ es, n = .branch .list es
        · obtain ⟨es, rfl⟩ := hlist
          rw [idents_list hn] at h
          obtain ⟨c, hc, hx⟩ := mem_params.1 h
          exact ih c (lt_of_get?_branch hn hc) hx
        · rw [pattern_of_ne hn (not_exists.1 hname) (not_exists.1 hlist), Pattern.idents] at h
          cases h

namespace Level.Good

/-- The values of a scope are bound by operands of the level. -/
theorem binds_of_mem_params (h : l.Good M Op N p pending) (hx : x ∈ l.scope.params) : l.Binds p x := by
  obtain ⟨⟨y, w⟩, hmem, hcls, hname⟩ := Lexicon.mem_params.1 hx
  have hcls : w.cls = .value := hcls
  have hallows := h.words _ hmem
  simp only [Level.Allows, hcls] at hallows
  exact (hallows.1.symm.trans hname) ▸ hallows.2

/-- A name of a scope that is thrown away. -/
theorem lost_or_binds (h : l.Good M Op N p pending) (howner : l.owner.Discards)
    (hx : x ∈ l.scope.lexicon.names) : M x ∨ x ∈ l.scope.params ∧ l.Binds p x := by
  obtain ⟨⟨y, w⟩, hmem, rfl⟩ := List.mem_map.1 hx
  have hallows := h.words _ hmem
  unfold Level.Allows at hallows
  cases hcls : w.cls with
  | operator t =>
    simp only [hcls] at hallows
    cases ho : l.owner with
    | globals =>
      rw [ho] at howner
      cases howner
    | definition | function | clause =>
      rw [ho] at hallows
      exact hallows.1.elim
  | value =>
    simp only [hcls] at hallows
    exact .inr ⟨Lexicon.mem_params.2 ⟨_, hmem, hcls, hallows.1⟩, hallows.2⟩
  | function =>
    simp only [hcls] at hallows
    cases ho : l.owner with
    | function | clause =>
      rw [ho] at hallows
      exact .inl hallows
    | globals | definition =>
      rw [ho] at howner
      cases howner

/-- What is known in a scope that is thrown away is known around it, or is bound by the level. -/
theorem known_or_binds (h : l.Good M Op N p pending) (howner : l.owner.Discards)
    (hx : Known M errors (l.scope :: scopes) x) : Known M errors scopes x ∨ x ∈ l.scope.params ∧ l.Binds p x := by
  rcases hx.inside with hx | hx
  · exact (h.lost_or_binds howner hx).imp_left fun hx => .inr (.inl hx)
  · exact .inl hx

end Level.Good

/-! ### Parameters -/

theorem Standing.top_eq (h : Standing M Op (l :: ls) s) : s.env.top = l.scope := by
  have hscopes := h.scopes
  unfold Environment.top
  cases hi : s.env.inner with
  | nil =>
    rw [hi] at hscopes
    exact (List.cons.inj hscopes).1.symm
  | cons sc inner =>
    rw [hi] at hscopes
    exact (List.cons.inj hscopes).1.symm

theorem Level.Allows.withPatterns {w : Word} (h : l.Allows M Op N p pending x w) (patterns : List NodeId) :
    l.Allows M Op N p pending x { w with patterns } := by
  have hclosed (h : w.Closed M p N x) : Word.Closed M p N x { w with patterns } := by
    cases h with
    | intro self carried => exact .intro self carried
  obtain ⟨cls, _⟩ := w
  cases cls with
  | operator | value => exact h
  | function =>
    obtain ⟨owner, _⟩ := l
    cases owner with
    | globals | definition => exact h.imp_right hclosed
    | function | clause => exact h

/-- A list pattern takes the place of its elements. -/
theorem Standing.listed {owner : Owner} {ids : List NodeId} {rest : List (Slot × NodeId)}
    (h : Standing M Op (⟨owner, sc, ids.map (Prod.mk .part) ++ rest⟩ :: ls) s)
    (hslot : slot = .part ∨ slot = .param) :
    Standing M Op (⟨owner, sc, (slot, (s.pool.intern (.branch .list ids.reverse)).1) :: rest⟩ :: ls)
      { s with pool := (s.pool.intern (.branch .list ids.reverse)).2 } := by
  have helts : ∀ id ∈ ids.reverse, Slot.part.Fills M (Known M s.errors (sc :: ls.map Level.scope)) s.pool id :=
    fun id hid => h.nest.1.parts (.part, id)
      (List.mem_append_left _ (List.mem_map.2 ⟨id, List.mem_reverse.1 hid, rfl⟩))
  have htidy : (Node.branch .list ids.reverse).Tidy M Op s.pool :=
    Node.tidy_branch (by decide) fun c hc => (helts c hc).1
  have hext := s.pool.extends_intern (.branch .list ids.reverse)
  have hget := Pool.get?_intern (p := s.pool) (n := .branch .list ids.reverse) htidy.held
  have hgrown := h.intern htidy
  revert hext hget hgrown
  generalize s.pool.intern (.branch .list ids.reverse) = list
  intro hext hget hgrown
  have hnames := Pool.idents_list hget
  have hfills : Slot.part.Fills M (Known M s.errors (sc :: ls.map Level.scope)) list.2 list.1 := by
    refine ⟨Pool.le_size_of_get? hget, fun x hx => ?_⟩
    rw [hnames] at hx
    obtain ⟨id, hid, hx⟩ := Pool.mem_params.1 hx
    rw [hext.pattern_eq (helts id hid).1] at hx
    exact (helts id hid).2 x hx
  refine hgrown.withParts (List.forall_mem_cons.2 ⟨?_, fun q hq => ?_⟩) ?_
  · rcases hslot with rfl | rfl
    · exact hfills
    · exact hfills.param
  · exact hgrown.nest.1.parts q (List.mem_append_right _ hq)
  · rintro x ⟨q, hq, hbinds, hx⟩
    rcases List.mem_append.1 hq with hq | hq
    · obtain ⟨id, hid, rfl⟩ := List.mem_map.1 hq
      refine ⟨_, List.mem_cons_self, by rcases hslot with rfl | rfl <;> rfl, ?_⟩
      rw [hnames]
      exact Pool.mem_params.2 ⟨id, List.mem_reverse.2 hid, hx⟩
    · exact ⟨q, .tail _ hq, hbinds, hx⟩

namespace ParseM

theorem goes_takeLetName (hM : t.kind = .ident → discards K = true → M t.lexeme)
    (hK : Laid K l.owner (l.parts.map Prod.fst) (ls.map Level.row)) (h : Leveled M Op l ls s) :
    Ensures (takeLetName t) (Goes M Op K) (fun _ _ => True) s := by
  unfold takeLetName
  rw [Ensures.bind_iff, ensures_expect]
  split
  · next ht =>
    simp only [Ensures.bind_iff, ensures_ask, ensures_define, ensures_enter]
    split
    · trivial
    · have hdeclared := h.toStanding.declare (x := t.lexeme) fun howner => hM ht (hK.discards howner)
      have hlevels : Leveled M Op _ _ _ := ⟨hdeclared, h.operands⟩
      have hlength : s.env.depth = ls.length + 1 := by
        simpa [Environment.depth] using (congrArg List.length h.scopes).symm
      have hlaid : Laid (.letEqual (s.env.depth - 1) t.lexeme s.operands.length :: K) (.definition t.lexeme) []
          ((l :: ls).map Level.row) := by
        refine ⟨rfl, ?_, 0, _, _, _, rfl, rfl, h.length_operands_eq, hK⟩
        rw [hlength, List.length_map]
        rfl
      exact hlevels.inScope hlaid
  · trivial

theorem fills_paramSlot (hM : brk = .rightBracket → M x) (hget : p.get? id = some (.ident x)) :
    (paramSlot brk).Fills M N p id := by
  unfold paramSlot
  split
  · next hbrk =>
    refine ⟨Pool.le_size_of_get? hget, fun y hy => ?_⟩
    rw [Pool.idents_ident hget, List.mem_singleton] at hy
    exact hy ▸ hM hbrk
  · exact ⟨Pool.le_size_of_get? hget, fun es hes => nomatch hget.symm.trans hes⟩

theorem binds_paramSlot (brk : TokenKind) : (paramSlot brk).binds := by
  unfold paramSlot
  split <;> rfl

/-- A name becomes a value that an operand of the level binds. -/
theorem leveled_defineValue {w : Word} (h : Leveled M Op l ls s) (slot : Slot) (span : Span) (hplain : ¬ Op x)
    (hw : w.cls = .value ∧ w.name = x) (hslot : slot.binds)
    (hfills : ∀ p : Pool, s.pool.Extends p → ∀ id, p.get? id = some (.ident x) →
      slot.Fills M (Known M s.errors ((l.scope.bind x w) :: ls.map Level.scope)) p id) :
    Leveled M Op ((l.put slot (s.pool.internAt (.ident x) span).1).define x w) ls
      { s with
        pool := (s.pool.internAt (.ident x) span).2
        operands := (s.pool.internAt (.ident x) span).1 :: s.operands
        env := s.env.bind x w } := by
  have hext := s.pool.extends_internAt (.ident x) span
  have htidy : (Node.ident x).Tidy M Op s.pool := Node.tidy_ident hplain
  have hget : (s.pool.internAt (.ident x) span).2.get? (s.pool.internAt (.ident x) span).1 = some (.ident x) :=
    Pool.get?_intern nofun
  have hgrown := h.toStanding.grow hext (h.pool.internAt htidy)
  have hgood := hgrown.nest.1
  refine ⟨⟨Environment.scopes_bind h.scopes, ⟨?_, hgrown.nest.2⟩, hgrown.pool⟩, congrArg (_ :: ·) h.operands⟩
  refine ⟨List.forall_mem_cons.2 ⟨hfills _ hext _ hget, fun r hr => ?_⟩,
    Lexicon.nodup_names_insert hgood.distinct, ?_, hgood.pends⟩
  · exact (hgood.parts r hr).mono fun y hy => Known.bind hy x w
  · refine Lexicon.all_insert_of_ne hgood.distinct (fun nv hnv _ => ?_) ?_
    · exact (hgood.words nv hnv).mono (fun y hy => Known.bind hy x w) (.refl _) (fun hx => hx) rfl
        fun ⟨r, hr, hbinds⟩ => ⟨r, .tail _ hr, hbinds⟩
    · simp only [Level.Allows, hw.1]
      refine ⟨hw.2, _, List.mem_cons_self, hslot, ?_⟩
      rw [Pool.idents_ident hget]
      exact List.mem_singleton.2 rfl

theorem goes_offerParam (hplain : t.kind = .ident → ¬ Op t.lexeme)
    (hM : brk = .rightBracket → t.kind = .ident → M t.lexeme) (hN : Stacked (.params brk) K)
    (hK : Laid K l.owner (l.parts.map Prod.fst) (ls.map Level.row)) (h : Leveled M Op l ls s) :
    Ensures (offerParam brk base t) (Goes M Op K) (fun _ _ => True) s := by
  unfold offerParam
  split
  · exact ⟨l, ls, hK, h⟩
  · split
    · have hslot : paramSlot brk = .part ∨ paramSlot brk = .param := by
        unfold paramSlot
        split
        · exact .inl rfl
        · exact .inr rfl
      exact ⟨l, ls, ⟨_, hslot, .nil h.length_eq (Laid.cons_param (K := K) hN hK)⟩, h⟩
    · rw [Ensures.bind_iff, ensures_expect]
      split
      · next ht =>
        simp only [Ensures.bind_iff, ensures_ask, ensures_define, ensures_leaveAt]
        have hdefined := leveled_defineValue (w := .value t.lexeme s.env.top.params.length) h _ t.span
          (hplain ht) ⟨rfl, rfl⟩ (binds_paramSlot brk) fun p _ id hget =>
            fills_paramSlot (fun hbrk => hM hbrk ht) hget
        exact hdefined.inScope (K := [.params brk base] ++ K) (Laid.cons_param (K := K) hN hK)
      · trivial

/-- Only words of the innermost scope change, and only in what they say about patterns. -/
theorem standing_markPattern {list : NodeId} (ids : List NodeId) (h : Standing M Op (l :: ls) s) :
    Ensures (markPattern list ids) (fun _ s' => s'.pool = s.pool ∧ s'.operands = s.operands ∧
      ∃ l', l'.owner = l.owner ∧ l'.parts = l.parts ∧ Standing M Op (l' :: ls) s') (fun _ _ => True) s := by
  induction ids generalizing s l with
  | nil => exact ⟨rfl, rfl, l, rfl, rfl, h⟩
  | cons id ids ih =>
    unfold markPattern
    rw [Ensures.bind_iff, ensures_ask]
    split
    · next name _ =>
      rw [Ensures.bind_iff, ensures_ask]
      split
      · next w hw =>
        rw [Ensures.bind_iff, ensures_define]
        rw [h.top_eq] at hw
        have hallows : l.Allows M Op (KnownOn M s l ls) s.pool none name w := h.nest.1.words.find? hw
        have hmarked : (l.define name { w with patterns := [list] }).Allows M Op
            (Known M s.errors ((l.define name { w with patterns := [list] } :: ls).map Level.scope)) s.pool
            none name { w with patterns := [list] } := by
          exact (hallows.withPatterns [list]).mono (fun y hy => Known.bind hy _ _) (.refl _) (fun hx => hx) rfl
            fun hbinds => hbinds
        refine (ih (h.define hmarked)).mono ?_ fun _ _ he => he
        rintro - s' ⟨hpool, hoperands, l', howner, hparts, h'⟩
        exact ⟨hpool, hoperands, l', howner, hparts, h'⟩
      · exact ih h
    · exact ih h

/-- The elements of a list pattern are still bound once they are elements of one node. -/
theorem goes_takeParamList (hK : Laid (.paramList base :: K) l.owner (l.parts.map Prod.fst) (ls.map Level.row))
    (h : Leveled M Op l ls s) : Ensures (takeParamList base t) (Goes M Op K) (fun _ _ => True) s := by
  unfold takeParamList
  rw [Ensures.bind_iff, ensures_expect]
  split
  · obtain ⟨slot, hslot, n, Γ, hΓ, hb, hK⟩ := hK
    obtain ⟨owner, scope, parts⟩ := l
    obtain ⟨ids, rest, rfl, rfl, -⟩ := parts_of_replicate hΓ
    have hops : s.operands = ids ++ operandsOf (⟨owner, scope, rest⟩ :: ls) := h.operands.trans operandsOf_append
    rw [Ensures.bind_iff, ensures_drainFrom_append hops (hb.trans length_operandsOf.symm), Ensures.bind_iff,
      ensures_intern]
    have hdrained : Standing M Op (⟨owner, scope, ids.map (Prod.mk .part) ++ rest⟩ :: ls)
        { s with operands := operandsOf (⟨owner, scope, rest⟩ :: ls) } := ⟨h.scopes, h.nest, h.pool⟩
    have hlisted := hdrained.listed hslot
    refine Ensures.bind_iff.2 ((standing_markPattern ids.reverse hlisted).mono ?_ fun _ _ he => he)
    rintro - s' ⟨-, hoperands, l', howner, hparts, h'⟩
    rw [Ensures.bind_iff, ensures_push]
    refine ⟨l', ls, ?_, ⟨h'.scopes, h'.nest, h'.pool⟩, ?_⟩
    · rw [howner, hparts]
      exact hK
    · have htop : operandsOf (l' :: ls) = _ :=
        congrArg (fun parts => parts.map Prod.snd ++ operandsOf ls) hparts
      exact (congrArg (_ :: ·) hoperands).trans htop.symm
  · trivial

end ParseM

end Linefold
