import Linefold.Proofs.Closedness.Laid
import Linefold.Proofs.Views

/-!
# Names are parsed where they are known

Every position that can go on and is offered a suitable token leaves positions that can go on
(`inScope_offer`), and with them operands that see names of their own scopes and of those around. The proof
follows the grammar. Most of it is about operands of one level; a construct that opens a scope adds a level
(`Standing.enter`), and the end of a function, of a clause and of a definition takes one away.
-/

namespace Linefold

attribute [local irreducible] Pool.intern

variable {M Op : String → Prop} {t : Token} {K : List Cont} {l : Level} {ls : List Level} {s : Parsed}
  {brk : TokenKind} {base : Nat} {span : Span} {name : String} {slot : Slot} {id : NodeId} {n : Node}
  {p : Pool} {Γ : List Slot}

/-- What a position made of a token lets the positions go on. A program sees the globals. -/
def Goes (M Op : String → Prop) (K : List Cont) : Offer → Parsed → Prop
  | .taken _ next, s => InScope M Op (next ++ K) s
  | .declined, s => InScope M Op K s
  | .finished root, s => ∃ l, l.owner = .globals ∧ l.parts = [] ∧ Standing M Op [l] s ∧
      Slot.node.Fills M (Known M s.errors [l.scope]) s.pool root

/-- The token is taken, and the positions left can go on. -/
def Delivers (M Op : String → Prop) (K : List Cont) (f : ParseM Offer) (s : Parsed) : Prop :=
  Ensures f (fun a s => ∃ cls next, a = .taken cls next ∧ InScope M Op (next ++ K) s) (fun _ _ => True) s

theorem Delivers.goes {f : ParseM Offer} (h : Delivers M Op K f s) :
    Ensures f (Goes M Op K) (fun _ _ => True) s := by
  refine h.mono ?_ fun _ _ he => he
  rintro _ s ⟨cls, next, rfl, h⟩
  exact h

theorem Delivers.followedBy {c : Cont} {f : ParseM Offer} (h : Delivers M Op (c :: K) f s) :
    Delivers M Op K (ParseM.followedBy [c] <$> f) s := by
  refine Ensures.map_iff.2 (h.mono ?_ fun _ _ he => he)
  rintro _ s ⟨cls, next, rfl, h⟩
  refine ⟨cls, next ++ [c], rfl, ?_⟩
  rw [List.append_assoc]
  exact h

/-! ### Operands of one level -/

/-- The names that the operands of the innermost level may use. -/
abbrev KnownOn (M : String → Prop) (s : Parsed) (l : Level) (ls : List Level) : String → Prop :=
  Known M s.errors ((l :: ls).map Level.scope)

theorem fills_node {N : String → Prop} (hget : p.get? id = some n) (h : p.Sees N id) : Slot.node.Fills M N p id :=
  ⟨Pool.ne_zero_of_get? hget, h⟩

theorem fills_literal {N : String → Prop} (hn : n.isLiteral) (hget : p.get? id = some n) :
    Slot.node.Fills M N p id :=
  fills_node hget (Pool.sees_literal hget hn)

theorem fills_branch {N : String → Prop} {tag : Tag} {es : List NodeId}
    (ht : tag ≠ .lambda ∧ tag ≠ .binding ∧ tag ≠ .case) (hget : p.get? id = some (.branch tag es))
    (hes : ∀ c ∈ es, p.Sees N c) : Slot.node.Fills M N p id :=
  fills_node hget (Pool.sees_branch hget ht hes)

namespace Leveled

theorem inScope (h : Leveled M Op l ls s) (hK : Laid K l.owner (l.parts.map Prod.fst) (ls.map Level.row)) :
    InScope M Op K s :=
  ⟨l, ls, hK, h⟩

theorem length_eq (h : Leveled M Op l ls s) :
    s.operands.length = (l.parts.map Prod.fst).length + operandCount (ls.map Level.row) := by
  rw [h.operands, operandsOf, operandCount_eq]
  simp

theorem length_operands_eq (h : Leveled M Op l ls s) : s.operands.length = operandCount ((l :: ls).map Level.row) := by
  rw [operandCount_eq, h.operands]

theorem known_of_lookup? (h : Leveled M Op l ls s) (hx : (s.env.lookup? name).isSome) :
    KnownOn M s l ls name := by
  refine .inr (.inr ?_)
  rw [h.scopes]
  obtain ⟨w, hw⟩ := Option.isSome_iff_exists.1 hx
  unfold Environment.lookup? at hw
  rcases Option.or_eq_some_iff.1 hw with hw | ⟨-, hw⟩
  · obtain ⟨sc, hsc, hw⟩ := List.exists_of_findSome?_eq_some hw
    exact ⟨sc, List.mem_append_left _ hsc, Lexicon.mem_names_of_find? (Option.isSome_iff_exists.2 ⟨w, hw⟩)⟩
  · refine ⟨s.env.globals, List.mem_append_right _ (List.mem_singleton.2 rfl), ?_⟩
    exact Lexicon.mem_names_of_find? (Option.isSome_iff_exists.2 ⟨w, hw⟩)

theorem report (h : Leveled M Op l ls s) (d : Diagnostic) :
    Leveled M Op l ls { s with errors := s.errors.push d } :=
  ⟨h.toStanding.report d, h.operands⟩

theorem push (h : Leveled M Op l ls s) (hid : slot.Fills M (KnownOn M s l ls) s.pool id) :
    Leveled M Op (l.put slot id) ls { s with operands := id :: s.operands } := by
  have hput := h.toStanding.put hid
  exact ⟨⟨hput.scopes, hput.nest, hput.pool⟩, congrArg (id :: ·) h.operands⟩

/-- A node is left for what it is wherever it is found. -/
theorem leave (h : Leveled M Op l ls s) (slot : Slot) (hn : n.Tidy M Op s.pool)
    (hfills : ∀ p : Pool, s.pool.Extends p → ∀ id, p.get? id = some n → slot.Fills M (KnownOn M s l ls) p id) :
    Leveled M Op (l.put slot (s.pool.intern n).1) ls { s with
      pool := (s.pool.intern n).2
      operands := (s.pool.intern n).1 :: s.operands } := by
  have hgrown : Leveled M Op l ls { s with pool := (s.pool.intern n).2 } := ⟨h.intern hn, h.operands⟩
  exact hgrown.push (hfills _ (s.pool.extends_intern n) _ (Pool.get?_intern hn.held))

theorem leaveAt (h : Leveled M Op l ls s) (slot : Slot) (span : Span) (hn : n.Tidy M Op s.pool)
    (hfills : ∀ p : Pool, s.pool.Extends p → ∀ id, p.get? id = some n → slot.Fills M (KnownOn M s l ls) p id) :
    Leveled M Op (l.put slot (s.pool.internAt n span).1) ls { s with
      pool := (s.pool.internAt n span).2
      operands := (s.pool.internAt n span).1 :: s.operands } := by
  have hgrown : Leveled M Op l ls { s with pool := (s.pool.internAt n span).2 } :=
    ⟨h.grow (s.pool.extends_internAt n span) (h.pool.internAt hn), h.operands⟩
  exact hgrown.push (hfills _ (s.pool.extends_internAt n span) _ (Pool.get?_intern hn.held))

/-- The last operand is taken. -/
theorem pop {E : Error → Parsed → Prop} {Q : NodeId → Parsed → Prop} (h : Leveled M Op l ls s)
    (hΓ : l.parts.map Prod.fst = slot :: Γ) (hslot : slot.binds = false)
    (hQ : ∀ id parts rest, slot.Fills M (KnownOn M s l ls) s.pool id → parts.map Prod.fst = Γ →
      Leveled M Op { l with parts } ls { s with operands := rest } → Q id { s with operands := rest }) :
    Ensures ParseM.pop Q E s := by
  obtain ⟨owner, scope, parts⟩ := l
  cases parts with
  | nil => cases hΓ
  | cons q parts =>
    obtain ⟨rfl, hparts⟩ := List.cons.inj hΓ
    refine (ParseM.ensures_pop_cons h.operands).2 (hQ _ parts _ (h.nest.1.parts q (.head _)) hparts ?_)
    have hfront : ∀ r ∈ [q], r.1.binds = false := by simpa using hslot
    have hdrop : Standing M Op (⟨owner, scope, parts⟩ :: ls) s := h.toStanding.drop hfront
    exact ⟨⟨hdrop.scopes, hdrop.nest, hdrop.pool⟩, rfl⟩

/-- What lies above a height is taken in source order. -/
theorem drainFrom {E : Error → Parsed → Prop} {Q : List NodeId → Parsed → Prop} {next : List Slot → Prop}
    (h : Leveled M Op l ls s) (hΓ : Over slot base (l.parts.map Prod.fst) (ls.map Level.row) next)
    (hslot : slot.binds = false)
    (hQ : ∀ ids parts rest, (∀ id ∈ ids, slot.Fills M (KnownOn M s l ls) s.pool id) →
      next (parts.map Prod.fst) → Leveled M Op { l with parts } ls { s with operands := rest } →
      Q ids { s with operands := rest }) :
    Ensures (ParseM.drainFrom base) Q E s := by
  obtain ⟨owner, scope, parts⟩ := l
  obtain ⟨n, Γ₀, hparts, hb, hnext⟩ := hΓ
  obtain ⟨ids, parts, rfl, rfl, rfl⟩ := parts_of_replicate hparts
  have hfront : ∀ q ∈ ids.map (Prod.mk slot), q.1.binds = false := by simpa using fun _ _ => hslot
  have hdrop := h.toStanding.drop hfront
  have hops : s.operands = ids ++ operandsOf (⟨owner, scope, parts⟩ :: ls) := h.operands.trans operandsOf_append
  refine (ParseM.ensures_drainFrom_append hops (hb.trans length_operandsOf.symm)).2 (hQ _ parts _ (fun id hid => ?_) hnext ?_)
  · exact h.nest.1.parts (slot, id)
      (List.mem_append_left _ (List.mem_map.2 ⟨id, List.mem_reverse.1 hid, rfl⟩))
  · exact ⟨⟨hdrop.scopes, hdrop.nest, hdrop.pool⟩, rfl⟩

end Leveled

namespace ParseM

/-! ### Primary expressions and operands -/

theorem exists_literal_of_constant? {w : Word} (h : constant? p w = some id) :
    ∃ n, p.get? id = some n ∧ n.isLiteral := by
  unfold constant? at h
  split at h
  · split at h
    · split at h
      · next hlit =>
        cases h
        exact (Option.any_eq_true _ _).1 hlit
      · cases h
    · cases h
  · cases h

/-- A name that is not known is reported. -/
theorem delivers_takeName (hplain : t.kind = .ident → ¬ Op t.lexeme)
    (hK : Laid K l.owner (.node :: l.parts.map Prod.fst) (ls.map Level.row)) (h : Leveled M Op l ls s) :
    Delivers M Op K (takeName t) s := by
  unfold takeName Delivers
  rw [Ensures.bind_iff, ensures_expect]
  split
  · next ht =>
    simp only [Ensures.bind_iff, ensures_lookup?, ensures_ask]
    split
    · next id hid =>
      obtain ⟨w, hw, hconstant⟩ := Option.bind_eq_some_iff.1 hid
      obtain ⟨n, hget, hn⟩ := exists_literal_of_constant? hconstant
      rw [hw]
      exact ⟨_, _, rfl, (h.push (fills_literal hn hget)).inScope hK⟩
    · have hident {s : Parsed} : (Node.ident t.lexeme).Tidy M Op s.pool := Node.tidy_ident (hplain ht)
      cases hw : s.env.lookup? t.lexeme with
      | none =>
        have hreported := h.report (.nameNotFound t.span t.lexeme)
        have hleft := hreported.leaveAt _ t.span hident fun p _ _ hget =>
          fills_node hget (Pool.sees_ident hget (.inl (by simp)))
        exact ⟨_, _, rfl, hleft.inScope hK⟩
      | some w =>
        have hknown := h.known_of_lookup? (Option.isSome_iff_exists.2 ⟨w, hw⟩)
        have hleft := h.leaveAt _ t.span hident fun p _ _ hget =>
          fills_node hget (Pool.sees_ident hget hknown)
        exact ⟨_, _, rfl, hleft.inScope hK⟩
  · trivial

theorem delivers_takePrimary (hplain : t.kind = .ident → ¬ Op t.lexeme)
    (hK : Laid K l.owner (.node :: l.parts.map Prod.fst) (ls.map Level.row)) (h : Leveled M Op l ls s) :
    Delivers M Op K (takePrimary t) s := by
  have literal {n : Node} {cls : TokenClass} (hn : n.isLiteral) :
      Delivers M Op K (do leaveAt n t.span; return .taken cls []) s :=
    ⟨_, _, rfl, (h.leaveAt _ t.span (Node.tidy_literal hn) fun _ _ _ => fills_literal hn).inScope hK⟩
  unfold takePrimary
  split
  · exact literal rfl
  · exact literal rfl
  · exact literal rfl
  · exact literal rfl
  · exact ⟨_, _, rfl, l, ls, Over.nil h.length_eq hK, h⟩
  · exact ⟨_, _, rfl, l, ls, Over.nil h.length_eq ⟨_, rfl, hK⟩, h⟩
  · exact ⟨_, _, rfl, l, ls, Over.nil h.length_eq hK, h⟩
  · unfold Delivers
    rw [Ensures.bind_iff, ensures_enter]
    split
    · trivial
    · have hlaid : Laid (.lambdaColon s.operands.length :: K) .function [] ((l :: ls).map Level.row) :=
        ⟨rfl, 0, _, _, _, rfl, rfl, h.length_operands_eq, hK⟩
      have hentered : Leveled M Op ⟨.function, ⟨"lambda", []⟩, []⟩ (l :: ls) _ :=
        ⟨h.toStanding.enter rfl "lambda", h.operands⟩
      exact ⟨_, _, rfl, hentered.inScope hlaid⟩
  · exact delivers_takeName hplain hK h

theorem delivers_takeOperand (hplain : t.kind = .ident → ¬ Op t.lexeme)
    (hK : Laid K l.owner (.node :: l.parts.map Prod.fst) (ls.map Level.row)) (h : Leveled M Op l ls s) :
    Delivers M Op K (takeOperand t) s := by
  unfold takeOperand
  split
  · exact ⟨_, _, rfl, l, ls, ⟨_, rfl, hK⟩, h⟩
  · exact delivers_takePrimary hplain hK h

/-! ### Expressions and lists -/

/-- A definition leaves no operand. -/
theorem delivers_takeExpr (hplain : t.kind = .ident → ¬ Op t.lexeme)
    (hlet : t.kind = .keyLet → Laid K l.owner (l.parts.map Prod.fst) (ls.map Level.row))
    (hK : Laid K l.owner (.node :: l.parts.map Prod.fst) (ls.map Level.row)) (h : Leveled M Op l ls s) :
    Delivers M Op K (takeExpr t) s := by
  unfold takeExpr
  split
  · next ht => exact ⟨_, _, rfl, l, ls, hlet ht, h⟩
  · exact ⟨_, _, rfl, l, ls, ⟨0, _, rfl, h.length_eq, hK⟩, h⟩
  · exact ⟨_, _, rfl, l, ls, ⟨_, rfl, h.length_eq, hK⟩, h⟩
  · exact Delivers.followedBy (delivers_takeOperand hplain ⟨nofun, _, rfl, hK⟩ h)

/-- Nodes are collected in a node over them. -/
theorem inScope_collect {tag : Tag} (ht : tag ≠ .lambda ∧ tag ≠ .binding ∧ tag ≠ .case)
    (hΓ : Over .node base (l.parts.map Prod.fst) (ls.map Level.row)
      fun Γ => Laid K l.owner (.node :: Γ) (ls.map Level.row)) (h : Leveled M Op l ls s) :
    Ensures (do leave (.branch tag (← drainFrom base))) (fun _ s => InScope M Op K s) (fun _ _ => True) s := by
  refine Ensures.bind_iff.2 (h.drainFrom hΓ rfl fun es parts rest hes hK h => ?_)
  have htidy : (Node.branch tag es).Tidy M Op s.pool := Node.tidy_branch ht.1 fun c hc => (hes c hc).held
  exact ⟨_, _, hK, h.leave _ htidy fun p hext id hget =>
    fills_branch ht hget fun c hc => (hes c hc).2.grow hext⟩

theorem inScope_collectAt {tag : Tag} (ht : tag ≠ .lambda ∧ tag ≠ .binding ∧ tag ≠ .case)
    (hΓ : Over .node base (l.parts.map Prod.fst) (ls.map Level.row)
      fun Γ => Laid K l.owner (.node :: Γ) (ls.map Level.row)) (h : Leveled M Op l ls s) :
    Ensures (do leaveAt (.branch tag (← drainFrom base)) span) (fun _ s => InScope M Op K s)
      (fun _ _ => True) s := by
  refine Ensures.bind_iff.2 (h.drainFrom hΓ rfl fun es parts rest hes hK h => ?_)
  have htidy : (Node.branch tag es).Tidy M Op s.pool := Node.tidy_branch ht.1 fun c hc => (hes c hc).held
  exact ⟨_, _, hK, h.leaveAt _ span htidy fun p hext id hget =>
    fills_branch ht hget fun c hc => (hes c hc).2.grow hext⟩

theorem goes_offerListItem (hplain : t.kind = .ident → ¬ Op t.lexeme)
    (hK : Over .node base (l.parts.map Prod.fst) (ls.map Level.row)
      fun Γ => Laid K l.owner (.node :: Γ) (ls.map Level.row)) (h : Leveled M Op l ls s) :
    Ensures (offerListItem brk base t) (Goes M Op K) (fun _ _ => True) s := by
  unfold offerListItem
  split
  · exact Ensures.bind_iff.2 ((inScope_collect (by decide) hK h).mono (fun _ _ h => h) fun _ _ he => he)
  · exact (Delivers.followedBy (delivers_takeExpr (K := .exprsNext brk base :: K) hplain (fun _ => hK)
      hK.cons h)).goes

theorem goes_offerElement (hplain : t.kind = .ident → ¬ Op t.lexeme) (hN : Stacked .listEnd K)
    (hK : Laid K l.owner (l.parts.map Prod.fst) (ls.map Level.row)) (h : Leveled M Op l ls s) :
    Ensures (offerElement t) (Goes M Op K) (fun _ _ => True) s := by
  unfold offerElement
  split
  · exact ⟨l, ls, hK, h⟩
  · exact (Delivers.followedBy (delivers_takeExpr (K := .elementNext :: K) hplain (fun _ => hK)
      (Laid.cons_element (K := K) hN hK) h)).goes

theorem goes_offerBinding (hplain : t.kind = .ident → ¬ Op t.lexeme) (hN : Stacked .recordEnd K)
    (hK : Laid K l.owner (l.parts.map Prod.fst) (ls.map Level.row)) (h : Leveled M Op l ls s) :
    Ensures (offerBinding t) (Goes M Op K) (fun _ _ => True) s := by
  have key {n : Node} {cls : TokenClass} (hn : n.Tidy M Op s.pool) :
      Ensures (do leaveAt n t.span; return .taken cls [.bindingColon, .bindingNext]) (Goes M Op K)
        (fun _ _ => True) s := by
    have hleft : Leveled M Op (l.put .key (s.pool.internAt n t.span).1) ls _ :=
      h.leaveAt _ t.span hn fun p _ _ hget => Pool.le_size_of_get? hget
    have hlaid : Laid (.bindingColon :: .bindingNext :: K) l.owner (.key :: l.parts.map Prod.fst)
        (ls.map Level.row) := ⟨_, rfl, hK.cons_binding hN⟩
    exact hleft.inScope hlaid
  unfold offerBinding
  split
  · exact ⟨l, ls, hK, h⟩
  · exact key (Node.tidy_literal rfl)
  · rw [Ensures.bind_iff, ensures_expect]
    split
    · next ht => exact key (Node.tidy_ident (hplain ht))
    · trivial

theorem inScope_finishBinding (hΓ : l.parts.map Prod.fst = .node :: .key :: Γ)
    (h : Leveled M Op l ls s) : Ensures finishBinding (fun _ s => ∃ l', Leveled M Op l' ls s ∧ l'.owner = l.owner ∧
      l'.parts.map Prod.fst = .node :: Γ) (fun _ _ => True) s := by
  refine Ensures.bind_iff.2 (h.pop hΓ rfl fun v parts rest hv hparts h => ?_)
  refine Ensures.bind_iff.2 (h.pop hparts rfl fun k parts rest hk hparts h => ?_)
  have htidy : (Node.branch .binding [k, v]).Tidy M Op s.pool :=
    Node.tidy_branch (by decide) (by simpa using ⟨hk, hv.2.held⟩)
  have hleft : Leveled M Op (Level.put _ .node _) ls _ := h.leave _ htidy fun p hext id hget =>
    fills_node hget (Pool.sees_binding hget (hv.2.grow hext))
  exact ⟨_, hleft, rfl, congrArg (Slot.node :: ·) hparts⟩

/-! ### Operators -/

theorem ne_of_isOperator {tag : Tag} (h : tag.isOperator) : tag ≠ .lambda ∧ tag ≠ .binding ∧ tag ≠ .case := by
  refine ⟨?_, ?_, ?_⟩ <;> rintro rfl <;> cases h

/-- The level with a node over its last two nodes in their place. -/
theorem leveled_reduce {op : Tag × Span} (hop : op.1.isOperator)
    (hΓ : l.parts.map Prod.fst = .node :: .node :: Γ) (h : Leveled M Op l ls s) :
    Ensures (reduce op) (fun _ s => ∃ l', Leveled M Op l' ls s ∧ l'.owner = l.owner ∧
      l'.parts.map Prod.fst = .node :: Γ) (fun _ _ => True) s := by
  refine Ensures.bind_iff.2 (h.pop hΓ rfl fun b parts rest hb hparts h => ?_)
  refine Ensures.bind_iff.2 (h.pop hparts rfl fun a parts rest ha hparts h => ?_)
  simp only [Ensures.bind_iff, ensures_ask, ensures_leaveAt]
  generalize hr : (do return Node.num (← Number.arithmetic? op.1 (← s.pool.number? a)
    (← s.pool.number? b)) : Option Node) = result
  cases result with
  | some n =>
    have hn := Node.isLiteral_of_arithmetic hr
    have hleft : Leveled M Op (Level.put _ .node _) ls _ :=
      h.leaveAt _ op.2 (Node.tidy_literal hn) fun _ _ _ => fills_literal hn
    exact ⟨_, hleft, rfl, congrArg (Slot.node :: ·) hparts⟩
  | none =>
    have hne := ne_of_isOperator hop
    have htidy : (Node.branch op.1 [a, b]).Tidy M Op s.pool :=
      Node.tidy_branch hne.1 (by simpa using ⟨ha.2.held, hb.2.held⟩)
    have hleft : Leveled M Op (Level.put _ .node _) ls _ := h.leaveAt _ op.2 htidy fun p hext id hget =>
      fills_branch hne hget (by simpa using ⟨ha.2.grow hext, hb.2.grow hext⟩)
    exact ⟨_, hleft, rfl, congrArg (Slot.node :: ·) hparts⟩

theorem leveled_reduceWhile {prec : Nat} {ops : List (Tag × Span)} (hops : Operators ops)
    (hΓ : l.parts.map Prod.fst = List.replicate (ops.length + 1) .node ++ Γ) (h : Leveled M Op l ls s) :
    Ensures (reduceWhile prec ops) (fun ops s => Operators ops ∧ ∃ l', Leveled M Op l' ls s ∧
      l'.owner = l.owner ∧ l'.parts.map Prod.fst = List.replicate (ops.length + 1) .node ++ Γ)
      (fun _ _ => True) s := by
  induction ops generalizing s l with
  | nil => exact ⟨hops, l, h, rfl, hΓ⟩
  | cons op ops ih =>
    unfold reduceWhile
    split
    · exact ⟨hops, l, h, rfl, hΓ⟩
    · refine Ensures.bind_iff.2 ((leveled_reduce (hops op (.head _)) hΓ h).mono ?_ fun _ _ he => he)
      rintro - s ⟨l', h, howner, hparts⟩
      rw [← howner]
      exact ih (fun x hx => hops x (.tail _ hx)) hparts h

theorem leveled_reduceAll {ops : List (Tag × Span)} (hops : Operators ops)
    (hΓ : l.parts.map Prod.fst = List.replicate (ops.length + 1) .node ++ Γ) (h : Leveled M Op l ls s) :
    Ensures (reduceAll ops) (fun _ s => ∃ l', Leveled M Op l' ls s ∧ l'.owner = l.owner ∧
      l'.parts.map Prod.fst = .node :: Γ) (fun _ _ => True) s := by
  induction ops generalizing s l with
  | nil => exact ⟨l, h, rfl, hΓ⟩
  | cons op ops ih =>
    refine Ensures.bind_iff.2 ((leveled_reduce (hops op (.head _)) hΓ h).mono ?_ fun _ _ he => he)
    rintro - s ⟨l', h, howner, hparts⟩
    rw [← howner]
    exact ih (fun x hx => hops x (.tail _ hx)) hparts h

theorem inScope_negate (hΓ : l.parts.map Prod.fst = .node :: Γ)
    (hK : Laid K l.owner (.node :: Γ) (ls.map Level.row)) (h : Leveled M Op l ls s) :
    Ensures (negate span) (fun _ s => InScope M Op K s) (fun _ _ => True) s := by
  refine Ensures.bind_iff.2 (h.pop hΓ rfl fun a parts rest ha hparts h => ?_)
  subst hparts
  rw [Ensures.bind_iff, ensures_ask]
  split
  · next x _ =>
    have hn : (Node.num x.neg).Tidy M Op s.pool := Node.tidy_literal rfl
    have hleft : Leveled M Op (Level.put _ .node _) ls _ :=
      h.leaveAt _ span hn fun _ _ _ => fills_literal rfl
    exact hleft.inScope hK
  · have htidy : (Node.branch .neg [a]).Tidy M Op s.pool :=
      Node.tidy_branch (by decide) (by simpa using ha.2.held)
    have hleft : Leveled M Op (Level.put _ .node _) ls _ := h.leaveAt _ span htidy
      fun p hext id hget => fills_branch (by decide) hget fun c hc =>
        List.mem_singleton.1 hc ▸ ha.2.grow hext
    exact hleft.inScope hK

/-- Operator words have the tags of operators. -/
theorem isOperator_of_leveled {tag : Tag} (h : Leveled M Op l ls s)
    (ht : s.env.globals.operator? name = some tag) : tag.isOperator := by
  have hglobals : ∃ l' ∈ l :: ls, l'.scope = s.env.globals := by
    have hmem : s.env.globals ∈ (l :: ls).map Level.scope := by simp [h.scopes]
    obtain ⟨l', hl', heq⟩ := List.mem_map.1 hmem
    exact ⟨l', hl', heq⟩
  obtain ⟨l', hl', heq⟩ := hglobals
  obtain ⟨N, pending, hgood⟩ := h.nest.exists_good hl'
  unfold Scope.operator? at ht
  split at ht
  · next hw =>
    cases ht
    have hallows := hgood.words.find? (heq ▸ hw)
    exact hallows.2.2
  · cases ht

theorem goes_binary {ops : List (Tag × Span)}
    (hK : Laid (.binary ops :: K) l.owner (l.parts.map Prod.fst) (ls.map Level.row))
    (h : Leveled M Op l ls s) :
    Ensures ((Cont.binary ops).offer t) (Goes M Op K) (fun _ _ => True) s := by
  obtain ⟨hops, Γ, hΓ, hK⟩ := hK
  have hoperator : Ensures (operator? t) (fun tag s' => s' = s ∧ ∀ x, tag = some x → x.isOperator)
      (fun _ _ => True) s := by
    unfold operator?
    split
    · exact ⟨rfl, by rintro _ ⟨⟩; rfl⟩
    · rw [Ensures.bind_iff, ensures_ask]
      split
      · next tag htag => exact ⟨rfl, by rintro _ ⟨⟩; exact isOperator_of_leveled h htag⟩
      · trivial
    · exact ⟨rfl, by rintro _ ⟨⟩⟩
  show Ensures (operator? t >>= fun _ => _) _ _ s
  refine Ensures.bind_iff.2 (hoperator.mono ?_ fun _ _ he => he)
  rintro tag s ⟨rfl, htag⟩
  cases tag with
  | some tag =>
    refine Ensures.bind_iff.2 ((leveled_reduceWhile hops hΓ h).mono ?_ fun _ _ he => he)
    rintro ops s ⟨hops, l', h, howner, hparts⟩
    have hwaiting : Operators ((tag, t.span) :: ops) :=
      List.forall_mem_cons.2 ⟨htag tag rfl, hops⟩
    refine h.inScope (K := [.operand, .binary ((tag, t.span) :: ops)] ++ K) ?_
    rw [howner, hparts]
    exact ⟨hwaiting, Γ, rfl, hK⟩
  | none =>
    refine Ensures.bind_iff.2 ((leveled_reduceAll hops hΓ h).mono ?_ fun _ _ he => he)
    rintro - s ⟨l', h, howner, hparts⟩
    refine h.inScope (K := K) ?_
    rw [howner, hparts]
    exact hK

end ParseM

end Linefold
