import Linefold.Proofs.Operands.Ready
import Linefold.Proofs.Views

/-!
# Every position finds its operands

`typed_offer`: a position that can go on and is offered a token leaves positions that can go on, or
fails with an error that a text may have. It is asked for two things: a definition does not come where
the value of an expression is waited for, and the lexeme of an operator token is an operator word.
-/

namespace Linefold

/-- What a position made of a token lets the positions go on. -/
def Yields (K : List Cont) : Offer → Parsed → Prop
  | .taken _ next, s => Typed (next ++ K) s
  | .declined, s => Typed K s
  | .finished root, s => s.pool.WellShaped ∧ ∃ es, s.pool.get? root = some (.branch .prog es)

/-- The token is taken, and the positions left can go on. -/
def Consumes (K : List Cont) (f : ParseM Offer) (s : Parsed) : Prop :=
  Ensures f (fun a s => ∃ cls next, a = .taken cls next ∧ Typed (next ++ K) s)
    (fun e _ => e.isGenuine) s

-- Unfolding it looks constant nodes up in the index.
attribute [local irreducible] Pool.intern

variable {t : Token} {K : List Cont} {Γ : List Part} {depth : Nat} {s : Parsed} {brk : TokenKind}
  {base : Nat} {span : Span} {name : String}

theorem Consumes.yields {f : ParseM Offer} (h : Consumes K f s) :
    Ensures f (Yields K) (fun e _ => e.isGenuine) s := by
  refine h.mono ?_ fun _ _ he => he
  rintro _ s ⟨cls, next, rfl, h⟩
  exact h

theorem Consumes.followedBy {c : Cont} {f : ParseM Offer} (h : Consumes (c :: K) f s) :
    Consumes K (ParseM.followedBy [c] <$> f) s := by
  refine Ensures.map_iff.2 (h.mono ?_ fun _ _ he => he)
  rintro _ s ⟨cls, next, rfl, h⟩
  refine ⟨cls, next ++ [c], rfl, ?_⟩
  rw [List.append_assoc]
  exact h

theorem Holds.length_eq (h : Holds Γ depth s) : s.operands.length = Γ.length :=
  h.operands.length_eq.symm

/-! ### Leaves and lists -/

/-- What stands for a constant is a literal. -/
theorem fits_of_constant? {p : Pool} {w : Word} {id : NodeId} (h : ParseM.constant? p w = some id) :
    p.Fits .value id := by
  unfold ParseM.constant? at h
  split at h
  · split at h
    · split at h
      · next hlit =>
        cases h
        obtain ⟨n, hn, hlit⟩ := (Option.any_eq_true _ _).1 hlit
        exact fits_value_of_isLiteral hlit hn
      · cases h
    · cases h
  · cases h

namespace Holds

variable {n : Node} {p : Pool}

theorem leaveAt_literal (h : Holds Γ depth s) (hn : n.isLiteral) :
    Holds (.value :: Γ) depth { s with
      pool := (s.pool.internAt n span).2
      operands := (s.pool.internAt n span).1 :: s.operands } := by
  exact h.leaveAt (shaped_of_isLiteral hn) fun _ _ _ => fits_value_of_isLiteral hn

/-- A name is left as a key, a pattern or a value. -/
theorem leaveAt_ident (h : Holds Γ depth s) (name : String) (span : Span) {part : Part}
    (hpart : part = .value ∨ part = .key ∨ part = .pattern) :
    Holds (part :: Γ) depth { s with
      pool := (s.pool.internAt (.ident name) span).2
      operands := (s.pool.internAt (.ident name) span).1 :: s.operands } := by
  refine h.leaveAt trivial fun p _ id hid => ?_
  rcases hpart with rfl | rfl | rfl
  · exact ⟨_, hid, by simp [Node.tag]⟩
  · exact ⟨name, .inl hid⟩
  · exact .name hid

end Holds

namespace ParseM

/-! ### Primary expressions and operands -/

theorem consumes_takeName (hK : Ready K (.value :: Γ)) (h : Holds Γ (openScopes K) s) :
    Consumes K (takeName t) s := by
  unfold takeName Consumes
  rw [Ensures.bind_iff, ensures_expect]
  split
  · simp only [Ensures.bind_iff, ensures_lookup?, ensures_ask]
    split
    · next id hid =>
      obtain ⟨w, -, hw⟩ := Option.bind_eq_some_iff.1 hid
      have h := h.push (fits_of_constant? hw)
      split <;> exact ⟨_, _, rfl, _, hK, h.operands, h.pool, h.words, h.depth⟩
    · have h := h.leaveAt_ident t.lexeme t.span (.inl rfl : Part.value = .value ∨ _)
      split <;> exact ⟨_, _, rfl, _, hK, h.operands, h.pool, h.words, h.depth⟩
  · exact rfl

theorem consumes_takePrimary (hK : Ready K (.value :: Γ)) (h : Holds Γ (openScopes K) s) :
    Consumes K (takePrimary t) s := by
  have literal {n : Node} {cls : TokenClass} (hn : n.isLiteral) :
      Consumes K (do leaveAt n t.span; return .taken cls []) s :=
    ⟨_, _, rfl, _, hK, h.leaveAt_literal hn⟩
  unfold takePrimary
  split
  · exact literal rfl
  · exact literal rfl
  · exact literal rfl
  · exact literal rfl
  · exact ⟨_, _, rfl, Γ, Above.nil h.length_eq hK, h⟩
  · exact ⟨_, _, rfl, Γ, Above.nil h.length_eq ⟨Γ, rfl, hK⟩, h⟩
  · exact ⟨_, _, rfl, Γ, Above.nil h.length_eq hK, h⟩
  · unfold Consumes
    rw [Ensures.bind_iff, ensures_enter]
    split
    · exact rfl
    · exact ⟨_, _, rfl, Γ, Above.nil h.length_eq hK, h.enter "lambda"⟩
  · exact consumes_takeName hK h

theorem consumes_takeOperand (hK : Ready K (.value :: Γ)) (h : Holds Γ (openScopes K) s) :
    Consumes K (takeOperand t) s := by
  unfold takeOperand
  split
  · exact ⟨_, _, rfl, Γ, ⟨Γ, rfl, hK⟩, h⟩
  · exact consumes_takePrimary hK h

/-! ### Expressions -/

/-- A definition leaves no part. -/
theorem consumes_takeExpr (hlet : t.kind = .keyLet → Ready K Γ) (hK : Ready K (.value :: Γ))
    (h : Holds Γ (openScopes K) s) : Consumes K (takeExpr t) s := by
  unfold takeExpr
  split
  · next ht => exact ⟨_, _, rfl, Γ, hlet ht, h⟩
  · exact ⟨_, _, rfl, Γ, ⟨0, Γ, rfl, h.length_eq, hK⟩, h⟩
  · exact ⟨_, _, rfl, Γ, ⟨Γ, rfl, h.length_eq, hK⟩, h⟩
  · refine Consumes.followedBy (consumes_takeOperand (Γ := Γ) ?_ h)
    exact ⟨fun _ hop => absurd hop List.not_mem_nil, Γ, rfl, hK⟩

/-! ### Lists -/

theorem forall_replicate_reverse {n : Nat} {part x : Part}
    (hx : x ∈ (List.replicate n part).reverse) : x = part :=
  List.eq_of_mem_replicate (List.mem_reverse.1 hx)

theorem ensures_finishExprs {next : List Part → Prop} {E : Error → Parsed → Prop}
    (h : Holds Γ depth s) (hΓ : Above .value base Γ next) :
    Ensures (finishExprs base) (fun _ s => ∃ Γ, next Γ ∧ Holds (.exprs :: Γ) depth s) E s := by
  obtain ⟨n, Γ, rfl, hb, hnext⟩ := hΓ
  refine Ensures.bind_iff.2 (h.drainFrom hb fun es _ hes h => ?_)
  exact ⟨Γ, hnext, h.leave ⟨_, fun _ hx => forall_replicate_reverse hx, hes⟩ fun _ _ _ hid => ⟨_, hid⟩⟩

theorem yields_offerListItem (hK : Above .value base Γ fun Γ => Ready K (.exprs :: Γ))
    (h : Holds Γ (openScopes K) s) :
    Ensures (offerListItem brk base t) (Yields K) (fun e _ => e.isGenuine) s := by
  unfold offerListItem
  split
  · rw [Ensures.bind_iff]
    refine (ensures_finishExprs h hK).mono ?_ fun _ _ he => he
    rintro _ s ⟨Γ, hK, h⟩
    exact ⟨_, hK, h⟩
  · refine (Consumes.followedBy (consumes_takeExpr (K := .exprsNext brk base :: K) ?_ ?_ h)).yields
    · exact fun _ => hK
    · exact hK.cons

theorem yields_offerElement (hN : Stacked .listEnd K) (hK : Ready K Γ)
    (h : Holds Γ (openScopes K) s) :
    Ensures (offerElement t) (Yields K) (fun e _ => e.isGenuine) s := by
  unfold offerElement
  split
  · exact ⟨Γ, hK, h⟩
  · refine (Consumes.followedBy (consumes_takeExpr (K := .elementNext :: K) ?_ ?_ h)).yields
    · exact fun _ => hK
    · exact Ready.cons_value (K := K) hN hK

theorem yields_offerBinding (hN : Stacked .recordEnd K) (hK : Ready K Γ)
    (h : Holds Γ (openScopes K) s) :
    Ensures (offerBinding t) (Yields K) (fun e _ => e.isGenuine) s := by
  have next {s : Parsed} (h : Holds (.key :: Γ) (openScopes K) s) :
      Typed ([.bindingColon, .bindingNext] ++ K) s :=
    ⟨_, ⟨Γ, rfl, hK.cons_binding hN⟩, h⟩
  unfold offerBinding
  split
  · exact ⟨Γ, hK, h⟩
  · exact next (h.leaveAt trivial fun _ _ _ hid => ⟨_, .inr hid⟩)
  · rw [Ensures.bind_iff, ensures_expect]
    split
    · exact next (h.leaveAt_ident _ _ (.inr (.inl rfl)))
    · exact rfl

theorem ensures_finishBinding {E : Error → Parsed → Prop} (h : Holds (.value :: .key :: Γ) depth s) :
    Ensures finishBinding (fun _ s => Holds (.binding :: Γ) depth s) E s := by
  refine Ensures.bind_iff.2 (h.pop fun v _ hv h => ?_)
  refine Ensures.bind_iff.2 (h.pop fun k _ hk h => ?_)
  exact h.leave ⟨[.key, .value], rfl, .cons hk (.cons hv .nil)⟩ fun _ _ _ hid => ⟨_, hid⟩

/-! ### Operators -/

/-- A binary operator over two expressions, or its result, is an expression. -/
theorem ensures_reduce {op : Tag × Span} {E : Error → Parsed → Prop} (hop : op.1.isOperator)
    (h : Holds (.value :: .value :: Γ) depth s) :
    Ensures (reduce op) (fun _ s => Holds (.value :: Γ) depth s) E s := by
  refine Ensures.bind_iff.2 (h.pop fun b _ hb h => ?_)
  refine Ensures.bind_iff.2 (h.pop fun a _ ha h => ?_)
  simp only [Ensures.bind_iff, ensures_ask, ensures_leaveAt]
  generalize hr : (do return Node.num (← Number.arithmetic? op.1 (← s.pool.number? a)
    (← s.pool.number? b)) : Option Node) = result
  cases result with
  | some n =>
    exact h.leaveAt_literal (Node.isLiteral_of_arithmetic hr)
  | none =>
    refine h.leaveAt ⟨_, admits_of_isOperator hop, .cons ha (.cons hb .nil)⟩ fun _ _ _ hid =>
      ⟨_, hid, ?_⟩
    show op.1 ≠ .binding ∧ op.1 ≠ .of
    constructor <;> (intro heq; rw [heq] at hop; cases hop)

theorem ensures_reduceWhile {prec : Nat} {ops : List (Tag × Span)} {E : Error → Parsed → Prop}
    (hops : Operators ops) (h : Holds (List.replicate (ops.length + 1) .value ++ Γ) depth s) :
    Ensures (reduceWhile prec ops) (fun ops s => Operators ops ∧
      Holds (List.replicate (ops.length + 1) .value ++ Γ) depth s) E s := by
  induction ops generalizing s with
  | nil => exact ⟨hops, h⟩
  | cons op ops ih =>
    unfold reduceWhile
    split
    · exact ⟨hops, h⟩
    · refine Ensures.bind_iff.2 ((ensures_reduce (hops op (List.mem_cons_self ..)) h).mono ?_
        fun _ _ he => he)
      exact fun _ s h => ih (fun x hx => hops x (List.mem_cons_of_mem _ hx)) h

theorem ensures_reduceAll {ops : List (Tag × Span)} {E : Error → Parsed → Prop}
    (hops : Operators ops) (h : Holds (List.replicate (ops.length + 1) .value ++ Γ) depth s) :
    Ensures (reduceAll ops) (fun _ s => Holds (.value :: Γ) depth s) E s := by
  induction ops generalizing s with
  | nil => exact h
  | cons op ops ih =>
    refine Ensures.bind_iff.2 ((ensures_reduce (hops op (List.mem_cons_self ..)) h).mono ?_
      fun _ _ he => he)
    exact fun _ s h => ih (fun x hx => hops x (List.mem_cons_of_mem _ hx)) h

theorem ensures_negate {E : Error → Parsed → Prop} (h : Holds (.value :: Γ) depth s) :
    Ensures (negate span) (fun _ s => Holds (.value :: Γ) depth s) E s := by
  refine Ensures.bind_iff.2 (h.pop fun a _ ha h => ?_)
  rw [Ensures.bind_iff, ensures_ask]
  split
  · exact h.leaveAt_literal rfl
  · exact h.leaveAt ⟨[.value], rfl, .cons ha .nil⟩ fun _ _ _ hid => ⟨_, hid, by simp [Node.tag]⟩

theorem isOperator_of_operator? {e : Environment} {tag : Tag} (h : e.OperatorsBinary)
    (ht : e.globals.operator? name = some tag) : tag.isOperator := by
  unfold Scope.operator? at ht
  split at ht
  · next hw =>
    cases ht
    exact h.globals.find? hw tag rfl
  · cases ht

theorem ensures_operator?_isOperator (h : Holds Γ depth s)
    (hop : t.kind = .binOp → (s.env.globals.operator? t.lexeme).isSome) :
    Ensures (operator? t) (fun tag s' => s' = s ∧ ∀ x, tag = some x → x.isOperator)
      (fun e _ => e.isGenuine) s := by
  unfold operator?
  split
  · exact ⟨rfl, by rintro _ ⟨⟩; rfl⟩
  · next ht =>
    rw [Ensures.bind_iff, ensures_ask]
    split
    · next tag htag => exact ⟨rfl, by rintro _ ⟨⟩; exact isOperator_of_operator? h.words htag⟩
    · next hnone =>
      have := hop ht
      rw [hnone] at this
      cases this
  · exact ⟨rfl, by rintro _ ⟨⟩⟩

theorem yields_binary {ops : List (Tag × Span)} (hK : Ready (.binary ops :: K) Γ)
    (h : Holds Γ (openScopes K) s)
    (hop : t.kind = .binOp → (s.env.globals.operator? t.lexeme).isSome) :
    Ensures ((Cont.binary ops).offer t) (Yields K) (fun e _ => e.isGenuine) s := by
  obtain ⟨hops, Γ, rfl, hK⟩ := hK
  show Ensures (operator? t >>= fun _ => _) _ _ s
  rw [Ensures.bind_iff]
  refine (ensures_operator?_isOperator h hop).mono ?_ fun _ _ he => he
  rintro tag s ⟨rfl, htag⟩
  cases tag with
  | some tag =>
    refine Ensures.bind_iff.2 ((ensures_reduceWhile hops h).mono ?_ fun _ _ he => he)
    rintro ops s ⟨hops, h⟩
    refine ⟨_, ⟨?_, Γ, rfl, hK⟩, h⟩
    rintro op (_ | ⟨_, hmem⟩)
    · exact htag tag rfl
    · exact hops op hmem
  | none =>
    refine Ensures.bind_iff.2 ((ensures_reduceAll hops h).mono ?_ fun _ _ he => he)
    exact fun _ s h => ⟨_, hK, h⟩

/-! ### Functions -/

theorem yields_takeLetName (hK : Ready K Γ) (h : Holds Γ (openScopes K) s) :
    Ensures (takeLetName t) (Yields K) (fun e _ => e.isGenuine) s := by
  unfold takeLetName
  rw [Ensures.bind_iff, ensures_expect]
  split
  · simp only [Ensures.bind_iff, ensures_ask, ensures_define, ensures_enter]
    split
    · exact rfl
    · have hword : ∀ x, (Word.function t.lexeme).cls = .operator x → x.isOperator := by
        simp [Word.function]
      have h := (h.define t.lexeme hword).enter t.lexeme
      exact ⟨Γ, .nil h.length_eq hK, h⟩
  · exact rfl

theorem yields_offerParam (hN : Stacked (.params brk) K) (hK : Ready K Γ)
    (h : Holds Γ (openScopes K) s) :
    Ensures (offerParam brk base t) (Yields K) (fun e _ => e.isGenuine) s := by
  unfold offerParam
  split
  · exact ⟨Γ, hK, h⟩
  · split
    · exact ⟨Γ, .nil h.length_eq (Ready.cons_pattern (K := K) hN hK), h⟩
    · rw [Ensures.bind_iff, ensures_expect]
      split
      · simp only [Ensures.bind_iff, ensures_ask, ensures_define, ensures_leaveAt]
        have hword : ∀ x, (Word.value t.lexeme s.env.top.params.length).cls = .operator x →
            x.isOperator := by
          simp [Word.value]
        have h := h.define t.lexeme hword
        exact ⟨_, Ready.cons_pattern (K := K) hN hK, h.leaveAt_ident _ _ (.inr (.inr rfl))⟩
      · exact rfl

theorem ensures_markPattern {list : NodeId} {ids : List NodeId} {E : Error → Parsed → Prop}
    (h : Holds Γ depth s) :
    Ensures (markPattern list ids) (fun _ s' => s'.pool = s.pool ∧ Holds Γ depth s') E s := by
  induction ids generalizing s with
  | nil => exact ⟨rfl, h⟩
  | cons id ids ih =>
    unfold markPattern
    rw [Ensures.bind_iff, ensures_ask]
    split
    · next name _ =>
      rw [Ensures.bind_iff, ensures_ask]
      split
      · next w hw =>
        have hword : ∀ t, w.cls = .operator t → t.isOperator := h.words.top.find? hw
        rw [Ensures.bind_iff, ensures_define]
        exact ih (h.define name hword)
      · exact ih h
    · exact ih h

/-- Parts of one kind are left as a list of that kind. -/
theorem forall_fits_of_replicate_reverse {p : Pool} {n : Nat} {part : Part} {ids : List NodeId}
    (h : List.Forall₂ p.Fits (List.replicate n part).reverse ids) : ∀ id ∈ ids, p.Fits part id :=
  forall_fits_of_forall₂ h fun _ hx => forall_replicate_reverse hx

theorem yields_takeParamList (hK : Ready (.paramList base :: K) Γ) (h : Holds Γ (openScopes K) s) :
    Ensures (takeParamList base t) (Yields K) (fun e _ => e.isGenuine) s := by
  obtain ⟨n, Γ, rfl, hb, hK⟩ := hK
  unfold takeParamList
  rw [Ensures.bind_iff, ensures_expect]
  split
  · refine Ensures.bind_iff.2 (h.drainFrom hb fun elts _ helts h => ?_)
    have helts := forall_fits_of_replicate_reverse helts
    have hlist := shaped_list helts (by decide) (by decide)
    refine Ensures.bind_iff.2 (h.interned hlist fun list pool hext hget h => ?_)
    refine Ensures.bind_iff.2 ((ensures_markPattern h).mono ?_ fun _ _ he => he)
    rintro _ s' ⟨hpool, h⟩
    refine ⟨_, hK, h.push ?_⟩
    rw [hpool]
    exact .list hget fun id hid => (helts id hid).mono hext
  · exact rfl

theorem ensures_internNames {names : List String} {E : Error → Parsed → Prop}
    (h : Holds Γ depth s) :
    Ensures (internNames names) (fun ids s' => s.pool.Extends s'.pool ∧ Holds Γ depth s' ∧
      ∀ id ∈ ids, ∃ name, s'.pool.get? id = some (.ident name)) E s := by
  induction names generalizing s with
  | nil => exact ⟨.refl _, h, by simp⟩
  | cons name names ih =>
    refine Ensures.bind_iff.2 (h.interned trivial fun id pool hext hget h => ?_)
    refine Ensures.bind_iff.2 ((ih h).mono ?_ fun _ _ he => he)
    rintro ids s' ⟨hext', h, hids⟩
    refine ⟨hext.trans hext', h, ?_⟩
    rintro _ (_ | ⟨_, hmem⟩)
    · exact ⟨name, hext' _ _ hget⟩
    · exact hids _ hmem

theorem ensures_exit_of_holds {owner : ScopeOwner} {E : Error → Parsed → Prop} {Q : Scope → Parsed → Prop}
    (h : Holds Γ (depth + 1) s)
    (hQ : ∀ scope env, Holds Γ depth { s with env } → Q scope { s with env }) :
    Ensures (exit owner) Q E s := by
  rw [ensures_exit]
  obtain ⟨scope, inner, hi, hexit⟩ := Environment.exit_of_length_inner h.depth
  rw [hexit]
  refine hQ scope _ ⟨h.operands, h.pool, ?_, ?_⟩
  · have hwords := h.words.exit
    rw [hexit] at hwords
    exact hwords
  · have hdepth := h.depth
    rw [hi] at hdepth
    exact Nat.succ.inj hdepth

theorem yields_takeLambdaEnd (hK : Ready (.lambdaEnd base :: K) Γ)
    (h : Holds Γ (openScopes K + 1) s) :
    Ensures (takeLambdaEnd base t) (Yields K) (fun e _ => e.isGenuine) s := by
  obtain ⟨Γ, rfl, n, Γ, rfl, hb, hK⟩ := hK
  unfold takeLambdaEnd
  rw [Ensures.bind_iff, ensures_expect]
  split
  · refine Ensures.bind_iff.2 (h.pop fun body ids hbody h => ?_)
    refine Ensures.bind_iff.2 (h.drainFrom hb fun pats _ hpats h => ?_)
    have hpats := forall_fits_of_replicate_reverse hpats
    refine Ensures.bind_iff.2 (ensures_exit_of_holds h fun scope env h => ?_)
    refine Ensures.bind_iff.2 ((ensures_internNames h).mono ?_ fun _ _ he => he)
    rintro names s' ⟨hext, h, hnames⟩
    have hpats := fun id hid => (hpats id hid).mono hext
    have hbody := (hbody.value (by decide) (by decide)).mono hext
    refine Ensures.bind_iff.2 (h.interned (shaped_names hnames) fun nid pool hext hnid h => ?_)
    have hnid : pool.Fits .names nid := ⟨_, hnid, fun id hid => (hnames id hid).imp fun _ => hext _ _⟩
    have hpats := fun id hid => (hpats id hid).mono hext
    have hlist := shaped_list hpats (by decide) (by decide)
    refine Ensures.bind_iff.2 (h.interned hlist fun pid pool hext' hpid h => ?_)
    have hpid : pool.Fits .patterns pid := ⟨pats, hpid, fun id hid => (hpats id hid).mono hext'⟩
    have hbody := (hbody.mono hext).mono hext'
    exact ⟨_, hK, h.leaveAt ⟨[.names, .value, .patterns], rfl, .cons (hnid.mono hext') (.cons hbody
      (.cons hpid .nil))⟩ fun _ _ _ hid => ⟨_, hid, by simp [Node.tag]⟩⟩
  · exact rfl

/-- A definition leaves nothing. -/
theorem ensures_finishLet {d : Nat} {E : Error → Parsed → Prop}
    (hK : Ready (.letBody d name base :: K) Γ) (h : Holds Γ (depth + 1) s) :
    Ensures (finishLet d name base) (fun _ s => ∃ Γ, Ready K Γ ∧ Holds Γ depth s) E s := by
  obtain ⟨Γ, rfl, n, Γ, rfl, hb, hK⟩ := hK
  refine Ensures.bind_iff.2 (h.pop fun body _ _ h => ?_)
  refine Ensures.bind_iff.2 (h.drainFrom hb fun pats _ _ h => ?_)
  refine Ensures.bind_iff.2 (ensures_exit_of_holds h fun scope env h => ?_)
  refine ⟨Γ, hK, h.operands, h.pool, h.words.bindAt (by simp [Word.function]), ?_⟩
  exact Environment.length_inner_bindAt.trans h.depth

/-! ### Cases and conditionals -/

theorem yields_takePattern (hK : Ready K (.value :: Γ)) (h : Holds Γ (openScopes K) s) :
    Ensures (takePattern t) (Yields K) (fun e _ => e.isGenuine) s := by
  unfold takePattern
  rw [Ensures.bind_iff, ensures_lookup?]
  split
  · rw [Ensures.bind_iff, ensures_internAt, Ensures.bind_iff, ensures_define, Ensures.bind_iff,
      ensures_push]
    have h := h.leaveAt_ident t.lexeme t.span (.inl rfl : Part.value = .value ∨ _)
    exact ⟨_, hK, h.define t.lexeme (by simp [Word.value])⟩
  · exact (consumes_takeOperand hK h).yields

theorem ensures_finishClause {E : Error → Parsed → Prop}
    (h : Holds (.exprs :: .value :: Γ) (depth + 1) s) :
    Ensures finishClause (fun _ s => Holds (.clause :: Γ) depth s) E s := by
  refine Ensures.bind_iff.2 (h.pop fun body _ hbody h => ?_)
  refine Ensures.bind_iff.2 (h.pop fun pat _ hpat h => ?_)
  refine Ensures.bind_iff.2 (ensures_exit_of_holds h fun scope env h => ?_)
  refine Ensures.bind_iff.2 ((ensures_internNames h).mono ?_ fun _ _ he => he)
  rintro names s' ⟨hext, h, hnames⟩
  have hpat := hpat.mono hext
  have hbody := (hbody.value (by decide) (by decide)).mono hext
  split
  · exact h.leave ⟨[.value, .value], .inl rfl, .cons hpat (.cons hbody .nil)⟩
      fun _ _ _ hid => ⟨_, hid⟩
  · refine Ensures.bind_iff.2 (h.interned (shaped_names hnames) fun nid pool hext hnid h => ?_)
    have hnid : pool.Fits .names nid := ⟨_, hnid, fun id hid => (hnames id hid).imp fun _ => hext _ _⟩
    exact h.leave ⟨[.value, .value, .names], .inr rfl, .cons (hpat.mono hext)
      (.cons (hbody.mono hext) (.cons hnid .nil))⟩ fun _ _ _ hid => ⟨_, hid⟩

theorem yields_takeCaseClause (hK : Ready (.caseClauses base span :: K) Γ)
    (h : Holds Γ (openScopes K) s) :
    Ensures (takeCaseClause base span t) (Yields K) (fun e _ => e.isGenuine) s := by
  unfold takeCaseClause
  split
  · rw [Ensures.bind_iff, ensures_enter]
    split
    · exact rfl
    · obtain ⟨n, Γ, rfl, hb, hK⟩ := hK
      exact ⟨_, ⟨_, rfl, n + 1, Γ, rfl, hb, hK⟩, h.enter "case"⟩
  · rw [Ensures.bind_iff, ensures_expect]
    split
    · obtain ⟨n, Γ, rfl, hb, hK⟩ := hK
      have happ : List.replicate n Part.clause ++ .value :: Γ =
          (List.replicate n .clause ++ [.value]) ++ Γ := by simp
      rw [happ] at h
      refine Ensures.bind_iff.2 (h.drainFrom hb fun es _ hes h => ?_)
      rw [List.reverse_append] at hes
      exact ⟨_, hK, h.leaveAt ⟨_, ⟨_, rfl, fun _ hx => forall_replicate_reverse hx⟩, hes⟩
        fun _ _ _ hid => ⟨_, hid, by simp [Node.tag]⟩⟩
    · exact rfl

/-- A conditional is a case on the two booleans. -/
theorem yields_takeIfEnd (hK : Ready K (.value :: Γ))
    (h : Holds ([.exprs, .exprs, .value] ++ Γ) (openScopes K) s) (hb : base = Γ.length) :
    Ensures (takeIfEnd base span t) (Yields K) (fun e _ => e.isGenuine) s := by
  unfold takeIfEnd
  rw [Ensures.bind_iff, ensures_expect]
  split
  · refine Ensures.bind_iff.2 (h.drainFrom hb fun ids rest hids h => ?_)
    have hids : List.Forall₂ s.pool.Fits [.value, .exprs, .exprs] ids := hids
    rcases hids with _ | ⟨hc, _ | ⟨hy, _ | ⟨hn, _ | _⟩⟩⟩
    have hy := hy.value (by decide) (by decide)
    have hn := hn.value (by decide) (by decide)
    refine Ensures.bind_iff.2 (h.interned trivial fun yid p₁ h₁ hyid h => ?_)
    refine Ensures.bind_iff.2 (h.interned trivial fun nid p₂ h₂ hnid h => ?_)
    have hyid := fits_value_of_isLiteral rfl (h₂ _ _ hyid)
    have hy := (hy.mono h₁).mono h₂
    refine Ensures.bind_iff.2 (h.interned ⟨[.value, .value], .inl rfl, .cons hyid (.cons hy .nil)⟩
      fun yes p₃ h₃ hyes h => ?_)
    have hnid := (fits_value_of_isLiteral rfl hnid).mono h₃
    have hn := ((hn.mono h₁).mono h₂).mono h₃
    refine Ensures.bind_iff.2 (h.interned ⟨[.value, .value], .inl rfl, .cons hnid (.cons hn .nil)⟩
      fun no p₄ h₄ hno h => ?_)
    have hc := (((hc.mono h₁).mono h₂).mono h₃).mono h₄
    have hparts : Tag.case.Admits [.value, .clause, .clause] := ⟨[.clause, .clause], rfl, by simp⟩
    exact ⟨_, hK, h.leaveAt ⟨_, hparts, .cons hc (.cons ⟨_, h₄ _ _ hyes⟩ (.cons ⟨_, hno⟩ .nil))⟩
      fun _ _ _ hid => ⟨_, hid, by simp [Node.tag]⟩⟩
  · exact rfl

end ParseM

/-! ### Every position -/

/-- A token comes where it can be taken: a definition not where the value of an expression is waited
for, and an operator word not where a sign waits for its operand. -/
def Suits (t : Token) (c : Cont) (e : Environment) : Prop :=
  (c = .expr → t.kind ≠ .keyLet) ∧
    (t.kind = .binOp → ∀ ops, c = .binary ops → (e.globals.operator? t.lexeme).isSome)

open ParseM in
theorem yields_offer {c : Cont} (hN : Nested (c :: K)) (ht : Suits t c s.env) (h : Typed (c :: K) s) :
    Ensures (c.offer t) (Yields K) (fun e _ => e.isGenuine) s := by
  obtain ⟨Γ, hK, h⟩ := h
  have yields_expect {kind : TokenKind} {f : Unit → ParseM Offer}
      (hf : Ensures (f ()) (Yields K) (fun e _ => e.isGenuine) s) :
      Ensures (expect kind t >>= f) (Yields K) (fun e _ => e.isGenuine) s := by
    rw [Ensures.bind_iff, ensures_expect]
    split
    · exact hf
    · exact rfl
  cases c with
  | program =>
    obtain ⟨rfl, hK⟩ := hK
    refine yields_expect (Ensures.bind_iff.2 (h.pop fun exprs _ he h => ?_))
    refine Ensures.bind_iff.2 (h.interned ⟨[.exprs], rfl, .cons he .nil⟩ fun root p _ hroot h => ?_)
    exact ⟨h.pool, _, hroot⟩
  | exprs brk base =>
    show Ensures (if t.kind = .dot then _ else _) _ _ s
    split
    · rw [Ensures.bind_iff]
      refine (ensures_finishExprs h hK).mono ?_ fun _ _ he => he
      rintro _ s ⟨Γ, hK, h⟩
      exact ⟨_, hK, h⟩
    · exact yields_offerListItem hK h
  | exprsNext brk base =>
    show Ensures (if t.kind = .dot then _ else _) _ _ s
    split
    · exact ⟨Γ, hK, h⟩
    · exact yields_offerListItem hK h
  | exprsAfterDot brk base => exact yields_offerListItem hK h
  | expr => exact (consumes_takeExpr (fun hlet => absurd hlet (ht.1 rfl)) hK h).yields
  | letName => exact yields_takeLetName hK h
  | letEqual d name base =>
    refine yields_expect ?_
    obtain ⟨n, Γ, rfl, hb, hK⟩ := hK
    exact ⟨_, .nil h.length_eq ⟨_, rfl, n, Γ, rfl, hb, hK⟩, h⟩
  | letBody d name base =>
    exact Ensures.bind_iff.2 ((ensures_finishLet hK h).mono (fun _ _ h => h) fun _ _ he => he)
  | params brk base => exact yields_offerParam hN hK h
  | paramList base => exact yields_takeParamList hK h
  | lambdaColon base =>
    refine yields_expect ?_
    exact ⟨_, .nil h.length_eq ⟨_, rfl, hK⟩, h⟩
  | lambdaEnd base => exact yields_takeLambdaEnd hK h
  | operand => exact (consumes_takeOperand hK h).yields
  | primary => exact (consumes_takePrimary hK h).yields
  | negate span =>
    obtain ⟨Γ, rfl, hK⟩ := hK
    exact Ensures.bind_iff.2 ((ensures_negate h).mono (fun _ _ h => ⟨_, hK, h⟩) fun _ _ he => he)
  | binary ops => exact yields_binary hK h fun hop => ht.2 hop ops rfl
  | parenEnd span =>
    obtain ⟨Γ, rfl, hK⟩ := hK
    refine yields_expect (Ensures.bind_iff.2 (h.pop fun inner _ hi h => ?_))
    have hi := hi.value (by decide) (by decide)
    exact ⟨_, hK, h.leaveAt ⟨[.value], rfl, .cons hi .nil⟩ fun _ _ _ hid =>
      ⟨_, hid, by simp [Node.tag]⟩⟩
  | elements => exact yields_offerElement hN hK h
  | elementNext =>
    show Ensures (if t.kind = .comma then _ else _) _ _ s
    split
    · exact ⟨Γ, hK, h⟩
    · exact yields_offerElement hN hK h
  | listEnd base =>
    obtain ⟨n, Γ, rfl, hb, hK⟩ := hK
    refine yields_expect (Ensures.bind_iff.2 (h.drainFrom hb fun es _ hes h => ?_))
    exact ⟨_, hK, h.leaveAt ⟨_, fun _ hx => forall_replicate_reverse hx, hes⟩ fun _ _ _ hid =>
      ⟨_, hid, by simp [Node.tag]⟩⟩
  | bindings => exact yields_offerBinding hN hK h
  | bindingColon => exact yields_expect ⟨_, hK, h⟩
  | bindingNext =>
    obtain ⟨Γ, rfl, hK⟩ := hK
    refine Ensures.bind_iff.2 ((ensures_finishBinding h).mono ?_ fun _ _ he => he)
    intro _ s h
    split
    · exact ⟨_, hK, h⟩
    · exact yields_offerBinding hN hK h
  | recordEnd base span =>
    obtain ⟨n, Γ, rfl, hb, hK⟩ := hK
    refine yields_expect (Ensures.bind_iff.2 (h.drainFrom hb fun es _ hes h => ?_))
    exact ⟨_, hK, h.leaveAt ⟨_, fun _ hx => forall_replicate_reverse hx, hes⟩ fun _ _ _ hid =>
      ⟨_, hid, by simp [Node.tag]⟩⟩
  | caseClauses base span => exact yields_takeCaseClause hK h
  | pattern => exact yields_takePattern hK h
  | ofColon =>
    refine yields_expect ?_
    exact ⟨_, .nil h.length_eq hK, h⟩
  | ofEnd =>
    obtain ⟨Γ, rfl, hK⟩ := hK
    exact Ensures.bind_iff.2 ((ensures_finishClause h).mono (fun _ _ h => ⟨_, hK, h⟩) fun _ _ he => he)
  | ifThen base span =>
    refine yields_expect ?_
    obtain ⟨Γ, rfl, hb, hK⟩ := hK
    exact ⟨_, .nil h.length_eq ⟨Γ, rfl, hb, hK⟩, h⟩
  | ifElse base span =>
    obtain ⟨Γ, rfl, hb, hK⟩ := hK
    show Ensures (if t.kind = .keyElse then _ else _) _ _ s
    split
    · exact ⟨_, .nil h.length_eq ⟨Γ, rfl, hb, hK⟩, h⟩
    · rw [Ensures.bind_iff, ensures_leave]
      refine yields_takeIfEnd hK (h.leave ⟨[], by simp [Tag.Admits], .nil⟩ fun _ _ _ hid => ?_) hb
      exact ⟨_, hid⟩
  | ifEnd base span =>
    obtain ⟨Γ, rfl, hb, hK⟩ := hK
    exact yields_takeIfEnd hK h hb

end Linefold
