import Linefold.Parser
import Linefold.Proofs.Wholeness.Whole

/-!
# Parsing leaves no holes

Every node of the parser has children that were on its operand stack or had just been interned. So each
function of the grammar keeps the pool whole, and so does a step on any token whatever
(`ParseState.Whole.step`).
-/

namespace Linefold

attribute [local irreducible] Pool.intern

structure Parsed.Whole (s : Parsed) : Prop where
  pool : s.pool.Whole
  operands : ∀ id ∈ s.operands, s.pool.Has id
  env : s.env.All (Word.Whole s.pool)

instance : Wholesome Parsed where
  pool := Parsed.pool
  Whole := Parsed.Whole

/-- The operators that wait for their right sides are binary. -/
def Cont.isBinary : Cont → Bool
  | binary ops => ops.all fun op => op.1.isOperator
  | _ => true

theorem Cont.all_isBinary_append {first next : List Cont} (hfirst : first.all isBinary)
    (hnext : next.all isBinary) : (first ++ next).all isBinary :=
  List.all_append.trans (Bool.and_eq_true_iff.2 ⟨hfirst, hnext⟩)

def Offer.isBinary : Offer → Bool
  | taken _ next => next.all Cont.isBinary
  | _ => true

namespace ParseM

variable {α : Type} {p : Pool} {n : Node} {id : NodeId} {ids : List NodeId} {span : Span} {name : String}
  {w : Word} {t : Token} {base : Nat} {brk : TokenKind} {next : List Cont} {o : Offer}

/-! ### The parts of the parser -/

theorem keeps_ask {Q : Pool → α → Prop} {f : Parsed → α}
    (h : ∀ s : Parsed, p.Extends s.pool → s.Whole → Q s.pool (f s)) : Keeps p (ask f) Q :=
  fun s hp hs => ⟨⟨.refl _, hs⟩, h s hp hs⟩

theorem keeps_read {f : Parsed → α} : Keeps p (ask f) fun _ _ => True :=
  keeps_ask fun _ _ _ => trivial

theorem keeps_internal {Q : Pool → α → Prop} {fault : InternalFault} :
    Keeps p (internal fault : ParseM α) Q :=
  keeps_throw

theorem keeps_expect {kind : TokenKind} : Keeps p (expect kind t) fun _ _ => True := by
  unfold expect
  split
  · exact keeps_pure fun _ _ => trivial
  · exact keeps_throw

theorem keeps_intern (h : n.Whole p) : Keeps p (intern n) Pool.Has := by
  intro s hp hs
  obtain ⟨hpool, hid⟩ := hs.pool.intern (h.mono hp)
  have hgrows := s.pool.extends_intern n
  exact ⟨⟨hgrows, hpool, Pool.forall_has_mono hs.operands hgrows, Environment.all_whole_mono hs.env hgrows⟩,
    hid⟩

theorem keeps_internAt (h : n.Whole p) : Keeps p (internAt n span) Pool.Has := by
  intro s hp hs
  obtain ⟨hpool, hid⟩ := hs.pool.internAt (h.mono hp) span
  have hgrows := s.pool.extends_internAt n span
  exact ⟨⟨hgrows, hpool, Pool.forall_has_mono hs.operands hgrows, Environment.all_whole_mono hs.env hgrows⟩,
    hid⟩

theorem keeps_internNames {names : List String} :
    Keeps p (internNames names) fun q ids => ∀ id ∈ ids, q.Has id := by
  induction names generalizing p with
  | nil => exact keeps_pure fun _ _ => nofun
  | cons name names ih =>
    refine (keeps_intern (.leaf (by nofun))).bind fun q id _ hid => ih.bind fun r ids hqr hids => ?_
    refine keeps_pure fun u hru => List.forall_mem_cons.2 ⟨hid.mono (hqr.trans hru), ?_⟩
    exact Pool.forall_has_mono hids hru

theorem keeps_push (h : p.Has id) : Keeps p (push id) fun _ _ => True :=
  fun _ hp hs => ⟨⟨.refl _, hs.pool, List.forall_mem_cons.2 ⟨h.mono hp, hs.operands⟩, hs.env⟩, trivial⟩

theorem keeps_leave (h : n.Whole p) : Keeps p (leave n) fun _ _ => True :=
  (keeps_intern h).bind fun _ _ _ hid => keeps_push hid

theorem keeps_leaveAt (h : n.Whole p) : Keeps p (leaveAt n span) fun _ _ => True :=
  (keeps_internAt h).bind fun _ _ _ hid => keeps_push hid

theorem keeps_pop : Keeps p pop Pool.Has := by
  rintro ⟨q, operands, env, errors⟩ hp ⟨hpool, hoperands, henv⟩
  rw [ensures_pop]
  cases operands with
  | nil => exact ⟨.refl _, hpool, hoperands, henv⟩
  | cons id operands =>
    obtain ⟨hid, hrest⟩ := List.forall_mem_cons.1 hoperands
    exact ⟨⟨.refl _, hpool, hrest, henv⟩, hid⟩

theorem keeps_drainFrom : Keeps p (drainFrom base) fun q ids => ∀ id ∈ ids, q.Has id := by
  intro s hp hs
  refine ⟨⟨.refl _, hs.pool, fun id hid => hs.operands id (List.mem_of_mem_drop hid), hs.env⟩, ?_⟩
  exact fun id hid => hs.operands id (List.mem_of_mem_take (List.mem_reverse.1 hid))

theorem keeps_height : Keeps p height fun _ _ => True := keeps_read

theorem keeps_define (h : w.Whole p name) : Keeps p (define name w) fun _ _ => True :=
  fun _ hp hs => ⟨⟨.refl _, hs.pool, hs.operands, hs.env.bind (h.mono hp)⟩, trivial⟩

theorem keeps_enter : Keeps p (enter name) fun _ _ => True := by
  intro s hp hs
  rw [ensures_enter]
  split
  · exact ⟨.refl _, hs⟩
  · exact ⟨⟨.refl _, hs.pool, hs.operands, hs.env.enter name⟩, trivial⟩

theorem keeps_exit {owner : ScopeOwner} :
    Keeps p (exit owner) fun q scope => scope.lexicon.All (Word.Whole q) := by
  intro s hp hs
  rw [ensures_exit]
  have hexit := hs.env.exit
  cases hinner : s.env.inner with
  | nil =>
    simp only [Environment.exit, hinner]
    exact ⟨.refl _, hs⟩
  | cons scope inner =>
    simp only [Environment.exit, hinner] at hexit ⊢
    exact ⟨⟨.refl _, hs.pool, hs.operands, hexit⟩, hs.env.inner scope (by rw [hinner]; exact .head _)⟩

theorem keeps_lookup? : Keeps p (lookup? name) fun q w => ∀ v, w = some v → v.Whole q name :=
  keeps_ask fun _ _ hs _ hv => hs.env.lookup? hv

theorem keeps_report {d : Diagnostic} : Keeps p (report d) fun _ _ => True :=
  fun _ _ hs => ⟨⟨.refl _, hs.pool, hs.operands, hs.env⟩, trivial⟩

/-! ### Offers -/

theorem keeps_taken {cls : TokenClass} (h : next.all Cont.isBinary) :
    Keeps p (return .taken cls next : ParseM Offer) fun _ o => o.isBinary :=
  keeps_pure fun _ _ => h

theorem keeps_declined : Keeps p (return .declined : ParseM Offer) fun _ o => o.isBinary :=
  keeps_pure fun _ _ => rfl

/-- Positions that start at the height that the operand stack has now. -/
theorem keeps_takenAt {cls : TokenClass} {f : Nat → List Cont} (h : ∀ base, (f base).all Cont.isBinary) :
    Keeps p (do return .taken cls (f (← height)) : ParseM Offer) fun _ o => o.isBinary :=
  keeps_height.bind fun _ base _ _ => keeps_taken (h base)

theorem keeps_followedBy (ho : o.isBinary) (h : next.all Cont.isBinary) :
    Keeps p (return followedBy next o : ParseM Offer) fun _ o => o.isBinary := by
  refine keeps_pure fun _ _ => ?_
  cases o with
  | taken cls first => exact Cont.all_isBinary_append ho h
  | declined | finished => rfl

/-! ### Lists and operators -/

theorem keeps_finishExprs : Keeps p (finishExprs base) fun _ _ => True :=
  keeps_drainFrom.bind fun _ _ _ hids => keeps_leave (.branch rfl hids)

theorem keeps_reduce {op : Tag × Span} (hop : op.1.isOperator) :
    Keeps p (reduce op) fun _ _ => True := by
  refine keeps_pop.bind fun q b _ hb => keeps_pop.bind fun r a hqr ha => ?_
  refine keeps_read.bind fun u x hru _ => keeps_read.bind fun v y huv _ => ?_
  have htag := Tag.isLeaf_eq_false_of_isOperator hop
  have hrv := hru.trans huv
  exact keeps_leaveAt (.getD (fun _ => Node.isLiteral_of_arithmetic) htag (ha.mono hrv)
    (hb.mono (hqr.trans hrv)))

theorem keeps_reduceWhile {prec : Nat} {ops : List (Tag × Span)} (hops : ∀ op ∈ ops, op.1.isOperator) :
    Keeps p (reduceWhile prec ops) fun _ ops => ∀ op ∈ ops, op.1.isOperator := by
  induction ops generalizing p with
  | nil => exact keeps_pure fun _ _ => nofun
  | cons op ops ih =>
    obtain ⟨hop, hrest⟩ := List.forall_mem_cons.1 hops
    unfold reduceWhile
    split
    · exact keeps_pure fun _ _ => hops
    · exact (keeps_reduce hop).bind fun _ _ _ _ => ih hrest

theorem keeps_reduceAll {ops : List (Tag × Span)} (hops : ∀ op ∈ ops, op.1.isOperator) :
    Keeps p (reduceAll ops) fun _ _ => True := by
  induction ops generalizing p with
  | nil => exact keeps_pure fun _ _ => trivial
  | cons op ops ih =>
    obtain ⟨hop, hrest⟩ := List.forall_mem_cons.1 hops
    exact (keeps_reduce hop).bind fun _ _ _ _ => ih hrest

theorem isOperator_of_whole {s : Scope} {tag : Tag} (h : s.lexicon.All (Word.Whole p))
    (ht : s.operator? name = some tag) : tag.isOperator := by
  unfold Scope.operator? Scope.get? at ht
  split at ht
  · next t _ _ _ _ _ _ hw =>
    cases ht
    exact (h.find? hw).refers.operator tag rfl
  · cases ht

theorem keeps_operator? : Keeps p (operator? t) fun _ tag => ∀ op, tag = some op → op.isOperator := by
  unfold operator?
  split
  · refine keeps_pure fun _ _ => ?_
    rintro _ ⟨⟩
    rfl
  · refine (keeps_ask (Q := fun _ tag => ∀ op, tag = some op → op.isOperator) ?_).bind fun q tag _ htag => ?_
    · exact fun s _ hs op => isOperator_of_whole hs.env.globals
    · cases tag with
      | some tag => exact keeps_pure fun _ _ => htag
      | none => exact keeps_internal
  · exact keeps_pure fun _ _ => nofun

/-! ### Primary expressions -/

theorem has_of_constant? (h : p.Whole) (hw : constant? p w = some id) : p.Has id := by
  unfold constant? at hw
  split at hw
  · split at hw
    · next only hget =>
      split at hw
      · cases hw
        exact h.has hget _ (.head _)
      · cases hw
    · cases hw
  · cases hw

theorem keeps_takeName : Keeps p (takeName t) fun _ o => o.isBinary := by
  refine keeps_expect.bind fun q _ _ _ => keeps_lookup?.bind fun r word _ _ => ?_
  have hknown : Keeps r (ask fun s => word.bind (constant? s.pool))
      fun u known => ∀ id, known = some id → u.Has id := by
    refine keeps_ask fun s _ hs id hid => ?_
    obtain ⟨w, -, hw⟩ := Option.bind_eq_some_iff.1 hid
    exact has_of_constant? hs.pool hw
  refine hknown.bind fun u known _ hknown => ?_
  have hrest : ∀ v, Keeps v (do
        if word.isNone then
          report (.nameNotFound t.span t.lexeme)
          return Offer.taken .error []
        else return Offer.taken .reference []) fun _ o => o.isBinary := by
    intro v
    split
    · exact keeps_report.bind fun _ _ _ _ => keeps_taken rfl
    · exact keeps_taken rfl
  cases known with
  | none => exact (keeps_leaveAt (.leaf (by nofun))).bind fun _ _ _ _ => hrest _
  | some id => exact (keeps_push (hknown id rfl)).bind fun _ _ _ _ => hrest _

theorem keeps_takePrimary : Keeps p (takePrimary t) fun _ o => o.isBinary := by
  have leaf {n : Node} {cls : TokenClass} (hn : ∀ t es, n ≠ .branch t es) :
      Keeps p (do leaveAt n t.span; return .taken cls [] : ParseM Offer) fun _ o => o.isBinary :=
    (keeps_leaveAt (.leaf hn)).bind fun _ _ _ _ => keeps_taken rfl
  unfold takePrimary
  split
  · exact leaf nofun
  · exact leaf nofun
  · exact leaf nofun
  · exact leaf nofun
  · exact keeps_takenAt fun _ => rfl
  · exact keeps_takenAt fun _ => rfl
  · exact keeps_takenAt fun _ => rfl
  · exact keeps_enter.bind fun _ _ _ _ => keeps_takenAt fun _ => rfl
  · exact keeps_takeName

theorem keeps_takeOperand : Keeps p (takeOperand t) fun _ o => o.isBinary := by
  unfold takeOperand
  split
  · exact keeps_taken rfl
  · exact keeps_takePrimary

theorem keeps_takeExpr : Keeps p (takeExpr t) fun _ o => o.isBinary := by
  unfold takeExpr
  split
  · exact keeps_taken rfl
  · exact keeps_takenAt fun _ => rfl
  · exact keeps_takenAt fun _ => rfl
  · exact keeps_takeOperand.bind fun _ _ _ ho => keeps_followedBy ho rfl

theorem keeps_offerListItem : Keeps p (offerListItem brk base t) fun _ o => o.isBinary := by
  unfold offerListItem
  split
  · exact keeps_finishExprs.bind fun _ _ _ _ => keeps_declined
  · exact keeps_takeExpr.bind fun _ _ _ ho => keeps_followedBy ho rfl

theorem keeps_offerElement : Keeps p (offerElement t) fun _ o => o.isBinary := by
  unfold offerElement
  split
  · exact keeps_declined
  · exact keeps_takeExpr.bind fun _ _ _ ho => keeps_followedBy ho rfl

theorem keeps_offerBinding : Keeps p (offerBinding t) fun _ o => o.isBinary := by
  unfold offerBinding
  split
  · exact keeps_declined
  · exact (keeps_leaveAt (.leaf (by nofun))).bind fun _ _ _ _ => keeps_taken rfl
  · refine keeps_expect.bind fun _ _ _ _ => ?_
    exact (keeps_leaveAt (.leaf (by nofun))).bind fun _ _ _ _ => keeps_taken rfl

/-! ### Definitions and clauses -/

theorem keeps_takeLetName : Keeps p (takeLetName t) fun _ o => o.isBinary := by
  refine keeps_expect.bind fun q _ _ _ => keeps_read.bind fun r depth _ _ => ?_
  have hword : Word.Whole r t.lexeme (.function t.lexeme) := .intro ⟨.inl rfl, nofun⟩ nofun
  exact (keeps_define hword).bind fun _ _ _ _ => keeps_enter.bind fun _ _ _ _ => keeps_takenAt fun _ => rfl

theorem keeps_finishLet {depth : Nat} : Keeps p (finishLet depth name base) fun _ _ => True := by
  refine keeps_pop.bind fun q body _ hbody => keeps_drainFrom.bind fun r pattern hqr _ => ?_
  refine keeps_exit.bind fun u scope hru hscope s hp hs => ?_
  have hbody := (hbody.mono (hqr.trans hru)).mono hp
  refine ⟨⟨.refl _, hs.pool, hs.operands, hs.env.bindAt (.intro ⟨.inr hbody, nofun⟩ ?_)⟩, trivial⟩
  rintro - _ ⟨⟩ nw hnw
  exact (hscope nw hnw).mono hp

theorem keeps_offerParam : Keeps p (offerParam brk base t) fun _ o => o.isBinary := by
  unfold offerParam
  split
  · exact keeps_declined
  · split
    · exact keeps_takenAt fun _ => rfl
    · refine keeps_expect.bind fun _ _ _ _ => keeps_read.bind fun _ offset _ _ => ?_
      refine (keeps_define (Word.whole_value (.inl rfl))).bind fun _ _ _ _ => ?_
      exact (keeps_leaveAt (.leaf (by nofun))).bind fun _ _ _ _ => keeps_taken rfl

/-- The patterns of a word are nothing that a fold looks at. -/
theorem whole_withPatterns (h : w.Whole p name) : Word.Whole p name { w with patterns := ids } :=
  .intro ⟨h.refers.nid, h.refers.operator⟩ fun hw _ hc => Word.Throughout.lexicon h hw hc

theorem keeps_markPattern : Keeps p (markPattern id ids) fun _ _ => True := by
  induction ids generalizing p with
  | nil => exact keeps_pure fun _ _ => trivial
  | cons i ids ih =>
    refine keeps_read.bind fun q n _ _ => ?_
    split
    · next name =>
      refine (keeps_ask (Q := fun r w => ∀ v, w = some v → Word.Whole r name v) ?_).bind fun r w _ hw => ?_
      · exact fun s _ hs v hv => hs.env.top.find? hv
      · cases w with
        | none => exact ih
        | some w => exact (keeps_define (whole_withPatterns (hw w rfl))).bind fun _ _ _ _ => ih
    · exact ih

theorem keeps_takeParamList : Keeps p (takeParamList base t) fun _ o => o.isBinary := by
  refine keeps_expect.bind fun _ _ _ _ => keeps_drainFrom.bind fun q elts _ helts => ?_
  refine (keeps_intern (.branch rfl helts)).bind fun r list _ hlist => ?_
  refine keeps_markPattern.bind fun u _ hru _ => ?_
  exact (keeps_push (hlist.mono hru)).bind fun _ _ _ _ => keeps_taken rfl

theorem keeps_takeLambdaEnd : Keeps p (takeLambdaEnd base t) fun _ o => o.isBinary := by
  refine keeps_expect.bind fun _ _ _ _ => keeps_pop.bind fun q body _ hbody => ?_
  refine keeps_drainFrom.bind fun r pattern hqr hpattern => keeps_exit.bind fun u scope hru _ => ?_
  refine keeps_internNames.bind fun v names huv hnames => ?_
  refine (keeps_intern (.branch rfl hnames)).bind fun w names hvw hnames => ?_
  have hrw := (hru.trans huv).trans hvw
  refine (keeps_intern (.branch rfl (Pool.forall_has_mono hpattern hrw))).bind ?_
  intro x pattern hwx hpattern
  have hbody := hbody.mono ((hqr.trans hrw).trans hwx)
  have helts : ∀ id ∈ [names, body, pattern], x.Has id := by
    simp [hnames.mono hwx, hbody, hpattern]
  exact (keeps_leaveAt (.branch rfl helts)).bind fun _ _ _ _ => keeps_taken rfl

theorem keeps_negate : Keeps p (negate span) fun _ _ => True := by
  refine keeps_pop.bind fun q a _ ha => keeps_read.bind fun r x hqr _ => ?_
  split
  · exact keeps_leaveAt (.leaf (by nofun))
  · exact keeps_leaveAt (.branch rfl (by simpa using ha.mono hqr))

theorem keeps_finishBinding : Keeps p finishBinding fun _ _ => True := by
  refine keeps_pop.bind fun q value _ hvalue => keeps_pop.bind fun r key hqr hkey => ?_
  exact keeps_leave (.branch rfl (by simp [hkey, hvalue.mono hqr]))

theorem keeps_takeCaseClause : Keeps p (takeCaseClause base span t) fun _ o => o.isBinary := by
  unfold takeCaseClause
  split
  · exact keeps_enter.bind fun _ _ _ _ => keeps_taken rfl
  · refine keeps_expect.bind fun _ _ _ _ => keeps_drainFrom.bind fun _ parts _ hparts => ?_
    exact (keeps_leaveAt (.branch rfl hparts)).bind fun _ _ _ _ => keeps_taken rfl

theorem keeps_takePattern : Keeps p (takePattern t) fun _ o => o.isBinary := by
  refine keeps_lookup?.bind fun q word _ _ => ?_
  split
  · refine (keeps_internAt (.leaf (by nofun))).bind fun r id _ hid => ?_
    have hword : Word.Whole r t.lexeme (.value t.lexeme 0) := Word.whole_value (.inl rfl)
    refine (keeps_define (whole_withPatterns hword)).bind fun u _ hru _ => ?_
    exact (keeps_push (hid.mono hru)).bind fun _ _ _ _ => keeps_taken rfl
  · exact keeps_takeOperand

theorem keeps_finishClause : Keeps p finishClause fun _ _ => True := by
  refine keeps_pop.bind fun q body _ hbody => keeps_pop.bind fun r pattern hqr hpattern => ?_
  refine keeps_exit.bind fun u scope hru _ => keeps_internNames.bind fun v names huv hnames => ?_
  have hpattern := hpattern.mono (hru.trans huv)
  have hbody := hbody.mono (hqr.trans (hru.trans huv))
  split
  · exact keeps_leave (.branch rfl (by simp [hpattern, hbody]))
  · refine (keeps_intern (.branch rfl hnames)).bind fun w list hvw hlist => ?_
    exact keeps_leave (.branch rfl (by simp [hpattern.mono hvw, hbody.mono hvw, hlist]))

theorem keeps_takeIfEnd : Keeps p (takeIfEnd base span t) fun _ o => o.isBinary := by
  refine keeps_expect.bind fun _ _ _ _ => keeps_drainFrom.bind fun q parts _ hparts => ?_
  split
  · next condition yes no =>
    simp only [List.mem_cons, List.not_mem_nil, or_false, forall_eq_or_imp, forall_eq] at hparts
    obtain ⟨hcondition, hyes, hno⟩ := hparts
    refine (keeps_intern (.leaf (by nofun))).bind fun r true_ hqr htrue => ?_
    refine (keeps_intern (.leaf (by nofun))).bind fun u false_ hru hfalse => ?_
    have hqu := hqr.trans hru
    refine (keeps_intern (.branch rfl (by simp [htrue.mono hru, hyes.mono hqu]))).bind ?_
    intro v yes huv hyes
    have hqv := hqu.trans huv
    refine (keeps_intern (.branch rfl (by simp [hfalse.mono huv, hno.mono hqv]))).bind ?_
    intro w no hvw hno
    have helts : ∀ id ∈ [condition, yes, no], w.Has id := by
      simp [hcondition.mono (hqv.trans hvw), hyes.mono hvw, hno]
    exact (keeps_leaveAt (.branch rfl helts)).bind fun _ _ _ _ => keeps_taken rfl
  · exact keeps_internal

end ParseM

/-! ### Positions -/

namespace Cont

open ParseM

variable {p : Pool} {t : Token}

theorem keeps_reduce (c : Cont) : Keeps p c.reduce fun _ _ => True := by
  cases c with
  | letBody depth name base => exact keeps_finishLet
  | negate span => exact keeps_negate
  | ofEnd => exact keeps_finishClause
  | _ => exact keeps_pure fun _ _ => trivial

theorem keeps_offer {c : Cont} (hc : c.isBinary) : Keeps p (c.offer t) fun _ o => o.isBinary := by
  have expecting {kind : TokenKind} {f : ParseM Offer} (hf : ∀ q, Keeps q f fun _ o => o.isBinary) :
      Keeps p (do expect kind t; f) fun _ o => o.isBinary :=
    keeps_expect.bind fun _ _ _ _ => hf _
  have closing {q : Pool} {tag : Tag} {span : Span} {base : Nat} (htag : tag.isLeaf = false) :
      Keeps q (do leaveAt (.branch tag (← drainFrom base)) span; return .taken .punc [] : ParseM Offer)
        fun _ o => o.isBinary :=
    keeps_drainFrom.bind fun _ _ _ hids =>
      (keeps_leaveAt (.branch htag hids)).bind fun _ _ _ _ => keeps_taken rfl
  cases c with
  | program =>
    refine keeps_expect.bind fun _ _ _ _ => keeps_pop.bind fun q exprs _ hexprs => ?_
    refine (keeps_intern (.branch rfl (by simpa using hexprs))).bind fun _ root _ _ => ?_
    exact keeps_pure fun _ _ => rfl
  | exprs brk base =>
    simp only [offer]
    split
    · exact keeps_finishExprs.bind fun _ _ _ _ => keeps_taken rfl
    · exact keeps_offerListItem
  | exprsNext brk base =>
    simp only [offer]
    split
    · exact keeps_taken rfl
    · exact keeps_offerListItem
  | exprsAfterDot brk base => exact keeps_offerListItem
  | expr => exact keeps_takeExpr
  | letName => exact keeps_takeLetName
  | letEqual depth name base => exact expecting fun _ => keeps_takenAt fun _ => rfl
  | params brk base => exact keeps_offerParam
  | paramList base => exact keeps_takeParamList
  | lambdaColon base => exact expecting fun _ => keeps_takenAt fun _ => rfl
  | lambdaEnd base => exact keeps_takeLambdaEnd
  | operand => exact keeps_takeOperand
  | binary ops =>
    have hops : ∀ op ∈ ops, op.1.isOperator := List.all_eq_true.1 hc
    refine keeps_operator?.bind fun q tag _ htag => ?_
    cases tag with
    | some tag =>
      refine (keeps_reduceWhile hops).bind fun _ ops _ hops => keeps_taken ?_
      have hnext : isBinary (.binary ((tag, t.span) :: ops)) :=
        List.all_eq_true.2 (List.forall_mem_cons.2 ⟨htag tag rfl, hops⟩)
      exact Bool.and_eq_true_iff.2 ⟨rfl, Bool.and_eq_true_iff.2 ⟨hnext, rfl⟩⟩
    | none => exact (keeps_reduceAll hops).bind fun _ _ _ _ => keeps_declined
  | primary => exact keeps_takePrimary
  | parenEnd span =>
    refine expecting fun _ => keeps_pop.bind fun _ inner _ hinner => ?_
    exact (keeps_leaveAt (.branch rfl (by simpa using hinner))).bind fun _ _ _ _ => keeps_taken rfl
  | elements => exact keeps_offerElement
  | elementNext =>
    simp only [offer]
    split
    · exact keeps_taken rfl
    · exact keeps_offerElement
  | listEnd base => exact expecting fun _ => closing rfl
  | bindings => exact keeps_offerBinding
  | bindingColon => exact expecting fun _ => keeps_taken rfl
  | bindingNext =>
    refine keeps_finishBinding.bind fun _ _ _ _ => ?_
    split
    · exact keeps_taken rfl
    · exact keeps_offerBinding
  | recordEnd base span => exact expecting fun _ => closing rfl
  | caseClauses base span => exact keeps_takeCaseClause
  | pattern => exact keeps_takePattern
  | ofColon => exact expecting fun _ => keeps_takenAt fun _ => rfl
  | ifThen base span => exact expecting fun _ => keeps_takenAt fun _ => rfl
  | ifElse base span =>
    simp only [offer]
    split
    · exact keeps_takenAt fun _ => rfl
    · exact (keeps_leave (.branch rfl (by simp))).bind fun _ _ _ _ => keeps_takeIfEnd
  | ifEnd base span => exact keeps_takeIfEnd
  | letBody | negate | ofEnd => exact (keeps_reduce _).bind fun _ _ _ _ => keeps_declined

end Cont

/-! ### Steps -/

section

variable {p : Pool} {t : Token} {conts : List Cont}

def Advance.isBinary : Advance → Bool
  | taken _ conts => conts.all Cont.isBinary
  | finished _ => true

theorem keeps_advance (h : conts.all Cont.isBinary) :
    Keeps p (advance t conts) fun _ a => a.isBinary := by
  induction conts generalizing p with
  | nil => exact keeps_pure fun _ _ => rfl
  | cons c conts ih =>
    obtain ⟨hc, hconts⟩ := Bool.and_eq_true_iff.1 h
    refine (Cont.keeps_offer hc).bind fun q o _ ho => ?_
    cases o with
    | taken cls next => exact keeps_pure fun _ _ => Cont.all_isBinary_append ho hconts
    | declined => exact ih hconts
    | finished root => exact keeps_pure fun _ _ => rfl

theorem keeps_settle (h : conts.all Cont.isBinary) :
    Keeps p (settle conts) fun _ conts => conts.all Cont.isBinary := by
  induction conts generalizing p with
  | nil => exact keeps_pure fun _ _ => rfl
  | cons c conts ih =>
    unfold settle
    split
    · exact c.keeps_reduce.bind fun _ _ _ _ => ih (Bool.and_eq_true_iff.1 h).2
    · exact keeps_pure fun _ _ => h

theorem keeps_consume (h : conts.all Cont.isBinary) :
    Keeps p (ParseState.consume t conts) fun _ a => a.isBinary := by
  refine (keeps_advance h).bind fun q a _ ha => ?_
  cases a with
  | taken cls conts =>
    exact (keeps_settle ha).bind fun r conts _ hconts => keeps_pure fun _ _ => hconts
  | finished root => exact keeps_pure fun _ _ => rfl

end

namespace ParseState

/-- What is suspended refers to nodes of the pool. -/
structure Whole (p : Pool) (s : ParseState) : Prop where
  conts : s.conts.all Cont.isBinary
  operands : ∀ id ∈ s.operands, p.Has id
  env : s.env.All (Word.Whole p)

variable {p q : Pool} {s : ParseState} {t : Token}

theorem Whole.mono (h : s.Whole p) (hpq : p.Extends q) : s.Whole q :=
  ⟨h.conts, Pool.forall_has_mono h.operands hpq, Environment.all_whole_mono h.env hpq⟩

theorem whole_initial {e : Environment} (h : e.All (Word.Whole p)) : (initial e).Whole p :=
  ⟨rfl, nofun, h⟩

/-- Whatever the token is, a step adds whole nodes only. -/
theorem Whole.step (h : s.Whole p) (hp : p.Whole) :
    p.Extends (s.step p t).2.2 ∧ (s.step p t).2.2.Whole ∧ (s.step p t).2.1.Whole (s.step p t).2.2 := by
  obtain ⟨conts, operands, env, errors, status⟩ := s
  cases status with
  | parsing =>
    have hstep := keeps_consume (t := t) h.conts ⟨p, operands, env, errors⟩ (.refl p)
      ⟨hp, h.operands, h.env⟩
    unfold Ensures at hstep
    split at hstep
    · next a s hs =>
      obtain ⟨⟨hgrows, hpool, hoperands, henv⟩, ha⟩ := hstep
      cases a with
      | taken cls conts =>
        simp only [ParseState.step, hs]
        exact ⟨hgrows, hpool, ha, hoperands, henv⟩
      | finished root =>
        simp only [ParseState.step, hs]
        exact ⟨hgrows, hpool, rfl, hoperands, henv⟩
    · next e s hs =>
      obtain ⟨hgrows, hpool, hoperands, henv⟩ := hstep
      simp only [ParseState.step, hs]
      exact ⟨hgrows, hpool, rfl, hoperands, henv⟩
  | complete root => exact ⟨.refl _, hp, h⟩
  | failed e => exact ⟨.refl _, hp, h⟩

end ParseState

end Linefold
