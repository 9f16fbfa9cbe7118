import Linefold.Proofs.Twins.Agree

/-!
# Parsing over two pools

Two runs of the parser that start alike read every token in the same way: each function of the grammar
agrees with itself, and so does a step (`ParseState.Alike.step`).
-/

namespace Linefold

attribute [local irreducible] Pool.intern

/-- Offers that are alike. -/
inductive Offer.Alike (T : Twin) : Offer → Offer → Prop where
  | taken (cls : TokenClass) (next : List Cont) : Offer.Alike T (.taken cls next) (.taken cls next)
  | declined : Offer.Alike T .declined .declined
  | finished {i j : NodeId} (h : T.Alike i j) : Offer.Alike T (.finished i) (.finished j)

namespace ParseM

variable {T : Twin} {i j : NodeId} {is js : List NodeId} {t : Token} {base : Nat} {span : Span}
  {brk : TokenKind} {next : List Cont} {o o' : Offer}

theorem agree_taken {cls : TokenClass} :
    Agree T (return .taken cls next : ParseM Offer) (return .taken cls next) Offer.Alike :=
  agree_pure fun _ _ => .taken cls next

theorem agree_declined : Agree T (return .declined : ParseM Offer) (return .declined) Offer.Alike :=
  agree_pure fun _ _ => .declined

/-! ### Lists and operators -/

theorem agree_finishExprs : Agree T (finishExprs base) (finishExprs base) fun _ => Eq :=
  agree_drainFrom.bind fun _ _ _ _ hids => agree_leave (.branch _ hids)

theorem number?_eq {s s' : Parsed} {U : Twin} (hT : U.Grows (.of s s')) (h : U.Alike i j) :
    s.pool.number? i = s'.pool.number? j :=
  (h.mono hT).number?_eq

theorem agree_reduce {op : Tag × Span} : Agree T (reduce op) (reduce op) fun _ => Eq := by
  refine agree_pop.bind fun U b b' _ hb => ?_
  refine agree_pop.bind fun V a a' hUV ha => ?_
  have hb := hb.mono hUV
  refine (agree_ask (R := fun _ => Eq) fun _ _ hT _ _ => number?_eq hT ha).bind fun W x x' hVW hx => ?_
  have ha := ha.mono hVW
  have hb := hb.mono hVW
  refine (agree_ask (R := fun _ => Eq) fun _ _ hT _ _ => number?_eq hT hb).bind fun X y y' hWX hy => ?_
  obtain rfl := hx
  obtain rfl := hy
  exact agree_leaveAt (.getD (fun _ => Node.isLiteral_of_arithmetic) (ha.mono hWX) (hb.mono hWX))

theorem agree_reduceWhile {prec : Nat} {ops : List (Tag × Span)} :
    Agree T (reduceWhile prec ops) (reduceWhile prec ops) fun _ => Eq := by
  induction ops generalizing T with
  | nil => exact agree_pure fun _ _ => rfl
  | cons op ops ih =>
    unfold reduceWhile
    split
    · exact agree_pure fun _ _ => rfl
    · exact agree_reduce.bind fun _ _ _ _ _ => ih

theorem agree_reduceAll {ops : List (Tag × Span)} :
    Agree T (reduceAll ops) (reduceAll ops) fun _ => Eq := by
  induction ops generalizing T with
  | nil => exact agree_pure fun _ _ => rfl
  | cons op ops ih => exact agree_reduce.bind fun _ _ _ _ _ => ih

theorem agree_operator? : Agree T (operator? t) (operator? t) fun _ => Eq := by
  unfold operator?
  split
  · exact agree_pure fun _ _ => rfl
  · refine (agree_ask (R := fun _ => Eq) fun _ _ _ _ henv => henv.globals.operator?_eq).bind ?_
    rintro U tag _ - rfl
    cases tag with
    | some tag => exact agree_pure fun _ _ => rfl
    | none => exact agree_internal
  · exact agree_pure fun _ _ => rfl

/-! ### Primary expressions -/

/-- What a name stands for is looked up by its id. -/
theorem constant?_rel {w v : Word} (h : w.Alike T v) :
    Option.Rel T.Alike (constant? T.left w) (constant? T.right v) := by
  unfold constant?
  rw [h.head.cls, h.head.arity]
  split
  · rcases h.head.nid.get?_cases with ⟨hi, hj⟩ | ⟨n, m, hi, hj, hm⟩
    · rw [hi, hj]
      exact .none
    · rw [hi, hj]
      cases hm with
      | branch t hes =>
        rcases hes with _ | ⟨hc, _ | ⟨hd, hes⟩⟩
        · cases t <;> exact .none
        · by_cases ht : t = .exprs
          · subst ht
            simp only [hc.any_isLiteral_eq]
            split
            · exact .some hc
            · exact .none
          · cases t <;> first | exact .none | exact absurd rfl ht
        · cases t <;> exact .none
      | _ => exact .none
  · exact .none

theorem agree_takeName : Agree T (takeName t) (takeName t) Offer.Alike := by
  refine agree_expect.bind fun U _ _ _ _ => ?_
  refine agree_lookup?.bind fun V word word' hUV hword => ?_
  have hknown : Agree V (ask fun s => word.bind (constant? s.pool))
      (ask fun s => word'.bind (constant? s.pool)) fun W => Option.Rel W.Alike := by
    refine agree_ask fun s s' hV _ _ => ?_
    cases hword with
    | none => exact .none
    | some hw => exact constant?_rel (hw.mono hV)
  refine hknown.bind fun W known known' hVW hknown => ?_
  have hrest : ∀ X, Agree X (do
        if word.isNone then
          report (.nameNotFound t.span t.lexeme)
          return .taken .error []
        else return .taken .reference [])
      (do
        if word'.isNone then
          report (.nameNotFound t.span t.lexeme)
          return .taken .error []
        else return .taken .reference []) Offer.Alike := by
    intro X
    cases hword with
    | none => exact agree_report.bind fun _ _ _ _ _ => agree_taken
    | some => exact agree_taken
  cases hknown with
  | none => exact (agree_leaveAt (.ident _)).bind fun _ _ _ _ _ => hrest _
  | some hid => exact (agree_push hid).bind fun _ _ _ _ _ => hrest _

theorem agree_takePrimary : Agree T (takePrimary t) (takePrimary t) Offer.Alike := by
  unfold takePrimary
  split
  · exact (agree_leaveAt (.num _)).bind fun _ _ _ _ _ => agree_taken
  · exact (agree_leaveAt (.str _)).bind fun _ _ _ _ _ => agree_taken
  · exact (agree_leaveAt (.bool _)).bind fun _ _ _ _ _ => agree_taken
  · exact (agree_leaveAt .null).bind fun _ _ _ _ _ => agree_taken
  · refine agree_height.bind ?_
    rintro U base _ - rfl
    exact agree_taken
  · refine agree_height.bind ?_
    rintro U base _ - rfl
    exact agree_taken
  · refine agree_height.bind ?_
    rintro U base _ - rfl
    exact agree_taken
  · refine agree_enter.bind fun U _ _ _ _ => agree_height.bind ?_
    rintro V base _ - rfl
    exact agree_taken
  · exact agree_takeName

theorem agree_takeOperand : Agree T (takeOperand t) (takeOperand t) Offer.Alike := by
  unfold takeOperand
  split
  · exact agree_taken
  · exact agree_takePrimary

theorem agree_followedBy (h : o.Alike T o') :
    Agree T (return followedBy next o : ParseM Offer) (return followedBy next o') Offer.Alike := by
  refine agree_pure fun U hTU => ?_
  cases h with
  | taken cls first => exact .taken cls (first ++ next)
  | declined => exact .declined
  | finished h => exact .finished (h.mono hTU)

theorem agree_takeExpr : Agree T (takeExpr t) (takeExpr t) Offer.Alike := by
  unfold takeExpr
  split
  · exact agree_taken
  · refine agree_height.bind ?_
    rintro U base _ - rfl
    exact agree_taken
  · refine agree_height.bind ?_
    rintro U base _ - rfl
    exact agree_taken
  · exact agree_takeOperand.bind fun U o o' _ ho => agree_followedBy ho

theorem agree_offerListItem :
    Agree T (offerListItem brk base t) (offerListItem brk base t) Offer.Alike := by
  unfold offerListItem
  split
  · exact agree_finishExprs.bind fun _ _ _ _ _ => agree_declined
  · exact agree_takeExpr.bind fun U o o' _ ho => agree_followedBy ho

theorem agree_offerElement : Agree T (offerElement t) (offerElement t) Offer.Alike := by
  unfold offerElement
  split
  · exact agree_declined
  · exact agree_takeExpr.bind fun U o o' _ ho => agree_followedBy ho

theorem agree_offerBinding : Agree T (offerBinding t) (offerBinding t) Offer.Alike := by
  unfold offerBinding
  split
  · exact agree_declined
  · exact (agree_leaveAt (.str _)).bind fun _ _ _ _ _ => agree_taken
  · refine agree_expect.bind fun U _ _ _ _ => ?_
    exact (agree_leaveAt (.ident _)).bind fun _ _ _ _ _ => agree_taken

/-! ### Definitions and clauses -/

theorem agree_takeLetName : Agree T (takeLetName t) (takeLetName t) Offer.Alike := by
  refine agree_expect.bind fun U _ _ _ _ => ?_
  refine (agree_ask (R := fun _ => Eq) fun _ _ _ _ henv => henv.depth_eq).bind ?_
  rintro V depth _ - rfl
  refine (agree_define (Word.alike_plain rfl rfl rfl)).bind fun W _ _ _ _ => ?_
  refine agree_enter.bind fun X _ _ _ _ => agree_height.bind ?_
  rintro Y base _ - rfl
  exact agree_taken

theorem agree_finishLet {depth : Nat} {name : String} :
    Agree T (finishLet depth name base) (finishLet depth name base) fun _ => Eq := by
  refine agree_pop.bind fun U body body' _ hbody => ?_
  refine agree_drainFrom.bind fun V pattern pattern' hUV hpattern => ?_
  refine agree_exit.bind fun W scope scope' hVW hscope => ?_
  have hbody := (hbody.mono hUV).mono hVW
  have hpattern := Twin.forall₂_mono hpattern hVW
  intro s s' hT ⟨hoperands, henv, herrors⟩
  refine ⟨.refl _, ⟨hoperands, henv.bindAt ?_, herrors⟩, rfl⟩
  refine .intro ⟨rfl, rfl, rfl, hbody.mono hT, hpattern.length_eq, .nil⟩ ?_
  exact .some (hscope.mono hT).lexicon hscope.params_eq (Twin.forall₂_mono hpattern hT)

theorem agree_offerParam : Agree T (offerParam brk base t) (offerParam brk base t) Offer.Alike := by
  unfold offerParam
  split
  · exact agree_declined
  · split
    · refine agree_height.bind ?_
      rintro U inner _ - rfl
      exact agree_taken
    · refine agree_expect.bind fun U _ _ _ _ => ?_
      have hoffset : Agree U (ask (·.env.top.params.length)) (ask (·.env.top.params.length)) fun _ => Eq :=
        agree_ask fun _ _ _ _ henv => congrArg List.length henv.top.params_eq
      refine hoffset.bind ?_
      rintro V offset _ - rfl
      refine (agree_define (Word.alike_plain rfl rfl rfl)).bind fun W _ _ _ _ => ?_
      exact (agree_leaveAt (.ident _)).bind fun _ _ _ _ _ => agree_taken

theorem agree_markPattern (hlist : T.Alike i j) (hids : List.Forall₂ T.Alike is js) :
    Agree T (markPattern i is) (markPattern j js) fun _ => Eq := by
  induction is generalizing T js with
  | nil =>
    cases hids
    exact agree_pure fun _ _ => rfl
  | cons id is ih =>
    cases hids with
    | @cons _ id' _ js hid hids =>
      have hrest : ∀ U, T.Grows U → Agree U (markPattern i is) (markPattern j js) fun _ => Eq :=
        fun U hTU => ih (hlist.mono hTU) (Twin.forall₂_mono hids hTU)
      have hnode : Agree T (ask (·.pool.get? id)) (ask (·.pool.get? id'))
          fun U => Option.Rel (Node.Matches U.Alike) :=
        agree_ask fun _ _ hT _ _ => (hid.mono hT).get?_rel
      refine hnode.bind fun U n n' hTU hn => ?_
      cases hn with
      | none => exact hrest U hTU
      | some hn =>
        cases hn with
        | ident name =>
          have hword : Agree U (ask (·.env.top.get? name)) (ask (·.env.top.get? name))
              fun V => Option.Rel (Word.Alike V) :=
            agree_ask fun _ _ _ _ henv => henv.top.get?
          refine hword.bind fun V w w' hUV hw => ?_
          cases hw with
          | none => exact hrest V (hTU.trans hUV)
          | @some w w' hw =>
            have hmarked : Word.Alike V { w with patterns := [i] } { w' with patterns := [j] } :=
              .intro { hw.head with patterns := .cons (hlist.mono (hTU.trans hUV)) .nil } hw.closure
            exact (agree_define hmarked).bind fun W _ _ hVW _ => hrest W ((hTU.trans hUV).trans hVW)
        | _ => exact hrest U hTU

theorem agree_takeParamList : Agree T (takeParamList base t) (takeParamList base t) Offer.Alike := by
  refine agree_expect.bind fun U _ _ _ _ => agree_drainFrom.bind fun V elts elts' _ helts => ?_
  refine (agree_intern (.branch _ helts)).bind fun W list list' hVW hlist => ?_
  refine (agree_markPattern hlist (Twin.forall₂_mono helts hVW)).bind fun X _ _ hWX _ => ?_
  exact (agree_push (hlist.mono hWX)).bind fun _ _ _ _ _ => agree_taken

theorem agree_internNames {names : List String} :
    Agree T (internNames names) (internNames names) fun U => List.Forall₂ U.Alike := by
  induction names generalizing T with
  | nil => exact agree_pure fun _ _ => .nil
  | cons name names ih =>
    refine (agree_intern (.ident name)).bind fun U id id' _ hid => ?_
    refine ih.bind fun V ids ids' hUV hids => agree_pure fun W hVW => ?_
    exact .cons ((hid.mono hUV).mono hVW) (Twin.forall₂_mono hids hVW)

theorem agree_takeLambdaEnd : Agree T (takeLambdaEnd base t) (takeLambdaEnd base t) Offer.Alike := by
  refine agree_expect.bind fun U _ _ _ _ => agree_pop.bind fun V body body' _ hbody => ?_
  refine agree_drainFrom.bind fun W pattern pattern' hVW hpattern => ?_
  refine agree_exit.bind fun X scope scope' hWX hscope => ?_
  rw [hscope.params_eq]
  refine agree_internNames.bind fun Y names names' hXY hnames => ?_
  refine (agree_intern (.branch _ hnames)).bind fun Z names names' hYZ hnames => ?_
  have hgrows := (hWX.trans hXY).trans hYZ
  refine (agree_intern (.branch _ (Twin.forall₂_mono hpattern hgrows))).bind ?_
  intro A pattern pattern' hZA hpattern
  have hbody := (hbody.mono (hVW.trans hgrows)).mono hZA
  refine (agree_leaveAt (.branch _ (.cons (hnames.mono hZA) (.cons hbody (.cons hpattern .nil))))).bind ?_
  exact fun _ _ _ _ _ => agree_taken

theorem agree_negate : Agree T (negate span) (negate span) fun _ => Eq := by
  refine agree_pop.bind fun U a a' _ ha => ?_
  refine (agree_ask (R := fun _ => Eq) fun _ _ hT _ _ => number?_eq hT ha).bind ?_
  rintro V x _ hUV rfl
  cases x with
  | some x => exact agree_leaveAt (.num _)
  | none => exact agree_leaveAt (.branch _ (.cons (ha.mono hUV) .nil))

theorem agree_finishBinding : Agree T finishBinding finishBinding fun _ => Eq := by
  refine agree_pop.bind fun U value value' _ hvalue => agree_pop.bind fun V key key' hUV hkey => ?_
  exact agree_leave (.branch _ (.cons hkey (.cons (hvalue.mono hUV) .nil)))

theorem agree_takeCaseClause :
    Agree T (takeCaseClause base span t) (takeCaseClause base span t) Offer.Alike := by
  unfold takeCaseClause
  split
  · exact agree_enter.bind fun _ _ _ _ _ => agree_taken
  · refine agree_expect.bind fun U _ _ _ _ => agree_drainFrom.bind fun V parts parts' _ hparts => ?_
    exact (agree_leaveAt (.branch _ hparts)).bind fun _ _ _ _ _ => agree_taken

theorem agree_takePattern : Agree T (takePattern t) (takePattern t) Offer.Alike := by
  refine agree_lookup?.bind fun U word word' _ hword => ?_
  have hnone : word.isNone = word'.isNone := by cases hword <;> rfl
  rw [hnone]
  split
  · refine (agree_internAt (.ident _)).bind fun V id id' _ hid => ?_
    have hword : Word.Alike V { Word.value t.lexeme 0 with patterns := [id] }
        { Word.value t.lexeme 0 with patterns := [id'] } :=
      .intro ⟨rfl, rfl, rfl, .absent, rfl, .cons hid .nil⟩ .none
    refine (agree_define hword).bind fun W _ _ hVW _ => ?_
    exact (agree_push (hid.mono hVW)).bind fun _ _ _ _ _ => agree_taken
  · exact agree_takeOperand

theorem agree_finishClause : Agree T finishClause finishClause fun _ => Eq := by
  refine agree_pop.bind fun U body body' _ hbody => agree_pop.bind fun V pattern pattern' hUV hpattern => ?_
  refine agree_exit.bind fun W scope scope' hVW hscope => ?_
  rw [hscope.params_eq]
  refine agree_internNames.bind fun X names names' hWX hnames => ?_
  have hbody := hbody.mono ((hUV.trans hVW).trans hWX)
  have hpattern := hpattern.mono (hVW.trans hWX)
  cases hnames with
  | nil => exact agree_leave (.branch _ (.cons hpattern (.cons hbody .nil)))
  | cons hname hnames =>
    refine (agree_intern (.branch _ (.cons hname hnames))).bind fun Y list list' hXY hlist => ?_
    exact agree_leave (.branch _ (.cons (hpattern.mono hXY) (.cons (hbody.mono hXY) (.cons hlist .nil))))

theorem agree_takeIfEnd : Agree T (takeIfEnd base span t) (takeIfEnd base span t) Offer.Alike := by
  refine agree_expect.bind fun U _ _ _ _ => agree_drainFrom.bind fun V parts parts' _ hparts => ?_
  -- Only three parts make a conditional.
  rcases hparts with _ | ⟨hcondition, _ | ⟨hyes, _ | ⟨hno, _ | _⟩⟩⟩
  · exact agree_internal
  · exact agree_internal
  · exact agree_internal
  · refine (agree_intern (.bool true)).bind fun W yes yes' hVW htrue => ?_
    refine (agree_intern (.bool false)).bind fun X no no' hWX hfalse => ?_
    have hyes := (hyes.mono hVW).mono hWX
    refine (agree_intern (.branch .of (.cons (htrue.mono hWX) (.cons hyes .nil)))).bind ?_
    intro Y yes yes' hXY hyes
    have hno := ((hno.mono hVW).mono hWX).mono hXY
    refine (agree_intern (.branch .of (.cons (hfalse.mono hXY) (.cons hno .nil)))).bind ?_
    intro Z no no' hYZ hno
    have hcondition := hcondition.mono (((hVW.trans hWX).trans hXY).trans hYZ)
    have hparts := List.Forall₂.cons hcondition (.cons (hyes.mono hYZ) (.cons hno .nil))
    refine (agree_leaveAt (.branch .case hparts)).bind ?_
    exact fun _ _ _ _ _ => agree_taken
  · exact agree_internal

end ParseM

/-! ### Positions -/

namespace Cont

open ParseM

variable {T : Twin} {t : Token}

theorem agree_reduce (c : Cont) : Agree T c.reduce c.reduce fun _ => Eq := by
  cases c with
  | letBody depth name base => exact agree_finishLet
  | negate span => exact agree_negate
  | ofEnd => exact agree_finishClause
  | _ => exact agree_pure fun _ _ => rfl

theorem agree_offer (c : Cont) : Agree T (c.offer t) (c.offer t) Offer.Alike := by
  have started (cls : TokenClass) (f : Nat → List Cont) {U : Twin} :
      Agree U (do return .taken cls (f (← height))) (do return .taken cls (f (← height))) Offer.Alike := by
    refine agree_height.bind ?_
    rintro V base _ - rfl
    exact agree_taken
  cases c with
  | program =>
    refine agree_expect.bind fun U _ _ _ _ => agree_pop.bind fun V exprs exprs' _ hexprs => ?_
    refine (agree_intern (.branch _ (.cons hexprs .nil))).bind fun W root root' _ hroot => ?_
    exact agree_pure fun X hWX => .finished (hroot.mono hWX)
  | exprs brk base =>
    simp only [offer]
    split
    · exact agree_finishExprs.bind fun _ _ _ _ _ => agree_taken
    · exact agree_offerListItem
  | exprsNext brk base =>
    simp only [offer]
    split
    · exact agree_taken
    · exact agree_offerListItem
  | exprsAfterDot brk base => exact agree_offerListItem
  | expr => exact agree_takeExpr
  | letName => exact agree_takeLetName
  | letEqual depth name base =>
    exact agree_expect.bind fun _ _ _ _ _ => started .punc fun base' =>
      [.exprs .dot base', .letBody depth name base]
  | params brk base => exact agree_offerParam
  | paramList base => exact agree_takeParamList
  | lambdaColon base =>
    exact agree_expect.bind fun _ _ _ _ _ => started .punc fun base' =>
      [.exprs .rightAngle base', .lambdaEnd base]
  | lambdaEnd base => exact agree_takeLambdaEnd
  | operand => exact agree_takeOperand
  | binary ops =>
    refine agree_operator?.bind ?_
    rintro U tag _ - rfl
    cases tag with
    | some tag =>
      refine agree_reduceWhile.bind ?_
      rintro V ops _ - rfl
      exact agree_taken
    | none => exact agree_reduceAll.bind fun _ _ _ _ _ => agree_declined
  | primary => exact agree_takePrimary
  | parenEnd span =>
    refine agree_expect.bind fun U _ _ _ _ => agree_pop.bind fun V inner inner' _ hinner => ?_
    exact (agree_leaveAt (.branch _ (.cons hinner .nil))).bind fun _ _ _ _ _ => agree_taken
  | elements => exact agree_offerElement
  | elementNext =>
    simp only [offer]
    split
    · exact agree_taken
    · exact agree_offerElement
  | listEnd base =>
    refine agree_expect.bind fun U _ _ _ _ => agree_drainFrom.bind fun V elts elts' _ helts => ?_
    exact (agree_leaveAt (.branch _ helts)).bind fun _ _ _ _ _ => agree_taken
  | bindings => exact agree_offerBinding
  | bindingColon => exact agree_expect.bind fun _ _ _ _ _ => agree_taken
  | bindingNext =>
    refine agree_finishBinding.bind fun U _ _ _ _ => ?_
    split
    · exact agree_taken
    · exact agree_offerBinding
  | recordEnd base span =>
    refine agree_expect.bind fun U _ _ _ _ => agree_drainFrom.bind fun V elts elts' _ helts => ?_
    exact (agree_leaveAt (.branch _ helts)).bind fun _ _ _ _ _ => agree_taken
  | caseClauses base span => exact agree_takeCaseClause
  | pattern => exact agree_takePattern
  | ofColon =>
    exact agree_expect.bind fun _ _ _ _ _ => started .punc fun base => [.exprs .keyOf base]
  | ifThen base span =>
    exact agree_expect.bind fun _ _ _ _ _ => started .keyword fun base' =>
      [.exprs .keyElse base', .ifElse base span]
  | ifElse base span =>
    simp only [offer]
    split
    · exact started .keyword fun base' => [.exprs .keyEnd base', .ifEnd base span]
    · exact (agree_leave (.branch _ .nil)).bind fun _ _ _ _ _ => agree_takeIfEnd
  | ifEnd base span => exact agree_takeIfEnd
  | letBody | negate | ofEnd => exact (agree_reduce _).bind fun _ _ _ _ _ => agree_declined

end Cont

/-! ### Steps -/

/-- What tokens come to, alike. -/
inductive Advance.Alike (T : Twin) : Advance → Advance → Prop where
  | taken (cls : TokenClass) (conts : List Cont) : Advance.Alike T (.taken cls conts) (.taken cls conts)
  | finished {i j : NodeId} (h : T.Alike i j) : Advance.Alike T (.finished i) (.finished j)

section

variable {T : Twin} {t : Token} {conts : List Cont}

theorem agree_advance : Agree T (advance t conts) (advance t conts) Advance.Alike := by
  induction conts generalizing T with
  | nil => exact agree_pure fun _ _ => .taken _ _
  | cons c conts ih =>
    refine c.agree_offer.bind fun U o o' _ ho => ?_
    cases ho with
    | taken cls next => exact agree_pure fun _ _ => .taken _ _
    | declined => exact ih
    | finished h => exact agree_pure fun V hUV => .finished (h.mono hUV)

theorem agree_settle : Agree T (settle conts) (settle conts) fun _ => Eq := by
  induction conts generalizing T with
  | nil => exact agree_pure fun _ _ => rfl
  | cons c conts ih =>
    unfold settle
    split
    · exact c.agree_reduce.bind fun _ _ _ _ _ => ih
    · exact agree_pure fun _ _ => rfl

theorem agree_consume :
    Agree T (ParseState.consume t conts) (ParseState.consume t conts) Advance.Alike := by
  refine agree_advance.bind fun U o o' _ ho => ?_
  cases ho with
  | taken cls next =>
    refine agree_settle.bind ?_
    rintro V conts _ - rfl
    exact agree_pure fun _ _ => .taken _ _
  | finished h => exact agree_pure fun V hUV => .finished (h.mono hUV)

end

inductive Status.Alike (T : Twin) : Status → Status → Prop where
  | parsing : Status.Alike T .parsing .parsing
  | complete {i j : NodeId} (h : T.Alike i j) : Status.Alike T (.complete i) (.complete j)
  | failed (e : Error) : Status.Alike T (.failed e) (.failed e)

theorem Status.Alike.mono {T U : Twin} {s t : Status} (h : s.Alike T t) (hTU : T.Grows U) :
    s.Alike U t := by
  cases h with
  | parsing => exact .parsing
  | complete h => exact .complete (h.mono hTU)
  | failed e => exact .failed e

structure ParseState.Alike (T : Twin) (s t : ParseState) : Prop where
  conts : s.conts = t.conts
  operands : List.Forall₂ T.Alike s.operands t.operands
  env : s.env.Alike T t.env
  errors : s.errors = t.errors
  status : s.status.Alike T t.status

namespace ParseState.Alike

variable {T U : Twin} {s s' : ParseState} {t : Token}

theorem mono (h : s.Alike T s') (hTU : T.Grows U) : s.Alike U s' :=
  ⟨h.conts, Twin.forall₂_mono h.operands hTU, h.env.mono hTU, h.errors, h.status.mono hTU⟩

theorem initial {e f : Environment} (h : e.Alike T f) :
    (ParseState.initial e).Alike T (ParseState.initial f) :=
  ⟨rfl, .nil, h, rfl, .parsing⟩

theorem root (h : s.Alike T s') : T.Alike s.root s'.root := by
  have hstatus := h.status
  unfold ParseState.root
  generalize s.status = left, s'.status = right at hstatus ⊢
  cases hstatus with
  | parsing => exact .absent
  | complete h => exact h
  | failed e => exact .absent

/-- A step reads its token in the same way. -/
theorem step (h : s.Alike T s') :
    (s.step T.left t).1 = (s'.step T.right t).1 ∧
      T.Grows ⟨(s.step T.left t).2.2, (s'.step T.right t).2.2⟩ ∧
      (s.step T.left t).2.1.Alike ⟨(s.step T.left t).2.2, (s'.step T.right t).2.2⟩
        (s'.step T.right t).2.1 := by
  obtain ⟨conts, operands, env, errors, status⟩ := s
  obtain ⟨conts', operands', env', errors', status'⟩ := s'
  obtain ⟨rfl, hoperands, henv, rfl, hstatus⟩ := h
  cases hstatus with
  | parsing =>
    have hagree : Agree T (consume t conts) (consume t conts) Advance.Alike := agree_consume
    have hres := hagree ⟨T.left, operands, env, errors⟩ ⟨T.right, operands', env', errors⟩ (.refl _)
      ⟨hoperands, henv, rfl⟩
    unfold Agreed at hres
    split at hres
    · next a s b t hs ht =>
      obtain ⟨hgrows, ⟨hoperands, henv, herrors⟩, ha⟩ := hres
      cases ha with
      | taken cls conts =>
        simp only [ParseState.step, hs, ht]
        exact ⟨trivial, hgrows, rfl, hoperands, henv, herrors, .parsing⟩
      | finished hroot =>
        simp only [ParseState.step, hs, ht]
        exact ⟨trivial, hgrows, rfl, hoperands, henv, herrors, .complete hroot⟩
    · next e s e' t hs ht =>
      obtain ⟨hgrows, ⟨hoperands, henv, herrors⟩, rfl⟩ := hres
      simp only [ParseState.step, hs, ht]
      exact ⟨trivial, hgrows, rfl, hoperands, henv, herrors, .failed e⟩
    · exact hres.elim
  | complete hroot => exact ⟨rfl, .refl _, rfl, hoperands, henv, rfl, .complete hroot⟩
  | failed e => exact ⟨rfl, .refl _, rfl, hoperands, henv, rfl, .failed e⟩

end ParseState.Alike

end Linefold
