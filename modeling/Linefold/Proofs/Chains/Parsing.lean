import Linefold.Proofs.Chains.Operators
import Linefold.Proofs.Turns.Reading

/-!
# Chains are parsed as they group

`run_chain`: where an expression starts and a chain of operators comes, the parser reads all of the chain and puts
one node on the operand stack, whose tree is the one that the chain stands for. This holds in every parse, whatever
the positions below, and for every token after the chain that is no operator.
-/

namespace Linefold

open Relation (ReflTransGen)

/-- The operator that a token stands for between two operands. -/
def Scope.operatorOf? (g : Scope) (t : Token) : Option Tag :=
  match t.kind with
  | .minus => some .sub
  | .binOp => g.operator? t.lexeme
  | _ => none

/-- The links of a chain are those of the operator words, and its names stand for no literals. -/
structure Chain.Fits (c : Chain) (s : Parsed) : Prop where
  operators : ∀ l ∈ c.links, s.env.globals.operatorOf? l.token = some l.tag
  first : c.first.NotConstant s
  names : ∀ l ∈ c.links, l.operand.NotConstant s

variable {s q : Parsed} {t : Token} {tag : Tag} {x : Operand} {K : List Cont} {ids : List NodeId} {ws : List Waiting}

namespace ParseM

theorem operator?_eq (h : s.env.globals.operatorOf? t = some tag) : operator? t s = .ok (some tag) s := by
  unfold Scope.operatorOf? at h
  unfold operator?
  split at h
  · next hk =>
    cases h
    rw [hk]
    rfl
  · next hk =>
    rw [hk]
    simp only [bind, EStateM.bind, ask, h]
    rfl
  · cases h

theorem operator?_eq_none (h : t.kind.isInfix = false) : operator? t s = .ok none s := by
  unfold operator?
  generalize t.kind = k at h ⊢
  cases k <;> first | rfl | cases h

end ParseM

namespace Moment

/-! ### Operands -/

/-- The turn of a number or a name. -/
theorem turns_primary (hx : x.NotConstant s) (cls : TokenClass) : ∃ cls' s',
    Turns ⟨some x.atom, cls, .primary :: K, s, none⟩ ⟨none, cls', K, s', none⟩ ∧ s.Puts s.operands x.atomTree s' := by
  obtain ⟨cls', s', htake, hputs⟩ := ParseM.puts_takePrimary hx
  have hturn : Cont.turn x.atom .primary s = .ok (.takes cls' []) s' := by
    show (ParseM.takePrimary x.atom >>= fun o => pure o.turn) s = _
    simp only [bind, EStateM.bind, htake]
    rfl
  exact ⟨cls', s', turns_of_takes hturn, hputs⟩

/-- An operand is read as its tree. -/
theorem reads_operand (hx : x.NotConstant s) (cls : TokenClass) : ∃ cls' s',
    Reads ⟨some x.head, cls, .operand :: K, s, none⟩ x.tail ⟨none, cls', K, s', none⟩ ∧
      s.Puts s.operands x.tree s' := by
  cases hsign : x.sign with
  | none =>
    have hhead : x.head = x.atom := by rw [Operand.head, hsign, Option.getD_none]
    have htail : x.tail = [] := by rw [Operand.tail, hsign]; rfl
    have htree : x.tree = x.atomTree := by rw [Operand.tree, hsign]; rfl
    have hk : x.atom.kind ≠ .minus := by rcases x.atom_kind with h | h <;> simp [h]
    have hpasses : Cont.turn x.atom .operand s = .ok (.passes [.primary]) s := Cont.turn_operand_of_ne hk
    obtain ⟨cls', s', hturns, hputs⟩ := turns_primary (K := K) hx cls
    rw [hhead, htail, htree]
    exact ⟨cls', s', .turn (turns_of_passes hpasses) (.turn hturns (.refl _)), hputs⟩
  | some minus =>
    have hhead : x.head = minus := by rw [Operand.head, hsign, Option.getD_some]
    have htail : x.tail = [x.atom] := by rw [Operand.tail, hsign]; rfl
    have htree : x.tree = x.atomTree.negated := by rw [Operand.tree, hsign]; rfl
    have htakes : Cont.turn minus .operand s = .ok (.takes .number [.primary, .negate minus.span]) s :=
      Cont.turn_operand_minus (x.sign_kind minus hsign)
    obtain ⟨cls', s', hturns, hputs⟩ := turns_primary (K := .negate minus.span :: K) hx .error
    obtain ⟨id, hoperands, hid⟩ := hputs.operands
    obtain ⟨s'', hnegate, hputs'⟩ : ∃ s'', (Cont.negate minus.span).reduce s' = .ok () s'' ∧ _ :=
      ParseM.puts_negate hoperands hid
    have hreduces : Turns ⟨none, cls', .negate minus.span :: K, s', none⟩ ⟨none, cls', K, s'', none⟩ := by
      unfold Turns
      rw [next_reduction rfl, hnegate]
    rw [hhead, htail, htree]
    refine ⟨cls', s'', .turn (turns_of_takes htakes) (.feed (next_eq_rests rfl) rfl ?_), hputs'.of_grown hputs.toGrown⟩
    exact .turn hturns (.turn hreduces (.refl _))

/-! ### Links -/

/-- The turn of an operator. What binds at least as tightly is grouped before it waits. -/
theorem turns_operator {ops ops' : List (Tag × Span)} {s' : Parsed}
    (htag : s.env.globals.operatorOf? t = some tag)
    (hs' : ParseM.reduceWhile tag.precedence ops s = .ok ops' s') (cls : TokenClass) :
    Turns ⟨some t, cls, .binary ops :: K, s, none⟩
      ⟨none, .operator, .operand :: .binary ((tag, t.span) :: ops') :: K, s', none⟩ := by
  have hturn : Cont.turn t (.binary ops) s = .ok (.takes .operator [.operand, .binary ((tag, t.span) :: ops')]) s' := by
    show ((Cont.binary ops).offer t >>= fun o => pure o.turn) s = _
    simp only [Cont.offer, bind, EStateM.bind, ParseM.operator?_eq htag, hs']
    rfl
  exact turns_of_takes hturn

/-- By induction on the links: each operator waits for its operand, with what stands before it grouped. -/
theorem reads_links (hq : q.Whole) {ls : List Link} (hops : ∀ l ∈ ls, q.env.globals.operatorOf? l.token = some l.tag)
    (hnames : ∀ l ∈ ls, l.operand.NotConstant q) (hgrown : q.Grown s) (hs : Stands ids ws ⟨x, []⟩ s)
    (cls : TokenClass) : ∃ cls' ws' y s',
      Reads ⟨none, cls, .binary (ws.map Waiting.op) :: K, s, none⟩ (ls.flatMap Link.tokens)
        ⟨none, cls', .binary (ws'.map Waiting.op) :: K, s', none⟩ ∧
      Stands ids ws' ⟨y, []⟩ s' ∧ wholeChain ws' ⟨y, []⟩ = (wholeChain ws ⟨x, []⟩).append ls ∧ q.Grown s' := by
  induction ls generalizing s ws x cls with
  | nil => exact ⟨cls, ws, x, s, .refl _, hs, by simp [Chain.append], hgrown⟩
  | cons l ls ih =>
    obtain ⟨hop, hops⟩ := List.forall_mem_cons.1 hops
    obtain ⟨hname, hnames⟩ := List.forall_mem_cons.1 hnames
    rw [← hgrown.env] at hop
    obtain ⟨ws', c, s', hs', hstands, hwhole, hlinks, hhead, hgrown'⟩ :=
      hs.reduceWhile l.tag.precedence (List.forall_mem_nil _)
    have hgrown := hgrown.trans hgrown'
    have hturns := turns_operator (K := K) hop hs' .error
    obtain ⟨cls', s'', hreads, hputs⟩ := reads_operand
      (K := .binary ((l.tag, l.token.span) :: ws'.map Waiting.op) :: K) (hname.mono hq hgrown) .error
    obtain ⟨v, hv, hstands, hwhole'⟩ := hstands.wait l hlinks hhead hputs
    have hgrown := hgrown.trans hputs.toGrown
    obtain ⟨cls'', ws'', y, s''', hrest, hstands, hall, hgrown⟩ := ih hops hnames hgrown hstands cls'
    rw [List.map_cons, hv] at hrest
    refine ⟨cls'', ws'', y, s''', ?_, hstands, ?_, hgrown⟩
    · rw [List.flatMap_cons, Link.tokens]
      exact .feed (next_eq_rests rfl) rfl (.turn hturns (.feed (next_eq_rests rfl) rfl (hreads.trans hrest)))
    · rw [hall, hwhole', hwhole, Chain.append_append]
      rfl

/-- From the start of an expression, all of a chain is read. -/
theorem reads_chain {c : Chain} (hq : q.Whole) (hc : c.Fits q) (cls : TokenClass) : ∃ cls' ws x s',
    Reads ⟨some c.first.head, cls, .expr :: K, q, none⟩ c.tail
      ⟨none, cls', .binary (ws.map Waiting.op) :: K, s', none⟩ ∧
      Stands q.operands ws ⟨x, []⟩ s' ∧ wholeChain ws ⟨x, []⟩ = c ∧ q.Grown s' := by
  have hpasses : Cont.turn c.first.head .expr q = .ok (.passes [.operand, .binary []]) q := by
    have hkind : c.first.head.kind = .minus ∨ c.first.head.kind = .num ∨ c.first.head.kind = .ident := by
      unfold Operand.head
      cases hsign : c.first.sign with
      | none => exact .inr c.first.atom_kind
      | some minus => exact .inl (c.first.sign_kind minus hsign)
    show ParseM.turnExpr _ q = _
    unfold ParseM.turnExpr
    rcases hkind with h | h | h <;> rw [h] <;> rfl
  obtain ⟨cls', s, hreads, hputs⟩ := reads_operand (K := .binary [] :: K) hc.first cls
  obtain ⟨id, hoperands, hid⟩ := hputs.operands
  have hstands : Stands q.operands [] ⟨c.first, []⟩ s :=
    ⟨trivial, id, [], _, hoperands, hid, .operand _, .nil⟩
  obtain ⟨cls'', ws, x, s', hrest, hstands, hwhole, hgrown⟩ :=
    reads_links (K := K) hq hc.operators hc.names hputs.toGrown hstands cls'
  exact ⟨cls'', ws, x, s', .turn (turns_of_passes hpasses) (hreads.trans hrest), hstands, hwhole, hgrown⟩

/-- Before a token that is no operator, the chain is grouped. -/
theorem turns_end {c : Chain} (hs : Stands ids ws c s) (ht : t.kind.isInfix = false) (cls : TokenClass) : ∃ s',
    Turns ⟨some t, cls, .binary (ws.map Waiting.op) :: K, s, none⟩ ⟨some t, cls, K, s', none⟩ ∧
      Stands ids [] (wholeChain ws c) s' ∧ s.Grown s' := by
  obtain ⟨s', hs', hstands, hgrown⟩ := hs.reduceAll
  refine ⟨s', ?_, hstands, hgrown⟩
  have hturn : Cont.turn t (.binary (ws.map Waiting.op)) s = .ok (.passes []) s' := by
    show ((Cont.binary _).offer t >>= fun o => pure o.turn) s = _
    simp only [Cont.offer, bind, EStateM.bind, ParseM.operator?_eq_none ht, hs']
    rfl
  exact turns_of_passes hturn

end Moment

namespace ParseState

open Moment

/-- Where the position of an expression gets the first token of a chain, the parser reads the whole chain. Before
the next token, which is no operator, it has put one node on the operand stack; the tree of that node is the one
that the chain stands for. -/
theorem run_chain {config : Config} {env : Environment} (henv : Environment.ofConfig config = .ok env)
    {pool : Pool} (hpool : pool.Whole) (before : List Token) (c : Chain) (t : Token) (ht : t.kind.isInfix = false)
    {m : Moment} {K : List Cont} :
    let s := ((initial env).run pool before).1
    let p := ((initial env).run pool before).2
    s.status = .parsing → ReflTransGen Turns (s.given p c.first.head) m → m.token = some c.first.head →
      m.conts = .expr :: K → c.Fits m.parsed →
      (s.run p c.tokens).1.status = .parsing ∧
        ∃ m' id a, ((s.run p c.tokens).1.given (s.run p c.tokens).2 t).Turns m' ∧ m'.token = some t ∧ m'.conts = K ∧
          m'.parsed.operands = id :: m.parsed.operands ∧ m'.parsed.env = m.parsed.env ∧
          m'.parsed.pool.tree? id = some a ∧ ∀ b, c.Groups b ↔ b = a := by
  intro s p hs hm htoken hconts hc
  obtain ⟨hwords, -⟩ := Environment.all_of_ofConfig (P := Word.Whole pool) (fun _ _ => Word.whole_operator) henv
  let start := (initial env).moment pool .error
  obtain ⟨hN, hreached⟩ := reached_given hs ((came_initial env pool).run before) c.first.head
  have hstart : start.Whole := ⟨rfl, hpool, nofun, hwords⟩
  obtain ⟨-, hq⟩ := whole_of_reached hstart (hreached.trans (moves_of_turns hm))
  obtain ⟨hroot, -⟩ := (nested_or_ended hm hN).resolve_right (by simp [hconts])
  obtain ⟨token, cls, conts, q, root⟩ := m
  obtain rfl : token = some c.first.head := htoken
  obtain rfl : conts = .expr :: K := hconts
  obtain rfl : root = none := hroot
  obtain ⟨cls', ws, x, s', hreads, hstands, hwhole, hgrown⟩ := reads_chain (K := K) hq hc cls
  have hrun := run_of_reads hs hN hm hreads (next_eq_rests rfl)
  rw [Chain.tokens, hrun]
  obtain ⟨s'', hturns, hstands, hgrown'⟩ := turns_end (K := K) hstands ht .error
  rw [hwhole] at hstands
  obtain ⟨-, id, is, a, hoperands, hid, ha, htrees⟩ := hstands
  cases htrees
  refine ⟨rfl, _, id, a, hturns, rfl, rfl, hoperands, (hgrown.trans hgrown').env, hid, fun b => ⟨?_, ?_⟩⟩
  · exact fun hb => hb.unique ha
  · rintro rfl
    exact ha

/-- `7 % 4 % 2 + x / -5 ^ y` -/
def remainders : Chain where
  first := ⟨none, ⟨.num, "7", ⟨0, 0, 1⟩⟩, by simp, .inl rfl⟩
  links := [
    ⟨⟨.binOp, "%", ⟨0, 2, 3⟩⟩, .mod, ⟨none, ⟨.num, "4", ⟨0, 4, 5⟩⟩, by simp, .inl rfl⟩⟩,
    ⟨⟨.binOp, "%", ⟨0, 6, 7⟩⟩, .mod, ⟨none, ⟨.num, "2", ⟨0, 8, 9⟩⟩, by simp, .inl rfl⟩⟩,
    ⟨⟨.binOp, "+", ⟨0, 10, 11⟩⟩, .add, ⟨none, ⟨.ident, "x", ⟨0, 12, 13⟩⟩, by simp, .inr rfl⟩⟩,
    ⟨⟨.binOp, "/", ⟨0, 14, 15⟩⟩, .div,
      ⟨some ⟨.minus, "-", ⟨0, 16, 17⟩⟩, ⟨.num, "5", ⟨0, 17, 18⟩⟩, by simp, .inl rfl⟩⟩,
    ⟨⟨.binOp, "^", ⟨0, 19, 20⟩⟩, .pow, ⟨none, ⟨.ident, "y", ⟨0, 21, 22⟩⟩, by simp, .inr rfl⟩⟩]

/-- The remainders are taken from the left and computed, and the sign is that of the `5` only. -/
theorem run_chain_remainders :
    let c := remainders
    let start := (initial .initial).given .empty c.first.head
    let s := ((initial .initial).run .empty c.tokens).1
    let p := ((initial .initial).run .empty c.tokens).2
    ∃ m, ReflTransGen Turns start m ∧ m.conts = [.expr, .exprsNext .dot 0, .program] ∧ c.Fits m.parsed ∧
      ∃ m' id a, (s.given p (.eof .zero)).Turns m' ∧ m'.parsed.operands = [id] ∧
        m'.parsed.pool.tree? id = some a ∧ a.text = "(ADD 1 (DIV x (POW -5 y)))" := by
  intro c start s p
  let m : Moment := ⟨some c.first.head, .error, [.expr, .exprsNext .dot 0, .program], ⟨.empty, [], .initial, #[]⟩, none⟩
  have hm : ReflTransGen Turns start m := .single rfl
  have hunknown : ∀ l ∈ c.links, l.operand.atom.kind = .ident →
      (Environment.initial.lookup? l.operand.atom.lexeme).isNone := by decide +kernel
  have hc : c.Fits m.parsed := by
    refine ⟨by decide +kernel, nofun, fun l hl hident w hw => ?_⟩
    cases (Option.isNone_iff_eq_none.1 (hunknown l hl hident)).symm.trans hw
  have henv : Environment.ofConfig {} = .ok .initial := rfl
  obtain ⟨-, m', id, a, hturns, -, -, hoperands, -, hid, hgroups⟩ :=
    run_chain henv Pool.whole_empty [] c (.eof .zero) rfl rfl hm rfl rfl hc
  have hgroups' : c.Groups _ :=
    .split [_, _] (by decide +kernel) (by decide +kernel)
      (.split [_] (by decide +kernel) (by simp) (.split [] (by simp) (by simp) (.operand _) (.operand _)) (.operand _))
      (.split [] (by simp) (by decide +kernel) (.operand _)
        (.split [] (by simp) (by simp) (.operand _) (.operand _)))
  obtain rfl := (hgroups _).1 hgroups'
  refine ⟨m, hm, rfl, hc, m', id, _, hturns, hoperands, hid, ?_⟩
  decide +kernel

end ParseState

end Linefold
