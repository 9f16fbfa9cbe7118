import Linefold.Proofs.Chains.Grouping
import Linefold.Proofs.Staging.Runs
import Linefold.Proofs.Wholeness.Parsing

/-!
# Operators on the operand stack

While a chain is parsed, the operands of the operators that wait stand on the operand stack, one above the other
(`Stands`). `ParseM.reduceWhile` and `ParseM.reduceAll` group what may be grouped and leave the chain the same.
-/

namespace Linefold

attribute [local irreducible] Pool.intern

/-! ### Nodes -/

namespace Pool

variable {p : Pool} {i j : NodeId} {t u a : Tree} {n : Node} {span : Span} {tag : Tag}

/-- Where a node stands makes no difference. -/
theorem tree?_internAt (h : (p.intern n).2.tree? (p.intern n).1 = some a) :
    (p.internAt n span).2.tree? (p.internAt n span).1 = some a := by
  have hgrows : (p.intern n).2.Extends (p.internAt n span).2 := fun _ _ h => h
  exact hgrows.tree? h

/-- The node that the parser makes of an operator. -/
theorem tree?_intern_joined (hi : p.tree? i = some t) (hj : p.tree? j = some u) :
    let n := (do return .num (← Number.arithmetic? tag (← p.number? i) (← p.number? j)) : Option Node).getD
      (.branch tag [i, j])
    (p.intern n).2.tree? (p.intern n).1 = some (.joined tag t u) := by
  rw [number?_of_tree? hi, number?_of_tree? hj]
  exact tree?_intern_getD (map_leafTree?_arithmetic tag _ _) hi hj

end Pool

/-! ### What a step of a chain changes -/

namespace Parsed

/-- The scopes are left alone and the pool grows. -/
structure Grown (s s' : Parsed) : Prop where
  env : s'.env = s.env
  pool : s.pool.Extends s'.pool

/-- A tree is put on the operands `ids`, and the scopes are left alone. -/
structure Puts (s : Parsed) (ids : List NodeId) (a : Tree) (s' : Parsed) : Prop extends Grown s s' where
  operands : ∃ id, s'.operands = id :: ids ∧ s'.pool.tree? id = some a

variable {s s' s'' : Parsed}

theorem Grown.refl : Grown s s := ⟨rfl, .refl _⟩

theorem Grown.trans (h : Grown s s') (h' : Grown s' s'') : Grown s s'' :=
  ⟨h'.env.trans h.env, h.pool.trans h'.pool⟩

theorem Puts.of_grown {ids : List NodeId} {a : Tree} (h : s'.Puts ids a s'') (hgrown : s.Grown s') : s.Puts ids a s'' :=
  ⟨hgrown.trans h.toGrown, h.operands⟩

end Parsed

variable {s : Parsed} {t : Token} {i j : NodeId} {ids : List NodeId} {a b : Tree} {span : Span} {tag : Tag}
  {p q : Pool} {w : Word} {n : Node} {x : Operand}

namespace ParseM

theorem puts_leaveAt (ids : List NodeId) (h : (s.pool.intern n).2.tree? (s.pool.intern n).1 = some a) :
    ∃ s', leaveAt n span { s with operands := ids } = .ok () s' ∧ s.Puts ids a s' :=
  ⟨_, rfl, ⟨rfl, s.pool.extends_internAt n span⟩, _, rfl, Pool.tree?_internAt h⟩

theorem puts_negate (hs : s.operands = i :: ids) (hi : s.pool.tree? i = some a) :
    ∃ s', negate span s = .ok () s' ∧ s.Puts ids a.negated s' := by
  rw [Tree.negated]
  cases hx : a.number? with
  | some x =>
    have hnegate : negate span s = leaveAt (.num x.neg) span { s with operands := ids } := by
      unfold negate
      simp only [bind, EStateM.bind, pop, hs, ask, Pool.number?_of_tree? hi, hx]
    rw [hnegate]
    exact puts_leaveAt ids (Pool.tree?_intern_leaf rfl)
  | none =>
    have hnegate : negate span s = leaveAt (.branch .neg [i]) span { s with operands := ids } := by
      unfold negate
      simp only [bind, EStateM.bind, pop, hs, ask, Pool.number?_of_tree? hi, hx]
    rw [hnegate]
    exact puts_leaveAt ids (Pool.tree?_intern_branch (.cons hi .nil))

theorem puts_reduce (hs : s.operands = j :: i :: ids) (hi : s.pool.tree? i = some a) (hj : s.pool.tree? j = some b) :
    ∃ s', reduce (tag, span) s = .ok () s' ∧ s.Puts ids (.joined tag a b) s' := by
  have hreduce : reduce (tag, span) s = leaveAt ((do return .num (← Number.arithmetic? tag (← s.pool.number? i)
      (← s.pool.number? j)) : Option Node).getD (.branch tag [i, j])) span { s with operands := ids } := by
    unfold reduce
    simp only [bind, EStateM.bind, pop, hs, ask]
  rw [hreduce]
  exact puts_leaveAt ids (Pool.tree?_intern_joined hi hj)

end ParseM

/-! ### Operands -/

/-- The operand is no name that stands for a literal. -/
def Operand.NotConstant (x : Operand) (s : Parsed) : Prop :=
  x.atom.kind = .ident → ∀ w, s.env.lookup? x.atom.lexeme = some w → ParseM.constant? s.pool w = none

/-- A whole pool knows already which literal a word stands for. -/
theorem ParseM.constant?_eq_of_extends (hp : p.Whole) (hw : w.Refers p) (hpq : p.Extends q) :
    constant? q w = constant? p w := by
  unfold constant?
  split
  · have hnid : q.get? w.nid = p.get? w.nid := by
      rcases hw.nid with h | ⟨n, hn⟩
      · rw [h]
        rfl
      · rw [hn, hpq _ _ hn]
    rw [hnid]
    split
    · next only hn =>
      obtain ⟨m, hm⟩ := hp.has hn only (List.mem_singleton_self only)
      rw [hm, hpq _ _ hm]
    · rfl
  · rfl

theorem Operand.NotConstant.mono {s' : Parsed} (h : x.NotConstant s) (hs : s.Whole) (hgrown : s.Grown s') :
    x.NotConstant s' := by
  intro hident w hw
  rw [hgrown.env] at hw
  rw [ParseM.constant?_eq_of_extends hs.pool (hs.env.lookup? hw).refers hgrown.pool]
  exact h hident w hw

/-- A number or a name is put on the operand stack. -/
theorem ParseM.puts_takePrimary (hx : x.NotConstant s) :
    ∃ cls s', takePrimary x.atom s = .ok (.taken cls []) s' ∧ s.Puts s.operands x.atomTree s' := by
  rcases x.atom_kind with hk | hk
  · have htree : x.atomTree = .num (.ofText x.atom.lexeme) := if_pos hk
    obtain ⟨s', hs', hputs⟩ : ∃ s', leaveAt (.num (.ofText x.atom.lexeme)) x.atom.span s = .ok () s' ∧ _ :=
      puts_leaveAt s.operands (Pool.tree?_intern_leaf rfl)
    rw [htree]
    refine ⟨.number, s', ?_, hputs⟩
    unfold takePrimary
    rw [hk]
    simp only [bind, EStateM.bind, hs']
    rfl
  · have hknown : (s.env.lookup? x.atom.lexeme).bind (constant? s.pool) = none := by
      rw [Option.bind_eq_none_iff]
      exact fun w hw => hx hk w hw
    have htree : x.atomTree = .ident x.atom.lexeme := if_neg (by simp [hk])
    obtain ⟨s', hs', hputs⟩ : ∃ s', leaveAt (.ident x.atom.lexeme) x.atom.span s = .ok () s' ∧ _ :=
      puts_leaveAt s.operands (Pool.tree?_intern_leaf rfl)
    have htake : takePrimary x.atom s = (do
        if (s.env.lookup? x.atom.lexeme).isNone then
          report (.nameNotFound x.atom.span x.atom.lexeme)
          return .taken .error []
        else return .taken .reference [] : ParseM Offer) s' := by
      unfold takePrimary
      rw [hk]
      simp only [takeName, expect, hk, lookup?, ask, bind, EStateM.bind, ↓reduceIte, pure, EStateM.pure, hknown, hs']
    rw [htake, htree]
    by_cases hnone : (s.env.lookup? x.atom.lexeme).isNone
    · rw [if_pos hnone]
      exact ⟨.error, _, rfl, ⟨hputs.env, hputs.pool⟩, hputs.operands⟩
    · rw [if_neg hnone]
      exact ⟨.reference, s', rfl, hputs⟩

/-! ### Operators that wait -/

/-- What the parser keeps of an operator that waits. -/
def Waiting.op (w : Waiting) : Tag × Span := (w.tag, w.token.span)

/-- The trees of the operators that wait stand on the operands `ids`, and on them that of the last part `c` of
the chain. -/
structure Stands (ids : List NodeId) (ws : List Waiting) (c : Chain) (s : Parsed) : Prop where
  orderly : Orderly ws c
  operands : ∃ i is a, s.operands = i :: (is ++ ids) ∧ s.pool.tree? i = some a ∧ c.Groups a ∧
    List.Forall₂ (fun i w => s.pool.tree? i = some w.tree) is ws

variable {v : Waiting} {ws : List Waiting} {c : Chain}

namespace Stands

/-- The innermost operator gets its right side. -/
theorem reduce (h : Stands ids (v :: ws) c s) :
    ∃ s', ParseM.reduce v.op s = .ok () s' ∧ Stands ids ws (v.join c) s' ∧ s.Grown s' := by
  obtain ⟨horderly, j, is, b, hs, hj, hc, htrees⟩ := h
  cases htrees with
  | @cons i _ is _ hi htrees =>
    have hs : s.operands = j :: i :: (is ++ ids) := hs
    obtain ⟨s', hs', hputs⟩ : ∃ s', ParseM.reduce v.op s = .ok () s' ∧ _ := ParseM.puts_reduce hs hi hj
    obtain ⟨k, hoperands, hk⟩ := hputs.operands
    have htrees : List.Forall₂ (fun i w => s'.pool.tree? i = some w.tree) is ws :=
      htrees.imp fun _ _ => hputs.pool.tree?
    exact ⟨s', hs', ⟨horderly.rest, k, is, _, hoperands, hk, horderly.groups_join hc, htrees⟩, hputs.toGrown⟩

/-- At the end of the chain, all of it is grouped. -/
theorem reduceAll (h : Stands ids ws c s) :
    ∃ s', ParseM.reduceAll (ws.map Waiting.op) s = .ok () s' ∧ Stands ids [] (wholeChain ws c) s' ∧ s.Grown s' := by
  induction ws generalizing c s with
  | nil => exact ⟨s, rfl, h, .refl⟩
  | cons v ws ih =>
    obtain ⟨s', hs', hstands, hgrown⟩ := h.reduce
    obtain ⟨s'', hs'', hstands, hgrown'⟩ := ih hstands
    refine ⟨s'', ?_, hstands, hgrown.trans hgrown'⟩
    rw [List.map_cons, ParseM.reduceAll]
    simp only [bind, EStateM.bind, hs']
    exact hs''

/-- Before an operator of some precedence, all that binds at least as tightly is grouped, and nothing else. -/
theorem reduceWhile (h : Stands ids ws c s) (prec : Nat) (hc : ∀ l ∈ c.links, prec ≤ l.tag.precedence) :
    ∃ ws' c' s', ParseM.reduceWhile prec (ws.map Waiting.op) s = .ok (ws'.map Waiting.op) s' ∧
      Stands ids ws' c' s' ∧ wholeChain ws' c' = wholeChain ws c ∧ (∀ l ∈ c'.links, prec ≤ l.tag.precedence) ∧
      (∀ v ∈ ws'.head?, v.tag.precedence < prec) ∧ s.Grown s' := by
  induction ws generalizing c s with
  | nil => exact ⟨[], c, s, rfl, h, rfl, hc, by simp, .refl⟩
  | cons v ws ih =>
    by_cases hlt : v.tag.precedence < prec
    · refine ⟨v :: ws, c, s, ?_, h, rfl, hc, ?_, .refl⟩
      · rw [List.map_cons, ParseM.reduceWhile, if_pos (show v.op.1.precedence < prec from hlt)]
        rfl
      · rintro _ ⟨⟩
        exact hlt
    · have hle : prec ≤ v.tag.precedence := Nat.le_of_not_lt hlt
      obtain ⟨s', hs', hstands, hgrown⟩ := h.reduce
      have hjoin : ∀ l ∈ (v.join c).links, prec ≤ l.tag.precedence := by
        intro l hl
        rcases List.mem_append.1 hl with hl | hl
        · exact Nat.le_trans hle (h.orderly.2.1 l hl)
        · rcases List.mem_cons.1 hl with rfl | hl
          · exact hle
          · exact hc l hl
      obtain ⟨ws', c', s'', hs'', hstands, hwhole, hlinks, hhead, hgrown'⟩ := ih hstands hjoin
      refine ⟨ws', c', s'', ?_, hstands, hwhole, hlinks, hhead, hgrown.trans hgrown'⟩
      rw [List.map_cons, ParseM.reduceWhile, if_neg (show ¬ v.op.1.precedence < prec from hlt)]
      simp only [bind, EStateM.bind, hs']
      exact hs''

/-- A further operator waits, and the operand on its right is put on the stack. -/
theorem wait {s' s'' : Parsed} (h : Stands ids ws c s') (l : Link)
    (hc : ∀ k ∈ c.links, l.tag.precedence ≤ k.tag.precedence)
    (hhead : ∀ v ∈ ws.head?, v.tag.precedence < l.tag.precedence)
    (hputs : s'.Puts s'.operands l.operand.tree s'') :
    ∃ v : Waiting, v.op = (l.tag, l.token.span) ∧ Stands ids (v :: ws) ⟨l.operand, []⟩ s'' ∧
      wholeChain (v :: ws) ⟨l.operand, []⟩ = (wholeChain ws c).append [l] := by
  obtain ⟨horderly, i, is, a, hs', hi, ha, htrees⟩ := h
  obtain ⟨j, hs'', hj⟩ := hputs.operands
  refine ⟨⟨c, a, l.token, l.tag⟩, rfl, ⟨horderly.wait ha l.token l.operand hc hhead, j, i :: is, _, ?_, hj,
    .operand _, .cons (hputs.pool.tree? hi) (htrees.imp fun _ _ => hputs.pool.tree?)⟩, ?_⟩
  · rw [hs'', hs']
    rfl
  · exact wholeChain_append

end Stands

end Linefold
