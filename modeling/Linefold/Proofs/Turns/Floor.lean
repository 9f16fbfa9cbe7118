import Linefold.Proofs.Interning
import Linefold.Proofs.Turns.Turn

/-!
# Operands under the positions of a construct

The positions of a construct have operands under them that belong to what is around it, and they must not touch these.
Read off the positions and the number of operands, that is `Clears`; read off what a computation does, it is `Spares`.
Every turn keeps the one and does the other (`ParseM.spares_turn`), as long as a definition, which leaves no operand, does
not come where one is waited for.
-/

namespace Linefold

/-- An expression may be a definition before this position. -/
def Cont.takesDefinitions : Cont → Bool
  | exprsNext .. | elementNext => true
  | _ => false

/-- Of `n` operands those from height `base` on are replaced by one, and `next` holds of the number that is left. -/
def Collects (F base n : Nat) (next : Nat → Prop) : Prop := F ≤ base ∧ base ≤ n ∧ next (base + 1)

/-- Of `n` operands the positions leave the lowest `F` alone; once they are through, there is one more than these. -/
def Clears (F : Nat) : List Cont → Nat → Prop
  | [], n => n = F + 1
  | c :: P, n => F ≤ n ∧ match c with
    | .program => False
    | .exprs _ base | .exprsNext _ base | .exprsAfterDot _ base => Collects F base n (Clears F P)
    | .expr | .bindingColon => Clears F P (n + 1) ∧ (P.head?.any Cont.takesDefinitions → Clears F P n)
    | .operand | .primary | .pattern | .ofColon => Clears F P (n + 1)
    | .letName => Clears F P n
    | .letEqual _ _ base => F ≤ base ∧ base ≤ n ∧ Clears F P base
    | .letBody _ _ base => F ≤ base ∧ base < n ∧ Clears F P base
    | .params _ _ | .elements | .elementNext | .bindings => ∀ m ≥ n, Clears F P m
    | .paramList base | .lambdaColon base | .listEnd base | .recordEnd base _ | .caseClauses base _ | .ifThen base _
    | .ifElse base _ | .ifEnd base _ => Collects F base n (Clears F P)
    | .lambdaEnd base => base < n ∧ Collects F base n (Clears F P)
    | .negate _ | .parenEnd _ => F < n ∧ Clears F P n
    | .binary ops => ∃ k, n = k + ops.length ∧ F < k ∧ Clears F P k
    | .bindingNext => ∃ k, n = k + 2 ∧ F ≤ k ∧ ∀ m > k, Clears F P m
    | .ofEnd => ∃ k, n = k + 2 ∧ F ≤ k ∧ Clears F P (k + 1)

/-! ### Computations on a stack -/

section

variable {α β : Type} {low : List NodeId} {n m base : Nat} {f : ParseM α} {Q : α → Nat → Prop} {R : β → Nat → Prop}

/-- On a stack of `n` operands, the last of which are `low`, the computation leaves these there; the result and the
number of operands after it satisfy `Q`. The pool grows. -/
def Spares (low : List NodeId) (n : Nat) (f : ParseM α) (Q : α → Nat → Prop) : Prop :=
  ∀ s : Parsed, low <:+ s.operands → s.operands.length = n →
    Ensures f (fun a s' => low <:+ s'.operands ∧ s.pool.Extends s'.pool ∧ Q a s'.operands.length) (fun _ _ => True) s

theorem spares_pure {a : α} (h : Q a n) : Spares low n (pure a) Q := fun _ hlow hn => ⟨hlow, .refl _, hn ▸ h⟩

theorem Spares.bind {g : α → ParseM β} (hf : Spares low n f Q) (hg : ∀ a m, Q a m → Spares low m (g a) R) :
    Spares low n (f >>= g) R := by
  intro s hlow hn
  refine Ensures.bind_iff.2 ((hf s hlow hn).mono ?_ fun _ _ he => he)
  rintro a s' ⟨hlow', hgrows, ha⟩
  refine (hg a _ ha s' hlow' rfl).mono ?_ fun _ _ he => he
  rintro b s'' ⟨hlow'', hgrows', hb⟩
  exact ⟨hlow'', hgrows.trans hgrows', hb⟩

/-- The number of operands does not depend on the result. -/
theorem Spares.seq {g : α → ParseM β} (hf : Spares low n f fun _ k => k = m) (hg : ∀ a, Spares low m (g a) R) :
    Spares low n (f >>= g) R :=
  hf.bind fun a _ hm => hm ▸ hg a

namespace ParseM

variable {nd : Node} {span : Span} {t : Token} {kind : TokenKind} {P : List Cont} {c : Cont} {brk : TokenKind} {F : Nat}

/-! ### The parts of the parser on a stack -/

theorem spares_ask {f : Parsed → α} : Spares low n (ask f) fun _ m => m = n := fun _ hlow hn => ⟨hlow, .refl _, hn⟩

theorem spares_height : Spares low n height fun h m => h = n ∧ m = n := fun _ hlow hn => ⟨hlow, .refl _, hn, hn⟩

theorem spares_intern : Spares low n (intern nd) fun _ m => m = n :=
  fun s hlow hn => ⟨hlow, s.pool.extends_intern nd, hn⟩

theorem spares_internAt : Spares low n (internAt nd span) fun _ m => m = n :=
  fun s hlow hn => ⟨hlow, s.pool.extends_internAt nd span, hn⟩

theorem spares_push {id : NodeId} : Spares low n (push id) fun _ m => m = n + 1 :=
  fun s hlow hn => ⟨hlow.trans (List.suffix_cons id s.operands), .refl _, congrArg (· + 1) hn⟩

theorem spares_leave : Spares low n (leave nd) fun _ m => m = n + 1 := spares_intern.seq fun _ => spares_push

theorem spares_leaveAt : Spares low n (leaveAt nd span) fun _ m => m = n + 1 := spares_internAt.seq fun _ => spares_push

theorem spares_define {name : String} {w : Word} : Spares low n (define name w) fun _ m => m = n :=
  fun _ hlow hn => ⟨hlow, .refl _, hn⟩

theorem spares_lookup? {name : String} : Spares low n (lookup? name) fun _ m => m = n := spares_ask

theorem spares_report {d : Diagnostic} : Spares low n (report d) fun _ m => m = n :=
  fun _ hlow hn => ⟨hlow, .refl _, hn⟩

theorem spares_enter {name : String} : Spares low n (enter name) fun _ m => m = n := by
  intro s hlow hn
  rw [ensures_enter]
  split
  · trivial
  · exact ⟨hlow, .refl _, hn⟩

theorem spares_exit {owner : ScopeOwner} : Spares low n (exit owner) fun _ m => m = n := by
  intro s hlow hn
  rw [ensures_exit]
  split
  · exact ⟨hlow, .refl _, hn⟩
  · trivial

theorem spares_expect : Spares low n (expect kind t) fun _ m => t.kind = kind ∧ m = n := by
  intro s hlow hn
  rw [ensures_expect]
  split
  · next h => exact ⟨hlow, .refl _, h, hn⟩
  · trivial

/-- An operand that is popped stands above the lowest ones. -/
theorem spares_pop (h : low.length < n) : Spares low n pop fun _ m => m + 1 = n := by
  rintro s ⟨front, hfront⟩ hn
  rw [ensures_pop, ← hfront]
  cases front with
  | nil =>
    rw [← hn, ← hfront] at h
    exact absurd h (Nat.lt_irrefl _)
  | cons id front => exact ⟨List.suffix_append front low, .refl _, by rw [← hn, ← hfront]; rfl⟩

theorem spares_drainFrom (hlow : low.length ≤ base) (hbase : base ≤ n) :
    Spares low n (drainFrom base) fun _ m => m = base := by
  rintro s ⟨front, hfront⟩ hn
  rw [ensures_drainFrom, hn]
  have hlength : front.length + low.length = n := by rw [← hn, ← hfront, List.length_append]
  refine ⟨?_, .refl _, ?_⟩
  · rw [← hfront, List.drop_append_of_le_length (by omega)]
    exact List.suffix_append _ low
  · rw [List.length_drop, hn]
    omega

theorem spares_internNames {names : List String} : Spares low n (internNames names) fun _ m => m = n := by
  induction names with
  | nil => exact spares_pure rfl
  | cons name names ih => exact spares_intern.seq fun _ => ih.seq fun _ => spares_pure rfl

theorem spares_markPattern {list : NodeId} {ids : List NodeId} :
    Spares low n (markPattern list ids) fun _ m => m = n := by
  induction ids with
  | nil => exact spares_pure rfl
  | cons id ids ih =>
    refine spares_ask.seq fun nd => ?_
    split
    · refine spares_ask.seq fun w => ?_
      split
      · exact spares_define.seq fun _ => ih
      · exact ih
    · exact ih

theorem spares_collect {tag : Tag} (hlow : low.length ≤ base) (hbase : base ≤ n) :
    Spares low n (do leave (.branch tag (← drainFrom base))) fun _ m => m = base + 1 :=
  (spares_drainFrom hlow hbase).seq fun _ => spares_leave

theorem spares_collectAt {tag : Tag} (hlow : low.length ≤ base) (hbase : base ≤ n) :
    Spares low n (do leaveAt (.branch tag (← drainFrom base)) span) fun _ m => m = base + 1 :=
  (spares_drainFrom hlow hbase).seq fun _ => spares_leaveAt

theorem spares_pop_succ {k : Nat} (h : low.length ≤ k) : Spares low (k + 1) pop fun _ m => m = k := fun s hlow hn =>
  (spares_pop (Nat.lt_succ_of_le h) s hlow hn).mono (fun _ _ ⟨hl, hp, hm⟩ => ⟨hl, hp, Nat.succ.inj hm⟩) fun _ _ he => he

/-- Two operands become one. -/
theorem spares_reduce {op : Tag × Span} {k : Nat} (h : low.length < k) :
    Spares low (k + 1) (reduce op) fun _ m => m = k := by
  obtain ⟨k, rfl⟩ := Nat.exists_eq_add_one_of_ne_zero (Nat.ne_zero_of_lt h)
  have hk : low.length ≤ k := Nat.le_of_lt_succ h
  exact (spares_pop_succ (Nat.le_succ_of_le hk)).seq fun _ => (spares_pop_succ hk).seq fun _ =>
    spares_ask.seq fun _ => spares_ask.seq fun _ => spares_leaveAt

theorem spares_reduceWhile {prec k : Nat} {ops : List (Tag × Span)} (h : low.length < k) :
    Spares low (k + ops.length) (reduceWhile prec ops) fun ops' m => m = k + ops'.length := by
  induction ops with
  | nil => exact spares_pure rfl
  | cons op ops ih =>
    unfold reduceWhile
    split
    · exact spares_pure rfl
    · exact (spares_reduce (Nat.lt_add_right _ h)).seq fun _ => ih

theorem spares_reduceAll {k : Nat} {ops : List (Tag × Span)} (h : low.length < k) :
    Spares low (k + ops.length) (reduceAll ops) fun _ m => m = k := by
  induction ops with
  | nil => exact spares_pure rfl
  | cons op ops ih => exact (spares_reduce (Nat.lt_add_right _ h)).seq fun _ => ih

theorem spares_operator? : Spares low n (operator? t) fun _ m => m = n := by
  unfold operator?
  split
  · exact spares_pure rfl
  · refine spares_ask.seq fun tag => ?_
    cases tag with
    | some tag => exact spares_pure rfl
    | none => exact fun _ _ _ => trivial
  · exact spares_pure rfl

theorem spares_finishBinding {k : Nat} (h : low.length ≤ k) :
    Spares low (k + 2) finishBinding fun _ m => m = k + 1 :=
  (spares_pop_succ (Nat.le_succ_of_le h)).seq fun _ => (spares_pop_succ h).seq fun _ => spares_leave

theorem spares_negate (h : low.length < n) : Spares low n (negate span) fun _ m => m = n := by
  obtain ⟨k, rfl⟩ := Nat.exists_eq_add_one_of_ne_zero (Nat.ne_zero_of_lt h)
  refine (spares_pop_succ (Nat.le_of_lt_succ h)).seq fun a => spares_ask.seq fun x => ?_
  cases x with
  | some x => exact spares_leaveAt
  | none => exact spares_leaveAt

theorem spares_finishClause {k : Nat} (h : low.length ≤ k) :
    Spares low (k + 2) finishClause fun _ m => m = k + 1 := by
  refine (spares_pop_succ (Nat.le_succ_of_le h)).seq fun body => (spares_pop_succ h).seq fun pattern => ?_
  refine spares_exit.seq fun scope => spares_internNames.seq fun names => ?_
  split
  · exact spares_leave
  · exact spares_intern.seq fun _ => spares_leave

theorem spares_finishLet {depth : Nat} {name : String} (hlow : low.length ≤ base) (hbase : base < n) :
    Spares low n (finishLet depth name base) fun _ m => m = base := by
  obtain ⟨k, rfl⟩ := Nat.exists_eq_add_one_of_ne_zero (Nat.ne_zero_of_lt hbase)
  have hk : base ≤ k := Nat.le_of_lt_succ hbase
  refine (spares_pop_succ (Nat.le_trans hlow hk)).seq fun body => (spares_drainFrom hlow hk).seq fun pattern => ?_
  exact spares_exit.seq fun scope _ hlow hn => ⟨hlow, .refl _, hn⟩

/-! ### Turns -/

/-- The positions that come next, above `P`, leave the lowest operands alone. -/
abbrev Lands (low : List NodeId) (n : Nat) (P : List Cont) (turn : α → Turn) (f : ParseM α) : Prop :=
  Spares low n f fun a m => Clears low.length ((turn a).next ++ P) m

theorem lands_offer {f : ParseM Offer} (h : Lands low n P Offer.turn f) :
    Lands low n P id (do return (← f).turn) :=
  Spares.bind h fun _ _ ha => spares_pure ha

theorem lands_turnListItem (hbase : Collects low.length base n (Clears low.length P)) (hn : low.length ≤ n) :
    Lands low n P id (turnListItem brk base t) := by
  obtain ⟨hlow, hle, hP⟩ := hbase
  unfold turnListItem
  split
  · exact (spares_collect hlow hle).seq fun _ => spares_pure hP
  · exact spares_pure ⟨hn, ⟨Nat.le_succ_of_le hn, hlow, Nat.le_succ_of_le hle, hP⟩, fun _ => ⟨hn, hlow, hle, hP⟩⟩

theorem lands_turnExpr (hlet : t.kind = .keyLet → P.head?.any Cont.takesDefinitions)
    (h : Clears low.length (.expr :: P) n) : Lands low n P id (turnExpr t) := by
  obtain ⟨hn, hP, hdefinition⟩ := h
  have hn' : low.length ≤ n + 1 := Nat.le_succ_of_le hn
  unfold turnExpr
  split
  · next hk => exact spares_pure ⟨hn, hdefinition (hlet hk)⟩
  · refine spares_height.bind fun base m hm => ?_
    obtain ⟨rfl, rfl⟩ := hm
    exact spares_pure ⟨hn, ⟨hn', hn, Nat.le_succ _, hP⟩, nofun⟩
  · refine spares_height.bind fun base m hm => ?_
    obtain ⟨rfl, rfl⟩ := hm
    exact spares_pure ⟨hn, ⟨hn', hn, Nat.le_succ _, hP⟩, nofun⟩
  · exact spares_pure ⟨hn, hn', n + 1, rfl, Nat.lt_succ_of_le hn, hP⟩

theorem lands_takePrimary (h : Clears low.length (.primary :: P) n) : Lands low n P Offer.turn (takePrimary t) := by
  obtain ⟨hn, hP⟩ := h
  have hn' : low.length ≤ n + 1 := Nat.le_succ_of_le hn
  unfold takePrimary
  split
  case h_5 =>
    refine spares_height.bind fun base m hm => ?_
    obtain ⟨rfl, rfl⟩ := hm
    exact spares_pure ⟨hn, fun k hk => ⟨Nat.le_trans hn hk, hn, hk, hP⟩⟩
  case h_6 =>
    refine spares_height.bind fun base m hm => ?_
    obtain ⟨rfl, rfl⟩ := hm
    exact spares_pure ⟨hn, hn, Nat.le_refl _, hn', Nat.lt_succ_of_le hn, hP⟩
  case h_7 =>
    refine spares_height.bind fun base m hm => ?_
    obtain ⟨rfl, rfl⟩ := hm
    exact spares_pure ⟨hn, fun k hk => ⟨Nat.le_trans hn hk, hn, hk, hP⟩⟩
  case h_8 =>
    refine spares_enter.seq fun _ => spares_height.bind fun base m hm => ?_
    obtain ⟨rfl, rfl⟩ := hm
    exact spares_pure ⟨hn, fun k hk => ⟨Nat.le_trans hn hk, hn, hk, hP⟩⟩
  case h_9 =>
    unfold takeName
    refine spares_expect.bind fun _ m hm => ?_
    obtain ⟨-, rfl⟩ := hm
    refine spares_lookup?.seq fun word => spares_ask.seq fun known => ?_
    cases known with
    | some id =>
      refine spares_push.seq fun _ => ?_
      split
      · exact spares_report.seq fun _ => spares_pure hP
      · exact spares_pure hP
    | none =>
      refine spares_leaveAt.seq fun _ => ?_
      split
      · exact spares_report.seq fun _ => spares_pure hP
      · exact spares_pure hP
  all_goals exact spares_leaveAt.seq fun _ => spares_pure hP

theorem lands_binary {ops : List (Tag × Span)} (h : Clears low.length (.binary ops :: P) n) :
    Lands low n P Offer.turn ((Cont.binary ops).offer t) := by
  obtain ⟨hn, k, rfl, hk, hP⟩ := h
  refine spares_operator?.seq fun tag => ?_
  cases tag with
  | some tag =>
    refine (spares_reduceWhile hk).bind fun ops' m hm => ?_
    subst hm
    have hle : low.length ≤ k + ops'.length := Nat.le_of_lt (Nat.lt_add_right _ hk)
    exact spares_pure ⟨hle, Nat.le_succ_of_le hle, k, Nat.add_assoc .., hk, hP⟩
  | none => exact (spares_reduceAll hk).seq fun _ => spares_pure hP

theorem lands_takeLetName (h : Clears low.length (.letName :: P) n) : Lands low n P Offer.turn (takeLetName t) := by
  obtain ⟨hn, hP⟩ := h
  refine spares_expect.bind fun _ m hm => ?_
  obtain ⟨-, rfl⟩ := hm
  refine spares_ask.seq fun depth => spares_define.seq fun _ => spares_enter.seq fun _ => spares_height.bind fun base k hk => ?_
  obtain ⟨rfl, rfl⟩ := hk
  exact spares_pure ⟨hn, fun k hk => ⟨Nat.le_trans hn hk, hn, hk, hP⟩⟩

theorem lands_offerParam (h : Clears low.length (.params brk base :: P) n) :
    Lands low n P Offer.turn (offerParam brk base t) := by
  obtain ⟨hn, hP⟩ := h
  unfold offerParam
  split
  · exact spares_pure (hP n (Nat.le_refl _))
  split
  · refine spares_height.bind fun inner m hm => ?_
    obtain ⟨rfl, rfl⟩ := hm
    refine spares_pure ⟨hn, fun k hk => ⟨Nat.le_trans hn hk, hn, hk, Nat.le_succ_of_le hn, fun j hj => ?_⟩⟩
    exact hP j (Nat.le_of_succ_le hj)
  · refine spares_expect.bind fun _ m hm => ?_
    obtain ⟨-, rfl⟩ := hm
    refine spares_ask.seq fun offset => spares_define.seq fun _ => spares_leaveAt.seq fun _ => ?_
    exact spares_pure ⟨Nat.le_succ_of_le hn, fun j hj => hP j (Nat.le_of_succ_le hj)⟩

theorem lands_takeParamList (h : Clears low.length (.paramList base :: P) n) :
    Lands low n P Offer.turn (takeParamList base t) := by
  obtain ⟨-, hlow, hle, hP⟩ := h
  refine spares_expect.bind fun _ m hm => ?_
  obtain ⟨-, rfl⟩ := hm
  refine (spares_drainFrom hlow hle).seq fun elts => spares_intern.seq fun list => spares_markPattern.seq fun _ => ?_
  exact spares_push.seq fun _ => spares_pure hP

theorem lands_takeLambdaEnd (h : Clears low.length (.lambdaEnd base :: P) n) :
    Lands low n P Offer.turn (takeLambdaEnd base t) := by
  obtain ⟨-, hlt, hlow, -, hP⟩ := h
  refine spares_expect.bind fun _ m hm => ?_
  obtain ⟨-, rfl⟩ := hm
  obtain ⟨k, rfl⟩ := Nat.exists_eq_add_one_of_ne_zero (Nat.ne_zero_of_lt hlt)
  have hk : base ≤ k := Nat.le_of_lt_succ hlt
  refine (spares_pop_succ (Nat.le_trans hlow hk)).seq fun body => (spares_drainFrom hlow hk).seq fun pattern => ?_
  exact spares_exit.seq fun scope => spares_internNames.seq fun names => spares_intern.seq fun _ =>
    spares_intern.seq fun _ => spares_leaveAt.seq fun _ => spares_pure hP

theorem lands_offerBinding (h : Clears low.length (.bindings :: P) n) : Lands low n P Offer.turn (offerBinding t) := by
  obtain ⟨hn, hP⟩ := h
  have hnext : Clears low.length ([.bindingColon, .bindingNext] ++ P) (n + 1) :=
    ⟨Nat.le_succ_of_le hn, ⟨by omega, n, rfl, hn, fun m hm => hP m (Nat.le_of_lt hm)⟩, nofun⟩
  unfold offerBinding
  split
  · exact spares_pure (hP n (Nat.le_refl _))
  · exact spares_leaveAt.seq fun _ => spares_pure hnext
  · refine spares_expect.bind fun _ m hm => ?_
    obtain ⟨-, rfl⟩ := hm
    exact spares_leaveAt.seq fun _ => spares_pure hnext

theorem lands_takeCaseClause (h : Clears low.length (.caseClauses base span :: P) n) :
    Lands low n P Offer.turn (takeCaseClause base span t) := by
  obtain ⟨hn, hlow, hle, hP⟩ := h
  unfold takeCaseClause
  split
  · refine spares_enter.seq fun _ => spares_pure ⟨hn, Nat.le_succ_of_le hn, by omega, n, rfl, hn, ?_⟩
    exact ⟨Nat.le_succ_of_le hn, hlow, Nat.le_succ_of_le hle, hP⟩
  · refine spares_expect.bind fun _ m hm => ?_
    obtain ⟨-, rfl⟩ := hm
    exact (spares_collectAt hlow hle).seq fun _ => spares_pure hP

theorem lands_takePattern (h : Clears low.length (.pattern :: P) n) : Lands low n P Offer.turn (takePattern t) := by
  obtain ⟨hn, hP⟩ := h
  have hn' : low.length ≤ n + 1 := Nat.le_succ_of_le hn
  unfold takePattern
  refine spares_lookup?.seq fun word => ?_
  split
  · exact spares_internAt.seq fun id => spares_define.seq fun _ => spares_push.seq fun _ => spares_pure hP
  · unfold takeOperand
    split
    · exact spares_pure ⟨hn, hn', Nat.lt_succ_of_le hn, hP⟩
    · exact lands_takePrimary ⟨hn, hP⟩

theorem lands_takeIfEnd (h : Collects low.length base n (Clears low.length P)) :
    Lands low n P Offer.turn (takeIfEnd base span t) := by
  obtain ⟨hlow, hle, hP⟩ := h
  refine spares_expect.bind fun _ m hm => ?_
  obtain ⟨-, rfl⟩ := hm
  refine (spares_drainFrom hlow hle).seq fun ids => ?_
  split
  · exact spares_intern.seq fun _ => spares_intern.seq fun _ => spares_intern.seq fun _ => spares_intern.seq fun _ =>
      spares_leaveAt.seq fun _ => spares_pure hP
  · exact fun _ _ _ => trivial

/-- A turn leaves the operands alone that its position has to leave alone. A definition comes only where the list
around it takes one. -/
theorem spares_turn (hlet : c = .expr → t.kind = .keyLet → P.head?.any Cont.takesDefinitions)
    (h : Clears low.length (c :: P) n) : Lands low n P id (c.turn t) := by
  have hn : low.length ≤ n := by cases c <;> exact h.1
  have hn' : low.length ≤ n + 1 := Nat.le_succ_of_le hn
  -- Where the token of a kind opens a list, the list begins at the height of the stack.
  have opens {kind : TokenKind} {cls : TokenClass} {next : Nat → List Cont} (hnext : Clears low.length (next n ++ P) n) :
      Lands low n P id (do return (← (do expect kind t; return .taken cls (next (← height)) : ParseM Offer)).turn) := by
    refine lands_offer (spares_expect.bind fun _ m hm => ?_)
    obtain ⟨-, rfl⟩ := hm
    refine spares_height.bind fun base m hm => ?_
    obtain ⟨rfl, rfl⟩ := hm
    exact spares_pure hnext
  have closes {kind : TokenKind} {tag : Tag} {base : Nat} {span : Span}
      (hbase : Collects low.length base n (Clears low.length P)) :
      Lands low n P id (do
        return (← (do
          expect kind t; leaveAt (.branch tag (← drainFrom base)) span; return .taken .punc [] : ParseM Offer)).turn) := by
    obtain ⟨hlow, hle, hP⟩ := hbase
    refine lands_offer (spares_expect.bind fun _ m hm => ?_)
    obtain ⟨-, rfl⟩ := hm
    exact (spares_collectAt hlow hle).seq fun _ => spares_pure hP
  cases c with
  | program => exact h.2.elim
  | exprs brk base =>
    obtain ⟨-, hbase⟩ := h
    show Lands low n P id (if t.kind = .dot then _ else _)
    split
    · exact (spares_collect hbase.1 hbase.2.1).seq fun _ => spares_pure hbase.2.2
    · exact lands_turnListItem hbase hn
  | exprsNext brk base =>
    obtain ⟨-, hbase⟩ := h
    show Lands low n P id (if t.kind = .dot then _ else _)
    split
    · exact spares_pure ⟨hn, hbase⟩
    · exact lands_turnListItem hbase hn
  | exprsAfterDot brk base => exact lands_turnListItem h.2 hn
  | expr => exact lands_turnExpr (hlet rfl) h
  | letName => exact lands_offer (lands_takeLetName h)
  | letEqual depth name base =>
    obtain ⟨-, hlow, hle, hP⟩ := h
    exact opens ⟨hn, hn, Nat.le_refl _, hn', hlow, Nat.lt_succ_of_le hle, hP⟩
  | letBody depth name base =>
    obtain ⟨-, hlow, hlt, hP⟩ := h
    exact lands_offer ((spares_finishLet hlow hlt).seq fun _ => spares_pure hP)
  | params brk base => exact lands_offer (lands_offerParam h)
  | paramList base => exact lands_offer (lands_takeParamList h)
  | lambdaColon base =>
    obtain ⟨-, hlow, hle, hP⟩ := h
    exact opens ⟨hn, hn, Nat.le_refl _, hn', Nat.lt_succ_of_le hle, hlow, Nat.le_succ_of_le hle, hP⟩
  | lambdaEnd base => exact lands_offer (lands_takeLambdaEnd h)
  | operand =>
    show Lands low n P id (if t.kind = .minus then _ else _)
    split
    · exact spares_pure ⟨hn, hn', Nat.lt_succ_of_le hn, h.2⟩
    · exact spares_pure h
  | negate span => exact lands_offer ((spares_negate h.2.1).seq fun _ => spares_pure h.2.2)
  | binary ops => exact lands_offer (lands_binary h)
  | primary => exact lands_offer (lands_takePrimary h)
  | parenEnd span =>
    obtain ⟨-, hlt, hP⟩ := h
    obtain ⟨k, rfl⟩ := Nat.exists_eq_add_one_of_ne_zero (Nat.ne_zero_of_lt hlt)
    refine lands_offer (spares_expect.bind fun _ m hm => ?_)
    obtain ⟨-, rfl⟩ := hm
    exact (spares_pop_succ (Nat.le_of_lt_succ hlt)).seq fun _ => spares_leaveAt.seq fun _ => spares_pure hP
  | elements =>
    show Lands low n P id (if t.kind = .rightBracket then _ else _)
    split
    · exact spares_pure (h.2 n (Nat.le_refl _))
    · refine spares_pure ⟨hn, ⟨hn', fun m hm => h.2 m (Nat.le_of_succ_le hm)⟩, fun _ => h⟩
  | elementNext =>
    show Lands low n P id (if t.kind = .comma then _ else _)
    split
    · exact spares_pure h
    · exact spares_pure h
  | listEnd base => exact closes h.2
  | bindings => exact lands_offer (lands_offerBinding h)
  | bindingColon =>
    refine lands_offer (spares_expect.bind fun _ m hm => ?_)
    obtain ⟨-, rfl⟩ := hm
    exact spares_pure h
  | bindingNext =>
    obtain ⟨-, k, rfl, hk, hP⟩ := h
    refine (spares_finishBinding hk).seq fun _ => ?_
    have hnext : Clears low.length (.bindings :: P) (k + 1) := ⟨Nat.le_succ_of_le hk, fun m hm => hP m hm⟩
    split
    · exact spares_pure hnext
    · exact spares_pure hnext
  | recordEnd base span => exact closes h.2
  | caseClauses base span => exact lands_offer (lands_takeCaseClause h)
  | pattern =>
    refine spares_lookup?.seq fun word => ?_
    split
    · exact lands_offer (lands_takePattern h)
    · exact spares_pure h
  | ofColon => exact opens ⟨hn, hn, Nat.le_refl _, h.2⟩
  | ofEnd =>
    obtain ⟨-, k, rfl, hk, hP⟩ := h
    exact lands_offer ((spares_finishClause hk).seq fun _ => spares_pure hP)
  | ifThen base span =>
    obtain ⟨-, hlow, hle, hP⟩ := h
    exact opens ⟨hn, hn, Nat.le_refl _, hn', hlow, Nat.le_succ_of_le hle, hP⟩
  | ifElse base span =>
    obtain ⟨-, hlow, hle, hP⟩ := h
    have hnext : Clears low.length (.ifEnd base span :: P) (n + 1) := ⟨hn', hlow, Nat.le_succ_of_le hle, hP⟩
    show Lands low n P id (if t.kind = .keyElse then _ else _)
    split
    · refine spares_height.bind fun base m hm => ?_
      obtain ⟨rfl, rfl⟩ := hm
      exact spares_pure ⟨hn, hn, Nat.le_refl _, hnext⟩
    · exact spares_leave.seq fun _ => spares_pure hnext
  | ifEnd base span => exact lands_offer (lands_takeIfEnd h.2)

end ParseM

end

end Linefold
