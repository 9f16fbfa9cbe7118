import Mathlib.Logic.Relation
import Linefold.Proofs.Operands.Run
import Linefold.Proofs.Turns.Acts

/-!
# A step is a run of turns

`ParseState.step` and the turns of single positions come to the same (`run_step_turns`): from a parse that goes
on with a further token, finitely many turns lead to a parse at rest, in which exactly one position has taken
the token, or to the error of the step. A position that hands its token on comes to that within a few turns
(`comes_offer`), and the rest follows the stack.
-/

namespace Linefold

open Relation (ReflTransGen)

namespace Moment

/-! ### Runs of turns -/

/-- A turn in which the token is left. -/
def Leaves (m m' : Moment) : Prop := m.Turns m' ∧ m'.token.isSome

/-- A turn without a token. -/
def Reduces (m m' : Moment) : Prop := m.Turns m' ∧ m.token = none

/-- Turns of which exactly one takes the token. -/
def TakesOnce (m m' : Moment) : Prop :=
  ∃ a b, ReflTransGen Leaves m a ∧ a.token.isSome ∧ a.Turns b ∧ b.token = none ∧ ReflTransGen Reduces b m'

/-- The turns fail with an error. -/
def Errs (m : Moment) (e : Error) (s : Parsed) : Prop :=
  ∃ a, ReflTransGen Turns m a ∧ a.next = .fails (.error e) s

variable {m m' a : Moment} {t : Token} {c n : Cont} {K next : List Cont} {s s' : Parsed} {cls : TokenClass}
  {root : Option NodeId} {e : Error} {f : ParseM Offer} {r : EStateM.Result Error Parsed Offer}

theorem turns_of_leaves (h : ReflTransGen Leaves m a) : ReflTransGen Turns m a :=
  ReflTransGen.mono (fun _ _ h => h.1) _ _ h

theorem turns_of_reduces (h : ReflTransGen Reduces m a) : ReflTransGen Turns m a :=
  ReflTransGen.mono (fun _ _ h => h.1) _ _ h

/-! ### Offers -/

/-- The turns of a position above `K` come to what it makes of a token. -/
def Comes (m : Moment) (K : List Cont) : EStateM.Result Error Parsed Offer → Prop
  | .ok (.taken cls next) s => ∃ a, ReflTransGen Leaves m a ∧ a.Turns ⟨none, cls, next ++ K, s, m.root⟩
  | .ok .declined s => ReflTransGen Leaves m ⟨m.token, m.cls, K, s, m.root⟩
  | .ok (.finished root) s => ∃ a, ReflTransGen Leaves m a ∧ a.Turns ⟨none, .comment, K, s, some root⟩
  | .error e s => ∃ a, ReflTransGen Leaves m a ∧ a.next = .fails (.error e) s

/-- The token is taken by the position or by one that it opens. -/
def Gives (K : List Cont) (f : ParseM Offer) (m : Moment) : Prop :=
  Comes m K (f m.parsed) ∧ Ensures f (fun a _ => ∃ cls next, a = .taken cls next) (fun _ _ => True) m.parsed

theorem Comes.head (h : Comes m' K r) (hm : m.Leaves m') (hroot : m'.root = m.root)
    (hdeclined : m'.token = m.token ∧ m'.cls = m.cls) : Comes m K r := by
  unfold Comes at *
  rw [hroot] at h
  split at h
  · obtain ⟨a, ha, h⟩ := h
    exact ⟨a, .head hm ha, h⟩
  · rw [hdeclined.1, hdeclined.2] at h
    exact .head hm h
  · obtain ⟨a, ha, h⟩ := h
    exact ⟨a, .head hm ha, h⟩
  · obtain ⟨a, ha, h⟩ := h
    exact ⟨a, .head hm ha, h⟩

/-- A position that opens no others has one turn. -/
theorem comes_of_turn {c : Cont} {f : ParseM Offer} (h : c.turn t s = (do return (← f).turn : ParseM Turn) s) :
    Comes ⟨some t, cls, c :: K, s, root⟩ K (f s) := by
  have hturn : c.turn t s = match f s with
      | .ok a s => .ok a.turn s
      | .error e s => .error e s := by
    rw [h]
    simp only [bind, EStateM.bind, pure, EStateM.pure]
    cases f s <;> rfl
  have hnext : next ⟨some t, cls, c :: K, s, root⟩ = after ⟨some t, cls, c :: K, s, root⟩ K (c.turn t s) :=
    next_token
  rw [hturn] at hnext
  unfold Comes
  split <;> rename_i heq <;> rw [heq] at hnext
  · exact ⟨_, .refl, hnext⟩
  · exact .single ⟨hnext, rfl⟩
  · exact ⟨_, .refl, hnext⟩
  · exact ⟨_, .refl, hnext⟩

/-- A position that opens others leaves the token to them. -/
theorem Comes.of_passes (hturn : c.turn t s = .ok (.passes next) s')
    (h : Comes ⟨some t, cls, next ++ K, s', root⟩ K r) : Comes ⟨some t, cls, c :: K, s, root⟩ K r :=
  h.head ⟨turns_of_passes hturn, rfl⟩ rfl ⟨rfl, rfl⟩

/-- A position that looks at the token first. -/
theorem comes_ite {p : Prop} [Decidable p] {f g : ParseM Turn} {f' g' : ParseM Offer}
    (h : c.turn t s = (if p then f else g) s) (hf : c.turn t s = f s → Comes m K (f' s))
    (hg : c.turn t s = g s → Comes m K (g' s)) : Comes m K ((if p then f' else g') s) := by
  split at h
  · next hp =>
    rw [if_pos hp]
    exact hf h
  · next hp =>
    rw [if_neg hp]
    exact hg h

theorem Gives.followedBy (h : Gives (n :: K) f m) : Gives K (ParseM.followedBy [n] <$> f) m := by
  obtain ⟨hcomes, htaken⟩ := h
  unfold Gives
  unfold Ensures Comes at *
  simp only [Functor.map, EStateM.map]
  split at htaken
  · next heq =>
    obtain ⟨cls, next, rfl⟩ := htaken
    rw [heq] at hcomes ⊢
    simp only at hcomes ⊢
    exact ⟨by simpa [ParseM.followedBy] using hcomes, _, _, rfl⟩
  · next heq =>
    rw [heq] at hcomes ⊢
    exact ⟨hcomes, trivial⟩

end Moment

namespace ParseM

variable {t : Token} {s : Parsed}

theorem taken_takePrimary :
    Ensures (takePrimary t) (fun a _ => ∃ cls next, a = .taken cls next) (fun _ _ => True) s := by
  unfold takePrimary
  split
  case h_8 =>
    rw [Ensures.bind_iff, ensures_enter]
    split
    · trivial
    · exact ⟨_, _, rfl⟩
  case h_9 =>
    unfold takeName
    rw [Ensures.bind_iff, ensures_expect]
    split
    · simp only [Ensures.bind_iff, ensures_lookup?, ensures_ask]
      split <;> split <;> exact ⟨_, _, rfl⟩
    · trivial
  all_goals exact ⟨_, _, rfl⟩

end ParseM

namespace Moment

variable {m m' a : Moment} {t : Token} {c n : Cont} {K next : List Cont} {s s' : Parsed} {cls : TokenClass}
  {root : Option NodeId} {e : Error} {brk : TokenKind} {base : Nat}

open ParseM

/-! ### Positions that open others -/

theorem gives_takePrimary : Gives K (takePrimary t) ⟨some t, cls, .primary :: K, s, root⟩ :=
  ⟨comes_of_turn rfl, taken_takePrimary⟩

theorem gives_takeOperand : Gives K (takeOperand t) ⟨some t, cls, .operand :: K, s, root⟩ := by
  unfold takeOperand
  by_cases hk : t.kind = .minus
  · rw [if_pos hk]
    exact ⟨⟨_, .refl, turns_of_takes (Cont.turn_operand_minus hk)⟩, _, _, rfl⟩
  · rw [if_neg hk]
    exact ⟨.of_passes (Cont.turn_operand_of_ne hk) gives_takePrimary.1, taken_takePrimary⟩

theorem gives_takeExpr : Gives K (takeExpr t) ⟨some t, cls, .expr :: K, s, root⟩ := by
  have hturn : Cont.turn t .expr = turnExpr t := rfl
  unfold takeExpr
  split
  case h_4 hlet hcase hif =>
    have hpasses : turnExpr t = return .passes [.operand, .binary []] := by
      unfold turnExpr
      split <;> first | contradiction | rfl
    have h : Gives K _ ⟨some t, cls, .operand :: .binary [] :: K, s, root⟩ :=
      gives_takeOperand.followedBy
    exact ⟨.of_passes (by rw [hturn, hpasses]; rfl) h.1, h.2⟩
  all_goals
    next hk =>
    refine ⟨⟨_, .refl, turns_of_takes ?_⟩, _, _, rfl⟩
    rw [hturn]
    unfold turnExpr
    rw [hk]
    rfl

theorem comes_offerListItem (hturn : c.turn t s = turnListItem brk base t s) :
    Comes ⟨some t, cls, c :: K, s, root⟩ K (offerListItem brk base t s) := by
  refine comes_ite hturn (fun h => ?_) fun h => .of_passes h (gives_takeExpr.followedBy).1
  obtain ⟨s', hs'⟩ : ∃ s', finishExprs base s = .ok () s' := ⟨_, rfl⟩
  have hpasses : c.turn t s = .ok (.passes []) s' := by
    rw [h]
    simp only [bind, EStateM.bind, hs']
    rfl
  simp only [bind, EStateM.bind, hs']
  exact .of_passes hpasses .refl

theorem comes_offerElement (hturn : c.turn t s = (if t.kind = .rightBracket then pure (.passes [])
    else pure (.passes [.expr, .elementNext]) : ParseM Turn) s) :
    Comes ⟨some t, cls, c :: K, s, root⟩ K (offerElement t s) :=
  comes_ite hturn (fun h => .of_passes h .refl) fun h => .of_passes h (gives_takeExpr.followedBy).1

theorem comes_elementNext : Comes ⟨some t, cls, .elementNext :: K, s, root⟩ K (Cont.elementNext.offer t s) :=
  comes_ite rfl (fun h => comes_of_turn h) fun h => .of_passes h (comes_offerElement rfl)

theorem comes_pattern : Comes ⟨some t, cls, .pattern :: K, s, root⟩ K (takePattern t s) := by
  have hturn : Cont.turn t .pattern s = (if t.kind = .ident ∧ (s.env.lookup? t.lexeme).isNone
      then (do return (← takePattern t).turn) else return .passes [.operand] : ParseM Turn) s := rfl
  by_cases h : t.kind = .ident ∧ (s.env.lookup? t.lexeme).isNone
  · rw [if_pos h] at hturn
    exact comes_of_turn hturn
  · have htake : takePattern t s = takeOperand t s := by
      show (if t.kind = .ident ∧ (s.env.lookup? t.lexeme).isNone then _ else takeOperand t : ParseM Offer) s = _
      rw [if_neg h]
    rw [if_neg h] at hturn
    rw [htake]
    exact .of_passes hturn gives_takeOperand.1

theorem comes_bindingNext : Comes ⟨some t, cls, .bindingNext :: K, s, root⟩ K (Cont.bindingNext.offer t s) := by
  have hturn : Cont.turn t .bindingNext s = (finishBinding >>= fun _ =>
    if t.kind = .comma then return .takes .punc [.bindings] else return .passes [.bindings] : ParseM Turn) s := rfl
  show Comes _ K ((finishBinding >>= fun _ =>
    if t.kind = .comma then return .taken .punc [.bindings] else offerBinding t : ParseM Offer) s)
  simp only [bind, EStateM.bind] at hturn ⊢
  cases hf : finishBinding s with
  | error e s' =>
    rw [hf] at hturn
    refine ⟨_, .refl, ?_⟩
    rw [next_token, hturn]
    rfl
  | ok _ s' =>
    rw [hf] at hturn
    simp only at hturn ⊢
    split at hturn
    · next hk =>
      rw [if_pos hk]
      exact ⟨_, .refl, turns_of_takes hturn⟩
    · next hk =>
      rw [if_neg hk]
      exact .of_passes hturn (comes_of_turn rfl)

theorem comes_ifElse {span : Span} :
    Comes ⟨some t, cls, .ifElse base span :: K, s, root⟩ K ((Cont.ifElse base span).offer t s) := by
  refine comes_ite rfl (fun h => comes_of_turn h) fun h => ?_
  obtain ⟨s', hs'⟩ : ∃ s', leave (.branch .exprs []) s = .ok () s' := ⟨_, rfl⟩
  have hpasses : (Cont.ifElse base span).turn t s = .ok (.passes [.ifEnd base span]) s' := by
    rw [h]
    simp only [bind, EStateM.bind, hs']
    rfl
  simp only [bind, EStateM.bind, hs']
  exact .of_passes hpasses (comes_of_turn rfl)

/-- What a position makes of a token comes about in turns. -/
theorem comes_offer : Ensures (c.offer t) (fun a s' => Comes ⟨some t, cls, c :: K, s, root⟩ K (.ok a s'))
    (fun e s' => Comes ⟨some t, cls, c :: K, s, root⟩ K (.error e s')) s := by
  have h : Comes ⟨some t, cls, c :: K, s, root⟩ K (c.offer t s) := by
    cases c with
    | exprs brk base => exact comes_ite rfl (fun h => comes_of_turn h) fun h => comes_offerListItem h
    | exprsNext brk base => exact comes_ite rfl (fun h => comes_of_turn h) fun h => comes_offerListItem h
    | exprsAfterDot brk base => exact comes_offerListItem rfl
    | expr => exact gives_takeExpr.1
    | operand => exact gives_takeOperand.1
    | elements => exact comes_offerElement rfl
    | elementNext => exact comes_elementNext
    | bindingNext => exact comes_bindingNext
    | pattern => exact comes_pattern
    | ifElse base span => exact comes_ifElse
    | _ => exact comes_of_turn rfl
  unfold Ensures
  split <;> next heq => rwa [heq] at h

/-! ### Stacks of positions -/

theorem token_isSome_of_leaves (h : ReflTransGen Leaves m a) (hm : m.token.isSome) : a.token.isSome := by
  cases h with
  | refl => exact hm
  | tail _ h => exact h.2

/-- The token is handed on until a turn takes it. -/
theorem leaves_advance (hK : Nested K) :
    Ensures (advance t K)
      (fun a s' => match a with
        | .taken cls' next => ∃ a, ReflTransGen Leaves ⟨some t, cls, K, s, root⟩ a ∧
            a.Turns ⟨none, cls', next, s', root⟩
        | .finished r => ∃ a K', ReflTransGen Leaves ⟨some t, cls, K, s, root⟩ a ∧
            a.Turns ⟨none, .comment, K', s', some r⟩)
      (fun e s' => ∃ a, ReflTransGen Leaves ⟨some t, cls, K, s, root⟩ a ∧ a.next = .fails (.error e) s') s := by
  induction K generalizing s with
  | nil => cases hK
  | cons c K ih =>
    unfold advance
    rw [Ensures.bind_iff]
    refine (comes_offer.and (agrees_offer (o := false) (t := t) hK (by simp) s)).mono ?_ fun _ _ h => h.1
    rintro offer s' ⟨hcomes, hfollows⟩
    cases offer with
    | taken cls' next => exact hcomes
    | finished r =>
      obtain ⟨a, ha, hturns⟩ := hcomes
      exact ⟨a, K, ha, hturns⟩
    | declined =>
      refine (ih hfollows.2.1).mono (fun a s'' h => ?_) ?_
      · cases a with
        | taken cls' next =>
          obtain ⟨a, ha, hturns⟩ := h
          exact ⟨a, hcomes.trans ha, hturns⟩
        | finished r =>
          obtain ⟨a, K', ha, hturns⟩ := h
          exact ⟨a, K', hcomes.trans ha, hturns⟩
      · rintro e s'' ⟨a, ha, h⟩
        exact ⟨a, hcomes.trans ha, h⟩

/-- Once the token is gone, positions are resumed until one needs a further token. -/
theorem reduces_settle (cls : TokenClass) (root : Option NodeId) :
    Ensures (settle K)
      (fun K' s' => Settled K' ∧ ReflTransGen Reduces ⟨none, cls, K, s, root⟩ ⟨none, cls, K', s', root⟩)
      (fun e s' => ∃ a, ReflTransGen Reduces ⟨none, cls, K, s, root⟩ a ∧ a.next = .fails (.error e) s') s := by
  induction K generalizing s with
  | nil => exact ⟨trivial, .refl⟩
  | cons c K ih =>
    unfold settle
    split
    · next hc =>
      have hnext : next ⟨none, cls, c :: K, s, root⟩ = _ := next_reduction hc
      refine Ensures.bind_iff.2 ?_
      unfold Ensures
      split
      · next s' heq =>
        rw [heq] at hnext
        have hred : Reduces ⟨none, cls, c :: K, s, root⟩ ⟨none, cls, K, s', root⟩ := ⟨hnext, rfl⟩
        refine ih.mono (fun _ _ h => ⟨h.1, .head hred h.2⟩) ?_
        rintro e s'' ⟨a, ha, h⟩
        exact ⟨a, .head hred ha, h⟩
      · next heq =>
        rw [heq] at hnext
        exact ⟨_, .refl, hnext⟩
    · next hc => exact ⟨Bool.eq_false_iff.2 hc, .refl⟩

/-- The positions are those of a parse that goes on, until the program has ended. -/
theorem nested_or_ended (h : ReflTransGen Turns m a) (hm : Nested m.conts) :
    a.root = m.root ∧ Nested a.conts ∨ a.token = none ∧ a.conts = [] := by
  induction h with
  | refl => exact .inl ⟨rfl, hm⟩
  | tail _ hturns ih =>
    rcases ih with ⟨hroot, hnested⟩ | ⟨-, hconts⟩
    · rcases hturns.nested hnested with ⟨hroot', hnested'⟩ | ⟨r, hend⟩
      · exact .inl ⟨hroot'.trans hroot, hnested'⟩
      · rw [hend]
        exact .inr ⟨rfl, rfl⟩
    · obtain ⟨t, c, K, _, _, hcons, -⟩ := hturns.acts
      cases hconts.symm.trans hcons

/-- While the token is there, the program has not ended. -/
theorem nested_of_leaves (h : ReflTransGen Leaves m a) (hm : Nested m.conts) (htoken : m.token.isSome) :
    a.root = m.root ∧ Nested a.conts := by
  have ha := token_isSome_of_leaves h htoken
  refine (nested_or_ended (turns_of_leaves h) hm).resolve_right fun hend => ?_
  rw [hend.1] at ha
  cases ha

theorem TakesOnce.token_eq_none (h : TakesOnce m m') : m'.token = none := by
  obtain ⟨a, b, -, -, -, hb, hreds⟩ := h
  induction hreds with
  | refl => exact hb
  | tail _ h _ => exact token_eq_none_of_next h.1 h.2

theorem TakesOnce.turns (h : TakesOnce m m') : ReflTransGen Turns m m' := by
  obtain ⟨a, b, ha, -, hturns, -, hreds⟩ := h
  exact ((turns_of_leaves ha).tail hturns).trans (turns_of_reduces hreds)

/-- A parse that goes on after a step. -/
def Open (m : Moment) : Prop := m.root = none ∧ Nested m.conts ∧ Settled m.conts

theorem takesOnce_consume (hK : Nested K) :
    Ensures (ParseState.consume t K)
      (fun a s' => ∃ m, TakesOnce ⟨some t, .error, K, s, none⟩ m ∧ m.parsed = s' ∧ match a with
        | .taken cls next => m.cls = cls ∧ m.conts = next ∧ m.Open
        | .finished r => m.cls = .comment ∧ m.conts = [] ∧ m.root = some r)
      (fun e s' => Errs ⟨some t, .error, K, s, none⟩ e s') s := by
  unfold ParseState.consume
  refine Ensures.bind_iff.2 ((leaves_advance hK).mono ?_ fun e s' ⟨a, ha, h⟩ => ⟨a, turns_of_leaves ha, h⟩)
  intro adv s' h
  cases adv with
  | finished r =>
    obtain ⟨a, K', ha, hturns⟩ := h
    obtain rfl : K' = [] := by
      rcases hturns.nested (nested_of_leaves ha hK rfl).2 with ⟨hroot, -⟩ | ⟨r', hend⟩
      · cases hroot.trans (nested_of_leaves ha hK rfl).1
      · exact (congrArg Moment.conts hend : _)
    exact ⟨_, ⟨a, _, ha, token_isSome_of_leaves ha rfl, hturns, rfl, .refl⟩, rfl, rfl, rfl, rfl⟩
  | taken cls next =>
    obtain ⟨a, ha, hturns⟩ := h
    have hnext : Nested next := by
      rcases hturns.nested (nested_of_leaves ha hK rfl).2 with ⟨-, hnested⟩ | ⟨r', hend⟩
      · exact hnested
      · cases congrArg Moment.root hend
    refine Ensures.bind_iff.2 (((settle_expects hnext s').and (reduces_settle cls none)).mono ?_ ?_)
    · rintro K' s'' ⟨⟨hnested, -⟩, hsettled, hreds⟩
      exact ⟨_, ⟨a, _, ha, token_isSome_of_leaves ha rfl, hturns, rfl, hreds⟩, rfl, rfl, rfl, rfl, hnested, hsettled⟩
    · rintro e s'' ⟨-, b, hb, hfails⟩
      exact ⟨b, ((turns_of_leaves ha).tail hturns).trans (turns_of_reduces hb), hfails⟩

end Moment

/-! ### Parse states -/

/-- The bottom of a parse that goes on is the program. -/
theorem Nested.getLast? {K : List Cont} (h : Nested K) : K.getLast? = some .program := by
  induction K with
  | nil => cases h
  | cons c K ih =>
    cases K with
    | nil => rw [Cont.eq_program_of_beneath h]; rfl
    | cons c' K => exact (List.getLast?_cons_cons ..).trans (ih h.2)

namespace ParseState

variable {s : ParseState} {pool : Pool} {ts : List Token}

theorem nested_run (hs : s.status = .parsing → Nested s.conts) :
    (s.run pool ts).1.status = .parsing → Nested (s.run pool ts).1.conts := by
  induction ts generalizing s pool with
  | nil => exact hs
  | cons t ts ih =>
    refine ih fun h => ?_
    by_cases hp : s.status = .parsing
    · rcases step_cases hp (hs hp) pool t with ⟨-, hN, -⟩ | ⟨⟨r, hr⟩, -⟩ | ⟨e, -, he, -⟩
      · exact hN
      · rw [hr] at h
        cases h
      · rw [he] at h
        cases h
    · rw [step_of_ne_parsing hp] at h
      exact absurd h hp

/-- The moment at which a parse is given a further token. -/
def given (s : ParseState) (pool : Pool) (t : Token) : Moment :=
  ⟨some t, .error, s.conts, ⟨pool, s.operands, s.env, s.errors⟩, none⟩

theorem step_turns (hs : s.status = .parsing) (hK : Nested s.conts) (pool : Pool) (t : Token) :
    (∃ m, (s.given pool t).TakesOnce m ∧ s.step pool t = (.ok m.cls, m.state, m.parsed.pool) ∧
      (m.Open ∨ m.conts = [] ∧ m.root.isSome)) ∨
    ∃ e s', (s.given pool t).Errs e s' ∧
      s.step pool t = (.error e, ⟨[], s'.operands, s'.env, s'.errors, .failed e⟩, s'.pool) := by
  obtain ⟨conts, operands, env, errors, status⟩ := s
  obtain rfl : status = .parsing := hs
  have h := Moment.takesOnce_consume (t := t) (s := ⟨pool, operands, env, errors⟩) hK
  unfold Ensures at h
  unfold step
  simp only
  split at h
  · next a s' heq =>
    obtain ⟨m, htakes, rfl, hm⟩ := h
    rw [heq]
    refine .inl ⟨m, htakes, ?_⟩
    cases a with
    | taken cls next =>
      obtain ⟨rfl, rfl, hopen⟩ := hm
      refine ⟨?_, .inl hopen⟩
      simp only [Moment.state, hopen.1]
    | finished r =>
      obtain ⟨hcls, hconts, hroot⟩ := hm
      refine ⟨?_, .inr ⟨hconts, by rw [hroot]; rfl⟩⟩
      simp only [Moment.state, hcls, hconts, hroot]
  · next e s' heq =>
    rw [heq]
    exact .inr ⟨e, s', h, rfl⟩

/-- A step lets finitely many positions have their turns. Of a parse that goes on, exactly one of them takes the
token, and then the program has ended with no position left, or the program is the last position and the
innermost one needs a token; or else a turn fails, and the parse has failed with its error. No turn lacks the
token that it would take. -/
theorem run_step_turns (env : Environment) (pool : Pool) (ts : List Token) (t : Token) :
    let s := ((initial env).run pool ts).1
    let p := ((initial env).run pool ts).2
    s.status ≠ .parsing ∧ s.step p t = (.ok .error, s, p) ∨
    s.status = .parsing ∧
      (¬ ∃ m s', ReflTransGen Moment.Turns (s.given p t) m ∧ m.next = .fails .noToken s') ∧
      ((∃ m, (s.given p t).TakesOnce m ∧ m.next = .rests ∧ s.step p t = (.ok m.cls, m.state, m.parsed.pool) ∧
          ((∃ root, m.state.status = .complete root) ∧ m.conts = [] ∨
            m.state.status = .parsing ∧ m.conts.getLast? = some .program ∧
              ∃ c K, m.conts = c :: K ∧ c.isReduction = false)) ∨
        ∃ e s', (s.given p t).Errs e s' ∧
          s.step p t = (.error e, ⟨[], s'.operands, s'.env, s'.errors, .failed e⟩, s'.pool)) := by
  intro s p
  by_cases hs : s.status = .parsing
  · have hK : Nested s.conts := nested_run (fun _ => ⟨rfl, rfl⟩) hs
    refine .inr ⟨hs, fun ⟨m, s', _, h⟩ => m.next_ne_noToken s' h, ?_⟩
    refine (step_turns hs hK p t).imp_left ?_
    rintro ⟨m, htakes, hstep, hm⟩
    have htoken := htakes.token_eq_none
    obtain ⟨token, cls, conts, parsed, root⟩ := m
    obtain rfl : token = none := htoken
    rcases hm with ⟨rfl, hnested, hsettled⟩ | ⟨rfl, hroot⟩
    · cases conts with
      | nil => cases hnested
      | cons c K =>
        exact ⟨_, htakes, Moment.next_eq_rests hsettled, hstep, .inr ⟨rfl, hnested.getLast?, c, K, rfl, hsettled⟩⟩
    · obtain ⟨root, rfl⟩ := Option.isSome_iff_exists.1 hroot
      exact ⟨_, htakes, rfl, hstep, .inl ⟨⟨root, rfl⟩, rfl⟩⟩
  · exact .inl ⟨hs, step_of_ne_parsing hs⟩

end ParseState

end Linefold
