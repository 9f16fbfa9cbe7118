import Linefold.Proofs.Headers.Closing
import Linefold.Proofs.Headers.Scopes
import Linefold.Proofs.Turns.Floor

/-!
# The recorded names are those of the patterns

The names that a construct records do not come from its patterns: they are the values of the scope that it opened, by
offset. The two agree (`Moment.recorded_names`). The construct is followed from the turn that opens it (`Moment.Opens`)
to the one that closes it, through its header (`Reading`) and its body (`Body`), over which the patterns stay on the stack
of operands and the words of the header in the scope. A definition that stands in the body itself and takes the name of
a parameter breaks this (`Moment.recorded_names_redefined`), and so may one where a value is waited for.
-/

namespace Linefold

open Relation (ReflTransGen)

-- Unfolding it looks constant nodes up in the index.
attribute [local irreducible] Pool.intern

/-- The positions `P` of a body, above the patterns `ids` of its construct and the operands `low` from before it. -/
structure Body (X : Construct) (N : String → Prop) (d : Nat) (low : List NodeId) (P : List Cont) (s : Parsed)
    (ids : List NodeId) (xs : List String) : Prop where
  suffix : ids ++ low <:+ s.operands
  clears : Clears (ids ++ low).length P s.operands.length
  covers : Covers N d xs P s.env
  spells : s.pool.Spells ids xs
  single : X = .clause → ids.length = 1

namespace Moment

/-- A construct with a header has just been opened above the positions `K`. A clause has one if its pattern is a name
that is not known yet. -/
inductive Opens (o : Moment) : Construct → List Cont → Prop where
  | definition {a depth name base K} : Turns a o → a.conts = .letName :: K →
      o.conts = .params .equal base :: .letEqual depth name base :: K → o.Opens (.definition depth name base) K
  | function {a base K} : Turns a o → a.conts = .primary :: K →
      o.conts = .params .colon base :: .lambdaColon base :: K → o.Opens (.function base) K
  | clause {a b t base span K} : Turns a b → a.conts = .caseClauses base span :: K →
      b.conts = .pattern :: .ofColon :: .ofEnd :: .caseClauses base span :: K →
      t.kind = .ident → b.parsed.env.lookup? t.lexeme = none → Turns { b with token := some t, cls := .error } o →
      o.Opens .clause (.caseClauses base span :: K)

/-- The token does not begin a definition where a single value is waited for. -/
def letAllowed (m : Moment) : Bool :=
  match m.token, m.conts with
  | some t, .expr :: c :: _ => t.kind ≠ .keyLet || c.takesDefinitions
  | _, _ => true

/-- The name that a definition gives to the innermost of `d` scopes. -/
def defines? (m : Moment) (d : Nat) : Option String :=
  match m.token, m.conts with
  | some t, .letName :: _ => if m.parsed.env.depth = d then some t.lexeme else none
  | _, _ => none

/-- A move within a construct above the positions `K` the scope of which is the innermost of `d`. It puts no
definition where a value is waited for, and those that stand in this scope have names in `N`. -/
structure Within (K : List Cont) (d : Nat) (N : String → Prop) (m m' : Moment) : Prop where
  moves : m.Moves m'
  above : K.length < m'.conts.length
  letAllowed : m.letAllowed
  named : ∀ name, m.defines? d = some name → N name

/-- A construct that is open: its header is read, or its body is. -/
inductive Phase (X : Construct) (K : List Cont) (N : String → Prop) (d : Nat) (low : List NodeId) (m : Moment) : Prop where
  | header {H ids xs} : m.conts = H ++ (X.waiting ++ K) → Reading low d H m.parsed ids xs →
      (X = .clause → H = [] ∧ ids.length = 1) → Phase X K N d low m
  | body {P ids xs} : m.conts = P ++ X.closing :: K → Body X N d low P m.parsed ids xs → Phase X K N d low m

end Moment

variable {X : Construct} {K H P : List Cont} {N : String → Prop} {d : Nat} {low ids : List NodeId} {xs : List String}
  {s s' : Parsed} {t : Token} {c : Cont} {a : Turn} {m m' o : Moment}

/-! ### Turns of a construct -/

/-- The header goes on or is through. -/
theorem Reading.turn (h : Reading low d (c :: H) s ids xs) (hturn : c.turn t s = .ok a s') :
    ∃ ids xs, Reading low d (a.next ++ H) s' ids xs := by
  have hoffer {f : ParseM Offer} (hf : ParseM.ReadsOn low d H f s) :
      Ensures (do return (← f).turn) (fun a s' => ∃ ids xs, Reading low d (a.next ++ H) s' ids xs) (fun _ _ => True) s :=
    Ensures.bind_iff.2 hf
  cases c with
  | params => exact (hoffer (ParseM.readsOn_offerParam h)).of_eq_ok hturn
  | paramList => exact (hoffer (ParseM.readsOn_takeParamList h)).of_eq_ok hturn
  | _ => exact h.brackets.elim

/-- The header ends, and the list that is the body begins. -/
theorem Construct.turn_waiting (X : Construct) : ∃ c W, X.waiting = c :: W ∧ ∀ t s, Ensures (c.turn t)
    (fun a s' => s' = s ∧ ∃ brk, a.next ++ W = [.exprs brk s.operands.length, X.closing]) (fun _ _ => True) s := by
  have opens {kind : TokenKind} {next : Nat → List Cont} {t : Token} {s : Parsed} : Ensures
      (do return (← (do ParseM.expect kind t; return .taken .punc (next (← ParseM.height)) : ParseM Offer)).turn)
      (fun a s' => s' = s ∧ a.next = next s.operands.length) (fun _ _ => True) s := by
    rw [Ensures.bind_iff, Ensures.bind_iff, ParseM.ensures_expect]
    split
    · exact ⟨rfl, rfl⟩
    · trivial
  cases X with
  | definition depth name base =>
    refine ⟨_, [], rfl, fun t s => opens.mono ?_ fun _ _ he => he⟩
    rintro a s' ⟨hs, ha⟩
    exact ⟨hs, .dot, by rw [ha]; rfl⟩
  | function base =>
    refine ⟨_, [], rfl, fun t s => opens.mono ?_ fun _ _ he => he⟩
    rintro a s' ⟨hs, ha⟩
    exact ⟨hs, .rightAngle, by rw [ha]; rfl⟩
  | clause =>
    refine ⟨_, [.ofEnd], rfl, fun t s => opens.mono ?_ fun _ _ he => he⟩
    rintro a s' ⟨hs, ha⟩
    exact ⟨hs, .keyOf, by rw [ha]; rfl⟩

/-- The last turn of a construct opens nothing. -/
theorem Construct.next_closing (h : X.closing.turn t s = .ok a s') : a.next = [] := by
  obtain ⟨ds, hacts, -⟩ := (acts_turn t X.closing s).of_eq_ok h
  have hplace {brk : TokenKind} {base : Nat} : ¬ ListPlace t brk base X.closing := by
    cases X <;> exact nofun
  generalize s'.env = e at hacts
  cases X with
  | definition =>
    cases hacts with
    | letBody => rfl
    | still h => cases h with
      | endOfList hc | item hc => exact absurd hc hplace
  | function =>
    cases hacts with
    | lambdaEnd => rfl
    | still h => cases h with
      | endOfList hc | item hc => exact absurd hc hplace
  | clause =>
    cases hacts with
    | ofEnd => rfl
    | still h => cases h with
      | endOfList hc | item hc => exact absurd hc hplace

theorem Reading.body (h : Reading low d [] s ids xs) (hsingle : X = .clause → ids.length = 1) (brk : TokenKind) :
    Body X N d low [.exprs brk s.operands.length] s ids xs := by
  obtain ⟨hoperands, hspells, ⟨e', name, l, he, hd, hl⟩, -⟩ := h
  have hcovers : Covers N d xs [] s.env := ⟨e', _, he, hd, fun hdistinct _ => hl.lists hdistinct⟩
  have hclears : Clears (ids ++ low).length [.exprs brk s.operands.length] s.operands.length := by
    rw [hoperands]
    exact ⟨Nat.le_refl _, Nat.le_refl _, Nat.le_refl _, rfl⟩
  exact ⟨hoperands ▸ List.suffix_refl _, hclears, hcovers, hspells, hsingle⟩

theorem Body.turn (h : Body X N d low (c :: P) s ids xs) (hturn : c.turn t s = .ok a s')
    (hlet : c = .expr → t.kind = .keyLet → P.head?.any Cont.takesDefinitions)
    (hN : c = .letName → s.env.depth = d → N t.lexeme) : Body X N d low (a.next ++ P) s' ids xs := by
  obtain ⟨hlow, hclears, hcovers, hspells, hsingle⟩ := h
  obtain ⟨hlow', hgrows, hclears'⟩ := (ParseM.spares_turn hlet hclears s hlow rfl).of_eq_ok hturn
  obtain ⟨ds, hacts, -⟩ := (acts_turn t c s).of_eq_ok hturn
  exact ⟨hlow', hclears', hacts.covers hN hcovers, hspells.grow hgrows, hsingle⟩

/-- The body is through: the construct closes, and records the names of its patterns. -/
theorem Body.closes (h : Body X N d low [] s ids xs) (hX : X.Fits low.length d) (hturn : X.closing.turn t s = .ok a s') :
    ∃ ns ps, s'.Records X ns ps ∧
      ((s'.pool.params ps).Nodup → (∀ x ∈ s'.pool.params ps, ¬ N x) → ns = s'.pool.params ps) := by
  obtain ⟨hlow, hclears, ⟨e, scope, henv, hd, hlists⟩, hspells, hsingle⟩ := h
  obtain ⟨p, operands, env, errors⟩ := s
  obtain ⟨front, hfront⟩ : ∃ front, front ++ (ids ++ low) = operands := hlow
  obtain ⟨body, rfl⟩ : ∃ body, front = [body] := by
    have hlength : operands.length = (ids ++ low).length + 1 := hclears
    rw [← hfront, List.length_append] at hlength
    exact List.length_eq_one_iff.1 (by omega)
  obtain rfl : body :: (ids ++ low) = operands := hfront
  obtain rfl : env = e.under scope := henv
  obtain ⟨hrecords, hgrows⟩ : s'.Records X scope.params ids.reverse ∧ p.Extends s'.pool := by
    cases X with
    | definition depth name base =>
      obtain ⟨hdepth, rfl⟩ := hX
      exact (ParseM.closes_letBody (Nat.succ.inj (hdepth.trans hd.symm))).of_eq_ok hturn
    | function base =>
      obtain rfl : base = low.length := hX
      exact (ParseM.closes_lambdaEnd hspells.held).of_eq_ok hturn
    | clause =>
      obtain ⟨pattern, rfl⟩ := List.length_eq_one_iff.1 (hsingle rfl)
      exact (ParseM.closes_ofEnd (hspells.held pattern (.head _))).of_eq_ok hturn
  refine ⟨_, _, hrecords, fun hdistinct hfree => ?_⟩
  rw [(hspells.grow hgrows).params] at hdistinct hfree ⊢
  exact (hlists hdistinct hfree).params_eq

namespace Moment

theorem Phase.length_lt (h : Phase X K N d low m) : K.length < m.conts.length := by
  cases h with
  | header hconts =>
    rw [hconts]
    cases X <;> simp [Construct.waiting] <;> omega
  | body hconts =>
    rw [hconts]
    simp
    omega

theorem takesDefinitions_of_letAllowed {L : List Cont} (hallowed : m.letAllowed) (htoken : m.token = some t)
    (ht : t.kind = .keyLet) (hconts : m.conts = .expr :: (P ++ X.closing :: L)) : P.head?.any Cont.takesDefinitions := by
  have hclosing : X.closing.takesDefinitions = false := by cases X <;> rfl
  unfold letAllowed at hallowed
  rw [htoken, hconts] at hallowed
  cases P with
  | nil => simp [ht, hclosing] at hallowed
  | cons c P => simpa [ht] using hallowed

/-- A turn leaves the construct open, or it is through with the body. -/
theorem Phase.turn (h : Phase X K N d low m) (hturns : m.Turns m')
    (hwithin : K.length < m'.conts.length → m.letAllowed ∧ ∀ name, m.defines? d = some name → N name) :
    Phase X K N d low m' ∨ ∃ ids xs, m.conts = X.closing :: K ∧ Body X N d low [] m.parsed ids xs := by
  obtain ⟨t, c, L, a, hconts, htoken, hturn, hafter⟩ := hturns.exists_turn
  have hconts' := conts_of_after hafter
  cases h with
  | @header H ids xs hH hreading hsingle =>
    rw [hconts] at hH
    cases H with
    | cons c' H =>
      obtain ⟨rfl, hL⟩ := List.cons.inj hH
      obtain ⟨ids', xs', hreading'⟩ := hreading.turn hturn
      refine .inl (.header ?_ hreading' fun hX => absurd (hsingle hX).1 (List.cons_ne_nil _ _))
      rw [hconts', hL]
      exact (List.append_assoc ..).symm
    | nil =>
      obtain ⟨c', W, hW, hends⟩ := X.turn_waiting
      rw [hW] at hH
      obtain ⟨rfl, hL⟩ := List.cons.inj hH
      obtain ⟨hparsed, brk, hnext⟩ := (hends t m.parsed).of_eq_ok hturn
      have hbody := hreading.body (N := N) (fun hX => (hsingle hX).2) brk
      rw [← hparsed] at hbody hnext
      refine .inl (.body ?_ hbody)
      rw [hconts', hL]
      exact (List.append_assoc ..).symm.trans (congrArg (· ++ K) hnext)
  | @body P ids xs hP hbody =>
    cases P with
    | nil => exact .inr ⟨ids, xs, hP, hbody⟩
    | cons c' P =>
      rw [hconts] at hP
      obtain ⟨rfl, hL⟩ := List.cons.inj hP
      have hL : L = P ++ X.closing :: K := hL
      obtain ⟨hallowed, hnamed⟩ := hwithin (by simp [hconts', hL]; omega)
      have htoken (hc : c.isReduction = false) : m.token = some t := htoken.resolve_right fun h => by simp [hc] at h
      refine .inl (.body ?_ (hbody.turn hturn ?_ ?_))
      · rw [hconts', hL, List.append_assoc]
      · rintro rfl ht
        exact takesDefinitions_of_letAllowed hallowed (htoken rfl) ht (hL ▸ hconts)
      · rintro rfl hd
        exact hnamed _ (by simp [defines?, htoken rfl, hconts, hd])

theorem Phase.within (h : Phase X K N d low m) (hm : Within K d N m m') : Phase X K N d low m' := by
  obtain ⟨hmoves, habove, hallowed, hnamed⟩ := hm
  cases id hmoves with
  | turn hturns =>
    refine (h.turn hturns fun _ => ⟨hallowed, hnamed⟩).resolve_right ?_
    rintro ⟨ids, xs, hconts, -⟩
    obtain ⟨t, c, L, a, hcons, -, hturn, hafter⟩ := hturns.exists_turn
    obtain ⟨rfl, rfl⟩ := List.cons.inj (hcons.symm.trans hconts)
    rw [conts_of_after hafter, Construct.next_closing hturn] at habove
    exact Nat.lt_irrefl _ habove
  | feed t =>
    cases h with
    | header hconts hreading hsingle => exact .header hconts hreading hsingle
    | body hconts hbody => exact .body hconts hbody

theorem Phase.run (h : Phase X K N d low o) (hrun : ReflTransGen (Within K d N) o m) : Phase X K N d low m := by
  induction hrun with
  | refl => exact h
  | tail _ hm ih => exact ih.within hm

/-! ### The start of a construct -/

theorem turn_letName : Ensures (Cont.turn t .letName)
    (fun a s' => s' = { s with env := (s.env.bind t.lexeme (.function t.lexeme)).under ⟨t.lexeme, []⟩ } ∧
      a.next = [.params .equal s.operands.length, .letEqual (s.env.depth - 1) t.lexeme s.operands.length])
    (fun _ _ => True) s := by
  show Ensures (ParseM.takeLetName t >>= fun a => pure a.turn) _ _ s
  unfold ParseM.takeLetName
  rw [Ensures.bind_iff, Ensures.bind_iff, ParseM.ensures_expect]
  split
  · rw [Ensures.bind_iff, ParseM.ensures_ask, Ensures.bind_iff, ParseM.ensures_define, Ensures.bind_iff,
      ParseM.ensures_enter]
    split
    · trivial
    · exact ⟨rfl, rfl⟩
  · trivial

theorem turn_primary : Ensures (Cont.turn t .primary)
    (fun a s' => ∀ base L, a.next = .params .colon base :: L →
      s' = { s with env := s.env.under ⟨"lambda", []⟩ } ∧ base = s.operands.length) (fun _ _ => True) s := by
  show Ensures (ParseM.takePrimary t >>= fun a => pure a.turn) _ _ s
  unfold ParseM.takePrimary
  rw [Ensures.bind_iff]
  split
  case h_8 =>
    rw [Ensures.bind_iff, ParseM.ensures_enter]
    split
    · trivial
    · rintro base L hnext
      cases hnext
      exact ⟨rfl, rfl⟩
  case h_9 =>
    unfold ParseM.takeName
    rw [Ensures.bind_iff, ParseM.ensures_expect]
    split
    · rw [Ensures.bind_iff, ParseM.ensures_lookup?, Ensures.bind_iff, ParseM.ensures_ask]
      split <;> split <;> exact nofun
    · trivial
  all_goals exact nofun

theorem turn_caseClauses {base : Nat} {span : Span} : Ensures (Cont.turn t (.caseClauses base span))
    (fun a s' => ∀ L, a.next = .pattern :: L → s' = { s with env := s.env.under ⟨"case", []⟩ }) (fun _ _ => True) s := by
  show Ensures (ParseM.takeCaseClause base span t >>= fun a => pure a.turn) _ _ s
  unfold ParseM.takeCaseClause
  rw [Ensures.bind_iff]
  split
  · rw [Ensures.bind_iff, ParseM.ensures_enter]
    split
    · trivial
    · exact fun _ _ => rfl
  · rw [Ensures.bind_iff, ParseM.ensures_expect]
    split
    · exact nofun
    · trivial

theorem turn_pattern (ht : t.kind = .ident) (hnew : s.env.lookup? t.lexeme = none) : Ensures (Cont.turn t .pattern)
    (fun a s' => a.next = [] ∧ ∃ id, s'.operands = id :: s.operands ∧ s'.pool.get? id = some (.ident t.lexeme) ∧
      s'.env = s.env.bind t.lexeme { Word.value t.lexeme 0 with patterns := [id] }) (fun _ _ => True) s := by
  show Ensures (ParseM.lookup? t.lexeme >>= fun _ => _) _ _ s
  have hcond : t.kind = .ident ∧ (s.env.lookup? t.lexeme).isNone := ⟨ht, by rw [hnew]; rfl⟩
  rw [Ensures.bind_iff, ParseM.ensures_lookup?, if_pos hcond]
  unfold ParseM.takePattern
  rw [Ensures.bind_iff, Ensures.bind_iff, ParseM.ensures_lookup?, if_pos hcond]
  exact ⟨rfl, _, rfl, Pool.get?_intern nofun, rfl⟩

/-- Nothing has been read of a header in a fresh scope. -/
theorem reading_start {e : Environment} {name : String} {brk : TokenKind} {base : Nat} (hoperands : s.operands = low)
    (henv : s.env = e.under ⟨name, []⟩) : Reading low s.env.depth [.params brk base] s [] [] := by
  refine ⟨hoperands, Pool.spells_nil, ⟨e, name, [], henv, rfl, Lexicon.spells_nil⟩, ?_⟩
  rw [hoperands]
  exact Nat.le_refl _

theorem phase_of_opens (h : o.Opens X K) :
    ∃ low, X.Fits low.length o.parsed.env.depth ∧ Phase X K N o.parsed.env.depth low o := by
  cases h with
  | @definition b depth name base K hturns hb ho =>
    obtain ⟨t, c, L, a, hcons, -, hturn, hafter⟩ := hturns.exists_turn
    obtain ⟨rfl, rfl⟩ := List.cons.inj (hcons.symm.trans hb)
    have hnext := conts_of_after hafter
    obtain ⟨hparsed, ha⟩ := turn_letName.of_eq_ok hturn
    rw [ha, ho] at hnext
    obtain ⟨rfl, rfl, rfl, -⟩ : base = b.parsed.operands.length ∧ depth = b.parsed.env.depth - 1 ∧ name = t.lexeme ∧ _ := by
      simpa using hnext
    have hdepth : b.parsed.env.depth - 1 + 2 = o.parsed.env.depth := by
      rw [hparsed, Environment.depth_under, Environment.depth_bind]
      rfl
    have henv : o.parsed.env = (b.parsed.env.bind t.lexeme (.function t.lexeme)).under ⟨t.lexeme, []⟩ :=
      congrArg Parsed.env hparsed
    exact ⟨b.parsed.operands, ⟨hdepth, rfl⟩,
      .header (H := [.params .equal _]) ho (reading_start (by rw [hparsed]) henv) nofun⟩
  | @function b base K hturns hb ho =>
    obtain ⟨t, c, L, a, hcons, -, hturn, hafter⟩ := hturns.exists_turn
    obtain ⟨rfl, rfl⟩ := List.cons.inj (hcons.symm.trans hb)
    have hnext := conts_of_after hafter
    have ha : a.next = [.params .colon base, .lambdaColon base] := List.append_cancel_right (hnext.symm.trans ho)
    obtain ⟨hparsed, rfl⟩ := turn_primary.of_eq_ok hturn _ _ ha
    have henv : o.parsed.env = b.parsed.env.under ⟨"lambda", []⟩ := congrArg Parsed.env hparsed
    exact ⟨b.parsed.operands, rfl,
      .header (H := [.params .colon _]) ho (reading_start (by rw [hparsed]) henv) nofun⟩
  | @clause b b' t base span K hturns hb hb' ht hnew hturns' =>
    obtain ⟨u, c, L, a, hcons, -, hturn, hafter⟩ := hturns.exists_turn
    obtain ⟨rfl, rfl⟩ := List.cons.inj (hb.symm.trans hcons)
    have hnext := conts_of_after hafter
    have ha : a.next = [.pattern, .ofColon, .ofEnd, .caseClauses base span] :=
      List.append_cancel_right (hnext.symm.trans hb')
    have henv : b'.parsed.env = b.parsed.env.under ⟨"case", []⟩ :=
      congrArg Parsed.env (turn_caseClauses.of_eq_ok hturn _ ha)
    obtain ⟨v, c, L, a', hcons, htoken, hturn', hafter'⟩ := hturns'.exists_turn
    obtain ⟨rfl, rfl⟩ := List.cons.inj (hb'.symm.trans hcons)
    obtain rfl : t = v := by simpa using htoken
    obtain ⟨hnil, id, hoperands, hget, henv'⟩ := (turn_pattern ht hnew).of_eq_ok hturn'
    have hword : Lexicon.Spells [(t.lexeme, { Word.value t.lexeme 0 with patterns := [id] })] [t.lexeme] :=
      ⟨List.Subset.refl _, fun _ => .value rfl rfl rfl .nil⟩
    have hscope : o.parsed.env.Spells o.parsed.env.depth [t.lexeme] :=
      ⟨b.parsed.env, "case", _, by rw [henv', henv, Environment.bind_under]; rfl, rfl, hword⟩
    have hbrackets : Brackets b'.parsed.operands.length [] o.parsed.operands.length := by
      rw [hoperands]
      exact Nat.le_succ _
    have hconts : o.conts = [] ++ (Construct.clause.waiting ++ .caseClauses base span :: K) := by
      rw [conts_of_after hafter', hnil]
      rfl
    have hreading : Reading b'.parsed.operands o.parsed.env.depth [] o.parsed [id] [t.lexeme] :=
      ⟨hoperands, Pool.spells_nil.ident hget, hscope, hbrackets⟩
    exact ⟨_, trivial, .header hconts hreading fun _ => ⟨rfl, rfl⟩⟩

/-! ### Whole constructs -/

/-- When a construct closes, what it records of its header is the names of its patterns, left to right, if they are
distinct and no definition in the scope of the construct has one of them. -/
theorem recorded_names (ho : o.Opens X K) (hrun : ReflTransGen (Within K o.parsed.env.depth N) o m) (hturns : m.Turns m')
    (hclosed : m'.conts = K) :
    (∃ ns ps, m'.parsed.Records X ns ps) ∧ ∀ ns ps, m'.parsed.Records X ns ps →
      (m'.parsed.pool.params ps).Nodup → (∀ x ∈ m'.parsed.pool.params ps, ¬ N x) → ns = m'.parsed.pool.params ps := by
  obtain ⟨low, hX, hphase⟩ := phase_of_opens ho
  have hlt : ¬ K.length < m'.conts.length := by
    rw [hclosed]
    exact Nat.lt_irrefl _
  obtain ⟨ids, xs, hconts, hbody⟩ :=
    ((hphase.run hrun).turn hturns fun h => absurd h hlt).resolve_left fun h => hlt h.length_lt
  obtain ⟨t, c, L, a, hcons, -, hturn, -⟩ := hturns.exists_turn
  obtain ⟨rfl, rfl⟩ := List.cons.inj (hcons.symm.trans hconts)
  obtain ⟨ns, ps, hrecords, hnames⟩ := hbody.closes hX hturn
  refine ⟨⟨ns, ps, hrecords⟩, fun ns' ps' hrecords' => ?_⟩
  obtain ⟨rfl, rfl⟩ := hrecords.unique hrecords'
  exact hnames

/-- The last moment of a run through a construct, with at most `n` moves, where the parse is given the tokens in turn. -/
def through (K : List Cont) (d : Nat) (names : List String) : Nat → List Token → Moment → Option Moment
  | 0, _, m => some m
  | n + 1, ts, m =>
    if m.letAllowed ∧ (m.defines? d).all (· ∈ names) then
      match m.next, ts with
      | .goes m', ts => if K.length < m'.conts.length then through K d names n ts m' else some m
      | .rests, t :: ts =>
        if m.root = none ∧ K.length < m.conts.length then through K d names n ts { m with token := some t, cls := .error }
        else some m
      | _, _ => some m
    else none

theorem within_of_through {names : List String} {n : Nat} {ts : List Token} (h : through K d names n ts o = some m) :
    ReflTransGen (Within K d (· ∈ names)) o m := by
  induction n generalizing ts o with
  | zero =>
    cases h
    exact .refl
  | succ n ih =>
    unfold through at h
    split at h
    · next hok =>
      have hnamed : ∀ name, o.defines? d = some name → name ∈ names := by
        intro name hname
        simpa [hname] using hok.2
      split at h
      · next m' ts hnext =>
        split at h
        · next hlt => exact .head ⟨.turn hnext, hlt, hok.1, hnamed⟩ (ih h)
        · cases h
          exact .refl
      · next t ts hnext =>
        split at h
        · next hrest => exact .head ⟨.feed t hnext hrest.1, hrest.2, hok.1, hnamed⟩ (ih h)
        · cases h
          exact .refl
      · cases h
        exact .refl
    · cases h

/-- The name of a definition, at the start of a program. -/
def letBegins : Moment :=
  ⟨some ⟨.ident, "f", ⟨0, 4, 5⟩⟩, .error, [.letName, .exprsNext .dot 0, .program], ⟨.empty, [], .initial, #[]⟩, none⟩

/-- `[x y] z = let g = y.. g` -/
def letTokens : List Token :=
  [⟨.leftBracket, "[", ⟨0, 6, 7⟩⟩, ⟨.ident, "x", ⟨0, 7, 8⟩⟩, ⟨.ident, "y", ⟨0, 9, 10⟩⟩, ⟨.rightBracket, "]", ⟨0, 10, 11⟩⟩,
    ⟨.ident, "z", ⟨0, 12, 13⟩⟩, ⟨.equal, "=", ⟨0, 14, 15⟩⟩, ⟨.keyLet, "let", ⟨0, 16, 19⟩⟩, ⟨.ident, "g", ⟨0, 20, 21⟩⟩,
    ⟨.equal, "=", ⟨0, 22, 23⟩⟩, ⟨.ident, "y", ⟨0, 24, 25⟩⟩, ⟨.dot, ".", ⟨0, 25, 26⟩⟩, ⟨.dot, ".", ⟨0, 26, 27⟩⟩,
    ⟨.ident, "g", ⟨0, 28, 29⟩⟩, .eof ⟨0, 29, 29⟩]

/-- `let f [x y] z = let g = y.. g` records `x`, `y` and `z`. -/
theorem recorded_names_letTokens : ∃ o m m' : Moment,
    o.Opens (.definition 0 "f" 0) [.exprsNext .dot 0, .program] ∧
      ReflTransGen (Within [.exprsNext .dot 0, .program] o.parsed.env.depth (· ∈ ["g"])) o m ∧ m.Turns m' ∧
      m'.conts = [.exprsNext .dot 0, .program] ∧ m'.parsed.Records (.definition 0 "f" 0) ["x", "y", "z"] [3, 4] := by
  let K : List Cont := [.exprsNext .dot 0, .program]
  have hrun : (letBegins.following.bind fun o => (through K o.parsed.env.depth ["g"] 60 letTokens o).bind fun m =>
      m.following.map fun m' => (o.conts, m'.conts,
        ((m'.parsed.env.top.get? "f").bind Word.closure).map Closure.pattern, m'.parsed.pool.params [3, 4])) =
      some (.params .equal 0 :: .letEqual 0 "f" 0 :: K, K, some [3, 4], ["x", "y", "z"]) := by decide +kernel
  obtain ⟨o, ho, hrun⟩ := Option.bind_eq_some_iff.1 hrun
  obtain ⟨m, hm, hrun⟩ := Option.bind_eq_some_iff.1 hrun
  obtain ⟨m', hm', hrun⟩ := Option.map_eq_some_iff.1 hrun
  obtain ⟨hconts, hconts', hpattern, hparams⟩ := by simpa only [Prod.mk.injEq] using hrun
  have hopens : o.Opens (.definition 0 "f" 0) K := .definition (turns_of_following ho) rfl hconts
  have hwithin := within_of_through hm
  have hturns := turns_of_following hm'
  obtain ⟨⟨ns, ps, hrecords⟩, hnames⟩ := recorded_names hopens hwithin hturns hconts'
  obtain rfl : ps = [3, 4] := by
    cases hrecords with
    | definition hw hclosure => simpa [hw, hclosure] using hpattern
  have hns : ns = ["x", "y", "z"] := by
    rw [hnames ns [3, 4] hrecords (by rw [hparams]; decide) (by rw [hparams]; decide), hparams]
  exact ⟨o, m, m', hopens, hwithin, hturns, hconts', hns ▸ hrecords⟩

/-- An angle that begins a function, in a program. -/
def functionBegins : Moment :=
  ⟨some ⟨.leftAngle, "<", ⟨0, 0, 1⟩⟩, .error, [.primary, .binary [], .exprsNext .dot 0, .program],
    ⟨.empty, [], .initial, #[]⟩, none⟩

/-- `x: let x = 1>` -/
def redefiningTokens : List Token :=
  [⟨.ident, "x", ⟨0, 1, 2⟩⟩, ⟨.colon, ":", ⟨0, 2, 3⟩⟩, ⟨.keyLet, "let", ⟨0, 4, 7⟩⟩, ⟨.ident, "x", ⟨0, 8, 9⟩⟩,
    ⟨.equal, "=", ⟨0, 10, 11⟩⟩, ⟨.num, "1", ⟨0, 12, 13⟩⟩, ⟨.rightAngle, ">", ⟨0, 13, 14⟩⟩]

/-- `<x: let x = 1>` does not record the name of its pattern: the definition has taken the place of the parameter. -/
theorem recorded_names_redefined : ∃ o m m' : Moment,
    o.Opens (.function 0) [.binary [], .exprsNext .dot 0, .program] ∧
      ReflTransGen (Within [.binary [], .exprsNext .dot 0, .program] o.parsed.env.depth (· ∈ ["x"])) o m ∧ m.Turns m' ∧
      m'.conts = [.binary [], .exprsNext .dot 0, .program] ∧ m'.parsed.Records (.function 0) [] [1] ∧
      m'.parsed.pool.params [1] = ["x"] := by
  let K : List Cont := [.binary [], .exprsNext .dot 0, .program]
  have hrun : (functionBegins.following.bind fun o =>
      (through K o.parsed.env.depth ["x"] 60 redefiningTokens o).bind fun m => m.following.map fun m' =>
        ((o.conts, m'.conts, m'.parsed.operands), [7, 5, 6].map m'.parsed.pool.get?, m'.parsed.pool.params [1])) =
      some ((.params .colon 0 :: .lambdaColon 0 :: K, K, [7]),
        [some (.branch .lambda [5, 4, 6]), some (.branch .list []), some (.branch .list [1])], ["x"]) := by
    decide +kernel
  obtain ⟨o, ho, hrun⟩ := Option.bind_eq_some_iff.1 hrun
  obtain ⟨m, hm, hrun⟩ := Option.bind_eq_some_iff.1 hrun
  obtain ⟨m', hm', hrun⟩ := Option.map_eq_some_iff.1 hrun
  obtain ⟨⟨hconts, hconts', hoperands⟩, hnodes, hparams⟩ := by
    simpa only [Prod.mk.injEq, List.map_cons, List.map_nil, List.cons.injEq] using hrun
  obtain ⟨hlambda, hnames, hpattern, -⟩ := hnodes
  exact ⟨o, m, m', .function (turns_of_following ho) rfl hconts, within_of_through hm, turns_of_following hm', hconts',
    .function hoperands hlambda hnames .nil hpattern, hparams⟩

end Moment

end Linefold
