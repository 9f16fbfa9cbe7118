import Linefold.Proofs.Closedness.Levels
import Linefold.Proofs.Respacing.Texts
import Linefold.Proofs.Turns.Steps

/-!
# Scopes come and go with positions

Every scope but the global one belongs to a suspended position, which will close it (`Balanced`). The scope
under the body of a definition is the one that was opened with the definition's name: it has been there ever
since (`Met`), and below it nothing has changed. So the finished word replaces its placeholder.
-/

namespace Linefold

open Relation (ReflTransGen)

/-! ### Environments under a scope -/

/-- The later word replaces the earlier one. -/
theorem Lexicon.insert_insert (l : Lexicon) (name : String) (v w : Word) :
    (l.insert name v).insert name w = l.insert name w := by
  induction l with
  | nil => simp [Lexicon.insert]
  | cons nu l ih => by_cases hn : nu.1 = name <;> simp [Lexicon.insert, hn, ih]

namespace Environment

variable {e : Environment} {scope : Scope} {name : String} {w v : Word} {d : Nat}

@[simp] theorem depth_under : (e.under scope).depth = e.depth + 1 := rfl

@[simp] theorem limit_under : (e.under scope).limit = e.limit := rfl

theorem lookup?_under : (e.under scope).lookup? name = (scope.get? name).or (e.lookup? name) := by
  unfold lookup? under
  rw [List.findSome?_cons]
  cases scope.get? name <;> simp

@[simp] theorem limit_bindAt : (e.bindAt d name w).limit = e.limit := by
  unfold bindAt
  split
  · rfl
  · split <;> rfl

@[simp] theorem depth_bindAt : (e.bindAt d name w).depth = e.depth := congrArg (· + 1) length_inner_bindAt

theorem bind_under : (e.under scope).bind name w = e.under (scope.bind name w) := rfl

@[simp] theorem depth_bind : (e.bind name w).depth = e.depth := congrArg (· + 1) length_inner_bind

theorem inner_bind_eq_nil (h : e.inner = []) : (e.bind name w).inner = [] :=
  List.eq_nil_of_length_eq_zero (length_inner_bind.trans (by rw [h]; rfl))

theorem bindAt_of_depth (h : d + 1 = e.depth) : e.bindAt d name w = e.bind name w := by
  obtain rfl : d = e.inner.length := Nat.succ.inj h
  exact e.bindAt_length

theorem under_inj {e' : Environment} {scope' : Scope} (h : e.under scope = e'.under scope') :
    e = e' ∧ scope = scope' := by
  obtain ⟨inner, globals, limit⟩ := e
  obtain ⟨inner', globals', limit'⟩ := e'
  obtain ⟨hinner, rfl, rfl⟩ := Environment.mk.inj h
  obtain ⟨rfl, rfl⟩ := List.cons.inj hinner
  exact ⟨rfl, rfl⟩

theorem bind_bind : (e.bind name v).bind name w = e.bind name w := by
  unfold bind modifyTop
  cases e.inner with
  | nil => simp [Scope.bind, Lexicon.insert_insert]
  | cons s inner => simp [Scope.bind, Lexicon.insert_insert]

end Environment

/-! ### Positions and the scopes that they will close -/

/-- The scopes are those that the positions will close, over the global one; `R` holds of every definition, of
the positions below it and of the environment below its scope. -/
def Balanced (R : Nat → String → List Cont → Environment → Prop) : List Cont → Environment → Prop
  | [], e => e.inner = []
  | c :: K, e =>
    match c with
    | .letEqual d name _ | .letBody d name _ =>
      ∃ (e' : Environment) (lexicon : Lexicon), e = e'.under ⟨name, lexicon⟩ ∧ R d name K e' ∧ Balanced R K e'
    | .lambdaColon _ | .lambdaEnd _ | .ofEnd => ∃ (e' : Environment) (scope : Scope), e = e'.under scope ∧ Balanced R K e'
    | _ => Balanced R K e

variable {R R' : Nat → String → List Cont → Environment → Prop} {K : List Cont} {e e' : Environment} {c : Cont}
  {a : Turn} {t : Token} {ds : List Diagnostic} {name : String} {w : Word}

namespace Balanced

theorem of_scopes (hc : c.scopes = 0) : Balanced R (c :: K) e ↔ Balanced R K e := by
  cases c <;> first | exact Iff.rfl | cases hc

/-- There is a scope for a position that closes one. -/
theorem exists_under (hc : c.scopes = 1) (h : Balanced R (c :: K) e) :
    ∃ (e' : Environment) (scope : Scope), e = e'.under scope ∧ Balanced R K e' := by
  cases c with
  | letEqual | letBody =>
    obtain ⟨e', lexicon, rfl, -, h⟩ := h
    exact ⟨e', _, rfl, h⟩
  | lambdaColon | lambdaEnd | ofEnd => exact h
  | _ => cases hc

theorem depth_eq (h : Balanced R K e) : e.depth = 1 + openScopes K := by
  induction K generalizing e with
  | nil =>
    have h : e.inner = [] := h
    simp [Environment.depth, openScopes, h]
  | cons c K ih =>
    have hc : c.scopes = 0 ∨ c.scopes = 1 := by cases c <;> simp [Cont.scopes]
    unfold openScopes
    rcases hc with hc | hc
    · rw [ih ((of_scopes hc).1 h), hc]
      omega
    · obtain ⟨e', scope, rfl, h'⟩ := h.exists_under hc
      rw [Environment.depth_under, ih h', hc]
      omega

theorem bind (h : Balanced R K e) : Balanced R K (e.bind name w) := by
  induction K with
  | nil => exact Environment.inner_bind_eq_nil h
  | cons c K ih =>
    cases c with
    | letEqual | letBody =>
      obtain ⟨e', lexicon, rfl, hR, h⟩ := h
      exact ⟨e', _, Environment.bind_under, hR, h⟩
    | lambdaColon | lambdaEnd | ofEnd =>
      obtain ⟨e', scope, rfl, h⟩ := h
      exact ⟨e', _, Environment.bind_under, h⟩
    | _ => exact ih h

theorem remembers (h : Balanced R K e) (hmarks : e.Remembers e') : Balanced R K e' := by
  induction hmarks with
  | refl => exact h
  | step _ _ ih => exact ih h.bind

/-- Only what holds of the environments below the innermost scope matters. -/
theorem mono (h : Balanced R K e) (hR : ∀ d name K e', e'.depth < e.depth → R d name K e' → R' d name K e') :
    Balanced R' K e := by
  induction K generalizing e with
  | nil => exact h
  | cons c K ih =>
    have below {e' : Environment} {scope : Scope} (he : e = e'.under scope) (h : Balanced R K e') :
        Balanced R' K e' := by
      have hlt : e'.depth < e.depth := by simp [he]
      exact ih h fun d name K e'' he'' => hR d name K e'' (Nat.lt_trans he'' hlt)
    cases c with
    | letEqual | letBody =>
      obtain ⟨e', lexicon, he, hdef, h⟩ := h
      exact ⟨e', lexicon, he, hR _ _ _ _ (by simp [he]) hdef, below he h⟩
    | lambdaColon | lambdaEnd | ofEnd =>
      obtain ⟨e', scope, he, h⟩ := h
      exact ⟨e', scope, he, below he h⟩
    | _ => exact ih h hR

end Balanced

/-! ### Turns -/

theorem Still.balances (h : Still t e c a) (hb : Balanced R (c :: K) e) : Balanced R (a.next ++ K) e := by
  cases h with
  | endOfList hc | item hc => cases hc <;> exact hb
  | _ => exact hb

/-- A turn keeps the scopes balanced; a definition that it opens has to satisfy `R`. -/
theorem Acts.balances (h : Acts t e c a e' ds) (hR : ∀ d name K e, R d name K e → d + 1 = e.depth)
    (hnew : c = .letName → R (e.depth - 1) t.lexeme K (e.bind t.lexeme (.function t.lexeme)))
    (hb : Balanced R (c :: K) e) : Balanced R (a.next ++ K) e' := by
  cases h with
  | still h => exact h.balances hb
  | unknown => exact hb
  | letName => exact ⟨_, _, rfl, hnew rfl, Balanced.bind hb⟩
  | letBody he =>
    obtain ⟨e'', lexicon, he', hdef, hb⟩ := hb
    obtain rfl := (Environment.under_inj (he.symm.trans he')).1
    rw [Environment.bindAt_of_depth (hR _ _ _ _ hdef)]
    exact hb.bind
  | param | patternName => exact Balanced.bind hb
  | paramList _ hmarks => exact Balanced.remembers hb hmarks
  | lambda | clause => exact ⟨_, _, rfl, hb⟩
  | lambdaEnd _ he | ofEnd he =>
    obtain ⟨e'', scope, he', hb⟩ := hb
    obtain rfl := (Environment.under_inj (he.symm.trans he')).1
    exact hb

theorem Acts.env_of_letName (h : Acts t e .letName a e' ds) :
    e' = (e.bind t.lexeme (.function t.lexeme)).under ⟨t.lexeme, []⟩ := by
  cases h with
  | letName => rfl
  | still h => cases h with
    | endOfList hc | item hc => cases hc

theorem Environment.Remembers.sameSize (h : e.Remembers e') : e'.limit = e.limit ∧ e'.depth = e.depth := by
  induction h with
  | refl => exact ⟨rfl, rfl⟩
  | step _ _ ih => exact ⟨ih.1.trans Environment.limit_bind, ih.2.trans Environment.depth_bind⟩

/-- No turn opens a scope beyond the limit. -/
theorem Acts.depth_le (h : Acts t e c a e' ds) (hd : e.depth ≤ e.limit + 1) :
    e'.limit = e.limit ∧ e'.depth ≤ e'.limit + 1 := by
  cases h with
  | still | unknown => exact ⟨rfl, hd⟩
  | letName _ hle | lambda _ hle | clause _ hle => simpa using hle
  | letBody he =>
    subst he
    rw [Environment.limit_bindAt, Environment.depth_bindAt]
    exact ⟨rfl, Nat.le_of_succ_le hd⟩
  | param | patternName => simpa using hd
  | paramList _ hmarks =>
    obtain ⟨hlimit, hdepth⟩ := hmarks.sameSize
    rw [hlimit, hdepth]
    exact ⟨rfl, hd⟩
  | lambdaEnd _ he | ofEnd he =>
    subst he
    exact ⟨rfl, Nat.le_of_succ_le hd⟩

theorem Acts.env_of_letBody {d base : Nat} (h : Acts t e (.letBody d name base) a e' ds) :
    ∃ body pattern scope, ∃ e₀ : Environment, e = e₀.under scope ∧
      e' = e₀.bindAt d name (.defined name body pattern scope) := by
  cases h with
  | letBody he => exact ⟨_, _, _, _, he, rfl⟩
  | still h => cases h with
    | endOfList hc | item hc => cases hc

/-! ### Histories -/

namespace Moment

/-- A turn, or a further token for a parse at rest. -/
inductive Moves (m : Moment) : Moment → Prop where
  | turn {m'} : m.Turns m' → Moves m m'
  | feed (t : Token) : m.next = .rests → m.root = none → Moves m { m with token := some t, cls := .error }

variable {start o m m' : Moment} {d : Nat}

/-- The definition of a name was met at `o`, above the positions `K` and at depth `d`. Its scope was opened then
and has not been left up to `m`. -/
structure Met (start o m : Moment) (d : Nat) (name : String) (K : List Cont) : Prop where
  reached : ReflTransGen Moves start o
  conts : o.conts = .letName :: K
  token : ∃ t, o.token = some t ∧ t.lexeme = name
  depth : d + 1 = o.parsed.env.depth
  stays : ∃ o', o.Turns o' ∧
    o'.parsed.env = (o.parsed.env.bind name (.function name)).under ⟨name, []⟩ ∧
    ReflTransGen (fun x y => x.Moves y ∧ o'.parsed.env.depth ≤ y.parsed.env.depth) o' m

/-- The environment under the scope of a definition is the one in which it was met, with a placeholder. -/
def Placed (start m : Moment) (d : Nat) (name : String) (K : List Cont) (e : Environment) : Prop :=
  ∃ o, Met start o m d name K ∧ e = o.parsed.env.bind name (.function name)

theorem Placed.depth_eq (h : Placed start m d name K e) : d + 1 = e.depth := by
  obtain ⟨o, hmet, rfl⟩ := h
  rw [Environment.depth_bind]
  exact hmet.depth

theorem Placed.move (h : Placed start m d name K e) (hm : m.Moves m') (he : e.depth < m'.parsed.env.depth) :
    Placed start m' d name K e := by
  obtain ⟨o, ⟨hreached, hconts, htoken, hdepth, o', hopens, hscope, hstays⟩, rfl⟩ := h
  refine ⟨o, ⟨hreached, hconts, htoken, hdepth, o', hopens, hscope, hstays.tail ⟨hm, ?_⟩⟩, rfl⟩
  rw [hscope, Environment.depth_under]
  exact he

/-- The innermost position has opened the scope of a definition. -/
theorem placed_of_letName (hreached : ReflTransGen Moves start m) (hconts : m.conts = .letName :: K)
    (htoken : m.token = some t) (hturns : m.Turns m')
    (henv : m'.parsed.env = (m.parsed.env.bind t.lexeme (.function t.lexeme)).under ⟨t.lexeme, []⟩) :
    Placed start m' (m.parsed.env.depth - 1) t.lexeme K (m.parsed.env.bind t.lexeme (.function t.lexeme)) :=
  ⟨m, ⟨hreached, hconts, ⟨t, htoken, rfl⟩, Nat.succ_pred (Nat.succ_ne_zero _), m', hturns, henv, .refl⟩, rfl⟩

/-- All scopes of a parse are those of its positions. -/
def Fair (start m : Moment) : Prop := Balanced (Placed start m) m.conts m.parsed.env

theorem Fair.turn (h : Fair start m) (hreached : ReflTransGen Moves start m) (hturns : m.Turns m') :
    Fair start m' := by
  obtain ⟨t, c, K, a, ds, hconts, htoken, hacts, -, hafter⟩ := hturns.acts
  unfold Fair at h
  rw [hconts] at h
  -- A definition may be new, and then it is placed after the turn only.
  let R d name K e := Placed start m d name K e ∨ Placed start m' d name K e
  have hR : ∀ d name K e, R d name K e → d + 1 = e.depth := fun _ _ _ _ h => h.elim Placed.depth_eq Placed.depth_eq
  have hnew : c = .letName →
      R (m.parsed.env.depth - 1) t.lexeme K (m.parsed.env.bind t.lexeme (.function t.lexeme)) := by
    rintro rfl
    rcases htoken with htoken | ⟨-, ⟨⟩⟩
    exact .inr (placed_of_letName hreached hconts htoken hturns hacts.env_of_letName)
  have hb := hacts.balances hR hnew (h.mono fun _ _ _ _ _ h => .inl h)
  rw [← conts_of_after hafter] at hb
  exact hb.mono fun _ _ _ _ he h => h.elim (fun h => h.move (.turn hturns) he) id

theorem Fair.move (h : Fair start m) (hreached : ReflTransGen Moves start m) (hm : m.Moves m') : Fair start m' := by
  cases id hm with
  | turn hturns => exact h.turn hreached hturns
  | feed t => exact Balanced.mono h fun _ _ _ _ he hp => hp.move hm he

theorem fair_of_reached (h : Fair start start) (hreached : ReflTransGen Moves start m) : Fair start m := by
  induction hreached with
  | refl => exact h
  | tail hreached hm ih => exact ih.move hreached hm

theorem limit_of_reached (hd : start.parsed.env.depth ≤ start.parsed.env.limit + 1)
    (hreached : ReflTransGen Moves start m) :
    m.parsed.env.limit = start.parsed.env.limit ∧ m.parsed.env.depth ≤ m.parsed.env.limit + 1 := by
  induction hreached with
  | refl => exact ⟨rfl, hd⟩
  | tail _ hm ih =>
    cases hm with
    | turn hturns =>
      obtain ⟨t, c, K, a, ds, -, -, hacts, -⟩ := hturns.acts
      obtain ⟨hlimit, hd⟩ := hacts.depth_le ih.2
      exact ⟨hlimit.trans ih.1, hd⟩
    | feed t => exact ih

/-- A turn never misses the scope that its position closes. -/
theorem Fair.not_missingScope {e : Error} {s : Parsed} (h : Fair start m) (hfails : m.next = .fails (.error e) s)
    (owner : ScopeOwner) : e ≠ .internal (.missingScope owner) := by
  rintro rfl
  obtain ⟨c, K, hconts, hblames⟩ := blames_of_fails hfails
  obtain ⟨hc, hinner⟩ := hblames owner rfl
  unfold Fair at h
  rw [hconts] at h
  obtain ⟨e', scope, henv, -⟩ := h.exists_under hc
  rw [henv] at hinner
  cases hinner

/-- The end of a definition: its scope is closed, and in the scope in which the definition was met the finished
word replaces the placeholder. -/
theorem Fair.letBody {base : Nat} (h : Fair start m) (hconts : m.conts = .letBody d name base :: K) :
    ∃ o lexicon, Met start o m d name K ∧
      m.parsed.env = (o.parsed.env.bind name (.function name)).under ⟨name, lexicon⟩ ∧
      ∀ m', m.Turns m' → ∃ body pattern,
        m'.parsed.env = o.parsed.env.bind name (.defined name body pattern ⟨name, lexicon⟩) := by
  unfold Fair at h
  rw [hconts] at h
  obtain ⟨e', lexicon, henv, ⟨o, hmet, rfl⟩, -⟩ := h
  refine ⟨o, lexicon, hmet, henv, fun m' hturns => ?_⟩
  obtain ⟨t, c, K', a, ds, hconts', -, hacts, -⟩ := hturns.acts
  obtain ⟨rfl, rfl⟩ := List.cons.inj (hconts.symm.trans hconts')
  obtain ⟨body, pattern, scope, e', he', hbound⟩ := hacts.env_of_letBody
  obtain ⟨rfl, rfl⟩ := Environment.under_inj (he'.symm.trans henv)
  have hdepth : d + 1 = (o.parsed.env.bind name (.function name)).depth :=
    hmet.depth.trans Environment.depth_bind.symm
  rw [hbound, Environment.bindAt_of_depth hdepth, Environment.bind_bind]
  exact ⟨body, pattern, rfl⟩

end Moment

/-! ### Parse states -/

namespace ParseState

open Moment

variable {start : Moment} {s : ParseState} {p : Pool} {g : Scope}

/-- The moment at which a parse rests after a token of a class. -/
def moment (s : ParseState) (p : Pool) (cls : TokenClass) : Moment :=
  ⟨none, cls, s.conts, ⟨p, s.operands, s.env, s.errors⟩, none⟩

/-- The parse got where it is by turns. -/
def Came (start : Moment) (s : ParseState) (p : Pool) : Prop :=
  match s.status with
  | .parsing => Nested s.conts ∧ Settled s.conts ∧ ∃ cls, ReflTransGen Moves start (s.moment p cls)
  | .complete _ => ∃ m, ReflTransGen Moves start m ∧ m.conts = [] ∧ m.parsed.env = s.env
  | .failed e => ∃ m s', ReflTransGen Moves start m ∧ m.next = .fails (.error e) s'

/-- Before its first token a parse has come to where it starts. -/
theorem came_initial (env : Environment) (p : Pool) : (initial env).Came ((initial env).moment p .error) p :=
  ⟨⟨rfl, rfl⟩, rfl, .error, .refl⟩

theorem moves_of_turns {m m' : Moment} (h : ReflTransGen Turns m m') : ReflTransGen Moves m m' :=
  ReflTransGen.mono (fun _ _ h => .turn h) _ _ h

/-- A further token is given to a parse at rest. -/
theorem reached_given (hs : s.status = .parsing) (h : s.Came start p) (t : Token) :
    Nested s.conts ∧ ReflTransGen Moves start (s.given p t) := by
  unfold Came at h
  rw [hs] at h
  obtain ⟨hN, hsettled, cls, hreached⟩ := h
  refine ⟨hN, hreached.tail (.feed (m := s.moment p cls) t ?_ rfl)⟩
  unfold moment
  cases hK : s.conts with
  | nil => rfl
  | cons c K =>
    rw [hK] at hsettled
    exact next_eq_rests hsettled

theorem Came.step (h : s.Came start p) : (s.step p t).2.1.Came start (s.step p t).2.2 := by
  by_cases hs : s.status = .parsing
  · obtain ⟨hN, hreached⟩ := reached_given hs h t
    rcases step_turns hs hN p t with ⟨m, htakes, hstep, hm⟩ | ⟨e, s', ⟨m, hm, hfails⟩, hstep⟩
    · have hreached := hreached.trans (moves_of_turns htakes.turns)
      have htoken := htakes.token_eq_none
      rw [hstep]
      obtain ⟨token, cls, conts, parsed, root⟩ := m
      obtain rfl : token = none := htoken
      rcases hm with ⟨rfl, hN, hsettled⟩ | ⟨hconts, hroot⟩
      · exact ⟨hN, hsettled, cls, hreached⟩
      · obtain ⟨root, rfl⟩ := Option.isSome_iff_exists.1 hroot
        exact ⟨_, hreached, hconts, rfl⟩
    · rw [hstep]
      exact ⟨m, s', hreached.trans (moves_of_turns hm), hfails⟩
  · rw [step_of_ne_parsing hs]
    exact h

theorem Came.run (h : s.Came start p) (ts : List Token) : (s.run p ts).1.Came start (s.run p ts).2 := by
  induction ts generalizing s p with
  | nil => exact h
  | cons t ts ih => exact ih h.step

/-! ### Tokens of a text -/

/-- Every token ends the text or was scanned with the operator words of the parse so far. -/
def Scanned (s : ParseState) (p : Pool) : List Token → Prop
  | [] => True
  | t :: ts => (t.kind = .eof ∨ ∃ scanner rest, Scanner.scan scanner s.env.globals = (some (.token t), rest)) ∧
    Scanned (s.step p t).2.1 (s.step p t).2.2 ts

/-- Scanned tokens leave the operator words alone. -/
theorem operator?_run {ts : List Token} (h : s.Respaced g s) (hts : s.Scanned p ts) (name : String) :
    (s.run p ts).1.env.globals.operator? name = g.operator? name := by
  induction ts generalizing s p with
  | nil => exact h.words name
  | cons t ts ih =>
    obtain ⟨ht, hts⟩ := hts
    have hplain : t.Plain g := by
      rcases ht with ht | ⟨scanner, rest, hscan⟩
      · exact fun hident => by simp [ht] at hident
      · exact Scanner.plain_of_scan ((Scanner.scan_congr h.words scanner).symm.trans hscan)
    exact ih (h.step (.refl p) (.refl g t) hplain).1 hts

/-! ### Whole runs -/

/-- While a parse goes on, every scope but the global one belongs to a suspended position and there are no more
than the limit allows; the end of a definition closes the scope that the definition opened, and the finished word
takes the place of its placeholder, where the definition was met. No scope is ever missed. At the end of the
program only the global scope is left, with the operator words that it had if all tokens were scanned. -/
theorem run_balanced (env : Environment) (henv : env.inner = []) (p : Pool) (ts : List Token) :
    let s := ((initial env).run p ts).1
    let p' := ((initial env).run p ts).2
    (s.status = .parsing →
      s.env.depth = 1 + openScopes s.conts ∧ 1 ≤ s.env.depth ∧ s.env.depth ≤ env.limit + 1 ∧
      ∀ t m d name base K, ReflTransGen Turns (s.given p' t) m → m.conts = .letBody d name base :: K →
        ∃ o lexicon, Met ((initial env).moment p .error) o m d name K ∧
          m.parsed.env = (o.parsed.env.bind name (.function name)).under ⟨name, lexicon⟩ ∧
          ∀ m', m.Turns m' → ∃ body pattern,
            m'.parsed.env = o.parsed.env.bind name (.defined name body pattern ⟨name, lexicon⟩)) ∧
    (∀ owner, s.status ≠ .failed (.internal (.missingScope owner))) ∧
    (∀ root, s.status = .complete root → s.env.inner = [] ∧
      ((initial env).Scanned p ts → ∀ name tag, env.globals.operator? name = some tag →
        s.env.globals.operator? name = some tag)) := by
  intro s p'
  let start := (initial env).moment p .error
  have hstart : Fair start start := henv
  have hcame : s.Came start p' := (came_initial env p).run ts
  have hdepth : start.parsed.env.depth ≤ start.parsed.env.limit + 1 := by
    show env.inner.length + 1 ≤ env.limit + 1
    rw [henv]
    exact Nat.succ_le_succ (Nat.zero_le _)
  refine ⟨fun hs => ?_, fun owner hs => ?_, fun root hs => ?_⟩
  · obtain ⟨hN, hgiven⟩ := reached_given hs hcame ⟨.eof, "", .zero⟩
    have hbalanced : Balanced _ s.conts s.env := fair_of_reached hstart hgiven
    obtain ⟨hlimit, hle⟩ := limit_of_reached hdepth hgiven
    have hle : s.env.depth ≤ env.limit + 1 := by
      rw [hlimit] at hle
      exact hle
    refine ⟨hbalanced.depth_eq, Nat.succ_pos _, hle, fun t m d name base K hturns hconts => ?_⟩
    have hreached := (reached_given hs hcame t).2.trans (moves_of_turns hturns)
    exact (fair_of_reached hstart hreached).letBody hconts
  · unfold Came at hcame
    rw [hs] at hcame
    obtain ⟨m, s', hreached, hfails⟩ := hcame
    exact (fair_of_reached hstart hreached).not_missingScope hfails owner rfl
  · refine ⟨?_, fun hscanned name tag htag => ?_⟩
    · unfold Came at hcame
      rw [hs] at hcame
      obtain ⟨m, hreached, hconts, henv'⟩ := hcame
      have hfair := fair_of_reached hstart hreached
      unfold Fair at hfair
      rw [hconts, henv'] at hfair
      exact hfair
    · exact (operator?_run (.initial fun _ => rfl) hscanned name).trans htag

/-- `let f x = x` -/
def openDefinition : List Token :=
  [⟨.keyLet, "let", ⟨0, 0, 3⟩⟩, ⟨.ident, "f", ⟨0, 4, 5⟩⟩, ⟨.ident, "x", ⟨0, 6, 7⟩⟩, ⟨.equal, "=", ⟨0, 8, 9⟩⟩,
    ⟨.ident, "x", ⟨0, 10, 11⟩⟩]

/-- The end of the text ends the definition after two turns. -/
theorem run_balanced_openDefinition :
    let s := ((initial .initial).run .empty openDefinition).1
    let p := ((initial .initial).run .empty openDefinition).2
    Environment.initial.inner = [] ∧ s.status = .parsing ∧ s.env.depth = 1 + openScopes s.conts ∧
      openScopes s.conts = 1 ∧
      ∃ o m lexicon, ReflTransGen Turns (s.given p (.eof .zero)) m ∧
        m.conts = [.letBody 0 "f" 0, .exprsNext .dot 0, .program] ∧
        Met ((initial .initial).moment .empty .error) o m 0 "f" [.exprsNext .dot 0, .program] ∧
        m.parsed.env = (o.parsed.env.bind "f" (.function "f")).under ⟨"f", lexicon⟩ := by
  intro s p
  have hs : s.status = .parsing := by decide +kernel
  obtain ⟨hdepth, -, -, hlet⟩ := (run_balanced .initial rfl .empty openDefinition).1 hs
  let m₀ := s.given p (.eof .zero)
  have hconts : (m₀.following.bind following).map Moment.conts =
      some [.letBody 0 "f" 0, .exprsNext .dot 0, .program] := by decide +kernel
  obtain ⟨m, hm, hconts⟩ := Option.map_eq_some_iff.1 hconts
  obtain ⟨m₁, hm₁, hm⟩ := Option.bind_eq_some_iff.1 hm
  have hturns : ReflTransGen Turns m₀ m := (ReflTransGen.single (turns_of_following hm₁)).tail (turns_of_following hm)
  obtain ⟨o, lexicon, hmet, henv, -⟩ := hlet _ m _ _ _ _ hturns hconts
  exact ⟨rfl, hs, hdepth, by decide +kernel, o, m, lexicon, hturns, hconts, hmet, henv⟩

end ParseState

end Linefold
