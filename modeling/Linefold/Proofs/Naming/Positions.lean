import Linefold.Proofs.Naming.Resolution
import Linefold.Proofs.Turns.Scopes

/-!
# Names and positions

`Reports K N S w D`: from the positions `K` on, with the names `N` known in the innermost scope and those of `S`
in the scopes around it, the tokens `w` complete a program in which `D` are the unknown names. A turn changes
this by the token that it takes, which it adds to the errors exactly if it is an unknown name
(`Acts.reports`). So the positions read a text backwards as `Lexical` reads it forwards.
-/

namespace Linefold

/-! ### The names of an environment -/

/-- The names that are known in the innermost scope. -/
def Environment.names (e : Environment) : Set String := {x | (e.lookup? x).isSome}

/-- The names that are known in the scopes around the innermost one. -/
def Environment.outerNames (e : Environment) : List (Set String) :=
  match e with
  | ⟨[], _, _⟩ => []
  | ⟨_ :: inner, globals, limit⟩ =>
    Environment.names ⟨inner, globals, limit⟩ :: Environment.outerNames ⟨inner, globals, limit⟩
termination_by e.inner.length

namespace Environment

variable {e e' : Environment} {scope : Scope} {x name : String} {w : Word}

theorem lookup?_bind : (e.bind name w).lookup? x = if x = name then some w else e.lookup? x := by
  unfold lookup? bind modifyTop
  cases e.inner with
  | nil => simp [Scope.bind, Scope.get?, Lexicon.find?_insert]
  | cons s inner => by_cases hx : x = name <;> simp [List.findSome?_cons, Scope.bind, Scope.get?, Lexicon.find?_insert, hx]

theorem names_bind : (e.bind name w).names = insert name e.names := by
  ext x
  simp only [names, lookup?_bind, Set.mem_ofPred_eq, Set.mem_insert_iff]
  split <;> simp_all

theorem names_under_empty : (e.under ⟨name, []⟩).names = e.names := by
  ext x
  simp [names, lookup?_under, Scope.get?, Lexicon.find?]

theorem mem_names_of_top (h : e.top.get? x = some w) : x ∈ e.names := by
  unfold top at h
  unfold names lookup?
  cases hi : e.inner with
  | nil => simp_all
  | cons s inner => simp_all

theorem outerNames_under : (e.under scope).outerNames = e.names :: e.outerNames := by
  rw [under, outerNames]

theorem outerNames_bind : (e.bind name w).outerNames = e.outerNames := by
  obtain ⟨inner, globals, limit⟩ := e
  cases inner with
  | nil => simp [bind, modifyTop, outerNames]
  | cons s inner => simp [bind, modifyTop, outerNames]

end Environment

/-! ### What the positions report -/

/-- What comes next: the names that are known, the tokens, and the unknown names among them. -/
abbrev Next := Set String → List Token → List Token → Prop

/-- A phrase, and then what comes next. -/
def After (c : Category) (next : Next) : Next := fun N w D =>
  ∃ N' v D₁ D₂, Lexical c N w N' v D₁ ∧ next N' v D₂ ∧ D = D₁ ++ D₂

/-- A token of a kind, and then what comes next. -/
def Past (kind : TokenKind) (next : Next) : Next := fun N w D =>
  ∃ t v, w = t :: v ∧ t.kind = kind ∧ next N v D

/-- The scope around, once the innermost one is closed. -/
def Outside (S : List (Set String)) (next : Set String → List (Set String) → List Token → List Token → Prop) : Next :=
  fun _ w D => ∃ N' S', S = N' :: S' ∧ next N' S' w D

def Reports : List Cont → Set String → List (Set String) → List Token → List Token → Prop
  | [], _, _, w, D => w = [] ∧ D = []
  | c :: K, N, S, w, D =>
    let next : Next := fun N => Reports K N S
    let outside : Next := Outside S (Reports K)
    match c with
    | .program => Past .eof next N w D
    | .exprs _ _ => After .list next N w D
    | .exprsNext _ _ => After .items next N w D
    | .exprsAfterDot _ _ => After .series next N w D
    | .expr => After .expr next N w D
    | .letName => ∃ name v, w = name :: v ∧ name.kind = .ident ∧
        After .params (Past .equal (After .list fun _ => next (insert name.lexeme N))) (insert name.lexeme N) v D
    | .letEqual _ _ _ => Past .equal (After .list outside) N w D
    | .letBody _ _ _ | .ofEnd => outside N w D
    | .params _ _ => After .params next N w D
    | .paramList _ => Past .rightBracket next N w D
    | .lambdaColon _ => Past .colon (After .list (Past .rightAngle outside)) N w D
    | .lambdaEnd _ => Past .rightAngle outside N w D
    | .operand => After .operand next N w D
    | .negate _ => next N w D
    | .binary _ => After .operators next N w D
    | .primary => After .primary next N w D
    | .parenEnd _ => Past .rightParen next N w D
    | .elements => After .elements next N w D
    | .elementNext => After .moreElements next N w D
    | .listEnd _ => Past .rightBracket next N w D
    | .bindings => After .bindings next N w D
    | .bindingColon => Past .colon (After .expr next) N w D
    | .bindingNext => Past .comma (After .bindings next) N w D ∨
        NotAhead (· = .comma) w ∧ After .bindings next N w D
    | .recordEnd _ _ => Past .rightBrace next N w D
    | .caseClauses _ _ => After .clauses next N w D
    | .pattern => (∃ x v, w = x :: v ∧ x.kind = .ident ∧ x.lexeme ∉ N ∧ next (insert x.lexeme N) v D) ∨
        (∀ x v, w = x :: v → x.kind = .ident → x.lexeme ∈ N) ∧ After .operand next N w D
    | .ofColon => Past .colon (After .list next) N w D
    | .ifThen _ _ => Past .keyThen (After .list (After .alternative next)) N w D
    | .ifElse _ _ => After .alternative next N w D
    | .ifEnd _ _ => Past .keyEnd next N w D

/-! ### Turns -/

/-- The tokens that a turn finds, where it leaves `w`. -/
def Turn.finds (t : Token) (w : List Token) : Turn → List Token
  | takes _ _ | finishes _ => t :: w
  | passes _ => w

/-- A turn that leaves its token to others finds it there. -/
def Turn.Ready (t : Token) (c : Cont) (w : List Token) : Turn → Prop
  | takes _ _ | finishes _ => True
  | passes _ => c.isReduction ∨ ∃ v, w = t :: v

section

variable {N N' : Set String} {S : List (Set String)} {w r D : List Token} {next : Next} {category : Category}

theorem After.intro {N₁ : Set String} {v D₁ D₂ : List Token} (h : Lexical category N w N₁ v D₁) (hnext : next N₁ v D₂) :
    After category next N w (D₁ ++ D₂) := ⟨_, _, _, _, h, hnext, rfl⟩

theorem After.empty {N₁ : Set String} {v : List Token} (h : Lexical category N w N₁ v []) (hnext : next N₁ v D) :
    After category next N w D := ⟨_, _, _, _, h, hnext, rfl⟩

/-- A phrase that is all of another phrase but its start. -/
theorem After.imp {other : Category} {w' : List Token} (h : After category next N w D)
    (hr : ∀ N' r D, Lexical category N w N' r D → Lexical other N w' N' r D) : After other next N w' D := by
  obtain ⟨N', v, D₁, D₂, hv, hnext, rfl⟩ := h
  exact .intro (hr _ _ _ hv) hnext

theorem Lexical.params_nil (h : Lexical .params N w N' r D) : D = [] := by
  cases h <;> rfl

/-- The clauses of a case leave no names. -/
theorem Lexical.clauses_names (h : Lexical .clauses N w N' r D) : N' = N := by
  cases h <;> rfl

end

variable {t : Token} {e e' : Environment} {c : Cont} {a : Turn} {K : List Cont} {ds : List Diagnostic} {w D : List Token}

theorem Turn.Ready.exists_eq {next : List Cont} (hw : Turn.Ready t c w (.passes next)) (hc : c.isReduction = false) :
    ∃ v, w = t :: v := hw.resolve_left (by simp [hc])

theorem Still.reports (h : Still t e c a) (hK : Nested (c :: K)) (hw : a.Ready t c w) {S : List (Set String)}
    (hr : Reports (a.next ++ K) e.names S w D) : Reports (c :: K) e.names S (a.finds t w) D := by
  cases h with
  | program h => exact ⟨t, w, rfl, h, hr⟩
  | dotList h => exact .empty (.dot h) hr
  | dot h => exact After.imp hr fun _ _ _ => .dotItems h
  | @endOfList c brk base hc hend =>
    have hK' : Stacked (.list brk) K := by cases hc <;> exact hK
    have hstart : t.kind.startsExpr = false := hend.elim (fun hb => hb ▸ hK'.startsExpr_eq_false) id
    obtain ⟨v, rfl⟩ := hw.exists_eq (by cases hc <;> rfl)
    cases hc with
    | first hdot => exact .empty (.list (notAhead_of_ne hdot) (.nothing hstart)) hr
    | next hdot => exact .empty (.items (notAhead_of_ne hdot) (.nothing hstart)) hr
    | afterDot => exact .empty (.nothing hstart) hr
  | item hc hstart =>
    obtain ⟨v, rfl⟩ := hw.exists_eq (by cases hc <;> rfl)
    obtain ⟨N₁, v₁, D₁, _, he, ⟨N₂, v₂, D₂, D₃, hi, hr, rfl⟩, rfl⟩ := hr
    rw [← List.append_assoc]
    cases hc with
    | first hdot => exact .intro (.list (notAhead_of_ne hdot) (.series he hi)) hr
    | next hdot => exact .intro (.items (notAhead_of_ne hdot) (.series he hi)) hr
    | afterDot => exact .intro (.series he hi) hr
  | definition h =>
    obtain ⟨name, v, rfl, hname, N₁, _, D₁, _, hp, ⟨equal, u, rfl, hequal, N₂, r, D₂, D₃, hl, hr, rfl⟩, rfl⟩ := hr
    obtain rfl := hp.params_nil
    rw [List.nil_append]
    exact .intro (.definition h hname hp hequal hl) hr
  | case h =>
    obtain ⟨N₁, v, D₁, _, he, ⟨N₂, r, D₂, D₃, hc, hr, rfl⟩, rfl⟩ := hr
    obtain rfl := hc.clauses_names
    rw [← List.append_assoc]
    exact .intro (.case h he hc) hr
  | conditional h =>
    obtain ⟨N₁, _, D₁, _, he, ⟨after, v, rfl, hafter, N₂, u, D₂, _, hl, ha, rfl⟩, rfl⟩ := hr
    obtain ⟨N₃, r, D₃, D₄, ha, hr, rfl⟩ := ha
    rw [← List.append_assoc, ← List.append_assoc]
    exact .intro (.conditional h he hafter hl ha) hr
  | operation =>
    obtain ⟨N₁, v, D₁, _, ho, ⟨N₂, r, D₂, D₃, hs, hr, rfl⟩, rfl⟩ := hr
    rw [← List.append_assoc]
    exact .intro (.operation ho hs) hr
  | letEqual h | lambdaColon h | bindingColon h | ofColon h | ifThen h | parenEnd h | listEnd h | recordEnd h
  | ifEnd h => exact ⟨t, w, rfl, h, hr⟩
  | @noParam brk base h =>
    obtain ⟨v, rfl⟩ := hw.exists_eq rfl
    have hK' : Stacked (.params brk) K := hK
    refine .empty (.noParam ?_) hr
    show t.kind.startsParam = false
    rw [h]
    rcases hK'.params_cases with ⟨rfl, -⟩ | ⟨rfl, -⟩ | ⟨rfl, -⟩ <;> rfl
  | paramList hne h =>
    obtain ⟨N₁, _, D₁, _, hp, ⟨right, v, rfl, hright, N₂, r, D₂, D₃, hps, hr, rfl⟩, rfl⟩ := hr
    obtain rfl := hp.params_nil
    obtain rfl := hps.params_nil
    exact .empty (.paramList h hp hright hps) hr
  | negative h => exact After.imp hr fun _ _ _ => .negative h
  | positive => exact After.imp hr fun _ _ _ => .positive
  | negate => exact hr
  | operator h =>
    obtain ⟨N₁, v, D₁, _, ho, ⟨N₂, r, D₂, D₃, hs, hr, rfl⟩, rfl⟩ := hr
    rw [← List.append_assoc]
    exact .intro (.operator h ho hs) hr
  | noOperator h =>
    obtain ⟨v, rfl⟩ := hw.exists_eq rfl
    exact .empty (.noOperator h) hr
  | literal hatom hk => exact .empty (.literal hatom hk) hr
  | record h =>
    obtain ⟨N₁, _, D₁, D₂, hb, ⟨right, r, rfl, hright, hr⟩, rfl⟩ := hr
    exact .intro (.record h hb hright) hr
  | paren h =>
    obtain ⟨N₁, _, D₁, D₂, hl, ⟨right, r, rfl, hright, hr⟩, rfl⟩ := hr
    exact .intro (.paren h hl hright) hr
  | bracketed h =>
    obtain ⟨N₁, _, D₁, D₂, he, ⟨right, r, rfl, hright, hr⟩, rfl⟩ := hr
    exact .intro (.bracketed h he hright) hr
  | name h hx => exact .empty (.known h hx) hr
  | noElement h =>
    obtain ⟨v, rfl⟩ := hw.exists_eq rfl
    exact .empty (.noElement (congrArg TokenKind.startsExpr h)) hr
  | element =>
    obtain ⟨N₁, v, D₁, _, he, ⟨N₂, r, D₂, D₃, hm, hr, rfl⟩, rfl⟩ := hr
    rw [← List.append_assoc]
    exact .intro (.element he hm) hr
  | elementComma h => exact After.imp hr fun _ _ _ => .comma h
  | elementNext h =>
    obtain ⟨v, rfl⟩ := hw.exists_eq rfl
    exact After.imp hr fun _ _ _ => .noComma (notAhead_of_ne h)
  | noBinding h =>
    obtain ⟨v, rfl⟩ := hw.exists_eq rfl
    exact .empty (.noBinding (congrArg TokenKind.isKey h)) hr
  | key h =>
    obtain ⟨colon, v, rfl, hcolon, N₁, u, D₁, _, he, hb, rfl⟩ := hr
    rcases hb with ⟨comma, r, rfl, hcomma, N₂, r, D₂, D₃, hb, hr, rfl⟩ | ⟨hapart, N₂, r, D₂, D₃, hb, hr, rfl⟩
    · rw [← List.append_assoc]
      exact .intro (.bindingComma h hcolon he hcomma hb) hr
    · rw [← List.append_assoc]
      exact .intro (.bindingApart h hcolon he hapart hb) hr
  | bindingComma h => exact .inl ⟨t, w, rfl, h, hr⟩
  | bindingNext h =>
    obtain ⟨v, rfl⟩ := hw.exists_eq rfl
    exact .inr ⟨notAhead_of_ne h, hr⟩
  | caseEnd h => exact .empty (.noClause h) hr
  | pattern h =>
    obtain ⟨v, rfl⟩ := hw.exists_eq rfl
    refine .inr ⟨?_, hr⟩
    rintro x v ⟨⟩ hx
    by_contra hunknown
    exact h ⟨hx, by simpa [Environment.names] using hunknown⟩
  | ifElse h =>
    obtain ⟨N₁, _, D₁, D₂, hl, ⟨stop, r, rfl, hstop, hr⟩, rfl⟩ := hr
    exact .intro (.alternative h hl hstop) hr
  | noAlternative =>
    obtain ⟨stop, r, rfl, hstop, hr⟩ := hr
    exact .empty (.noAlternative hstop) hr

theorem Environment.Remembers.names_eq (h : e.Remembers e') : e'.names = e.names ∧ e'.outerNames = e.outerNames := by
  induction h with
  | refl => exact ⟨rfl, rfl⟩
  | @step e e' name w patterns hw _ ih =>
    rw [Environment.names_bind, Environment.outerNames_bind] at ih
    exact ⟨ih.1.trans (Set.insert_eq_of_mem (Environment.mem_names_of_top hw)), ih.2⟩

/-- The message that a name is unknown. -/
def Token.unknownName (t : Token) : Diagnostic := .nameNotFound t.span t.lexeme

theorem Acts.reports {R : Nat → String → List Cont → Environment → Prop} (h : Acts t e c a e' ds)
    (hR : ∀ d name K e, R d name K e → d + 1 = e.depth ∧ name ∈ e.names) (hK : Nested (c :: K))
    (hb : Balanced R (c :: K) e) (hw : a.Ready t c w) (hr : Reports (a.next ++ K) e'.names e'.outerNames w D) :
    ∃ E, ds = E.map Token.unknownName ∧ Reports (c :: K) e.names e.outerNames (a.finds t w) (E ++ D) := by
  cases h with
  | still h => exact ⟨[], rfl, h.reports hK hw hr⟩
  | unknown h hx => exact ⟨[t], rfl, .intro (.unknown h (by simp [Environment.names, hx])) hr⟩
  | letName h =>
    rw [Environment.names_under_empty, Environment.outerNames_under, Environment.names_bind,
      Environment.outerNames_bind] at hr
    obtain ⟨N₁, _, D₁, _, hp, ⟨equal, v, rfl, hequal, N₂, r, D₂, D₃, hl, ⟨_, _, hS, hr⟩, rfl⟩, rfl⟩ := hr
    obtain ⟨rfl, rfl⟩ := List.cons.inj hS
    exact ⟨[], rfl, t, w, rfl, h, N₁, _, D₁, _, hp, ⟨equal, v, rfl, hequal, N₂, r, D₂, D₃, hl, hr, rfl⟩, rfl⟩
  | letBody he =>
    obtain ⟨e₀, lexicon, he', hdef, -⟩ := hb
    obtain rfl := (Environment.under_inj (he.symm.trans he')).1
    obtain ⟨hdepth, hname⟩ := hR _ _ _ _ hdef
    rw [Environment.bindAt_of_depth hdepth, Environment.names_bind, Environment.outerNames_bind,
      Set.insert_eq_of_mem hname] at hr
    rw [he, Environment.outerNames_under]
    exact ⟨[], rfl, _, _, rfl, hr⟩
  | param _ h =>
    rw [Environment.names_bind, Environment.outerNames_bind] at hr
    obtain ⟨N₁, v, D₁, D₂, hp, hr, rfl⟩ := hr
    obtain rfl := hp.params_nil
    exact ⟨[], rfl, N₁, v, [], D₂, .param h hp, hr, rfl⟩
  | paramList h hmarks =>
    rw [hmarks.names_eq.1, hmarks.names_eq.2] at hr
    exact ⟨[], rfl, t, w, rfl, h, hr⟩
  | lambda h =>
    rw [Environment.names_under_empty, Environment.outerNames_under] at hr
    obtain ⟨N₁, _, D₁, _, hp, ⟨colon, v, rfl, hcolon, N₂, _, D₂, D₃, hl, hright, rfl⟩, rfl⟩ := hr
    obtain ⟨right, r, rfl, hright, _, _, hS, hr⟩ := hright
    obtain ⟨rfl, rfl⟩ := List.cons.inj hS
    obtain rfl := hp.params_nil
    exact ⟨[], rfl, _, r, D₂, D₃, .lambda h hp hcolon hl hright, hr, rfl⟩
  | lambdaEnd h he =>
    rw [he, Environment.outerNames_under]
    exact ⟨[], rfl, t, w, rfl, h, _, _, rfl, hr⟩
  | clause h =>
    rw [Environment.names_under_empty, Environment.outerNames_under] at hr
    rcases hr with ⟨x, _, rfl, hx, hunknown, colon, v, rfl, hcolon, N₁, u, D₁, _, hl, ⟨_, _, hS, hr⟩, rfl⟩ |
      ⟨hknown, N₁, _, D₁, _, ho, ⟨colon, v, rfl, hcolon, N₂, u, D₂, _, hl, ⟨_, _, hS, hr⟩, rfl⟩, rfl⟩
    all_goals
      obtain ⟨rfl, rfl⟩ := List.cons.inj hS
      obtain ⟨N₃, r, D₃, D₄, hc, hr, rfl⟩ := hr
      obtain rfl := hc.clauses_names
    · exact ⟨[], rfl, _, r, _, D₄, .bindingClause h hx hunknown hcolon hl hc, hr, by simp⟩
    · have hbinds : ¬ BindsAhead e.names w := fun ⟨x, _, _, hw, hx, hunknown, _⟩ => hunknown (hknown x _ hw hx)
      exact ⟨[], rfl, _, r, _, D₄, .clause h hbinds ho hcolon hl hc, hr, by simp⟩
  | patternName h hx =>
    rw [Environment.names_bind, Environment.outerNames_bind] at hr
    exact ⟨[], rfl, .inl ⟨t, w, rfl, h, by simp [Environment.names, hx], hr⟩⟩
  | ofEnd he =>
    rw [he, Environment.outerNames_under]
    exact ⟨[], rfl, _, _, rfl, hr⟩

end Linefold
