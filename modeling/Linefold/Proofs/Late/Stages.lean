import Linefold.Proofs.Late.Scopes

/-!
# Frames folded, resolved and folded again

What a first fold leaves of a frame is of the kinds of the frame (`Tree.Frame.ofKind`). Resolved and folded again, it comes to
what the frame comes to with the lists in place from the start (`Tree.Frame.stages`), but for two things that the first fold
decides too early: a case whose scrutinee has no value in the end, and an argument without a value that a function drops.
-/

namespace Linefold.Tree

/-! ### Frames where nothing is decided too early -/

mutual

/-- No case has cases both in its scrutinee and in a pattern, and none stands behind a function in its frame. -/
def isSteady : Tree → Bool
  | node tag ts => (decide (tag ≠ .case) || areApart ts) && areSteady ts
  | _ => true

def areSteady : List Tree → Bool
  | [] => true
  | t :: ts => isSteady t && (!t.isFunction || allCaseFree ts) && areSteady ts

end

variable {ρ σ υ : String → Option Tree} {xs ys : List String} {m n : Nat} {args brgs us ws rs ps ts cs : List Tree} {k : Kind}
  {as ks : List Kind} {r t u v w c p names body : Tree} {x : String} {Γ : Kinds} {fixed : Bool} {tag : Tag} {P : Prop}

theorem areSteady_of_isSteady (h : (node tag ts).isSteady) : areSteady ts := (Bool.and_eq_true_iff.1 h).2

theorem areSteady_cons : areSteady (t :: ts) ↔ t.isSteady ∧ (t.isFunction → allCaseFree ts) ∧ areSteady ts := by
  rw [areSteady]
  cases t.isFunction <;> simp [and_assoc]

theorem isSteady_of_mem (h : areSteady ts) : ∀ t ∈ ts, t.isSteady := by
  induction ts with
  | nil => exact List.forall_mem_nil _
  | cons t ts ih =>
    obtain ⟨ht, -, hts⟩ := areSteady_cons.1 h
    exact List.forall_mem_cons.2 ⟨ht, ih hts⟩

theorem isSteady_part (h : (node tag ts).isSteady) : ∀ t ∈ ts, t.isSteady := isSteady_of_mem (areSteady_of_isSteady h)

theorem areApart_of_isSteady (h : (node .case ts).isSteady) : areApart ts := (Bool.and_eq_true_iff.1 h).1

/-! ### What is left -/

/-- Resolved, an application that stayed is the body with its arguments. -/
theorem read_application : (resolving ρ xs m args).read (node .apply (lambda ps v :: us)) =
    (resolving ρ xs m (us.map (resolve ρ args))).read v := by
  show resolve ρ args (node .apply (lambda ps v :: us)) = _
  rw [lambda, resolve_apply]
  rfl

theorem value?_application : (resolving ρ xs m args).value? (node .apply (lambda ps v :: us)) =
    (resolving ρ xs m (us.map (resolve ρ args))).value? v := by
  rw [Second.value?, read_application]
  rfl

theorem reads_application (h : (resolving ρ xs m (us.map (resolve ρ args))).Reads v) :
    (resolving ρ xs m args).Reads (node .apply (lambda ps v :: us)) :=
  ⟨read_application ▸ h.expression, nofun⟩

/-- A list pattern meets a value whose elements are not known. -/
theorem isLate_of_meets (hmeets : List.Forall₂ (Kind.Meets fixed) ps as) (hlist : ∃ p ∈ ps, p.tag = .list)
    (hus : List.Forall₂ (OfKind ρ xs m args) as us) : isLate ps us := by
  induction hmeets generalizing us with
  | nil =>
    obtain ⟨p, hp, -⟩ := hlist
    cases hp
  | @cons p k ps as hp _ ih =>
    rcases hus with _ | @⟨_, u, _, us, hu, hus⟩
    rcases hp with ⟨x, rfl⟩ | ⟨hp, ⟨c, hc, -⟩, -⟩
    · have hlist : ∃ p ∈ ps, p.tag = .list := by
        obtain ⟨p, hmem, hp⟩ := hlist
        rcases List.mem_cons.1 hmem with rfl | hmem
        · cases hp
        · exact ⟨p, hmem, hp⟩
      exact isLate_cons ▸ Bool.or_eq_true_iff.2 (.inr (ih hlist hus))
    · have hopen : isOpen p u := by simp [isOpen, hp, (hu.constant c hc).2.1]
      exact isLate_cons ▸ Bool.or_eq_true_iff.2 (.inl hopen)

/-- Where the lists are known there is no such pattern. -/
theorem isLate_eq_false_of_meets (hmeets : List.Forall₂ (Kind.Meets fixed) ps as) (hus : List.Forall₂ (OfKind ρ xs m args) as us)
    (hws : Forall₃ (Yields ρ xs m args) as us ws) : isLate ps ws = false := by
  induction hmeets generalizing us ws with
  | nil => rfl
  | @cons p k ps as hp _ ih =>
    rcases hus with _ | @⟨_, u, _, us, hu, hus⟩
    rcases hws with _ | @⟨_, _, w, _, _, ws, hw, hws⟩
    rw [isLate_cons]
    refine Bool.or_eq_false_iff.2 ⟨?_, ih hus hws⟩
    rcases hp with ⟨x, rfl⟩ | ⟨hp, ⟨c, hc, hfits⟩, -⟩
    · rfl
    · exact isOpen_of_tag hp (hw.eq_of_constant hu hc ▸ hfits)

/-- A function that is not late and has all of its arguments comes to the value of its body. -/
theorem applied_of_length_eq (h : isLate ps us = false) (hlength : us.length = ps.length) : applied ps v us = v := by
  rw [applied, h, if_neg (by decide), if_pos hlength]

theorem applied_of_isLate (h : isLate ps us) : applied ps v us = node .apply (lambda ps v :: us) := by
  rw [applied, if_pos h]

/-- The values that a function leaves, from those of what follows it. -/
theorem exists_of_values?_function (h : values? n σ (node .lambda [names, body, node .list ps] :: ts) = some rs) :
    n ≠ 0 ∧ ∃ us v, values? n σ ts = some us ∧ value? (n - 1) (bound ps (us.take ps.length) σ) body = some v ∧
      rs = applied ps v (us.take ps.length) :: us.drop ps.length := by
  rw [values?_function] at h
  obtain ⟨us, hus, h⟩ := Option.bind_eq_some_iff.1 h
  split at h
  · cases h
  · next hn =>
    obtain ⟨v, hv, h⟩ := Option.bind_eq_some_iff.1 h
    cases h
    exact ⟨hn, us, v, hus, hv, rfl⟩

theorem exists_of_values?_cons (hfun : t.isFunction = false) (h : values? n σ (t :: ts) = some rs) :
    ∃ v us, value? n σ t = some v ∧ values? n σ ts = some us ∧ rs = v :: us := by
  rw [values?_cons hfun] at h
  obtain ⟨v, hv, h⟩ := Option.bind_eq_some_iff.1 h
  obtain ⟨us, hus, h⟩ := Option.bind_eq_some_iff.1 h
  cases h
  exact ⟨v, us, hv, hus, rfl⟩

/-- The arguments of a function and what stands behind them. -/
theorem ofKind_take_drop (hus : List.Forall₂ (OfKind ρ xs m args) (as ++ ks) us) (hlength : as.length = ps.length) :
    List.Forall₂ (OfKind ρ xs m args) as (us.take ps.length) ∧ List.Forall₂ (OfKind ρ xs m args) ks (us.drop ps.length) := by
  rw [← hlength]
  exact ⟨(List.forall₂_take_append us as ks hus.flip).flip, (List.forall₂_drop_append us as ks hus.flip).flip⟩

theorem reads_of_kinds (h : List.Forall₂ (OfKind ρ xs m args) ks rs) : ∀ r ∈ rs, (resolving ρ xs m args).Reads r := by
  induction h with
  | nil => exact List.forall_mem_nil _
  | cons h _ ih => exact List.forall_mem_cons.2 ⟨h.reads args (.inr rfl), ih⟩

/-- In the body of a function with plain parameters. -/
theorem Covered.call (hσ : Covered ρ xs m args Γ σ) (hus : List.Forall₂ (OfKind ρ xs m args) as us)
    (hlength : as.length = ys.length) (hbrgs : fixed ∨ brgs = args) :
    Covered ρ xs m brgs ((Γ.bind (ys.zip (as.map some))).view fixed) (bound (ys.map ident) us σ) :=
  (hσ.bind (covered_plain hus hlength)).view hbrgs

/-- In the body of a function that stays applied. -/
theorem Covered.late (hσ : Covered ρ xs m args Γ σ) (hmeets : List.Forall₂ (Kind.Meets fixed) ps as)
    (hus : List.Forall₂ (OfKind ρ xs m args) as us) (hlength : ps.length < 2 ^ 53) (hbrgs : fixed ∨ brgs = args) :
    Covered ρ xs m (us.map (resolve ρ brgs)) ((Γ.view true).bind (Kind.partsAll ps as)) (bound ps us σ) :=
  (hσ.view (.inl rfl)).bind (covered_parameters hmeets hus hbrgs (by omega) rfl)

mutual

/-- What an expression leaves is an expression once it is resolved. -/
theorem Item.leaves : ∀ {Γ : Kinds} {t : Tree} {args : List Tree} {n : Nat} {σ : String → Option Tree}, Item Γ t →
    Covered ρ xs m args Γ σ → Leaves (resolving ρ xs m args) n σ t
  | _, _, _, _, _, .literal h, _ => leaves_of_isLiteral h
  | _, _, args, _, _, .name h, hσ => leaves_name ((hσ _ _ h).reads args (.inr rfl))
  | _, _, _, _, _, .exprs h, hσ => LeavesAll.exprs fun _ hrs => reads_of_kinds (h.ofKind hσ hrs)
  | _, _, _, _, _, .paren h, hσ => (h.leaves hσ).paren
  | _, _, _, _, _, .list h, hσ => LeavesAll.list fun _ hrs => reads_of_kinds (h.ofKind hσ hrs)
  | _, _, _, _, _, .record h, hσ =>
    (leavesAll_of_forall (fun t ht => (h t ht).isFunction_eq_false) fun t ht => (h t ht).leaves hσ).record
  | _, _, _, _, _, .binding h, hσ => (h.leaves hσ).binding
  | _, _, _, _, _, .negation h, hσ => (h.leaves hσ).negation
  | _, _, _, _, _, .operator htag hlogical ht hu, hσ => (ht.leaves hσ).operator htag hlogical (hu.leaves hσ)
  | _, _, _, _, _, .case ht hof hp hu, hσ => by
    refine (ht.leaves hσ).case fun c hc => ?_
    obtain ⟨p, u, rfl⟩ := hof c hc
    exact ⟨p, u, rfl, (hp p u hc).leaves hσ, (hu p u hc).leaves hσ⟩

/-- What a frame leaves is of its kinds. -/
theorem Frame.ofKind : ∀ {Γ : Kinds} {ts rs args : List Tree} {ks : List Kind} {n : Nat} {σ : String → Option Tree},
    Frame Γ ts ks → Covered ρ xs m args Γ σ → values? n σ ts = some rs → List.Forall₂ (OfKind ρ xs m args) ks rs
  | _, _, _, _, _, _, _, .nil, _, hrs => by
    cases hrs
    exact .nil
  | _, _, _, _, _, _, _, .name h hs, hσ, hrs => by
    obtain ⟨_, us, ⟨⟩, hus, rfl⟩ := exists_of_values?_cons rfl hrs
    exact .cons (hσ _ _ h) (hs.ofKind hσ hus)
  | _, _, _, _, _, _, _, .item fixed h hs, hσ, hrs => by
    obtain ⟨v, us, hv, hus, rfl⟩ := exists_of_values?_cons h.isFunction_eq_false hrs
    exact .cons ⟨fun brgs hbrgs => h.leaves (hσ.view hbrgs) v hv, nofun⟩ (hs.ofKind hσ hus)
  | _, _, _, _, _, _, _, @Frame.call _ _ _ ys _ _ _ fixed hs hlength _ h, hσ, hrs => by
    obtain ⟨-, us, v, hus, hv, rfl⟩ := exists_of_values?_function hrs
    have hlengths : _ = (ys.map ident).length := hlength.trans (List.length_map _).symm
    obtain ⟨htake, hdrop⟩ := ofKind_take_drop (hs.ofKind hσ hus) hlengths
    rw [applied_of_length_eq isLate_map_ident (htake.length_eq ▸ hlengths)]
    exact .cons ⟨fun brgs hbrgs => h.leaves (hσ.call htake hlength hbrgs) v hv, nofun⟩ hdrop
  | _, _, _, _, _, _, _, .late fixed hs hmeets hlist hlength _ h, hσ, hrs => by
    obtain ⟨-, us, v, hus, hv, rfl⟩ := exists_of_values?_function hrs
    obtain ⟨htake, hdrop⟩ := ofKind_take_drop (hs.ofKind hσ hus) hmeets.length_eq.symm
    rw [applied_of_isLate (isLate_of_meets hmeets hlist htake)]
    refine .cons ⟨fun brgs hbrgs => ?_, nofun⟩ hdrop
    exact reads_application (h.leaves (hσ.late hmeets htake hlength hbrgs) v hv)

end

/-! ### What this comes to -/

/-- Resolved and folded again, the values that are left of the frame come to those with the lists in place. -/
structure Refolds (ρ : String → Option Tree) (xs : List String) (m : Nat) (args : List Tree) (P : Prop) (n : Nat)
    (υ : String → Option Tree) (ts : List Tree) (ks : List Kind) (rs : List Tree) : Prop where
  lags : Lags P (values? n υ ts) ((resolving ρ xs m args).values? rs)
  yields : ∀ ws, values? n υ ts = some ws → Forall₃ (Yields ρ xs m args) ks rs ws

theorem values?_of_yields (h : Forall₃ (Yields ρ xs m args) ks rs ws) (hreads : ∀ r ∈ rs, (resolving ρ xs m args).Reads r) :
    (resolving ρ xs m args).values? rs = some ws := by
  induction h with
  | nil => rfl
  | cons h _ ih =>
    obtain ⟨hr, hrs⟩ := List.forall_mem_cons.1 hreads
    rw [Second.values?_cons hr, h args (.inr rfl), ih hrs]
    rfl

theorem Refolds.cons (hfun : t.isFunction = false) (hr : (resolving ρ xs m args).Reads r)
    (ht : ∀ brgs, k.Admits args brgs → Lags P (value? n υ t) ((resolving ρ xs m brgs).value? r))
    (hs : Refolds ρ xs m args P n υ ts ks rs) : Refolds ρ xs m args P n υ (t :: ts) (k :: ks) (r :: rs) where
  lags := by
    rw [values?_cons hfun, Second.values?_cons hr]
    exact (ht args (.inr rfl)).bind fun _ _ => hs.lags.bind fun _ _ => .refl
  yields ws hws := by
    obtain ⟨w, ws', hw, hws', rfl⟩ := exists_of_values?_cons hfun hws
    refine .cons (fun brgs hbrgs => ?_) (hs.yields ws' hws')
    have ht := ht brgs hbrgs
    rw [hw] at ht
    exact (ht.resolve_right fun h => nomatch h.1).symm

/-- A function is applied: if the arguments have values, its body decides. -/
theorem Refolds.function (hn : n ≠ 0) (hs : Refolds ρ xs m args P n υ ts (as ++ ks) us) (hlength : as.length = ps.length)
    (hreads : ∀ u ∈ r :: us.drop ps.length, (resolving ρ xs m args).Reads u) (hsurvives : P → ∃ ws, values? n υ ts = some ws)
    (hbody : ∀ ws, Forall₃ (Yields ρ xs m args) as (us.take ps.length) ws → isLate ps ws = false ∧
      ∀ brgs, Kind.Admits ⟨fixed, none⟩ args brgs →
        Lags P (value? (n - 1) (bound ps ws υ) body) ((resolving ρ xs m brgs).value? r)) :
    Refolds ρ xs m args P n υ (node .lambda [names, body, node .list ps] :: ts) (⟨fixed, none⟩ :: ks)
      (r :: us.drop ps.length) := by
  have hvalue {ws : List Tree} (hws : values? n υ ts = some ws) :
      values? n υ (node .lambda [names, body, node .list ps] :: ts) =
        (do return (← value? (n - 1) (bound ps (ws.take ps.length) υ) body) :: ws.drop ps.length) ∧
      Forall₃ (Yields ρ xs m args) ks (us.drop ps.length) (ws.drop ps.length) ∧
      ∀ brgs, Kind.Admits ⟨fixed, none⟩ args brgs →
        Lags P (value? (n - 1) (bound ps (ws.take ps.length) υ) body) ((resolving ρ xs m brgs).value? r) := by
    obtain ⟨htake, hdrop⟩ := (hs.yields ws hws).of_append
    rw [hlength] at htake hdrop
    obtain ⟨hlate, hbody⟩ := hbody _ htake
    refine ⟨?_, hdrop, hbody⟩
    have hfull : (ws.take ps.length).length = ps.length := htake.length_eq.2.trans hlength
    rw [values?_function, hws, Option.bind_eq_bind, Option.bind_some, if_neg hn]
    simp only [applied_of_length_eq hlate hfull]
  constructor
  · cases hws : values? n υ ts with
    | none => exact .inr ⟨by rw [values?_function, hws]; rfl, fun hP => by simp [hws] at hsurvives; exact hsurvives hP⟩
    | some ws =>
      obtain ⟨hvalue, hdrop, hbody⟩ := hvalue hws
      obtain ⟨hr, hrs⟩ := List.forall_mem_cons.1 hreads
      rw [hvalue, Second.values?_cons hr, values?_of_yields hdrop hrs]
      exact (hbody args (.inr rfl)).bind fun _ _ => .refl
  · intro rs hrs
    rw [values?_function] at hrs
    obtain ⟨ws, hws, -⟩ := Option.bind_eq_some_iff.1 hrs
    rw [← values?_function] at hrs
    obtain ⟨hvalue, hdrop, hbody⟩ := hvalue hws
    rw [hvalue] at hrs
    obtain ⟨w, hw, hrs⟩ := Option.bind_eq_some_iff.1 hrs
    cases hrs
    refine .cons (fun brgs hbrgs => ?_) hdrop
    have hbody := hbody brgs hbrgs
    rw [hw] at hbody
    exact (hbody.resolve_right fun h => nomatch h.1).symm

/-- In the body of a function with plain parameters. -/
theorem Matched.call (hσ : Matched ρ xs m args Γ σ υ) (hws : Forall₃ (Yields ρ xs m args) as us ws)
    (hlength : as.length = ys.length) (hbrgs : fixed ∨ brgs = args) :
    Matched ρ xs m brgs ((Γ.bind (ys.zip (as.map some))).view fixed) (bound (ys.map ident) us σ) (bound (ys.map ident) ws υ) :=
  (hσ.bind (matched_plain hws hlength)).view hbrgs

/-- In the body of a function that stays applied. -/
theorem Matched.late (hσ : Matched ρ xs m args Γ σ υ) (hmeets : List.Forall₂ (Kind.Meets fixed) ps as)
    (hus : List.Forall₂ (OfKind ρ xs m args) as us) (hws : Forall₃ (Yields ρ xs m args) as us ws) (hlength : ps.length < 2 ^ 53)
    (hbrgs : fixed ∨ brgs = args) :
    Matched ρ xs m (us.map (resolve ρ brgs)) ((Γ.view true).bind (Kind.partsAll ps as)) (bound ps us σ) (bound ps ws υ) :=
  (hσ.view (.inl rfl)).bind (matched_parameters hmeets hus hws hbrgs (by omega) rfl)

mutual

/-- Resolved and folded again, what an expression leaves comes to its value with the lists in place. -/
theorem Item.stages : ∀ {Γ : Kinds} {t : Tree} {args : List Tree} {n : Nat} {σ υ : String → Option Tree}, Item Γ t →
    Covered ρ xs m args Γ σ → Matched ρ xs m args Γ σ υ → (P → t.isSteady) → Stages P (resolving ρ xs m args) n σ υ t
  | _, _, _, _, _, _, .literal h, _, _, _ => stages_of_isLiteral h
  | _, _, args, _, _, _, .name h, _, hυ, _ => stages_name (hυ _ _ h args (.inr rfl))
  | _, _, _, _, _, _, .exprs h, hσ, hυ, hP =>
    StagesAll.exprs (fun _ hrs => (h.stages hσ hυ (fun hp => areSteady_of_isSteady (hP hp)) hrs).lags)
      fun _ hrs => reads_of_kinds (h.ofKind hσ hrs)
  | _, _, _, _, _, _, .paren h, hσ, hυ, hP => (h.stages hσ hυ fun hp => isSteady_part (hP hp) _ (.head _)).paren
  | _, _, _, _, _, _, .list h, hσ, hυ, hP =>
    StagesAll.list fun _ hrs => (h.stages hσ hυ (fun hp => areSteady_of_isSteady (hP hp)) hrs).lags
  | _, _, _, _, _, _, .record h, hσ, hυ, hP =>
    (stagesAll_of_forall (fun t ht => (h t ht).isFunction_eq_false) (fun t ht => (h t ht).leaves hσ)
      fun t ht => (h t ht).stages hσ hυ fun hp => isSteady_part (hP hp) t ht).record
  | _, _, _, _, _, _, .binding h, hσ, hυ, hP => (h.stages hσ hυ fun hp => isSteady_part (hP hp) _ (.tail _ (.head _))).binding
  | _, _, _, _, _, _, .negation h, hσ, hυ, hP => (h.stages hσ hυ fun hp => isSteady_part (hP hp) _ (.head _)).negation
  | _, _, _, _, _, _, .operator htag _ ht hu, hσ, hυ, hP =>
    (ht.stages hσ hυ fun hp => isSteady_part (hP hp) _ (.head _)).operator htag
      (hu.stages hσ hυ fun hp => isSteady_part (hP hp) _ (.tail _ (.head _)))
  | _, _, args, n, σ, υ, @Item.case _ _ cs ht hof hp hu, hσ, hυ, hP => by
    have hpart (p u : Tree) (hc : node .of [p, u] ∈ cs) (hsteady : P) : p.isSteady ∧ u.isSteady := by
      have hparts := isSteady_part (isSteady_part (hP hsteady) _ (.tail _ hc))
      exact ⟨hparts p (.head _), hparts u (.tail _ (.head _))⟩
    have hstages : Clauses (Stages P (resolving ρ xs m args) n σ υ) cs := by
      intro c hc
      obtain ⟨p, u, rfl⟩ := hof c hc
      exact ⟨p, u, rfl, (hp p u hc).stages hσ hυ fun h => (hpart p u hc h).1,
        (hu p u hc).stages hσ hυ fun h => (hpart p u hc h).2⟩
    have hleaves : Clauses (Leaves (resolving ρ xs m args) n σ) cs := by
      intro c hc
      obtain ⟨p, u, rfl⟩ := hof c hc
      exact ⟨p, u, rfl, (hp p u hc).leaves hσ, (hu p u hc).leaves hσ⟩
    refine (ht.stages hσ hυ fun h => isSteady_part (hP h) _ (.head _)).case (ht.leaves hσ) hstages hleaves fun h p u hc => ?_
    rcases isCaseFree_or_of_areApart (areApart_of_isSteady (hP h)) hc with hfree | hfree
    · exact .inl fun _ hr => ht.exists_value? hfree hr
    · exact .inr fun _ hr => (hp p u hc).exists_value? hfree hr

/-- Resolved and folded again, what a frame leaves comes to its values with the lists in place. -/
theorem Frame.stages : ∀ {Γ : Kinds} {ts rs args : List Tree} {ks : List Kind} {n : Nat} {σ υ : String → Option Tree},
    Frame Γ ts ks → Covered ρ xs m args Γ σ → Matched ρ xs m args Γ σ υ → (P → areSteady ts) → values? n σ ts = some rs →
    Refolds ρ xs m args P n υ ts ks rs
  | _, _, _, _, _, _, _, _, .nil, _, _, _, hrs => by
    cases hrs
    refine ⟨.refl, fun ws hws => ?_⟩
    cases hws
    exact .nil
  | _, _, _, args, _, _, _, _, .name h hs, hσ, hυ, hP, hrs => by
    obtain ⟨_, us, ⟨⟩, hus, rfl⟩ := exists_of_values?_cons rfl hrs
    have hs := hs.stages hσ hυ (fun hp => (areSteady_cons.1 (hP hp)).2.2) hus
    exact hs.cons rfl ((hσ _ _ h).reads args (.inr rfl)) fun brgs hbrgs => .inl (hυ _ _ h brgs hbrgs).symm
  | _, _, _, args, _, _, _, _, .item fixed h hs, hσ, hυ, hP, hrs => by
    obtain ⟨v, us, hv, hus, rfl⟩ := exists_of_values?_cons h.isFunction_eq_false hrs
    have hs := hs.stages hσ hυ (fun hp => (areSteady_cons.1 (hP hp)).2.2) hus
    refine hs.cons h.isFunction_eq_false (h.leaves (hσ.view (.inr rfl)) v hv) fun brgs hbrgs => ?_
    exact h.stages (hσ.view hbrgs) (hυ.view hbrgs) (fun hp => (areSteady_cons.1 (hP hp)).1) v hv
  | _, _, _, _, _, _, _, _, @Frame.call _ _ _ ys _ _ _ fixed hs hlength hnodup h, hσ, hυ, hP, hrs => by
    have hknown := (Frame.call fixed hs hlength hnodup h).ofKind hσ hrs
    obtain ⟨hn, us, v, hus, hv, rfl⟩ := exists_of_values?_function hrs
    have hlengths : _ = (ys.map ident).length := hlength.trans (List.length_map _).symm
    obtain ⟨htake, -⟩ := ofKind_take_drop (hs.ofKind hσ hus) hlengths
    rw [applied_of_length_eq isLate_map_ident (htake.length_eq ▸ hlengths)] at hknown ⊢
    have hsteady (hp : P) := areSteady_cons.1 (hP hp)
    refine (hs.stages hσ hυ (fun hp => (hsteady hp).2.2) hus).function hn hlengths (reads_of_kinds hknown)
      (fun hp => hs.exists_values? ((hsteady hp).2.1 rfl) hus) fun ws hws => ⟨isLate_map_ident, fun brgs hbrgs => ?_⟩
    exact h.stages (hσ.call htake hlength hbrgs) (hυ.call hws hlength hbrgs)
      (fun hp => isSteady_part (hsteady hp).1 _ (.tail _ (.head _))) v hv
  | _, _, _, _, _, _, _, _, .late fixed hs hmeets hlist hlength hnodup h, hσ, hυ, hP, hrs => by
    have hknown := (Frame.late fixed hs hmeets hlist hlength hnodup h).ofKind hσ hrs
    obtain ⟨hn, us, v, hus, hv, rfl⟩ := exists_of_values?_function hrs
    obtain ⟨htake, -⟩ := ofKind_take_drop (hs.ofKind hσ hus) hmeets.length_eq.symm
    rw [applied_of_isLate (isLate_of_meets hmeets hlist htake)] at hknown ⊢
    have hsteady (hp : P) := areSteady_cons.1 (hP hp)
    refine (hs.stages hσ hυ (fun hp => (hsteady hp).2.2) hus).function hn hmeets.length_eq.symm (reads_of_kinds hknown)
      (fun hp => hs.exists_values? ((hsteady hp).2.1 rfl) hus)
      fun ws hws => ⟨isLate_eq_false_of_meets hmeets htake hws, fun brgs hbrgs => ?_⟩
    rw [value?_application]
    exact h.stages (hσ.late hmeets htake hlength hbrgs) (hυ.late hmeets htake hws hlength hbrgs)
      (fun hp => isSteady_part (hsteady hp).1 _ (.tail _ (.head _))) v hv

end

end Linefold.Tree
