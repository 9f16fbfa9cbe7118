import Linefold.Proofs.Late.Frames

/-!
# Values of kinds

`Tree.OfKind ρ xs m args k r`: the value `r` that a first fold leaves is of the kind `k` where `args` are the arguments of the
function around it, and `Tree.Yields ρ xs m args k r w`: resolved and folded again, it comes to `w`. Both hold with any
arguments if the kind is fixed. What a function leaves applied is of a kind if the value of its body is where the arguments
are its own (`Tree.covered_parameters`).
-/

namespace Linefold

/-! ### Lists in threes -/

/-- Entries of three lists are in relation, one by one. -/
inductive Forall₃ {α β γ : Type} (R : α → β → γ → Prop) : List α → List β → List γ → Prop where
  | nil : Forall₃ R [] [] []
  | cons {a : α} {b : β} {c : γ} {as : List α} {bs : List β} {cs : List γ} (h : R a b c) (hs : Forall₃ R as bs cs) :
      Forall₃ R (a :: as) (b :: bs) (c :: cs)

namespace Forall₃

variable {α β γ : Type} {R : α → β → γ → Prop} {as as' : List α} {bs bs' : List β} {cs cs' : List γ}

theorem append (h : Forall₃ R as bs cs) (h' : Forall₃ R as' bs' cs') : Forall₃ R (as ++ as') (bs ++ bs') (cs ++ cs') := by
  induction h with
  | nil => exact h'
  | cons h _ ih => exact .cons h ih

theorem of_append (h : Forall₃ R (as ++ as') bs cs) : Forall₃ R as (bs.take as.length) (cs.take as.length) ∧
    Forall₃ R as' (bs.drop as.length) (cs.drop as.length) := by
  induction as generalizing bs cs with
  | nil => exact ⟨.nil, h⟩
  | cons a as ih =>
    rcases h with _ | ⟨h, hs⟩
    obtain ⟨htake, hdrop⟩ := ih hs
    exact ⟨.cons h htake, hdrop⟩

theorem length_eq (h : Forall₃ R as bs cs) : bs.length = as.length ∧ cs.length = as.length := by
  induction h with
  | nil => exact ⟨rfl, rfl⟩
  | cons _ _ ih => exact ⟨congrArg (· + 1) ih.1, congrArg (· + 1) ih.2⟩

end Forall₃

namespace Tree

variable {ρ σ υ : String → Option Tree} {xs ys : List String} {m i : Nat} {args brgs us ws ps ts : List Tree} {k : Kind}
  {as ks : List Kind} {r t u v w c p : Tree} {x : String} {Γ : Kinds} {fixed : Bool}

/-! ### Values -/

/-- What is of the kind where `args` are the arguments around it can be resolved with `brgs`. -/
def Kind.Admits (k : Kind) (args brgs : List Tree) : Prop := k.fixed ∨ brgs = args

/-- The value is of the kind. -/
structure OfKind (ρ : String → Option Tree) (xs : List String) (m : Nat) (args : List Tree) (k : Kind) (r : Tree) : Prop where
  reads : ∀ brgs, k.Admits args brgs → (resolving ρ xs m brgs).Reads r
  constant : ∀ c, k.constant = some c → c.isConstant ∧ r.items? = none ∧ ∀ brgs, k.Admits args brgs → resolve ρ brgs r = c

/-- Resolved and folded again, the value comes to the tree. -/
def Yields (ρ : String → Option Tree) (xs : List String) (m : Nat) (args : List Tree) (k : Kind) (r w : Tree) : Prop :=
  ∀ brgs, k.Admits args brgs → (resolving ρ xs m brgs).value? r = some w

theorem Kind.Admits.trans {crgs : List Tree} (h : k.Admits args brgs) (h' : k.Admits brgs crgs) : k.Admits args crgs := by
  rcases h with h | rfl
  · exact .inl h
  · exact h'

theorem OfKind.admits (h : OfKind ρ xs m args k r) (hargs : k.Admits args brgs) : OfKind ρ xs m brgs k r where
  reads crgs hcrgs := h.reads crgs (hargs.trans hcrgs)
  constant c hc :=
    have ⟨hconstant, hitems, hresolve⟩ := h.constant c hc
    ⟨hconstant, hitems, fun crgs hcrgs => hresolve crgs (hargs.trans hcrgs)⟩

theorem Yields.admits (h : Yields ρ xs m args k r w) (hargs : k.Admits args brgs) : Yields ρ xs m brgs k r w :=
  fun crgs hcrgs => h crgs (hargs.trans hcrgs)

mutual

theorem value?_of_isConstant : ∀ c : Tree, c.isConstant → c.value? m σ = some c
  | node .list ts, h => by
    rw [value?, values?_of_allConstant ts h]
    rfl
  | num _, h | str _, h | bool _, h | null, h => value?_of_isLiteral h

theorem values?_of_allConstant : ∀ cs : List Tree, allConstant cs → values? m σ cs = some cs
  | [], _ => rfl
  | c :: cs, h => by
    obtain ⟨hc, hcs⟩ := Bool.and_eq_true_iff.1 h
    rw [values?_cons (isFunction_eq_false_of_isConstant hc), value?_of_isConstant c hc, values?_of_allConstant cs hcs]
    rfl

end

mutual

theorem isExpression_of_isConstant : ∀ c : Tree, c.isConstant → c.IsExpression xs
  | node .list ts, h => .items (.inl rfl) (isExpression_of_allConstant ts h)
  | num _, h | str _, h | bool _, h | null, h => .literal h

theorem isExpression_of_allConstant : ∀ cs : List Tree, allConstant cs → ∀ c ∈ cs, c.IsExpression xs
  | [], _ => nofun
  | c :: cs, h =>
    have ⟨hc, hcs⟩ := Bool.and_eq_true_iff.1 h
    List.forall_mem_cons.2 ⟨isExpression_of_isConstant c hc, isExpression_of_allConstant cs hcs⟩

end

theorem isConstant_of_mem (h : allConstant ts) : ∀ t ∈ ts, t.isConstant := by
  induction ts with
  | nil => nofun
  | cons t ts ih =>
    obtain ⟨ht, hts⟩ := Bool.and_eq_true_iff.1 h
    exact List.forall_mem_cons.2 ⟨ht, ih hts⟩

/-- A reference to an element of a literal list. -/
structure Picks (ρ : String → Option Tree) (args : List Tree) (r c : Tree) : Prop where
  resolve : resolve ρ args r = c
  isConstant : c.isConstant
  items : r.items? = none
  ground : r.isGround = false

theorem Picks.ofKind (h : Picks ρ args r c) : OfKind ρ xs m args ⟨false, some c⟩ r where
  reads brgs hbrgs := by
    obtain rfl : brgs = args := hbrgs.resolve_left nofun
    refine ⟨?_, fun hground => absurd hground (by simp [h.ground])⟩
    have hread : (resolving ρ xs m brgs).read r = c := h.resolve
    rw [hread]
    exact isExpression_of_isConstant c h.isConstant
  constant d hd := by
    cases hd
    refine ⟨h.isConstant, h.items, fun brgs hbrgs => ?_⟩
    obtain rfl : brgs = args := hbrgs.resolve_left nofun
    exact h.resolve

theorem Picks.yields (h : Picks ρ args r c) : Yields ρ xs m args ⟨false, some c⟩ r c := by
  intro brgs hbrgs
  obtain rfl : brgs = args := hbrgs.resolve_left nofun
  have hread : (resolving ρ xs m brgs).read r = c := h.resolve
  rw [Second.value?, hread]
  exact value?_of_isConstant c h.isConstant

theorem Yields.eq_of_constant (h : Yields ρ xs m args k r w) (hr : OfKind ρ xs m args k r) (hc : k.constant = some c) :
    w = c := by
  obtain ⟨hconstant, -, hresolve⟩ := hr.constant c hc
  have hvalue := h args (.inr rfl)
  have hread : (resolving ρ xs m args).read r = c := hresolve args (.inr rfl)
  rw [Second.value?, hread, value?_of_isConstant c hconstant] at hvalue
  exact (Option.some.inj hvalue).symm

/-! ### Names -/

/-- The names that can be used have values of their kinds. -/
def Covered (ρ : String → Option Tree) (xs : List String) (m : Nat) (args : List Tree) (Γ : Kinds) (σ : String → Option Tree) :
    Prop :=
  ∀ x k, Γ x = some k → OfKind ρ xs m args k ((σ x).getD (ident x))

/-- The names that can be used have values that come to the others. -/
def Matched (ρ : String → Option Tree) (xs : List String) (m : Nat) (args : List Tree) (Γ : Kinds) (σ υ : String → Option Tree) :
    Prop :=
  ∀ x k, Γ x = some k → Yields ρ xs m args k ((σ x).getD (ident x)) ((υ x).getD (ident x))

theorem Kinds.of_view (h : Γ.view fixed x = some k) (hargs : fixed ∨ brgs = args) : Γ x = some k ∧ k.Admits args brgs := by
  obtain ⟨h, hfixed⟩ := Option.filter_eq_some_iff.1 h
  refine ⟨h, hargs.imp_left fun hf => ?_⟩
  simpa [hf] using hfixed

theorem Covered.view (h : Covered ρ xs m args Γ σ) (hargs : fixed ∨ brgs = args) : Covered ρ xs m brgs (Γ.view fixed) σ := by
  intro x k hx
  obtain ⟨hx, hadmits⟩ := Kinds.of_view hx hargs
  exact (h x k hx).admits hadmits

theorem Matched.view (h : Matched ρ xs m args Γ σ υ) (hargs : fixed ∨ brgs = args) :
    Matched ρ xs m brgs (Γ.view fixed) σ υ := by
  intro x k hx
  obtain ⟨hx, hadmits⟩ := Kinds.of_view hx hargs
  exact (h x k hx).admits hadmits

/-- A name is bound to a value of the kind, if it can be used. -/
def CoveredName (ρ : String → Option Tree) (xs : List String) (m : Nat) (args : List Tree) (xk : String × Option Kind)
    (xr : String × Option Tree) : Prop :=
  xk.1 = xr.1 ∧ ∀ k, xk.2 = some k → ∃ r, xr.2 = some r ∧ OfKind ρ xs m args k r

/-- A name is bound to a value that comes to the other one. -/
def MatchedName (ρ : String → Option Tree) (xs : List String) (m : Nat) (args : List Tree) (xk : String × Option Kind)
    (xr xw : String × Option Tree) : Prop :=
  xk.1 = xr.1 ∧ xk.1 = xw.1 ∧ ∀ k, xk.2 = some k → ∃ r w, xr.2 = some r ∧ xw.2 = some w ∧ Yields ρ xs m args k r w

theorem Covered.bind (h : Covered ρ xs m args Γ σ) {xks : List (String × Option Kind)}
    (hxks : List.Forall₂ (CoveredName ρ xs m args) xks (parameters 0 ps us)) :
    Covered ρ xs m args (Γ.bind xks) (bound ps us σ) := by
  intro x k hx
  unfold Kinds.bind at hx
  unfold bound
  generalize parameters 0 ps us = xrs at hxks ⊢
  induction hxks with
  | nil => exact h x k hx
  | @cons xk xr xks _ hname _ ih =>
    obtain ⟨y, ok⟩ := xk
    obtain ⟨z, or⟩ := xr
    obtain ⟨rfl, hr⟩ : y = z ∧ _ := hname
    simp only [List.lookup_cons] at hx ⊢
    cases hxy : x == y with
    | true =>
      rw [hxy] at hx
      obtain ⟨r, rfl, hknown⟩ := hr k hx
      exact hknown
    | false =>
      rw [hxy] at hx
      exact ih hx

theorem Matched.bind (h : Matched ρ xs m args Γ σ υ) {xks : List (String × Option Kind)}
    (hxks : Forall₃ (MatchedName ρ xs m args) xks (parameters 0 ps us) (parameters 0 ps ws)) :
    Matched ρ xs m args (Γ.bind xks) (bound ps us σ) (bound ps ws υ) := by
  intro x k hx
  unfold Kinds.bind at hx
  unfold bound
  generalize parameters 0 ps us = xrs at hxks ⊢
  generalize parameters 0 ps ws = xws at hxks ⊢
  induction hxks with
  | nil => exact h x k hx
  | @cons xk xr xw xks _ _ hname _ ih =>
    obtain ⟨y, ok⟩ := xk
    obtain ⟨z, or⟩ := xr
    obtain ⟨z', ow⟩ := xw
    obtain ⟨rfl, rfl, hr⟩ : y = z ∧ y = z' ∧ _ := hname
    simp only [List.lookup_cons] at hx ⊢
    cases hxy : x == y with
    | true =>
      rw [hxy] at hx
      obtain ⟨r, w, rfl, rfl, hyields⟩ := hr k hx
      exact hyields
    | false =>
      rw [hxy] at hx
      exact ih hx

/-! ### Parameters -/

theorem of_drop_eq_cons (h : ts.drop i = t :: us) : ts[i]? = some t ∧ ts.drop (i + 1) = us := by
  rw [← List.head?_drop, ← List.tail_drop, h]
  exact ⟨rfl, rfl⟩

/-- A name of a list pattern is bound to a reference to an element, and to the element where the list is known. -/
def PicksName (ρ : String → Option Tree) (args : List Tree) (xr xc : String × Option Tree) : Prop :=
  xr.1 = xc.1 ∧ ∃ r c, xr.2 = some r ∧ xc.2 = some c ∧ Picks ρ args r c

mutual

theorem picks_bindings : ∀ (p : Tree) {r c : Tree}, p.fits c → Picks ρ args r c →
    List.Forall₂ (PicksName ρ args) (bindings (some r) p) (bindings (some c) p)
  | ident x, r, c, _, h => .cons ⟨rfl, r, c, rfl, rfl, h⟩ .nil
  | node .list ps, r, node .list us, hfits, h => by
    obtain ⟨hlength, hfits⟩ := Bool.and_eq_true_iff.1 hfits
    exact picks_bindingsFrom ps 0 (by simpa using hlength) hfits h

theorem picks_bindingsFrom : ∀ (ps : List Tree) (i : Nat) {r : Tree} {us : List Tree}, i + ps.length < 2 ^ 53 →
    fitsAll ps (us.drop i) → Picks ρ args r (node .list us) →
    List.Forall₂ (PicksName ρ args) (bindingsFrom (some r) i ps) (bindingsFrom (some (node .list us)) i ps)
  | [], _, _, _, _, _, _ => .nil
  | p :: ps, i, r, us, hlength, hfits, h => by
    rw [List.length_cons] at hlength
    cases hdrop : us.drop i with
    | nil =>
      rw [hdrop] at hfits
      cases hfits
    | cons u us' =>
      rw [hdrop] at hfits
      obtain ⟨hu, hus⟩ := Bool.and_eq_true_iff.1 hfits
      obtain ⟨hget, hrest⟩ := of_drop_eq_cons hdrop
      have hpart : Picks ρ args (node .val [num (.ofInt i), r]) u :=
        ⟨resolve_val (by omega) h.resolve hget, isConstant_of_mem h.isConstant u (List.mem_of_getElem? hget), rfl, rfl⟩
      have hr : (some r).bind (part? i) = some (node .val [num (.ofInt i), r]) := by rw [Option.bind_some, part?, h.items]
      have hc : (some (node .list us)).bind (part? i) = some u := hget
      rw [bindingsFrom, bindingsFrom, hr, hc]
      exact List.rel_append (picks_bindings p hu hpart)
        (picks_bindingsFrom ps (i + 1) (by omega) (by rwa [hrest]) h)

end

/-- A list pattern refers to the elements of its argument. -/
theorem picks_of_meets (hp : p.tag = .list) (hfits : p.fits c) (hu : OfKind ρ xs m args k u) (hc : k.constant = some c)
    (hbrgs : k.Admits args brgs) (hi : i < 2 ^ 53) (hget : ts[i]? = some (resolve ρ brgs u)) :
    List.Forall₂ (PicksName ρ ts) (bindings (some (referred i p u)) p) (bindings (some c) p) := by
  obtain ⟨hconstant, hitems, hresolve⟩ := hu.constant c hc
  have hopen : referred i p u = node .arg [num (.ofInt i)] := by simp [referred, isOpen, hp, hitems]
  rw [hopen]
  exact picks_bindings p hfits ⟨(resolve_arg hi hget).trans (hresolve brgs hbrgs), hconstant, rfl, rfl⟩

theorem parts_of_tag (hp : p.tag = .list) : k.parts p = (bindings k.constant p).map fun xc => (xc.1, some ⟨false, xc.2⟩) := by
  cases p with
  | ident x => cases hp
  | _ => rfl

theorem isOpen_of_tag {q : Tree} (hp : p.tag = .list) (hq : p.fits q) : isOpen p q = false := by
  cases p with
  | node tag ps =>
    cases tag <;> cases hp
    cases q with
    | node tag us => cases tag <;> first | rfl | cases hq
    | _ => cases hq
  | _ => cases hp

/-- The names of a function that stays applied have values of their kinds, where the arguments are its own. -/
theorem covered_parameters (hmeets : List.Forall₂ (Kind.Meets fixed) ps as) (hus : List.Forall₂ (OfKind ρ xs m args) as us)
    (hbrgs : fixed ∨ brgs = args) (hlength : i + ps.length ≤ 2 ^ 53) (hts : ts.drop i = us.map (resolve ρ brgs)) :
    List.Forall₂ (CoveredName ρ xs m ts) (Kind.partsAll ps as) (parameters i ps us) := by
  induction hmeets generalizing i us with
  | nil => exact .nil
  | @cons p k ps as hp _ ih =>
    rcases hus with _ | @⟨_, u, _, us, hu, hus⟩
    obtain ⟨hget, hrest⟩ := of_drop_eq_cons hts
    rw [List.length_cons] at hlength
    refine List.rel_append ?_ (ih hus (by omega) hrest)
    rcases hp with ⟨x, rfl⟩ | ⟨hp, ⟨c, hc, hfits⟩, hfixed⟩
    · refine .cons ⟨rfl, fun k' hk' => ⟨u, rfl, ?_⟩⟩ .nil
      obtain ⟨hf, ⟨⟩⟩ := Option.ite_none_right_eq_some.1 hk'
      exact hu.admits (.inl hf)
    · have hpicks := picks_of_meets (i := i) hp hfits hu hc (hbrgs.imp_left hfixed) (by omega) hget
      dsimp only
      rw [parts_of_tag hp, hc, List.forall₂_map_left_iff]
      refine hpicks.flip.imp ?_
      rintro ⟨y, oc⟩ ⟨z, or⟩ ⟨hyz, r, c, hr, hc, h⟩
      obtain rfl : or = some r := hr
      obtain rfl : oc = some c := hc
      refine ⟨hyz.symm, ?_⟩
      rintro _ ⟨⟩
      exact ⟨r, rfl, h.ofKind⟩

/-- These values come to the values where the lists are known. -/
theorem matched_parameters (hmeets : List.Forall₂ (Kind.Meets fixed) ps as) (hus : List.Forall₂ (OfKind ρ xs m args) as us)
    (hws : Forall₃ (Yields ρ xs m args) as us ws) (hbrgs : fixed ∨ brgs = args) (hlength : i + ps.length ≤ 2 ^ 53)
    (hts : ts.drop i = us.map (resolve ρ brgs)) :
    Forall₃ (MatchedName ρ xs m ts) (Kind.partsAll ps as) (parameters i ps us) (parameters i ps ws) := by
  induction hmeets generalizing i us ws with
  | nil => exact .nil
  | @cons p k ps as hp _ ih =>
    rcases hus with _ | @⟨_, u, _, us, hu, hus⟩
    rcases hws with _ | @⟨_, _, w, _, _, ws, hw, hws⟩
    obtain ⟨hget, hrest⟩ := of_drop_eq_cons hts
    rw [List.length_cons] at hlength
    refine Forall₃.append ?_ (ih hus hws (by omega) hrest)
    rcases hp with ⟨x, rfl⟩ | ⟨hp, ⟨c, hc, hfits⟩, hfixed⟩
    · refine .cons ⟨rfl, rfl, fun k' hk' => ⟨u, w, rfl, rfl, ?_⟩⟩ .nil
      obtain ⟨hf, ⟨⟩⟩ := Option.ite_none_right_eq_some.1 hk'
      exact hw.admits (.inl hf)
    · have hpicks := picks_of_meets (i := i) hp hfits hu hc (hbrgs.imp_left hfixed) (by omega) hget
      obtain rfl := hw.eq_of_constant hu hc
      have hknown : referred i p w = w := by rw [referred, isOpen_of_tag hp hfits, if_neg (by decide)]
      dsimp only [List.head?_cons, Option.map_some]
      rw [parts_of_tag hp, hc, hknown]
      generalize bindings (some (referred i p u)) p = xrs at hpicks
      generalize bindings (some w) p = xcs at hpicks
      induction hpicks with
      | nil => exact .nil
      | @cons xr xc _ _ h _ ihs =>
        obtain ⟨z, or⟩ := xr
        obtain ⟨y, oc⟩ := xc
        obtain ⟨hyz, r, c, hr, hc, h⟩ := h
        obtain rfl : or = some r := hr
        obtain rfl : oc = some c := hc
        refine .cons ⟨hyz.symm, rfl, ?_⟩ ihs
        rintro _ ⟨⟩
        exact ⟨r, c, rfl, rfl, h.yields⟩

/-- Plain parameters have the values of their arguments. -/
theorem covered_plain (hus : List.Forall₂ (OfKind ρ xs m args) as us) (hlength : as.length = ys.length) :
    List.Forall₂ (CoveredName ρ xs m args) (ys.zip (as.map some)) (parameters i (ys.map ident) us) := by
  induction hus generalizing i ys with
  | nil =>
    obtain rfl := List.length_eq_zero_iff.1 hlength.symm
    exact .nil
  | @cons k u as us hu _ ih =>
    match ys, hlength with
    | y :: ys, hlength =>
      refine .cons ⟨rfl, ?_⟩ (ih (Nat.succ.inj hlength))
      rintro _ ⟨⟩
      exact ⟨u, rfl, hu⟩

theorem matched_plain (hws : Forall₃ (Yields ρ xs m args) as us ws) (hlength : as.length = ys.length) :
    Forall₃ (MatchedName ρ xs m args) (ys.zip (as.map some)) (parameters i (ys.map ident) us)
      (parameters i (ys.map ident) ws) := by
  induction hws generalizing i ys with
  | nil =>
    obtain rfl := List.length_eq_zero_iff.1 hlength.symm
    exact .nil
  | @cons k u w as us ws hw _ ih =>
    match ys, hlength with
    | y :: ys, hlength =>
      refine .cons ⟨rfl, rfl, ?_⟩ (ih (Nat.succ.inj hlength))
      rintro _ ⟨⟩
      exact ⟨u, w, rfl, rfl, hw⟩

end Tree

end Linefold
