import Linefold.Proofs.Late.Resolution

/-!
# Expressions with functions

`Item Γ t` and `Frame Γ ts ks`: the tree is an expression, and the trees are what stands in a frame, whose values are
of the kinds `ks`, where functions take all of their arguments. A function with a list pattern takes a value for it
that `Γ` knows a literal list for. In its body no name may be used whose value refers to the arguments of a function
around it by position: a position does not say which function it means.
-/

namespace Linefold.Tree

/-! ### Kinds -/

/-- What is known of a value before there are lists for free names. -/
structure Kind where
  /-- It refers to no argument by position. -/
  fixed : Bool
  /-- The literal list, or literal, that it is when there are lists for the names. -/
  constant : Option Tree

/-- The kinds of the names that can be used. -/
abbrev Kinds := String → Option Kind

namespace Kinds

/-- Of the names those whose values refer to no argument, if `fixed` is set. -/
def view (Γ : Kinds) (fixed : Bool) : Kinds := fun x => (Γ x).filter fun k => !fixed || k.fixed

def bind (Γ : Kinds) (xks : List (String × Option Kind)) : Kinds := fun x => (xks.lookup x).getD (Γ x)

/-- The names that are free everywhere, with lists for some. -/
def free (xs : List String) (ρ : String → Option Tree) : Kinds := fun x => if x ∈ xs then some ⟨true, ρ x⟩ else none

end Kinds

namespace Kind

/-- The kinds of the names of a parameter of a function that stays applied. -/
def parts (p : Tree) (k : Kind) : List (String × Option Kind) :=
  match p with
  | ident x => [(x, if k.fixed then some k else none)]
  | p => (bindings k.constant p).map fun xc => (xc.1, some ⟨false, xc.2⟩)

def partsAll (ps : List Tree) (ks : List Kind) : List (String × Option Kind) := (ps.zip ks).flatMap fun (p, k) => k.parts p

/-- A plain parameter takes any value, and a list pattern one whose elements are not known before there is a literal list. -/
def Meets (fixed : Bool) (p : Tree) (k : Kind) : Prop :=
  (∃ x, p = ident x) ∨ p.tag = .list ∧ (∃ c, k.constant = some c ∧ p.fits c) ∧ (fixed → k.fixed)

end Kind

/-! ### Frames -/

mutual

/-- The tree is an expression with one value. -/
inductive Item : Kinds → Tree → Prop where
  | literal {Γ : Kinds} {t : Tree} (h : t.isLiteral) : Item Γ t
  | name {Γ : Kinds} {x : String} {k : Kind} (h : Γ x = some k) : Item Γ (ident x)
  | exprs {Γ : Kinds} {ts : List Tree} {k : Kind} (h : Frame Γ ts [k]) : Item Γ (node .exprs ts)
  | paren {Γ : Kinds} {t : Tree} (h : Item Γ t) : Item Γ (node .paren [t])
  | list {Γ : Kinds} {ts : List Tree} {ks : List Kind} (h : Frame Γ ts ks) : Item Γ (node .list ts)
  | record {Γ : Kinds} {ts : List Tree} (h : ∀ t ∈ ts, Item Γ t) : Item Γ (node .record ts)
  | binding {Γ : Kinds} {key t : Tree} (h : Item Γ t) : Item Γ (node .binding [key, t])
  | negation {Γ : Kinds} {t : Tree} (h : Item Γ t) : Item Γ (node .neg [t])
  | operator {Γ : Kinds} {tag : Tag} {t u : Tree} (htag : tag.isOperator) (hlogical : tag ≠ .or ∧ tag ≠ .and)
      (ht : Item Γ t) (hu : Item Γ u) : Item Γ (node tag [t, u])
  | case {Γ : Kinds} {t : Tree} {cs : List Tree} (ht : Item Γ t) (hof : ∀ c ∈ cs, ∃ p u, c = node .of [p, u])
      (hp : ∀ p u, node .of [p, u] ∈ cs → Item Γ p) (hu : ∀ p u, node .of [p, u] ∈ cs → Item Γ u) :
      Item Γ (node .case (t :: cs))

/-- The trees leave values of the kinds in a frame. -/
inductive Frame : Kinds → List Tree → List Kind → Prop where
  | nil {Γ : Kinds} : Frame Γ [] []
  | name {Γ : Kinds} {x : String} {k : Kind} {ts : List Tree} {ks : List Kind} (h : Γ x = some k) (hs : Frame Γ ts ks) :
      Frame Γ (ident x :: ts) (k :: ks)
  | item {Γ : Kinds} {t : Tree} {ts : List Tree} {ks : List Kind} (fixed : Bool) (h : Item (Γ.view fixed) t)
      (hs : Frame Γ ts ks) : Frame Γ (t :: ts) (⟨fixed, none⟩ :: ks)
  /-- A function of plain parameters is applied. -/
  | call {Γ : Kinds} {names body : Tree} {xs : List String} {ts : List Tree} {as ks : List Kind} (fixed : Bool)
      (hs : Frame Γ ts (as ++ ks)) (hlength : as.length = xs.length) (hnodup : xs.Nodup)
      (h : Item ((Γ.bind (xs.zip (as.map some))).view fixed) body) :
      Frame Γ (node .lambda [names, body, node .list (xs.map ident)] :: ts) (⟨fixed, none⟩ :: ks)
  /-- A function with a list pattern stays applied. -/
  | late {Γ : Kinds} {names body : Tree} {ps ts : List Tree} {as ks : List Kind} (fixed : Bool) (hs : Frame Γ ts (as ++ ks))
      (hmeets : List.Forall₂ (Kind.Meets fixed) ps as) (hlist : ∃ p ∈ ps, p.tag = .list) (hlength : ps.length < 2 ^ 53)
      (hnodup : (identsAll ps).Nodup) (h : Item ((Γ.view true).bind (Kind.partsAll ps as)) body) :
      Frame Γ (node .lambda [names, body, node .list ps] :: ts) (⟨fixed, none⟩ :: ks)

end

variable {Γ : Kinds} {t : Tree} {ts rs : List Tree} {ks : List Kind} {n : Nat} {σ υ : String → Option Tree}

theorem Item.isFunction_eq_false (h : Item Γ t) : t.isFunction = false := by
  cases h with
  | literal h => exact isFunction_eq_false_of_isLiteral h
  | @operator _ tag => cases tag <;> rfl
  | _ => rfl

/-! ### How many values there are -/

theorem length_of_values?_cons {k : Kind} (hfun : t.isFunction = false) (hrs : values? n σ (t :: ts) = some rs)
    (h : ∀ us, values? n σ ts = some us → us.length = ks.length) : rs.length = (k :: ks).length := by
  rw [values?_cons hfun] at hrs
  obtain ⟨v, -, hrs⟩ := Option.bind_eq_some_iff.1 hrs
  obtain ⟨us, hus, hrs⟩ := Option.bind_eq_some_iff.1 hrs
  cases hrs
  exact congrArg (· + 1) (h us hus)

theorem length_of_values?_function {names body : Tree} {ps : List Tree} {as : List Kind} {k : Kind}
    (hrs : values? n σ (node .lambda [names, body, node .list ps] :: ts) = some rs) (hps : ps.length = as.length)
    (h : ∀ us, values? n σ ts = some us → us.length = (as ++ ks).length) : rs.length = (k :: ks).length := by
  rw [values?_function] at hrs
  obtain ⟨us, hus, hrs⟩ := Option.bind_eq_some_iff.1 hrs
  split at hrs
  · cases hrs
  · obtain ⟨v, -, hrs⟩ := Option.bind_eq_some_iff.1 hrs
    cases hrs
    have hlength := h us hus
    rw [List.length_append] at hlength
    simp [hlength, hps]

/-- A frame has a value for each kind. -/
theorem Frame.length_eq : ∀ {Γ : Kinds} {ts rs : List Tree} {ks : List Kind} {n : Nat} {σ : String → Option Tree},
    Frame Γ ts ks → values? n σ ts = some rs → rs.length = ks.length
  | _, _, _, _, _, _, .nil, hrs => by
    cases hrs
    rfl
  | _, _, _, _, _, _, .name _ hs, hrs => length_of_values?_cons rfl hrs fun us hus => hs.length_eq hus
  | _, _, _, _, _, _, .item _ h hs, hrs => length_of_values?_cons h.isFunction_eq_false hrs fun us hus => hs.length_eq hus
  | _, _, _, _, _, _, .call _ hs hlength _ _, hrs =>
    length_of_values?_function hrs (by rw [List.length_map, hlength]) fun us hus => hs.length_eq hus
  | _, _, _, _, _, _, .late _ hs hmeets _ _ _ _, hrs =>
    length_of_values?_function hrs hmeets.length_eq fun us hus => hs.length_eq hus

/-! ### Frames without cases -/

theorem exists_values?_cons (hfun : t.isFunction = false) (hrs : values? n σ (t :: ts) = some rs)
    (h : ∀ v, value? n σ t = some v → ∃ w, value? n υ t = some w)
    (hs : ∀ us, values? n σ ts = some us → ∃ ws, values? n υ ts = some ws) : ∃ ws, values? n υ (t :: ts) = some ws := by
  rw [values?_cons hfun] at hrs ⊢
  obtain ⟨v, hv, hrs⟩ := Option.bind_eq_some_iff.1 hrs
  obtain ⟨us, hus, -⟩ := Option.bind_eq_some_iff.1 hrs
  obtain ⟨w, hw⟩ := h v hv
  obtain ⟨ws, hws⟩ := hs us hus
  exact ⟨w :: ws, by rw [hw, hws]; rfl⟩

theorem exists_values?_function {names body : Tree} {ps : List Tree}
    (hrs : values? n σ (node .lambda [names, body, node .list ps] :: ts) = some rs)
    (h : ∀ us ws v, value? (n - 1) (bound ps us σ) body = some v → ∃ w, value? (n - 1) (bound ps ws υ) body = some w)
    (hs : ∀ us, values? n σ ts = some us → ∃ ws, values? n υ ts = some ws) :
    ∃ ws, values? n υ (node .lambda [names, body, node .list ps] :: ts) = some ws := by
  rw [values?_function] at hrs ⊢
  obtain ⟨us, hus, hrs⟩ := Option.bind_eq_some_iff.1 hrs
  obtain ⟨ws, hws⟩ := hs us hus
  split at hrs
  · cases hrs
  · next hn =>
    obtain ⟨v, hv, -⟩ := Option.bind_eq_some_iff.1 hrs
    obtain ⟨w, hw⟩ := h _ (ws.take ps.length) v hv
    refine ⟨applied ps w (ws.take ps.length) :: ws.drop ps.length, ?_⟩
    rw [hws, Option.bind_eq_bind, Option.bind_some, if_neg hn, hw]
    rfl

theorem exists_values?_of_forall (hfun : ∀ t ∈ ts, t.isFunction = false) (hrs : values? n σ ts = some rs)
    (h : ∀ t ∈ ts, ∀ v, value? n σ t = some v → ∃ w, value? n υ t = some w) : ∃ ws, values? n υ ts = some ws := by
  induction ts generalizing rs with
  | nil => exact ⟨[], rfl⟩
  | cons t ts ih =>
    obtain ⟨hfun, hfuns⟩ := List.forall_mem_cons.1 hfun
    obtain ⟨ht, hts⟩ := List.forall_mem_cons.1 h
    exact exists_values?_cons hfun hrs ht fun us hus => ih hfuns hus hts

mutual

/-- Without cases nothing goes wrong for lack of a clause, whatever the values of names are. -/
theorem Item.exists_value? : ∀ {Γ : Kinds} {t r : Tree} {n : Nat} {σ υ : String → Option Tree}, Item Γ t → t.isCaseFree →
    value? n σ t = some r → ∃ w, value? n υ t = some w
  | _, _, _, _, _, _, .literal h, _, _ => ⟨_, value?_of_isLiteral h⟩
  | _, _, _, _, _, _, .name _, _, _ => ⟨_, rfl⟩
  | _, _, _, _, _, υ, .exprs h, hfree, hr => by
    rw [value?] at hr
    obtain ⟨rs, hrs, -⟩ := Option.bind_eq_some_iff.1 hr
    obtain ⟨ws, hws⟩ := h.exists_values? (υ := υ) (allCaseFree_of_isCaseFree hfree) hrs
    obtain ⟨w, rfl⟩ := List.length_eq_one_iff.1 (h.length_eq hws)
    exact ⟨w, by rw [value?, hws]; rfl⟩
  | _, _, _, _, _, _, .paren h, hfree, hr => by
    obtain ⟨v, hv, -⟩ := Option.bind_eq_some_iff.1 hr
    obtain ⟨w, hw⟩ := h.exists_value? ((isCaseFree_node.1 hfree).2 _ (.head _)) hv
    exact ⟨node .paren [w], by rw [value?, hw]; rfl⟩
  | _, _, _, _, _, _, .list h, hfree, hr => by
    obtain ⟨rs, hrs, -⟩ := Option.bind_eq_some_iff.1 hr
    obtain ⟨ws, hws⟩ := h.exists_values? (allCaseFree_of_isCaseFree hfree) hrs
    exact ⟨node .list ws, by rw [value?, hws]; rfl⟩
  | _, _, _, _, _, _, .record h, hfree, hr => by
    obtain ⟨rs, hrs, -⟩ := Option.bind_eq_some_iff.1 hr
    obtain ⟨ws, hws⟩ := exists_values?_of_forall (fun t ht => (h t ht).isFunction_eq_false) hrs
      fun t ht v hv => (h t ht).exists_value? ((isCaseFree_node.1 hfree).2 t ht) hv
    exact ⟨node .record ws, by rw [value?, hws]; rfl⟩
  | _, _, _, _, _, _, .binding h, hfree, hr => by
    obtain ⟨v, hv, -⟩ := Option.bind_eq_some_iff.1 hr
    obtain ⟨w, hw⟩ := h.exists_value? ((isCaseFree_node.1 hfree).2 _ (.tail _ (.head _))) hv
    exact ⟨_, by rw [value?, hw]; rfl⟩
  | _, _, _, _, _, _, .negation h, hfree, hr => by
    obtain ⟨v, hv, -⟩ := Option.bind_eq_some_iff.1 hr
    obtain ⟨w, hw⟩ := h.exists_value? ((isCaseFree_node.1 hfree).2 _ (.head _)) hv
    exact ⟨_, by rw [value?, hw]; rfl⟩
  | _, _, _, _, _, _, .operator htag _ ht hu, hfree, hr => by
    rw [value?_operator htag] at hr ⊢
    obtain ⟨v, hv, hr⟩ := Option.bind_eq_some_iff.1 hr
    obtain ⟨v', hv', -⟩ := Option.bind_eq_some_iff.1 hr
    obtain ⟨w, hw⟩ := ht.exists_value? ((isCaseFree_node.1 hfree).2 _ (.head _)) hv
    obtain ⟨w', hw'⟩ := hu.exists_value? ((isCaseFree_node.1 hfree).2 _ (.tail _ (.head _))) hv'
    exact ⟨_, by rw [hw, hw']; rfl⟩
  | _, _, _, _, _, _, .case _ _ _ _, hfree, _ => absurd rfl (isCaseFree_node.1 hfree).1

theorem Frame.exists_values? : ∀ {Γ : Kinds} {ts rs : List Tree} {ks : List Kind} {n : Nat} {σ υ : String → Option Tree},
    Frame Γ ts ks → allCaseFree ts → values? n σ ts = some rs → ∃ ws, values? n υ ts = some ws
  | _, _, _, _, _, _, _, .nil, _, _ => ⟨[], rfl⟩
  | _, _, _, _, _, _, _, .name _ hs, hfree, hrs =>
    exists_values?_cons rfl hrs (fun _ _ => ⟨_, rfl⟩) fun _ hus => hs.exists_values? (Bool.and_eq_true_iff.1 hfree).2 hus
  | _, _, _, _, _, _, _, .item _ h hs, hfree, hrs =>
    have hfree := Bool.and_eq_true_iff.1 hfree
    exists_values?_cons h.isFunction_eq_false hrs (fun _ hv => h.exists_value? hfree.1 hv)
      fun _ hus => hs.exists_values? hfree.2 hus
  | _, _, _, _, _, _, _, .call _ hs _ _ h, hfree, hrs =>
    have hfree := Bool.and_eq_true_iff.1 hfree
    exists_values?_function hrs (fun _ _ _ hv => h.exists_value? ((isCaseFree_node.1 hfree.1).2 _ (.tail _ (.head _))) hv)
      fun _ hus => hs.exists_values? hfree.2 hus
  | _, _, _, _, _, _, _, .late _ hs _ _ _ _ h, hfree, hrs =>
    have hfree := Bool.and_eq_true_iff.1 hfree
    exists_values?_function hrs (fun _ _ _ hv => h.exists_value? ((isCaseFree_node.1 hfree.1).2 _ (.tail _ (.head _))) hv)
      fun _ hus => hs.exists_values? hfree.2 hus

end

end Linefold.Tree
