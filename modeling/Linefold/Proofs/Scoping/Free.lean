import Linefold.Proofs.Evaluation.Scopes

/-!
# Free names

`p.Free x id`: a fold of the node may look up the name `x` in the scopes that it finds. Parameters and
pattern variables are bound where they stand, and the key of a binding is no name at all. A function is
contained in some names if everything free in its body is one of them, a parameter, or a name that it carries
with it (`Callee.Contained`). Two environments that agree on the free names of a node do so wherever a fold
of the node gets to (`Scoped.opened`).
-/

namespace Linefold

open Machine (Callee Clause)

inductive Pool.Free (p : Pool) (x : String) : NodeId → Prop where
  | name {id : NodeId} (h : p.get? id = some (.ident x)) : Free p x id
  | child {id c : NodeId} {t : Tag} {es : List NodeId} (h : p.get? id = some (.branch t es))
      (ht : t ≠ .lambda ∧ t ≠ .binding ∧ t ≠ .case) (hc : c ∈ es) (hx : Free p x c) : Free p x id
  | value {id key v : NodeId} (h : p.get? id = some (.branch .binding [key, v])) (hx : Free p x v) :
      Free p x id
  | lambda {id names body pattern : NodeId} {n : Node}
      (h : p.get? id = some (.branch .lambda [names, body, pattern])) (hpattern : p.get? pattern = some n)
      (hbound : x ∉ p.params n.elts) (hx : Free p x body) : Free p x id
  | scrutinee {id first : NodeId} {clauses : List NodeId}
      (h : p.get? id = some (.branch .case (first :: clauses))) (hx : Free p x first) : Free p x id
  | pattern {id first cid : NodeId} {clauses : List NodeId} {c : Clause}
      (h : p.get? id = some (.branch .case (first :: clauses))) (hmem : cid ∈ clauses)
      (hc : Machine.clause p cid = .ok c) (hnone : c.variable? p = none) (hx : Free p x c.pattern) :
      Free p x id
  | body {id first cid : NodeId} {clauses : List NodeId} {c : Clause}
      (h : p.get? id = some (.branch .case (first :: clauses))) (hmem : cid ∈ clauses)
      (hc : Machine.clause p cid = .ok c) (hbound : ∀ names, c.variable? p ≠ some (x, names))
      (hx : Free p x c.body) : Free p x id

section

variable {p q : Pool} {N N' : String → Prop} {nid id c : NodeId} {name : String} {w : Word}

/-- The node is held, and its free names are among the given ones. -/
structure Pool.Sees (p : Pool) (N : String → Prop) (id : NodeId) : Prop where
  held : id ≤ p.size
  free : ∀ x, p.Free x id → N x

theorem Pool.Sees.mono (h : p.Sees N id) (hN : ∀ x, N x → N' x) : p.Sees N' id :=
  ⟨h.held, fun x hx => hN x (h.free x hx)⟩

namespace Machine

/-- The function finds what it uses among its parameters, what it carries with it, and the given names. -/
structure Callee.Contained (p : Pool) (N : String → Prop) (callee : Callee) : Prop where
  body : p.Sees (fun x => N x ∨ x ∈ callee.lexicon.names ∨ x ∈ p.params callee.pattern) callee.body
  pattern : ∀ i ∈ callee.pattern, i ≤ p.size

theorem Callee.Contained.mono {callee : Callee} (h : callee.Contained p N) (hN : ∀ x, N x → N' x) :
    callee.Contained p N' :=
  ⟨h.body.mono fun x hx => hx.imp_left (hN x), h.pattern⟩

end Machine

/-- A word of a function, if it is one, is contained in the names. -/
def Word.Contained (p : Pool) (N : String → Prop) (name : String) (w : Word) : Prop :=
  w.cls = .function → ∀ c, w.closure = some c →
    Machine.Callee.Contained p N ⟨name, w.nid, c.pattern, c.lexicon⟩

end

/-! ### Lookups -/

section

variable {l m : Lexicon} {name x : String} {ws : List Word} {sc : Scope} {e : Environment}

theorem Lexicon.isSome_find?_insert {w : Word} (h : (l.find? x).isSome ∨ x = name) :
    ((l.insert name w).find? x).isSome := by
  rw [find?_insert]
  split
  · rfl
  · next hne => exact h.resolve_right hne

theorem Lexicon.isSome_find?_extend (h : (l.find? x).isSome ∨ x ∈ m.names) :
    ((l.extend m).find? x).isSome := by
  unfold Lexicon.extend
  induction m generalizing l with
  | nil => exact h.resolve_right (by simp [names])
  | cons nw m ih =>
    obtain ⟨n, w⟩ := nw
    refine ih ?_
    rcases h with h | h
    · exact .inl (isSome_find?_insert (.inl h))
    · rcases List.mem_cons.1 h with rfl | h
      · exact .inl (isSome_find?_insert (.inr rfl))
      · exact .inr h

theorem Scope.isSome_get?_bindAll (h : (sc.get? x).isSome ∨ x ∈ ws.map Word.name) :
    ((ws.foldl (fun sc w => Scope.bind sc w.name w) sc).get? x).isSome := by
  induction ws generalizing sc with
  | nil => exact h.resolve_right (by simp)
  | cons w ws ih =>
    refine ih ?_
    rcases h with h | h
    · exact .inl (Lexicon.isSome_find?_insert (.inl h))
    · rcases List.mem_cons.1 h with rfl | h
      · exact .inl (Lexicon.isSome_find?_insert (.inr rfl))
      · exact .inr h

theorem Scope.all_opening {P : String → Word → Prop} (name : String) (hl : l.All P)
    (hws : ∀ w ∈ ws, P w.name w) : (Scope.opening name l ws).lexicon.All P := by
  unfold Scope.opening
  refine List.foldlRecOn ws _ (motive := fun sc : Scope => sc.lexicon.All P) ?_ fun sc hsc w hw => ?_
  · exact Lexicon.all_nil.extend hl
  · exact hsc.insert (hws w hw)

/-- A scope has the names that it is opened with. -/
theorem Scope.isSome_get?_opening (h : x ∈ l.names ∨ x ∈ ws.map Word.name) :
    ((Scope.opening name l ws).get? x).isSome :=
  isSome_get?_bindAll (h.imp_left fun h => Lexicon.isSome_find?_extend (.inr h))

theorem Environment.lookup?_opened : (e.opened name l ws).lookup? x =
    ((Scope.opening name l ws).get? x).or (e.lookup? x) := by
  rw [opened_eq]
  unfold Environment.lookup?
  rw [List.findSome?_cons]
  cases (Scope.opening name l ws).get? x <;> rfl

theorem Environment.lookup?_callers {callers : List Scope}
    (h : ∀ sc ∈ callers, sc.get? x = none) :
    Environment.lookup? { e with inner := callers ++ e.inner } x = e.lookup? x := by
  unfold Environment.lookup?
  rw [List.findSome?_append, List.findSome?_eq_none_iff.2 h, Option.none_or]

end

/-! ### Environments that agree on names -/

/-- In the pool `p`, which has grown from `p₀`, the environment `f` has at least as many scopes as `e` and
agrees with it on the names `N`; and a function that `e` has for one of these is contained in them. -/
structure Scoped (p₀ p : Pool) (N : String → Prop) (e f : Environment) : Prop where
  grown : p₀.Extends p
  words : ∀ x w, N x → e.lookup? x = some w → w.Throughout (Word.Contained p₀ N) x
  limit : f.limit = e.limit
  depth : e.depth ≤ f.depth
  lookup : ∀ x, N x → f.lookup? x = e.lookup? x

namespace Scoped

variable {p₀ p q : Pool} {N N' : String → Prop} {e f : Environment} {lexicon : Lexicon} {ws : List Word}
  {name : String}

theorem mono (h : Scoped p₀ p N e f) (hpq : p.Extends q) : Scoped p₀ q N e f :=
  ⟨h.grown.trans hpq, h.words, h.limit, h.depth, h.lookup⟩

/-- A scope is opened in both, with the same words. -/
theorem opened (h : Scoped p₀ p N e f) (name : String)
    (hlexicon : lexicon.All (Word.Throughout (Word.Contained p₀ N))) (hws : Pattern.AllValues ws)
    (hN : ∀ x, N x → N' x) (hN' : ∀ x, N' x → N x ∨ x ∈ lexicon.names ∨ x ∈ ws.map Word.name) :
    Scoped p₀ p N' (e.opened name lexicon ws) (f.opened name lexicon ws) := by
  obtain ⟨hlength, hlimit⟩ := e.opened_length_limit name lexicon ws
  obtain ⟨hlength', hlimit'⟩ := f.opened_length_limit name lexicon ws
  have hvalue : ∀ w ∈ ws, w.Throughout (Word.Contained p₀ N) w.name := fun w hw => by
    have hcls := hws w hw
    exact .of_ne (by simp [hcls]) fun hfunction => nomatch hcls.symm.trans hfunction
  have hopening := Scope.all_opening name hlexicon hvalue
  have hgrow {x : String} {w : Word} (hw : w.Throughout (Word.Contained p₀ N) x) :
      w.Throughout (Word.Contained p₀ N') x :=
    hw.mono fun _ _ hw hcls c hc => (hw hcls c hc).mono hN
  -- A name of `N'` that the scope does not have is one of `N`.
  have hdefined {x : String} (hx : N' x) (hget : (Scope.opening name lexicon ws).get? x = none) : N x := by
    refine (hN' x hx).resolve_right fun hx => ?_
    have hfound : ((Scope.opening name lexicon ws).get? x).isSome := Scope.isSome_get?_opening hx
    rw [hget] at hfound
    cases hfound
  refine ⟨h.grown, fun x w hx hw => ?_, ?_, ?_, fun x hx => ?_⟩
  · rw [Environment.lookup?_opened] at hw
    rcases Option.or_eq_some_iff.1 hw with hw | ⟨hget, hw⟩
    · exact hgrow (hopening.find? hw)
    · exact hgrow (h.words x w (hdefined hx hget) hw)
  · rw [hlimit, hlimit', h.limit]
  · have hdepth := h.depth
    simp only [Environment.depth, hlength, hlength'] at hdepth ⊢
    omega
  · rw [Environment.lookup?_opened, Environment.lookup?_opened]
    cases hget : (Scope.opening name lexicon ws).get? x with
    | none => rw [h.lookup x (hdefined hx hget)]
    | some w => rfl

end Scoped

end Linefold
