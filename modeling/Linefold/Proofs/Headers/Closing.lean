import Linefold.Proofs.Closedness.Laid
import Linefold.Proofs.Renaming.Applications
import Linefold.Proofs.Turns.Scopes

/-!
# What a construct records

A definition, a function and a clause that binds its pattern have a header, and when they close they record its names
next to its patterns (`Parsed.Records`). What they record are the values of the scope that they close and the operands
above those that they found (`closes_letBody`, `closes_lambdaEnd`, `closes_ofEnd`).
-/

namespace Linefold

-- Unfolding it looks constant nodes up in the index.
attribute [local irreducible] Pool.intern

/-- A construct with a header, with what its positions keep. -/
inductive Construct where
  | definition (depth : Nat) (name : String) (base : Nat)
  | function (base : Nat)
  | clause

namespace Construct

/-- The positions that wait for the end of the header. -/
def waiting : Construct → List Cont
  | definition depth name base => [.letEqual depth name base]
  | function base => [.lambdaColon base]
  | clause => [.ofColon, .ofEnd]

/-- The position that waits for the end of the body. -/
def closing : Construct → Cont
  | definition depth name base => .letBody depth name base
  | function base => .lambdaEnd base
  | clause => .ofEnd

/-- What is kept fits a construct the scope of which is the innermost of `d`, above `n` operands. -/
def Fits (n d : Nat) : Construct → Prop
  | definition depth _ base => depth + 2 = d ∧ base = n
  | function base => base = n
  | clause => True

end Construct

/-- When the construct has closed, it has recorded the names `ns` for the patterns `ps`: in the closure of its word,
or in the node that it left. -/
inductive Parsed.Records (s : Parsed) : Construct → List String → List NodeId → Prop where
  | definition {depth name base w lexicon ns ps} : s.env.top.get? name = some w → w.closure = some ⟨lexicon, ns, ps⟩ →
      s.Records (.definition depth name base) ns ps
  | function {base id low names body pattern ids ns ps} : s.operands = id :: low →
      s.pool.get? id = some (.branch .lambda [names, body, pattern]) → s.pool.get? names = some (.branch .list ids) →
      s.pool.Names ids ns → s.pool.get? pattern = some (.branch .list ps) → s.Records (.function base) ns ps
  | clause {id low pattern body names ids ns} : s.operands = id :: low →
      s.pool.get? id = some (.branch .of [pattern, body, names]) → s.pool.get? names = some (.branch .list ids) →
      s.pool.Names ids ns → s.Records .clause ns [pattern]
  | unnamed {id low pattern body} : s.operands = id :: low → s.pool.get? id = some (.branch .of [pattern, body]) →
      s.Records .clause [] [pattern]

/-! ### Closing -/

/-- A name has the word that it was bound to. -/
theorem Environment.top_get?_bind {e : Environment} {name : String} {w : Word} :
    (e.bind name w).top.get? name = some w := by
  unfold bind modifyTop
  cases e.inner <;> simp [top, Scope.get?, Scope.bind, Lexicon.find?_insert]

section

variable {p : Pool} {ids names : List NodeId} {ns : List String} {s : Parsed} {t : Token} {X : Construct}
  {body id : NodeId} {low : List NodeId} {scope : Scope} {e : Environment} {E : Error → Parsed → Prop}

theorem Pool.Names.le_size (h : p.Names ids ns) (hid : id ∈ ids) : id ≤ p.size := by
  induction h with
  | nil => cases hid
  | cons hget _ ih =>
    rcases List.mem_cons.1 hid with rfl | hid
    · exact le_size_of_get? hget
    · exact ih hid

/-- Of the children of a node that is interned those that are held stay. -/
theorem Pool.get?_intern_branch (p : Pool) (tag : Tag) (es : List NodeId) :
    (p.intern (.branch tag es)).2.get? (p.intern (.branch tag es)).1 =
      some (.branch tag (es.map fun c => if c ≤ p.size then c else 0)) :=
  p.get?_intern_within _

theorem Pool.Names.unique {ms : List String} (h : p.Names ids ns) (h' : p.Names ids ms) : ns = ms := by
  induction h generalizing ms with
  | nil =>
    cases h'
    rfl
  | cons hget _ ih =>
    cases h' with
    | cons hget' h' =>
      cases hget.symm.trans hget'
      exact congrArg _ (ih h')

/-- What a construct has recorded can be read off. -/
theorem Parsed.Records.unique {ps qs : List NodeId} {ms : List String} (h : s.Records X ns ps) (h' : s.Records X ms qs) :
    ns = ms ∧ ps = qs := by
  cases h with
  | definition hw hclosure =>
    cases h' with
    | definition hw' hclosure' =>
      cases hw.symm.trans hw'
      cases hclosure.symm.trans hclosure'
      exact ⟨rfl, rfl⟩
  | function hoperands hnode hlist hnames hpattern =>
    cases h' with
    | function hoperands' hnode' hlist' hnames' hpattern' =>
      cases hoperands.symm.trans hoperands'
      cases hnode.symm.trans hnode'
      cases hlist.symm.trans hlist'
      cases hpattern.symm.trans hpattern'
      exact ⟨hnames.unique hnames', rfl⟩
  | clause hoperands hnode hlist hnames =>
    cases h' with
    | clause hoperands' hnode' hlist' hnames' =>
      cases hoperands.symm.trans hoperands'
      cases hnode.symm.trans hnode'
      cases hlist.symm.trans hlist'
      exact ⟨hnames.unique hnames', rfl⟩
    | unnamed hoperands' hnode' =>
      cases hoperands.symm.trans hoperands'
      cases hnode.symm.trans hnode'
  | unnamed hoperands hnode =>
    cases h' with
    | clause hoperands' hnode' =>
      cases hoperands.symm.trans hoperands'
      cases hnode.symm.trans hnode'
    | unnamed hoperands' hnode' =>
      cases hoperands.symm.trans hoperands'
      cases hnode.symm.trans hnode'
      exact ⟨rfl, rfl⟩

namespace ParseM

theorem ensures_internNames_names : Ensures (internNames ns)
    (fun ids s' => s'.pool.Names ids ns ∧ s.pool.Extends s'.pool) E s := by
  induction ns generalizing s with
  | nil => exact ⟨.nil, .refl _⟩
  | cons x ns ih =>
    unfold internNames
    rw [Ensures.bind_iff, ensures_intern]
    refine Ensures.bind_iff.2 (ih.mono ?_ fun _ _ he => he)
    rintro ids s' ⟨hnames, hgrows⟩
    exact ⟨.cons (hgrows _ _ (Pool.get?_intern nofun)) hnames, (s.pool.extends_intern _).trans hgrows⟩

theorem ensures_intern_list (hheld : ∀ id ∈ ids, id ≤ s.pool.size) : Ensures (intern (.branch .list ids))
    (fun id s' => s'.pool.get? id = some (.branch .list ids) ∧ s.pool.Extends s'.pool) E s :=
  ⟨Pool.get?_intern hheld, s.pool.extends_intern _⟩

theorem ensures_exit_under {Q : Scope → Parsed → Prop} {owner : ScopeOwner} {errors : Array Diagnostic} :
    Ensures (exit owner) Q E ⟨p, low, e.under scope, errors⟩ ↔ Q scope ⟨p, low, e, errors⟩ := Iff.rfl

/-- The names of the closed scope are recorded with the patterns. -/
abbrev Closes (X : Construct) (scope : Scope) (ids : List NodeId) (f : ParseM Turn) (s : Parsed) : Prop :=
  Ensures f (fun _ s' => s'.Records X scope.params ids.reverse ∧ s.pool.Extends s'.pool) (fun _ _ => True) s

variable {errors : Array Diagnostic}

theorem closes_letBody {depth : Nat} {name : String} (hdepth : depth + 1 = e.depth) :
    Closes (.definition depth name low.length) scope ids ((Cont.letBody depth name low.length).turn t)
      ⟨p, body :: (ids ++ low), e.under scope, errors⟩ := by
  unfold Closes
  rw [← Cont.turn_reduction rfl]
  show Ensures (finishLet depth name low.length >>= fun _ => pure (Turn.passes [])) _ _ _
  unfold finishLet
  rw [Ensures.bind_iff, Ensures.bind_iff, ensures_pop_cons rfl, Ensures.bind_iff, ensures_drainFrom_append rfl rfl,
    Ensures.bind_iff, ensures_exit_under]
  have hword : ((e.bindAt depth name (.defined name body ids.reverse scope)).top.get? name) =
      some (.defined name body ids.reverse scope) := by
    rw [Environment.bindAt_of_depth hdepth, Environment.top_get?_bind]
  exact ⟨.definition hword rfl, .refl _⟩

theorem closes_lambdaEnd (hheld : ∀ id ∈ ids, id ≤ p.size) :
    Closes (.function low.length) scope ids ((Cont.lambdaEnd low.length).turn t)
      ⟨p, body :: (ids ++ low), e.under scope, errors⟩ := by
  show Ensures (takeLambdaEnd low.length t >>= fun a => pure a.turn) _ _ _
  unfold takeLambdaEnd
  rw [Ensures.bind_iff, Ensures.bind_iff, ensures_expect]
  split
  · rw [Ensures.bind_iff, ensures_pop_cons rfl, Ensures.bind_iff, ensures_drainFrom_append rfl rfl, Ensures.bind_iff,
      ensures_exit_under]
    refine Ensures.bind_iff.2 (ensures_internNames_names.mono ?_ fun _ _ he => he)
    rintro names s₁ ⟨hnames, hgrows₁⟩
    refine Ensures.bind_iff.2 ((ensures_intern_list fun _ hc => hnames.le_size hc).mono ?_ fun _ _ he => he)
    rintro i s₂ ⟨hi, hgrows₂⟩
    have hheld₂ : ∀ c ∈ ids.reverse, c ≤ s₂.pool.size := fun c hc =>
      (hgrows₁.trans hgrows₂).le_size (hheld c (List.mem_reverse.1 hc))
    refine Ensures.bind_iff.2 ((ensures_intern_list hheld₂).mono ?_ fun _ _ he => he)
    rintro j s₃ ⟨hj, hgrows₃⟩
    rw [Ensures.bind_iff, ensures_leaveAt]
    have hgrows₄ := s₃.pool.extends_internAt (.branch .lambda [i, body, j]) t.span
    have hnode := s₃.pool.get?_intern_branch .lambda [i, body, j]
    rw [List.map_cons, if_pos (Pool.le_size_of_get? (hgrows₃ _ _ hi)), List.map_cons, List.map_cons,
      if_pos (Pool.le_size_of_get? hj)] at hnode
    exact ⟨.function rfl hnode (hgrows₄ _ _ (hgrows₃ _ _ hi)) (hnames.grow (hgrows₂.trans (hgrows₃.trans hgrows₄)))
      (hgrows₄ _ _ hj), hgrows₁.trans (hgrows₂.trans (hgrows₃.trans hgrows₄))⟩
  · trivial

theorem closes_ofEnd {pattern : NodeId} (hheld : pattern ≤ p.size) :
    Closes .clause scope [pattern] (Cont.ofEnd.turn t) ⟨p, body :: pattern :: low, e.under scope, errors⟩ := by
  unfold Closes
  rw [← Cont.turn_reduction rfl]
  show Ensures (finishClause >>= fun _ => pure (Turn.passes [])) _ _ _
  unfold finishClause
  rw [Ensures.bind_iff, Ensures.bind_iff, ensures_pop_cons rfl, Ensures.bind_iff, ensures_pop_cons rfl, Ensures.bind_iff,
    ensures_exit_under]
  refine Ensures.bind_iff.2 (ensures_internNames_names.mono ?_ fun _ _ he => he)
  rintro names s₁ ⟨hnames, hgrows₁⟩
  generalize scope.params = ns at hnames
  cases hnames with
  | nil =>
    have hnode := s₁.pool.get?_intern_branch .of [pattern, body]
    rw [List.map_cons, if_pos (hgrows₁.le_size hheld)] at hnode
    exact ⟨.unnamed rfl hnode, hgrows₁.trans (s₁.pool.extends_intern _)⟩
  | @cons id x names ns hget hnames =>
    have hnames : s₁.pool.Names (id :: names) (x :: ns) := .cons hget hnames
    refine Ensures.bind_iff.2 ((ensures_intern_list fun _ hc => hnames.le_size hc).mono ?_ fun _ _ he => he)
    rintro i s₂ ⟨hi, hgrows₂⟩
    have hgrows₃ := s₂.pool.extends_intern (.branch .of [pattern, body, i])
    have hnode := s₂.pool.get?_intern_branch .of [pattern, body, i]
    rw [List.map_cons, if_pos ((hgrows₁.trans hgrows₂).le_size hheld), List.map_cons, List.map_cons,
      if_pos (Pool.le_size_of_get? hi)] at hnode
    exact ⟨.clause rfl hnode (hgrows₃ _ _ hi) (hnames.grow (hgrows₂.trans hgrows₃)),
      hgrows₁.trans (hgrows₂.trans hgrows₃)⟩

end ParseM

end

end Linefold
