import Linefold.Proofs.Closedness.Names
import Linefold.Proofs.Scoping.Mirrors

/-!
# Names that an evaluation resolves

`Resolves M O p₀ p e`: the values of the environment `e` are nodes of the pool `p` that see the names `O`, a
value without a node is one of these names itself, and its functions are closed in the pool `p₀` that the
evaluation started from. What is opened for a function with its arguments resolves again (`Resolves.opened`,
`Pattern.ensures_bindAll_held`), for the names `O` and those of the parameters that got no argument.
-/

namespace Linefold

open Pattern (PoolM)
open Machine (Callee)

attribute [local irreducible] Pool.intern

variable {M O O' N Z Z' : String → Prop} {p₀ p q : Pool} {e : Environment} {ids patterns args : List NodeId}
  {l : Lexicon} {ws : List Word} {name x : String} {w : Word} {value id : NodeId} {n : Node}

/-! ### Nodes that are values -/

/-- The nodes are there, and see the names. -/
def Pool.Shows (p : Pool) (N : String → Prop) (ids : List NodeId) : Prop := ∀ id ∈ ids, id ≠ 0 ∧ p.Sees N id

namespace Pool.Shows

theorem nil : p.Shows N [] := nofun

theorem cons (hid : id ≠ 0 ∧ p.Sees N id) (h : p.Shows N ids) : p.Shows N (id :: ids) :=
  List.forall_mem_cons.2 ⟨hid, h⟩

theorem mono (h : p.Shows N ids) (hN : ∀ x, N x → O x) : p.Shows O ids := fun id hid =>
  ⟨(h id hid).1, (h id hid).2.mono hN⟩

theorem grow (h : p.Shows N ids) (hpq : p.Extends q) : q.Shows N ids := fun id hid =>
  ⟨(h id hid).1, (h id hid).2.grow hpq⟩

end Pool.Shows

/-- A node that is interned is a value if it is one wherever it is found. -/
theorem Pattern.ensures_intern {Q : NodeId → Pool → Prop} {E : Error → Pool → Prop}
    (hn : ∀ c ∈ n.elts, c ≤ p.size)
    (hQ : ∀ id q, p.Extends q → q.get? id = some n → Q id q) : Ensures (PoolM.intern n) Q E p :=
  hQ _ _ (p.extends_intern n) (Pool.get?_intern hn)

/-! ### Scopes -/

/-- A name of a scope has the word that it was opened with last. -/
theorem Scope.get?_bindAll_cases {sc : Scope} (h : (ws.foldl (fun sc w => sc.bind w.name w) sc).get? x = some w) :
    (w ∈ ws ∧ w.name = x) ∨ (x ∉ ws.map Word.name ∧ sc.get? x = some w) := by
  induction ws generalizing sc with
  | nil => exact .inr ⟨nofun, h⟩
  | cons v ws ih =>
    rcases ih h with ⟨hmem, hname⟩ | ⟨hnot, hget⟩
    · exact .inl ⟨.tail _ hmem, hname⟩
    · have hget : (sc.lexicon.insert v.name v).find? x = some w := hget
      rw [Lexicon.find?_insert] at hget
      split at hget
      · next heq =>
        cases hget
        exact .inl ⟨.head _, heq.symm⟩
      · next hne => exact .inr ⟨by simp [hne, hnot], hget⟩

theorem Scope.get?_opening_cases {P : String → Word → Prop} (hl : l.All P)
    (h : (Scope.opening name l ws).get? x = some w) :
    (w ∈ ws ∧ w.name = x) ∨ (x ∉ ws.map Word.name ∧ P x w) :=
  (get?_bindAll_cases h).imp_right fun h => ⟨h.1, (Lexicon.all_nil.extend hl).find? h.2⟩

/-! ### Environments -/

/-- The names that are open or have a word. -/
abbrev Environment.Within (e : Environment) (O : String → Prop) (x : String) : Prop := O x ∨ (e.lookup? x).isSome

/-- A value has a node that sees the names `O`, or none and then is one of the names `Z`. -/
def Word.Backed (O Z : String → Prop) (p : Pool) (x : String) (w : Word) : Prop :=
  (w.nid = 0 → Z x) ∧ (w.nid ≠ 0 → p.Sees O w.nid)

theorem Word.Backed.mono (h : w.Backed O Z p x) (hO : ∀ y, O y → O' y) (hZ : ∀ y, Z y → Z' y) : w.Backed O' Z' p x :=
  ⟨fun hw => hZ x (h.1 hw), fun hw => (h.2 hw).mono hO⟩

theorem Word.Backed.grow (h : w.Backed O Z p x) (hpq : p.Extends q) : w.Backed O Z q x :=
  ⟨h.1, fun hw => (h.2 hw).grow hpq⟩

structure Resolves (M O : String → Prop) (p₀ p : Pool) (e : Environment) : Prop where
  grown : p₀.Extends p
  lost : ∀ x, M x → O x
  values : ∀ x w, e.lookup? x = some w → w.cls = .value → w.Backed O O p x
  words : ∀ x w, e.lookup? x = some w → w.Closed M p₀ (e.Within O) x

theorem Resolves.grow (h : Resolves M O p₀ p e) (hpq : p.Extends q) : Resolves M O p₀ q e :=
  ⟨h.grown.trans hpq, h.lost, fun x w hw hcls => (h.values x w hw hcls).grow hpq, h.words⟩

theorem Environment.Within.opened (h : e.Within O x) (hO : ∀ y, O y → O' y) :
    (e.opened name l ws).Within O' x := by
  refine h.imp (hO x) fun h => ?_
  rw [lookup?_opened]
  cases (Scope.opening name l ws).get? x with
  | none => exact h
  | some w => rfl

theorem Environment.within_opened (h : x ∈ l.names ∨ x ∈ ws.map Word.name) : (e.opened name l ws).Within O x := by
  right
  rw [lookup?_opened]
  have hfound : ((Scope.opening name l ws).get? x).isSome := Scope.isSome_get?_opening h
  obtain ⟨w, hw⟩ := Option.isSome_iff_exists.1 hfound
  rw [hw]
  rfl

/-- A scope is opened with functions and values, where each value of the functions' lexicon gets another one. -/
theorem Resolves.opened (h : Resolves M O p₀ p e) (name : String) (hO : ∀ x, O x → O' x)
    (hclosed : l.All (Word.Closed M p₀ fun y => e.Within O y ∨ y ∈ l.names))
    (hvalues : l.All fun x w => w.cls ≠ .function → w.cls = .value ∧ x ∈ ws.map Word.name)
    (hws : ∀ w ∈ ws, w.cls = .value ∧ w.Backed O O' p w.name) : Resolves M O' p₀ p (e.opened name l ws) := by
  have hgrow {x : String} {w : Word} (hw : w.Closed M p₀ (e.Within O) x) :
      w.Closed M p₀ ((e.opened name l ws).Within O') x := hw.mono fun _ hy => hy.opened hO
  have hcases {x : String} {w : Word} (hw : (Scope.opening name l ws).get? x = some w) :
      (w ∈ ws ∧ w.name = x) ∨ (w.cls = .function ∧ w.Closed M p₀ ((e.opened name l ws).Within O') x) := by
    rcases Scope.get?_opening_cases (P := fun x w => w.Closed M p₀ (fun y => e.Within O y ∨ y ∈ l.names) x ∧
      (w.cls ≠ .function → w.cls = .value ∧ x ∈ ws.map Word.name))
      (fun nw hnw => ⟨hclosed nw hnw, hvalues nw hnw⟩) hw with hw | ⟨hnot, hw, hvalue⟩
    · exact .inl hw
    · refine .inr ⟨by_contra fun hne => hnot (hvalue hne).2, hw.mono fun y hy => ?_⟩
      exact hy.elim (fun hy => hy.opened hO) fun hy => Environment.within_opened (.inl hy)
  refine ⟨h.grown, fun x hx => hO x (h.lost x hx), fun x w hw hcls => ?_, fun x w hw => ?_⟩
  · rw [Environment.lookup?_opened] at hw
    rcases Option.or_eq_some_iff.1 hw with hw | ⟨-, hw⟩
    · rcases hcases hw with ⟨hmem, rfl⟩ | ⟨hfunction, -⟩
      · exact (hws w hmem).2.mono hO fun _ hy => hy
      · exact nomatch hcls.symm.trans hfunction
    · exact (h.values x w hw hcls).mono hO hO
  · rw [Environment.lookup?_opened] at hw
    rcases Option.or_eq_some_iff.1 hw with hw | ⟨-, hw⟩
    · rcases hcases hw with ⟨hmem, -⟩ | ⟨-, hw⟩
      · exact .of_ne (by simp [(hws w hmem).1])
      · exact hw
    · exact hgrow (h.words x w hw)

/-! ### Values by patterns -/

theorem Pool.sees_unwrapGroup (h : p.Sees O id) : p.Sees O (p.unwrapGroup id) := by
  induction id using Nat.strongRecOn with
  | ind id ih =>
    by_cases hgroup : ∃ t c, p.get? id = some (.branch t [c]) ∧ (t = .paren ∨ t = .exprs)
    · obtain ⟨t, c, hget, ht⟩ := hgroup
      have hc : p.Sees O c := sees_of_branch hget h (by rcases ht with rfl | rfl <;> decide) c (.head _)
      rw [unwrapGroup_of_group hget ht]
      exact ih c (lt_of_get?_branch hget (.head _)) hc
    · rw [unwrapGroup_eq_self fun t c hget ht => hgroup ⟨t, c, hget, ht⟩]
      exact h

/-- The elements of a list see what the list does. -/
theorem Pool.sees_listItems {items : List NodeId} (h : p.listItems? value = some items)
    (hvalue : value ≠ 0 → p.Sees O value) : ∀ c ∈ items, p.Sees O c := by
  unfold listItems? at h
  split at h
  · cases h
    nofun
  · next hne =>
    split at h
    · next es hes =>
      cases h
      exact sees_of_branch hes (sees_unwrapGroup (hvalue hne)) (by decide)
    · cases h

theorem Pool.exists_list_of_pattern {ps : List Pattern} (h : p.pattern id = .list ps) :
    ∃ es, p.get? id = some (.branch .list es) := by
  cases hn : p.get? id with
  | none => exact nomatch h.symm.trans (pattern_of_none hn)
  | some n =>
    by_cases hlist : ∃ es, n = .branch .list es
    · obtain ⟨es, rfl⟩ := hlist
      exact ⟨es, rfl⟩
    · by_cases hname : ∃ s, n = .ident s
      · obtain ⟨s, rfl⟩ := hname
        exact nomatch h.symm.trans (pattern_of_ident hn)
      · exact nomatch h.symm.trans (pattern_of_ne hn (not_exists.1 hname) (not_exists.1 hlist))

namespace Pattern

/-- The pool grows, and the words are values that see the names `O` or are names `Z`. -/
abbrev GivesHeld (O Z : String → Prop) (f : PoolM (List Word)) (p : Pool) : Prop :=
  Ensures f (fun ws q => p.Extends q ∧ ∀ w ∈ ws, w.Backed O Z q w.name) (fun _ _ => True) p

theorem givesHeld_append {f g : PoolM (List Word)} (hf : GivesHeld O Z f p)
    (hg : ∀ q, p.Extends q → GivesHeld O Z g q) : GivesHeld O Z (do return (← f) ++ (← g)) p := by
  refine Ensures.bind_iff.2 (hf.mono ?_ fun _ _ _ => trivial)
  rintro ws q ⟨hpq, hws⟩
  refine Ensures.bind_iff.2 ((hg q hpq).mono ?_ fun _ _ _ => trivial)
  rintro vs r ⟨hqr, hvs⟩
  exact ⟨hpq.trans hqr, fun w hw => (List.mem_append.1 hw).elim (fun hw => (hws w hw).grow hqr) (hvs w)⟩

theorem ensures_projection {i : Nat} (hvalue : p.Sees O value) :
    Ensures (projection i value) (fun id q => p.Extends q ∧ q.Sees O id) (fun _ _ => True) p := by
  refine Ensures.bind_iff.2 (ensures_intern nofun fun index q hpq hindex => ?_)
  have hindex : q.Sees O index := Pool.sees_literal hindex rfl
  have hvalue := hvalue.grow hpq
  refine ensures_intern (by simpa [Node.elts] using ⟨hindex.held, hvalue.held⟩) fun id r hqr hid => ?_
  exact ⟨hpq.trans hqr, Pool.sees_branch hid (by decide) (by simpa using ⟨hindex.grow hqr, hvalue.grow hqr⟩)⟩

mutual

theorem givesHeld_words (i : Nat) : ∀ (x : Pattern) (value : NodeId) (p : Pool), (value ≠ 0 → p.Sees O value) →
    (value = 0 ∨ (∃ ps, x = .list ps) → ∀ y ∈ x.idents, Z y) → GivesHeld O Z (words value i x) p
  | .name _ s, value, p, hvalue, hz => by
    refine ⟨.refl p, fun w hw => ?_⟩
    obtain rfl := List.mem_singleton.1 hw
    exact ⟨fun hw => hz (.inl hw) s (by simp [idents]), hvalue⟩
  | .list ps, value, p, hvalue, hz => by
    have hz : ∀ y ∈ identsOfAll ps, Z y := by simpa [idents] using hz (.inr ⟨ps, rfl⟩)
    unfold words
    refine Ensures.bind_iff.2 (.of_ok rfl ?_)
    cases hitems : p.listItems? value with
    | some items => exact givesHeld_wordsOfItems 0 ps items p (Pool.sees_listItems hitems hvalue) hz
    | none =>
      refine givesHeld_wordsOfParts 0 ps value p (hvalue ?_) hz
      rintro rfl
      cases hitems
  | .faulty _, _, _, _, _ => trivial

theorem givesHeld_wordsOfItems (i : Nat) : ∀ (ps : List Pattern) (items : List NodeId) (p : Pool),
    (∀ c ∈ items, p.Sees O c) → (∀ y ∈ identsOfAll ps, Z y) → GivesHeld O Z (wordsOfItems items i ps) p
  | [], _, p, _, _ => ⟨.refl p, nofun⟩
  | x :: ps, items, p, hitems, hz => by
    have hz : (∀ y ∈ x.idents, Z y) ∧ ∀ y ∈ identsOfAll ps, Z y := by
      simpa [identsOfAll, or_imp, forall_and] using hz
    refine givesHeld_append (givesHeld_words i x _ p (fun hne => ?_) fun _ => hz.1) fun q hpq => ?_
    · cases items with
      | nil => exact absurd rfl hne
      | cons c items => exact hitems c (.head _)
    · exact givesHeld_wordsOfItems (i + 1) ps _ q (fun c hc => (hitems c (List.mem_of_mem_tail hc)).grow hpq) hz.2

theorem givesHeld_wordsOfParts (i : Nat) : ∀ (ps : List Pattern) (value : NodeId) (p : Pool),
    p.Sees O value → (∀ y ∈ identsOfAll ps, Z y) → GivesHeld O Z (wordsOfParts value i ps) p
  | [], _, p, _, _ => ⟨.refl p, nofun⟩
  | x :: ps, value, p, hvalue, hz => by
    have hz : (∀ y ∈ x.idents, Z y) ∧ ∀ y ∈ identsOfAll ps, Z y := by
      simpa [identsOfAll, or_imp, forall_and] using hz
    refine Ensures.bind_iff.2 ((ensures_projection hvalue).mono ?_ fun _ _ _ => trivial)
    rintro part q ⟨hpq, hpart⟩
    refine (givesHeld_append (givesHeld_words i x part q (fun _ => hpart) fun _ => hz.1) fun r hqr =>
      givesHeld_wordsOfParts (i + 1) ps value r ((hvalue.grow hpq).grow hqr) hz.2).mono ?_ fun _ _ _ => trivial
    rintro ws r ⟨hqr, hws⟩
    exact ⟨hpq.trans hqr, hws⟩

end

/-- Parameters that got no argument are among `Z`, and so are all names in list patterns. -/
theorem ensures_bindAll_held (i : Nat) (hp : p₀.Extends p) (hheld : ∀ id ∈ patterns, id ≤ p₀.size)
    (hargs : p.Shows O args) (hlisted : ∀ id ∈ patterns, p₀.Listed Z id)
    (hmissing : ∀ y ∈ p₀.params (patterns.drop args.length), Z y) :
    Ensures (bindAll args i patterns) (fun bound q => p.Extends q ∧ ∀ w ∈ bound.words, w.Backed O Z q w.name)
      (fun _ _ => True) p := by
  induction patterns generalizing args i p with
  | nil => exact ⟨.refl p, List.forall_mem_nil _⟩
  | cons pattern patterns ih =>
    obtain ⟨hle, hheld⟩ := List.forall_mem_cons.1 hheld
    obtain ⟨hlist, hlisted⟩ := List.forall_mem_cons.1 hlisted
    unfold bindAll
    refine Ensures.bind_iff.2 (.of_ok rfl ?_)
    extract_lets arg late shape jp
    have hshape : shape = p₀.pattern pattern := hp.pattern_eq hle
    have harg : arg ≠ 0 → p.Sees O arg := fun hne => by
      cases args with
      | nil => exact absurd rfl hne
      | cons a args => exact (hargs a (.head _)).2
    have hnames : arg = 0 ∨ (∃ ps, shape = .list ps) → ∀ y ∈ shape.idents, Z y := by
      rintro (hzero | ⟨ps, hps⟩) y hy
      · cases args with
        | nil => exact hmissing y (Pool.mem_params.2 ⟨pattern, .head _, hshape ▸ hy⟩)
        | cons a args => exact absurd hzero (hargs a (.head _)).1
      · obtain ⟨es, hes⟩ := Pool.exists_list_of_pattern (hshape.symm.trans hps)
        exact hlist es hes y (hshape ▸ hy)
    have hrest : ∀ source q, p.Extends q → (source ≠ 0 → q.Sees O source) → (source = 0 → arg = 0) →
        Ensures (jp source) (fun bound r => p.Extends r ∧ ∀ w ∈ bound.words, w.Backed O Z r w.name)
          (fun _ _ => True) q := by
      intro source q hpq hsource hzero
      refine Ensures.bind_iff.2 ((givesHeld_words i shape source q hsource fun h =>
        hnames (h.imp_left hzero)).mono ?_ fun _ _ h => h)
      rintro ws r ⟨hqr, hws⟩
      have hpr := hpq.trans hqr
      have hargs' : r.Shows O args.tail := fun c hc => (hargs.grow hpr) c (List.mem_of_mem_tail hc)
      have hmissing' : ∀ y ∈ p₀.params (patterns.drop args.tail.length), Z y := by
        cases args with
        | nil => exact fun y hy => hmissing y (by
            obtain ⟨c, hc, hy⟩ := Pool.mem_params.1 hy
            exact Pool.mem_params.2 ⟨c, .tail _ hc, hy⟩)
        | cons a args => exact hmissing
      refine Ensures.bind_iff.2 ((ih (i + 1) (hp.trans hpr) hheld hargs' hlisted hmissing').mono ?_ fun _ _ h => h)
      rintro bound u ⟨hru, hbound⟩
      exact ⟨hpr.trans hru, fun w hw =>
        (List.mem_append.1 hw).elim (fun hw => (hws w hw).grow hru) (hbound w)⟩
    split
    · refine Ensures.bind_iff.2 (ensures_intern (List.forall_mem_nil _) fun index q hpq hindex => ?_)
      have hindex : q.Sees O index := Pool.sees_literal hindex rfl
      refine Ensures.bind_iff.2
        (ensures_intern (by simpa [Node.elts] using hindex.held) fun source r hqr hsource => ?_)
      refine hrest source r (hpq.trans hqr) (fun _ => ?_) fun hzero => absurd hzero (Pool.ne_zero_of_get? hsource)
      exact Pool.sees_branch hsource (by decide) (by simpa using hindex.grow hqr)
    · exact hrest arg p (.refl p) harg fun hzero => hzero

/-- The pattern node of some parameters has them as elements. -/
theorem ensures_lambdaParts (hheld : ∀ id ∈ patterns, id ≤ p.size) :
    Ensures (lambdaParts patterns) (fun parts q => p.Extends q ∧ parts.1 ≤ q.size ∧
      q.get? parts.2 = some (.branch .list patterns)) (fun _ _ => True) p := by
  unfold lambdaParts
  refine Ensures.bind_iff.2 (.of_ok rfl ?_)
  split
  · trivial
  · next names _ =>
    refine Ensures.bind_iff.2 (.of_ok rfl ?_)
    have hext := p.extends_intern (.branch .list names)
    have hnames : (p.intern (.branch .list names)).1 ≤ (p.intern (.branch .list names)).2.size :=
      Pool.le_size_of_get? (p.get?_intern_within _)
    refine Ensures.bind_iff.2 (ensures_intern (fun c hc => hext.le_size (hheld c hc)) fun id q hpq hid => ?_)
    exact ⟨hext.trans hpq, hpq.le_size hnames, hid⟩

end Pattern

end Linefold
