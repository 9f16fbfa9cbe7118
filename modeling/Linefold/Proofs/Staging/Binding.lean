import Linefold.Proofs.Staging.Runs

/-!
# Parameters bound in a run

The words that binding parameters gives to their names have the trees that `Tree.parameters` says, and the lists of the names
and the patterns of a function are those of `Tree.lambda`.
-/

namespace Linefold

open Pattern (PoolM)

attribute [local irreducible] Pool.intern

variable {α β : Type} {p q : Pool} {i n : Nat} {c value : NodeId} {us ls is : List NodeId} {t v : Tree} {ps vs ts : List Tree}
  {o : Option Tree} {w : Word} {xo : String × Option Tree}

/-! ### Computations that succeed -/

/-- The computation succeeds, and adds to the pool. -/
def Succeeds (f : PoolM α) (P : α → Pool → Prop) (p : Pool) : Prop :=
  Ensures f (fun a q => p.Extends q ∧ P a q) (fun _ _ => False) p

namespace Succeeds

variable {f g : PoolM α} {k : α → PoolM β} {P P' : α → Pool → Prop} {Q : β → Pool → Prop}

theorem pure {a : α} (h : P a p) : Succeeds (Pure.pure a) P p := ⟨.refl p, h⟩

theorem bind (h : Succeeds f P p) (hk : ∀ a q, p.Extends q → P a q → Succeeds (k a) Q q) : Succeeds (f >>= k) Q p :=
  Ensures.bind_iff.2 (h.mono (fun a q ha => (hk a q ha.1 ha.2).mono (fun _ _ hb => ⟨ha.1.trans hb.1, hb.2⟩)
    fun _ _ h => h) fun _ _ h => h)

theorem mono (h : Succeeds f P p) (hP : ∀ a q, p.Extends q → P a q → P' a q) : Succeeds f P' p :=
  Ensures.mono h (fun a q ha => ⟨ha.1, hP a q ha.1 ha.2⟩) fun _ _ h => h

theorem congr (h : Succeeds g P p) (hf : f p = g p) : Succeeds f P p := by
  unfold Succeeds Ensures at h ⊢
  rwa [hf]

theorem exists_ok (h : Succeeds f P p) : ∃ a q, f p = .ok a q ∧ p.Extends q ∧ P a q := by
  unfold Succeeds Ensures at h
  split at h
  · next a q hf => exact ⟨a, q, hf, h⟩
  · exact h.elim

end Succeeds

theorem Pool.succeeds_intern (h : p.HasTrees is ts) {tag : Tag} :
    Succeeds (PoolM.intern (.branch tag is)) (fun i q => q.tree? i = some (.node tag ts)) p :=
  ⟨p.extends_intern _, tree?_intern_branch h⟩

theorem Pool.succeeds_intern_number {x : Number} : Succeeds (PoolM.intern (.num x)) (fun i q => q.tree? i = some (.num x)) p :=
  ⟨p.extends_intern _, tree?_intern_leaf rfl⟩

/-! ### Words -/

/-- The node has the tree, or there is none. -/
def Pool.Denotes (p : Pool) (i : NodeId) (o : Option Tree) : Prop := p.tree? i = o ∧ (o = none → i = 0)

namespace Pool.Denotes

theorem of_tree? (h : p.tree? i = some t) : p.Denotes i (some t) := ⟨h, nofun⟩

theorem absent : p.Denotes 0 none := ⟨tree?_of_none rfl, fun _ => rfl⟩

theorem mono (h : p.Denotes i o) (hpq : p.Extends q) : q.Denotes i o := by
  cases o with
  | none => exact h.2 rfl ▸ .absent
  | some t => exact .of_tree? (hpq.tree? h.1)

theorem of_head? (h : p.HasTrees us vs) : p.Denotes (us.head?.getD 0) vs.head? := by
  cases h with
  | nil => exact .absent
  | cons h _ => exact .of_tree? h

theorem listItems? (h : p.Denotes i o) :
    (∃ es ts, p.listItems? i = some es ∧ p.HasTrees es ts ∧ ∀ n, o.bind (Tree.part? n) = ts[n]?) ∨
    ∃ v, o = some v ∧ v.items? = none ∧ p.listItems? i = none := by
  cases o with
  | none =>
    refine .inl ⟨[], [], ?_, .nil, fun _ => rfl⟩
    rw [Pool.listItems?, if_pos (h.2 rfl)]
  | some v =>
    have hne : i ≠ 0 := by
      rintro rfl
      cases (tree?_of_none rfl).symm.trans h.1
    have htree := tree?_unwrapGroup h.1
    rw [Pool.listItems?, if_neg hne]
    by_cases hlist : ∃ ts, v.ungroup = .node .list ts
    · obtain ⟨ts, hts⟩ := hlist
      rw [hts] at htree
      obtain ⟨es, hn, hes⟩ := tree?_eq_node_iff.1 htree
      refine .inl ⟨es, ts, by rw [hn], hes, fun n => ?_⟩
      rw [Option.bind_some, Tree.part?, Tree.items?, hts]
    · have hitems : v.items? = none := by
        unfold Tree.items?
        split
        · exact absurd ⟨_, ‹_›⟩ hlist
        · rfl
      refine .inr ⟨v, rfl, hitems, ?_⟩
      split
      · next es hn =>
        obtain ⟨ts, -, hts⟩ := Option.map_eq_some_iff.1 ((tree?_of_branch hn).symm.trans htree)
        exact absurd ⟨ts, hts.symm⟩ hlist
      · rfl

end Pool.Denotes

/-- The word is a value of the name, with the tree that there is for it. -/
structure Word.Stands (p : Pool) (w : Word) (xo : String × Option Tree) : Prop where
  name : w.name = xo.1
  cls : w.cls = .value
  tree : p.Denotes w.nid xo.2

theorem Word.Stands.mono (h : w.Stands p xo) (hpq : p.Extends q) : w.Stands q xo := ⟨h.name, h.cls, h.tree.mono hpq⟩

/-- The words stand for what the bindings give, in order. -/
abbrev Pool.Words (p : Pool) : List Word → List (String × Option Tree) → Prop := List.Forall₂ (Word.Stands p)

theorem Pool.Words.mono {ws : List Word} {xos : List (String × Option Tree)} (h : p.Words ws xos) (hpq : p.Extends q) :
    q.Words ws xos := h.imp fun _ _ h => h.mono hpq

/-! ### Patterns -/

namespace Pattern

open Linefold.Tree

mutual

theorem succeeds_bindings : ∀ (t : Tree), t.isPattern → ∀ {p q : Pool} {c value : NodeId} {o : Option Tree} (n : Nat),
    p.tree? c = some t → q.Denotes value o → Succeeds (words value n (p.pattern c)) (fun ws r => r.Words ws (bindings o t)) q
  | ident x, _, p, q, c, value, o, n, hc, hv => by
    have hn : p.get? c = some (.ident x) := (Pool.tree?_eq_leaf_iff rfl).1 hc
    rw [Pool.pattern_of_ident hn]
    exact .pure (.cons ⟨rfl, rfl, hv⟩ .nil)
  | node .list ts, h, p, q, c, value, o, n, hc, hv => by
    obtain ⟨es, hn, hes⟩ := Pool.tree?_eq_node_iff.1 hc
    rw [Pool.pattern_of_list hn]
    rcases hv.listItems? with ⟨is, us, his, hus, hparts⟩ | ⟨v, rfl, hitems, his⟩
    · have hwords : words value n (.list (es.map p.pattern)) q = wordsOfItems is 0 (es.map p.pattern) q := by
        rw [words]
        simp only [bind, EStateM.bind, PoolM.listItems?, his]
      exact (succeeds_bindingsOfItems ts h 0 0 hes hus fun j => by rw [Nat.zero_add, hparts]).congr hwords
    · have hwords : words value n (.list (es.map p.pattern)) q = wordsOfParts value 0 (es.map p.pattern) q := by
        rw [words]
        simp only [bind, EStateM.bind, PoolM.listItems?, his]
      exact (succeeds_bindingsOfParts ts h 0 hes hitems hv.1).congr hwords

theorem succeeds_bindingsOfItems : ∀ (ts : List Tree), allPatterns ts → ∀ {p q : Pool} {es is : List NodeId} {us : List Tree}
    {o : Option Tree} (k n : Nat), p.HasTrees es ts → q.HasTrees is us → (∀ j, o.bind (part? (k + j)) = us[j]?) →
    Succeeds (wordsOfItems is n (es.map p.pattern)) (fun ws r => r.Words ws (bindingsFrom o k ts)) q
  | [], _, p, q, _, is, us, o, k, n, .nil, _, _ => .pure .nil
  | t :: ts, h, p, q, _ :: es, is, us, o, k, n, .cons hc hes, his, hparts => by
    obtain ⟨ht, hts⟩ := Bool.and_eq_true_iff.1 h
    have hhead : o.bind (part? k) = us.head? := by rw [List.head?_eq_getElem?, ← hparts 0, Nat.add_zero]
    have htail : ∀ j, o.bind (part? (k + 1 + j)) = us.tail[j]? := by
      intro j
      rw [List.getElem?_tail, ← hparts (j + 1), Nat.add_assoc, Nat.add_comm 1 j]
    have hitems : q.HasTrees is.tail us.tail := by
      cases his with
      | nil => exact .nil
      | cons _ h => exact h
    rw [List.map_cons, wordsOfItems, bindingsFrom, hhead]
    refine (succeeds_bindings t ht n hc (.of_head? his)).bind fun ws r hqr hws => ?_
    refine (succeeds_bindingsOfItems ts hts (k + 1) (n + 1) hes (hitems.mono hqr) htail).bind fun ws' r' hrr' hws' => ?_
    exact .pure (List.rel_append (Pool.Words.mono hws hrr') hws')

theorem succeeds_bindingsOfParts : ∀ (ts : List Tree), allPatterns ts → ∀ {p q : Pool} {es : List NodeId} {value : NodeId}
    {v : Tree} (k : Nat), p.HasTrees es ts → v.items? = none → q.tree? value = some v →
    Succeeds (wordsOfParts value k (es.map p.pattern)) (fun ws r => r.Words ws (bindingsFrom (some v) k ts)) q
  | [], _, p, q, _, value, v, k, .nil, _, _ => .pure .nil
  | t :: ts, h, p, q, _ :: es, value, v, k, .cons hc hes, hitems, hv => by
    obtain ⟨ht, hts⟩ := Bool.and_eq_true_iff.1 h
    have hpart : (some v).bind (part? k) = some (node .val [num (.ofInt k), v]) := by rw [Option.bind_some, part?, hitems]
    have hprojection : Succeeds (projection k value) (fun i r => r.tree? i = some (node .val [num (.ofInt k), v])) q :=
      Pool.succeeds_intern_number.bind fun j r hqr hj => Pool.succeeds_intern (.cons hj (.cons (hqr.tree? hv) .nil))
    rw [List.map_cons, wordsOfParts, bindingsFrom, hpart]
    refine hprojection.bind fun i r hqr hi => ?_
    refine (succeeds_bindings t ht k hc (.of_tree? hi)).bind fun ws r' hrr' hws => ?_
    refine (succeeds_bindingsOfParts ts hts (k + 1) hes hitems ((hqr.trans hrr').tree? hv)).bind fun ws' r'' hr'' hws' => ?_
    exact .pure (List.rel_append (Pool.Words.mono hws hr'') hws')

end

theorem tag?_of_tree? (h : p.tree? c = some t) : p.tag? c = some t.tag := by
  rcases Pool.leafTree?_of_tree? h with ⟨n, hn, hleaf⟩ | ⟨tag, es, ts, hn, rfl, -⟩
  · rw [Pool.tag?, hn]
    cases n <;> cases hleaf <;> rfl
  · rw [Pool.tag?, hn]
    rfl

/-- Whether a list pattern meets a value whose elements are not known. -/
theorem late_eq (hc : p.tree? c = some t) (hv : p.Denotes value o) :
    (decide (value ≠ 0) && decide (p.tag? c = some .list) && (p.listItems? value).isNone) = o.any (isOpen t) := by
  rw [tag?_of_tree? hc]
  cases o with
  | none => simp [hv.2 rfl]
  | some v =>
    have hne : value ≠ 0 := by
      rintro rfl
      cases (Pool.tree?_of_none rfl).symm.trans hv.1
    have hitems : (p.listItems? value).isNone = v.items?.isNone := by
      rcases hv.listItems? with ⟨is, us, his, -, hparts⟩ | ⟨_, ⟨⟩, hitems, his⟩
      · have hsome : v.items? ≠ none := by
          intro hnone
          have hpart := hparts us.length
          rw [Option.bind_some, part?, hnone, List.getElem?_eq_none (Nat.le_refl _)] at hpart
          cases hpart
        rw [his, Option.isNone_some, eq_comm, Option.isNone_eq_false_iff, Option.isSome_iff_ne_none]
        exact hsome
      · rw [his, hitems]
        rfl
    simp [isOpen, hne, hitems]

/-- The node that a parameter is bound to. -/
def bindee (late : Bool) (i : Nat) (arg : NodeId) : PoolM NodeId :=
  if late then do PoolM.intern (.branch .arg [← PoolM.intern (.num (.ofInt i))]) else return arg

/-- Parameters give words to their names, from the arguments or the positions of these. -/
theorem succeeds_bindAll (hps : ∀ t ∈ ps, t.isPattern) (hls : p.HasTrees ls ps) (hus : p.HasTrees us vs) :
    Succeeds (bindAll us i ls) (fun bound q => q.Words bound.words (parameters i ps vs) ∧ bound.late = isLate ps vs) p := by
  induction ps generalizing p ls us vs i with
  | nil =>
    cases hls
    exact .pure ⟨.nil, rfl⟩
  | cons t ps ih =>
    rcases hls with _ | @⟨c, _, ls, _, hc, hls⟩
    obtain ⟨ht, hps⟩ := List.forall_mem_cons.1 hps
    have hhead := Pool.Denotes.of_head? hus
    have htail : p.HasTrees us.tail vs.tail := by
      cases hus with
      | nil => exact .nil
      | cons _ h => exact h
    have hlate : isLate (t :: ps) vs = (vs.head?.any (isOpen t) || isLate ps vs.tail) := by
      cases vs <;> simp [isLate]
    have hsource : Succeeds (bindee (vs.head?.any (isOpen t)) i (us.head?.getD 0))
        (fun source q => q.Denotes source (vs.head?.map (referred i t))) p := by
      unfold bindee
      cases hv : vs.head? with
      | none =>
        rw [hv] at hhead
        exact .pure hhead
      | some v =>
        rw [hv] at hhead
        rw [Option.any_some, Option.map_some, referred]
        split
        · refine Pool.succeeds_intern_number.bind fun j q _ hj => ?_
          exact (Pool.succeeds_intern (.cons hj .nil)).mono fun j r _ hj => .of_tree? hj
        · exact .pure hhead
    have hwork : Succeeds ((do
        let source ← bindee (vs.head?.any (isOpen t)) i (us.head?.getD 0)
        let ws ← words source i (p.pattern c)
        let rest ← bindAll us.tail (i + 1) ls
        return ⟨ws ++ rest.words, vs.head?.any (isOpen t) || rest.late⟩ : PoolM Binding))
        (fun bound q => q.Words bound.words (parameters i (t :: ps) vs) ∧ bound.late = isLate (t :: ps) vs) p := by
      refine hsource.bind fun source q hpq hsource => ?_
      refine (succeeds_bindings t ht i hc hsource).bind fun ws r hqr hws => ?_
      have hpr := hpq.trans hqr
      refine (ih hps (Pool.HasTrees.mono hls hpr) (Pool.HasTrees.mono htail hpr)).bind fun rest r' hrr' hrest => ?_
      refine .pure ⟨?_, ?_⟩
      · rw [parameters]
        exact List.rel_append (Pool.Words.mono hws hrr') hrest.1
      · rw [hlate, hrest.2]
    refine hwork.congr ?_
    rw [bindAll, get_bind]
    simp only [late_eq hc hhead, bindee]
    split <;> rfl

mutual

theorem exists_identNodes : ∀ (t : Tree), t.isPattern → ∀ {p : Pool} {c : NodeId}, p.tree? c = some t →
    ∃ ids, (p.pattern c).names = .ok ids ∧ p.HasTrees ids (t.idents.map .ident)
  | ident x, _, p, c, hc => by
    have hn : p.get? c = some (.ident x) := (Pool.tree?_eq_leaf_iff rfl).1 hc
    rw [Pool.pattern_of_ident hn]
    exact ⟨[c], rfl, .cons hc .nil⟩
  | node .list ts, h, p, c, hc => by
    obtain ⟨es, hn, hes⟩ := Pool.tree?_eq_node_iff.1 hc
    rw [Pool.pattern_of_list hn]
    exact exists_identNodesOfAll ts h hes

theorem exists_identNodesOfAll : ∀ (ts : List Tree), allPatterns ts → ∀ {p : Pool} {es : List NodeId}, p.HasTrees es ts →
    ∃ ids, namesOfAll (es.map p.pattern) = .ok ids ∧ p.HasTrees ids ((identsAll ts).map .ident)
  | [], _, p, _, .nil => ⟨[], rfl, .nil⟩
  | t :: ts, h, p, _ :: es, .cons hc hes => by
    obtain ⟨ht, hts⟩ := Bool.and_eq_true_iff.1 h
    obtain ⟨ids, hids, hnames⟩ := exists_identNodes t ht hc
    obtain ⟨ids', hids', hnames'⟩ := exists_identNodesOfAll ts hts hes
    refine ⟨ids ++ ids', ?_, ?_⟩
    · rw [List.map_cons, namesOfAll, hids, hids']
      rfl
    · rw [identsAll, List.map_append]
      exact List.rel_append hnames hnames'

end

/-- The lists of the names and of the patterns of parameters. -/
theorem succeeds_lambdaParts (hps : allPatterns ps) (hls : p.HasTrees ls ps) : Succeeds (lambdaParts ls)
    (fun kl q => q.tree? kl.1 = some (node .list ((identsAll ps).map ident)) ∧ q.tree? kl.2 = some (node .list ps)) p := by
  obtain ⟨ids, hids, hnames⟩ := exists_identNodesOfAll ps hps hls
  have hwork : Succeeds (do return (← PoolM.intern (.branch .list ids), ← PoolM.intern (.branch .list ls)))
      (fun kl q => q.tree? kl.1 = some (node .list ((identsAll ps).map ident)) ∧ q.tree? kl.2 = some (node .list ps)) p := by
    refine (Pool.succeeds_intern hnames).bind fun k q hpq hk => ?_
    refine (Pool.succeeds_intern (Pool.HasTrees.mono hls hpq)).bind fun l r hqr hl => ?_
    exact .pure ⟨hqr.tree? hk, hl⟩
  refine hwork.congr ?_
  rw [lambdaParts, get_bind]
  simp only [hids]

end Pattern

end Linefold
