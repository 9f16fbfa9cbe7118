import Linefold.Proofs.Arithmetic.Computed
import Mathlib.Data.List.Nodup

/-!
# The history of a pool

Whatever is interned, nodes or trees, comes down to entries: nodes, some with a place, whose children are held
already. A pool is its list of entries without the repetitions (`Pool.Records`): the nodes stand in the order of
their first entries, and the place of a node is that of its first entry with one. Hence ids stand for trees
(`Pool.internTree_eq_iff`).
-/

namespace Linefold

attribute [local irreducible] Pool.intern

namespace Pool

/-- What a pool is asked to hold. -/
inductive Request where
  /-- A node, perhaps at a place. -/
  | node (n : Node) (span : Option Span)
  | tree (t : Tree)

/-- The id under which the pool holds what was asked for. -/
def serve (p : Pool) : Request → NodeId × Pool
  | .node n none => p.intern n
  | .node n (some span) => p.internAt n span
  | .tree t => p.internTree t

/-- The pool after some requests. -/
def serveAll (p : Pool) (rs : List Request) : Pool := rs.foldl (fun p r => (p.serve r).2) p

/-! ### Entries -/

/-- A node that is interned. -/
structure Entry where
  node : Node
  span : Option Span

/-- Interns the node of an entry. -/
def enter (p : Pool) (e : Entry) : Pool := (p.serve (.node e.node e.span)).2

def enterAll (p : Pool) (es : List Entry) : Pool := es.foldl enter p

mutual

/-- The nodes that a tree brings, children first. -/
def treeEntries (p : Pool) : Tree → List Entry
  | .num x => [⟨.num x, none⟩]
  | .str s => [⟨.str s, none⟩]
  | .ident name => [⟨.ident name, none⟩]
  | .bool b => [⟨.bool b, none⟩]
  | .null => [⟨.null, none⟩]
  | .node t ts => p.treesEntries ts ++ [⟨.branch t (p.internTrees ts).1, none⟩]

def treesEntries (p : Pool) : List Tree → List Entry
  | [] => []
  | t :: ts => p.treeEntries t ++ (p.internTree t).2.treesEntries ts

end

/-- The entries that a request comes down to. A child that is no node of the pool is absent. -/
def entries (p : Pool) : Request → List Entry
  | .node n span => [⟨n.within p.size, span⟩]
  | .tree t => p.treeEntries t

/-- The entries of some requests, in the order in which they are made. -/
def history (p : Pool) : List Request → List Entry
  | [] => []
  | r :: rs => p.entries r ++ (p.serve r).2.history rs

/-! ### Trees in a pool -/

variable {p q : Pool} {id : NodeId} {ids : List NodeId} {n : Node} {t : Tree} {ts : List Tree} {es fs : List Entry} {e : Entry}
  {r : Request} {rs : List Request} {span : Option Span}

theorem extends_enter (p : Pool) (e : Entry) : p.Extends (p.enter e) := by
  obtain ⟨n, _ | span⟩ := e
  · exact p.extends_intern n
  · exact p.extends_internAt n span

theorem extends_enterAll : p.Extends (p.enterAll es) := by
  induction es generalizing p with
  | nil => exact .refl p
  | cons e es ih => exact (p.extends_enter e).trans ih

theorem enterAll_append : p.enterAll (es ++ fs) = (p.enterAll es).enterAll fs := List.foldl_append

mutual

theorem enterAll_treeEntries (p : Pool) : ∀ t : Tree, p.enterAll (p.treeEntries t) = (p.internTree t).2
  | .node t ts => by
    rw [treeEntries, enterAll_append, enterAll_treesEntries p ts]
    rfl
  | .num _ => rfl
  | .str _ => rfl
  | .ident _ => rfl
  | .bool _ => rfl
  | .null => rfl

theorem enterAll_treesEntries (p : Pool) : ∀ ts : List Tree, p.enterAll (p.treesEntries ts) = (p.internTrees ts).2
  | [] => rfl
  | t :: ts => by
    rw [treesEntries, enterAll_append, enterAll_treeEntries p t, enterAll_treesEntries _ ts]
    rfl

end

mutual

/-- A tree that is held is found, and nothing is added. -/
theorem internTree_of_tree? : ∀ (t : Tree) {id : NodeId}, p.tree? id = some t → p.internTree t = (id, p)
  | .node t ts, id, h => by
    obtain ⟨es, hget, hes⟩ := tree?_eq_node_iff.1 h
    have hts : p.internTrees ts = (es, p) := internTrees_of_hasTrees ts hes
    rw [internTree, hts]
    exact intern_of_get? hget
  | .num x, _, h => intern_of_get? (n := .num x) ((tree?_eq_leaf_iff rfl).1 h)
  | .str s, _, h => intern_of_get? (n := .str s) ((tree?_eq_leaf_iff rfl).1 h)
  | .ident x, _, h => intern_of_get? (n := .ident x) ((tree?_eq_leaf_iff rfl).1 h)
  | .bool b, _, h => intern_of_get? (n := .bool b) ((tree?_eq_leaf_iff rfl).1 h)
  | .null, _, h => intern_of_get? (n := .null) ((tree?_eq_leaf_iff rfl).1 h)

theorem internTrees_of_hasTrees : ∀ (ts : List Tree) {ids : List NodeId}, p.HasTrees ids ts → p.internTrees ts = (ids, p)
  | [], _, .nil => rfl
  | t :: ts, _, .cons h hs => by
    rw [internTrees, internTree_of_tree? t h]
    exact congrArg (fun r => (_ :: r.1, r.2)) (internTrees_of_hasTrees ts hs)

end

/-- A tree is held under one id. -/
theorem eq_of_tree? {i j : NodeId} (hi : p.tree? i = some t) (hj : p.tree? j = some t) : i = j :=
  congrArg Prod.fst ((internTree_of_tree? t hi).symm.trans (internTree_of_tree? t hj))

/-! ### Pools as records -/

/-- The place of the first entry of a node that has one. -/
def place? (es : List Entry) (n : Node) : Option Span := es.findSome? fun e => if e.node = n then e.span else none

theorem place?_concat : place? (es ++ [e]) n = (place? es n).or (if e.node = n then e.span else none) := by
  rw [place?, List.findSome?_append, List.findSome?_singleton, place?]

theorem place?_eq_none (h : ∀ e ∈ es, e.node ≠ n) : place? es n = none :=
  List.findSome?_eq_none_iff.2 fun e he => if_neg (h e he)

/-- The pool holds the nodes of the entries in the order of their first entries, each at the place of its first entry
with one. -/
structure Records (p : Pool) (es : List Entry) : Prop where
  nodes : p.nodes.toList = (es.map Entry.node).eraseDups
  coord? : ∀ id, p.coord? id = (p.get? id).bind (place? es)

theorem records_empty : empty.Records [] := by
  refine ⟨rfl, fun id => ?_⟩
  cases id <;> rfl

/-- The node is new, or it is held already. -/
theorem nodes_intern (hn : ∀ c ∈ n.elts, c ≤ p.size) :
    (p.intern n).2.nodes.toList = p.nodes.toList ++ [n].removeAll p.nodes.toList := by
  by_cases hmem : n ∈ p.nodes
  · obtain ⟨i, hi⟩ := Array.getElem?_of_mem hmem
    have hget : p.get? (i + 1) = some n := hi
    have hsame := intern_of_get? hget
    rw [hsame]
    simp [List.removeAll, hmem]
  · rw [(intern_of_new hn hmem).2]
    simp [List.removeAll, hmem]

theorem nodes_enter : (p.enter e).nodes = (p.intern e.node).2.nodes := by
  obtain ⟨n, _ | span⟩ := e <;> rfl

theorem get?_enter : (p.enter e).get? id = (p.intern e.node).2.get? id := by
  unfold get?
  rw [nodes_enter]

theorem coord?_enter : (p.enter e).coord? id =
    (p.coord? id).or (if (p.intern e.node).1 = id then e.span else none) := by
  obtain ⟨n, _ | span⟩ := e
  · show (p.intern n).2.coords[id]? = _
    rw [coords_intern]
    simp [coord?]
  · show ((p.intern n).2.coords.insertIfNew (p.intern n).1 span)[id]? = _
    rw [coords_intern, Std.TreeMap.getElem?_insertIfNew, coord?]
    by_cases hid : (p.intern n).1 = id
    · subst hid
      have hmem := Std.TreeMap.mem_iff_isSome_getElem? (t := p.coords) (a := (p.intern n).1)
      cases hplace : p.coords[(p.intern n).1]? with
      | none => simp [hmem, hplace]
      | some place => simp [hmem, hplace]
    · simp [hid]

/-- What a pool does not hold was not asked for. -/
theorem Records.not_entered (h : p.Records es) (hn : ∀ id, p.get? id ≠ some n) : ∀ e ∈ es, e.node ≠ n := by
  rintro e he rfl
  have hmem : e.node ∈ p.nodes.toList := by
    rw [h.nodes, List.mem_eraseDups]
    exact List.mem_map_of_mem he
  obtain ⟨i, hi⟩ := Array.getElem?_of_mem (Array.mem_toList_iff.1 hmem)
  exact hn (i + 1) hi

/-- A node that is held is none of the new ones. -/
theorem removeAll_eraseDups (n : Node) (ns : List Node) : [n].removeAll ns.eraseDups = ([n].removeAll ns).eraseDups := by
  by_cases hmem : n ∈ ns
  · simp [List.removeAll, hmem]
  · simp [List.removeAll, hmem, List.eraseDups_cons]

theorem Records.coord?_enter (h : p.Records es) (he : ∀ c ∈ e.node.elts, c ≤ p.size) :
    (p.enter e).coord? id = ((p.enter e).get? id).bind (place? (es ++ [e])) := by
  have hheld := get?_intern he
  rw [Pool.coord?_enter, get?_enter, h.coord?]
  cases hnew : (p.intern e.node).2.get? id with
  | none =>
    have hne : (p.intern e.node).1 ≠ id := by
      rintro rfl
      cases hnew.symm.trans hheld
    have hold : p.get? id = none := by
      by_contra hsome
      obtain ⟨m, hm⟩ := Option.ne_none_iff_exists'.1 hsome
      cases hnew.symm.trans (p.extends_intern e.node _ _ hm)
    rw [hold, if_neg hne]
    rfl
  | some m =>
    have hid : (p.intern e.node).1 = id ↔ e.node = m :=
      ⟨by rintro rfl; exact Option.some.inj (hheld.symm.trans hnew), by rintro rfl; exact eq_of_get? hheld hnew⟩
    have hplace : (p.get? id).bind (place? es) = place? es m := by
      cases hold : p.get? id with
      | some k =>
        cases hnew.symm.trans (p.extends_intern e.node _ _ hold)
        rfl
      | none =>
        have hm : ∀ j, p.get? j ≠ some m := by
          intro j hj
          obtain rfl := eq_of_get? (p.extends_intern e.node _ _ hj) hnew
          cases hold.symm.trans hj
        exact (place?_eq_none (h.not_entered hm)).symm
    rw [hplace, Option.bind_some, place?_concat]
    simp only [hid]

theorem Records.enter (h : p.Records es) (he : ∀ c ∈ e.node.elts, c ≤ p.size) : (p.enter e).Records (es ++ [e]) := by
  refine ⟨?_, fun id => h.coord?_enter he⟩
  rw [nodes_enter, nodes_intern he, h.nodes, List.map_append, List.eraseDups_append, removeAll_eraseDups]
  rfl

/-- Children are held when their turn comes. -/
inductive Held : Pool → List Entry → Prop where
  | nil {p : Pool} : Held p []
  | cons {p : Pool} {e : Entry} {es : List Entry} (he : ∀ c ∈ e.node.elts, c ≤ p.size) (hes : Held (p.enter e) es) :
      Held p (e :: es)

theorem Held.append (h : Held p es) (h' : Held (p.enterAll es) fs) : Held p (es ++ fs) := by
  induction h with
  | nil => exact h'
  | cons he _ ih => exact .cons he (ih h')

theorem Records.enterAll (h : p.Records es) (hfs : Held p fs) : (p.enterAll fs).Records (es ++ fs) := by
  induction hfs generalizing es with
  | nil =>
    rw [List.append_nil]
    exact h
  | @cons p e fs he _ ih =>
    have hrest := ih (h.enter he)
    rw [List.append_assoc] at hrest
    exact hrest

mutual

theorem held_treeEntries (p : Pool) : ∀ t : Tree, Held p (p.treeEntries t)
  | .node t ts => by
    refine (held_treesEntries p ts).append (.cons ?_ .nil)
    rw [enterAll_treesEntries]
    exact forall_mem_left (hasTrees_internTrees p ts) fun _ _ => le_size_of_tree?
  | .num _ => .cons (by simp [Node.elts]) .nil
  | .str _ => .cons (by simp [Node.elts]) .nil
  | .ident _ => .cons (by simp [Node.elts]) .nil
  | .bool _ => .cons (by simp [Node.elts]) .nil
  | .null => .cons (by simp [Node.elts]) .nil

theorem held_treesEntries (p : Pool) : ∀ ts : List Tree, Held p (p.treesEntries ts)
  | [] => .nil
  | t :: ts => by
    refine (held_treeEntries p t).append ?_
    rw [enterAll_treeEntries]
    exact held_treesEntries _ ts

end

/-- An absent child is one that the pool does not hold. -/
theorem intern_within : p.intern (n.within p.size) = p.intern n := by
  have hwithin : (n.within p.size).within p.nodes.size = n.within p.nodes.size :=
    Node.within_eq_self fun _ => Node.le_of_mem_elts_within
  unfold intern
  simp only [hwithin]
  split
  · next h =>
    rw [hwithin] at h
    split
    · next h' => rw [Option.some.inj (h.symm.trans h')]
    · next h' => cases h.symm.trans h'
  · next h =>
    rw [hwithin] at h
    split
    · next h' => cases h.symm.trans h'
    · rfl

theorem held_entries : Held p (p.entries r) := by
  cases r with
  | node n span => exact .cons (fun _ => Node.le_of_mem_elts_within) .nil
  | tree t => exact held_treeEntries p t

theorem enterAll_entries : p.enterAll (p.entries r) = (p.serve r).2 := by
  cases r with
  | tree t => exact enterAll_treeEntries p t
  | node n span =>
    show p.enter ⟨n.within p.size, span⟩ = _
    cases span <;> simp only [enter, serve, internAt, intern_within]

theorem Records.serveAll (h : p.Records es) (rs : List Request) : (p.serveAll rs).Records (es ++ p.history rs) := by
  induction rs generalizing p es with
  | nil =>
    rw [history, List.append_nil]
    exact h
  | cons r rs ih =>
    have hserved : (p.serve r).2.Records (es ++ p.entries r) := enterAll_entries ▸ h.enterAll held_entries
    have hrest := ih hserved
    rw [List.append_assoc] at hrest
    exact hrest

theorem extends_serveAll (p : Pool) (rs : List Request) : p.Extends (p.serveAll rs) := by
  induction rs generalizing p with
  | nil => exact .refl p
  | cons r rs ih => exact (enterAll_entries (r := r) ▸ p.extends_enterAll).trans (ih _)

/-! ### Any history -/

theorem isSome_get?_iff : (p.get? id).isSome ↔ 0 < id ∧ id ≤ p.size := by
  cases id with
  | zero => simp [get?]
  | succ i =>
    have hlt : (p.get? (i + 1)).isSome ↔ i < p.size := by simp [get?, size]
    exact hlt.trans ⟨fun h => ⟨Nat.succ_pos i, h⟩, And.right⟩

/-- No node is held twice. -/
theorem nodup_nodes (p : Pool) : p.nodes.toList.Nodup := by
  rw [List.nodup_iff_getElem?_ne_getElem?]
  intro i j hij hj heq
  rw [Array.getElem?_toList, Array.getElem?_toList] at heq
  have hnode : p.nodes[j]? = some p.nodes[j] := Array.getElem?_eq_getElem hj
  exact Nat.ne_of_lt hij (Nat.succ.inj (eq_of_get? (p := p) (heq.trans hnode) hnode))

theorem index_eq_some_iff : p.index[n]? = some id ↔ p.get? id = some n := by
  cases id with
  | zero => simp [get?, p.index_ne_zero n]
  | succ i => exact p.indexed n i

/-- Trees are interned under one id exactly if they are equal, whatever is interned in between. -/
theorem internTree_eq_iff (hpq : (p.internTree t).2.Extends q) (u : Tree) :
    (p.internTree t).1 = (q.internTree u).1 ↔ t = u := by
  have ht := ((hpq.trans (q.extends_internTree u)).tree? (tree?_internTree p t))
  have hu := tree?_internTree q u
  constructor
  · intro heq
    rw [heq] at ht
    exact Option.some.inj (ht.symm.trans hu)
  · rintro rfl
    exact eq_of_tree? ht hu

/-- A name at a place, then a list in which it stands twice. -/
def listed : List Request :=
  [.node (.ident "x") (some ⟨0, 0, 1⟩), .tree (.node .list [.ident "x", .ident "x"])]

end Pool

end Linefold
