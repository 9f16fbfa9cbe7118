import Mathlib.Data.List.Forall2
import Linefold.Proofs.Tables.RoundTrip

/-!
# Tables from outside

A table need not have been written by a pool: names of ids may have a sign or leading zeros, leaves may be tagged or
bare, equal entries may stand under two ids. `Table.Unfolds fields k t` says which tree an entry denotes, with no
word of the order of entries or of a pool. If such a table is read, then its entries are numbered without a gap,
each of them denotes one tree, which is the tree of its node, and what was read can be written and read again
(`Pool.imported_of_ofTable?`).
-/

namespace Linefold

attribute [local irreducible] Pool.intern

namespace Table

/-! ### What a table says -/

/-- A field whose name is read as the id `k`. -/
def HasEntry (fields : List (String × Json)) (k : Nat) (x : Json) : Prop :=
  ∃ name, (name, x) ∈ Json.sortFields fields ∧ idOfKey? name = some k

/-- The ids that the names of the fields are read as. -/
def keys (fields : List (String × Json)) : List Nat :=
  (Json.sortFields fields).filterMap fun f => idOfKey? f.1

/-- The leaf that an entry is, in each of the forms that a leaf has. -/
inductive Leaf : Json → Node → Prop where
  | integer {n} : Leaf (.integer n) (.num (.ofInt n))
  | float {x} : Leaf (.float x) (.num x)
  | string {s} : Leaf (.string s) (.str s)
  | num {y x z elts} : Tagged y .num (x :: elts) → taggedNumber? x = some z → Leaf y (.num z)
  | str {y s elts} : Tagged y .str (.string s :: elts) → Leaf y (.str s)
  | ident {y s elts} : Tagged y .ident (.string s :: elts) → Leaf y (.ident s)
  | bool {y b elts} : Tagged y .bool (.bool b :: elts) → Leaf y (.bool b)
  | null {y elts} : Tagged y .null elts → Leaf y .null

/-- Entry `k` denotes a tree: that of the leaf that it is, or its tag over the trees that its elements denote. -/
inductive Unfolds (fields : List (String × Json)) : Nat → Tree → Prop where
  | leaf {k x n t} : HasEntry fields k x → Leaf x n → Pool.leafTree? n = some t → Unfolds fields k t
  | branch {k x t elts} {cs : List Nat} {ts : List Tree} : HasEntry fields k x → Tagged x t elts → t.isLeaf = false →
      elts.map Json.nat? = cs.map some → cs.length = ts.length → (∀ c u, (c, u) ∈ cs.zip ts → Unfolds fields c u) →
      Unfolds fields k (.node t ts)

variable {p q : Pool} {ids ids' : Array NodeId} {k id : Nat} {x y : Json} {n : Node} {t : Tag} {elts : List Json}
  {es : List NodeId} {l : List (Nat × Json)} {fields : List (String × Json)}

theorem mem_entries : (k, x) ∈ entries fields ↔ HasEntry fields k x := by
  simp [entries, HasEntry]

theorem keys_perm : (keys fields).Perm ((entries fields).map Prod.fst) := by
  have hkeys : keys fields = ((Json.sortFields fields).filterMap fun f =>
      (idOfKey? f.1).map fun id => (id, f.2)).map Prod.fst := by
    rw [List.map_filterMap]
    simp [keys, Function.comp_def]
  rw [hkeys]
  exact ((List.mergeSort_perm _ _).map Prod.fst).symm

theorem lt_of_idOfKey? {key : String} (h : idOfKey? key = some k) : k < 2 ^ 64 := by
  simp only [idOfKey?, Option.ite_none_left_eq_some, Option.ite_none_right_eq_some] at h
  obtain ⟨-, hlt, heq⟩ := h
  exact Option.some.inj heq ▸ hlt

/-! ### One entry -/

theorem Leaf.nodeOfEntry (h : Leaf x n) : nodeOfEntry ids id x = .ok n := by
  cases h with
  | integer | float | string => rfl
  | num h hz =>
    rw [h.nodeOfEntry]
    simp [payloadAs, payload, bind, Except.bind, Except.map, hz]
  | str h | ident h | bool h | null h => exact h.nodeOfEntry

theorem payloadAs_eq_ok {α : Type} {form : Json → Option α} {fault : EntryFault} {f : α → Node}
    (h : (payloadAs form fault elts).map f = .ok n) : ∃ y rest a, elts = y :: rest ∧ form y = some a ∧ n = f a := by
  cases elts with
  | nil => cases h
  | cons y rest =>
    simp only [payloadAs, payload, bind, Except.bind] at h
    cases ha : form y with
    | none =>
      rw [ha] at h
      cases h
    | some a =>
      rw [ha] at h
      cases h
      exact ⟨y, rest, a, rfl, ha, rfl⟩

/-- The children that elements stand for are ids of older entries. -/
structure Elements (id : Nat) (elts : List Json) (cs : List Nat) : Prop where
  nats : elts.map Json.nat? = cs.map some
  older : ∀ c ∈ cs, 0 < c ∧ c < id

theorem child_eq_ok {i : NodeId} (h : child ids id x = .ok i) :
    ∃ c, x.nat? = some c ∧ (0 < c ∧ c < id) ∧ i = ids[c]?.getD 0 := by
  unfold child at h
  split at h
  · cases h
  · next c hc =>
    split at h
    · cases h
    · next hrange =>
      cases h
      exact ⟨c, hc, by omega, rfl⟩

theorem elements_of_mapM (h : elts.mapM (child ids id) = .ok es) :
    ∃ cs, Elements id elts cs ∧ es = cs.map fun c => ids[c]?.getD 0 := by
  induction elts generalizing es with
  | nil =>
    cases h
    exact ⟨[], ⟨rfl, List.forall_mem_nil _⟩, rfl⟩
  | cons x elts ih =>
    rw [List.mapM_cons] at h
    cases hx : child ids id x with
    | error e =>
      rw [hx] at h
      cases h
    | ok i =>
      cases hrest : elts.mapM (child ids id) with
      | error e =>
        rw [hx, hrest] at h
        cases h
      | ok es' =>
        rw [hx, hrest] at h
        cases h
        obtain ⟨c, hc, hrange, rfl⟩ := child_eq_ok hx
        obtain ⟨cs, hcs, rfl⟩ := ih hrest
        exact ⟨c :: cs, ⟨by simp [hc, hcs.nats], List.forall_mem_cons.2 ⟨hrange, hcs.older⟩⟩, rfl⟩

/-- An entry with a tag for children is that tag over older entries. -/
theorem Tagged.branch (h : Tagged x t elts) (ht : t.isLeaf = false) (hn : Table.nodeOfEntry ids id x = .ok n) :
    ∃ cs, Elements id elts cs ∧ n = .branch t (cs.map fun c => ids[c]?.getD 0) := by
  have hbranch : (elts.mapM (child ids id)).map (.branch t) = .ok n := by
    rw [← hn, h.nodeOfEntry]
    cases t <;> first | rfl | cases ht
  cases hes : elts.mapM (child ids id) with
  | error e =>
    rw [hes] at hbranch
    cases hbranch
  | ok es =>
    rw [hes] at hbranch
    cases hbranch
    obtain ⟨cs, hcs, rfl⟩ := elements_of_mapM hes
    exact ⟨cs, hcs, rfl⟩

theorem Tagged.leaf (h : Tagged x t elts) (ht : t.isLeaf) (hn : Table.nodeOfEntry ids id x = .ok n) : Leaf x n := by
  rw [h.nodeOfEntry] at hn
  cases t
  case null =>
    cases hn
    exact .null h
  case num =>
    obtain ⟨y, rest, z, rfl, hy, rfl⟩ := payloadAs_eq_ok hn
    exact .num h hy
  case str =>
    obtain ⟨y, rest, s, rfl, hy, rfl⟩ := payloadAs_eq_ok hn
    cases y <;> cases hy
    exact .str h
  case ident =>
    obtain ⟨y, rest, s, rfl, hy, rfl⟩ := payloadAs_eq_ok hn
    cases y <;> cases hy
    exact .ident h
  case bool =>
    obtain ⟨y, rest, b, rfl, hy, rfl⟩ := payloadAs_eq_ok hn
    cases y <;> cases hy
    exact .bool h
  all_goals cases ht

theorem exists_tagged {fs : List (String × Json)} (h : nodeOfEntry ids id (.object fs) = .ok n) :
    ∃ t elts, Tagged (.object fs) t elts := by
  simp only [nodeOfEntry] at h
  split at h
  · cases h
  · next name hname =>
    obtain ⟨y, hy, hyname⟩ := Option.bind_eq_some_iff.1 hname
    cases ht : Tag.ofName? name with
    | none =>
      rw [ht] at h
      cases h
    | some t =>
      refine ⟨t, _, ?_, rfl⟩
      rw [Tag.name_of_ofName? ht, hy]
      cases y <;> cases hyname
      rfl

/-- An entry that is read is a leaf, or a tag over older entries. -/
theorem leaf_or_branch (h : nodeOfEntry ids id x = .ok n) : Leaf x n ∨
    ∃ t elts cs, Tagged x t elts ∧ t.isLeaf = false ∧ Elements id elts cs ∧
      n = .branch t (cs.map fun c => ids[c]?.getD 0) := by
  cases x with
  | integer | float | string =>
    cases h
    exact .inl (by constructor)
  | object fs =>
    obtain ⟨t, elts, htagged⟩ := exists_tagged h
    cases ht : t.isLeaf with
    | true => exact .inl (htagged.leaf ht h)
    | false =>
      obtain ⟨cs, hcs, rfl⟩ := htagged.branch ht h
      exact .inr ⟨t, elts, cs, htagged, ht, hcs, rfl⟩
  | _ => cases h

/-- How an entry is read depends on the older entries only. -/
theorem nodeOfEntry_congr (h : ∀ c < id, ids'[c]? = ids[c]?) : nodeOfEntry ids' id x = nodeOfEntry ids id x := by
  have hchild : child ids' id = child ids id := by
    funext y
    unfold child
    split
    · rfl
    · next c _ =>
      split
      · rfl
      · next hc => rw [h c (by omega)]
  unfold nodeOfEntry
  rw [hchild]

/-! ### All entries -/

/-- What is known of the nodes of the entries that have been read. -/
structure Known (p : Pool) (ids : Array NodeId) : Prop where
  whole : p.Whole
  absent : ids[0]? = some 0
  has : ∀ k i, 0 < k → ids[k]? = some i → p.Has i
  size : p.size < ids.size

theorem known_empty : Known .empty #[0] where
  whole := Pool.whole_empty
  absent := rfl
  has k i hk hi := by
    have hnone : (#[0] : Array NodeId)[k]? = none := Array.getElem?_eq_none hk
    rw [hnone] at hi
    cases hi
  size := Nat.zero_lt_one

/-- The children of an entry are nodes of the pool. -/
theorem Known.node (h : Known p ids) (hn : nodeOfEntry ids ids.size x = .ok n) : n.Whole p := by
  rcases leaf_or_branch hn with hleaf | ⟨t, elts, cs, -, ht, hcs, rfl⟩
  · refine .leaf ?_
    rintro t es rfl
    cases hleaf
  · refine .branch ht fun i hi => ?_
    obtain ⟨c, hc, rfl⟩ := List.mem_map.1 hi
    obtain ⟨hpos, hlt⟩ := hcs.older c hc
    have hget : ids[c]? = some ids[c] := Array.getElem?_eq_getElem hlt
    exact h.has c _ hpos (by simp [hget])

theorem Known.push (h : Known p ids) (hn : n.Whole p) : Known (p.intern n).2 (ids.push (p.intern n).1) := by
  obtain ⟨hwhole, hhas⟩ := h.whole.intern hn
  have hpos : 0 < ids.size := Nat.lt_of_le_of_lt (Nat.zero_le _) h.size
  refine ⟨hwhole, ?_, fun k i hk hi => ?_, ?_⟩
  · rw [Array.getElem?_push, if_neg (Nat.ne_of_lt hpos)]
    exact h.absent
  · rw [Array.getElem?_push] at hi
    split at hi
    · cases hi
      exact hhas
    · exact (h.has k i hk hi).mono (p.extends_intern n)
  · rw [Array.size_push]
    exact Nat.lt_succ_of_le (Nat.le_trans (p.size_intern_le n) h.size)

/-- The entries `l` have been read, from the pool and the ids before to those after. -/
structure Read (p : Pool) (ids : Array NodeId) (l : List (Nat × Json)) (q : Pool) (ids' : Array NodeId) : Prop where
  known : Known q ids'
  grows : p.Extends q
  size : ids'.size = ids.size + l.length
  prior : ∀ k < ids.size, ids'[k]? = ids[k]?
  dense : l.map Prod.fst = List.range' ids.size l.length
  nodes : ∀ k x, (k, x) ∈ l → ∃ n i, nodeOfEntry ids' k x = .ok n ∧ ids'[k]? = some i ∧ q.get? i = some n

theorem addEntries_cons {r : Pool × Array NodeId} (h : addEntries p ids ((id, x) :: l) = .ok r) :
    id = ids.size ∧ ∃ n, nodeOfEntry ids id x = .ok n ∧ addEntries (p.intern n).2 (ids.push (p.intern n).1) l = .ok r := by
  unfold addEntries at h
  split at h
  · cases h
  · next hid =>
    split at h
    · cases h
    · next n hn => exact ⟨not_not.1 hid, n, hn, h⟩

/-- By induction on the entries: ids are only added at the end, so that what an entry was read as stays. -/
theorem read_of_addEntries (hp : Known p ids) (h : addEntries p ids l = .ok (q, ids')) : Read p ids l q ids' := by
  induction l generalizing p ids with
  | nil =>
    cases h
    exact ⟨hp, .refl _, rfl, fun _ _ => rfl, rfl, fun _ _ hmem => absurd hmem List.not_mem_nil⟩
  | cons e l ih =>
    obtain ⟨id, x⟩ := e
    obtain ⟨rfl, n, hn, hrest⟩ := addEntries_cons h
    have hwhole : n.Whole p := hp.node hn
    have hread := ih (hp.push hwhole) hrest
    have hsize : (ids.push (p.intern n).1).size = ids.size + 1 := Array.size_push _
    have hget : (p.intern n).2.get? (p.intern n).1 = some n :=
      Pool.get?_intern fun c hc => (hwhole.has c hc).le_size
    have hprior : ∀ k < ids.size, ids'[k]? = ids[k]? := fun k hk => by
      rw [hread.prior k (by omega), Array.getElem?_push, if_neg (Nat.ne_of_lt hk)]
    refine ⟨hread.known, (p.extends_intern n).trans hread.grows, ?_, hprior, ?_, fun k y hmem => ?_⟩
    · rw [hread.size, hsize, List.length_cons]
      omega
    · rw [List.map_cons, hread.dense, hsize, List.length_cons, List.range'_succ]
    · rcases List.mem_cons.1 hmem with heq | hmem
      · cases heq
        refine ⟨n, (p.intern n).1, (nodeOfEntry_congr hprior).trans hn, ?_, hread.grows _ _ hget⟩
        rw [hread.prior _ (by omega), Array.getElem?_push, if_pos rfl]
      · exact hread.nodes k y hmem

/-! ### Trees of entries -/

/-- What the children of an entry are read as has the trees that the children denote. -/
theorem mapM_tree? {cs : List Nat} {ts : List Tree} (hlength : cs.length = ts.length)
    (h : ∀ c u, (c, u) ∈ cs.zip ts → ∃ i, ids[c]? = some i ∧ p.tree? i = some u) :
    (cs.map fun c => ids[c]?.getD 0).mapM p.tree? = some ts := by
  induction cs generalizing ts with
  | nil =>
    obtain rfl : ts = [] := List.length_eq_zero_iff.1 hlength.symm
    rfl
  | cons c cs ih =>
    cases ts with
    | nil => cases hlength
    | cons u ts =>
      obtain ⟨i, hi, hu⟩ := h c u (.head _)
      have hrest := ih (Nat.succ.inj hlength) fun d v hmem => h d v (.tail _ hmem)
      rw [List.map_cons, List.mapM_cons, hi, Option.getD_some, hu, hrest]
      rfl

/-- The elements of a list stand for one list of ids. -/
theorem Elements.eq {cs ds : List Nat} (h : Elements id elts cs) (hds : elts.map Json.nat? = ds.map some) : cs = ds :=
  List.map_injective_iff.2 (Option.some_injective _) (h.nats.symm.trans hds)

variable (hread : Read .empty #[0] (entries fields) p ids)

include hread

/-- By induction on what the entry denotes. -/
theorem Read.tree?_of_unfolds {u : Tree} (h : Unfolds fields k u) : ∃ i, ids[k]? = some i ∧ p.tree? i = some u := by
  induction h with
  | @leaf k x m u hentry hleaf hu =>
    obtain ⟨n, i, hn, hi, hget⟩ := hread.nodes k x (mem_entries.2 hentry)
    cases hleaf.nodeOfEntry.symm.trans hn
    refine ⟨i, hi, (Pool.tree?_of_leaf hget ?_).trans hu⟩
    rintro t es rfl
    cases hleaf
  | @branch k x t elts ds ts hentry htagged ht hds hlength _ ih =>
    obtain ⟨n, i, hn, hi, hget⟩ := hread.nodes k x (mem_entries.2 hentry)
    obtain ⟨cs, hcs, rfl⟩ := htagged.branch ht hn
    cases hcs.eq hds
    refine ⟨i, hi, ?_⟩
    rw [Pool.tree?_of_branch hget, mapM_tree? hlength ih]
    rfl

theorem Read.exists_entry (hpos : 0 < k) (hlt : k < ids.size) : ∃ x, HasEntry fields k x := by
  have hmem : k ∈ (entries fields).map Prod.fst := by
    have hsize := hread.size
    rw [hread.dense, List.mem_range'_1]
    simp only [List.size_toArray, List.length_cons, List.length_nil] at hsize ⊢
    omega
  obtain ⟨⟨_, x⟩, hx, rfl⟩ := List.mem_map.1 hmem
  exact ⟨x, mem_entries.1 hx⟩

/-- By induction on the id, since children have smaller ones. -/
theorem Read.exists_unfolds (hpos : 0 < k) (hlt : k < ids.size) : ∃ u, Unfolds fields k u := by
  induction k using Nat.strongRecOn with
  | ind k ih =>
    obtain ⟨x, hentry⟩ := hread.exists_entry hpos hlt
    obtain ⟨n, i, hn, -, -⟩ := hread.nodes k x (mem_entries.2 hentry)
    rcases leaf_or_branch hn with hleaf | ⟨t, elts, cs, htagged, ht, hcs, -⟩
    · obtain ⟨u, hu⟩ : ∃ u, Pool.leafTree? n = some u := by cases hleaf <;> exact ⟨_, rfl⟩
      exact ⟨u, .leaf hentry hleaf hu⟩
    · have hunfolds : ∀ c ∈ cs, ∃ u, Unfolds fields c u := fun c hc =>
        have hc := hcs.older c hc
        ih c hc.2 hc.1 (Nat.lt_trans hc.2 hlt)
      have : Nonempty Tree := ⟨.null⟩
      choose! f hf using hunfolds
      have hzip : cs.zip (cs.map f) = cs.map fun c => (c, f c) := by
        simpa using List.zip_map' (f := id) (g := f) (l := cs)
      have hlength : cs.length = (cs.map f).length := (List.length_map f).symm
      refine ⟨.node t (cs.map f), .branch hentry htagged ht hcs.nats hlength fun c u hmem => ?_⟩
      rw [hzip] at hmem
      obtain ⟨d, hd, heq⟩ := List.mem_map.1 hmem
      cases heq
      exact hf c hd

/-- No two entries have one id, and none is left out. -/
theorem Read.keys_perm : (keys fields).Perm (List.range' 1 (entries fields).length) :=
  Table.keys_perm.trans (.of_eq hread.dense)

/-- Ids beyond 64 bits are no names of entries. -/
theorem Read.size_lt : p.size < 2 ^ 64 := by
  have hsize : ids.size = 1 + (entries fields).length := hread.size
  have hp : p.size < ids.size := hread.known.size
  rcases Nat.eq_zero_or_pos (entries fields).length with hzero | hpos
  · omega
  · obtain ⟨x, name, -, hname⟩ := hread.exists_entry hpos (by omega)
    have hlt := lt_of_idOfKey? hname
    omega

/-- The root of the table is an id that was read, or zero, which is read as the absent node. -/
theorem Read.root {r : Nat} {root : NodeId} (h : ids[r]? = some root) :
    r ≤ (entries fields).length ∧ (r = 0 → root = 0) ∧ root ≤ p.size := by
  have hsize : ids.size = 1 + (entries fields).length := hread.size
  obtain ⟨hlt, -⟩ := Array.getElem?_eq_some_iff.1 h
  refine ⟨by omega, ?_, ?_⟩
  · rintro rfl
    exact Option.some.inj (h.symm.trans hread.known.absent)
  · rcases Nat.eq_zero_or_pos r with rfl | hpos
    · cases h.symm.trans hread.known.absent
      exact Nat.zero_le _
    · exact (hread.known.has r root hpos h).le_size

/-- Elements of an entry with a tag for children are ids of older entries. -/
theorem Read.older {y : Json} (hentry : HasEntry fields k x) (htagged : Tagged x t elts) (ht : t.isLeaf = false)
    (hy : y ∈ elts) : ∃ c, y.nat? = some c ∧ 0 < c ∧ c < k := by
  obtain ⟨n, i, hn, -, -⟩ := hread.nodes k x (mem_entries.2 hentry)
  obtain ⟨cs, hcs, -⟩ := htagged.branch ht hn
  have hmem : y.nat? ∈ cs.map some := hcs.nats ▸ List.mem_map_of_mem hy
  obtain ⟨c, hc, heq⟩ := List.mem_map.1 hmem
  exact ⟨c, heq.symm, hcs.older c hc⟩

end Table

namespace Pool

/-- What was read from the fields of a table: entry `k` as the node `ids[k]` of `p`. -/
structure Imported (fields : List (String × Json)) (p : Pool) (ids : Array NodeId) : Prop where
  /-- The ids of the entries are the numbers from one on, each once. -/
  keys : (Table.keys fields).Perm (List.range' 1 (ids.size - 1))
  /-- Children are older entries. -/
  older : ∀ k x t elts, Table.HasEntry fields k x → Table.Tagged x t elts → t.isLeaf = false →
    ∀ y ∈ elts, ∃ c, y.nat? = some c ∧ 0 < c ∧ c < k
  /-- Each entry denotes one tree, and that is the tree of its node. -/
  trees : ∀ k, 0 < k → k < ids.size →
    ∃ i t, ids[k]? = some i ∧ p.tree? i = some t ∧ ∀ u, Table.Unfolds fields k u ↔ u = t
  nodup : p.nodes.toList.Nodup
  child : ∀ id n, p.get? id = some n → ∀ c ∈ n.elts, 0 < c ∧ c < id

variable {table : Json} {p : Pool} {root : NodeId}

theorem imported_of_read {fields : List (String × Json)} {ids : Array NodeId}
    (h : Table.Read .empty #[0] (Table.entries fields) p ids) : Imported fields p ids where
  keys := by
    have hsize : ids.size = 1 + (Table.entries fields).length := h.size
    rw [hsize, Nat.add_sub_cancel_left]
    exact h.keys_perm
  older k x t elts hentry htagged ht y hy := h.older hentry htagged ht hy
  trees k hpos hlt := by
    obtain ⟨t, ht⟩ := h.exists_unfolds hpos hlt
    obtain ⟨i, hi, htree⟩ := h.tree?_of_unfolds ht
    refine ⟨i, t, hi, htree, fun u => ⟨fun hu => ?_, fun hu => hu ▸ ht⟩⟩
    obtain ⟨j, hj, hutree⟩ := h.tree?_of_unfolds hu
    cases hi.symm.trans hj
    exact Option.some.inj (hutree.symm.trans htree)
  nodup := p.nodup_nodes
  child id n hn := h.known.whole.child hn

/-- A table that is read at all is sound, wherever it comes from: its entries are numbered without a gap and each
denotes one tree, namely that of the node that it was read as. The root is the node of the entry that the table
names, or absent if it names none. The pool that was read is read again from its own table. -/
theorem imported_of_ofTable? (h : ofTable? table = .ok (p, root)) :
    ∃ fields ids r, table = .object fields ∧
      Table.addEntries .empty #[0] (Table.entries fields) = .ok (p, ids) ∧ Imported fields p ids ∧
      ((table.field? "root").bind Json.nat? = some r ∧ ids[r]? = some root ∧ (r = 0 → root = 0)) ∧
      ∀ version, ∃ q, ofTable? (p.toTable root version) = .ok (q, root) ∧ q.size = p.size ∧
        ∀ id, q.get? id = p.get? id := by
  unfold ofTable? at h
  split at h
  · next fields =>
    cases hadd : Table.addEntries .empty #[0] (Table.entries fields) with
    | error e =>
      rw [hadd] at h
      cases h
    | ok r =>
      obtain ⟨q, ids⟩ := r
      rw [hadd] at h
      simp only [bind, Except.bind] at h
      split at h
      · cases h
      · next r hr =>
        split at h
        · cases h
        · next i hi =>
          cases h
          have hread := Table.read_of_addEntries Table.known_empty hadd
          obtain ⟨-, hzero, hle⟩ := hread.root hi
          refine ⟨fields, ids, r, rfl, hadd, imported_of_read hread, ⟨hr, hi, hzero⟩, fun version => ?_⟩
          obtain ⟨q, hq, hnodes⟩ := hread.known.whole.exists_ofTable? hread.size_lt hle version
          refine ⟨q, hq, congrArg Array.size hnodes, fun id => ?_⟩
          unfold Pool.get?
          rw [hnodes]
  · cases h

/-- The same string under two ids, once tagged, and a list of the two. -/
def merged : List (String × Json) :=
  [("1", .object [("elts", .array [.string "s"]), ("tag", .string "STR")]), ("+2", .string "s"),
    ("03", .object [("elts", .array [.integer 2, .integer 1]), ("tag", .string "LIST")]), ("root", .integer 3)]

/-- Two entries become one node, so that the third has the second id. -/
theorem imported_of_ofTable?_merged :
    ∃ p, ofTable? (.ofFields merged) = .ok (p, 2) ∧ p.nodes.toList = [.str "s", .branch .list [1, 1]] ∧
      ∃ fields ids, Table.addEntries .empty #[0] (Table.entries fields) = .ok (p, ids) ∧ Imported fields p ids := by
  have hnames : (merged.map Prod.fst).Nodup := by decide
  have hfirst : Table.idOfKey? "1" = some 1 := by decide +kernel
  have hsecond : Table.idOfKey? "+2" = some 2 := by decide +kernel
  have hthird : Table.idOfKey? "03" = some 3 := by decide +kernel
  have hother : Table.idOfKey? "root" = none := by decide +kernel
  let l : List (Nat × Json) := (merged.take 3).zipIdx.map fun (f, i) => (i + 1, f.2)
  have hentries : Table.entries (Json.sortFields merged) = l :=
    Table.entries_ofFields hnames (by simp [l, merged, hfirst, hsecond, hthird, hother]) (by simp [l, merged])
  have hroot : (Json.ofFields merged).field? "root" = some (.integer 3) :=
    Json.field?_ofFields hnames (by simp [merged])
  have hadd : (Table.addEntries .empty #[0] l).toOption.map (fun r => (r.1.nodes.toList, r.2)) =
      some ([.str "s", .branch .list [1, 1]], #[0, 1, 1, 2]) := by
    decide +kernel
  obtain ⟨⟨p, ids⟩, hp, heq⟩ := Option.map_eq_some_iff.1 hadd
  obtain ⟨hnodes, rfl⟩ := Prod.mk.inj heq
  have hread : ofTable? (.ofFields merged) = .ok (p, 2) := by
    unfold Json.ofFields at hroot ⊢
    cases h : Table.addEntries .empty #[0] l with
    | ok r =>
      rw [h] at hp
      cases hp
      simp only [ofTable?, hentries, h, hroot]
      rfl
    | error e =>
      rw [h] at hp
      cases hp
  obtain ⟨fields, ids, -, -, hids, himported, -⟩ := imported_of_ofTable? hread
  exact ⟨p, hread, hnodes, fields, ids, hids, himported⟩

end Pool

end Linefold
