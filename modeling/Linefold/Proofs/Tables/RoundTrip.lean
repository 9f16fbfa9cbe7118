import Linefold.Proofs.Interning.History
import Linefold.Proofs.Tables.Fields
import Linefold.Proofs.Tables.Numbers
import Linefold.Proofs.Wholeness.Hosts

/-!
# Tables read back

The table of a whole pool describes the pool: each entry is read as the node it was written for
(`Table.nodeOfEntry_ofNode`), and the entries, put in the order of their ids, are interned under those ids
(`Pool.Whole.exists_ofTable?`). Since hosts have whole pools, that is so for every pool of a host
(`Host.ofTable?_toTable`).
-/

namespace Linefold

attribute [local irreducible] Pool.intern

/-! ### Entries -/

namespace Table

variable {p : Pool} {k id : Nat} {es : List NodeId} {ids : Array NodeId} {n : Node} {x : Number} {t : Tag}
  {elts : List Json}

theorem field?_tagged : (tagged t elts).field? "tag" = some (.string t.name) ∧
    (tagged t elts).field? "elts" = some (.array elts) := by
  have hnames : ([("tag", Json.string t.name), ("elts", .array elts)].map Prod.fst).Nodup :=
    (by decide : ["tag", "elts"].Nodup)
  exact ⟨Json.field?_ofFields hnames (.head _), Json.field?_ofFields hnames (.tail _ (.head _))⟩

/-- The value is an object with a tag and with some elements, none if they are left out. -/
structure Tagged (x : Json) (t : Tag) (elts : List Json) : Prop where
  tag : x.field? "tag" = some (.string t.name)
  elts : ((x.field? "elts").bind Json.array?).getD [] = elts

/-- How a tagged entry is read depends on its tag and its elements only. -/
theorem Tagged.nodeOfEntry {y : Json} (h : Tagged y t elts) : nodeOfEntry ids id y =
    match t with
    | .null => .ok .null
    | .bool => (payloadAs Json.bool? .boolPayload elts).map .bool
    | .ident => (payloadAs Json.string? .identPayload elts).map .ident
    | .str => (payloadAs Json.string? .strPayload elts).map .str
    | .num => (payloadAs taggedNumber? .numPayload elts).map .num
    | t => (elts.mapM (child ids id)).map (.branch t) := by
  obtain ⟨htag, helts⟩ := h
  cases y with
  | object fields =>
    simp only [Table.nodeOfEntry, htag, helts, Option.bind_some, Json.string?, Tag.ofName?_name]
    cases t <;> rfl
  | _ => cases htag

theorem tagged_tagged : Tagged (tagged t elts) t elts :=
  ⟨field?_tagged.1, by rw [field?_tagged.2]; rfl⟩

theorem child_ofNat {c : Nat} (hpos : 0 < c) (hlt : c < id) :
    child (Array.range id) id (.ofNat c) = .ok c := by
  have hc : ¬ (c = 0 ∨ id ≤ c) := by omega
  simp [child, Json.ofNat, Json.nat?, hc, hlt]

theorem mapM_child (h : ∀ c ∈ es, 0 < c ∧ c < id) :
    (es.map Json.ofNat).mapM (child (Array.range id) id) = .ok es := by
  induction es with
  | nil => rfl
  | cons c es ih =>
    obtain ⟨⟨hpos, hlt⟩, hes⟩ := List.forall_mem_cons.1 h
    rw [List.map_cons, List.mapM_cons, child_ofNat hpos hlt, ih hes]
    rfl

/-- A number is read as itself from each of its three forms. -/
theorem nodeOfEntry_ofNumber : nodeOfEntry ids id (ofNumber x) = .ok (.num x) := by
  unfold ofNumber
  split
  · next n hn =>
    have hn := (Option.filter_eq_some_iff.1 hn).1
    exact congrArg (fun y => Except.ok (Node.num y)) (Number.ofInt_of_toInt? hn)
  · split
    · rfl
    · next hfinite =>
      rw [tagged_tagged.nodeOfEntry]
      show Except.ok (Node.num (.ofText x.text)) = _
      rw [Number.ofText_text hfinite]

/-- A whole node is read as itself, where older entries stand under their own ids. -/
theorem nodeOfEntry_ofNode (h : n.Whole p) (hlt : ∀ c ∈ n.elts, c < id) :
    nodeOfEntry (Array.range id) id (ofNode n) = .ok n := by
  cases n with
  | num x => exact nodeOfEntry_ofNumber
  | str s => rfl
  | ident name => exact tagged_tagged.nodeOfEntry
  | bool b => exact tagged_tagged.nodeOfEntry
  | null => exact tagged_tagged.nodeOfEntry
  | branch t es =>
    have hmapM : (es.map Json.ofNat).mapM (child (Array.range id) id) = .ok es :=
      mapM_child fun c hc => ⟨Nat.pos_of_ne_zero (h.has c hc).ne_zero, hlt c hc⟩
    have ht := h.tag t es rfl
    show nodeOfEntry _ _ (tagged t _) = _
    rw [tagged_tagged.nodeOfEntry, hmapM]
    cases t <;> first | rfl | cases ht

/-- The entries of some nodes, the first of which has the id after `k`. -/
def numbered (k : Nat) (ns : List Node) : List (Nat × Json) :=
  (ns.zipIdx k).map fun (n, i) => (i + 1, ofNode n)

/-- The nodes from one id on are interned under their ids. -/
theorem addEntries_numbered {ns : List Node} {q : Pool} (hp : p.Whole)
    (hns : q.nodes.toList ++ ns = p.nodes.toList) (hdistinct : p.nodes.toList.Nodup) :
    ∃ r, addEntries q (Array.range (q.size + 1)) (numbered q.size ns) =
      .ok (r, Array.range (p.size + 1)) ∧ r.nodes = p.nodes := by
  induction ns generalizing q with
  | nil =>
    have hnodes : q.nodes = p.nodes := Array.toList_inj.1 (by simpa using hns)
    refine ⟨q, ?_, hnodes⟩
    rw [show q.size = p.size from congrArg Array.size hnodes]
    rfl
  | cons n ns ih =>
    have hget : p.get? (q.size + 1) = some n := by
      show p.nodes[q.size]? = some n
      have hsize : q.size = q.nodes.toList.length := rfl
      rw [← Array.getElem?_toList, ← hns, hsize, List.getElem?_append_right (Nat.le_refl _), Nat.sub_self]
      rfl
    have hlt : ∀ c ∈ n.elts, c < q.size + 1 := fun c hc => Pool.lt_of_mem_elts hget hc
    have hnew : n ∉ q.nodes := fun hmem =>
      (List.nodup_append.1 (hns ▸ hdistinct)).2.2 n (Array.mem_toList_iff.2 hmem) n (.head _) rfl
    obtain ⟨hid, hnodes⟩ := Pool.intern_of_new (fun c hc => Nat.le_of_lt_succ (hlt c hc)) hnew
    have hsize : (q.intern n).2.size = q.size + 1 := by
      show (q.intern n).2.nodes.size = _
      rw [hnodes, Array.size_push]
      rfl
    obtain ⟨r, hr, hrnodes⟩ := ih (q := (q.intern n).2) (by simpa [hnodes] using hns)
    refine ⟨r, ?_, hrnodes⟩
    rw [hsize, Array.range_succ] at hr
    simpa [numbered, addEntries, nodeOfEntry_ofNode (hp _ n hget) hlt, hid] using hr

/-! ### Names -/

/-- The fields of some nodes. -/
def named (ns : List Node) : List (String × Json) :=
  ns.zipIdx.map fun (n, i) => ((i + 1).repr, ofNode n)

theorem pairwise_numbered {ns : List Node} : (numbered 0 ns).Pairwise fun e f => e.1 < f.1 := by
  have hids : (ns.zipIdx.map Prod.snd).Pairwise (· < ·) := by
    rw [List.zipIdx_map_snd]
    exact List.pairwise_lt_range'
  exact List.pairwise_map.2 ((List.pairwise_map.1 hids).imp Nat.succ_lt_succ)

theorem idOfKey?_of_mem_zipIdx {ns : List Node} (h : ns.length < 2 ^ 64) {e : Node × Nat}
    (he : e ∈ ns.zipIdx) : idOfKey? (e.2 + 1).repr = some (e.2 + 1) := by
  have hlt : e.2 < ns.length := List.snd_lt_of_mem_zipIdx he
  exact idOfKey?_repr (Nat.lt_of_le_of_lt hlt h)

theorem filterMap_named {ns : List Node} (h : ns.length < 2 ^ 64) :
    ((named ns).filterMap fun (key, x) => (idOfKey? key).map (·, x)) = numbered 0 ns := by
  unfold named numbered
  rw [List.filterMap_map, ← List.filterMap_eq_map]
  refine List.filterMap_congr fun e he => ?_
  simp [idOfKey?_of_mem_zipIdx h he]

theorem nodup_named {ns : List Node} (h : ns.length < 2 ^ 64) : ((named ns).map Prod.fst).Nodup := by
  have hnodup : ((numbered 0 ns).map fun e => some e.1).Nodup :=
    List.pairwise_map.2 (pairwise_numbered.imp fun hlt heq => Nat.ne_of_lt hlt (Option.some.inj heq))
  refine List.Nodup.of_map idOfKey? ?_
  have hmap : ((named ns).map Prod.fst).map idOfKey? = (numbered 0 ns).map fun e => some e.1 := by
    unfold named numbered
    simp only [List.map_map]
    exact List.map_congr_left fun e he => idOfKey?_of_mem_zipIdx h he
  rw [hmap]
  exact hnodup

/-- The fields of a table. -/
def fields (ns : List Node) (root : NodeId) (version : String) : List (String × Json) :=
  named ns ++ [("root", .ofNat root), ("version", .string version)]

/-- The two other names are no ids. -/
theorem nodup_fields {ns : List Node} (h : ns.length < 2 ^ 64) {root : NodeId} {version : String} :
    ((fields ns root version).map Prod.fst).Nodup := by
  unfold fields
  rw [List.map_append]
  refine List.nodup_append.2 ⟨nodup_named h, (by decide : ["root", "version"].Nodup), ?_⟩
  rintro key hkey other hother rfl
  obtain ⟨_, hmem, rfl⟩ := List.mem_map.1 hkey
  obtain ⟨e, he, rfl⟩ := List.mem_map.1 hmem
  have hid := idOfKey?_of_mem_zipIdx h he
  simp only [List.map_cons, List.map_nil, List.mem_cons, List.not_mem_nil, or_false] at hother
  have hroot : idOfKey? "root" = none := by decide
  have hversion : idOfKey? "version" = none := by decide
  rcases hother with hname | hname
  · rw [hname, hroot] at hid
    cases hid
  · rw [hname, hversion] at hid
    cases hid

/-- The other two fields are no entries. -/
theorem entries_fields {ns : List Node} (h : ns.length < 2 ^ 64) {root : NodeId} {version : String} :
    entries (Json.sortFields (fields ns root version)) = numbered 0 ns := by
  refine entries_ofFields (nodup_fields h) ?_ pairwise_numbered
  unfold fields
  rw [List.filterMap_append, filterMap_named h]
  exact List.append_nil _

end Table

/-! ### Pools -/

namespace Pool

variable {p : Pool} {root : NodeId}

/-- A whole pool is read back from its table, and so is the root. Ids beyond 64 bits would be no names of
entries. -/
theorem Whole.exists_ofTable? (hp : p.Whole) (hsize : p.size < 2 ^ 64) (hroot : root ≤ p.size)
    (version : String) : ∃ q, ofTable? (p.toTable root version) = .ok (q, root) ∧ q.nodes = p.nodes := by
  have hfield : (p.toTable root version).field? "root" = some (.ofNat root) :=
    Json.field?_ofFields (Table.nodup_fields hsize) (List.mem_append_right _ (.head _))
  obtain ⟨q, hq, hnodes⟩ : ∃ q, Table.addEntries .empty #[0] (Table.numbered 0 p.nodes.toList) =
      .ok (q, Array.range (p.size + 1)) ∧ q.nodes = p.nodes :=
    Table.addEntries_numbered hp rfl p.nodup_nodes
  refine ⟨q, ?_, hnodes⟩
  have htable : p.toTable root version =
    .object (Json.sortFields (Table.fields p.nodes.toList root version)) := rfl
  have hnat : (Json.ofNat root).nat? = some root := by simp [Json.ofNat, Json.nat?]
  have hid : (Array.range (p.size + 1))[root]? = some root := by
    simp [Nat.lt_succ_of_le hroot]
  rw [htable] at hfield ⊢
  simp only [ofTable?, Table.entries_fields hsize, hq, hfield, bind, Except.bind, Option.bind, hnat, hid]

end Pool

/-! ### Hosts -/

namespace Host

variable {h : Host} {root : NodeId}

/-- Whatever a host has done, the table of its pool is read back as that pool: the same nodes under the same
ids, and the same root. No node of the pool has a child that is absent or not older than itself. -/
theorem ofTable?_toTable (hh : h.Reachable) (hsize : h.session.pool.size < 2 ^ 64)
    (hroot : root ≤ h.session.pool.size) (version : String) :
    (∃ q, Pool.ofTable? (h.session.pool.toTable root version) = .ok (q, root) ∧
      q.size = h.session.pool.size ∧ ∀ id, q.get? id = h.session.pool.get? id) ∧
    ∀ id n, h.session.pool.get? id = some n → ∀ c ∈ n.elts, 0 < c ∧ c < id := by
  have hpool := hh.whole.session.pool
  refine ⟨?_, fun id n hn => hpool.child hn⟩
  obtain ⟨q, hq, hnodes⟩ := hpool.exists_ofTable? hsize hroot version
  refine ⟨q, hq, congrArg Array.size hnodes, fun id => ?_⟩
  unfold Pool.get?
  rw [hnodes]

/-- A host that has entered a list with a name in it, token by token. -/
def listed : Host :=
  [⟨.leftBracket, "[", ⟨0, 0, 1⟩⟩, ⟨.ident, "x", ⟨0, 1, 2⟩⟩, ⟨.rightBracket, "]", ⟨0, 2, 3⟩⟩,
    Token.eof ⟨1, 0, 0⟩].foldl (fun h t => (h.act (.token t)).2) ⟨.fresh, []⟩

theorem ofTable?_toTable_listed :
    listed.session.pool.size < 2 ^ 64 ∧ listed.session.state.root ≤ listed.session.pool.size ∧
      ∃ q, Pool.ofTable? (listed.session.pool.toTable listed.session.state.root "1") =
        .ok (q, listed.session.state.root) ∧ ∀ id, q.get? id = listed.session.pool.get? id := by
  have hstart : Reachable ⟨.fresh, []⟩ := .start (show Session.ofConfig {} = .ok .fresh from rfl)
  have hlisted : listed.Reachable := .act (.act (.act (.act hstart _) _) _) _
  let name := Pool.empty.internAt (.ident "x") ⟨0, 1, 2⟩
  let list := name.2.internAt (.branch .list [name.1]) ⟨0, 2, 3⟩
  let exprs := list.2.intern (.branch .exprs [list.1])
  have hsize : listed.session.pool.size < 2 ^ 64 := by
    have hname : name.2.size ≤ 0 + 1 := Pool.empty.size_intern_le (.ident "x")
    have hlist : list.2.size ≤ name.2.size + 1 := name.2.size_intern_le _
    have hexprs : exprs.2.size ≤ list.2.size + 1 := list.2.size_intern_le _
    have hprog : listed.session.pool.size ≤ exprs.2.size + 1 := exprs.2.size_intern_le (.branch .prog [exprs.1])
    omega
  have hroot : listed.session.state.root ≤ listed.session.pool.size :=
    Pool.le_size_of_get? (exprs.2.get?_intern_within (.branch .prog [exprs.1]))
  obtain ⟨⟨q, hq, -, hget⟩, -⟩ := ofTable?_toTable hlisted hsize hroot "1"
  exact ⟨hsize, hroot, q, hq, hget⟩

end Host

end Linefold
