import Linefold.Proofs.Folding.Frames
import Linefold.Proofs.Shape
import Linefold.Proofs.Words

/-!
# What tasks need and leave

`Layout` is what a frame holds: known parts on top, and below them nothing, or any number of values,
which a function may take as its arguments. `Turns p t L L'` says that in a pool `p` the task `t`, found
with frames `L`, leaves frames `L'`; `Leads` is the same for tasks that run one after the other.
-/

namespace Linefold

/-! ### Growth without new names -/

namespace Pool

variable {p q r : Pool} {n : Node} {id : NodeId}

/-- A fold adds nodes, but no names. -/
structure Grows (p q : Pool) : Prop where
  keeps : p.Extends q
  names : ∀ id name, q.get? id = some (.ident name) → ∃ id, p.get? id = some (.ident name)

theorem Grows.refl (p : Pool) : p.Grows p := ⟨.refl p, fun id _ h => ⟨id, h⟩⟩

theorem Grows.trans (hpq : p.Grows q) (hqr : q.Grows r) : p.Grows r := by
  refine ⟨hpq.keeps.trans hqr.keeps, fun id name h => ?_⟩
  obtain ⟨id, h⟩ := hqr.names id name h
  exact hpq.names id name h

theorem grows_intern (hn : n.tag ≠ .ident) : p.Grows (p.intern n).2 := by
  refine ⟨p.extends_intern n, fun id name h => ?_⟩
  rcases of_get?_intern h with h | ⟨-, h⟩
  · exact ⟨id, h⟩
  · cases n with
    | ident s => exact absurd rfl hn
    | _ => cases h

end Pool

/-! ### Usable words -/

/-- A word is an operator's and names no node, or it stands for a value or a function that a fold can
enter; the words that a function carries with it are of this kind again. -/
inductive Word.Usable (p : Pool) : String → Word → Prop where
  | operator {name : String} {w : Word} {t : Tag} (hcls : w.cls = .operator t)
      (hname : ∀ id, p.get? id ≠ some (.ident name)) : Usable p name w
  | operand {name : String} {w : Word} (hcls : ∀ t, w.cls ≠ .operator t)
      (hnid : w.nid = 0 ∨ p.Fits .value w.nid)
      (hpattern : ∀ c, w.closure = some c → ∀ id ∈ c.pattern, p.IsPattern id)
      (hlexicon : ∀ c, w.closure = some c → ∀ nw ∈ c.lexicon, Usable p nw.1 nw.2) : Usable p name w

theorem Word.Usable.mono {p q : Pool} {name : String} {w : Word} (h : w.Usable p name)
    (hpq : p.Grows q) : w.Usable q name := by
  induction h with
  | operator hcls hname =>
    refine .operator hcls fun id hid => ?_
    obtain ⟨id, hid⟩ := hpq.names _ _ hid
    exact hname id hid
  | operand hcls hnid hpattern _ ih =>
    refine .operand hcls (hnid.imp_right fun h => h.mono hpq.keeps) ?_ ih
    exact fun c hc id hid => (hpattern c hc id hid).mono hpq.keeps

theorem Word.usable_value {p : Pool} {name : String} {offset : Nat} {id : NodeId}
    (h : id = 0 ∨ p.Fits .value id) :
    Word.Usable p name { Word.value name offset with nid := id } :=
  .operand (fun _ h => nomatch h) h (fun _ h => nomatch h) fun _ h => nomatch h

/-! ### Frames -/

/-- What a frame holds, the top first. -/
inductive Layout where
  | nothing
  | values
  | on (part : Part) (below : Layout)

/-- Parts on a frame, the first one on top. -/
def Layout.onto (l : Layout) (parts : List Part) : Layout := parts.foldr .on l

theorem Layout.onto_reverse_cons (l : Layout) (part : Part) (parts : List Part) :
    l.onto (part :: parts).reverse = (Layout.on part l).onto parts.reverse := by
  simp [Layout.onto]

/-- The values of a frame are as its layout says. -/
inductive Pool.Fills (p : Pool) : Layout → List NodeId → Prop where
  | nothing : Fills p .nothing []
  | values {vs : List NodeId} (h : ∀ v ∈ vs, p.Fits .value v) : Fills p .values vs
  | on {part : Part} {l : Layout} {v : NodeId} {vs : List NodeId} (hv : p.Fits part v)
      (hvs : Fills p l vs) : Fills p (.on part l) (v :: vs)

namespace Pool.Fills

variable {p q : Pool} {l : Layout} {vs top : List NodeId} {parts : List Part}

theorem mono (h : p.Fills l vs) (hpq : p.Extends q) : q.Fills l vs := by
  induction h with
  | nothing => exact .nothing
  | values h => exact .values fun v hv => (h v hv).mono hpq
  | on hv _ ih => exact .on (hv.mono hpq) ih

theorem forget (h : p.Fills (.on .value .values) vs) : p.Fills .values vs := by
  cases h with
  | on hv hvs =>
    cases hvs with
    | values h => exact .values (List.forall_mem_cons.2 ⟨hv, h⟩)

theorem onto (h : p.Fills (l.onto parts) vs) :
    ∃ top rest, vs = top ++ rest ∧ List.Forall₂ p.Fits parts top ∧ p.Fills l rest := by
  induction parts generalizing vs with
  | nil => exact ⟨[], vs, rfl, .nil, h⟩
  | cons part parts ih =>
    cases h with
    | on hv hvs =>
      obtain ⟨top, rest, rfl, htop, hrest⟩ := ih hvs
      exact ⟨_ :: top, rest, rfl, .cons hv htop, hrest⟩

end Pool.Fills

/-! ### Tasks -/

/-- What a node with the tag is as a part. -/
def Tag.part : Tag → Part
  | .binding => .binding
  | .of => .clause
  | _ => .value

theorem Pool.fits_part {p : Pool} {id : NodeId} {t : Tag} {es : List NodeId}
    (h : p.get? id = some (.branch t es)) : p.Fits t.part id := by
  unfold Tag.part
  split
  · exact ⟨es, h⟩
  · exact ⟨es, h⟩
  · next hb ho => exact ⟨_, h, hb, ho⟩

/-- The task turns one layout of the frames into another. -/
inductive Task.Turns (p : Pool) : Task → List Layout → List Layout → Prop where
  | visit {nid : NodeId} {L : List Layout} (h : p.Fits .value nid) :
      Turns p (.visit nid) (.values :: L) (.values :: L)
  | visitBinding {nid : NodeId} {L : List Layout} (h : p.Fits .binding nid) :
      Turns p (.visit nid) (.nothing :: L) (.on .binding .nothing :: L)
  | operand {nid : NodeId} {l : Layout} {L : List Layout} (h : p.Fits .value nid) :
      Turns p (.operand nid) (l :: L) (.on .value l :: L)
  | operandBinding {nid : NodeId} {l : Layout} {L : List Layout} (h : p.Fits .binding nid) :
      Turns p (.operand nid) (l :: L) (.on .binding l :: L)
  | collect {l : Layout} {L : List Layout} :
      Turns p (.reduce .collect) (.values :: l :: L) (.on .value l :: L)
  | collectBinding {l : Layout} {L : List Layout} :
      Turns p (.reduce .collect) (.on .binding .nothing :: l :: L) (.on .binding l :: L)
  | close {t : Tag} {l : Layout} {L : List Layout} (ht : t = .prog ∨ t = .paren ∨ t = .list) :
      Turns p (.reduce (.close t)) (.values :: l :: L) (.on .value l :: L)
  | push {id : NodeId} {part : Part} {l : Layout} {L : List Layout} (h : p.Fits part id) :
      Turns p (.reduce (.push id)) (l :: L) (.on part l :: L)
  | build {t : Tag} {n : Nat} {l : Layout} {L : List Layout} (parts : List Part) (ht : t.Admits parts)
      (hn : n = parts.length) :
      Turns p (.reduce (.build t n)) (l.onto parts.reverse :: L) (.on t.part l :: L)
  | operator {r : Reduction} {t : Tag} {l : Layout} {L : List Layout} (ht : t.isOperator)
      (hr : r = .arithmetic t ∨ r = .concat ∨ r = .compare t) :
      Turns p (.reduce r) (.on .value (.on .value l) :: L) (.on .value l :: L)
  | negate {l : Layout} {L : List Layout} :
      Turns p (.reduce .negate) (.on .value l :: L) (.on .value l :: L)
  | lambda {names pattern : NodeId} {l : Layout} {L : List Layout} (hnames : p.Fits .names names)
      (hpattern : p.Fits .patterns pattern) :
      Turns p (.reduce (.lambda names pattern)) (.on .value l :: L) (.on .value l :: L)
  | select {nid : NodeId} {es : List NodeId} {L : List Layout} (h : p.get? nid = some (.branch .case es)) :
      Turns p (.select nid) (.on .value .values :: L) (.values :: L)
  | clause {nid scrutinee : NodeId} {es clauses : List NodeId} {L : List Layout}
      (h : p.get? nid = some (.branch .case es)) (hne : clauses ≠ [])
      (hclauses : ∀ c ∈ clauses, p.Fits .clause c) (hscrutinee : p.Fits .value scrutinee) :
      Turns p (.clause nid clauses scrutinee) (.on .value .values :: L) (.values :: L)
  | enter {name : String} {L : List Layout} : Turns p (.enter name) L L
  | exit {L : List Layout} : Turns p .exit L L

/-- The tasks, one after the other, turn one layout of the frames into another. -/
inductive Task.Leads (p : Pool) : List Task → List Layout → List Layout → Prop where
  | nil {L : List Layout} : Leads p [] L L
  | cons {t : Task} {ts : List Task} {L L₁ L₂ : List Layout} (ht : t.Turns p L L₁)
      (hts : Leads p ts L₁ L₂) : Leads p (t :: ts) L L₂
  /-- A value that nothing waits for is one value more. -/
  | forget {ts : List Task} {L L₂ : List Layout} (h : Leads p ts (.values :: L) L₂) :
      Leads p ts (.on .value .values :: L) L₂

namespace Task

variable {p q : Pool} {t : Task} {ts us : List Task} {L L₁ L₂ : List Layout} {l : Layout}
  {ids : List NodeId}

theorem Turns.mono (h : t.Turns p L L₁) (hpq : p.Extends q) : t.Turns q L L₁ := by
  cases h with
  | visit h => exact .visit (h.mono hpq)
  | visitBinding h => exact .visitBinding (h.mono hpq)
  | operand h => exact .operand (h.mono hpq)
  | operandBinding h => exact .operandBinding (h.mono hpq)
  | collect => exact .collect
  | collectBinding => exact .collectBinding
  | close ht => exact .close ht
  | push h => exact .push (h.mono hpq)
  | build parts ht hn => exact .build parts ht hn
  | operator ht hr => exact .operator ht hr
  | negate => exact .negate
  | lambda hnames hpattern => exact .lambda (hnames.mono hpq) (hpattern.mono hpq)
  | select h => exact .select (hpq _ _ h)
  | clause h hne hclauses hscrutinee =>
    exact .clause (hpq _ _ h) hne (fun c hc => (hclauses c hc).mono hpq) (hscrutinee.mono hpq)
  | enter => exact .enter
  | exit => exact .exit

theorem Leads.mono (h : Leads p ts L L₁) (hpq : p.Extends q) : Leads q ts L L₁ := by
  induction h with
  | nil => exact .nil
  | cons ht _ ih => exact .cons (ht.mono hpq) ih
  | forget _ ih => exact .forget ih

theorem Leads.append (h : Leads p ts L L₁) (h' : Leads p us L₁ L₂) : Leads p (ts ++ us) L L₂ := by
  induction h with
  | nil => exact h'
  | cons ht _ ih => exact .cons ht (ih h')
  | forget _ ih => exact .forget (ih h')

/-- One value more, at the end. -/
theorem Leads.concat (h : Leads p ts L (l :: L₁)) (ht : t.Turns p (l :: L₁) (.on .value .values :: L₂)) :
    Leads p (ts ++ [t]) L (.values :: L₂) :=
  h.append (.cons ht (.forget .nil))

theorem leads_visits (h : ∀ id ∈ ids, p.Fits .value id) :
    Leads p (ids.map .visit) (.values :: L) (.values :: L) := by
  induction ids with
  | nil => exact .nil
  | cons id ids ih =>
    obtain ⟨hid, hids⟩ := List.forall_mem_cons.1 h
    exact .cons (.visit hid) (ih hids)

/-- Parts that are worked out or put down one by one come to stand in turn. -/
theorem leads_map {f : NodeId → Task} {parts : List Part} (h : List.Forall₂ p.Fits parts ids)
    (hf : ∀ part id l, part ∈ parts → p.Fits part id → (f id).Turns p (l :: L) (.on part l :: L)) :
    Leads p (ids.map f) (l :: L) (l.onto parts.reverse :: L) := by
  induction h generalizing l with
  | nil => exact .nil
  | @cons part id parts ids hid _ ih =>
    have hrest := ih (l := .on part l) fun part' id' l' hmem => hf part' id' l' (.tail _ hmem)
    rw [Layout.onto_reverse_cons]
    exact .cons (hf part id l (.head _) hid) hrest

theorem leads_flatten {tss : List (List Task)} {part : Part}
    (h : ∀ ts ∈ tss, ∀ l, Leads p ts (l :: L) (.on part l :: L)) :
    Leads p tss.flatten (l :: L) (l.onto (List.replicate tss.length part) :: L) := by
  induction tss generalizing l with
  | nil => exact .nil
  | cons ts tss ih =>
    obtain ⟨hts, htss⟩ := List.forall_mem_cons.1 h
    have honto : l.onto (List.replicate (tss.length + 1) part) =
        (Layout.on part l).onto (List.replicate tss.length part) := by
      rw [List.replicate_succ']
      simp [Layout.onto]
    rw [List.flatten_cons, List.length_cons, honto]
    exact (hts l).append (ih htss)

end Task

end Linefold
