import Linefold.Proofs.Closedness.Names
import Linefold.Proofs.Grammar.Recognition
import Linefold.Proofs.Words

/-!
# Operands by the scopes that they were parsed in

A parse that goes on is a stack of levels, one for each scope with the operands that were left while it was
the innermost one. What is free in an operand is a name of its own scope or of one around it, or one of the
names `M`; that is what a construct relies on that closes a scope (`Level.Good`). `Laid K rows` says which
operands the positions `K` find on which level, as a construct that opened a scope takes all operands of its
level and leaves one on the level below. A definition is the exception to all of this: while its body is
parsed its name has a word without a body, which is why a level knows the name that is pending (`Nest`).

The names `M` are those for which nothing is promised: names of list patterns, and definitions in scopes that
are thrown away. Once there are soft errors nothing is promised for any name.
-/

namespace Linefold

attribute [local irreducible] Pool.intern

/-! ### Lexicons with distinct names -/

namespace Lexicon

variable {l : Lexicon} {name x : String} {w : Word} {P : String → Word → Prop}

theorem mem_names_insert : x ∈ (l.insert name w).names ↔ x = name ∨ x ∈ l.names := by
  induction l with
  | nil => simp [insert, names]
  | cons nv l ih =>
    obtain ⟨n, v⟩ := nv
    unfold insert
    split
    · next h =>
      subst h
      simp [names]
    · have ih : x ∈ (Lexicon.insert l name w).map Prod.fst ↔ x = name ∨ x ∈ l.map Prod.fst := ih
      simp [names, ih, or_left_comm]

theorem nodup_names_insert (h : l.names.Nodup) : (l.insert name w).names.Nodup := by
  induction l with
  | nil => simp [insert, names]
  | cons nv l ih =>
    obtain ⟨n, v⟩ := nv
    obtain ⟨hn, hl⟩ := List.nodup_cons.1 h
    unfold insert
    split
    · next heq =>
      subst heq
      exact h
    · next hne =>
      refine List.nodup_cons.2 ⟨fun hmem => ?_, ih hl⟩
      exact (mem_names_insert.1 hmem).elim hne hn

/-- The word that a name had is gone once it has another one. -/
theorem all_insert_of_ne (hl : l.names.Nodup) (h : ∀ nv ∈ l, nv.1 ≠ name → P nv.1 nv.2) (hw : P name w) :
    (l.insert name w).All P := by
  induction l with
  | nil =>
    rintro _ (_ | ⟨_, ⟨⟩⟩)
    exact hw
  | cons nv l ih =>
    obtain ⟨n, v⟩ := nv
    obtain ⟨hn, hl⟩ := List.nodup_cons.1 hl
    obtain ⟨hhead, htail⟩ := List.forall_mem_cons.1 h
    unfold insert
    split
    · next heq =>
      subst heq
      refine List.forall_mem_cons.2 ⟨hw, fun nv hnv => htail nv hnv fun hne => ?_⟩
      exact hn (List.mem_map.2 ⟨nv, hnv, hne⟩)
    · next hne => exact List.forall_mem_cons.2 ⟨hhead hne, ih hl htail⟩

theorem mem_names_of_find? (h : (l.find? x).isSome) : x ∈ l.names := by
  induction l with
  | nil => cases h
  | cons nv l ih =>
    obtain ⟨n, v⟩ := nv
    unfold find? at h
    split at h
    · next heq => exact heq ▸ List.mem_cons_self
    · exact List.mem_cons_of_mem _ (ih h)

theorem isSome_find?_of_mem (h : x ∈ l.names) : (l.find? x).isSome := by
  induction l with
  | nil => cases h
  | cons nv l ih =>
    obtain ⟨n, v⟩ := nv
    unfold find?
    split
    · rfl
    · next hne => exact ih ((List.mem_cons.1 h).resolve_left fun heq => hne heq.symm)

/-- Distinct names are found with the words that they have. -/
theorem find?_of_mem (hl : l.names.Nodup) (h : (x, w) ∈ l) : l.find? x = some w := by
  induction l with
  | nil => cases h
  | cons nv l ih =>
    obtain ⟨n, v⟩ := nv
    obtain ⟨hn, hl⟩ := List.nodup_cons.1 hl
    unfold find?
    rcases List.mem_cons.1 h with heq | hmem
    · cases heq
      exact if_pos rfl
    · refine (if_neg ?_).trans (ih hl hmem)
      rintro rfl
      exact hn (List.mem_map.2 ⟨_, hmem, rfl⟩)

/-- The parameters of a scope are its values. -/
theorem mem_params : x ∈ l.params ↔ ∃ nw ∈ l, nw.2.cls = .value ∧ nw.2.name = x := by
  simp only [params, List.mem_map, List.mem_mergeSort, List.mem_filter, Word.isValue, decide_eq_true_eq]
  constructor
  · rintro ⟨w, ⟨⟨nw, hmem, rfl⟩, hcls⟩, hx⟩
    exact ⟨nw, hmem, hcls, hx⟩
  · rintro ⟨nw, hmem, hcls, hx⟩
    exact ⟨nw.2, ⟨⟨nw, hmem, rfl⟩, hcls⟩, hx⟩

end Lexicon

/-! ### Levels -/

/-- What an operand is left for. -/
inductive Slot where
  /-- A node that is a child of another one, a clause apart. -/
  | node
  | clause
  | key
  | param
  /-- An element of a list pattern. -/
  | part
  /-- The variable of a clause. -/
  | subject
  deriving DecidableEq

/-- The operand binds names of its scope. -/
def Slot.binds : Slot → Bool
  | param | part | subject => true
  | _ => false

def Slot.Fills (M N : String → Prop) (p : Pool) : Slot → NodeId → Prop
  | node, id => id ≠ 0 ∧ p.Sees N id
  | clause, id => p.SeesClause N id
  | key, id => id ≤ p.size
  | param, id => id ≤ p.size ∧ p.Listed M id
  | part, id => id ≤ p.size ∧ ∀ x ∈ (p.pattern id).idents, M x
  | subject, id => ∃ x, p.get? id = some (.ident x) ∧ N x

/-- What has a scope. -/
inductive Owner where
  | globals
  | definition (name : String)
  | function
  | clause

/-- The definition that is pending in the scope around. -/
def Owner.pending : Owner → Option String
  | definition name => some name
  | _ => none

/-- The scope is thrown away when its construct ends. -/
def Owner.Discards : Owner → Prop
  | function | clause => True
  | _ => False

/-- A scope and the operands that were left in it, last first. -/
structure Level where
  owner : Owner
  scope : Scope
  parts : List (Slot × NodeId)

namespace Level

/-- The name is bound by an operand of the level. -/
def Binds (l : Level) (p : Pool) (x : String) : Prop :=
  ∃ q ∈ l.parts, q.1.binds ∧ x ∈ (p.pattern q.2).idents

def define (l : Level) (x : String) (w : Word) : Level := { l with scope := l.scope.bind x w }

def put (l : Level) (slot : Slot) (id : NodeId) : Level := { l with parts := (slot, id) :: l.parts }

end Level

/-- The names that what is parsed in some scopes may use. -/
def Known (M : String → Prop) (errors : Array Diagnostic) (scopes : List Scope) (x : String) : Prop :=
  errors ≠ #[] ∨ M x ∨ ∃ sc ∈ scopes, x ∈ sc.lexicon.names

/-- What a name of the scope may be. Functions are finished but for the pending one; in the scope of a function
or of a clause nothing is promised for them. -/
def Level.Allows (M Op N : String → Prop) (p : Pool) (pending : Option String) (l : Level) (x : String)
    (w : Word) : Prop :=
  match w.cls with
  | .operator t => (match l.owner with | .globals => True | _ => False) ∧ Op x ∧ t.isOperator
  | .value => w.name = x ∧ l.Binds p x
  | .function =>
    match l.owner with
    | .globals | .definition _ => pending = some x ∨ w.Closed M p N x
    | .function | .clause => M x

structure Level.Good (M Op N : String → Prop) (p : Pool) (pending : Option String) (l : Level) : Prop where
  parts : ∀ q ∈ l.parts, q.1.Fills M N p q.2
  distinct : l.scope.lexicon.names.Nodup
  words : l.scope.lexicon.All (l.Allows M Op N p pending)
  pends : ∀ x, pending = some x → l.owner.Discards → M x

/-- The levels are good, innermost first. -/
def Nest (M Op : String → Prop) (p : Pool) (errors : Array Diagnostic) : Option String → List Level → Prop
  | _, [] => True
  | pending, l :: ls =>
    l.Good M Op (Known M errors (l.scope :: ls.map Level.scope)) p pending ∧
      Nest M Op p errors l.owner.pending ls

/-- No name in the pool is an operator word, and the list patterns of functions have names among `M`. -/
structure Pool.Tidy (M Op : String → Prop) (p : Pool) : Prop where
  names : ∀ id x, p.get? id = some (.ident x) → ¬ Op x
  lambdas : ∀ id names body pattern n, p.get? id = some (.branch .lambda [names, body, pattern]) →
    p.get? pattern = some n → ∀ i ∈ n.elts, p.Listed M i

/-- The scopes of a parse are those of the levels. -/
structure Standing (M Op : String → Prop) (ls : List Level) (s : Parsed) : Prop where
  scopes : ls.map Level.scope = s.env.inner ++ [s.env.globals]
  nest : Nest M Op s.pool s.errors none ls
  pool : s.pool.Tidy M Op

def operandsOf : List Level → List NodeId
  | [] => []
  | l :: ls => l.parts.map Prod.snd ++ operandsOf ls

section

variable {M Op N N' : String → Prop} {p q : Pool} {pending : Option String} {l l' : Level} {ls : List Level}
  {s : Parsed} {errors errors' : Array Diagnostic} {scopes : List Scope} {slot : Slot} {id : NodeId} {x : String}
  {w : Word} {n : Node}

/-! ### What grows -/

theorem Slot.Fills.mono (h : slot.Fills M N p id) (hN : ∀ x, N x → N' x) : slot.Fills M N' p id := by
  cases slot with
  | node => exact ⟨h.1, h.2.mono hN⟩
  | clause => exact Pool.SeesClause.mono h hN
  | subject =>
    obtain ⟨x, hget, hx⟩ := h
    exact ⟨x, hget, hN x hx⟩
  | key | param | part => exact h

theorem Slot.Fills.held (h : slot.Fills M N p id) : id ≤ p.size := by
  cases slot with
  | node => exact h.2.held
  | clause => exact Pool.SeesClause.held h
  | subject =>
    obtain ⟨x, hget, -⟩ := h
    exact Pool.le_size_of_get? hget
  | key => exact h
  | param | part => exact h.1

theorem Slot.Fills.grow (h : slot.Fills M N p id) (hpq : p.Extends q) : slot.Fills M N q id := by
  cases slot with
  | node => exact ⟨h.1, h.2.grow hpq⟩
  | clause => exact Pool.SeesClause.grow h hpq
  | subject =>
    obtain ⟨x, hget, hx⟩ := h
    exact ⟨x, hpq _ _ hget, hx⟩
  | key => exact hpq.le_size h
  | param => exact ⟨hpq.le_size h.1, h.2.grow h.1 hpq⟩
  | part =>
    refine ⟨hpq.le_size h.1, ?_⟩
    rw [hpq.pattern_eq h.1]
    exact h.2

/-- A list pattern is a parameter. -/
theorem Slot.Fills.param (h : Slot.part.Fills M N p id) : Slot.param.Fills M N p id :=
  ⟨h.1, fun _ _ x hx => h.2 x hx⟩

theorem Level.Allows.mono (h : l.Allows M Op N p pending x w) {pending' : Option String}
    (hN : ∀ y, N y → N' y) (hpq : p.Extends q) (hpending : pending = some x → pending' = some x)
    (howner : l'.owner = l.owner) (hbinds : l.Binds p x → l'.Binds q x) :
    l'.Allows M Op N' q pending' x w := by
  unfold Level.Allows at *
  cases hcls : w.cls with
  | operator t =>
    simp only [hcls, howner] at h ⊢
    exact h
  | value =>
    simp only [hcls] at h ⊢
    exact ⟨h.1, hbinds h.2⟩
  | function =>
    simp only [hcls, howner] at h ⊢
    split <;> rename_i heq <;> simp only [heq] at h
    · exact h.imp hpending fun h => (h.mono hN).grow hpq
    · exact h.imp hpending fun h => (h.mono hN).grow hpq
    · exact h
    · exact h

theorem Level.Binds.grow (h : l.Binds p x) (hheld : ∀ q ∈ l.parts, q.2 ≤ p.size) (hpq : p.Extends q) :
    l.Binds q x := by
  obtain ⟨part, hmem, hbinds, hx⟩ := h
  refine ⟨part, hmem, hbinds, ?_⟩
  rw [hpq.pattern_eq (hheld part hmem)]
  exact hx

theorem Level.Good.mono (h : l.Good M Op N p pending) (hN : ∀ y, N y → N' y) (hpq : p.Extends q) :
    l.Good M Op N' q pending := by
  refine ⟨fun part hmem => ((h.parts part hmem).mono hN).grow hpq, h.distinct, fun nw hnw => ?_, h.pends⟩
  refine (h.words nw hnw).mono hN hpq (fun hx => hx) rfl fun hbinds => ?_
  exact hbinds.grow (fun part hmem => (h.parts part hmem).held) hpq

theorem Known.cons (h : Known M errors scopes x) (sc : Scope) : Known M errors (sc :: scopes) x :=
  h.imp_right fun h => h.imp_right fun ⟨k, hk, hx⟩ => ⟨k, .tail _ hk, hx⟩

theorem Known.report (h : Known M errors scopes x) (herrors : errors ≠ #[] → errors' ≠ #[]) :
    Known M errors' scopes x :=
  h.imp_left herrors

theorem Known.bind {sc : Scope} (h : Known M errors (sc :: scopes) x) (y : String) (w : Word) :
    Known M errors (sc.bind y w :: scopes) x := by
  refine h.imp_right fun h => h.imp_right ?_
  rintro ⟨k, hk, hx⟩
  rcases List.mem_cons.1 hk with rfl | hk
  · exact ⟨_, List.mem_cons_self, Lexicon.mem_names_insert.2 (.inr hx)⟩
  · exact ⟨k, .tail _ hk, hx⟩

theorem Nest.grow (h : Nest M Op p errors pending ls) (hpq : p.Extends q)
    (herrors : errors ≠ #[] → errors' ≠ #[]) : Nest M Op q errors' pending ls := by
  induction ls generalizing pending with
  | nil => trivial
  | cons l ls ih => exact ⟨h.1.mono (fun _ hy => hy.report herrors) hpq, ih h.2⟩

namespace Standing

theorem grow (h : Standing M Op ls s) (hpq : s.pool.Extends p) (hp : p.Tidy M Op) :
    Standing M Op ls { s with pool := p } :=
  ⟨h.scopes, h.nest.grow hpq fun he => he, hp⟩

theorem report (h : Standing M Op ls s) (d : Diagnostic) :
    Standing M Op ls { s with errors := s.errors.push d } :=
  ⟨h.scopes, h.nest.grow (.refl _) fun _ => by simp, h.pool⟩

end Standing

/-! ### Tidy pools -/

/-- The node may be added to a tidy pool. -/
structure Node.Tidy (M Op : String → Prop) (p : Pool) (n : Node) : Prop where
  held : ∀ c ∈ n.elts, c ≤ p.size
  name : ∀ x, n = .ident x → ¬ Op x
  lambda : ∀ names body pattern m, n = .branch .lambda [names, body, pattern] → p.get? pattern = some m →
    ∀ i ∈ m.elts, p.Listed M i

theorem Node.tidy_branch {t : Tag} {es : List NodeId} (ht : t ≠ .lambda) (hes : ∀ c ∈ es, c ≤ p.size) :
    (Node.branch t es).Tidy M Op p :=
  ⟨hes, nofun, fun _ _ _ _ h => absurd (Node.branch.inj h).1 ht⟩

theorem Node.tidy_ident (hx : ¬ Op x) : (Node.ident x).Tidy M Op p :=
  ⟨nofun, fun _ h => Node.ident.inj h ▸ hx, nofun⟩

theorem Node.tidy_literal (hn : n.isLiteral) : n.Tidy M Op p := by
  refine ⟨fun c hc => ?_, fun x h => ?_, fun _ _ _ _ h => ?_⟩
  · rw [elts_of_isLiteral hn] at hc
    cases hc
  all_goals rw [h] at hn; cases hn

theorem Pool.Tidy.intern (h : p.Tidy M Op) (hn : n.Tidy M Op p) : (p.intern n).2.Tidy M Op := by
  have hext := p.extends_intern n
  -- The list patterns of a function whose parts are held already.
  have hback {pattern : NodeId} {m : Node} (hle : pattern ≤ p.size)
      (hm : (p.intern n).2.get? pattern = some m) (hlisted : p.get? pattern = some m → ∀ i ∈ m.elts, p.Listed M i) :
      ∀ i ∈ m.elts, (p.intern n).2.Listed M i := fun i hi => by
    have hm := (hext.get?_eq hle).symm.trans hm
    exact (hlisted hm i hi).grow (Nat.le_trans (Nat.le_of_lt (lt_of_mem_elts hm hi)) hle) hext
  refine ⟨fun id x hid => ?_, fun id names body pattern m hid hm => ?_⟩
  · rcases of_get?_intern hid with hid | ⟨-, heq⟩
    · exact h.names id x hid
    · exact hn.name x (heq.trans (Node.within_eq_self hn.held)).symm
  · rcases of_get?_intern hid with hid | ⟨-, heq⟩
    · have hle : pattern ≤ p.size :=
        Nat.le_trans (Nat.le_of_lt (lt_of_get?_branch hid (by simp))) (le_size_of_get? hid)
      exact hback hle hm fun hm => h.lambdas id names body pattern m hid hm
    · obtain rfl := (heq.trans (Node.within_eq_self hn.held)).symm
      exact hback (hn.held pattern (by simp [Node.elts])) hm fun hm => hn.lambda names body pattern m rfl hm

theorem Pool.Tidy.internAt {span : Span} (h : p.Tidy M Op) (hn : n.Tidy M Op p) :
    (p.internAt n span).2.Tidy M Op := by
  refine ⟨(h.intern hn).names, fun id names body pattern m hid hm i hi => ?_⟩
  have hlisted := (h.intern hn).lambdas id names body pattern m hid hm i hi
  exact hlisted.grow (Nat.le_trans (Nat.le_of_lt (lt_of_mem_elts hm hi)) (le_size_of_get? hm)) fun _ _ h => h

/-! ### One level -/

theorem Level.Good.withParts (h : l.Good M Op N p pending) {parts : List (Slot × NodeId)}
    (hparts : ∀ q ∈ parts, q.1.Fills M N p q.2)
    (hbinds : ∀ x, l.Binds p x → Level.Binds { l with parts } p x) :
    Level.Good M Op N p pending { l with parts } :=
  ⟨hparts, h.distinct, fun nw hnw =>
    (h.words nw hnw).mono (fun _ hy => hy) (.refl p) (fun hx => hx) rfl (hbinds nw.1), h.pends⟩

/-- A name gets a word; what was pending for it no longer is. -/
theorem Level.Good.define (h : l.Good M Op N p pending) {pending' : Option String} (hN : ∀ y, N y → N' y)
    (hpending : ∀ y, y ≠ x → pending = some y → pending' = some y)
    (hpends : ∀ y, pending' = some y → l.owner.Discards → M y)
    (hw : (l.define x w).Allows M Op N' p pending' x w) : (l.define x w).Good M Op N' p pending' := by
  refine ⟨fun q hq => (h.parts q hq).mono hN, Lexicon.nodup_names_insert h.distinct, ?_, hpends⟩
  refine Lexicon.all_insert_of_ne h.distinct (fun nv hnv hne => ?_) hw
  exact (h.words nv hnv).mono hN (.refl p) (hpending nv.1 hne) rfl fun hbinds => hbinds

theorem Nest.exists_good (h : Nest M Op p errors pending ls) (hl : l ∈ ls) :
    ∃ N pending, l.Good M Op N p pending := by
  induction ls generalizing pending with
  | nil => cases hl
  | cons l' ls ih =>
    rcases List.mem_cons.1 hl with rfl | hl
    · exact ⟨_, _, h.1⟩
    · exact ih h.2 hl

/-! ### Scopes -/

theorem Environment.scopes_bind {e : Environment} (h : (l :: ls).map Level.scope = e.inner ++ [e.globals]) :
    (l.define x w :: ls).map Level.scope = (e.bind x w).inner ++ [(e.bind x w).globals] := by
  unfold Environment.bind Environment.modifyTop
  cases hi : e.inner with
  | nil =>
    rw [hi] at h
    obtain ⟨hl, hls⟩ := List.cons.inj h
    simp only [List.map_cons, Level.define, hl, hls]
    rfl
  | cons sc inner =>
    rw [hi] at h
    obtain ⟨hl, hls⟩ := List.cons.inj h
    simp only [List.map_cons, Level.define, hl, hls]
    rfl

theorem Environment.scopes_exit {e : Environment} {l₁ : Level}
    (h : (l :: l₁ :: ls).map Level.scope = e.inner ++ [e.globals]) :
    ∃ inner, e.exit = (some l.scope, { e with inner }) ∧
      (l₁ :: ls).map Level.scope = inner ++ [e.globals] := by
  unfold Environment.exit
  cases hi : e.inner with
  | nil =>
    rw [hi] at h
    exact absurd (List.cons.inj h).2 (by simp)
  | cons sc inner =>
    rw [hi] at h
    obtain ⟨hl, hls⟩ := List.cons.inj h
    exact ⟨inner, by rw [hl], hls⟩

/-- The scope at the depth of the innermost one. -/
theorem Environment.bindAt_length (e : Environment) : e.bindAt e.inner.length x w = e.bind x w := by
  unfold Environment.bindAt Environment.bind Environment.modifyTop
  cases hi : e.inner with
  | nil => simp
  | cons sc inner => simp [List.modify_cons]

namespace Standing

theorem intern (h : Standing M Op ls s) (hn : n.Tidy M Op s.pool) :
    Standing M Op ls { s with pool := (s.pool.intern n).2 } :=
  h.grow (s.pool.extends_intern n) (h.pool.intern hn)

theorem withParts (h : Standing M Op (l :: ls) s) {parts : List (Slot × NodeId)}
    (hparts : ∀ q ∈ parts, q.1.Fills M (Known M s.errors ((l :: ls).map Level.scope)) s.pool q.2)
    (hbinds : ∀ x, l.Binds s.pool x → Level.Binds { l with parts } s.pool x) :
    Standing M Op ({ l with parts } :: ls) s :=
  ⟨h.scopes, ⟨h.nest.1.withParts hparts hbinds, h.nest.2⟩, h.pool⟩

theorem put (h : Standing M Op (l :: ls) s)
    (hid : slot.Fills M (Known M s.errors ((l :: ls).map Level.scope)) s.pool id) :
    Standing M Op (l.put slot id :: ls) s :=
  h.withParts (List.forall_mem_cons.2 ⟨hid, h.nest.1.parts⟩) fun _ ⟨q, hq, hx⟩ => ⟨q, .tail _ hq, hx⟩

/-- Operands that bind nothing are taken. -/
theorem drop {owner : Owner} {scope : Scope} {front rest : List (Slot × NodeId)}
    (h : Standing M Op (⟨owner, scope, front ++ rest⟩ :: ls) s) (hfront : ∀ q ∈ front, q.1.binds = false) :
    Standing M Op (⟨owner, scope, rest⟩ :: ls) s := by
  refine h.withParts (fun q hq => h.nest.1.parts q (List.mem_append_right _ hq)) ?_
  rintro x ⟨q, hq, hbinds, hx⟩
  rcases List.mem_append.1 hq with hq | hq
  · rw [hfront q hq] at hbinds
    cases hbinds
  · exact ⟨q, hq, hbinds, hx⟩

theorem define (h : Standing M Op (l :: ls) s)
    (hw : (l.define x w).Allows M Op (Known M s.errors ((l.define x w :: ls).map Level.scope)) s.pool none x w) :
    Standing M Op (l.define x w :: ls) { s with env := s.env.bind x w } :=
  ⟨Environment.scopes_bind h.scopes,
    ⟨h.nest.1.define (fun _ hy => hy.bind x w) (fun _ _ hy => hy) h.nest.1.pends hw, h.nest.2⟩, h.pool⟩

theorem enter (h : Standing M Op ls s) {owner : Owner} (howner : owner.pending = none) (name : String) :
    Standing M Op (⟨owner, ⟨name, []⟩, []⟩ :: ls)
      { s with env := { s.env with inner := ⟨name, []⟩ :: s.env.inner } } :=
  ⟨congrArg (Scope.mk name [] :: ·) h.scopes, ⟨⟨nofun, .nil, Lexicon.all_nil, nofun⟩, howner ▸ h.nest⟩, h.pool⟩

/-- A definition begins. -/
theorem declare (h : Standing M Op (l :: ls) s) (hx : l.owner.Discards → M x) :
    Standing M Op (⟨.definition x, ⟨x, []⟩, []⟩ :: l.define x (.function x) :: ls)
      { s with env :=
          { s.env.bind x (.function x) with inner := ⟨x, []⟩ :: (s.env.bind x (.function x)).inner } } := by
  have hscopes := Environment.scopes_bind (x := x) (w := .function x) h.scopes
  refine ⟨congrArg (Scope.mk x [] :: ·) hscopes, ⟨⟨nofun, .nil, Lexicon.all_nil, nofun⟩, ?_, h.nest.2⟩, h.pool⟩
  refine h.nest.1.define (fun _ hy => hy.bind x _) nofun (fun y hy => Option.some.inj hy ▸ hx) ?_
  show match l.owner with
    | .globals | .definition _ => _
    | .function | .clause => M x
  cases howner : l.owner with
  | globals | definition => exact .inl rfl
  | function | clause => exact hx (by rw [howner]; trivial)

/-- The innermost scope is closed. -/
theorem exit {l₁ : Level} (h : Standing M Op (l :: l₁ :: ls) s) (hl : l.owner.pending = none) :
    ∃ env, s.env.exit = (some l.scope, env) ∧ Standing M Op (l₁ :: ls) { s with env } := by
  obtain ⟨inner, hexit, hscopes⟩ := Environment.scopes_exit h.scopes
  exact ⟨_, hexit, hscopes, hl ▸ h.nest.2, h.pool⟩

/-- A definition ends. -/
theorem finish {l₁ : Level} (h : Standing M Op (l :: l₁ :: ls) s) (hl : l.owner.pending = some x)
    (hw : (l₁.define x w).Allows M Op (Known M s.errors ((l₁.define x w :: ls).map Level.scope)) s.pool none x w) :
    ∃ env, s.env.exit = (some l.scope, env) ∧
      Standing M Op (l₁.define x w :: ls) { s with env := env.bindAt ls.length x w } := by
  obtain ⟨inner, hexit, hscopes⟩ := Environment.scopes_exit h.scopes
  have hlength : ls.length = inner.length := by simpa using congrArg List.length hscopes
  have hnest : Nest M Op s.pool s.errors (some x) (l₁ :: ls) := hl ▸ h.nest.2
  refine ⟨_, hexit, ?_⟩
  rw [hlength]
  have hbind : Environment.bindAt { s.env with inner } inner.length x w = _ := Environment.bindAt_length _
  rw [hbind]
  refine ⟨Environment.scopes_bind hscopes, ⟨hnest.1.define (fun _ hy => hy.bind x w) ?_ nofun hw, hnest.2⟩, h.pool⟩
  rintro y hne ⟨⟩
  exact absurd rfl hne

end Standing

end

end Linefold
