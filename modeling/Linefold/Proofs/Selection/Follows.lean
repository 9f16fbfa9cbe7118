import Linefold.Proofs.Selection.Parts
import Linefold.Proofs.Selection.Values
import Linefold.Proofs.Twins.Folding

/-!
# Nodes that follow each other

Two machines are abreast if they are alike in one environment, over pools that have grown from those of a twin. On machines
that are abreast, a task repeats another one if it puts the same value on the frame (`Machine.Repeats`), and follows it if it
does so where the first value is ground (`Machine.Follows`): exactly, or else through groups. The visits to the nodes of a
list keep to those of another list if they leave the same values in a frame, whatever has been in it (`Machine.Keeps`). Each
kind of node that is made of parts hands this on from its parts.
-/

namespace Linefold

open List (Forall₂)

namespace OperandStack

variable {T : Twin} {vs ws : List NodeId} {s s' : OperandStack}

theorem alike_stacked (hs : s.Alike T s') (h : Forall₂ T.Alike vs ws) : (s.stacked [vs]).Alike T (s'.stacked [ws]) := by
  induction h with
  | nil =>
    rw [← openFrame_eq_stacked, ← openFrame_eq_stacked]
    exact hs.openFrame
  | cons hvw _ ih =>
    rw [← push_stacked, ← push_stacked]
    exact ih.push hvw

theorem values_alike (h : (stacked {} [vs]).Alike T (stacked {} [ws])) : Forall₂ T.Alike vs ws := by
  have hitems := h.items
  simp only [stacked, List.append_toArray, List.nil_append] at hitems
  simpa using List.rel_reverse hitems

end OperandStack

namespace Machine

variable {m m' n n' k : Machine} {t u : Task} {ts us : List Task} {v w i j : NodeId} {vs ws es fs : List NodeId} {x y : Bool}
  {e : Environment} {T : Twin} {q : Pool} {tag : Tag}

theorem Alike.framed (h : m.Alike n) (hvs : Forall₂ (m.twin n).Alike vs ws) : (m.framed vs).Alike (n.framed ws) :=
  ⟨OperandStack.alike_stacked .empty hvs, h.env, h.budget⟩

/-- What a task puts on the frame is compared on one run. -/
theorem Pushes.alike_of_corresponds {U : Twin} (h : m.Pushes t v m') (hmn : m.Alike n) (hu : n.Single u)
    (hruns : Corresponds U (fun _ => Eq) (.ok () (m'.framed [v])) ((n.framed []).run [u])) :
    ∃ w n', n.Pushes u w n' ∧ m'.Alike n' ∧ (m'.twin n').Alike v w := by
  rcases hu with ⟨w, n', hw⟩ | hfails
  · rw [hw.run_framed_nil] at hruns
    obtain ⟨-, hk, -⟩ := hruns
    obtain _ | ⟨hvw, -⟩ := OperandStack.values_alike hk.stack
    refine ⟨w, n', hw, ⟨?_, hk.env, hk.budget⟩, hvw⟩
    rw [h.stack_eq, hw.stack_eq]
    exact hmn.stack.mono ⟨h.grows, hw.grows⟩
  · obtain ⟨err, k, herror⟩ := hfails {} [] [] []
    have herror : (n.framed []).run [u] = .error err k := herror
    rw [herror] at hruns
    exact hruns.elim

/-- Tasks that are alike put values on the frame that are alike. -/
theorem Pushes.alike (h : m.Pushes t v m') (hmn : m.Alike n) (htu : Task.Related Twin.Alike (m.twin n) t u)
    (hu : n.Single u) : ∃ w n', n.Pushes u w n' ∧ m'.Alike n' ∧ (m'.twin n').Alike v w := by
  have htasks : Task.AllRelated Twin.Alike (m.twin n) [t] [u] := .cons htu .nil
  have hruns := (hmn.framed .nil).run_of (fun h hij => .steps (h.visit hij)) htasks
  rw [h.run_framed_nil] at hruns
  exact h.alike_of_corresponds hmn hu hruns

/-- Visits to nodes that are alike leave values in the frame that are alike. -/
theorem Moves.alike (h : m.Moves es vs ws m') (hmn : m.Alike n) (hes : Forall₂ (m.twin n).Alike es fs)
    {vs' : List NodeId} (hvs : Forall₂ (m.twin n).Alike vs vs') :
    ∃ ws' n', n.Moves fs vs' ws' n' ∧ m'.Alike n' ∧ Forall₂ (m'.twin n').Alike ws ws' := by
  have htasks : Task.AllRelated Twin.Alike (m.twin n) (es.map .visit ++ []) (fs.map .visit ++ []) := by
    rw [List.append_nil, List.append_nil]
    exact .map hes fun _ _ => .visit
  have hruns := (hmn.framed hvs).run_of (fun h hij => .steps (h.visit hij)) htasks
  have hrun : (m.framed vs).run (es.map .visit ++ []) = .ok () (m'.framed ws) := (h.run {} [] []).trans run_nil
  rw [hrun] at hruns
  rcases n.exists_moves fs vs' with ⟨ws', n', hws'⟩ | hhalts
  · have hrun' : (n.framed vs').run (fs.map .visit ++ []) = .ok () (n'.framed ws') := (hws'.run {} [] []).trans run_nil
    rw [hrun'] at hruns
    obtain ⟨-, halike, -⟩ := hruns
    refine ⟨ws', n', hws', ⟨?_, halike.env, halike.budget⟩, OperandStack.values_alike halike.stack⟩
    rw [h.stack_eq, hws'.stack_eq]
    exact hmn.stack.mono ⟨h.grows, hws'.grows⟩
  · obtain ⟨err, k, herror⟩ := hhalts {} [] []
    have herror : (n.framed vs').run (fs.map .visit ++ []) = .error err k := herror
    rw [herror] at hruns
    exact hruns.elim

/-! ### Tasks on machines that are abreast -/

/-- The machines are alike in an environment, over pools that have grown from those of `T`. -/
structure Abreast (e : Environment) (T : Twin) (m n : Machine) : Prop where
  grows : T.Grows (m.twin n)
  alike : m.Alike n
  env : m.env = e

theorem Abreast.after {p : Pool} {b b' : Nat} (h : Abreast e T m n) (hp : m.pool.Extends p) (hq : n.pool.Extends q)
    (hb : b = b') : Abreast e T (m.after p b) (n.after q b') := by
  have hgrows : (m.twin n).Grows ⟨p, q⟩ := ⟨hp, hq⟩
  exact ⟨h.grows.trans hgrows, ⟨h.alike.stack.mono hgrows, h.alike.env.mono hgrows, hb⟩, h.env⟩

theorem Abreast.grow {p : Pool} (h : Abreast e T m n) (hp : m.pool.Extends p) (hq : n.pool.Extends q) :
    Abreast e T (m.after p m.budget) (n.after q n.budget) := h.after hp hq h.alike.budget

/-- The second task puts the value of the first one on the frame. -/
def Repeats (e : Environment) (T : Twin) (t u : Task) : Prop :=
  ∀ m n, Abreast e T m n → ∀ v m', m.Pushes t v m' →
    ∃ w n', n.Pushes u w n' ∧ Abreast e T m' n' ∧ (m'.twin n').Alike v w

/-- Where the first task puts a value on the frame that is ground, the second one puts the same value on it. -/
def Follows (e : Environment) (T : Twin) (x : Bool) (t u : Task) : Prop :=
  ∀ m n, Abreast e T m n → ∀ v m', m.Pushes t v m' → (∃ q, m'.pool.Extends q ∧ q.isGround v) →
    ∃ w n', n.Pushes u w n' ∧ Abreast e T m' n' ∧ (m'.twin n').Seen x v w

/-- The visits to the second nodes leave the values of the visits to the first ones in a frame. -/
def Keeps (e : Environment) (T : Twin) (es fs : List NodeId) : Prop :=
  ∀ m n, Abreast e T m n → ∀ vs vs', Forall₂ (m.twin n).Alike vs vs' → ∀ ws m', m.Moves es vs ws m' →
    ∃ ws' n', n.Moves fs vs' ws' n' ∧ Abreast e T m' n' ∧ Forall₂ (m'.twin n').Alike ws ws'

theorem Repeats.follows (h : Repeats e T t u) : Follows e T x t u := by
  intro m n hmn v m' hv _
  obtain ⟨w, n', hw, hmn', hvw⟩ := h m n hmn v m' hv
  exact ⟨w, n', hw, hmn', hvw.seen⟩

theorem repeats_of_alike (htu : ∀ m n, Abreast e T m n → Task.Related Twin.Alike (m.twin n) t u)
    (hu : ∀ m n, Abreast e T m n → n.Single u) : Repeats e T t u := by
  intro m n hmn v m' hv
  obtain ⟨w, n', hw, halike, hvw⟩ := hv.alike hmn.alike (htu m n hmn) (hu m n hmn)
  exact ⟨w, n', hw, ⟨hmn.grows.trans ⟨hv.grows, hw.grows⟩, halike, hv.env_eq.trans hmn.env⟩, hvw⟩

theorem repeats_operand (h : T.Alike i j) : Repeats e T (.operand i) (.operand j) :=
  repeats_of_alike (fun _ _ hmn => .operand (h.mono hmn.grows)) fun _ _ _ => single_operand

/-- A task whose value is ground repeats what it follows exactly. -/
theorem Follows.repeats (h : Follows e T true t u)
    (hground : ∀ m n, Abreast e T m n → ∀ v m', m.Pushes t v m' → m'.pool.isGround v) : Repeats e T t u :=
  fun m n hmn v m' hv => h m n hmn v m' hv ⟨_, .refl _, hground m n hmn v m' hv⟩

theorem Follows.visit (h : Follows e T x (.operand i) (.operand j)) (hj : ∀ m n, Abreast e T m n → n.Single (.visit j)) :
    Follows e T x (.visit i) (.visit j) := by
  intro m n hmn v m' hv hq
  obtain ⟨w, n', hw, hmn', hvw⟩ := h m n hmn v m' hv.operand hq
  exact ⟨w, n', (hj m n hmn).pushes_operand_iff.1 hw, hmn', hvw⟩

theorem follows_all (h : Forall₂ (Follows e T x) ts us) (hmn : Abreast e T m n) (hvs : PushesAll m ts vs m')
    (hq : m'.pool.Extends q) (hground : ∀ v ∈ vs, q.isGround v) :
    ∃ ws n', PushesAll n us ws n' ∧ Abreast e T m' n' ∧ Forall₂ ((m'.twin n').Seen x) vs ws := by
  induction h generalizing m n vs with
  | nil =>
    cases hvs
    exact ⟨[], n, .nil, hmn, .nil⟩
  | cons htu _ ih =>
    obtain _ | ⟨hv, hvs⟩ := hvs
    obtain ⟨hvground, hground⟩ := List.forall_mem_cons.1 hground
    obtain ⟨w, n₁, hw, hmn₁, hvw⟩ := htu m n hmn _ _ hv ⟨q, hvs.grows.trans hq, hvground⟩
    obtain ⟨ws, n', hws, hmn', hvws⟩ := ih hmn₁ hvs hground
    exact ⟨w :: ws, n', .cons hw hws, hmn', .cons (hvw.mono ⟨hvs.grows, hws.grows⟩) hvws⟩

/-! ### Visits on machines that are abreast -/

theorem keeps_of_alike (h : T.Alike i j) : Keeps e T [i] [j] := by
  intro m n hmn vs vs' hvs ws m' hws
  obtain ⟨ws', n', hws', halike, hww'⟩ := hws.alike hmn.alike (.cons (h.mono hmn.grows) .nil) hvs
  exact ⟨ws', n', hws', ⟨hmn.grows.trans ⟨hws.grows, hws'.grows⟩, halike, hws.env_eq.trans hmn.env⟩, hww'⟩

theorem keeps_of_repeats (h : Repeats e T (.visit i) (.visit j)) (hi : ∀ m n, Abreast e T m n → m.Single (.visit i)) :
    Keeps e T [i] [j] := by
  intro m n hmn vs vs' hvs ws m' hws
  rcases hi m n hmn with ⟨v, k, hv⟩ | hfails
  · obtain ⟨rfl, rfl⟩ := hws.unique hv.moves
    obtain ⟨w, n', hw, hmn', hvw⟩ := h m n hmn v m' hv
    exact ⟨w :: vs', n', hw.moves, hmn', .cons hvw (Twin.forall₂_mono hvs ⟨hv.grows, hw.grows⟩)⟩
  · exact absurd (fun s fs us => hfails s vs fs us) hws.not_halts

theorem keeps_all (h : Forall₂ (fun i j => Keeps e T [i] [j]) es fs) : Keeps e T es fs := by
  induction h with
  | nil =>
    intro m n hmn vs vs' hvs ws m' hws
    have hnil {k : Machine} {us : List NodeId} : k.Moves [] us us k := ⟨.refl _, rfl, fun _ _ _ => rfl⟩
    obtain ⟨rfl, rfl⟩ := hws.unique hnil
    exact ⟨vs', n, hnil, hmn, hvs⟩
  | cons hij _ ih =>
    intro m n hmn vs vs' hvs ws m' hws
    obtain ⟨us, m₁, hus, hws⟩ := hws.exists_of_cons
    obtain ⟨us', n₁, hus', hmn₁, huu'⟩ := hij m n hmn vs vs' hvs us m₁ hus
    obtain ⟨ws', n', hws', hmn', hww'⟩ := ih m₁ n₁ hmn₁ us us' huu' ws m' hws
    exact ⟨ws', n', hus'.cons hws', hmn', hww'⟩

theorem moves_exprs_iff (h : m.pool.get? i = some (.branch .exprs es)) : m.Moves [i] vs ws m' ↔ m.Moves es.reverse vs ws m' := by
  have hrun (s : OperandStack) (fs : List (List NodeId)) (us : List Task) :
      (m.onStack (s.stacked (vs :: fs))).run ([i].map .visit ++ us) =
        (m.onStack (s.stacked (vs :: fs))).run (es.reverse.map .visit ++ us) := run_visit h (by decide) rfl rfl us
  exact ⟨fun h => ⟨h.grows, h.after_eq, fun s fs us => (hrun s fs us).symm.trans (h.run s fs us)⟩,
    fun h => ⟨h.grows, h.after_eq, fun s fs us => (hrun s fs us).trans (h.run s fs us)⟩⟩

theorem keeps_exprs (hi : T.left.get? i = some (.branch .exprs es)) (hj : T.right.get? j = some (.branch .exprs fs))
    (h : Keeps e T es.reverse fs.reverse) : Keeps e T [i] [j] := by
  intro m n hmn vs vs' hvs ws m' hws
  obtain ⟨ws', n', hws', h'⟩ := h m n hmn vs vs' hvs ws m' ((moves_exprs_iff (hmn.grows.1 _ _ hi)).1 hws)
  exact ⟨ws', n', (moves_exprs_iff (hmn.grows.2 _ _ hj)).2 hws', h'⟩

/-- Tasks that visit nodes in a frame of their own, and then close it. -/
theorem repeats_of_keeps {r : Reduction} (hr : ∀ U, r.Alike U r) (h : Keeps e T es fs)
    (ht : ∀ m n, Abreast e T m n →
      (m.framed []).run [t] = (m.onStack (OperandStack.stacked {} [[], []])).run (es.map .visit ++ [.reduce r]))
    (hu : ∀ m n, Abreast e T m n →
      (n.framed []).run [u] = (n.onStack (OperandStack.stacked {} [[], []])).run (fs.map .visit ++ [.reduce r]))
    (hsingle : ∀ m n, Abreast e T m n → n.Single u) : Repeats e T t u := by
  intro m n hmn v m' hv
  have hopen : (m.onStack (OperandStack.stacked {} [[], []])).run (es.map .visit ++ [.reduce r]) = .ok () (m'.framed [v]) :=
    (ht m n hmn).symm.trans hv.run_framed_nil
  rcases m.exists_moves es [] with ⟨ws, k, hws⟩ | hhalts
  · obtain ⟨ws', l, hws', hkl, hww'⟩ := h m n hmn [] [] .nil ws k hws
    have hframes : (k.onStack (OperandStack.stacked {} [ws, []])).Alike (l.onStack (OperandStack.stacked {} [ws', []])) :=
      ⟨OperandStack.alike_stacked (OperandStack.alike_stacked .empty .nil) hww', hkl.alike.env, hkl.alike.budget⟩
    have hclose : (k.onStack (OperandStack.stacked {} [ws, []])).run [.reduce r] = .ok () (m'.framed [v]) :=
      (hws.run {} [[]] [.reduce r]).symm.trans hopen
    have hruns := hframes.run_of (fun h hij => .steps (h.visit hij)) (.cons (.reduce (hr _)) .nil)
    have huz : (n.framed []).run [u] = (l.onStack (OperandStack.stacked {} [ws', []])).run [.reduce r] :=
      (hu m n hmn).trans (hws'.run {} [[]] [.reduce r])
    rw [hclose, ← huz] at hruns
    obtain ⟨w, n', hw, halike, hvw⟩ := hv.alike_of_corresponds hmn.alike (hsingle m n hmn) hruns
    exact ⟨w, n', hw, ⟨hmn.grows.trans ⟨hv.grows, hw.grows⟩, halike, hv.env_eq.trans hmn.env⟩, hvw⟩
  · obtain ⟨err, z, herror⟩ := hhalts {} [[]] [.reduce r]
    exact nomatch hopen.symm.trans herror

theorem repeats_operand_of_keeps (h : Keeps e T [i] [j]) : Repeats e T (.operand i) (.operand j) :=
  repeats_of_keeps (fun _ => .collect) h (fun _ _ _ => run_operand) (fun _ _ _ => run_operand) fun _ _ _ => single_operand

theorem single_of_isolated (h : Isolated m.pool m.env m.budget t) (ht : t.AtCase m.pool) : m.Single t := by
  rcases h with ⟨v, p, b, hrun⟩ | ⟨err, y, herror⟩
  · have haccrued : Accrued m.pool (m.run [t]) := run_accrues (.cons ht .nil)
    have hruns : m.run [t] = run ⟨⟨p, m.values.stack.push v⟩, m.env, b⟩ [] := hrun m.values.stack []
    rw [hruns, run_nil] at haccrued
    refine .inl ⟨v, m.after p b, haccrued.keeps, rfl, fun s vs fs ts => ?_⟩
    rw [← OperandStack.push_stacked]
    exact hrun _ ts
  · exact .inr fun s vs fs ts => ⟨err, _, herror _ ts⟩

/-- A group or a list of nodes that keep to each other. -/
theorem keeps_frame (htag : tag = .paren ∨ tag = .list) (hi : T.left.get? i = some (.branch tag es))
    (hj : T.right.get? j = some (.branch tag fs)) (h : Keeps e T es.reverse fs.reverse) : Keeps e T [i] [j] := by
  have hsingle {k : Machine} {l : NodeId} {gs : List NodeId} (hl : k.pool.get? l = some (.branch tag gs)) :
      k.Single (.visit l) := by
    refine single_of_isolated (isolated_visit ?_ hl) trivial
    rcases htag with rfl | rfl <;> decide
  have hvisit {k : Machine} {l : NodeId} {gs : List NodeId} (hl : k.pool.get? l = some (.branch tag gs)) :
      (k.framed []).run [.visit l] =
        (k.onStack (OperandStack.stacked {} [[], []])).run (gs.reverse.map .visit ++ [.reduce (.close tag)]) := by
    rcases htag with rfl | rfl
    · exact (run_visit_framed hl (by decide) rfl rfl []).trans (by rw [List.append_nil])
    · exact (run_visit_framed hl (by decide) rfl rfl []).trans (by rw [List.append_nil])
  refine keeps_of_repeats (repeats_of_keeps (fun _ => .close tag) h (fun m n hmn => hvisit (hmn.grows.1 _ _ hi))
    (fun m n hmn => hvisit (hmn.grows.2 _ _ hj)) fun m n hmn => hsingle (hmn.grows.2 _ _ hj)) fun m n hmn => ?_
  exact hsingle (hmn.grows.1 _ _ hi)

/-! ### Nodes made of parts -/

/-- Nodes made of parts that follow each other do so if the nodes that are made of their values match. -/
theorem follows_of_composes {f g : Pool → List NodeId → Node}
    (hi : ∀ m n, Abreast e T m n → m.Composes i ts f) (hj : ∀ m n, Abreast e T m n → n.Composes j us g)
    (htasks : Forall₂ (Follows e T y) ts us)
    (hground : ∀ (p q : Pool) (vs : List NodeId), vs.length = ts.length → (p.intern (f p vs)).2.Extends q →
      q.isGround (p.intern (f p vs)).1 → ∃ r, p.Extends r ∧ ∀ v ∈ vs, r.isGround v)
    (hnode : ∀ U vs ws, T.Grows U → vs.length = ts.length → Forall₂ (U.Seen y) vs ws →
      (∃ q, (U.left.intern (f U.left vs)).2.Extends q ∧ q.isGround (U.left.intern (f U.left vs)).1) →
      (f U.left vs).Matches U.Alike (g U.right ws)) : Follows e T x (.operand i) (.operand j) := by
  intro m n hmn v m' hv hq
  obtain ⟨vs, k, hvs, rfl, rfl⟩ := (hi m n hmn).exists_of_pushes hv
  obtain ⟨q, hextends, hvground⟩ := hq
  obtain ⟨r, hr, hparts⟩ := hground k.pool q vs hvs.length_eq hextends hvground
  obtain ⟨ws, l, hws, hkl, hvws⟩ := follows_all htasks hmn hvs hr hparts
  have hmatches := hnode (k.twin l) vs ws hkl.grows hvs.length_eq hvws ⟨q, hextends, hvground⟩
  refine ⟨_, _, ((hj m n hmn).pushes ws l hws).operand, hkl.grow (k.pool.extends_intern _) (l.pool.extends_intern _), ?_⟩
  exact (Twin.alike_intern hmatches).seen

theorem pushes_operand_exprs {c : NodeId} (h : m.pool.get? i = some (.branch .exprs [c])) :
    m.Pushes (.operand i) v m' ↔ m.Pushes (.operand c) v m' := by
  have hrun (s : OperandStack) (vs : List NodeId) (fs : List (List NodeId)) (ts : List Task) :
      (m.onStack (s.stacked (vs :: fs))).run (.operand i :: ts) = (m.onStack (s.stacked (vs :: fs))).run (.operand c :: ts) := by
    rw [run_operand, run_operand]
    exact run_visit h (by decide) rfl rfl _
  exact ⟨fun hv => ⟨hv.grows, hv.after_eq, fun s vs fs ts => (hrun s vs fs ts).symm.trans (hv.run s vs fs ts)⟩,
    fun hv => ⟨hv.grows, hv.after_eq, fun s vs fs ts => (hrun s vs fs ts).trans (hv.run s vs fs ts)⟩⟩

theorem follows_paren_left {c : NodeId} (hi : T.left.get? i = some (.branch .paren [c]))
    (h : Follows e T false (.operand c) u) : Follows e T false (.operand i) u := by
  intro m n hmn v m' hv hq
  obtain ⟨vs, k, hvs, rfl, rfl⟩ := (composes_paren (hmn.grows.1 _ _ hi)).exists_of_pushes hv
  obtain _ | ⟨hv, _ | _⟩ := hvs
  obtain ⟨q, hkq, hground⟩ := hq
  have hpart := Pool.isGround_of_intern (by decide) hkq hground _ (.head _)
  obtain ⟨w, n', hw, hkn', hvw⟩ := h m n hmn _ k hv ⟨q, (k.pool.extends_intern _).trans hkq, hpart⟩
  exact ⟨w, n', hw, hkn'.grow (k.pool.extends_intern _) (.refl _), Twin.seen_intern_left (.inl rfl) hvw⟩

theorem follows_paren_right {c : NodeId} (hj : T.right.get? j = some (.branch .paren [c]))
    (h : Follows e T false t (.operand c)) : Follows e T false t (.operand j) := by
  intro m n hmn v m' hv hq
  obtain ⟨w, n', hw, hmn', hvw⟩ := h m n hmn v m' hv hq
  have hpushes := (composes_paren (hmn.grows.2 _ _ hj)).pushes [w] n' (.cons hw .nil)
  exact ⟨_, _, hpushes.operand, hmn'.grow (.refl _) (n'.pool.extends_intern _), Twin.seen_intern_right (.inl rfl) hvw⟩

theorem follows_exprs_left {c : NodeId} (hi : T.left.get? i = some (.branch .exprs [c]))
    (h : Follows e T x (.operand c) u) : Follows e T x (.operand i) u := fun m n hmn v m' hv =>
  h m n hmn v m' ((pushes_operand_exprs (hmn.grows.1 _ _ hi)).1 hv)

theorem follows_exprs_right {c : NodeId} (hj : T.right.get? j = some (.branch .exprs [c]))
    (h : Follows e T x t (.operand c)) : Follows e T x t (.operand j) := by
  intro m n hmn v m' hv hq
  obtain ⟨w, n', hw, h'⟩ := h m n hmn v m' hv hq
  exact ⟨w, n', (pushes_operand_exprs (hmn.grows.2 _ _ hj)).2 hw, h'⟩

theorem follows_paren {c d : NodeId} (hi : T.left.get? i = some (.branch .paren [c]))
    (hj : T.right.get? j = some (.branch .paren [d])) (h : Follows e T true (.operand c) (.operand d)) :
    Follows e T true (.operand i) (.operand j) := by
  refine follows_of_composes (fun m n hmn => composes_paren (hmn.grows.1 _ _ hi))
    (fun m n hmn => composes_paren (hmn.grows.2 _ _ hj)) (.cons h .nil) (fun p q vs _ hpq hground => ?_)
    fun U vs ws _ _ hvws _ => .branch .paren hvws
  exact ⟨q, (p.extends_intern _).trans hpq, Pool.isGround_of_intern (by decide) hpq hground⟩

theorem follows_operator {t : Tag} {a b c d : NodeId} (ht : t.isOperator) (hlogical : t ≠ .or ∧ t ≠ .and)
    (hi : T.left.get? i = some (.branch t [a, b])) (hj : T.right.get? j = some (.branch t [c, d]))
    (h : Follows e T false (.operand a) (.operand c)) (h' : Follows e T false (.operand b) (.operand d)) :
    Follows e T x (.operand i) (.operand j) := by
  refine follows_of_composes (fun m n hmn => composes_operator ht hlogical (hmn.grows.1 _ _ hi))
    (fun m n hmn => composes_operator ht hlogical (hmn.grows.2 _ _ hj)) (.cons h (.cons h' .nil)) ?_ ?_
  · intro p q vs hvs hpq hground
    obtain ⟨u, v, rfl⟩ := List.length_eq_two.1 hvs
    obtain ⟨-, -, hu, hv⟩ := Pool.isGround_of_operatorNode (a := u) (b := v) ht hpq hground
    exact ⟨p, .refl _, List.forall_mem_cons.2 ⟨hu, List.forall_mem_singleton.2 hv⟩⟩
  · rintro U vs ws - hvs hvws ⟨q, hpq, hground⟩
    obtain ⟨u, v, rfl⟩ := List.length_eq_two.1 hvs
    obtain _ | ⟨hu, _ | ⟨hv, _ | _⟩⟩ := hvws
    obtain ⟨n, hresult, -⟩ := Pool.isGround_of_operatorNode (a := u) (b := v) ht hpq hground
    have hright := hresult
    rw [hu.literal?_eq, hv.literal?_eq, hu.number?_eq, hv.number?_eq] at hright
    simp only [List.headD_cons, List.getLastD_cons, List.getLastD_nil, Pool.operatorNode_eq]
    rw [hresult, hright]
    exact .of_isLiteral (Pool.isLiteral_of_operatorResult? hresult).1

theorem follows_negation {a c : NodeId} (hi : T.left.get? i = some (.branch .neg [a]))
    (hj : T.right.get? j = some (.branch .neg [c])) (h : Follows e T false (.operand a) (.operand c)) :
    Follows e T x (.operand i) (.operand j) := by
  refine follows_of_composes (fun m n hmn => composes_negation (hmn.grows.1 _ _ hi))
    (fun m n hmn => composes_negation (hmn.grows.2 _ _ hj)) (.cons h .nil) ?_ ?_
  · intro p q vs hvs hpq hground
    obtain ⟨v, rfl⟩ := List.length_eq_one_iff.1 hvs
    obtain ⟨z, hz⟩ := Pool.isGround_of_negationNode (a := v) hpq hground
    exact ⟨p, .refl _, List.forall_mem_singleton.2 (Pool.isGround_of_number? hz)⟩
  · rintro U vs ws - hvs hvws ⟨q, hpq, hground⟩
    obtain ⟨v, rfl⟩ := List.length_eq_one_iff.1 hvs
    obtain _ | ⟨hv, _ | _⟩ := hvws
    obtain ⟨z, hz⟩ := Pool.isGround_of_negationNode (a := v) hpq hground
    have hright := hv.number?_eq.symm.trans hz
    simp only [List.headD_cons, Pool.negationNode, hz, hright]
    exact .num _

theorem follows_list (hi : T.left.get? i = some (.branch .list es)) (hj : T.right.get? j = some (.branch .list fs))
    (hes : ∀ k, T.left.Extends (pool k) → k.env = e → ∀ c ∈ es, k.Single (.visit c))
    (hfs : ∀ m n, Abreast e T m n → ∀ k, n.pool.Extends (pool k) → k.env = n.env → ∀ c ∈ fs, k.Single (.visit c))
    (h : Forall₂ (fun c d => Follows e T true (.operand c) (.operand d)) es fs) : Follows e T x (.operand i) (.operand j) := by
  have hvisits : Forall₂ (fun c d => Follows e T true (.visit c) (.visit d)) es fs :=
    (forall₂_imp_mem h.flip fun d hd c hcd => Follows.visit hcd fun m n hmn => hfs m n hmn n (.refl _) rfl d hd).flip
  refine follows_of_composes (y := true) (fun m n hmn => composes_list (hmn.grows.1 _ _ hi) fun c hc k hmk hk => ?_)
    (fun m n hmn => composes_list (hmn.grows.2 _ _ hj) fun d hd k hnk hk => ?_)
    ?_ (fun p q vs _ hpq hground => ?_) fun U vs ws _ _ hvws _ => .branch .list (List.rel_reverse hvws)
  · exact hes k (hmn.grows.1.trans hmk) (hk.trans hmn.env) c hc
  · exact hfs m n hmn k hnk hk d hd
  · exact List.forall₂_map_left_iff.2 (List.forall₂_map_right_iff.2 (List.rel_reverse hvisits))
  · have hparts := Pool.isGround_of_intern (by decide) hpq hground
    exact ⟨q, (p.extends_intern _).trans hpq, fun v hv => hparts v (List.mem_reverse.2 hv)⟩

theorem follows_record {es fs : List NodeId} (hi : T.left.get? i = some (.branch .record es))
    (hj : T.right.get? j = some (.branch .record fs))
    (h : Forall₂ (fun c d => Follows e T true (.operand c) (.operand d)) es fs) : Follows e T x (.operand i) (.operand j) := by
  refine follows_of_composes (y := true) (fun m n hmn => composes_record (hmn.grows.1 _ _ hi))
    (fun m n hmn => composes_record (hmn.grows.2 _ _ hj)) ?_ (fun p q vs _ hpq hground => ?_)
    fun U vs ws _ _ hvws _ => .branch .record hvws
  · exact List.forall₂_map_left_iff.2 (List.forall₂_map_right_iff.2 h)
  · exact ⟨q, (p.extends_intern _).trans hpq, Pool.isGround_of_intern (by decide) hpq hground⟩

theorem follows_binding {k l a c : NodeId} (hi : T.left.get? i = some (.branch .binding [k, a]))
    (hj : T.right.get? j = some (.branch .binding [l, c])) (hkey : T.Alike k l)
    (h : Follows e T true (.operand a) (.operand c)) : Follows e T x (.operand i) (.operand j) := by
  refine follows_of_composes (y := true) (fun m n hmn => composes_binding (hmn.grows.1 _ _ hi))
    (fun m n hmn => composes_binding (hmn.grows.2 _ _ hj)) (.cons h .nil) (fun p q vs hvs hpq hground => ?_)
    fun U vs ws hU _ hvws _ => .branch .binding (.cons (hkey.mono hU) hvws)
  obtain ⟨v, rfl⟩ := List.length_eq_one_iff.1 hvs
  exact ⟨q, (p.extends_intern _).trans hpq, List.forall_mem_singleton.2 (Pool.isGround_of_intern_binding hpq hground)⟩

end Machine

end Linefold
