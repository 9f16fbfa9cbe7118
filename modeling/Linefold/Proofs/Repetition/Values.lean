import Linefold.Proofs.Evaluation.Scopes
import Linefold.Proofs.Folding.Additions

/-!
# Computations that are carried out again

A computation on nodes of its pool finds, when it is carried out again, all that it interned the first time. So
in place of the first pool any may stand that has grown from what the first time left: result and error are the
same, ids included, and nothing is added (`Repeats`). The nodes it works on have to be held, which is to be
alike to oneself.
-/

namespace Linefold

attribute [local irreducible] Pool.intern

namespace Pool

variable {p u : Pool} {n : Node}

/-- What was interned is found in whatever has grown from there. -/
theorem intern_again (hn : ∀ c ∈ n.elts, c ≤ p.size) (hu : (p.intern n).2.Extends u) :
    u.intern n = ((p.intern n).1, u) :=
  intern_of_get? (hu _ _ (get?_intern hn))

end Pool

namespace Twin

variable {p q : Pool} {i j : NodeId} {is js : List NodeId}

/-- A pool beside itself. -/
abbrev self (p : Pool) : Twin := ⟨p, p⟩

theorem grows_self (hpq : p.Extends q) : (self p).Grows (self q) := ⟨hpq, hpq⟩

/-- Ids of one tree are equal in a pool and what has grown from it. -/
theorem Alike.eq_of_extends (hpq : p.Extends q) (h : Alike ⟨p, q⟩ i j) : i = j :=
  (alike_of_le ⟨.refl p, hpq⟩ h.le_left).right_unique h

theorem alike_grown (hpq : p.Extends q) (h : (self p).Alike i i) : Alike ⟨p, q⟩ i i := h.mono ⟨.refl p, hpq⟩

theorem eq_of_forall₂ (hpq : p.Extends q) (h : List.Forall₂ (Alike ⟨p, q⟩) is js) : is = js := by
  induction h with
  | nil => rfl
  | cons hij _ ih => rw [hij.eq_of_extends hpq, ih]

end Twin

/-! ### Views of held nodes -/

section

variable {p q : Pool} {i : NodeId} (hpq : p.Extends q) (h : (Twin.self p).Alike i i)

include hpq h

theorem Pool.get?_grown : q.get? i = p.get? i := hpq.get?_eq h.le_left

theorem Pool.unwrapGroup_grown : q.unwrapGroup i = p.unwrapGroup i :=
  ((Twin.alike_grown hpq h).unwrapGroup.eq_of_extends hpq).symm

theorem Pool.listItems?_grown : q.listItems? i = p.listItems? i := by
  have hitems : Option.Rel _ (p.listItems? i) (q.listItems? i) := (Twin.alike_grown hpq h).listItems?
  generalize p.listItems? i = left, q.listItems? i = right at hitems
  cases hitems with
  | none => rfl
  | some hes => exact congrArg some (Twin.eq_of_forall₂ hpq hes).symm

end

/-! ### Computations -/

section

variable {σ α β : Type} {f : EStateM Error σ α} {g : α → EStateM Error σ β} {s t : σ}

theorem bind_of_ok {a : α} (h : f s = .ok a t) : (f >>= g) s = g a t := by
  show EStateM.bind f g s = _
  simp only [EStateM.bind, h]

theorem bind_of_error {e : Error} (h : f s = .error e t) :
    (f >>= g) s = .error e t := by
  show EStateM.bind f g s = _
  simp only [EStateM.bind, h]

end

/-- A state in which the pool can be exchanged for another one. -/
class Exchange (σ : Type) extends Pooled σ where
  withPool : σ → Pool → σ
  withPool_self (s : σ) : withPool s (pool s) = s

section

variable {σ α β : Type} [Exchange σ] {p : Pool} {f : EStateM Error σ α} {s : σ}

open Pooled (pool)
open Exchange (withPool)

/-- From the given state the computation only adds to the pool, and does the same again over each pool that has grown
from the one it leaves, without adding to it. -/
def RepeatsAt (f : EStateM Error σ α) (s : σ) : Prop :=
  match f s with
  | .ok a t => (pool s).Accrues (pool t) ∧ ∀ u, (pool t).Accrues u → f (withPool s u) = .ok a (withPool t u)
  | .error e t => (pool s).Accrues (pool t) ∧ ∀ u, (pool t).Accrues u → f (withPool s u) = .error e (withPool t u)

/-- So it does from every state whose nodes are held by a pool that has grown from `p`. -/
def Repeats (p : Pool) (f : EStateM Error σ α) : Prop :=
  ∀ s : σ, p.Extends (pool s) → Pooled.Alike (.of s s) s s → RepeatsAt f s

theorem repeatsAt_of_ok {a : α} {t : σ} (hs : f s = .ok a t) (hgrows : (pool s).Accrues (pool t))
    (hagain : ∀ u, (pool t).Accrues u → f (withPool s u) = .ok a (withPool t u)) : RepeatsAt f s := by
  unfold RepeatsAt
  rw [hs]
  exact ⟨hgrows, hagain⟩

theorem repeatsAt_of_error {e : Error} {t : σ} (hs : f s = .error e t) (hgrows : (pool s).Accrues (pool t))
    (hagain : ∀ u, (pool t).Accrues u → f (withPool s u) = .error e (withPool t u)) : RepeatsAt f s := by
  unfold RepeatsAt
  rw [hs]
  exact ⟨hgrows, hagain⟩

theorem RepeatsAt.ok {a : α} {t : σ} (h : RepeatsAt f s) (hs : f s = .ok a t) :
    (pool s).Accrues (pool t) ∧ ∀ u, (pool t).Accrues u → f (withPool s u) = .ok a (withPool t u) := by
  unfold RepeatsAt at h
  rwa [hs] at h

theorem RepeatsAt.error {e : Error} {t : σ} (h : RepeatsAt f s) (hs : f s = .error e t) :
    (pool s).Accrues (pool t) ∧ ∀ u, (pool t).Accrues u → f (withPool s u) = .error e (withPool t u) := by
  unfold RepeatsAt at h
  rwa [hs] at h

theorem repeatsAt_pure {a : α} : RepeatsAt (pure a : EStateM Error σ α) s := ⟨.refl _, fun _ _ => rfl⟩

theorem repeats_pure {a : α} : Repeats p (pure a : EStateM Error σ α) := fun _ _ _ => repeatsAt_pure

theorem repeats_throw {e : Error} : Repeats p (throw e : EStateM Error σ α) := fun _ _ _ => ⟨.refl _, fun _ _ => rfl⟩

/-- The second part stands in a pool that has grown from what the first one left. -/
theorem RepeatsAt.bind {g : α → EStateM Error σ β} (hf : RepeatsAt f s)
    (hg : ∀ a t, f s = .ok a t → (pool s).Accrues (pool t) → RepeatsAt (g a) t) : RepeatsAt (f >>= g) s := by
  cases hs : f s with
  | error e t =>
    obtain ⟨hgrows, hagain⟩ := hf.error hs
    exact repeatsAt_of_error (bind_of_error hs) hgrows fun u hu => bind_of_error (hagain u hu)
  | ok a t =>
    obtain ⟨hgrows, hagain⟩ := hf.ok hs
    have hrest := hg a t hs hgrows
    cases ht : g a t with
    | ok b r =>
      obtain ⟨hgrows', hagain'⟩ := hrest.ok ht
      exact repeatsAt_of_ok ((bind_of_ok hs).trans ht) (hgrows.trans hgrows') fun u hu =>
        (bind_of_ok (hagain u (hgrows'.trans hu))).trans (hagain' u hu)
    | error e r =>
      obtain ⟨hgrows', hagain'⟩ := hrest.error ht
      exact repeatsAt_of_error ((bind_of_ok hs).trans ht) (hgrows.trans hgrows') fun u hu =>
        (bind_of_ok (hagain u (hgrows'.trans hu))).trans (hagain' u hu)

/-- The computation comes to what another one comes to, over the grown pools as well. -/
theorem RepeatsAt.congr {g : EStateM Error σ α} (h : RepeatsAt g s)
    (hfg : ∀ u, (pool s).Accrues u → f (withPool s u) = g (withPool s u)) : RepeatsAt f s := by
  have hs : f s = g s := by
    have hself := hfg (pool s) (.refl _)
    rwa [Exchange.withPool_self] at hself
  cases hg : g s with
  | ok a t =>
    obtain ⟨hgrows, hagain⟩ := h.ok hg
    exact repeatsAt_of_ok (hs.trans hg) hgrows fun u hu => (hfg u (hgrows.trans hu)).trans (hagain u hu)
  | error e t =>
    obtain ⟨hgrows, hagain⟩ := h.error hg
    exact repeatsAt_of_error (hs.trans hg) hgrows fun u hu => (hfg u (hgrows.trans hu)).trans (hagain u hu)

/-- That two runs of the first computation agree is what the second one knows of its result. -/
theorem Repeats.bind {g : α → EStateM Error σ β} {R : Twin → α → α → Prop} (hf : Repeats p f)
    (hagree : Agree (.self p) f f R) (hg : ∀ q a, p.Extends q → R (.self q) a a → Repeats q (g a)) :
    Repeats p (f >>= g) := by
  intro s hp hs
  refine (hf s hp hs).bind fun a t hst hgrows => ?_
  have hagreed := hagree s s ⟨hp, hp⟩ hs
  rw [hst] at hagreed
  obtain ⟨-, ht, ha⟩ := hagreed
  exact hg (pool t) a (hp.trans hgrows.keeps) ha t (.refl _) ht

end

/-! ### Patterns -/

namespace Pattern

variable {α β : Type} {p : Pool} {n : Node} {value : NodeId} {args patterns : List NodeId} {i : Nat}

instance : Exchange Pool where
  withPool _ u := u
  withPool_self _ := rfl

/-- Of what comes before, a computation on a pool may need no more than that the pool has grown. -/
theorem repeats_then {f : PoolM α} {g : α → PoolM β} (hf : Repeats p f)
    (hg : ∀ q a, p.Extends q → Repeats q (g a)) : Repeats p (f >>= g) := by
  intro s hp hs
  exact (hf s hp hs).bind fun a t _ hgrows => hg t a (hp.trans hgrows.keeps) t (.refl _) trivial

/-- What is read off the pool is the same when it has grown. -/
theorem repeats_get {g : Pool → PoolM β} (hg : ∀ q, p.Extends q → Repeats q (g q))
    (hsame : ∀ q u, p.Extends q → q.Extends u → g u = g q) : Repeats p (get >>= g) := by
  intro s hp hs
  have hget (u : Pool) : (get >>= g) u = g u u := rfl
  exact (hg s hp s (.refl s) hs).congr fun u hu => by
    rw [hget]
    exact congrFun (hsame s u hp hu.keeps) u

theorem repeats_intern (hname : n.Nameless) (h : n.Matches (Twin.self p).Alike n) : Repeats p (PoolM.intern n) := by
  intro s hp _
  refine ⟨Pool.accrues_intern hname, fun u hu => ?_⟩
  have hheld := forall_mem_left (h.imp fun _ _ h => h.mono (Twin.grows_self hp)).forall₂_elts fun _ _ h => h.le_left
  have hagain : Pool.intern u n = _ := Pool.intern_again hheld hu.keeps
  show EStateM.Result.ok (Pool.intern u n).1 (Pool.intern u n).2 = _
  rw [hagain]
  rfl

theorem repeats_listItems? (h : (Twin.self p).Alike value value) : Repeats p (PoolM.listItems? value) := by
  intro s hp _
  refine ⟨.refl _, fun u hu => ?_⟩
  show EStateM.Result.ok (u.listItems? value) u = .ok (Pool.listItems? s value) u
  rw [Pool.listItems?_grown hu.keeps (h.mono (Twin.grows_self hp))]
  rfl

theorem repeats_projection (h : (Twin.self p).Alike value value) : Repeats p (projection i value) :=
  (repeats_intern (by trivial) (.num _)).bind (PoolM.agree_intern (.num _)) fun _ _ hpq hindex =>
    repeats_intern (by trivial) (.branch .val (.cons hindex (.cons (h.mono (Twin.grows_self hpq)) .nil)))

theorem repeats_append {f g : PoolM (List Word)} (hf : Repeats p f) (hg : ∀ q, p.Extends q → Repeats q g) :
    Repeats p (do return (← f) ++ (← g)) :=
  repeats_then hf fun q _ hpq => repeats_then (hg q hpq) fun _ _ _ => repeats_pure

theorem held_mono {q : Pool} {ids : List NodeId} (h : List.Forall₂ (Twin.self p).Alike ids ids)
    (hpq : p.Extends q) : List.Forall₂ (Twin.self q).Alike ids ids :=
  Twin.forall₂_mono h (Twin.grows_self hpq)

mutual

theorem repeats_words {p : Pool} {value : NodeId} (h : (Twin.self p).Alike value value) (i : Nat) :
    ∀ x : Pattern, Repeats p (words value i x)
  | .name _ _ => repeats_pure
  | .list ps => (repeats_listItems? h).bind (agree_listItems? h) fun _ items hpq hitems =>
    match items, hitems with
    | none, _ => repeats_wordsOfParts (h.mono (Twin.grows_self hpq)) 0 ps
    | some _, .some hitems => repeats_wordsOfItems hitems 0 ps
  | .faulty _ => repeats_throw

theorem repeats_wordsOfItems {p : Pool} {items : List NodeId} (h : List.Forall₂ (Twin.self p).Alike items items)
    (i : Nat) : ∀ ps : List Pattern, Repeats p (wordsOfItems items i ps)
  | [] => repeats_pure
  | x :: ps => repeats_append (repeats_words (valued_head? h) i x) fun _ hpq =>
    repeats_wordsOfItems (forall₂_tail (held_mono h hpq)) (i + 1) ps

theorem repeats_wordsOfParts {p : Pool} {value : NodeId} (h : (Twin.self p).Alike value value) (i : Nat) :
    ∀ ps : List Pattern, Repeats p (wordsOfParts value i ps)
  | [] => repeats_pure
  | x :: ps => (repeats_projection h).bind (agree_projection h) fun _ _ hpq hpart =>
    repeats_append (repeats_words hpart i x) fun _ hqr =>
      repeats_wordsOfParts (h.mono (Twin.grows_self (hpq.trans hqr))) (i + 1) ps

end

theorem repeats_bindAll (hargs : List.Forall₂ (Twin.self p).Alike args args)
    (hpatterns : ∀ id ∈ patterns, (Twin.self p).Alike id id) : Repeats p (bindAll args i patterns) := by
  induction patterns generalizing p args i with
  | nil => exact repeats_pure
  | cons pattern patterns ih =>
    obtain ⟨hpattern, hpatterns⟩ := List.forall_mem_cons.1 hpatterns
    have hheld {q : Pool} (hpq : p.Extends q) := hpattern.mono (Twin.grows_self hpq)
    have harg {q : Pool} (hpq : p.Extends q) : (Twin.self q).Alike (args.head?.getD 0) (args.head?.getD 0) :=
      valued_head? (held_mono hargs hpq)
    unfold bindAll
    refine repeats_get (fun q hpq => ?_) fun q u hpq hqu => ?_
    · extract_lets arg late shape jp
      have hrest (r : Pool) (source : NodeId) (hqr : q.Extends r) (hsource : (Twin.self r).Alike source source) :
          Repeats r (jp source) :=
        repeats_then (repeats_words hsource i shape) fun v _ hrv =>
          have hpv := hpq.trans (hqr.trans hrv)
          repeats_then (ih (forall₂_tail (held_mono hargs hpv)) fun id hid =>
            (hpatterns id hid).mono (Twin.grows_self hpv)) fun _ _ _ => repeats_pure
      split
      · refine (repeats_intern (by trivial) (.num _)).bind (PoolM.agree_intern (.num _)) fun r index hqr hindex => ?_
        have hnode : (Node.branch .arg [index]).Matches (Twin.self r).Alike (.branch .arg [index]) :=
          .branch .arg (.cons hindex .nil)
        exact (repeats_intern (by trivial) hnode).bind (PoolM.agree_intern hnode) fun v source hrv hsource =>
          hrest v source (hqr.trans hrv) hsource
      · exact hrest q arg (.refl q) (harg hpq)
    · have htag : u.tag? pattern = q.tag? pattern := by
        rw [Pool.tag?, Pool.get?_grown hqu (hheld hpq), Pool.tag?]
      simp only [htag, Pool.listItems?_grown hqu (harg hpq), hqu.pattern_eq (hheld hpq).le_left]

theorem repeats_lambdaParts (hpatterns : List.Forall₂ (Twin.self p).Alike patterns patterns) :
    Repeats p (lambdaParts patterns) := by
  unfold lambdaParts
  refine repeats_get (fun q hpq => ?_) fun q u hpq hqu => ?_
  · have hheld := held_mono hpatterns hpq
    have hps := Pattern.allAlike_map (T := .self q) (f := q.pattern) (g := q.pattern)
      (hheld.imp fun _ _ hij => Twin.Alike.pattern hij)
    have hnames := hps.names
    generalize namesOfAll (patterns.map q.pattern) = names at hnames
    cases hnames with
    | error fault => exact repeats_throw
    | ok hnames =>
      refine repeats_then (repeats_intern (by trivial) (.branch .list hnames)) fun r _ hqr => ?_
      exact repeats_then (repeats_intern (by trivial) (.branch .list (held_mono hheld hqr))) fun _ _ _ => repeats_pure
  · have hmap : patterns.map u.pattern = patterns.map q.pattern := by
      refine List.map_congr_left fun id hid => hqu.pattern_eq ?_
      exact (forall_mem_left (held_mono hpatterns hpq) fun _ _ h => h.le_left) id hid
    rw [hmap]

end Pattern

end Linefold
