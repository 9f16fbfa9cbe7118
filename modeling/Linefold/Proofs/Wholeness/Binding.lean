import Linefold.Folder.Step
import Linefold.Proofs.Wholeness.Whole

/-!
# Binding leaves no holes

A missing argument, and an element beyond the end of a list, is absent. It comes to stand in the word of a
name and nowhere else: a projection is out of a value whose elements are not known, and an absent value has
none (`keeps_words`, `keeps_bindAll`).
-/

namespace Linefold

attribute [local irreducible] Pool.intern

instance : Wholesome Pool where
  pool := id
  Whole := Pool.Whole

namespace Pattern

variable {p q : Pool} {n : Node} {value pattern : NodeId} {ids items args patterns names : List NodeId}
  {offset i : Nat}

namespace PoolM

theorem keeps_get : Keeps p (get : PoolM Pool) fun q r => r = q ∧ q.Whole :=
  fun _ _ hs => ⟨⟨.refl _, hs⟩, rfl, hs⟩

theorem keeps_intern (h : n.Whole p) : Keeps p (intern n) Pool.Has :=
  fun s hp hs => ⟨⟨s.extends_intern n, (Pool.Whole.intern hs (h.mono hp)).1⟩,
    (Pool.Whole.intern hs (h.mono hp)).2⟩

/-- An absent value has no elements; one whose elements are unknown is there. -/
theorem keeps_listItems? (h : value = 0 ∨ p.Has value) : Keeps p (listItems? value) fun q items =>
    (∀ ids, items = some ids → ∀ id ∈ ids, q.Has id) ∧ (items = none → q.Has value) := by
  refine fun s hp hs => ⟨⟨.refl _, hs⟩, fun ids hids => Pool.Whole.listItems? hs hids, fun hnone => ?_⟩
  exact (h.resolve_left (Pool.ne_zero_of_listItems?_eq_none hnone)).mono hp

end PoolM

/-! ### The names of a pattern -/

theorem exists_of_bind_eq_ok {ε α β : Type} {x : Except ε α} {f : α → Except ε β} {b : β}
    (h : x >>= f = .ok b) : ∃ a, x = .ok a ∧ f a = .ok b := by
  cases x with
  | ok a => exact ⟨a, rfl, h⟩
  | error e => cases h

theorem has_of_namesOfAll {f : NodeId → Pattern}
    (hf : ∀ i ∈ ids, ∀ js, (f i).names = .ok js → p.Has i ∧ ∀ j ∈ js, p.Has j)
    (h : namesOfAll (ids.map f) = .ok names) : (∀ i ∈ ids, p.Has i) ∧ ∀ j ∈ names, p.Has j := by
  induction ids generalizing names with
  | nil =>
    cases h
    exact ⟨nofun, nofun⟩
  | cons i ids ih =>
    obtain ⟨hi, hids⟩ := List.forall_mem_cons.1 hf
    obtain ⟨js, hjs, hrest⟩ := exists_of_bind_eq_ok h
    obtain ⟨ks, hks, hnames⟩ := exists_of_bind_eq_ok hrest
    cases hnames
    obtain ⟨hall, hrest⟩ := ih hids hks
    refine ⟨List.forall_mem_cons.2 ⟨(hi js hjs).1, hall⟩, fun j hj => ?_⟩
    exact (List.mem_append.1 hj).elim ((hi js hjs).2 j) (hrest j)

/-- A node of which the names can be told is there, and so are the names. -/
theorem has_of_names (h : (p.pattern value).names = .ok names) :
    p.Has value ∧ ∀ j ∈ names, p.Has j := by
  induction value using Nat.strongRecOn generalizing names with
  | ind value ih =>
    cases hn : p.get? value with
    | none =>
      rw [Pool.pattern_of_none hn] at h
      cases h
    | some n =>
      refine ⟨⟨n, hn⟩, ?_⟩
      cases n with
      | ident s =>
        rw [Pool.pattern_of_ident hn] at h
        cases h
        exact List.forall_mem_singleton.2 ⟨_, hn⟩
      | branch t es =>
        by_cases ht : t = .list
        · subst ht
          rw [Pool.pattern_of_list hn] at h
          exact (has_of_namesOfAll (fun i hi _ => ih i (Pool.lt_of_get?_branch hn hi)) h).2
        · rw [Pool.pattern_of_ne hn (by simp) (by simp [ht])] at h
          cases h
      | _ =>
        rw [Pool.pattern_of_ne hn (by simp) (by simp)] at h
        cases h

/-! ### Words of a pattern -/

def AllWhole (q : Pool) (ws : List Word) : Prop := ∀ w ∈ ws, w.Whole q w.name

theorem AllWhole.append {ws vs : List Word} (hws : AllWhole p ws) (hpq : p.Extends q)
    (hvs : AllWhole q vs) : AllWhole q (ws ++ vs) := by
  intro w hw
  rcases List.mem_append.1 hw with hw | hw
  · exact (hws w hw).mono hpq
  · exact hvs w hw

theorem AllWhole.mono {ws : List Word} (h : AllWhole p ws) (hpq : p.Extends q) : AllWhole q ws :=
  fun w hw => (h w hw).mono hpq

theorem keeps_append {f g : PoolM (List Word)} (hf : Keeps p f AllWhole)
    (hg : ∀ q, p.Extends q → Keeps q g AllWhole) :
    Keeps p (do return (← f) ++ (← g)) AllWhole := by
  refine hf.bind fun q ws hpq hws => (hg q hpq).bind fun r vs hqr hvs => ?_
  exact keeps_pure fun u hru => (hws.append hqr hvs).mono hru

theorem keeps_projection (h : p.Has value) : Keeps p (projection i value) Pool.Has := by
  refine (PoolM.keeps_intern (.leaf (by nofun))).bind fun q index hpq hindex => ?_
  exact PoolM.keeps_intern (.branch rfl (by simp [hindex, h.mono hpq]))

theorem has_head?_getD (h : ∀ id ∈ ids, p.Has id) : ids.head?.getD 0 = 0 ∨ p.Has (ids.head?.getD 0) := by
  cases ids with
  | nil => exact .inl rfl
  | cons id ids => exact .inr (h id (.head _))

theorem forall_has_tail (h : ∀ id ∈ ids, p.Has id) : ∀ id ∈ ids.tail, p.Has id :=
  fun id hid => h id (List.mem_of_mem_tail hid)

mutual

theorem keeps_words {p : Pool} {value : NodeId} (h : value = 0 ∨ p.Has value) (offset : Nat) :
    ∀ x : Pattern, Keeps p (words value offset x) AllWhole
  | .name _ _ => keeps_pure fun _ hq => List.forall_mem_singleton.2 <|
    Word.whole_value (h.imp_right fun h => h.mono hq)
  | .list ps => (PoolM.keeps_listItems? h).bind fun _ items _ hitems =>
    match items with
    | some items => keeps_wordsOfItems (hitems.1 items rfl) 0 ps
    | none => keeps_wordsOfParts (hitems.2 rfl) 0 ps
  | .faulty _ => keeps_throw

theorem keeps_wordsOfItems {p : Pool} {items : List NodeId} (h : ∀ id ∈ items, p.Has id) (i : Nat) :
    ∀ ps : List Pattern, Keeps p (wordsOfItems items i ps) AllWhole
  | [] => keeps_pure fun _ _ => nofun
  | x :: ps => keeps_append (keeps_words (has_head?_getD h) i x) fun _ hq =>
    keeps_wordsOfItems (Pool.forall_has_mono (forall_has_tail h) hq) (i + 1) ps

theorem keeps_wordsOfParts {p : Pool} {value : NodeId} (h : p.Has value) (i : Nat) :
    ∀ ps : List Pattern, Keeps p (wordsOfParts value i ps) AllWhole
  | [] => keeps_pure fun _ _ => nofun
  | x :: ps => (keeps_projection h).bind fun _ _ hpq hpart =>
    keeps_append (keeps_words (.inr hpart) i x) fun _ hqr =>
      keeps_wordsOfParts (h.mono (hpq.trans hqr)) (i + 1) ps

end

/-! ### Parameters -/

theorem keeps_bindAll (h : ∀ id ∈ args, p.Has id) :
    Keeps p (bindAll args i patterns) fun q b => AllWhole q b.words := by
  induction patterns generalizing p args i with
  | nil => exact keeps_pure fun _ _ => nofun
  | cons pattern patterns ih =>
    refine PoolM.keeps_get.bind ?_
    rintro _ q hpq ⟨rfl, hq⟩
    have hargs := Pool.forall_has_mono h hpq
    extract_lets arg late shape jp
    have hrest : ∀ r source, q.Extends r → (source = 0 ∨ r.Has source) →
        Keeps r (jp source) fun u b => AllWhole u b.words := by
      intro r source hqr hsource
      refine (keeps_words hsource i shape).bind fun u ws hru hws => ?_
      have htail := Pool.forall_has_mono (forall_has_tail hargs) (hqr.trans hru)
      refine (ih htail).bind fun v rest huv hrest => ?_
      exact keeps_pure fun x hvx => (AllWhole.append hws huv hrest).mono hvx
    split
    · refine (PoolM.keeps_intern (.leaf (by nofun))).bind fun r index hqr hindex => ?_
      refine (PoolM.keeps_intern (.branch rfl (by simpa using hindex))).bind fun u source hru h => ?_
      exact hrest u source (hqr.trans hru) (.inr h)
    · have harg : arg = 0 ∨ q.Has arg := has_head?_getD hargs
      exact (keeps_pure (Q := fun r a => a = 0 ∨ r.Has a) fun _ hr => harg.imp_right fun h =>
        h.mono hr).bind fun r _ hqr h => hrest r _ hqr h

theorem keeps_lambdaParts :
    Keeps p (lambdaParts patterns) fun q parts => q.Has parts.1 ∧ q.Has parts.2 := by
  unfold lambdaParts
  refine PoolM.keeps_get.bind ?_
  rintro _ q - ⟨rfl, -⟩
  split
  · exact keeps_throw
  · next names hnames =>
    obtain ⟨hpatterns, hnames⟩ := has_of_namesOfAll (fun _ _ _ => has_of_names) hnames
    refine (PoolM.keeps_intern (.branch rfl hnames)).bind fun r names hqr hnames => ?_
    refine (PoolM.keeps_intern (.branch rfl (Pool.forall_has_mono hpatterns hqr))).bind ?_
    intro u pattern hru hpattern
    exact keeps_pure fun v huv => ⟨hnames.mono (hru.trans huv), hpattern.mono huv⟩

end Pattern

end Linefold
