import Linefold.Proofs.Folding.Layout
import Linefold.Proofs.Outcome
import Linefold.Proofs.Views

/-!
# Binding patterns

Binding the parameters of a function to arguments never fails on patterns that are names and lists of
them. It gives usable words, and tasks that turn the frame the arguments came from into values again
(`gives_bindCallee`).
-/

namespace Linefold

theorem Ensures.of_ok {ε σ α : Type} {f : EStateM ε σ α} {Q : α → σ → Prop} {E : ε → σ → Prop} {s s' : σ}
    {a : α} (h : f s = .ok a s') (hQ : Q a s') : Ensures f Q E s := by
  unfold Ensures
  rw [h]
  exact hQ

/-! ### Patterns -/

/-- Nothing in the pattern is faulty, and its names are in the pool. -/
inductive Pattern.Clean (p : Pool) : Pattern → Prop where
  | name {id : NodeId} {s : String} (h : p.get? id = some (.ident s)) : Clean p (.name id s)
  | list {ps : List Pattern} (h : ∀ x ∈ ps, Clean p x) : Clean p (.list ps)

theorem Pattern.Clean.mono {p q : Pool} {x : Pattern} (h : x.Clean p) (hpq : p.Extends q) : x.Clean q := by
  induction h with
  | name h => exact .name (hpq _ _ h)
  | list _ ih => exact .list ih

namespace Pool

theorem IsPattern.clean {p : Pool} {id : NodeId} (h : p.IsPattern id) : (p.pattern id).Clean p := by
  induction h with
  | name h =>
    rw [pattern_of_ident h]
    exact .name h
  | list h _ ih =>
    rw [pattern_of_list h]
    exact .list (List.forall_mem_map.2 ih)

end Pool

namespace Pattern

variable {p : Pool}

mutual

theorem exists_names : ∀ {x : Pattern}, x.Clean p →
    ∃ ids, x.names = .ok ids ∧ ∀ id ∈ ids, ∃ s, p.get? id = some (.ident s)
  | .name id s, h => by
    cases h with
    | name h => exact ⟨[id], rfl, by simp [h]⟩
  | .list ps, h => by
    cases h with
    | list h => exact exists_namesOfAll h
  | .faulty _, h => nomatch h

theorem exists_namesOfAll : ∀ {ps : List Pattern}, (∀ x ∈ ps, x.Clean p) →
    ∃ ids, namesOfAll ps = .ok ids ∧ ∀ id ∈ ids, ∃ s, p.get? id = some (.ident s)
  | [], _ => ⟨[], rfl, by simp⟩
  | x :: ps, h => by
    obtain ⟨hx, hps⟩ := List.forall_mem_cons.1 h
    obtain ⟨ids, hids, hnames⟩ := exists_names hx
    obtain ⟨rest, hrest, hnames'⟩ := exists_namesOfAll hps
    refine ⟨ids ++ rest, ?_, fun id hid => (List.mem_append.1 hid).elim (hnames id) (hnames' id)⟩
    simp only [namesOfAll, hids, hrest, bind, Except.bind]
    rfl

end

end Pattern

/-! ### Computations on a pool -/

namespace Pattern

variable {α β : Type} {p : Pool} {f : PoolM α} {Q : α → Pool → Prop} {R : β → Pool → Prop}

/-- The computation succeeds, adds no names to the pool and keeps it well-shaped. -/
def Gives (p : Pool) (f : PoolM α) (Q : α → Pool → Prop) : Prop :=
  Ensures f (fun a q => p.Grows q ∧ q.WellShaped ∧ Q a q) (fun _ _ => False) p

theorem gives_pure {a : α} (hp : p.WellShaped) (h : Q a p) : Gives p (pure a) Q := ⟨.refl p, hp, h⟩

theorem Gives.bind {g : α → PoolM β} (hf : Gives p f Q)
    (hg : ∀ a q, p.Grows q → q.WellShaped → Q a q → Gives q (g a) R) : Gives p (f >>= g) R := by
  refine Ensures.bind_iff.2 (hf.mono ?_ fun _ _ h => h)
  rintro a q ⟨hpq, hq, ha⟩
  refine (hg a q hpq hq ha).mono ?_ fun _ _ h => h
  rintro b r ⟨hqr, hr, hb⟩
  exact ⟨hpq.trans hqr, hr, hb⟩

theorem Gives.mono {Q' : α → Pool → Prop} (h : Gives p f Q) (hQ : ∀ a q, p.Grows q → Q a q → Q' a q) :
    Gives p f Q' :=
  Ensures.mono h (fun a q ⟨hpq, hq, ha⟩ => ⟨hpq, hq, hQ a q hpq ha⟩) fun _ _ h => h

theorem gives_get (hp : p.WellShaped) : Gives p get fun r q => p = r ∧ p = q := ⟨.refl p, hp, rfl, rfl⟩

theorem gives_intern {n : Node} (hp : p.WellShaped) (hn : n.Shaped p) (ht : n.tag ≠ .ident) :
    Gives p (PoolM.intern n) fun id q => q.get? id = some n := by
  show p.Grows (p.intern n).2 ∧ (p.intern n).2.WellShaped ∧ _
  exact ⟨p.grows_intern ht, hp.intern hn, Pool.get?_intern_of_shaped hn⟩

/-! ### Words of patterns -/

variable {value : NodeId} {offset i : Nat} {items args patterns : List NodeId} {ws : List Word}

def AllUsable (ws : List Word) (p : Pool) : Prop := ∀ w ∈ ws, w.Usable p w.name

theorem AllUsable.append {rest : List Word} {q : Pool} (h : AllUsable ws p) (hpq : p.Grows q)
    (hrest : AllUsable rest q) : AllUsable (ws ++ rest) q := by
  intro w hw
  rcases List.mem_append.1 hw with hw | hw
  · exact (h w hw).mono hpq
  · exact hrest w hw

theorem fits_of_listItems? (hp : p.WellShaped) (h : p.listItems? value = some items) :
    ∀ id ∈ items, p.Fits .value id := by
  unfold Pool.listItems? at h
  split at h
  · cases h
    simp
  · split at h
    · next es hes =>
      cases h
      obtain ⟨parts, hparts, hfits⟩ := hp.admits hes
      exact forall_fits_of_forall₂ hfits hparts
    · cases h

theorem ne_zero_of_listItems? (h : p.listItems? value = none) : value ≠ 0 := by
  rintro rfl
  cases h

theorem head?_getD_fits (h : ∀ id ∈ items, p.Fits .value id) :
    items.head?.getD 0 = 0 ∨ p.Fits .value (items.head?.getD 0) := by
  cases items with
  | nil => exact .inl rfl
  | cons id items => exact .inr (h id (.head _))

theorem gives_projection (hp : p.WellShaped) (hv : p.Fits .value value) :
    Gives p (projection i value) fun part q => q.Fits .value part := by
  have hnum : (Node.num (.ofInt i)).Shaped p := shaped_of_isLiteral rfl
  refine (gives_intern hp hnum (by simp [Node.tag])).bind fun index q hpq hq hindex => ?_
  have hparts : ∀ id ∈ [index, value], q.Fits .value id := by
    simp only [List.mem_cons, List.not_mem_nil, or_false, forall_eq_or_imp, forall_eq]
    exact ⟨fits_value_of_isLiteral rfl hindex, hv.mono hpq.keeps⟩
  refine (gives_intern hq (shaped_of_forall (t := .val) (fun _ h => h) hparts) (by simp [Node.tag])).mono ?_
  exact fun part r _ hpart => ⟨_, hpart, by simp [Node.tag]⟩

mutual

theorem gives_words : ∀ {x : Pattern} {p : Pool} {value : NodeId} {offset : Nat}, p.WellShaped →
    (value = 0 ∨ p.Fits .value value) → x.Clean p → Gives p (words value offset x) AllUsable
  | .name _ s, p, value, offset, hp, hv, _ => by
    refine gives_pure hp ?_
    rintro _ (_ | ⟨_, ⟨⟩⟩)
    exact Word.usable_value hv
  | .list ps, p, value, offset, hp, hv, h => by
    cases h with
    | list h =>
      show Gives p (match p.listItems? value with
        | some items => wordsOfItems items 0 ps
        | none => wordsOfParts value 0 ps) AllUsable
      split
      · next items hitems => exact gives_wordsOfItems hp (fits_of_listItems? hp hitems) h
      · next hnone => exact gives_wordsOfParts hp (hv.resolve_left (ne_zero_of_listItems? hnone)) h
  | .faulty _, _, _, _, _, _, h => nomatch h

theorem gives_wordsOfItems : ∀ {ps : List Pattern} {p : Pool} {items : List NodeId} {i : Nat},
    p.WellShaped → (∀ id ∈ items, p.Fits .value id) → (∀ x ∈ ps, x.Clean p) →
    Gives p (wordsOfItems items i ps) AllUsable
  | [], _, _, _, hp, _, _ => gives_pure hp fun _ h => nomatch h
  | x :: ps, p, items, i, hp, hitems, h => by
    obtain ⟨hx, hps⟩ := List.forall_mem_cons.1 h
    refine (gives_words hp (head?_getD_fits hitems) hx).bind fun ws q hpq hq hws => ?_
    have hitems' : ∀ id ∈ items.tail, q.Fits .value id := fun id hid =>
      (hitems id (List.mem_of_mem_tail hid)).mono hpq.keeps
    refine (gives_wordsOfItems hq hitems' fun y hy => (hps y hy).mono hpq.keeps).bind ?_
    exact fun rest r hqr hr hrest => gives_pure hr (hws.append hqr hrest)

theorem gives_wordsOfParts : ∀ {ps : List Pattern} {p : Pool} {value : NodeId} {i : Nat},
    p.WellShaped → p.Fits .value value → (∀ x ∈ ps, x.Clean p) →
    Gives p (wordsOfParts value i ps) AllUsable
  | [], _, _, _, hp, _, _ => gives_pure hp fun _ h => nomatch h
  | x :: ps, p, value, i, hp, hv, h => by
    obtain ⟨hx, hps⟩ := List.forall_mem_cons.1 h
    refine (gives_projection hp hv).bind fun part q hpq hq hpart => ?_
    refine (gives_words hq (.inr hpart) (hx.mono hpq.keeps)).bind fun ws r hqr hr hws => ?_
    have hpr := hpq.trans hqr
    refine (gives_wordsOfParts hr (hv.mono hpr.keeps) fun y hy => (hps y hy).mono hpr.keeps).bind ?_
    exact fun rest r' hrr' hr' hrest => gives_pure hr' (hws.append hrr' hrest)

end

/-! ### Parameters -/

theorem gives_bindAll (hp : p.WellShaped) (hargs : ∀ id ∈ args, p.Fits .value id)
    (hpatterns : ∀ id ∈ patterns, p.IsPattern id) :
    Gives p (bindAll args i patterns) fun bound q => AllUsable bound.words q := by
  induction patterns generalizing p args i with
  | nil => exact gives_pure hp fun _ h => nomatch h
  | cons pattern patterns ih =>
    obtain ⟨hpattern, hpatterns⟩ := List.forall_mem_cons.1 hpatterns
    refine (gives_get hp).bind ?_
    rintro _ _ - - ⟨rfl, rfl⟩
    have hrest : ∀ (late : Bool) (source : NodeId) (q : Pool), p.Grows q → q.WellShaped →
        (source = 0 ∨ q.Fits .value source) → Gives q (do
          let ws ← words source i (p.pattern pattern)
          let rest ← bindAll args.tail (i + 1) patterns
          return Binding.mk (ws ++ rest.words) (late || rest.late))
        fun bound q => AllUsable bound.words q := by
      intro late source q hpq hq hsource
      refine (gives_words hq hsource (hpattern.clean.mono hpq.keeps)).bind fun ws r hqr hr hws => ?_
      have hpr := hpq.trans hqr
      have hargs' : ∀ id ∈ args.tail, r.Fits .value id := fun id hid =>
        (hargs id (List.mem_of_mem_tail hid)).mono hpr.keeps
      refine (ih hr hargs' fun id hid => (hpatterns id hid).mono hpr.keeps).bind ?_
      exact fun rest r' hrr' hr' hrest => gives_pure hr' (hws.append hrr' hrest)
    extract_lets arg late shape jp
    split
    · refine (gives_intern hp (shaped_of_isLiteral rfl) (by simp [Node.tag])).bind ?_
      intro index q hpq hq hindex
      have hshaped : Node.Shaped q (.branch .arg [index]) :=
        shaped_of_forall (fun _ h => h) (by simpa using fits_value_of_isLiteral rfl hindex)
      refine (gives_intern hq hshaped (by simp [Node.tag])).bind fun source r hqr hr hsource => ?_
      exact hrest late source r (hpq.trans hqr) hr (.inr ⟨_, hsource, by simp [Node.tag]⟩)
    · exact hrest late arg p (.refl p) hp (head?_getD_fits hargs)

theorem gives_lambdaParts (hp : p.WellShaped) (hpatterns : ∀ id ∈ patterns, p.IsPattern id) :
    Gives p (lambdaParts patterns)
      fun parts q => q.Fits .names parts.1 ∧ q.Fits .patterns parts.2 := by
  obtain ⟨ids, hids, hnames⟩ :=
    exists_namesOfAll (List.forall_mem_map.2 fun id hid => (hpatterns id hid).clean)
  unfold lambdaParts
  refine (gives_get hp).bind ?_
  rintro _ _ - - ⟨rfl, rfl⟩
  simp only [hids]
  refine (gives_intern hp (shaped_names hnames) (by simp [Node.tag])).bind fun names q hpq hq hn => ?_
  have hpatterns' : ∀ id ∈ patterns, q.Fits .pattern id := fun id hid =>
    (hpatterns id hid).mono hpq.keeps
  refine (gives_intern hq (shaped_list hpatterns' (by decide) (by decide)) (by simp [Node.tag])).bind ?_
  refine fun pattern r hqr hr hpattern => gives_pure hr ⟨⟨ids, hqr.keeps _ _ hn, fun id hid => ?_⟩,
    patterns, hpattern, fun id hid => (hpatterns' id hid).mono hqr.keeps⟩
  obtain ⟨s, hs⟩ := hnames id hid
  exact ⟨s, (hpq.trans hqr).keeps _ _ hs⟩

end Pattern

/-! ### Functions -/

namespace Machine

open Pattern

/-- A function that can be applied without fault. -/
structure Callee.Sound (p : Pool) (callee : Callee) : Prop where
  body : p.Fits .value callee.body
  pattern : ∀ id ∈ callee.pattern, p.IsPattern id
  lexicon : callee.lexicon.All (Word.Usable p)

theorem gives_bindCallee {p : Pool} {callee : Callee} {args : List NodeId} (hp : p.WellShaped)
    (hcallee : callee.Sound p) (hargs : ∀ id ∈ args, p.Fits .value id) :
    Gives p (bindCallee callee args) fun bound q => AllUsable bound.1 q ∧
      ∀ L, Task.Leads q bound.2 (.values :: L) (.values :: L) := by
  unfold bindCallee
  refine (gives_bindAll hp hargs hcallee.pattern).bind fun bound q hpq hq hwords => ?_
  have hbody := hcallee.body.mono hpq.keeps
  have hpattern : ∀ id ∈ callee.pattern, q.IsPattern id := fun id hid =>
    (hcallee.pattern id hid).mono hpq.keeps
  split
  · refine (gives_lambdaParts hq hpattern).bind fun parts r hqr hr hparts => ?_
    have hargs' : List.Forall₂ r.Fits (List.replicate args.length .value) args :=
      forall₂_fits_replicate fun id hid => (hargs id hid).mono (hpq.trans hqr).keeps
    refine gives_pure hr ⟨fun w hw => (hwords w hw).mono hqr, fun L => ?_⟩
    refine .cons (.operand (hbody.mono hqr.keeps)) (.cons (.lambda hparts.1 hparts.2) ?_)
    refine (Task.leads_map hargs' fun part id l _ h => .push h).append ?_
    have hadmits : Tag.apply.Admits (.value :: List.replicate args.length .value) := by
      rintro _ (_ | ⟨_, h⟩)
      · rfl
      · exact List.eq_of_mem_replicate h
    rw [← Layout.onto_reverse_cons]
    exact .cons (.build _ hadmits (by simp)) (.cons .exit (.forget .nil))
  · split
    · refine gives_pure hq ⟨hwords, fun L => ?_⟩
      exact .cons (.visit hbody) (.cons .exit .nil)
    · refine (gives_lambdaParts hq fun id hid => hpattern id (List.mem_of_mem_drop hid)).bind ?_
      refine fun parts r hqr hr hparts => gives_pure hr ⟨fun w hw => (hwords w hw).mono hqr, fun L => ?_⟩
      refine .cons (.operand (hbody.mono hqr.keeps)) (.cons (.lambda hparts.1 hparts.2) ?_)
      exact .cons .exit (.forget .nil)

end Machine

end Linefold
