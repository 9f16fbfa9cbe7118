import Linefold.Proofs.Late.Frames
import Linefold.Proofs.Staging.Calls

/-!
# Runs of frames with functions

The visit to an expression with functions brings its value, and the visit to the nodes of a frame the values of the frame
(`Tree.Frame.realizes`). So it does where lists stand in the text in the places of names.
-/

namespace Linefold

attribute [local irreducible] Pool.intern

open Linefold.Tree Machine

namespace Tree

variable {Γ : Kinds} {fixed : Bool} {x : String} {ps : List Tree} {as : List Kind} {xks : List (String × Option Kind)}

mutual

theorem isPattern_of_fits : ∀ p c : Tree, p.fits c → p.isPattern
  | ident _, _, _ => rfl
  | node .list ps, node .list us, h => allPatterns_of_fitsAll ps us (Bool.and_eq_true_iff.1 h).2

theorem allPatterns_of_fitsAll : ∀ ps us : List Tree, fitsAll ps us → allPatterns ps
  | [], _, _ => rfl
  | p :: ps, u :: us, h =>
    have ⟨hp, hps⟩ := Bool.and_eq_true_iff.1 h
    Bool.and_eq_true_iff.2 ⟨isPattern_of_fits p u hp, allPatterns_of_fitsAll ps us hps⟩

end

theorem isPattern_of_meets (h : List.Forall₂ (Kind.Meets fixed) ps as) : ∀ p ∈ ps, p.isPattern := by
  induction h with
  | nil => exact List.forall_mem_nil _
  | cons hp _ ih =>
    refine List.forall_mem_cons.2 ⟨?_, ih⟩
    rcases hp with ⟨x, rfl⟩ | ⟨-, ⟨c, -, hfits⟩, -⟩
    · rfl
    · exact isPattern_of_fits _ c hfits

theorem Kinds.isSome_of_view (h : (Γ.view fixed x).isSome) : (Γ x).isSome := by
  obtain ⟨k, hk⟩ := Option.isSome_iff_exists.1 h
  rw [(Option.filter_eq_some_iff.1 hk).1]
  rfl

theorem Kinds.isSome_of_bind (h : (Γ.bind xks x).isSome) : x ∈ xks.map Prod.fst ∨ (Γ x).isSome := by
  refine or_iff_not_imp_left.2 fun hx => ?_
  have hlookup : xks.lookup x = none := lookup_eq_none_of_not_mem hx
  rwa [Kinds.bind, hlookup] at h

theorem Kind.mem_idents_of_parts {k : Kind} {p : Tree} (h : x ∈ (k.parts p).map Prod.fst) : x ∈ p.idents := by
  unfold parts at h
  split at h
  · exact h
  · rw [List.map_map] at h
    rwa [← map_fst_bindings _ k.constant]

theorem Kind.mem_identsAll_of_partsAll (h : x ∈ (Kind.partsAll ps as).map Prod.fst) : x ∈ identsAll ps := by
  induction ps generalizing as with
  | nil => cases h
  | cons p ps ih =>
    cases as with
    | nil => cases h
    | cons k as =>
      have hparts : Kind.partsAll (p :: ps) (k :: as) = k.parts p ++ Kind.partsAll ps as := rfl
      rw [hparts, List.map_append] at h
      rw [identsAll]
      exact List.mem_append.2 ((List.mem_append.1 h).imp mem_idents_of_parts ih)

mutual

/-- The visit to an expression brings its value. -/
theorem Item.realizes : ∀ {Γ : Kinds} {t : Tree} {e : Environment} {ρ σ : String → Option Tree}, Item Γ t →
    Realizes e (fun x => (Γ x).isSome) ρ σ t
  | _, _, _, _, _, .literal h => realizes_literal h
  | _, _, _, _, _, .name h => realizes_name (by rw [h]; rfl)
  | _, _, _, _, _, .exprs h => RealizesAll.exprs h.realizes fun _ hus => h.length_eq hus
  | _, _, _, _, _, .paren h => realizes_paren h.realizes
  | _, _, _, _, _, .list h => h.realizes.list
  | _, _, _, _, _, .record h => realizes_record (fun t ht => (h t ht).isFunction_eq_false) fun t ht => (h t ht).realizes
  | _, _, _, _, _, .binding h => realizes_binding h.realizes
  | _, _, _, _, _, .negation h => realizes_negation h.realizes
  | _, _, _, _, _, .operator htag hlogical ht hu => realizes_operator htag hlogical ht.realizes hu.realizes
  | _, _, _, _, _, .case ht hof hp hu => by
    refine realizes_case ht.realizes fun c hc => ?_
    obtain ⟨p, u, rfl⟩ := hof c hc
    exact ⟨p, u, rfl, (hp p u hc).realizes, (hu p u hc).realizes⟩

/-- The visits to the nodes of a frame bring its values. -/
theorem Frame.realizes : ∀ {Γ : Kinds} {ts : List Tree} {ks : List Kind} {e : Environment} {ρ σ : String → Option Tree},
    Frame Γ ts ks → RealizesAll e (fun x => (Γ x).isSome) ρ σ ts
  | _, _, _, _, _, _, .nil => realizesAll_nil
  | _, _, _, _, _, _, .name h hs => hs.realizes.cons rfl (realizes_name (by rw [h]; rfl))
  | _, _, _, _, _, _, .item _ h hs =>
    hs.realizes.cons h.isFunction_eq_false (h.realizes.restrict fun _ => Kinds.isSome_of_view)
  | _, _, _, _, _, _, @Frame.call Γ _ _ ys _ as ks _ hs hlength hnodup h => by
    refine hs.realizes.call (by simp [isPattern]) (by rwa [identsAll_map_ident]) (fun ws hws => ?_) (fun x hx => ?_)
      fun e' ws => h.realizes
    · rw [hs.length_eq hws, List.length_map, List.length_append]
      omega
    · rw [identsAll_map_ident]
      refine (Kinds.isSome_of_bind (Kinds.isSome_of_view hx)).imp_left fun hx => ?_
      obtain ⟨yk, hyk, rfl⟩ := List.mem_map.1 hx
      exact (List.of_mem_zip hyk).1
  | _, _, _, _, _, _, @Frame.late Γ _ _ ps _ as ks _ hs hmeets _ _ hnodup h => by
    refine hs.realizes.call (isPattern_of_meets hmeets) hnodup (fun ws hws => ?_) (fun x hx => ?_) fun e' ws => h.realizes
    · rw [hs.length_eq hws, hmeets.length_eq, List.length_append]
      omega
    · exact (Kinds.isSome_of_bind hx).imp Kind.mem_identsAll_of_partsAll Kinds.isSome_of_view

end

end Tree

namespace Machine

variable {s : OperandStack} {b : Nat} {e : Environment} {p : Pool} {vs : List NodeId} {fs : List (List NodeId)} {i : NodeId}
  {ts : List Tree} {X : String → Prop} {ρ σ : String → Option Tree}

/-- A program has the values of its frame. -/
theorem brings_prog (h : RealizesAll e X ρ σ ts) (he : e.Assigns p X ρ σ)
    (hi : p.tree? i = some ((Tree.node .prog [.node .exprs ts]).replace ρ)) :
    BringsTree s b e (doing ⟨⟨p, s.stacked (vs :: fs)⟩, e, b⟩ [.visit i])
      (do return .node .prog [.node .exprs (← values? e.room σ ts)]) vs fs p := by
  rw [replace_node (by decide), List.map_singleton, replace_node (by decide)] at hi
  obtain ⟨cs, hn, hcs⟩ := Pool.tree?_eq_node_iff.1 hi
  rcases hcs with _ | @⟨c, _, _, _, hc, _ | _⟩
  obtain ⟨es, hn', hes⟩ := Pool.tree?_eq_node_iff.1 hc
  rw [doing_visit hn (by decide) rfl]
  have hvalues : BringsTrees s b e (doing ⟨⟨p, s.stacked ([] :: vs :: fs)⟩, e, b⟩ [.visit c]) (values? e.room σ ts)
      (fun us => (us ++ []) :: vs :: fs) p := by
    rw [doing_visit hn' (by decide) rfl]
    exact h s b p [] (vs :: fs) es he hes
  refine Brings.framed (hvalues.bind fun ws us q _ hpq hus => ?_)
  rw [List.append_nil]
  exact computes_close_prog.brings rfl rfl (Pool.tree?_intern_branch (.cons (Pool.tree?_intern_branch hus) .nil))

end Machine

end Linefold
