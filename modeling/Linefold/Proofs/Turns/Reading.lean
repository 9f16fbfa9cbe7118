import Linefold.Proofs.Turns.Scopes
import Linefold.Proofs.Wholeness.Parsing

/-!
# Reading tokens in turns

`m.Reads ts m'`: with turns, and the tokens `ts` given one after another whenever the parse rests, the moment `m`
comes to `m'`. There is only one way to go on, so a run of `ParseState.step` ends where such a reading comes to
rest (`ParseState.run_of_reads`). The pool grows in every turn and stays whole.
-/

namespace Linefold

open Relation (ReflTransGen)

namespace Moment

variable {m m' a r start : Moment} {t : Token} {ts us : List Token}

/-! ### One way to go on -/

theorem not_turns_of_rests (h : m.next = .rests) (a : Moment) : ¬ m.Turns a := fun ha => by cases h.symm.trans ha

theorem not_turns_of_fails {fault : Fault} {s : Parsed} (h : m.next = .fails fault s) (a : Moment) : ¬ m.Turns a :=
  fun ha => by cases h.symm.trans ha

theorem eq_of_turns (h : ReflTransGen Turns m a) (hm : ∀ x, ¬ m.Turns x) : a = m := by
  rcases h.cases_head with rfl | ⟨x, hx, -⟩
  · rfl
  · exact absurd hx (hm x)

/-- Turns end in one moment. -/
theorem eq_of_turns_of_turns (ha : ReflTransGen Turns m a) (hr : ReflTransGen Turns m r) (hlast : ∀ x, ¬ a.Turns x)
    (hlast' : ∀ x, ¬ r.Turns x) : a = r := by
  have hunique : Relator.RightUnique Turns := fun _ _ _ h h' => Progress.goes.inj (h.symm.trans h')
  rcases ReflTransGen.total_of_right_unique hunique ha hr with h | h
  · exact (eq_of_turns h hlast).symm
  · exact eq_of_turns h hlast'

/-! ### Reading -/

inductive Reads : Moment → List Token → Moment → Prop where
  | refl (m : Moment) : Reads m [] m
  | turn {m a m' : Moment} {ts : List Token} (h : m.Turns a) (hrest : Reads a ts m') : Reads m ts m'
  | feed {m m' : Moment} {t : Token} {ts : List Token} (h : m.next = .rests) (hroot : m.root = none)
      (hrest : Reads { m with token := some t, cls := .error } ts m') : Reads m (t :: ts) m'

theorem Reads.trans (h : m.Reads ts a) (h' : a.Reads us m') : m.Reads (ts ++ us) m' := by
  induction h with
  | refl => exact h'
  | turn h _ ih => exact .turn h (ih h')
  | feed h hroot _ ih => exact .feed h hroot (ih h')

/-! ### Wholeness -/

/-- All that a moment refers to is there. -/
def Whole (m : Moment) : Prop := m.conts.all Cont.isBinary ∧ m.parsed.Whole

end Moment

section

variable {p : Pool} {t : Token} {c : Cont} {brk : TokenKind} {base : Nat}

open ParseM

theorem keeps_turnListItem : Keeps p (turnListItem brk base t) fun _ a => a.next.all Cont.isBinary := by
  unfold turnListItem
  split
  · exact keeps_finishExprs.bind fun _ _ _ _ => keeps_pure fun _ _ => rfl
  · exact keeps_pure fun _ _ => rfl

theorem keeps_turnExpr : Keeps p (turnExpr t) fun _ a => a.next.all Cont.isBinary := by
  unfold turnExpr
  split
  · exact keeps_pure fun _ _ => rfl
  · exact keeps_height.bind fun _ _ _ _ => keeps_pure fun _ _ => rfl
  · exact keeps_height.bind fun _ _ _ _ => keeps_pure fun _ _ => rfl
  · exact keeps_pure fun _ _ => rfl

/-- A turn adds whole nodes only. -/
theorem keeps_turn (hc : c.isBinary) : Keeps p (c.turn t) fun _ a => a.next.all Cont.isBinary := by
  have offered {q : Pool} {f : ParseM Offer} (hf : Keeps q f fun _ o => o.isBinary) :
      Keeps q (do return (← f).turn : ParseM Turn) fun _ a => a.next.all Cont.isBinary := by
    refine hf.bind fun _ o _ ho => keeps_pure fun _ _ => ?_
    cases o with
    | taken cls next => exact ho
    | declined | finished => rfl
  have either {q : Pool} {prop : Prop} [Decidable prop] {a b : Turn} (ha : a.next.all Cont.isBinary)
      (hb : b.next.all Cont.isBinary) :
      Keeps q (if prop then return a else return b : ParseM Turn) fun _ a => a.next.all Cont.isBinary := by
    split
    · exact keeps_pure fun _ _ => ha
    · exact keeps_pure fun _ _ => hb
  cases c with
  | exprs brk base =>
    simp only [Cont.turn]
    split
    · exact keeps_finishExprs.bind fun _ _ _ _ => keeps_pure fun _ _ => rfl
    · exact keeps_turnListItem
  | exprsNext brk base =>
    simp only [Cont.turn]
    split
    · exact keeps_pure fun _ _ => rfl
    · exact keeps_turnListItem
  | exprsAfterDot brk base => exact keeps_turnListItem
  | expr => exact keeps_turnExpr
  | operand | elements | elementNext => exact either rfl rfl
  | bindingNext => exact keeps_finishBinding.bind fun _ _ _ _ => either rfl rfl
  | pattern =>
    refine keeps_lookup?.bind fun _ _ _ _ => ?_
    split
    · exact offered keeps_takePattern
    · exact keeps_pure fun _ _ => rfl
  | ifElse base span =>
    simp only [Cont.turn]
    split
    · exact keeps_height.bind fun _ _ _ _ => keeps_pure fun _ _ => rfl
    · exact (keeps_leave (.branch rfl (by simp))).bind fun _ _ _ _ => keeps_pure fun _ _ => rfl
  | _ => exact offered (Cont.keeps_offer hc)

end

namespace Moment

variable {m m' start : Moment}

theorem Turns.whole (h : m.Turns m') (hm : m.Whole) : m'.Whole := by
  obtain ⟨hconts, hparsed⟩ := hm
  obtain ⟨t, c, K, a, hK, -, hturn, hafter⟩ := h.exists_turn
  rw [hK] at hconts
  obtain ⟨hc, hrest⟩ := Bool.and_eq_true_iff.1 hconts
  obtain ⟨⟨-, hparsed'⟩, ha⟩ := (keeps_turn hc m.parsed (.refl _) hparsed).of_eq_ok hturn
  refine ⟨?_, hparsed'⟩
  rw [conts_of_after hafter]
  exact Cont.all_isBinary_append ha hrest

theorem whole_of_reached (hstart : start.Whole) (h : ReflTransGen Moves start m) : m.Whole := by
  induction h with
  | refl => exact hstart
  | tail _ h ih =>
    cases h with
    | turn h => exact h.whole ih
    | feed => exact ih

end Moment

/-! ### Runs -/

namespace ParseState

open Moment

variable {s : ParseState} {p : Pool} {t : Token} {ts : List Token} {m r : Moment}

/-- A step ends where turns come to rest. -/
theorem step_of_rests (hs : s.status = .parsing) (hK : Nested s.conts) (h : ReflTransGen Turns (s.given p t) r)
    (hr : r.next = .rests) : s.step p t = (.ok r.cls, r.state, r.parsed.pool) := by
  rcases step_turns hs hK p t with ⟨m, htakes, hstep, hm⟩ | ⟨e, s', ⟨m, hm, hfails⟩, -⟩
  · have hrests : m.next = .rests := by
      have htoken := htakes.token_eq_none
      obtain ⟨token, cls, conts, parsed, root⟩ := m
      obtain rfl : token = none := htoken
      rcases hm with ⟨-, -, hsettled⟩ | ⟨hconts, -⟩
      · cases conts with
        | nil => rfl
        | cons c K => exact next_eq_rests hsettled
      · obtain rfl : conts = [] := hconts
        rfl
    rw [hstep, eq_of_turns_of_turns htakes.turns h (not_turns_of_rests hrests) (not_turns_of_rests hr)]
  · rw [eq_of_turns_of_turns hm h (not_turns_of_fails hfails) (not_turns_of_rests hr), hr] at hfails
    cases hfails

/-- A run ends where a reading of its tokens comes to rest. -/
theorem run_of_reads (hs : s.status = .parsing) (hK : Nested s.conts) (hm : ReflTransGen Turns (s.given p t) m)
    (h : m.Reads ts r) (hr : r.next = .rests) : s.run p (t :: ts) = (r.state, r.parsed.pool) := by
  induction h generalizing s p t with
  | refl m => rw [run, step_of_rests hs hK hm hr, run]
  | turn h _ ih => exact ih hs hK (hm.tail h) hr
  | @feed m r t' ts h hroot hrest ih =>
    have hstep := step_of_rests hs hK hm h
    have hgoes : m.state.status = .parsing := by simp [state, hroot]
    have hN : Nested m.state.conts := by
      rcases step_cases hs hK p t with ⟨-, hN, -⟩ | ⟨⟨root, h⟩, -⟩ | ⟨e, -, h, -⟩
      · rwa [hstep] at hN
      · rw [hstep] at h
        cases hgoes.symm.trans h
      · rw [hstep] at h
        cases hgoes.symm.trans h
    rw [run, hstep]
    refine ih hgoes hN ?_ hr
    have hgiven : m.state.given m.parsed.pool t' = { m with token := some t', cls := .error } := by
      obtain ⟨token, cls, conts, parsed, root⟩ := m
      obtain rfl : root = none := hroot
      rfl
    rw [hgiven]

end ParseState

end Linefold
