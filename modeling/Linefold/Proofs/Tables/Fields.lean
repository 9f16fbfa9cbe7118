import Linefold.Table
import Mathlib.Data.List.Nodup

/-!
# Fields of an object

Fields with distinct names are all kept, in whatever order they come to stand (`Json.sortFields_perm`), and
found by their names (`Json.field?_ofFields`). Decimal names of ids are read back as the ids
(`Table.idOfKey?_repr`).
-/

namespace Linefold

namespace Json

variable {fields : List (String × Json)} {key : String} {x : Json}

theorem lastOfEach_of_nodup (h : (fields.map Prod.fst).Nodup) : lastOfEach fields = fields := by
  induction fields with
  | nil => rfl
  | cons f fields ih =>
    obtain ⟨hf, hfields⟩ := List.nodup_cons.1 h
    cases fields with
    | nil => rfl
    | cons g fields =>
      have hne : f.1 ≠ g.1 := fun heq => hf (heq ▸ .head _)
      unfold lastOfEach
      rw [if_neg hne, ih hfields]

theorem sortFields_perm (h : (fields.map Prod.fst).Nodup) : (sortFields fields).Perm fields := by
  have hperm := List.mergeSort_perm fields fun f g => !decide (g.1 < f.1)
  unfold sortFields
  rw [lastOfEach_of_nodup ((hperm.map Prod.fst).nodup_iff.2 h)]
  exact hperm

theorem nodup_sortFields (h : (fields.map Prod.fst).Nodup) : ((sortFields fields).map Prod.fst).Nodup :=
  ((sortFields_perm h).map Prod.fst).nodup_iff.2 h

/-- The first field of a name is the only one. -/
theorem field?_of_mem (h : (fields.map Prod.fst).Nodup) (hmem : (key, x) ∈ fields) :
    (object fields).field? key = some x := by
  simp only [field?]
  induction fields with
  | nil => cases hmem
  | cons f fields ih =>
    obtain ⟨hf, hfields⟩ := List.nodup_cons.1 h
    rcases List.mem_cons.1 hmem with rfl | hmem
    · simp
    · have hne : f.1 ≠ key := fun heq => hf (heq ▸ List.mem_map_of_mem hmem)
      rw [List.find?_cons_of_neg (by simpa using hne)]
      exact ih hfields hmem

theorem field?_ofFields (h : (fields.map Prod.fst).Nodup) (hmem : (key, x) ∈ fields) :
    (ofFields fields).field? key = some x :=
  field?_of_mem (nodup_sortFields h) ((sortFields_perm h).mem_iff.2 hmem)

end Json

namespace Table

variable {fields : List (String × Json)} {l : List (Nat × Json)} {n : Nat}

/-! ### Names of ids -/

theorem idOfKey?_repr (h : n < Nat.pow 2 64) : idOfKey? n.repr = some n := by
  have hdigits : ∀ c ∈ Nat.toDigits 10 n, c.isDigit := fun c hc =>
    Nat.isDigit_of_mem_toDigits (by decide) (by decide) hc
  have hvalue : (Nat.toDigits 10 n).foldl (fun n c => 10 * n + (c.toNat - '0'.toNat)) 0 = n :=
    Nat.ofDigitChars_eq_foldl.symm.trans Nat.ofDigitChars_ten_toDigits
  have hplus : '+' ∉ Nat.toDigits 10 n := fun hmem => absurd (hdigits _ hmem) (by decide)
  unfold idOfKey?
  rw [Nat.repr_eq_ofList_toDigits, String.toList_ofList]
  have hnonempty : (Nat.toDigits 10 n).isEmpty = false := by simp
  have hall : (Nat.toDigits 10 n).all Char.isDigit = true := List.all_eq_true.2 hdigits
  generalize Nat.toDigits 10 n = ds at *
  split
  · next ds => exact absurd (.head _) hplus
  · simp only [hnonempty, hall, hvalue]
    exact if_pos h

/-! ### The order of entries -/

/-- Entries are put in the order of their ids, however their names are ordered. -/
theorem entries_ofFields (hnames : (fields.map Prod.fst).Nodup)
    (hl : (fields.filterMap fun (key, x) => (idOfKey? key).map (·, x)) = l)
    (hids : l.Pairwise fun e f => e.1 < f.1) : entries (Json.sortFields fields) = l := by
  have hperm : ((Json.sortFields (Json.sortFields fields)).filterMap fun (key, x) =>
      (idOfKey? key).map (·, x)).Perm l := by
    rw [← hl]
    refine List.Perm.filterMap _ ?_
    exact (Json.sortFields_perm (Json.nodup_sortFields hnames)).trans (Json.sortFields_perm hnames)
  have hsorted : (entries (Json.sortFields fields)).Pairwise fun e f => decide (e.1 ≤ f.1) = true :=
    List.pairwise_mergeSort (fun _ _ _ => by simpa using Nat.le_trans)
      (fun e f => by simpa using Nat.le_total e.1 f.1) _
  have hsort := (List.mergeSort_perm _ fun e f : Nat × Json => decide (e.1 ≤ f.1)).trans hperm
  refine List.Perm.eq_of_pairwise ?_ hsorted (hids.imp fun h => decide_eq_true (Nat.le_of_lt h)) hsort
  intro e f he hf hef hfe
  have hnodup : (l.map Prod.fst).Nodup := List.pairwise_map.2 (hids.imp Nat.ne_of_lt)
  have heq : e.1 = f.1 := Nat.le_antisymm (of_decide_eq_true hef) (of_decide_eq_true hfe)
  exact List.inj_on_of_nodup_map hnodup (hsort.mem_iff.1 he) hf heq

end Table

end Linefold
