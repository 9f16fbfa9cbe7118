import Linefold.Scanner
import Linefold.Tree
import Linefold.Proofs.Numbers.Texts

/-!
# The text of a tree tells the tree

A word goes on to the next mark, a string to the first quote that is not escaped, and a node to the parenthesis
that closes it, so a tree is told apart from whatever follows it (`Tree.write_injective`). Strings may hold any
characters at all: what stands between quotes is read back one character at a time (`Tree.unescape?_escape`). What kind
of leaf a word stands for is seen from the word (`Tree.isWord_of_word?`), as long as the identifiers are names.
-/

namespace Linefold.Tree

/-! ### Names -/

/-- A name as it is scanned, other than the words of other leaves. -/
structure IsName (name : String) : Prop where
  start : name.toList.head?.any Scanner.isNameStart
  signs : name.toList.all Scanner.isNameChar
  free : name ∉ ["true", "false", "null", "NaN", "Infinity"]

mutual

/-- The identifiers in a tree. -/
def identifiers : Tree → List String
  | ident name => [name]
  | node _ ts => identifiersAll ts
  | _ => []

/-- The identifiers in some trees. -/
def identifiersAll : List Tree → List String
  | [] => []
  | t :: ts => identifiers t ++ identifiersAll ts

end

/-- Every identifier in the tree is a name. -/
def Legible (t : Tree) : Prop := ∀ name ∈ t.identifiers, IsName name

variable {a b t : Tree} {ts : List Tree} {u v r r' : List Char} {c : Char} {name : String} {x : Number}

/-! ### Marks -/

/-- The characters that begin and end what is no word. -/
def marks : List Char := [' ', '(', ')', '"']

def isMark (c : Char) : Bool := marks.contains c

/-- The text does not go on with a word. -/
def Parted (r : List Char) : Prop := ∀ c ∈ r.head?, isMark c

theorem parted_nil : Parted [] := fun _ hc => by cases hc

theorem parted_cons (hc : isMark c) : Parted (c :: r) := fun _ hd => by
  cases hd
  exact hc

theorem parted_writeAll : Parted (writeAll (')' :: r) ts) := by
  cases ts with
  | nil => exact parted_cons rfl
  | cons t ts => exact parted_cons rfl

theorem takeWhile_word (hu : u.any isMark = false) (hr : Parted r) : (u ++ r).takeWhile (!isMark ·) = u :=
  (takeWhile_dropWhile_append (fun c hc => by simpa using List.any_eq_false.1 hu c hc)
    (fun c hc => by simpa using hr c hc)).1

theorem word_append_injective (hu : u.any isMark = false) (hv : v.any isMark = false) (hr : Parted r) (hr' : Parted r')
    (h : u ++ r = v ++ r') : u = v ∧ r = r' := by
  have huv : u = v := by rw [← takeWhile_word hu hr, h, takeWhile_word hv hr']
  subst huv
  exact ⟨rfl, List.append_cancel_left h⟩

theorem any_isMark_name (t : Tag) : t.name.toList.any isMark = false := by
  cases t <;> decide

/-- Characters of a class without marks. -/
theorem any_isMark_of_all {p : Char → Bool} (hp : marks.any p = false) (hu : u.all p) : u.any isMark = false := by
  refine List.any_eq_false.2 fun c hc hmark => ?_
  have hmem : c ∈ marks := List.contains_iff_mem.1 hmark
  exact List.any_eq_false.1 hp c hmem (List.all_eq_true.1 hu c hc)

/-! ### Words -/

/-- The text of a leaf that is not in quotes. -/
def word? : Tree → Option (List Char)
  | num x => some x.chars
  | ident name => some name.toList
  | bool b => some (if b then "true" else "false").toList
  | null => some "null".toList
  | _ => none

theorem write_of_word? (h : t.word? = some u) : t.write r = u ++ r := by
  cases t <;> cases h <;> rfl

/-- What is no word begins with a mark. -/
theorem write_of_word?_none (h : t.word? = none) : ∃ c s, t.write r = c :: s ∧ isMark c := by
  cases t with
  | str s => exact ⟨_, _, rfl, rfl⟩
  | node t ts => exact ⟨_, _, rfl, rfl⟩
  | _ => cases h

/-- The kind of leaf that a word stands for. -/
def wordTag (u : List Char) : Tag :=
  if u.head?.any Scanner.isNameStart then
    if u = "true".toList ∨ u = "false".toList then .bool
    else if u = "null".toList then .null
    else if u = "NaN".toList ∨ u = "Infinity".toList then .num
    else .ident
  else .num

/-- The text of a leaf with the tag, cut off at the next mark. -/
structure IsWord (tag : Tag) (u : List Char) : Prop where
  ne_nil : u ≠ []
  unmarked : u.any isMark = false
  tag_eq : wordTag u = tag

/-- No name begins like a finite number. -/
theorem isNameStart_of_isNumeral (h : Number.isNumeral c) : Scanner.isNameStart c = false := by
  simp only [Number.isNumeral, Bool.or_eq_true, decide_eq_true_eq] at h
  rcases h with (h | rfl) | rfl
  · have hle : c ≤ '9' := of_decide_eq_true (Bool.and_eq_true_iff.1 h).2
    have hlower : ¬ 'a' ≤ c := fun hletter => absurd (Char.le_trans hletter hle) (by decide)
    have hupper : ¬ 'A' ≤ c := fun hletter => absurd (Char.le_trans hletter hle) (by decide)
    have hline : c ≠ '_' := by
      rintro rfl
      exact absurd hle (by decide)
    simp only [Scanner.isNameStart, Scanner.isLetter, hlower, hupper, hline, decide_false, Bool.false_and, Bool.or_false]
  · decide
  · decide

theorem isWord_chars (x : Number) : IsWord .num x.chars := by
  by_cases hfinite : x.isFinite
  · have hnumeral := Number.isNumeral_chars hfinite
    refine ⟨Number.chars_ne_nil, any_isMark_of_all (by decide) hnumeral, ?_⟩
    obtain ⟨c, cs, hcs⟩ := List.exists_cons_of_ne_nil (Number.chars_ne_nil (x := x))
    rw [hcs, List.all_cons, Bool.and_eq_true] at hnumeral
    rw [wordTag, hcs]
    exact if_neg (by simp [isNameStart_of_isNumeral hnumeral.1])
  · rcases Number.chars_of_not_isFinite hfinite with h | h | h <;> rw [h] <;> exact ⟨by decide, by decide, by decide⟩

theorem IsName.isWord (h : IsName name) : IsWord .ident name.toList := by
  refine ⟨?_, any_isMark_of_all (by decide) h.signs, ?_⟩
  · intro hnil
    have hstart := h.start
    rw [hnil] at hstart
    cases hstart
  · have hfree := h.free
    simp only [List.mem_cons, List.not_mem_nil, or_false, not_or] at hfree
    obtain ⟨htrue, hfalse, hnull, hnan, hinfinity⟩ := hfree
    rw [wordTag, if_pos h.start]
    simp only [String.toList_inj, htrue, hfalse, hnull, hnan, hinfinity, or_false, if_false]

theorem isWord_of_word? (ht : t.Legible) (h : t.word? = some u) : IsWord t.tag u := by
  cases t with
  | num x =>
    cases h
    exact isWord_chars x
  | ident name =>
    cases h
    exact (ht name (.head _)).isWord
  | bool b =>
    cases h
    cases b <;> exact ⟨by decide, by decide, by decide⟩
  | null =>
    cases h
    exact ⟨by decide, by decide, by decide⟩
  | _ => cases h

/-- Two leaves with one word are the same leaf. -/
theorem word?_injective (ha : a.Legible) (hb : b.Legible) (hu : a.word? = some u) (hv : b.word? = some u) : a = b := by
  have htag : a.tag = b.tag := (isWord_of_word? ha hu).tag_eq.symm.trans (isWord_of_word? hb hv).tag_eq
  cases a with
  | num x =>
    cases b with
    | num y => exact congrArg num (Number.chars_injective (Option.some.inj (hu.trans hv.symm)))
    | node t ts => cases hv
    | _ => cases htag
  | ident name =>
    cases b with
    | ident name' => exact congrArg ident (String.toList_inj.1 (Option.some.inj (hu.trans hv.symm)))
    | node t ts => cases hv
    | _ => cases htag
  | bool x =>
    cases b with
    | bool y =>
      have hxy := Option.some.inj (hu.trans hv.symm)
      cases x <;> cases y <;> first | rfl | exact absurd hxy (by decide)
    | node t ts => cases hv
    | _ => cases htag
  | null =>
    cases b with
    | null => rfl
    | node t ts => cases hv
    | _ => cases htag
  | _ => cases hu

/-! ### Strings -/

/-- The first character that a text in quotes stands for, and the rest of the text. -/
def unescape? : List Char → Option (Char × List Char)
  | '\\' :: c :: r => some (if c = 'n' then '\n' else if c = 't' then '\t' else c, r)
  | '"' :: _ => none
  | c :: r => some (c, r)
  | [] => none

theorem unescape?_escape : unescape? (escape c ++ r) = some (c, r) := by
  unfold escape
  split
  · rfl
  · rfl
  · rfl
  · rfl
  · next hbackslash hquote =>
    rw [List.singleton_append, unescape?]
    · exact fun d s hc _ => hbackslash hc
    · exact hquote

theorem escape_append_injective {s s' : List Char} (h : s.flatMap escape ++ '"' :: r = s'.flatMap escape ++ '"' :: r') :
    s = s' ∧ r = r' := by
  induction s generalizing s' with
  | nil =>
    cases s' with
    | nil => exact ⟨rfl, (List.cons.inj h).2⟩
    | cons c s' =>
      have hread := congrArg unescape? h
      rw [List.flatMap_cons, List.append_assoc, unescape?_escape] at hread
      cases hread
  | cons c s ih =>
    cases s' with
    | nil =>
      have hread := congrArg unescape? h
      rw [List.flatMap_cons, List.append_assoc, unescape?_escape] at hread
      cases hread
    | cons d s' =>
      have hread := congrArg unescape? h
      rw [List.flatMap_cons, List.append_assoc, unescape?_escape, List.flatMap_cons, List.append_assoc,
        unescape?_escape] at hread
      obtain ⟨rfl, hrest⟩ := Prod.mk.inj (Option.some.inj hread)
      obtain ⟨rfl, hr⟩ := ih hrest
      exact ⟨rfl, hr⟩

/-! ### Trees -/

/-- A word and what follows it are told from any other tree and what follows that. -/
theorem write_injective_of_word? (ha : a.Legible) (hb : b.Legible) (hr : Parted r) (hr' : Parted r')
    (hu : a.word? = some u) (h : a.write r = b.write r') : a = b ∧ r = r' := by
  obtain ⟨hne, hunmarked, -⟩ := isWord_of_word? ha hu
  rw [write_of_word? hu] at h
  cases hv : b.word? with
  | some v =>
    rw [write_of_word? hv] at h
    obtain ⟨rfl, hrest⟩ := word_append_injective hunmarked (isWord_of_word? hb hv).unmarked hr hr' h
    exact ⟨word?_injective ha hb hu hv, hrest⟩
  | none =>
    obtain ⟨c, s, hs, hc⟩ := write_of_word?_none (r := r') hv
    obtain ⟨d, u, rfl⟩ := List.exists_cons_of_ne_nil hne
    rw [hs] at h
    cases h
    rw [List.any_cons, hc] at hunmarked
    cases hunmarked

mutual

/-- A tree and what follows it are told from any other tree and what follows that. -/
theorem write_injective {a b : Tree} {r r' : List Char} (ha : a.Legible) (hb : b.Legible) (hr : Parted r)
    (hr' : Parted r') (h : a.write r = b.write r') : a = b ∧ r = r' := by
  cases hv : b.word? with
  | some v => exact (write_injective_of_word? hb ha hr' hr hv h.symm).imp Eq.symm Eq.symm
  | none =>
    match a with
    | num x => exact write_injective_of_word? ha hb hr hr' rfl h
    | ident name => exact write_injective_of_word? ha hb hr hr' rfl h
    | bool b => exact write_injective_of_word? ha hb hr hr' rfl h
    | null => exact write_injective_of_word? ha hb hr hr' rfl h
    | str s =>
      cases b with
      | str s' =>
        obtain ⟨hs, hrest⟩ := escape_append_injective (List.cons.inj h).2
        exact ⟨congrArg str (String.toList_inj.1 hs), hrest⟩
      | node t ts => cases h
      | _ => cases hv
    | node t ts =>
      cases b with
      | node t' ts' =>
        obtain ⟨hname, hall⟩ := word_append_injective (any_isMark_name t) (any_isMark_name t') parted_writeAll
          parted_writeAll (List.cons.inj h).2
        have hinner := writeAll_injective ha hb hall
        exact ⟨by rw [Tag.name_injective (String.toList_inj.1 hname), hinner.1], hinner.2⟩
      | str s => cases h
      | _ => cases hv
termination_by structural a

/-- Trees in a node are told from any others, up to the parenthesis that closes the node. -/
theorem writeAll_injective {ts us : List Tree} {r r' : List Char} (hts : ∀ name ∈ identifiersAll ts, IsName name)
    (hus : ∀ name ∈ identifiersAll us, IsName name) (h : writeAll (')' :: r) ts = writeAll (')' :: r') us) :
    ts = us ∧ r = r' := by
  match ts with
  | [] =>
    cases us with
    | nil => exact ⟨rfl, (List.cons.inj h).2⟩
    | cons u us => cases h
  | t :: ts =>
    cases us with
    | nil => cases h
    | cons u us =>
      obtain ⟨ht, htail⟩ := List.forall_mem_append.1 hts
      obtain ⟨hu, htail'⟩ := List.forall_mem_append.1 hus
      obtain ⟨heq, hrest⟩ := write_injective ht hu parted_writeAll parted_writeAll (List.cons.inj h).2
      obtain ⟨heqs, hr⟩ := writeAll_injective htail htail' hrest
      exact ⟨by rw [heq, heqs], hr⟩
termination_by structural ts

end

/-- Trees whose identifiers are names have the same text only if they are the same tree. -/
theorem text_eq_iff (ha : a.Legible) (hb : b.Legible) : a.text = b.text ↔ a = b := by
  refine ⟨fun h => ?_, congrArg text⟩
  exact (write_injective ha hb parted_nil parted_nil (String.ofList_injective h)).1

/-- A string whose text looks like the end of a string, a name and the start of another is not mistaken for them. -/
theorem text_quoted_ne :
    (node .list [str "a\" x \"b"]).text ≠ (node .list [str "a", ident "x", str "b"]).text := by
  have hquoted : Legible (node .list [str "a\" x \"b"]) := fun name hname => by cases hname
  have hparts : Legible (node .list [str "a", ident "x", str "b"]) := by
    intro name hname
    have hx : name = "x" := by simpa [identifiers, identifiersAll] using hname
    subst hx
    exact ⟨by decide, by decide, by decide⟩
  intro h
  have heq := (text_eq_iff hquoted hparts).1 h
  simp at heq

end Linefold.Tree
