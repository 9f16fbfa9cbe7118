import Linefold.Proofs.Scanning.Tiling

/-!
# The cursor and the start of the token

A line may be walked by single moves in any order (`Scanner.Move`). The cursor stays on the line whatever the
moves are, and the text of the current token is the text from its start to the cursor as long as the start is
not behind the cursor (`Scanner.OnLine.current?_eq`). Only a call of the scanner moves the start. So the start
passes the cursor exactly where `backUp` takes back more than the current token (`Scanner.moves_window`).
-/

namespace Linefold.Scanner

/-- One use of a line. -/
inductive Move where
  | next
  | peek
  | eat (p : Char → Bool)
  | eatWhile (p : Char → Bool)
  | backUp (n : Nat)
  | scan (g : Scope)

def move (s : Scanner) : Move → Scanner
  | .next => s.next.2
  | .peek => s
  | .eat p => (s.eat p).2
  | .eatWhile p => (s.eatWhile p).2
  | .backUp n => s.backUp n
  | .scan g => (s.scan g).2

def moves (s : Scanner) (ms : List Move) : Scanner := ms.foldl move s

/-- The characters of the line, cut at the cursor. -/
def OnLine (cs : List Char) (s : Scanner) : Prop := s.past.reverse ++ s.rest = cs

/-- The current token starts at the cursor or before it, the cursor is on the line, and the text between
them is there to be read. -/
structure Window (cs : List Char) (s : Scanner) : Prop where
  start_le : s.start ≤ s.position
  position_le : s.position ≤ cs.length
  current : s.current? = some (String.ofList ((cs.take s.position).drop s.start))

/-- A move that takes back no more than the text of the current token, where any is in front of it. -/
def Move.Stays (s : Scanner) : Move → Prop
  | .backUp n => s.start = 0 ∨ n ≤ s.position - s.start
  | _ => True

/-- No move takes back more than the current token. -/
def Steady (s : Scanner) : List Move → Prop
  | [] => True
  | m :: ms => m.Stays s ∧ (s.move m).Steady ms

variable {cs rest : List Char} {c : Char} {s t : Scanner} {g : Scope} {m : Move} {ms : List Move} {n : Nat}

/-! ### Single moves -/

theorem onLine_ofText (line : Nat) (text : String) : OnLine text.toList (ofText line text) := rfl

theorem OnLine.position_le (h : OnLine cs s) : s.position ≤ cs.length := by
  rw [← h, List.length_append, List.length_reverse]
  exact Nat.le_add_right _ _

theorem OnLine.drop_position (h : OnLine cs s) : cs.drop s.position = s.rest := by
  rw [← h, position, ← List.length_reverse, List.drop_left]

/-- The text from the start of the token to the cursor; there is none from a start behind the cursor. -/
theorem OnLine.current?_eq (h : OnLine cs s) : s.current? =
    if s.start ≤ s.position then some (String.ofList ((cs.take s.position).drop s.start)) else none := by
  have hpast : cs.take s.position = s.past.reverse := by
    rw [← h, position, ← List.length_reverse, List.take_left]
  have htext : s.past.reverse.drop s.start = (s.past.take (s.position - s.start)).reverse := List.drop_reverse
  rw [hpast, htext]
  rfl

theorem OnLine.window (h : OnLine cs s) (hstart : s.start ≤ s.position) : Window cs s :=
  ⟨hstart, h.position_le, by rw [h.current?_eq, if_pos hstart]⟩

theorem OnLine.skip (h : OnLine cs s) (n : Nat) : OnLine cs (s.skip n) := by
  unfold OnLine Scanner.skip
  rw [List.reverse_append, List.reverse_reverse, List.append_assoc, List.take_append_drop]
  exact h

theorem OnLine.next (h : OnLine cs s) : OnLine cs s.next.2 := by
  unfold Scanner.next
  split
  · exact h
  · next c rest hrest =>
    unfold OnLine at h ⊢
    rw [hrest] at h
    rw [List.reverse_cons, List.append_assoc]
    exact h

/-- A character that is not of the class is left where it is. -/
theorem eat_cases (s : Scanner) (p : Char → Bool) : (s.eat p).2 = s ∨ (s.eat p).2 = s.next.2 := by
  unfold eat
  split
  · exact .inl rfl
  · split
    · exact .inr rfl
    · exact .inl rfl

theorem OnLine.eat (h : OnLine cs s) (p : Char → Bool) : OnLine cs (s.eat p).2 := by
  rcases s.eat_cases p with he | he <;> rw [he]
  · exact h
  · exact h.next

theorem OnLine.backUp (h : OnLine cs s) (n : Nat) : OnLine cs (s.backUp n) := by
  unfold OnLine Scanner.backUp
  rw [← List.append_assoc, ← List.reverse_append, List.take_append_drop]
  exact h

theorem OnLine.skipBlanks (h : OnLine cs s) : OnLine cs s.skipBlanks := h.skip _

/-! ### Calls of the scanner -/

theorem scan_of_rest_nil (h : s.skipBlanks.rest = []) : s.scan g = (none, s.skipBlanks) := by
  unfold scan
  simp only [h]

theorem scan_of_rest_cons (h : s.skipBlanks.rest = c :: rest) : s.scan g =
    (some (.ofKind (lexeme g c rest).1 (c :: rest.take (lexeme g c rest).2)
      (s.skipBlanks.skip ((lexeme g c rest).2 + 1)).span), s.skipBlanks.skip ((lexeme g c rest).2 + 1)) := by
  unfold scan
  simp only [h]
  cases (lexeme g c rest).1 <;> rfl

/-- A call of the scanner goes to the next character that is not blank, and from there over a lexeme. -/
theorem exists_scan (s : Scanner) (g : Scope) : ∃ n, (s.scan g).2 = s.skipBlanks.skip n := by
  cases h : s.skipBlanks.rest with
  | nil =>
    refine ⟨0, ?_⟩
    rw [scan_of_rest_nil h]
    simp [skip]
  | cons c rest => exact ⟨_, congrArg Prod.snd (scan_of_rest_cons h)⟩

theorem position_skip (h : n ≤ s.rest.length) : (s.skip n).position = s.position + n := by
  unfold position skip
  rw [List.length_append, List.length_reverse, List.length_take, Nat.min_eq_left h, Nat.add_comm]

theorem position_le_skip (s : Scanner) (n : Nat) : s.position ≤ (s.skip n).position := by
  unfold position skip
  rw [List.length_append]
  exact Nat.le_add_left _ _

theorem position_backUp (s : Scanner) (n : Nat) : (s.backUp n).position = s.position - n := List.length_drop

theorem OnLine.scan (h : OnLine cs s) (g : Scope) : OnLine cs (s.scan g).2 := by
  obtain ⟨n, hn⟩ := s.exists_scan g
  rw [hn]
  exact h.skipBlanks.skip n

theorem OnLine.move (h : OnLine cs s) (m : Move) : OnLine cs (s.move m) := by
  cases m with
  | next => exact h.next
  | peek => exact h
  | eat p => exact h.eat p
  | eatWhile p => exact h.skip _
  | backUp n => exact h.backUp n
  | scan g => exact h.scan g

/-- A token has the text that then stands between the start and the cursor. -/
theorem OnLine.current?_of_scan (h : OnLine cs s) {tok : Token} (hs : s.scan g = (some (.token tok), t)) :
    t.current? = some tok.lexeme := by
  cases hrest : s.skipBlanks.rest with
  | nil => cases hs.symm.trans (scan_of_rest_nil hrest)
  | cons c rest =>
    have hscan := hs.symm.trans (scan_of_rest_cons hrest)
    obtain ⟨hlexed, rfl⟩ := Prod.mk.inj hscan
    have hle : (lexeme g c rest).2 ≤ rest.length := lexeme_le_length g c rest
    generalize (lexeme g c rest).2 = n at hle hlexed ⊢
    have hlexeme : tok.lexeme = String.ofList (c :: rest.take n) := Lexed.lexeme_of_ofKind (Option.some.inj hlexed).symm
    have hstart : (s.skipBlanks.skip (n + 1)).start = s.skipBlanks.position := rfl
    have hposition : (s.skipBlanks.skip (n + 1)).position = s.skipBlanks.position + (n + 1) :=
      position_skip (by rw [hrest]; exact Nat.succ_le_succ hle)
    rw [(h.skipBlanks.skip (n + 1)).current?_eq, hlexeme, hstart, hposition, if_pos (Nat.le_add_right _ _), List.drop_take,
      h.skipBlanks.drop_position, hrest, Nat.add_sub_cancel_left, List.take_succ_cons]

/-! ### Windows -/

theorem start_le_next (h : s.start ≤ s.position) : s.next.2.start ≤ s.next.2.position := by
  unfold Scanner.next
  split
  · exact h
  · exact Nat.le_succ_of_le h

/-- No move but one back brings the cursor behind the start. -/
theorem Move.Stays.start_le (h : m.Stays s) (hs : s.start ≤ s.position) : (s.move m).start ≤ (s.move m).position := by
  cases m with
  | next => exact start_le_next hs
  | peek => exact hs
  | eat p =>
    show (s.eat p).2.start ≤ (s.eat p).2.position
    rcases s.eat_cases p with he | he <;> rw [he]
    · exact hs
    · exact start_le_next hs
  | eatWhile p => exact Nat.le_trans hs (s.position_le_skip _)
  | backUp n =>
    show s.start ≤ (s.backUp n).position
    rw [position_backUp]
    rcases h with h | h <;> omega
  | scan g =>
    obtain ⟨n, hn⟩ := s.exists_scan g
    show (s.scan g).2.start ≤ (s.scan g).2.position
    rw [hn]
    exact s.skipBlanks.position_le_skip n

theorem Move.stays_of_start_le (h : (s.move m).start ≤ (s.move m).position) : m.Stays s := by
  cases m with
  | backUp n =>
    have h : s.start ≤ s.position - n := position_backUp s n ▸ h
    show s.start = 0 ∨ n ≤ s.position - s.start
    omega
  | _ => trivial

theorem OnLine.moves (h : OnLine cs s) (ms : List Move) : OnLine cs (s.moves ms) := by
  induction ms generalizing s with
  | nil => exact h
  | cons m ms ih => exact ih (h.move m)

/-- The start stays in front of the cursor exactly if no move takes back more than the current token. -/
theorem steady_iff (hs : s.start ≤ s.position) :
    s.Steady ms ↔ ∀ ks, ks <+: ms → (s.moves ks).start ≤ (s.moves ks).position := by
  induction ms generalizing s with
  | nil =>
    refine ⟨fun _ ks hks => ?_, fun _ => trivial⟩
    rw [List.prefix_nil.1 hks]
    exact hs
  | cons m ms ih =>
    constructor
    · rintro ⟨hm, hms⟩ ks hks
      cases ks with
      | nil => exact hs
      | cons k ks =>
        obtain ⟨rfl, htail⟩ := List.cons_prefix_cons.1 hks
        exact (ih (hm.start_le hs)).1 hms ks htail
    · intro h
      have hm : (s.move m).start ≤ (s.move m).position := h [m] (List.cons_prefix_cons.2 ⟨rfl, List.nil_prefix⟩)
      exact ⟨m.stays_of_start_le hm, (ih hm).2 fun ks hks => h (m :: ks) (List.cons_prefix_cons.2 ⟨rfl, hks⟩)⟩

/-- Whatever the moves on a line are, the cursor stays on the line, and what a call of the scanner gives as a
token is the text that then stands in the window. The start and the cursor are a window on the line at every
moment exactly if no move takes back more than the current token. -/
theorem moves_window (line : Nat) (text : String) (ms : List Move) :
    ((ofText line text).moves ms).position ≤ text.length ∧
      (∀ g t tok, ((ofText line text).moves ms).scan g = (some (.token tok), t) → t.current? = some tok.lexeme) ∧
      ((ofText line text).Steady ms ↔ ∀ ks, ks <+: ms → Window text.toList ((ofText line text).moves ks)) := by
  have hline := onLine_ofText line text
  refine ⟨String.length_toList ▸ (hline.moves ms).position_le,
    fun g t tok h => (hline.moves ms).current?_of_scan h, ?_⟩
  rw [steady_iff (Nat.le_refl 0)]
  exact ⟨fun h ks hks => (hline.moves ks).window (h ks hks), fun h ks hks => (h ks hks).start_le⟩

/-- Beyond the start of a name there is no text. -/
theorem current?_behind_start :
    let s := (ofText 0 " ab").moves [.scan Environment.initial.globals, .backUp 3]
    s.start = 1 ∧ s.position = 0 ∧ s.current? = none := by
  decide +kernel

end Linefold.Scanner
