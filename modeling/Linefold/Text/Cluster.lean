import Linefold.Text.ClusterClass

/-!
# Clusters

A cluster is what a reader takes for one character: a letter with its accents, a Korean syllable, a
flag, a picture joined from several. `clusters` cuts a text into extended grapheme clusters, and
`flatten_clusters` says that nothing is lost.
-/

namespace Linefold.Text

/-- The text, held backwards, ends in a picture and marks on it. -/
def endsInPictograph : List Char → Bool
  | [] => false
  | c :: cs =>
    match ClusterClass.ofChar c with
    | .extender => endsInPictograph cs
    | .pictograph => true
    | _ => false

/-- The text, held backwards, ends in a consonant and marks on it, a linker among them. `linked` says
that there was one already. -/
def endsInConjunct (linked : Bool) : List Char → Bool
  | [] => false
  | c :: cs =>
    if isLinker c then endsInConjunct true cs
    else if isConjunctExtender c then endsInConjunct linked cs
    else linked && ClusterClass.ofChar c = .consonant

/-- The number of halves of flags at the end of a text that is held backwards. -/
def flagHalves (cs : List Char) : Nat :=
  (cs.takeWhile fun c => ClusterClass.ofChar c = .flagHalf).length

/-- The character belongs to the cluster before it, which is held backwards. -/
def continues : List Char → Char → Bool
  | [], _ => false
  | b :: bs, c =>
    match ClusterClass.ofChar b, ClusterClass.ofChar c with
    | .carriageReturn, .lineFeed => true
    | .carriageReturn, _ | .lineFeed, _ | .control, _ => false
    | _, .carriageReturn | _, .lineFeed | _, .control => false
    | _, .extender | _, .joiner | _, .spacingMark => true
    | .prefixed, _ => true
    | .leadingJamo, .leadingJamo | .leadingJamo, .vowelJamo => true
    | .leadingJamo, .openSyllable | .leadingJamo, .closedSyllable => true
    | .openSyllable, .vowelJamo | .openSyllable, .trailingJamo => true
    | .vowelJamo, .vowelJamo | .vowelJamo, .trailingJamo => true
    | .closedSyllable, .trailingJamo | .trailingJamo, .trailingJamo => true
    | _, .consonant => endsInConjunct false (b :: bs)
    | .joiner, .pictograph => endsInPictograph bs
    | .flagHalf, .flagHalf => flagHalves (b :: bs) % 2 = 1
    | _, _ => false

/-- The clusters of a text; `cluster` holds the current one backwards. -/
def clustersFrom (cluster : List Char) : List Char → List (List Char)
  | [] => if cluster.isEmpty then [] else [cluster.reverse]
  | c :: cs =>
    if cluster.isEmpty || continues cluster c then clustersFrom (c :: cluster) cs
    else cluster.reverse :: clustersFrom [c] cs

/-- The clusters of a text. -/
def clusters (s : List Char) : List (List Char) := clustersFrom [] s

theorem flatten_clustersFrom (cluster s : List Char) :
    (clustersFrom cluster s).flatten = cluster.reverse ++ s := by
  induction s generalizing cluster with
  | nil => cases cluster <;> simp [clustersFrom]
  | cons c cs ih =>
    rw [clustersFrom]
    split <;> simp [ih]

theorem flatten_clusters (s : List Char) : (clusters s).flatten = s :=
  flatten_clustersFrom [] s

example : clusters "e\u0301x".toList = [['e', '\u0301'], ['x']] := by decide +kernel

example : clusters "👩\u200d👧!".toList = [['👩', '\u200d', '👧'], ['!']] := by decide +kernel

end Linefold.Text
