/-
# Patterns of paths

A pattern is read in three steps: `isWellFormed` refuses what is not closed, `spellOut` puts
each alternative in place of the braces, and `pieces` takes what is left apart.
-/
import RdfMapping.Files.Path

namespace RdfMapping.Files

/-- A piece of a pattern without alternatives. -/
inductive Piece where
  /-- The character itself. -/
  | exactly (c : Char)
  /-- Any character but a slash. -/
  | anyChar
  /-- A character in one of the ranges, or in none of them. -/
  | oneOf (negated : Bool) (ranges : List (Char × Char))
  /-- Any characters but slashes. -/
  | stretch
  /-- Any number of whole parts, each with its slash. -/
  | wholeParts
  /-- All that is left. -/
  | everything
deriving DecidableEq, Repr

/-- A pattern as the texts it stands for, each taken apart. -/
structure Pattern where
  choices : List (List Piece)
deriving DecidableEq, Repr

namespace Pattern

/-! ## Well-formed patterns -/

/-- Where the reading of a pattern stands: outside of sets or in one. -/
inductive Mode where
  | outside
  | setStart
  | inSet
deriving DecidableEq, Repr

/-- Whether all sets and `depth` further braces are closed. -/
def isClosed : Mode → Nat → List Char → Bool
  | .outside, depth, [] => depth = 0
  | _, _, [] => false
  | _, _, ['\\'] => false
  | .outside, depth, '\\' :: _ :: rest => isClosed .outside depth rest
  | _, depth, '\\' :: _ :: rest => isClosed .inSet depth rest
  | .outside, depth, '[' :: '!' :: rest => isClosed .setStart depth rest
  | .outside, depth, '[' :: '^' :: rest => isClosed .setStart depth rest
  | .outside, depth, '[' :: rest => isClosed .setStart depth rest
  | .outside, depth, '\x7b' :: rest => isClosed .outside (depth + 1) rest
  | .outside, depth, '\x7d' :: rest => depth ≠ 0 && isClosed .outside (depth - 1) rest
  | .setStart, _, ']' :: _ => false
  | .inSet, depth, ']' :: rest => isClosed .outside depth rest
  | .outside, depth, _ :: rest => isClosed .outside depth rest
  | _, depth, _ :: rest => isClosed .inSet depth rest

/-- Whether all sets and braces of a pattern are closed and no set is empty. -/
def isWellFormed (s : List Char) : Bool :=
  isClosed .outside 0 s

/-! ## Alternatives -/

/-- What stands before and after the first brace that opens alternatives. -/
def cutBrace? : Bool → List Char → Option (List Char × List Char)
  | _, [] => none
  | false, '\x7b' :: rest => some ([], rest)
  | inSet, '\\' :: c :: rest =>
    (cutBrace? inSet rest).map fun (before, after) => ('\\' :: c :: before, after)
  | inSet, c :: rest =>
    (cutBrace? (if inSet then c ≠ ']' else c = '[') rest).map fun (before, after) =>
      (c :: before, after)

/-- The alternatives up to the closing brace, and what follows. -/
def alternatives : Nat → List Char → List (List Char) × List Char
  | _, [] => ([[]], [])
  | depth, '\\' :: c :: rest => put ['\\', c] (alternatives depth rest)
  | 0, '\x7d' :: rest => ([[]], rest)
  | 0, ',' :: rest =>
    let (following, after) := alternatives 0 rest
    ([] :: following, after)
  | depth, '\x7b' :: rest => put ['\x7b'] (alternatives (depth + 1) rest)
  | depth + 1, '\x7d' :: rest => put ['\x7d'] (alternatives depth rest)
  | depth, c :: rest => put [c] (alternatives depth rest)
where
  /-- Puts characters before the first alternative. -/
  put (s : List Char) : List (List Char) × List Char → List (List Char) × List Char
    | (first :: following, after) => ((s ++ first) :: following, after)
    | ([], after) => ([s], after)

/-- The texts that a pattern with at most `fuel` braces stands for. -/
def spellOutFrom : Nat → List Char → List (List Char)
  | 0, s => [s]
  | fuel + 1, s =>
    match cutBrace? false s with
    | none => [s]
    | some (before, after) =>
      let (choices, rest) := alternatives 0 after
      choices.flatMap fun choice =>
        (spellOutFrom fuel (choice ++ rest)).map (before ++ ·)

/-- The texts a pattern stands for. -/
def spellOut (s : List Char) : List (List Char) :=
  spellOutFrom (s.count '\x7b') s

/-! ## Pieces -/

/-- The ranges of a set after the character `last`, and what follows the set. -/
def ranges : Option Char → List Char → List (Char × Char) × List Char
  | _, [] => ([], [])
  | _, ']' :: rest => ([], rest)
  | some _, '-' :: ']' :: rest => ([('-', '-')], rest)
  | some low, '-' :: '\\' :: high :: rest => put (low, high) (ranges none rest)
  | some low, '-' :: high :: rest => put (low, high) (ranges none rest)
  | _, '\\' :: c :: rest => put (c, c) (ranges (some c) rest)
  | _, c :: rest => put (c, c) (ranges (some c) rest)
where
  /-- Puts a range before others. -/
  put (range : Char × Char) (others : List (Char × Char) × List Char) :
      List (Char × Char) × List Char :=
    (range :: others.1, others.2)

/-- A set is not longer than the text it is read from. -/
theorem length_ranges (last : Option Char) (s : List Char) :
    (ranges last s).2.length ≤ s.length := by
  fun_induction ranges last s <;> simp_all [ranges.put] <;> omega

/-- The set that begins here, and what follows it. -/
def readSet (s : List Char) : Piece × List Char :=
  match s with
  | '!' :: rest | '^' :: rest => (.oneOf true (ranges none rest).1, (ranges none rest).2)
  | s => (.oneOf false (ranges none s).1, (ranges none s).2)

/-- What follows a set is not longer than the text it is read from. -/
theorem length_readSet (s : List Char) : (readSet s).2.length ≤ s.length := by
  unfold readSet
  split
  · exact Nat.le_succ_of_le (length_ranges none _)
  · exact Nat.le_succ_of_le (length_ranges none _)
  · exact length_ranges none s

/-- The pieces of a text; `atStart` says that a part begins here. -/
def pieces (atStart : Bool) (s : List Char) : List Piece :=
  match s with
  | [] => []
  | '*' :: '*' :: '/' :: rest =>
    if atStart then .wholeParts :: pieces true rest
    else .stretch :: .exactly '/' :: pieces true rest
  | ['*', '*'] => if atStart then [.everything] else [.stretch]
  | '*' :: '*' :: rest => .stretch :: pieces false rest
  | '*' :: rest => .stretch :: pieces false rest
  | '?' :: rest => .anyChar :: pieces false rest
  | '[' :: rest => (readSet rest).1 :: pieces false (readSet rest).2
  | '\\' :: c :: rest => .exactly c :: pieces (c = '/') rest
  | c :: rest => .exactly c :: pieces (c = '/') rest
termination_by s.length
decreasing_by
  all_goals simp_wf
  all_goals first
    | omega
    | (have h := length_readSet rest
       omega)

/-- Reads a pattern; there is none if something in it is not closed. -/
def ofText? (s : String) : Option Pattern :=
  if isWellFormed s.toList then some ⟨(spellOut s.toList).map (pieces true)⟩ else none

/-! ## Matching -/

/-- Whether pieces match nothing.  A directory matches its own subtree. -/
def matchEmpty : List Piece → Bool
  | [] | [.stretch] | [.everything] | [.wholeParts] => true
  | [.exactly '/', .everything] | [.exactly '/', .wholeParts] => true
  | _ => false

/-- Whether pieces match a text. -/
def matchPieces (ps : List Piece) (s : List Char) : Bool :=
  match ps, s with
  | ps, [] => matchEmpty ps
  | [], _ :: _ => false
  | .exactly x :: ps, c :: s => x = c && matchPieces ps s
  | .anyChar :: ps, c :: s => c ≠ '/' && matchPieces ps s
  | .oneOf negated rs :: ps, c :: s =>
    (rs.any fun (low, high) => low ≤ c && c ≤ high) != negated && matchPieces ps s
  | .stretch :: ps, c :: s =>
    matchPieces ps (c :: s) || (c ≠ '/' && matchPieces (.stretch :: ps) s)
  | .wholeParts :: ps, c :: s =>
    matchPieces ps (c :: s) ||
      match _h : Chars.cutFirst? '/' (c :: s) with
      | none => false
      | some (_, after) => matchPieces (.wholeParts :: ps) after
  | .everything :: _, _ :: _ => true
termination_by ps.length + s.length
decreasing_by
  all_goals simp_wf
  all_goals first
    | omega
    | (have h' := congrArg List.length (Chars.cutFirst?_eq_some _h)
       simp at h'
       omega)

/-- Whether a pattern matches a path. -/
def matchPath (p : Pattern) (path : String) : Bool :=
  p.choices.any fun ps => matchPieces ps path.toList

/-! ## Where the matches of a pattern lie -/

/-- The directory of all matches, and the pattern of the paths in it. -/
def splitBase (s : String) : String × String :=
  match cut [] none s.toList with
  | none => (".", s)
  | some ([], rest) => ("/", .ofList rest)
  | some (before, rest) => (.ofList before, .ofList rest)
where
  /-- Cuts at the last slash before the first character with a meaning of its own.  `done`
  is what was read, in reverse, and `found` the last cut. -/
  cut (done : List Char) (found : Option (List Char × List Char)) :
      List Char → Option (List Char × List Char)
    | [] => found
    | '\\' :: c :: rest => cut (c :: '\\' :: done) found rest
    | '/' :: rest => cut ('/' :: done) (some (done.reverse, rest)) rest
    | c :: rest => if ['*', '?', '[', '\x7b'].contains c then found else cut (c :: done) found rest

end Pattern

end RdfMapping.Files
