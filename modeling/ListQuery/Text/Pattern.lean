/-
Patterns of texts.

A pattern is matched from the left.  Where there are several ways to go on they are tried in order, and
the match is the first way in which the whole pattern matches: of two alternatives the first one comes
first, and a run takes as many characters as there are and gives them back one by one.  Groups remember
the characters that stand in them.

* `Pattern.matchThen` — a match of a pattern from a place on, and then of what follows it;
* `Pattern.captures?` — what the groups hold in the leftmost match in a text.

Design notes: what follows a pattern is handed over as a function, so that going back is a matter of
trying the next way when that function gives nothing.  Runs are those of single characters: each step of
one takes a character, and the recursion is on the characters that are left.
-/
namespace ListQuery.Text

/-- What may stand at one place. -/
inductive CharClass where
  | only (c : Char)
  /-- Any character but the line feed. -/
  | inLine

/-- Whether a character is in a class. -/
def CharClass.has : CharClass → Char → Bool
  | .only c, d => d == c
  | .inLine, d => d != '\n'

/-- Patterns. -/
inductive Pattern where
  /-- The start of the text, `^`. -/
  | start
  /-- The end of the text, `$`. -/
  | finish
  | one (k : CharClass)
  /-- Any number of characters of a class, `k*`. -/
  | run (k : CharClass)
  /-- One of two patterns, `p|q`. -/
  | either (p q : Pattern)
  /-- A pattern whose characters are remembered under a number, `(p)`. -/
  | group (i : Nat) (p : Pattern)
  | nothing
  /-- A pattern and then another one, `pq`. -/
  | seq (p q : Pattern)

/-- The patterns of a list, one after the other. -/
def Pattern.sequence (ps : List Pattern) : Pattern :=
  ps.foldr .seq .nothing

/-- What the groups of a pattern hold, by their numbers, the latest first. -/
abbrev Captures := List (Nat × List Char)

/-- The first result of `next` after a run of characters of a class, the longest run first. -/
def CharClass.runThen {α : Type} (k : CharClass) (next : Nat → List Char → Option α)
    (offset : Nat) : List Char → Option α
  | [] => next offset []
  | c :: rest =>
    if k.has c then k.runThen next (offset + 1) rest <|> next offset (c :: rest)
    else next offset (c :: rest)

/-- The first result of `next` after a match of a pattern.  A match has come to an offset in a text, with
the characters that are left and what the groups hold. -/
def Pattern.matchThen {α : Type} (p : Pattern) (offset : Nat) (cs : List Char) (groups : Captures)
    (next : Nat → List Char → Captures → Option α) : Option α :=
  match p with
  | .start => if offset = 0 then next offset cs groups else none
  | .finish => if cs.isEmpty then next offset cs groups else none
  | .one k =>
    match cs with
    | [] => none
    | c :: rest => if k.has c then next (offset + 1) rest groups else none
  | .run k => k.runThen (fun offset rest => next offset rest groups) offset cs
  | .either p q => p.matchThen offset cs groups next <|> q.matchThen offset cs groups next
  | .group i p =>
    p.matchThen offset cs groups fun last rest groups =>
      next last rest ((i, cs.take (last - offset)) :: groups)
  | .nothing => next offset cs groups
  | .seq p q =>
    p.matchThen offset cs groups fun offset rest groups => q.matchThen offset rest groups next

/-- What the groups hold after the first match from an offset on. -/
def Pattern.matchFrom? (p : Pattern) (offset : Nat) (cs : List Char) (groups : Captures) :
    Option Captures :=
  p.matchThen offset cs groups fun _ _ groups => some groups

/-- What the groups hold in the leftmost match that starts at an offset in a text or after it, where the
text goes on with these characters. -/
def Pattern.capturesFrom? (p : Pattern) (offset : Nat) : List Char → Option Captures
  | [] => p.matchFrom? offset [] []
  | c :: rest => p.matchFrom? offset (c :: rest) [] <|> p.capturesFrom? (offset + 1) rest

/-- What the groups hold in the leftmost match in a text. -/
def Pattern.captures? (p : Pattern) (cs : List Char) : Option Captures :=
  p.capturesFrom? 0 cs

end ListQuery.Text
