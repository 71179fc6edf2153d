import IncrementalSat.Dimacs

/-!
# Reading DIMACS texts

A reader for the format, written without regard to how texts are made here. Words are separated by
blanks. Empty lines are skipped, and so are comments, which are lines whose first word begins with
`c`. The first line that is left is the header, and each of the others holds one clause, ended by a
zero. What is read from the text of a formula without zeros is that formula.
-/
namespace IncrementalSat

namespace Dimacs

/-- What a text says: the two numbers of its header, and the clauses on the lines that follow. -/
structure Reading where
  numVars : Nat
  numClauses : Nat
  clauses : List (List Int32)
  deriving DecidableEq, Repr

namespace Reading

abbrev Word := List Char

def words (line : List Char) : List Word := (line.splitOn ' ').filter (!·.isEmpty)

/-- Whether a line, given by its words, says something. -/
def isRelevant : List Word → Bool
  | [] => false
  | w :: _ => w.head? != some 'c'

/-- The words of every line that says something. -/
def lines (text : List Char) : List (List Word) :=
  ((text.splitOn '\n').map words).filter isRelevant

/-- A number in decimal digits. -/
def natural? (w : Word) : Option Nat :=
  if w ≠ [] ∧ w.all Char.isDigit = true then some (Nat.ofDigitChars 10 w 0) else none

/-- A number in decimal digits, with a minus sign in front if it is negative. -/
def integer? (w : Word) : Option Int :=
  if w.head? = some '-' then (natural? w.tail).map fun k => -(k : Int)
  else (natural? w).map fun k => (k : Int)

/-- A signed literal of 32 bits, or the zero at the end of a clause. -/
def literal? (w : Word) : Option Int32 :=
  (integer? w).bind fun i => if (Int32.ofInt i).toInt = i then some (Int32.ofInt i) else none

/-- The literals on a line, whose last word and no other has to be a zero. -/
def clause? : List Word → Option (List Int32)
  | [] => none
  | w :: ws => do
    let l ← literal? w
    if l = 0 then if ws = [] then some [] else none
    else
      let ls ← clause? ws
      some (l :: ls)

/-- The clauses on some lines, one on each. -/
def clauses? : List (List Word) → Option (List (List Int32))
  | [] => some []
  | line :: rest => do
    let c ← clause? line
    let cs ← clauses? rest
    some (c :: cs)

def ofText? (text : String) : Option Reading :=
  match lines text.toList with
  | [['p'], ['c', 'n', 'f'], v, c] :: body => do
    let numVars ← natural? v
    let numClauses ← natural? c
    let clauses ← clauses? body
    some ⟨numVars, numClauses, clauses⟩
  | _ => none

/-! ## Numbers -/

theorem digit_of_mem_repr (k : Nat) : ∀ c ∈ k.repr.toList, c.isDigit = true := by
  intro c mem
  rw [Nat.toList_repr] at mem
  exact Nat.isDigit_of_mem_toDigits (by decide) (by decide) mem

theorem natural?_repr (k : Nat) : natural? k.repr.toList = some k := by
  have digits : k.repr.toList.all Char.isDigit = true := List.all_eq_true.2 (digit_of_mem_repr k)
  have nonempty : k.repr.toList ≠ [] := by
    rw [Nat.toList_repr]
    exact Nat.toDigits_ne_nil
  rw [natural?, if_pos ⟨nonempty, digits⟩, Nat.toList_repr, Nat.ofDigitChars_ten_toDigits]

theorem toList_repr_negSucc (k : Nat) :
    (Int.negSucc k).repr.toList = '-' :: (k + 1).repr.toList := by
  change ("-" ++ (k + 1).repr).toList = _
  rw [String.toList_append]
  rfl

/-- A negative number starts with a sign, any other with a digit. -/
theorem integer?_repr (i : Int) : integer? i.repr.toList = some i := by
  cases i with
  | ofNat k =>
    have unsigned : k.repr.toList.head? ≠ some '-' := by
      intro sign
      have digit := digit_of_mem_repr k '-' (List.mem_of_mem_head? sign)
      cases digit
    change integer? k.repr.toList = _
    rw [integer?, if_neg unsigned, natural?_repr]
    rfl
  | negSucc k =>
    rw [toList_repr_negSucc, integer?, if_pos (List.head?_cons ..), List.tail_cons, natural?_repr]
    rfl

theorem literal?_repr (l : Int32) : literal? l.toInt.repr.toList = some l := by
  rw [literal?, integer?_repr, Option.bind_some, Int32.ofInt_toInt, if_pos rfl]

/-- A number is written with digits and a sign only. -/
theorem not_mem_repr (i : Int) {c : Char} (digit : c.isDigit = false) (sign : c ≠ '-') :
    c ∉ i.repr.toList := by
  have absent : ∀ k : Nat, c ∉ k.repr.toList := by
    intro k mem
    rw [digit_of_mem_repr k c mem] at digit
    cases digit
  cases i with
  | ofNat k => exact absent k
  | negSucc k =>
    rw [toList_repr_negSucc, List.mem_cons, not_or]
    exact ⟨sign, absent (k + 1)⟩

theorem blank_not_mem_repr (i : Int) : ' ' ∉ i.repr.toList := not_mem_repr i (by decide) (by decide)

theorem newline_not_mem_repr (i : Int) : '\n' ∉ i.repr.toList :=
  not_mem_repr i (by decide) (by decide)

theorem repr_ne_nil (i : Int) : i.repr.toList ≠ [] := by
  cases i with
  | ofNat k =>
    change k.repr.toList ≠ []
    rw [Nat.toList_repr]
    exact Nat.toDigits_ne_nil
  | negSucc k => simp [toList_repr_negSucc]

/-! ## Words -/

theorem words_cons {w : Word} (nonempty : w ≠ []) (solid : ' ' ∉ w) (line : List Char) :
    words (w ++ ' ' :: line) = w :: words line := by
  unfold words
  rw [List.splitOn_append_cons_self, List.splitOn_eq_singleton solid]
  simp [nonempty]

theorem words_single {w : Word} (nonempty : w ≠ []) (solid : ' ' ∉ w) : words w = [w] := by
  unfold words
  rw [List.splitOn_eq_singleton solid]
  simp [nonempty]

/-- The line of a clause. -/
def clauseLine (c : List Int32) : List Char :=
  c.flatMap (fun l => l.toInt.repr.toList ++ [' ']) ++ ['0']

def clauseWords (c : List Int32) : List Word := c.map (fun l => l.toInt.repr.toList) ++ [['0']]

theorem words_clauseLine (c : List Int32) : words (clauseLine c) = clauseWords c := by
  unfold clauseLine
  induction c with
  | nil => rfl
  | cons l ls ih =>
    simp [words_cons (repr_ne_nil l.toInt) (blank_not_mem_repr l.toInt), ih, clauseWords]

/-- What is read from the words of a clause without zeros is the clause. -/
theorem clause?_clauseWords {c : List Int32} (nonzero : 0 ∉ c) :
    clause? (clauseWords c) = some c := by
  induction c with
  | nil => decide
  | cons l ls ih =>
    rw [List.mem_cons, not_or] at nonzero
    have rest : clause? (clauseWords ls) = some ls := ih nonzero.2
    change clause? (l.toInt.repr.toList :: clauseWords ls) = _
    rw [clause?, literal?_repr, rest]
    simp [Ne.symm nonzero.1]

theorem clauses?_map_clauseWords {cs : List (List Int32)} (nonzero : ∀ c ∈ cs, 0 ∉ c) :
    clauses? (cs.map clauseWords) = some cs := by
  induction cs with
  | nil => rfl
  | cons c cs ih =>
    have first := clause?_clauseWords (nonzero c (by simp))
    have rest := ih fun d hd => nonzero d (List.mem_cons_of_mem _ hd)
    simp [clauses?, first, rest]

/-- The line of the header. -/
def headerLine (d : Dimacs) : List Char :=
  ['p'] ++ ' ' :: (['c', 'n', 'f'] ++ ' ' ::
    ((d.numVars : Int).repr.toList ++ ' ' :: (d.clauses.length : Int).repr.toList))

theorem words_headerLine (d : Dimacs) : words (headerLine d) =
    [['p'], ['c', 'n', 'f'], d.numVars.repr.toList, d.clauses.length.repr.toList] := by
  unfold headerLine
  rw [words_cons (by simp) (by decide), words_cons (by simp) (by decide),
    words_cons (repr_ne_nil d.numVars) (blank_not_mem_repr d.numVars),
    words_single (repr_ne_nil d.clauses.length) (blank_not_mem_repr d.clauses.length)]
  rfl

/-! ## Lines -/

theorem lines_cons {line : List Char} (unbroken : '\n' ∉ line)
    (relevant : isRelevant (words line) = true) (text : List Char) :
    lines ((line ++ ['\n']) ++ text) = words line :: lines text := by
  unfold lines
  rw [List.append_assoc, List.singleton_append, List.splitOn_append_cons_self,
    List.splitOn_eq_singleton unbroken]
  simp [relevant]

theorem toList_renderClause (c : List Int32) : (renderClause c).toList = clauseLine c ++ ['\n'] := by
  unfold renderClause clauseLine
  rw [String.toList_append, String.toList_join, List.flatMap_map, List.append_assoc]
  simp only [String.toList_append]
  rfl

theorem lines_clause (c : List Int32) (text : List Char) :
    lines ((renderClause c).toList ++ text) = clauseWords c :: lines text := by
  have unbroken : '\n' ∉ clauseLine c := by
    unfold clauseLine
    simp only [List.mem_append, List.mem_flatMap, List.mem_singleton, not_or, not_exists, not_and]
    exact ⟨fun l _ => ⟨newline_not_mem_repr l.toInt, by decide⟩, by decide⟩
  have relevant : isRelevant (clauseWords c) = true := by
    cases c with
    | nil => rfl
    | cons l ls =>
      have plain : l.toInt.repr.toList.head? ≠ some 'c' := fun first =>
        not_mem_repr l.toInt (by decide) (by decide) (List.mem_of_mem_head? first)
      simpa [clauseWords, isRelevant] using plain
  rw [toList_renderClause, lines_cons unbroken (by rwa [words_clauseLine]), words_clauseLine]

theorem lines_clauses (cs : List (List Int32)) :
    lines (String.join (cs.map renderClause)).toList = cs.map clauseWords := by
  rw [String.toList_join, List.flatMap_map]
  induction cs with
  | nil => decide
  | cons c cs ih => rw [List.flatMap_cons, lines_clause, ih, List.map_cons]

theorem toList_renderHeader (d : Dimacs) : d.renderHeader.toList = headerLine d ++ ['\n'] := by
  unfold renderHeader headerLine
  simp only [String.toList_append, List.append_assoc, List.cons_append]
  rfl

theorem lines_render (d : Dimacs) :
    lines d.render.toList = words (headerLine d) :: d.clauses.map clauseWords := by
  have unbroken : '\n' ∉ headerLine d := by
    have first := newline_not_mem_repr d.numVars
    have second := newline_not_mem_repr d.clauses.length
    unfold headerLine
    simp only [List.mem_append, List.mem_cons, not_or]
    exact ⟨by decide, by decide, by decide, by decide, first, by decide, second⟩
  have relevant : isRelevant (words (headerLine d)) = true := by
    rw [words_headerLine]
    rfl
  unfold render
  rw [String.toList_append, toList_renderHeader, lines_cons unbroken relevant, lines_clauses]

end Reading

/-- A reader finds in the text of a formula what the formula says, with the number of its clauses
in the header. -/
theorem read_render (d : Dimacs) (nonzero : ∀ c ∈ d.clauses, 0 ∉ c) :
    Reading.ofText? d.render = some ⟨d.numVars, d.clauses.length, d.clauses⟩ := by
  unfold Reading.ofText?
  rw [Reading.lines_render, Reading.words_headerLine]
  simp only [Reading.natural?_repr, Reading.clauses?_map_clauseWords nonzero]
  rfl

end Dimacs

end IncrementalSat
