import IncrementalSat.Truth

/-!
# Literals

A literal is a variable with a sign. The type of variables is a parameter: `Fin n` inside an engine
with `n` variables, where a literal of an unallocated variable cannot be written; `Nat` where
formulas over an open-ended supply of variables are meant; `UInt32` for literals packed into words.

The packed form of a literal is twice its variable, plus one if it is negative, so the two
literals of a variable are neighbours and the order of codes groups them.
-/
namespace IncrementalSat

structure Literal (ν : Type) where
  var : ν
  positive : Bool
  deriving DecidableEq, Repr

/-- A literal over the variables `0, …, n - 1`. -/
abbrev Lit (n : Nat) := Literal (Fin n)

namespace Literal

variable {ν μ : Type}

/-- The literal of the same variable with the other sign. -/
def neg (l : Literal ν) : Literal ν := { l with positive := !l.positive }

/-- Renames the variable. -/
def map (f : ν → μ) (l : Literal ν) : Literal μ := ⟨f l.var, l.positive⟩

@[simp] theorem neg_var (l : Literal ν) : l.neg.var = l.var := rfl

@[simp] theorem neg_positive (l : Literal ν) : l.neg.positive = !l.positive := rfl

@[simp] theorem neg_neg (l : Literal ν) : l.neg.neg = l := by
  cases l; simp [neg]

@[simp] theorem map_var (f : ν → μ) (l : Literal ν) : (l.map f).var = f l.var := rfl

@[simp] theorem map_positive (f : ν → μ) (l : Literal ν) : (l.map f).positive = l.positive := rfl

theorem neg_ne (l : Literal ν) : l.neg ≠ l := by
  intro h
  have := congrArg Literal.positive h
  simp at this

/-- Two literals of one variable are equal or opposite. -/
theorem eq_or_eq_neg_of_var_eq {l m : Literal ν} (h : l.var = m.var) : l = m ∨ l = m.neg := by
  cases l; cases m
  simp only at h
  subst h
  rename_i p q
  cases p <;> cases q <;> simp [neg]

/-- The literal in a packed word. -/
def ofWord (w : UInt32) : Literal UInt32 := ⟨w >>> 1, w &&& 1 == 0⟩

/-- The packed word of a literal. A variable of `2 ^ 31` or more loses its top bit. -/
def toWord (l : Literal UInt32) : UInt32 := l.var <<< 1 ||| (if l.positive then 0 else 1)

/-- How a packed literal is displayed: `x3`, or `!x3` when it is negative. -/
def text (l : Literal UInt32) : String :=
  (if l.positive then "x" else "!x") ++ l.var.toNat.repr

/-- Twice the variable, plus one for a negative literal. -/
def code (l : Literal Nat) : Nat := 2 * l.var + (if l.positive then 0 else 1)

theorem code_injective {l m : Literal Nat} (h : l.code = m.code) : l = m := by
  obtain ⟨v, p⟩ := l
  obtain ⟨w, q⟩ := m
  cases p <;> cases q <;> simp_all [code] <;> omega

end Literal

namespace Lit

variable {n : Nat}

theorem var_lt (l : Lit n) : l.var.val < n := l.var.isLt

/-- The same literal after one more variable was allocated. -/
def grow (l : Lit n) : Lit (n + 1) := l.map Fin.castSucc

/-- The literal of a variable number, if that variable is allocated. -/
def ofLiteral? (n : Nat) (l : Literal Nat) : Option (Lit n) :=
  if h : l.var < n then some ⟨⟨l.var, h⟩, l.positive⟩ else none

/-- The literal without its bound. -/
def toLiteral (l : Lit n) : Literal Nat := l.map Fin.val

theorem var_lt_of_mem_map {ms : List (Lit n)} {l : Literal Nat} (h : l ∈ ms.map toLiteral) :
    l.var < n := by
  obtain ⟨m, -, rfl⟩ := List.mem_map.1 h
  exact m.var.isLt

theorem ofLiteral?_toLiteral (l : Lit n) : ofLiteral? n l.toLiteral = some l := by
  simp [ofLiteral?, toLiteral]

end Lit

end IncrementalSat
