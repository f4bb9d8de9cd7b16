/-!
# Blank characters

The white space of Unicode, counted as the two-sided trimming of texts counts it: the four
separators U+001C to U+001F belong to it, the zero-width characters do not.
-/
namespace Script.Text

def isBlank (c : Char) : Bool :=
  let n := c.toNat
  (9 ≤ n && n ≤ 13) || (28 ≤ n && n ≤ 32) || n == 0x85 || n == 0xa0 || n == 0x1680 ||
    (0x2000 ≤ n && n ≤ 0x200a) || n == 0x2028 || n == 0x2029 || n == 0x202f || n == 0x205f ||
    n == 0x3000

def trimLeft (cs : List Char) : List Char := cs.dropWhile isBlank

def trimRight (cs : List Char) : List Char := (cs.reverse.dropWhile isBlank).reverse

/-- The text between its first and its last character that is not blank. -/
def trim (cs : List Char) : List Char := trimRight (trimLeft cs)

variable {α : Type} (blank : α → Bool)

/-- Reads runs of parts that are not blank; `run` is the one being read and `done` are the
finished ones, both last first. -/
def fieldsFrom (run : List α) (done : List (List α)) : List α → List (List α)
  | [] => (if run.isEmpty then done else run.reverse :: done).reverse
  | c :: cs =>
      if blank c then fieldsFrom [] (if run.isEmpty then done else run.reverse :: done) cs
      else fieldsFrom (c :: run) done cs

def fields (cs : List α) : List (List α) := fieldsFrom blank [] [] cs

end Script.Text
