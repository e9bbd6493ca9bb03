import Smali.Text.Blank

/-! A comment runs from its mark to the end of the line, except inside a string literal. -/

namespace Smali.Text

/-- Where the reading of a line stands with respect to string literals. -/
inductive Quoting where
  /-- Outside every literal. -/
  | outside
  /-- Inside a literal. -/
  | inside
  /-- Inside a literal, behind a backslash. -/
  | escaped
  deriving DecidableEq, Repr

/-- What stands before the first comment mark outside a literal. -/
def beforeComment : Quoting → Text → Text
  -- A quote opens and closes a literal, except behind a backslash.
  | _, [] => []
  | .escaped, c :: rest => c :: beforeComment .inside rest
  | .inside, c :: rest =>
    c :: beforeComment (if c = '\\' then .escaped else if c = '"' then .outside else .inside) rest
  | .outside, c :: rest =>
    if c = '#' then []
    else c :: beforeComment (if c = '"' then .inside else .outside) rest

/-- A line without the comment at its end. -/
def codePart (line : Text) : Text :=
  -- Blanks before the comment go with it.
  trimEnd (beforeComment .outside line)

end Smali.Text
