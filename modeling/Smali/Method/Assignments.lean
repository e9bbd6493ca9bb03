import Smali.Method

/-! Instructions that write a field are removed from a body line by line. -/

namespace Smali.Method

/-- The line does not write the field with a given reference. -/
def isNoAssignment (field : Text) (line : Line) : Bool :=
  -- The line is decoded on its own.
  !(Instruction.decode line.content).assigns field

/-- A body without the lines that write a field, unless there are none to remove. -/
def withoutAssignments (field body : Text) : Option Text :=
  -- The kept lines are joined as they were.
  let lines := Text.lines body
  if lines.all (isNoAssignment field) then none
  else some ((lines.filter (isNoAssignment field)).flatMap Line.piece)

end Smali.Method
