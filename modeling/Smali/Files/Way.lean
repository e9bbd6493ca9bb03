import Smali.Error
import Smali.Files.Tree

/-! A way through a file tree goes step by step, and its names lead to what it has reached. -/

namespace Smali

namespace FileTree

/-- The number of bytes that a name may have at most. -/
def nameLimit : Nat :=
  -- The limit holds for each name alone.
  255

/-- The entries passed on a way down from the top of a tree, the last first. -/
abbrev Way :=
  -- Each entry comes with what it leads to.
  List (Text × FileTree)

/-- What a way through a tree has reached. -/
def reached (tree : FileTree) : Way → FileTree
  -- A way without entries is still at the top.
  | [] => tree
  | (_, found) :: _ => found

/-- The names of the entries on a way, from the top. -/
def namesOf (way : Way) : List Text :=
  -- The way itself begins with its end.
  (way.map Prod.fst).reverse

/-- Every entry on a way is in the directory that the entries before it lead to. -/
def Leads (tree : FileTree) : Way → Prop
  -- The directory is what the rest of the way has reached.
  | [] => True
  | (name, found) :: way =>
    (tree.reached way).entries.lookup name = some found ∧ tree.Leads way

/-- Takes one step from the end of a way. -/
def takeStep (tree : FileTree) (way : Way) (step : Text) : Except FileFailure Way :=
  -- The topmost directory is its own parent, and a file cannot be entered.
  match tree.reached way with
  | file _ => .error .notDirectory
  | directory entries =>
    if step = ['.'] then .ok way
    else if step = ['.', '.'] then .ok way.tail
    else if nameLimit < Text.byteLength step then .error .nameTooLong
    else
      match entries.lookup step with
      | some found => .ok ((step, found) :: way)
      | none => .error .notFound

/-- Takes steps one after the other. -/
def takeSteps (tree : FileTree) (way : Way) : List Text → Except FileFailure Way
  -- The first step that fails ends the way.
  | [] => .ok way
  | step :: rest => do
    let way ← tree.takeStep way step
    tree.takeSteps way rest

/-- A single step keeps to the entries of the tree. -/
theorem takeStep_leads {tree : FileTree} {way next : Way} {step : Text}
    (leads : tree.Leads way) (taken : tree.takeStep way step = .ok next) : tree.Leads next := by
  -- A step stays, goes back, or adds an entry that was looked up.
  unfold takeStep at taken
  cases found : tree.reached way with
  | file content => simp [found] at taken
  | directory entries =>
    simp only [found] at taken
    split at taken
    -- A single dot stays.
    · simp_all
    · split at taken
      -- Two dots leave the last entry, and stay at the top.
      · cases taken
        cases way with
        | nil => exact leads
        | cons entry way => exact leads.2
      · split at taken
        · simp at taken
        · split at taken
          -- A name is an entry of the directory that was reached.
          case h_1 below present =>
            cases taken
            exact ⟨by rw [found]; exact present, leads⟩
          case h_2 => simp at taken

/-- All steps keep to the entries of the tree. -/
theorem takeSteps_leads {tree : FileTree} {way next : Way} {steps : List Text}
    (leads : tree.Leads way) (taken : tree.takeSteps way steps = .ok next) : tree.Leads next := by
  -- Each step starts from what the one before it has reached.
  induction steps generalizing way with
  | nil => simp_all [takeSteps]
  | cons step rest induction =>
    cases first : tree.takeStep way step with
    | error failure => simp [takeSteps, first, bind, Except.bind] at taken
    | ok middle =>
      simp only [takeSteps, first, bind, Except.bind] at taken
      exact induction (takeStep_leads leads first) taken

/-- The names on a way lead to what it has reached. -/
theorem find?_namesOf {tree : FileTree} {way : Way} (leads : tree.Leads way) :
    tree.find? (namesOf way) = some (tree.reached way) := by
  -- The last name is looked up where the names before it lead.
  induction way with
  | nil => rfl
  | cons entry way induction =>
    have before := induction leads.2
    simp only [namesOf] at before
    have inside := leads.1
    simp only [namesOf, List.map_cons, List.reverse_cons, find?_append, before]
    simp only [Option.bind_some, find?, inside]
    rfl

end FileTree

end Smali
