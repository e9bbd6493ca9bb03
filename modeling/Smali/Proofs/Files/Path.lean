import Smali.ClassPath
import Smali.Proofs.Files.Straight
import Smali.Proofs.Text.Blank

/-! Paths below one directory are the same path exactly if they go through the same names. -/

namespace Smali

namespace Path

/-- A text that a directory can have as the name of an entry. -/
def IsName (text : Text) : Prop :=
  -- No separator is part of a name.
  text ≠ [] ∧ '/' ∉ text ∧ text ≠ ['.'] ∧ text ≠ ['.', '.']

/-- Whether a text can be a name is computed from its characters. -/
instance (text : Text) : Decidable (IsName text) :=
  -- Each part is a comparison.
  inferInstanceAs (Decidable (_ ∧ _))

/-- A name as a path is a single piece. -/
theorem pieces_name {text : Text} (name : IsName text) : pieces ⟨text⟩ = [text] := by
  -- There is nothing to split at.
  refine List.splitOnP_eq_singleton fun c member => ?_
  rw [beq_eq_false_iff_ne]
  exact fun same => name.2.1 (same ▸ member)

/-- A name as a path is a single step. -/
theorem steps_name {text : Text} (name : IsName text) : steps ⟨text⟩ = [text] := by
  -- The piece is not empty.
  rw [steps, pieces_name name]
  simp [name.1]

/-- A name as a path does not start from the root. -/
theorem isAbsolute_name {text : Text} (name : IsName text) : isAbsolute ⟨text⟩ = false := by
  -- Its first character is no separator.
  obtain ⟨c, rest, rfl⟩ := List.exists_cons_of_ne_nil name.1
  have other : '/' ≠ c := fun same => name.2.1 (List.mem_cons.2 (.inl same))
  simp [isAbsolute, List.isPrefixOf, other]

/-- A name as a path asks for no directory. -/
theorem wantsDirectory_name {text : Text} (name : IsName text) :
    wantsDirectory ⟨text⟩ = false := by
  -- Its last character is no separator.
  rw [wantsDirectory, Text.endsWith, beq_eq_false_iff_ne]
  exact fun last => name.2.1 (List.mem_of_getLast? last)

section Join

variable {base more : Path}

/-- The pieces of a joined path are those of both, but for empty ones. -/
theorem exists_pieces_join (some' : base.spelling ≠ []) (relative : more.isAbsolute = false) :
    ∃ front, front ≠ [] ∧ (base.join more).pieces = front ++ more.pieces ∧
      (base.pieces = front ∨ base.pieces = front ++ [[]]) := by
  -- A separator at the end of the base leaves an empty piece behind it.
  have cut : (fun c : Char => c == '/') '/' = true := rfl
  rw [join, relative, if_neg Bool.false_ne_true]
  have nonempty : base.spelling.isEmpty = false := by simpa using some'
  rw [nonempty, Bool.false_or]
  by_cases ends : Text.endsWith '/' base.spelling
  · rw [if_pos ends]
    obtain ⟨front, whole⟩ := List.getLast?_eq_some_iff.1 (show base.spelling.getLast? = some '/' by
      simpa [Text.endsWith] using ends)
    refine ⟨front.splitOnP (· == '/'), List.splitOnP_ne_nil _ _, ?_, .inr ?_⟩
    · rw [pieces, whole, List.append_assoc, List.singleton_append]
      exact List.splitOnP_append_cons front more.spelling cut
    · rw [pieces, whole]
      exact List.splitOnP_append_cons front [] cut
  · rw [if_neg ends]
    refine ⟨base.pieces, List.splitOnP_ne_nil _ _, ?_, .inl rfl⟩
    exact List.splitOnP_append_cons base.spelling more.spelling cut

/-- The steps of a joined path are those of both, one after the other. -/
theorem steps_join (some' : base.spelling ≠ []) (relative : more.isAbsolute = false) :
    (base.join more).steps = base.steps ++ more.steps := by
  -- Empty pieces are no steps.
  obtain ⟨front, -, joined, same | same⟩ := exists_pieces_join some' relative
  · rw [steps, joined, List.filter_append, steps, steps, same]
  · rw [steps, joined, List.filter_append, steps, steps, same, List.filter_append]
    simp

/-- A joined path begins like its base. -/
theorem anchor_join (some' : base.spelling ≠ []) (relative : more.isAbsolute = false) :
    (base.join more).anchor = base.anchor := by
  -- The first character and the first piece are those of the base.
  obtain ⟨front, nonempty, joined, same⟩ := exists_pieces_join some' relative
  obtain ⟨first, others, rfl⟩ := List.exists_cons_of_ne_nil nonempty
  have head : (base.join more).pieces.head? = base.pieces.head? := by
    rw [joined]
    rcases same with same | same <;> rw [same] <;> rfl
  have absolute : (base.join more).isAbsolute = base.isAbsolute := by
    obtain ⟨c, rest, whole⟩ := List.exists_cons_of_ne_nil some'
    rw [join, relative, if_neg Bool.false_ne_true]
    split <;> simp [isAbsolute, whole, List.isPrefixOf]
  rw [anchor, anchor, head, absolute]

/-- A joined path has a spelling. -/
theorem spelling_join (some' : base.spelling ≠ []) (relative : more.isAbsolute = false) :
    (base.join more).spelling ≠ [] := by
  -- That of the base is part of it.
  rw [join, relative, if_neg Bool.false_ne_true]
  split <;> simp [some']

/-- A joined path asks for a directory if its second part does. -/
theorem wantsDirectory_join (some' : more.spelling ≠ []) :
    (base.join more).wantsDirectory = more.wantsDirectory := by
  -- The last character is that of the second part.
  have final := List.getLast?_eq_some_getLast some'
  rw [wantsDirectory, wantsDirectory, join]
  split
  · rfl
  · split
    · simp [Text.endsWith, List.getLast?_append, final]
    · simp [Text.endsWith, List.getLast?_append, List.getLast?_cons, final]

/-- A joined path has the components of both, one after the other, if only its base has a beginning
of its own. -/
theorem components_join (start : more.anchor = []) :
    (base.join more).components = base.components ++ more.components := by
  -- Only the second part can start from the root instead.
  have relative : more.isAbsolute = false := by
    unfold anchor at start
    split at start
    · cases start
    · simp_all
  by_cases empty : base.spelling = []
  · have nothing : base.components = [] := by
      simp [components, anchor, isAbsolute, pieces, empty, List.splitOnP_nil, Component.ofPiece?]
    have whole : base.join more = more := by
      rw [join, relative, if_neg Bool.false_ne_true, empty]
      rfl
    rw [whole, nothing, List.nil_append]
  · obtain ⟨front, -, joined, same⟩ := exists_pieces_join empty relative
    rw [components, components, components, anchor_join empty relative, start, joined,
      List.filterMap_append, List.nil_append, ← List.append_assoc]
    rcases same with same | same <;> simp [same, Component.ofPiece?]

end Join

/-- A path whose components are names has no beginning of its own. -/
theorem anchor_eq_nil {path : Path} {names : List Text}
    (named : path.components = names.map .name) : path.anchor = [] := by
  -- What a path begins with is a component, and no name.
  have begins : path.anchor <+: names.map .name := ⟨_, named⟩
  unfold anchor at begins ⊢
  split
  · next absolute =>
    rw [if_pos absolute] at begins
    cases names <;> simp at begins
  · next relative =>
    rw [if_neg relative] at begins
    split
    · next current =>
      rw [if_pos current] at begins
      cases names <;> simp at begins
    · rfl

/-- A name as a path has that name as its only component. -/
theorem components_name {text : Text} (name : IsName text) :
    components ⟨text⟩ = [.name text] := by
  -- It is one piece, which is no dot.
  rw [components, anchor, isAbsolute_name name, pieces_name name]
  simp [Component.ofPiece?, name.1, name.2.2]

/-- Names behind a path are its last components. -/
theorem components_pathBelow {names : List Text} (named : ∀ name ∈ names, IsName name)
    (path : Path) :
    (FileTree.pathBelow path names).components = path.components ++ names.map .name := by
  -- Each name is joined to the path before it.
  induction names generalizing path with
  | nil => simp [FileTree.pathBelow]
  | cons name rest ih =>
    have here := components_name (named name (by simp))
    have later := ih (fun other member => named other (List.mem_cons_of_mem _ member))
      (path.join ⟨name⟩)
    have start : (Path.mk name).anchor = [] :=
      anchor_eq_nil (here.trans (List.map_singleton ..).symm)
    rw [components_join start, here] at later
    rw [FileTree.pathBelow, List.foldl_cons]
    exact later.trans (by simp)

/-- A name has an extension exactly if it is what stands behind the last dot, and something stands
in front of that dot. -/
theorem nameExtension?_eq_some {name extension : Text} :
    nameExtension? name = some extension ↔
      ∃ stem, stem ≠ [] ∧ '.' ∉ extension ∧ name = stem ++ '.' :: extension := by
  -- The extension is the run without dots at the end.
  rw [nameExtension?]
  constructor
  · intro found
    split at found
    · next long =>
      cases found
      have whole := List.takeWhile_append_dropWhile (p := (· != '.')) (l := name.reverse)
      have first := List.head?_dropWhile_not (· != '.') name.reverse
      have lengths := congrArg List.length whole
      rw [List.length_append, List.length_reverse] at lengths
      rw [List.length_reverse] at long
      obtain ⟨c, rest, behind⟩ := List.exists_cons_of_length_pos
        (show 0 < (name.reverse.dropWhile (· != '.')).length by omega)
      rw [behind, List.length_cons] at lengths
      -- The run stops at a dot, before which the stem stands.
      have dot : c = '.' := by simpa [behind] using first
      refine ⟨rest.reverse, ?_, fun inside => ?_, ?_⟩
      · rw [ne_eq, List.reverse_eq_nil_iff, ← List.length_eq_zero_iff]
        omega
      · have other := List.mem_takeWhile_imp (List.mem_reverse.1 inside)
        cases other
      · rw [behind, dot] at whole
        have reversed := congrArg List.reverse whole
        simpa using reversed.symm
    · cases found
  · -- The run is the extension, because the extension has no dot.
    rintro ⟨stem, nonempty, noDot, rfl⟩
    have noDot' : ∀ c ∈ extension.reverse, (c != '.') = true := fun c inside =>
      bne_iff_ne.2 fun same => noDot (same ▸ List.mem_reverse.1 inside)
    have stops : ∀ c, ('.' :: stem.reverse).head? = some c → (c != '.') = false := by
      intro c first
      cases first
      rfl
    have run := (Text.takeWhile_run noDot' stops).1
    have whole : (stem ++ '.' :: extension).reverse =
        extension.reverse ++ '.' :: stem.reverse := by simp
    have positive := List.length_pos_iff.2 nonempty
    rw [whole, run, List.reverse_reverse, if_pos]
    simp only [List.length_append, List.length_cons]
    omega

section Below

variable {root : Path} {names : List Text}

/-- The path of an entry below a directory has the last of its names as the name of its entry. -/
theorem fileName?_pathBelow {front : List Text} {last : Text}
    (named : ∀ name ∈ front ++ [last], IsName name) :
    (FileTree.pathBelow root (front ++ [last])).fileName? = some last := by
  -- The last component is that name.
  rw [fileName?, components_pathBelow named, List.map_append, List.map_singleton,
    ← List.append_assoc, List.getLast?_concat]

/-- The path of an entry below a directory is its names with single separators. -/
theorem relative_pathBelow (named : ∀ name ∈ names, IsName name) :
    relative root (FileTree.pathBelow root names) = ['/'].intercalate names := by
  -- The components of the directory are left out.
  rw [relative, componentsBelow, components_pathBelow named,
    if_pos (List.isPrefixOf_iff_prefix.2 (List.prefix_append _ _)), List.drop_left, List.map_map]
  exact congrArg _ (List.map_id names)

/-- The paths of different entries below a directory have different components. -/
theorem components_pathBelow_ne {names' : List Text} (named : ∀ name ∈ names, IsName name)
    (named' : ∀ name ∈ names', IsName name) (other : names ≠ names') :
    (FileTree.pathBelow root names).components ≠ (FileTree.pathBelow root names').components := by
  -- The names are their last components.
  intro same
  rw [components_pathBelow named, components_pathBelow named', List.append_right_inj] at same
  exact other (List.map_injective_iff.2 (fun _ _ => Component.name.inj) same)

end Below

/-- A path of which all names come behind those of a directory. -/
structure Under (root path : Path) : Prop where
  /-- The path goes only down. -/
  straight : path.Straight
  /-- The path begins like that of the directory. -/
  anchor : path.anchor = root.anchor

/-- A straight path that is joined to a directory is below it. -/
theorem under_join {root below : Path} (some' : root.spelling ≠ [])
    (down : ['.', '.'] ∉ root.steps) (relative : below.isAbsolute = false)
    (straight : below.Straight) : Under root (root.join below) := by
  -- The steps of the directory come first.
  obtain ⟨front, last, whole, named⟩ := straight.named
  have nonempty : below.spelling ≠ [] := by
    intro nothing
    have none' : below.steps = [] := by simp [steps, pieces, nothing, List.splitOnP_nil]
    rw [none'] at whole
    simp at whole
  refine ⟨⟨?_, ⟨root.steps ++ front, last, ?_, named⟩, ?_⟩, anchor_join some' relative⟩
  · rw [steps_join some' relative, List.mem_append, not_or]
    exact ⟨down, straight.down⟩
  · rw [steps_join some' relative, whole, List.append_assoc]
  · rw [wantsDirectory_join nonempty, straight.ends]

/-- Names behind a path are its last steps. -/
theorem steps_pathBelow {path : Path} (some' : path.spelling ≠ []) {names : List Text}
    (named : ∀ name ∈ names, IsName name) :
    (FileTree.pathBelow path names).steps = path.steps ++ names ∧
      (FileTree.pathBelow path names).anchor = path.anchor ∧
      (path.wantsDirectory = false ∨ names ≠ [] →
        (FileTree.pathBelow path names).wantsDirectory = false) := by
  -- Each name is joined to the path before it.
  induction names generalizing path with
  | nil => simp [FileTree.pathBelow]
  | cons name rest ih =>
    have here := named name (by simp)
    have relative := isAbsolute_name here
    obtain ⟨steps', anchor', ends⟩ := ih (spelling_join some' relative)
      fun other member => named other (by simp [member])
    have file : (path.join ⟨name⟩).wantsDirectory = false := by
      rw [wantsDirectory_join (show (Path.mk name).spelling ≠ [] from here.1),
        wantsDirectory_name here]
    refine ⟨?_, ?_, fun _ => ends (.inl file)⟩
    · rw [FileTree.pathBelow, List.foldl_cons]
      rw [FileTree.pathBelow] at steps'
      rw [steps', steps_join some' relative, steps_name here, List.append_assoc]
      rfl
    · rw [FileTree.pathBelow, List.foldl_cons]
      rw [FileTree.pathBelow] at anchor'
      rw [anchor', anchor_join some' relative]

/-- The path of an entry of a directory, at any depth, is below the directory. -/
theorem under_pathBelow {root : Path} (some' : root.spelling ≠ [])
    (down : ['.', '.'] ∉ root.steps) {names : List Text} (nonempty : names ≠ [])
    (named : ∀ name ∈ names, IsName name) : Under root (FileTree.pathBelow root names) := by
  -- The names are its last steps.
  obtain ⟨steps', anchor', ends⟩ := steps_pathBelow some' named
  obtain ⟨front, last, rfl⟩ := (List.eq_nil_or_concat names).resolve_left nonempty
  rw [List.concat_eq_append] at steps' named
  refine ⟨⟨fun member => ?_, ⟨root.steps ++ front, last, ?_, ?_⟩, ends (.inr nonempty)⟩, anchor'⟩
  · rw [List.concat_eq_append, steps', List.mem_append] at member
    rcases member with member | member
    · exact down member
    · exact (named _ member).2.2.2 rfl
  · rw [List.concat_eq_append, steps', List.append_assoc]
  · exact (named last (by simp)).2.2.1

/-- The components of a path that never goes up are its names behind its beginning. -/
theorem components_eq {path : Path} (down : ['.', '.'] ∉ path.steps) :
    path.components = path.anchor ++ path.names.map Component.name := by
  -- Empty pieces and dots stand for nothing.
  rw [components, names, steps]
  rw [steps] at down
  refine congrArg (path.anchor ++ ·) ?_
  generalize path.pieces = pieces at down ⊢
  induction pieces with
  | nil => rfl
  | cons piece rest ih =>
    by_cases empty : piece = []
    · subst empty
      rw [List.filter_cons_of_neg (by simp)] at down ⊢
      rw [List.filterMap_cons_none (by rfl), ih down]
    · rw [List.filter_cons_of_pos (by simpa using empty)] at down ⊢
      rw [List.mem_cons, not_or] at down
      by_cases dot : piece = ['.']
      · subst dot
        rw [List.filterMap_cons_none (by rfl), ih down.2, List.filter_cons_of_neg (by simp)]
      -- A piece that is no dots is a name.
      · have stands : Component.ofPiece? piece = some (.name piece) := by
          simp [Component.ofPiece?, empty, dot, Ne.symm down.1]
        rw [List.filterMap_cons_some stands, ih down.2,
          List.filter_cons_of_pos (by simpa using dot)]
        rfl

/-- The beginning of a path tells whether it starts from the root. -/
theorem isAbsolute_eq_anchor (path : Path) : path.isAbsolute = (path.anchor == [.root]) := by
  -- No other path begins with the root.
  unfold anchor
  split
  · next starts => simp [starts]
  · next starts => split <;> simp [starts]

/-- Two paths below one directory are the same if they have the same place. -/
theorem Under.same_iff {root left right : Path} (first : Under root left)
    (second : Under root right) (files : FileSystem) :
    left.same right ↔ files.placeOf left = files.placeOf right := by
  -- They begin alike, so that only the names count.
  have anchors : left.anchor = right.anchor := first.anchor.trans second.anchor.symm
  have absolute : left.isAbsolute = right.isAbsolute := by
    rw [isAbsolute_eq_anchor, isAbsolute_eq_anchor, anchors]
  have starts : files.startOf left = files.startOf right := by
    rw [FileSystem.startOf, FileSystem.startOf, absolute]
  rw [same, beq_iff_eq, components_eq first.straight.down, components_eq second.straight.down,
    anchors, FileSystem.placeOf, FileSystem.placeOf, starts, List.append_right_inj,
    List.append_right_inj]
  exact List.map_inj_right fun name name' equal => Component.name.inj equal

/-- A name with an extension is a name. -/
theorem isName_extended {name extension : Text} (proper : IsName name) (solid : '/' ∉ extension) :
    IsName (name ++ '.' :: extension) := by
  -- Only a dot with an empty extension would be a step up.
  obtain ⟨nonempty, single, noDot, -⟩ := proper
  obtain ⟨c, rest, rfl⟩ := List.exists_cons_of_ne_nil nonempty
  refine ⟨by simp, fun inside => ?_, by simp, fun same => ?_⟩
  · rcases List.mem_append.1 inside with inside | inside
    · exact single inside
    · exact solid (List.mem_of_ne_of_mem (by decide) inside)
  · cases rest <;> simp_all

/-- A path of names that starts nowhere leads straight down from where it is used. -/
theorem straight_pathBelow {front : List Text} {last : Text}
    (named : ∀ name ∈ front ++ [last], IsName name) :
    (FileTree.pathBelow ⟨[]⟩ (front ++ [last])).isAbsolute = false ∧
      (FileTree.pathBelow ⟨[]⟩ (front ++ [last])).Straight := by
  -- The first name is a path of its own, to which the others are joined.
  obtain ⟨first, others, whole⟩ :=
    List.exists_cons_of_ne_nil (show front ++ [last] ≠ [] by simp)
  have here := named first (by simp [whole])
  have start : (Path.mk []).join ⟨first⟩ = ⟨first⟩ := by
    rw [join, isAbsolute_name here]
    rfl
  have begins : FileTree.pathBelow ⟨[]⟩ (front ++ [last]) = FileTree.pathBelow ⟨first⟩ others := by
    rw [whole, FileTree.pathBelow, List.foldl_cons, start]
    rfl
  -- The steps of the joined path are the names.
  obtain ⟨steps, anchor, ends⟩ := steps_pathBelow (show (Path.mk first).spelling ≠ [] from here.1)
    fun name member => named name (whole ▸ List.mem_cons_of_mem _ member)
  rw [steps_name here, List.singleton_append, ← whole] at steps
  rw [begins]
  refine ⟨?_, fun member => ?_, ⟨front, last, steps, (named last (by simp)).2.2.1⟩,
    ends (.inl (wantsDirectory_name here))⟩
  · rw [isAbsolute_eq_anchor, anchor, ← isAbsolute_eq_anchor]
    exact isAbsolute_name here
  · rw [steps] at member
    exact (named _ member).2.2.2 rfl

end Path

namespace Descriptor

/-- A class descriptor whose packages and name can be the names of directories and files. -/
def IsPlaceable (descriptor : Text) : Prop :=
  -- The extension comes behind the last segment.
  ∀ segment ∈ (className descriptor).splitOnP (· == '/'),
    segment ≠ [] ∧ segment ≠ ['.'] ∧ segment ≠ ['.', '.']

/-- Whether a class can have a place is computed from its segments. -/
instance (descriptor : Text) : Decidable (IsPlaceable descriptor) :=
  -- Each segment is compared.
  inferInstanceAs (Decidable (∀ segment ∈ _, _))

/-- The segments of a class that can have a place are names, and the last one with the extension is
the name of its file. -/
theorem exists_fileNames {descriptor extension : Text} (placeable : IsPlaceable descriptor)
    (solid : '/' ∉ extension) :
    ∃ packages last, (className descriptor).splitOnP (· == '/') = packages ++ [last] ∧
      (∀ name ∈ packages ++ [last ++ '.' :: extension], Path.IsName name) ∧
      (isClass descriptor → classPath descriptor extension =
        .ok (FileTree.pathBelow ⟨[]⟩ (packages ++ [last ++ '.' :: extension]))) := by
  -- No separator is part of a segment.
  have named : ∀ segment ∈ (className descriptor).splitOnP (· == '/'), Path.IsName segment :=
    fun segment member => ⟨(placeable segment member).1, fun inside =>
      absurd (Text.mem_of_mem_splitOnP member _ inside).2 (by decide),
      (placeable segment member).2⟩
  obtain ⟨packages, last, segments⟩ := (List.eq_nil_or_concat
    ((className descriptor).splitOnP (· == '/'))).resolve_left (List.splitOnP_ne_nil _ _)
  rw [List.concat_eq_append] at segments
  rw [segments] at named
  refine ⟨packages, last, segments, List.forall_mem_append.2 ⟨?_, List.forall_mem_singleton.2 ?_⟩,
    fun isClass => ?_⟩
  · exact fun name member => named name (List.mem_append_left _ member)
  · exact Path.isName_extended (named last (by simp)) solid
  · rw [classPath, if_pos isClass, segments, FileTree.pathBelow, List.foldl_append]
    simp only [List.dropLast_concat, List.getLast?_concat, Option.getD_some, List.foldl_cons,
      List.foldl_nil]

/-- The place of a class is given by names alone. -/
theorem straight_classPath {descriptor extension : Text} {below : Path}
    (placeable : IsPlaceable descriptor) (solid : '/' ∉ extension)
    (done : classPath descriptor extension = .ok below) :
    below.isAbsolute = false ∧ below.Straight := by
  -- Only a class has a place.
  obtain ⟨packages, last, -, named, place⟩ := exists_fileNames placeable solid
  by_cases isClass : isClass descriptor
  · rw [place isClass, Except.ok.injEq] at done
    rw [← done]
    exact Path.straight_pathBelow named
  · rw [classPath, if_neg isClass] at done
    exact absurd done refuse_ne_ok

end Descriptor

end Smali
