import Smali.Method
import Smali.Proofs.Attempt
import Smali.Proofs.ClassText.Members
import Smali.Proofs.Descriptor
import Smali.Proofs.Text.Comment

/-! The signature of a method is the last word of its header, whatever body follows. -/

namespace Smali

namespace Method

/-- A signature is parted at its first parenthesis and the first closing one behind it, and the
return type uses up the rest. -/
theorem partSignature_eq_some {word name parameterRun returnType : Text} :
    partSignature word = some (name, parameterRun, returnType) ↔
      word = name ++ '(' :: parameterRun ++ ')' :: returnType ∧ '(' ∉ name ∧
        ')' ∉ parameterRun ∧ Descriptor.splitReturn returnType = some (returnType, []) := by
  -- Both parentheses are the first of their kind.
  simp only [partSignature, Option.bind_eq_bind, Option.bind_eq_some_iff]
  constructor
  · rintro ⟨⟨first, rest⟩, split, ⟨second, last⟩, split', found⟩
    have whole := Text.eq_of_splitOnce split
    have whole' := Text.eq_of_splitOnce split'
    have open' := Text.not_mem_of_splitOnce split
    have close := Text.not_mem_of_splitOnce split'
    simp only at whole whole' found open' close
    split at found
    · next returned taken =>
      cases found
      have type := (Descriptor.splitReturn_eq_some.1 taken).2
      rw [List.append_nil] at type
      subst type
      exact ⟨by rw [whole, whole']; simp, open', close, taken⟩
    · cases found
  · -- The name has no opening and the run no closing parenthesis, so that the word is parted there.
    rintro ⟨rfl, open', close, returned⟩
    refine ⟨(name, parameterRun ++ ')' :: returnType), ?_, (parameterRun, returnType),
      Text.splitOnce_char close returnType, by simp [returned]⟩
    rw [List.append_assoc, List.cons_append]
    exact Text.splitOnce_char open' _

/-- A method is read exactly if its header has the directive, the last word behind it parts into a
name, parameters and a return type, and the parameters are types. -/
theorem parse_eq_ok {owner line body : Text} {method : Method} :
    parse owner line body = .ok method ↔
      ∃ rest word modifiers name parameterRun returnType parameters,
        Text.afterPrefix? ".method".toList (Text.codePart (Text.trim line)) = some rest ∧
        (Text.words rest).reverse = word :: modifiers ∧
        partSignature word = some (name, parameterRun, returnType) ∧ name.isEmpty = false ∧
        Descriptor.segment parameterRun = .ok parameters ∧
        method = ⟨owner, modifiers.reverse, name, parameterRun, parameters, returnType, body,
          false⟩ := by
  -- The checks are made one after the other.
  unfold parse
  dsimp only
  constructor
  · -- The parsing that has not been refused has passed each check.
    intro done
    cases found : Text.afterPrefix? ".method".toList (Text.codePart (Text.trim line)) with
    | none =>
      rw [found] at done
      exact absurd done refuse_ne_ok
    | some rest =>
      simp only [found] at done
      cases reversed : (Text.words rest).reverse with
      | nil =>
        rw [reversed] at done
        exact absurd done refuse_ne_ok
      | cons word modifiers =>
        simp only [reversed] at done
        cases parted : partSignature word with
        | none =>
          rw [parted] at done
          exact absurd done refuse_ne_ok
        | some parts =>
          obtain ⟨name, parameterRun, returnType⟩ := parts
          simp only [parted] at done
          by_cases empty : name.isEmpty
          · rw [if_pos empty] at done
            exact absurd done refuse_ne_ok
          · rw [if_neg empty, bind_eq_ok] at done
            obtain ⟨parameters, segmented, same⟩ := done
            exact ⟨rest, word, modifiers, name, parameterRun, returnType, parameters, rfl, reversed,
              parted, by simpa using empty, concerning_eq_ok.1 segmented,
              (pure_eq_ok.1 same).symm⟩
  · -- With all checks passed the result can be computed.
    rintro ⟨rest, word, modifiers, name, parameterRun, returnType, parameters, found, reversed,
      parted, named, segmented, rfl⟩
    simp only [found, reversed, parted, named, segmented]
    rfl

/-- A header that is read for one class and body is read for every class and body. -/
theorem parse_elsewhere {owner line body : Text} {method : Method}
    (done : parse owner line body = .ok method) (owner' body' : Text) :
    parse owner' line body' = .ok { method with owner := owner', body := body' } := by
  -- The class and the body are only carried along.
  obtain ⟨rest, word, modifiers, name, parameterRun, returnType, parameters, found, reversed,
    parted, named, segmented, rfl⟩ := parse_eq_ok.1 done
  exact parse_eq_ok.2 ⟨rest, word, modifiers, name, parameterRun, returnType, parameters, found,
    reversed, parted, named, segmented, rfl⟩

/-- What a header that is read says. -/
theorem exists_of_parse {owner line body : Text} {method : Method}
    (done : parse owner line body = .ok method) :
    ∃ rest, Text.codePart (Text.trim line) = ".method".toList ++ rest ∧
      Text.words rest = method.modifiers ++ [method.signature] ∧ method.body = body ∧
      method.dirty = false ∧
      ∀ other, parse owner line other = .ok { method with body := other } := by
  -- The parts of the last word make up the signature.
  have elsewhere := parse_elsewhere done owner
  obtain ⟨rest, word, modifiers, name, parameterRun, returnType, parameters, found, reversed,
    parted, -, -, rfl⟩ := parse_eq_ok.1 done
  refine ⟨rest, Text.afterPrefix?_eq_some.1 found, ?_, rfl, rfl, elsewhere⟩
  have word' := (partSignature_eq_some.1 parted).1
  rw [← List.reverse_reverse (Text.words rest), reversed, List.reverse_cons, word']
  simp [signature, methodRef, MethodRef.member, prototype]

/-- The signature of a method that is read is the last word of its header. -/
theorem signature_of_parse {owner header body : Text} {method : Method}
    (opened : Text.tells ".method".toList header)
    (done : parse owner (Text.trim header) body = .ok method) :
    (Text.words (Text.codePart (Text.trim header))).getLast? = some method.signature := by
  -- A blank keeps the directive apart from the other words.
  obtain ⟨rest, whole, words, -⟩ := exists_of_parse done
  rw [Text.trim_trim] at whole
  have beginning : Text.codePart (Text.trim header) <+: Text.trim header := by
    have cut := Text.trimEnd_append_trailing (Text.beforeComment .outside (Text.trim header))
    exact List.IsPrefix.trans ⟨_, cut⟩ (Text.beforeComment_prefix _ _)
  obtain ⟨behind, said, apart⟩ := Text.exists_of_opens opened
  cases rest with
  | nil => simp at words
  | cons c rest =>
    -- Behind the directive the line goes on with a blank, and so does its part before a comment.
    have blank : Text.isBlank c := by
      rw [whole, said] at beginning
      have inside := (List.prefix_append_right_inj _).1 beginning
      obtain ⟨others, same⟩ := inside
      exact apart c (by rw [← same]; rfl)
    rw [whole, Text.words_append_cons blank]
    have words' : Text.words rest = method.modifiers ++ [method.signature] := by
      rw [← words]
      have lead : ∀ d ∈ [c], Text.isBlank d := by simpa using blank
      exact (Text.words_append_lead lead rest).symm
    rw [words', ← List.append_assoc, List.getLast?_concat]

/-- A declaration is the directive, a space and the other words. -/
theorem declaration_eq (method : Method) : method.declaration =
    ".method".toList ++ ' ' :: [' '].intercalate (method.modifiers ++ [method.signature]) := by
  -- There is at least the signature.
  obtain ⟨word, rest, listed⟩ := List.exists_cons_of_ne_nil
    (List.append_ne_nil_of_right_ne_nil method.modifiers (List.cons_ne_nil method.signature []))
  rw [declaration, List.cons_append, listed, List.intercalate_cons_cons]
  rfl

section

variable {owner line body : Text} {method : Method} (done : parse owner line body = .ok method)

include done

/-- The modifiers and the signature of a method that is read are words. -/
theorem solid_of_parse :
    ∀ word ∈ method.modifiers ++ [method.signature], word ≠ [] ∧ Text.Solid word := by
  -- They are words of the header.
  obtain ⟨rest, -, words, -⟩ := exists_of_parse done
  exact fun word member => Text.solid_of_mem_words (words ▸ member)

/-- The declaration of a method that is read ends with no blank. -/
theorem visible_of_parse {c : Char} (last : method.declaration.getLast? = some c) :
    Text.isBlank c = false := by
  -- Its last word is the signature.
  obtain ⟨nonempty, solid⟩ := solid_of_parse done method.signature (by simp)
  rw [declaration, Text.getLast?_intercalate nonempty] at last
  exact solid c (List.mem_of_getLast? last)

/-- The declaration of a method that is read has no comment and no blank at its ends. -/
theorem codePart_declaration :
    Text.codePart (Text.trim method.declaration) = method.declaration := by
  -- Its words have been read outside of comments.
  obtain ⟨rest, whole, words, -⟩ := exists_of_parse done
  have uncommented : Text.Uncommented .outside method.declaration := by
    have code := Text.uncommented_codePart (Text.trim line)
    rw [whole, Text.uncommented_append] at code
    rw [declaration_eq, ← words, Text.uncommented_append, Text.uncommented_blank (by decide)]
    exact ⟨code.1, code.2.intercalate_words (by decide)⟩
  have trimmed : Text.trim method.declaration = method.declaration := by
    refine Text.trim_eq_self (fun c first => ?_) fun c => visible_of_parse done
    rw [declaration_eq] at first
    cases first
    decide
  rw [trimmed, Text.codePart, uncommented, Text.trimEnd_eq_self fun c => visible_of_parse done]

/-- The declaration of a method that is read is read as that method. -/
theorem parse_declaration : parse owner method.declaration body = .ok method := by
  -- It has the words of the header that was read.
  have code := codePart_declaration done
  obtain ⟨rest, whole, words, -⟩ := exists_of_parse done
  obtain ⟨rest', word, modifiers, name, parameterRun, returnType, parameters, found, reversed,
    parted, named, segmented, same⟩ := parse_eq_ok.1 done
  rw [Text.afterPrefix?_eq_some.1 found, List.append_cancel_left_eq] at whole
  refine parse_eq_ok.2 ⟨' ' :: [' '].intercalate (Text.words rest), word, modifiers, name,
    parameterRun, returnType, parameters, ?_, ?_, parted, named, segmented, same⟩
  · rw [code, Text.afterPrefix?_eq_some, words, declaration_eq]
  · have lead : ∀ c ∈ [' '], Text.isBlank c := by decide
    rw [← List.singleton_append, Text.words_append_lead lead,
      Text.words_intercalate fun word => Text.solid_of_mem_words, ← whole, reversed]

/-- The lines of a method that is read are its declaration, those of its body and the terminator. -/
theorem lines_toText (closed : body = [] ∨ Text.Closed body) :
    (Text.lines method.toText).map Line.content =
      method.declaration :: (Text.lines body).map Line.content ++ [".end method".toList] := by
  -- The declaration is on one line, and the last line of the body is closed.
  have body' : method.body = body := (exists_of_parse done).choose_spec.2.2.1
  have single : '\n' ∉ method.declaration := by
    refine Text.open_intercalate fun word member => ?_
    rw [List.cons_append, List.mem_cons] at member
    rcases member with rfl | member
    · decide
    · exact (solid_of_parse done word member).2
  have whole : method.toText =
      (method.declaration ++ ['\n']) ++ (body ++ ".end method\n".toList) := by
    rw [toText, body']
    simp
  have first : Text.Closed (method.declaration ++ ['\n']) := List.getLast?_concat
  have kept : Text.dropFinal '\r' (Text.dropFinal '\n' (method.declaration ++ ['\n'])) =
      method.declaration := by
    -- The declaration ends visibly, so that no return character is lost with the line feed.
    have return' : method.declaration.getLast? ≠ some '\r' := fun last =>
      absurd (visible_of_parse done last) (by decide)
    simp [Text.dropFinal, Text.endsWith, return']
  rw [Text.map_content_lines, Text.map_content_lines, whole, Text.pieces_append (.inr first),
    Text.pieces_append closed, Text.pieces_of_isPiece (Text.isPiece_feed single)]
  simp only [List.singleton_append, List.map_cons, List.map_append, kept]
  rfl

end

/-- What a method that is read says of its parameters, its signature and its name agrees with the
header, its declaration is read as the method, and it is written with the body that was read. -/
theorem reread_declaration {owner line body : Text} {method : Method}
    (done : parse owner line body = .ok method) :
    method.parameters.flatten = method.parameterRun ∧
    (∃ rest, Text.codePart (Text.trim line) = ".method".toList ++ rest ∧
      (Text.words rest).getLast? = some method.signature) ∧
    method.name ≠ [] ∧ '(' ∈ method.signature ∧
    method.name = method.signature.takeWhile (fun c => c != '(') ∧
    parse owner method.declaration body = .ok method ∧
    (body = [] ∨ Text.Closed body → (Text.lines method.toText).map Line.content =
      method.declaration :: (Text.lines body).map Line.content ++ [".end method".toList]) := by
  -- The name and the parameters are parts of the last word.
  have again := parse_declaration done
  have lines := lines_toText done
  obtain ⟨rest, whole, words, -⟩ := exists_of_parse done
  obtain ⟨rest', word, modifiers, name, parameterRun, returnType, parameters, -, -, parted, named,
    segmented, same⟩ := parse_eq_ok.1 done
  have noParen : ∀ c ∈ method.name, c != '(' := by
    rw [same]
    have absent := (partSignature_eq_some.1 parted).2.1
    exact fun c inside => bne_iff_ne.2 fun paren => absent (paren ▸ inside)
  have signature : method.signature =
      method.name ++ '(' :: (method.parameterRun ++ ')' :: method.returnType) := rfl
  refine ⟨?_, ⟨rest, whole, by rw [words, List.getLast?_concat]⟩, ?_, by simp [signature], ?_,
    again, lines⟩
  · have flat := (Descriptor.splitTypes_append (Descriptor.segment_eq_ok.1 segmented)).1
    rw [same, flat, List.append_nil]
  · rw [same]
    simpa using named
  · rw [signature, (Text.takeWhile_run noParen (by simp)).1]

/-- A header with literals across its words, and with a comment that looks like a signature. -/
def headerSample : Text :=
  -- The first backslash stands before a blank, and marks stand in both literals.
  "\t.method static \"a \\  # b\"\n c\"#\"(I[Lx;)V # d(J)V ".toList

/-- The sample is read again without its comment, and written with its body. -/
theorem reread_declaration_sample : ∃ method,
    parse "Ly;".toList headerSample "nop\r\n\n nop\n".toList = .ok method ∧
    method.parameters = [['I'], "[Lx;".toList] ∧
    method.parameters.flatten = method.parameterRun ∧ method.name = "c\"#\"".toList ∧
    method.declaration = ".method static \"a \\ # b\" c\"#\"(I[Lx;)V".toList ∧
    parse "Ly;".toList method.declaration "nop\r\n\n nop\n".toList = .ok method ∧
    (Text.lines method.toText).map Line.content =
      [".method static \"a \\ # b\" c\"#\"(I[Lx;)V".toList, "nop".toList, [], " nop".toList,
        ".end method".toList] := by
  -- The header is read, and the body is closed.
  have done : parse "Ly;".toList headerSample "nop\r\n\n nop\n".toList =
      .ok ⟨"Ly;".toList, ["static".toList, "\"a".toList, ['\\'], ['#'], "b\"".toList],
        "c\"#\"".toList, "I[Lx;".toList, [['I'], "[Lx;".toList], ['V'],
        "nop\r\n\n nop\n".toList, false⟩ := by
    decide +kernel
  obtain ⟨flat, -, -, -, -, again, lines⟩ := reread_declaration done
  have written := lines (.inr (by decide))
  refine ⟨_, done, rfl, flat, rfl, by decide +kernel, again, written.trans ?_⟩
  decide +kernel

end Method

end Smali
