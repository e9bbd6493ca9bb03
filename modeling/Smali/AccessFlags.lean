import Smali.Text.Basic

/-! Modifier words stand for access flags, and a list of words for all the flags that it names. -/

namespace Smali

/-- A set of access flags, one bit for each. -/
structure AccessFlags where
  /-- The bits that are set. -/
  bits : UInt32
  deriving DecidableEq, Repr

namespace AccessFlags

/-- The set without any flag. -/
def none : AccessFlags :=
  -- No bit is set.
  ⟨0⟩

/-- The flags that are in either of two sets. -/
def union (left right : AccessFlags) : AccessFlags :=
  -- A bit is set when it is set on either side.
  ⟨left.bits ||| right.bits⟩

/-- A set holds every flag of another one. -/
def contains (flags wanted : AccessFlags) : Bool :=
  -- No wanted bit may be lost by keeping only the bits that are set.
  flags.bits &&& wanted.bits == wanted.bits

/-- Marks a member that belongs to its class and not to an object. -/
def staticFlag : AccessFlags :=
  -- This is the fourth bit.
  ⟨0x8⟩

/-- Marks what may not be changed or overridden. -/
def finalFlag : AccessFlags :=
  -- This is the fifth bit.
  ⟨0x10⟩

/-- The modifier words with their flags; some bits have one word for fields and one for methods. -/
def keywords : List (String × UInt32) :=
  -- The order is that of the bits.
  [("public", 0x1), ("private", 0x2), ("protected", 0x4), ("static", 0x8), ("final", 0x10),
    ("synchronized", 0x20), ("volatile", 0x40), ("bridge", 0x40), ("transient", 0x80),
    ("varargs", 0x80), ("native", 0x100), ("interface", 0x200), ("abstract", 0x400),
    ("strictfp", 0x800), ("strict", 0x800), ("synthetic", 0x1000), ("annotation", 0x2000),
    ("enum", 0x4000), ("constructor", 0x10000), ("declared-synchronized", 0x20000)]

/-- The flag that a modifier word stands for. -/
def ofKeyword? (word : Text) : Option AccessFlags :=
  -- A word that is not listed stands for no flag.
  (keywords.find? fun entry => entry.1.toList == word).map fun entry => ⟨entry.2⟩

/-- All the flags that a list of modifier words names. -/
def ofModifiers (words : List Text) : AccessFlags :=
  -- Words that name no flag are passed over.
  (words.filterMap ofKeyword?).foldl union none

end AccessFlags

end Smali
