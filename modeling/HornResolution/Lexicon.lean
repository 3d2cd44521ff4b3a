import HornResolution.Vocabulary

/-!
# Lexicon

A lexicon is a vocabulary as it is stored. Its names stand in two tables, one
that gives the name of a number and one that gives the number of a name, and
an interned name is entered into both. Numbers are words of 32 bits: the size of
a table is cut down to a word when it becomes the number of the next entry, and
the counter of the made-up names starts over behind the last word.
-/

namespace HornResolution

structure NameTable where
  /-- The name of number `i` stands at position `i`. -/
  strings : Array String := #[]
  /-- The number of a name is that of its latest entry. -/
  numbers : List (String × UInt32) := []
deriving DecidableEq

namespace NameTable

def get? (T : NameTable) (name : String) : Option UInt32 := T.numbers.lookup name

/-- The number of a name, which is entered into both tables if it is new. -/
def intern (T : NameTable) (name : String) : UInt32 × NameTable :=
  match T.get? name with
  | some i => (i, T)
  | none =>
    let i := T.strings.size.toUInt32
    (i, { strings := T.strings.push name, numbers := (name, i) :: T.numbers })

end NameTable

structure Lexicon where
  symbols : NameTable := {}
  /-- The display name of variable `i` is the symbol at position `i`. -/
  varNames : Array Symbol := #[]
  /-- The number with which the next made-up name is first tried. -/
  generated : UInt32 := 0
deriving DecidableEq

namespace Lexicon

def empty : Lexicon := {}

def symbolCount (L : Lexicon) : Nat := L.symbols.strings.size

def varCount (L : Lexicon) : Nat := L.varNames.size

def find? (L : Lexicon) (name : String) : Option Symbol :=
  (L.symbols.get? name).map fun i => ⟨i.toNat⟩

def contains (L : Lexicon) (name : String) : Bool := (L.symbols.get? name).isSome

def name? (L : Lexicon) (s : Symbol) : Option String := L.symbols.strings[s.id]?

def varSymbol? (L : Lexicon) (v : Var) : Option Symbol := L.varNames[v.id]?

def varName? (L : Lexicon) (v : Var) : Option String :=
  (L.varSymbol? v).bind L.name?

def compare? (L : Lexicon) (s t : Symbol) : Option Ordering :=
  match L.name? s, L.name? t with
  | some x, some y => some (compare x y)
  | _, _ => none

def intern (L : Lexicon) (name : String) : Except Misuse Symbol × Lexicon :=
  if name = "" then (.error .emptyName, L)
  else
    let (i, T) := L.symbols.intern name
    (.ok ⟨i.toNat⟩, { L with symbols := T })

def allocate (L : Lexicon) (s : Symbol) : Var × Lexicon :=
  (⟨L.varNames.size.toUInt32.toNat⟩, { L with varNames := L.varNames.push s })

def declare (L : Lexicon) (name : String) : Except Misuse Var × Lexicon :=
  match L.intern name with
  | (.error e, L') => (.error e, L')
  | (.ok s, L') => (.ok (L'.allocate s).1, (L'.allocate s).2)

def copyVar (L : Lexicon) (like : Var) : Except Misuse Var × Lexicon :=
  match L.varSymbol? like with
  | none => (.error (.unknownVariable like), L)
  | some s => (.ok (L.allocate s).1, (L.allocate s).2)

/-- The name that a stem is tried with next. -/
def attempt (L : Lexicon) (stem : String) : String := stem ++ toString L.generated.toNat

/-- Leaves the number of an attempt behind. -/
def advance (L : Lexicon) : Lexicon := { L with generated := L.generated + 1 }

/-- Tries the stem with one number after the other until the name is unused. After
the given number of taken names the next one is interned as it is. -/
def coinAfter (stem : String) : (taken : Nat) → Lexicon → Except Misuse Symbol × Lexicon
  | 0, L => L.advance.intern (L.attempt stem)
  | taken + 1, L =>
    if L.advance.contains (L.attempt stem) then coinAfter stem taken L.advance
    else L.advance.intern (L.attempt stem)

/-- A symbol of an unused name, which is the stem followed by a number. No more
names are taken than there are symbols. -/
def coin (L : Lexicon) (stem : String) : Except Misuse Symbol × Lexicon :=
  if stem = "" then (.error .emptyName, L) else coinAfter stem L.symbolCount L

end Lexicon

end HornResolution
