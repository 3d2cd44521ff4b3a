import HornResolution.Misuse

/-!
# Vocabulary

A vocabulary is the table of interned names together with the table of
allocated variables, each of which remembers the symbol of its display name.
Both tables only grow, and a number once handed out keeps its meaning. Every
operation hands back the vocabulary it leaves, also when it fails.
-/

namespace HornResolution

structure Vocabulary where
  /-- The name of symbol `i` stands at position `i`. -/
  names : Array String := #[]
  /-- The display name of variable `i` is the symbol at position `i`. -/
  varNames : Array Symbol := #[]
  /-- The number with which the next made-up name is first tried. -/
  generated : Nat := 0
deriving DecidableEq

namespace Vocabulary

def empty : Vocabulary := {}

def symbolCount (V : Vocabulary) : Nat := V.names.size

def varCount (V : Vocabulary) : Nat := V.varNames.size

def knowsSymbol (V : Vocabulary) (s : Symbol) : Bool := s.id < V.symbolCount

def knowsVar (V : Vocabulary) (v : Var) : Bool := v.id < V.varCount

/-- The symbol of a name, if the name was interned. -/
def find? (V : Vocabulary) (name : String) : Option Symbol :=
  (V.names.toList.findIdx? (· == name)).map Symbol.mk

def contains (V : Vocabulary) (name : String) : Bool := (V.find? name).isSome

def name? (V : Vocabulary) (s : Symbol) : Option String := V.names[s.id]?

def varSymbol? (V : Vocabulary) (v : Var) : Option Symbol := V.varNames[v.id]?

def varName? (V : Vocabulary) (v : Var) : Option String :=
  (V.varSymbol? v).bind V.name?

/-- Symbols compare as their names do, code point by code point. -/
def compare? (V : Vocabulary) (s t : Symbol) : Option Ordering :=
  match V.name? s, V.name? t with
  | some x, some y => some (compare x y)
  | _, _ => none

/-- The symbol of a name, which is added to the table if it is new. -/
def intern (V : Vocabulary) (name : String) : Except Misuse Symbol × Vocabulary :=
  if name = "" then (.error .emptyName, V)
  else match V.find? name with
    | some s => (.ok s, V)
    | none => (.ok ⟨V.symbolCount⟩, { V with names := V.names.push name })

/-- One more variable whose display name is the given symbol. -/
def allocate (V : Vocabulary) (s : Symbol) : Var × Vocabulary :=
  (⟨V.varCount⟩, { V with varNames := V.varNames.push s })

@[simp] theorem varCount_allocate (V : Vocabulary) (s : Symbol) :
    (V.allocate s).2.varCount = V.varCount + 1 := by
  simp [allocate, varCount]

@[simp] theorem varSymbol?_allocate (V : Vocabulary) (s : Symbol) :
    (V.allocate s).2.varSymbol? (V.allocate s).1 = some s := by
  simp [allocate, varSymbol?, varCount]

theorem varSymbol?_allocate_of_knows {V : Vocabulary} {v : Var} (h : V.knowsVar v)
    (s : Symbol) : (V.allocate s).2.varSymbol? v = V.varSymbol? v := by
  have hv : v.id < V.varNames.size := of_decide_eq_true h
  simp [allocate, varSymbol?, Array.getElem?_push, Nat.ne_of_lt hv]

def declare (V : Vocabulary) (name : String) : Except Misuse Var × Vocabulary :=
  match V.intern name with
  | (.error e, V') => (.error e, V')
  | (.ok s, V') => (.ok (V'.allocate s).1, (V'.allocate s).2)

/-- A new variable with the display name of a known one. -/
def copyVar (V : Vocabulary) (like : Var) : Except Misuse Var × Vocabulary :=
  match V.varSymbol? like with
  | none => (.error (.unknownVariable like), V)
  | some s => (.ok (V.allocate s).1, (V.allocate s).2)

/-- The least number from `start` on that gives `stem` an unused name, looked for
among `rounds` numbers. -/
def unusedNumber (V : Vocabulary) (stem : String) : (rounds start : Nat) → Nat
  | 0, n => n
  | rounds + 1, n =>
    if V.contains (stem ++ toString n) then V.unusedNumber stem rounds (n + 1) else n

/-- A symbol of an unused name, which is the stem followed by a number. There are
fewer taken names than rounds, so the number found is unused. -/
def coin (V : Vocabulary) (stem : String) : Except Misuse Symbol × Vocabulary :=
  if stem = "" then (.error .emptyName, V)
  else
    let n := V.unusedNumber stem (V.symbolCount + 1) V.generated
    { V with generated := n + 1 }.intern (stem ++ toString n)

end Vocabulary

end HornResolution
