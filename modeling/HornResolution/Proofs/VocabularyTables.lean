import HornResolution.Proofs.ErrorFreedom

/-!
# The tables of a vocabulary

A vocabulary is asked to intern names, to declare variables, to copy variables and to make up
names, in any order and with any arguments, and requests that it refuses are among them. Its
tables stay consistent all the while. Names and symbols determine each other, a variable has a
name as soon as it has a number, and what was handed out once means the same for ever: entries are
only ever added at the ends of the tables.
-/

namespace HornResolution

namespace Vocabulary

/-- The requests by which the tables grow. -/
inductive Request where
  | intern (name : String)
  | declare (name : String)
  | copyVar (like : Var)
  | coin (stem : String)

inductive Reply where
  | symbol (s : Symbol)
  | var (v : Var)
  | refused (e : Misuse)

def Reply.var? : Reply → Option Var
  | .var v => some v
  | _ => none

def Reply.ofResult {α : Type} (reply : α → Reply) : Except Misuse α → Reply
  | .ok a => reply a
  | .error e => .refused e

end Vocabulary

/-- Tables that grow by requests. An operation hands back the tables it leaves, also when it
fails. -/
class Registry (σ : Type) where
  intern : σ → String → Except Misuse Symbol × σ
  declare : σ → String → Except Misuse Var × σ
  copyVar : σ → Var → Except Misuse Var × σ
  coin : σ → String → Except Misuse Symbol × σ

namespace Registry

variable {σ : Type} [Registry σ]

def serve (S : σ) : Vocabulary.Request → Vocabulary.Reply × σ
  | .intern name => (intern S name).map (.ofResult .symbol) id
  | .declare name => (declare S name).map (.ofResult .var) id
  | .copyVar like => (copyVar S like).map (.ofResult .var) id
  | .coin stem => (coin S stem).map (.ofResult .symbol) id

/-- The replies to a list of requests, and the tables after the last of them. -/
def serveAll : List Vocabulary.Request → σ → List Vocabulary.Reply × σ
  | [], S => ([], S)
  | r :: rs, S =>
    let (replies, S') := serveAll rs (serve S r).2
    ((serve S r).1 :: replies, S')

theorem serveAll_append (earlier later : List Vocabulary.Request) (S : σ) :
    (serveAll (earlier ++ later) S).2 = (serveAll later (serveAll earlier S).2).2 := by
  induction earlier generalizing S with
  | nil => rfl
  | cons r earlier ih => exact ih (serve S r).2

end Registry

instance : Registry Vocabulary where
  intern := Vocabulary.intern
  declare := Vocabulary.declare
  copyVar := Vocabulary.copyVar
  coin := Vocabulary.coin

namespace Vocabulary

open Registry

section Lookup

variable {V : Vocabulary} {name : String} {s : Symbol} {v : Var}

theorem name?_of_find? (h : V.find? name = some s) : V.name? s = some name := by
  obtain ⟨i, hi, rfl⟩ := Option.map_eq_some_iff.mp h
  obtain ⟨hlt, heq, -⟩ := List.findIdx?_eq_some_iff_getElem.mp hi
  have hlt' : i < V.names.size := by simpa using hlt
  have hname : V.names[i] = name := by simpa using heq
  rw [name?, Array.getElem?_eq_getElem hlt', hname]

theorem not_mem_of_find?_eq_none (h : V.find? name = none) : name ∉ V.names.toList := by
  intro hmem
  have hnone := List.findIdx?_eq_none_iff.mp (Option.map_eq_none_iff.mp h) name hmem
  simp at hnone

theorem knowsSymbol_iff : V.knowsSymbol s = true ↔ s.id < V.symbolCount := decide_eq_true_iff

theorem knowsSymbol_of_name? (h : V.name? s = some name) : V.knowsSymbol s = true :=
  knowsSymbol_iff.mpr (Array.getElem?_eq_some_iff.mp h).1

theorem exists_name? (h : V.knowsSymbol s = true) : ∃ name, V.name? s = some name :=
  ⟨_, Array.getElem?_eq_getElem (knowsSymbol_iff.mp h)⟩

end Lookup

/-- No name is empty, none was interned twice, and the display name of every variable was
interned. -/
structure Consistent (V : Vocabulary) : Prop where
  nonempty : ∀ name ∈ V.names.toList, name ≠ ""
  nodup : V.names.toList.Nodup
  coherent : V.Coherent

theorem consistent_empty : empty.Consistent :=
  ⟨by simp [empty], by simp [empty], by simp [Coherent, empty]⟩

namespace Consistent

variable {V : Vocabulary} {name : String} {a b s : Symbol} {v : Var}

theorem symbol_unique (hV : V.Consistent) (ha : V.name? a = some name)
    (hb : V.name? b = some name) : a = b := by
  rw [name?, ← Array.getElem?_toList] at ha hb
  have hlt : a.id < V.names.toList.length := (List.getElem?_eq_some_iff.mp ha).1
  have hids : a.id = b.id := (List.getElem?_inj hlt hV.nodup).mp (ha.trans hb.symm)
  obtain ⟨i⟩ := a
  exact congrArg Symbol.mk hids

/-- Looking up a name and resolving a symbol are inverse to each other. -/
theorem find?_eq_some_iff (hV : V.Consistent) : V.find? name = some s ↔ V.name? s = some name := by
  refine ⟨name?_of_find?, fun h => ?_⟩
  cases hfind : V.find? name with
  | none =>
    have hmem : name ∈ V.names.toList := Array.mem_toList_iff.mpr (Array.mem_of_getElem? h)
    exact absurd hmem (not_mem_of_find?_eq_none hfind)
  | some t => rw [hV.symbol_unique (name?_of_find? hfind) h]

theorem compare?_eq_iff (hV : V.Consistent) (ha : V.knowsSymbol a = true)
    (hb : V.knowsSymbol b = true) : V.compare? a b = some .eq ↔ a = b := by
  obtain ⟨x, hx⟩ := exists_name? ha
  obtain ⟨y, hy⟩ := exists_name? hb
  rw [compare?, hx, hy, Option.some.injEq, Std.compare_eq_iff_eq]
  constructor
  · rintro rfl
    exact hV.symbol_unique hx hy
  · rintro rfl
    exact Option.some.inj (hx.symm.trans hy)

theorem varName?_isSome_iff (hV : V.Consistent) : (V.varName? v).isSome ↔ v.id < V.varCount := by
  constructor
  · intro h
    by_contra hlt
    have hnone : V.varSymbol? v = none := Array.getElem?_eq_none (Nat.not_lt.mp hlt)
    simp [varName?, hnone] at h
  · intro hlt
    have hsymbol : V.varSymbol? v = some V.varNames[v.id] := Array.getElem?_eq_getElem hlt
    obtain ⟨name, hname⟩ := exists_name? (hV.coherent _ (Array.getElem_mem hlt))
    simp [varName?, hsymbol, hname]

end Consistent

section Growing

variable {V V' V'' : Vocabulary} {name : String} {s : Symbol} {v : Var}

/-- Entries were added at the ends of the tables. -/
structure Grows (V V' : Vocabulary) : Prop where
  names : V.names.toList <+: V'.names.toList
  varNames : V.varNames.toList <+: V'.varNames.toList

theorem Grows.refl (V : Vocabulary) : V.Grows V := ⟨List.prefix_rfl, List.prefix_rfl⟩

theorem Grows.trans (h : V.Grows V') (h' : V'.Grows V'') : V.Grows V'' :=
  ⟨h.names.trans h'.names, h.varNames.trans h'.varNames⟩

theorem Grows.symbolCount_le (h : V.Grows V') : V.symbolCount ≤ V'.symbolCount := by
  simpa [symbolCount] using h.names.length_le

theorem Grows.varCount_le (h : V.Grows V') : V.varCount ≤ V'.varCount := by
  simpa [varCount] using h.varNames.length_le

theorem getElem?_of_prefix {α : Type} {xs ys : Array α} {i : ℕ} {x : α}
    (h : xs.toList <+: ys.toList) (hx : xs[i]? = some x) : ys[i]? = some x := by
  rw [← Array.getElem?_toList] at hx ⊢
  obtain ⟨hlt, rfl⟩ := List.getElem?_eq_some_iff.mp hx
  rw [h.getElem hlt]
  exact List.getElem?_eq_getElem _

theorem Grows.name? (h : V.Grows V') (hs : V.name? s = some name) : V'.name? s = some name :=
  getElem?_of_prefix h.names hs

theorem Grows.varSymbol? (h : V.Grows V') (hv : V.varSymbol? v = some s) :
    V'.varSymbol? v = some s :=
  getElem?_of_prefix h.varNames hv

theorem Grows.varName? (h : V.Grows V') (hv : V.varName? v = some name) :
    V'.varName? v = some name := by
  obtain ⟨s, hs, hname⟩ := Option.bind_eq_some_iff.mp hv
  rw [Vocabulary.varName?, h.varSymbol? hs, Option.bind_some]
  exact h.name? hname

theorem Grows.knowsSymbol (h : V.Grows V') (hs : V.knowsSymbol s = true) :
    V'.knowsSymbol s = true := by
  obtain ⟨name, hname⟩ := exists_name? hs
  exact knowsSymbol_of_name? (h.name? hname)

end Growing

section Entering

variable {V V' : Vocabulary} {name : String} {s : Symbol} {e : Misuse}

/-- A name was found or added, and nothing else changed but the count of made-up names. -/
structure Enters (V : Vocabulary) (name : String) (s : Symbol) (V' : Vocabulary) : Prop where
  grows : V.Grows V'
  consistent : V.Consistent → V'.Consistent
  varNames : V'.varNames = V.varNames
  name? : V'.name? s = some name

theorem Enters.of_counter {n : ℕ} (h : Enters { V with generated := n } name s V') :
    V.Enters name s V' where
  grows := ⟨h.grows.names, h.grows.varNames⟩
  consistent hV := h.consistent ⟨hV.nonempty, hV.nodup, hV.coherent⟩
  varNames := h.varNames
  name? := h.name?

theorem enters_of_find? (h : V.find? name = some s) : V.Enters name s V :=
  ⟨.refl V, id, rfl, name?_of_find? h⟩

theorem enters_push (hne : name ≠ "") (h : V.find? name = none) :
    V.Enters name ⟨V.symbolCount⟩ { V with names := V.names.push name } := by
  have hgrows : V.Grows { V with names := V.names.push name } :=
    ⟨by simp, List.prefix_rfl⟩
  refine ⟨hgrows, fun hV => ⟨?_, ?_, ?_⟩, rfl, ?_⟩
  · intro x hx
    rw [Array.toList_push, List.mem_append, List.mem_singleton] at hx
    rcases hx with hx | rfl
    · exact hV.nonempty x hx
    · exact hne
  · rw [Array.toList_push, List.nodup_append]
    refine ⟨hV.nodup, by simp, ?_⟩
    rintro x hx y hy rfl
    rw [List.mem_singleton.mp hy] at hx
    exact not_mem_of_find?_eq_none h hx
  · exact fun t ht => hgrows.knowsSymbol (hV.coherent t ht)
  · simp [Vocabulary.name?, symbolCount]

/-- Interning fails on the empty name only. -/
theorem intern_spec (V : Vocabulary) (name : String) :
    (name = "" ∧ V.intern name = (.error .emptyName, V)) ∨
      name ≠ "" ∧ ∃ s V', V.intern name = (.ok s, V') ∧ V.Enters name s V' := by
  by_cases hne : name = ""
  · exact Or.inl ⟨hne, if_pos hne⟩
  · refine Or.inr ⟨hne, ?_⟩
    rw [intern, if_neg hne]
    cases hfind : V.find? name with
    | some s => exact ⟨s, V, rfl, enters_of_find? hfind⟩
    | none => exact ⟨_, _, rfl, enters_push hne hfind⟩

end Entering

section Serving

variable {V V' : Vocabulary}

theorem grows_allocate (V : Vocabulary) (s : Symbol) : V.Grows (V.allocate s).2 :=
  ⟨List.prefix_rfl, by simp [allocate]⟩

theorem Consistent.allocate (hV : V.Consistent) {s : Symbol} (hs : V.knowsSymbol s = true) :
    (V.allocate s).2.Consistent := by
  refine ⟨hV.nonempty, hV.nodup, fun t ht => ?_⟩
  rcases Array.mem_push.mp ht with ht | rfl
  · exact hV.coherent t ht
  · exact hs

theorem varName?_allocate (V : Vocabulary) (s : Symbol) :
    (V.allocate s).2.varName? ⟨V.varCount⟩ = V.name? s := by
  have h : (V.allocate s).2.varSymbol? ⟨V.varCount⟩ = some s := V.varSymbol?_allocate s
  rw [varName?, h]
  rfl

/-- Entries were added, and consistent tables stay so. -/
structure Extends (V V' : Vocabulary) : Prop where
  grows : V.Grows V'
  consistent : V.Consistent → V'.Consistent

theorem Extends.refl (V : Vocabulary) : V.Extends V := ⟨.refl V, id⟩

theorem Extends.of_counter {n : ℕ} (h : Extends { V with generated := n } V') : V.Extends V' :=
  ⟨⟨h.grows.names, h.grows.varNames⟩,
    fun hV => h.consistent ⟨hV.nonempty, hV.nodup, hV.coherent⟩⟩

theorem Enters.extends {name : String} {s : Symbol} (h : V.Enters name s V') : V.Extends V' :=
  ⟨h.grows, h.consistent⟩

theorem Enters.extends_allocate {name : String} {s : Symbol} (h : V.Enters name s V') :
    V.Extends (V'.allocate s).2 :=
  ⟨h.grows.trans (V'.grows_allocate s),
    fun hV => (h.consistent hV).allocate (knowsSymbol_of_name? h.name?)⟩

theorem extends_allocate {v : Var} {s : Symbol} (h : V.varSymbol? v = some s) :
    V.Extends (V.allocate s).2 :=
  ⟨V.grows_allocate s, fun hV => hV.allocate (hV.coherent s (Array.mem_of_getElem? h))⟩

theorem intern_extends (V : Vocabulary) (name : String) : V.Extends (V.intern name).2 := by
  rcases V.intern_spec name with ⟨-, herror⟩ | ⟨-, s, V', hok, henters⟩
  · rw [herror]
    exact .refl V
  · rw [hok]
    exact henters.extends

theorem declare_extends (V : Vocabulary) (name : String) : V.Extends (V.declare name).2 := by
  rw [declare]
  rcases V.intern_spec name with ⟨-, herror⟩ | ⟨-, s, V', hok, henters⟩
  · rw [herror]
    exact .refl V
  · rw [hok]
    exact henters.extends_allocate

theorem copyVar_extends (V : Vocabulary) (like : Var) : V.Extends (V.copyVar like).2 := by
  rw [copyVar]
  split
  · exact .refl V
  · rename_i s hs
    exact extends_allocate hs

theorem coin_extends (V : Vocabulary) (stem : String) : V.Extends (V.coin stem).2 := by
  rw [coin]
  split_ifs
  · exact .refl V
  · exact (intern_extends _ _).of_counter

theorem serve_extends (V : Vocabulary) (r : Request) : V.Extends (serve V r).2 := by
  cases r with
  | intern name => exact V.intern_extends name
  | declare name => exact V.declare_extends name
  | copyVar like => exact V.copyVar_extends like
  | coin stem => exact V.coin_extends stem

theorem Consistent.serveAll (hV : V.Consistent) (rs : List Request) :
    (serveAll rs V).2.Consistent := by
  induction rs generalizing V with
  | nil => exact hV
  | cons r rs ih => exact ih ((V.serve_extends r).consistent hV)

end Serving

end Vocabulary

end HornResolution
