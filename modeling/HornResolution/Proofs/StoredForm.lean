import HornResolution.Json.Model
import Mathlib.Algebra.Group.Nat.Defs
import Mathlib.Data.List.Forall2

/-!
# Reading back what was stored

What is stored can be read back, as long as its numbers fit in 32 bits: terms, atoms, formulas,
expressions, clauses and programs are restored as they were.

Clauses are written and read in different ways. The writer puts down both parts, with null for an
absent one. The reader takes a missing part as absent as well, and it takes arrays for objects, so
it accepts more than is ever written. Whatever form it is given, a clause without head and body does
not get past it, and a program with such a clause among its rules is not read at all.
-/

namespace HornResolution

def FitsWord (symbols : List Symbol) (vars : List Var) : Prop :=
  (∀ s ∈ symbols, s.id < 2 ^ 32) ∧ ∀ v ∈ vars, v.id < 2 ^ 32

instance (symbols : List Symbol) (vars : List Var) : Decidable (FitsWord symbols vars) :=
  inferInstanceAs (Decidable (_ ∧ _))

section Words

variable {α : Type} {s : Symbol} {v : Var} {symbols symbols' : List Symbol} {vars vars' : List Var}

theorem fitsWord_append : FitsWord (symbols ++ symbols') (vars ++ vars') ↔
    FitsWord symbols vars ∧ FitsWord symbols' vars' := by
  simp only [FitsWord, List.forall_mem_append]
  tauto

theorem fitsWord_cons :
    FitsWord (s :: symbols) vars ↔ s.id < 2 ^ 32 ∧ FitsWord symbols vars := by
  simp only [FitsWord, List.forall_mem_cons, and_assoc]

theorem fitsWord_flatMap {as : List α} {symbolsOf : α → List Symbol} {varsOf : α → List Var} :
    FitsWord (as.flatMap symbolsOf) (as.flatMap varsOf) ↔
      ∀ a ∈ as, FitsWord (symbolsOf a) (varsOf a) := by
  simp only [FitsWord, List.forall_mem_flatMap, ← forall_and]

theorem Json.toWord?_ofNat {n : ℕ} (h : n < 2 ^ 32) : (ofNat n).toWord? = some n := if_pos h

theorem Symbol.ofJson?_toJson (h : s.id < 2 ^ 32) : Symbol.ofJson? s.toJson = some s := by
  rw [Symbol.ofJson?, Symbol.toJson, Json.toWord?_ofNat h]
  rfl

theorem Var.ofJson?_toJson (h : v.id < 2 ^ 32) : Var.ofJson? v.toJson = some v := by
  have hid : Var.idOfJson? v.idToJson = some v := by
    rw [idOfJson?, idToJson, Json.toWord?_ofNat h]
    rfl
  exact hid

end Words

namespace Json

variable {α : Type} {read : Json → Option α} {readAll : List Json → Option (List α)}

/-- A list is read item by item, and it is refused if one item is. -/
structure ReadsEach (read : Json → Option α) (readAll : List Json → Option (List α)) : Prop where
  nil : readAll [] = some []
  cons : ∀ j js, readAll (j :: js) = (read j).bind fun a => (readAll js).map (a :: ·)

namespace ReadsEach

theorem eq_some_iff (h : ReadsEach read readAll) {js : List Json} {as : List α} :
    readAll js = some as ↔ List.Forall₂ (fun j a => read j = some a) js as := by
  induction js generalizing as with
  | nil => simp [h.nil, eq_comm]
  | cons j js ih =>
    rw [h.cons, List.forall₂_cons_left_iff]
    simp only [← ih]
    cases read j with
    | none => simp
    | some a => cases readAll js <;> simp [eq_comm]

theorem map (h : ReadsEach read readAll) {write : α → Json} {as : List α}
    (has : ∀ a ∈ as, read (write a) = some a) : readAll (as.map write) = some as := by
  rw [h.eq_some_iff, List.forall₂_map_left_iff, List.forall₂_same]
  exact has

theorem eq_none (h : ReadsEach read readAll) {js : List Json} {j : Json} (hmem : j ∈ js)
    (hj : read j = none) : readAll js = none := by
  induction js with
  | nil => simp at hmem
  | cons i js ih =>
    rw [h.cons]
    rcases List.mem_cons.mp hmem with rfl | hmem
    · rw [hj, Option.bind_none]
    · simp [ih hmem]

end ReadsEach

section Parts

variable {j : Json} {position : ℕ} {name : String}

/-- The field is missing, or it is null. -/
def Lacks (position : ℕ) (name : String) (j : Json) : Prop :=
  j.field? position name = none ∨ j.field? position name = some .null

theorem optional?_eq_absent_iff : j.optional? read position name = some none ↔
    j.Lacks position name := by
  unfold optional? Lacks
  cases j.field? position name with
  | none => simp
  | some value => cases value <;> simp

theorem optional?_eq_given_iff {a : α} : j.optional? read position name = some (some a) ↔
    ∃ value, j.field? position name = some value ∧ value ≠ .null ∧ read value = some a := by
  unfold optional?
  cases j.field? position name with
  | none => simp
  | some value => cases value <;> simp

theorem optional?_written {write : α → Json} {part : Option α}
    (hfield : j.field? position name = some ((part.map write).getD .null))
    (hread : ∀ a ∈ part, write a ≠ .null ∧ read (write a) = some a) :
    j.optional? read position name = some part := by
  cases part with
  | none => exact optional?_eq_absent_iff.mpr (.inr hfield)
  | some a => exact optional?_eq_given_iff.mpr ⟨write a, hfield, hread a rfl⟩

end Parts

end Json

theorem Term.readsEach : Json.ReadsEach Term.ofJson? Term.ofJsonAll? where
  nil := rfl
  cons j js := by
    rw [ofJsonAll?]
    cases ofJson? j <;> cases ofJsonAll? js <;> rfl

theorem Formula.readsEach : Json.ReadsEach Formula.ofJson? Formula.ofJsonAll? where
  nil := rfl
  cons j js := by
    rw [ofJsonAll?]
    cases ofJson? j <;> cases ofJsonAll? js <;> rfl

theorem Clause.readsEach : Json.ReadsEach Clause.ofJson? Clause.ofJsonAll? where
  nil := rfl
  cons j js := by
    rw [ofJsonAll?]
    cases ofJson? j <;> cases ofJsonAll? js <;> rfl

section Restoring

theorem Term.toJson_var (v : Var) : (Term.var v).toJson = .object [("Variable", v.toJson)] := rfl

theorem Term.toJson_app (f : Symbol) (args : List Term) : (Term.app f args).toJson =
    .object [("Function", .array [f.toJson, .array (args.map Term.toJson)])] := by
  rw [toJson, fold_app]

theorem Term.ofJson?_toJson {t : Term} (h : FitsWord t.symbols t.occurrences) :
    Term.ofJson? t.toJson = some t := by
  induction t using Term.induction with
  | var v =>
    have hv : Var.ofJson? v.toJson = some v := Var.ofJson?_toJson (h.2 v (by simp))
    rw [toJson_var, Term.ofJson?, if_pos rfl, hv]
    · rfl
    · simp [Var.toJson]
  | app f args ih =>
    rw [symbols_app, occurrences_app, fitsWord_cons] at h
    have hargs := readsEach.map fun t ht => ih t ht (fitsWord_flatMap.mp h.2 t ht)
    rw [toJson_app, Term.ofJson?, if_pos rfl, Symbol.ofJson?_toJson h.1, hargs]

theorem Atom.ofJson?_toJson {a : Atom} (h : FitsWord a.symbols a.occurrences) :
    Atom.ofJson? a.toJson = some a := by
  rw [symbols, occurrences, fitsWord_cons] at h
  have hargs := Term.readsEach.map fun t ht =>
    Term.ofJson?_toJson (fitsWord_flatMap.mp h.2 t ht)
  have hrecord : a.toJson.isRecord 2 = true := rfl
  have hsymbolField : a.toJson.field? 0 "symbol" = some a.symbol.toJson := rfl
  have htermsField : a.toJson.items? 1 "terms" = some (a.args.map Term.toJson) := rfl
  rw [Atom.ofJson?, if_pos hrecord, hsymbolField, htermsField, Option.bind_some, Option.bind_some,
    Symbol.ofJson?_toJson h.1, hargs]

theorem Expr.ofJson?_toJson {e : Expr} (h : FitsWord e.symbols e.occurrences) :
    Expr.ofJson? e.toJson = some e := by
  cases e with
  | term t => rw [toJson, Expr.ofJson?, if_pos rfl, Term.ofJson?_toJson h]; rfl
  | atom a => rw [toJson, Expr.ofJson?, if_neg (by decide), if_pos rfl, Atom.ofJson?_toJson h]; rfl

theorem Formula.toJsonAll_eq_map (fs : List Formula) : toJsonAll fs = fs.map toJson := by
  induction fs with
  | nil => rfl
  | cons f fs ih => rw [toJsonAll, ih, List.map_cons]

theorem Formula.exists_toJson (f : Formula) : ∃ form j, f.toJson = .object [(form, j)] := by
  cases f <;> exact ⟨_, _, rfl⟩

theorem Formula.fitsWord_of_mem {fs : List Formula} {f : Formula}
    (h : FitsWord (conj fs).symbols (conj fs).occurrences) (hf : f ∈ fs) :
    FitsWord f.symbols f.occurrences := by
  rw [symbols, occurrences, atoms, atomsAll_eq_flatMap] at h
  refine fitsWord_flatMap.mpr fun a ha => fitsWord_flatMap.mp h a ?_
  exact List.mem_flatMap.mpr ⟨f, hf, ha⟩

theorem Formula.ofJson?_toJson {f : Formula} (h : FitsWord f.symbols f.occurrences) :
    Formula.ofJson? f.toJson = some f := by
  induction f using Formula.induction with
  | atom a =>
    rw [toJson, Formula.ofJson?, if_neg (by decide), if_pos rfl, Atom.ofJson?_toJson]
    · rfl
    · simpa [symbols, occurrences, atoms] using h
    · simp [Atom.toJson]
  | conj fs ih =>
    have hfs := readsEach.map fun f hf => ih f hf (fitsWord_of_mem h hf)
    rw [toJson, toJsonAll_eq_map, Formula.ofJson?, if_pos rfl, hfs]
    rfl
  | disj fs ih =>
    have hfs := readsEach.map fun f hf => ih f hf (fitsWord_of_mem h hf)
    rw [toJson, toJsonAll_eq_map, Formula.ofJson?, if_neg (by decide), if_pos rfl, hfs]
    rfl
  | neg f ih =>
    rw [toJson, Formula.ofJson?, if_pos rfl, ih h]
    · rfl
    · intro items
      obtain ⟨form, j, hj⟩ := f.exists_toJson
      simp [hj]

theorem Clause.toOption_ofParts_eq_some_iff {head : Option Atom} {body : Option Formula}
    {c : Clause} : (ofParts head body).toOption = some c ↔ head = c.head? ∧ body = c.body? := by
  rcases head with - | a <;> rcases body with - | f <;> cases c <;>
    simp [ofParts, head?, body?, Except.toOption]

theorem Clause.ofJson?_eq_some_iff {j : Json} {c : Clause} :
    Clause.ofJson? j = some c ↔ j.isRecord 2 = true ∧
      j.optional? Atom.ofJson? 0 "consequent" = some c.head? ∧
      j.optional? Formula.ofJson? 1 "antecedent" = some c.body? := by
  rw [Clause.ofJson?, partsOfJson?]
  by_cases hrecord : j.isRecord 2 = true
  · rw [if_pos hrecord]
    cases j.optional? Atom.ofJson? 0 "consequent" with
    | none => simp
    | some head =>
      cases j.optional? Formula.ofJson? 1 "antecedent" with
      | none => simp
      | some body => simpa [hrecord] using toOption_ofParts_eq_some_iff
  · simp [hrecord]

theorem Clause.fitsWord_parts {c : Clause} (h : FitsWord c.symbols c.occurrences) :
    (∀ a ∈ c.head?, FitsWord a.symbols a.occurrences) ∧
      ∀ f ∈ c.body?, FitsWord f.symbols f.occurrences := by
  cases c with
  | fact a => simpa [head?, body?, symbols, occurrences] using h
  | rule a f => simpa [head?, body?] using fitsWord_append.mp h
  | goal f => simpa [head?, body?, symbols, occurrences] using h

theorem Clause.ofJson?_toJson {c : Clause} (h : FitsWord c.symbols c.occurrences) :
    Clause.ofJson? c.toJson = some c := by
  obtain ⟨hhead, hbody⟩ := fitsWord_parts h
  refine ofJson?_eq_some_iff.mpr ⟨rfl, ?_, ?_⟩
  · refine Json.optional?_written rfl fun a ha => ⟨?_, Atom.ofJson?_toJson (hhead a ha)⟩
    simp [Atom.toJson]
  · refine Json.optional?_written rfl fun f hf => ⟨?_, Formula.ofJson?_toJson (hbody f hf)⟩
    obtain ⟨form, j, hj⟩ := f.exists_toJson
    simp [hj]

theorem Program.ofJson?_eq_some_iff {j : Json} {P : Program} :
    Program.ofJson? j = some P ↔ j.isRecord 1 = true ∧ ∃ items, j.items? 0 "rules" = some items ∧
      List.Forall₂ (fun item c => Clause.ofJson? item = some c) items P.clauses.toList := by
  have hlist {cs : List Clause} : Program.ofList cs = P ↔ cs = P.clauses.toList := by
    obtain ⟨⟨cs'⟩⟩ := P
    simp [Program.ofList]
  rw [Program.ofJson?]
  by_cases hrecord : j.isRecord 1 = true
  · simp only [hrecord, if_true, true_and, Option.map_eq_some_iff, Option.bind_eq_some_iff, hlist,
      exists_eq_right, Clause.readsEach.eq_some_iff]
  · simp [hrecord]

theorem Program.ofJson?_toJson {P : Program}
    (h : ∀ c ∈ P.clauses, FitsWord c.symbols c.occurrences) :
    Program.ofJson? P.toJson = some P := by
  refine ofJson?_eq_some_iff.mpr ⟨rfl, _, rfl, ?_⟩
  rw [List.forall₂_map_left_iff, List.forall₂_same]
  exact fun c hc => Clause.ofJson?_toJson (h c (Array.mem_toList_iff.mp hc))

end Restoring

section Refusing

/-- A stored clause with neither part: each is missing or null. -/
def Clause.Blank (j : Json) : Prop := j.Lacks 0 "consequent" ∧ j.Lacks 1 "antecedent"

theorem Clause.parts_of_ofJson? {j : Json} {c : Clause} (h : Clause.ofJson? j = some c) :
    (c.head? = none ↔ j.Lacks 0 "consequent") ∧ (c.body? = none ↔ j.Lacks 1 "antecedent") := by
  obtain ⟨-, hhead, hbody⟩ := ofJson?_eq_some_iff.mp h
  have hnoHead : j.optional? Atom.ofJson? 0 "consequent" = some none ↔ j.Lacks 0 "consequent" :=
    Json.optional?_eq_absent_iff
  have hnoBody : j.optional? Formula.ofJson? 1 "antecedent" = some none ↔ j.Lacks 1 "antecedent" :=
    Json.optional?_eq_absent_iff
  rw [← hnoHead, ← hnoBody, hhead, hbody, Option.some.injEq, Option.some.injEq]
  exact ⟨Iff.rfl, Iff.rfl⟩

theorem Clause.not_absent (c : Clause) : ¬(c.head? = none ∧ c.body? = none) := by
  cases c <;> simp [head?, body?]

theorem Clause.Blank.ofJson?_eq_none {j : Json} (h : Clause.Blank j) : Clause.ofJson? j = none := by
  rw [Option.eq_none_iff_forall_ne_some]
  intro c hc
  obtain ⟨hhead, hbody⟩ := parts_of_ofJson? hc
  exact c.not_absent ⟨hhead.mpr h.1, hbody.mpr h.2⟩

theorem Program.ofJson?_eq_none {j item : Json} {items : List Json}
    (hitems : j.items? 0 "rules" = some items) (hmem : item ∈ items)
    (hrefused : Clause.ofJson? item = none) : Program.ofJson? j = none := by
  rw [Program.ofJson?, hitems, Option.bind_some, Clause.readsEach.eq_none hmem hrefused]
  split_ifs <;> rfl

end Refusing

/-- What is stored is read back, and no empty clause is read. Terms, atoms, formulas, expressions,
clauses and programs whose numbers fit in 32 bits are restored from their stored forms. A value from
which a clause is read, in whatever form, has a head or a body that is neither missing nor null, and
the clause has the parts that are given there. A value without both is refused. A program is read
from the list of its rules, one clause for each, and one refused clause among them, empty or not,
refuses the program. -/
theorem stored_form_restores :
    ((∀ t : Term, FitsWord t.symbols t.occurrences → Term.ofJson? t.toJson = some t) ∧
      (∀ a : Atom, FitsWord a.symbols a.occurrences → Atom.ofJson? a.toJson = some a) ∧
      (∀ f : Formula, FitsWord f.symbols f.occurrences → Formula.ofJson? f.toJson = some f) ∧
      (∀ e : Expr, FitsWord e.symbols e.occurrences → Expr.ofJson? e.toJson = some e) ∧
      (∀ c : Clause, FitsWord c.symbols c.occurrences → Clause.ofJson? c.toJson = some c) ∧
      ∀ P : Program, (∀ c ∈ P.clauses, FitsWord c.symbols c.occurrences) →
        Program.ofJson? P.toJson = some P) ∧
      ((∀ j, Clause.Blank j → Clause.ofJson? j = none) ∧
        ∀ j c, Clause.ofJson? j = some c →
          (c.head? = none ↔ j.Lacks 0 "consequent") ∧ (c.body? = none ↔ j.Lacks 1 "antecedent") ∧
            ¬(c.head? = none ∧ c.body? = none)) ∧
      (∀ j items, j.items? 0 "rules" = some items → (∃ item ∈ items, Clause.ofJson? item = none) →
        Program.ofJson? j = none) ∧
      ∀ j P, Program.ofJson? j = some P → ∃ items, j.items? 0 "rules" = some items ∧
        List.Forall₂ (fun item c => Clause.ofJson? item = some c ∧ ¬Clause.Blank item) items
          P.clauses.toList := by
  refine ⟨⟨fun _ => Term.ofJson?_toJson, fun _ => Atom.ofJson?_toJson,
    fun _ => Formula.ofJson?_toJson, fun _ => Expr.ofJson?_toJson, fun _ => Clause.ofJson?_toJson,
    fun _ => Program.ofJson?_toJson⟩, ⟨fun _ => Clause.Blank.ofJson?_eq_none, ?_⟩, ?_, ?_⟩
  · intro j c h
    obtain ⟨hhead, hbody⟩ := Clause.parts_of_ofJson? h
    exact ⟨hhead, hbody, c.not_absent⟩
  · rintro j items hitems ⟨item, hmem, hrefused⟩
    exact Program.ofJson?_eq_none hitems hmem hrefused
  · intro j P h
    obtain ⟨-, items, hitems, hclauses⟩ := Program.ofJson?_eq_some_iff.mp h
    refine ⟨items, hitems, hclauses.imp fun item c hc => ⟨hc, fun hblank => ?_⟩⟩
    rw [hblank.ofJson?_eq_none] at hc
    simp at hc

/-- A fact, a rule over all connectives and a goal, with the largest number of 32 bits. -/
def storedProgram : Program := .ofList
  [.fact ⟨⟨0⟩, [.app ⟨1⟩ [.var ⟨4294967295⟩, .const ⟨2⟩]]⟩,
    .rule ⟨⟨0⟩, [.var ⟨7⟩]⟩
      (.conj [.neg (.atom ⟨⟨3⟩, []⟩), .disj [.conj [], .atom ⟨⟨0⟩, [.var ⟨7⟩]⟩]]),
    .goal (.atom ⟨⟨3⟩, []⟩)]

/-- The program is restored. With a clause put after its rules of which one part is null and the
other one missing, it is refused. -/
theorem stored_form_restores_storedProgram :
    Program.ofJson? storedProgram.toJson = some storedProgram ∧
      Clause.Blank (.object [("consequent", .null), ("comment", .string "empty")]) ∧
      Program.ofJson? (.array [.array (storedProgram.clauses.toList.map Clause.toJson ++
        [.object [("consequent", .null), ("comment", .string "empty")]])]) = none := by
  have hfits : ∀ c ∈ storedProgram.clauses, FitsWord c.symbols c.occurrences := by decide
  have hblank : Clause.Blank (.object [("consequent", .null), ("comment", .string "empty")]) :=
    ⟨.inr rfl, .inl rfl⟩
  obtain ⟨⟨-, -, -, -, -, hprogram⟩, ⟨hrefused, -⟩, hrefusedAmong, -⟩ := stored_form_restores
  refine ⟨hprogram _ hfits, hblank, hrefusedAmong _ _ rfl ⟨_, ?_, hrefused _ hblank⟩⟩
  exact List.mem_append_right _ (List.mem_singleton_self _)

end HornResolution
