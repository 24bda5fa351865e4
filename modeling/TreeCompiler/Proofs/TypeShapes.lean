import TreeCompiler.Proofs.Terms

/-!
# What type expressions denote

A type expression with what its names were found to be is a shape. It denotes the term that is
composed of what its parts denote. Validation composes another one: the type noted for a named part
is its base with its parameters already, and the parameters are applied to it once more. The two
agree unless a named type with parameters stands inside another type.
-/

namespace TreeCompiler

namespace Term

/-- A type applied to parameters. Without parameters it is the type itself. -/
def applied (base : Term) : List Term → Term
  | [] => base
  | ps => node (.type (.parameterized ⟨0⟩ (ps.map fun _ => ⟨0⟩))) (base :: ps)

/-- A tuple type. -/
def tupleType (es : List Term) : Term :=
  node (.type (.tuple (es.map fun _ => ⟨0⟩))) es

/-- A nullable type. -/
def nullableType (base : Term) : Term := node (.type (.nullable ⟨0⟩)) [base]

/-- The type of a category. -/
def categoryType (category : TypeCategory) : Term := node (.type (.category category)) []

theorem weight_applied (base : Term) {ps : List Term} (some : ps ≠ []) :
    (applied base ps).weight = 1 + (base.weight + (ps.map weight).sum) := by
  cases ps with
  | nil => exact absurd rfl some
  | cons param rest => simp [applied, weight]

theorem weight_tupleType (es : List Term) : (tupleType es).weight = 1 + (es.map weight).sum := by
  rw [tupleType, weight]

theorem weight_nullableType (base : Term) : (nullableType base).weight = 1 + base.weight := by
  simp [nullableType, weight]

end Term

/-- A type expression with what its names were found to be. -/
inductive TypeShape where
  /-- A name that was found to be `base`, with parameters. -/
  | named (base : Term) (ps : List TypeShape)
  | keyword (category : TypeCategory)
  | tuple (es : List TypeShape)
  | nullable (inner : TypeShape)

namespace TypeShape

/-- What a type expression denotes: every name is applied to its parameters once. -/
def meaning : TypeShape → Term
  | named base ps => .applied base (ps.map meaning)
  | keyword category => .categoryType category
  | tuple es => .tupleType (es.map meaning)
  | nullable i => .nullableType i.meaning

/-- What a type expression that is valid is seen as by the one around it: the noted type of a name,
applied to its parameters again. -/
def seen : TypeShape → Term
  | named base ps => .applied (.applied base (ps.map seen)) (ps.map seen)
  | keyword category => .categoryType category
  | tuple es => .tupleType (es.map seen)
  | nullable i => .nullableType i.seen

/-- The type that validation finds for a type expression. -/
def found : TypeShape → Term
  | named base ps => .applied base (ps.map seen)
  | shape => shape.seen

/-- The type expressions that a type expression is built from. -/
def parts : TypeShape → List TypeShape
  | named _ ps => ps
  | keyword _ => []
  | tuple es => es
  | nullable i => [i]

/-- Whether a type is noted for the type expression before it is validated. -/
def isNoted : TypeShape → Bool
  | named .. | keyword _ => true
  | tuple _ | nullable _ => false

/-- The type that is noted for a name or keyword before it is validated. -/
def noted : TypeShape → Term
  | named base _ => base
  | shape => shape.seen

/-- What a type expression is seen as while `term` is noted for it. -/
def seenWith (term : Term) : TypeShape → Term
  | named _ ps => .applied term (ps.map seen)
  | keyword _ => term
  | tuple es => .tupleType (es.map seen)
  | nullable i => .nullableType i.seen

/-- Whether no name has parameters. -/
def isPlain : TypeShape → Bool
  | named _ ps => ps.isEmpty
  | keyword _ => true
  | tuple es => (es.map isPlain).all id
  | nullable i => i.isPlain

/-- Whether no name inside the type expression has parameters; the outermost one may. -/
def isFlat : TypeShape → Bool
  | named _ ps => ps.all isPlain
  | shape => shape.isPlain

/-- The number of nodes of a type expression. -/
def weight : TypeShape → Nat
  | named _ ps => 1 + (ps.map weight).sum
  | keyword _ => 1
  | tuple es => 1 + (es.map weight).sum
  | nullable i => 1 + i.weight

theorem weight_le_sum {shapes : List TypeShape} {shape : TypeShape} (mem : shape ∈ shapes) :
    shape.weight ≤ (shapes.map weight).sum :=
  List.single_le_sum (by simp) _ (List.mem_map.mpr ⟨shape, mem, rfl⟩)

theorem seenWith_noted (shape : TypeShape) : shape.seenWith shape.noted = shape.found := by
  cases shape <;> simp [seenWith, found, noted, seen]

theorem seenWith_found (shape : TypeShape) : shape.seenWith shape.found = shape.seen := by
  cases shape <;> simp [seenWith, found, seen]

theorem weight_lt_of_mem_parts {shape part : TypeShape} (mem : part ∈ shape.parts) :
    part.weight < shape.weight := by
  cases shape with
  | named base ps =>
    have bound : part.weight ≤ (ps.map weight).sum := weight_le_sum mem
    rw [weight]
    omega
  | keyword category => simp [parts] at mem
  | tuple es =>
    have bound : part.weight ≤ (es.map weight).sum := weight_le_sum mem
    rw [weight]
    omega
  | nullable i =>
    obtain rfl : part = i := by simpa [parts] using mem
    rw [weight]
    omega

/-- Where no name has parameters, a type expression is seen as what it denotes. -/
theorem seen_of_isPlain {shape : TypeShape} (hp : shape.isPlain) : shape.seen = shape.meaning := by
  induction shape using TypeShape.seen.induct with
  | case1 base ps ih =>
    rw [isPlain, List.isEmpty_iff] at hp
    subst hp
    simp [seen, meaning, Term.applied]
  | case2 category => rw [seen, meaning]
  | case3 es ih =>
    simp only [isPlain, List.all_map, List.all_eq_true] at hp
    rw [seen, meaning]
    congr 1
    exact List.map_congr_left fun elem mem => ih elem mem (hp elem mem)
  | case4 i ih =>
    rw [isPlain] at hp
    rw [seen, meaning, ih hp]

/-- Being seen by another type makes a type expression no lighter, and heavier where a name has
parameters. -/
theorem weight_seen (shape : TypeShape) : shape.meaning.weight ≤ shape.seen.weight ∧
      (shape.isPlain = false → shape.meaning.weight < shape.seen.weight) := by
  induction shape using TypeShape.seen.induct with
  | case1 base ps ih =>
    cases ps with
    | nil => simp [seen, meaning, Term.applied, isPlain]
    | cons param rest =>
      have lighter : ((param :: rest).map fun shape => shape.meaning.weight).sum ≤
          ((param :: rest).map fun shape => shape.seen.weight).sum :=
        List.sum_le_sum fun shape mem => (ih shape mem).1
      have heavier : (named base (param :: rest)).meaning.weight <
          (named base (param :: rest)).seen.weight := by
        rw [meaning, seen, Term.weight_applied _ (by simp), Term.weight_applied _ (by simp),
          Term.weight_applied _ (by simp), List.map_map, List.map_map]
        simp only [Function.comp_def]
        omega
      exact ⟨heavier.le, fun _ => heavier⟩
  | case2 category => simp [seen, meaning, isPlain]
  | case3 es ih =>
    rw [meaning, seen, Term.weight_tupleType, Term.weight_tupleType, List.map_map, List.map_map]
    constructor
    · have lighter := List.sum_le_sum fun shape mem => (ih shape mem).1
      exact Nat.add_le_add_left lighter 1
    · intro nested
      simp only [isPlain, List.all_map, List.all_eq_false] at nested
      obtain ⟨shape, mem, nested⟩ := nested
      have heavier := List.sum_lt_sum (fun shape : TypeShape => shape.meaning.weight)
        (fun shape => shape.seen.weight) (fun shape mem => (ih shape mem).1)
        ⟨shape, mem, (ih shape mem).2 (by simpa using nested)⟩
      exact Nat.add_lt_add_left heavier 1
  | case4 i ih =>
    rw [meaning, seen, isPlain, Term.weight_nullableType, Term.weight_nullableType]
    exact ⟨by omega, fun nested => by have := ih.2 nested; omega⟩

/-- What validation finds is what the type expression denotes, exactly if no name inside it has
parameters. -/
theorem found_eq_meaning_iff (shape : TypeShape) :
    shape.found = shape.meaning ↔ shape.isFlat = true := by
  have hp : ∀ shape : TypeShape, shape.seen = shape.meaning ↔ shape.isPlain = true := by
    intro shape
    refine ⟨fun he => ?_, seen_of_isPlain⟩
    by_contra nested
    have heavier := (weight_seen shape).2 (by simpa using nested)
    rw [he] at heavier
    omega
  cases shape with
  | named base ps =>
    rw [found, meaning, isFlat, List.all_eq_true]
    constructor
    · intro he param mem
      by_contra nested
      have heavier := List.sum_lt_sum (fun shape : TypeShape => shape.meaning.weight)
        (fun shape => shape.seen.weight) (fun shape _ => (weight_seen shape).1)
        ⟨param, mem, (weight_seen param).2 (by simpa using nested)⟩
      have some : ps ≠ [] := List.ne_nil_of_mem mem
      have weights := congrArg Term.weight he
      rw [Term.weight_applied _ (by simpa using some), Term.weight_applied _ (by simpa using some),
        List.map_map, List.map_map] at weights
      simp only [Function.comp_def] at weights
      omega
    · intro allPlain
      congr 1
      exact List.map_congr_left fun param mem => seen_of_isPlain (allPlain param mem)
  | keyword category => exact hp _
  | tuple es => exact hp _
  | nullable i => exact hp _

end TypeShape

end TreeCompiler
