import TreeCompiler.Proofs.TreeChanges
import TreeCompiler.Proofs.TypeShapes
import TreeCompiler.Proofs.WorkSteps

/-!
# Validating type expressions

A type expression whose names were all found is always valid. Its parts are validated first, and the
type found for a part is noted where the type of its name stood before. Seen from the type around it
the parameters of the part are then applied twice.
-/

namespace TreeCompiler

open Step WorkM

variable {p : Pool} {term : Term}

/-- A type expression of the tree that is not validated yet and whose names were all found. -/
inductive Work.Writes (work : Work) : NodeId → TypeShape → Prop
  | named {id : NodeId} {names : List String} {ps : List NodeId} {base : ConstId} {term : Term}
      {shapes : List TypeShape}
      (form : work.tree.type? id = some (.named names ps))
      (unchecked : (work.tree.stage id).isUpTo .validating)
      (hk : (work.tree.facts id).type = some base)
      (means : work.pool.Means base term)
      (arity : ps.length = shapes.length)
      (each : ∀ (j : Nat) param shape, ps[j]? = some param →
        shapes[j]? = some shape → Writes work param shape) :
      Writes work id (.named term shapes)
  | keyword {id : NodeId} {keyword : Keyword} {category : TypeCategory} {ty : ConstId}
      (form : work.tree.type? id = some (.keyword keyword))
      (unchecked : (work.tree.stage id).isUpTo .validating)
      (hk : (work.tree.facts id).type = some ty)
      (names : keyword.category? = some category)
      (means : work.pool.Means ty (.categoryType category)) :
      Writes work id (.keyword category)
  | tuple {id : NodeId} {es : List NodeId} {shapes : List TypeShape}
      (form : work.tree.type? id = some (.tuple es))
      (unchecked : (work.tree.stage id).isUpTo .validating)
      (arity : es.length = shapes.length)
      (each : ∀ (j : Nat) elem shape, es[j]? = some elem →
        shapes[j]? = some shape → Writes work elem shape) :
      Writes work id (.tuple shapes)
  | nullable {id c : NodeId} {shape : TypeShape}
      (form : work.tree.type? id = some (.nullable c))
      (unchecked : (work.tree.stage id).isUpTo .validating)
      (i : Writes work c shape) :
      Writes work id (.nullable shape)

namespace Work.Writes

variable {work : Work} {id : NodeId} {shape : TypeShape}

theorem isType (writes : work.Writes id shape) :
    ∃ expr, work.tree.type? id = some expr ∧ work.tree.children id = expr.children := by
  have children : ∀ expr, work.tree.type? id = some expr →
      work.tree.children id = expr.children := by
    intro expr hf
    obtain ⟨form, hp, held⟩ := Option.bind_eq_some_iff.mp hf
    cases form with
    | type ty =>
      cases held
      simp [Tree.children, hp, Form.children]
    | _ => simp [Form.type?] at held
  cases writes with
  | named form | keyword form | tuple form | nullable form => exact ⟨_, form, children _ form⟩

theorem unvalidated (writes : work.Writes id shape) : (work.tree.stage id).isUpTo .validating := by
  cases writes with
  | named _ unchecked | keyword _ unchecked | tuple _ unchecked | nullable _ unchecked =>
    exact unchecked

/-- What is noted for a name or keyword. -/
theorem isNoted (writes : work.Writes id shape) (hn : shape.isNoted) :
    ∃ ty, (work.tree.facts id).type = some ty ∧ work.pool.Means ty shape.noted := by
  cases writes with
  | named _ _ hk means => exact ⟨_, hk, means⟩
  | keyword _ _ hk _ means => exact ⟨_, hk, by simpa [TypeShape.noted, TypeShape.seen] using means⟩
  | tuple | nullable => simp [TypeShape.isNoted] at hn

theorem parts (writes : work.Writes id shape) :
    List.Forall₂ work.Writes (work.tree.children id) shape.parts := by
  obtain ⟨expr, hf, children⟩ := writes.isType
  rw [children]
  cases writes with
  | named form _ _ _ arity each =>
    cases hf.symm.trans form
    exact Pool.forall₂_of_getElem? arity each
  | keyword form =>
    cases hf.symm.trans form
    exact .nil
  | tuple form _ arity each =>
    cases hf.symm.trans form
    exact Pool.forall₂_of_getElem? arity each
  | nullable form _ i =>
    cases hf.symm.trans form
    exact .cons i .nil

/-- A part of a type expression is a lighter one. -/
theorem part (writes : work.Writes id shape) {c : NodeId} (mem : c ∈ work.tree.children id) :
    ∃ part, work.Writes c part ∧ part.weight < shape.weight := by
  obtain ⟨i, hi, here⟩ := List.getElem_of_mem mem
  have arity := writes.parts.length_eq
  refine ⟨shape.parts[i], ?_, TypeShape.weight_lt_of_mem_parts (List.getElem_mem _)⟩
  rw [← here]
  exact writes.parts.get hi (arity ▸ hi)

theorem unique (writes : work.Writes id shape) {x : TypeShape} (again : work.Writes id x) :
    shape = x := by
  have sameParts : ∀ {children : List NodeId} {fst snd : List TypeShape},
      (children.length = fst.length) → (children.length = snd.length) →
      (∀ (i : Nat) c shape, children[i]? = some c → fst[i]? = some shape →
        ∀ {x}, work.Writes c x → shape = x) →
      (∀ (i : Nat) c shape, children[i]? = some c → snd[i]? = some shape →
        work.Writes c shape) → fst = snd := by
    intro children fst snd arity arityAgain eq each
    refine List.forall₂_eq_eq_eq ▸ Pool.forall₂_of_getElem? (arity.symm.trans arityAgain)
      fun i shape x hasShape hasOther => ?_
    have hi : i < children.length := by
      rw [arity]
      exact (List.getElem?_eq_some_iff.mp hasShape).1
    have hasChild := List.getElem?_eq_getElem hi
    exact eq i _ shape hasChild hasShape (each i _ x hasChild hasOther)
  induction writes generalizing x with
  | named form _ hk means arity _ ih =>
    cases again with
    | named form' _ known' means' arity' each' =>
      obtain ⟨-, rfl⟩ : _ ∧ _ := by simpa using form.symm.trans form'
      cases hk.symm.trans known'
      rw [means.unique means', sameParts arity arity' ih each']
    | keyword form' | tuple form' | nullable form' => simp [form] at form'
  | keyword form _ _ names =>
    cases again with
    | keyword form' _ _ names' =>
      obtain rfl : _ = _ := by simpa using form.symm.trans form'
      rw [Option.some.inj (names.symm.trans names')]
    | named form' | tuple form' | nullable form' => simp [form] at form'
  | tuple form _ arity _ ih =>
    cases again with
    | tuple form' _ arity' each' =>
      obtain rfl : _ = _ := by simpa using form.symm.trans form'
      rw [sameParts arity arity' ih each']
    | named form' | keyword form' | nullable form' => simp [form] at form'
  | nullable form _ _ ih =>
    cases again with
    | nullable form' _ inner' =>
      obtain rfl : _ = _ := by simpa using form.symm.trans form'
      rw [ih inner']
    | named form' | keyword form' | tuple form' => simp [form] at form'

theorem lt_size (writes : work.Writes id shape) : id.index < work.tree.size := by
  obtain ⟨expr, hf, -⟩ := writes.isType
  by_contra outside
  have absent : work.tree.node? id = none := by
    simpa [Tree.Has] using mt work.tree.has_iff_lt.mp outside
  simp [Tree.type?, Tree.form?, absent] at hf

end Work.Writes

/-- Looking for a type ends with one that means the term, whatever was interned before. -/
def Work.Sees (work : Work) (look : WorkM (Option ConstId)) (term : Term) : Prop :=
  ∀ p : Pool, p.Extends work.pool → ∃ ty after,
    look (work.withPool p) = .ok (some ty) (work.withPool after) ∧ after.Extends p ∧ after.Means ty term

namespace Resolution

variable {work : Work}

theorem parameterizedType_means {base : ConstId} {ps : List ConstId}
    {terms : List Term} (means : p.Means base term) (all : List.Forall₂ p.Means ps terms) :
    ∃ ty after, PoolM.parameterizedType base ps p = .ok ty after ∧ after.Extends p ∧
      after.Means ty (.applied term terms) := by
  cases all with
  | nil => exact ⟨base, p, rfl, Pool.Extends.refl p, means⟩
  | @cons param fst ps terms here rest =>
    refine ⟨_, _, rfl, Pool.Extends.intern p _, ?_⟩
    have interned := Pool.means_intern (.type (.parameterized base (param :: ps)))
      (.cons means (.cons here rest))
    have shell : (Constant.type (.parameterized base (param :: ps))).shell =
        .type (.parameterized ⟨0⟩ ((fst :: terms).map fun _ => ⟨0⟩)) := by
      simp [Constant.shell, Constant.mapChildrenM, TypeConstant.mapChildrenM, rest.length_eq]
    rwa [shell] at interned

theorem tupleType_means {es : List ConstId} {terms : List Term}
    (all : List.Forall₂ p.Means es terms) :
    ∃ ty after, PoolM.tupleType es p = .ok ty after ∧ after.Extends p ∧
      after.Means ty (.tupleType terms) := by
  refine ⟨_, _, rfl, Pool.Extends.intern p _, ?_⟩
  have interned := Pool.means_intern (.type (.tuple es)) all
  have shell : (Constant.type (.tuple es)).shell = .type (.tuple (terms.map fun _ => ⟨0⟩)) := by
    simp [Constant.shell, Constant.mapChildrenM, TypeConstant.mapChildrenM, all.length_eq]
  rwa [shell] at interned

theorem nullableType_means {base : ConstId} (means : p.Means base term) :
    ∃ ty after, PoolM.nullableType base p = .ok ty after ∧ after.Extends p ∧
      after.Means ty (.nullableType term) :=
  ⟨_, _, rfl, Pool.Extends.intern p _, Pool.means_intern (.type (.nullable base)) (.cons means .nil)⟩

/-- The types of all parts are found if each is. -/
theorem allKnown_sees {look : NodeId → WorkM (Option ConstId)} {ids : List NodeId}
    {shapes : List TypeShape}
    (all : List.Forall₂ (fun id shape => work.Sees (look id) shape.seen) ids shapes)
    (hg : p.Extends work.pool) :
    ∃ types after, allKnown look ids (work.withPool p) = .ok (some types) (work.withPool after) ∧
      after.Extends p ∧ List.Forall₂ after.Means types (shapes.map TypeShape.seen) := by
  induction all generalizing p with
  | nil => exact ⟨[], p, rfl, Pool.Extends.refl p, .nil⟩
  | @cons id shape ids shapes fst _ ih =>
    obtain ⟨ty, mid, hl, grownFirst, means⟩ := fst p hg
    obtain ⟨types, after, hk, grownRest, meansRest⟩ := ih (grownFirst.trans hg)
    refine ⟨ty :: types, after, ?_, grownRest.trans grownFirst, .cons (means.extends grownRest) meansRest⟩
    unfold allKnown
    simp only [Bind.bind, EStateM.bind, hl, hk]
    rfl

/-- A type expression is seen through what is noted for it and what its parts are seen as. -/
theorem currentTypeWithin_sees {s : Work} {rounds : Nat} {id : NodeId} {shape : TypeShape}
    (writes : s.Writes id shape) (sameForm : work.tree.type? id = s.tree.type? id)
    (notFailed : work.tree.stage id ≠ .failed)
    (hk : shape.isNoted → ∃ ty, (work.tree.facts id).type = some ty ∧ work.pool.Means ty term)
    (ps : List.Forall₂ (fun id shape => work.Sees (currentTypeWithin rounds id) shape.seen)
      (s.tree.children id) shape.parts) :
    work.Sees (currentTypeWithin (rounds + 1) id) (shape.seenWith term) := by
  obtain ⟨expr, hf, children⟩ := writes.isType
  rw [children] at ps
  rw [hf] at sameForm
  intro p hg
  have look : WorkM.tree (work.withPool p) = .ok work.tree (work.withPool p) := rfl
  cases writes with
  | named form =>
    cases hf.symm.trans form
    obtain ⟨base, hn, means⟩ := hk rfl
    obtain ⟨types, mid, hl, grownParts, meansParts⟩ := allKnown_sees ps hg
    obtain ⟨ty, after, applied, grownType, meansType⟩ :=
      parameterizedType_means (means.extends (grownParts.trans hg)) meansParts
    refine ⟨ty, after, bind_ok.mpr ⟨_, _, look, ?_⟩, grownType.trans grownParts, meansType⟩
    rw [if_neg notFailed, sameForm]
    refine bind_ok.mpr ⟨_, _, hl, ?_⟩
    rw [hn]
    exact map_ok.mpr ⟨ty, onPool_ok.mpr ⟨after, applied, rfl⟩, rfl⟩
  | keyword form =>
    cases hf.symm.trans form
    obtain ⟨ty, hn, means⟩ := hk rfl
    refine ⟨ty, p, bind_ok.mpr ⟨_, _, look, ?_⟩, Pool.Extends.refl p, means.extends hg⟩
    rw [if_neg notFailed, sameForm]
    exact pure_ok.mpr ⟨hn, rfl⟩
  | tuple form =>
    cases hf.symm.trans form
    obtain ⟨types, mid, hl, grownParts, meansParts⟩ := allKnown_sees ps hg
    obtain ⟨ty, after, made, grownType, meansType⟩ := tupleType_means meansParts
    refine ⟨ty, after, bind_ok.mpr ⟨_, _, look, ?_⟩, grownType.trans grownParts, meansType⟩
    rw [if_neg notFailed, sameForm]
    refine bind_ok.mpr ⟨_, _, hl, ?_⟩
    exact map_ok.mpr ⟨ty, onPool_ok.mpr ⟨after, made, rfl⟩, rfl⟩
  | nullable form =>
    cases hf.symm.trans form
    cases ps with
    | cons i _ =>
      obtain ⟨base, mid, hl, grownInner, means⟩ := i p hg
      obtain ⟨ty, after, made, grownType, meansType⟩ := nullableType_means means
      refine ⟨ty, after, bind_ok.mpr ⟨_, _, look, ?_⟩, grownType.trans grownInner, meansType⟩
      rw [if_neg notFailed, sameForm]
      refine bind_ok.mpr ⟨_, _, hl, ?_⟩
      exact map_ok.mpr ⟨ty, onPool_ok.mpr ⟨after, made, rfl⟩, rfl⟩

end Resolution

namespace Work

/-- A type expression whose validation has not ended. What is noted for it is as it was at the
start. -/
structure Waits (s now : Work) (id : NodeId) : Prop where
  unchecked : (now.tree.stage id).isUpTo .validating
  known : (now.tree.facts id).type = (s.tree.facts id).type

/-- A type expression that is valid, and so are its parts. -/
structure HasType (now : Work) (id : NodeId) (shape : TypeShape) : Prop where
  stage : now.tree.stage id = .validated
  known : ∃ ty, (now.tree.facts id).type = some ty ∧ now.pool.Spells ty shape.found
  parts : ∀ c ∈ now.tree.children id, now.tree.stage c = .validated

/-- Some of the type expressions that were written at the start have been validated. -/
structure Halfway (s now : Work) : Prop where
  size : now.tree.size = s.tree.size
  forms : ∀ id, now.tree.form? id = s.tree.form? id
  grown : now.pool.Extends s.pool
  node : ∀ id shape, s.Writes id shape → s.Waits now id ∨ now.HasType id shape

namespace Halfway

variable {s now : Work} {id : NodeId} {shape : TypeShape}

theorem refl (s : Work) : s.Halfway s where
  size := rfl
  forms _ := rfl
  grown := Pool.Extends.refl _
  node _ _ writes := .inl ⟨writes.unvalidated, rfl⟩

variable (halfway : s.Halfway now)

include halfway

theorem type? (id : NodeId) : now.tree.type? id = s.tree.type? id := by
  simp [Tree.type?, halfway.forms]

theorem children (id : NodeId) : now.tree.children id = s.tree.children id := by
  simp [Tree.children, halfway.forms]

theorem hasType (writes : s.Writes id shape) (valid : now.tree.stage id = .validated) :
    now.HasType id shape := by
  rcases halfway.node id shape writes with waits | hasType
  · have unchecked := waits.unchecked
    rw [valid] at unchecked
    exact absurd unchecked (by decide)
  · exact hasType

/-- A valid type expression is seen with its parameters applied again. -/
theorem sees (writes : s.Writes id shape) (valid : now.tree.stage id = .validated) {rounds : Nat}
    (enough : s.tree.size ≤ rounds) :
    now.Sees (Resolution.currentTypeWithin rounds id) shape.seen := by
  suffices general : ∀ shape, s.Writes ⟨id.index⟩ shape →
      now.Sees (Resolution.currentTypeWithin rounds ⟨id.index⟩) shape.seen from general shape writes
  refine rounds_suffice s.tree.size (fun i rank => now.tree.stage ⟨i⟩ = .validated ∧
      ∃ shape, s.Writes ⟨i⟩ shape ∧ shape.weight = rank)
    (fun i j => ⟨j⟩ ∈ s.tree.children ⟨i⟩)
    (fun rounds i => ∀ shape, s.Writes ⟨i⟩ shape →
      now.Sees (Resolution.currentTypeWithin rounds ⟨i⟩) shape.seen) ?_ ?_ ?_ ?_
    ⟨valid, shape, writes, rfl⟩ enough
  · rintro i rank ⟨-, shape, writes, -⟩
    exact writes.lt_size
  · rintro i fst snd ⟨-, shape, writes, rfl⟩ ⟨-, x, again, rfl⟩
    rw [writes.unique again]
  · rintro i j rank ⟨valid, shape, writes, rfl⟩ mem
    obtain ⟨part, writesPart, lighter⟩ := writes.part mem
    have validPart := (halfway.hasType writes valid).parts ⟨j⟩ (by rwa [halfway.children])
    exact ⟨part.weight, lighter, validPart, part, writesPart, rfl⟩
  · rintro rounds i rank ⟨valid, -⟩ ends shape writes
    obtain ⟨ty, hk, spells⟩ := (halfway.hasType writes valid).known
    have ps : List.Forall₂ (fun id shape => now.Sees (Resolution.currentTypeWithin rounds id)
        shape.seen) (s.tree.children ⟨i⟩) shape.parts :=
      Pool.forall₂_of_getElem? writes.parts.length_eq fun n c part hasChild hasPart =>
        ends c.index (List.mem_of_getElem? hasChild) part
          (Pool.getElem?_of_forall₂ writes.parts n c part hasChild hasPart)
    rw [← shape.seenWith_found]
    exact Resolution.currentTypeWithin_sees writes (halfway.type? _) (by simp [valid])
      (fun _ => ⟨ty, hk, spells.means⟩) ps

/-- Once its parts are valid, the type of a type expression is found and noted. -/
theorem resolveType (writes : s.Writes id shape) (waits : s.Waits now id)
    (ps : ∀ c ∈ s.tree.children id, now.tree.stage c = .validated) :
    ∃ ty p, Resolution.resolveType id now = .ok (some ty) ((now.withPool p).withTree
        (now.tree.modifyFacts id fun facts => { facts with type := some ty })) ∧
      p.Extends now.pool ∧ p.Spells ty shape.found := by
  obtain ⟨expr, form, -⟩ := writes.isType
  have notFailed : now.tree.stage id ≠ .failed := by
    intro hx
    have unchecked := waits.unchecked
    rw [hx] at unchecked
    exact absurd unchecked (by decide)
  have seesParts : List.Forall₂ (fun id shape => now.Sees
      (Resolution.currentTypeWithin now.tree.size id) shape.seen)
      (s.tree.children id) shape.parts :=
    Pool.forall₂_of_getElem? writes.parts.length_eq fun i c part hasChild hasPart =>
      halfway.sees (Pool.getElem?_of_forall₂ writes.parts i c part hasChild hasPart)
        (ps c (List.mem_of_getElem? hasChild)) halfway.size.ge
  have hk : shape.isNoted → ∃ ty, (now.tree.facts id).type = some ty ∧
      now.pool.Means ty shape.noted := by
    intro hn
    obtain ⟨ty, hk, means⟩ := writes.isNoted hn
    exact ⟨ty, waits.known.trans hk, means.extends halfway.grown⟩
  obtain ⟨current, mid, hl, hg, means⟩ := Resolution.currentTypeWithin_sees writes
    (halfway.type? id) notFailed hk seesParts now.pool (Pool.Extends.refl _)
  rw [shape.seenWith_noted] at means
  obtain ⟨ty, after, canonical, grownTwin, spells⟩ := means.canonical
  refine ⟨ty, after, ?_, grownTwin.trans hg, spells⟩
  have lookedUp : Resolution.currentType id now = .ok (some current) (now.withPool mid) :=
    bind_ok.mpr ⟨now.tree, now, rfl, hl⟩
  unfold Resolution.resolveType
  refine bind_ok.mpr ⟨now.tree, now, rfl, ?_⟩
  rw [halfway.type?, form]
  cases expr with
  | bad text =>
    cases writes with
    | named form' | keyword form' | tuple form' | nullable form' => simp [form] at form'
  | _ =>
    refine bind_ok.mpr ⟨_, _, lookedUp, bind_ok.mpr ⟨true, now.withPool mid,
      readPool_ok.mpr ⟨means.isResolved, rfl⟩, ?_⟩⟩
    rw [if_pos rfl]
    refine bind_ok.mpr ⟨ty, now.withPool after, onPool_ok.mpr ⟨after, canonical, rfl⟩, ?_⟩
    exact bind_ok.mpr ⟨(), _, modifyFacts_ok.mpr rfl, rfl⟩

/-- A change of the facts of one node, and a larger pool. -/
theorem change {after : Work} (size : after.tree.size = now.tree.size)
    (forms : ∀ id, after.tree.form? id = now.tree.form? id) (hg : after.pool.Extends now.pool)
    (others : ∀ x, x ≠ id → after.tree.facts x = now.tree.facts x)
    (kept : now.tree.stage id = .validated → after.tree.stage id = .validated)
    (here : ∀ shape, s.Writes id shape → s.Waits after id ∨ after.HasType id shape) :
    s.Halfway after where
  size := size.trans halfway.size
  forms x := (forms x).trans (halfway.forms x)
  grown := hg.trans halfway.grown
  node x shape writes := by
    by_cases eq : x = id
    · subst eq
      exact here shape writes
    · have stages : ∀ node, now.tree.stage node = .validated → after.tree.stage node = .validated := by
        intro node valid
        by_cases again : node = id
        · subst again
          exact kept valid
        · rwa [Tree.stage, others node again]
      rcases halfway.node x shape writes with waits | ⟨stage, ⟨ty, hk, spells⟩, ps⟩
      · refine .inl ⟨?_, ?_⟩
        · rw [Tree.stage, others x eq]
          exact waits.unchecked
        · rw [others x eq]
          exact waits.known
      · refine .inr ⟨stages x stage, ⟨ty, ?_, spells.extends hg⟩, fun c mem => ?_⟩
        · rw [others x eq]
          exact hk
        · rw [Tree.children, forms] at mem
          exact stages c (ps c mem)

end Halfway

/-- What validating type expressions below a weight leaves alone: what is valid stays valid, and the
heavier ones stay as they are. -/
structure Leaves (s : Work) (weight : Nat) (now after : Work) : Prop where
  valid : ∀ id, now.tree.stage id = .validated → after.tree.stage id = .validated
  heavier : ∀ id shape, s.Writes id shape → weight ≤ shape.weight → after.tree.facts id = now.tree.facts id

namespace Leaves

variable {s now mid after : Work} {weight : Nat}

theorem refl (s now : Work) (weight : Nat) : s.Leaves weight now now :=
  ⟨fun _ valid => valid, fun _ _ _ _ => rfl⟩

theorem trans (he : s.Leaves weight now mid) (later : s.Leaves weight mid after) :
    s.Leaves weight now after where
  valid id valid := later.valid id (he.valid id valid)
  heavier id shape writes above :=
    (later.heavier id shape writes above).trans (he.heavier id shape writes above)

theorem mono {larger : Nat} (leaves : s.Leaves weight now after) (le : weight ≤ larger) :
    s.Leaves larger now after :=
  ⟨leaves.valid, fun id shape writes above => leaves.heavier id shape writes (le.trans above)⟩

end Leaves

/-- Validating a type expression ends with its type, however many others are valid already. -/
def Validates (s : Work) (rounds : Nat) (id : NodeId) : Prop :=
  ∀ now shape, s.Halfway now → s.Writes id shape → ∃ ty after,
    Validation.validateTypeWithin rounds id now = .ok (some ty) after ∧ s.Halfway after ∧
      s.Leaves (shape.weight + 1) now after ∧ after.tree.stage id = .validated ∧
      (after.tree.facts id).type = some ty

namespace Validates

open Validation

variable {s : Work} {rounds : Nat}

theorem checkAll {children : List NodeId} {weight : Nat}
      (each : ∀ c ∈ children, s.Validates rounds c ∧ ∃ part, s.Writes c part ∧ part.weight < weight)
    {now : Work} (halfway : s.Halfway now) :
    ∃ after, Validation.checkAll (fun c => do
        pure (← validateTypeWithin rounds c).isSome) children now = .ok true after ∧
      s.Halfway after ∧ s.Leaves weight now after ∧
      ∀ c ∈ children, after.tree.stage c = .validated := by
  induction children generalizing now with
  | nil => exact ⟨now, rfl, halfway, Leaves.refl s now weight, by simp⟩
  | cons c rest ih =>
    obtain ⟨validates, part, writes, lighter⟩ := each c (by simp)
    obtain ⟨ty, mid, hv, halfwayMiddle, leaves, valid, -⟩ :=
      validates now part halfway writes
    obtain ⟨after, hc, halfwayAfter, leavesRest, validRest⟩ :=
      ih (fun x mem => each x (by simp [mem])) halfwayMiddle
    refine ⟨after, ?_, halfwayAfter, (leaves.mono lighter).trans leavesRest, ?_⟩
    · refine bind_ok.mpr ⟨true, mid, bind_ok.mpr ⟨some ty, mid, hv, rfl⟩, ?_⟩
      exact bind_ok.mpr ⟨true, after, hc, rfl⟩
    · intro x mem
      rcases List.mem_cons.mp mem with rfl | mem
      · exact leavesRest.valid x valid
      · exact validRest x mem

theorem start_ok {now : Work} {id : NodeId} (unchecked : (now.tree.stage id).isUpTo .validating) :
    Validation.start id now = .ok none (now.withTree (now.tree.setStage id .validating)) := by
  have notFailed : now.tree.stage id ≠ .failed := by
    intro hx
    rw [hx] at unchecked
    exact absurd unchecked (by decide)
  have notValidated : (now.tree.stage id).hasReached .validated = false := by
    revert unchecked
    cases now.tree.stage id <;> decide
  refine bind_ok.mpr ⟨_, now, stage_ok.mpr ⟨rfl, rfl⟩, ?_⟩
  rw [if_neg notFailed, if_neg (by simp [notValidated])]
  exact bind_ok.mpr ⟨(), _, setStage_ok.mpr rfl, rfl⟩

/-- How a type expression is validated: its parts first, then the type is found and noted. -/
theorem validateTypeWithin_ok {now mid ended : Work} {id : NodeId} {ty : ConstId}
    (unchecked : (now.tree.stage id).isUpTo .validating)
    (hc : Validation.checkAll (fun c => do
        pure (← validateTypeWithin rounds c).isSome) (now.tree.children id)
      (now.withTree (now.tree.setStage id .validating)) = .ok true mid)
    (res : Resolution.resolveType id mid = .ok (some ty) ended)
    (hk : ((ended.tree.setStage id .validated).facts id).type = some ty) :
    validateTypeWithin (rounds + 1) id now =
      .ok (some ty) (ended.withTree (ended.tree.setStage id .validated)) := by
  have body : (do
      let ok ← Validation.checkAll (fun c => do
        pure (← validateTypeWithin rounds c).isSome) ((← WorkM.tree).children id)
      if ok then pure ((← Resolution.resolveType id).map fun _ => id) else pure none : WorkM _)
      (now.withTree (now.tree.setStage id .validating)) = .ok (some id) ended := by
    refine bind_ok.mpr ⟨now.tree.setStage id .validating, _, rfl, ?_⟩
    rw [Tree.setStage, Tree.children_modify]
    exact bind_ok.mpr ⟨true, mid, hc, bind_ok.mpr ⟨some ty, ended, res, rfl⟩⟩
  have concluded : conclude id (some id) ended =
      .ok (some id) (ended.withTree (ended.tree.setStage id .validated)) := by
    refine bind_ok.mpr ⟨(), _, setStage_ok.mpr rfl, ?_⟩
    rw [if_neg (by simp)]
    rfl
  refine bind_ok.mpr ⟨some id, _, bind_ok.mpr ⟨none, _, start_ok unchecked,
    bind_ok.mpr ⟨some id, ended, body, concluded⟩⟩, ?_⟩
  exact bind_ok.mpr ⟨_, _, facts_ok.mpr ⟨rfl, rfl⟩, pure_ok.mpr ⟨hk, rfl⟩⟩

theorem concluded {now : Work} {id : NodeId} {shape : TypeShape} {ty : ConstId}
    (halfway : s.Halfway now) (writes : s.Writes id shape)
    (ps : ∀ c ∈ s.tree.children id, now.tree.stage c = .validated)
    (hg : p.Extends now.pool) (spells : p.Spells ty shape.found) {after : Work}
    (ended : after = (now.withPool p).withTree ((now.tree.modifyFacts id fun facts =>
      { facts with type := some ty }).setStage id .validated)) :
    s.Halfway after ∧ s.Leaves (shape.weight + 1) now after ∧
      after.tree.stage id = .validated ∧ (after.tree.facts id).type = some ty := by
  have hp : now.tree.Has id := by
    rw [Tree.has_iff_lt, halfway.size]
    exact writes.lt_size
  have here : after.tree.facts id = { now.tree.facts id with type := some ty, stage := .validated } := by
    rw [ended, withTree, Tree.setStage, Tree.facts_modify_same _ (by simpa using hp),
      Tree.facts_modify_same _ hp]
  have others : ∀ x, x ≠ id → after.tree.facts x = now.tree.facts x := by
    intro x ne
    rw [ended, withTree, Tree.setStage, Tree.facts_modify_ne _ ne, Tree.facts_modify_ne _ ne]
  have stage : after.tree.stage id = .validated := by rw [Tree.stage, here]
  have stages : ∀ x, now.tree.stage x = .validated → after.tree.stage x = .validated := by
    intro x valid
    by_cases eq : x = id
    · rw [eq, stage]
    · rwa [Tree.stage, others x eq]
  have forms : ∀ x, after.tree.form? x = now.tree.form? x := by
    intro x
    simp [ended, withTree]
  refine ⟨halfway.change (by simp [ended, withTree]) forms (by rwa [ended]) others (stages id) ?_,
    ⟨stages, ?_⟩, stage, by rw [here]⟩
  · intro x again
    rw [← writes.unique again]
    refine .inr ⟨stage, ⟨ty, by rw [here], by rwa [ended]⟩, fun c mem => ?_⟩
    rw [Tree.children, forms, halfway.forms] at mem
    exact stages c (ps c mem)
  · intro x otherShape again above
    refine others x ?_
    rintro rfl
    rw [writes.unique again] at above
    omega

theorem step {id : NodeId} (each : ∀ c ∈ s.tree.children id, s.Validates rounds c) :
    s.Validates (rounds + 1) id := by
  intro now shape halfway writes
  have hp : now.tree.Has id := by
    rw [Tree.has_iff_lt, halfway.size]
    exact writes.lt_size
  rcases halfway.node id shape writes with waits | hasType
  · let began := now.withTree (now.tree.setStage id .validating)
    have factsBegan : began.tree.facts id = { now.tree.facts id with stage := .validating } :=
      Tree.facts_modify_same _ hp _
    have waitsBegan : s.Waits began id :=
      ⟨by rw [Tree.stage, factsBegan]; rfl, by rw [factsBegan]; exact waits.known⟩
    have notValid : now.tree.stage id ≠ .validated := by
      intro valid
      have unchecked := waits.unchecked
      rw [valid] at unchecked
      exact absurd unchecked (by decide)
    have others : ∀ x, x ≠ id → began.tree.facts x = now.tree.facts x :=
      fun x ne => Tree.facts_modify_ne _ ne _
    have halfwayBegan : s.Halfway began :=
      halfway.change (by simp [began, withTree]) (by simp [began, withTree]) (Pool.Extends.refl _)
        others (fun valid => absurd valid notValid) fun _ _ => .inl waitsBegan
    have leavesBegan : s.Leaves (shape.weight + 1) now began := by
      refine ⟨fun x valid => ?_, fun x otherShape again above => others x ?_⟩
      · rw [Tree.stage, others x (by rintro rfl; exact notValid valid)]
        exact valid
      · rintro rfl
        rw [writes.unique again] at above
        omega
    obtain ⟨mid, hc, halfwayMiddle, leaves, validParts⟩ := checkAll
      (fun c mem => ⟨each c mem, writes.part mem⟩) halfwayBegan
    have eq := leaves.heavier id shape writes le_rfl
    have waitsMiddle : s.Waits mid id :=
      ⟨by rw [Tree.stage, eq]; exact waitsBegan.unchecked, by rw [eq]; exact waitsBegan.known⟩
    obtain ⟨ty, p, res, hg, spells⟩ :=
      halfwayMiddle.resolveType writes waitsMiddle validParts
    obtain ⟨halfwayAfter, leavesAfter, stage, hk⟩ :=
      concluded halfwayMiddle writes validParts hg spells rfl
    refine ⟨ty, _, ?_, halfwayAfter,
      (leavesBegan.trans (leaves.mono (by omega))).trans leavesAfter, stage, hk⟩
    rw [← halfway.children] at hc
    exact validateTypeWithin_ok waits.unchecked hc res hk
  · obtain ⟨ty, hk, spells⟩ := hasType.known
    refine ⟨ty, now, ?_, halfway, Leaves.refl s now _, hasType.stage, hk⟩
    have done : Validation.start id now = .ok (some (some id)) now := by
      refine bind_ok.mpr ⟨_, now, stage_ok.mpr ⟨rfl, rfl⟩, ?_⟩
      rw [hasType.stage]
      rfl
    refine bind_ok.mpr ⟨some id, now, bind_ok.mpr ⟨_, now, done, rfl⟩, ?_⟩
    exact bind_ok.mpr ⟨_, now, facts_ok.mpr ⟨rfl, rfl⟩, pure_ok.mpr ⟨hk, rfl⟩⟩

theorem of_enough {id : NodeId} {shape : TypeShape} (writes : s.Writes id shape)
    (enough : s.tree.size ≤ rounds) : s.Validates rounds id := by
  refine rounds_suffice s.tree.size (fun i rank => ∃ shape, s.Writes ⟨i⟩ shape ∧ shape.weight = rank)
    (fun i j => ⟨j⟩ ∈ s.tree.children ⟨i⟩) (fun rounds i => s.Validates rounds ⟨i⟩) ?_ ?_ ?_ ?_
    ⟨shape, writes, rfl⟩ enough
  · rintro i rank ⟨shape, writes, -⟩
    exact writes.lt_size
  · rintro i fst snd ⟨shape, writes, rfl⟩ ⟨x, again, rfl⟩
    rw [writes.unique again]
  · rintro i j rank ⟨shape, writes, rfl⟩ mem
    obtain ⟨part, writesPart, lighter⟩ := writes.part mem
    exact ⟨part.weight, lighter, part, writesPart, rfl⟩
  · rintro rounds i rank - ends
    exact step fun c mem => ends c.index mem

end Validates

/-- Validating a type expression whose names were all found ends with a canonical type. It is what
the type expression means, and the one id of that meaning, exactly if no name inside another type
has parameters. A typedef in the place of such a name makes a difference for that reason. -/
theorem Writes.validateType_means_iff {work : Work} {id : NodeId} {shape : TypeShape}
    (writes : work.Writes id shape) :
    ∃ type after, Validation.validateType id work = .ok (some type) after ∧
      PoolM.canonical type after.pool = .ok type after.pool ∧
      after.pool.Spells type shape.found ∧
      (after.pool.Spells type shape.meaning ↔ shape.isFlat) ∧
      ∀ other, after.pool.Spells other shape.meaning → (type = other ↔ shape.isFlat) := by
  obtain ⟨type, after, validated, halfway, -, stage, known⟩ :=
    Validates.of_enough writes (Nat.le_succ _) work shape (Halfway.refl work) writes
  obtain ⟨found, knownFound, spells⟩ := (halfway.hasType writes stage).known
  obtain rfl : found = type := Option.some.inj (knownFound.symm.trans known)
  have means_iff : after.pool.Spells found shape.meaning ↔ shape.isFlat := by
    rw [← shape.found_eq_meaning_iff]
    refine ⟨fun means => spells.means.unique means.means, fun equal => ?_⟩
    rwa [← equal]
  refine ⟨found, after, bind_ok.mpr ⟨work.tree, work, rfl, validated⟩, spells.canonical, spells,
    means_iff, fun other spellsOther => ?_⟩
  constructor
  · rintro rfl
    exact means_iff.mp spellsOther
  · intro flat
    exact (means_iff.mpr flat).eq spellsOther

end Work

/-- A pair of a list of integers and an integer, written out, whose names were found in the pool. -/
def pairWithList : Work where
  pool := Pool.empty.run [.intern (.type (.named "List")), .intern (.type (.named "Int"))]
  tree :=
    { nodes := #[ { form := .type (.named ["Int"] []), facts := { stage := .resolved, type := some ⟨1⟩ } },
        { form := .type (.named ["List"] [⟨0⟩]), facts := { stage := .resolved, type := some ⟨0⟩ } },
        { form := .type (.named ["Int"] []), facts := { stage := .resolved, type := some ⟨1⟩ } },
        { form := .type (.tuple [⟨1⟩, ⟨2⟩]), facts := { stage := .resolved } }] }

/-- The pair with its names found. -/
def pairWithListShape : TypeShape :=
  let int := .named (.node (.type (.named "Int")) []) []
  .tuple [.named (.node (.type (.named "List")) []) [int], int]

/-- The list inside the pair is applied to its parameter twice. -/
theorem pairWithList_applied_twice : pairWithList.Writes ⟨3⟩ pairWithListShape ∧
      ∃ type after, Validation.validateType ⟨3⟩ pairWithList = .ok (some type) after ∧
        after.pool.Spells type pairWithListShape.found ∧
        ¬after.pool.Spells type pairWithListShape.meaning := by
  have bare : ∀ id name, pairWithList.pool.get id = .ok (some (.type (.named name))) →
      pairWithList.pool.Means id (.node (.type (.named name)) []) := by
    intro id name found
    exact .intro found rfl (by simp)
  have int : ∀ id, pairWithList.tree.type? id = some (.named ["Int"] []) →
      (pairWithList.tree.facts id) = { stage := .resolved, type := some ⟨1⟩ } →
      pairWithList.Writes id (.named (.node (.type (.named "Int")) []) []) := by
    intro id form facts
    exact .named form (by rw [Tree.stage, facts]; rfl) (by rw [facts]) (bare ⟨1⟩ "Int" rfl) rfl (by simp)
  have list : pairWithList.Writes ⟨1⟩
      (.named (.node (.type (.named "List")) []) [.named (.node (.type (.named "Int")) []) []]) :=
    .named rfl rfl rfl (bare ⟨0⟩ "List" rfl) rfl fun index param shape hasParam hasShape => by
      cases index with
      | zero =>
        cases hasParam
        cases hasShape
        exact int ⟨0⟩ rfl rfl
      | succ index => simp at hasParam
  have writes : pairWithList.Writes ⟨3⟩ pairWithListShape :=
    .tuple rfl rfl rfl fun index element shape hasElement hasShape => by
      match index with
      | 0 =>
        cases hasElement
        cases hasShape
        exact list
      | 1 =>
        cases hasElement
        cases hasShape
        exact int ⟨2⟩ rfl rfl
      | index + 2 => simp at hasElement
  obtain ⟨type, after, validated, -, spells, means_iff, -⟩ := Work.Writes.validateType_means_iff writes
  refine ⟨writes, type, after, validated, spells, fun means => ?_⟩
  exact absurd (means_iff.mp means) (by simp [pairWithListShape, TypeShape.isFlat, TypeShape.isPlain])

end TreeCompiler
