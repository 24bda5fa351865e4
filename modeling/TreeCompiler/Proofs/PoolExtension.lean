import TreeCompiler.Proofs.Steps

/-!
# Pools only grow

Interning, looking for canonical constants, fitting types and folding constants append to a pool and
change none of its entries. What an id stands for stays the same in every larger pool.
-/

namespace TreeCompiler

open Step

variable {p t : Pool} {id : ConstId} {k : Constant} {en : Entry} {α : Type}

namespace Store

variable {store : Store}

theorem intern_of_indexed (known : store.index.lookup k = some id) :
    store.intern k = (id, store) := by
  simp [intern, known]

theorem intern_of_new (new : store.index.lookup k = none) :
    store.intern k = (⟨store.entries.size⟩,
      { entries := store.entries.push (.value k)
        index := (k, ⟨store.entries.size⟩) :: store.index }) := by
  simp [intern, new, push]

/-- A constant is indexed with an id exactly if it is the entry of that id. -/
def InStep (store : Store) : Prop :=
  ∀ k id, store.index.lookup k = some id ↔ store.entries[id.index]? = some (.value k)

namespace InStep

variable (inStep : store.InStep)

include inStep

/-- No id of the index is as large as the next one to be handed out. -/
theorem index_ne_size (indexed : store.index.lookup k = some id) :
    id.index ≠ store.entries.size := by
  intro eq
  have found := (inStep k id).mp indexed
  simp [eq] at found

/-- A constant that neither has is appended to both. -/
theorem intern (new : Constant) : (store.intern new).2.InStep := by
  cases known : store.index.lookup new with
  | some id =>
    rw [intern_of_indexed known]
    exact inStep
  | none =>
    intro k id
    rw [intern_of_new known]
    simp only [List.lookup_cons, Array.getElem?_push]
    by_cases eq : k = new
    · subst eq
      have absent : store.entries[id.index]? ≠ some (.value k) := by
        intro found
        simp [(inStep k id).mpr found] at known
      obtain ⟨i⟩ := id
      rw [beq_self_eq_true]
      by_cases isLast : i = store.entries.size
      · simp [isLast]
      · simpa [isLast, Ne.symm isLast] using absent
    · have other : (k == new) = false := by simpa using eq
      rw [other]
      dsimp only
      split
      · rename_i isLast
        simp only [Option.some.injEq, Entry.value.injEq, Ne.symm eq, iff_false]
        exact fun indexed => inStep.index_ne_size indexed isLast
      · exact inStep k id

/-- A placeholder is no constant, so that only the entries change. -/
theorem placeholder (name : String) : (store.push (.placeholder name none)).2.InStep := by
  intro k id
  simp only [push, Array.getElem?_push]
  split
  · rename_i isLast
    simpa using fun indexed => inStep.index_ne_size indexed isLast
  · exact inStep k id

theorem setTarget (hole tgt : ConstId) : (store.setTarget hole tgt).InStep := by
  intro k id
  refine (inStep k id).trans ?_
  simp only [Store.setTarget, Array.getElem?_modify]
  split
  · rename_i same
    rw [← same]
    cases store.entries[hole.index]? with
    | none => simp
    | some en => cases en <;> simp
  · rfl

end InStep

/-- However a store was built, its index is in step with its entries. -/
theorem Built.inStep (built : store.Built) : store.InStep := by
  induction built with
  | empty => intro k id; simp
  | intern _ new ih => exact ih.intern new
  | placeholder _ name ih => exact ih.placeholder name
  | target _ hole tgt ih => exact ih.setTarget hole tgt

end Store

namespace Pool

/-- No constant stands in the pool twice. -/
def Unique (p : Pool) : Prop :=
  ∀ fst snd k, p.entry? fst = some (.value k) → p.entry? snd = some (.value k) → fst = snd

theorem lookup_index :
    p.index.lookup k = some id ↔ p.entry? id = some (.value k) := p.built.inStep k id

/-- The index has one id at most. -/
theorem unique (p : Pool) : p.Unique := by
  intro fst snd k isFirst isSecond
  have indexed := lookup_index.mpr isFirst
  rw [lookup_index.mpr isSecond] at indexed
  exact (Option.some.inj indexed).symm

theorem eq_of_toStore (eq : p.toStore = t.toStore) : p = t := by
  cases p
  cases t
  cases eq
  rfl

theorem intern_cases (p : Pool) (k : Constant) :
    (∃ id, p.entry? id = some (.value k) ∧ p.intern k = (id, p)) ∨
      (∀ id, p.entry? id ≠ some (.value k)) ∧ (p.intern k).1 = ⟨p.size⟩ ∧
        (p.intern k).2.entries = p.entries.push (.value k) := by
  cases known : p.index.lookup k with
  | some id =>
    have eq := Store.intern_of_indexed known
    refine .inl ⟨id, lookup_index.mp known, Prod.ext ?_ (eq_of_toStore ?_)⟩
    · exact congrArg (·.1) eq
    · exact congrArg (·.2) eq
  | none =>
    have eq := Store.intern_of_new known
    refine .inr ⟨fun id found => ?_, congrArg Prod.fst eq, congrArg (Store.entries ·.2) eq⟩
    rw [lookup_index.mpr found] at known
    cases known

/-- One pool holds every entry of another at the same place. -/
structure Extends (t b : Pool) : Prop where
  holds : ∀ id en, b.entry? id = some en → t.entry? id = some en

theorem entry?_of_push (added : t.entries = p.entries.push en) (id : ConstId) :
    t.entry? id = if id = ⟨p.size⟩ then some en else p.entry? id := by
  cases id
  simp [added, size, entry?, Array.getElem?_push]

end Pool

namespace Pool.Extends

theorem refl (p : Pool) : p.Extends p := ⟨fun _ _ hf => hf⟩

theorem trans {fst snd third : Pool} (later : third.Extends snd)
    (he : snd.Extends fst) : third.Extends fst :=
  ⟨fun id en hf => later.holds id en (he.holds id en hf)⟩

theorem size_le {t b : Pool} (hg : t.Extends b) : b.size ≤ t.size := by
  by_contra smaller
  -- the entry of the smaller pool's size would have to be in it
  have hi : t.size < b.entries.size := by
    unfold size at smaller ⊢
    omega
  have kept := hg.holds ⟨t.size⟩ _ (Array.getElem?_eq_getElem hi)
  simp [size, entry?] at kept

theorem of_push (added : t.entries = p.entries.push en) : t.Extends p := by
  constructor
  intro id old hf
  have hi : id.index < p.size := (Array.getElem?_eq_some_iff.mp hf).1
  rw [entry?_of_push added, if_neg (by rintro rfl; exact absurd hi (by simp)), hf]

theorem intern (p : Pool) (k : Constant) : (p.intern k).2.Extends p := by
  rcases p.intern_cases k with ⟨id, -, eq⟩ | ⟨-, -, added⟩
  · rw [eq]
    exact refl p
  · exact of_push added

theorem addPlaceholder (p : Pool) (name : String) : (p.addPlaceholder name).2.Extends p :=
  of_push rfl

theorem entry?_intern (p : Pool) (k : Constant) :
    Pool.entry? (p.intern k).2 (p.intern k).1 = some (.value k) := by
  rcases p.intern_cases k with ⟨id, found, eq⟩ | ⟨-, last, added⟩
  · rw [eq]
    exact found
  · rw [entry?_of_push added, if_pos last]

variable {b : Pool} (hg : t.Extends b)

include hg

theorem followWithin {steps more : Nat} {tgt : ConstId} (enough : steps ≤ more)
    (followed : b.followWithin steps id = .ok tgt) : t.followWithin more id = .ok tgt := by
  induction steps generalizing id more with
  | zero => simp [Pool.followWithin] at followed
  | succ steps ih =>
    obtain ⟨more, rfl⟩ : ∃ rest, more = rest + 1 := ⟨more - 1, by omega⟩
    unfold Pool.followWithin at followed ⊢
    cases hf : b.entry? id with
    | none => simp [hf] at followed
    | some en =>
      rw [hg.holds id en hf]
      rw [hf] at followed
      match en with
      | .value k => exact followed
      | .placeholder name none => exact followed
      | .placeholder name (some next) => exact ih (by omega) followed

theorem follow {tgt : ConstId} (followed : b.follow id = .ok tgt) : t.follow id = .ok tgt :=
  hg.followWithin (Nat.succ_le_succ hg.size_le) followed

/-- What an id stands for in a pool it stands for in every larger one. -/
theorem get {got : Option Constant} (hl : b.get id = .ok got) : t.get id = .ok got := by
  unfold Pool.get at hl ⊢
  cases followed : b.follow id with
  | error error => simp [followed, bind, Except.bind] at hl
  | ok tgt =>
    simp only [followed, bind, Except.bind] at hl
    simp only [hg.follow followed, bind, Except.bind]
    unfold Pool.entry at hl ⊢
    cases hp : b.entry? tgt with
    | none => simp [hp] at hl
    | some en =>
      rw [hg.holds tgt en hp]
      rw [hp] at hl
      exact hl

theorem bool? {v : Option Bool} (hl : b.bool? id = .ok v) : t.bool? id = .ok v := by
  unfold Pool.bool? at hl ⊢
  cases hf : b.get id with
  | error error => simp [hf, bind, Except.bind] at hl
  | ok k =>
    rw [hg.get hf]
    rwa [hf] at hl

end Pool.Extends

namespace PoolM

open Pool

variable {s : Pool}

/-- A property that a pool keeps whatever constant is interned. -/
def Interned (P : Pool → Prop) : Prop :=
  ∀ (p : Pool) (k : Constant), P p → P (p.intern k).2

/-- A step that changes no entry of the pool it is given. -/
abbrev Grows {α : Type} (step : PoolM α) : Prop :=
  ∀ s : Pool, Always (fun p => p.Extends s) step

theorem read_of_ok {look : Pool → Except PoolError α} {a : α} (hf : look p = .ok a) :
    read look p = .ok a p := by
  refine (bind_of_ok rfl).trans ?_
  rw [hf]
  rfl

theorem read_of_error {look : Pool → Except PoolError α} {error : PoolError}
    (hx : look p = .error error) : read look p = .error error p := by
  refine (bind_of_ok rfl).trans ?_
  rw [hx]
  rfl

@[simp] theorem read_ok {look : Pool → Except PoolError α} {t : Pool} {a : α} :
    read look p = .ok a t ↔ look p = .ok a ∧ p = t := by
  simp only [read, bind_ok]
  cases hf : look p <;> simp_all

theorem interned_extends (s : Pool) : Interned fun p => p.Extends s :=
  fun p k hg => (Extends.intern p k).trans hg

section Interned

variable {P : Pool → Prop}

theorem always_read (look : Pool → Except PoolError α) : Always P (read look) := by
  refine Always.bind Always.get fun p => ?_
  split
  · exact Always.pure _
  · exact Always.throw _

theorem always_mapChildren {f : ConstId → PoolM ConstId} (each : ∀ id, Always P (f id))
    (k : Constant) : Always P (k.mapChildrenM f) := by
  cases k with
  | tuple es => exact Always.bind (Always.mapM each _) fun _ => Always.pure _
  | type ty =>
    refine Always.bind ?_ fun _ => Always.pure _
    cases ty with
    | parameterized base ps =>
      exact Always.bind (each base) fun _ => Always.bind (Always.mapM each _) fun _ => Always.pure _
    | tuple es => exact Always.bind (Always.mapM each _) fun _ => Always.pure _
    | nullable base => exact Always.bind (each base) fun _ => Always.pure _
    | immutable base => exact Always.bind (each base) fun _ => Always.pure _
    | named name => exact Always.pure _
    | category which => exact Always.pure _
  | _ => exact Always.pure _

variable (interned : Interned P)

include interned

theorem always_intern (k : Constant) : Always P (intern k) :=
  fun p h => interned p k h

theorem always_canonicalWithin (n : Nat) (id : ConstId) : Always P (canonicalWithin n id) := by
  induction n generalizing id with
  | zero => exact Always.throw _
  | succ n ih =>
    refine Always.bind (always_read _) fun id => Always.bind (always_read _) fun en => ?_
    split
    · exact Always.pure _
    · refine Always.bind (always_mapChildren ih _) fun rebuilt => ?_
      split
      · exact Always.pure _
      · exact always_intern interned _

theorem always_canonical (id : ConstId) : Always P (canonical id) :=
  Always.bind Always.get fun _ => always_canonicalWithin interned _ _

theorem always_typeOfWithin (n : Nat) (id : ConstId) : Always P (typeOfWithin n id) := by
  induction n generalizing id with
  | zero => exact Always.throw _
  | succ n ih =>
    refine Always.bind (always_read _) fun k => ?_
    rcases k with _ | _ | _ | _ | _ | _ | _ | _
    case some.tuple => exact Always.bind (Always.mapM ih _) fun _ => always_intern interned _
    case none | some.type => exact Always.throw _
    all_goals exact always_intern interned _

theorem always_typeOf (id : ConstId) : Always P (typeOf id) :=
  Always.bind Always.get fun _ => always_typeOfWithin interned _ _

theorem always_parameterizedType (base : ConstId) (ps : List ConstId) :
    Always P (parameterizedType base ps) := by
  cases ps with
  | nil => exact Always.pure _
  | cons param rest => exact always_intern interned _

end Interned

theorem grows_read (look : Pool → Except PoolError α) : Grows (read look) :=
  fun _ => always_read look

theorem grows_intern (k : Constant) : Grows (intern k) :=
  fun s => always_intern (interned_extends s) k

theorem grows_canonicalWithin (n : Nat) (id : ConstId) : Grows (canonicalWithin n id) :=
  fun s => always_canonicalWithin (interned_extends s) n id

theorem grows_canonical (id : ConstId) : Grows (canonical id) :=
  fun s => always_canonical (interned_extends s) id

theorem grows_typeOf (id : ConstId) : Grows (typeOf id) :=
  fun s => always_typeOf (interned_extends s) id

theorem grows_parameterizedType (base : ConstId) (ps : List ConstId) :
    Grows (parameterizedType base ps) :=
  fun s => always_parameterizedType (interned_extends s) base ps

end PoolM

namespace Validation

open PoolM

theorem grows_fieldsFit {fit : ConstId → ConstId → PoolM Fit}
    (ps : ∀ actual req, Grows (fit actual req)) (fields : List (ConstId × ConstId)) :
    Grows (fieldsFit fit fields) := by
  intro s
  induction fields with
  | nil => exact Always.pure _
  | cons field rest ih =>
    refine Always.bind (ps _ _ s) fun fit => ?_
    split
    · exact Always.pure _
    · exact ih
    · exact Always.map _ ih
    · exact Always.map _ ih

theorem grows_structuralFit {fit : ConstId → ConstId → PoolM Fit}
    (ps : ∀ actual req, Grows (fit actual req)) (actual : ConstId)
    (want actualType : TypeConstant) : Grows (structuralFit fit actual want actualType) := by
  intro s
  unfold structuralFit
  split
  · refine Always.bind (grows_intern _ s) fun null => ?_
    split
    · exact Always.pure _
    · split <;> exact Always.map _ (ps _ _ s)
  · split
    · exact grows_fieldsFit ps _ s
    · split
      · exact Always.map _ (ps _ _ s)
      · exact Always.pure _
  · exact Always.map _ (ps _ _ s)
  · exact Always.pure _

theorem grows_fitWithin (n : Nat) (actual req : ConstId) : Grows (fitWithin n actual req) := by
  intro s
  induction n generalizing actual req s with
  | zero => exact Always.throw _
  | succ n ih =>
    refine Always.bind (grows_canonical _ s) fun actual =>
      Always.bind (grows_canonical _ s) fun req => ?_
    split
    · exact Always.pure _
    · refine Always.bind (grows_intern _ s) fun object => ?_
      split
      · exact Always.pure _
      · refine Always.bind (grows_read _ s) fun want =>
          Always.bind (grows_read _ s) fun actualType => ?_
        split
        · exact grows_structuralFit (fun actual req s => ih actual req s) _ _ _ s
        · exact Always.pure _

theorem grows_fit (actual req : ConstId) : Grows (fit actual req) :=
  fun s => Always.bind Always.get fun _ => grows_fitWithin _ _ _ s

theorem grows_foldUnary (op : UnaryOp) (arg : ConstId) : Grows (foldUnary op arg) := by
  intro s
  cases op
  all_goals
    refine Always.bind (grows_read _ s) fun v => ?_
    split
    · exact Always.map _ (grows_intern _ s)
    · exact Always.pure _

theorem grows_foldBinary (op : BinaryOp) (left right : ConstId) :
    Grows (foldBinary op left right) := by
  intro s
  refine Always.bind (grows_read _ s) fun leftValue =>
    Always.bind (grows_read _ s) fun rightValue => ?_
  split
  · split
    · exact Always.bind (grows_canonical _ s) fun _ => Always.bind (grows_canonical _ s)
        fun _ => Always.map _ (grows_intern _ s)
    · split
      · exact Always.map _ (grows_intern _ s)
      · exact Always.pure _
  · exact Always.pure _

end Validation

end TreeCompiler
