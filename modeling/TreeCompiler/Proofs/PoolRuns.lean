import TreeCompiler.Proofs.PoolExtension

/-!
# Runs of a pool

Whatever is called on a pool, it grows at its end, and at most one open placeholder gets a target.
The index is in step with the entries all the time: looking a constant up and reading an entry are
inverse to each other, and ids can be compared in the place of constants.
-/

namespace TreeCompiler

open Step

variable {id : ConstId} {name : String} {k : Constant}

namespace Pool

/-- A call that may change a pool. Constants of every kind are interned in the same way, only that a
class without parameters is itself. -/
inductive Call where
  | intern (k : Constant)
  | parameterizedType (base : ConstId) (ps : List ConstId)
  | newPlaceholder (name : String)
  | fill (hole tgt : ConstId)
  | canonical (id : ConstId)
  | typeOf (id : ConstId)

/-- The pool after a call, which may have failed. -/
def called (p : Pool) : Call → Pool
  | .intern k => endState (PoolM.intern k p)
  | .parameterizedType base ps => endState (PoolM.parameterizedType base ps p)
  | .newPlaceholder name => endState (PoolM.newPlaceholder name p)
  | .fill hole tgt => endState (PoolM.fill hole tgt p)
  | .canonical id => endState (PoolM.canonical id p)
  | .typeOf id => endState (PoolM.typeOf id p)

/-- The pool after one call after the other. -/
def run (p : Pool) (calls : List Call) : Pool := calls.foldl called p

/-- An open placeholder that has a target in a later pool. -/
def Fills (b t : Pool) (id : ConstId) : Prop :=
  ∃ name tgt, b.entry? id = some (.placeholder name none) ∧
    t.entry? id = some (.placeholder name (some tgt))

/-- What a call does to the entries of a pool: every entry stays where and what it is, but for one
open placeholder that may get a target. -/
structure Advances (b t : Pool) : Prop where
  kept : ∀ id entry, b.entry? id = some entry → t.entry? id = some entry ∨ b.Fills t id
  once : ∀ first snd, b.Fills t first → b.Fills t snd → first = snd

namespace Extends

variable {b t : Pool}

theorem not_fills (hg : t.Extends b) (id : ConstId) : ¬b.Fills t id := by
  rintro ⟨name, tgt, wasOpen, isFilled⟩
  have kept := hg.holds id _ wasOpen
  rw [isFilled] at kept
  simp at kept

theorem advances (hg : t.Extends b) : b.Advances t where
  kept id entry hf := .inl (hg.holds id entry hf)
  once first _ fills := absurd fills (hg.not_fills first)

end Extends

variable {p : Pool}

theorem entry?_of_size_le (outside : p.size ≤ id.index) : p.entry? id = none :=
  Array.getElem?_eq_none outside

theorem lt_size_of_found {entry : Entry} (hf : p.entry? id = some entry) : id.index < p.size := by
  by_contra outside
  rw [entry?_of_size_le (Nat.le_of_not_lt outside)] at hf
  simp at hf

theorem size_of_push {t : Pool} {entry : Entry} (added : t.entries = p.entries.push entry) :
    t.size = p.size + 1 := by
  rw [size, added, Array.size_push, size]

/-! ### Filling a placeholder -/

theorem entry?_setTarget {old : Option ConstId}
    (hf : p.entry? id = some (.placeholder name old)) (tgt x : ConstId) :
    Pool.entry? (p.setTarget id tgt) x =
      if x = id then some (.placeholder name (some tgt)) else p.entry? x := by
  unfold setTarget Store.setTarget entry? at *
  dsimp only
  rw [Array.getElem?_modify]
  by_cases eq : x = id
  · rw [if_pos eq, if_pos (by rw [eq]), eq, hf]
    rfl
  · have ne : id.index ≠ x.index := by
      intro he
      apply eq
      cases id
      cases x
      simpa using he.symm
    rw [if_neg eq, if_neg ne]

/-- A grown pool in which a placeholder that was open may have got its target. -/
def Filled (hole : ConstId) (b t : Pool) : Prop :=
  t.Extends b ∨ ∃ (q : Pool) (name : String) (tgt : ConstId),
    q.Extends b ∧ b.entry? hole = some (.placeholder name none) ∧ t = q.setTarget hole tgt

theorem filled_fill (p : Pool) (hole tgt : ConstId) :
    Filled hole p (endState (PoolM.fill hole tgt p)) := by
  have eq := Extends.refl p
  refine endState_bind (P := Filled hole p) (.inl (PoolM.grows_read _ p p eq)) ?_
  intro entry now hl
  obtain ⟨hf, rfl⟩ := PoolM.read_ok.mp hl
  cases entry with
  | value k => exact .inl eq
  | placeholder name old =>
    have hg := PoolM.grows_canonical tgt p p eq
    refine endState_bind (P := Filled hole p) (.inl hg) fun canonical now ran => ?_
    rw [ran] at hg
    have hg : now.Extends p := hg
    have isPlaceholder : p.entry? hole = some (.placeholder name old) := by
      unfold Pool.entry at hf
      cases here : p.entry? hole <;> simp_all
    dsimp only
    split
    · exact .inl hg
    · cases old with
      | none => exact .inr ⟨now, name, canonical, hg, isPlaceholder, rfl⟩
      | some old =>
        -- a placeholder that has a target is only compared
        refine .inl ?_
        dsimp only
        split
        · refine Always.bind (PoolM.grows_canonical old p) (fun previous => ?_) now hg
          split
          · exact Always.throw _
          · exact Always.pure _
        · exact hg

theorem advances_setTarget {q : Pool}
    (extd : q.Extends p) (wasOpen : p.entry? id = some (.placeholder name none))
    (tgt : ConstId) : p.Advances (q.setTarget id tgt) := by
  have entries := entry?_setTarget (extd.holds id _ wasOpen) tgt
  have changed : ∀ x, p.Fills (q.setTarget id tgt) x → x = id := by
    rintro x ⟨otherName, otherTarget, otherOpen, otherFilled⟩
    by_contra ne
    rw [entries, if_neg ne, extd.holds x _ otherOpen] at otherFilled
    simp at otherFilled
  constructor
  · intro x entry hf
    by_cases eq : x = id
    · rw [eq]
      exact .inr ⟨name, tgt, wasOpen, by rw [entries, if_pos rfl]⟩
    · rw [entries, if_neg eq]
      exact .inl (extd.holds x entry hf)
  · intro first snd isFirst isSecond
    rw [changed first isFirst, changed snd isSecond]

/-! ### Runs -/

/-- Only filling a placeholder changes an entry. -/
theorem extends_called (p : Pool) (call : Call) :
    (p.called call).Extends p ∨ ∃ hole tgt, call = .fill hole tgt := by
  have eq := Extends.refl p
  cases call with
  | intern k => exact .inl (PoolM.grows_intern k p p eq)
  | parameterizedType base ps => exact .inl (PoolM.grows_parameterizedType base ps p p eq)
  | newPlaceholder name => exact .inl (.addPlaceholder p name)
  | canonical id => exact .inl (PoolM.grows_canonical id p p eq)
  | typeOf id => exact .inl (PoolM.grows_typeOf id p p eq)
  | fill hole tgt => exact .inr ⟨hole, tgt, rfl⟩

/-- What any call does to a pool. -/
theorem advances_called (p : Pool) (call : Call) : p.Advances (p.called call) := by
  rcases extends_called p call with hg | ⟨hole, tgt, rfl⟩
  · exact hg.advances
  · rcases filled_fill p hole tgt with hg | ⟨q, name, target, extd, wasOpen, ended⟩
    · exact hg.advances
    · have ended : p.called (.fill hole tgt) = q.setTarget hole target := ended
      rw [ended]
      exact advances_setTarget extd wasOpen target

theorem run_cons (p : Pool) (call : Call) (calls : List Call) :
    p.run (call :: calls) = (p.called call).run calls := rfl

/-- No run takes a constant from its place. -/
theorem value_run (hf : p.entry? id = some (.value k)) (calls : List Call) :
    Pool.entry? (p.run calls) id = some (.value k) := by
  induction calls generalizing p with
  | nil => exact hf
  | cons call rest ih =>
    rw [run_cons]
    apply ih
    rcases (advances_called p call).kept id _ hf with kept | ⟨name, tgt, wasOpen, -⟩
    · exact kept
    · rw [hf] at wasOpen
      simp at wasOpen

/-- Interning is a bijection between constants and the ids of their entries, also across what is
called between interning one constant and interning another. The index has exactly the constants
among the entries, each with its id. Ids are handed out one after the other. -/
structure Interns (p : Pool) : Prop where
  indexed : ∀ k id, p.index.lookup k = some id ↔ p.entry? id = some (.value k)
  unique : p.Unique
  injective : ∀ first snd between,
    (((p.intern first).2.run between).intern snd).1 = (p.intern first).1 ↔ first = snd
  known : ∀ k id, p.entry? id = some (.value k) → p.intern k = (id, p)
  next : ∀ k, (∀ id, p.entry? id ≠ some (.value k)) → (p.intern k).1 = ⟨p.size⟩ ∧
    (p.intern k).2.entries = p.entries.push (.value k) ∧
    (p.intern k).2.index = (k, ⟨p.size⟩) :: p.index
  placeholder : ∀ name, ∃ t, PoolM.newPlaceholder name p = .ok ⟨p.size⟩ t ∧
    t.entries = p.entries.push (.placeholder name none) ∧ t.index = p.index

theorem intern_of_value (hf : p.entry? id = some (.value k)) : p.intern k = (id, p) := by
  rcases p.intern_cases k with ⟨found, here, eq⟩ | ⟨absent, -⟩
  · rw [eq, p.unique found id k here hf]
  · exact absurd hf (absent id)

/-- Two constants get the same id only if they are equal, however much later the second is
interned. -/
theorem intern_eq_intern_iff (p : Pool) (first snd : Constant) (between : List Call) :
    (((p.intern first).2.run between).intern snd).1 = (p.intern first).1 ↔ first = snd := by
  have stays := value_run (Extends.entry?_intern p first) between
  constructor
  · intro eq
    have interned := Extends.entry?_intern ((p.intern first).2.run between) snd
    have kept := (Extends.intern ((p.intern first).2.run between) snd).holds _ _ stays
    rw [eq, kept] at interned
    simpa using interned
  · rintro rfl
    rw [intern_of_value stays]

/-- A constant that is not in the pool is appended to its entries and to its index. -/
theorem intern_of_absent (absent : ∀ id, p.entry? id ≠ some (.value k)) :
    (p.intern k).1 = ⟨p.size⟩ ∧ (p.intern k).2.entries = p.entries.push (.value k) ∧
      (p.intern k).2.index = (k, ⟨p.size⟩) :: p.index := by
  have new : p.index.lookup k = none := by
    by_contra known
    obtain ⟨id, known⟩ := Option.ne_none_iff_exists'.mp known
    exact absent id (lookup_index.mp known)
  have eq := Store.intern_of_new new
  exact ⟨congrArg (·.1) eq, congrArg (·.2.entries) eq, congrArg (·.2.index) eq⟩

/-- Whatever was called on a pool that was empty at first: the index has a constant exactly with the
id of its entry, no two ids hold the same constant, and constants are equal exactly if they are
interned with the same id. Any further call leaves all entries as they are, but for an open
placeholder that gets its target. -/
theorem run_interns (calls : List Call) : (empty.run calls).Interns ∧
      ∀ call, (empty.run calls).Advances ((empty.run calls).called call) := by
  refine ⟨?_, fun call => advances_called _ call⟩
  exact
    { indexed := fun _ _ => lookup_index
      unique := unique _
      injective := intern_eq_intern_iff _
      known := fun _ _ => intern_of_value
      next := fun _ => intern_of_absent
      placeholder := fun name => ⟨_, rfl, rfl, rfl⟩ }

end Pool

end TreeCompiler
