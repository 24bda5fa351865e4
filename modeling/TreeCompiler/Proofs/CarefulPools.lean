import TreeCompiler.Proofs.Placeholders

/-!
# Careful changes of a pool

A pool changes by one entry at a time. As long as constants are built from ids of the pool and
placeholders are filled with what depends on no open one, no constant comes to contain itself, and
the walks over constants end. Interning, looking for canonical constants, fitting types and folding
constants are made of such changes only, wherever they end.
-/

namespace TreeCompiler

open Step

variable {ex : Expansion} {k : Constant}

namespace Pool

/-- A careful change of a pool: a constant is interned whose parts are in the pool, a placeholder is
opened, or an open placeholder gets a target that depends on no open one. -/
inductive Moves (p : Pool) : Pool → Prop
  | intern (k : Constant) (hi : ∀ c ∈ k.children, c.index < p.size) :
      Moves p (p.intern k).2
  | placeholder (name : String) : Moves p (p.addPlaceholder name).2
  | fill {placeholder tgt : ConstId} {name : String}
      (ho : p.entry? placeholder = some (.placeholder name none))
      (res : p.isResolved tgt = .ok true) : Moves p (p.setTarget placeholder tgt)

/-- A pool that another becomes by careful changes. -/
def Evolves (b t : Pool) : Prop := Relation.ReflTransGen Moves b t

instance : Trans Evolves Evolves Evolves where
  trans he later := Relation.ReflTransGen.trans he later

variable {p b t : Pool} {id : ConstId}

theorem Moves.expandable (hm : b.Moves t) (all : b.Expandable) : t.Expandable := by
  cases hm with
  | intern k hi => exact all.intern hi
  | placeholder name => exact all.addPlaceholder name
  | fill ho res =>
    obtain ⟨term, means⟩ := means_of_isResolved res
    exact all.setTarget ho means.expands (not_leaves_expansion term)

theorem Moves.advances (hm : b.Moves t) : b.Advances t := by
  cases hm with
  | intern k hi => exact (Extends.intern b k).advances
  | placeholder name => exact (Extends.addPlaceholder b name).advances
  | fill ho res => exact advances_setTarget (Extends.refl b) ho _

theorem Moves.size_le (hm : b.Moves t) : b.size ≤ t.size := by
  cases hm with
  | intern k hi => exact (Extends.intern b k).size_le
  | placeholder name => exact (Extends.addPlaceholder b name).size_le
  | fill ho res => simp [setTarget, Store.setTarget, size]

namespace Evolves

theorem refl (p : Pool) : p.Evolves p := Relation.ReflTransGen.refl

theorem of_moves (hm : b.Moves t) : b.Evolves t := .single hm

theorem expandable (evolves : b.Evolves t) (all : b.Expandable) : t.Expandable := by
  induction evolves with
  | refl => exact all
  | tail _ hm ih => exact hm.expandable ih

theorem size_le (evolves : b.Evolves t) : b.size ≤ t.size := by
  induction evolves with
  | refl => exact Nat.le_refl _
  | tail _ hm ih => exact Nat.le_trans ih hm.size_le

theorem retains (evolves : b.Evolves t) : b.Retains t := by
  induction evolves with
  | refl => exact .refl _
  | tail _ hm ih => exact ih.trans hm.advances.retains

end Evolves

/-! ### Walks that end -/

/-- In a pool whose ids can be written out, one can only go down finitely often. -/
theorem Expandable.acc (all : p.Expandable) (hi : id.index < p.size) :
    Acc (fun part whole => p.Refers whole part) id := by
  obtain ⟨ex, hx⟩ := all id hi
  induction hx with
  | hole hf =>
    refine ⟨_, fun part refers => ?_⟩
    obtain ⟨entry, here, mem⟩ := refers
    obtain rfl := Option.some.inj (hf.symm.trans here)
    simp [Entry.parts] at mem
  | link _ hf rest ih =>
    refine ⟨_, fun part refers => ?_⟩
    obtain ⟨entry, here, mem⟩ := refers
    obtain rfl := Option.some.inj (hf.symm.trans here)
    obtain rfl : part = _ := by simpa [Entry.parts] using mem
    exact ih rest.lt_size
  | @node id k ps hf arity each ih =>
    refine ⟨_, fun part refers => ?_⟩
    obtain ⟨entry, here, mem⟩ := refers
    obtain rfl := Option.some.inj (hf.symm.trans here)
    obtain ⟨i, low, rfl⟩ := List.mem_iff_getElem.mp mem
    have hasChild := List.getElem?_eq_getElem low
    have hasPart := List.getElem?_eq_getElem (show i < ps.length from arity ▸ low)
    exact ih i _ _ hasChild hasPart (each i _ _ hasChild hasPart).lt_size

/-- An id that is not in the pool is built from nothing. -/
theorem acc_of_outside (outside : p.size ≤ id.index) :
    Acc (fun part whole => p.Refers whole part) id :=
  ⟨_, fun _ ⟨_, hf, _⟩ => absurd (lt_size_of_found hf) (Nat.not_lt.mpr outside)⟩

theorem Expandable.wellFounded (all : p.Expandable) :
    WellFounded fun part whole => p.Refers whole part := by
  refine ⟨fun id => ?_⟩
  by_cases hi : id.index < p.size
  · exact all.acc hi
  · exact acc_of_outside (Nat.le_of_not_lt hi)

end Pool

/-! ### Steps on pools -/

namespace PoolM

open Pool

variable {p : Pool}

theorem goes_read {α : Type} (look : Pool → Except PoolError α) :
    Goes Evolves (read look) (fun a t => look p = .ok a ∧ t = p) p := by
  cases hf : look p with
  | ok a => exact Goes.of_ok (read_of_ok hf) (.refl p) ⟨rfl, rfl⟩
  | error error => exact Goes.of_error (read_of_error hf) (.refl p)

theorem goes_intern (hi : ∀ c ∈ k.children, c.index < p.size) :
    Goes Evolves (intern k) (fun id t => id.index < t.size) p :=
  Goes.of_ok rfl (.of_moves (.intern k hi)) (lt_size_of_found (Extends.entry?_intern p k))

theorem goes_internLeaf (leaf : k.children = []) :
    Goes Evolves (intern k) (fun id t => id.index < t.size) p :=
  goes_intern (by simp [leaf])

theorem goes_newPlaceholder (name : String) :
    Goes Evolves (newPlaceholder name) (fun id t => id.index < t.size) p :=
  Goes.of_ok rfl (.of_moves (.placeholder name)) (by
    have grown : (p.addPlaceholder name).2.size = p.size + 1 := size_of_push rfl
    show p.size < (p.addPlaceholder name).2.size
    omega)

theorem goes_parameterizedType {base : ConstId} {ps : List ConstId} (inBase : base.index < p.size)
    (inParams : ∀ param ∈ ps, param.index < p.size) :
    Goes Evolves (parameterizedType base ps) (fun id t => id.index < t.size) p := by
  cases ps with
  | nil => exact Goes.pure (.refl p) inBase
  | cons param rest =>
    refine goes_intern fun c mem => ?_
    rcases List.mem_cons.mp mem with rfl | mem
    · exact inBase
    · exact inParams c mem

/-- The ids that steps found one by one are in the pool in which the last of them ended. -/
theorem goes_mapM {step : ConstId → PoolM ConstId} (each : ∀ {now : Pool} id, now.Expandable →
      Goes Evolves (step id) (fun twin t => twin.index < t.size) now)
    (ids : List ConstId) (all : p.Expandable) :
    Goes Evolves (ids.mapM step) (fun twins t => ∀ twin ∈ twins, twin.index < t.size) p := by
  induction ids generalizing p with
  | nil =>
    rw [List.mapM_nil]
    exact Goes.pure (.refl p) (by simp)
  | cons id rest ih =>
    rw [List.mapM_cons]
    refine Goes.bind (each id all) fun twin mid evolves fst =>
      Goes.bind (ih (evolves.expandable all)) fun twins t hf others =>
      Goes.pure (.refl t) fun x mem => ?_
    rcases List.mem_cons.mp mem with rfl | mem
    · exact Nat.lt_of_lt_of_le fst hf.size_le
    · exact others x mem

theorem goes_canonicalWithin (n : Nat) (id : ConstId) (all : p.Expandable) :
    Goes Evolves (canonicalWithin n id) (fun twin t => twin.index < t.size) p := by
  induction n generalizing id p with
  | zero => exact Goes.throw (.refl p)
  | succ n ih =>
    refine Goes.bind (goes_read _) fun tgt _ _ ⟨followed, eq⟩ => ?_
    subst eq
    refine Goes.bind (goes_read _) fun entry _ _ ⟨hf, eq⟩ => ?_
    subst eq
    have hi := lt_size_of_found (entry?_of_entry hf)
    cases entry with
    | placeholder name tgt => exact Goes.pure (.refl _) hi
    | value k =>
      dsimp only
      rw [Constant.mapChildrenM_eq]
      refine Goes.bind (Goes.map (goes_mapM ih k.children all).withRun) fun rebuilt mid evolves ans => ?_
      obtain ⟨twins, rfl, win, ran⟩ := ans
      split
      · exact Goes.pure (.refl _) (Nat.lt_of_lt_of_le hi evolves.size_le)
      · refine goes_intern ?_
        rw [Constant.children_withParts (mapM_trace (grows_canonicalWithin n) ran).1]
        exact win

theorem goes_canonical (id : ConstId) (all : p.Expandable) :
    Goes Evolves (canonical id) (fun twin t => twin.index < t.size) p :=
  Goes.get (goes_canonicalWithin _ id all)

theorem goes_typeOfWithin (n : Nat) (id : ConstId) (all : p.Expandable) :
    Goes Evolves (typeOfWithin n id) (fun ty t => ty.index < t.size) p := by
  induction n generalizing id p with
  | zero => exact Goes.throw (.refl p)
  | succ n ih =>
    refine Goes.bind (goes_read _) fun k _ _ ⟨_, eq⟩ => ?_
    subst eq
    rcases k with _ | _ | _ | _ | _ | _ | es | _
    case some.tuple =>
      exact Goes.bind (goes_mapM ih es all) fun types mid _ win => goes_intern win
    case none | some.type => exact Goes.throw (.refl _)
    all_goals exact goes_internLeaf rfl

theorem goes_typeOf (id : ConstId) (all : p.Expandable) :
    Goes Evolves (typeOf id) (fun ty t => ty.index < t.size) p :=
  Goes.get (goes_typeOfWithin _ id all)

/-- What depends on no open placeholder may fill any. -/
theorem goes_fill {hole tgt : ConstId} (all : p.Expandable)
    (res : p.isResolved tgt = .ok true) :
    Goes Evolves (fill hole tgt) (fun _ _ => True) p := by
  refine Goes.bind (goes_read _) fun entry _ _ ⟨hf, eq⟩ => ?_
  subst eq
  cases entry with
  | value k => exact Goes.throw (.refl _)
  | placeholder name old =>
    refine Goes.bind (goes_canonical tgt all).withRun fun twin mid evolves ⟨_, ran⟩ => ?_
    obtain ⟨term, means⟩ := means_of_isResolved res
    obtain ⟨twin', middle', ran', hg, spells⟩ := means.canonical
    obtain ⟨rfl, rfl⟩ : twin = twin' ∧ mid = middle' := by
      rw [ran] at ran'
      injection ran' with fst snd
      exact ⟨fst, snd⟩
    have isThere := hg.holds _ _ (entry?_of_entry hf)
    dsimp only
    split
    · exact Goes.throw (.refl _)
    · cases old with
      | none => exact Goes.of_ok rfl (.of_moves (.fill isThere spells.means.isResolved)) trivial
      | some old =>
        dsimp only
        split
        · refine Goes.bind (goes_canonical old (evolves.expandable all)) fun previous _ _ _ => ?_
          split
          · exact Goes.throw (.refl _)
          · exact Goes.pure (.refl _) trivial
        · exact Goes.pure (.refl _) trivial

end PoolM

namespace Validation

open Pool PoolM

variable {p : Pool}

theorem goes_fieldsFit {fit : ConstId → ConstId → PoolM Fit}
    (ps : ∀ {now : Pool} actual req, now.Expandable →
      Goes Evolves (fit actual req) (fun _ _ => True) now)
    (fields : List (ConstId × ConstId)) (all : p.Expandable) :
    Goes Evolves (fieldsFit fit fields) (fun _ _ => True) p := by
  induction fields generalizing p with
  | nil => exact Goes.pure (.refl p) trivial
  | cons field rest ih =>
    refine Goes.bind (ps _ _ all) fun fit mid evolves _ => ?_
    have goes := ih (evolves.expandable all)
    split
    · exact Goes.pure (.refl _) trivial
    · exact goes
    · exact goes.map.answering fun _ _ _ _ => trivial
    · exact goes.map.answering fun _ _ _ _ => trivial

theorem goes_structuralFit {fit : ConstId → ConstId → PoolM Fit}
    (ps : ∀ {now : Pool} actual req, now.Expandable →
      Goes Evolves (fit actual req) (fun _ _ => True) now)
    (actual : ConstId) (want actualType : TypeConstant) (all : p.Expandable) :
    Goes Evolves (structuralFit fit actual want actualType) (fun _ _ => True) p := by
  have mapped : ∀ {now : Pool} (f : Fit → Fit) actual req, now.Expandable →
      Goes Evolves (f <$> fit actual req) (fun _ _ => True) now :=
    fun f actual req all =>
      (ps actual req all).map.answering fun _ _ _ _ => trivial
  unfold structuralFit
  split
  · refine Goes.bind (goes_internLeaf rfl) fun null mid evolves _ => ?_
    split
    · exact Goes.pure (.refl _) trivial
    · split <;> exact mapped _ _ _ (evolves.expandable all)
  · split
    · exact goes_fieldsFit ps _ all
    · split
      · exact mapped _ _ _ all
      · exact Goes.pure (.refl _) trivial
  · exact mapped _ _ _ all
  · exact Goes.pure (.refl _) trivial

theorem goes_fitWithin (n : Nat) (actual req : ConstId) (all : p.Expandable) :
    Goes Evolves (fitWithin n actual req) (fun _ _ => True) p := by
  induction n generalizing actual req p with
  | zero => exact Goes.throw (.refl p)
  | succ n ih =>
    refine Goes.bind (goes_canonical actual all) fun actual fst evolves _ => ?_
    have allFirst := evolves.expandable all
    refine Goes.bind (goes_canonical req allFirst) fun req snd evolves _ => ?_
    have allSecond := evolves.expandable allFirst
    split
    · exact Goes.pure (.refl _) trivial
    · refine Goes.bind (goes_internLeaf rfl) fun object third evolves _ => ?_
      have allThird := evolves.expandable allSecond
      split
      · exact Goes.pure (.refl _) trivial
      · refine Goes.bind (goes_read _) fun want _ _ ⟨_, eq⟩ => ?_
        subst eq
        refine Goes.bind (goes_read _) fun actualType _ _ ⟨_, eq⟩ => ?_
        subst eq
        split
        · exact goes_structuralFit ih _ _ _ allThird
        · exact Goes.pure (.refl _) trivial

theorem goes_fit (actual req : ConstId) (all : p.Expandable) :
    Goes Evolves (fit actual req) (fun _ _ => True) p :=
  Goes.get (goes_fitWithin _ _ _ all)

/-- A constant that was folded is in the pool. -/
theorem goes_folded (leaf : k.children = []) : Goes Evolves (some <$> intern k)
      (fun folded t => ∀ v, folded = some v → v.index < t.size) p := by
  refine (goes_internLeaf leaf).map.answering fun folded t _ ans => ?_
  obtain ⟨id, rfl, hi⟩ := ans
  rintro v ⟨rfl⟩
  exact hi

theorem goes_foldUnary (op : UnaryOp) (arg : ConstId) : Goes Evolves (foldUnary op arg)
      (fun folded t => ∀ v, folded = some v → v.index < t.size) p := by
  cases op
  all_goals
    refine Goes.bind (goes_read _) fun v _ _ ⟨_, eq⟩ => ?_
    subst eq
    split
    · exact goes_folded rfl
    · exact Goes.pure (.refl _) (by simp)

theorem children_of_foldConstants {op : BinaryOp} {left right : Constant}
    (folded : foldConstants op left right = some k) : k.children = [] := by
  unfold foldConstants at folded
  split at folded
  · cases op <;> simp only [foldInts, Option.map_eq_some_iff, Option.some.injEq, reduceCtorEq] at folded
    all_goals
      obtain ⟨v, -, rfl⟩ := folded
      rfl
  · cases op <;> simp only [foldChars, Option.some.injEq, reduceCtorEq] at folded
    all_goals
      subst folded
      rfl
  · split at folded
    · cases folded
      rfl
    · simp at folded
  · simp at folded

theorem goes_foldBinary (op : BinaryOp) (left right : ConstId) (all : p.Expandable) :
    Goes Evolves (foldBinary op left right)
      (fun folded t => ∀ v, folded = some v → v.index < t.size) p := by
  refine Goes.bind (goes_read _) fun leftValue _ _ ⟨_, eq⟩ => ?_
  subst eq
  refine Goes.bind (goes_read _) fun rightValue _ _ ⟨_, eq⟩ => ?_
  subst eq
  split
  · split
    · exact Goes.bind (goes_canonical left all) fun _ _ evolves _ =>
        Goes.bind (goes_canonical right (evolves.expandable all)) fun _ _ _ _ => goes_folded rfl
    · split
      · rename_i k folded
        exact goes_folded (children_of_foldConstants folded)
      · exact Goes.pure (.refl _) (by simp)
  · exact Goes.pure (.refl _) (by simp)

end Validation

end TreeCompiler
