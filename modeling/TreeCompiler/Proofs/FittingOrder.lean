import TreeCompiler.Proofs.FittingTypes
import TreeCompiler.Proofs.ResolvedTypes

/-!
# The order of types

Fitting is a preorder on the resolved types of a pool. How far down types are followed does not
matter once it is far enough, so a type fits as its canonical twin does.
-/

namespace TreeCompiler

open Step Relation

namespace Pool

variable {p : Pool} {id tgt : ConstId} {term : Term}

/-- Whatever an id is built from is a type. -/
def TypesOnly (p : Pool) (id : ConstId) : Prop :=
  ∀ part, ReflTransGen p.Refers id part → p.isType part = .ok true

theorem Leads.refers {count : Nat} (hl : p.Leads count id tgt) : ReflTransGen p.Refers id tgt := by
  induction hl with
  | stop => exact .refl
  | link hf _ ih => exact .head ⟨_, hf, by simp [Entry.parts]⟩ ih

theorem TypesOnly.typed (only : p.TypesOnly id) (means : p.Means id term) : term.Typed := by
  induction means with
  | @intro id k ps hf arity _ ih =>
    have ht := only id .refl
    simp only [Pool.isType, hf, bind, Except.bind, pure, Except.pure] at ht
    cases k with
    | type ty =>
      refine .intro fun part mem => ?_
      obtain ⟨i, hi, rfl⟩ := List.getElem_of_mem mem
      have hasChild := List.getElem?_eq_getElem (arity ▸ hi)
      refine ih i _ _ hasChild (List.getElem?_eq_getElem hi) fun x reaches => only x ?_
      obtain ⟨tgt, followed, entry⟩ := follow_of_get hf
      obtain ⟨count, hl⟩ := Leads.of_followWithin followed
      exact (hl.refers.tail ⟨_, entry, List.mem_of_getElem? hasChild⟩).trans reaches
    | _ => simp [Constant.type?] at ht

end Pool

/-- A step that ends as another one does wherever that one ends. -/
def PoolM.Outlasts {α : Type} (more step : PoolM α) : Prop :=
  ∀ ⦃p v t⦄, step p = .ok v t → more p = .ok v t

namespace PoolM.Outlasts

variable {α β : Type} {more step : PoolM α} {next further : α → PoolM β}

theorem refl (step : PoolM α) : Outlasts step step := fun _ _ _ ran => ran

theorem bind (fst : Outlasts more step) (rest : ∀ v, Outlasts (further v) (next v)) :
    Outlasts (more >>= further) (step >>= next) := by
  intro p ans ended ran
  obtain ⟨v, t, ran, ranRest⟩ := bind_ok.mp ran
  exact bind_ok.mpr ⟨v, t, fst ran, rest v ranRest⟩

theorem map {f : α → β} (outlasts : Outlasts more step) : Outlasts (f <$> more) (f <$> step) := by
  intro p ans ended ran
  obtain ⟨v, ran, eq⟩ := map_ok.mp ran
  exact map_ok.mpr ⟨v, outlasts ran, eq⟩

end PoolM.Outlasts

namespace Validation

open PoolM

section Depth

variable {fit more : ConstId → ConstId → PoolM Fit}
  (outlasts : ∀ actual req, Outlasts (more actual req) (fit actual req))

include outlasts

theorem outlasts_fieldsFit (fields : List (ConstId × ConstId)) :
    Outlasts (fieldsFit more fields) (fieldsFit fit fields) := by
  induction fields with
  | nil => exact .refl _
  | cons field rest ih =>
    refine .bind (outlasts _ _) fun hf => ?_
    cases hf with
    | fail => exact .refl _
    | exact => exact ih
    | convertible | pack => exact .map ih

theorem outlasts_structuralFit (actual : ConstId) (want ty : TypeConstant) :
    Outlasts (structuralFit more actual want ty) (structuralFit fit actual want ty) := by
  unfold structuralFit
  split
  · refine .bind (.refl _) fun null => ?_
    split
    · exact .refl _
    · split <;> exact .map (outlasts _ _)
  · split
    · exact outlasts_fieldsFit outlasts _
    · split
      · exact .map (outlasts _ _)
      · exact .refl _
  · exact .map (outlasts _ _)
  · exact .refl _

end Depth

theorem outlasts_fitWithin {n deeper : Nat} (more : n ≤ deeper) (actual req : ConstId) :
    Outlasts (fitWithin deeper actual req) (fitWithin n actual req) := by
  induction n generalizing deeper actual req with
  | zero => exact fun _ _ _ ran => by simp [fitWithin] at ran
  | succ n ih =>
    obtain ⟨deeper, rfl⟩ := Nat.exists_eq_add_of_le' more
    have further (actual req : ConstId) := ih (Nat.le_add_left n deeper) actual req
    refine .bind (.refl _) fun actual => .bind (.refl _) fun req => ?_
    split
    · exact .refl _
    refine .bind (.refl _) fun object => ?_
    split
    · exact .refl _
    refine .bind (.refl _) fun want => .bind (.refl _) fun ty => ?_
    split
    · exact outlasts_structuralFit further _ _ _
    · exact .refl _

theorem fit_canonical {p mid twinned t : Pool} {actual req twin wanted : ConstId} {got : Fit}
    {ty want : Term} (means : p.Means actual ty) (meansWant : p.Means req want)
    (ran : fit actual req p = .ok got t) (ranTwin : canonical actual p = .ok twin mid)
    (ranWanted : canonical req mid = .ok wanted twinned) : fit twin wanted twinned = .ok got t := by
  obtain ⟨rest, shape⟩ : ∃ rest : ConstId → ConstId → PoolM Fit, ∀ actual req,
      fitWithin (p.size + 1) actual req =
        (do rest (← canonical actual) (← canonical req)) := ⟨_, fun _ _ => rfl⟩
  obtain ⟨hg, spells⟩ := (Pool.gives_canonical means).of_ok ranTwin
  obtain ⟨further, spellsWanted⟩ := (Pool.gives_canonical (meansWant.extends hg)).of_ok ranWanted
  have ran : rest twin wanted twinned = .ok got t := by
    refine Eq.trans ?_ ran
    show _ = fitWithin (p.size + 1) actual req p
    rw [shape, bind_of_ok ranTwin, bind_of_ok ranWanted]
  have again : fitWithin (p.size + 1) twin wanted twinned = .ok got t := by
    rw [shape, bind_of_ok (spells.extends further).canonical, bind_of_ok spellsWanted.canonical, ran]
  exact outlasts_fitWithin (Nat.succ_le_succ (further.trans hg).size_le) _ _ again

/-- A type fits itself as it is. -/
theorem fit_self {p : Pool} {id : ConstId} {term : Term} (means : p.Means id term) :
    ∃ t, fit id id p = .ok .exact t := by
  obtain ⟨fst, mid, ranFirst, hg, spells⟩ := Pool.gives_canonical means
  obtain ⟨snd, t, ranSecond, further, again⟩ := Pool.gives_canonical (means.extends hg)
  have eq : fst = snd :=
    (spells.extends further).eq again
  refine ⟨t, ?_⟩
  show fitWithin (p.size + 1) id id p = _
  rw [fitWithin, bind_of_ok ranFirst, bind_of_ok ranSecond, if_pos eq]
  rfl

/-- In whatever state a pool is, types that depend on no open placeholder are found to fit or not:
each fits itself as it is, two fit as their canonical twins do, and what fits a type fits whatever
that type fits, if it is built from types only. -/
theorem fit_is_preorder (calls : List Pool.Call) {first second third : ConstId}
    (resolved : ∀ id ∈ [first, second, third], (Pool.empty.run calls).isResolved id = .ok true)
    (types : (Pool.empty.run calls).TypesOnly first) :
    (∃ after, fit first first (Pool.empty.run calls) = .ok .exact after) ∧
    (∃ found after twin middle wanted twinned,
      fit first second (Pool.empty.run calls) = .ok found after ∧
      canonical first (Pool.empty.run calls) = .ok twin middle ∧
      canonical second middle = .ok wanted twinned ∧ fit twin wanted twinned = .ok found after) ∧
    ∃ near nearAfter far farAfter whole wholeAfter,
      fit first second (Pool.empty.run calls) = .ok near nearAfter ∧
      fit second third (Pool.empty.run calls) = .ok far farAfter ∧
      fit first third (Pool.empty.run calls) = .ok whole wholeAfter ∧
      (near ≠ .fail → far ≠ .fail → whole ≠ .fail) := by
  have isFit_iff (found : Fit) : found.isFit = true ↔ found ≠ .fail := by cases found <;> simp [Fit.isFit]
  obtain ⟨firstTerm, meansFirst⟩ := Pool.means_of_isResolved (resolved first (by simp))
  obtain ⟨secondTerm, meansSecond⟩ := Pool.means_of_isResolved (resolved second (by simp))
  obtain ⟨thirdTerm, meansThird⟩ := Pool.means_of_isResolved (resolved third (by simp))
  obtain ⟨near, nearAfter, ranNear, -, decidesNear⟩ := gives_fit meansFirst meansSecond
  obtain ⟨far, farAfter, ranFar, -, decidesFar⟩ := gives_fit meansSecond meansThird
  obtain ⟨whole, wholeAfter, ranWhole, -, decidesWhole⟩ := gives_fit meansFirst meansThird
  obtain ⟨twin, middle, ranTwin, grown, -⟩ := Pool.gives_canonical meansFirst
  obtain ⟨wanted, twinned, ranWanted, -⟩ := Pool.gives_canonical (meansSecond.extends grown)
  refine ⟨fit_self meansFirst, ⟨near, nearAfter, twin, middle, wanted, twinned, ranNear, ranTwin,
    ranWanted, fit_canonical meansFirst meansSecond ranNear ranTwin ranWanted⟩, ?_⟩
  refine ⟨near, nearAfter, far, farAfter, whole, wholeAfter, ranNear, ranFar, ranWhole, fun fits further => ?_⟩
  rw [← isFit_iff] at fits further ⊢
  exact decidesWhole.2 (types.typed meansFirst) ((decidesNear.1 fits).trans (decidesFar.1 further))

/-- Classes named early fit nullable types that are built in both ways. -/
theorem namedEarly_preorder : ∃ near nearAfter far farAfter whole wholeAfter,
    fit ⟨0⟩ ⟨2⟩ (Pool.empty.run namedEarly) = .ok near nearAfter ∧
    fit ⟨2⟩ ⟨3⟩ (Pool.empty.run namedEarly) = .ok far farAfter ∧
    fit ⟨0⟩ ⟨3⟩ (Pool.empty.run namedEarly) = .ok whole wholeAfter ∧
    (near ≠ .fail → far ≠ .fail → whole ≠ .fail) := by
  have types : ∀ index < 4, earlyPool.isType ⟨index⟩ = .ok true := by decide
  refine (fit_is_preorder namedEarly ?_ fun part reaches => ?_).2.2
  · decide
  · have complete : earlyPool.Complete ⟨0⟩ := earlyPool_complete (by decide)
    obtain ⟨entry, found⟩ := Option.isSome_iff_exists.mp (complete part reaches)
    exact types part.index (Pool.lt_size_of_found found)

end Validation

end TreeCompiler
