import TreeCompiler.Proofs.TypeShapes

/-!
# Fitting types

When a value of one type can be used where another is asked for, said of types that are written out:
everything converts to the object type, null and values to nullable types, tuples field by field,
and a single value is packed. Types fit along this relation, which is transitive, exactly if they
are found to fit.
-/

namespace TreeCompiler

open Step

namespace Term

/-- A class. -/
def namedType (name : String) : Term := node (.type (.named name)) []

/-- A value of the first type can be used where the second is asked for. -/
inductive Fits : Term → Term → Prop
  | refl (ty : Term) : Fits ty ty
  | object (ty : Term) : Fits ty (namedType "Object")
  | null (base : Term) : Fits (namedType "Nullable") (nullableType base)
  | lift {ty base : Term} (fits : Fits ty base) : Fits ty (nullableType base)
  | under {ty base : Term} (fits : Fits ty base) : Fits (nullableType ty) (nullableType base)
  | fields {types wanted : List Term} (arity : types.length = wanted.length)
      (each : ∀ (i : Nat) ty want, types[i]? = some ty → wanted[i]? = some want →
        Fits ty want) : Fits (tupleType types) (tupleType wanted)
  | pack {ty want : Term} (fits : Fits ty want) : Fits ty (tupleType [want])

/-- Types all through: no part is a value. -/
inductive Typed : Term → Prop
  | intro {ty : TypeConstant} {ps : List Term} (each : ∀ part ∈ ps, Typed part) :
    Typed (node (.type ty) ps)

theorem Typed.label {l : Constant} {ps : List Term} (typed : (node l ps).Typed) :
    ∃ ty, l = .type ty := by
  cases typed with
  | intro => exact ⟨_, rfl⟩

/-- A term of at most so many levels. -/
inductive Within : Nat → Term → Prop
  | intro {n : Nat} {l : Constant} {ps : List Term} (each : ∀ part ∈ ps, Within n part) :
    Within (n + 1) (node l ps)

namespace Fits

variable {ty base want : Term} {types wanted : List Term}

/-- Only classes other than the object type ask for themselves. -/
theorem shape (fits : Fits ty want) : ty = want ∨ want = namedType "Object" ∨
    (∃ base, want = nullableType base) ∨ ∃ wanted, want = tupleType wanted := by
  cases fits with
  | refl => exact .inl rfl
  | object => exact .inr (.inl rfl)
  | null | lift | under => exact .inr (.inr (.inl ⟨_, rfl⟩))
  | fields | pack => exact .inr (.inr (.inr ⟨_, rfl⟩))

theorem eq_of_named {name : String} (fits : Fits ty (namedType name)) (hp : name ≠ "Object") :
    ty = namedType name := by
  rcases fits.shape with eq | object | ⟨base, nullable⟩ | ⟨wanted, tuple⟩
  · exact eq
  · simp [namedType, hp] at object
  · simp [namedType, nullableType] at nullable
  · simp [namedType, tupleType] at tuple

theorem of_nullable (fits : Fits ty (nullableType base)) : ty = nullableType base ∨
    ty = namedType "Nullable" ∨ Fits ty base ∨ ∃ i, ty = nullableType i ∧ Fits i base := by
  generalize he : nullableType base = want at fits
  cases fits with
  | refl => exact .inl rfl
  | object => simp [namedType, nullableType] at he
  | null x => exact .inr (.inl rfl)
  | lift fits =>
    cases he
    exact .inr (.inr (.inl fits))
  | under fits =>
    cases he
    exact .inr (.inr (.inr ⟨_, rfl, fits⟩))
  | fields | pack => simp [tupleType, nullableType] at he

theorem of_tuple (fits : Fits ty (tupleType wanted)) :
    (∃ types, ty = tupleType types ∧ types.length = wanted.length ∧
      ∀ (i : Nat) ty want, types[i]? = some ty → wanted[i]? = some want → Fits ty want) ∨
    ∃ want, wanted = [want] ∧ Fits ty want := by
  generalize he : tupleType wanted = want at fits
  cases fits with
  | refl =>
    refine .inl ⟨wanted, he.symm, rfl, fun i ty want first snd => ?_⟩
    rw [Option.some.inj (first.symm.trans snd)]
    exact .refl want
  | object => simp [namedType, tupleType] at he
  | null | lift | under => simp [nullableType, tupleType] at he
  | fields arity each =>
    obtain rfl : wanted = _ := (Term.node.inj he).2
    exact .inl ⟨_, rfl, arity, each⟩
  | pack fits =>
    obtain rfl : wanted = _ := (Term.node.inj he).2
    exact .inr ⟨_, rfl, fits⟩

theorem trans {first snd third : Term} (fits : Fits first snd) (hf : Fits snd third) :
    Fits first third := by
  induction hf generalizing first with
  | refl => exact fits
  | object => exact .object first
  | null base =>
    rw [fits.eq_of_named (by simp)]
    exact .null base
  | lift _ ih => exact .lift (ih fits)
  | pack _ ih => exact .pack (ih fits)
  | @under ty base hf ih =>
    rcases fits.of_nullable with rfl | rfl | direct | ⟨i, rfl, direct⟩
    · exact .under hf
    · exact .null base
    · exact .lift (ih direct)
    · exact .under (ih direct)
  | @fields types wanted arity each ih =>
    rcases fits.of_tuple with ⟨others, rfl, eq, fields⟩ | ⟨want, rfl, direct⟩
    · refine .fields (eq.trans arity) fun j first last hasFirst hasLast => ?_
      have hi : j < types.length := by
        have bound := (List.getElem?_eq_some_iff.mp hasLast).1
        omega
      have hasMiddle : types[j]? = some types[j] := List.getElem?_eq_getElem hi
      exact ih j _ last hasMiddle hasLast (fields j first _ hasFirst hasMiddle)
    · obtain ⟨last, rfl⟩ : ∃ last, wanted = [last] := List.length_eq_one_iff.mp arity.symm
      exact .pack (ih 0 want last rfl rfl direct)

theorem of_under (fits : Fits (nullableType ty) want) : Fits ty want :=
  trans (.lift (.refl ty)) fits

theorem of_pack (fits : Fits (tupleType [ty]) want) : Fits ty want :=
  trans (.pack (.refl ty)) fits

end Fits

theorem node_tupleType {R : ConstId → Term → Prop} {ids : List ConstId} {ps : List Term}
    (all : List.Forall₂ R ids ps) : node (Constant.type (.tuple ids)).shell ps = tupleType ps := by
  simp [tupleType, Constant.shell, Constant.mapChildrenM, TypeConstant.mapChildrenM, all.length_eq]

end Term

/-! ### How types are found to fit -/

/-- A step that ends well in a larger pool, with a property. -/
def PoolM.Gives {α : Type} (step : PoolM α) (p : Pool) (post : α → Pool → Prop) : Prop :=
  ∃ v t, step p = .ok v t ∧ t.Extends p ∧ post v t

namespace PoolM.Gives

variable {α β : Type} {step : PoolM α} {next : α → PoolM β} {p : Pool} {v : α}
  {post mid : α → Pool → Prop} {last : β → Pool → Prop}

theorem pure (h : post v p) : Gives (Pure.pure v) p post :=
  ⟨v, p, rfl, .refl p, h⟩

theorem bind_read {look : Pool → Except PoolError α} (hf : look p = .ok v)
    (rest : Gives (next v) p last) : Gives (PoolM.read look >>= next) p last := by
  obtain ⟨ans, ended, ran, hg, ends⟩ := rest
  exact ⟨ans, ended, (bind_of_ok (read_of_ok hf)).trans ran, hg, ends⟩

theorem bind (first : Gives step p mid)
    (rest : ∀ v t, t.Extends p → mid v t → Gives (next v) t last) :
    Gives (step >>= next) p last := by
  obtain ⟨v, t, ran, hg, h⟩ := first
  obtain ⟨ans, ended, ranRest, hf, ends⟩ := rest v t hg h
  exact ⟨ans, ended, (bind_of_ok ran).trans ranRest, hf.trans hg, ends⟩

theorem mono (gives : Gives step p mid) (weaker : ∀ v t, t.Extends p → mid v t → post v t) :
    Gives step p post := by
  obtain ⟨v, t, ran, hg, h⟩ := gives
  exact ⟨v, t, ran, hg, weaker v t hg h⟩

theorem map {f : α → β} (gives : Gives step p fun v t => last (f v) t) :
    Gives (f <$> step) p last := by
  obtain ⟨v, t, ran, hg, h⟩ := gives
  exact ⟨f v, t, map_ok.mpr ⟨v, ran, rfl⟩, hg, h⟩

theorem of_ok {t : Pool} (gives : Gives step p post) (ran : step p = .ok v t) :
    t.Extends p ∧ post v t := by
  obtain ⟨x, ended, also, hg, h⟩ := gives
  rw [ran] at also
  cases also
  exact ⟨hg, h⟩

end PoolM.Gives

namespace Pool

variable {p : Pool} {id : ConstId} {term : Term}

theorem gives_canonical (means : p.Means id term) :
    PoolM.Gives (PoolM.canonical id) p fun twin t => t.Spells twin term := by
  obtain ⟨twin, t, ran, hg, spells⟩ := means.canonical
  exact ⟨twin, t, ran, hg, spells⟩

theorem gives_intern (k : Constant) {ps : List Term} (all : List.Forall₂ p.Spells k.children ps) :
    PoolM.Gives (PoolM.intern k) p fun id t => t.Spells id (.node k.shell ps) := by
  refine ⟨_, _, rfl, Extends.intern p k, ?_⟩
  refine .intro (Extends.entry?_intern p k) all.length_eq ?_
  intro i c part hasChild hasPart
  exact (getElem?_of_forall₂ all i c part hasChild hasPart).extends (Extends.intern p k)

theorem gives_namedType (name : String) : PoolM.Gives (PoolM.namedType name) p fun id t =>
    t.Spells id (.namedType name) :=
  gives_intern (.type (.named name)) .nil

/-- A term that an id means has no more levels than the pool has entries. -/
theorem Means.within (means : p.Means id term) {n : Nat} (enough : p.size ≤ n) : term.Within n := by
  refine means.expands.walk (fun rounds id => ∀ x, p.Means id x → x.Within rounds) ?_ ?_ enough term means
  · intro rounds id tgt name count hl hf x means
    cases means with
    | intro hs => simp [get, hl.follow, hf, entry, bind, Except.bind, pure, Except.pure] at hs
  · intro rounds id tgt k count hl hf ends x means
    cases means with
    | @intro _ twin ps hs arity each =>
      obtain rfl : twin = k := by simpa [get_of_leads hl hf] using hs.symm
      refine .intro fun part mem => ?_
      obtain ⟨i, hi, rfl⟩ := List.getElem_of_mem mem
      have hasChild : twin.children[i]? = some twin.children[i] :=
        List.getElem?_eq_getElem (by omega)
      exact ends _ (List.getElem_mem _) _ (each i _ _ hasChild (List.getElem?_eq_getElem hi))

end Pool

namespace Validation

open PoolM

/-- A fit is found exactly where there is one. Values are found to fit less than types would. -/
def Decides (ty want : Term) (fit : Fit) : Prop :=
  (fit.isFit = true → ty.Fits want) ∧ (ty.Typed → ty.Fits want → fit.isFit = true)

/-- A step that decides whether types fit that have at most so many levels. -/
def DecidesWithin (n : Nat) (fit : ConstId → ConstId → PoolM Fit) : Prop :=
  ∀ ⦃p : Pool⦄ ⦃actual req : ConstId⦄ ⦃ty want : Term⦄,
    p.Means actual ty → p.Means req want → want.Within n →
    Gives (fit actual req) p fun fit _ => Decides ty want fit

theorem isFit_converted (fit : Fit) : (converted fit).isFit = fit.isFit := by
  cases fit <;> rfl

theorem isFit_packed (fit : Fit) : (packed fit).isFit = fit.isFit := by
  cases fit <;> rfl

variable {n : Nat} {fit : ConstId → ConstId → PoolM Fit} {p : Pool}

/-- A fit of fields that are matched in order. -/
def DecidesAll (types wanted : List Term) (fit : Fit) : Prop :=
  (fit.isFit = true → List.Forall₂ Term.Fits types wanted) ∧
    ((∀ ty ∈ types, ty.Typed) → List.Forall₂ Term.Fits types wanted → fit.isFit = true)

theorem DecidesAll.cons {ty want : Term} {types wanted : List Term} {got rest : Fit}
    (others : DecidesAll types wanted rest) (here : Decides ty want got)
    (isFit : got.isFit = true) : DecidesAll (ty :: types) (want :: wanted) rest := by
  refine ⟨fun fits => .cons (here.1 isFit) (others.1 fits), fun typed fits => ?_⟩
  exact others.2 (fun x mem => typed x (List.mem_cons_of_mem _ mem)) (List.forall₂_cons.mp fits).2

theorem gives_fieldsFit (decides : DecidesWithin n fit)
    {actual req : List ConstId} {types wanted : List Term} (eq : actual.length = req.length)
    (first : List.Forall₂ p.Means actual types) (snd : List.Forall₂ p.Means req wanted)
    (win : ∀ want ∈ wanted, want.Within n) :
    Gives (fieldsFit fit (actual.zip req)) p fun fit _ => DecidesAll types wanted fit := by
  induction actual generalizing req types wanted p with
  | nil =>
    obtain rfl : req = [] := List.length_eq_zero_iff.mp eq.symm
    cases first
    cases snd
    exact .pure ⟨fun _ => .nil, fun _ _ => rfl⟩
  | cons id rest ih =>
    cases snd with
    | nil => simp at eq
    | @cons id' want req wanted meansWant othersWant =>
      obtain ⟨ty, types, means, others, rfl⟩ := List.forall₂_cons_left_iff.mp first
      refine Gives.bind (decides means meansWant (win want List.mem_cons_self)) ?_
      intro hf t hg here
      have hfu : Gives (fieldsFit fit (rest.zip req)) t fun fit _ =>
          DecidesAll types wanted fit :=
        ih (by simpa using eq) (others.imp fun _ _ means => means.extends hg)
          (othersWant.imp fun _ _ means => means.extends hg)
          fun want mem => win want (List.mem_cons_of_mem _ mem)
      cases hf with
      | fail =>
        refine .pure ⟨by simp [Fit.isFit], fun typed fits => ?_⟩
        exact here.2 (typed ty List.mem_cons_self) (List.forall₂_cons.mp fits).1
      | exact => exact hfu.mono fun _ _ _ others => others.cons here rfl
      | convertible | pack =>
        refine .map (hfu.mono fun rest _ _ others => ?_)
        unfold DecidesAll
        rw [isFit_converted]
        exact others.cons here rfl

theorem decides_converted {ty want x base : Term} {fit : Fit} (decides : Decides x base fit)
    (sound : x.Fits base → ty.Fits want)
    (complete : ty.Fits want → x.Fits base) (typed : ty.Typed → x.Typed) :
    Decides ty want (converted fit) := by
  unfold Decides
  rw [isFit_converted]
  exact ⟨fun isFit => sound (decides.1 isFit), fun ht fits => decides.2 (typed ht) (complete fits)⟩

theorem decides_packed {ty want : Term} {fit : Fit} (decides : Decides ty want fit)
    (complete : ty.Fits (.tupleType [want]) → ty.Fits want) :
    Decides ty (.tupleType [want]) (packed fit) := by
  unfold Decides
  rw [isFit_packed]
  exact ⟨fun isFit => .pack (decides.1 isFit), fun ht fits => decides.2 ht (complete fits)⟩

theorem decides_fail {ty want : Term} (misfit : ¬ty.Fits want) : Decides ty want .fail :=
  ⟨by simp [Fit.isFit], fun _ fits => absurd fits misfit⟩

section Structural

variable {actual : ConstId} {actualType : TypeConstant} {types : List Term}
  (decides : DecidesWithin n fit)
  (spells : p.Spells actual (.node (Constant.type actualType).shell types))
  (ps : List.Forall₂ p.Means actualType.children types)

include decides spells ps

theorem gives_nullableFit {i : ConstId} {base : Term} (means : p.Means i base) (win : base.Within n)
    (ne : .node (Constant.type actualType).shell types ≠ Term.nullableType base) :
    Gives (structuralFit fit actual (.nullable i) actualType) p fun fit _ =>
      Decides (.node (Constant.type actualType).shell types) (.nullableType base) fit := by
  refine Gives.bind (Pool.gives_namedType "Nullable") fun null t hg spellsNull => ?_
  split
  · rename_i eq
    subst eq
    rw [(spells.extends hg).means.unique spellsNull.means]
    exact .pure ⟨fun _ => .null base, fun _ _ => rfl⟩
  · rename_i x
    have notNull : .node (Constant.type actualType).shell types ≠ Term.namedType "Nullable" := by
      intro eq
      exact x ((spells.extends hg).eq (eq ▸ spellsNull))
    have means := means.extends hg
    cases actualType with
    | nullable id =>
      obtain ⟨ty, others, meansType, rest, rfl⟩ := List.forall₂_cons_left_iff.mp ps
      cases rest
      refine .map ((decides (meansType.extends hg) means win).mono ?_)
      intro fit _ _ decided
      refine decides_converted decided .under (fun fits => ?_) fun typed => ?_
      · rcases fits.of_nullable with eq | null | direct | ⟨x, eq, direct⟩
        · exact absurd eq ne
        · exact absurd null notNull
        · exact Term.Fits.of_under direct
        · obtain rfl : ty = x := by simpa using (Term.node.inj eq).2
          exact direct
      · cases typed with
        | intro each => exact each ty (by simp)
    | _ =>
      refine .map ((decides (spells.extends hg).means means win).mono ?_)
      intro fit _ _ decided
      refine decides_converted decided .lift (fun fits => ?_) id
      rcases fits.of_nullable with eq | null | direct | ⟨x, eq, -⟩
      · exact absurd eq ne
      · exact absurd null notNull
      · exact direct
      · simp [Term.nullableType, Constant.shell, Constant.mapChildrenM, TypeConstant.mapChildrenM] at eq

omit spells ps in
theorem gives_packedFit {ty : Term} (means : p.Means actual ty) {ids : List ConstId}
    {wanted : List Term} (all : List.Forall₂ p.Means ids wanted)
    (win : ∀ want ∈ wanted, want.Within n)
    (x : ∀ types, ty = .tupleType types → types.length ≠ wanted.length) :
    Gives (match ids with
      | [single] => packed <$> fit actual single
      | _ => Pure.pure .fail) p fun fit _ => Decides ty (.tupleType wanted) fit := by
  have packs : ty.Fits (.tupleType wanted) → ∃ want, wanted = [want] ∧ ty.Fits want := by
    intro fits
    rcases fits.of_tuple with ⟨types, eq, arity, -⟩ | packs
    · exact absurd arity (x types eq)
    · exact packs
  split
  · obtain ⟨want, others, meansWant, rest, rfl⟩ := List.forall₂_cons_left_iff.mp all
    cases rest
    refine .map ((decides means meansWant (win want List.mem_cons_self)).mono ?_)
    intro fit _ _ decided
    refine decides_packed decided fun fits => ?_
    obtain ⟨x, eq, direct⟩ := packs fits
    cases eq
    exact direct
  · rename_i several
    refine .pure (decides_fail fun fits => ?_)
    obtain ⟨want, rfl, -⟩ := packs fits
    obtain ⟨single, others, -, rest, rfl⟩ := List.forall₂_cons_right_iff.mp all
    cases rest
    exact several single rfl

theorem gives_tupleFit {ids : List ConstId} {wanted : List Term}
    (all : List.Forall₂ p.Means ids wanted) (win : ∀ want ∈ wanted, want.Within n) :
    Gives (structuralFit fit actual (.tuple ids) actualType) p fun fit _ =>
      Decides (.node (Constant.type actualType).shell types) (.tupleType wanted) fit := by
  cases actualType with
  | tuple fields =>
    have isTuple : .node (Constant.type (.tuple fields)).shell types = Term.tupleType types :=
      Term.node_tupleType ps
    rw [isTuple] at spells ⊢
    show Gives (if ids.length = fields.length then fieldsFit fit (fields.zip ids) else _) p _
    split
    · rename_i eq
      refine (gives_fieldsFit decides eq.symm ps all win).mono fun fit _ _ decided => ?_
      refine ⟨fun isFit => ?_, fun typed fits => decided.2 (fun ty mem => ?_) ?_⟩
      · have fits := decided.1 isFit
        exact .fields fits.length_eq (Pool.getElem?_of_forall₂ fits)
      · cases typed with
        | intro each => exact each ty mem
      · rcases fits.of_tuple with ⟨others, eq, arity, each⟩ | ⟨want, rfl, direct⟩
        · obtain rfl : types = others := (Term.node.inj eq).2
          exact Pool.forall₂_of_getElem? arity each
        · obtain ⟨ty, rfl⟩ : ∃ ty, types = [ty] := by
            rw [← List.length_eq_one_iff, ← ps.length_eq]
            exact eq.symm.trans all.length_eq
          exact .cons (Term.Fits.of_pack direct) .nil
    · rename_i differ
      refine gives_packedFit decides spells.means all win fun others eq arity => differ ?_
      obtain rfl : types = others := (Term.node.inj eq).2
      rw [all.length_eq, ← arity]
      exact ps.length_eq.symm
  | _ =>
    have apart := gives_packedFit decides spells.means all win fun others eq => by
      simp [Term.tupleType, Constant.shell, Constant.mapChildrenM, TypeConstant.mapChildrenM] at eq
    rcases ids with _ | ⟨single, _ | ⟨snd, rest⟩⟩ <;> exact apart

end Structural

/-- Whether types fit is decided however they are written. -/
theorem decidesWithin_fitWithin (n : Nat) : DecidesWithin n (fitWithin n) := by
  induction n with
  | zero => exact fun _ _ _ _ _ _ _ win => nomatch win
  | succ n ih =>
    intro p actual req ty want means meansWant win
    refine Gives.bind (Pool.gives_canonical means) fun actual pool₁ grown₁ spells => ?_
    refine Gives.bind (Pool.gives_canonical (meansWant.extends grown₁))
      fun req pool₂ grown₂ spellsWant => ?_
    have spells := spells.extends grown₂
    split
    · rename_i eq
      subst eq
      rw [spells.means.unique spellsWant.means]
      exact .pure ⟨fun _ => .refl want, fun _ _ => rfl⟩
    rename_i ne
    have ne : ty ≠ want := fun eq => ne (spells.eq (eq ▸ spellsWant))
    refine Gives.bind (Pool.gives_namedType "Object") fun object pool₃ grown₃ spellsObject => ?_
    have spells := spells.extends grown₃
    have spellsWant := spellsWant.extends grown₃
    split
    · rename_i eq
      subst eq
      rw [spellsWant.means.unique spellsObject.means]
      exact .pure ⟨fun _ => .object ty, fun _ _ => rfl⟩
    rename_i notObject
    have notObject : want ≠ .namedType "Object" :=
      fun eq => notObject (spellsWant.eq (eq ▸ spellsObject))
    cases spellsWant with
    | @intro _ wantConstant wanted foundWant arityWant eachWant =>
    cases spells with
    | @intro _ k types hf arity each =>
    refine Gives.bind_read (Pool.get_of_value foundWant) ?_
    refine Gives.bind_read (Pool.get_of_value hf) ?_
    have ps := Pool.forall₂_of_getElem? arity fun j c part hasChild hasPart =>
      (each j c part hasChild hasPart).means
    have wantParts := Pool.forall₂_of_getElem? arityWant fun j c part hasChild hasPart =>
      (eachWant j c part hasChild hasPart).means
    have spells : pool₃.Spells actual (.node k.shell types) := .intro hf arity each
    have levels : ∀ part ∈ wanted, part.Within n := by
      cases win with
      | intro each => exact each
    have misfit (hp : ∀ base, Term.node wantConstant.shell wanted ≠ .nullableType base)
        (single : ∀ ps, Term.node wantConstant.shell wanted ≠ .tupleType ps) :
        ¬(Term.node k.shell types).Fits (.node wantConstant.shell wanted) := by
      intro fits
      rcases fits.shape with eq | object | ⟨base, nullable⟩ | ⟨ps, tuple⟩
      · exact ne eq
      · exact notObject object
      · exact hp base nullable
      · exact single ps tuple
    cases k with
    | type actualType =>
      cases wantConstant with
      | type want =>
        cases want with
        | nullable i =>
          obtain ⟨base, others, meansBase, rest, rfl⟩ := List.forall₂_cons_left_iff.mp wantParts
          cases rest
          exact gives_nullableFit ih spells ps meansBase (levels base List.mem_cons_self) ne
        | tuple ids =>
          have isTuple : .node (Constant.type (.tuple ids)).shell wanted = Term.tupleType wanted :=
            Term.node_tupleType wantParts
          rw [isTuple]
          exact gives_tupleFit ih spells ps wantParts levels
        | _ =>
          refine .pure (decides_fail (misfit (fun base => ?_) fun ps => ?_)) <;>
            simp [Term.nullableType, Term.tupleType, Constant.shell, Constant.mapChildrenM,
              TypeConstant.mapChildrenM]
      | _ =>
        refine .pure (decides_fail (misfit (fun base => ?_) fun ps => ?_)) <;>
          simp [Term.nullableType, Term.tupleType, Constant.shell, Constant.mapChildrenM]
    | _ =>
      -- a value is not looked at any further
      split
      · rename_i ht
        simp [Constant.type?] at ht
      · refine .pure ⟨by simp [Fit.isFit], fun typed => ?_⟩
        obtain ⟨ty, ht⟩ := typed.label
        simp [Constant.shell, Constant.mapChildrenM] at ht

theorem gives_fit {actual req : ConstId} {ty want : Term}
    (means : p.Means actual ty) (meansWant : p.Means req want) :
    Gives (Validation.fit actual req) p fun fit _ => Decides ty want fit := by
  obtain ⟨fit, t, ran, hg, decided⟩ :=
    decidesWithin_fitWithin (p.size + 1) means meansWant (meansWant.within (Nat.le_succ _))
  exact ⟨fit, t, (bind_of_ok rfl).trans ran, hg, decided⟩

end Validation

end TreeCompiler
