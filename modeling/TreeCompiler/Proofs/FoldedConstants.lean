import TreeCompiler.Proofs.Evaluation

/-!
# Folding is evaluation

An operator on constants is folded to the constant that means what the operator evaluates to, and
left alone where the evaluation is at fault. A constant that means a value has the type of that
value.
-/

namespace TreeCompiler

open Step PoolM Evaluation Validation

variable {ids : List ConstId} {ps : List Term} {v ty : Term}

namespace Evaluation

/-- A constant without parts is found exactly if it is evaluated. -/
def Agrees (folded : Option Constant) (evaluation : Evaluation Term) : Prop :=
  (∀ v, evaluation = pure v → ∃ k, folded = some k ∧ k.children = [] ∧ v = .node k.shell []) ∧
  ∀ fault, evaluation = throw fault → folded = none

theorem agrees_undefined (folded : Option Constant) : Agrees folded undefined := ⟨nofun, nofun⟩

theorem agrees_throw (fault : Fault) : Agrees none (throw fault) := ⟨nofun, fun _ _ => rfl⟩

theorem agrees_pure (k : Constant) (leaf : k.children = []) :
    Agrees (some k) (pure (.node k.shell [])) := by
  refine ⟨?_, nofun⟩
  rintro v ⟨⟩
  exact ⟨k, rfl, leaf, rfl⟩

theorem agrees_exactly (number : Int) : Agrees ((Arithmetic.ofInt? number).map .int)
    (exactly number) := by
  have least : Int64.minValue.toInt = -2 ^ 63 := by decide
  have most : Int64.maxValue.toInt = 2 ^ 63 - 1 := by decide
  unfold exactly Arithmetic.ofInt?
  rw [least, most]
  by_cases hi : -2 ^ 63 ≤ number ∧ number < 2 ^ 63
  · rw [if_pos hi, if_pos (by omega)]
    exact agrees_pure (.int _) rfl
  · rw [if_neg hi, if_neg (by omega)]
    exact agrees_throw _

/-- A quotient overflows in one case only, and a remainder never. -/
theorem quotient_bounds (left : Int64) {right : Int64} (nonzero : right ≠ 0) :
    (-2 ^ 63 ≤ left.toInt.tdiv right.toInt ∧ left.toInt.tdiv right.toInt < 2 ^ 63 ↔
      ¬(left = Int64.minValue ∧ right = -1)) ∧
    -2 ^ 63 ≤ left.toInt.tmod right.toInt ∧ left.toInt.tmod right.toInt < 2 ^ 63 := by
  have isLeast : left = Int64.minValue ↔ left.toInt = -2 ^ 63 :=
    Int64.toInt_inj.symm.trans (by rw [show Int64.minValue.toInt = -2 ^ 63 by decide])
  have isMinus : right = -1 ↔ right.toInt = -1 :=
    Int64.toInt_inj.symm.trans (by rw [show (-1 : Int64).toInt = -1 by decide])
  have isZero : right.toInt ≠ 0 := fun zero => nonzero (Int64.toInt_inj.mp zero)
  have leftBounds := And.intro left.le_toInt left.toInt_lt
  have rightBounds := And.intro right.le_toInt right.toInt_lt
  rw [isLeast, isMinus]
  generalize left.toInt = a at *
  generalize right.toInt = b at *
  have quotient : (a.tdiv b).natAbs = a.natAbs / b.natAbs := Int.natAbs_tdiv a b
  have remainder : (a.tmod b).natAbs = a.natAbs % b.natAbs := Int.natAbs_tmod a b
  have less := Nat.mod_lt a.natAbs (show b.natAbs > 0 by omega)
  refine ⟨⟨?_, ?_⟩, by omega, by omega⟩
  · rintro hi ⟨rfl, rfl⟩
    exact absurd hi (by decide)
  · intro ordinary
    by_cases one : b.natAbs = 1
    · obtain rfl | rfl : b = 1 ∨ b = -1 := by omega
      · rw [Int.tdiv_one]
        exact leftBounds
      · rw [Int.tdiv_neg, Int.tdiv_one]
        omega
    · have half : a.natAbs / b.natAbs ≤ a.natAbs / 2 := Nat.div_le_div_left (by omega) (by omega)
      omega

theorem agrees_applyInts (op : BinaryOp) (left right : Int64) :
    Agrees (foldInts op left right) (applyInts left right op) := by
  cases op with
  | add | sub | mul => exact agrees_exactly _
  | div =>
    show Agrees ((Arithmetic.div? left right).map .int) _
    unfold applyInts Arithmetic.div?
    split
    · exact agrees_throw _
    · exact agrees_exactly _
  | mod =>
    show Agrees ((Arithmetic.mod? left right).map .int) _
    unfold applyInts Arithmetic.mod? Arithmetic.div?
    split
    · exact agrees_throw _
    · rename_i nonzero
      obtain ⟨quotient, remainder⟩ := quotient_bounds left nonzero
      have least : Int64.minValue.toInt = -2 ^ 63 := by decide
      have most : Int64.maxValue.toInt = 2 ^ 63 - 1 := by decide
      unfold exactly Arithmetic.ofInt?
      rw [if_pos remainder, least, most]
      by_cases extreme : left = Int64.minValue ∧ right = -1
      · have outside := mt quotient.mp (not_not.mpr extreme)
        rw [if_pos extreme, if_neg (by omega)]
        exact agrees_throw _
      · have hi := quotient.mpr extreme
        rw [if_neg extreme, if_pos (by omega)]
        exact agrees_pure (.int _) rfl
  | lt | le | gt | ge => exact agrees_pure (.bool _) rfl
  | eq | ne | and | or => exact agrees_undefined _

theorem agrees_applyChars (op : BinaryOp) (left right : Char) :
    Agrees (foldChars op left right) (applyChars left right op) := by
  cases op with
  | lt | le | gt | ge => exact agrees_pure (.bool _) rfl
  | _ => exact agrees_undefined _

theorem agrees_applyBinary {op : BinaryOp} (hp : equalityTest? op = none) (left right : Constant)
    (leftParts rightParts : List Term) : Agrees (foldConstants op left right)
      (applyBinary op (.node left leftParts) (.node right rightParts)) := by
  unfold applyBinary
  split
  · simp [equalityTest?] at hp
  · simp [equalityTest?] at hp
  · rename_i fst snd
    cases fst
    cases snd
    exact agrees_applyInts _ _ _
  · rename_i fst snd
    cases fst
    cases snd
    exact agrees_applyChars _ _ _
  · rename_i fst snd
    cases fst
    cases snd
    exact agrees_pure (.string _) rfl
  -- a string is joined with something else, on either side
  · rename_i text ps fst x
    cases fst
    have folds : foldConstants .add (.string text) right = none := by
      cases right with
      | string v => exact absurd rfl (x v _)
      | _ => rfl
    exact folds ▸ agrees_throw _
  · rename_i text ps fst x
    cases fst
    have folds : foldConstants .add left (.string text) = none := by
      cases left with
      | string v => exact absurd rfl (x v _)
      | _ => rfl
    exact folds ▸ agrees_throw _
  · exact agrees_undefined _

/-- The parts of constants do not matter to operators other than tests for equality. -/
theorem foldConstants_shell (op : BinaryOp) (left right : Constant) :
    foldConstants op left.shell right.shell = foldConstants op left right := by
  cases left <;> cases right <;> rfl

/-- What a step of folding finds in a pool is what an evaluation ends with. -/
def Reflects (evaluation : Evaluation Term) (folded : Option ConstId) (p : Pool) : Prop :=
  (∀ v, evaluation = pure v → ∃ id, folded = some id ∧ p.Means id v) ∧
  ∀ fault, evaluation = throw fault → folded = none

end Evaluation

theorem Term.node_tuple {R : ConstId → Term → Prop} (all : List.Forall₂ R ids ps) :
    node (Constant.tuple ids).shell ps = tuple ps := by
  simp [tuple, Constant.shell, Constant.mapChildrenM, all.length_eq]

/-- Values have types all through. -/
theorem Term.Is.typed (is : v.Is ty) : ty.Typed := by
  induction is with
  | @tuple es types arity _ ih =>
    refine .intro fun ty mem => ?_
    obtain ⟨i, hi, rfl⟩ := List.getElem_of_mem mem
    have hasElement : es[i]? = some es[i] := List.getElem?_eq_getElem (by omega)
    exact ih i _ _ hasElement (List.getElem?_eq_getElem hi)
  | _ => exact .intro (by simp)

namespace Pool

variable {p : Pool} {id : ConstId}

theorem Means.shown {l : Constant} (means : p.Means id (.node l ps)) :
    ∃ k, p.get id = .ok (some k) ∧ k.shell = l ∧ List.Forall₂ p.Means k.children ps := by
  generalize eq : Term.node l ps = term at means
  cases means with
  | @intro _ k others hf arity each =>
    cases eq
    exact ⟨k, hf, rfl, forall₂_of_getElem? arity each⟩

theorem gives_means (k : Constant) (all : List.Forall₂ p.Means k.children ps) :
    Gives (PoolM.intern k) p fun id t => t.Means id (.node k.shell ps) :=
  ⟨_, _, rfl, Extends.intern p k, means_intern k all⟩

theorem gives_leaf {folded : Option Constant} {evaluation : Evaluation Term}
    (agrees : Agrees folded evaluation) :
    Gives (match folded with
      | some k => some <$> PoolM.intern k
      | none => Pure.pure none) p (Reflects evaluation) := by
  cases folded with
  | none =>
    refine .pure ⟨fun v eq => ?_, fun _ _ => rfl⟩
    obtain ⟨k, hf, -⟩ := agrees.1 v eq
    simp at hf
  | some k =>
    refine .map ⟨_, _, rfl, Extends.intern p k, fun v eq => ?_, fun fault eq => ?_⟩
    · obtain ⟨k, ⟨⟩, leaf, rfl⟩ := agrees.1 v eq
      exact ⟨_, rfl, means_intern k (leaf ▸ .nil)⟩
    · exact absurd (agrees.2 fault eq) (by simp)

/-- The constant that an operator gives for a constant. -/
def folded? : UnaryOp → Constant → Option Constant
  | .not, .bool v => some (.bool !v)
  | .neg, .int v => (Arithmetic.neg? v).map .int
  | _, _ => none

/-- An operator on a constant is folded as it is evaluated. -/
theorem gives_foldUnary (op : UnaryOp) (means : p.Means id v) :
    Gives (foldUnary op id) p (Reflects (applyUnary op v)) := by
  obtain ⟨l, ps⟩ := v
  obtain ⟨k, hf, rfl, -⟩ := means.shown
  have leaf : Agrees (folded? op k) (applyUnary op (.node k.shell ps)) := by
    cases op <;> cases k
    case not.bool v => exact agrees_pure (.bool _) rfl
    case neg.int v => exact agrees_exactly _
    all_goals exact agrees_undefined _
  have gives := @gives_leaf p _ _ leaf
  cases op with
  | not =>
    cases k with
    | bool v =>
      exact .bind_read (show p.bool? id = .ok (some v) by
        simp [bool?, hf, bind, Except.bind, Pure.pure, Except.pure]) gives
    | _ =>
      exact .bind_read (show p.bool? id = .ok none by
        simp [bool?, hf, bind, Except.bind, Pure.pure, Except.pure]) gives
  | neg =>
    cases k with
    | int v =>
      refine .bind_read (show p.int? id = .ok (some v) by
        simp [int?, hf, bind, Except.bind, Pure.pure, Except.pure]) ?_
      simp only [Option.bind_some]
      cases negated : Arithmetic.neg? v <;> simp only [folded?, negated] at gives <;> exact gives
    | _ =>
      exact .bind_read (show p.int? id = .ok none by
        simp [int?, hf, bind, Except.bind, Pure.pure, Except.pure]) gives

theorem gives_foldBinary (op : BinaryOp) {left right : ConstId} {leftValue rightValue : Term}
    (meansLeft : p.Means left leftValue) (meansRight : p.Means right rightValue) :
    Gives (foldBinary op left right) p (Reflects (applyBinary op leftValue rightValue)) := by
  obtain ⟨leftLabel, leftParts⟩ := leftValue
  obtain ⟨rightLabel, rightParts⟩ := rightValue
  obtain ⟨fst, foundFirst, rfl, -⟩ := meansLeft.shown
  obtain ⟨snd, foundSecond, rfl, -⟩ := meansRight.shown
  refine .bind_read foundFirst (.bind_read foundSecond ?_)
  cases tests : equalityTest? op with
  | none =>
    simp only
    rw [← foldConstants_shell]
    exact gives_leaf (agrees_applyBinary tests _ _ _ _)
  | some ans =>
    simp only
    refine (gives_canonical meansLeft).bind fun leftTwin mid hg spellsLeft => ?_
    refine (gives_canonical (meansRight.extends hg)).bind fun rightTwin last hf spellsRight => ?_
    have same : leftTwin = rightTwin ↔ Term.node fst.shell leftParts = .node snd.shell rightParts := by
      constructor
      · rintro rfl
        exact (spellsLeft.extends hf).means.unique spellsRight.means
      · intro same
        exact (spellsLeft.extends hf).eq (same ▸ spellsRight)
    have leaf : Agrees (some (.bool (decide (leftTwin = rightTwin) == ans)))
        (applyBinary op (.node fst.shell leftParts) (.node snd.shell rightParts)) := by
      cases op with
      | eq =>
        obtain rfl : true = ans := Option.some.inj tests
        simp only [same, beq_true]
        exact agrees_pure (.bool _) rfl
      | ne =>
        obtain rfl : false = ans := Option.some.inj tests
        simp only [same, beq_false, ← decide_not]
        exact agrees_pure (.bool _) rfl
      | _ => simp [equalityTest?] at tests
    exact gives_leaf leaf

/-! ### Types of values -/

/-- Elements are typed one after another. -/
theorem gives_mapM {step : ConstId → PoolM ConstId} {types : List Term}
    (each : List.Forall₂ (fun id ty => ∀ larger, Extends larger p →
      Gives (step id) larger fun hf t => t.Means hf ty) ids types) :
    Gives (ids.mapM step) p fun hf t => List.Forall₂ t.Means hf types := by
  induction ids generalizing p types with
  | nil =>
    cases each
    exact .pure .nil
  | cons id ids ih =>
    rw [List.mapM_cons]
    cases each with
    | cons fst rest =>
      refine (fst p (.refl p)).bind fun hf mid hg means => ?_
      refine (ih (rest.imp fun _ _ gives larger later => gives larger (later.trans hg))).bind fun others last hfu all => ?_
      exact .pure (.cons (means.extends hfu) all)

theorem gives_typeOfWithin {n : Nat} (means : p.Means id v) (is : v.Is ty) (win : v.Within n) :
    Gives (typeOfWithin n id) p fun hf t => t.Means hf ty := by
  induction n generalizing p id v ty with
  | zero => cases win
  | succ n ih =>
    obtain ⟨l, ps⟩ := v
    obtain ⟨k, hf, shell, all⟩ := means.shown
    refine .bind_read hf ?_
    have hn : ∀ name, Gives (PoolM.namedType name) p fun hf t =>
        t.Means hf (.namedType name) := fun name =>
      (gives_namedType name).mono fun _ _ _ spells => spells.means
    cases is with
    | int => cases k <;> first | exact hn _ | exact nomatch shell
    | string => cases k <;> first | exact hn _ | exact nomatch shell
    | char => cases k <;> first | exact hn _ | exact nomatch shell
    | bool => cases k <;> first | exact hn _ | exact nomatch shell
    | null => cases k <;> first | exact hn _ | exact nomatch shell
    | @tuple _ types arity each =>
      cases k with
      | tuple ids =>
        have typed : List.Forall₂ (fun id ty => ∀ larger, Extends larger p →
            Gives (typeOfWithin n id) larger fun hf t => t.Means hf ty) ids types := by
          refine forall₂_of_getElem? (all.length_eq.trans arity) fun i id ty hasId hasType => ?_
          obtain ⟨hi, -⟩ := List.getElem?_eq_some_iff.mp hasType
          have hasPart : ps[i]? = some ps[i] := List.getElem?_eq_getElem (by omega)
          intro larger hg
          have meansPart := getElem?_of_forall₂ all i id _ hasId hasPart
          cases win with
          | intro shallow =>
            exact ih (meansPart.extends hg) (each i _ ty hasPart hasType) (shallow _ (List.getElem_mem _))
        refine (gives_mapM typed).bind fun hf mid hg all => ?_
        have gives := gives_means (.type (.tuple hf)) all
        rwa [Term.node_tupleType all] at gives
      | _ => exact nomatch shell

/-- A constant that means a value has the type of the value. -/
theorem gives_typeOf (means : p.Means id v) (is : v.Is ty) :
    Gives (typeOf id) p fun hf t => t.Means hf ty := by
  obtain ⟨hf, t, ran, hg, meansType⟩ :=
    gives_typeOfWithin means is (means.within (Nat.le_succ p.size))
  exact ⟨hf, t, ran, hg, meansType⟩

/-- What an id that has a type means, and what the type means. -/
def Types (p : Pool) (id ty : ConstId) : Prop :=
  ∃ v term, p.Means id v ∧ v.Is term ∧ p.Means ty term

theorem types_mapM {step : ConstId → PoolM ConstId}
    (sound : ∀ id p ty t, step id p = .ok ty t → Extends t p ∧ t.Types id ty)
    {types : List ConstId} {t : Pool} (ran : ids.mapM step p = .ok types t) :
    t.Extends p ∧ ∃ vals terms, List.Forall₂ t.Means ids vals ∧
      List.Forall₂ Term.Is vals terms ∧ List.Forall₂ t.Means types terms := by
  induction ids generalizing p types with
  | nil =>
    rw [List.mapM_nil] at ran
    cases ran
    exact ⟨.refl _, [], [], .nil, .nil, .nil⟩
  | cons id ids ih =>
    rw [List.mapM_cons] at ran
    obtain ⟨ty, mid, ranFirst, ran⟩ := bind_ok.mp ran
    obtain ⟨others, ranRest, rfl⟩ := bind_pure_ok.mp ran
    obtain ⟨hg, v, term, means, is, meansType⟩ := sound id p ty mid ranFirst
    obtain ⟨hf, vals, terms, all, are, allTypes⟩ := ih ranRest
    exact ⟨hf.trans hg, v :: vals, term :: terms, .cons (means.extends hf) all,
      .cons is are, .cons (meansType.extends hf) allTypes⟩

theorem types_of_typeOfWithin {n : Nat} {ty : ConstId} {t : Pool}
    (ran : typeOfWithin n id p = .ok ty t) : t.Extends p ∧ t.Types id ty := by
  induction n generalizing p id ty t with
  | zero =>
    unfold typeOfWithin at ran
    simp at ran
  | succ n ih =>
    unfold typeOfWithin at ran
    obtain ⟨k, eq, hl, ran⟩ := bind_ok.mp ran
    obtain ⟨hf, rfl⟩ := read_ok.mp hl
    have leaf : ∀ (k : Constant) (name : String), p.get id = .ok (some k) →
        k.children = [] → Term.Is (.node k.shell []) (.namedType name) →
        PoolM.namedType name p = .ok ty t → t.Extends p ∧ t.Types id ty := by
      intro k name hf leafless is made
      obtain ⟨hg, spells⟩ := (gives_namedType name).of_ok made
      exact ⟨hg, _, _, .intro (hg.get hf) (by simp [leafless]) (by simp [leafless]), is, spells.means⟩
    cases k with
    | none => simp at ran
    | some k =>
      cases k with
      | int v => exact leaf _ _ hf rfl (.int v) ran
      | string v => exact leaf _ _ hf rfl (.string v) ran
      | char v => exact leaf _ _ hf rfl (.char v) ran
      | bool v => exact leaf _ _ hf rfl (.bool v) ran
      | null => exact leaf _ _ hf rfl .null ran
      | type ty => simp at ran
      | tuple es =>
        obtain ⟨types, mid, ranTypes, made⟩ := bind_ok.mp ran
        obtain ⟨hg, vals, terms, all, are, allTypes⟩ :=
          types_mapM (fun id p ty t => ih) ranTypes
        obtain ⟨hfu, meansType⟩ : t.Extends mid ∧ t.Means ty (.tupleType terms) := by
          rw [← Term.node_tupleType allTypes]
          exact (gives_means (.type (.tuple types)) allTypes).of_ok made
        have larger := hfu.trans hg
        refine ⟨larger, .tuple vals, .tupleType terms, ?_, ?_, meansType⟩
        · rw [← Term.node_tuple all]
          exact .intro (larger.get hf) all.length_eq
            (getElem?_of_forall₂ (all.imp fun _ _ means => means.extends hfu))
        · exact .tuple are.length_eq (getElem?_of_forall₂ are)

end Pool

end TreeCompiler
