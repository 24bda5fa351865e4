import TreeCompiler.Proofs.Scopes
import TreeCompiler.Resolution.Leftovers

/-!
# Cascades of aliases

A name that resolution leaves over is excused if it is the use of an alias, the alias fails, and the
use is not among its own causes. So the causes can be followed down: what holds of an excused
leftover if it holds of those in the type behind its alias holds of them all, and each is there on
account of a node that is not excused.
-/

namespace TreeCompiler

variable {id ty : NodeId}

theorem countP_lt_countP {α : Type} {few many : α → Bool} {as : List α} {a : α}
    (weaker : ∀ b ∈ as, few b = true → many b = true) (mem : a ∈ as) (more : many a = true)
    (less : few a = false) : as.countP few < as.countP many := by
  induction as with
  | nil => simp at mem
  | cons b rest ih =>
    have hb : rest.countP few ≤ rest.countP many :=
      List.countP_mono_left fun c hi => weaker c (by simp [hi])
    rw [List.countP_cons, List.countP_cons]
    rcases List.mem_cons.mp mem with rfl | hi
    · rw [more, less]
      simp only [if_true]
      simp only [Bool.false_eq_true, if_false]
      omega
    · have strict := ih (fun c hi => weaker c (by simp [hi])) hi
      have here := weaker b (by simp)
      cases isFew : few b
      · simp only [Bool.false_eq_true, if_false]
        omega
      · simp only [here isFew]
        omega

/-- The search for causes goes on until nothing leads out of what it has seen. Each round takes up
at least one of the keys, the only nodes that anything follows from. -/
theorem reachWithin_closed {next : NodeId → List NodeId} {keys : List NodeId}
    (keyed : ∀ id, next id ≠ [] → id ∈ keys) {steps : Nat} {seen frontier : List NodeId}
    (hk : ∀ id ∈ frontier, id ∈ seen)
    (i : ∀ id ∈ seen, id ∈ frontier ∨ ∀ cause ∈ next id, cause ∈ seen)
    (enough : keys.countP (fun key => !seen.contains key || frontier.contains key) ≤ steps) :
    (∀ id ∈ seen, id ∈ reachWithin next steps seen frontier) ∧
      ∀ id ∈ reachWithin next steps seen frontier, ∀ cause ∈ next id,
        cause ∈ reachWithin next steps seen frontier := by
  induction steps generalizing seen frontier with
  | zero =>
    refine ⟨fun id mem => mem, fun id mem cause hfo => ?_⟩
    rcases i id mem with waiting | done
    · have none := List.countP_eq_zero.mp (Nat.le_zero.mp enough) id (keyed id (List.ne_nil_of_mem hfo))
      simp [waiting] at none
    · exact done cause hfo
  | succ steps ih =>
    have hf : ∀ id ∈ frontier, ∀ cause ∈ next id,
        cause ∈ seen ∨ cause ∈ ((frontier.flatMap next).eraseDups).filter (!seen.contains ·) := by
      intro id waiting cause hfo
      by_cases old : cause ∈ seen
      · exact .inl old
      · right
        rw [List.mem_filter, List.mem_eraseDups, List.mem_flatMap]
        exact ⟨⟨id, waiting, hfo⟩, by simpa using old⟩
    unfold reachWithin
    split
    · rename_i nothing
      rw [nothing] at hf
      refine ⟨fun id mem => mem, fun id mem cause hfo => ?_⟩
      rcases i id mem with waiting | done
      · simpa using hf id waiting cause hfo
      · exact done cause hfo
    · rename_i isFresh
      generalize freshIs : ((frontier.flatMap next).eraseDups).filter (!seen.contains ·) = fresh
      rw [freshIs] at hf isFresh
      have unseen : ∀ id ∈ fresh, id ∉ seen := by
        intro id mem
        rw [← freshIs, List.mem_filter] at mem
        simpa using mem.2
      have covered : ∀ id ∈ fresh, id ∈ seen ++ fresh := fun id mem => by simp [mem]
      have onward : ∀ id ∈ seen ++ fresh, id ∈ fresh ∨ ∀ cause ∈ next id, cause ∈ seen ++ fresh := by
        intro id mem
        rcases List.mem_append.mp mem with old | new
        · right
          intro cause hfo
          rw [List.mem_append]
          rcases i id old with waiting | done
          · exact hf id waiting cause hfo
          · exact .inl (done cause hfo)
        · exact .inl new
      -- one of the keys on the frontier is done with
      have strict : keys.countP (fun key => !(seen ++ fresh).contains key || fresh.contains key) <
          keys.countP (fun key => !seen.contains key || frontier.contains key) := by
        obtain ⟨cause, mem⟩ := List.exists_mem_of_ne_nil fresh (by simpa using isFresh)
        rw [← freshIs, List.mem_filter, List.mem_eraseDups, List.mem_flatMap] at mem
        obtain ⟨⟨id, waiting, hfo⟩, -⟩ := mem
        have old := hk id waiting
        have notFresh : id ∉ fresh := fun new => unseen id new old
        refine countP_lt_countP ?_ (keyed id (List.ne_nil_of_mem hfo)) (by simp [waiting])
          (by simp [old, notFresh])
        intro key _
        simp only [List.contains_eq_mem, List.mem_append, Bool.or_eq_true, Bool.not_eq_true',
          decide_eq_false_iff_not, decide_eq_true_eq]
        rintro (out | new)
        · exact .inl fun old => out (.inl old)
        · exact .inl (unseen key new)
      obtain ⟨kept, closed⟩ := ih covered onward (by omega)
      exact ⟨fun id mem => kept id (by simp [mem]), closed⟩

theorem isOwnCause_of_cycle {causes : List (NodeId × List NodeId)}
    (cycle : Relation.TransGen (fun effect cause => cause ∈ causesOf causes effect) id id) :
    isOwnCause causes id = true := by
  have keyed : ∀ id, causesOf causes id ≠ [] → id ∈ causes.map Prod.fst := by
    intro id some
    unfold causesOf at some
    cases hf : causes.lookup id with
    | none => simp [hf] at some
    | some ps =>
      obtain ⟨b, t, split, -⟩ := List.lookup_eq_some_iff.mp hf
      rw [split]
      simp
  have direct : ∀ cause ∈ (causesOf causes id).eraseDups, cause ∈ (causesOf causes id).eraseDups :=
    fun _ mem => mem
  have enough : (causes.map Prod.fst).countP (fun key =>
      !(causesOf causes id).eraseDups.contains key || (causesOf causes id).eraseDups.contains key) ≤
        causes.length := by
    have bound := List.countP_le_length (l := causes.map Prod.fst) (p := fun key =>
      !(causesOf causes id).eraseDups.contains key || (causesOf causes id).eraseDups.contains key)
    rwa [List.length_map] at bound
  obtain ⟨kept, closed⟩ := reachWithin_closed keyed direct (fun _ mem => .inl mem) enough
  have hr : ∀ {cause}, Relation.TransGen (fun effect cause => cause ∈ causesOf causes effect)
      id cause → cause ∈ reachWithin (causesOf causes) causes.length
        (causesOf causes id).eraseDups (causesOf causes id).eraseDups := by
    intro cause path
    induction path with
    | single direct => exact kept _ (List.mem_eraseDups.mpr direct)
    | tail _ direct ih => exact closed _ ih _ direct
  simpa [isOwnCause] using hr cycle

namespace Tree

variable {tree : Tree} {lefts : List NodeId}

theorem aliasedType?_eq_some (hf : tree.aliasedType? id = some ty) :
    ∃ name ps typedef defined, tree.type? id = some (.named [name] ps) ∧
      tree.findTypedef id name = some typedef ∧
      tree.stmt? typedef = some (.typedef defined ty) := by
  unfold aliasedType? at hf
  split at hf
  · rename_i name ps isNamed
    split at hf
    · rename_i defined x isTypedef
      cases hf
      obtain ⟨typedef, hv, isTypedef⟩ := Option.bind_eq_some_iff.mp isTypedef
      exact ⟨name, ps, typedef, defined, isNamed, hv, isTypedef⟩
    · simp at hf
  · simp at hf

theorem mem_failingParts : id ∈ tree.failingParts lefts ty ↔ id ∈ tree.preorder ty ∧
      (id ∈ lefts ∨ tree.completable id = false ∨ tree.stage id = .failed) := by
  simp [failingParts, or_assoc]

/-- The causes of a leftover that uses an alias are the failing parts of the type behind it. -/
theorem causesOf_aliasCauses (mem : id ∈ lefts) (aliased : tree.aliasedType? id = some ty) :
    causesOf (tree.aliasCauses lefts) id = tree.failingParts lefts ty := by
  have hf : ∀ ids : List NodeId, id ∈ ids → (ids.filterMap fun id => (tree.aliasedType? id).map fun ty =>
        (id, tree.failingParts lefts ty)).lookup id =
      some (tree.failingParts lefts ty) := by
    intro ids hi
    induction ids with
    | nil => simp at hi
    | cons x rest ih =>
      by_cases eq : id = x
      · subst eq
        simp [aliased]
      · have hi : id ∈ rest := by simpa [eq] using hi
        have ne : (id == x) = false := by simpa using eq
        cases here : tree.aliasedType? x with
        | none => simpa [here] using ih hi
        | some otherType =>
          simpa [here, List.lookup_cons, ne] using ih hi
  simp [causesOf, aliasCauses, hf lefts mem]

theorem mem_cascaded (excused : id ∈ tree.cascaded lefts) :
    id ∈ lefts ∧ ∃ ty, tree.aliasedType? id = some ty ∧ tree.failingParts lefts ty ≠ [] ∧
      isOwnCause (tree.aliasCauses lefts) id = false := by
  simp only [cascaded, List.mem_map, List.mem_filter] at excused
  obtain ⟨⟨x, ps⟩, ⟨mem, fine⟩, rfl⟩ := excused
  simp only [aliasCauses, List.mem_filterMap, Option.map_eq_some_iff] at mem
  obtain ⟨_, left, ty, aliased, rfl, rfl⟩ := mem
  rw [Bool.and_eq_true, Bool.not_eq_true', Bool.not_eq_true'] at fine
  exact ⟨left, ty, aliased, by simpa using fine.1, fine.2⟩

/-- A leftover uses an alias that fails on account of a node. -/
def DependsOn (tree : Tree) (lefts : List NodeId) (id part : NodeId) : Prop :=
  id ∈ lefts ∧ ∃ ty, tree.aliasedType? id = some ty ∧ part ∈ tree.failingParts lefts ty

/-- The use of an alias that depends on itself is not excused. -/
theorem not_cascaded_of_cycle (cycle : Relation.TransGen (tree.DependsOn lefts) id id) :
    id ∉ tree.cascaded lefts := by
  intro excused
  obtain ⟨-, -, -, -, notOwn⟩ := mem_cascaded excused
  have own : isOwnCause (tree.aliasCauses lefts) id = true := by
    refine isOwnCause_of_cycle (Relation.TransGen.mono ?_ id id cycle)
    rintro effect cause ⟨left, ty, aliased, failing⟩
    rwa [causesOf_aliasCauses left aliased]
  simp [own] at notOwn

/-- What holds of an excused leftover if it holds of the excused ones behind its alias holds of
all. -/
theorem cascade_induction {P : NodeId → Prop} (step : ∀ id ∈ lefts, ∀ ty,
      tree.aliasedType? id = some ty → tree.failingParts lefts ty ≠ [] →
      (∀ part ∈ tree.cascaded lefts, part ∈ tree.preorder ty → P part) → P id) :
    ∀ id ∈ tree.cascaded lefts, P id := by
  let Lower (cause effect : { id // id ∈ tree.cascaded lefts }) : Prop :=
    Relation.TransGen (tree.DependsOn lefts) effect.1 cause.1
  have irreflexive : Std.Irrefl Lower := ⟨fun id cycle => not_cascaded_of_cycle cycle id.2⟩
  have wellFounded : WellFounded Lower := Finite.wellFounded_of_trans_of_irrefl Lower
  intro id excused
  refine wellFounded.induction (C := fun id => P id.1) ⟨id, excused⟩ ?_
  rintro ⟨id, excused⟩ ih
  obtain ⟨left, ty, aliased, failing, -⟩ := mem_cascaded excused
  refine step id left ty aliased failing fun part excused hi => ?_
  refine ih ⟨part, excused⟩ (.single ⟨left, ty, aliased, ?_⟩)
  exact mem_failingParts.mpr ⟨hi, .inl (mem_cascaded excused).1⟩

/-- Nothing is excused on account of excused leftovers alone: some chain of aliases leads to a
leftover that is not excused, or to a node that could not be completed anyway. -/
theorem cascaded_leads : ∀ id ∈ tree.cascaded lefts, ∃ cause,
    Relation.TransGen (tree.DependsOn lefts) id cause ∧
      (cause ∈ lefts ∧ cause ∉ tree.cascaded lefts ∨ tree.completable cause = false ∨
        tree.stage cause = .failed) := by
  refine cascade_induction fun id left ty aliased failing ih => ?_
  obtain ⟨part, mem⟩ := List.exists_mem_of_ne_nil _ failing
  have fst : tree.DependsOn lefts id part := ⟨left, ty, aliased, mem⟩
  obtain ⟨hi, isLeft | x⟩ := mem_failingParts.mp mem
  · by_cases excused : part ∈ tree.cascaded lefts
    · obtain ⟨cause, chain, ends⟩ := ih part excused hi
      exact ⟨cause, .head fst chain, ends⟩
    · exact ⟨part, .single fst, .inl ⟨isLeft, excused⟩⟩
  · exact ⟨part, .single fst, .inr x⟩

end Tree

end TreeCompiler
