import TreeCompiler.Proofs.ControlFlow
import TreeCompiler.Proofs.EmittedRules

/-!
# Dropped code

While a method is emitted, instructions are dropped and statements skipped wherever control does not
arrive at the end of the code so far. In the finished code no way leads to such an end either: the
instruction before it never goes on, and the labels that stood there are never jumped to.
-/

namespace TreeCompiler

open Step

theorem Op.isTerminal_iff {op : Op} :
    op.isTerminal = true ↔ (∃ tgt, op = .jump tgt) ∨ op.isReturn = true := by
  cases op <;> simp [isTerminal, isReturn]

namespace Buffer.Outlasts

variable {ports : Ports} {code moment : Buffer} (outlasts : code.Outlasts ports moment)
  (stopped : moment.reachable = false)

include outlasts stopped

theorem ended : 0 < moment.size ∧
    ∃ op, code.ops[moment.size - 1]? = some op ∧ op.isTerminal = true := by
  obtain ⟨op, isLast, terminal⟩ := outlasts.sound.ended stopped
  rw [List.getLast?_eq_getElem?] at isLast
  have bound : moment.size - 1 < moment.size := (List.getElem?_eq_some_iff.mp isLast).1
  refine ⟨Nat.zero_lt_of_lt bound, op, ?_, terminal⟩
  obtain ⟨rest, hg⟩ := outlasts.grown
  rw [← hg, List.getElem?_append_left bound]
  exact isLast

theorem unaimed {op : Op} (mem : op ∈ code.ops) {l : Label} (aims : op.target? = some l) :
    moment.offset? l ≠ some moment.size := by
  intro here
  have unreferenced := (outlasts.closed stopped l here).2
  rw [isReferenced, List.any_eq_false] at unreferenced
  exact unreferenced op mem (by simp [aims])

/-- Control arrives at the place of such an end by jumps to labels only that were placed later. -/
theorem arrives (sound : code.Sound) {name : String} {i : Nat}
    (goes : (code.toMethod name).Goes i moment.size) :
    ∃ op l, (code.toMethod name).ops[i]? = some op ∧ op.target? = some l ∧
      (code.toMethod name).labelOffset l = some moment.size ∧ moment.offset? l = none := by
  generalize place : moment.size = pos at goes
  cases goes with
  | next here continues =>
    rename_i op
    obtain ⟨-, last, isLast, terminal⟩ := outlasts.ended stopped
    rw [place] at isLast
    obtain rfl : last = op := Option.some.inj (isLast.symm.trans here)
    simp [terminal] at continues
  | jump here aims hp =>
    rename_i op l
    refine ⟨op, l, here, aims, hp, ?_⟩
    rw [sound.labelOffset_toMethod] at hp
    cases he : moment.offset? l with
    | none => rfl
    | some offset =>
      obtain rfl : offset = pos :=
        Option.some.inj ((outlasts.labels l offset he).symm.trans hp)
      exact absurd (place ▸ he) (outlasts.unaimed stopped (List.mem_of_getElem? here) aims)

end Buffer.Outlasts

namespace Course

open Emission

/-- Only dead code is dropped. Take a unit that was built, resolved and validated, some of its
methods that are emitted, one more method, and any moment of its emission when control does not
arrive at the end of the code so far. Then the code so far is the beginning of the finished code and
ends with a jump or a return, no instruction of the finished code jumps to a label that stood at its
end in that moment, and control arrives at that place by jumps to labels only that were placed there
later. -/
theorem dropped_code_is_dead {course resolved validated current : Course} {cap : Option Nat}
    {outcome : Outcome} {root id : NodeId} {ids : List NodeId} {methods : List Method} {warn : Bool}
    {method : Method} {last : Emission} {moment : Buffer}
    (fresh : course.work.tree.IsFresh course.root)
    (ranResolve : resolve cap course = .ok outcome resolved)
    (ranValidate : validate resolved = .ok (some root) validated)
    (ranOthers : emitMethods ids validated = .ok methods current)
    (stage : current.work.tree.stage id = .validated)
    (ran : emitMethod warn id { work := current.work } = .ok method last)
    (during : moment ∈ last.code :: last.passed) (stopped : moment.reachable = false) :
    0 < moment.size ∧ moment.ops <+: method.ops ∧ (∃ op, method.ops[moment.size - 1]? = some op ∧
        ((∃ target, op = .jump target) ∨ op.isReturn = true)) ∧
      (∀ op ∈ method.ops, ∀ label, op.target? = some label → moment.offset? label ≠ some moment.size) ∧
      ∀ index, method.Goes index moment.size →
        ∃ op label, method.ops[index]? = some op ∧ op.target? = some label ∧
          method.labelOffset label = some moment.size ∧ moment.offset? label = none := by
  have others : Safe (emitMethods ids) validated _ :=
    safe_emitMethods (carries_of_validate fresh ranResolve ranValidate)
  rw [Safe, ranOthers] at others
  have safe := safe_emitMethod warn (fits_start others.2) stage
  rw [Safe, ran] at safe
  obtain ⟨name, rfl, fits⟩ := safe
  have outlasts := fits.past moment during
  obtain ⟨positive, op, isLast, terminal⟩ := outlasts.ended stopped
  exact ⟨positive, outlasts.grown, ⟨op, isLast, Op.isTerminal_iff.mp terminal⟩,
    fun op member label aims => outlasts.unaimed stopped member aims,
    fun index goes => outlasts.arrives stopped fits.sound goes⟩

end Course

/-- A unit whose only method has a loop that is left at once, so that it never goes on to its
update. -/
def brokenLoopUnit : Tree where
  nodes := #[{ form := .stmt (.breakOut none), parent := some ⟨2⟩ },
    { form := .stmt (.continueLoop none), parent := some ⟨2⟩ },
    { form := .stmt (.forLoop [] [] [⟨1⟩] ⟨0⟩), parent := some ⟨3⟩ },
    { form := .stmt (.block [⟨2⟩]), parent := some ⟨4⟩ },
    { form := .stmt (.method "m" [] [] ⟨3⟩) }]
  root := some ⟨4⟩

/-- Where the loop would go on, its label stands at an end that control does not arrive at. -/
def stopsAtContinue (moment : Buffer) : Bool :=
  !moment.reachable && moment.offset? ⟨0, .continueLoop⟩ == some moment.size

/-- The update of the loop is skipped, and so no instruction jumps to the label for going on. -/
theorem brokenLoopUnit_drops_dead_code : ∃ outcome resolved root validated method last moment,
    Course.resolve none (Session.courseOf {} {} brokenLoopUnit ⟨4⟩) = .ok outcome resolved ∧
    Course.validate resolved = .ok (some root) validated ∧
    Emission.emitMethod false ⟨4⟩ { work := validated.work } = .ok method last ∧
    moment ∈ last.code :: last.passed ∧ moment.reachable = false ∧
    moment.offset? ⟨0, .continueLoop⟩ = some moment.size ∧ 0 < moment.size ∧
    ∀ op ∈ method.ops, op.target? ≠ some ⟨0, .continueLoop⟩ := by
  have fresh : brokenLoopUnit.IsFresh ⟨4⟩ := Tree.isFresh_of_table (by decide) (by decide) (by decide)
  have stops : Step.succeeds (Course.resolve none) (Session.courseOf {} {} brokenLoopUnit ⟨4⟩)
      (fun _ resolved => Step.succeeds Course.validate resolved fun root validated =>
        root == some ⟨4⟩ && validated.work.tree.stage ⟨4⟩ == .validated &&
        Step.succeeds (Emission.emitMethod false ⟨4⟩) { work := validated.work } fun _ last =>
          (last.code :: last.passed).any stopsAtContinue) = true := by cbv
  obtain ⟨outcome, resolved, ranResolve, stops⟩ := Step.succeeds_iff.mp stops
  obtain ⟨root, validated, ranValidate, stops⟩ := Step.succeeds_iff.mp stops
  simp only [Bool.and_eq_true, beq_iff_eq, and_assoc] at stops
  obtain ⟨rfl, stage, stops⟩ := stops
  obtain ⟨method, last, ran, found⟩ := Step.succeeds_iff.mp stops
  obtain ⟨moment, during, stopped⟩ := List.any_eq_true.mp found
  obtain ⟨stopped, here⟩ : moment.reachable = false ∧
      moment.offset? ⟨0, .continueLoop⟩ = some moment.size := by
    simpa [stopsAtContinue] using stopped
  have first : Course.emitMethods [] validated = .ok [] validated := rfl
  obtain ⟨positive, -, -, unaimed, -⟩ := Course.dropped_code_is_dead fresh ranResolve ranValidate
    first stage ran during stopped
  exact ⟨outcome, resolved, ⟨4⟩, validated, method, last, moment, ranResolve, ranValidate, ran,
    during, stopped, here, positive, fun op member aims => unaimed op member _ aims here⟩

end TreeCompiler
