import TreeCompiler.Proofs.Placeholders

/-!
# What stays known of a type

Whether an id depends on an open placeholder can be read off its expansion. An id that depends on
none never will again, and keeps its canonical twin. Any other id stays interchangeable with the
twin it had at some time: once further placeholders are filled, both have the same twin.
-/

namespace TreeCompiler

open Step

namespace Pool

variable {p b after : Pool} {id fst snd : ConstId} {term : Term}

theorem Advances.refers {part : ConstId} (advances : b.Advances after)
    (refers : b.Refers id part) : after.Refers id part := by
  obtain ⟨entry, hf, mem⟩ := refers
  rcases advances.kept id entry hf with kept | ⟨name, tgt, wasOpen, -⟩
  · exact ⟨entry, kept, mem⟩
  · cases hf.symm.trans wasOpen
    simp [Entry.parts] at mem

/-- A constant that contains itself does so for good. -/
theorem acyclic_of_run (calls : List Call) (acyclic : (p.run calls).Acyclic) : p.Acyclic := by
  induction calls generalizing p with
  | nil => exact acyclic
  | cons call rest ih =>
    intro id cycle
    exact ih acyclic id (Relation.TransGen.mono
      (fun _ _ refers => (advances_called p call).refers refers) _ _ cycle)

/-- Two ids that stand for the same, as far as it is known. -/
def Alike (p : Pool) (fst snd : ConstId) : Prop :=
  ∃ ex, p.Expands true fst ex ∧ p.Expands true snd ex

theorem Alike.called (alike : p.Alike fst snd) (call : Call)
    (acyclic : (p.called call).Acyclic) : (p.called call).Alike fst snd := by
  obtain ⟨ex, left, right⟩ := alike
  rcases extends_called p call with hg | ⟨hole, tgt, rfl⟩
  · exact ⟨ex, left.mono hg, right.mono hg⟩
  · rcases fill_cases (P := fun now => now.Extends p) (fun id => PoolM.grows_canonical id p)
      (Extends.refl p) hole tgt with
      hg | ⟨name, twin, mid, wasOpen, ran, -, hg, filled⟩
    · exact ⟨ex, left.mono hg, right.mono hg⟩
    · have ended : p.called (.fill hole tgt) = mid.setTarget hole twin :=
        congrArg endState filled
      rw [ended] at acyclic ⊢
      have ho := hg.holds _ _ wasOpen
      obtain ⟨i, -, unfolds⟩ := expands_of_canonical ran
      -- the target does not lead back to the placeholder, or the placeholder would contain itself
      have closed : ¬Leaves hole i := by
        intro leaves
        have advances := advances_setTarget (Extends.refl mid) ho twin
        have filled : (mid.setTarget hole twin).Refers hole twin :=
          ⟨_, by rw [entry?_setTarget ho, if_pos rfl], by simp [Entry.parts]⟩
        exact acyclic hole (.head' filled (Relation.ReflTransGen.mono
          (fun _ _ refers => advances.refers refers) _ _ (unfolds.refers leaves)))
      have goes := unfolds.loosen.setTarget ho twin closed
      exact ⟨_, (left.mono hg).fill ho goes, (right.mono hg).fill ho goes⟩

theorem Alike.run (alike : p.Alike fst snd) (calls : List Call)
    (acyclic : (p.run calls).Acyclic) : (p.run calls).Alike fst snd := by
  induction calls generalizing p with
  | nil => exact alike
  | cons call rest ih => exact ih (alike.called call (acyclic_of_run rest acyclic)) acyclic

/-- Two ids that turn out to have the same canonical twin, looked for one after the other. -/
def Agree (p : Pool) (fst snd : ConstId) : Prop :=
  ∃ twin mid after, PoolM.canonical fst p = .ok twin mid ∧ PoolM.canonical snd mid = .ok twin after

theorem Alike.agree (alike : p.Alike fst snd) : p.Agree fst snd := by
  obtain ⟨ex, left, right⟩ := alike
  obtain ⟨twin, mid, ran, hg, unfolds⟩ := left.canonical
  obtain ⟨x, after, ranOther, hf, unfoldsOther⟩ := (right.mono hg).canonical
  obtain rfl := (unfolds.mono hf).eq unfoldsOther
  exact ⟨twin, mid, after, ran, ranOther⟩

theorem Means.run (means : p.Means id term) (calls : List Call) : (p.run calls).Means id term := by
  induction calls generalizing p with
  | nil => exact means
  | cons call rest ih => exact ih ((advances_called p call).retains id term means)

theorem Spells.run (spells : p.Spells id term) (calls : List Call) :
    (p.run calls).Spells id term := by
  induction spells with
  | intro hf arity _ ih => exact .intro (value_run hf calls) arity ih

/-- A resolved id keeps the twin it had. -/
theorem Means.canonical_run {twin : ConstId} {mid : Pool}
    (means : p.Means id term) (ran : PoolM.canonical id p = .ok twin mid) (later : List Call) :
    ∃ after, PoolM.canonical id (mid.run later) = .ok twin after := by
  obtain ⟨_, _, ranTwin, hg, spells⟩ := means.canonical
  cases ran.symm.trans ranTwin
  obtain ⟨x, after, ranLater, hf, spellsOther⟩ := ((means.extends hg).run later).canonical
  obtain rfl := ((spells.run later).extends hf).eq spellsOther
  exact ⟨after, ranLater⟩

/-- Whether an id is resolved says whether a placeholder is open in its expansion. Once it is, it
stays so and its canonical twin stays the same, whatever is called; and as long as no constant comes
to contain itself, any id and the twin it had before have the same twin later. -/
theorem resolution_lasts (calls : List Call) (acyclic : (empty.run calls).Acyclic) {id : ConstId}
    (complete : (empty.run calls).Complete id) :
    ∃ expansion answer twin middle, (empty.run calls).Expands true id expansion ∧
      (empty.run calls).isResolved id = .ok answer ∧
      (answer = true ↔ ∀ hole, ¬Leaves hole expansion) ∧
      PoolM.canonical id (empty.run calls) = .ok twin middle ∧
      (answer = true → ∀ later, ((empty.run calls).run later).isResolved id = .ok true ∧
        ∃ after, PoolM.canonical id (middle.run later) = .ok twin after) ∧
      ∀ later, (middle.run later).Acyclic →
        (middle.run later).Agree twin id ∧ (middle.run later).Agree id twin := by
  obtain ⟨expansion, expands⟩ := acyclic.expands complete
  obtain ⟨answer, resolved, iff⟩ := expands.isResolved
  obtain ⟨twin, middle, ran, grown, unfolds⟩ := expands.canonical
  refine ⟨expansion, answer, twin, middle, expands, resolved, iff, ran, ?_, ?_⟩
  · rintro rfl later
    obtain ⟨term, means⟩ := means_of_isResolved resolved
    exact ⟨(means.run later).isResolved, means.canonical_run ran later⟩
  · intro later acyclicLater
    have alike : middle.Alike twin id := ⟨expansion, unfolds.loosen, expands.mono grown⟩
    obtain ⟨last, left, right⟩ := alike.run later acyclicLater
    exact ⟨Alike.agree ⟨last, left, right⟩, Alike.agree ⟨last, right, left⟩⟩

end Pool

/-- The nullable type of a class that is not known yet agrees with its twin once the class is. -/
theorem namedEarly_lasts :
    (Pool.empty.run (namedEarly.take 3)).Acyclic ∧
    (Pool.empty.run (namedEarly.take 3)).Complete ⟨2⟩ ∧
      ∃ twin middle, PoolM.canonical ⟨2⟩ (Pool.empty.run (namedEarly.take 3)) = .ok twin middle ∧
        (middle.run (namedEarly.drop 3)).Acyclic ∧
        (middle.run (namedEarly.drop 3)).Agree twin ⟨2⟩ := by
  have acyclicLater : ((Pool.empty.run (namedEarly.take 3)).run (namedEarly.drop 3)).Acyclic :=
    earlyPool_acyclic
  have acyclic := Pool.acyclic_of_run _ acyclicLater
  have complete : (Pool.empty.run (namedEarly.take 3)).Complete ⟨2⟩ :=
    Pool.complete_of_closed (by decide) (by decide)
  have found : PoolM.canonical ⟨2⟩ (Pool.empty.run (namedEarly.take 3)) =
      .ok ⟨2⟩ (Pool.empty.run (namedEarly.take 3)) := by cbv
  obtain ⟨-, -, twin, middle, -, -, -, ran, -, later⟩ := Pool.resolution_lasts _ acyclic complete
  cases found.symm.trans ran
  exact ⟨acyclic, complete, _, _, ran, acyclicLater, (later _ acyclicLater).1⟩

end TreeCompiler
