import TreeCompiler.Proofs.SoundCode

/-!
# Labels that are placed again

A call that places a label for the second time is refused and changes nothing else, but it moves the
label to the end of the code so far. So the labels of a finished method stand where they were placed
last, which is where they were placed first only if no instruction was kept in between.
-/

namespace TreeCompiler.Buffer

/-- A call on a buffer. -/
inductive Call where
  | add (op : Op)
  | place (label : Label)
  | placeJoin (label : Label)
  | markUnreachable
  | newRegister
  | newHelper
  deriving DecidableEq, Repr

namespace Call

/-- What a call answers and the buffer after it. Only placing a label can be refused. -/
def run (buffer : Buffer) : Call → Except CodeError Unit × Buffer
  | .add op => (.ok (), buffer.add op)
  | .place label => buffer.place label
  | .placeJoin label => buffer.placeJoin label
  | .markUnreachable => (.ok (), buffer.markUnreachable)
  | .newRegister => (.ok (), buffer.newRegister.2)
  | .newHelper => (.ok (), buffer.newHelper.2)

/-- The label that a call places. -/
def label? : Call → Option Label
  | .place label | .placeJoin label => some label
  | _ => none

end Call

/-- The buffer after calls, each of which may have been refused. -/
def after (buffer : Buffer) : List Call → Buffer
  | [] => buffer
  | call :: rest => (call.run buffer).2.after rest

/-- The labels that calls place, refused or not, and where the code ended then. -/
def placings (buffer : Buffer) : List Call → List (Label × Nat)
  | [] => []
  | call :: rest => (call.label?.toList.map (·, buffer.size)) ++ (call.run buffer).2.placings rest

variable {buffer : Buffer} {call : Call} {label : Label} {offset : Nat}

theorem run_of_placed (places : call.label? = some label)
    (taken : buffer.offset? label = some offset) :
    call.run buffer = (.error (.labelTaken label offset), buffer.bind label) := by
  cases call with
  | place x | placeJoin x =>
    cases places
    simp [Call.run, place, placeJoin, bindThen, taken]
  | add op | markUnreachable | newRegister | newHelper => simp [Call.label?] at places

/-- A call places a label at the end of the code, or it leaves all labels and does not shorten the
code. -/
theorem run_cases (buffer : Buffer) (call : Call) :
    (∃ label, call.label? = some label ∧ (call.run buffer).2.placed = (buffer.bind label).placed ∧
        (call.run buffer).2.size = buffer.size) ∨
      call.label? = none ∧ (call.run buffer).2.placed = buffer.placed ∧
        buffer.size ≤ (call.run buffer).2.size := by
  cases call with
  | place label | placeJoin label =>
    refine .inl ⟨label, rfl, ?_⟩
    simp only [Call.run, place, placeJoin, bindThen]
    split <;> exact ⟨rfl, rfl⟩
  | add op =>
    refine .inr ⟨rfl, ?_⟩
    simp only [Call.run, add]
    split <;> simp [size]
  | markUnreachable | newRegister | newHelper => exact .inr ⟨rfl, rfl, Nat.le_refl _⟩

theorem offset?_run (buffer : Buffer) (call : Call) (label : Label) :
    (call.run buffer).2.offset? label =
      ((call.label?.toList.map (·, buffer.size)).lookup label).or (buffer.offset? label) := by
  rcases run_cases buffer call with ⟨x, places, hp, -⟩ | ⟨places, hp, -⟩
  · have moved := buffer.offset?_bind x label
    rw [offset?, ← hp] at moved
    rw [offset?, moved, places]
    by_cases eq : label = x
    · simp [eq]
    · have ne : (label == x) = false := by simpa using eq
      simp [eq, ne, List.lookup_cons]
  · simp [offset?, hp, places]

theorem offset?_after (buffer : Buffer) (calls : List Call) (label : Label) :
    (buffer.after calls).offset? label =
      ((buffer.placings calls).reverse.lookup label).or (buffer.offset? label) := by
  induction calls generalizing buffer with
  | nil => rfl
  | cons call rest ih =>
    have single : (call.label?.toList.map (·, buffer.size)).reverse = call.label?.toList.map (·, buffer.size) := by
      cases call.label? <;> rfl
    rw [after, ih, offset?_run, placings, List.reverse_append, List.lookup_append, single, Option.or_assoc]

theorem unique_after (hu : (buffer.placed.map Prod.fst).Nodup) (calls : List Call) :
    ((buffer.after calls).placed.map Prod.fst).Nodup := by
  induction calls generalizing buffer with
  | nil => exact hu
  | cons call rest ih =>
    refine ih ?_
    rcases run_cases buffer call with ⟨label, -, hp, -⟩ | ⟨-, hp, -⟩
    · exact hp ▸ unique_bind hu label
    · exact hp ▸ hu

theorem placings_ascend (buffer : Buffer) (calls : List Call) :
    (∀ entry ∈ buffer.placings calls, buffer.size ≤ entry.2) ∧
      (buffer.placings calls).Pairwise fun fst snd => fst.2 ≤ snd.2 := by
  induction calls generalizing buffer with
  | nil => simp [placings]
  | cons call rest ih =>
    obtain ⟨behind, ascend⟩ := ih (call.run buffer).2
    unfold placings
    rcases run_cases buffer call with ⟨label, places, -, size⟩ | ⟨places, -, size⟩
    · rw [size] at behind
      simp only [places]
      exact ⟨List.forall_mem_cons.mpr ⟨Nat.le_refl _, behind⟩, List.pairwise_cons.mpr ⟨behind, ascend⟩⟩
    · simp only [places]
      exact ⟨fun entry mem => Nat.le_trans size (behind entry mem), ascend⟩

theorem exists_lookup {table : List (Label × Nat)} (mem : (label, offset) ∈ table) :
    ∃ got, table.lookup label = some got := by
  cases isFound : table.lookup label with
  | some got => exact ⟨got, rfl⟩
  | none =>
    have absent := List.lookup_eq_none_iff.mp isFound _ mem
    simp at absent

theorem mem_of_lookup {table : List (Label × Nat)} (hf : table.lookup label = some offset) :
    (label, offset) ∈ table := by
  obtain ⟨b, behind, rfl, -⟩ := List.lookup_eq_some_iff.mp hf
  simp

/-- In a table of ascending offsets a label is found first at its least offset and last at its
greatest. -/
theorem offset_of_ascend {table : List (Label × Nat)} {fst last : Nat}
    (ascend : table.Pairwise fun fst snd => fst.2 ≤ snd.2) (mem : (label, offset) ∈ table)
    (isFirst : table.lookup label = some fst) (isLast : table.reverse.lookup label = some last) :
    fst ≤ offset ∧ offset ≤ last := by
  have least : ∀ {table : List (Label × Nat)} {R : Nat → Nat → Prop}, (∀ offset, R offset offset) →
      (table.Pairwise fun fst snd => R fst.2 snd.2) → (label, offset) ∈ table →
      ∀ {got}, table.lookup label = some got → R got offset := by
    intro table R refl ordered mem got isFound
    obtain ⟨b, behind, rfl, absent⟩ := List.lookup_eq_some_iff.mp isFound
    rw [List.pairwise_append, List.pairwise_cons] at ordered
    rcases List.mem_append.mp mem with he | later
    · have ne := absent _ he
      simp at ne
    · rcases List.mem_cons.mp later with eq | later
      · cases eq
        exact refl _
      · exact ordered.2.1.1 _ later
  exact ⟨least Nat.le_refl ascend mem isFirst,
    least (R := (· ≥ ·)) Nat.le_refl (List.pairwise_reverse.mpr ascend) (by simpa using mem) isLast⟩

theorem mem_labels_iff {m : Method} {name : String} (hu : (buffer.placed.map Prod.fst).Nodup)
    (finished : buffer.finish name = .ok m) :
    (label, offset) ∈ m.labels ↔ buffer.offset? label = some offset := by
  have built : buffer.toMethod name = m := by
    unfold finish at finished
    cases hc : (buffer.toMethod name).check with
    | error error => simp [hc] at finished
    | ok _ => simpa [hc, Bind.bind, Except.bind, pure, Except.pure] using finished
  rw [← built, offset?, lookup_eq_some_iff_mem hu]
  exact (List.mergeSort_perm _ _).mem_iff

/-- Placing a label again is refused, with the offset it had, and leaves all of the buffer but the
offset of this label, which becomes the end of the code. So whatever is called, a finished method
has each label where it was placed last. That is where it was placed first, for all labels, exactly
if none was placed again behind further instructions. -/
theorem labels_stand_where_placed_last (calls : List Call) :
    (∀ (buffer : Buffer) (call : Call) label offset, call.label? = some label →
    buffer.offset? label = some offset →
      call.run buffer = (.error (.labelTaken label offset), { buffer with placed := (buffer.bind label).placed }) ∧
        ∀ other, (call.run buffer).2.offset? other =
          if other = label then some buffer.size else buffer.offset? other) ∧
    ∀ name method, (empty.after calls).finish name = .ok method →
      (∀ label offset, (label, offset) ∈ method.labels ↔
        (empty.placings calls).reverse.lookup label = some offset) ∧
      ((∀ label offset, (label, offset) ∈ method.labels ↔ (empty.placings calls).lookup label = some offset) ↔
        ∀ label offset, (label, offset) ∈ empty.placings calls →
          (empty.placings calls).lookup label = some offset) := by
  refine ⟨fun buffer call label offset places taken => ?_, fun name method finished => ?_⟩
  · rw [run_of_placed places taken]
    exact ⟨rfl, buffer.offset?_bind label⟩
  · have last : ∀ label offset, (label, offset) ∈ method.labels ↔
        (empty.placings calls).reverse.lookup label = some offset := by
      intro label offset
      rw [mem_labels_iff (unique_after (by simp [empty]) calls) finished, offset?_after]
      simp [empty, offset?]
    refine ⟨last, fun first label offset mem => ?_, fun kept label offset => ?_⟩
    · -- the label has a first and a last offset, and they are the same
      obtain ⟨found, isFirst⟩ := exists_lookup mem
      have isLast := (last label found).mp ((first label found).mpr isFirst)
      obtain ⟨least, most⟩ := offset_of_ascend (empty.placings_ascend calls).2 mem isFirst isLast
      rw [isFirst, Nat.le_antisymm least most]
    · have placed : ∀ {offset}, (empty.placings calls).reverse.lookup label = some offset →
          (empty.placings calls).lookup label = some offset :=
        fun isLast => kept label _ (List.mem_reverse.mp (mem_of_lookup isLast))
      rw [last]
      refine ⟨placed, fun isFirst => ?_⟩
      obtain ⟨found, isLast⟩ := exists_lookup (List.mem_reverse.mpr (mem_of_lookup isFirst))
      rw [isLast, ← placed isLast, isFirst]

/-- A loop whose entry is placed a second time behind its first instruction. -/
def loopCalls : List Call :=
  [.newRegister, .place ⟨1, .repeatLoop⟩, .add (.move (.constant ⟨0⟩) ⟨0⟩), .place ⟨1, .repeatLoop⟩,
    .add (.jump ⟨1, .repeatLoop⟩)]

def movedMethod : Method where
  name := "run"
  ops := [.move (.constant ⟨0⟩) ⟨0⟩, .jump ⟨1, .repeatLoop⟩]
  registers := 1
  labels := [(⟨1, .repeatLoop⟩, 1)]

/-- The entry of the loop stands where it was placed last. -/
theorem loopCalls_last : (empty.after loopCalls).finish "run" = .ok movedMethod ∧
    ∀ label offset, (label, offset) ∈ movedMethod.labels ↔
      (empty.placings loopCalls).reverse.lookup label = some offset := by
  have finished : (empty.after loopCalls).finish "run" = .ok movedMethod := by cbv
  exact ⟨finished, ((labels_stand_where_placed_last loopCalls).2 "run" movedMethod finished).1⟩

/-- The second placing of the entry is refused and still moves it, with the jump that goes there,
from before the first instruction to behind it. -/
theorem loopCalls_moves_entry :
    (empty.after (loopCalls.take 3)).offset? ⟨1, .repeatLoop⟩ = some 0 ∧
      (Call.run (empty.after (loopCalls.take 3)) (.place ⟨1, .repeatLoop⟩)).1 =
        .error (.labelTaken ⟨1, .repeatLoop⟩ 0) ∧
      (empty.after (loopCalls.take 4)).offset? ⟨1, .repeatLoop⟩ = some 1 ∧
      (empty.after loopCalls).finish "run" = .ok movedMethod ∧
      (⟨1, .repeatLoop⟩, 0) ∉ movedMethod.labels :=
  ⟨rfl, rfl, rfl, by cbv, by decide⟩

end TreeCompiler.Buffer
