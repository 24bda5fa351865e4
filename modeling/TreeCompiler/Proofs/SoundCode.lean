import TreeCompiler.Proofs.EmissionInvariants

/-!
# Sound code

What holds of the code of a method at every point of its emission: labels are placed once and inside
the code, and where control cannot arrive at the end, the last instruction never goes on and no
instruction jumps to a label at the end.
-/

namespace TreeCompiler

theorem lookup_eq_some_iff_mem {offsets : List (Label × Nat)} (hu : (offsets.map Prod.fst).Nodup)
    {l : Label} {offset : Nat} : offsets.lookup l = some offset ↔ (l, offset) ∈ offsets := by
  induction offsets with
  | nil => simp
  | cons entry rest ih =>
    obtain ⟨x, place⟩ := entry
    rw [List.map_cons, List.nodup_cons] at hu
    rw [List.lookup_cons]
    by_cases eq : l = x
    · subst eq
      have absent : (l, offset) ∉ rest := fun mem =>
        hu.1 (List.mem_map.mpr ⟨_, mem, rfl⟩)
      simp [absent, eq_comm]
    · have ne : (l == x) = false := by simpa using eq
      rw [ne]
      simp [eq, ih hu.2]

namespace Buffer

/-- What holds of the code of a method at every point of its emission. -/
structure Sound (buf : Buffer) : Prop where
  /-- No label is placed twice. -/
  unique : (buf.placed.map Prod.fst).Nodup
  /-- Labels stand in the code or at its end. -/
  within : ∀ l offset, buf.offset? l = some offset → offset ≤ buf.size
  /-- Where control does not arrive at the end, the last instruction never goes on. -/
  ended : buf.reachable = false → ∃ op, buf.ops.getLast? = some op ∧ op.isTerminal = true
  /-- Where control does not arrive at the end, no instruction jumps there. -/
  closed : buf.reachable = false → ∀ l, buf.offset? l = some buf.size → buf.isReferenced l = false

theorem sound_empty : Sound {} := by
  constructor <;> simp [offset?]

theorem offset?_bind (buf : Buffer) (l x : Label) : (buf.bind l).offset? x =
      if x = l then some buf.size else buf.offset? x := by
  unfold bind offset?
  rw [List.lookup_cons]
  by_cases eq : x = l
  · simp [eq]
  · have kept : (buf.placed.filter (·.1 ≠ l)).lookup x = buf.placed.lookup x := by
      induction buf.placed with
      | nil => rfl
      | cons entry rest ih =>
        rw [List.filter_cons]
        split
        · rw [List.lookup_cons, List.lookup_cons, ih]
        · rename_i dropped
          have ne : (x == entry.1) = false := by
            have he : entry.1 = l := by simpa using dropped
            simpa [he] using eq
          rw [ih, List.lookup_cons, ne]
    have ne : (x == l) = false := by simpa using eq
    simpa [eq, ne] using kept

theorem offset?_joined (buf : Buffer) (l x : Label) : (buf.joined l).offset? x =
      if x = l then some buf.size else buf.offset? x :=
  buf.offset?_bind l x

theorem offset?_entered (buf : Buffer) (l x : Label) : (buf.entered l).offset? x =
      if x = l then some buf.size else buf.offset? x :=
  buf.offset?_bind l x

theorem unique_bind {buf : Buffer} (hu : (buf.placed.map Prod.fst).Nodup)
    (l : Label) : ((buf.bind l).placed.map Prod.fst).Nodup := by
  unfold bind
  rw [List.map_cons, List.nodup_cons]
  constructor
  · simp
  · exact hu.sublist (List.filter_sublist.map _)

namespace Sound

variable {buf : Buffer} (sound : buf.Sound)

include sound

theorem add (op : Op) : (buf.add op).Sound := by
  unfold Buffer.add
  split
  · refine ⟨sound.unique, ?_, ?_, ?_⟩
    · intro l offset hp
      have bound := sound.within l offset hp
      simp only [size, List.length_append] at bound ⊢
      omega
    · intro stopped
      exact ⟨op, by simp, by simpa using stopped⟩
    · intro _ l hp
      -- the new end lies behind every label
      have bound := sound.within l _ hp
      simp only [size, List.length_append, List.length_singleton] at bound
      omega
  · exact ⟨sound.unique, sound.within, sound.ended, sound.closed⟩

theorem within_bind (l : Label) (x : Label) (offset : Nat)
    (hp : (buf.bind l).offset? x = some offset) : offset ≤ buf.size := by
  rw [offset?_bind] at hp
  split at hp
  · cases hp
    exact Nat.le_refl _
  · exact sound.within x offset hp

theorem entered (l : Label) : (buf.entered l).Sound where
  unique := unique_bind sound.unique l
  within := sound.within_bind l
  ended stopped := absurd stopped (by simp [Buffer.entered])
  closed stopped := absurd stopped (by simp [Buffer.entered])

theorem joined (l : Label) : (buf.joined l).Sound where
  unique := unique_bind sound.unique l
  within := sound.within_bind l
  ended stopped := sound.ended (by
    simp only [Buffer.joined, Bool.or_eq_false_iff] at stopped
    exact stopped.1)
  closed stopped x hp := by
    have apart : buf.reachable = false ∧ buf.isReferenced l = false := by
      simpa [Buffer.joined] using stopped
    have hp : (buf.bind l).offset? x = some buf.size := hp
    rw [offset?_bind] at hp
    split at hp
    · rename_i eq
      rw [eq]
      exact apart.2
    · exact sound.closed apart.1 x hp

/-- Sorting the labels of a method does not change where they stand. -/
theorem labelOffset_toMethod (name : String) (l : Label) :
    (buf.toMethod name).labelOffset l = buf.offset? l := by
  have sorted : ((labelsInOrder buf.placed).map Prod.fst).Nodup :=
    ((List.mergeSort_perm _ _).map _).nodup_iff.mpr sound.unique
  apply Option.ext
  intro offset
  change (labelsInOrder buf.placed).lookup l = some offset ↔ buf.placed.lookup l = some offset
  rw [lookup_eq_some_iff_mem sorted, lookup_eq_some_iff_mem sound.unique]
  exact (List.mergeSort_perm _ _).mem_iff

end Sound

end Buffer

theorem emissionInvariant_sound : EmissionInvariant fun e => e.code.Sound where
  facts _ _ _ sound _ := sound
  report _ _ sound := sound
  scope _ _ sound _ := sound
  add _ op sound := sound.add op
  place _ l sound _ := sound.entered l
  placeJoin _ l sound _ := sound.joined l
  register _ sound := ⟨sound.unique, sound.within, sound.ended, sound.closed⟩
  helper _ sound := ⟨sound.unique, sound.within, sound.ended, sound.closed⟩
  bound _ _ sound := ⟨sound.unique, sound.within, sound.ended, sound.closed⟩
  still _ sound := sound

end TreeCompiler
