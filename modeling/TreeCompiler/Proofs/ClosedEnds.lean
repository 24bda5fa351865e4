import TreeCompiler.Proofs.Balance

/-!
# Ends that stay closed

Where control does not arrive at the end of the code, instructions are dropped. That is right as
long as no instruction that is kept later jumps to a label at that end. The code so far recalls all
it was before, and the labels at an end that control did not arrive at are none that may be jumped
to.
-/

namespace TreeCompiler

namespace Buffer

/-- Code that an earlier moment of it has grown into. Where control did not arrive at the end in
that moment, no jump goes to a label at that end, and none will. -/
structure Outlasts (ports : Ports) (code moment : Buffer) : Prop where
  sound : moment.Sound
  grown : moment.ops <+: code.ops
  labels : ∀ l offset, moment.offset? l = some offset → code.offset? l = some offset
  closed : moment.reachable = false → ∀ l, moment.offset? l = some moment.size →
    ports.Lacks l ∧ code.isReferenced l = false

/-- Code outlasts itself and all it was before. -/
def Recalls (ports : Ports) (code : Buffer) (past : List Buffer) : Prop :=
  ∀ moment ∈ code :: past, code.Outlasts ports moment

variable {ports more : Ports} {code t moment : Buffer} {past : List Buffer} {l : Label}
  {level : Nat}

theorem outlasts_self (sound : code.Sound) (closed : code.reachable = false →
    ∀ l, code.offset? l = some code.size → ports.Lacks l) : code.Outlasts ports code where
  sound := sound
  grown := List.prefix_refl _
  labels _ _ := id
  closed stopped l here := ⟨closed stopped l here, sound.closed stopped l here⟩

/-- Code goes on with jumps to labels only that may be jumped to, and among the labels that are
placed none becomes such a label. -/
theorem Outlasts.onward (outlasts : code.Outlasts ports moment) (hg : code.ops <+: t.ops)
    (labels : ∀ l offset, code.offset? l = some offset → t.offset? l = some offset)
    (lacks : ∀ l, moment.reachable = false → moment.offset? l = some moment.size →
      ports.Lacks l → more.Lacks l) (aims : ∀ l, ports.Lacks l → code.isReferenced l = false →
      t.isReferenced l = false) : t.Outlasts more moment where
  sound := outlasts.sound
  grown := outlasts.grown.trans hg
  labels l offset hpl := labels l offset (outlasts.labels l offset hpl)
  closed stopped l here := by
    obtain ⟨free, unaimed⟩ := outlasts.closed stopped l here
    exact ⟨lacks l stopped here free, aims l free unaimed⟩

theorem recalls_empty : Recalls .none {} [] := by
  intro moment mem
  rw [List.mem_singleton.mp mem]
  exact outlasts_self sound_empty fun _ _ _ => ⟨rfl, rfl⟩

namespace Recalls

/-- A label that may be jumped to stands at no closed end. -/
theorem spares (recalls : code.Recalls ports past) (used : ¬ports.Lacks l) :
    ∀ moment ∈ code :: past, moment.reachable = false → moment.offset? l ≠ some moment.size :=
  fun moment mem stopped here => used ((recalls moment mem).closed stopped l here).1

theorem onward (recalls : code.Recalls ports past) (self : t.Outlasts more t)
    (others : ∀ moment ∈ code :: past, code.Outlasts ports moment → t.Outlasts more moment) :
    t.Recalls more (code :: past) := by
  intro moment mem
  rcases List.mem_cons.mp mem with rfl | mem
  · exact self
  · exact others moment mem (recalls moment mem)

/-- Changes that leave the instructions and labels alone. -/
theorem congr (recalls : code.Recalls ports past) (ops : t.ops = code.ops)
    (hpl : t.placed = code.placed) (reachable : t.reachable = code.reachable)
    (sound : t.Sound) : t.Recalls ports (code :: past) := by
  have offsets : t.offset? = code.offset? := by
    funext l
    simp [offset?, hpl]
  refine recalls.onward (outlasts_self sound fun stopped l here => ?_) fun moment _ outlasts => ?_
  · rw [offsets, size, ops] at here
    exact ((recalls code List.mem_cons_self).closed (reachable ▸ stopped) l here).1
  · refine outlasts.onward (ops ▸ List.prefix_refl _) (by rw [offsets]; exact fun _ _ => id) (fun _ _ _ => id) ?_
    intro l _ unaimed
    rwa [isReferenced, ops]

theorem opened (recalls : code.Recalls ports past) (unplaced : code.offset? l = none)
    (level : Nat) : code.Recalls (ports.opened l level) past := by
  intro moment mem
  have outlasts := recalls moment mem
  refine outlasts.onward (List.prefix_refl _) (fun _ _ => id) ?_ fun _ _ => id
  intro x _ here free
  have ne : x ≠ l := by
    rintro rfl
    simp [outlasts.labels x _ here] at unplaced
  exact (Ports.lacks_opened ne).mpr free

/-- A label that stands at no closed end may be jumped back to. -/
theorem headed (recalls : code.Recalls ports past) (level : Nat)
    (spared : ∀ moment ∈ code :: past, moment.reachable = false →
      moment.offset? l ≠ some moment.size) : code.Recalls (ports.headed l level) past := by
  intro moment mem
  refine (recalls moment mem).onward (List.prefix_refl _) (fun _ _ => id) ?_ fun _ _ => id
  intro x stopped here free
  have ne : x ≠ l := by
    rintro rfl
    exact spared moment mem stopped here
  exact (Ports.lacks_headed ne).mpr free

theorem beheaded (recalls : code.Recalls (ports.headed l level) past)
    (lacks : ports.Lacks l) : code.Recalls ports past := by
  intro moment mem
  refine (recalls moment mem).onward (List.prefix_refl _) (fun _ _ => id) ?_ fun _ _ => id
  intro x _ _ free
  by_cases eq : x = l
  · rwa [eq]
  · exact (Ports.lacks_headed eq).mp free

theorem add (recalls : code.Recalls ports past) (sound : code.Sound) {op : Op}
    (used : ∀ l, op.target? = some l → ¬ports.Lacks l) :
    (code.add op).Recalls ports (code :: past) := by
  cases arrives : code.reachable with
  | false =>
    have dropped : code.add op = { code with dropped := code.dropped + 1 } := by
      simp [Buffer.add, arrives]
    refine recalls.congr ?_ ?_ ?_ (sound.add op) <;> rw [dropped]
  | true =>
    have added : code.add op =
        { code with ops := code.ops ++ [op], reachable := !op.isTerminal } := by
      simp [Buffer.add, arrives]
    refine recalls.onward (outlasts_self (sound.add op) fun _ l here => ?_) fun moment _ outlasts => ?_
    · have bound := sound.within l (code.add op).size (by rwa [added] at here ⊢)
      simp only [added, size, List.length_append, List.length_singleton] at bound
      omega
    · refine outlasts.onward (by simp [added]) (by rw [added]; exact fun _ _ => id) (fun _ _ _ => id) ?_
      intro l free unaimed
      have others : op.target? ≠ some l := fun aims => used l aims free
      rw [added]
      simpa [isReferenced, others] using unaimed

/-- Placing a label keeps the labels that are placed, and adds no jump. -/
theorem onward_bind (recalls : code.Recalls (ports.opened l level) past)
    (unplaced : code.offset? l = none) (ops : t.ops = code.ops)
    (offsets : ∀ x, t.offset? x = if x = l then some code.size else code.offset? x)
    (self : t.Outlasts more t) (lacks : ∀ x, x ≠ l → ports.Lacks x → more.Lacks x) :
    t.Recalls more (code :: past) := by
  refine recalls.onward self fun moment _ outlasts => ?_
  refine outlasts.onward (ops ▸ List.prefix_refl _) (fun x offset hpl => ?_) (fun x _ _ free => ?_) ?_
  · have ne : x ≠ l := by
      rintro rfl
      simp [unplaced] at hpl
    rwa [offsets, if_neg ne]
  · have ne : x ≠ l := by
      rintro rfl
      simp [Ports.Lacks, Ports.opened] at free
    exact lacks x ne ((Ports.lacks_opened ne).mp free)
  · intro x _ unaimed
    rwa [isReferenced, ops]

theorem joined (recalls : code.Recalls (ports.opened l level) past) (sound : code.Sound)
    (unplaced : code.offset? l = none) (lacks : ports.Lacks l) :
    (code.joined l).Recalls ports (code :: past) := by
  refine recalls.onward_bind unplaced rfl (code.offset?_joined l) ?_ fun _ _ => id
  refine outlasts_self (sound.joined l) fun stopped x here => ?_
  by_cases eq : x = l
  · rwa [eq]
  · have stopped : code.reachable = false := by
      simp only [Buffer.joined, Bool.or_eq_false_iff] at stopped
      exact stopped.1
    rw [offset?_joined, if_neg eq] at here
    have free := ((recalls code List.mem_cons_self).closed stopped x here).1
    exact (Ports.lacks_opened eq).mp free

theorem entered (recalls : code.Recalls (ports.opened l level) past) (sound : code.Sound)
    (unplaced : code.offset? l = none) :
    (code.entered l).Recalls (ports.headed l level) (code :: past) := by
  refine recalls.onward_bind unplaced rfl (code.offset?_entered l) ?_ fun x ne free =>
    (Ports.lacks_headed ne).mpr free
  exact outlasts_self (sound.entered l) fun stopped => absurd stopped (by simp [Buffer.entered])

end Recalls

end Buffer

end TreeCompiler
