import Mathlib
import TreeCompiler.Diagnostic.Code

/-!
# Messages of diagnostics

The slots of a template are filled one after another. The answer is that of filling them all at
once, with every argument as later ones have changed it: they are put into the slots that its own
text shows.
-/

namespace TreeCompiler

namespace Text

variable {pattern new text rest : List Char} {skip : Nat}

/-- An occurrence does not reach into what follows, if that starts with a character it cannot go on
with. -/
theorem isPrefixOf_append (apart : ∀ c ∈ rest.head?, c ∉ pattern.tail) (c : Char)
    (text : List Char) :
    pattern.isPrefixOf (c :: text ++ rest) = pattern.isPrefixOf (c :: text) := by
  rw [Bool.eq_iff_iff, List.isPrefixOf_iff_prefix, List.isPrefixOf_iff_prefix]
  refine ⟨fun whole => ?_, fun found => found.trans (List.prefix_append _ _)⟩
  rcases Nat.le_total pattern.length (c :: text).length with short | long
  · exact List.prefix_of_prefix_length_le whole (List.prefix_append _ _) short
  · obtain ⟨more, rfl⟩ := List.prefix_of_prefix_length_le (List.prefix_append _ _) whole long
    cases more with
    | nil => simp
    | cons d more =>
      obtain ⟨after, rfl⟩ := (List.prefix_append_right_inj _).mp whole
      exact absurd (by simp) (apart d rfl)

theorem replaceFrom_append (apart : ∀ c ∈ rest.head?, c ∉ pattern.tail)
    (inside : skip ≤ text.length) : replaceFrom pattern new skip (text ++ rest) =
      replaceFrom pattern new skip text ++ replaceAll pattern new rest := by
  induction text generalizing skip with
  | nil =>
    obtain rfl := Nat.le_zero.mp inside
    rfl
  | cons c text ih =>
    cases skip with
    | succ skip => exact ih (Nat.le_of_succ_le_succ inside)
    | zero =>
      have same := isPrefixOf_append apart c text
      rw [List.cons_append] at same ⊢
      rw [replaceFrom, replaceFrom, same]
      split
      · rename_i here
        have begins := List.isPrefixOf_iff_prefix.mp here
        have short := begins.length_le
        rw [ih (Nat.sub_le_of_le_add short), List.append_assoc]
      · exact congrArg (c :: ·) (ih (Nat.zero_le _))

theorem replaceAll_eq_self (absent : ¬pattern <:+: text) : replaceAll pattern new text = text := by
  induction text with
  | nil => rfl
  | cons c text ih =>
    rw [List.infix_cons_iff, not_or, ← List.isPrefixOf_iff_prefix] at absent
    rw [replaceAll, replaceFrom, if_neg absent.1]
    exact congrArg (c :: ·) (ih absent.2)

theorem replaceFrom_length : replaceFrom pattern new text.length text = [] := by
  induction text with
  | nil => rfl
  | cons c text ih => exact ih

end Text

namespace Code

open Text

theorem toList_slot (i : Nat) : (slot i).toList = '\x7b' :: (Nat.toDigits 10 i ++ ['\x7d']) := by
  simp [slot, toString, Nat.toDigits, Nat.repr]

theorem mem_tail_slot {i : Nat} {c : Char} (mem : c ∈ (slot i).toList.tail) :
    c.isDigit = true ∨ c = '\x7d' := by
  rw [toList_slot, List.tail_cons, List.mem_append, List.mem_singleton] at mem
  exact mem.imp_left (Nat.isDigit_of_mem_toDigits (by decide) (by decide))

theorem eq_of_slot_infix {i j : Nat} (inside : (slot j).toList <:+: (slot i).toList) : j = i := by
  rw [toList_slot i, List.infix_cons_iff, toList_slot, List.cons_prefix_cons, List.prefix_concat_iff] at inside
  rcases inside with ⟨-, same | ⟨after, win⟩⟩ | win
  · simpa using congrArg (Nat.ofDigitChars 10 · 0) (List.append_cancel_right same)
  · have digit : '\x7d' ∈ Nat.toDigits 10 i := by simp [← win]
    exact absurd (Nat.isDigit_of_mem_toDigits (by decide) (by decide) digit) (by decide)
  · have brace : '\x7b' ∈ (slot i).toList.tail := by
      rw [toList_slot]
      exact win.subset List.mem_cons_self
    exact absurd (mem_tail_slot brace) (by decide)

theorem replaceAll_slot (i j : Nat) (new : List Char) :
    replaceAll (slot j).toList new (slot i).toList = if j = i then new else (slot i).toList := by
  split
  · subst j
    have whole : (slot i).toList.isPrefixOf (slot i).toList = true :=
      List.isPrefixOf_iff_prefix.mpr List.prefix_rfl
    rw [toList_slot] at whole ⊢
    rw [replaceAll, replaceFrom, if_pos whole]
    exact (congrArg (new ++ ·) replaceFrom_length).trans (List.append_nil _)
  · exact replaceAll_eq_self (mt eq_of_slot_infix ‹_›)

/-- The characters and slots of a template. -/
def pieces : List Char → List (Char ⊕ Nat)
  | '\x7b' :: digit :: '\x7d' :: rest => .inr (digit.toNat - '0'.toNat) :: pieces rest
  | c :: rest => .inl c :: pieces rest
  | [] => []

/-- The text with these characters and with something in the place of the slots. -/
def spelled (filling : Nat → List Char) (pieces : List (Char ⊕ Nat)) : List Char :=
  pieces.flatMap (Sum.elim ([·]) filling)

/-- The message with all slots filled at once; a slot without an argument stays. -/
def filled (code : Code) (args : List String) : String :=
  String.ofList (spelled (fun i => (args[i]?.getD (slot i)).toList) (pieces code.template.toList))

/-- Whether no slot can be read across the ends of what fills the slots: a filling is followed by a
character that no slot goes on with, and no other character starts one. -/
def apart : List (Char ⊕ Nat) → Bool
  | [] => true
  | .inl c :: rest => c != '\x7b' && apart rest
  | [.inr _] => true
  | .inr _ :: .inl c :: rest => !c.isDigit && c != '\x7d' && apart (.inl c :: rest)
  | .inr _ :: .inr _ :: _ => false

theorem spelled_pieces (code : Code) : spelled (fun i => (slot i).toList)
    (pieces code.template.toList) =
    code.template.toList ∧ apart (pieces code.template.toList) = true := by
  cases code <;> decide

theorem replaceAll_spelled {pieces : List (Char ⊕ Nat)} (isApart : apart pieces = true) (j : Nat)
    (new : List Char) (filling : Nat → List Char) :
    replaceAll (slot j).toList new (spelled filling pieces) =
      spelled (fun i => replaceAll (slot j).toList new (filling i)) pieces := by
  fun_induction apart pieces with
  | case1 => rfl
  | case2 c rest ih =>
    rw [Bool.and_eq_true, bne_iff_ne] at isApart
    have plain : ¬(slot j).toList.isPrefixOf (c :: spelled filling rest) = true := by
      rw [toList_slot, List.isPrefixOf_iff_prefix, List.cons_prefix_cons]
      exact fun starts => isApart.1 starts.1.symm
    have step : replaceAll (slot j).toList new (c :: spelled filling rest) =
        c :: replaceAll (slot j).toList new (spelled filling rest) := by
      rw [replaceAll, replaceFrom, if_neg plain]
      rfl
    exact step.trans (congrArg (c :: ·) (ih isApart.2))
  | case3 i => simp [spelled]
  | case4 i c rest ih =>
    simp only [Bool.and_eq_true, Bool.not_eq_true', bne_iff_ne] at isApart
    have ends : ∀ d ∈ (spelled filling (.inl c :: rest)).head?, d ∉ (slot j).toList.tail := by
      intro d first inside
      obtain rfl : c = d := by simpa [spelled] using first
      rcases mem_tail_slot inside with digit | brace
      · simp [isApart.1.1] at digit
      · exact isApart.1.2 brace
    exact (replaceFrom_append ends (Nat.zero_le _)).trans (congrArg (_ ++ ·) (ih isApart.2))
  | case5 => simp at isApart

theorem fillFrom_spelled {pieces : List (Char ⊕ Nat)} (isApart : apart pieces = true)
    (filling : Nat → List Char)
    (start : Nat) (args : List String) : fillFrom start (spelled filling pieces) args =
      spelled (fun i => fillFrom start (filling i) args) pieces := by
  induction args generalizing start filling with
  | nil => rfl
  | cons arg rest ih => rw [fillFrom, replaceAll_spelled isApart, ih]; rfl

/-- The arguments as later ones change them. -/
def touchedFrom (start : Nat) : List String → List String
  | [] => []
  | arg :: rest =>
    String.ofList (fillFrom (start + 1) arg.toList rest) :: touchedFrom (start + 1) rest

theorem fillFrom_slot (start i : Nat) (args : List String) :
    fillFrom start (slot (start + i)).toList args =
    ((touchedFrom start args)[i]?.getD (slot (start + i))).toList := by
  induction args generalizing start i with
  | nil => rfl
  | cons arg rest ih =>
    rw [fillFrom, replaceAll_slot]
    cases i with
    | zero => simp [touchedFrom]
    | succ i =>
      rw [if_neg (by omega), touchedFrom, List.getElem?_cons_succ,
        show start + (i + 1) = start + 1 + i by omega]
      exact ih (start + 1) i

theorem fillFrom_eq_self {start : Nat} {arg : List Char} {args : List String}
    (absent : ∀ j < args.length, ¬(slot (start + j)).toList <:+: arg) :
    fillFrom start arg args = arg := by
  induction args generalizing start with
  | nil => rfl
  | cons first rest ih =>
    rw [fillFrom, replaceAll_eq_self (by simpa using absent 0 (by simp))]
    exact ih fun j less => (by omega : start + (j + 1) = start + 1 + j) ▸ absent (j + 1) (by simpa using less)

theorem touchedFrom_eq_self {start : Nat} {args : List String}
    (absent : ∀ i j arg, i < j → args[i]? = some arg → j < args.length →
      ¬(slot (start + j)).toList <:+: arg.toList) : touchedFrom start args = args := by
  induction args generalizing start with
  | nil => rfl
  | cons arg rest ih =>
    rw [touchedFrom, ih, fillFrom_eq_self, String.ofList_toList]
    · exact fun j less => (by omega : start + (j + 1) = start + 1 + j) ▸
        absent 0 (j + 1) arg (by omega) rfl (by simpa using less)
    · exact fun i j other before found less =>
        (by omega : start + (j + 1) = start + 1 + j) ▸
          absent (i + 1) (j + 1) other (by omega) found (by simpa using less)

/-- Filling the slots one after another is filling them at once with arguments that later ones have
changed. If no argument shows the slot of a later one, every argument is put in as it is. -/
theorem message_fills_slots (code : Code) (args : List String) :
    code.message args = code.filled (touchedFrom 0 args) ∧
      ((∀ i j arg, i < j → args[i]? = some arg → j < args.length →
        ¬(slot j).toList <:+: arg.toList) → code.message args = code.filled args) := by
  have all : code.message args = code.filled (touchedFrom 0 args) := by
    obtain ⟨same, isApart⟩ := spelled_pieces code
    have slots := fun i => fillFrom_slot 0 i args
    simp only [Nat.zero_add] at slots
    rw [message, filled, ← same, fillFrom_spelled isApart, same]
    simp only [slots]
  refine ⟨all, fun absent => ?_⟩
  rw [all, touchedFrom_eq_self (by simpa using absent)]

/-- An argument that shows its own slot is put in as it is. -/
theorem ownSlot_is_kept : Code.wrongType.message [slot 0, "Int"] = Code.wrongType.filled [slot 0, "Int"] ∧
    Code.wrongType.filled [slot 0, "Int"] = "Type mismatch: " ++ slot 0 ++ " expected, Int found." := by
  refine ⟨(message_fills_slots .wrongType _).2 fun i j arg before found less => ?_, by decide⟩
  obtain ⟨rfl, rfl⟩ : i = 0 ∧ j = 1 := by
    simp only [List.length_cons, List.length_nil] at less
    omega
  cases found
  decide

/-- The slot of a later argument is filled also where an argument shows it. -/
theorem laterSlot_is_filled : Code.wrongType.message [slot 1, "Int"] = "Type mismatch: Int expected, Int found." ∧
    Code.wrongType.filled [slot 1, "Int"] = "Type mismatch: " ++ slot 1 ++ " expected, Int found." := by
  decide

end Code

end TreeCompiler
