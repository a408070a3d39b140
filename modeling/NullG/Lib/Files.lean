/-
A file system that is written by several programs.

A name is linked to a file by its number. A program that has opened a file writes to it by number
and at its own offset, also when the name was linked to another file since.
-/

import Mathlib.Logic.Function.Basic

namespace NullG.Lib

/-- Names, and what the files hold. -/
structure Files (ν β : Type) where
  dir : ν → Option Nat
  data : Nat → List β
  /-- no file has this number or a greater one -/
  next : Nat

namespace Files

variable {ν β : Type} {f g h : Files ν β} {p q : ν} {n : Nat} {l : List β}

/-- Every file has at most one name. -/
structure Sound (f : Files ν β) : Prop where
  old : ∀ p n, f.dir p = some n → n < f.next
  single : ∀ p q n, f.dir p = some n → f.dir q = some n → p = q

/-- What the file with a name holds. -/
def read (f : Files ν β) (p : ν) : Option (List β) := (f.dir p).map f.data

/-- There is a file with this name. -/
def stat (f : Files ν β) (p : ν) : Bool := (f.dir p).isSome

/-- A file is opened for writing: what it held is gone, or it is new. -/
def openWrite [DecidableEq ν] (f : Files ν β) (p : ν) : Nat × Files ν β :=
  match f.dir p with
  | some n => (n, { f with data := Function.update f.data n [] })
  | none =>
      (f.next,
        { dir := Function.update f.dir p (some f.next)
          data := Function.update f.data f.next []
          next := f.next + 1 })

/-- The list with other elements from an offset on. -/
def overwrite [Inhabited β] (l : List β) (offset : Nat) (l' : List β) : List β :=
  l.take offset ++ List.replicate (offset - l.length) default ++ l' ++ l.drop (offset + l'.length)

/-- A file is written at an offset. -/
def writeAt [Inhabited β] (f : Files ν β) (n offset : Nat) (l : List β) : Files ν β :=
  { f with data := Function.update f.data n (overwrite (f.data n) offset l) }

/-- A name is unlinked. -/
def unlink [DecidableEq ν] (f : Files ν β) (p : ν) : Files ν β := { f with dir := Function.update f.dir p none }

/-- Nothing has changed at the name. -/
structure SameAt (f g : Files ν β) (p : ν) : Prop where
  dir : g.dir p = f.dir p
  data : ∀ n, f.dir p = some n → g.data n = f.data n

namespace SameAt

theorem refl (f : Files ν β) (p : ν) : SameAt f f p := ⟨rfl, fun _ _ => rfl⟩

theorem trans (hfg : SameAt f g p) (hgh : SameAt g h p) : SameAt f h p :=
  ⟨hgh.dir.trans hfg.dir, fun n hn => (hgh.data n (hfg.dir.trans hn)).trans (hfg.data n hn)⟩

theorem read (hfg : SameAt f g p) : g.read p = f.read p := by
  unfold Files.read
  rw [hfg.dir]
  cases hdir : f.dir p with
  | none => rfl
  | some n => exact congrArg some (hfg.data n hdir)

end SameAt

theorem read_of_dir (hdir : f.dir p = some n) : f.read p = some (f.data n) := by
  unfold read
  rw [hdir]
  rfl

theorem dir_of_stat (hstat : f.stat p = false) : f.dir p = none := by
  unfold stat at hstat
  cases hdir : f.dir p with
  | none => rfl
  | some n =>
      rw [hdir] at hstat
      cases hstat

section

variable [DecidableEq ν]

theorem openWrite_sound (hf : f.Sound) (p : ν) : (f.openWrite p).2.Sound := by
  unfold openWrite
  cases hdir : f.dir p with
  | some n => exact ⟨hf.old, hf.single⟩
  | none =>
      have hcases : ∀ q n, Function.update f.dir p (some f.next) q = some n →
          q = p ∧ n = f.next ∨ q ≠ p ∧ f.dir q = some n := by
        intro q n hq
        by_cases heq : q = p
        · rw [heq, Function.update_self] at hq
          exact .inl ⟨heq, (Option.some.inj hq).symm⟩
        · rw [Function.update_of_ne heq] at hq
          exact .inr ⟨heq, hq⟩
      refine ⟨fun q n hq => ?_, fun q r n hq hr => ?_⟩
      · rcases hcases q n hq with ⟨-, rfl⟩ | ⟨-, hq⟩
        · exact Nat.lt_succ_self _
        · exact Nat.lt_succ_of_lt (hf.old q n hq)
      · rcases hcases q n hq with ⟨hqp, hn⟩ | ⟨-, hq'⟩
        · rcases hcases r n hr with ⟨hrp, -⟩ | ⟨-, hr'⟩
          · rw [hqp, hrp]
          · rw [hn] at hr'
            exact absurd (hf.old r _ hr') (Nat.lt_irrefl _)
        · rcases hcases r n hr with ⟨-, hn⟩ | ⟨-, hr'⟩
          · rw [hn] at hq'
            exact absurd (hf.old q _ hq') (Nat.lt_irrefl _)
          · exact hf.single q r n hq' hr'

/-- The file that is opened is empty, and has the name. -/
theorem openWrite_dir (f : Files ν β) (p : ν) :
    (f.openWrite p).2.dir p = some (f.openWrite p).1 ∧ (f.openWrite p).2.data (f.openWrite p).1 = [] := by
  unfold openWrite
  cases hdir : f.dir p with
  | some n => exact ⟨hdir, Function.update_self _ _ _⟩
  | none => exact ⟨Function.update_self _ _ _, Function.update_self _ _ _⟩

theorem openWrite_same (hf : f.Sound) (hne : q ≠ p) : SameAt f (f.openWrite p).2 q := by
  unfold openWrite
  cases hdir : f.dir p with
  | some n =>
      refine ⟨rfl, fun m hm => Function.update_of_ne ?_ _ _⟩
      rintro rfl
      exact hne (hf.single q p m hm hdir)
  | none =>
      refine ⟨Function.update_of_ne hne _ _, fun m hm => Function.update_of_ne ?_ _ _⟩
      rintro rfl
      exact Nat.lt_irrefl _ (hf.old q _ hm)

theorem unlink_sound (hf : f.Sound) (p : ν) : (f.unlink p).Sound := by
  have hlinked : ∀ q n, (f.unlink p).dir q = some n → f.dir q = some n := by
    intro q n hq
    unfold unlink at hq
    dsimp only at hq
    by_cases heq : q = p
    · rw [heq, Function.update_self] at hq
      cases hq
    · rw [Function.update_of_ne heq] at hq
      exact hq
  exact ⟨fun q n hq => hf.old q n (hlinked q n hq), fun q r n hq hr => hf.single q r n (hlinked q n hq) (hlinked r n hr)⟩

theorem unlink_same (f : Files ν β) (hne : q ≠ p) : SameAt f (f.unlink p) q :=
  ⟨Function.update_of_ne hne _ _, fun _ _ => rfl⟩

theorem unlink_dir (f : Files ν β) (p : ν) : (f.unlink p).dir p = none := Function.update_self _ _ _

end

section

variable [Inhabited β]

/-- What is written at the end is appended. -/
theorem overwrite_length (l l' : List β) : overwrite l l.length l' = l ++ l' := by
  unfold overwrite
  rw [List.take_length, Nat.sub_self, List.drop_eq_nil_of_le (Nat.le_add_right _ _), List.append_nil, List.replicate_zero,
    List.append_nil]

theorem writeAt_sound (hf : f.Sound) (n offset : Nat) (l : List β) : (f.writeAt n offset l).Sound :=
  ⟨hf.old, hf.single⟩

theorem writeAt_same (hf : f.Sound) (hdir : f.dir p = some n) (offset : Nat) (l : List β) (hne : q ≠ p) :
    SameAt f (f.writeAt n offset l) q := by
  refine ⟨rfl, fun m hm => Function.update_of_ne ?_ _ _⟩
  rintro rfl
  exact hne (hf.single q p m hm hdir)

theorem writeAt_data (hlen : (f.data n).length = offset) (l : List β) :
    (f.writeAt n offset l).data n = f.data n ++ l := by
  rw [← hlen, ← overwrite_length]
  exact Function.update_self _ _ _

end

end Files

end NullG.Lib
