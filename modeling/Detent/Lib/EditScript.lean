import Mathlib.Order.Lattice.Nat
import Mathlib.Tactic.Common

/-!
# Edit scripts between two lists

A script is a path through the grid of two lists: it keeps an item they share,
drops one of the old list or takes one of the new list. `Path` says which steps
lead from one point of the grid to another; a `Script` leads from the first
corner to the last.
-/
namespace Detent.Lib

/-- One step of an edit script, as indices into the two lists. -/
inductive Step where
  | equal (old new : Nat)
  | delete (old : Nat)
  | insert (new : Nat)
  deriving DecidableEq, Repr

/-- The point after a step from a point. -/
def Step.move : Step → Nat × Nat → Nat × Nat
  | .equal _ _, (old, new) => (old + 1, new + 1)
  | .delete _, (old, new) => (old + 1, new)
  | .insert _, (old, new) => (old, new + 1)

/-- The point after `steps` from `start`. -/
def stop (steps : List Step) (start : Nat × Nat) : Nat × Nat :=
  steps.foldl (fun point step => step.move point) start

def Step.isEdit : Step → Bool
  | .equal _ _ => false
  | .delete _ => true
  | .insert _ => true

/-- How many steps drop or take an item. -/
def edits (steps : List Step) : Nat := steps.countP Step.isEdit

@[simp] theorem edits_nil : edits [] = 0 := rfl

@[simp] theorem edits_append (first steps : List Step) :
    edits (first ++ steps) = edits first + edits steps := List.countP_append

@[simp] theorem edits_cons (step : Step) (steps : List Step) :
    edits (step :: steps) = edits steps + if step.isEdit then 1 else 0 := List.countP_cons

/-- The old item a step consumes. -/
def Step.old? : Step → Option Nat
  | .equal old _ => some old
  | .delete old => some old
  | .insert _ => none

/-- The new item a step produces. -/
def Step.new? : Step → Option Nat
  | .equal _ new => some new
  | .delete _ => none
  | .insert new => some new

/-- Steps along `n` shared items from a point. -/
def equals : Nat → Nat → Nat → List Step
  | _, _, 0 => []
  | i, j, n + 1 => .equal i j :: equals (i + 1) (j + 1) n

theorem edits_equals (i j n : Nat) : edits (equals i j n) = 0 := by
  induction n generalizing i j with
  | zero => rfl
  | succ n ih => rw [equals, edits_cons, ih]; rfl

theorem mem_equals {i j n a b : Nat} :
    .equal a b ∈ equals i j n ↔ ∃ m, m < n ∧ a = i + m ∧ b = j + m := by
  induction n generalizing i j with
  | zero => simp [equals]
  | succ n ih =>
    rw [equals, List.mem_cons, ih, Step.equal.injEq]
    constructor
    · rintro (⟨rfl, rfl⟩ | ⟨m, hm, rfl, rfl⟩)
      · exact ⟨0, by omega, rfl, rfl⟩
      · exact ⟨m + 1, by omega, by omega, by omega⟩
    · rintro ⟨m, hm, rfl, rfl⟩
      cases m with
      | zero => exact .inl ⟨rfl, rfl⟩
      | succ m => exact .inr ⟨m, by omega, by omega, by omega⟩

variable {T : Type}

/-- How many items two lists share at their heads. -/
def commonPrefix [DecidableEq T] : List T → List T → Nat
  | a :: as, b :: bs => if a = b then commonPrefix as bs + 1 else 0
  | _, _ => 0

/-- `Path old new i j steps k l`: the steps lead from the point `(i, j)` to `(k, l)`. -/
inductive Path (old new : List T) : Nat → Nat → List Step → Nat → Nat → Prop
  | nil (i j : Nat) : Path old new i j [] i j
  | equal {i j k l : Nat} {steps : List Step} (t : T) (hold : old[i]? = some t)
      (hnew : new[j]? = some t) (rest : Path old new (i + 1) (j + 1) steps k l) :
      Path old new i j (.equal i j :: steps) k l
  | delete {i j k l : Nat} {steps : List Step} (hold : i < old.length)
      (rest : Path old new (i + 1) j steps k l) : Path old new i j (.delete i :: steps) k l
  | insert {i j k l : Nat} {steps : List Step} (hnew : j < new.length)
      (rest : Path old new i (j + 1) steps k l) : Path old new i j (.insert j :: steps) k l

/-- The steps turn all of `old` into all of `new`. -/
def Script (old new : List T) (steps : List Step) : Prop :=
  Path old new 0 0 steps old.length new.length

/-- The insert/delete edit distance: the fewest edits of a script. -/
noncomputable def editDistance (old new : List T) : Nat :=
  sInf {n | ∃ steps, Script old new steps ∧ edits steps = n}

section Path

variable {old new : List T} {i j k l : Nat} {steps : List Step} (h : Path old new i j steps k l)
include h

theorem Path.append {m n : Nat} {more : List Step} (h' : Path old new k l more m n) :
    Path old new i j (steps ++ more) m n := by
  induction h with
  | nil => exact h'
  | equal t hold hnew _ ih => exact .equal t hold hnew (ih h')
  | delete hold _ ih => exact .delete hold (ih h')
  | insert hnew _ ih => exact .insert hnew (ih h')

omit h in
theorem Path.split {first : List Step} (h : Path old new i j (first ++ steps) k l) :
    ∃ m n, Path old new i j first m n ∧ Path old new m n steps k l := by
  induction first generalizing i j with
  | nil => exact ⟨i, j, .nil i j, h⟩
  | cons step first ih =>
    cases h with
    | equal t hold hnew rest =>
      obtain ⟨m, n, hfirst, hrest⟩ := ih rest
      exact ⟨m, n, .equal t hold hnew hfirst, hrest⟩
    | delete hold rest =>
      obtain ⟨m, n, hfirst, hrest⟩ := ih rest
      exact ⟨m, n, .delete hold hfirst, hrest⟩
    | insert hnew rest =>
      obtain ⟨m, n, hfirst, hrest⟩ := ih rest
      exact ⟨m, n, .insert hnew hfirst, hrest⟩

/-- The steps alone decide where a path ends. -/
theorem Path.stop_eq : stop steps (i, j) = (k, l) := by
  induction h with
  | nil => rfl
  | equal _ _ _ _ ih | delete _ _ ih | insert _ _ ih => exact ih

theorem Path.le : i ≤ k ∧ j ≤ l := by
  induction h with
  | nil => exact ⟨Nat.le_refl _, Nat.le_refl _⟩
  | equal | delete | insert => omega

theorem Path.shared {a b : Nat} (hmem : .equal a b ∈ steps) :
    ∃ t, old[a]? = some t ∧ new[b]? = some t := by
  induction h with
  | nil => cases hmem
  | equal t hold hnew _ ih =>
    rcases List.mem_cons.mp hmem with heq | hmem
    · obtain ⟨rfl, rfl⟩ := Step.equal.inj heq
      exact ⟨t, hold, hnew⟩
    · exact ih hmem
  | delete _ _ ih | insert _ _ ih => exact ih (by simpa using hmem)

omit h in
theorem range'_step {i k : Nat} (h : i + 1 ≤ k) :
    i :: List.range' (i + 1) (k - (i + 1)) = List.range' i (k - i) := by
  rw [← List.range'_succ, show k - (i + 1) + 1 = k - i by omega]

/-- A path consumes the old items between its ends, in order. -/
theorem Path.old_indices : steps.filterMap Step.old? = List.range' i (k - i) := by
  induction h with
  | nil => simp
  | equal _ _ _ rest ih | delete _ rest ih =>
    simp only [List.filterMap_cons, Step.old?, ih]
    exact range'_step rest.le.1
  | insert _ _ ih => simpa only [List.filterMap_cons, Step.old?] using ih

/-- A path produces the new items between its ends, in order. -/
theorem Path.new_indices : steps.filterMap Step.new? = List.range' j (l - j) := by
  induction h with
  | nil => simp
  | equal _ _ _ rest ih | insert _ rest ih =>
    simp only [List.filterMap_cons, Step.new?, ih]
    exact range'_step rest.le.2
  | delete _ _ ih => simpa only [List.filterMap_cons, Step.new?] using ih

/-- Every edit moves one step sideways. -/
theorem Path.drift :
    k + j ≤ l + i + edits steps ∧ l + i ≤ k + j + edits steps ∧
      (k + j + (l + i) + edits steps) % 2 = 0 := by
  induction h with
  | nil => simp; omega
  | equal | delete | insert => simp only [edits_cons, Step.isEdit] at *; simp at *; omega

omit h in
/-- A script has at least as many edits as the distance. -/
theorem Script.editDistance_le (h : Script old new steps) : editDistance old new ≤ edits steps :=
  Nat.sInf_le ⟨steps, h, rfl⟩

omit h in
/-- Where there is a script, one has as many edits as the distance. -/
theorem Script.exists_shortest (h : Script old new steps) :
    ∃ shortest, Script old new shortest ∧ edits shortest = editDistance old new :=
  Nat.sInf_mem (s := {n | ∃ steps, Script old new steps ∧ edits steps = n}) ⟨_, steps, h, rfl⟩

/-- A path without edits runs along shared items only. -/
theorem Path.of_edits_zero (hedits : edits steps = 0) :
    ∃ n, k = i + n ∧ l = j + n ∧ steps = equals i j n := by
  induction h with
  | nil i j => exact ⟨0, rfl, rfl, rfl⟩
  | equal t _ _ _ ih =>
    obtain ⟨n, rfl, rfl, rfl⟩ := ih (by simpa [Step.isEdit] using hedits)
    exact ⟨n + 1, by omega, by omega, rfl⟩
  | delete | insert => simp [Step.isEdit] at hedits

/-- A path with one edit that takes more new items than it drops old ones takes a
single item between two runs along shared ones. -/
theorem Path.of_edits_one (hedits : edits steps = 1) (hmore : k + j < l + i) :
    ∃ n m, k = i + n + m ∧ l = j + n + 1 + m ∧
      steps = equals i j n ++ .insert (j + n) :: equals (i + n) (j + n + 1) m := by
  induction h with
  | nil i j => simp at hedits
  | @equal i j k l steps t _ _ _ ih =>
    obtain ⟨n, m, hk, hl, hsteps⟩ := ih (by simpa [Step.isEdit] using hedits) (by omega)
    refine ⟨n + 1, m, by omega, by omega, ?_⟩
    rw [hsteps, equals, List.cons_append, show i + (n + 1) = i + 1 + n by omega,
      show j + (n + 1) = j + 1 + n by omega]
  | delete _ rest _ =>
    obtain ⟨n, hk, hl, _⟩ := rest.of_edits_zero (by simpa [Step.isEdit] using hedits)
    omega
  | insert _ rest _ =>
    obtain ⟨m, hk, hl, rfl⟩ := rest.of_edits_zero (by simpa [Step.isEdit] using hedits)
    exact ⟨0, m, by omega, by omega, rfl⟩

omit h

end Path

section CommonPrefix

variable [DecidableEq T] {old new : List T}

theorem commonPrefix_le (as bs : List T) :
    commonPrefix as bs ≤ as.length ∧ commonPrefix as bs ≤ bs.length := by
  induction as generalizing bs with
  | nil => simp [commonPrefix]
  | cons a as ih =>
    cases bs with
    | nil => simp [commonPrefix]
    | cons b bs =>
      have := ih bs
      by_cases hab : a = b
      · simp [commonPrefix, hab, this]
      · simp [commonPrefix, hab]

/-- Each index below the common prefix holds the same item on both sides. -/
theorem getElem?_of_lt_commonPrefix (as bs : List T) (n : Nat) (h : n < commonPrefix as bs) :
    ∃ t, as[n]? = some t ∧ bs[n]? = some t := by
  induction as generalizing bs n with
  | nil => simp [commonPrefix] at h
  | cons a as ih =>
    cases bs with
    | nil => simp [commonPrefix] at h
    | cons b bs =>
      by_cases hab : a = b
      · cases n with
        | zero => exact ⟨a, by simp [hab]⟩
        | succ n =>
          have := ih bs n (by simp [commonPrefix, hab] at h; omega)
          simpa using this
      · simp [commonPrefix, hab] at h

/-- The items right behind the common prefix differ. -/
theorem not_shared_commonPrefix (as bs : List T) {t : T} (ha : as[commonPrefix as bs]? = some t)
    (hb : bs[commonPrefix as bs]? = some t) : False := by
  induction as generalizing bs with
  | nil => simp at ha
  | cons a as ih =>
    cases bs with
    | nil => simp at hb
    | cons b bs =>
      by_cases hab : a = b
      · simp only [commonPrefix, hab, if_true, List.getElem?_cons_succ] at ha hb
        exact ih bs ha hb
      · simp only [commonPrefix, hab, if_false, List.getElem?_cons_zero, Option.some.injEq] at ha hb
        exact hab (ha.trans hb.symm)

/-- Lists that begin alike share that beginning. -/
theorem commonPrefix_append (as bs cs : List T) :
    commonPrefix (as ++ bs) (as ++ cs) = as.length + commonPrefix bs cs := by
  induction as with
  | nil => simp
  | cons a as ih =>
    simp [commonPrefix, ih]
    omega

theorem commonPrefix_self (as : List T) : commonPrefix as as = as.length := by
  have h := commonPrefix_append as [] []
  simpa [commonPrefix] using h

end CommonPrefix

end Detent.Lib
