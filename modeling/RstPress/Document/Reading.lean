import RstPress.Document.Problem

/-!
Readers report problems one after the other and then give a value. They do not know what comes of a
report: the reading is carried on to its end in spite of the problems, or stopped at the first one. A
`Reading` keeps them all in their order, so it tells what either way of reading would give.
-/

namespace RstPress.Document

/-- A way of reading in which problems can be reported. -/
class Reports (m : Type → Type) where
  note : Problem → m Unit

export Reports (note)

/-- Reports several problems, one after the other. -/
def notes {m : Type → Type} [Monad m] [Reports m] : List Problem → m Unit
  | [] => pure ()
  | problem :: others => do
    note problem
    notes others

/-- Strict reading ends at the first problem. -/
instance : Reports (Except Problem) := ⟨.error⟩

inductive Reading (α : Type) where
  | done (value : α)
  | report (problem : Problem) (next : Reading α)

namespace Reading
variable {α β : Type}

def bind : Reading α → (α → Reading β) → Reading β
  | done value, next => next value
  | report problem rest, next => report problem (rest.bind next)

instance : Monad Reading where
  pure := done
  bind := bind

/-- Lenient reading goes on. -/
instance : Reports Reading := ⟨fun problem => report problem (done ())⟩

/-- The value in spite of all problems. -/
def value : Reading α → α
  | done value => value
  | report _ next => next.value

/-- All problems in the order in which they are met. -/
def problems : Reading α → List Problem
  | done _ => []
  | report problem next => problem :: next.problems

/-- What is left of the reading if it ends at its first problem. -/
def strict : Reading α → Except Problem α
  | done value => .ok value
  | report problem _ => .error problem

@[simp] theorem value_pure (a : α) : (pure a : Reading α).value = a := rfl

@[simp] theorem problems_pure (a : α) : (pure a : Reading α).problems = [] := rfl

@[simp] theorem value_bind (reading : Reading α) (next : α → Reading β) :
    (reading >>= next).value = (next reading.value).value := by
  induction reading with
  | done a => rfl
  | report problem rest ih => exact ih

@[simp] theorem problems_bind (reading : Reading α) (next : α → Reading β) :
    (reading >>= next).problems = reading.problems ++ (next reading.value).problems := by
  induction reading with
  | done a => rfl
  | report problem rest ih => exact congrArg (problem :: ·) ih

@[simp] theorem value_note (problem : Problem) : (note problem : Reading Unit).value = () := rfl

@[simp] theorem problems_note (problem : Problem) : (note problem : Reading Unit).problems = [problem] := rfl

theorem bind_assoc {γ : Type} (reading : Reading α) (next : α → Reading β) (last : β → Reading γ) :
    (reading.bind next).bind last = reading.bind fun a => (next a).bind last := by
  induction reading with
  | done a => rfl
  | report problem rest ih => exact congrArg (report problem) ih

theorem bind_done (reading : Reading α) : reading.bind done = reading := by
  induction reading with
  | done a => rfl
  | report problem rest ih => exact congrArg (report problem) ih

instance : LawfulMonad Reading :=
  LawfulMonad.mk' Reading (fun reading => reading.bind_done) (fun _ _ => rfl) bind_assoc

@[simp] theorem value_notes (found : List Problem) : (notes found : Reading Unit).value = () := rfl

@[simp] theorem problems_notes (found : List Problem) : (notes found : Reading Unit).problems = found := by
  induction found with
  | nil => rfl
  | cons problem found ih => exact congrArg (problem :: ·) ih

/-- Stopping at the first problem agrees with carrying on: without a problem the value is the same. -/
theorem strict_eq (reading : Reading α) :
    reading.strict =
      match reading.problems with
      | [] => .ok reading.value
      | problem :: _ => .error problem := by
  cases reading <;> rfl

/-- A reading is known by its problems and its value. -/
theorem ext {a b : Reading α} (problems : a.problems = b.problems) (value : a.value = b.value) : a = b := by
  induction a generalizing b with
  | done x =>
    cases b with
    | done y => exact congrArg done value
    | report problem rest => simp [Reading.problems] at problems
  | report problem rest ih =>
    cases b with
    | done y => simp [Reading.problems] at problems
    | report other last =>
      simp only [Reading.problems, List.cons.injEq] at problems
      rw [problems.1, ih problems.2 value]

end Reading

end RstPress.Document
