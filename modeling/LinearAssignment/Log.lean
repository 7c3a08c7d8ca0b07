/-
Diagnostic records. Operations that report on themselves return their records with their value, in
the order in which they arose; a failure keeps the records that came before it.
-/

namespace LinearAssignment

namespace Log

/-- The severity of a record, from the most severe on. -/
inductive Level where
  | warn
  | debug
  | trace
deriving DecidableEq, Repr

/-- The place of a level in the order of severity. -/
def Level.rank : Level → Nat
  | warn => 0
  | debug => 1
  | trace => 2

structure Record where
  level : Level
  text : String
deriving DecidableEq, Repr

/-- The records of the given level and of more severe ones. -/
def upTo (level : Level) (records : List Record) : List Record :=
  records.filter fun r => r.level.rank ≤ level.rank

end Log

/-- A value and the records that arose on the way to it. -/
structure Logged (α : Type) where
  value : α
  records : List Log.Record

namespace Logged

instance : Monad Logged where
  pure a := ⟨a, []⟩
  bind x f := ⟨(f x.value).value, x.records ++ (f x.value).records⟩

/-- Reports records. -/
def report (records : List Log.Record) : Logged Unit := ⟨(), records⟩

/-! ## Runs of operations that can fail -/

variable {ε α β : Type}

theorem run_bind (x : ExceptT ε Logged α) (f : α → ExceptT ε Logged β) :
    (x >>= f).run = match x.run.value with
      | .ok a => ⟨(f a).run.value, x.run.records ++ (f a).run.records⟩
      | .error e => ⟨.error e, x.run.records⟩ := by
  rw [ExceptT.run_bind]
  rcases x.run with ⟨e | a, r⟩
  · show Logged.mk (Except.error e) (r ++ []) = _
    rw [List.append_nil]
  · rfl

theorem run_liftM (x : Logged α) :
    (liftM x : ExceptT ε Logged α).run = ⟨.ok x.value, x.records⟩ := by
  show Logged.mk (Except.ok x.value) (x.records ++ []) = _
  rw [List.append_nil]

theorem run_report (r : List Log.Record) :
    (liftM (report r) : ExceptT ε Logged Unit).run = ⟨.ok (), r⟩ :=
  run_liftM (report r)

theorem run_liftExcept (x : Except ε α) : (liftExcept x : ExceptT ε Logged α).run = ⟨x, []⟩ := by
  cases x <;> rfl

theorem run_adapt {ε' : Type} (f : ε → ε') (x : ExceptT ε Logged α) :
    (ExceptT.adapt f x).run = ⟨x.run.value.mapError f, x.run.records⟩ := by
  show Logged.mk _ (x.run.records ++ []) = _
  rw [List.append_nil]
  rfl

end Logged

end LinearAssignment
