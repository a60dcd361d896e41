import Formulary.Fault
import Formulary.Log

set_option autoImplicit false

namespace Formulary

/-- A computation that may fail and that keeps a log. The log holds what was recorded up to the end
or up to the fault, so a failed computation still shows how far it came. -/
structure Traced (α : Type) where
  log : List LogRecord
  result : Except Fault α

namespace Traced

def ofExcept {α : Type} (result : Except Fault α) : Traced α := ⟨[], result⟩

def fail {α : Type} (fault : Fault) : Traced α := ⟨[], .error fault⟩

/-- Adds one record to the log. -/
def note (record : LogRecord) : Traced Unit := ⟨[record], .ok ()⟩

instance : Monad Traced where
  pure value := ⟨[], .ok value⟩
  bind first next :=
    match first.result with
    | .ok value => ⟨first.log ++ (next value).log, (next value).result⟩
    | .error fault => ⟨first.log, .error fault⟩

instance : MonadLift (Except Fault) Traced := ⟨ofExcept⟩

@[simp] theorem result_pure {α : Type} (value : α) :
    (pure value : Traced α).result = .ok value := rfl

@[simp] theorem log_pure {α : Type} (value : α) : (pure value : Traced α).log = [] := rfl

@[simp] theorem result_fail {α : Type} (fault : Fault) :
    (fail fault : Traced α).result = .error fault := rfl

@[simp] theorem result_ofExcept {α : Type} (result : Except Fault α) :
    (ofExcept result).result = result := rfl

@[simp] theorem result_liftM {α : Type} (result : Except Fault α) :
    (liftM result : Traced α).result = result := rfl

@[simp] theorem result_note (record : LogRecord) : (note record).result = .ok () := rfl

/-- What a sequence gives depends on the results of its parts and not on their logs. -/
theorem result_bind {α β : Type} (first : Traced α) (next : α → Traced β) :
    (first >>= next).result = first.result >>= fun value => (next value).result := by
  obtain ⟨log, result⟩ := first
  cases result <;> rfl

/-- A sequence succeeds if its first part does and then the rest. -/
theorem result_bind_eq_ok {α β : Type} {first : Traced α} {next : α → Traced β} {value : β} :
    (first >>= next).result = .ok value ↔
      ∃ middle, first.result = .ok middle ∧ (next middle).result = .ok value := by
  rw [result_bind]
  cases first.result <;> simp [bind, Except.bind]

/-- A sequence fails if its first part does, or else if the rest does. -/
theorem result_bind_eq_error {α β : Type} {first : Traced α} {next : α → Traced β} {fault : Fault} :
    (first >>= next).result = .error fault ↔
      first.result = .error fault ∨
        ∃ middle, first.result = .ok middle ∧ (next middle).result = .error fault := by
  rw [result_bind]
  cases first.result <;> simp [bind, Except.bind]

end Traced

end Formulary
