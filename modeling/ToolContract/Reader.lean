/-!
# Readers

A reader takes a value from the front of a list of tokens, bytes or characters, and yields what
follows it. A reader that takes at least one token can be repeated until nothing is left.
-/

set_option autoImplicit false

namespace ToolContract

/-- Takes a value from the front of a list of tokens of type `σ`, or fails by a cause of type `ε`. -/
def Reader (σ ε α : Type) : Type :=
  List σ → Except ε (α × List σ)

namespace Reader

variable {σ ε α β : Type}

instance : Monad (Reader σ ε) where
  pure value := fun tokens => .ok (value, tokens)
  bind first next := fun tokens =>
    match first tokens with
    | .ok (value, rest) => next value rest
    | .error cause => .error cause

def fail (cause : ε) : Reader σ ε α :=
  fun _ => .error cause

def ofExcept (result : Except ε α) : Reader σ ε α :=
  fun tokens =>
    match result with
    | .ok value => .ok (value, tokens)
    | .error cause => .error cause

/-- A reader that leaves no more tokens than it was given. -/
def Keeps (reader : Reader σ ε α) : Prop :=
  ∀ ⦃tokens value rest⦄, reader tokens = .ok (value, rest) → rest.length ≤ tokens.length

def Consumes (reader : Reader σ ε α) : Prop :=
  ∀ ⦃tokens value rest⦄, reader tokens = .ok (value, rest) → rest.length < tokens.length

theorem Consumes.keeps {reader : Reader σ ε α} (consumes : Consumes reader) :
    Keeps reader :=
  fun _ _ _ read => Nat.le_of_lt (consumes read)

theorem keeps_pure (value : α) : Keeps (pure value : Reader σ ε α) := by
  intro tokens _ rest read
  cases read
  exact Nat.le_refl _

theorem consumes_fail (cause : ε) : Consumes (fail cause : Reader σ ε α) := by
  intro _ _ _ read
  cases read

theorem keeps_ofExcept (result : Except ε α) :
    Keeps (ofExcept result : Reader σ ε α) := by
  intro tokens _ rest read
  cases result with
  | ok value =>
    cases read
    exact Nat.le_refl _
  | error cause => cases read

theorem bind_eq_ok {first : Reader σ ε α} {next : α → Reader σ ε β} {tokens rest : List σ}
    {value : β} (read : (first >>= next) tokens = .ok (value, rest)) :
    ∃ middle between, first tokens = .ok (middle, between) ∧
      next middle between = .ok (value, rest) := by
  simp only [bind] at read
  split at read
  · rename_i middle between found
    exact ⟨middle, between, found, read⟩
  · cases read

theorem Consumes.bind {first : Reader σ ε α} {next : α → Reader σ ε β}
    (consumes : Consumes first) (keeps : ∀ value, Keeps (next value)) :
    Consumes (first >>= next) := by
  intro tokens value rest read
  obtain ⟨middle, between, found, continued⟩ := bind_eq_ok read
  exact Nat.lt_of_le_of_lt (keeps middle continued) (consumes found)

theorem Keeps.bind {first : Reader σ ε α} {next : α → Reader σ ε β}
    (keeps : Keeps first) (keepsNext : ∀ value, Keeps (next value)) : Keeps (first >>= next) := by
  intro tokens value rest read
  obtain ⟨middle, between, found, continued⟩ := bind_eq_ok read
  exact Nat.le_trans (keepsNext middle continued) (keeps found)

/-- Repeats a reader after the values done, which stand in reverse order, until nothing is left. -/
def manyAfter (reader : Reader σ ε α) (consumes : Consumes reader) (done : List α)
    (tokens : List σ) : Except ε (List α) :=
  if tokens.isEmpty then .ok done.reverse
  else
    match _read : reader tokens with
    | .ok (value, rest) => manyAfter reader consumes (value :: done) rest
    | .error cause => .error cause
termination_by tokens.length
decreasing_by exact consumes _read

def many (reader : Reader σ ε α) (consumes : Consumes reader) (tokens : List σ) :
    Except ε (List α) :=
  manyAfter reader consumes [] tokens

end Reader

end ToolContract
