import Unnest.Datum.Display

namespace Unnest

inductive Level where
  | debug
  | info
  | warning
  | error
  deriving DecidableEq, Repr

namespace Level

def all : List Level :=
  [debug, info, warning, error]

def name : Level → Text
  | debug => "DEBUG"
  | info => "INFO"
  | warning => "WARNING"
  | error => "ERROR"

def rank : Level → Nat
  | debug => 0
  | info => 1
  | warning => 2
  | error => 3

end Level

-- Who writes a record.
inductive Channel where
  | structural
  | extraction
  | paths
  | parser
  | pipeline
  | profiler
  | errorHandler
  | table
  deriving DecidableEq, Repr

def Channel.name : Channel → Text
  | structural => "json_tidy.verbs.structural"
  | extraction => "json_tidy.verbs.extraction"
  | paths => "json_tidy.paths"
  | parser => "json_tidy.parser"
  | pipeline => "json_tidy.pipeline"
  | profiler => "json_tidy.profiler"
  | errorHandler => "json_tidy.error_handler"
  | table => "json_tidy.table"

structure Record where
  level : Level
  channel : Channel
  message : Text
  deriving DecidableEq, Repr

abbrev Journal := List Record

-- A computation that keeps a journal and may fail. What was noted before a failure stays noted.
structure Traced (α : Type) where
  journal : Journal
  result : Except Failure α

namespace Traced

protected def pure (a : α) : Traced α := ⟨[], .ok a⟩

protected def bind (x : Traced α) (f : α → Traced β) : Traced β :=
  match x.result with
  | .error e => ⟨x.journal, .error e⟩
  | .ok a => ⟨x.journal ++ (f a).journal, (f a).result⟩

instance : Monad Traced where
  pure := Traced.pure
  bind := Traced.bind

def fail (e : Failure) : Traced α := ⟨[], .error e⟩

def ofExcept (x : Except Failure α) : Traced α := ⟨[], x⟩

instance : MonadLift (Except Failure) Traced := ⟨ofExcept⟩

instance : MonadExceptOf Failure Traced where
  throw := fail
  tryCatch x handler :=
    match x.result with
    | .ok _ => x
    | .error e => ⟨x.journal ++ (handler e).journal, (handler e).result⟩

def note (level : Level) (channel : Channel) (message : Text) : Traced Unit :=
  ⟨[⟨level, channel, message⟩], .ok ()⟩

-- The outcome as a value, so that what follows runs after a failure too.
def attempt (x : Traced α) : Traced (Except Failure α) := ⟨x.journal, .ok x.result⟩

@[simp] theorem result_pure (a : α) : (pure a : Traced α).result = .ok a := rfl

@[simp] theorem journal_pure (a : α) : (pure a : Traced α).journal = [] := rfl

@[simp] theorem result_bind (x : Traced α) (f : α → Traced β) :
    (x >>= f).result = x.result >>= fun a => (f a).result := by
  show (Traced.bind x f).result = _
  unfold Traced.bind
  cases x.result <;> rfl

@[simp] theorem result_fail (e : Failure) : (fail e : Traced α).result = .error e := rfl

@[simp] theorem result_throw (e : Failure) : (throw e : Traced α).result = .error e := rfl

@[simp] theorem result_liftM (x : Except Failure α) : (liftM x : Traced α).result = x := rfl

@[simp] theorem journal_liftM (x : Except Failure α) : (liftM x : Traced α).journal = [] := rfl

@[simp] theorem result_note (level : Level) (channel : Channel) (message : Text) :
    (note level channel message).result = .ok () := rfl

@[simp] theorem result_attempt (x : Traced α) : x.attempt.result = .ok x.result := rfl

@[simp] theorem journal_attempt (x : Traced α) : x.attempt.journal = x.journal := rfl

end Traced

end Unnest
