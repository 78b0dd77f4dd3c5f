import DoublingHeap.HeapError

/-! # Logging

Reading a heap reports what it does as `Event`s, each with a severity. A `Logged` action is run at a
threshold `Level`; it gives the events that are severe enough, in the order in which they happened,
and a result. `emit` is the only action that looks at the threshold, so the threshold decides which
events are kept and nothing else. `result_bind` and `events_bind` say how actions compose. -/

namespace DoublingHeap

/-- Severities, from the least severe on. -/
inductive Level where
  | trace
  | debug
  | info
  | warn
  | error
deriving DecidableEq, Repr, Inhabited

namespace Level

/-- Severities as numbers: the more severe, the greater. -/
def rank : Level → Nat
  | trace => 0
  | debug => 1
  | info => 2
  | warn => 3
  | error => 4

/-- Whether events of severity `level` are kept at a threshold. -/
def admits (threshold level : Level) : Bool := threshold.rank ≤ level.rank

/-- The levels from the least severe on. -/
def all : List Level := [trace, debug, info, warn, error]

/-- The name of a level. -/
def name : Level → String
  | trace => "trace"
  | debug => "debug"
  | info => "info"
  | warn => "warn"
  | error => "error"

/-- The level of a name. -/
def ofName? (s : String) : Option Level := all.find? (·.name == s)

/-- The name of a level as it stands in front of a log line. -/
def label (level : Level) : String := level.name.toUpper

theorem ofName?_name (level : Level) : ofName? level.name = some level := by cases level <;> rfl

end Level

/-- What happens while a heap is read. -/
inductive Event where
  | headerRead (address idLength tableWidth startingSize maxDirectSize : Nat)
  | directBlockRead (address offset size : Nat)
  | indirectBlockRead (address offset rows children : Nat)
  | heapLoaded (address blocks : Nat)
  | lookup (offset length : Nat)
deriving DecidableEq, Repr

namespace Event

/-- The severity of an event. -/
def level : Event → Level
  | headerRead .. | directBlockRead .. => .trace
  | indirectBlockRead .. | heapLoaded .. | lookup .. => .debug

/-- The text of an event. -/
def message : Event → String
  | headerRead address idLength tableWidth startingSize maxDirectSize =>
    s!"heap header at {address}: id_length={idLength} table_width={tableWidth} " ++
      s!"start={startingSize} max_direct={maxDirectSize}"
  | directBlockRead address offset size =>
    s!"direct block at {address}: offset={offset} size={size}"
  | indirectBlockRead address offset rows children =>
    s!"Indirect block at {address}: offset={offset} rows={rows} children={children}"
  | heapLoaded address blocks =>
    s!"Read fractal heap at address {address}, loaded {blocks} direct blocks"
  | lookup offset length => s!"Getting ID at offset={offset} length={length}"

/-- The log line of an event. -/
def line (event : Event) : String := s!"{event.level.label} {event.message}"

end Event

/-- An action that may fail and that logs events at a threshold. -/
def Logged (α : Type) : Type := Level → List Event × Except HeapError α

namespace Logged

variable {α β : Type}

/-- The events that an action logs at a threshold, in order. -/
def events (x : Logged α) (threshold : Level) : List Event := (x threshold).1

/-- The result of an action at a threshold. -/
def result (x : Logged α) (threshold : Level) : Except HeapError α := (x threshold).2

/-- The action that logs nothing and has the given result. -/
def ofExcept (r : Except HeapError α) : Logged α := fun _ => ([], r)

/-- One action after the other; the second is not run if the first fails. -/
def andThen (x : Logged α) (f : α → Logged β) : Logged β := fun threshold =>
  match x threshold with
  | (events, .ok a) =>
    let (more, r) := f a threshold
    (events ++ more, r)
  | (events, .error e) => (events, .error e)

instance : Monad Logged where
  pure a := ofExcept (.ok a)
  bind := andThen

instance : MonadLift (Except HeapError) Logged := ⟨ofExcept⟩

/-- The action that fails. -/
def fail (e : HeapError) : Logged α := ofExcept (.error e)

/-- Logs an event, if the threshold admits it. -/
def emit (event : Event) : Logged Unit := fun threshold =>
  (if threshold.admits event.level then [event] else [], .ok ())

/-- The action with its error changed. -/
def mapError (f : HeapError → HeapError) (x : Logged α) : Logged α := fun threshold =>
  let (events, r) := x threshold
  (events, r.mapError f)

private theorem andThen_pure (x : Logged α) : andThen x (fun a => ofExcept (.ok a)) = x := by
  funext t
  unfold andThen
  split <;> rename_i h <;> simp [h, ofExcept]

private theorem ofExcept_andThen (a : α) (f : α → Logged β) :
    andThen (ofExcept (.ok a)) f = f a := by
  funext t
  simp [andThen, ofExcept]

private theorem andThen_assoc {γ : Type} (x : Logged α) (f : α → Logged β) (g : β → Logged γ) :
    andThen (andThen x f) g = andThen x (fun a => andThen (f a) g) := by
  funext t
  unfold andThen
  rcases hx : x t with ⟨events, e | a⟩
  · rfl
  · rcases hf : f a t with ⟨more, e | b⟩ <;> simp only [hf, List.append_assoc]

/-- Nothing before or after an action changes it, and grouping does not matter. -/
instance : LawfulMonad Logged :=
  LawfulMonad.mk' Logged andThen_pure ofExcept_andThen andThen_assoc

/-! ### Results and events of composed actions -/

theorem result_pure (a : α) (t : Level) : (pure a : Logged α).result t = .ok a := rfl

theorem result_emit (event : Event) (t : Level) : (emit event).result t = .ok () := rfl

theorem result_mapError (f : HeapError → HeapError) (x : Logged α) (t : Level) :
    (mapError f x).result t = (x.result t).mapError f := rfl

theorem result_bind (x : Logged α) (f : α → Logged β) (t : Level) :
    (x >>= f).result t = (x.result t).bind fun a => (f a).result t := by
  show (andThen x f t).2 = _
  unfold andThen result
  split <;> rename_i h <;> rw [h] <;> rfl

theorem events_bind (x : Logged α) (f : α → Logged β) (t : Level) :
    (x >>= f).events t = x.events t ++ (match x.result t with
      | .ok a => (f a).events t
      | .error _ => []) := by
  show (andThen x f t).1 = _
  unfold andThen result events
  split <;> rename_i h <;> rw [h]
  simp

/-- An action after another succeeds when the first succeeds and then the second does. -/
theorem result_bind_eq_ok {x : Logged α} {f : α → Logged β} {t : Level} {b : β} :
    (x >>= f).result t = .ok b ↔ ∃ a, x.result t = .ok a ∧ (f a).result t = .ok b := by
  rw [result_bind]
  cases x.result t <;> simp [Except.bind]

end Logged

end DoublingHeap
