import DoublingHeap.Proofs.Visits
import DoublingHeap.Command.Run

/-! # The threshold of the log

Something that logs events and has a result is *filtered* (`Filtered`) if the threshold decides
which of its events are kept and decides nothing else. All actions on a heap are filtered: the
property is kept by composition (`Filtered.bind`), and a walk has it visit by visit
(`filtered_run`). So are the commands of the program (`filtered_perform`), whatever the level in the
settings. -/

namespace DoublingHeap.Proofs.Thresholds

open DoublingHeap.Walk

variable {α β γ : Type}

/-- The events that are severe enough for a threshold, in order. -/
def kept (t : Level) (events : List Event) : List Event :=
  events.filter fun event => t.admits event.level

theorem kept_append (t : Level) (xs ys : List Event) : kept t (xs ++ ys) = kept t xs ++ kept t ys :=
  List.filter_append ..

/-- **Filtered**: at every threshold there are the events of the whole trace that are severe enough,
and the same result. -/
def Filtered (p : Level → List Event × β) : Prop :=
  ∀ t, p t = (kept t (p .trace).1, (p .trace).2)

theorem Filtered.events {p : Level → List Event × β} (h : Filtered p) (t : Level) :
    (p t).1 = kept t (p .trace).1 := by
  rw [h t]

theorem Filtered.result {p : Level → List Event × β} (h : Filtered p) (t : Level) :
    (p t).2 = (p .trace).2 := by
  rw [h t]

theorem Filtered.map {p : Level → List Event × β} (h : Filtered p) (f : β → γ) :
    Filtered fun t => ((p t).1, f (p t).2) := by
  intro t
  simp only [h t]

theorem filtered_silent (r : β) : Filtered fun _ => (([] : List Event), r) := fun _ => rfl

/-! ### Actions on heaps -/

theorem filtered_ofExcept (r : Except HeapError α) : Filtered (Logged.ofExcept r) :=
  filtered_silent r

theorem admits_trace (level : Level) : Level.trace.admits level = true :=
  decide_eq_true (Nat.zero_le _)

theorem filtered_emit (event : Event) : Filtered (Logged.emit event) := by
  intro t
  unfold Logged.emit kept
  rw [if_pos (admits_trace _)]
  by_cases h : t.admits event.level = true
  · simp only [h, if_true, List.filter_cons, List.filter_nil]
  · simp only [h, List.filter_cons, List.filter_nil]

/-- **One action after the other** is filtered, if the first is, and the second after every result
that the first can have. -/
theorem Filtered.bind {x : Logged α} {f : α → Logged β} (hx : Filtered x)
    (hf : ∀ a, x.result .trace = .ok a → Filtered (f a)) : Filtered (x >>= f) := by
  intro t
  show Logged.andThen x f t
    = (kept t (Logged.andThen x f .trace).1, (Logged.andThen x f .trace).2)
  unfold Logged.andThen
  rw [hx t]
  rcases htrace : x .trace with ⟨events, e | a⟩
  · rfl
  · have hfa := hf a (congrArg Prod.snd htrace)
    simp only [hfa t, kept_append]

theorem Filtered.mapError {x : Logged α} (hx : Filtered x) (f : HeapError → HeapError) :
    Filtered (x.mapError f) :=
  hx.map (Except.mapError f)

variable {image : Image} {h : Header}

theorem filtered_header (image : Image) (s : Superblock) (address : Nat) :
    Filtered (Header.read image s address) :=
  (filtered_ofExcept _).bind fun _ _ => (filtered_ofExcept _).bind fun _ _ =>
    (filtered_ofExcept _).bind fun _ _ => (filtered_emit _).bind fun _ _ => filtered_ofExcept _

theorem filtered_direct (image : Image) (h : Header) (address size : Nat) :
    Filtered (DirectBlock.read image h address size) := by
  unfold DirectBlock.read
  split
  · exact filtered_ofExcept _
  · exact (filtered_ofExcept _).bind fun _ _ => (filtered_ofExcept _).bind fun _ _ =>
      (filtered_ofExcept _).bind fun _ _ => (filtered_emit _).bind fun _ _ => filtered_ofExcept _

theorem filtered_enter (slot child : Nat) (w : Walk) : Filtered (enter image h slot child w) := by
  unfold enter
  split
  · refine (filtered_direct image h child _).bind fun block _ => ?_
    split <;> exact filtered_ofExcept _
  · split <;> exact filtered_ofExcept _

theorem filtered_enterAll (children : List Nat) (slot : Nat) (w : Walk) :
    Filtered (enterAll image h slot children w) := by
  induction children generalizing slot w with
  | nil => exact filtered_ofExcept _
  | cons child rest ih => exact (filtered_enter slot child w).bind fun w' _ => ih (slot + 1) w'

theorem filtered_visit (task : Task) (w : Walk) : Filtered (visit image h task w) :=
  (filtered_ofExcept _).bind fun block _ => (filtered_emit _).bind fun _ _ =>
    filtered_enterAll block.children 0 w

theorem filtered_run (w : Walk) : Filtered (run image h w) := by
  -- by induction on the weight of what waits, which every visit lowers
  induction hw : weight h w.pending using Nat.strongRecOn generalizing w with
  | ind n ih =>
    subst hw
    rcases w with ⟨_ | ⟨task, rest⟩, index⟩
    · rw [run_nil]
      exact filtered_ofExcept _
    · rw [run_cons]
      exact (filtered_visit task _).bind fun w hv => ih _ (weight_visit_lt hv) w rfl

theorem filtered_directBlocks (image : Image) (h : Header) : Filtered (directBlocks image h) := by
  unfold directBlocks
  split
  · exact filtered_ofExcept _
  · split
    · exact (filtered_direct image h _ _).bind fun _ _ => filtered_ofExcept _
    · exact filtered_run _

theorem filtered_load (image : Image) (s : Superblock) (address : Nat) (options : Heap.Options) :
    Filtered (Heap.load image s address options) :=
  ((filtered_header image s address).mapError _).bind fun header _ =>
    ((filtered_directBlocks image header).mapError _).bind fun _ _ =>
      (filtered_emit _).bind fun _ _ => filtered_ofExcept _

theorem filtered_resolve (heap : Heap) (id : List UInt8) : Filtered (heap.resolve id) := by
  refine (filtered_ofExcept _).bind fun identifier _ => ?_
  cases identifier with
  | managed offset length => exact (filtered_emit _).bind fun _ _ => filtered_ofExcept _
  | huge => exact filtered_ofExcept _
  | tiny => exact filtered_ofExcept _
  | reserved payload =>
    simp only
    split <;> exact filtered_ofExcept _

/-! ### Commands -/

open DoublingHeap.Command

variable {files : Files} {s : Settings} {file : String} {address : Nat}

theorem filtered_loadHeap (files : Files) (s : Settings) (file : String) (address : Nat) :
    Filtered fun t => loadHeap files s t file address := by
  unfold loadHeap
  cases s.superblock with
  | error e => exact filtered_silent _
  | ok superblock =>
    cases openImage files file with
    | error failure => exact filtered_silent _
    | ok image => exact (filtered_load image superblock address s.heapOptions).map _

theorem filtered_inspect (files : Files) (s : Settings) (file : String) (address : Nat)
    (json : Bool) : Filtered fun t => inspect files s t file address json :=
  (filtered_loadHeap files s file address).map _

theorem filtered_get (files : Files) (s : Settings) (file : String) (address : Nat) (id : String) :
    Filtered fun t => Command.get files s t file address id := by
  unfold Command.get
  cases identifierBytes id with
  | error failure => exact filtered_silent _
  | ok raw =>
    have hload := filtered_loadHeap files s file address
    intro t
    simp only [hload t]
    rcases htrace : loadHeap files s .trace file address with ⟨events, failure | heap⟩
    · rfl
    · simp only
      split
      · rfl
      · have hresolve := filtered_resolve heap raw t
        simp only [hresolve, kept_append]

/-- **Every command is filtered.** -/
theorem filtered_perform (files : Files) (s : Settings) (action : Action) :
    Filtered fun t => perform files s t action := by
  cases action with
  | inspect file address json => exact filtered_inspect files s file address json
  | get file address id => exact filtered_get files s file address id
  | version => exact filtered_silent _

end DoublingHeap.Proofs.Thresholds
