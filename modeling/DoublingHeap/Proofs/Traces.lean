import DoublingHeap.Proofs.LogText
import DoublingHeap.Proofs.RoundTrip
import DoublingHeap.Proofs.Sharing
import DoublingHeap.Proofs.Thresholds

/-! # What the log tells

The whole trace of a walk is told visit by visit (`Stay`): the event of an indirect block, and after
it the events of the direct blocks that the block refers to, in slot order. `stays_of_run` is the
account of a run, from the accounts of its visits; the indirect blocks stand in it in the order in
which the walk comes to them. In the lines of the log (`LogText`) each of them is told of once for
each stay, and each block of the heap once (`filter_indirect`, `count_directLine`).

The log has no other effect. At a higher threshold the less severe events are missing and nothing
else changes, for a heap that is loaded and resolved in and for the whole program, whose runs on
settings that differ in the level alone (`SameButLevel`) end alike: `log_only_filters`. -/

namespace DoublingHeap.Proofs.Traces

open DoublingHeap.Walk DoublingHeap.Command
open DoublingHeap.Proofs.Blocks DoublingHeap.Proofs.Index DoublingHeap.Proofs.Visits
open DoublingHeap.Proofs.Steps DoublingHeap.Proofs.Sharing DoublingHeap.Proofs.Descent
open DoublingHeap.Proofs.Writing DoublingHeap.Proofs.Trees DoublingHeap.Proofs.RoundTrip
open DoublingHeap.Proofs.Thresholds DoublingHeap.Proofs.LogText

variable {image : Image} {h : Header}

/-! ### Events of blocks -/

/-- The event of a direct block that is read. -/
def blockEvent (b : DirectBlock) : Event := .directBlockRead b.address b.offset b.size

/-- An indirect block that a walk has come to, and the direct blocks that were read there. -/
structure Stay where
  block : IndirectBlock
  found : List DirectBlock

namespace Stay

/-- The event of the indirect block. -/
def event (s : Stay) : Event :=
  .indirectBlockRead s.block.address s.block.offset s.block.rows s.block.children.length

/-- The events of a stay: the indirect block, and after it the direct blocks. -/
def events (s : Stay) : List Event := s.event :: s.found.map blockEvent

/-- The lines of a stay. -/
def lines (s : Stay) : List String := indirectLine s.block :: s.found.map directLine

/-- The direct blocks of a stay are those in the direct slots of its block, in slot order. -/
def Complete (image : Image) (h : Header) (s : Stay) : Prop :=
  ∃ tasks, Splits image h .trace 0 s.block.children s.found tasks

end Stay

theorem events_lift {α : Type} (r : Except HeapError α) (t : Level) :
    (liftM r : Logged α).events t = [] := rfl

theorem events_emit (event : Event) : (Logged.emit event).events .trace = [event] := by
  show (if Level.trace.admits event.level then [event] else []) = [event]
  rw [admits_trace, if_pos rfl]

theorem events_bind_of_ok {α β : Type} {x : Logged α} {f : α → Logged β} {a : α} {t : Level}
    (hx : x.result t = .ok a) : (x >>= f).events t = x.events t ++ (f a).events t := by
  rw [Logged.events_bind, hx]

theorem events_readDirect {address size : Nat} {b : DirectBlock}
    (hread : (DirectBlock.read image h address size).result .trace = .ok b) :
    (DirectBlock.read image h address size).events .trace = [blockEvent b] := by
  unfold DirectBlock.read at hread ⊢
  split at hread
  · cases hread
  · rename_i hsize
    rw [if_neg hsize]
    obtain ⟨record, hrecord, hread⟩ := Logged.result_bind_eq_ok.mp hread
    obtain ⟨offset, hoffset, hread⟩ := Logged.result_bind_eq_ok.mp hread
    obtain ⟨data, hdata, hread⟩ := Logged.result_bind_eq_ok.mp hread
    obtain ⟨-, -, hread⟩ := Logged.result_bind_eq_ok.mp hread
    cases hread
    obtain ⟨within, rfl⟩ := viewRegion_eq_ok_iff.mp hdata
    rw [events_bind_of_ok hrecord, events_bind_of_ok hoffset, events_bind_of_ok hdata,
      events_bind_of_ok (Logged.result_emit ..), events_emit]
    rfl

theorem events_enter_direct {slot child size : Nat} {w w' : Walk} {b : DirectBlock}
    (hsize : h.table.blockSize slot = .direct size)
    (hread : (DirectBlock.read image h child size).result .trace = .ok b)
    (hent : (enter image h slot child w).result .trace = .ok w') :
    (enter image h slot child w).events .trace = [blockEvent b] := by
  obtain ⟨b', hread', -, hins⟩ := (enter_direct_iff hsize).mp hent
  cases hread.symm.trans hread'
  unfold enter
  simp only [hsize]
  rw [events_bind_of_ok hread, events_readDirect hread, hins]
  rfl

theorem events_enter_indirect {slot child : Nat} {w w' : Walk}
    (hsize : h.table.blockSize slot = .indirect)
    (hent : (enter image h slot child w).result .trace = .ok w') :
    (enter image h slot child w).events .trace = [] := by
  obtain ⟨rows, hrows, -⟩ := (enter_indirect_iff hsize).mp hent
  unfold enter
  simp only [hsize, hrows]
  rfl

/-- **Children that are taken in** are told of in slot order, as far as they are direct. -/
theorem events_enterAll {slot : Nat} {children : List Nat} {blocks : List DirectBlock}
    {tasks : List Task} (hs : Splits image h .trace slot children blocks tasks) {w w' : Walk}
    (hent : (enterAll image h slot children w).result .trace = .ok w') :
    (enterAll image h slot children w).events .trace = blocks.map blockEvent := by
  induction hs generalizing w with
  | nil => rfl
  | direct hsize hread _ ih =>
    rw [enterAll] at hent ⊢
    obtain ⟨w₁, hfirst, hrest⟩ := Logged.result_bind_eq_ok.mp hent
    rw [events_bind_of_ok hfirst, events_enter_direct hsize hread hfirst, ih hrest]
    rfl
  | indirect hsize _ _ ih =>
    rw [enterAll] at hent ⊢
    obtain ⟨w₁, hfirst, hrest⟩ := Logged.result_bind_eq_ok.mp hent
    rw [events_bind_of_ok hfirst, events_enter_indirect hsize hfirst, ih hrest]
    rfl

/-! ### A walk, visit by visit -/

/-- From inside a block a walk comes to the end of the block, if the rest of its children is taken
in. -/
theorem reached_of_enterAll {root : Nat} {t : Level} {visited : List IndirectBlock}
    {block : IndirectBlock} {children : List Nat} {slot : Nat} {w w' : Walk}
    (hdrop : block.children.drop slot = children)
    (hp : Reached image h t root (.inside visited block slot w))
    (hent : (enterAll image h slot children w).result t = .ok w') :
    Reached image h t root (.between (block :: visited) w') := by
  induction children generalizing slot w with
  | nil =>
    cases hent
    exact hp.step (.leave (List.getElem?_eq_none_iff.mpr (List.drop_eq_nil_iff.mp hdrop)))
  | cons child rest ih =>
    have hchild : block.children[slot]? = some child := by
      rw [← List.head?_drop, hdrop, List.head?_cons]
    have hrest : block.children.drop (slot + 1) = rest := by
      rw [← List.tail_drop, hdrop, List.tail_cons]
    rw [enterAll] at hent
    obtain ⟨w₁, hfirst, hent⟩ := Logged.result_bind_eq_ok.mp hent
    refine ih hrest ?_ hent
    cases hsize : h.table.blockSize slot with
    | direct size =>
      obtain ⟨b, hread, hpending, hins⟩ := (enter_direct_iff hsize).mp hfirst
      have hstep := hp.step (.direct hchild hsize hread hins)
      rw [← hpending] at hstep
      exact hstep
    | indirect =>
      obtain ⟨rows, hrows, rfl⟩ := (enter_indirect_iff hsize).mp hfirst
      exact hp.step (.indirect hchild hsize hrows)

theorem stay_of_visit {task : Task} {rest : List Task} {index : BlockIndex} {w : Walk}
    (hv : (visit image h task ⟨rest, index⟩).result .trace = .ok w) :
    ∃ stay : Stay, (visit image h task ⟨rest, index⟩).events .trace = stay.events ∧
      stay.Complete image h ∧ w.index.blocks.Perm (index.blocks ++ stay.found) ∧
      ∀ root visited, Reached image h .trace root (.between visited ⟨task :: rest, index⟩) →
        Reached image h .trace root (.between (stay.block :: visited) w) := by
  obtain ⟨block, blocks, tasks, hread, hsplits, -, -, hperm⟩ := visit_eq_ok_iff.mp hv
  have haddress := (Children.children_of_read hread).1
  have hlift : (liftM (IndirectBlock.read image h task.address task.rows) :
      Logged IndirectBlock).result .trace = .ok block := hread
  unfold visit at hv ⊢
  obtain ⟨block', hread', hv⟩ := Logged.result_bind_eq_ok.mp hv
  cases hlift.symm.trans hread'
  obtain ⟨-, -, hv⟩ := Logged.result_bind_eq_ok.mp hv
  refine ⟨⟨block, blocks⟩, ?_, ⟨tasks, hsplits⟩, hperm, fun root visited hp => ?_⟩
  · rw [events_bind_of_ok hlift, events_lift, events_bind_of_ok (Logged.result_emit ..),
      events_emit, events_enterAll hsplits hv, ← haddress]
    rfl
  · exact reached_of_enterAll List.drop_zero (hp.step (.visit hread)) hv

/-- **The account of a run**, from those of its visits. -/
theorem stays_of_run {w : Walk} {final : BlockIndex}
    (hr : (run image h w).result .trace = .ok final) :
    ∃ stays : List Stay, (run image h w).events .trace = stays.flatMap (·.events) ∧
      (∀ stay ∈ stays, stay.Complete image h) ∧
      final.blocks.Perm (w.index.blocks ++ stays.flatMap (·.found)) ∧
      ∀ root visited, Reached image h .trace root (.between visited w) →
        Reached image h .trace root
          (.between ((stays.map (·.block)).reverse ++ visited) ⟨[], final⟩) := by
  -- by induction on the weight of what waits
  induction hn : weight h w.pending using Nat.strongRecOn generalizing w with
  | ind n ih =>
    subst hn
    rcases w with ⟨_ | ⟨task, rest⟩, index⟩
    · rw [run_nil, Logged.result_pure, Except.ok.injEq] at hr
      subst hr
      refine ⟨[], by rw [run_nil]; rfl, fun _ hm => absurd hm List.not_mem_nil, ?_,
        fun _ _ hp => hp⟩
      rw [List.flatMap_nil, List.append_nil]
    · rw [run_cons] at hr ⊢
      obtain ⟨w, hv, hr⟩ := Logged.result_bind_eq_ok.mp hr
      obtain ⟨stay, hevents, hcomplete, hperm, hreach⟩ := stay_of_visit hv
      obtain ⟨stays, hevents', hcomplete', hperm', hreach'⟩ := ih _ (weight_visit_lt hv) hr rfl
      refine ⟨stay :: stays, ?_, List.forall_mem_cons.mpr ⟨hcomplete, hcomplete'⟩, ?_,
        fun root visited hp => ?_⟩
      · rw [events_bind_of_ok hv, hevents, hevents', List.flatMap_cons]
      · rw [List.flatMap_cons, ← List.append_assoc]
        exact hperm'.trans (hperm.append_right _)
      · have hend := hreach' root _ (hreach root visited hp)
        rw [List.map_cons, List.reverse_cons, List.append_assoc]
        exact hend

/-! ### Heaps -/

/-- The event of a header that is read. -/
def headerEvent (h : Header) : Event :=
  .headerRead h.address h.fields.idLength h.fields.tableWidth h.fields.startingBlockSize
    h.fields.maxDirectBlockSize

theorem events_readHeader {s : Superblock} {address : Nat}
    (hread : (Header.read image s address).result .trace = .ok h) :
    (Header.read image s address).events .trace = [headerEvent h] := by
  unfold Header.read at hread ⊢
  obtain ⟨record, hrecord, hread⟩ := Logged.result_bind_eq_ok.mp hread
  obtain ⟨fields, hfields, hread⟩ := Logged.result_bind_eq_ok.mp hread
  obtain ⟨header, hheader, hread⟩ := Logged.result_bind_eq_ok.mp hread
  obtain ⟨-, -, hread⟩ := Logged.result_bind_eq_ok.mp hread
  cases hread
  obtain ⟨-, -, -, heq⟩ := Headers.ofFields_eq_ok_iff.mp hheader
  have haddress : h.address = address := congrArg Header.address heq
  have hsame : h.fields = fields := congrArg Header.fields heq
  rw [events_bind_of_ok hrecord, events_bind_of_ok hfields, events_bind_of_ok hheader,
    events_bind_of_ok (Logged.result_emit ..), events_emit]
  unfold headerEvent
  rw [haddress, hsame]
  rfl

/-- **The account of a heap with an indirect root**: its header, what the walk comes to, and the
number of blocks. -/
theorem stays_of_load {s : Superblock} {address : Nat} {options : Heap.Options} {heap : Heap}
    {root : Nat} (hload : (Heap.load image s address options).result .trace = .ok heap)
    (hroot : IndirectRoot heap.header root) :
    ∃ stays : List Stay,
      (Heap.load image s address options).events .trace
        = headerEvent heap.header
          :: (stays.flatMap (·.events) ++ [.heapLoaded address heap.blocks.length]) ∧
      (∀ stay ∈ stays, stay.Complete image heap.header) ∧
      heap.blocks.Perm (stays.flatMap (·.found)) ∧
      Reached image heap.header .trace root
        (.between (stays.map (·.block)).reverse ⟨[], heap.index⟩) := by
  obtain ⟨hheader, -, hwalk⟩ := load_eq_ok_iff.mp hload
  have hrun := hwalk
  rw [directBlocks_of_indirectRoot hroot] at hrun
  obtain ⟨stays, hevents, hcomplete, hperm, hreach⟩ := stays_of_run hrun
  have hend := hreach root [] .start
  rw [List.append_nil] at hend
  refine ⟨stays, ?_, hcomplete, hperm, hend⟩
  have hfirst : ((Header.read image s address).mapError (.opening address)).result .trace
      = .ok heap.header := mapError_eq_ok_iff.mpr hheader
  have hsecond : ((directBlocks image heap.header).mapError (.opening address)).result .trace
      = .ok heap.index := mapError_eq_ok_iff.mpr hwalk
  have hblocks : ((directBlocks image heap.header).mapError (.opening address)).events .trace
      = stays.flatMap (·.events) := by
    rw [← hevents, ← directBlocks_of_indirectRoot hroot]
    rfl
  unfold Heap.load
  rw [events_bind_of_ok hfirst, events_bind_of_ok hsecond, hblocks,
    events_bind_of_ok (Logged.result_emit ..), events_emit]
  show (Header.read image s address).events .trace ++ _ = _
  rw [events_readHeader hheader]
  rfl

/-! ### Lines -/

theorem lines_of_events (stays : List Stay) :
    (stays.flatMap (·.events)).map (·.line) = stays.flatMap (·.lines) := by
  rw [List.map_flatMap]
  refine List.flatMap_congr fun stay _ => ?_
  unfold Stay.events Stay.lines
  rw [List.map_cons, List.map_map]
  exact congrArg₂ _ (line_indirectBlockRead _)
    (List.map_congr_left fun b _ => line_directBlockRead b)

theorem lines_of_stays {events : List Event} {h : Header} {stays : List Stay} {address n : Nat}
    (hevents : events = headerEvent h :: (stays.flatMap (·.events) ++ [.heapLoaded address n])) :
    events.map (·.line)
      = headerLine h :: (stays.flatMap (·.lines) ++ [loadedLine address n]) := by
  rw [hevents, List.map_cons, List.map_append, lines_of_events, List.map_singleton,
    line_heapLoaded]
  exact congrArg (· :: _) (line_headerRead h)

/-- The lines that have a property, if lines of one kind have it alike, and that of the header does
not. -/
theorem filter_lines {p : String → Bool} {h : Header} {indirect direct last : Bool}
    {address n : Nat} (hheader : p (headerLine h) = false)
    (hindirect : ∀ b, p (indirectLine b) = indirect) (hdirect : ∀ b, p (directLine b) = direct)
    (hlast : p (loadedLine address n) = last) (stays : List Stay) :
    (headerLine h :: (stays.flatMap (·.lines) ++ [loadedLine address n])).filter p
      = (stays.flatMap fun stay => (if indirect then [indirectLine stay.block] else [])
          ++ if direct then stay.found.map directLine else [])
        ++ if last then [loadedLine address n] else [] := by
  have hfound : ∀ stay : Stay, (stay.found.map directLine).filter p
      = if direct then stay.found.map directLine else [] := by
    intro stay
    have hconst : p ∘ directLine = fun _ => direct := funext hdirect
    rw [List.filter_map, hconst]
    cases direct with
    | false => rw [List.filter_false]; rfl
    | true => rw [List.filter_true]; rfl
  have hstay : ∀ stay : Stay, stay.lines.filter p
      = (if indirect then [indirectLine stay.block] else [])
        ++ if direct then stay.found.map directLine else [] := by
    intro stay
    rw [Stay.lines, List.filter_cons, hindirect, hfound]
    cases indirect <;> rfl
  have hend : [loadedLine address n].filter p = if last then [loadedLine address n] else [] := by
    rw [List.filter_singleton, hlast, Bool.cond_eq_ite]
  rw [List.filter_cons_of_neg (by rw [hheader]; decide), List.filter_append, List.filter_flatMap,
    hend]
  congr 2
  exact funext hstay

theorem nodup_directLines {blocks : List DirectBlock} (ha : Ascending blocks) :
    (blocks.map directLine).Nodup := by
  refine List.pairwise_map.mpr (ha.imp fun {b c} hlt heq => ?_)
  have hoffset := offset_eq_of_directLine heq
  omega

section Told

variable (h : Header) (stays : List Stay) (address n : Nat)

theorem filter_indirect :
    (headerLine h :: (stays.flatMap (·.lines) ++ [loadedLine address n])).filter
        (fun line => Mentions "Indirect block at" line)
      = stays.map fun stay => indirectLine stay.block := by
  rw [filter_lines (p := fun line => Mentions "Indirect block at" line)
      (decide_eq_false (mentions_headerLine h).1)
      (fun b => decide_eq_true (mentions_indirectLine b).1)
      (fun b => decide_eq_false (mentions_directLine b).1)
      (decide_eq_false (mentions_loadedLine address n).1), List.map_eq_flatMap]
  exact List.append_nil _

theorem filter_direct :
    (headerLine h :: (stays.flatMap (·.lines) ++ [loadedLine address n])).filter
        (fun line => Mentions "direct block at" line ∧ ¬ Mentions "Indirect block at" line)
      = (stays.flatMap (·.found)).map directLine := by
  rw [filter_lines
      (p := fun line => Mentions "direct block at" line ∧ ¬ Mentions "Indirect block at" line)
      (decide_eq_false fun hboth => (mentions_headerLine h).2.1 hboth.1)
      (fun b => decide_eq_false fun hboth => hboth.2 (mentions_indirectLine b).1)
      (fun b => decide_eq_true ⟨(mentions_directLine b).2.1, (mentions_directLine b).1⟩)
      (decide_eq_false fun hboth => (mentions_loadedLine address n).2.1 hboth.1), List.map_flatMap]
  exact List.append_nil _

theorem filter_loaded :
    (headerLine h :: (stays.flatMap (·.lines) ++ [loadedLine address n])).filter
        (fun line => Mentions "Read fractal heap" line) = [loadedLine address n] := by
  rw [filter_lines (p := fun line => Mentions "Read fractal heap" line)
      (decide_eq_false (mentions_headerLine h).2.2)
      (fun b => decide_eq_false (mentions_indirectLine b).2.2)
      (fun b => decide_eq_false (mentions_directLine b).2.2)
      (decide_eq_true (mentions_loadedLine address n).2.2)]
  have hnone : (stays.flatMap fun _ => ([] : List String)) = [] :=
    List.flatMap_eq_nil_iff.mpr fun _ _ => rfl
  exact congrArg (· ++ [loadedLine address n]) hnone

/-- **A direct block of a heap** is told of once. -/
theorem count_directLine {blocks : List DirectBlock} (ha : Ascending blocks)
    (hperm : blocks.Perm (stays.flatMap (·.found))) {b : DirectBlock} (hb : b ∈ blocks) :
    (headerLine h :: (stays.flatMap (·.lines) ++ [loadedLine address n])).count (directLine b)
      = 1 := by
  have hdirect : Mentions "direct block at" (directLine b) ∧
      ¬ Mentions "Indirect block at" (directLine b) :=
    ⟨(mentions_directLine b).2.1, (mentions_directLine b).1⟩
  rw [← List.count_filter (p := fun line =>
      Mentions "direct block at" line ∧ ¬ Mentions "Indirect block at" line)
      (decide_eq_true hdirect), filter_direct, ← (hperm.map directLine).count_eq]
  exact List.count_eq_one_of_mem (nodup_directLines ha) (List.mem_map_of_mem hb)

end Told

/-! ### Runs of the program -/

/-- What settings are where the level does not matter. -/
def unleveled (s : Settings) : Settings := { s with level := .info }

/-- The severity from which on a run logs: that of its settings, unless it is verbose. -/
def logLevel (files : Files) (env : Environment) (args : Arguments) : Level :=
  if args.verbose then .debug
  else match settings files env args with
    | .ok s => s.level
    | .error _ => .info

/-- All that a run could log, and what it comes to. -/
def account (files : Files) (env : Environment) (args : Arguments) :
    List Event × Except Failure (List String) :=
  match settings files env args with
  | .ok s => perform files s .trace args.action
  | .error failure => ([], .error failure)

/-- **A run keeps what is severe enough** of all that it could log. -/
theorem execute_eq_outcome (files : Files) (env : Environment) (args : Arguments) :
    execute files env args
      = Command.outcome (kept (logLevel files env args) (account files env args).1)
          (account files env args).2 := by
  unfold execute logLevel account
  cases settings files env args with
  | error failure => rfl
  | ok s =>
    have hfiltered := filtered_perform files s args.action
    exact congrArg₂ Command.outcome (hfiltered.events (threshold s args))
      (hfiltered.result (threshold s args))

/-- The file that a command opens. -/
def fileOf : Action → Option String
  | .inspect file _ _ => some file
  | .get file _ _ => some file
  | .version => none

/-- **Two runs differ in the level at most**: they have the same command, their settings are the
same or fail alike, up to the level, and the file of the command is the same for both. -/
structure SameButLevel (files files' : Files) (env env' : Environment) (args args' : Arguments) :
    Prop where
  action : args'.action = args.action
  found : (settings files' env' args').map unleveled = (settings files env args).map unleveled
  file : ∀ path, fileOf args.action = some path → files' path = files path

theorem perform_unleveled (files : Files) (s : Settings) (t : Level) (action : Action) :
    perform files (unleveled s) t action = perform files s t action := by
  cases action <;> rfl

theorem perform_files {files files' : Files} {action : Action}
    (hfile : ∀ path, fileOf action = some path → files' path = files path) (s : Settings)
    (t : Level) : perform files' s t action = perform files s t action := by
  cases action with
  | inspect file address json =>
    simp only [perform, Command.inspect, loadHeap, openImage, hfile file rfl]
  | get file address id => simp only [perform, Command.get, loadHeap, openImage, hfile file rfl]
  | version => rfl

section SameButLevel

variable {files files' : Files} {env env' : Environment} {args args' : Arguments}

/-- A run with another level in its settings differs in the level at most. -/
theorem SameButLevel.of_load {s s' : Settings} (haction : args'.action = args.action)
    (hwidths : args'.offsetWidth = args.offsetWidth ∧ args'.lengthWidth = args.lengthWidth)
    (hload : Settings.load files env args.config = .ok s)
    (hload' : Settings.load files' env' args'.config = .ok s') (hsame : unleveled s' = unleveled s)
    (hfile : ∀ path, fileOf args.action = some path → files' path = files path) :
    SameButLevel files files' env env' args args' := by
  refine ⟨haction, ?_, hfile⟩
  unfold settings
  rw [hload, hload', hwidths.1, hwidths.2]
  have hwiden := congrArg (·.withWidths args.offsetWidth args.lengthWidth) hsame
  exact congrArg Except.ok hwiden

/-- **Such runs come to the same.** -/
theorem SameButLevel.account_eq (same : SameButLevel files files' env env' args args') :
    account files' env' args' = account files env args := by
  have hsettings := same.found
  unfold account
  cases hs : settings files env args with
  | error failure =>
    cases hs' : settings files' env' args' with
    | error failure' =>
      rw [hs, hs'] at hsettings
      cases hsettings
      rfl
    | ok s' =>
      rw [hs, hs'] at hsettings
      cases hsettings
  | ok s =>
    cases hs' : settings files' env' args' with
    | error failure' =>
      rw [hs, hs'] at hsettings
      cases hsettings
    | ok s' =>
      rw [hs, hs'] at hsettings
      have hsame : unleveled s' = unleveled s := Except.ok.inj hsettings
      calc perform files' s' .trace args'.action
        _ = perform files s' .trace args.action := by
            rw [same.action]
            exact perform_files same.file s' .trace
        _ = perform files (unleveled s) .trace args.action := by
            rw [← hsame, perform_unleveled]
        _ = perform files s .trace args.action := perform_unleveled ..

end SameButLevel

/-! ### The log -/

theorem filtered_load_resolve (image : Image) (s : Superblock) (address : Nat)
    (options : Heap.Options) (id : List UInt8) :
    Filtered (Heap.load image s address options >>= fun heap => heap.resolve id) :=
  (filtered_load image s address options).bind fun heap _ => filtered_resolve heap id

/-- No event is more severe than debugging. -/
theorem rank_level_le (event : Event) : event.level.rank ≤ Level.debug.rank := by
  cases event with
  | headerRead | directBlockRead => exact Nat.zero_le _
  | indirectBlockRead | heapLoaded | lookup => exact Nat.le_refl _

theorem kept_of_info_le {t : Level} (ht : Level.info.rank ≤ t.rank) (events : List Event) :
    kept t events = [] := by
  refine List.filter_eq_nil_iff.mpr fun event _ hadmits => ?_
  have hle : t.rank ≤ event.level.rank := of_decide_eq_true hadmits
  have hlow : event.level.rank < Level.info.rank := Nat.lt_succ_of_le (rank_level_le event)
  exact absurd (Nat.le_trans ht hle) (Nat.not_le.mpr hlow)

/-- **The log tells what happens, and has no other effect.** Loading a heap and resolving an
identifier in it has one result at all thresholds, and what is logged are the lines of the whole
trace that are severe enough, in order; so there are none from the severity of information on.

Two runs of the program that differ in the level at most end with the same exit code, the same
output and the same report, and in front of the report each keeps what is severe enough of the same
lines.

The whole trace of a heap with an indirect root has the line of the header first, that of the heap
with the number of its blocks last, and the stays of the walk between them: the line of each
indirect block in the order of the walk, with the number of its children, and right after it those
of the direct blocks in its slots. These are all the lines that say so; what is said of a direct
block is also a part of what is said of an indirect one. Every block of the heap has one line, and
no other block has any. -/
theorem log_only_filters :
    (∀ (image : Image) (s : Superblock) (address : Nat) (options : Heap.Options) (id : List UInt8)
        (t : Level),
      let action := Heap.load image s address options >>= fun heap => heap.resolve id
      action.result t = action.result .trace ∧
      (action.events t).map (·.line)
        = ((action.events .trace).filter fun event => t.rank ≤ event.level.rank).map (·.line) ∧
      (Level.info.rank ≤ t.rank → action.events t = [])) ∧
    (∀ (files files' : Files) (env env' : Environment) (words words' : List String)
        (args args' : Arguments), Arguments.parse words = .ok args →
      Arguments.parse words' = .ok args' → SameButLevel files files' env env' args args' →
      ∃ trace result,
        Command.run files env words
          = Command.outcome (kept (logLevel files env args) trace) result ∧
        Command.run files' env' words'
          = Command.outcome (kept (logLevel files' env' args') trace) result) ∧
    ∀ (image : Image) (s : Superblock) (address : Nat) (options : Heap.Options) (heap : Heap)
        (root : Nat), (Heap.load image s address options).result .trace = .ok heap →
      IndirectRoot heap.header root →
      let lines := ((Heap.load image s address options).events .trace).map (·.line)
      ∃ stays : List Stay,
        lines = headerLine heap.header
          :: (stays.flatMap (·.lines) ++ [loadedLine address heap.blocks.length]) ∧
        (lines.filter fun line => Mentions "Indirect block at" line)
          = (stays.map fun stay => indirectLine stay.block) ∧
        (lines.filter fun line =>
            Mentions "direct block at" line ∧ ¬ Mentions "Indirect block at" line)
          = (stays.flatMap (·.found)).map directLine ∧
        (lines.filter fun line => Mentions "Read fractal heap" line)
          = [loadedLine address heap.blocks.length] ∧
        Reached image heap.header .trace root
          (.between (stays.map (·.block)).reverse ⟨[], heap.index⟩) ∧
        (∀ stay ∈ stays, stay.Complete image heap.header) ∧
        heap.blocks.Perm (stays.flatMap (·.found)) ∧
        ∀ b ∈ heap.blocks, lines.count (directLine b) = 1 := by
  refine ⟨fun image s address options id t => ?_, ?_, ?_⟩
  · have hfiltered := filtered_load_resolve image s address options id
    have hevents := hfiltered.events t
    exact ⟨hfiltered.result t, congrArg (List.map (·.line)) hevents,
      fun ht => hevents.trans (kept_of_info_le ht _)⟩
  · intro files files' env env' words words' args args' hparse hparse' same
    refine ⟨(account files env args).1, (account files env args).2, ?_, ?_⟩
    · rw [run_of_parse files env hparse]
      exact execute_eq_outcome files env args
    · rw [run_of_parse files' env' hparse', ← same.account_eq]
      exact execute_eq_outcome files' env' args'
  · intro image s address options heap root hload hroot lines
    obtain ⟨stays, hevents, hcomplete, hperm, hreached⟩ := stays_of_load hload hroot
    have hlines := lines_of_stays hevents
    refine ⟨stays, hlines, ?_, ?_, ?_, hreached, hcomplete, hperm, fun b hb => ?_⟩
    · exact (congrArg (List.filter _) hlines).trans (filter_indirect ..)
    · exact (congrArg (List.filter _) hlines).trans (filter_direct ..)
    · exact (congrArg (List.filter _) hlines).trans (filter_loaded ..)
    · exact (congrArg (List.count _) hlines).trans
        (count_directLine _ stays _ _ heap.index.ascending hperm hb)

/-- A file with a heap, and two files with settings that differ in the level. -/
def twoLevels : Files := fun path =>
  if path = "heap" then .ok (.file (written (nestedTree.pieces (smallHeader 90 3))).bytes)
  else if path = "all" then .ok (.file "log.level = \"trace\"".toUTF8)
  else if path = "few" then .ok (.file "log.level = \"warn\"".toUTF8)
  else .error .notFound

/-- Lists the blocks of the heap with the settings of a file. -/
def listing (config : String) (verbose : Bool) : Arguments :=
  ⟨.inspect "heap" 0 false, some config, some 1, some 1, verbose⟩

/-- A run that logs all and a verbose run come to the same, and the four blocks are told of. -/
theorem twoLevels_told :
    SameButLevel twoLevels twoLevels {} {} (listing "all" false) (listing "few" true) ∧
      (∃ trace result,
        Command.run twoLevels {}
            ["inspect", "heap", "-a0", "--config=all", "--size-of-offsets=1", "--size-of-lengths=1"]
          = Command.outcome (kept .trace trace) result ∧
        Command.run twoLevels {}
            ["inspect", "heap", "-a0", "--config=few", "--size-of-offsets=1", "--size-of-lengths=1",
              "-v"]
          = Command.outcome (kept .debug trace) result) ∧
      ∃ lines,
        lines = ((Heap.load (written (nestedTree.pieces (smallHeader 90 3))) narrow 0 {}).events
          .trace).map (·.line) ∧
        lines =
          ["TRACE heap header at 0: id_length=3 table_width=1 start=8 max_direct=16",
           "DEBUG Indirect block at 90: offset=0 rows=3 children=3",
           "TRACE direct block at 41: offset=0 size=8",
           "TRACE direct block at 82: offset=8 size=8",
           "DEBUG Indirect block at 49: offset=16 rows=2 children=2",
           "TRACE direct block at 74: offset=16 size=8",
           "TRACE direct block at 62: offset=24 size=8",
           "DEBUG Read fractal heap at address 0, loaded 4 direct blocks"] ∧
        (lines.filter fun line => Mentions "Read fractal heap" line)
          = ["DEBUG Read fractal heap at address 0, loaded 4 direct blocks"] ∧
        ∃ heap, (Heap.load (written (nestedTree.pieces (smallHeader 90 3))) narrow 0 {}).result
            .trace = .ok heap ∧
          heap.blocks.map (·.address) = [41, 82, 74, 62] ∧
          ∀ b ∈ heap.blocks, lines.count (directLine b) = 1 := by
  have hall : Settings.load twoLevels {} (some "all") = .ok ⟨8, 8, false, .trace⟩ := by
    decide +kernel
  have hfew : Settings.load twoLevels {} (some "few") = .ok ⟨8, 8, false, .warn⟩ := by
    decide +kernel
  have hsame : SameButLevel twoLevels twoLevels {} {} (listing "all" false) (listing "few" true) :=
    .of_load rfl ⟨rfl, rfl⟩ hall hfew rfl fun _ _ => rfl
  have hlevel : logLevel twoLevels {} (listing "all" false) = .trace := by
    decide +kernel
  have hlevel' : logLevel twoLevels {} (listing "few" true) = .debug := if_pos rfl
  obtain ⟨-, hruns, hwalks⟩ := log_only_filters
  obtain ⟨trace, result, hrun, hrun'⟩ := hruns twoLevels twoLevels {} {}
    ["inspect", "heap", "-a0", "--config=all", "--size-of-offsets=1", "--size-of-lengths=1"]
    ["inspect", "heap", "-a0", "--config=few", "--size-of-offsets=1", "--size-of-lengths=1", "-v"]
    _ _ rfl rfl hsame
  have hlevels := congrArg (fun t => Command.outcome (kept t trace) result) hlevel
  have hlevels' := congrArg (fun t => Command.outcome (kept t trace) result) hlevel'
  refine ⟨hsame, ⟨trace, result, hrun.trans hlevels, hrun'.trans hlevels'⟩, ?_⟩
  have haddresses : (((Heap.load (written (nestedTree.pieces (smallHeader 90 3))) narrow 0
      {}).result .trace).toOption.map fun heap => heap.blocks.map (·.address))
        = some [41, 82, 74, 62] := by
    decide +kernel
  obtain ⟨heap, hfound, hblocks⟩ := Option.map_eq_some_iff.mp haddresses
  have hload := eq_ok_of_toOption hfound
  have hread : (Header.read (written (nestedTree.pieces (smallHeader 90 3))) narrow 0).result .trace
      = .ok (smallHeader 90 3) := eq_ok_of_toOption (by decide +kernel)
  have hheader : heap.header = smallHeader 90 3 :=
    Except.ok.inj ((load_eq_ok_iff.mp hload).1.symm.trans hread)
  have hroot : IndirectRoot heap.header 90 := by
    rw [hheader]
    exact ⟨rfl, by decide⟩
  obtain ⟨stays, -, -, -, hlast, -, -, -, hcount⟩ := hwalks _ narrow 0 {} heap 90 hload hroot
  have hlength := congrArg List.length hblocks
  rw [List.length_map] at hlength
  rw [hlength] at hlast
  exact ⟨_, rfl, by decide +kernel, hlast.trans (by decide +kernel), heap, hload, hblocks, hcount⟩

end DoublingHeap.Proofs.Traces
