import DoublingHeap.Proofs.Resolution
import DoublingHeap.Proofs.Sights

/-! # Images that are cut short

Reading an image that begins another one either gives what reading the other one gives, or finds
that it ends too early. This is a relation between the results of two runs (`Agrees`) that composed
actions inherit from their parts (`Agrees.bind`), so it goes from single records up to whole heaps:
`agrees_readRecord`, `agrees_header`, `agrees_directBlock`, `agrees_indirectBlock`, `agrees_visit`,
`agrees_run`, `agrees_load`.

Blocks of the two runs view different images, so they are compared by their sights. -/

namespace DoublingHeap.Proofs.Truncation

open DoublingHeap.Walk
open DoublingHeap.Proofs.Blocks DoublingHeap.Proofs.Index DoublingHeap.Proofs.Visits
open DoublingHeap.Proofs.Descent DoublingHeap.Proofs.Resolution DoublingHeap.Proofs.Sights

variable {short long : Image} {s : Superblock} {h : Header} {t : Level} {α β γ δ : Type}

/-! ### Two runs -/

/-- The first result is also the second, up to `R`, or fails because an image ends too early. -/
inductive Agrees (R : α → β → Prop) : Except HeapError α → Except HeapError β → Prop where
  | ok {a : α} {b : β} (hr : R a b) : Agrees R (.ok a) (.ok b)
  | error (e : HeapError) : Agrees R (.error e) (.error e)
  | ends {e : HeapError} {y : Except HeapError β} (hkind : e.kind = .input) : Agrees R (.error e) y

theorem Agrees.refl {R : α → α → Prop} (hr : ∀ a, R a a) (x : Except HeapError α) :
    Agrees R x x := by
  cases x with
  | ok a => exact .ok (hr a)
  | error e => exact .error e

/-- **What agrees in both steps agrees.** -/
theorem Agrees.bind {R : α → β → Prop} {S : γ → δ → Prop} {x : Except HeapError α}
    {y : Except HeapError β} {f : α → Except HeapError γ} {g : β → Except HeapError δ}
    (hxy : Agrees R x y) (hfg : ∀ a b, x = .ok a → R a b → Agrees S (f a) (g b)) :
    Agrees S (x.bind f) (y.bind g) := by
  cases hxy with
  | ok hr => exact hfg _ _ rfl hr
  | error e => exact .error e
  | ends hkind => exact .ends hkind

theorem Agrees.bindLogged {R : α → β → Prop} {S : γ → δ → Prop} {x : Logged α} {y : Logged β}
    {f : α → Logged γ} {g : β → Logged δ} (hxy : Agrees R (x.result t) (y.result t))
    (hfg : ∀ a b, x.result t = .ok a → R a b → Agrees S ((f a).result t) ((g b).result t)) :
    Agrees S ((x >>= f).result t) ((y >>= g).result t) := by
  rw [Logged.result_bind, Logged.result_bind]
  exact hxy.bind hfg

theorem result_emit_bind (event : Event) (f : Unit → Logged α) :
    (Logged.emit event >>= f).result t = (f ()).result t := by
  rw [Logged.result_bind, Logged.result_emit]
  rfl

theorem Agrees.mapError {R : α → β → Prop} {x : Except HeapError α} {y : Except HeapError β}
    (hxy : Agrees R x y) (f : HeapError → HeapError) (hf : ∀ e, (f e).kind = e.kind) :
    Agrees R (x.mapError f) (y.mapError f) := by
  cases hxy with
  | ok hr => exact .ok hr
  | error e => exact .error (f e)
  | ends hkind => exact .ends ((hf _).trans hkind)

/-! ### Records and views -/

theorem Holds.of_shorter (hp : short.toList <+: long.toList) {address : Nat} {bytes : List UInt8}
    (hh : Holds short address bytes) : Holds long address bytes := by
  obtain ⟨rest, hrest⟩ := hp
  obtain ⟨hle, heq⟩ := hh
  have hsize : long.size = short.size + rest.length := by
    rw [← Image.length_toList, ← hrest, List.length_append, Image.length_toList]
  refine ⟨by omega, ?_⟩
  rw [← hrest, List.drop_append_of_le_length (by rw [Image.length_toList]; omega),
    List.take_append_of_le_length
      (by rw [List.length_drop, Image.length_toList]; omega), heq]

/-- A range outside an image is an error of reading the image. -/
theorem input_of_mapError {r : Except OutOfRange α} {address length : Nat} {e : HeapError}
    (h : r.mapError (.input address length) = .error e) : e.kind = .input := by
  cases r <;> cases h
  rfl

theorem agrees_readRecord (hp : short.toList <+: long.toList) (address length : Nat) :
    Agrees Eq (short.readRecord address length) (long.readRecord address length) := by
  cases hrec : short.readRecord address length with
  | ok bytes =>
    obtain ⟨hh, hlen⟩ := readRecord_eq_ok_iff.mp hrec
    rw [readRecord_eq_ok_iff.mpr ⟨Holds.of_shorter hp hh, hlen⟩]
    exact .ok rfl
  | error e => exact .ends (input_of_mapError hrec)

theorem agrees_viewRegion (hp : short.toList <+: long.toList) (address length : Nat) :
    Agrees (fun r r' : Image.Region => r.toList = r'.toList)
      (short.viewRegion address length) (long.viewRegion address length) := by
  cases hview : short.viewRegion address length with
  | ok r =>
    obtain ⟨within, rfl⟩ := viewRegion_eq_ok_iff.mp hview
    have hheld := Holds.of_shorter hp (holds_range within)
    unfold Holds at hheld
    rw [length_range within] at hheld
    rw [viewRegion_eq_ok_iff.mpr ⟨hheld.1, rfl⟩]
    refine .ok ?_
    rw [Image.Region.toList_eq, Image.Region.toList_eq]
    exact hheld.2.symm
  | error e => exact .ends (input_of_mapError hview)

theorem agrees_header (hp : short.toList <+: long.toList) (address : Nat) :
    Agrees Eq ((Header.read short s address).result t) ((Header.read long s address).result t) := by
  unfold Header.read
  refine (agrees_readRecord hp address _).bindLogged ?_
  rintro record _ - rfl
  exact .refl (fun _ => rfl) _

theorem agrees_indirectBlock (hp : short.toList <+: long.toList) (address rows : Nat) :
    Agrees Eq (IndirectBlock.read short h address rows)
      (IndirectBlock.read long h address rows) := by
  unfold IndirectBlock.read
  split
  · exact .refl (fun _ => rfl) _
  · refine (agrees_readRecord hp address _).bind ?_
    rintro record _ - rfl
    exact .refl (fun _ => rfl) _

/-! ### The walk -/

/-- Two walks have the same tasks left, and look alike in what they found. -/
structure Alike (w w' : Walk) : Prop where
  pending : w.pending = w'.pending
  index : sights w.index = sights w'.index

theorem agrees_directBlock (hp : short.toList <+: long.toList) (address size : Nat) :
    Agrees (fun b b' => sight b = sight b') ((DirectBlock.read short h address size).result t)
      ((DirectBlock.read long h address size).result t) := by
  unfold DirectBlock.read
  split
  · exact .error _
  refine (agrees_readRecord hp address _).bindLogged ?_
  rintro record _ - rfl
  refine (Agrees.refl (R := Eq) (fun _ => rfl) _).bindLogged ?_
  rintro offset _ - rfl
  refine (agrees_viewRegion hp address size).bindLogged ?_
  rintro r r' - hr
  rw [result_emit_bind, result_emit_bind]
  refine .ok ?_
  unfold sight
  simp only [hr]

theorem agrees_enter (hp : short.toList <+: long.toList) (slot child : Nat) {w w' : Walk}
    (hw : Alike w w') :
    Agrees Alike ((enter short h slot child w).result t)
      ((enter long h slot child w').result t) := by
  unfold enter
  split
  · rename_i size _
    refine (agrees_directBlock hp child size).bindLogged ?_
    rintro b b' - hb
    have hoffset : b.offset = b'.offset := congrArg Sight.offset hb
    cases hins : w.index.insert b with
    | ok index =>
      obtain ⟨index', hins', hindex⟩ := insert_view Sight.offset (fun _ => rfl) hb hw.index hins
      simp only [hins']
      exact .ok ⟨hw.pending, hindex⟩
    | error holder =>
      obtain ⟨holder', hins', hsight⟩ := refused_view Sight.offset (fun _ => rfl) hb hw.index hins
      have haddress : holder.address = holder'.address := congrArg Sight.address hsight
      simp only [hins', hoffset, haddress]
      exact .error _
  · split
    · exact .ok ⟨by rw [hw.pending], hw.index⟩
    · exact .error _

theorem agrees_enterAll (hp : short.toList <+: long.toList) (slot : Nat) (children : List Nat)
    {w w' : Walk} (hw : Alike w w') :
    Agrees Alike ((enterAll short h slot children w).result t)
      ((enterAll long h slot children w').result t) := by
  induction children generalizing slot w w' with
  | nil => exact .ok hw
  | cons child rest ih =>
    unfold enterAll
    refine (agrees_enter hp slot child hw).bindLogged ?_
    rintro v v' - hv
    exact ih (slot + 1) hv

theorem agrees_visit (hp : short.toList <+: long.toList) (task : Task) {w w' : Walk}
    (hw : Alike w w') :
    Agrees Alike ((visit short h task w).result t) ((visit long h task w').result t) := by
  unfold visit
  refine (agrees_indirectBlock hp task.address task.rows).bindLogged ?_
  rintro block _ - rfl
  rw [result_emit_bind, result_emit_bind]
  exact agrees_enterAll hp 0 block.children hw

/-- **Two runs** that begin alike end alike. -/
theorem agrees_run (hp : short.toList <+: long.toList) {w w' : Walk} (hw : Alike w w') :
    Agrees (fun i i' => sights i = sights i') ((run short h w).result t)
      ((run long h w').result t) := by
  -- by induction on the weight of what waits: every visit of the first run lowers it
  induction hn : weight h w.pending using Nat.strongRecOn generalizing w w' with
  | ind n ih =>
    subst hn
    rcases w with ⟨pending, index⟩
    rcases w' with ⟨pending', index'⟩
    obtain ⟨rfl, hindex⟩ : pending = pending' ∧ sights index = sights index' := ⟨hw.1, hw.2⟩
    cases pending with
    | nil =>
      rw [run_nil, run_nil]
      exact .ok hindex
    | cons task rest =>
      rw [run_cons, run_cons]
      have hrest : Alike ⟨rest, index⟩ ⟨rest, index'⟩ := ⟨rfl, hindex⟩
      refine (agrees_visit hp task hrest).bindLogged ?_
      intro v v' hv hvv'
      exact ih _ (weight_visit_lt hv) hvv' rfl

theorem agrees_directBlocks (hp : short.toList <+: long.toList) :
    Agrees (fun i i' => sights i = sights i') ((directBlocks short h).result t)
      ((directBlocks long h).result t) := by
  unfold directBlocks
  split
  · exact .ok rfl
  split
  · refine (agrees_directBlock hp _ _).bindLogged ?_
    rintro b b' - hb
    refine .ok ?_
    unfold sights BlockIndex.singleton
    simp only [List.map_cons, List.map_nil, hb]
  · exact agrees_run hp ⟨rfl, rfl⟩

/-! ### Whole heaps -/

theorem agrees_load (hp : short.toList <+: long.toList) (address : Nat) (options : Heap.Options) :
    Agrees SameHeap ((Heap.load short s address options).result t)
      ((Heap.load long s address options).result t) := by
  unfold Heap.load
  refine ((agrees_header hp address).mapError (.opening address) fun _ => rfl).bindLogged ?_
  rintro header _ - rfl
  refine ((agrees_directBlocks hp).mapError (.opening address) fun _ => rfl).bindLogged ?_
  rintro index index' - hindex
  rw [result_emit_bind, result_emit_bind]
  exact .ok ⟨rfl, rfl, hindex⟩

/-- **A heap is never changed by cutting its image short.** If the shorter image has a heap, the
longer one has the same: the same header, the same blocks and the same objects. If the shorter image
has none, it ends too early, or the longer one fails with the same error. -/
theorem load_truncation_safe (hp : short.toList <+: long.toList) (address : Nat)
    (options : Heap.Options) :
    (∀ heap, (Heap.load short s address options).result t = .ok heap →
      ∃ heap', (Heap.load long s address options).result t = .ok heap' ∧
        heap'.header = heap.header ∧ heap'.options = heap.options ∧
        (heap'.blocks.map fun b => (b.address, b.offset, b.size, b.data.toList))
          = (heap.blocks.map fun b => (b.address, b.offset, b.size, b.data.toList)) ∧
        ∀ id, heap'.resolve id = heap.resolve id) ∧
    ∀ e, (Heap.load short s address options).result t = .error e → e.kind ≠ .input →
      (Heap.load long s address options).result t = .error e := by
  have hagree := agrees_load (s := s) (t := t) hp address options
  constructor
  · intro heap hload
    rw [hload] at hagree
    cases hlong : (Heap.load long s address options).result t with
    | error e =>
      rw [hlong] at hagree
      cases hagree
    | ok heap' =>
      rw [hlong] at hagree
      obtain ⟨hs⟩ := hagree
      refine ⟨heap', rfl, hs.header.symm, hs.options.symm, ?_, fun id =>
        (resolve_eq_of_sights hs id).symm⟩
      have hview : ∀ i : BlockIndex,
          (i.blocks.map fun b => (b.address, b.offset, b.size, b.data.toList))
            = (sights i).map fun v => (v.address, v.offset, v.bytes.length, v.bytes) := by
        intro i
        unfold sights
        rw [List.map_map]
        refine List.map_congr_left fun b _ => ?_
        simp only [Function.comp_apply, sight, Image.Region.length_toList, DirectBlock.size]
      unfold Heap.blocks
      rw [hview, hview, hs.index]
  · intro e hload hkind
    rw [hload] at hagree
    generalize (Heap.load long s address options).result t = r at hagree ⊢
    cases hagree with
    | error => rfl
    | ends hinput => exact absurd hinput hkind

/-- A heap is the same with a byte after its image. -/
theorem load_of_longer_overlapping :
    overlapping.toList <+: (Image.ofList (overlapping.toList ++ [7])).toList ∧
      ∃ heap', (Heap.load (Image.ofList (overlapping.toList ++ [7])) narrow 0 {}).result .trace
          = .ok heap' ∧
        (heap'.resolve [0, 7, 5]).result .trace = .ok [66, 0, 0, 4, 1] := by
  have hp : overlapping.toList <+: (Image.ofList (overlapping.toList ++ [7])).toList :=
    List.prefix_append ..
  obtain ⟨heap, hload, hr⟩ := overlapping_resolves
  obtain ⟨heap', hload', -, -, -, hsame⟩ :=
    (load_truncation_safe (s := narrow) (t := .trace) hp 0 {}).1 heap hload
  refine ⟨hp, heap', hload', ?_⟩
  rw [hsame]
  exact hr

end DoublingHeap.Proofs.Truncation
