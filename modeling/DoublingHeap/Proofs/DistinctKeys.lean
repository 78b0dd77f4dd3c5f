import Mathlib.Data.List.Nodup
import DoublingHeap.Toml.Document

/-! # Keys of TOML tables are distinct

In a document that is parsed no table has two values at one key, whatever the depth (`Proper`,
`proper_of_parse`). A table under construction takes in a key only if the key is new to it, and any
change in a nested table leaves the keys of the tables around it alone (`sound_alter`). Tables and
arrays that stand in one line are made by a parser from the values of its parts, and what holds of
all values of the parts holds of the whole (`Yields`). -/

namespace DoublingHeap.Proofs.DistinctKeys

open DoublingHeap.Toml

variable {α β : Type}

/-! ### Entries by key -/

/-- The keys of entries, in order. -/
def keys (entries : List (String × α)) : List String := entries.map Prod.fst

theorem mem_of_find? {key : String} {a : α} {entries : List (String × α)}
    (h : find? key entries = some a) : (key, a) ∈ entries := by
  induction entries with
  | nil => cases h
  | cons entry rest ih =>
    rw [find?] at h
    split at h
    · rename_i hkey
      cases h
      exact List.mem_cons.mpr (.inl (Prod.ext hkey.symm rfl))
    · exact List.mem_cons_of_mem _ (ih h)

theorem find?_eq_none_iff {key : String} {entries : List (String × α)} :
    find? key entries = none ↔ key ∉ keys entries := by
  induction entries with
  | nil => simp [find?, keys]
  | cons entry rest ih =>
    rw [find?, keys, List.map_cons, List.mem_cons, not_or]
    split
    · rename_i hkey
      exact ⟨nofun, fun h => absurd hkey.symm h.1⟩
    · rename_i hkey
      exact ⟨fun h => ⟨Ne.symm hkey, ih.mp h⟩, fun h => ih.mpr h.2⟩

/-- **Where keys are distinct** the value of a key is the one that stands with it. -/
theorem find?_eq_some_iff {key : String} {a : α} {entries : List (String × α)}
    (hkeys : (keys entries).Nodup) : find? key entries = some a ↔ (key, a) ∈ entries := by
  refine ⟨mem_of_find?, fun hmem => ?_⟩
  induction entries with
  | nil => cases hmem
  | cons entry rest ih =>
    obtain ⟨hnew, hrest⟩ := List.nodup_cons.mp hkeys
    rw [find?]
    rcases List.mem_cons.mp hmem with rfl | hmem
    · rw [if_pos rfl]
    · have hne : entry.1 ≠ key := by
        rintro rfl
        exact hnew (List.mem_map.mpr ⟨_, hmem, rfl⟩)
      rw [if_neg hne]
      exact ih hrest hmem

theorem keys_replace (key : String) (a : α) (entries : List (String × α)) :
    keys (replace key a entries) = keys entries := by
  induction entries with
  | nil => rfl
  | cons entry rest ih =>
    rw [replace]
    split
    · rfl
    · exact congrArg (entry.1 :: ·) ih

theorem mem_replace {key : String} {a : α} {entries : List (String × α)} {entry : String × α}
    (h : entry ∈ replace key a entries) : entry.2 = a ∨ entry ∈ entries := by
  induction entries with
  | nil => cases h
  | cons first rest ih =>
    rw [replace] at h
    split at h <;> rcases List.mem_cons.mp h with rfl | h
    · exact .inl rfl
    · exact .inr (List.mem_cons_of_mem _ h)
    · exact .inr (List.mem_cons_self ..)
    · exact (ih h).imp_right (List.mem_cons_of_mem _)

/-! ### Values and nodes -/

/-- **A value without a repeated key**, at any depth. -/
inductive Proper : Value → Prop
  | integer (n : Int) : Proper (.integer n)
  | float (literal : String) : Proper (.float literal)
  | boolean (b : Bool) : Proper (.boolean b)
  | text (s : String) : Proper (.text s)
  | moment (literal : String) : Proper (.moment literal)
  | array {items : List Value} (hitems : ∀ v ∈ items, Proper v) : Proper (.array items)
  | table {entries : List (String × Value)} (hkeys : (keys entries).Nodup)
      (hvalues : ∀ entry ∈ entries, Proper entry.2) : Proper (.table entries)

/-- **A node without a repeated key**, at any depth. -/
inductive Sound : Node → Prop
  | leaf {v : Value} (hv : Proper v) : Sound (.leaf v)
  | table {origin : Origin} {entries : Entries} (hkeys : (keys entries).Nodup)
      (hnodes : ∀ entry ∈ entries, Sound entry.2) : Sound (.table origin entries)
  | tables {last : Entries} {before : List Entries}
      (hkeys : ∀ entries ∈ last :: before, (keys entries).Nodup)
      (hnodes : ∀ entries ∈ last :: before, ∀ entry ∈ entries, Sound entry.2) :
      Sound (.tables last before)

/-- A table under construction without a repeated key, at any depth. -/
structure SoundEntries (entries : Entries) : Prop where
  keys : (keys entries).Nodup
  nodes : ∀ entry ∈ entries, Sound entry.2

theorem sound_tables_iff {last : Entries} {before : List Entries} :
    Sound (.tables last before) ↔ ∀ entries ∈ last :: before, SoundEntries entries := by
  constructor
  · intro h entries hmem
    cases h with
    | tables hkeys hnodes => exact ⟨hkeys entries hmem, hnodes entries hmem⟩
  · exact fun h => .tables (fun entries hmem => (h entries hmem).keys)
      fun entries hmem => (h entries hmem).nodes

theorem soundEntries_nil : SoundEntries [] := ⟨List.nodup_nil, nofun⟩

theorem SoundEntries.table {entries : Entries} (h : SoundEntries entries) (origin : Origin) :
    Sound (.table origin entries) := .table h.keys h.nodes

theorem SoundEntries.append {entries : Entries} (h : SoundEntries entries) {key : String}
    {node : Node} (hnew : find? key entries = none) (hnode : Sound node) :
    SoundEntries (entries ++ [(key, node)]) := by
  refine ⟨?_, fun entry hmem => ?_⟩
  · unfold DistinctKeys.keys
    rw [List.map_append, List.nodup_append]
    refine ⟨h.keys, List.nodup_singleton _, fun a ha b hb => ?_⟩
    cases List.mem_singleton.mp hb
    rintro rfl
    exact find?_eq_none_iff.mp hnew ha
  · rcases List.mem_append.mp hmem with hmem | hmem
    · exact h.nodes entry hmem
    · cases List.mem_singleton.mp hmem
      exact hnode

theorem SoundEntries.replace {entries : Entries} (h : SoundEntries entries) (key : String)
    {node : Node} (hnode : Sound node) : SoundEntries (replace key node entries) := by
  refine ⟨?_, fun entry hmem => ?_⟩
  · rw [keys_replace]
    exact h.keys
  · rcases mem_replace hmem with heq | hmem
    · rw [heq]
      exact hnode
    · exact h.nodes entry hmem

theorem SoundEntries.node {entries : Entries} (h : SoundEntries entries) {key : String}
    {node : Node} (hfind : find? key entries = some node) : Sound node :=
  h.nodes _ (mem_of_find? hfind)

theorem values_eq_map (entries : Entries) :
    Node.values entries = entries.map fun entry => (entry.1, entry.2.toValue) := by
  induction entries with
  | nil => rfl
  | cons entry rest ih => rw [Node.values, ih, List.map_cons]

theorem keys_values (entries : Entries) : keys (Node.values entries) = keys entries := by
  unfold keys
  rw [values_eq_map, List.map_map]
  rfl

theorem mem_elements {before : List Entries} {after : List Value} {v : Value}
    (h : v ∈ Node.elements before after) :
    v ∈ after ∨ ∃ entries ∈ before, v = .table (Node.values entries) := by
  induction before generalizing after with
  | nil => exact .inl h
  | cons entries before ih =>
    rw [Node.elements] at h
    rcases ih h with h | ⟨entries', hmem, heq⟩
    · rcases List.mem_cons.mp h with heq | h
      · exact .inr ⟨entries, List.mem_cons_self .., heq⟩
      · exact .inl h
    · exact .inr ⟨entries', List.mem_cons_of_mem _ hmem, heq⟩

theorem proper_table_values {entries : Entries} (hkeys : (keys entries).Nodup)
    (hvalues : ∀ entry ∈ entries, Proper entry.2.toValue) :
    Proper (.table (Node.values entries)) := by
  refine .table (by rwa [keys_values]) fun entry hmem => ?_
  rw [values_eq_map] at hmem
  obtain ⟨entry', hmem', rfl⟩ := List.mem_map.mp hmem
  exact hvalues entry' hmem'

theorem Sound.toValue {node : Node} (h : Sound node) : Proper node.toValue := by
  induction h with
  | leaf hv =>
    rw [Node.toValue]
    exact hv
  | table hkeys _ ih =>
    rw [Node.toValue]
    exact proper_table_values hkeys ih
  | @tables last _ hkeys _ ih =>
    rw [Node.toValue]
    refine .array fun v hmem => ?_
    rcases mem_elements hmem with hlast | ⟨entries, hbefore, rfl⟩
    · cases List.mem_singleton.mp hlast
      exact proper_table_values (hkeys _ (List.mem_cons_self ..)) (ih _ (List.mem_cons_self ..))
    · have hin := List.mem_cons_of_mem last hbefore
      exact proper_table_values (hkeys _ hin) (ih _ hin)

theorem SoundEntries.proper {entries : Entries} (h : SoundEntries entries) :
    Proper (.table (Node.values entries)) :=
  proper_table_values h.keys fun entry hmem => (h.nodes entry hmem).toValue

/-! ### Building tables -/

section Building

variable {f : Origin → Entries → Option Entries}

/-- **A change at the end of a path** brings no key in twice, if it brings none in twice there. -/
theorem sound_alter (made : Origin) (avoidHeaders : Bool)
    (hf : ∀ origin entries entries', SoundEntries entries → f origin entries = some entries' →
      SoundEntries entries') (path : List String) :
    ∀ origin entries entries', SoundEntries entries →
      Entries.alter made avoidHeaders f path origin entries = some entries' →
      SoundEntries entries' := by
  induction path with
  | nil => exact hf
  | cons key rest ih =>
    intro origin entries entries' hsound halter
    rw [Entries.alter] at halter
    cases hfind : find? key entries with
    | none =>
      simp only [hfind, Option.bind_eq_bind, Option.bind_eq_some_iff] at halter
      obtain ⟨inner, hinner, heq⟩ := halter
      cases heq
      exact hsound.append hfind ((ih _ _ _ soundEntries_nil hinner).table _)
    | some node =>
      have hnode := hsound.node hfind
      cases node with
      | leaf v => simp only [hfind, reduceCtorEq] at halter
      | table origin' inner =>
        simp only [hfind, Option.bind_eq_bind] at halter
        split at halter
        · cases halter
        · obtain ⟨inner', hinner, heq⟩ := Option.bind_eq_some_iff.mp halter
          cases heq
          cases hnode with
          | table hkeys hnodes =>
            exact hsound.replace key ((ih _ _ _ ⟨hkeys, hnodes⟩ hinner).table _)
      | tables last before =>
        simp only [hfind, Option.bind_eq_bind, Option.bind_eq_some_iff] at halter
        obtain ⟨last', hlast, heq⟩ := halter
        cases heq
        have hall := sound_tables_iff.mp hnode
        have hlast' := ih _ _ _ (hall _ (List.mem_cons_self ..)) hlast
        refine hsound.replace key (sound_tables_iff.mpr fun es hmem => ?_)
        rcases List.mem_cons.mp hmem with rfl | hmem
        · exact hlast'
        · exact hall es (List.mem_cons_of_mem _ hmem)

variable {path : List String} {key : String} {v : Value} {entries entries' : Entries}

theorem sound_assign {origin : Origin} (hv : Proper v) (hsound : SoundEntries entries)
    (hassign : Entries.assign path key v origin entries = some entries') :
    SoundEntries entries' := by
  refine sound_alter .dotted true (fun o es es' hes hadd => ?_) path _ _ _ hsound hassign
  split at hadd
  · unfold Entries.addValue at hadd
    split at hadd
    · cases hadd
    · rename_i hnew
      cases hadd
      exact hes.append hnew (.leaf hv)
  · cases hadd

theorem sound_openTable (hsound : SoundEntries entries)
    (hopen : Entries.openTable path key entries = some entries') : SoundEntries entries' := by
  refine sound_alter .passage false (fun o es es' hes hadd => ?_) path _ _ _ hsound hopen
  split at hadd
  · rename_i hnew
    cases hadd
    exact hes.append hnew (soundEntries_nil.table _)
  · rename_i inner hfind
    cases hadd
    cases hes.node hfind with
    | table hkeys hnodes => exact hes.replace key (.table hkeys hnodes)
  · cases hadd

theorem sound_openElement (hsound : SoundEntries entries)
    (hopen : Entries.openElement path key entries = some entries') : SoundEntries entries' := by
  refine sound_alter .passage false (fun o es es' hes hadd => ?_) path _ _ _ hsound hopen
  split at hadd
  · rename_i hnew
    cases hadd
    refine hes.append hnew (sound_tables_iff.mpr fun es hmem => ?_)
    cases List.mem_singleton.mp hmem
    exact soundEntries_nil
  · rename_i last before hfind
    cases hadd
    refine hes.replace key (sound_tables_iff.mpr fun es hmem => ?_)
    rcases List.mem_cons.mp hmem with rfl | hmem
    · exact soundEntries_nil
    · exact sound_tables_iff.mp (hes.node hfind) es hmem
  · cases hadd

theorem sound_assignIn {table : List String} (hv : Proper v) (hsound : SoundEntries entries)
    (hassign : Entries.assignIn table path key v entries = some entries') :
    SoundEntries entries' :=
  sound_alter .passage false (fun _ _ _ hes hadd => sound_assign hv hes hadd) table _ _ _ hsound
    hassign

theorem sound_inlineEntries {assignments : List (List String × String × Value)}
    (hvalues : ∀ a ∈ assignments, Proper a.2.2) (hsound : SoundEntries entries)
    (hmade : inlineEntries assignments entries = some entries') : SoundEntries entries' := by
  induction assignments generalizing entries with
  | nil =>
    cases hmade
    exact hsound
  | cons a rest ih =>
    rw [inlineEntries] at hmade
    obtain ⟨next, hassign, hrest⟩ := Option.bind_eq_some_iff.mp hmade
    obtain ⟨ha, hvalues⟩ := List.forall_mem_cons.mp hvalues
    exact ih hvalues (sound_assign ha hsound hassign) hrest

/-- A line whose value, if it has one, is proper. -/
def ProperLine : Line → Prop
  | .assignment _ _ v => Proper v
  | .blank | .table .. | .element .. => True

theorem sound_build {ls : List Line} (hlines : ∀ l ∈ ls, ProperLine l) {current : List String}
    (hsound : SoundEntries entries) (hbuild : Document.build ls current entries = some entries') :
    SoundEntries entries' := by
  induction ls generalizing current entries with
  | nil =>
    cases hbuild
    exact hsound
  | cons l rest ih =>
    obtain ⟨hl, hrest⟩ := List.forall_mem_cons.mp hlines
    cases l with
    | blank => exact ih hrest hsound hbuild
    | table path key =>
      obtain ⟨next, hopen, hbuild⟩ := Option.bind_eq_some_iff.mp hbuild
      exact ih hrest (sound_openTable hsound hopen) hbuild
    | element path key =>
      obtain ⟨next, hopen, hbuild⟩ := Option.bind_eq_some_iff.mp hbuild
      exact ih hrest (sound_openElement hsound hopen) hbuild
    | assignment path key v =>
      obtain ⟨next, hassign, hbuild⟩ := Option.bind_eq_some_iff.mp hbuild
      exact ih hrest (sound_assignIn hl hsound hassign) hbuild

end Building

/-! ### Parsers -/

/-- All values that a parser can have are of a kind. -/
def Yields (p : Parser α) (P : α → Prop) : Prop := ∀ s a rest, p s = some (a, rest) → P a

section Yields

variable {p q : Parser α} {P : α → Prop} {Q : β → Prop}

theorem yields_true (p : Parser α) : Yields p fun _ => True := fun _ _ _ _ => trivial

theorem yields_pure {a : α} (ha : P a) : Yields (pure a) P := by
  intro s b rest h
  cases h
  exact ha

theorem yields_failure : Yields (failure : Parser α) P := nofun

theorem Yields.bind {f : α → Parser β} (hp : Yields p P) (hf : ∀ a, P a → Yields (f a) Q) :
    Yields (p >>= f) Q := by
  intro s b rest h
  obtain ⟨⟨a, s'⟩, ha, hb⟩ := Option.bind_eq_some_iff.mp h
  exact hf a (hp s a s' ha) s' b rest hb

theorem Yields.after {f : α → Parser β} (hf : ∀ a, Yields (f a) Q) : Yields (p >>= f) Q :=
  (yields_true p).bind fun a _ => hf a

theorem Yields.orElse (hp : Yields p P) (hq : Yields q P) : Yields (p <|> q) P := by
  intro s a rest h
  change (p s <|> q s) = some (a, rest) at h
  cases hps : p s with
  | none =>
    rw [hps] at h
    exact hq s a rest h
  | some r =>
    rw [hps] at h
    cases h
    exact hp s a rest hps

theorem Yields.map {f : α → β} (hf : ∀ a, Q (f a)) : Yields (f <$> p) Q := by
  intro s b rest h
  obtain ⟨⟨a, s'⟩, -, hb⟩ := Option.bind_eq_some_iff.mp h
  cases hb
  exact hf a

theorem Yields.rounds (hp : Yields p P) (left : List Char) :
    Yields (Parser.rounds p left) fun as => ∀ a ∈ as, P a := by
  induction left with
  | nil =>
    intro s as rest h
    cases h
    exact nofun
  | cons _ left ih =>
    intro s as rest h
    rw [Parser.rounds] at h
    cases hps : p s with
    | none =>
      rw [hps] at h
      cases h
      exact nofun
    | some r =>
      obtain ⟨a, s'⟩ := r
      simp only [hps, Option.map_eq_some_iff] at h
      obtain ⟨⟨more, rest'⟩, hmore, heq⟩ := h
      cases heq
      exact List.forall_mem_cons.mpr ⟨hp s a s' hps, ih s' more rest' hmore⟩

theorem Yields.repeated (hp : Yields p P) : Yields (Parser.repeated p) fun as => ∀ a ∈ as, P a :=
  fun s as rest h => hp.rounds s s as rest h

theorem Yields.separated {separator : Parser β} (hp : Yields p P) :
    Yields (Parser.separated p separator) fun as => ∀ a ∈ as, P a := by
  refine .orElse ?_ (yields_pure nofun)
  refine hp.bind fun first hfirst => ?_
  refine (Yields.repeated (.after fun _ => hp)).bind fun rest hrest => ?_
  exact yields_pure (List.forall_mem_cons.mpr ⟨hfirst, hrest⟩)

end Yields

theorem yields_scalar : Yields scalar Proper := by
  refine .orElse (.map Proper.text) (.orElse ?_ (.orElse ?_ ?_))
  · exact .after fun _ => yields_pure (Proper.boolean true)
  · exact .after fun _ => yields_pure (Proper.boolean false)
  · exact .orElse (.map Proper.moment) (.orElse (.map Proper.float) (.map Proper.integer))

theorem yields_array {value : Parser Value} (hvalue : Yields value Proper) :
    Yields (array value) Proper := by
  have hitem : Yields (do Blank.gaps; let v ← value; Blank.gaps; return v) Proper :=
    .after fun _ => hvalue.bind fun _ hv => .after fun _ => yields_pure hv
  refine .after fun _ => hitem.separated.bind fun items hitems => ?_
  have hclose : Yields (do Blank.gaps; let _ ← Parser.char ']'; return .array items) Proper :=
    .after fun _ => .after fun _ => yields_pure (.array hitems)
  split
  · exact .after fun _ => hclose
  · exact hclose

theorem yields_assignment {value : Parser Value} (hvalue : Yields value Proper) :
    Yields (assignment value) fun a => Proper a.2.2 :=
  .after fun _ => .after fun _ => .after fun _ => hvalue.bind fun _ hv => yields_pure hv

theorem yields_inlineTable {value : Parser Value} (hvalue : Yields value Proper) :
    Yields (inlineTable value) Proper := by
  have hassignment : Yields (do let a ← assignment value; Blank.blanks; return a)
      fun a => Proper a.2.2 :=
    (yields_assignment hvalue).bind fun _ ha => .after fun _ => yields_pure ha
  refine .after fun _ => hassignment.separated.bind fun assignments hall => ?_
  refine .after fun _ => .after fun _ => ?_
  split
  · rename_i entries hmade
    exact yields_pure (sound_inlineEntries hall soundEntries_nil hmade).proper
  · exact yields_failure

/-- **A value that is parsed** is proper, however deep it may be. -/
theorem yields_value (depth : Nat) : Yields (value depth) Proper := by
  induction depth with
  | zero => exact yields_scalar
  | succ depth ih => exact .orElse yields_scalar (.orElse (yields_array ih) (yields_inlineTable ih))

theorem yields_line : Yields line ProperLine := by
  refine .after fun _ => .orElse ?_ (.orElse ?_ (.orElse ?_ (.orElse ?_ ?_)))
  · exact .after fun _ => .after fun _ => yields_pure trivial
  · exact .after fun _ => .after fun _ => yields_pure trivial
  · exact .after fun _ => .after fun _ => .after fun _ => .after fun _ => yields_pure trivial
  · exact .after fun _ => .after fun _ => .after fun _ => .after fun _ => yields_pure trivial
  · exact (yields_assignment (yields_value _)).bind fun _ ha => .after fun _ => yields_pure ha

/-- **The keys of a document are distinct**, in every table of it. -/
theorem proper_of_parse {text : String} {document : List (String × Value)}
    (hparse : parse text = some document) : Proper (.table document) := by
  obtain ⟨ls, hlines, hdocument⟩ := Option.bind_eq_some_iff.mp hparse
  obtain ⟨entries, hbuild, rfl⟩ := Option.map_eq_some_iff.mp hdocument
  have hyields : Yields Document.lines fun ls => ∀ l ∈ ls, ProperLine l :=
    .after fun _ => yields_line.repeated.bind fun _ hls => .after fun _ => yields_pure hls
  have hproper : ∀ l ∈ ls, ProperLine l := by
    unfold Parser.complete at hlines
    split at hlines
    · rename_i ls' hrun
      cases hlines
      exact hyields _ _ _ hrun
    · cases hlines
  exact (sound_build hproper soundEntries_nil hbuild).proper

end DoublingHeap.Proofs.DistinctKeys
