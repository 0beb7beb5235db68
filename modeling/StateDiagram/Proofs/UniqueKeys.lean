import Mathlib.Data.List.Nodup
import StateDiagram.Toml.Document

/-! No table of a well-formed text has a key twice, however deep it lies and however its keys are
brought together: by headers, by keys with points or within braces (`Toml.distinct_of_parse`). -/
namespace StateDiagram
namespace Toml

/-- No table in the value has a key twice. -/
inductive Value.Distinct : Value → Prop
  | string (text : String) : Distinct (.string text)
  | integer (number : Int) : Distinct (.integer number)
  | float (number : Binary64) : Distinct (.float number)
  | boolean (value : Bool) : Distinct (.boolean value)
  | moment : Distinct .moment
  | array {items : List Value} (hitems : ∀ v ∈ items, Distinct v) : Distinct (.array items)
  | table {entries : List (String × Value)} (hkeys : (entries.map (·.1)).Nodup)
      (hvalues : ∀ e ∈ entries, Distinct e.2) : Distinct (.table entries)

theorem Value.distinct_table_iff {entries : List (String × Value)} :
    (Value.table entries).Distinct ↔
      (entries.map (·.1)).Nodup ∧ ∀ e ∈ entries, e.2.Distinct := by
  constructor
  · rintro (_ | _ | _ | _ | _ | _ | ⟨hkeys, hvalues⟩)
    exact ⟨hkeys, hvalues⟩
  · exact fun h => .table h.1 h.2

inductive Item.Distinct : Item → Prop
  | value {v : Value} (h : v.Distinct) : Distinct (.value v)
  | table {origin : Origin} {entries : List (String × Item)} (hkeys : (entries.map (·.1)).Nodup)
      (hitems : ∀ e ∈ entries, Distinct e.2) : Distinct (.table origin entries)
  | tables {elements : List (List (String × Item))}
      (hkeys : ∀ entries ∈ elements, (entries.map (·.1)).Nodup)
      (hitems : ∀ entries ∈ elements, ∀ e ∈ entries, Distinct e.2) : Distinct (.tables elements)

section Lookup

variable {α : Type} {entries : List (String × α)} {key : String}

theorem mem_of_lookup_eq_some {a : α} (h : entries.lookup key = some a) : (key, a) ∈ entries := by
  obtain ⟨before, later, rfl, _⟩ := List.lookup_eq_some_iff.mp h
  simp

theorem isSome_lookup_iff : (entries.lookup key).isSome ↔ key ∈ entries.map (·.1) := by
  rw [List.lookup_isSome_iff, List.mem_map]
  exact exists_congr fun e => and_congr_right fun _ => by rw [beq_iff_eq, eq_comm]

theorem not_mem_keys_of_lookup_eq_none (h : entries.lookup key = none) :
    key ∉ entries.map (·.1) := by
  simp [← isSome_lookup_iff, h]

theorem lookup_eq_some_iff_mem (h : (entries.map (·.1)).Nodup) {a : α} :
    entries.lookup key = some a ↔ (key, a) ∈ entries := by
  refine ⟨mem_of_lookup_eq_some, fun hmem => ?_⟩
  induction entries with
  | nil => cases hmem
  | cons e entries ih =>
    rw [List.map_cons, List.nodup_cons] at h
    rcases List.mem_cons.mp hmem with rfl | hmem
    · simp
    · have hne : key ≠ e.1 := fun he => h.1 (he ▸ List.mem_map_of_mem hmem)
      rw [List.lookup_cons, beq_false_of_ne hne]
      exact ih h.2 hmem

end Lookup

namespace Entries

def Distinct (entries : Entries) : Prop :=
  (entries.map (·.1)).Nodup ∧ ∀ e ∈ entries, e.2.Distinct

variable {entries made : Entries} {key : String}

theorem distinct_nil : Distinct [] := ⟨List.nodup_nil, by simp⟩

theorem distinct_table_iff {origin : Origin} :
    Item.Distinct (.table origin entries) ↔ entries.Distinct := by
  constructor
  · rintro (_ | ⟨hkeys, hitems⟩)
    exact ⟨hkeys, hitems⟩
  · exact fun h => .table h.1 h.2

theorem distinct_tables_iff {elements : List Entries} :
    Item.Distinct (.tables elements) ↔ ∀ entries ∈ elements, Distinct entries := by
  constructor
  · rintro (_ | _ | ⟨hkeys, hitems⟩) entries h
    exact ⟨hkeys entries h, hitems entries h⟩
  · exact fun h => .tables (fun entries he => (h entries he).1) fun entries he => (h entries he).2

theorem Distinct.lookup (h : entries.Distinct) {item : Item}
    (hitem : List.lookup key entries = some item) : item.Distinct :=
  h.2 _ (mem_of_lookup_eq_some hitem)

theorem Distinct.concat (h : entries.Distinct) (hnew : key ∉ entries.map (·.1)) {item : Item}
    (hitem : item.Distinct) : Distinct (entries ++ [(key, item)]) := by
  refine ⟨?_, fun e he => ?_⟩
  · simpa using h.1.concat hnew
  · rcases List.mem_append.mp he with he | he
    · exact h.2 e he
    · obtain rfl := List.mem_singleton.mp he
      exact hitem

theorem map_fst_replace (entries : Entries) (key : String) (item : Item) :
    (entries.replace key item).map (·.1) = entries.map (·.1) := by
  rw [replace, List.map_map]
  apply List.map_congr_left
  intro e _
  by_cases h : e.1 = key <;> simp [h]

theorem Distinct.replace (h : entries.Distinct) {item : Item} (hitem : item.Distinct) :
    Distinct (entries.replace key item) := by
  refine ⟨?_, fun e he => ?_⟩
  · rw [map_fst_replace]
    exact h.1
  · obtain ⟨e', he', rfl⟩ := List.mem_map.mp he
    by_cases hkey : e'.1 = key
    · simpa [hkey] using hitem
    · simpa [hkey] using h.2 e' he'

theorem Distinct.remove (h : entries.Distinct) (key : String) :
    Distinct (entries.remove key) :=
  ⟨h.1.sublist (List.filter_sublist.map _), fun e he => h.2 e (List.mem_filter.mp he).1⟩

theorem not_mem_keys_remove (entries : Entries) (key : String) :
    key ∉ (entries.remove key).map (·.1) := by
  simp [remove]

/-- An edit at the end of a path makes no key appear twice if it does not where it is made. -/
theorem Distinct.editAt {dotted : Bool} {edit : Bool → Entries → Option Entries}
    (hedit : ∀ {isDotted : Bool} {entries made : Entries}, entries.Distinct →
      edit isDotted entries = some made → made.Distinct)
    {path : List String} {isDotted : Bool} (h : entries.Distinct)
    (hmade : editAt dotted edit path isDotted entries = some made) : made.Distinct := by
  induction path generalizing isDotted entries made with
  | nil => exact hedit h hmade
  | cons key path ih =>
    rw [Entries.editAt] at hmade
    split at hmade
    next hnone =>
      obtain ⟨inner, hinner, hmade⟩ := Option.bind_eq_some_iff.mp hmade
      cases hmade
      exact h.concat (not_mem_keys_of_lookup_eq_none hnone)
        (distinct_table_iff.mpr (ih distinct_nil hinner))
    next => cases hmade
    next origin inner hsome =>
      split at hmade
      · cases hmade
      · obtain ⟨changed, hchanged, hmade⟩ := Option.bind_eq_some_iff.mp hmade
        cases hmade
        have hinner := distinct_table_iff.mp (h.lookup hsome)
        exact h.replace (distinct_table_iff.mpr (ih hinner hchanged))
    next elements hsome =>
      split at hmade
      · cases hmade
      next inner hlast =>
        obtain ⟨changed, hchanged, hmade⟩ := Option.bind_eq_some_iff.mp hmade
        cases hmade
        have helements := distinct_tables_iff.mp (h.lookup hsome)
        have hinner := helements inner (List.mem_of_getLast? hlast)
        refine h.replace (distinct_tables_iff.mpr fun entries he => ?_)
        rcases List.mem_append.mp he with he | he
        · exact helements entries (List.dropLast_subset elements he)
        · obtain rfl := List.mem_singleton.mp he
          exact ih hinner hchanged

theorem Distinct.addKey (h : entries.Distinct) {path : KeyPath} {v : Value} (hv : v.Distinct)
    (hmade : entries.addKey path v = some made) : made.Distinct := by
  refine h.editAt (fun {isDotted inner made} hinner hedit => ?_) hmade
  split at hedit
  · cases hedit
  · split at hedit
    · cases hedit
    next hnew =>
      cases hedit
      rw [Option.not_isSome_iff_eq_none] at hnew
      exact hinner.concat (not_mem_keys_of_lookup_eq_none hnew) (.value hv)

theorem Distinct.addKeys (h : entries.Distinct) {keys : List (KeyPath × Value)}
    (hkeys : ∀ key ∈ keys, key.2.Distinct) (hmade : entries.addKeys keys = some made) :
    made.Distinct := by
  induction keys generalizing entries with
  | nil =>
    cases hmade
    exact h
  | cons key keys ih =>
    rw [Entries.addKeys, List.foldlM_cons] at hmade
    obtain ⟨added, hadded, hmade⟩ := Option.bind_eq_some_iff.mp hmade
    rw [List.forall_mem_cons] at hkeys
    exact ih (h.addKey hkeys.1 hadded) hkeys.2 hmade

theorem Distinct.addTable (h : entries.Distinct) {path : KeyPath} {keys : List (KeyPath × Value)}
    (hkeys : ∀ key ∈ keys, key.2.Distinct) (hmade : entries.addTable path keys = some made) :
    made.Distinct := by
  refine h.editAt (fun {_ parent made} hparent hedit => ?_) hmade
  have hadd {held : Entries} (hheld : held.Distinct)
      (hmade : ((held.addKeys keys).bind fun added =>
        some (parent.remove path.name ++ [(path.name, .table .header added)])) = some made) :
      made.Distinct := by
    obtain ⟨added, hadded, hmade⟩ := Option.bind_eq_some_iff.mp hmade
    cases hmade
    exact (hparent.remove path.name).concat (not_mem_keys_remove parent path.name)
      (distinct_table_iff.mpr (hheld.addKeys hkeys hadded))
  dsimp only at hedit
  split at hedit
  · exact hadd distinct_nil hedit
  next hsome => exact hadd (distinct_table_iff.mp (hparent.lookup hsome)) hedit
  · cases hedit

theorem Distinct.addElement (h : entries.Distinct) {path : KeyPath}
    {keys : List (KeyPath × Value)} (hkeys : ∀ key ∈ keys, key.2.Distinct)
    (hmade : entries.addElement path keys = some made) : made.Distinct := by
  refine h.editAt (fun {_ parent made} hparent hedit => ?_) hmade
  obtain ⟨added, hadded, hedit⟩ := Option.bind_eq_some_iff.mp hedit
  have hdistinct := distinct_nil.addKeys hkeys hadded
  split at hedit
  next hnone =>
    cases hedit
    refine hparent.concat (not_mem_keys_of_lookup_eq_none hnone) (distinct_tables_iff.mpr ?_)
    simpa using hdistinct
  next elements hsome =>
    cases hedit
    have helements := distinct_tables_iff.mp (hparent.lookup hsome)
    refine hparent.replace (distinct_tables_iff.mpr fun entries he => ?_)
    rcases List.mem_append.mp he with he | he
    · exact helements entries he
    · obtain rfl := List.mem_singleton.mp he
      exact hdistinct
  · cases hedit

end Entries

/-! ### Finished values -/

theorem entriesToValues_eq_map (entries : Entries) :
    entriesToValues entries = entries.map fun e => (e.1, e.2.toValue) := by
  induction entries with
  | nil => rfl
  | cons e entries ih => rw [entriesToValues, ih, List.map_cons]

theorem elementsToValues_eq_map (elements : List Entries) :
    elementsToValues elements = elements.map fun entries => .table (entriesToValues entries) := by
  induction elements with
  | nil => rfl
  | cons entries elements ih => rw [elementsToValues, ih, List.map_cons]

theorem map_fst_entriesToValues (entries : Entries) :
    (entriesToValues entries).map (·.1) = entries.map (·.1) := by
  simp [entriesToValues_eq_map]

theorem distinct_entriesToValues {entries : Entries} (hkeys : (entries.map (·.1)).Nodup)
    (hvalues : ∀ e ∈ entries, e.2.toValue.Distinct) :
    (Value.table (entriesToValues entries)).Distinct := by
  refine .table (by rwa [map_fst_entriesToValues]) fun e he => ?_
  rw [entriesToValues_eq_map] at he
  obtain ⟨e', he', rfl⟩ := List.mem_map.mp he
  exact hvalues e' he'

theorem Item.Distinct.toValue {item : Item} (h : item.Distinct) : item.toValue.Distinct := by
  induction h with
  | value h => exact h
  | table hkeys _ ih => exact distinct_entriesToValues hkeys ih
  | @tables elements hkeys _ ih =>
    refine .array fun v hv => ?_
    rw [elementsToValues_eq_map] at hv
    obtain ⟨entries, he, rfl⟩ := List.mem_map.mp hv
    exact distinct_entriesToValues (hkeys entries he) (ih entries he)

theorem Entries.Distinct.finished {entries : Entries} (h : entries.Distinct) :
    (Value.table (entriesToValues entries)).Distinct :=
  distinct_entriesToValues h.1 fun e he => (h.2 e he).toValue

/-! ### Reading -/

section Reading

variable {α : Type} {P : α → Prop}

def Round.Yields (P : α → Prop) {s : List Char} : Round α s → Prop
  | .fail | .done _ => True
  | .last a _ | .next a _ _ => P a

theorem Round.yields_ofRest {s : List Char} {a : α} (h : P a) (rest : List Char) :
    (Round.ofRest a rest : Round α s).Yields P := by
  rw [Round.ofRest]
  split
  · exact h
  · trivial

/-- What every round yields is what all of them yield. -/
theorem forall_mem_of_many {round : (s : List Char) → Round α s}
    (h : ∀ s, (round s).Yields P) {s rest : List Char} {as : List α}
    (hmany : many round s = some (as, rest)) : ∀ a ∈ as, P a := by
  induction s using many.induct round generalizing as rest with
  | case1 s hfail =>
    rw [many, hfail] at hmany
    cases hmany
  | case2 s rest hdone =>
    rw [many, hdone] at hmany
    cases hmany
    simp
  | case3 s a rest hlast =>
    have ha := h s
    rw [hlast] at ha
    rw [many, hlast] at hmany
    cases hmany
    exact List.forall_mem_singleton.mpr ha
  | case4 s a rest hlt hnext ih =>
    have ha := h s
    rw [hnext] at ha
    rw [many, hnext] at hmany
    obtain ⟨⟨as, rest⟩, hrest, hmany⟩ := Option.map_eq_some_iff.mp hmany
    cases hmany
    exact List.forall_mem_cons.mpr ⟨ha, ih hrest⟩

end Reading

/-- No value that is read has a key twice in a table. -/
def Reader.Distinct (value : Reader Value) : Prop :=
  ∀ ⦃s v rest⦄, value s = some (v, rest) → v.Distinct

variable {value : Reader Value}

theorem yields_elementRound (h : value.Distinct) (s : List Char) :
    (elementRound value s).Yields Value.Distinct := by
  rw [elementRound]
  split
  · trivial
  · split
    · trivial
    next hv =>
      split
      · exact Round.yields_ofRest (h hv) _
      · exact h hv
      · trivial

theorem distinct_of_keyValue (h : value.Distinct) {s rest : List Char} {pair : KeyPath × Value}
    (hpair : keyValue value s = some (pair, rest)) : pair.2.Distinct := by
  obtain ⟨⟨path, afterPath⟩, _, hpair⟩ := Option.bind_eq_some_iff.mp hpair
  obtain ⟨afterSign, _, hpair⟩ := Option.bind_eq_some_iff.mp hpair
  obtain ⟨⟨v, afterValue⟩, hv, hpair⟩ := Option.bind_eq_some_iff.mp hpair
  cases hpair
  exact h hv

theorem yields_pairRound (h : value.Distinct) (s : List Char) :
    (pairRound value s).Yields (·.2.Distinct) := by
  rw [pairRound]
  split
  · trivial
  next hpair =>
    have hv := distinct_of_keyValue h hpair
    split
    · exact Round.yields_ofRest (P := fun pair : KeyPath × Value => pair.2.Distinct) hv _
    · exact hv
    · trivial

theorem distinct_inlineTable (h : value.Distinct) : Reader.Distinct (inlineTable value) := by
  intro s v rest hv
  rw [inlineTable] at hv
  split at hv
  · cases hv
    exact .table List.nodup_nil (by simp)
  · obtain ⟨⟨pairs, afterPairs⟩, hpairs, hv⟩ := Option.bind_eq_some_iff.mp hv
    obtain ⟨entries, hentries, hv⟩ := Option.bind_eq_some_iff.mp hv
    cases hv
    have hkeys := forall_mem_of_many (yields_pairRound h) hpairs
    exact (Entries.distinct_nil.addKeys hkeys hentries).finished

theorem distinct_numberOrMoment : Reader.Distinct numberOrMoment := by
  intro s v rest hv
  rw [numberOrMoment] at hv
  split at hv
  · cases hv
    exact .moment
  · split at hv
    · cases hv
      exact .float _
    · obtain ⟨r, _, hr⟩ := Option.map_eq_some_iff.mp hv
      cases hr
      exact .integer _

theorem distinct_valueOver (h : value.Distinct) : Reader.Distinct (valueOver value) := by
  intro s v rest hv
  rw [valueOver.eq_def] at hv
  split at hv
  · obtain ⟨r, _, hr⟩ := Option.map_eq_some_iff.mp hv
    cases hr
    exact .string _
  · obtain ⟨r, _, hr⟩ := Option.map_eq_some_iff.mp hv
    cases hr
    exact .string _
  · obtain ⟨r, hitems, hr⟩ := Option.map_eq_some_iff.mp hv
    cases hr
    exact .array (forall_mem_of_many (yields_elementRound h) hitems)
  · exact distinct_inlineTable h hv
  · cases hv
    exact .boolean true
  · cases hv
    exact .boolean false
  · exact distinct_numberOrMoment hv

theorem distinct_value (levels : Nat) : Reader.Distinct (Toml.value levels) := by
  induction levels with
  | zero =>
    intro s v rest hv
    rw [Toml.value] at hv
    split at hv
    · cases hv
    · exact distinct_valueOver (fun _ _ _ h => by cases h) hv
  | succ levels ih => exact distinct_valueOver ih

/-! ### Lines -/

def Line.Distinct : Line → Prop
  | .key _ v => v.Distinct
  | _ => True

theorem distinct_of_line {s rest : List Char} {l : Line} (hl : line s = some (l, rest)) :
    l.Distinct := by
  rw [line] at hl
  split at hl
  · obtain ⟨⟨path, _⟩, _, hl⟩ := Option.bind_eq_some_iff.mp hl
    obtain ⟨_, _, hl⟩ := Option.bind_eq_some_iff.mp hl
    obtain ⟨_, _, hl⟩ := Option.bind_eq_some_iff.mp hl
    obtain ⟨_, _, hl⟩ := Option.bind_eq_some_iff.mp hl
    cases hl
    trivial
  · obtain ⟨⟨path, _⟩, _, hl⟩ := Option.bind_eq_some_iff.mp hl
    obtain ⟨_, _, hl⟩ := Option.bind_eq_some_iff.mp hl
    obtain ⟨_, _, hl⟩ := Option.bind_eq_some_iff.mp hl
    cases hl
    trivial
  · split at hl
    · cases hl
      trivial
    · obtain ⟨⟨pair, _⟩, hpair, hl⟩ := Option.bind_eq_some_iff.mp hl
      obtain ⟨_, _, hl⟩ := Option.bind_eq_some_iff.mp hl
      cases hl
      exact distinct_of_keyValue (distinct_value _) hpair

theorem yields_lineRound (s : List Char) : (lineRound s).Yields Line.Distinct := by
  rw [lineRound.eq_def]
  split
  · trivial
  · split
    next hl => exact Round.yields_ofRest (distinct_of_line hl) _
    · trivial

theorem distinct_sections {lines : List Line} (h : ∀ l ∈ lines, l.Distinct) :
    (∀ key ∈ (sections lines).1, key.2.Distinct) ∧
      ∀ part ∈ (sections lines).2, ∀ key ∈ part.keys, key.2.Distinct := by
  induction lines with
  | nil => simp [sections]
  | cons l lines ih =>
    rw [List.forall_mem_cons] at h
    have hrest := ih h.2
    cases l with
    | blank => exact hrest
    | key path v =>
      exact ⟨List.forall_mem_cons.mpr ⟨h.1, hrest.1⟩, hrest.2⟩
    | tableHeader path => simpa [sections] using hrest
    | elementHeader path => simpa [sections] using hrest

namespace Entries

variable {root made : Entries}

theorem Distinct.addSection (h : root.Distinct) {part : Section}
    (hkeys : ∀ key ∈ part.keys, key.2.Distinct) (hmade : Toml.addSection root part = some made) :
    made.Distinct := by
  rw [Toml.addSection] at hmade
  split at hmade
  · exact h.addTable hkeys hmade
  · exact h.addElement hkeys hmade
  · cases hmade

theorem Distinct.addSections (h : root.Distinct) {parts : List Section}
    (hkeys : ∀ part ∈ parts, ∀ key ∈ part.keys, key.2.Distinct)
    (hmade : parts.foldlM Toml.addSection root = some made) : made.Distinct := by
  induction parts generalizing root with
  | nil =>
    cases hmade
    exact h
  | cons part parts ih =>
    rw [List.foldlM_cons] at hmade
    obtain ⟨added, hadded, hmade⟩ := Option.bind_eq_some_iff.mp hmade
    rw [List.forall_mem_cons] at hkeys
    exact ih (h.addSection hkeys.1 hadded) hkeys.2 hmade

end Entries

theorem distinct_of_assemble {lines : List Line} (h : ∀ l ∈ lines, l.Distinct) {made : Entries}
    (hmade : assemble lines = some made) : made.Distinct := by
  obtain ⟨hkeys, hlater⟩ := distinct_sections h
  obtain ⟨root, hroot, hmade⟩ := Option.bind_eq_some_iff.mp hmade
  exact (Entries.distinct_nil.addKeys hkeys hroot).addSections hlater hmade

/-- No table of a well-formed text has a key twice. -/
theorem distinct_of_parse {text : String} {entries : List (String × Value)}
    (h : parse text = some entries) : (Value.table entries).Distinct := by
  obtain ⟨⟨lines, _⟩, hlines, h⟩ := Option.bind_eq_some_iff.mp h
  obtain ⟨made, hmade, h⟩ := Option.bind_eq_some_iff.mp h
  cases h
  exact (distinct_of_assemble (forall_mem_of_many yields_lineRound hlines) hmade).finished

end Toml
end StateDiagram
