import Mathlib
import StateDiagram.Drawing
import StateDiagram.Proofs.Compression
import StateDiagram.Proofs.Reading

/-! Labels that are joined can be told apart. A byte in quotes may be a bar, a colon or a quote
itself, so a joined label is read from the left: the label of a byte ends where its form says, and
only then comes a colon, a bar or the end. Hence a joined label of bytes, or of codes, tells the
whole list (`Label.join_tells_keys`). -/
namespace StateDiagram
namespace Label

def readByte? : List Char → Option (UInt8 × List Char)
  | '\'' :: '\\' :: 'n' :: '\'' :: s => some (0x0a, s)
  | '\'' :: '\\' :: 'r' :: '\'' :: s => some (0x0d, s)
  | '\'' :: '\\' :: 't' :: '\'' :: s => some (0x09, s)
  | '\'' :: c :: '\'' :: s => some (UInt8.ofNat c.toNat, s)
  | '0' :: 'x' :: high :: low :: s => (hexByte? high low).map fun b => (b, s)
  | _ => none

theorem readByte?_byte_append (b : UInt8) (s : List Char) :
    readByte? ((byte b).toList ++ s) = some (b, s) := by
  by_cases hn : b = 0x0a
  · subst hn
    rfl
  by_cases hr : b = 0x0d
  · subst hr
    rfl
  by_cases ht : b = 0x09
  · subst ht
    rfl
  rw [byte, if_neg hn, if_neg hr, if_neg ht]
  split
  · rename_i h
    have hb := UInt8.le_iff_toNat_le.mp h.2
    have hchar : (Char.ofNat b.toNat).toNat = b.toNat :=
      toNat_ofNat_ascii (Nat.lt_of_le_of_lt hb (by decide))
    simp [readByte?, toString, hchar]
  · simp [readByte?, hexPair, hexByte?_hexPair]

def readRange? (s : List Char) : Option ((UInt8 × UInt8) × List Char) := do
  let (first, s) ← readByte? s
  match s with
  | ':' :: s =>
    let (last, s) ← readByte? s
    return ((first, last), s)
  | s => return ((first, first), s)

/-- What can stand behind a label that was joined with others. -/
def Ends (s : List Char) : Prop := s = [] ∨ ∃ t, s = '|' :: t

theorem readRange?_range_append (first last : UInt8) {s : List Char} (hs : Ends s) :
    readRange? ((range first last).toList ++ s) = some ((first, last), s) := by
  unfold range
  split
  · rename_i h
    subst h
    rw [readRange?, readByte?_byte_append]
    rcases hs with rfl | ⟨t, rfl⟩ <;> rfl
  · simp [readRange?, readByte?_byte_append]

section Joining

variable {α : Type} {label : α → String}

/-- Labels that are not mistaken for each other in front of a bar or at the end. -/
structure Delimited (label : α → String) : Prop where
  ne_nil : ∀ a, (label a).toList ≠ []
  inj : ∀ a b s t, Ends s → Ends t → (label a).toList ++ s = (label b).toList ++ t → a = b ∧ s = t

theorem Delimited.of_not_mem (hne : ∀ a, (label a).toList ≠ [])
    (hbar : ∀ a, '|' ∉ (label a).toList) (hinj : Function.Injective label) : Delimited label where
  ne_nil := hne
  inj := by
    intro a b s t hs ht h
    have htake (a : α) {s : List Char} (hs : Ends s) :
        ((label a).toList ++ s).takeWhile (· ≠ '|') = (label a).toList := by
      have hall : ∀ c ∈ (label a).toList, decide (c ≠ '|') = true :=
        fun c hc => decide_eq_true fun e => hbar a (e ▸ hc)
      rw [List.takeWhile_append_of_pos hall]
      rcases hs with rfl | ⟨t, rfl⟩ <;> simp
    have hlabel : (label a).toList = (label b).toList := by
      rw [← htake a hs, h, htake b ht]
    rw [hlabel] at h
    exact ⟨hinj (String.toList_inj.mp hlabel), List.append_cancel_left h⟩

theorem toList_join_cons (l : String) (ls : List String) :
    (join (l :: ls)).toList = l.toList ++ ls.flatMap fun l => '|' :: l.toList := by
  induction ls generalizing l with
  | nil => simp [join]
  | cons l' ls ih =>
    have h := ih l'
    simp only [join, separator] at h ⊢
    simp [String.intercalate_cons_cons, h]

theorem ends_flatMap (ls : List α) : Ends (ls.flatMap fun a => '|' :: (label a).toList) := by
  cases ls with
  | nil => exact .inl rfl
  | cons a ls => exact .inr ⟨_, rfl⟩

theorem Delimited.eq_of_flatMap (h : Delimited label) {as bs : List α}
    (hlabels : (as.flatMap fun a => '|' :: (label a).toList) =
      bs.flatMap fun a => '|' :: (label a).toList) : as = bs := by
  induction as generalizing bs with
  | nil =>
    cases bs with
    | nil => rfl
    | cons b bs => cases hlabels
  | cons a as ih =>
    cases bs with
    | nil => cases hlabels
    | cons b bs =>
      simp only [List.flatMap_cons, List.cons_append, List.cons.injEq, true_and] at hlabels
      obtain ⟨rfl, hrest⟩ := h.inj a b _ _ (ends_flatMap as) (ends_flatMap bs) hlabels
      rw [ih hrest]

theorem Delimited.join_injective (h : Delimited label) {as bs : List α}
    (hjoin : join (as.map label) = join (bs.map label)) : as = bs := by
  have hne (a : α) (as : List α) : (join ((a :: as).map label)).toList ≠ [] := by
    rw [List.map_cons, toList_join_cons]
    exact fun hnil => h.ne_nil a (List.append_eq_nil_iff.mp hnil).1
  have hlist := congrArg String.toList hjoin
  cases as with
  | nil =>
    cases bs with
    | nil => rfl
    | cons b bs => exact absurd hlist.symm (hne b bs)
  | cons a as =>
    cases bs with
    | nil => exact absurd hlist (hne a as)
    | cons b bs =>
      simp only [List.map_cons, toList_join_cons, List.flatMap_map] at hlist
      obtain ⟨rfl, hrest⟩ := h.inj a b _ _ (ends_flatMap as) (ends_flatMap bs) hlist
      rw [h.eq_of_flatMap hrest]

end Joining

theorem delimited_byteRange : Delimited byteRange where
  ne_nil r := by
    have hread := readRange?_range_append r.first r.last (.inl rfl)
    intro hnil
    rw [byteRange] at hnil
    rw [hnil] at hread
    cases hread
  inj := by
    intro r r' s t hs ht h
    have hread := congrArg readRange? h
    rw [byteRange, byteRange, readRange?_range_append _ _ hs, readRange?_range_append _ _ ht] at hread
    obtain ⟨hbounds, rfl⟩ := Prod.mk.inj (Option.some.inj hread)
    obtain ⟨hfirst, hlast⟩ := Prod.mk.inj hbounds
    cases r
    cases r'
    simp_all

theorem toList_code (c : Int32) : (code c).toList = "code=".toList ++ (Int.repr c.toInt).toList := by
  simp [code, toString]

theorem isDigit_of_mem_repr {n : Nat} {c : Char} (h : c ∈ (Nat.repr n).toList) :
    c.isDigit = true := by
  rw [Nat.repr_eq_ofList_toDigits, String.toList_ofList] at h
  exact Nat.isDigit_of_mem_toDigits (by decide) (by decide) h

theorem bar_not_mem_repr (i : Int) : '|' ∉ (Int.repr i).toList := by
  have hnat (n : Nat) : '|' ∉ (Nat.repr n).toList := by
    intro h
    have hdigit := isDigit_of_mem_repr h
    revert hdigit
    decide
  cases i with
  | ofNat n => exact hnat n
  | negSucc n => simpa [Int.repr] using hnat (n + 1)

theorem delimited_code : Delimited code := by
  apply Delimited.of_not_mem
  · intro c
    simp [toList_code]
  · intro c
    simpa [toList_code] using bar_not_mem_repr c.toInt
  · intro c c' h
    have hlist := congrArg String.toList h
    rw [toList_code, toList_code] at hlist
    have hrepr := String.toList_inj.mp (List.append_cancel_left hlist)
    exact Int32.toInt_inj.mp (Int.repr_inj.mp hrepr)

theorem join_byteRange_eq_iff {keys keys' : List UInt8} :
    join ((ByteRange.compress keys).map byteRange) =
      join ((ByteRange.compress keys').map byteRange) ↔ keys = keys' := by
  constructor
  · intro h
    have hranges := delimited_byteRange.join_injective h
    rw [← ByteRange.flatMap_bytes_compress keys, hranges, ByteRange.flatMap_bytes_compress]
  · rintro rfl
    rfl

theorem join_code_eq_iff {codes codes' : List Int32} :
    join (codes.map code) = join (codes'.map code) ↔ codes = codes' := by
  constructor
  · exact delimited_code.join_injective
  · rintro rfl
    rfl

end Label

namespace Statement

theorem texts_injective : Function.Injective texts := by
  intro s t h
  rcases s with ⟨source, target, label, color⟩
  rcases t with ⟨source', target', label', color'⟩
  simp only [texts, Prod.mk.injEq] at h
  obtain ⟨rfl, rfl, rfl, hname⟩ := h
  obtain rfl : color = color' := by
    cases color <;> cases color' <;> simp_all [Color.name]
  rfl

/-- The lines of statements tell the statements. -/
theorem eq_of_join_render {ss ss' : List Statement}
    (h : String.join (ss.map render) = String.join (ss'.map render)) : ss = ss' := by
  have hread (ss : List Statement) :
      Reading.readMany Reading.readEdge (String.join (ss.map render)).toList =
        (ss.map texts, []) := by
    have hend : Reading.readEdge [] = none := by decide
    have hmany := Reading.readMany_flatMap_append texts ss
      (fun s _ rest => Reading.readEdge_render_append s rest)
      (fun s _ => by simp [Reading.toList_render_edge]) hend
    simpa [List.flatMap_map] using hmany
  have htexts := hread ss
  rw [h, hread ss'] at htexts
  exact (List.map_injective_iff.mpr texts_injective (Prod.mk.inj htexts).1).symm

def ofLabels (source target : String) (color : Color) (labels : List String) : List Statement :=
  if labels = [] then [] else [⟨source, target, Label.join labels, color⟩]

theorem filter_ofLabels (source target : String) (color color' : Color) (labels : List String) :
    (ofLabels source target color labels).filter (·.color == color') =
      if color = color' then ofLabels source target color labels else [] := by
  unfold ofLabels
  by_cases hl : labels = [] <;> by_cases hc : color = color' <;> simp [hl, hc]

theorem join_eq_of_ofLabels {source target : String} {color : Color} {ls ls' : List String}
    (h : ofLabels source target color ls = ofLabels source target color ls') :
    Label.join ls = Label.join ls' := by
  unfold ofLabels at h
  by_cases hl : ls = [] <;> by_cases hl' : ls' = []
  · rw [hl, hl']
  · simp [hl, hl'] at h
  · simp [hl, hl'] at h
  · simpa [hl, hl'] using h

end Statement

namespace KeyShapes

theorem statements_eq (s : KeyShapes) (source target : String) (kind : EdgeKind) :
    s.statements source target kind =
      Statement.ofLabels source target kind.color
          ((ByteRange.compress s.singles).map Label.byteRange ++ s.sequences.map Label.sequence) ++
        Statement.ofLabels source target EdgeKind.invoke.color (s.codes.map Label.code) := rfl

/-- The two statements differ in color, so the byte keys and the codes are told apart first. -/
theorem eq_of_statements {singles singles' : List UInt8} {codes codes' : List Int32}
    {source target : String} {stays : Bool}
    (h : (⟨singles, [], codes⟩ : KeyShapes).statements source target (.ofStays stays) =
      (⟨singles', [], codes'⟩ : KeyShapes).statements source target (.ofStays stays)) :
    singles = singles' ∧ codes = codes' := by
  have hcolor : (EdgeKind.ofStays stays).color ≠ EdgeKind.invoke.color := by
    cases stays <;> decide
  simp only [statements_eq, List.map_nil, List.append_nil] at h
  have hbytes := congrArg (List.filter (·.color == (EdgeKind.ofStays stays).color)) h
  have hcodes := congrArg (List.filter (·.color == EdgeKind.invoke.color)) h
  simp only [List.filter_append, Statement.filter_ofLabels, hcolor, hcolor.symm, if_true, if_false,
    List.append_nil, List.nil_append] at hbytes hcodes
  exact ⟨Label.join_byteRange_eq_iff.mp (Statement.join_eq_of_ofLabels hbytes),
    Label.join_code_eq_iff.mp (Statement.join_eq_of_ofLabels hcodes)⟩

end KeyShapes

/-- Joined labels of bytes tell the bytes, with their order and repetitions, and joined labels of
codes tell the codes. So the lines drawn for a group without longer byte keys tell both. -/
theorem Label.join_tells_keys :
    (∀ keys keys' : List UInt8,
      join ((ByteRange.compress keys).map byteRange) =
        join ((ByteRange.compress keys').map byteRange) ↔ keys = keys') ∧
      (∀ codes codes' : List Int32, join (codes.map code) = join (codes'.map code) ↔
        codes = codes') ∧
      ∀ (source target : String) (stays : Bool) (singles singles' : List UInt8)
        (codes codes' : List Int32),
        String.join (((⟨singles, [], codes⟩ : KeyShapes).statements source target
            (.ofStays stays)).map Statement.render) =
          String.join (((⟨singles', [], codes'⟩ : KeyShapes).statements source target
            (.ofStays stays)).map Statement.render) ↔
          singles = singles' ∧ codes = codes' := by
  refine ⟨fun _ _ => join_byteRange_eq_iff, fun _ _ => join_code_eq_iff, ?_⟩
  intro source target stays singles singles' codes codes'
  constructor
  · intro h
    exact KeyShapes.eq_of_statements (Statement.eq_of_join_render h)
  · rintro ⟨rfl, rfl⟩
    rfl

end StateDiagram
