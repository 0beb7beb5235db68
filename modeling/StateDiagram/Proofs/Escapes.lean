import Mathlib.Data.List.Infix
import StateDiagram.Label

/-! When the label of a byte sequence can be read back. A reader takes escapes for the bytes they
stand for and every other character for itself. Backslashes of the sequence are not escaped, so it
errs where one of them looks like the beginning of an escape, and nowhere else
(`Label.decode?_sequence`). -/
namespace StateDiagram
namespace Label

/-- What an escape stands for, from the text behind its backslash, and the text after it. -/
def escape? : List Char → Option (UInt8 × List Char)
  | 'n' :: s => some (0x0a, s)
  | 'r' :: s => some (0x0d, s)
  | 't' :: s => some (0x09, s)
  | 'x' :: high :: low :: s => (hexByte? high low).map fun b => (b, s)
  | _ => none

/-- The two forms of an escape behind its backslash: a letter, or two digits behind an `x`. -/
theorem escape?_cases {s rest : List Char} {b : UInt8} (h : escape? s = some (b, rest)) :
    (∃ c ∈ ['n', 'r', 't'], s = c :: rest) ∨
      ∃ high low, hexByte? high low = some b ∧ s = 'x' :: high :: low :: rest := by
  unfold escape? at h
  split at h
  · cases h
    exact .inl ⟨'n', by decide, rfl⟩
  · cases h
    exact .inl ⟨'r', by decide, rfl⟩
  · cases h
    exact .inl ⟨'t', by decide, rfl⟩
  · rename_i high low s'
    obtain ⟨b', hb, hpair⟩ := Option.map_eq_some_iff.mp h
    cases hpair
    exact .inr ⟨high, low, hb, rfl⟩
  · cases h

theorem length_lt_of_escape? {s rest : List Char} {b : UInt8} (h : escape? s = some (b, rest)) :
    rest.length < s.length := by
  rcases escape?_cases h with ⟨c, _, rfl⟩ | ⟨high, low, _, rfl⟩
  · simp
  · simp only [List.length_cons]
    omega

/-- Read a text from the left. A backslash that begins no escape stands for itself. -/
def unescape : List Char → List UInt8
  | [] => []
  | c :: s =>
    if c = '\\' then
      match _h : escape? s with
      | some (b, rest) => b :: unescape rest
      | none => charBytes c ++ unescape s
    else charBytes c ++ unescape s
termination_by s => s.length
decreasing_by
  · exact Nat.lt_succ_of_lt (length_lt_of_escape? _h)
  · exact Nat.lt_succ_self _
  · exact Nat.lt_succ_self _

def IsHexDigit (b : UInt8) : Prop := (0x30 ≤ b ∧ b ≤ 0x39) ∨ (0x61 ≤ b ∧ b ≤ 0x66)

theorem isHexDigit_iff {b : UInt8} : IsHexDigit b ↔
    (48 ≤ b.toNat ∧ b.toNat ≤ 57) ∨ (97 ≤ b.toNat ∧ b.toNat ≤ 102) := by
  simp only [IsHexDigit, UInt8.le_iff_toNat_le]
  rfl

/-- What makes an escape of a backslash directly before it. -/
inductive EscapeTail : List UInt8 → Prop
  | named {b : UInt8} (h : b ∈ [0x6e, 0x72, 0x74]) : EscapeTail [b]
  | hex {high low : UInt8} (hh : IsHexDigit high) (hl : IsHexDigit low) :
    EscapeTail [0x78, high, low]

/-- A backslash of the sequence looks like the beginning of an escape. -/
def Misleading (bytes : List UInt8) : Prop := ∃ tail, EscapeTail tail ∧ 0x5c :: tail <:+: bytes

/-- The bytes go on as an escape does behind its backslash. -/
def Leads (bytes : List UInt8) : Prop := ∃ tail, EscapeTail tail ∧ tail <+: bytes

theorem not_misleading_nil : ¬Misleading [] := by
  rintro ⟨tail, _, h⟩
  cases List.infix_nil.mp h

theorem misleading_cons {b : UInt8} {bs : List UInt8} :
    Misleading (b :: bs) ↔ b = 0x5c ∧ Leads bs ∨ Misleading bs := by
  simp only [Misleading, Leads, List.infix_cons_iff, List.cons_prefix_cons]
  constructor
  · rintro ⟨tail, ht, ⟨rfl, h⟩ | h⟩
    · exact .inl ⟨rfl, tail, ht, h⟩
    · exact .inr ⟨tail, ht, h⟩
  · rintro (⟨rfl, tail, ht, h⟩ | ⟨tail, ht, h⟩)
    · exact ⟨tail, ht, .inl ⟨rfl, h⟩⟩
    · exact ⟨tail, ht, .inr h⟩

theorem misleading_append {bs : List UInt8} (h : (0x5c : UInt8) ∉ bs) (rest : List UInt8) :
    Misleading (bs ++ rest) ↔ Misleading rest := by
  induction bs with
  | nil => rfl
  | cons b bs ih =>
    simp only [List.mem_cons, not_or] at h
    rw [List.cons_append, misleading_cons, ih h.2]
    exact or_iff_right fun hb => h.1 hb.1.symm

theorem unescape_plain {c : Char} (h : c ≠ '\\') (s : List Char) :
    unescape (c :: s) = charBytes c ++ unescape s := by
  rw [unescape, if_neg h]

theorem unescape_escape {s rest : List Char} {b : UInt8} (h : escape? s = some (b, rest)) :
    unescape ('\\' :: s) = b :: unescape rest := by
  rw [unescape, if_pos rfl]
  split
  · rename_i h'
    rw [h] at h'
    cases h'
    rfl
  · rename_i h'
    rw [h] at h'
    cases h'

theorem unescape_backslash {s : List Char} (h : escape? s = none) :
    unescape ('\\' :: s) = 0x5c :: unescape s := by
  rw [unescape, if_pos rfl]
  split
  · rename_i h'
    rw [h] at h'
    cases h'
  · rfl

/-- Read a label: its quotes are taken off, and the text between them is read. -/
def decode? (label : String) : Option (List UInt8) :=
  match label.toList with
  | '\'' :: s => if s.getLast? = some '\'' then some (unescape s.dropLast) else none
  | _ => none

theorem decode?_sequence_eq (bytes : List UInt8) :
    decode? (sequence bytes) = some (unescape (sequenceText bytes)) := by
  have htext : (sequence bytes).toList = '\'' :: (sequenceText bytes ++ ['\'']) := by
    simp [sequence, toString]
  rw [decode?, htext]
  simp

theorem unescape_escapedByte_append (b : UInt8) (s : List Char) :
    unescape (escapedByte b ++ s) = b :: unescape s :=
  unescape_escape (by simp [hexPair, escape?, hexByte?_hexPair])

theorem unescape_flatMap_escapedByte_append (bs : List UInt8) (s : List Char) :
    unescape (bs.flatMap escapedByte ++ s) = bs ++ unescape s := by
  induction bs with
  | nil => rfl
  | cons b bs ih =>
    rw [List.flatMap_cons, List.append_assoc, unescape_escapedByte_append, ih, List.cons_append]

theorem charText_of_not_isControl {c : Char} (h : isControl c = false) : charText c = [c] := by
  have hne (d : Char) (hd : isControl d = true) : c ≠ d := by
    rintro rfl
    rw [h] at hd
    cases hd
  rw [charText, if_neg (hne _ rfl), if_neg (hne _ rfl), if_neg (hne _ rfl), h]
  rfl

/-- A control character stands as escapes, which are read back whatever follows. -/
theorem charText_of_isControl {c : Char} (h : isControl c = true) :
    (charText c).head? = some '\\' ∧
      ∀ s, unescape (charText c ++ s) = charBytes c ++ unescape s := by
  by_cases hn : c = '\n'
  · subst hn
    exact ⟨rfl, fun s => unescape_escape rfl⟩
  by_cases hr : c = '\r'
  · subst hr
    exact ⟨rfl, fun s => unescape_escape rfl⟩
  by_cases ht : c = '\t'
  · subst ht
    exact ⟨rfl, fun s => unescape_escape rfl⟩
  rw [charText, if_neg hn, if_neg hr, if_neg ht, if_pos h]
  refine ⟨?_, unescape_flatMap_escapedByte_append (charBytes c)⟩
  cases hc : charBytes c with
  | nil => exact absurd hc (charBytes_ne_nil c)
  | cons b bs => rfl

theorem sequenceText_cons_ascii {b : UInt8} (hlow : 0x20 ≤ b.toNat) (hhigh : b.toNat < 0x7f)
    (bs : List UInt8) : sequenceText (b :: bs) = Char.ofNat b.toNat :: sequenceText bs := by
  have hchar : (Char.ofNat b.toNat).toNat = b.toNat := toNat_ofNat_ascii (by omega)
  have hcontrol : isControl (Char.ofNat b.toNat) = false := by
    simp only [isControl, hchar, Bool.or_eq_false_iff, Bool.and_eq_false_iff, decide_eq_false_iff_not]
    omega
  rw [sequenceText, pieces_cons_ascii (by omega), List.flatMap_cons, pieceText,
    charText_of_not_isControl hcontrol]
  rfl

/-- A piece stands for itself, or as escapes, which are read back whatever follows. -/
theorem pieceText_cases (p : Piece) :
    (∃ c, p = .char c ∧ pieceText p = [c]) ∨ (pieceText p).head? = some '\\' ∧
      ∀ s, unescape (pieceText p ++ s) = p.bytes ++ unescape s := by
  cases p with
  | char c =>
    cases h : isControl c with
    | false => exact .inl ⟨c, rfl, charText_of_not_isControl h⟩
    | true => exact .inr (charText_of_isControl h)
  | stray b => exact .inr ⟨rfl, unescape_escapedByte_append b⟩

theorem unescape_pieceText_append {p : Piece} (h : p ≠ .char '\\') (s : List Char) :
    unescape (pieceText p ++ s) = p.bytes ++ unescape s := by
  rcases pieceText_cases p with ⟨c, rfl, htext⟩ | ⟨_, hread⟩
  · rw [htext]
    exact unescape_plain (fun hc => h (congrArg Piece.char hc)) s
  · exact hread s

/-- A character of the text that is no backslash was a character of the sequence. -/
theorem exists_of_sequenceText_eq_cons {bytes : List UInt8} {c : Char} {s : List Char}
    (h : sequenceText bytes = c :: s) (hc : c ≠ '\\') :
    ∃ rest, bytes = charBytes c ++ rest ∧ sequenceText rest = s := by
  cases hps : pieces bytes with
  | nil => simp [sequenceText, hps] at h
  | cons p ps =>
    obtain ⟨rest, rfl, rfl⟩ := exists_pieces_cons hps
    rw [sequenceText, hps, List.flatMap_cons] at h
    rcases pieceText_cases p with ⟨d, rfl, htext⟩ | ⟨hhead, _⟩
    · rw [htext] at h
      obtain ⟨rfl, rfl⟩ := List.cons.inj h
      exact ⟨rest, rfl, rfl⟩
    · cases htext : pieceText p with
      | nil => rw [htext] at hhead; cases hhead
      | cons d t =>
        rw [htext] at hhead h
        obtain rfl : d = '\\' := Option.some.inj hhead
        exact absurd (List.cons.inj h).1.symm hc

theorem isSome_hexValue?_ofNat {b : UInt8} (h : IsHexDigit b) :
    (hexValue? (Char.ofNat b.toNat)).isSome := by
  rw [isHexDigit_iff] at h
  rw [isSome_hexValue?_iff, toNat_ofNat_ascii (by omega)]
  exact h

theorem charBytes_of_letter {c : Char} (h : c ∈ ['n', 'r', 't']) :
    c ≠ '\\' ∧ ∃ b ∈ ([0x6e, 0x72, 0x74] : List UInt8), charBytes c = [b] := by
  simp only [List.mem_cons, List.not_mem_nil, or_false] at h
  rcases h with rfl | rfl | rfl
  · exact ⟨by decide, 0x6e, by decide, rfl⟩
  · exact ⟨by decide, 0x72, by decide, rfl⟩
  · exact ⟨by decide, 0x74, by decide, rfl⟩

theorem charBytes_of_hexValue? {c : Char} (h : (hexValue? c).isSome) :
    c ≠ '\\' ∧ ∃ b, charBytes c = [b] ∧ IsHexDigit b := by
  rw [isSome_hexValue?_iff] at h
  have hnat : (UInt8.ofNat c.toNat).toNat = c.toNat := by
    rw [UInt8.toNat_ofNat']
    omega
  refine ⟨?_, UInt8.ofNat c.toNat, charBytes_ascii (by omega), ?_⟩
  · rintro rfl
    revert h
    decide
  · rw [isHexDigit_iff, hnat]
    exact h

theorem charBytes_of_hexByte? {high low : Char} {b : UInt8} (h : hexByte? high low = some b) :
    (high ≠ '\\' ∧ ∃ b, charBytes high = [b] ∧ IsHexDigit b) ∧
      low ≠ '\\' ∧ ∃ b, charBytes low = [b] ∧ IsHexDigit b := by
  have hsome : (hexByte? high low).isSome := by
    rw [h]
    rfl
  rw [isSome_hexByte?_iff] at hsome
  exact ⟨charBytes_of_hexValue? hsome.1, charBytes_of_hexValue? hsome.2⟩

/-- The text behind a backslash ends an escape exactly if the bytes do. -/
theorem exists_escape?_iff (bytes : List UInt8) :
    (∃ b rest, escape? (sequenceText bytes) = some (b, rest)) ↔ Leads bytes := by
  constructor
  · rintro ⟨b, rest, h⟩
    rcases escape?_cases h with ⟨c, hc, htext⟩ | ⟨high, low, hhex, htext⟩
    · obtain ⟨hne, d, hd, hbytes⟩ := charBytes_of_letter hc
      obtain ⟨bs, rfl, _⟩ := exists_of_sequenceText_eq_cons htext hne
      rw [hbytes]
      exact ⟨[d], .named hd, List.prefix_append _ _⟩
    · obtain ⟨⟨hne, h, hhigh, hdigit⟩, hne', l, hlow, hdigit'⟩ := charBytes_of_hexByte? hhex
      obtain ⟨bs, rfl, hbs⟩ := exists_of_sequenceText_eq_cons htext (by decide)
      obtain ⟨bs', rfl, hbs'⟩ := exists_of_sequenceText_eq_cons hbs hne
      obtain ⟨bs'', rfl, _⟩ := exists_of_sequenceText_eq_cons hbs' hne'
      rw [hhigh, hlow]
      exact ⟨_, .hex hdigit hdigit', List.prefix_append _ bs''⟩
  · rintro ⟨tail, ht, bs, rfl⟩
    cases ht with
    | @named b hb =>
      simp only [List.mem_cons, List.not_mem_nil, or_false] at hb
      rcases hb with rfl | rfl | rfl
      all_goals
        rw [List.singleton_append, sequenceText_cons_ascii (by decide) (by decide)]
        exact ⟨_, _, rfl⟩
    | @hex high low hh hl =>
      have hprintable {b : UInt8} (h : IsHexDigit b) : 0x20 ≤ b.toNat ∧ b.toNat < 0x7f := by
        rw [isHexDigit_iff] at h
        omega
      have hx : sequenceText (0x78 :: high :: low :: bs) = 'x' :: Char.ofNat high.toNat ::
          Char.ofNat low.toNat :: sequenceText bs := by
        rw [sequenceText_cons_ascii (by decide) (by decide),
          sequenceText_cons_ascii (hprintable hh).1 (hprintable hh).2,
          sequenceText_cons_ascii (hprintable hl).1 (hprintable hl).2]
        rfl
      obtain ⟨b, hb⟩ := Option.isSome_iff_exists.mp ((isSome_hexByte?_iff _ _).mpr
        ⟨isSome_hexValue?_ofNat hh, isSome_hexValue?_ofNat hl⟩)
      refine ⟨b, sequenceText bs, ?_⟩
      simp only [List.cons_append, List.nil_append, hx, escape?, hb, Option.map_some]

/-- Where an escape was begun by mistake, the text reads shorter than it would behind the
backslash. -/
theorem length_unescape_lt {s rest : List Char} {b : UInt8} (h : escape? s = some (b, rest)) :
    (unescape rest).length < (unescape s).length := by
  rcases escape?_cases h with ⟨c, hc, rfl⟩ | ⟨high, low, hhex, rfl⟩
  · have hpos := List.length_pos_iff.mpr (charBytes_ne_nil c)
    rw [unescape_plain (charBytes_of_letter hc).1, List.length_append]
    omega
  · obtain ⟨⟨hne, h, hhigh, _⟩, hne', l, hlow, _⟩ := charBytes_of_hexByte? hhex
    rw [unescape_plain (by decide), unescape_plain hne, unescape_plain hne', hhigh, hlow]
    simp only [List.length_append, List.length_cons]
    omega

/-- How a text reads that was written for some bytes: it gives no more bytes than these, and just
these unless one of their backslashes misleads. -/
structure ReadsAs (text : List Char) (bytes : List UInt8) : Prop where
  length_le : (unescape text).length ≤ bytes.length
  eq_iff : unescape text = bytes ↔ ¬Misleading bytes

theorem readsAs_nil : ReadsAs [] [] where
  length_le := by simp [unescape]
  eq_iff := by simp [unescape, not_misleading_nil]

theorem ReadsAs.piece {p : Piece} (hp : p ≠ .char '\\') (hmem : (0x5c : UInt8) ∉ p.bytes)
    {text : List Char} {rest : List UInt8} (h : ReadsAs text rest) :
    ReadsAs (pieceText p ++ text) (p.bytes ++ rest) where
  length_le := by
    have hrest := h.length_le
    rw [unescape_pieceText_append hp, List.length_append, List.length_append]
    omega
  eq_iff := by
    rw [unescape_pieceText_append hp, misleading_append hmem, List.append_cancel_left_eq]
    exact h.eq_iff

/-- A backslash that begins an escape by mistake swallows bytes, so what is read is too short. -/
theorem ReadsAs.backslash {rest : List UInt8} (h : ReadsAs (sequenceText rest) rest) :
    ReadsAs ('\\' :: sequenceText rest) (0x5c :: rest) := by
  have hrest := h.length_le
  cases hescape : escape? (sequenceText rest) with
  | some r =>
    obtain ⟨b, s⟩ := r
    have hleads : Leads rest := (exists_escape?_iff rest).mp ⟨b, s, hescape⟩
    have hshort := length_unescape_lt hescape
    have hlt : (unescape ('\\' :: sequenceText rest)).length < (0x5c :: rest).length := by
      rw [unescape_escape hescape, List.length_cons, List.length_cons]
      omega
    refine ⟨Nat.le_of_lt hlt, iff_of_false (fun heq => ?_) fun hmis => ?_⟩
    · exact Nat.ne_of_lt hlt (congrArg List.length heq)
    · exact hmis (misleading_cons.mpr (.inl ⟨rfl, hleads⟩))
  | none =>
    have hleads : ¬Leads rest := by
      intro hleads
      obtain ⟨b, s, hsome⟩ := (exists_escape?_iff rest).mpr hleads
      rw [hescape] at hsome
      cases hsome
    constructor
    · rw [unescape_backslash hescape, List.length_cons, List.length_cons]
      omega
    · rw [unescape_backslash hescape, List.cons_inj_right, h.eq_iff, misleading_cons]
      simp [hleads]

theorem readsAs_sequenceText (bytes : List UInt8) : ReadsAs (sequenceText bytes) bytes := by
  generalize hps : pieces bytes = ps
  induction ps generalizing bytes with
  | nil =>
    obtain rfl : bytes = [] := by
      rw [← flatMap_bytes_pieces bytes, hps]
      rfl
    simpa [sequenceText, pieces] using readsAs_nil
  | cons p ps ih =>
    obtain ⟨rest, rfl, hrest⟩ := exists_pieces_cons hps
    have htext : sequenceText (p.bytes ++ rest) = pieceText p ++ sequenceText rest := by
      rw [sequenceText, hps, List.flatMap_cons, ← hrest]
      rfl
    rw [htext]
    by_cases hp : p = .char '\\'
    · subst hp
      exact (ih rest hrest).backslash
    · -- Only the character is written with that byte.
      have hmem : (0x5c : UInt8) ∉ p.bytes := fun h => hp (eq_char_of_mem_bytes hps h (by decide))
      exact (ih rest hrest).piece hp hmem

/-- A label of bytes is always read as some bytes, and as those it was made of unless one of their
backslashes looks like the beginning of an escape. -/
theorem decode?_sequence (bytes : List UInt8) :
    ∃ read, decode? (sequence bytes) = some read ∧ (read = bytes ↔ ¬Misleading bytes) :=
  ⟨_, decode?_sequence_eq bytes, (readsAs_sequenceText bytes).eq_iff⟩

end Label
end StateDiagram
