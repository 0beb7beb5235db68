/-! Bytes and text. Any byte string is cut, from left to right, into well-formed UTF-8
characters and stray bytes between them. Nothing is lost (`flatMap_bytes_pieces`), and
text in front of other bytes is cut into its own characters (`pieces_utf8_append`). -/
namespace StateDiagram

abbrev charBytes (c : Char) : List UInt8 := String.utf8EncodeChar c

def utf8 (s : String) : List UInt8 := s.toList.flatMap charBytes

theorem charBytes_ne_nil (c : Char) : charBytes c ≠ [] := by
  simp only [charBytes, String.utf8EncodeChar]
  split <;> (try split) <;> (try split) <;> simp

theorem toNat_ofNat_ascii {n : Nat} (h : n < 0x80) : (Char.ofNat n).toNat = n := by
  have hvalid : n.isValidChar := .inl (by omega)
  rw [Char.ofNat, dif_pos hvalid]
  rfl

theorem charBytes_ascii {c : Char} (h : c.toNat < 0x80) : charBytes c = [UInt8.ofNat c.toNat] := by
  have hv : c.val.toNat ≤ 127 := Nat.le_of_lt_succ h
  simp only [charBytes, String.utf8EncodeChar, hv, if_true]
  rfl

theorem charBytes_ofNat_ascii {b : UInt8} (h : b.toNat < 0x80) :
    charBytes (Char.ofNat b.toNat) = [b] := by
  have hchar := toNat_ofNat_ascii h
  rw [charBytes_ascii (by omega), hchar, UInt8.ofNat_toNat]

/-- A byte below 128 is a character of its own, wherever it stands. -/
theorem eq_ofNat_of_mem_charBytes {c : Char} {b : UInt8} (hb : b ∈ charBytes c)
    (h : b.toNat < 0x80) : c = Char.ofNat b.toNat := by
  have hc : c.toNat < 0x80 := by
    have hv : c.toNat = c.val.toNat := rfl
    simp only [charBytes, String.utf8EncodeChar] at hb
    split at hb
    · omega
    · split at hb
      · simp only [List.mem_cons, List.not_mem_nil, or_false] at hb
        rcases hb with rfl | rfl <;> simp only [UInt8.toNat_ofNat'] at h <;> omega
      · split at hb
        · simp only [List.mem_cons, List.not_mem_nil, or_false] at hb
          rcases hb with rfl | rfl | rfl <;> simp only [UInt8.toNat_ofNat'] at h <;> omega
        · simp only [List.mem_cons, List.not_mem_nil, or_false] at hb
          rcases hb with rfl | rfl | rfl | rfl <;> simp only [UInt8.toNat_ofNat'] at h <;> omega
  rw [charBytes_ascii hc, List.mem_singleton] at hb
  subst hb
  have hsmall : c.toNat < 256 := by omega
  rw [UInt8.toNat_ofNat', Nat.mod_eq_of_lt hsmall, Char.ofNat_toNat]

namespace Utf8

/-- The number that the payload bits of the leading sequence spell, if it is well formed. -/
def leadingCode : List UInt8 → Nat
  | [] => 0
  | a :: rest =>
    let low (i : Nat) : Nat := (rest.getD i 0).toNat % 64
    if a.toNat < 0xc0 then a.toNat
    else if a.toNat < 0xe0 then a.toNat % 32 * 64 + low 0
    else if a.toNat < 0xf0 then a.toNat % 16 * 4096 + low 0 * 64 + low 1
    else a.toNat % 8 * 262144 + low 0 * 4096 + low 1 * 64 + low 2

/-- The character that the bytes start with, and the bytes after it. The spelled number is
accepted only if encoding it gives back what was read, which rules out overlong forms,
surrogates and cut sequences alike. -/
def firstChar? (bytes : List UInt8) : Option (Char × List UInt8) :=
  let c := Char.ofNat (leadingCode bytes)
  if charBytes c <+: bytes then some (c, bytes.drop (charBytes c).length) else none

theorem eq_append_of_firstChar? {bytes rest : List UInt8} {c : Char}
    (h : firstChar? bytes = some (c, rest)) : bytes = charBytes c ++ rest := by
  simp only [firstChar?] at h
  split at h
  · rename_i hp
    obtain ⟨t, ht⟩ := hp
    obtain ⟨rfl, rfl⟩ := Prod.mk.inj (Option.some.inj h)
    generalize Char.ofNat (leadingCode bytes) = c at ht
    subst ht
    simp
  · cases h

theorem length_lt_of_firstChar? {bytes rest : List UInt8} {c : Char}
    (h : firstChar? bytes = some (c, rest)) : rest.length < bytes.length := by
  rw [eq_append_of_firstChar? h, List.length_append]
  have := List.length_pos_iff.mpr (charBytes_ne_nil c)
  omega

theorem leadingCode_append (c : Char) (rest : List UInt8) :
    leadingCode (charBytes c ++ rest) = c.toNat := by
  have hc : c.val.toNat < 0x110000 := by
    have := c.valid
    rcases this with h | h
    · exact Nat.lt_trans h (by decide)
    · exact h.2
  have hv : c.toNat = c.val.toNat := rfl
  simp only [charBytes, String.utf8EncodeChar]
  split
  · simp [leadingCode, UInt8.toNat_ofNat']
    rw [if_pos (by omega)]
    omega
  · split
    · simp [leadingCode, UInt8.toNat_ofNat']
      rw [if_neg (by omega), if_pos (by omega)]
      omega
    · split
      · simp [leadingCode, UInt8.toNat_ofNat']
        rw [if_neg (by omega), if_neg (by omega), if_pos (by omega)]
        omega
      · simp [leadingCode, UInt8.toNat_ofNat']
        rw [if_neg (by omega), if_neg (by omega), if_neg (by omega)]
        omega

theorem firstChar?_append (c : Char) (rest : List UInt8) :
    firstChar? (charBytes c ++ rest) = some (c, rest) := by
  simp [firstChar?, leadingCode_append]

end Utf8

/-- A character or a byte that belongs to none. -/
inductive Piece
  | char (c : Char)
  | stray (b : UInt8)
  deriving DecidableEq, Repr

namespace Piece

def bytes : Piece → List UInt8
  | char c => charBytes c
  | stray b => [b]

def char? : Piece → Option Char
  | char c => some c
  | stray _ => none

end Piece

/-- Cut bytes into characters and stray bytes. -/
def pieces : List UInt8 → List Piece
  | [] => []
  | b :: bs =>
    match _h : Utf8.firstChar? (b :: bs) with
    | some (c, rest) => .char c :: pieces rest
    | none => .stray b :: pieces bs
termination_by bytes => bytes.length
decreasing_by
  · exact Utf8.length_lt_of_firstChar? _h
  · simp

theorem pieces_charBytes_append (c : Char) (rest : List UInt8) :
    pieces (charBytes c ++ rest) = .char c :: pieces rest := by
  have h := Utf8.firstChar?_append c rest
  cases hb : charBytes c ++ rest with
  | nil => exact absurd (List.append_eq_nil_iff.mp hb).1 (charBytes_ne_nil c)
  | cons b bs =>
    rw [hb] at h
    rw [pieces]
    split
    · rename_i heq
      rw [h] at heq
      obtain ⟨rfl, rfl⟩ := Prod.mk.inj (Option.some.inj heq)
      rfl
    · rename_i heq
      rw [h] at heq
      cases heq

theorem pieces_cons_ascii {b : UInt8} (h : b.toNat < 0x80) (bs : List UInt8) :
    pieces (b :: bs) = .char (Char.ofNat b.toNat) :: pieces bs := by
  have hpieces := pieces_charBytes_append (Char.ofNat b.toNat) bs
  rwa [charBytes_ofNat_ascii h] at hpieces

theorem exists_pieces_cons {bytes : List UInt8} {p : Piece} {ps : List Piece}
    (h : pieces bytes = p :: ps) : ∃ rest, bytes = p.bytes ++ rest ∧ pieces rest = ps := by
  cases bytes with
  | nil => simp [pieces] at h
  | cons b bs =>
    rw [pieces] at h
    split at h
    · rename_i c rest hfirst
      cases h
      exact ⟨rest, Utf8.eq_append_of_firstChar? hfirst, rfl⟩
    · cases h
      exact ⟨bs, rfl, rfl⟩

theorem eq_char_of_mem_bytes {bytes : List UInt8} {p : Piece} {ps : List Piece}
    (h : pieces bytes = p :: ps) {b : UInt8} (hb : b ∈ p.bytes) (hascii : b.toNat < 0x80) :
    p = .char (Char.ofNat b.toNat) := by
  cases p with
  | char c => rw [eq_ofNat_of_mem_charBytes hb hascii]
  | stray b' =>
    obtain rfl : b = b' := List.mem_singleton.mp hb
    obtain ⟨rest, rfl, _⟩ := exists_pieces_cons h
    rw [Piece.bytes, List.singleton_append, pieces_cons_ascii hascii] at h
    cases h

theorem pieces_utf8_append (cs : List Char) (rest : List UInt8) :
    pieces (cs.flatMap charBytes ++ rest) = cs.map .char ++ pieces rest := by
  induction cs with
  | nil => rfl
  | cons c cs ih => simp [pieces_charBytes_append, ih]

theorem flatMap_bytes_pieces (bytes : List UInt8) :
    (pieces bytes).flatMap Piece.bytes = bytes := by
  fun_induction pieces bytes with
  | case1 => rfl
  | case2 b bs c rest h ih =>
    rw [List.flatMap_cons, ih]
    exact (Utf8.eq_append_of_firstChar? h).symm
  | case3 b bs h ih => simp [Piece.bytes, ih]

/-- The text with the given bytes, if they are well formed throughout. -/
def ofUtf8? (bytes : List UInt8) : Option String :=
  ((pieces bytes).mapM Piece.char?).map String.ofList

theorem ofUtf8?_utf8 (s : String) : ofUtf8? (utf8 s) = some s := by
  have h := pieces_utf8_append s.toList []
  rw [List.append_nil] at h
  have hm : ∀ cs : List Char, (cs.map Piece.char).mapM Piece.char? = some cs := by
    intro cs
    induction cs with
    | nil => rfl
    | cons c cs ih => simp [Piece.char?, ih]
  simp [ofUtf8?, utf8, h, pieces, hm]

end StateDiagram
