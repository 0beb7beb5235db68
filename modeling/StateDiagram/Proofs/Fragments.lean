import Mathlib.Data.List.Infix
import StateDiagram.Label

/-! Text beside bytes that are no text. The first byte of a character continues no other one, so a
text keeps its characters whatever broken bytes stand before or behind it, and a label is written
part by part (`Label.inner_sequence_append`). A decoder that takes whole runs of text, and passes
over a cut character at once, comes to the same label. -/
namespace StateDiagram

def WellFormed (bytes : List UInt8) : Prop := ∃ s : String, utf8 s = bytes

/-- A byte that stands inside a character, behind its first byte. -/
def IsContinuation (b : UInt8) : Prop := b.toNat / 64 = 2

/-- No character stands at the front of the bytes. -/
def Unreadable (bytes : List UInt8) : Prop := ∀ c, ¬charBytes c <+: bytes

theorem exists_charBytes_eq_cons (c : Char) :
    ∃ b bs, charBytes c = b :: bs ∧ ¬IsContinuation b ∧ ∀ x ∈ bs, IsContinuation x := by
  have hc : c.val.toNat < 0x110000 := by
    rcases c.valid with h | h
    · exact Nat.lt_trans h (by decide)
    · exact h.2
  simp only [charBytes, String.utf8EncodeChar, IsContinuation]
  by_cases h1 : c.val.toNat ≤ 127
  · rw [if_pos h1]
    exact ⟨_, _, rfl, by rw [UInt8.toNat_ofNat']; omega, by simp⟩
  by_cases h2 : c.val.toNat ≤ 2047
  · rw [if_neg h1, if_pos h2]
    exact ⟨_, _, rfl, by rw [UInt8.toNat_ofNat']; omega, by simp [UInt8.toNat_ofNat']; omega⟩
  by_cases h3 : c.val.toNat ≤ 65535
  · rw [if_neg h1, if_neg h2, if_pos h3]
    exact ⟨_, _, rfl, by rw [UInt8.toNat_ofNat']; omega, by simp [UInt8.toNat_ofNat']; omega⟩
  · rw [if_neg h1, if_neg h2, if_neg h3]
    exact ⟨_, _, rfl, by rw [UInt8.toNat_ofNat']; omega, by simp [UInt8.toNat_ofNat']; omega⟩

theorem unreadable_nil : Unreadable [] := by
  intro c h
  exact charBytes_ne_nil c (List.prefix_nil.mp h)

theorem unreadable_of_isContinuation {b : UInt8} (h : IsContinuation b) (bs : List UInt8) :
    Unreadable (b :: bs) := by
  intro c hc
  obtain ⟨d, ds, hd, hfirst, _⟩ := exists_charBytes_eq_cons c
  rw [hd, List.cons_prefix_cons] at hc
  exact hfirst (hc.1 ▸ h)

theorem unreadable_iff {bytes : List UInt8} :
    Unreadable bytes ↔ Utf8.firstChar? bytes = none := by
  constructor
  · intro h
    rw [Utf8.firstChar?, if_neg (h _)]
  · intro h c hc
    obtain ⟨rest, rfl⟩ := hc
    rw [Utf8.firstChar?_append] at h
    cases h

theorem pieces_of_unreadable {b : UInt8} {bs : List UInt8} (h : Unreadable (b :: bs)) :
    pieces (b :: bs) = .stray b :: pieces bs := by
  rw [pieces]
  split
  · rename_i hfirst
    rw [unreadable_iff.mp h] at hfirst
    cases hfirst
  · rfl

/-- What cannot be read does not become a character by what follows, unless that begins with a byte
that continues one. -/
theorem Unreadable.append {xs ys : List UInt8} (h : Unreadable xs) (hne : xs ≠ [])
    (hys : ∀ y ∈ ys.head?, ¬IsContinuation y) : Unreadable (xs ++ ys) := by
  rintro c ⟨rest, hc⟩
  rcases List.append_eq_append_iff.mp hc with ⟨as, hxs, _⟩ | ⟨as, hchar, hys'⟩
  · exact h c ⟨as, hxs.symm⟩
  · cases as with
    | nil =>
      rw [List.append_nil] at hchar
      exact h c (hchar ▸ List.prefix_rfl)
    | cons y as =>
      -- The character would reach into `ys`, so a byte of its inside begins `ys`.
      obtain ⟨d, ds, hd, _, hinside⟩ := exists_charBytes_eq_cons c
      have hy : IsContinuation y := by
        cases xs with
        | nil => exact absurd rfl hne
        | cons x xs =>
          rw [hd, List.cons_append] at hchar
          exact hinside y ((List.cons.inj hchar).2 ▸ by simp)
      exact hys y (by simp [hys']) hy

/-- Cutting bytes anew where no byte continues a character changes nothing. -/
theorem pieces_append_of_head {ys : List UInt8} (hys : ∀ y ∈ ys.head?, ¬IsContinuation y)
    (xs : List UInt8) : pieces (xs ++ ys) = pieces xs ++ pieces ys := by
  fun_induction pieces xs with
  | case1 => rfl
  | case2 b bs c rest h ih =>
    rw [Utf8.eq_append_of_firstChar? h, List.append_assoc, pieces_charBytes_append, ih]
    rfl
  | case3 b bs h ih =>
    have hstray : Unreadable (b :: (bs ++ ys)) :=
      (unreadable_iff.mpr h).append (List.cons_ne_nil b bs) hys
    rw [List.cons_append, pieces_of_unreadable hstray, ih]
    rfl

theorem WellFormed.not_isContinuation {ys : List UInt8} (h : WellFormed ys) :
    ∀ y ∈ ys.head?, ¬IsContinuation y := by
  obtain ⟨s, rfl⟩ := h
  intro y hy
  rw [utf8] at hy
  cases hs : s.toList with
  | nil => simp [hs] at hy
  | cons c cs =>
    obtain ⟨d, ds, hd, hfirst, _⟩ := exists_charBytes_eq_cons c
    rw [hs, List.flatMap_cons, hd] at hy
    obtain rfl : d = y := by simpa using hy
    exact hfirst

theorem pieces_append {xs ys : List UInt8} (h : WellFormed xs ∨ WellFormed ys) :
    pieces (xs ++ ys) = pieces xs ++ pieces ys := by
  rcases h with ⟨s, rfl⟩ | hys
  · have hs := pieces_utf8_append s.toList []
    rw [List.append_nil] at hs
    rw [utf8, pieces_utf8_append, hs, pieces]
    simp
  · exact pieces_append_of_head hys.not_isContinuation xs

/-- What a decoder hands over at once: a run of text, and the bytes at which it stopped. -/
structure Chunk where
  text : List Char
  fragment : List UInt8
  deriving DecidableEq, Repr

/-- The chunks of some bytes. A run of text ends where no character can be read. The fragment behind
it is a byte with some that could continue it, and the next run begins behind the fragment. -/
inductive Chunked : List UInt8 → List Chunk → Prop
  | nil : Chunked [] []
  | cons {text : List Char} {fragment rest : List UInt8} {chunks : List Chunk}
    (hstop : Unreadable (fragment ++ rest)) (hcut : ∀ b ∈ fragment.tail, IsContinuation b)
    (hrest : Chunked rest chunks) :
    Chunked (text.flatMap charBytes ++ (fragment ++ rest)) (⟨text, fragment⟩ :: chunks)

theorem pieces_of_continuations {bs : List UInt8} (h : ∀ b ∈ bs, IsContinuation b)
    (rest : List UInt8) : pieces (bs ++ rest) = bs.map .stray ++ pieces rest := by
  induction bs with
  | nil => rfl
  | cons b bs ih =>
    have hb := h b List.mem_cons_self
    rw [List.cons_append, pieces_of_unreadable (unreadable_of_isContinuation hb _),
      ih fun x hx => h x (List.mem_cons_of_mem b hx)]
    rfl

/-- Passing over a fragment at once and byte by byte come to the same. -/
theorem pieces_fragment_append {fragment rest : List UInt8} (hstop : Unreadable (fragment ++ rest))
    (hcut : ∀ b ∈ fragment.tail, IsContinuation b) :
    pieces (fragment ++ rest) = fragment.map .stray ++ pieces rest := by
  cases fragment with
  | nil => rfl
  | cons b bs =>
    rw [List.cons_append] at hstop ⊢
    rw [pieces_of_unreadable hstop]
    exact congrArg (.stray b :: ·) (pieces_of_continuations hcut rest)

def Chunk.push (c : Char) : List Chunk → List Chunk
  | [] => [⟨[c], []⟩]
  | chunk :: chunks => ⟨c :: chunk.text, chunk.fragment⟩ :: chunks

namespace Chunked

variable {rest : List UInt8} {chunks : List Chunk}

theorem char (h : Chunked rest chunks) (c : Char) :
    Chunked (charBytes c ++ rest) (Chunk.push c chunks) := by
  cases h with
  | nil =>
    have hone : Chunked ([c].flatMap charBytes ++ ([] ++ [])) [⟨[c], []⟩] :=
      .cons unreadable_nil (by simp) .nil
    simpa [Chunk.push] using hone
  | @cons text fragment rest chunks hstop hcut hrest =>
    have hmore : Chunked ((c :: text).flatMap charBytes ++ (fragment ++ rest))
        (⟨c :: text, fragment⟩ :: chunks) := .cons hstop hcut hrest
    simpa [Chunk.push] using hmore

theorem fragment (h : Chunked rest chunks) {bytes : List UInt8} (hstop : Unreadable (bytes ++ rest))
    (hcut : ∀ b ∈ bytes.tail, IsContinuation b) :
    Chunked (bytes ++ rest) (⟨[], bytes⟩ :: chunks) := by
  have hone : Chunked ([].flatMap charBytes ++ (bytes ++ rest)) (⟨[], bytes⟩ :: chunks) :=
    .cons hstop hcut h
  simpa using hone

end Chunked

theorem exists_chunked (bytes : List UInt8) : ∃ chunks, Chunked bytes chunks := by
  fun_induction pieces bytes with
  | case1 => exact ⟨[], .nil⟩
  | case2 b bs c rest h ih =>
    obtain ⟨chunks, hchunks⟩ := ih
    rw [Utf8.eq_append_of_firstChar? h]
    exact ⟨_, hchunks.char c⟩
  | case3 b bs h ih =>
    obtain ⟨chunks, hchunks⟩ := ih
    have hstop : Unreadable ([b] ++ bs) := unreadable_iff.mpr h
    exact ⟨_, hchunks.fragment hstop (by simp)⟩

namespace Label

def chunkText (chunk : Chunk) : List Char :=
  chunk.text.flatMap charText ++ chunk.fragment.flatMap escapedByte

def inner (label : String) : String := String.ofList label.toList.tail.dropLast

theorem inner_sequence (bytes : List UInt8) :
    inner (sequence bytes) = String.ofList (sequenceText bytes) := by
  have htext : (sequence bytes).toList = '\'' :: (sequenceText bytes ++ ['\'']) := by
    simp [sequence, toString]
  rw [inner, htext, List.tail_cons, List.dropLast_concat]

theorem sequenceText_of_chunked {bytes : List UInt8} {chunks : List Chunk}
    (h : Chunked bytes chunks) : sequenceText bytes = chunks.flatMap chunkText := by
  induction h with
  | nil => simp [sequenceText, pieces]
  | cons hstop hcut _ ih =>
    rw [sequenceText, pieces_utf8_append, pieces_fragment_append hstop hcut, List.flatMap_cons,
      ← ih]
    simp [sequenceText, chunkText, List.flatMap_map, pieceText]

/-- Beside a text, on either side, bytes are written as they are on their own, broken ones too. And
however the bytes are cut into chunks, a label is what is written for the chunks, one after the
other. -/
theorem inner_sequence_append (xs ys : List UInt8) (h : WellFormed xs ∨ WellFormed ys) :
    inner (sequence (xs ++ ys)) = inner (sequence xs) ++ inner (sequence ys) ∧
      ∀ bytes, (∃ chunks, Chunked bytes chunks) ∧
        ∀ chunks, Chunked bytes chunks →
          inner (sequence bytes) = String.ofList (chunks.flatMap chunkText) := by
  refine ⟨?_, fun bytes => ⟨exists_chunked bytes, fun chunks hchunks => ?_⟩⟩
  · simp only [inner_sequence, sequenceText, pieces_append h, List.flatMap_append,
      String.ofList_append]
  · rw [inner_sequence, sequenceText_of_chunked hchunks]

theorem inner_sequence_cut :
    WellFormed [0xc3, 0xa9] ∧
      Chunked ([0x78, 0xe2, 0x82] ++ [0xc3, 0xa9]) [⟨['x'], [0xe2, 0x82]⟩, ⟨['é'], []⟩] ∧
      inner (sequence ([0x78, 0xe2, 0x82] ++ [0xc3, 0xa9])) =
        inner (sequence [0x78, 0xe2, 0x82]) ++ inner (sequence [0xc3, 0xa9]) ∧
      inner (sequence ([0x78, 0xe2, 0x82] ++ [0xc3, 0xa9])) = "x\\xe2\\x82é" := by
  have htext : WellFormed [0xc3, 0xa9] := ⟨"é", by decide⟩
  have hstop : Unreadable ([0xe2, 0x82] ++ (charBytes 'é' ++ [])) := unreadable_iff.mpr (by decide)
  have hchunks := ((Chunked.nil.char 'é').fragment hstop (by simp [IsContinuation])).char 'x'
  obtain ⟨happend, hwritten⟩ :=
    inner_sequence_append [0x78, 0xe2, 0x82] [0xc3, 0xa9] (.inr htext)
  exact ⟨htext, hchunks, happend, (hwritten _).2 _ hchunks⟩

end Label
end StateDiagram
