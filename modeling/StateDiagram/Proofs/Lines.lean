import StateDiagram.Proofs.Arrows
import StateDiagram.Proofs.JoinedLabels
import StateDiagram.Proofs.Suffixes

/-! The lines of a drawing. Whatever bytes and codes are matched, a label holds no control
character, so a line ends only where an item of the document does, or within the name of a node or
the rank separation. Hence the count of line ends is known, and without line ends in those every
statement has a line of its own (`Renderer.lines_of_draw`). -/
namespace StateDiagram
namespace Label

def Printable (s : String) : Prop := ∀ c ∈ s.toList, isControl c = false

theorem printable_of_all {s : String} (h : s.toList.all (fun c => !isControl c) = true) :
    Printable s := by
  simpa [Printable] using h

theorem printable_append {s t : String} : Printable (s ++ t) ↔ Printable s ∧ Printable t := by
  simp [Printable, or_imp, forall_and]

theorem printable_ofList {cs : List Char} :
    Printable (String.ofList cs) ↔ ∀ c ∈ cs, isControl c = false := by
  rw [Printable, String.toList_ofList]

theorem not_isControl_of_isDigit {c : Char} (h : c.isDigit = true) : isControl c = false := by
  simp only [Char.isDigit, Bool.and_eq_true, decide_eq_true_eq, UInt32.le_iff_toNat_le] at h
  simp only [isControl, Bool.or_eq_false_iff, Bool.and_eq_false_iff, decide_eq_false_iff_not]
  have hlow : '0'.val.toNat = 48 := rfl
  have hhigh : '9'.val.toNat = 57 := rfl
  have hc : c.toNat = c.val.toNat := rfl
  omega

theorem printable_hexPair (b : UInt8) : Printable (String.ofList (hexPair b)) := by
  rw [printable_ofList]
  intro c hc
  exact not_isControl_of_mem_escapedByte (List.mem_cons_of_mem _ (List.mem_cons_of_mem _ hc))

theorem printable_byte (b : UInt8) : Printable (byte b) := by
  unfold byte
  split
  · exact printable_of_all (by decide)
  split
  · exact printable_of_all (by decide)
  split
  · exact printable_of_all (by decide)
  split
  · rename_i h
    -- The byte is the number of its character, so the bounds are those of printable ones.
    have hlow : 0x20 ≤ b.toNat := UInt8.le_iff_toNat_le.mp h.1
    have hhigh : b.toNat ≤ 0x7e := UInt8.le_iff_toNat_le.mp h.2
    have hchar : (Char.ofNat b.toNat).toNat = b.toNat := toNat_ofNat_ascii (by omega)
    have hplain : isControl (Char.ofNat b.toNat) = false := by
      simp only [isControl, hchar, Bool.or_eq_false_iff, Bool.and_eq_false_iff,
        decide_eq_false_iff_not]
      omega
    apply printable_of_all
    simp [toString, hplain]
    decide
  · exact printable_append.mpr ⟨printable_of_all (by decide), printable_hexPair b⟩

theorem printable_range (first last : UInt8) : Printable (range first last) := by
  unfold range
  split
  · exact printable_byte first
  · simp only [printable_append]
    exact ⟨⟨printable_byte first, printable_of_all (by decide)⟩, printable_byte last⟩

theorem printable_run (bs : List UInt8) : Printable (run bs) := by
  cases bs with
  | nil => exact printable_of_all (by decide)
  | cons b bs => exact printable_range b _

theorem printable_sequence (bytes : List UInt8) : Printable (sequence bytes) := by
  have hquote : Printable "'" := printable_of_all (by decide)
  have htext : Printable (String.ofList (sequenceText bytes)) := by
    rw [printable_ofList]
    intro c hc
    obtain ⟨p, _, hp⟩ := List.mem_flatMap.mp hc
    exact not_isControl_of_mem_pieceText hp
  exact printable_append.mpr ⟨printable_append.mpr ⟨hquote, htext⟩, hquote⟩

theorem printable_repr (n : Nat) : Printable (Nat.repr n) := by
  intro c hc
  exact not_isControl_of_isDigit (isDigit_of_mem_repr hc)

theorem printable_code (c : Int32) : Printable (code c) := by
  have hnumber : Printable (Int.repr c.toInt) := by
    cases c.toInt with
    | ofNat n => exact printable_repr n
    | negSucc n => exact printable_append.mpr ⟨printable_of_all (by decide), printable_repr (n + 1)⟩
  exact printable_append.mpr ⟨printable_of_all (by decide), hnumber⟩

theorem printable_fallback (stays : Bool) : Printable (fallback stays) := by
  cases stays <;> exact printable_of_all (by decide)

theorem printable_join {labels : List String} (h : ∀ l ∈ labels, Printable l) :
    Printable (join labels) := by
  cases labels with
  | nil => exact printable_of_all (by decide)
  | cons l ls =>
    intro c hc
    rw [toList_join_cons] at hc
    rcases List.mem_append.mp hc with hc | hc
    · exact h l List.mem_cons_self c hc
    · obtain ⟨l', hl', hc⟩ := List.mem_flatMap.mp hc
      rcases List.mem_cons.mp hc with rfl | hc
      · rfl
      · exact h l' (List.mem_cons_of_mem l hl') c hc

theorem eq_backslash_or_mem_of_mem_encode {c : Char} {cs : List Char} (h : c ∈ Quoted.encode cs) :
    c = '\\' ∨ c ∈ cs := by
  induction cs with
  | nil => cases h
  | cons d cs ih =>
    have hstep : c = '\\' ∨ c = d ∨ c ∈ Quoted.encode cs := by
      by_cases hd : Quoted.isSpecial d
      · simpa [Quoted.encode, hd] using h
      · simpa [Quoted.encode, hd] using Or.inr (a := c = '\\') h
    rcases hstep with h | rfl | h
    · exact .inl h
    · exact .inr List.mem_cons_self
    · exact (ih h).imp_right (List.mem_cons_of_mem d)

theorem printable_escape {s : String} (h : Printable s) : Printable (escape s) := by
  intro c hc
  rw [toList_escape] at hc
  rcases eq_backslash_or_mem_of_mem_encode hc with rfl | hc
  · rfl
  · exact h c hc

end Label

theorem Node.printable_of_mem_arrows {ν : Type} [DecidableEq ν] {v : Node ν} {source : ν}
    {a : Arrow ν} (h : a ∈ v.arrows source) : Label.Printable a.label := by
  rcases List.mem_append.mp h with h | h
  · obtain ⟨b, _, rfl⟩ := List.mem_map.mp h
    apply Label.printable_join
    intro l hl
    rw [Bundle.labels] at hl
    split at hl
    · obtain ⟨c, _, rfl⟩ := List.mem_map.mp hl
      exact Label.printable_code c
    · rcases List.mem_append.mp hl with hl | hl
      · obtain ⟨bs, _, rfl⟩ := List.mem_map.mp hl
        exact Label.printable_run bs
      · obtain ⟨bs, _, rfl⟩ := List.mem_map.mp hl
        exact Label.printable_sequence bs
  · obtain ⟨b, _, rfl⟩ := List.mem_map.mp h
    exact Label.printable_fallback b.stays

def newlines (s : String) : Nat := s.toList.count '\n'

theorem newlines_append (s t : String) : newlines (s ++ t) = newlines s + newlines t := by
  simp [newlines]

theorem newlines_of_printable {s : String} (h : Label.Printable s) : newlines s = 0 := by
  rw [newlines, List.count_eq_zero]
  intro hmem
  have := h _ hmem
  cases this

theorem newlines_escape (s : String) : newlines (escape s) = newlines s := by
  rw [newlines, newlines, toList_escape]
  induction s.toList with
  | nil => rfl
  | cons c cs ih =>
    by_cases hc : Quoted.isSpecial c
    · simp [Quoted.encode, hc, List.count_cons, ih]
    · simp [Quoted.encode, hc, List.count_cons, ih]

theorem newlines_numbered (name : String) (k : Nat) : newlines (numbered name k) = newlines name := by
  have hnumber : newlines (toString k) = 0 := newlines_of_printable (Label.printable_repr k)
  have hbar : newlines "_" = 0 := rfl
  rw [numbered, newlines_append, newlines_append, hbar, hnumber]
  simp

theorem newlines_of_bears {name id : String} (h : Bears name id) : newlines id = newlines name := by
  rcases h with rfl | ⟨k, rfl⟩
  · rfl
  · exact newlines_numbered name k

def Statement.line (s : Statement) : String :=
  s!"  \"{escape s.source}\" -> \"{escape s.target}\" [label=\"{escape s.label}\" color=\"{s.color.name}\"];"

def attributeLine (a : String × String) : String := s!"  {a.1}=\"{escape a.2}\";"

theorem Statement.render_eq (s : Statement) : s.render = s.line ++ "\n" := by
  rw [← String.toList_inj]
  simp [render, edgeLine, line, indent, toString]

theorem render_attr_eq (a : String × String) :
    (Item.attr a.1 a.2).render = attributeLine a ++ "\n" := by
  rw [← String.toList_inj]
  simp [Item.render, attributeLine, indent, toString]

theorem Statement.newlines_line {s : Statement} (h : Label.Printable s.label) :
    newlines s.line = newlines (escape s.source) + newlines (escape s.target) := by
  have hlabel := newlines_of_printable (Label.printable_escape h)
  have hcolor : newlines s.color.name = 0 := by cases s.color <;> rfl
  have hfixed : newlines "  \"" = 0 ∧ newlines "\" -> \"" = 0 ∧ newlines "\" [label=\"" = 0 ∧
      newlines "\" color=\"" = 0 ∧ newlines "\"];" = 0 := ⟨rfl, rfl, rfl, rfl, rfl⟩
  simp only [line, toString, newlines_append, hlabel, hcolor, hfixed]
  omega

theorem newlines_attributeLine {a : String × String} (h : newlines a.1 = 0) :
    newlines (attributeLine a) = newlines a.2 := by
  have hfixed : newlines "  " = 0 ∧ newlines "=\"" = 0 ∧ newlines "\";" = 0 := ⟨rfl, rfl, rfl⟩
  simp only [attributeLine, toString, newlines_append, newlines_escape, h, hfixed]
  omega

/-- The lines of a text. Behind the last line end there is one more, which may be empty. -/
def lines (s : String) : List String := (s.toList.splitOn '\n').map String.ofList

theorem intercalate_concat_nil (xs : List (List Char)) :
    ['\n'].intercalate (xs ++ [[]]) = xs.flatMap (· ++ ['\n']) := by
  induction xs with
  | nil => rfl
  | cons x xs ih =>
    have hne : xs ++ [[]] ≠ [] := by simp
    rw [List.cons_append, List.intercalate_cons_of_ne_nil hne, ih, List.flatMap_cons]

/-- A text whose lines all have their ends is cut into these lines. -/
theorem lines_join {ls : List String} (h : ∀ l ∈ ls, newlines l = 0) :
    lines (String.join (ls.map (· ++ "\n"))) = ls ++ [""] := by
  have hnone : ∀ l ∈ ls.map String.toList ++ [[]], '\n' ∉ l := by
    intro l hl
    rcases List.mem_append.mp hl with hl | hl
    · obtain ⟨t, ht, rfl⟩ := List.mem_map.mp hl
      exact List.count_eq_zero.mp (h t ht)
    · rw [List.mem_singleton.mp hl]
      exact List.not_mem_nil
  have hjoin : (String.join (ls.map (· ++ "\n"))).toList =
      ['\n'].intercalate (ls.map String.toList ++ [[]]) := by
    rw [intercalate_concat_nil, String.toList_join, List.flatMap_map, List.flatMap_map]
    simp
  rw [lines, hjoin, List.splitOn_intercalate '\n' hnone (by simp)]
  simp

theorem newlines_join (ls : List String) :
    newlines (String.join (ls.map (· ++ "\n"))) = (ls.map newlines).sum + ls.length := by
  induction ls with
  | nil => rfl
  | cons l ls ih =>
    have hend : newlines "\n" = 1 := rfl
    rw [List.map_cons, String.join_cons, newlines_append, newlines_append, ih, hend, List.map_cons,
      List.sum_cons, List.length_cons]
    omega

namespace Document

def linesOf (attributes : List (String × String)) (statements : List Statement) : List String :=
  "digraph \x7b" :: (attributes.map attributeLine ++ statements.map Statement.line ++ ["\x7d"])

theorem render_ofStatements (attributes : List (String × String)) (statements : List Statement) :
    (ofStatements attributes statements).render =
      String.join ((linesOf attributes statements).map (· ++ "\n")) := by
  rw [← String.toList_inj, Reading.toList_render_ofStatements]
  simp [linesOf, List.flatMap_map, render_attr_eq, Statement.render_eq]

end Document

namespace Layout

/-- Of the attributes only the rank separation can hold line ends. -/
theorem sum_newlines_attributes (l : Layout) :
    (l.attributes.map fun a => newlines (attributeLine a)).sum =
      (l.rankSeparation.map newlines).getD 0 := by
  have hfixed : newlines (attributeLine ("rankdir", "LR")) = 0 ∧
      newlines (attributeLine ("overlap", "false")) = 0 ∧
      newlines (attributeLine ("splines", "true")) = 0 ∧
      newlines (attributeLine ("concentrate", "true")) = 0 := by decide
  have hkey : newlines "ranksep" = 0 := by decide
  have hrank (t : String) : newlines (attributeLine ("ranksep", t)) = newlines t :=
    newlines_attributeLine hkey
  rcases l with ⟨leftToRight, rankSeparation⟩
  cases leftToRight <;> cases rankSeparation <;> simp [attributes, hfixed, hrank]

end Layout

namespace Graph

variable {n : Nat}

theorem bears_drawnId (g : Graph n) (root v : Fin n) : Bears (g.name v) (g.drawnId root v) := by
  have hrun : g.identifiers root =
      Identifiers.run g.name ([] ++ (g.reachableFrom root).map .id) := by
    rw [Identifiers.run_append_asks]
    rfl
  rw [drawnId, hrun]
  exact Identifiers.bears_idOf g.name _ v

variable {g : Graph n} {root : Fin n} {bs : List Block}

theorem exists_arrow_of_mem_statements (h : g.blocks root = .ok bs) {s : Statement}
    (hs : s ∈ bs.flatMap (·.statements)) :
    ∃ a ∈ g.arrows root, a.statement (g.drawnId root) = s ∧ g.Reaches root a.source ∧
      g.Reaches root a.target := by
  rw [eq_map_arrowBlock h, flatMap_statements_arrowBlock] at hs
  obtain ⟨a, ha, rfl⟩ := List.mem_map.mp hs
  exact ⟨a, ha, rfl, reaches_of_mem_arrows (keyed_of_blocks h) ha⟩

theorem printable_of_mem_statements (h : g.blocks root = .ok bs) {s : Statement}
    (hs : s ∈ bs.flatMap (·.statements)) : Label.Printable s.label := by
  obtain ⟨a, ha, rfl, _⟩ := exists_arrow_of_mem_statements h hs
  obtain ⟨v, _, hv⟩ := List.mem_flatMap.mp ha
  exact Node.printable_of_mem_arrows hv

/-- Names without line ends leave none in a statement. -/
theorem newlines_line_of_names (h : g.blocks root = .ok bs)
    (hnames : ∀ v, g.Reaches root v → newlines (g.name v) = 0) {s : Statement}
    (hs : s ∈ bs.flatMap (·.statements)) : newlines s.line = 0 := by
  have hid {v : Fin n} (hv : g.Reaches root v) : newlines (escape (g.drawnId root v)) = 0 := by
    rw [newlines_escape, newlines_of_bears (g.bears_drawnId root v), hnames v hv]
  have hlabel := printable_of_mem_statements h hs
  obtain ⟨a, _, rfl, hsource, htarget⟩ := exists_arrow_of_mem_statements h hs
  rw [Statement.newlines_line hlabel]
  simp only [Arrow.statement, hid hsource, hid htarget]

end Graph

/-- The lines of a drawing that was made. No label holds a control character, so line ends beside
those of the frame and of each attribute and statement come from the rank separation and from the
identifiers at both ends of a statement. If none come from there, the lines are these and no
more. -/
theorem Renderer.lines_of_draw {n : Nat} {r : Renderer n} {g : Graph n} {root : Fin n} {d : Document}
    (h : (r.draw g root).1 = .ok d) :
    ∃ bs, (r.blocks g root).1 = .ok bs ∧
      let statements := bs.flatMap (·.statements)
      (∀ s ∈ statements, Label.Printable s.label ∧ Label.Printable (escape s.label)) ∧
      newlines d.render = 2 + r.layout.attributes.length + statements.length +
        (r.layout.rankSeparation.map newlines).getD 0 +
        (statements.map fun s => newlines (escape s.source) + newlines (escape s.target)).sum ∧
      ((∀ v, g.Reaches root v → newlines (g.name v) = 0) →
        (∀ t ∈ r.layout.rankSeparation, newlines t = 0) →
        lines d.render = "digraph \x7b" :: (r.layout.attributes.map attributeLine ++
          statements.map Statement.line ++ ["\x7d"]) ++ [""]) := by
  obtain ⟨bs, hbs, rfl⟩ := Graph.draw_eq_ok_iff.mp h
  have hlabel {s : Statement} (hs : s ∈ bs.flatMap (·.statements)) : Label.Printable s.label :=
    Graph.printable_of_mem_statements hbs hs
  have hattributes := r.layout.sum_newlines_attributes
  have hopen : newlines "digraph \x7b" = 0 := rfl
  have hclose : newlines "\x7d" = 0 := rfl
  refine ⟨bs, hbs, fun s hs => ⟨hlabel hs, Label.printable_escape (hlabel hs)⟩, ?_, ?_⟩
  · have hstatements : ((bs.flatMap (·.statements)).map fun s => newlines s.line) =
        (bs.flatMap (·.statements)).map fun s =>
          newlines (escape s.source) + newlines (escape s.target) :=
      List.map_congr_left fun s hs => Statement.newlines_line (hlabel hs)
    rw [Document.render_ofStatements, newlines_join, ← hstatements, ← hattributes]
    simp only [Document.linesOf, List.map_cons, List.map_append, List.map_map, List.sum_cons,
      List.sum_append, List.length_cons, List.length_append, List.length_map, hopen, hclose,
      Function.comp_def, List.map_nil, List.sum_nil, List.length_nil]
    omega
  · intro hnames hrank
    rw [Document.render_ofStatements]
    apply lines_join
    have hzero : (r.layout.attributes.map fun a => newlines (attributeLine a)).sum = 0 := by
      rw [hattributes]
      cases ht : r.layout.rankSeparation with
      | none => rfl
      | some t => exact hrank t (by rw [ht]; rfl)
    rw [List.sum_eq_zero_iff] at hzero
    intro l hl
    simp only [Document.linesOf, List.mem_cons, List.mem_append, List.mem_map, List.not_mem_nil,
      or_false] at hl
    rcases hl with rfl | (⟨a, ha, rfl⟩ | ⟨s, hs, rfl⟩) | rfl
    · exact hopen
    · exact hzero _ (List.mem_map_of_mem ha)
    · exact Graph.newlines_line_of_names hbs hnames hs
    · exact hclose

/-- Two nodes of one name, which lead to each other by a line feed and by other control
characters. -/
def unruly : Graph 2 :=
  ⟨.ofFn fun v => ⟨"a", [⟨v.rev, some (.bytes [0x0a]), v.val == 0⟩,
    ⟨v.rev, some (.bytes [0x0a, 0x00, 0x7f, 0xc2, 0x85]), v.val == 0⟩], none⟩⟩

theorem Renderer.lines_of_unruly :
    ∃ d, ((Renderer.new ⟨true, some "1"⟩).draw unruly 0).1 = .ok d ∧ newlines d.render = 9 ∧
      lines d.render = ["digraph \x7b", "  rankdir=\"LR\";", "  ranksep=\"1\";",
        "  overlap=\"false\";", "  splines=\"true\";", "  concentrate=\"true\";",
        "  \"a\" -> \"a_0\" [label=\"'\\\\n'|'\\\\n\\\\x00\\\\x7f\\\\xc2\\\\x85'\" color=\"blue\"];",
        "  \"a_0\" -> \"a\" [label=\"'\\\\n'|'\\\\n\\\\x00\\\\x7f\\\\xc2\\\\x85'\" color=\"black\"];",
        "\x7d", ""] := by
  have hd : ∃ d, ((Renderer.new ⟨true, some "1"⟩).draw unruly 0).1 = .ok d := ⟨_, by cbv⟩
  obtain ⟨d, hd⟩ := hd
  obtain ⟨bs, hbs, _, hcount, hlines⟩ := lines_of_draw hd
  have hdrawn : ((Renderer.new ⟨true, some "1"⟩).blocks unruly 0).1.map
      (fun bs => bs.flatMap (·.statements)) =
      .ok [⟨"a", "a_0", "'\\n'|'\\n\\x00\\x7f\\xc2\\x85'", .blue⟩,
        ⟨"a_0", "a", "'\\n'|'\\n\\x00\\x7f\\xc2\\x85'", .black⟩] := by cbv
  rw [hbs] at hdrawn
  have hstatements : bs.flatMap (·.statements) = _ := Except.ok.inj hdrawn
  have hnames : ∀ v, newlines (unruly.name v) = 0 := by decide
  have hrank : ∀ t ∈ some "1", newlines t = 0 := by decide
  rw [hstatements] at hcount hlines
  exact ⟨d, hd, hcount.trans (by cbv), (hlines (fun v _ => hnames v) hrank).trans (by cbv)⟩

end StateDiagram
