import Mathlib
import StateDiagram.Drawing

/-! Reading a drawing back. The reader knows the frame, attributes and edge statements, and
takes a quoted text up to the first double quote without a backslash. Whatever nodes are
called and whatever keys they have, it finds in a document what was drawn, and nothing else. -/
namespace StateDiagram

structure Reading where
  attributes : List (String × String)
  /-- The source, target, label and color of each edge statement. -/
  edges : List (String × String × String × String)
  deriving DecidableEq, Repr

def Statement.texts (s : Statement) : String × String × String × String :=
  (s.source, s.target, s.label, s.color.name)

namespace Reading

def skip (text : String) (s : List Char) : Option (List Char) := text.toList.isPrefixOf? s

def readQuoted (s : List Char) : Option (String × List Char) := do
  let (text, rest) ← Quoted.decode (← skip "\"" s)
  return (String.ofList text, rest)

/-- Read an attribute line. The key is a word of letters. -/
def readAttribute (s : List Char) : Option ((String × String) × List Char) := do
  let s ← skip "  " s
  let key := s.takeWhile Char.isAlpha
  let s ← skip "=" (s.dropWhile Char.isAlpha)
  let (value, s) ← readQuoted s
  let s ← skip ";\n" s
  return ((String.ofList key, value), s)

def readEdge (s : List Char) : Option ((String × String × String × String) × List Char) := do
  let s ← skip "  " s
  let (source, s) ← readQuoted s
  let s ← skip " -> " s
  let (target, s) ← readQuoted s
  let s ← skip " [label=" s
  let (label, s) ← readQuoted s
  let s ← skip " color=" s
  let (color, s) ← readQuoted s
  let s ← skip "];\n" s
  return ((source, target, label, color), s)

/-- Read one item after another, as long as there is one. An item that takes no text is none. -/
def readMany {α : Type} (read : List Char → Option (α × List Char)) (s : List Char) :
    List α × List Char :=
  match read s with
  | none => ([], s)
  | some (a, rest) =>
    if rest.length < s.length then
      let more := readMany read rest
      (a :: more.1, more.2)
    else ([], s)
termination_by s.length

end Reading

/-- Read a whole document: nothing may follow the closing brace but the end of its line. -/
def Reading.read? (document : String) : Option Reading := do
  let s ← skip "digraph \x7b\n" document.toList
  let (attributes, s) := readMany readAttribute s
  let (edges, s) := readMany readEdge s
  if s = "\x7d\n".toList then some ⟨attributes, edges⟩ else none

namespace Reading

theorem isPrefixOf?_append_self {α : Type} [DecidableEq α] (xs rest : List α) :
    xs.isPrefixOf? (xs ++ rest) = some rest := by
  induction xs with
  | nil => rfl
  | cons x xs ih => simp [List.isPrefixOf?, ih]

@[simp] theorem skip_append (text : String) (rest : List Char) :
    skip text (text.toList ++ rest) = some rest :=
  isPrefixOf?_append_self text.toList rest

def quote (text : String) : List Char := "\"".toList ++ Quoted.encode text.toList ++ "\"".toList

@[simp] theorem readQuoted_quote_append (text : String) (rest : List Char) :
    readQuoted (quote text ++ rest) = some (text, rest) := by
  have hd : Quoted.decode (Quoted.encode text.toList ++ ("\"".toList ++ rest)) =
      some (text.toList, rest) := Quoted.decode_encode text.toList rest
  simp only [readQuoted, quote, List.append_assoc, skip_append, Option.bind_eq_bind,
    Option.bind_some, hd, String.ofList_toList, Option.pure_def]

theorem toList_render_attr (key value : String) :
    (Item.attr key value).render.toList =
      "  ".toList ++ key.toList ++ "=".toList ++ quote value ++ ";\n".toList := by
  simp [Item.render, indent, quote, toString]

theorem encode_colorName (c : Color) : Quoted.encode c.name.toList = c.name.toList := by
  cases c <;> decide

theorem toList_render_edge (s : Statement) :
    s.render.toList = "  ".toList ++ quote s.source ++ " -> ".toList ++ quote s.target ++
      " [label=".toList ++ quote s.label ++ " color=".toList ++ quote s.color.name ++
      "];\n".toList := by
  simp [Statement.render, edgeLine, indent, quote, encode_colorName, toString]

theorem readEdge_render_append (s : Statement) (rest : List Char) :
    readEdge (s.render.toList ++ rest) = some (s.texts, rest) := by
  simp only [readEdge, toList_render_edge, List.append_assoc, skip_append,
    readQuoted_quote_append, Option.bind_eq_bind, Option.bind_some, Option.pure_def,
    Statement.texts]

theorem readAttribute_render_append {key : String} (hkey : key.toList.all Char.isAlpha)
    (value : String) (rest : List Char) :
    readAttribute ((Item.attr key value).render.toList ++ rest) = some ((key, value), rest) := by
  have hletters : ∀ c ∈ key.toList, c.isAlpha = true := by simpa using hkey
  have htake (s : List Char) :
      (key.toList ++ ("=".toList ++ s)).takeWhile Char.isAlpha = key.toList := by
    rw [List.takeWhile_append_of_pos hletters]
    simp
  have hdrop (s : List Char) :
      (key.toList ++ ("=".toList ++ s)).dropWhile Char.isAlpha = "=".toList ++ s := by
    rw [List.dropWhile_append_of_pos hletters]
    simp
  simp only [readAttribute, toList_render_attr, List.append_assoc, skip_append, htake, hdrop,
    readQuoted_quote_append, Option.bind_eq_bind, Option.bind_some, Option.pure_def,
    String.ofList_toList]

/-- An edge statement begins with a quote, so it is no attribute. -/
theorem readAttribute_render_edge_append (s : Statement) (rest : List Char) :
    readAttribute (s.render.toList ++ rest) = none := by
  simp [readAttribute, toList_render_edge, quote, skip, List.isPrefixOf?]

theorem readAttribute_close : readAttribute "\x7d\n".toList = none := by decide

theorem readEdge_close : readEdge "\x7d\n".toList = none := by decide

/-- A list of items is read up to the first text that is none. -/
theorem readMany_flatMap_append {α β : Type} {read : List Char → Option (β × List Char)}
    {write : α → List Char} {rest : List Char} (view : α → β) (xs : List α)
    (hread : ∀ a ∈ xs, ∀ s, read (write a ++ s) = some (view a, s))
    (hwrite : ∀ a ∈ xs, write a ≠ []) (hrest : read rest = none) :
    readMany read (xs.flatMap write ++ rest) = (xs.map view, rest) := by
  induction xs with
  | nil =>
    rw [List.flatMap_nil, List.nil_append, readMany, hrest]
    rfl
  | cons a xs ih =>
    have hlt : (xs.flatMap write ++ rest).length < ((a :: xs).flatMap write ++ rest).length := by
      have hpos := List.length_pos_iff.mpr (hwrite a List.mem_cons_self)
      simp only [List.flatMap_cons, List.length_append]
      omega
    have hmore := ih (fun b hb => hread b (List.mem_cons_of_mem a hb))
      (fun b hb => hwrite b (List.mem_cons_of_mem a hb))
    rw [readMany]
    simp only [List.flatMap_cons, List.append_assoc] at hlt ⊢
    rw [hread a List.mem_cons_self]
    simp only [hlt, if_true, hmore, List.map_cons]

theorem toList_render_ofStatements (attributes : List (String × String))
    (statements : List Statement) :
    (Document.ofStatements attributes statements).render.toList =
      "digraph \x7b\n".toList ++
        (attributes.flatMap (fun a => (Item.attr a.1 a.2).render.toList) ++
          (statements.flatMap (·.render.toList) ++ "\x7d\n".toList)) := by
  simp [Document.render, Document.ofStatements, List.flatMap_map, Item.render]

theorem readAttribute_statements (statements : List Statement) :
    readAttribute (statements.flatMap (·.render.toList) ++ "\x7d\n".toList) = none := by
  cases statements with
  | nil => exact readAttribute_close
  | cons s ss =>
    rw [List.flatMap_cons, List.append_assoc]
    exact readAttribute_render_edge_append s _

/-- Reading undoes writing, for any texts as values, ends and labels. -/
theorem read?_render_ofStatements {attributes : List (String × String)}
    (hkeys : ∀ a ∈ attributes, a.1.toList.all Char.isAlpha) (statements : List Statement) :
    read? (Document.ofStatements attributes statements).render =
      some ⟨attributes, statements.map Statement.texts⟩ := by
  have hattributes := readMany_flatMap_append id attributes
    (fun a ha s => readAttribute_render_append (hkeys a ha) a.2 s)
    (fun a _ => by simp [toList_render_attr]) (readAttribute_statements statements)
  have hedges := readMany_flatMap_append Statement.texts statements
    (fun s _ rest => readEdge_render_append s rest)
    (fun s _ => by simp [toList_render_edge]) readEdge_close
  simp only [read?, toList_render_ofStatements, skip_append, Option.bind_eq_bind,
    Option.bind_some, hattributes, hedges, if_true, List.map_id]

theorem isAlpha_of_mem_attributes (l : Layout) {a : String × String} (ha : a ∈ l.attributes) :
    a.1.toList.all Char.isAlpha := by
  have hkey : a.1 ∈ ["rankdir", "ranksep", "overlap", "splines", "concentrate"] := by
    simp only [Layout.attributes, List.mem_append, Option.mem_toList, Option.map_eq_some_iff] at ha
    rcases ha with (ha | ⟨s, _, rfl⟩) | ha
    · split at ha <;> simp_all
    · simp
    · simp only [List.mem_cons, List.not_mem_nil, or_false] at ha
      rcases ha with rfl | rfl | rfl <;> simp
  generalize a.1 = key at hkey
  simp only [List.mem_cons, List.not_mem_nil, or_false] at hkey
  rcases hkey with rfl | rfl | rfl | rfl | rfl <;> decide

/-- The text of a drawing that was made tells exactly what was drawn. -/
theorem read?_render_draw {n : Nat} (r : Renderer n) (g : Graph n) (root : Fin n) {d : Document}
    (h : (r.draw g root).1 = .ok d) :
    ∃ blocks, (r.blocks g root).1 = .ok blocks ∧
      read? d.render = some
        { attributes :=
            (if r.layout.leftToRight then [("rankdir", "LR")] else []) ++
              (r.layout.rankSeparation.map fun s => ("ranksep", s)).toList ++
              [("overlap", "false"), ("splines", "true"), ("concentrate", "true")]
          edges := (blocks.flatMap (·.statements)).map Statement.texts } := by
  simp only [Renderer.draw, Graph.draw] at h
  cases hb : g.blocks root with
  | error e => simp [hb, Except.map] at h
  | ok blocks =>
    obtain rfl : Document.ofStatements r.layout.attributes (blocks.flatMap (·.statements)) = d := by
      simpa [hb, Except.map] using h
    exact ⟨blocks, hb, read?_render_ofStatements (fun a ha => isAlpha_of_mem_attributes _ ha) _⟩

/-- A graph whose names and keys try to close quotes, lines and the document. -/
def hostile : Graph 2 :=
  ⟨#v[⟨"a\\", [⟨1, some (.bytes [0x22]), false⟩, ⟨0, some (.bytes [0x5d, 0x3b]), true⟩],
      some ⟨1, true⟩⟩, ⟨"\"];\n\x7d", [], none⟩]⟩

theorem read?_render_hostile :
    ∃ d, ((Renderer.new ⟨true, some "1\\"⟩).draw hostile 0).1 = .ok d ∧
      read? d.render = some
        { attributes := [("rankdir", "LR"), ("ranksep", "1\\"), ("overlap", "false"),
            ("splines", "true"), ("concentrate", "true")]
          edges := [("a\\", "\"];\n\x7d", "'\"'", "black"), ("a\\", "a\\", "'];'", "blue"),
            ("a\\", "\"];\n\x7d", "otherwise", "blue")] } := by
  have hd : ∃ d, ((Renderer.new ⟨true, some "1\\"⟩).draw hostile 0).1 = .ok d := ⟨_, by cbv⟩
  obtain ⟨d, hd⟩ := hd
  obtain ⟨blocks, hb, hread⟩ := read?_render_draw (.new ⟨true, some "1\\"⟩) hostile 0 hd
  have hdrawn : ((Renderer.new ⟨true, some "1\\"⟩).blocks hostile 0).1.map (fun bs =>
      (bs.flatMap (·.statements)).map Statement.texts) =
      .ok [("a\\", "\"];\n\x7d", "'\"'", "black"), ("a\\", "a\\", "'];'", "blue"),
        ("a\\", "\"];\n\x7d", "otherwise", "blue")] := by cbv
  rw [hb] at hdrawn
  have hedges : (blocks.flatMap (·.statements)).map Statement.texts = _ := Except.ok.inj hdrawn
  rw [hedges] at hread
  exact ⟨d, hd, hread⟩

end Reading
end StateDiagram
